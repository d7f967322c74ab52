/-
  Output captured in memory.

  While a table is open, text goes there and nowhere else; tables nest.  What
  is asked of the streams is kept in a ledger: the open tables with the text
  that each has taken, and the text that was shown.  Image and host always
  agree with the ledger, and no byte outside of the tables is written.
-/
import Mathlib.Data.List.Infix
import ZMachine.Proofs.Printing

namespace ZMachine
namespace Capture

/-! ## Requests -/

/-- The streams, the image and the host. -/
structure Output where
  streams : OutputStreams
  memory : Memory
  host : Host

/-- What is asked of the streams. -/
inductive Request where
  | openTable (table : Word)
  | closeTable
  | write (text : String)

namespace Output

/-- Select a stream. -/
def select (o : Output) (number : Int) (table : Option Word) : Except Fault Output :=
  match o.streams.select number table o.memory with
  | .ok streams memory => .ok { o with streams, memory }
  | .error e _ => .error e

/-- Send text to the streams, and show what goes out of memory. -/
def write (t : TextTables) (o : Output) (text : String) : Except Fault Output :=
  match o.streams.write t text o.memory with
  | .ok delivery memory => .ok { o with memory, host := o.host.deliver delivery text }
  | .error e _ => .error e

/-- Meet a request. -/
def handle (t : TextTables) (o : Output) : Request → Except Fault Output
  | .openTable table => o.select 3 (some table)
  | .closeTable => o.select (-3) none
  | .write text => o.write t text

/-- Meet requests one after the other. -/
def handleAll (t : TextTables) (o : Output) (rs : List Request) : Except Fault Output :=
  rs.foldlM (handle t) o

end Output

/-! ## The ledger -/

/-- A table that is open, and the text that it has taken. -/
structure Table where
  place : Nat
  text : List Char := []
deriving DecidableEq, Repr, Inhabited

/-- Where a table ends: behind the count and the codes. -/
def Table.stop (x : Table) : Nat := x.place + 2 + x.text.length

/-- What was asked for. -/
structure Ledger where
  /-- Open tables, the innermost first. -/
  tables : List Table := []
  /-- Texts that were written while no table was open. -/
  shown : List String := []

/-- Enter a request.  The innermost table takes text; the one around it goes on when it is
closed. -/
def Ledger.record (l : Ledger) : Request → Ledger
  | .openTable table => { l with tables := { place := table.toNat } :: l.tables }
  | .closeTable => { l with tables := l.tables.tail }
  | .write text =>
      if text = "" then l
      else
        match l.tables with
        | [] => { l with shown := l.shown ++ [text] }
        | x :: xs => { l with tables := { x with text := x.text ++ text.toList } :: xs }

/-- The ledger of requests. -/
def ledger (rs : List Request) : Ledger := rs.foldl Ledger.record {}

/-- Open tables have room: they are few, stand apart from the header and from one another, lie
within the image, and their counts have 16 bits. -/
structure Roomy (size : Nat) (xs : List Table) : Prop where
  nesting : xs.length ≤ maxOpenTables
  header : ∀ x ∈ xs, headerSize ≤ x.place
  inside : ∀ x ∈ xs, x.stop ≤ size
  short : ∀ x ∈ xs, x.text.length < 65536
  apart : xs.Pairwise fun x y => x.stop ≤ y.place ∨ y.stop ≤ x.place

instance (size : Nat) (xs : List Table) : Decidable (Roomy size xs) :=
  decidable_of_iff (xs.length ≤ maxOpenTables ∧ (∀ x ∈ xs, headerSize ≤ x.place) ∧
      (∀ x ∈ xs, x.stop ≤ size) ∧ (∀ x ∈ xs, x.text.length < 65536) ∧
      xs.Pairwise fun x y => x.stop ≤ y.place ∨ y.stop ≤ x.place)
    ⟨fun ⟨nesting, header, inside, short, apart⟩ => ⟨nesting, header, inside, short, apart⟩,
      fun h => ⟨h.nesting, h.header, h.inside, h.short, h.apart⟩⟩

/-- Every ledger on the way from `l` has room in an image of this size. -/
def AlwaysRoomy (size : Nat) (l : Ledger) (rs : List Request) : Prop :=
  ∀ p, p <+: rs → Roomy size (p.foldl Ledger.record l).tables

instance (size : Nat) (l : Ledger) (rs : List Request) : Decidable (AlwaysRoomy size l rs) :=
  decidable_of_iff (∀ p ∈ rs.inits, Roomy size (p.foldl Ledger.record l).tables)
    ⟨fun h p before => h p ((List.mem_inits p rs).mpr before),
      fun h p mem => h p ((List.mem_inits p rs).mp mem)⟩

/-- Bytes that no table reaches on the way from `l`. -/
def Untouched (l : Ledger) (rs : List Request) (a : Nat) : Prop :=
  ∀ p, p <+: rs → ∀ x ∈ (p.foldl Ledger.record l).tables, a < x.place ∨ x.stop ≤ a

/-! ## Codes -/

/-- The code that stands for a character in a table. -/
def capturedCode (t : TextTables) (c : Char) : Nat :=
  if c = '\n' then 13 else (t.zsciiOfChar c).getD '?'.toNat

/-- With few extra characters, all codes are bytes. -/
theorem toNat_tableCode {t : TextTables} (few : t.extra.length ≤ 97) (c : Char) :
    (OutputStreams.tableCode t c).toNat = capturedCode t c := by
  unfold OutputStreams.tableCode capturedCode
  -- Each kind of character has its own range of codes; the extra ones are the highest.
  by_cases newline : c = '\n'
  · rw [if_pos newline, if_pos newline]
    rfl
  · rw [if_neg newline, if_neg newline]
    apply UInt8.toNat_ofNat_of_lt'
    show _ < 256
    unfold TextTables.zsciiOfChar
    by_cases ends : c = '\n' ∨ c = '\r'
    · rw [if_pos ends]
      decide
    · rw [if_neg ends]
      by_cases plain : ' ' ≤ c ∧ c ≤ '~'
      · rw [if_pos plain]
        have high : c.toNat ≤ '~'.toNat := plain.2
        exact Nat.lt_of_le_of_lt high (by decide)
      · rw [if_neg plain]
        cases there : t.extra.idxOf? c with
        | none => decide
        | some i =>
            obtain ⟨bound, -⟩ := List.findIdx?_eq_some_iff_getElem.mp there
            show 155 + i < 256
            omega

/-! ## Text in a table -/

/-- The text of a table is in the image: its first word counts the codes that follow. -/
structure Stored (t : TextTables) (m : Memory) (x : Table) : Prop where
  count : (m.wordAt x.place).toNat = x.text.length
  codes : ∀ i c, x.text[i]? = some c → (m.byteAt (x.place + 2 + i)).toNat = capturedCode t c

/-- What a table has taken stays while its bytes stay. -/
theorem Stored.of_same {t : TextTables} {m n : Memory} {x : Table} (h : Stored t m x)
    (same : ∀ a, x.place ≤ a → a < x.stop → n.byteAt a = m.byteAt a) : Stored t n x := by
  have stop : x.stop = x.place + 2 + x.text.length := rfl
  constructor
  · rw [← h.count]
    rw [Memory.wordAt_congr fun a low high => same a low (by omega)]
  · intro i c there
    obtain ⟨bound, -⟩ := List.getElem?_eq_some_iff.mp there
    rw [same _ (by omega) (by omega)]
    exact h.codes i c there

/-- Codes are appended behind those that the table holds. -/
theorem run_appendCodes (table : Nat) (count : Word) (codes : List Byte) (m : Memory)
    (inside : table + 2 + count.toNat + codes.length ≤ m.size)
    (short : count.toNat + codes.length < 65536) :
    ∃ w n, OutputStreams.appendCodes table count codes m = .ok w n ∧
      w.toNat = count.toNat + codes.length ∧ n.size = m.size ∧
      (∀ i b, codes[i]? = some b → n.byteAt (table + 2 + count.toNat + i) = b) ∧
      ∀ a, (a < table + 2 + count.toNat ∨ table + 2 + count.toNat + codes.length ≤ a) →
        n.byteAt a = m.byteAt a := by
  -- By induction on the codes: each of them goes one place further, and the count with it.
  induction codes generalizing count m with
  | nil => exact ⟨count, m, rfl, rfl, rfl, nofun, fun _ _ => rfl⟩
  | cons b bs ih =>
      rw [List.length_cons] at inside short
      have next : (count + 1).toNat = count.toNat + 1 := by
        rw [UInt16.toNat_add]
        show (count.toNat + 1) % 65536 = _
        omega
      have fits : table + 2 + count.toNat + [b].length ≤ m.size := by
        show _ + 1 ≤ _
        omega
      have wrote : MemoryM.writeByte (table + 2 + count.toNat) b m
          = .ok () (m.commit (table + 2 + count.toNat) [b]) :=
        MemoryM.run_writeBytes (List.cons_ne_nil _ _) fits
      obtain ⟨w, n, ran, counted, size, codes, others⟩ :=
        ih (count + 1) (m.commit (table + 2 + count.toNat) [b])
          (by rw [Memory.size_commit, next]; omega) (by omega)
      rw [Memory.size_commit] at size
      rw [next] at counted codes others
      refine ⟨w, n, ?_, by rw [counted, List.length_cons]; omega, size, ?_, ?_⟩
      · rw [OutputStreams.appendCodes, run_bind, wrote]
        exact ran
      · intro i b' there
        cases i with
        | zero =>
            cases there
            rw [Nat.add_zero, others _ (by omega),
              m.byteAt_commit_of_inside (Nat.le_refl _) (by simp) fits, Nat.sub_self]
            rfl
        | succ i =>
            have later := codes i b' there
            rwa [show table + 2 + (count.toNat + 1) + i
              = table + 2 + count.toNat + (i + 1) by omega]
              at later
      · intro a outside
        rw [List.length_cons] at outside
        rw [others a (by omega), m.byteAt_commit_of_outside]
        show _ ∨ _ + 1 ≤ a
        omega

/-- A table goes on where it stopped, and nothing else is written. -/
theorem run_writeToTable {t : TextTables} (few : t.extra.length ≤ 97) {m : Memory} {x : Table}
    (stored : Stored t m x) (text : List Char)
    (inside : x.place + 2 + (x.text ++ text).length ≤ m.size)
    (short : (x.text ++ text).length < 65536) :
    ∃ n, OutputStreams.writeToTable t x.place text m = .ok () n ∧ n.size = m.size ∧
      Stored t n { x with text := x.text ++ text } ∧
      ∀ a, (a < x.place ∨ x.place + 2 + (x.text ++ text).length ≤ a) →
        n.byteAt a = m.byteAt a := by
  rw [List.length_append] at inside short
  have count := stored.count
  have length : (text.map (OutputStreams.tableCode t)).length = text.length := List.length_map ..
  obtain ⟨w, n, ran, counted, size, codes, others⟩ :=
    run_appendCodes x.place (m.wordAt x.place) (text.map (OutputStreams.tableCode t)) m
      (by omega) (by omega)
  rw [count, length] at counted others
  rw [count] at codes
  have fits : x.place + 2 ≤ n.size := by omega
  have two : (Word.bytes w).length = 2 := rfl
  -- The count is written last, in front of the codes, which stay as they are.
  refine ⟨n.commit x.place (Word.bytes w), ?_, by rw [Memory.size_commit, size], ⟨?_, ?_⟩, ?_⟩
  · unfold OutputStreams.writeToTable
    rw [run_bind, OutputStreams.run_readWord, if_pos (by omega)]
    show (OutputStreams.appendCodes x.place (m.wordAt x.place) _ >>= _) m = _
    rw [run_bind, ran]
    exact MemoryM.run_writeWord w fits
  · show ((n.commit x.place (Word.bytes w)).wordAt x.place).toNat = (x.text ++ text).length
    rw [n.wordAt_commit w fits, counted, List.length_append]
  · intro i c there
    show ((n.commit x.place (Word.bytes w)).byteAt (x.place + 2 + i)).toNat = _
    rw [n.byteAt_commit_of_outside (.inr (by omega))]
    by_cases old : i < x.text.length
    · rw [List.getElem?_append_left old] at there
      rw [others _ (.inl (by omega))]
      exact stored.codes i c there
    · rw [List.getElem?_append_right (by omega)] at there
      have new := codes (i - x.text.length) (OutputStreams.tableCode t c)
        (by rw [List.getElem?_map, there]; rfl)
      rw [show x.place + 2 + x.text.length + (i - x.text.length) = x.place + 2 + i by omega] at new
      rw [new, toNat_tableCode few]
  · intro a outside
    rw [List.length_append] at outside
    rw [n.byteAt_commit_of_outside (by omega), others a (by omega)]

/-! ## One request -/

/-- Where text goes while no table is open. -/
def Output.audience (o : Output) : Delivery where
  screen := o.streams.screen
  transcript := o.memory.wordAt HeaderField.flags2 &&& transcriptBit != 0

/-- After what the ledger says, `start` has become `o`. -/
structure Agrees (t : TextTables) (start : Output) (l : Ledger) (o : Output) : Prop where
  screen : o.streams.screen = start.streams.screen
  tables : o.streams.tables = l.tables.map Table.place
  size : o.memory.size = start.memory.size
  stored : ∀ x ∈ l.tables, Stored t o.memory x
  host : o.host = l.shown.foldl (·.deliver start.audience) start.host
  header : ∀ a < headerSize, o.memory.byteAt a = start.memory.byteAt a

/-- Outside of these tables the bytes of two images are the same. -/
def SameOutside (xs : List Table) (m n : Memory) : Prop :=
  ∀ a, (∀ x ∈ xs, a < x.place ∨ x.stop ≤ a) → n.byteAt a = m.byteAt a

theorem SameOutside.header {xs : List Table} {m n : Memory} {size : Nat} (h : SameOutside xs m n)
    (roomy : Roomy size xs) {a : Nat} (inside : a < headerSize) : n.byteAt a = m.byteAt a := by
  apply h
  intro x mem
  have above := roomy.header x mem
  omega

/-- What the other tables have taken stays when only the innermost is written. -/
theorem stored_behind {t : TextTables} {m n : Memory} {x : Table} {xs : List Table} {size : Nat}
    (roomy : Roomy size (x :: xs)) (frame : SameOutside [x] m n) {y : Table} (mem : y ∈ xs)
    (h : Stored t m y) : Stored t n y := by
  have apart := List.rel_of_pairwise_cons roomy.apart mem
  apply h.of_same
  intro a low high
  apply frame
  intro z mem
  rw [List.mem_singleton.mp mem]
  omega

section

variable {t : TextTables} {start o : Output} {l : Ledger}

theorem handle_openTable (agrees : Agrees t start l o) (table : Word)
    (roomy : Roomy start.memory.size (l.record (.openTable table)).tables) :
    ∃ o', o.handle t (.openTable table) = .ok o' ∧
      Agrees t start (l.record (.openTable table)) o' ∧
      SameOutside (l.record (.openTable table)).tables o.memory o'.memory := by
  have nesting : l.tables.length + 1 ≤ maxOpenTables := roomy.nesting
  have few : ¬maxOpenTables ≤ o.streams.tables.length := by
    rw [agrees.tables, List.length_map]
    omega
  have fits : table.toNat + 2 ≤ o.memory.size := by
    rw [agrees.size]
    exact roomy.inside _ List.mem_cons_self
  -- Opening a table writes a count of 0 there, and nothing else.
  have opened : o.streams.select 3 (some table) o.memory = .ok
      { o.streams with tables := table.toNat :: o.streams.tables }
      (o.memory.commit table.toNat (Word.bytes 0)) := by
    show o.streams.openTable table.toNat o.memory = _
    unfold OutputStreams.openTable
    simp only [if_neg few, run_bind, MemoryM.run_writeWord 0 fits]
    rfl
  have frame : SameOutside [{ place := table.toNat }] o.memory
      (o.memory.commit table.toNat (Word.bytes 0)) := by
    intro a outside
    have outside : a < table.toNat ∨ table.toNat + 2 ≤ a := outside _ (List.mem_singleton.mpr rfl)
    exact o.memory.byteAt_commit_of_outside outside
  have outside : SameOutside (l.record (.openTable table)).tables o.memory
      (o.memory.commit table.toNat (Word.bytes 0)) := by
    intro a outside
    apply frame
    intro x mem
    exact outside x (List.mem_singleton.mp mem ▸ List.mem_cons_self)
  refine ⟨_, by rw [Output.handle, Output.select, opened], ?_, outside⟩
  exact {
    screen := agrees.screen
    tables := congrArg (table.toNat :: ·) agrees.tables
    size := (Memory.size_commit ..).trans agrees.size
    stored := by
      intro x mem
      cases mem with
      | head =>
          refine ⟨?_, nofun⟩
          rw [o.memory.wordAt_commit 0 fits]
          rfl
      | tail _ mem => exact stored_behind roomy frame mem (agrees.stored x mem)
    host := agrees.host
    header := fun a inside => (outside.header roomy inside).trans (agrees.header a inside) }

theorem handle_closeTable (agrees : Agrees t start l o) :
    ∃ o', o.handle t .closeTable = .ok o' ∧ Agrees t start (l.record .closeTable) o' ∧
      o'.memory = o.memory := by
  refine ⟨{ o with streams := { o.streams with tables := o.streams.tables.tail } }, rfl, ?_, rfl⟩
  exact {
    screen := agrees.screen
    tables := (congrArg List.tail agrees.tables).trans List.map_tail.symm
    size := agrees.size
    stored := fun x mem => agrees.stored x (List.mem_of_mem_tail mem)
    host := agrees.host
    header := agrees.header }

/-- Text that is written while no table is open is shown. -/
theorem handle_write_shown (whole : headerSize ≤ start.memory.size) (agrees : Agrees t start l o)
    {text : String} (nonempty : text ≠ "") (outside : l.tables = []) :
    ∃ o', o.handle t (.write text) = .ok o' ∧ Agrees t start (l.record (.write text)) o' ∧
      o'.memory = o.memory := by
  have recorded : l.record (.write text) = { l with shown := l.shown ++ [text] } := by
    simp only [Ledger.record, if_neg nonempty, outside]
  have tables : o.streams.tables = [] := by
    rw [agrees.tables, outside]
    rfl
  have inside : HeaderField.flags2 + 2 ≤ o.memory.size := by
    rw [agrees.size]
    exact Nat.le_trans (by decide) whole
  -- No table reaches the header, so the transcript is on or off as it was.
  have flags : o.memory.wordAt HeaderField.flags2 = start.memory.wordAt HeaderField.flags2 :=
    Memory.wordAt_congr fun a _ high => agrees.header a (Nat.lt_of_lt_of_le high (by decide))
  have transcript : OutputStreams.transcriptOn o.memory = .ok start.audience.transcript := by
    unfold OutputStreams.transcriptOn
    rw [Memory.readWord_eq_ok.mpr ⟨inside, flags⟩]
    rfl
  have written : o.streams.write t text o.memory = .ok start.audience o.memory := by
    rw [Machine.write_outside tables t nonempty, transcript, agrees.screen]
    rfl
  rw [recorded]
  refine ⟨{ o with host := o.host.deliver start.audience text },
    by rw [Output.handle, Output.write, written], ?_, rfl⟩
  exact {
    screen := agrees.screen
    tables := agrees.tables
    size := agrees.size
    stored := agrees.stored
    host := by
      rw [List.foldl_append, ← agrees.host]
      rfl
    header := agrees.header }

/-- Text that is written while a table is open goes to the innermost one. -/
theorem handle_write_kept (few : t.extra.length ≤ 97) (agrees : Agrees t start l o) {text : String}
    (nonempty : text ≠ "") {x : Table} {xs : List Table} (innermost : l.tables = x :: xs)
    (roomy : Roomy start.memory.size (l.record (.write text)).tables) :
    ∃ o', o.handle t (.write text) = .ok o' ∧ Agrees t start (l.record (.write text)) o' ∧
      SameOutside (l.record (.write text)).tables o.memory o'.memory := by
  have recorded : (l.record (.write text)).tables
      = { x with text := x.text ++ text.toList } :: xs := by
    simp only [Ledger.record, if_neg nonempty, innermost]
  have shown : (l.record (.write text)).shown = l.shown := by
    simp only [Ledger.record, if_neg nonempty, innermost]
  have tables : o.streams.tables = x.place :: xs.map Table.place := by
    rw [agrees.tables, innermost]
    rfl
  have stored (y : Table) (mem : y ∈ x :: xs) : Stored t o.memory y :=
    agrees.stored y (innermost ▸ mem)
  rw [recorded] at roomy ⊢
  have inside : x.place + 2 + (x.text ++ text.toList).length ≤ o.memory.size := by
    rw [agrees.size]
    exact roomy.inside _ List.mem_cons_self
  obtain ⟨m, ran, size, now, frame⟩ := run_writeToTable few (stored x List.mem_cons_self)
    text.toList inside (roomy.short _ List.mem_cons_self)
  have written : o.streams.write t text o.memory = .ok ⟨false, false⟩ m := by
    rw [Machine.write_inside tables t nonempty, ran]
  -- Only the innermost table is written, so the tables behind it keep what they took.
  have only : SameOutside [{ x with text := x.text ++ text.toList }] o.memory m :=
    fun a outside => frame a (outside _ List.mem_cons_self)
  have outside : SameOutside ({ x with text := x.text ++ text.toList } :: xs) o.memory m :=
    fun a outside => frame a (outside _ List.mem_cons_self)
  refine ⟨_, by rw [Output.handle, Output.write, written], ?_, outside⟩
  exact {
    screen := agrees.screen
    tables := by
      rw [recorded]
      exact tables
    size := size.trans agrees.size
    stored := by
      rw [recorded]
      intro y mem
      cases mem with
      | head => exact now
      | tail _ mem => exact stored_behind roomy only mem (stored y (List.mem_cons_of_mem _ mem))
    host := by
      rw [shown]
      exact agrees.host
    header := fun a inside => (outside.header roomy inside).trans (agrees.header a inside) }

theorem handle_write (few : t.extra.length ≤ 97) (whole : headerSize ≤ start.memory.size)
    (agrees : Agrees t start l o) (text : String)
    (roomy : Roomy start.memory.size (l.record (.write text)).tables) :
    ∃ o', o.handle t (.write text) = .ok o' ∧ Agrees t start (l.record (.write text)) o' ∧
      SameOutside (l.record (.write text)).tables o.memory o'.memory := by
  by_cases empty : text = ""
  · subst empty
    exact ⟨o, rfl, agrees, fun _ _ => rfl⟩
  · cases innermost : l.tables with
    | nil =>
        obtain ⟨o', handled, agrees', same⟩ := handle_write_shown whole agrees empty innermost
        exact ⟨o', handled, agrees', fun _ _ => by rw [same]⟩
    | cons x xs => exact handle_write_kept few agrees empty innermost roomy

end

/-! ## All requests -/

/-- Meeting one request keeps image and host in agreement with the ledger. -/
theorem handle_step {t : TextTables} {start o : Output} {l : Ledger} (few : t.extra.length ≤ 97)
    (whole : headerSize ≤ start.memory.size) (agrees : Agrees t start l o) (r : Request)
    (roomy : Roomy start.memory.size (l.record r).tables) :
    ∃ o', o.handle t r = .ok o' ∧ Agrees t start (l.record r) o' ∧
      SameOutside (l.record r).tables o.memory o'.memory := by
  cases r with
  | openTable table => exact handle_openTable agrees table roomy
  | closeTable =>
      obtain ⟨o', handled, agrees, same⟩ := handle_closeTable agrees
      exact ⟨o', handled, agrees, fun a _ => by rw [same]⟩
  | write text => exact handle_write few whole agrees text roomy

theorem handleAll_agrees {t : TextTables} {start o : Output} {l : Ledger}
    (few : t.extra.length ≤ 97) (whole : headerSize ≤ start.memory.size)
    (agrees : Agrees t start l o) (rs : List Request)
    (roomy : AlwaysRoomy start.memory.size l rs) :
    ∃ o', o.handleAll t rs = .ok o' ∧ Agrees t start (rs.foldl Ledger.record l) o' ∧
      ∀ a, Untouched l rs a → o'.memory.byteAt a = o.memory.byteAt a := by
  induction rs generalizing l o with
  | nil => exact ⟨o, rfl, agrees, fun _ _ => rfl⟩
  | cons r rs ih =>
      -- The requests so far, and what they ask of the room, are read from the front.
      have along {p : List Request} (before : p <+: rs) : r :: p <+: r :: rs :=
        List.cons_prefix_cons.mpr ⟨rfl, before⟩
      have first := along (List.nil_prefix (l := rs))
      obtain ⟨o₁, handled, agrees₁, frame⟩ :=
        handle_step few whole agrees r (roomy [r] first)
      obtain ⟨o₂, rest, agrees₂, frames⟩ :=
        ih agrees₁ fun p before => roomy (r :: p) (along before)
      refine ⟨o₂, ?_, agrees₂, ?_⟩
      · rw [Output.handleAll, List.foldlM_cons, handled]
        exact rest
      · intro a untouched
        rw [frames a fun p before => untouched (r :: p) (along before)]
        exact frame a (untouched [r] first)

/-- The table is in the image: the number of characters that it took, and their codes in order. -/
structure Captured (t : TextTables) (m : Memory) (x : Table) : Prop where
  count : ∃ w, m.readWord x.place = .ok w ∧ w.toNat = x.text.length
  codes : ∃ bs, m.readBytes (x.place + 2) x.text.length = .ok bs ∧
    bs.map UInt8.toNat = x.text.map (capturedCode t)

theorem Stored.captured {t : TextTables} {m : Memory} {x : Table} (h : Stored t m x)
    (inside : x.stop ≤ m.size) : Captured t m x := by
  have stop : x.stop = x.place + 2 + x.text.length := rfl
  constructor
  · exact ⟨_, Memory.readWord_eq_ok.mpr ⟨by omega, rfl⟩, h.count⟩
  · have checked : m.check (x.place + 2) x.text.length = .ok () := Memory.check_eq_ok.mpr inside
    have size : x.place + 2 + x.text.length ≤ m.bytes.size := inside
    refine ⟨_, by rw [Memory.readBytes, checked]; rfl, ?_⟩
    apply List.ext_getElem
    · rw [List.length_map, List.length_map, Array.length_toList, Array.size_extract]
      omega
    · intro i here there
      rw [List.length_map] at there
      have within : x.place + 2 + i < m.bytes.size := by omega
      rw [List.getElem_map, List.getElem_map, Array.getElem_toList, Array.getElem_extract,
        ← h.codes i _ (List.getElem?_eq_getElem there)]
      unfold Memory.byteAt
      rw [Array.getD_eq_getD_getElem?, Array.getElem?_eq_getElem within]
      rfl

/-- Before anything is asked for, image and host are what they are. -/
theorem Agrees.start (t : TextTables) {o : Output} (idle : o.streams.tables = []) :
    Agrees t o {} o where
  screen := rfl
  tables := idle
  size := rfl
  stored := nofun
  host := rfl
  header := fun _ _ => rfl

/-- Requests are met as the ledger says, whenever tables have room: every open table holds the text
that it took while it was the innermost, only text that was written while no table was open was
shown, and bytes that no table reached are what they were.  A table that is closed is complete. -/
theorem captures_in_ledger {t : TextTables} (few : t.extra.length ≤ 97) {o : Output}
    (idle : o.streams.tables = []) (whole : headerSize ≤ o.memory.size) (rs : List Request)
    (roomy : AlwaysRoomy o.memory.size {} rs) :
    ∃ o', o.handleAll t rs = .ok o' ∧
      o'.streams.tables = (ledger rs).tables.map Table.place ∧
      (∀ x ∈ (ledger rs).tables, Captured t o'.memory x) ∧
      o'.host = (ledger rs).shown.foldl (·.deliver o.audience) o.host ∧
      o'.memory.size = o.memory.size ∧
      (∀ a, Untouched {} rs a → o'.memory.byteAt a = o.memory.byteAt a) ∧
      ∀ before x xs, before ++ [.closeTable] <+: rs → (ledger before).tables = x :: xs →
        ∃ closed, o.handleAll t (before ++ [.closeTable]) = .ok closed ∧
          closed.streams.tables = xs.map Table.place ∧ Captured t closed.memory x := by
  obtain ⟨o', ran, agrees, frame⟩ :=
    handleAll_agrees few whole (Agrees.start t idle) rs roomy
  refine ⟨o', ran, agrees.tables, ?_, agrees.host, agrees.size, frame, ?_⟩
  · intro x mem
    have inside := (roomy rs (List.prefix_refl rs)).inside x mem
    exact (agrees.stored x mem).captured (agrees.size ▸ inside)
  · intro before x xs within opened
    have earlier : before <+: rs := (List.prefix_append before _).trans within
    obtain ⟨o₁, ran₁, agrees₁, -⟩ :=
      handleAll_agrees few whole (Agrees.start t idle) before
        fun p h => roomy p (h.trans earlier)
    -- The request to close leaves the image alone.
    obtain ⟨closed, handled, agrees₂, same⟩ := handle_closeTable agrees₁
    have mem : x ∈ (ledger before).tables := by
      rw [opened]
      exact List.mem_cons_self
    have inside := (roomy before earlier).inside x mem
    refine ⟨closed, ?_, ?_, ?_⟩
    · rw [Output.handleAll, List.foldlM_append]
      show (o.handleAll t before >>= _) = _
      rw [ran₁]
      show (o₁.handle t .closeTable >>= pure) = _
      rw [handled]
      rfl
    · rw [agrees₂.tables]
      show ((ledger before).tables.tail).map _ = _
      rw [opened]
      rfl
    · rw [same]
      exact (agrees₁.stored x mem).captured (agrees₁.size ▸ inside)

/-- Text tables with the usual extra characters. -/
def usualText : TextTables :=
  { version := 5, abbreviations := 0, alphabets := .default 5, extra := defaultExtra }

/-- An image of zeros, the screen, and a host that keeps what it is shown. -/
def blank : Output := { streams := {}, memory := .ofBytes (Array.replicate 128 0), host := {} }

/-- A table within another, and text after both. -/
def nestedRequests : List Request :=
  [.openTable 64, .write "a", .openTable 96, .write "ä→\n", .closeTable, .write "b", .closeTable,
    .write "e"]

theorem captures_in_ledger_nested :
    usualText.extra.length ≤ 97 ∧ blank.streams.tables = [] ∧ headerSize ≤ blank.memory.size ∧
      AlwaysRoomy blank.memory.size {} nestedRequests ∧
      (∃ o', blank.handleAll usualText nestedRequests = .ok o' ∧ o'.host.output = "e") ∧
      ∃ closed bs, blank.handleAll usualText (nestedRequests.take 5) = .ok closed ∧
        closed.streams.tables = [64] ∧ closed.memory.readBytes 98 3 = .ok bs ∧
        bs.map UInt8.toNat = [155, 63, 13] := by
  have few : usualText.extra.length ≤ 97 := by decide +kernel
  have roomy : AlwaysRoomy blank.memory.size {} nestedRequests := by decide +kernel
  have whole : headerSize ≤ blank.memory.size := by decide +kernel
  obtain ⟨o', ran, -, -, host, -, -, closes⟩ :=
    captures_in_ledger few (o := blank) rfl whole nestedRequests roomy
  have within : nestedRequests.take 4 ++ [.closeTable] <+: nestedRequests :=
    List.take_prefix 5 nestedRequests
  have opened : (ledger (nestedRequests.take 4)).tables =
      [{ place := 96, text := ['ä', '→', '\n'] }, { place := 64, text := ['a'] }] := by
    decide +kernel
  obtain ⟨closed, ran₅, tables, captured⟩ := closes (nestedRequests.take 4) _ _ within opened
  obtain ⟨bs, read, codes⟩ := captured.codes
  refine ⟨few, rfl, whole, roomy, ⟨o', ran, ?_⟩, closed, bs, ran₅, tables, read, ?_⟩
  · rw [host]
    decide +kernel
  · rw [codes]
    decide +kernel

end Capture
end ZMachine
