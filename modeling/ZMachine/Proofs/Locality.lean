/-
  What decoding reads, and when it fails.

  Up to its text an instruction has a bounded number of parts, and its text
  goes on until a word has its top bit set.  A decoder that finds room for
  all of this succeeds, whatever the bytes are: no first byte, operand kind
  or branch is refused.  So the end of the image is the only obstacle, and a
  longer image removes it.
-/
import ZMachine.Proofs.RoundTrip

namespace ZMachine

/-- An access of some bytes of which not all lie inside of the image. -/
def Memory.Overrun (m : Memory) (e : ImageError) : Prop :=
  ∃ x len, e = .outOfRange x len m.size ∧ m.size < x + len

/-- Reads of one byte and of one word fail in the same way. -/
theorem Memory.overrun_of_checked {α : Type} {m : Memory} {a len : Nat} {v : α} {e : ImageError}
    (h : (m.check a len >>= fun _ => pure v) = .error e) : m.Overrun e := by
  unfold check at h
  split at h
  · cases h
  · cases h
    exact ⟨a, len, rfl, by omega⟩

namespace Cursor

variable {α β : Type}

theorem bind_eq_error {x : Cursor α} {f : α → Cursor β} {a : Nat} {e : ImageError}
    (h : (x >>= f).run a = .error e) :
    x.run a = .error e ∨ ∃ v b, x.run a = .ok (v, b) ∧ (f v).run b = .error e := by
  rw [StateT.run_bind] at h
  cases hx : x.run a with
  | error e' => rw [hx] at h; cases h; exact .inl rfl
  | ok p => rw [hx] at h; exact .inr ⟨p.1, p.2, rfl, h⟩

/-! ## Actions that fail at the end of the image only -/

/-- A reading action fails only because it reads past the end of the image. -/
def OnlyOverruns (x : Memory → Cursor α) : Prop :=
  ∀ ⦃m : Memory⦄ ⦃a : Nat⦄ ⦃e : ImageError⦄, (x m).run a = .error e → m.Overrun e

namespace OnlyOverruns

variable {x y : Memory → Cursor α}

theorem pure (v : α) : OnlyOverruns fun _ => (Pure.pure v : Cursor α) := by
  intro m a e h
  cases h

theorem position : OnlyOverruns fun _ => (get : Cursor Nat) := by
  intro m a e h
  cases h

theorem bind {f : α → Memory → Cursor β} (hx : OnlyOverruns x) (hf : ∀ v, OnlyOverruns (f v)) :
    OnlyOverruns fun m => x m >>= fun v => f v m := by
  intro m a e h
  rcases bind_eq_error h with first | ⟨v, b, -, second⟩
  · exact hx first
  · exact hf v second

theorem map (f : α → β) (hx : OnlyOverruns x) : OnlyOverruns fun m => f <$> x m := by
  simp only [map_eq_pure_bind]
  exact hx.bind fun v => pure (f v)

theorem optional (present : Bool) (hx : OnlyOverruns x) :
    OnlyOverruns fun m => Decode.optional present (x m) := by
  cases present with
  | false => exact pure none
  | true => exact hx.map some

theorem ite (c : Prop) [Decidable c] (hx : OnlyOverruns x) (hy : OnlyOverruns y) :
    OnlyOverruns fun m => if c then x m else y m := by
  by_cases h : c
  · simpa only [h, if_true] using hx
  · simpa only [h, if_false] using hy

theorem byte : OnlyOverruns Cursor.byte := by
  intro m a e h
  rw [run_byte] at h
  cases read : m.readByte a with
  | error e' => rw [read] at h; cases h; exact Memory.overrun_of_checked read
  | ok b => rw [read] at h; cases h

theorem word : OnlyOverruns Cursor.word := by
  intro m a e h
  rw [run_word] at h
  cases read : m.readWord a with
  | error e' => rw [read] at h; cases h; exact Memory.overrun_of_checked read
  | ok w => rw [read] at h; cases h

end OnlyOverruns

/-! ## Actions for which a number of bytes is enough -/

/-- `n` bytes are enough for a reading action: with room for them it succeeds, and goes no
further. -/
def Enough (n : Nat) (x : Memory → Cursor α) : Prop :=
  ∀ ⦃m : Memory⦄ ⦃a : Nat⦄, a + n ≤ m.size → ∃ v b, (x m).run a = .ok (v, b) ∧ b ≤ a + n

namespace Enough

variable {x y : Memory → Cursor α} {n k : Nat}

theorem pure (v : α) : Enough 0 fun _ => (Pure.pure v : Cursor α) :=
  fun _ a _ => ⟨v, a, rfl, Nat.le_refl a⟩

theorem mono (hx : Enough n x) (less : n ≤ k) : Enough k x := by
  intro m a room
  obtain ⟨v, b, run, stop⟩ := hx (m := m) (a := a) (by omega)
  exact ⟨v, b, run, by omega⟩

theorem bind {f : α → Memory → Cursor β} (hx : Enough n x) (hf : ∀ v, Enough k (f v)) :
    Enough (n + k) fun m => x m >>= fun v => f v m := by
  intro m a room
  obtain ⟨v, b, first, stop⟩ := hx (m := m) (a := a) (by omega)
  obtain ⟨w, c, second, stop'⟩ := hf v (m := m) (a := b) (by omega)
  exact ⟨w, c, (run_bind_ok first).trans second, by omega⟩

theorem map (f : α → β) (hx : Enough n x) : Enough n fun m => f <$> x m := by
  simp only [map_eq_pure_bind]
  exact hx.bind fun v => pure (f v)

theorem optional (present : Bool) (hx : Enough n x) :
    Enough n fun m => Decode.optional present (x m) := by
  cases present with
  | false => exact (pure none).mono (Nat.zero_le n)
  | true => exact hx.map some

theorem ite (c : Prop) [Decidable c] (hx : Enough n x) (hy : Enough n y) :
    Enough n fun m => if c then x m else y m := by
  by_cases h : c
  · simpa only [h, if_true] using hx
  · simpa only [h, if_false] using hy

theorem byte : Enough 1 Cursor.byte := by
  intro m a room
  refine ⟨m.byteAt a, a + 1, ?_, Nat.le_refl _⟩
  rw [run_byte, Memory.readByte_eq_ok.mpr ⟨room, rfl⟩]
  rfl

theorem word : Enough 2 Cursor.word := by
  intro m a room
  refine ⟨m.wordAt a, a + 2, ?_, Nat.le_refl _⟩
  rw [run_word, Memory.readWord_eq_ok.mpr ⟨room, rfl⟩]
  rfl

end Enough

end Cursor

/-! ## Text -/

/-- The words that are read as text end with the first whose top bit is set. -/
theorem Memory.terminated_of_textWords {m : Memory} {a : Nat} {ws : List Word}
    (h : m.textWords a = .ok ws) : Terminated ws := by
  fun_induction Memory.textWords m a generalizing ws
  case case1 a fits w ends =>
      cases h
      exact ⟨[], w, rfl, ends, by simp⟩
  case case2 a fits w goesOn rest more ih =>
      cases h
      obtain ⟨init, last, rfl, ends, before⟩ := ih more
      refine ⟨w :: init, last, rfl, ends, fun v mem => ?_⟩
      rcases List.mem_cons.mp mem with rfl | mem
      · exact Decidable.not_not.mp goesOn
      · exact before v mem
  case case3 a fits w goesOn e more ih => cases h
  case case4 a beyond => cases h

theorem Memory.overrun_of_textWords {m : Memory} {a : Nat} {e : ImageError}
    (h : m.textWords a = .error e) : m.Overrun e := by
  fun_induction Memory.textWords m a generalizing e
  case case1 => cases h
  case case2 => cases h
  case case3 a fits w goesOn e' more ih => cases h; exact ih more
  case case4 a beyond => cases h; exact ⟨a, 2, rfl, by omega⟩

/-- Text ends where all bits are set, even if it is out of step with the words there. -/
theorem Memory.exists_textWords {m : Memory} {n a : Nat} (room : n + 3 ≤ m.size)
    (filled : ∀ x, n ≤ x → x < m.size → m.byteAt x = 0xff) (inside : a + 2 ≤ m.size) :
    ∃ ws, m.textWords a = .ok ws := by
  fun_induction Memory.textWords m a
  case case1 => exact ⟨_, rfl⟩
  case case2 => exact ⟨_, rfl⟩
  case case3 a fits w goesOn e more ih =>
      -- A word from `n` on would have ended the text, so that the next one begins before `n + 2`.
      have early : a < n := Nat.lt_of_not_le fun late => by
        have full : w = 0xffff := by
          rw [show w = m.wordAt a from rfl, Memory.wordAt, filled a (by omega) (by omega),
            filled (a + 1) (by omega) (by omega)]
          rfl
        exact goesOn (by rw [full]; decide)
      obtain ⟨ws, read⟩ := ih (by omega)
      rw [read] at more
      cases more
  case case4 a beyond => exact absurd inside beyond

/-! ## Parts of an instruction -/

namespace Decode

open Cursor

theorem onlyOverruns_opcodeAndKinds (version : Nat) :
    OnlyOverruns fun m => opcodeAndKinds m version := by
  refine OnlyOverruns.byte.bind fun first => ?_
  -- extended, variable, short and long form
  refine .ite _ ?_ (.ite _ ?_ (.ite _ ?_ ?_))
  · exact OnlyOverruns.byte.bind fun number => OnlyOverruns.byte.bind fun kinds => .pure _
  · refine OnlyOverruns.byte.bind fun kinds => .ite _ ?_ (.pure _)
    exact OnlyOverruns.byte.bind fun more => .pure _
  · exact .ite _ (.pure _) (.pure _)
  · exact .pure _

theorem enough_opcodeAndKinds (version : Nat) : Enough 3 fun m => opcodeAndKinds m version := by
  refine Enough.byte.bind (k := 2) fun first => ?_
  refine .ite _ ?_ (.ite _ ?_ (.ite _ ?_ ?_))
  · exact Enough.byte.bind fun number => Enough.byte.bind fun kinds => .pure _
  · refine Enough.byte.bind fun kinds => .ite _ ?_ ((Enough.pure _).mono (Nat.zero_le 1))
    exact Enough.byte.bind fun more => .pure _
  · exact (Enough.ite _ (.pure _) (.pure _)).mono (Nat.zero_le 2)
  · exact (Enough.pure _).mono (Nat.zero_le 2)

theorem onlyOverruns_operands (kinds : List OperandKind) :
    OnlyOverruns fun m => operands m kinds := by
  induction kinds with
  | nil => exact .pure []
  | cons kind kinds ih =>
      cases kind with
      | large => exact OnlyOverruns.word.bind fun w => ih.bind fun rest => .pure _
      | small => exact OnlyOverruns.byte.bind fun b => ih.bind fun rest => .pure _
      | var => exact OnlyOverruns.byte.bind fun b => ih.bind fun rest => .pure _
      | omitted => exact .pure []

theorem enough_operands (kinds : List OperandKind) :
    Enough (2 * kinds.length) fun m => operands m kinds := by
  induction kinds with
  | nil => exact .pure []
  | cons kind kinds ih =>
      have length : 2 * (kind :: kinds).length = 2 + 2 * kinds.length := by
        rw [List.length_cons]
        omega
      rw [length]
      cases kind with
      | large => exact Enough.word.bind fun w => ih.bind fun rest => .pure _
      | small => exact (Enough.byte.mono (by omega)).bind fun b => ih.bind fun rest => .pure _
      | var => exact (Enough.byte.mono (by omega)).bind fun b => ih.bind fun rest => .pure _
      | omitted => exact (Enough.pure []).mono (Nat.zero_le _)

theorem onlyOverruns_branch : OnlyOverruns branch := by
  refine OnlyOverruns.byte.bind fun first => .ite _ (.pure _) ?_
  exact OnlyOverruns.byte.bind fun second => .pure _

theorem enough_branch : Enough 2 branch := by
  refine Enough.byte.bind (k := 1) fun first => .ite _ ((Enough.pure _).mono (Nat.zero_le 1)) ?_
  exact Enough.byte.bind fun second => .pure _

theorem onlyOverruns_text : OnlyOverruns Decode.text := by
  intro m a e h
  rw [run_text] at h
  cases read : m.textWords a with
  | error e' => rw [read] at h; cases h; exact Memory.overrun_of_textWords read
  | ok ws => rw [read] at h; cases h

theorem terminated_of_optional_text {m : Memory} {present : Bool} {a b : Nat} {ws : List Word}
    (h : (optional present (Decode.text m)).run a = .ok (some ws, b)) : Terminated ws := by
  cases present with
  | false => cases h
  | true =>
      rw [optional, if_pos rfl, map_eq_pure_bind] at h
      obtain ⟨ws', c, run, h⟩ := Cursor.bind_eq_ok h
      cases h
      rw [run_text] at run
      obtain ⟨ws', read, heq⟩ := Except.map_eq_ok run
      cases heq
      exact Memory.terminated_of_textWords read

/-- The second byte of kinds belongs to the opcodes that are called with up to seven arguments. -/
theorem length_kinds {m : Memory} {version a b : Nat} {opcode : Opcode} {kinds : List OperandKind}
    (h : (opcodeAndKinds m version).run a = .ok ((opcode, kinds), b)) :
    kinds.length ≤ if opcode.isDoubleVariable then 8 else 4 := by
  have four (opcode : Opcode) : 4 ≤ if opcode.isDoubleVariable then 8 else 4 := by split <;> decide
  obtain ⟨first, c, -, h⟩ := Cursor.bind_eq_ok h
  dsimp only at h
  split at h
  · obtain ⟨number, _, -, h⟩ := Cursor.bind_eq_ok h
    obtain ⟨bits, _, -, h⟩ := Cursor.bind_eq_ok h
    cases h
    exact four _
  split at h
  · generalize (if first &&& 0x20 = 0 then OpcodeClass.op2 else .varOps) = cls at h
    obtain ⟨bits, _, -, h⟩ := Cursor.bind_eq_ok h
    split at h
    · rename_i double
      obtain ⟨more, _, -, h⟩ := Cursor.bind_eq_ok h
      cases h
      rw [if_pos double]
      exact Nat.le_refl 8
    · cases h
      exact four _
  -- The short and the long form name at most two operands.
  split at h
  · split at h <;> cases h <;> exact Nat.le_trans (by simp) (four _)
  · cases h
    exact Nat.le_trans (by simp) (four _)

theorem onlyOverruns_body (version address : Nat) :
    OnlyOverruns fun m => body m version address := by
  refine (onlyOverruns_opcodeAndKinds version).bind fun p => ?_
  refine (onlyOverruns_operands p.2).bind fun operands => ?_
  refine (OnlyOverruns.optional _ (OnlyOverruns.byte.map _)).bind fun store => ?_
  refine (OnlyOverruns.optional _ onlyOverruns_branch).bind fun test => ?_
  refine OnlyOverruns.position.bind fun branchEnd => ?_
  refine (OnlyOverruns.optional _ onlyOverruns_text).bind fun text => ?_
  exact OnlyOverruns.position.bind fun stop => .pure _

end Decode

/-! ## Whole instructions -/

theorem overrun_of_decode {m : Memory} {version a : Nat} {e : ImageError}
    (h : decode m version a = .error e) : m.Overrun e := by
  have unfolded : decode m version a = ((Decode.body m version a).run a).map Prod.fst := rfl
  cases run : (Decode.body m version a).run a with
  | error e' =>
      rw [unfolded, run] at h
      cases h
      exact Decode.onlyOverruns_body version a run
  | ok p =>
      rw [unfolded, run] at h
      cases h

/-- Three bytes for the opcode and the kinds of operands, two for each of eight operands,
one for the result and two for the branch: with this room, and then a word to end the
text, there is an instruction. -/
theorem exists_decode {m : Memory} {version n a : Nat} (room : a + 24 ≤ m.size)
    (tail : n + 3 ≤ m.size) (filled : ∀ x, n ≤ x → x < m.size → m.byteAt x = 0xff) :
    ∃ i, decode m version a = .ok i := by
  -- Each part ends where the bytes that are enough for it end, or before.
  obtain ⟨⟨opcode, kinds⟩, b, hopcode, hb⟩ :=
    Decode.enough_opcodeAndKinds version (m := m) (a := a) (by omega)
  have few := (Decode.fit_of_opcodeAndKinds hopcode).count
  obtain ⟨os, c, hos, hc⟩ := Decode.enough_operands kinds (m := m) (a := b) (by omega)
  obtain ⟨store, d, hstore, hd⟩ := (Cursor.Enough.byte.map Variable.ofByte).optional
    (opcode.hasStore version) (m := m) (a := c) (by omega)
  obtain ⟨test, e, htest, he⟩ := Decode.enough_branch.optional (opcode.hasBranch version)
    (m := m) (a := d) (by omega)
  obtain ⟨ws, hws⟩ := Memory.exists_textWords tail filled (a := e) (by omega)
  -- Text has no such bound, but there are words behind it that end it.
  obtain ⟨text, stop, htext⟩ : ∃ text stop,
      (Decode.optional opcode.hasText (Decode.text m)).run e = .ok (text, stop) := by
    cases opcode.hasText with
    | false => exact ⟨none, e, rfl⟩
    | true =>
        have read : (Decode.text m).run e = .ok (ws, e + ws.length * 2) := by
          rw [Decode.run_text, hws]
          rfl
        rw [Decode.optional, if_pos rfl, map_eq_pure_bind, Cursor.run_bind_ok read]
        exact ⟨_, _, rfl⟩
  exact ⟨_, decode_eq_ok.mpr ⟨_, Decode.run_body hopcode hos hstore htest htext⟩⟩

/-- Bytes with all bits set behind an image complete every instruction that begins in it. -/
theorem decode_extended (m : Memory) (version a : Nat) :
    ∃ i, decode (.ofBytes (m.bytes ++ (List.replicate (a + 26) (0xff : Byte)).toArray)) version a
      = .ok i := by
  have size : (Memory.ofBytes (m.bytes ++ (List.replicate (a + 26) (0xff : Byte)).toArray)).size
      = m.size + (a + 26) := by simp [Memory.ofBytes, Memory.size]
  refine exists_decode (n := m.size) (by omega) (by omega) fun x low high => ?_
  have behind : x - m.bytes.size < a + 26 := by
    rw [size, Memory.size] at high
    rw [Memory.size] at low
    omega
  rw [Memory.byteAt, Memory.ofBytes, Array.getD_eq_getD_getElem?,
    Array.getElem?_append_right low]
  simp [behind]

/-- An instruction that is complete in its own bytes: they lie inside of the image, and whatever
image holds them there decodes to the same instruction. -/
structure Instruction.Complete (i : Instruction) (m : Memory) (version a : Nat) : Prop where
  address : i.address = a
  nonempty : 1 ≤ i.length
  inside : a + i.length ≤ m.size
  own : ∀ m' : Memory, a + i.length ≤ m'.size →
    (∀ x, a ≤ x → x < a + i.length → m'.byteAt x = m.byteAt x) → decode m' version a = .ok i
  operands : i.operands.length ≤ if i.opcode.isDoubleVariable then 8 else 4
  text : ∀ ws, i.text = some ws → Terminated ws

theorem complete_of_decode {m : Memory} {version a : Nat} {i : Instruction}
    (h : decode m version a = .ok i) : i.Complete m version a := by
  obtain ⟨address, positive, inside, -⟩ := decode_spec h
  obtain ⟨stop, run⟩ := decode_eq_ok.mp h
  obtain ⟨opcode, kinds, os, store, test, text, b, c, d, e, hopcode, hos, -, -, htext, parts⟩ :=
    Decode.parts_of_body run
  have next : i.next = a + i.length := by rw [Instruction.next, address]
  rw [next] at positive inside
  refine ⟨address, by omega, inside, fun m' room same => ?_, ?_, fun ws present => ?_⟩
  · exact decode_congr h (next ▸ room) fun x low high => same x low (next ▸ high)
  · rw [parts]
    exact Nat.le_trans (Decode.length_operands hos) (Decode.length_kinds hopcode)
  · rw [parts] at present
    cases present
    exact Decode.terminated_of_optional_text htext

/-- Decoding is local: an instruction is made of its own bytes alone, and where there is none, the
image only ends too early for it. -/
theorem decode_local (m : Memory) (version a : Nat) :
    match decode m version a with
    | .ok i => i.Complete m version a
    | .error e =>
        (∃ x len, e = .outOfRange x len m.size ∧ m.size < x + len) ∧
          ∃ more : List Byte, more ≠ [] ∧
            ∃ i, decode (.ofBytes (m.bytes ++ more.toArray)) version a = .ok i := by
  cases h : decode m version a with
  | ok i => exact complete_of_decode h
  | error e =>
      refine ⟨overrun_of_decode h, List.replicate (a + 26) 0xff, ?_, decode_extended m version a⟩
      simp

end ZMachine
