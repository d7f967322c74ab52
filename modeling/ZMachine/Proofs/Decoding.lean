/-
  What decoding depends on.

  An instruction is decided by its own bytes: another image that holds the
  same bytes there decodes to the same instruction.
-/
import ZMachine.Instruction.Decode
import ZMachine.Proofs.Actions
import ZMachine.Proofs.Bytes

namespace ZMachine

/-! ## Reading actions -/

theorem Cursor.bind_eq_ok {α β : Type} {x : Cursor α} {f : α → Cursor β} {a c : Nat} {w : β}
    (h : (x >>= f).run a = .ok (w, c)) :
    ∃ v b, x.run a = .ok (v, b) ∧ (f v).run b = .ok (w, c) := by
  rw [StateT.run_bind] at h
  cases hx : x.run a with
  | error e => rw [hx] at h; cases h
  | ok p => exact ⟨p.1, p.2, rfl, by rw [hx] at h; exact h⟩

theorem Cursor.run_byte (m : Memory) (a : Nat) :
    (Cursor.byte m).run a = (m.readByte a).map (·, a + 1) := by
  cases h : m.readByte a <;> simp [Cursor.byte, h] <;> rfl

theorem Cursor.run_word (m : Memory) (a : Nat) :
    (Cursor.word m).run a = (m.readWord a).map (·, a + 2) := by
  cases h : m.readWord a <;> simp [Cursor.word, h] <;> rfl

/-- What a reading action yields is decided by the bytes that it moves past. -/
def Cursor.Local {α : Type} (x : Memory → Cursor α) : Prop :=
  ∀ ⦃m : Memory⦄ ⦃a : Nat⦄ ⦃v : α⦄ ⦃b : Nat⦄, (x m).run a = .ok (v, b) →
    a ≤ b ∧ (a < b → b ≤ m.size) ∧
      ∀ m' : Memory, b ≤ m'.size → (∀ y, a ≤ y → y < b → m'.byteAt y = m.byteAt y) →
        (x m').run a = .ok (v, b)

namespace Cursor.Local

variable {α β : Type}

theorem pure (v : α) : Cursor.Local fun _ => (Pure.pure v : Cursor α) := by
  intro m a w b h
  rw [StateT.run_pure] at h
  cases h
  exact ⟨Nat.le_refl a, fun h => absurd h (Nat.lt_irrefl a), fun _ _ _ => rfl⟩

theorem position : Cursor.Local fun _ => (get : Cursor Nat) := by
  intro m a w b h
  rw [StateT.run_get] at h
  cases h
  exact ⟨Nat.le_refl a, fun h => absurd h (Nat.lt_irrefl a), fun _ _ _ => rfl⟩

theorem bind {x : Memory → Cursor α} {f : α → Memory → Cursor β} (hx : Cursor.Local x)
    (hf : ∀ v, Cursor.Local (f v)) : Cursor.Local fun m => x m >>= fun v => f v m := by
  intro m a w c h
  simp only [StateT.run_bind] at h ⊢
  cases hxa : (x m).run a with
  | error e => rw [hxa] at h; cases h
  | ok p =>
      obtain ⟨v, b⟩ := p
      rw [hxa] at h
      obtain ⟨hab, hb, agreeX⟩ := hx hxa
      obtain ⟨hbc, hc, agreeF⟩ := hf v h
      refine ⟨Nat.le_trans hab hbc, fun _ => ?_, fun m' size same => ?_⟩
      · rcases Nat.eq_or_lt_of_le hbc with rfl | hlt
        · exact hb (by omega)
        · exact hc hlt
      · rw [agreeX m' (Nat.le_trans hbc size) fun y hy hy' => same y hy (by omega)]
        exact agreeF m' size fun y hy hy' => same y (by omega) hy'

theorem map {x : Memory → Cursor α} (f : α → β) (hx : Cursor.Local x) :
    Cursor.Local fun m => f <$> x m := by
  simp only [map_eq_pure_bind]
  exact hx.bind fun v => pure (f v)

theorem optional {x : Memory → Cursor α} (present : Bool) (hx : Cursor.Local x) :
    Cursor.Local fun m => Decode.optional present (x m) := by
  cases present with
  | false => exact pure none
  | true => exact map some hx

theorem byte : Cursor.Local Cursor.byte := by
  intro m a v b h
  rw [Cursor.run_byte] at h
  obtain ⟨w, hw, heq⟩ := Except.map_eq_ok h
  cases heq
  obtain ⟨fits, rfl⟩ := Memory.readByte_eq_ok.mp hw
  refine ⟨by omega, fun _ => fits, fun m' size same => ?_⟩
  rw [Cursor.run_byte,
    Memory.readByte_eq_ok.mpr ⟨size, same a (Nat.le_refl a) (Nat.lt_succ_self a)⟩]
  rfl

theorem word : Cursor.Local Cursor.word := by
  intro m a v b h
  rw [Cursor.run_word] at h
  obtain ⟨w, hw, heq⟩ := Except.map_eq_ok h
  cases heq
  obtain ⟨fits, rfl⟩ := Memory.readWord_eq_ok.mp hw
  refine ⟨by omega, fun _ => fits, fun m' size same => ?_⟩
  rw [Cursor.run_word, Memory.readWord_eq_ok.mpr ⟨size, Memory.wordAt_congr same⟩]
  rfl

theorem ite {x y : Memory → Cursor α} (c : Prop) [Decidable c] (hx : Cursor.Local x)
    (hy : Cursor.Local y) : Cursor.Local fun m => if c then x m else y m := by
  by_cases h : c
  · simpa only [h, if_true] using hx
  · simpa only [h, if_false] using hy

end Cursor.Local

/-- A reading action moves past at least one byte. -/
def Cursor.Advances {α : Type} (x : Memory → Cursor α) : Prop :=
  ∀ ⦃m : Memory⦄ ⦃a : Nat⦄ ⦃v : α⦄ ⦃b : Nat⦄, (x m).run a = .ok (v, b) → a < b

theorem Cursor.advances_byte : Cursor.Advances Cursor.byte := by
  intro m a v b h
  rw [Cursor.run_byte] at h
  obtain ⟨_, -, heq⟩ := Except.map_eq_ok h
  cases heq
  exact Nat.lt_succ_self a

theorem Cursor.Local.bind_advances {α β : Type} {x : Memory → Cursor α}
    {f : α → Memory → Cursor β} (hx : Cursor.Local x) (advances : Cursor.Advances x)
    (hf : ∀ v, Cursor.Local (f v)) :
    Cursor.Local (fun m => x m >>= fun v => f v m) ∧
      Cursor.Advances fun m => x m >>= fun v => f v m := by
  refine ⟨hx.bind hf, fun m a w c h => ?_⟩
  obtain ⟨v, b, hxa, h⟩ := Cursor.bind_eq_ok h
  exact Nat.lt_of_lt_of_le (advances hxa) (hf v h).1

/-! ## Parts of an instruction -/

namespace Decode

theorem reads_opcodeAndKinds (version : Nat) :
    Cursor.Local (fun m => opcodeAndKinds m version) ∧
      Cursor.Advances fun m => opcodeAndKinds m version := by
  refine Cursor.Local.bind_advances Cursor.Local.byte Cursor.advances_byte fun first => ?_
  -- extended, variable, short and long form
  refine .ite _ ?_ (.ite _ ?_ (.ite _ ?_ ?_))
  · exact Cursor.Local.byte.bind fun number => Cursor.Local.byte.bind fun kinds => .pure _
  · refine Cursor.Local.byte.bind fun kinds => .ite _ ?_ (.pure _)
    exact Cursor.Local.byte.bind fun more => .pure _
  · exact .ite _ (.pure _) (.pure _)
  · exact .pure _

theorem local_operands (kinds : List OperandKind) :
    Cursor.Local fun m => operands m kinds := by
  induction kinds with
  | nil => exact .pure []
  | cons kind kinds ih =>
      cases kind with
      | large => exact Cursor.Local.word.bind fun w => ih.bind fun rest => .pure _
      | small => exact Cursor.Local.byte.bind fun b => ih.bind fun rest => .pure _
      | var => exact Cursor.Local.byte.bind fun b => ih.bind fun rest => .pure _
      | omitted => exact .pure []

theorem local_branch : Cursor.Local branch := by
  refine Cursor.Local.byte.bind fun first => .ite _ (.pure _) ?_
  exact Cursor.Local.byte.bind fun second => .pure _

end Decode

/-- Text is decided by its own words; it ends with the first word whose top bit is set. -/
theorem Memory.textWords_local {m : Memory} {a : Nat} {ws : List Word}
    (h : m.textWords a = .ok ws) :
    ws ≠ [] ∧ a + ws.length * 2 ≤ m.size ∧
      ∀ m' : Memory, a + ws.length * 2 ≤ m'.size →
        (∀ y, a ≤ y → y < a + ws.length * 2 → m'.byteAt y = m.byteAt y) →
          m'.textWords a = .ok ws := by
  -- By induction on the text: each word is the last one or is followed by a text.
  fun_induction Memory.textWords m a generalizing ws
  case case1 a fits w ends =>
      cases h
      refine ⟨by simp, by simpa using fits, fun m' size same => ?_⟩
      rw [List.length_singleton, Nat.one_mul] at size same
      rw [Memory.textWords, if_pos size, Memory.wordAt_congr same, if_pos ends]
  case case2 a fits w goesOn rest more ih =>
      cases h
      obtain ⟨_, inside, congr⟩ := ih more
      rw [List.length_cons]
      refine ⟨by simp, by omega, fun m' size same => ?_⟩
      have sameWord : m'.wordAt a = m.wordAt a :=
        Memory.wordAt_congr fun y low high => same y low (by omega)
      have sameRest := congr m' (by omega) fun y hy hy' => same y (by omega) (by omega)
      rw [Memory.textWords, if_pos (by omega), sameWord, if_neg goesOn, sameRest]
  case case3 a fits w goesOn e more ih => cases h
  case case4 a beyond => cases h

theorem Decode.run_text (m : Memory) (a : Nat) :
    (Decode.text m).run a = (m.textWords a).map fun ws => (ws, a + ws.length * 2) := by
  cases h : m.textWords a <;> simp [Decode.text, h] <;> rfl

theorem Decode.local_text : Cursor.Local Decode.text := by
  intro m a ws b h
  rw [run_text] at h
  obtain ⟨ws', hws, heq⟩ := Except.map_eq_ok h
  cases heq
  obtain ⟨_, inside, congr⟩ := Memory.textWords_local hws
  refine ⟨by omega, fun _ => inside, fun m' size same => ?_⟩
  rw [run_text, congr m' size same]
  rfl

/-! ## Whole instructions -/

namespace Decode

theorem reads_body (version address : Nat) :
    Cursor.Local (fun m => body m version address) ∧
      Cursor.Advances fun m => body m version address := by
  obtain ⟨isLocal, advances⟩ := reads_opcodeAndKinds version
  refine isLocal.bind_advances advances fun p => ?_
  refine (local_operands p.2).bind fun operands => ?_
  refine (Cursor.Local.optional _ (Cursor.Local.byte.map _)).bind fun store => ?_
  refine (Cursor.Local.optional _ local_branch).bind fun test => ?_
  refine Cursor.Local.position.bind fun branchEnd => ?_
  refine (Cursor.Local.optional _ local_text).bind fun text => ?_
  exact Cursor.Local.position.bind fun stop => .pure _

/-- Every opcode is listed under the class in which it was looked up. -/
theorem class_lookup (cls : OpcodeClass) (number : Byte) (version : Nat) :
    ((Opcode.lookup cls number version).listed version).1 = cls := by
  cases cls with
  | op0 =>
      simp only [Opcode.lookup, Opcode.lookupOp0]
      split <;> (try split) <;> simp_all [Opcode.listed]
  | op1 =>
      simp only [Opcode.lookup, Opcode.lookupOp1]
      split <;> (try split) <;> simp_all [Opcode.listed]
  | op2 =>
      simp only [Opcode.lookup, Opcode.lookupOp2]
      split <;> (try split) <;> simp_all [Opcode.listed]
  | varOps =>
      simp only [Opcode.lookup, Opcode.lookupVar]
      split <;> (try split) <;> simp_all [Opcode.listed]
      -- `not` has moved here by version 5.
      rw [if_neg (by omega)]
  | ext =>
      simp only [Opcode.lookup, Opcode.lookupExt]
      split <;> simp_all [Opcode.listed]

/-- Opcode and operand kinds as some form of instruction gives them: without operands for the
first class, with one for the second, and with at most eight. -/
structure Fit (version : Nat) (opcode : Opcode) (kinds : List OperandKind) : Prop where
  op0 : (opcode.listed version).1 = .op0 → kinds = []
  op1 : (opcode.listed version).1 = .op1 → ∃ kind ≠ .omitted, kinds = [kind]
  count : kinds.length ≤ 8

theorem fit_of_opcodeAndKinds {m : Memory} {version a b : Nat} {opcode : Opcode}
    {kinds : List OperandKind} (h : (opcodeAndKinds m version).run a = .ok ((opcode, kinds), b)) :
    Fit version opcode kinds := by
  -- By the form of the encoding: extended, variable, short and long.
  obtain ⟨first, c, -, h⟩ := Cursor.bind_eq_ok h
  dsimp only at h
  split at h
  · obtain ⟨number, _, -, h⟩ := Cursor.bind_eq_ok h
    obtain ⟨bits, _, -, h⟩ := Cursor.bind_eq_ok h
    cases h
    constructor <;> simp [class_lookup, kindsOfByte]
  split at h
  · generalize hcls : (if first &&& 0x20 = 0 then OpcodeClass.op2 else .varOps) = cls at h
    have neither : cls ≠ .op0 ∧ cls ≠ .op1 := by
      rw [← hcls]
      split <;> simp
    obtain ⟨bits, _, -, h⟩ := Cursor.bind_eq_ok h
    split at h
    · obtain ⟨more, _, -, h⟩ := Cursor.bind_eq_ok h
      cases h
      constructor <;> simp [class_lookup, kindsOfByte, neither]
    · cases h
      constructor <;> simp [class_lookup, kindsOfByte, neither]
  split at h
  · split at h
    · cases h
      constructor <;> simp [class_lookup]
    · rename_i present
      cases h
      constructor <;> simp [class_lookup, present]
  · cases h
    constructor <;> simp [class_lookup]

theorem length_operands {m : Memory} {kinds : List OperandKind} {a b : Nat} {os : List Operand}
    (h : (operands m kinds).run a = .ok (os, b)) : os.length ≤ kinds.length := by
  induction kinds generalizing a os with
  | nil => cases h; simp
  | cons kind kinds ih =>
      cases kind with
      | omitted => cases h; simp
      | large | small | var =>
          obtain ⟨_, _, -, h⟩ := Cursor.bind_eq_ok h
          obtain ⟨rest, _, hrest, h⟩ := Cursor.bind_eq_ok h
          cases h
          simpa using ih hrest

theorem length_operands_one {m : Memory} {kind : OperandKind} {a b : Nat} {os : List Operand}
    (present : kind ≠ .omitted) (h : (operands m [kind]).run a = .ok (os, b)) : os.length = 1 := by
  cases kind with
  | omitted => exact absurd rfl present
  | large | small | var =>
      obtain ⟨_, _, -, h⟩ := Cursor.bind_eq_ok h
      cases h
      rfl

theorem isSome_optional {α : Type} {present : Bool} {x : Cursor α} {a b : Nat} {v : Option α}
    (h : (optional present x).run a = .ok (v, b)) : v.isSome = present := by
  cases present with
  | false => cases h; rfl
  | true =>
      rw [optional, if_pos rfl, map_eq_pure_bind] at h
      obtain ⟨w, _, -, h⟩ := Cursor.bind_eq_ok h
      cases h
      rfl

end Decode

/-- The parts of an instruction are those that its opcode asks for. -/
structure Instruction.Formed (version : Nat) (i : Instruction) : Prop where
  store : i.store.isSome = i.opcode.hasStore version
  branch : i.branch.isSome = i.opcode.hasBranch version
  text : i.text.isSome = i.opcode.hasText
  op0 : (i.opcode.listed version).1 = .op0 → i.operands = []
  op1 : (i.opcode.listed version).1 = .op1 → i.operands.length = 1
  count : i.operands.length ≤ 8

/-- The parts of an instruction were read one after the other. -/
theorem Decode.parts_of_body {m : Memory} {version address a stop : Nat} {i : Instruction}
    (h : (body m version address).run a = .ok (i, stop)) :
    ∃ opcode kinds os store test text b c d e,
      (opcodeAndKinds m version).run a = .ok ((opcode, kinds), b) ∧
      (operands m kinds).run b = .ok (os, c) ∧
      (optional (opcode.hasStore version) (Variable.ofByte <$> Cursor.byte m)).run c
        = .ok (store, d) ∧
      (optional (opcode.hasBranch version) (branch m)).run d = .ok (test, e) ∧
      (optional opcode.hasText (Decode.text m)).run e = .ok (text, stop) ∧
      i = { address, opcode, operands := os, store, text
            length := stop - address
            branch := test.map fun (condition, offset) => .ofOffset condition offset e } := by
  obtain ⟨⟨opcode, kinds⟩, b, hopcode, h⟩ := Cursor.bind_eq_ok h
  obtain ⟨os, c, hos, h⟩ := Cursor.bind_eq_ok h
  obtain ⟨store, d, hstore, h⟩ := Cursor.bind_eq_ok h
  obtain ⟨test, e, htest, h⟩ := Cursor.bind_eq_ok h
  obtain ⟨branchEnd, _, hend, h⟩ := Cursor.bind_eq_ok h
  obtain ⟨text, _, htext, h⟩ := Cursor.bind_eq_ok h
  obtain ⟨stop, _, hstop, h⟩ := Cursor.bind_eq_ok h
  cases hend
  cases hstop
  cases h
  exact ⟨opcode, kinds, os, store, test, text, b, c, d, e, hopcode, hos, hstore, htest, htext, rfl⟩

theorem Decode.body_eq_ok {m : Memory} {version a b : Nat} {i : Instruction}
    (h : (Decode.body m version a).run a = .ok (i, b)) :
    i.address = a ∧ i.next = b ∧ i.Formed version := by
  have hab := ((reads_body version a).1 h).1
  obtain ⟨opcode, kinds, os, store, test, text, _, _, _, _, hopcode, hos, hstore, htest,
      htext, rfl⟩ :=
    parts_of_body h
  have fit := fit_of_opcodeAndKinds hopcode
  refine ⟨rfl, by simp only [Instruction.next]; omega, ?_⟩
  exact
    { store := isSome_optional hstore
      branch := by rw [← isSome_optional htest]; cases test <;> rfl
      text := isSome_optional htext
      op0 := fun h => by
        rw [fit.op0 h] at hos
        cases hos
        rfl
      op1 := fun h => by
        obtain ⟨kind, present, rfl⟩ := fit.op1 h
        exact length_operands_one present hos
      count := Nat.le_trans (length_operands hos) fit.count }

theorem decode_eq_ok {m : Memory} {version a : Nat} {i : Instruction} :
    decode m version a = .ok i ↔ ∃ b, (Decode.body m version a).run a = .ok (i, b) := by
  have unfolded : decode m version a = ((Decode.body m version a).run a).map Prod.fst := rfl
  rw [unfolded]
  cases (Decode.body m version a).run a with
  | error e => simp [Except.map]
  | ok p => simp [Except.map, Prod.ext_iff]

/-- A decoded instruction stands at its address, takes at least one byte and lies inside of the
image. -/
theorem decode_spec {m : Memory} {version a : Nat} {i : Instruction}
    (h : decode m version a = .ok i) :
    i.address = a ∧ a < i.next ∧ i.next ≤ m.size ∧ i.Formed version := by
  obtain ⟨b, h⟩ := decode_eq_ok.mp h
  obtain ⟨address, next, formed⟩ := Decode.body_eq_ok h
  have positive := (Decode.reads_body version a).2 h
  have inside := ((Decode.reads_body version a).1 h).2.1 positive
  exact ⟨address, next ▸ positive, next ▸ inside, formed⟩

/-- An instruction is decided by its own bytes. -/
theorem decode_congr {m m' : Memory} {version a : Nat} {i : Instruction}
    (h : decode m version a = .ok i) (size : i.next ≤ m'.size)
    (same : ∀ x, a ≤ x → x < i.next → m'.byteAt x = m.byteAt x) : decode m' version a = .ok i := by
  obtain ⟨b, h⟩ := decode_eq_ok.mp h
  obtain ⟨-, rfl, -⟩ := Decode.body_eq_ok h
  exact decode_eq_ok.mpr ⟨_, ((Decode.reads_body version a).1 h).2.2 m' size same⟩

end ZMachine
