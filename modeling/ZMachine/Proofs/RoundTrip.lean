/-
  Assembling an instruction and decoding it.

  The assembler chooses among five forms by class, number and kinds of the
  operands; the decoder tells them apart by the first byte.  What the one
  writes the other reads: each reader is shown to take exactly the bytes of
  its writer, and the readers are put together as the decoder does.
-/
import ZMachine.Assembler.Basic
import ZMachine.Proofs.Decoding

namespace ZMachine

/-! ## Bytes in an image -/

/-- The image holds these bytes from `a` on. -/
def Memory.Holds (m : Memory) : Nat → List Byte → Prop
  | _, [] => True
  | a, b :: bs => a < m.size ∧ m.byteAt a = b ∧ m.Holds (a + 1) bs

namespace Memory

variable {m : Memory} {a : Nat} {bs cs : List Byte}

theorem holds_append : m.Holds a (bs ++ cs) ↔ m.Holds a bs ∧ m.Holds (a + bs.length) cs := by
  induction bs generalizing a with
  | nil => simp [Holds]
  | cons b bs ih =>
      have shift : a + (b :: bs).length = a + 1 + bs.length := by
        simp only [List.length_cons]; omega
      rw [List.cons_append, Holds, Holds, ih, shift, and_assoc, and_assoc]

theorem holds_iff (inside : a + bs.length ≤ m.size) :
    m.Holds a bs ↔ ∀ k < bs.length, m.byteAt (a + k) = bs.getD k 0 := by
  induction bs generalizing a with
  | nil => simp [Holds]
  | cons b bs ih =>
      rw [List.length_cons] at inside
      rw [Holds, ih (by omega)]
      constructor
      · rintro ⟨-, here, later⟩ k small
        cases k with
        | zero => exact here
        | succ k =>
            rw [show a + (k + 1) = a + 1 + k by omega]
            exact later k (by simpa using small)
      · intro all
        refine ⟨by omega, all 0 (by simp), fun k small => ?_⟩
        have := all (k + 1) (by simpa using small)
        rwa [show a + (k + 1) = a + 1 + k by omega] at this

end Memory

/-! ## Reading back -/

/-- A reader makes `v` of the bytes `bs`, wherever they stand, and takes no others. -/
def Cursor.Takes {α : Type} (x : Memory → Cursor α) (bs : List Byte) (v : α) : Prop :=
  ∀ m a, m.Holds a bs → (x m).run a = .ok (v, a + bs.length)

theorem Cursor.run_bind_ok {α β : Type} {x : Cursor α} {f : α → Cursor β} {a b : Nat} {v : α}
    (h : x.run a = .ok (v, b)) : (x >>= f).run a = (f v).run b := by
  rw [StateT.run_bind, h]
  rfl

namespace Cursor.Takes

variable {α β : Type} {x : Memory → Cursor α} {bs cs : List Byte} {v : α}

theorem pure (v : α) : Cursor.Takes (fun _ => (Pure.pure v : Cursor α)) [] v := fun _ _ _ => rfl

theorem bind {f : α → Memory → Cursor β} {w : β} (hx : Cursor.Takes x bs v)
    (hf : Cursor.Takes (f v) cs w) :
    Cursor.Takes (fun m => x m >>= fun v => f v m) (bs ++ cs) w := by
  intro m a holds
  obtain ⟨first, second⟩ := Memory.holds_append.mp holds
  rw [Cursor.run_bind_ok (hx m a first), hf m _ second, List.length_append, Nat.add_assoc]

/-- What follows a reader may only look at what it read. -/
theorem bind_nil {f : α → Memory → Cursor β} {w : β} (hx : Cursor.Takes x bs v)
    (hf : Cursor.Takes (f v) [] w) : Cursor.Takes (fun m => x m >>= fun v => f v m) bs w := by
  simpa using hx.bind hf

theorem map (f : α → β) (hx : Cursor.Takes x bs v) :
    Cursor.Takes (fun m => f <$> x m) bs (f v) := by
  simp only [map_eq_pure_bind]
  exact hx.bind_nil (.pure _)

theorem byte (b : Byte) : Cursor.Takes Cursor.byte [b] b := by
  rintro m a ⟨inside, here, -⟩
  rw [Cursor.run_byte, Memory.readByte_eq_ok.mpr ⟨inside, here⟩]
  rfl

/-- A byte in front of what else is read. -/
theorem byte_bind {f : Byte → Memory → Cursor β} {w : β} (b : Byte) (hf : Cursor.Takes (f b) cs w) :
    Cursor.Takes (fun m => Cursor.byte m >>= fun v => f v m) (b :: cs) w := (byte b).bind hf

theorem word (w : Word) : Cursor.Takes Cursor.word (Word.bytes w) w := by
  rintro m a ⟨-, first, inside, second, -⟩
  have read : m.readWord a = .ok w := by
    rw [Memory.readWord_eq_ok, Memory.wordAt, first, second]
    exact ⟨inside, Word.ofBytes_bytes w⟩
  rw [Cursor.run_word, read]
  rfl

theorem optional_some (hx : Cursor.Takes x bs v) :
    Cursor.Takes (fun m => Decode.optional true (x m)) bs (some v) := hx.map some

theorem optional_none (x : Memory → Cursor α) :
    Cursor.Takes (fun m => Decode.optional false (x m)) [] none := .pure none

end Cursor.Takes

/-! ## Numbers of opcodes -/

/-- A property of all bytes below a bound is checked number by number. -/
theorem Byte.of_lt {P : Byte → Prop} {bound : Nat} (all : ∀ n < bound, P n.toUInt8) (b : Byte)
    (h : b.toNat < bound) : P b := by
  have := all b.toNat h
  simpa using this

/-- Numbers that the first byte of an instruction has room for, by the class of its opcode. -/
def OpcodeClass.Fits (cls : OpcodeClass) (number : Byte) : Prop :=
  match cls with
  | .op0 => number.toNat < 16 ∧ number.toNat ≠ 14
  | .op1 => number.toNat < 16
  | .op2 | .varOps => number.toNat < 32
  | .ext => True

namespace Opcode

/-- Whether an opcode is one of those with a name. -/
def Named (opcode : Opcode) : Prop := ∀ cls number, opcode ≠ .unknown cls number

theorem encoding?_eq_some {opcode : Opcode} {version : Nat} {cls : OpcodeClass} {number : Byte}
    (h : opcode.encoding? version = some (cls, number)) :
    opcode.listed version = (cls, number) ∧ lookup cls number version = opcode ∧
      (cls = .ext → 5 ≤ version) := by
  unfold encoding? at h
  split at h
  rename_i listed
  split at h
  · cases h
  · rename_i new
    split at h
    · rename_i found
      cases h
      exact ⟨listed, found, fun ext => Nat.not_lt.mp fun old => new ⟨ext, old⟩⟩
    · cases h

theorem Named.fits {opcode : Opcode} (named : opcode.Named) (version : Nat) :
    (opcode.listed version).1.Fits (opcode.listed version).2 := by
  cases opcode with
  | unknown cls number => exact absurd rfl (named cls number)
  | not =>
      simp only [listed]
      split <;> simp [OpcodeClass.Fits]
  | _ => simp [listed, OpcodeClass.Fits]

end Opcode

/-! ## The forms of an instruction -/

namespace Decode

open Encode

theorem kindsOfByte_bits (k₀ k₁ k₂ k₃ : OperandKind) :
    kindsOfByte (k₀.bits <<< 6 ||| k₁.bits <<< 4 ||| k₂.bits <<< 2 ||| k₃.bits)
      = [k₀, k₁, k₂, k₃] := by
  cases k₀ <;> cases k₁ <;> cases k₂ <;> cases k₃ <;> rfl

/-- Kinds that a reader of operands takes for those of the given operands: the next one, if any, is
omitted. -/
inductive Announces : List OperandKind → List Operand → Prop where
  | nil : Announces [] []
  | omitted (ks : List OperandKind) : Announces (.omitted :: ks) []
  | cons (o : Operand) {ks : List OperandKind} {os : List Operand} (rest : Announces ks os) :
      Announces (o.kind :: ks) (o :: os)

theorem announces_kindByte {os : List Operand} (few : os.length ≤ 4) :
    Announces (kindsOfByte (kindByte os)) os := by
  rw [kindByte, kindsOfByte_bits]
  match os, few with
  | [], _ => exact .omitted _
  | [a], _ => exact .cons a (.omitted _)
  | [a, b], _ => exact .cons a (.cons b (.omitted _))
  | [a, b, c], _ => exact .cons a (.cons b (.cons c (.omitted _)))
  | [a, b, c, d], _ => exact .cons a (.cons b (.cons c (.cons d .nil)))

theorem announces_kindBytes {os : List Operand} (few : os.length ≤ 8) :
    Announces (kindsOfByte (kindByte os) ++ kindsOfByte (kindByte (os.drop 4))) os := by
  rw [kindByte, kindsOfByte_bits]
  match os, few with
  | [], _ => exact .omitted _
  | [a], _ => exact .cons a (.omitted _)
  | [a, b], _ => exact .cons a (.cons b (.omitted _))
  | [a, b, c], _ => exact .cons a (.cons b (.cons c (.omitted _)))
  | a :: b :: c :: d :: os, few =>
    have rest : Announces (kindsOfByte (kindByte os)) os := announces_kindByte (by
      simp only [List.length_cons] at few
      omega)
    exact .cons a (.cons b (.cons c (.cons d rest)))

variable {version : Nat} {number : Byte}

/-- The short form without an operand. -/
theorem takes_short (fits : number.toNat < 16 ∧ number.toNat ≠ 14) :
    Cursor.Takes (opcodeAndKinds · version) [0xb0 ||| number]
      (.lookup .op0 number version, []) := by
  have bits (n : Byte) (small : n.toNat < 16) : n.toNat ≠ 14 → (0xb0 ||| n) ≠ extendedMark ∧
      (0xb0 ||| n) >>> 6 = 2 ∧ OperandKind.ofBits ((0xb0 ||| n) >>> 4) = .omitted ∧
      (0xb0 ||| n) &&& 0x0f = n := by
    revert n
    refine Byte.of_lt ?_
    decide
  obtain ⟨plain, form, kind, low⟩ := bits number fits.1 fits.2
  refine (Cursor.Takes.byte _).bind_nil ?_
  simp only [plain, false_and, if_false, form, (by decide : ¬(2 : Byte) = 3), if_true, kind, low]
  exact .pure _

/-- The short form with an operand. -/
theorem takes_shortOperand {kind : OperandKind} (present : kind ≠ .omitted)
    (fits : number.toNat < 16) :
    Cursor.Takes (opcodeAndKinds · version) [(0x80 : Byte) ||| kind.bits <<< 4 ||| number]
      (.lookup .op1 number version, [kind]) := by
  have bits (n : Byte) (small : n.toNat < 16) : ∀ k ∈ [OperandKind.large, .small, .var],
      ((0x80 : Byte) ||| k.bits <<< 4 ||| n) ≠ extendedMark ∧
      ((0x80 : Byte) ||| k.bits <<< 4 ||| n) >>> 6 = 2 ∧
      OperandKind.ofBits (((0x80 : Byte) ||| k.bits <<< 4 ||| n) >>> 4) = k ∧
      ((0x80 : Byte) ||| k.bits <<< 4 ||| n) &&& 0x0f = n := by
    revert n
    refine Byte.of_lt ?_
    decide
  obtain ⟨plain, form, same, low⟩ := bits number fits kind (by cases kind <;> simp_all)
  refine (Cursor.Takes.byte _).bind_nil ?_
  simp only [plain, false_and, if_false, form, (by decide : ¬(2 : Byte) = 3), if_true, same,
    present, low]
  exact .pure _

/-- The long form. -/
theorem takes_long {a b : Operand} (ha : a.kind ≠ .large) (hb : b.kind ≠ .large)
    (fits : number.toNat < 32) :
    Cursor.Takes (opcodeAndKinds · version) [number ||| longBit 0x40 a ||| longBit 0x20 b]
      (.lookup .op2 number version, [a.kind, b.kind]) := by
  have bits (n : Byte) (small : n.toNat < 32) :
      ∀ k ∈ [OperandKind.small, .var], ∀ l ∈ [OperandKind.small, .var], ∀ first : Byte,
        first = n ||| (if k = .var then 0x40 else 0) ||| (if l = .var then 0x20 else 0) →
        first ≠ extendedMark ∧ first >>> 6 ≠ 3 ∧ first >>> 6 ≠ 2 ∧ first &&& 0x1f = n ∧
          longKind first 0x40 = k ∧ longKind first 0x20 = l := by
    simp only [forall_eq]
    revert n
    refine Byte.of_lt ?_
    decide
  obtain ⟨plain, notVariable, notShort, low, first, second⟩ :=
    bits number fits a.kind (by cases a <;> simp_all [Operand.kind]) b.kind
      (by cases b <;> simp_all [Operand.kind]) (number ||| longBit 0x40 a ||| longBit 0x20 b) rfl
  refine (Cursor.Takes.byte _).bind_nil ?_
  simp only [plain, false_and, if_false, notVariable, notShort, low, first, second]
  exact .pure _

/-- The bytes of kinds that an opcode has in the variable form. -/
def kindBytes (opcode : Opcode) (os : List Operand) : List Byte :=
  if opcode.isDoubleVariable then [kindByte os, kindByte (os.drop 4)] else [kindByte os]

/-- The kinds in these bytes. -/
def kindsIn (opcode : Opcode) (os : List Operand) : List OperandKind :=
  if opcode.isDoubleVariable then kindsOfByte (kindByte os) ++ kindsOfByte (kindByte (os.drop 4))
  else kindsOfByte (kindByte os)

theorem announces_kindsIn {opcode : Opcode} {os : List Operand}
    (few : os.length ≤ if opcode.isDoubleVariable then 8 else 4) :
    Announces (kindsIn opcode os) os := by
  unfold kindsIn
  split at few
  · rw [if_pos ‹_›]
    exact announces_kindBytes few
  · rw [if_neg ‹_›]
    exact announces_kindByte few

/-- The variable form, of opcodes with two operands or with any number. -/
theorem takes_variable {cls : OpcodeClass} {opcode : Opcode} (form : cls = .op2 ∨ cls = .varOps)
    (found : Opcode.lookup cls number version = opcode) (fits : number.toNat < 32)
    (os : List Operand) :
    Cursor.Takes (opcodeAndKinds · version) (variableForm cls number ++ kindBytes opcode os)
      (opcode, kindsIn opcode os) := by
  have bits (n : Byte) (small : n.toNat < 32) : ∀ top ∈ [(0xc0 : Byte), 0xe0],
      (top ||| n) ≠ extendedMark ∧ (top ||| n) >>> 6 = 3 ∧ (top ||| n) &&& 0x1f = n ∧
      ((top ||| n) &&& 0x20 = 0 ↔ top = 0xc0) := by
    revert n
    refine Byte.of_lt ?_
    decide +kernel
  -- The upper bits name the form; one of them tells two operands from any number.
  obtain ⟨top, bytes, plain, three, low, cls'⟩ : ∃ top : Byte,
      variableForm cls number = [top ||| number] ∧ (top ||| number) ≠ extendedMark ∧
      (top ||| number) >>> 6 = 3 ∧ (top ||| number) &&& 0x1f = number ∧
      (if (top ||| number) &&& 0x20 = 0 then OpcodeClass.op2 else .varOps) = cls := by
    rcases form with rfl | rfl
    · obtain ⟨plain, three, low, two⟩ := bits number fits 0xc0 (by simp)
      exact ⟨0xc0, rfl, plain, three, low, if_pos (two.mpr rfl)⟩
    · obtain ⟨plain, three, low, two⟩ := bits number fits 0xe0 (by simp)
      exact ⟨0xe0, rfl, plain, three, low, if_neg fun zero => absurd (two.mp zero) (by decide)⟩
  rw [bytes]
  refine (Cursor.Takes.byte _).bind ?_
  simp only [plain, false_and, if_false, three, if_true, cls', low, found]
  unfold kindBytes kindsIn
  by_cases double : opcode.isDoubleVariable = true
  · simp only [if_pos double]
    exact (Cursor.Takes.byte _).bind ((Cursor.Takes.byte _).bind_nil (.pure _))
  · simp only [if_neg double]
    exact (Cursor.Takes.byte _).bind_nil (.pure _)

/-- The extended form. -/
theorem takes_extended (new : 5 ≤ version) (kinds : Byte) :
    Cursor.Takes (opcodeAndKinds · version) [0xbe, number, kinds]
      (.lookup .ext number version, kindsOfByte kinds) := by
  refine .byte_bind _ ?_
  simp only [extendedMark, new, and_self, if_true]
  exact .byte_bind _ ((Cursor.Takes.byte _).bind_nil (.pure _))

/-! ## Operands, branches and text -/

end Decode

namespace Variable

/-- Whether a byte names the variable: there are 15 locals and 240 globals. -/
def Exists : Variable → Prop
  | stack => True
  | localVar i => i.toNat < 15
  | globalVar i => i.toNat < 240

instance (v : Variable) : Decidable v.Exists := by
  cases v
  · exact inferInstanceAs (Decidable True)
  · exact inferInstanceAs (Decidable (_ < 15))
  · exact inferInstanceAs (Decidable (_ < 240))

theorem ofByte_toByte {v : Variable} (h : v.Exists) : ofByte v.toByte = v := by
  cases v with
  | stack => rfl
  | localVar i =>
      revert i
      refine Byte.of_lt ?_
      decide
  | globalVar i =>
      have small : i.toNat < 240 := h
      have sum : (i + 16).toNat = i.toNat + 16 := by
        rw [UInt8.toNat_add]
        exact Nat.mod_eq_of_lt (by simpa using Nat.add_lt_add_right small 16)
      have large : ¬(i + 16 < 16) := by
        rw [UInt8.lt_iff_toNat_lt, sum]
        exact Nat.not_lt.mpr (Nat.le_add_left 16 _)
      have nonzero : ¬(i + 16 = 0) := fun zero => large (by rw [zero]; decide)
      rw [toByte, ofByte, if_neg nonzero, if_neg large, UInt8.add_sub_cancel]

end Variable

/-- The operand that is read where this one was written. -/
def Operand.readBack : Operand → Operand
  | .var v => .var (.ofByte v.toByte)
  | o => o

theorem Operand.readBack_eq {o : Operand} (h : ∀ v, o = .var v → v.Exists) : o.readBack = o := by
  cases o with
  | large w => rfl
  | small b => rfl
  | var v => rw [readBack, Variable.ofByte_toByte (h v rfl)]

namespace Decode

open Encode

theorem takes_operands {kinds : List OperandKind} {os : List Operand} (h : Announces kinds os) :
    Cursor.Takes (operands · kinds) (operandBytes os) (os.map Operand.readBack) := by
  induction h with
  | nil => exact .pure _
  | omitted ks => exact .pure _
  | @cons o ks os _ ih =>
      cases o with
      | large w => exact (Cursor.Takes.word w).bind (ih.bind_nil (.pure _))
      | small b => exact (Cursor.Takes.byte b).bind (ih.bind_nil (.pure _))
      | var v => exact (Cursor.Takes.byte v.toByte).bind (ih.bind_nil (.pure _))

/-- The variable and the extended form. -/
theorem takes_general {version : Nat} {opcode : Opcode} {cls : OpcodeClass} {number : Byte}
    (encoding : opcode.encoding? version = some (cls, number)) (fits : cls.Fits number)
    (form : cls = .op2 ∨ cls = .varOps ∨ cls = .ext) (os : List Operand) :
    Cursor.Takes (opcodeAndKinds · version) (variableForm cls number ++ kindBytes opcode os)
      (opcode, kindsIn opcode os) := by
  obtain ⟨listed, found, new⟩ := Opcode.encoding?_eq_some encoding
  rcases form with rfl | rfl | rfl
  · exact takes_variable (.inl rfl) found fits os
  · exact takes_variable (.inr rfl) found fits os
  · have single : opcode.isDoubleVariable = false := by
      cases opcode <;> first | rfl | cases listed
    rw [kindBytes, kindsIn, single]
    exact found ▸ takes_extended (new rfl) _

/-- What the assembler writes for an opcode and its operands gives both back. -/
theorem takes_instruction {version : Nat} {opcode : Opcode} {os : List Operand} {bs : List Byte}
    (named : opcode.Named) (h : Encode.instruction version opcode os = .ok bs) :
    ∃ head kinds, bs = head ++ operandBytes os ∧
      Cursor.Takes (opcodeAndKinds · version) head (opcode, kinds) ∧ Announces kinds os := by
  unfold Encode.instruction at h
  split at h
  · cases h
  rename_i cls number encoding
  obtain ⟨listed, found, -⟩ := Opcode.encoding?_eq_some encoding
  have fits : cls.Fits number := by simpa [listed] using named.fits version
  -- The forms that write the kinds of their operands into bytes of their own.
  have general {bs : List Byte} (form : cls = .op2 ∨ cls = .varOps ∨ cls = .ext)
      (h : (if (if opcode.isDoubleVariable then 8 else 4) < os.length ∨
            cls = .op2 ∧ os.length < 2 then
          Except.error (AssemblyError.operandCount opcode os.length)
        else .ok (variableForm cls number ++ kindBytes opcode os ++ operandBytes os)) = .ok bs) :
      ∃ head kinds, bs = head ++ operandBytes os ∧
        Cursor.Takes (opcodeAndKinds · version) head (opcode, kinds) ∧ Announces kinds os := by
    by_cases many : (if opcode.isDoubleVariable then 8 else 4) < os.length ∨ cls = .op2 ∧
      os.length < 2
    · rw [if_pos many] at h
      cases h
    · rw [if_neg many] at h
      cases h
      rw [not_or, Nat.not_lt] at many
      exact ⟨_, _, rfl, takes_general encoding fits form os, announces_kindsIn many.1⟩
  dsimp only at h
  split at h
  -- No operand, one, and two that fit into the long form have a head of one byte.
  · cases h
    exact ⟨_, [], by simp [operandBytes], found ▸ takes_short fits, .nil⟩
  · cases h
  · rename_i o
    cases h
    refine ⟨[(0x80 : Byte) ||| o.kind.bits <<< 4 ||| number], [o.kind], by simp [operandBytes], ?_,
      .cons o .nil⟩
    exact found ▸ takes_shortOperand (by cases o <;> simp [Operand.kind]) fits
  · cases h
  · rename_i a b
    split at h
    · rename_i long
      cases h
      exact ⟨_, [a.kind, b.kind], rfl, found ▸ takes_long long.1 long.2 fits,
        .cons a (.cons b .nil)⟩
    · exact general (.inl rfl) h
  · exact general (by cases cls <;> simp_all) h

/-- Both bytes of a long branch, as numbers. -/
theorem longBranch_eq (condition : Bool) (offset : Int) :
    ∃ high low : Byte, longBranch condition offset = [polarity condition ||| high, low] ∧
      high.toNat < 64 ∧ ((high.toNat * 256 + low.toNat : Nat) : Int) = offset % 0x4000 := by
  have raw : (Word.ofInt offset &&& 0x3fff).toNat = (offset % 0x4000).toNat := by
    have mask : (Word.ofInt offset &&& 0x3fff).toNat = (Word.ofInt offset).toNat % 2 ^ 14 := by
      rw [UInt16.toNat_and]
      exact Nat.and_two_pow_sub_one_eq_mod _ 14
    have whole : (Word.ofInt offset).toNat = (offset % 65536).toNat := by
      rw [Word.ofInt, UInt16.toNat_ofNat']
      omega
    rw [mask, whole]
    omega
  have high : (Word.hi (Word.ofInt offset &&& 0x3fff)).toNat = (offset % 0x4000).toNat / 256 := by
    rw [Word.hi, UInt16.toNat_toUInt8, UInt16.toNat_shiftRight, raw]
    change (offset % 0x4000).toNat >>> 8 % 256 = _
    rw [Nat.shiftRight_eq_div_pow]
    omega
  have low : (Word.lo (Word.ofInt offset &&& 0x3fff)).toNat = (offset % 0x4000).toNat % 256 := by
    rw [Word.lo, UInt16.toNat_toUInt8, raw]
  refine ⟨_, _, rfl, ?_, ?_⟩
  · rw [high]
    omega
  · rw [high, low]
    omega

theorem signed14_mod {offset : Int} (low : -8192 ≤ offset) (high : offset ≤ 8191) {raw : Nat}
    (h : (raw : Int) = offset % 0x4000) : signed14 raw = offset := by
  unfold signed14
  split <;> omega

/-- Long branches have fourteen bits for the offset. -/
theorem takes_longBranch (condition : Bool) {offset : Int} (low : -8192 ≤ offset)
    (high : offset ≤ 8191) : Cursor.Takes branch (longBranch condition offset)
      (condition, offset) := by
  have bits (h : Byte) (small : h.toNat < 64) : ∀ c : Bool,
      decide ((polarity c ||| h) &&& 0x80 ≠ 0) = c ∧ ¬((polarity c ||| h) &&& 0x40 ≠ 0) ∧
      (polarity c ||| h) &&& 0x3f = h := by
    revert h
    refine Byte.of_lt ?_
    decide
  obtain ⟨first, second, bytes, small, sum⟩ := longBranch_eq condition offset
  obtain ⟨same, long, rest⟩ := bits first small condition
  rw [bytes]
  refine .byte_bind _ ?_
  simp only [same, long, if_false, rest]
  refine (Cursor.Takes.byte second).bind_nil ?_
  rw [signed14_mod low high sum]
  exact .pure _

/-- Short branches have six. -/
theorem takes_branch (condition : Bool) {offset : Int} (low : -8192 ≤ offset)
    (high : offset ≤ 8191) :
    Cursor.Takes branch (Encode.branch condition offset) (condition, offset) := by
  unfold Encode.branch
  split
  · rename_i short
    have bits : ∀ n < 64, ∀ c : Bool,
        decide ((polarity c ||| 0x40 ||| n.toUInt8) &&& 0x80 ≠ 0) = c ∧
        (polarity c ||| 0x40 ||| n.toUInt8) &&& 0x40 ≠ 0 ∧
        ((polarity c ||| 0x40 ||| n.toUInt8) &&& 0x3f).toNat = n := by decide
    obtain ⟨same, six, rest⟩ := bits offset.toNat (by omega) condition
    refine (Cursor.Takes.byte _).bind_nil ?_
    simp only [same, if_pos six, rest, Int.toNat_of_nonneg short.1]
    exact .pure _
  · exact takes_longBranch condition low high

end Decode

/-- Words of a text: the last one, and no other, has its top bit set. -/
def Terminated (ws : List Word) : Prop :=
  ∃ init last, ws = init ++ [last] ∧ last &&& 0x8000 ≠ 0 ∧ ∀ w ∈ init, w &&& 0x8000 = 0

theorem length_wordBytes (ws : List Word) : (wordBytes ws).length = ws.length * 2 := by
  induction ws with
  | nil => rfl
  | cons w ws ih =>
      rw [wordBytes, List.flatMap_cons, List.length_append, List.length_cons]
      change 2 + (wordBytes ws).length = _
      omega

theorem Memory.textWords_of_holds {m : Memory} {a : Nat} {ws : List Word}
    (terminated : Terminated ws) (holds : m.Holds a (wordBytes ws)) : m.textWords a = .ok ws := by
  obtain ⟨init, last, rfl, ends, goesOn⟩ := terminated
  have word {a : Nat} {w : Word} (h : m.Holds a (Word.bytes w)) :
      a + 2 ≤ m.size ∧ m.wordAt a = w := by
    obtain ⟨-, first, inside, second, -⟩ := h
    rw [wordAt, first, second]
    exact ⟨inside, Word.ofBytes_bytes w⟩
  induction init generalizing a with
  | nil =>
      obtain ⟨inside, here⟩ := word holds
      rw [textWords, if_pos inside, here]
      exact if_pos ends
  | cons w init ih =>
      obtain ⟨first, rest⟩ := Memory.holds_append.mp holds
      obtain ⟨inside, here⟩ := word first
      have later : m.textWords (a + 2) = .ok (init ++ [last]) :=
        ih rest fun v hv => goesOn v (by simp [hv])
      rw [textWords, if_pos inside, here, later]
      exact if_neg fun top => top (goesOn w (by simp))

theorem Decode.takes_text {ws : List Word} (terminated : Terminated ws) :
    Cursor.Takes Decode.text (wordBytes ws) ws := by
  intro m a holds
  have read := m.textWords_of_holds terminated holds
  rw [length_wordBytes, run_text, read]
  rfl

/-! ## Whole instructions -/

/-- The parts of an instruction, read one after the other. -/
theorem Decode.run_body {m : Memory} {version a b c d e stop : Nat} {opcode : Opcode}
    {kinds : List OperandKind} {os : List Operand} {store : Option Variable}
    {test : Option (Bool × Int)} {text : Option (List Word)}
    (hopcode : (opcodeAndKinds m version).run a = .ok ((opcode, kinds), b))
    (hoperands : (operands m kinds).run b = .ok (os, c))
    (hstore : (optional (opcode.hasStore version) (Variable.ofByte <$> Cursor.byte m)).run c
      = .ok (store, d))
    (htest : (optional (opcode.hasBranch version) (branch m)).run d = .ok (test, e))
    (htext : (optional opcode.hasText (Decode.text m)).run e = .ok (text, stop)) :
    (body m version a).run a = .ok
      ({ address := a, opcode, operands := os, store, text
         length := stop - a
         branch := test.map fun (condition, offset) => .ofOffset condition offset e }, stop) := by
  unfold body
  rw [Cursor.run_bind_ok hopcode]
  dsimp only
  rw [Cursor.run_bind_ok hoperands, Cursor.run_bind_ok hstore, Cursor.run_bind_ok htest,
    Cursor.run_bind_ok (x := get) rfl, Cursor.run_bind_ok htext, Cursor.run_bind_ok (x := get) rfl]
  rfl

open Decode Encode in
/-- An instruction decodes to what its parts were encoded from. -/
theorem decode_of_holds {m : Memory} {version a : Nat} {opcode : Opcode} {os : List Operand}
    {head sb tb xb : List Byte} {store : Option Variable} {test : Option (Bool × Int)}
    {text : Option (List Word)} (named : opcode.Named)
    (encoded : Encode.instruction version opcode os = .ok head)
    (hstore : Cursor.Takes
      (fun m => optional (opcode.hasStore version) (Variable.ofByte <$> Cursor.byte m)) sb store)
    (htest : Cursor.Takes (fun m => optional (opcode.hasBranch version) (Decode.branch m)) tb test)
    (htext : Cursor.Takes (fun m => optional opcode.hasText (Decode.text m)) xb text)
    (holds : m.Holds a (head ++ (sb ++ (tb ++ xb)))) :
    decode m version a = .ok
      { address := a, opcode, operands := os.map Operand.readBack, store, text
        length := (head ++ (sb ++ (tb ++ xb))).length
        branch := test.map fun (condition, offset) =>
          .ofOffset condition offset (a + (head ++ (sb ++ tb)).length) } := by
  obtain ⟨first, kinds, rfl, hopcode, announces⟩ := takes_instruction named encoded
  rw [List.append_assoc] at holds
  -- The parts stand one after the other, and each is read where the last one ended.
  obtain ⟨holds₁, holds⟩ := Memory.holds_append.mp holds
  obtain ⟨holds₂, holds⟩ := Memory.holds_append.mp holds
  obtain ⟨holds₃, holds⟩ := Memory.holds_append.mp holds
  obtain ⟨holds₄, holds₅⟩ := Memory.holds_append.mp holds
  have body := run_body (hopcode m a holds₁) (takes_operands announces m _ holds₂)
    (hstore m _ holds₃) (htest m _ holds₄) (htext m _ holds₅)
  rw [decode_eq_ok.mpr ⟨_, body⟩]
  congr 2
  · simp only [List.length_append]
    omega
  · simp only [List.length_append, Nat.add_assoc]

/-- How the branch of an instruction is given to the assembler. -/
inductive BranchForm where
  | distance (condition : Bool) (offset : Int)
  /-- Return a truth value from the routine. -/
  | result (condition value : Bool)
deriving DecidableEq, Repr

namespace BranchForm

/-- Append the branch. -/
def append (asm : Assembler) : BranchForm → Assembler
  | distance condition offset => asm.branchOffset condition offset
  | result condition value => asm.branchReturn condition value

/-- The branch is taken when the test has this result. -/
def condition : BranchForm → Bool
  | distance condition _ => condition
  | result condition _ => condition

/-- The offset that is encoded; two of them stand for results. -/
def offset : BranchForm → Int
  | distance _ offset => offset
  | result _ value => if value then 1 else 0

/-- The offset has fourteen bits.  Those of results always do. -/
def InRange : BranchForm → Prop
  | distance _ offset => -8192 ≤ offset ∧ offset ≤ 8191
  | result .. => True

theorem InRange.bounds {b : BranchForm} (h : b.InRange) : -8192 ≤ b.offset ∧ b.offset ≤ 8191 := by
  cases b with
  | distance condition offset => exact h
  | result condition value => cases value <;> simp [offset]

theorem append_eq_emit (asm : Assembler) (b : BranchForm) :
    b.append asm = asm.emit (Encode.branch b.condition b.offset) := by
  cases b <;> rfl

end BranchForm

/-- An instruction as it is given to the assembler. -/
structure AssemblyLine where
  opcode : Opcode
  operands : List Operand
  store : Option Variable := none
  branch : Option BranchForm := none
  text : Option (List Word) := none

namespace AssemblyLine

/-- Append the instruction, part after part. -/
def append (l : AssemblyLine) (asm : Assembler) : Assembler :=
  let asm := asm.op l.opcode l.operands
  let asm := l.store.elim asm asm.store
  let asm := l.branch.elim asm (BranchForm.append asm)
  l.text.elim asm asm.text

/-- The parts of the instruction are those that the opcode has in this version, and each of them can
be encoded. -/
structure Suits (l : AssemblyLine) (version : Nat) : Prop where
  named : l.opcode.Named
  vars : ∀ v, .var v ∈ l.operands → v.Exists
  hasStore : l.store.isSome = l.opcode.hasStore version
  store : ∀ v, l.store = some v → v.Exists
  hasBranch : l.branch.isSome = l.opcode.hasBranch version
  branch : ∀ b, l.branch = some b → b.InRange
  hasText : l.text.isSome = l.opcode.hasText
  text : ∀ ws, l.text = some ws → Terminated ws

/-- The instruction at an address. -/
def placed (l : AssemblyLine) (address length : Nat) : Instruction where
  address := address
  length := length
  opcode := l.opcode
  operands := l.operands
  store := l.store
  branch := l.branch.map fun b => .ofOffset b.condition b.offset (address + length)
  text := l.text

end AssemblyLine

/-! ## What the assembler appends -/

namespace Assembler

theorem emit_nil (asm : Assembler) : asm.emit [] = asm := by simp [emit]

theorem emit_emit (asm : Assembler) (bs cs : List Byte) :
    (asm.emit bs).emit cs = asm.emit (bs ++ cs) := by simp [emit, Array.append_assoc]

theorem position_emit (asm : Assembler) (bs : List Byte) :
    (asm.emit bs).position = asm.position + bs.length := by simp [position, emit]

/-- An opcode that is accepted appends its bytes. -/
theorem op_of_accepted {asm : Assembler} {opcode : Opcode} {os : List Operand}
    (accepted : (asm.op opcode os).failure = none) :
    ∃ head, Encode.instruction asm.version opcode os = .ok head ∧
      asm.op opcode os = asm.emit head := by
  unfold op at accepted ⊢
  cases encoded : Encode.instruction asm.version opcode os with
  | ok head => exact ⟨head, rfl, rfl⟩
  | error e => simp [encoded, fail] at accepted

/-- An image that holds the bytes of an assembler from `a` on holds those that were appended
there. -/
theorem holds_emit {asm : Assembler} {bs : List Byte} {m : Memory}
    (inside : (asm.emit bs).position ≤ m.size)
    (same : ∀ x, asm.position ≤ x → x < (asm.emit bs).position →
      m.byteAt x = (asm.emit bs).bytes.getD x 0) : m.Holds asm.position bs := by
  rw [position_emit] at inside same
  refine (Memory.holds_iff inside).mpr fun k small => ?_
  rw [same _ (by omega) (by omega)]
  have beyond : ¬asm.bytes.size + k < asm.bytes.size := by omega
  simp [emit, position, Array.getD_eq_getD_getElem?, Array.getElem?_append, beyond]

end Assembler

namespace AssemblyLine

/-- The bytes after the operands. -/
def storeBytes (l : AssemblyLine) : List Byte := (l.store.map fun v => [v.toByte]).getD []

def branchBytes (l : AssemblyLine) : List Byte :=
  (l.branch.map fun b => Encode.branch b.condition b.offset).getD []

def textBytes (l : AssemblyLine) : List Byte := (l.text.map wordBytes).getD []

theorem append_eq_emit {l : AssemblyLine} {asm : Assembler} {head : List Byte}
    (h : asm.op l.opcode l.operands = asm.emit head) :
    l.append asm = asm.emit (head ++ (l.storeBytes ++ (l.branchBytes ++ l.textBytes))) := by
  have part {α : Type} (o : Option α) (f : Assembler → α → Assembler) (g : α → List Byte)
      (emits : ∀ asm x, f asm x = asm.emit (g x)) (asm : Assembler) :
      o.elim asm (f asm) = asm.emit ((o.map g).getD []) := by
    cases o with
    | none => exact asm.emit_nil.symm
    | some x => exact emits asm x
  unfold append
  dsimp only
  rw [h, part l.store Assembler.store _ fun _ _ => rfl,
    part l.branch BranchForm.append _ BranchForm.append_eq_emit,
    part l.text Assembler.text _ fun _ _ => rfl]
  simp only [Assembler.emit_emit, List.append_assoc]
  rfl

variable {l : AssemblyLine} {version : Nat}

theorem Suits.takes_store (h : l.Suits version) : Cursor.Takes
    (fun m => Decode.optional (l.opcode.hasStore version) (Variable.ofByte <$> Cursor.byte m))
    l.storeBytes l.store := by
  rw [← h.hasStore, storeBytes]
  cases given : l.store with
  | none => exact .optional_none _
  | some v =>
      have byte := (Cursor.Takes.byte v.toByte).map Variable.ofByte
      rw [Variable.ofByte_toByte (h.store v given)] at byte
      exact byte.optional_some

theorem Suits.takes_branch (h : l.Suits version) : Cursor.Takes
    (fun m => Decode.optional (l.opcode.hasBranch version) (Decode.branch m)) l.branchBytes
    (l.branch.map fun b => (b.condition, b.offset)) := by
  rw [← h.hasBranch, branchBytes]
  cases given : l.branch with
  | none => exact .optional_none _
  | some b =>
      obtain ⟨low, high⟩ := (h.branch b given).bounds
      exact (Decode.takes_branch b.condition low high).optional_some

theorem Suits.takes_text (h : l.Suits version) :
    Cursor.Takes (fun m => Decode.optional l.opcode.hasText (Decode.text m)) l.textBytes
      l.text := by
  rw [← h.hasText, textBytes]
  cases given : l.text with
  | none => exact .optional_none _
  | some ws => exact (Decode.takes_text (h.text ws given)).optional_some

/-- No instruction has both a branch and a text. -/
theorem Suits.textBytes_eq_nil (h : l.Suits version) {b : BranchForm} (given : l.branch = some b) :
    l.textBytes = [] := by
  have branches : l.opcode.hasBranch version = true := by rw [← h.hasBranch, given]; rfl
  have silent : l.opcode.hasText = false := by
    revert branches
    cases l.opcode <;> simp [Opcode.hasBranch, Opcode.hasText]
  have textless : l.text = none := by
    rw [← Option.not_isSome_iff_eq_none, h.hasText, silent]
    simp
  rw [textBytes, textless]
  rfl

theorem Suits.operands_eq (h : l.Suits version) : l.operands.map Operand.readBack = l.operands := by
  rw [List.map_congr_left (g := id), List.map_id]
  intro o mem
  refine Operand.readBack_eq fun v var => h.vars v (var ▸ mem)

end AssemblyLine

/-- Every instruction that the assembler accepts decodes to itself, wherever its bytes stand in an
image, with a length that is the number of bytes appended. -/
theorem decode_append {asm : Assembler} {l : AssemblyLine} (suits : l.Suits asm.version)
    (accepted : (asm.op l.opcode l.operands).failure = none) {m : Memory}
    (inside : (l.append asm).position ≤ m.size)
    (same : ∀ x, asm.position ≤ x → x < (l.append asm).position →
      m.byteAt x = (l.append asm).bytes.getD x 0) :
    decode m asm.version asm.position
      = .ok (l.placed asm.position ((l.append asm).position - asm.position)) := by
  obtain ⟨head, encoded, appended⟩ := Assembler.op_of_accepted accepted
  rw [AssemblyLine.append_eq_emit appended] at inside same ⊢
  rw [decode_of_holds suits.named encoded suits.takes_store suits.takes_branch suits.takes_text
    (Assembler.holds_emit inside same), Assembler.position_emit, Nat.add_sub_cancel_left]
  congr 1
  rw [AssemblyLine.placed, suits.operands_eq, Option.map_map]
  congr 1
  cases given : l.branch with
  | none => rfl
  | some b =>
      simp only [Option.map_some, Function.comp, suits.textBytes_eq_nil given, List.append_nil]

/-- An instruction with a result and a branch as far back as branches go. -/
def scanLine : AssemblyLine :=
  { opcode := .scanTable
    operands := [.small 7, .var (.localVar 14), .large 0x1234]
    store := some (.globalVar 239)
    branch := some (.distance false (-8192)) }

theorem decode_append_scan :
    scanLine.Suits 5 ∧
      ((Assembler.start 5).op scanLine.opcode scanLine.operands).failure = none ∧
      decode (.ofBytes (scanLine.append (Assembler.start 5)).bytes) 5 64
        = .ok (scanLine.placed 64 9) := by
  have suits : scanLine.Suits 5 :=
    { named := by rintro _ _ ⟨⟩
      vars := fun v mem => by
        have same : v = .localVar 14 := by simpa [scanLine] using mem
        rw [same]
        decide
      hasStore := rfl
      store := fun v given => by
        cases given
        decide
      hasBranch := rfl
      branch := fun b given => by
        cases given
        exact ⟨by decide, by decide⟩
      hasText := rfl
      text := fun ws given => by cases given }
  have accepted : ((Assembler.start 5).op scanLine.opcode scanLine.operands).failure = none := by
    decide +kernel
  have decoded : decode (.ofBytes (scanLine.append (Assembler.start 5)).bytes) 5
      (Assembler.start 5).position = _ :=
    decode_append suits accepted (Nat.le_refl _) fun _ _ _ => rfl
  have start : (Assembler.start 5).position = 64 := by decide +kernel
  have stop : (scanLine.append (Assembler.start 5)).position = 73 := by decide +kernel
  rw [start, stop] at decoded
  exact ⟨suits, accepted, decoded⟩

end ZMachine
