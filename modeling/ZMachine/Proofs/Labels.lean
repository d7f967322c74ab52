/-
  Labels of an assembled program.

  A branch or a jump to a label is two empty bytes until the end, when the
  distance is filled in.  What is emitted later leaves an instruction alone
  unless it is patched over, so in the finished image the instruction stands
  as it was emitted, with the distance to where its label was bound.  A branch
  that cannot reach its label is refused; a jump is not, and its distance is
  cut to sixteen bits.
-/
import ZMachine.Assembler.Objects
import ZMachine.Proofs.Actions
import ZMachine.Proofs.RoundTrip

namespace ZMachine

/-- One call of the assembler. -/
inductive Emission where
  | patch (a : Nat) (bs : List Byte)
  | bytes (bs : List Byte)
  | zeros (len : Nat)
  | align (alignment : Nat)
  | globals (initial : List Word)
  | routine (locals : List Word)
  | setMain (a : Nat)
  | label
  | here
  | bindLabel (l : Nat)
  | op (opcode : Opcode) (operands : List Operand)
  | store (v : Variable)
  | branch (condition : Bool) (l : Nat)
  | branchOffset (condition : Bool) (offset : Int)
  | branchReturn (condition value : Bool)
  | jump (l : Nat)
  | text (ws : List Word)
  | print (s : String)
  | string (s : String)
  | objectTable (defaults : List Word) (objects : List ObjectEntry)

namespace Emission

def run (asm : Assembler) : Emission → Assembler
  | patch a bs => asm.patch a bs
  | bytes bs => asm.emit bs
  | zeros len => (asm.zeros len).2
  | align alignment => asm.align alignment
  | globals initial => (asm.globals initial).2
  | routine locals => (asm.routine locals).2
  | setMain a => asm.setMain a
  | label => asm.label.2
  | here => asm.here.2
  | bindLabel l => asm.bindLabel l
  | op opcode operands => asm.op opcode operands
  | store v => asm.store v
  | branch condition l => asm.branch condition l
  | branchOffset condition offset => asm.branchOffset condition offset
  | branchReturn condition value => asm.branchReturn condition value
  | jump l => asm.jump l
  | text ws => asm.text ws
  | print s => asm.print s
  | string s => (asm.string s).2
  | objectTable defaults objects => (asm.objectTable defaults objects).2

/-- Whether the byte at `x` is patched over. -/
def Overwrites (e : Emission) (x : Nat) : Prop :=
  match e with
  | patch a bs => a ≤ x ∧ x < a + bs.length
  | _ => False

/-- Whether the label is bound to the present position. -/
def Binds (e : Emission) (asm : Assembler) (l : Nat) : Prop :=
  match e with
  | here => l = asm.labels.size
  | bindLabel k => k = l ∧ l < asm.labels.size
  | _ => False

/-- Whether any label is bound. -/
def Binding (e : Emission) : Prop := e = here ∨ ∃ l, e = bindLabel l

instance (e : Emission) (asm : Assembler) (l : Nat) : Decidable (e.Binds asm l) :=
  match e with
  | here => inferInstanceAs (Decidable (l = asm.labels.size))
  | bindLabel k => inferInstanceAs (Decidable (k = l ∧ l < asm.labels.size))
  | patch .. | bytes .. | zeros .. | align .. | globals .. | routine .. | setMain .. | label | op ..
  | store .. | branch .. | branchOffset .. | branchReturn .. | jump .. | text .. | print ..
  | string .. | objectTable .. => isFalse id

theorem Binds.binding {e : Emission} {asm : Assembler} {l : Nat} (h : e.Binds asm l) :
    e.Binding := by
  cases e with
  | here => exact .inl rfl
  | bindLabel k => exact .inr ⟨k, rfl⟩
  | _ => exact h.elim

end Emission

namespace Assembler

/-- The assembler after a program. -/
def assemble (asm : Assembler) (program : List Emission) : Assembler :=
  program.foldl Emission.run asm

theorem assemble_append (asm : Assembler) (es fs : List Emission) :
    asm.assemble (es ++ fs) = (asm.assemble es).assemble fs := List.foldl_append

theorem assemble_cons (asm : Assembler) (e : Emission) (es : List Emission) :
    asm.assemble (e :: es) = (e.run asm).assemble es := rfl

/-- The address to which a program binds a label; the last one, should it do so again. -/
def boundAt (l : Nat) : Assembler → List Emission → Option Nat
  | _, [] => none
  | asm, e :: es =>
      (boundAt l (e.run asm) es).or (if e.Binds asm l then some asm.position else none)

/-! ## What is emitted later -/

/-- An assembler goes on from another: it has no fewer bytes, those at the addresses `kept` are the
same, and references to labels have been added behind the old bytes only. -/
structure Extends (kept : Nat → Prop) (asm asm' : Assembler) : Prop where
  version : asm'.version = asm.version
  grows : asm.position ≤ asm'.position
  bytes : ∀ x, kept x → asm'.bytes.getD x 0 = asm.bytes.getD x 0
  references : ∃ new, asm'.references.toList = asm.references.toList ++ new ∧
    ∀ r ∈ new, asm.position ≤ r.site ∧ r.site + 2 ≤ asm'.position
  failure : asm'.failure = none → asm.failure = none

/-- And the labels are the same. -/
structure Appends (kept : Nat → Prop) (asm asm' : Assembler) : Prop
    extends Extends kept asm asm' where
  labels : asm'.labels = asm.labels

variable {kept : Nat → Prop} {asm asm₁ asm₂ : Assembler}

theorem Extends.of_labels (labels : Array (Option Nat)) : Extends kept asm { asm with labels } where
  version := rfl
  grows := Nat.le_refl _
  bytes _ _ := rfl
  references := ⟨[], by simp⟩
  failure := id

theorem Extends.trans (h : Extends kept asm asm₁) (h₁ : Extends kept asm₁ asm₂) :
    Extends kept asm asm₂ where
  version := h₁.version.trans h.version
  grows := Nat.le_trans h.grows h₁.grows
  bytes x hx := (h₁.bytes x hx).trans (h.bytes x hx)
  references := by
    obtain ⟨new, eq, sites⟩ := h.references
    obtain ⟨new₁, eq₁, sites₁⟩ := h₁.references
    refine ⟨new ++ new₁, by rw [eq₁, eq, List.append_assoc], fun r mem => ?_⟩
    have := h.grows
    have := h₁.grows
    rcases List.mem_append.mp mem with mem | mem
    · have := sites r mem
      omega
    · have := sites₁ r mem
      omega
  failure clean := h.failure (h₁.failure clean)

namespace Appends

theorem refl (kept : Nat → Prop) (asm : Assembler) : Appends kept asm asm :=
  ⟨.of_labels asm.labels, rfl⟩

theorem trans (h : Appends kept asm asm₁) (h₁ : Appends kept asm₁ asm₂) : Appends kept asm asm₂ :=
  ⟨h.toExtends.trans h₁.toExtends, h₁.labels.trans h.labels⟩

/-- Addresses before the old end are before the new one. -/
theorem inside (h : Appends kept asm asm₁) (inside : ∀ x, kept x → x < asm.position) (x : Nat)
    (hx : kept x) : x < asm₁.position := Nat.lt_of_lt_of_le (inside x hx) h.grows

theorem bytesOnly {bytes : Array Byte} (size : bytes.size = asm.bytes.size)
    (same : ∀ x, kept x → bytes.getD x 0 = asm.bytes.getD x 0) :
    Appends kept asm { asm with bytes } where
  version := rfl
  grows := Nat.le_of_eq size.symm
  bytes := same
  references := ⟨[], by simp⟩
  failure := id
  labels := rfl

theorem patch {a : Nat} (bs : List Byte) (apart : ∀ x, kept x → x < a ∨ a + bs.length ≤ x) :
    Appends kept asm (asm.patch a bs) := by
  refine bytesOnly (size_overwrite ..) fun x hx => ?_
  rcases apart x hx with h | h
  · exact getD_overwrite_of_lt _ _ _ _ h
  · exact getD_overwrite_of_ge _ _ _ _ h

theorem fail (e : AssemblyError) : Appends kept asm (asm.fail e) where
  version := rfl
  grows := Nat.le_refl _
  bytes _ _ := rfl
  references := ⟨[], by simp [Assembler.fail]⟩
  failure clean := by
    have := Option.or_eq_none_iff.mp clean
    exact this.1
  labels := rfl

theorem getD_emit (asm : Assembler) (bs : List Byte) {x : Nat} (h : x < asm.position) :
    (asm.emit bs).bytes.getD x 0 = asm.bytes.getD x 0 := by
  have inside : x < asm.bytes.size := h
  simp [Assembler.emit, Array.getD_eq_getD_getElem?, Array.getElem?_append, inside]

section

variable (inside : ∀ x, kept x → x < asm.position)

include inside

theorem emit (bs : List Byte) : Appends kept asm (asm.emit bs) where
  version := rfl
  grows := by rw [position_emit]; exact Nat.le_add_right ..
  bytes x hx := getD_emit asm bs (inside x hx)
  references := ⟨[], by simp [Assembler.emit]⟩
  failure := id
  labels := rfl

theorem refer (l : Nat) (kind : ReferenceKind) : Appends kept asm (asm.refer l kind) where
  version := rfl
  grows := by
    rw [Assembler.refer, position_emit]
    exact Nat.le_add_right ..
  bytes x hx := getD_emit asm [0, 0] (inside x hx)
  references := by
    refine ⟨[⟨asm.position, l, kind⟩], by simp [Assembler.refer, Assembler.emit], fun r mem => ?_⟩
    rw [List.mem_singleton.mp mem, Assembler.refer, position_emit]
    exact ⟨Nat.le_refl _, Nat.le_refl _⟩
  failure := id
  labels := rfl

theorem zeros (len : Nat) : Appends kept asm (asm.zeros len).2 := by
  have eq : (asm.zeros len).2 = asm.emit (List.replicate len 0) := by
    simp [Assembler.zeros, Assembler.emit]
  rw [eq]
  exact emit inside _

theorem align (alignment : Nat) : Appends kept asm (asm.align alignment) := by
  unfold Assembler.align
  dsimp only
  split
  · exact refl ..
  · exact zeros inside _

theorem op (opcode : Opcode) (os : List Operand) : Appends kept asm (asm.op opcode os) := by
  unfold Assembler.op
  split
  · exact emit inside _
  · exact fail _

theorem jump (l : Nat) : Appends kept asm (asm.jump l) :=
  have opened := emit inside [0x8c]
  opened.trans (refer (opened.inside inside) l .jump)

theorem print (s : String) : Appends kept asm (asm.print s) :=
  have opened := op inside .print []
  opened.trans (emit (opened.inside inside) _)

theorem routine (locals : List Word) : Appends kept asm (asm.routine locals).2 := by
  have aligned := align inside (packedMultiplier asm.version)
  have opened := aligned.trans (emit (aligned.inside inside) [locals.length.toUInt8])
  unfold Assembler.routine
  dsimp only
  split
  · exact opened.trans (emit (opened.inside inside) _)
  · exact opened

/-- A run of steps appends if each of them does. -/
theorem foldl {α : Type} {f : Assembler → α → Assembler} {xs : List α}
    (step : ∀ x ∈ xs, ∀ asm₁, (∀ y, kept y → y < asm₁.position) → Appends kept asm₁ (f asm₁ x)) :
    Appends kept asm (xs.foldl f asm) := by
  induction xs generalizing asm with
  | nil => exact refl ..
  | cons x xs ih =>
      have first := step x (by simp) asm inside
      exact first.trans (ih (first.inside inside) fun y mem => step y (by simp [mem]))

theorem propertyTable (o : ObjectEntry) : Appends kept asm (asm.propertyTable o).2 := by
  have named := emit inside (nameBytes asm.version o.name)
  have property (asm₁ : Assembler) (inside₁ : ∀ x, kept x → x < asm₁.position)
    (p : Byte × List Byte) :
      Appends kept asm₁ (asm₁.property p) := by
    unfold Assembler.property
    split
    · exact emit inside₁ _
    · exact fail _
  have listed := named.trans
    (foldl (named.inside inside) fun p (_ : p ∈ sortProperties o.properties) asm₁ inside₁ =>
      property asm₁ inside₁ p)
  exact listed.trans (emit (listed.inside inside) [0])

theorem objectEntry {entry : Nat} (apart : ∀ x, kept x → x < entry) (o : ObjectEntry) :
    Appends kept asm (asm.objectEntry entry o) := by
  have bits (ns : List Byte) (bytes : Array Byte) :
      (ns.foldl (setAttributeBit entry) bytes).size = bytes.size ∧
        ∀ x, kept x → (ns.foldl (setAttributeBit entry) bytes).getD x 0 = bytes.getD x 0 := by
    induction ns generalizing bytes with
    | nil => exact ⟨rfl, fun _ _ => rfl⟩
    | cons n ns ih =>
        obtain ⟨size, same⟩ := ih (setAttributeBit entry bytes n)
        refine ⟨size.trans (Array.size_setIfInBounds ..), fun x hx => (same x hx).trans ?_⟩
        have before := apart x hx
        have elsewhere : entry + n.toNat / 8 ≠ x := by omega
        simp [setAttributeBit, Array.getD_eq_getD_getElem?, elsewhere]
  have flagged := bytesOnly (bits o.attributes asm.bytes).1 (bits o.attributes asm.bytes).2
  have listed := flagged.trans (propertyTable (flagged.inside inside) o)
  refine listed.trans (patch _ fun x hx => .inl ?_)
  exact Nat.lt_of_lt_of_le (apart x hx) (Nat.le_add_right ..)

variable (body : ∀ x, kept x → headerSize ≤ x)

include body

omit inside in
/-- A field of the header does not reach behind the header. -/
theorem headerWord {field : Nat} (h : field + 2 ≤ headerSize) (w : Word) :
    Appends kept asm (asm.patchWord field w) :=
  patch _ fun x hx => .inr (Nat.le_trans h (body x hx))

theorem globals (initial : List Word) : Appends kept asm (asm.globals initial).2 := by
  have reserved := zeros inside (globalCount * 2)
  have filled := reserved.trans
    (patch (wordBytes (initial.take globalCount)) fun x hx => .inl (inside x hx))
  exact filled.trans (headerWord body (by decide) _)

theorem objectTable (defaults : List Word) (objects : List ObjectEntry) :
    Appends kept asm (asm.objectTable defaults objects).2 := by
  have begun := emit inside (wordBytes ((List.range (ObjectLayout.of asm.version).defaults).map
    fun i => defaults.getD i 0))
  have reserved := begun.trans (zeros (begun.inside inside)
    (objects.length * (ObjectLayout.of asm.version).entrySize))
  refine (reserved.trans (foldl (reserved.inside inside) fun o _ asm₁ inside₁ => ?_)).trans
    (headerWord body (by decide) _)
  exact objectEntry inside₁ (fun x hx =>
    Nat.lt_of_lt_of_le (begun.inside inside x hx) (Nat.le_add_right ..)) o.1

end

end Appends

/-! ## Steps and runs -/

/-- A step appends and binds no label, or changes the labels and nothing else. -/
theorem run_cases (e : Emission) (inside : ∀ x, kept x → x < asm.position)
    (body : ∀ x, kept x → headerSize ≤ x) (spared : ∀ x, kept x → ¬e.Overwrites x) :
    (Appends kept asm (e.run asm) ∧ ∀ l, ¬e.Binds asm l) ∨
      ∃ labels, e.run asm = { asm with labels } ∧ ∀ l, labels.getD l none =
        if e.Binds asm l then some asm.position else asm.labels.getD l none := by
  cases e with
  | patch a bs =>
      refine .inl ⟨.patch bs fun x hx => ?_, fun l => id⟩
      have := spared x hx
      rw [Emission.Overwrites] at this
      omega
  | bytes bs => exact .inl ⟨.emit inside bs, fun l => id⟩
  | zeros len => exact .inl ⟨.zeros inside len, fun l => id⟩
  | align alignment => exact .inl ⟨.align inside alignment, fun l => id⟩
  | globals initial => exact .inl ⟨.globals inside body initial, fun l => id⟩
  | routine locals => exact .inl ⟨.routine inside locals, fun l => id⟩
  | setMain a => exact .inl ⟨.headerWord body (by decide) _, fun l => id⟩
  | op opcode os => exact .inl ⟨.op inside opcode os, fun l => id⟩
  | store v => exact .inl ⟨.emit inside _, fun l => id⟩
  | branch condition l => exact .inl ⟨.refer inside l _, fun l => id⟩
  | branchOffset condition offset => exact .inl ⟨.emit inside _, fun l => id⟩
  | branchReturn condition value => exact .inl ⟨.emit inside _, fun l => id⟩
  | jump l => exact .inl ⟨.jump inside l, fun l => id⟩
  | text ws => exact .inl ⟨.emit inside _, fun l => id⟩
  | print s => exact .inl ⟨.print inside s, fun l => id⟩
  | string s => exact .inl ⟨.emit inside _, fun l => id⟩
  | objectTable defaults objects =>
      exact .inl ⟨.objectTable inside body defaults objects, fun l => id⟩
  -- Only the last three emissions are about labels, and they write no byte.
  | label =>
      refine .inr ⟨_, rfl, fun l => ?_⟩
      simp only [Emission.Binds, if_false, Array.getD_eq_getD_getElem?, Array.getElem?_push]
      split <;> simp_all
  | here =>
      refine .inr ⟨_, rfl, fun l => ?_⟩
      simp only [Emission.Binds, Array.getD_eq_getD_getElem?, Array.getElem?_setIfInBounds,
        Array.getElem?_push]
      split <;> simp_all [position, eq_comm]
  -- A label that was never made is not bound, as there is no place for it.
  | bindLabel k =>
      refine .inr ⟨_, rfl, fun l => ?_⟩
      simp only [Emission.Binds, Array.getD_eq_getD_getElem?, Array.getElem?_setIfInBounds]
      by_cases same : k = l
      · by_cases known : l < asm.labels.size <;> simp [same, known]
      · simp [same]

theorem Extends.run {e : Emission} (inside : ∀ x, kept x → x < asm.position)
    (body : ∀ x, kept x → headerSize ≤ x) (spared : ∀ x, kept x → ¬e.Overwrites x) :
    Extends kept asm (e.run asm) := by
  obtain ⟨appends, -⟩ | ⟨labels, eq, -⟩ := run_cases e inside body spared
  · exact appends.toExtends
  · rw [eq]
    exact .of_labels labels

/-- A program keeps the bytes behind the header that it does not patch over. -/
theorem Extends.assemble {es : List Emission} (inside : ∀ x, kept x → x < asm.position)
    (body : ∀ x, kept x → headerSize ≤ x) (spared : ∀ e ∈ es, ∀ x, kept x → ¬e.Overwrites x) :
    Extends kept asm (asm.assemble es) := by
  induction es generalizing asm with
  | nil => exact .of_labels asm.labels
  | cons e es ih =>
      have first := Extends.run inside body (spared e (by simp))
      refine first.trans (ih (fun x hx => ?_) fun f mem => spared f (by simp [mem]))
      exact Nat.lt_of_lt_of_le (inside x hx) first.grows

/-- Without bytes to keep there is nothing to ask of a program. -/
theorem extends_assemble (asm : Assembler) (es : List Emission) :
    Extends (fun _ => False) asm (asm.assemble es) :=
  .assemble (fun _ h => h.elim) (fun _ h => h.elim) fun _ _ _ h => h.elim

theorem labels_run (asm : Assembler) (e : Emission) (l : Nat) : (e.run asm).labels.getD l none =
    if e.Binds asm l then some asm.position else asm.labels.getD l none := by
  obtain ⟨appends, unbound⟩ | ⟨labels, eq, bound⟩ :=
    @run_cases (fun _ => False) asm e (fun _ h => h.elim) (fun _ h => h.elim) fun _ h => h.elim
  · rw [appends.labels, if_neg (unbound l)]
  · rw [eq]
    exact bound l

/-- The labels after a program are those that it bound, where it bound them. -/
theorem labels_assemble (asm : Assembler) (es : List Emission) (l : Nat) :
    (asm.assemble es).labels.getD l none = (boundAt l asm es).or (asm.labels.getD l none) := by
  induction es generalizing asm with
  | nil => rfl
  | cons e es ih =>
      rw [assemble_cons, ih, labels_run, boundAt]
      split <;> cases boundAt l (e.run asm) es <;> rfl

theorem boundAt_append (l : Nat) (asm : Assembler) (es fs : List Emission) :
    boundAt l asm (es ++ fs) = (boundAt l (asm.assemble es) fs).or (boundAt l asm es) := by
  induction es generalizing asm with
  | nil => exact (Option.or_none ..).symm
  | cons e es ih => rw [List.cons_append, boundAt, boundAt, ih, assemble_cons, Option.or_assoc]

theorem boundAt_eq_none {l : Nat} {es : List Emission} (h : ∀ e ∈ es, ¬e.Binding) :
    boundAt l asm es = none := by
  induction es generalizing asm with
  | nil => rfl
  | cons e es ih =>
      have unbound : ¬e.Binds asm l := fun binds => h e (by simp) binds.binding
      rw [boundAt, ih fun f mem => h f (by simp [mem]), if_neg unbound]
      rfl

/-- Labels are bound to addresses that the program has reached. -/
theorem boundAt_bounds {l target : Nat} {es : List Emission} (h : boundAt l asm es = some target) :
    asm.position ≤ target ∧ target ≤ (asm.assemble es).position := by
  induction es generalizing asm with
  | nil => cases h
  | cons e es ih =>
      have first := (asm.extends_assemble [e]).grows
      have rest := ((e.run asm).extends_assemble es).grows
      change asm.position ≤ (e.run asm).position at first
      rw [boundAt, Option.or_eq_some_iff] at h
      rcases h with later | ⟨-, now⟩
      · have := ih later
        rw [assemble_cons]
        omega
      · split at now
        · cases now
          rw [assemble_cons]
          omega
        · cases now

end Assembler

/-! ## Filling in -/

/-- The two bytes of a reference to `target`, if it can be reached. -/
def Reference.fill? (r : Reference) (target : Nat) : Option (List Byte) :=
  let offset : Int := target - r.site
  match r.kind with
  | .branch condition =>
      if -8192 ≤ offset ∧ offset ≤ 8191 then some (Encode.longBranch condition offset) else none
  | .jump => some (Word.bytes (Word.ofInt offset))

theorem Reference.length_fill {r : Reference} {target : Nat} {bs : List Byte}
    (h : r.fill? target = some bs) : bs.length = 2 := by
  unfold fill? at h
  dsimp only at h
  split at h
  · split at h
    · cases h
      rfl
    · cases h
  · cases h
    rfl

namespace Assembler

variable {labels : Array (Option Nat)} {bytes bytes' : Array Byte} {asm : Assembler}

theorem resolve_eq_ok {r : Reference} : resolve labels bytes r = .ok bytes' ↔
    ∃ target bs, labels.getD r.label none = some target ∧ r.fill? target = some bs ∧
      bytes' = overwrite bytes r.site bs := by
  unfold resolve Reference.fill?
  cases labels.getD r.label none with
  | none => simp
  | some target =>
      cases r.kind with
      | branch condition =>
          -- A branch keeps its distance in fourteen bits, so a target that is farther away fails.
          by_cases near : -8192 ≤ (target : Int) - r.site ∧ (target : Int) - r.site ≤ 8191
          · dsimp only
            rw [if_pos near]
            constructor
            · intro resolved
              cases resolved
              exact ⟨target, _, rfl, if_pos near, rfl⟩
            · rintro ⟨_, bs, ⟨⟩, filled, rfl⟩
              rw [if_pos near] at filled
              cases filled
              rfl
          · dsimp only
            rw [if_neg near]
            constructor
            · intro resolved
              cases resolved
            · rintro ⟨_, bs, ⟨⟩, filled, -⟩
              rw [if_neg near] at filled
              cases filled
      | jump => simp [eq_comm]

/-- References change their own two bytes. -/
theorem resolveAll_keeps {rs : List Reference} (h : rs.foldlM (resolve labels) bytes = .ok bytes') :
    bytes'.size = bytes.size ∧
      ∀ x, (∀ r ∈ rs, x < r.site ∨ r.site + 2 ≤ x) → bytes'.getD x 0 = bytes.getD x 0 := by
  induction rs generalizing bytes with
  | nil =>
      cases h
      exact ⟨rfl, fun _ _ => rfl⟩
  | cons r rs ih =>
      obtain ⟨bytes₁, first, rest⟩ := Except.bind_eq_ok.mp h
      obtain ⟨target, bs, -, filled, rfl⟩ := resolve_eq_ok.mp first
      obtain ⟨size, same⟩ := ih rest
      refine ⟨size.trans (size_overwrite ..), fun x apart => ?_⟩
      rw [same x fun r mem => apart r (by simp [mem])]
      rcases apart r (by simp) with before | behind
      · exact getD_overwrite_of_lt _ _ _ _ before
      · exact getD_overwrite_of_ge _ _ _ _ (by rwa [Reference.length_fill filled])

/-- A reference holds the distance to its label, unless a later one stands over it. -/
theorem resolveAll_fills {r : Reference} {before after : List Reference}
    (h : (before ++ r :: after).foldlM (resolve labels) bytes = .ok bytes')
    (inside : r.site + 2 ≤ bytes.size) (behind : ∀ r' ∈ after, r.site + 2 ≤ r'.site) :
    ∃ target bs, labels.getD r.label none = some target ∧ r.fill? target = some bs ∧
      ∀ k < bs.length, bytes'.getD (r.site + k) 0 = bs.getD k 0 := by
  rw [List.foldlM_append] at h
  obtain ⟨bytes₁, first, h⟩ := Except.bind_eq_ok.mp h
  rw [List.foldlM_cons] at h
  obtain ⟨bytes₂, own, rest⟩ := Except.bind_eq_ok.mp h
  obtain ⟨target, bs, bound, filled, rfl⟩ := resolve_eq_ok.mp own
  have length := Reference.length_fill filled
  have size := (resolveAll_keeps first).1
  refine ⟨target, bs, bound, filled, fun k small => ?_⟩
  rw [(resolveAll_keeps rest).2 _ fun r' mem => .inl (by have := behind r' mem; omega),
    getD_overwrite_of_mem _ _ _ _ (Nat.le_add_right ..) (by omega) (by omega),
    Nat.add_sub_cancel_left]

/-- Padding, file length and checksum. -/
def completed (asm : Assembler) : Assembler :=
  let scale := lengthScale asm.version
  let asm := asm.align scale
  let asm := asm.patchWord HeaderField.fileLength (asm.position / scale).toUInt16
  asm.patchWord HeaderField.checksum (checksumOf asm.bytes)

theorem finish_eq_ok {image : Array Byte} : asm.finish = .ok image ↔ asm.failure = none ∧
    ∃ bytes, asm.references.toList.foldlM (resolve asm.labels) asm.bytes = .ok bytes ∧
      image = (completed { asm with bytes }).bytes := by
  unfold finish
  cases asm.failure with
  | some e => simp [throw, throwThe, MonadExceptOf.throw, bind, Except.bind]
  | none =>
      simp only [Except.bind_eq_ok, true_and]
      refine exists_congr fun bytes => and_congr_right fun _ => ?_
      exact ⟨fun h => (Except.ok.inj h).symm, fun h => congrArg Except.ok h.symm⟩

theorem appends_completed (asm : Assembler) :
    Appends (fun x => headerSize ≤ x ∧ x < asm.position) asm asm.completed :=
  ((Appends.align (fun _ h => h.2) _).trans (.headerWord (fun _ h => h.1) (by decide) _)).trans
    (.headerWord (fun _ h => h.1) (by decide) _)

/-- The finished image has the filled in bytes behind its header. -/
theorem finish_bytes {image : Array Byte} (finished : asm.finish = .ok image) :
    asm.failure = none ∧ asm.position ≤ image.size ∧
      ∃ bytes, asm.references.toList.foldlM (resolve asm.labels) asm.bytes = .ok bytes ∧
        ∀ x, headerSize ≤ x → x < asm.position → image.getD x 0 = bytes.getD x 0 := by
  obtain ⟨clean, bytes, resolved, rfl⟩ := finish_eq_ok.mp finished
  have size : bytes.size = asm.position := (resolveAll_keeps resolved).1
  have completed := appends_completed { asm with bytes }
  refine ⟨clean, ?_, bytes, resolved, fun x low high => completed.bytes x ⟨low, ?_⟩⟩
  · rw [← size]
    exact completed.grows
  · rwa [← size] at high

/-- An image has the bytes of an assembler from `first` on, if they are kept and no reference is
filled in there. -/
theorem finish_keeps {asm' : Assembler} {image : Array Byte} {first : Nat}
    (finished : asm'.finish = .ok image)
    (later : Extends (fun x => first ≤ x ∧ x < asm.position) asm asm') (body : headerSize ≤ first)
    (references : ∀ r ∈ asm.references.toList, r.site + 2 ≤ first) :
    asm.failure = none ∧ asm.position ≤ image.size ∧
      ∀ x, first ≤ x → x < asm.position → image.getD x 0 = asm.bytes.getD x 0 := by
  obtain ⟨clean, size, bytes, resolved, same⟩ := finish_bytes finished
  obtain ⟨new, eq, sites⟩ := later.references
  have grows := later.grows
  refine ⟨later.failure clean, Nat.le_trans grows size, fun x low high => ?_⟩
  rw [same x (by omega) (by omega), ← later.bytes x ⟨low, high⟩]
  refine (resolveAll_keeps resolved).2 x fun r mem => ?_
  rcases List.mem_append.mp (eq ▸ mem) with old | new
  · have := references r old
    omega
  · have := sites r new
    omega

/-- A reference that is emitted is filled in. -/
theorem finish_fills {l : Nat} {kind : ReferenceKind} {es : List Emission} {image : Array Byte}
    (finished : ((asm.refer l kind).assemble es).finish = .ok image)
    (body : headerSize ≤ asm.position) :
    ∃ target bs, ((asm.refer l kind).assemble es).labels.getD l none = some target ∧
      Reference.fill? ⟨asm.position, l, kind⟩ target = some bs ∧
      (Memory.ofBytes image).Holds asm.position bs := by
  have later := (asm.refer l kind).extends_assemble es
  obtain ⟨-, size, bytes, resolved, same⟩ := finish_bytes finished
  obtain ⟨new, eq, sites⟩ := later.references
  have position : (asm.refer l kind).position = asm.position + 2 := position_emit ..
  have own : (asm.refer l kind).references.toList
      = asm.references.toList ++ [⟨asm.position, l, kind⟩] := by simp [refer, emit]
  have grows := later.grows
  rw [eq, own, List.append_assoc, List.singleton_append] at resolved
  -- Of the references, those of what comes later lie behind this one and leave its two bytes alone.
  obtain ⟨target, bs, bound, filled, holds⟩ := resolveAll_fills resolved
    (by change asm.position + 2 ≤ _; rwa [← position]) fun r mem => by
      have := sites r mem
      change asm.position + 2 ≤ r.site
      omega
  have length := Reference.length_fill filled
  refine ⟨target, bs, bound, filled, (Memory.holds_iff ?_).mpr fun k small => ?_⟩
  · change asm.position + bs.length ≤ image.size
    omega
  · exact (same _ (by omega) (by omega)).trans (holds k small)

end Assembler

/-! ## Instructions that refer to a label -/

/-- A program with an instruction in it whose branch goes to a label. -/
structure BranchLine where
  before : List Emission
  opcode : Opcode
  operands : List Operand
  /-- What is emitted between the operands and the branch. -/
  between : List Emission := []
  condition : Bool
  label : Nat
  after : List Emission

namespace BranchLine

open Assembler

variable (b : BranchLine) (version : Byte)

def program : List Emission :=
  b.before ++ .op b.opcode b.operands :: (b.between ++ .branch b.condition b.label :: b.after)

/-- Address of the instruction. -/
def address : Nat := ((start version).assemble b.before).position

/-- Address of the branch in the instruction. -/
def site : Nat :=
  ((start version).assemble (b.before ++ .op b.opcode b.operands :: b.between)).position

/-- The instruction is one: the operation has a branch, in front of which there is only the result
variable that it has, if any.  No label is bound within, and nothing is patched over it. -/
structure Intact : Prop where
  hasBranch : b.opcode.hasBranch version.toNat = true
  width :
      b.site version = ((start version).assemble (b.before ++ [.op b.opcode b.operands])).position
    + if b.opcode.hasStore version.toNat then 1 else 0
  unbound : ∀ e ∈ b.between, ¬e.Binding
  unpatched : ∀ e ∈ b.between ++ b.after, ∀ x, b.address version ≤ x → x < b.site version + 2 →
    ¬e.Overwrites x

end BranchLine

/-- A program with a jump to a label in it. -/
structure JumpLine where
  before : List Emission
  label : Nat
  after : List Emission

namespace JumpLine

open Assembler

variable (j : JumpLine) (version : Byte)

def program : List Emission := j.before ++ .jump j.label :: j.after

/-- Address of the instruction. -/
def address : Nat := ((start version).assemble j.before).position

/-- Address of the distance in the instruction. -/
def site : Nat := j.address version + 1

/-- Nothing is patched over the instruction. -/
def Intact : Prop :=
  ∀ e ∈ j.after, ∀ x, j.address version ≤ x → x < j.site version + 2 → ¬e.Overwrites x

end JumpLine

/-- Offsets count from the end of the two bytes, less two. -/
theorem relativeTarget_distance (site target : Nat) :
    relativeTarget (site + 2) (target - site) = target % addressSpace := by
  unfold relativeTarget addressSpace
  omega

theorem Word.signed_ofInt (n : Int) : Word.signed (Word.ofInt n) = n.bmod 65536 := by
  have bits : (Word.ofInt n).toBitVec = BitVec.ofInt 16 n := by
    apply BitVec.eq_of_toNat_eq
    rw [BitVec.toNat_ofInt, UInt16.toNat_toBitVec, Word.ofInt, UInt16.toNat_ofNat']
    omega
  change (Word.ofInt n).toBitVec.toInt = _
  rw [bits, BitVec.toInt_ofInt]

namespace Encode

theorem instruction_jump (version : Nat) (w : Word) :
    Encode.instruction version .jump [.large w] = .ok (0x8c :: Word.bytes w) := by
  have encoding : Opcode.encoding? .jump version = some (.op1, 12) := by
    unfold Opcode.encoding?
    rfl
  have first : ((0x80 : Byte) ||| OperandKind.large.bits <<< 4 ||| 12) = 0x8c := by decide
  unfold instruction
  rw [encoding, ← first]
  rfl

theorem length_instruction_pos {version : Nat} {opcode : Opcode} {os : List Operand}
    {bs : List Byte} (h : Encode.instruction version opcode os = .ok bs) : 0 < bs.length := by
  unfold instruction at h
  dsimp only at h
  repeat' split at h
  all_goals cases h
  all_goals
    simp only [List.length_append, List.length_cons]
    omega

end Encode

namespace Assembler

variable {version : Byte} {image : Array Byte}

/-- A program begins with a header, and its references lie behind each other. -/
theorem assemble_start (version : Byte) (es : List Emission) :
    ((start version).assemble es).version = version.toNat ∧
      headerSize ≤ ((start version).assemble es).position ∧
      ∀ r ∈ ((start version).assemble es).references.toList,
        r.site + 2 ≤ ((start version).assemble es).position := by
  have whole := (start version).extends_assemble es
  have size : (start version).position = headerSize := by simp [start, position]
  obtain ⟨new, eq, sites⟩ := whole.references
  refine ⟨whole.version, size ▸ whole.grows, fun r mem => ?_⟩
  rw [eq] at mem
  exact (sites r (by simpa [start] using mem)).2

theorem labels_start (version : Byte) (es : List Emission) (l : Nat) :
    ((start version).assemble es).labels.getD l none = boundAt l (start version) es := by
  rw [labels_assemble]
  exact Option.or_none

theorem references_op (asm : Assembler) (opcode : Opcode) (os : List Operand) :
    (asm.op opcode os).references = asm.references := by
  unfold op
  split <;> rfl

/-- Whatever byte stands there is read as the result variable. -/
theorem exists_store {m : Memory} {a version : Nat} {opcode : Opcode}
    (inside : a + (if opcode.hasStore version then 1 else 0) ≤ m.size) :
    ∃ sb store, sb.length = (if opcode.hasStore version then 1 else 0) ∧ m.Holds a sb ∧
      Cursor.Takes (fun m => Decode.optional (opcode.hasStore version)
        (Variable.ofByte <$> Cursor.byte m)) sb store := by
  cases present : opcode.hasStore version with
  | false => exact ⟨[], none, rfl, trivial, .optional_none _⟩
  | true =>
      rw [present] at inside
      exact ⟨[m.byteAt a], _, rfl, ⟨inside, rfl, trivial⟩,
        ((Cursor.Takes.byte _).map Variable.ofByte).optional_some⟩

/-- A branch that is filled in is near enough for its fourteen bits. -/
theorem fill?_branch {site l target : Nat} {condition : Bool} {bs : List Byte}
    (filled : Reference.fill? ⟨site, l, .branch condition⟩ target = some bs) :
    (-8192 ≤ (target : Int) - site ∧ (target : Int) - site ≤ 8191) ∧
      bs = Encode.longBranch condition (target - site) := by
  unfold Reference.fill? at filled
  dsimp only at filled
  split at filled
  · rename_i near
    exact ⟨near, (Option.some.inj filled).symm⟩
  · cases filled

/-- Opcodes that branch are named ones, and none of them has a text. -/
theorem traits_of_hasBranch {opcode : Opcode} {version : Nat}
    (branches : opcode.hasBranch version = true) : opcode.Named ∧ opcode.hasText = false := by
  constructor
  · rintro cls number rfl
    cases branches
  · revert branches
    cases opcode <;> simp [Opcode.hasBranch, Opcode.hasText]

/-- A branch decodes to the distance to its label. -/
theorem decode_branch {asm : Assembler} {opcode : Opcode} {os : List Operand}
    {between after : List Emission} {condition : Bool} {l site : Nat} {image : Array Byte}
    (body : headerSize ≤ asm.position)
    (references : ∀ r ∈ asm.references.toList, r.site + 2 ≤ asm.position)
    (branches : opcode.hasBranch asm.version = true)
    (hsite : ((asm.op opcode os).assemble between).position = site)
    (width : site = (asm.op opcode os).position + if opcode.hasStore asm.version then 1 else 0)
    (unpatched : ∀ e ∈ between ++ after, ∀ x, asm.position ≤ x → x < site + 2 → ¬e.Overwrites x)
    (finished : ((asm.op opcode os).assemble (between ++ .branch condition l :: after)).finish
      = .ok image) :
    ∃ target i,
      ((asm.op opcode os).assemble (between ++ .branch condition l :: after)).labels.getD l none
        = some target ∧
      decode (.ofBytes image) asm.version asm.position = .ok i ∧ i.opcode = opcode ∧
      asm.position < site ∧
      i.branch = some (.ofOffset condition (target - site) (site + 2)) := by
  -- The operation with its operands stands as it was emitted.
  have kept : ∀ e ∈ between ++ .branch condition l :: after, ∀ x,
      asm.position ≤ x ∧ x < (asm.op opcode os).position → ¬e.Overwrites x := by
    rintro e mem x ⟨low, high⟩
    rcases List.mem_append.mp mem with mem | mem
    · exact unpatched e (by simp [mem]) x low (by omega)
    · rcases List.mem_cons.mp mem with rfl | mem
      · exact id
      · exact unpatched e (by simp [mem]) x low (by omega)
  obtain ⟨accepted, size, same⟩ := finish_keeps finished
    (.assemble (fun _ h => h.2) (fun _ h => Nat.le_trans body h.1) kept) body
      (by rwa [references_op])
  obtain ⟨head, encoded, appended⟩ := op_of_accepted accepted
  have filledHead := Encode.length_instruction_pos encoded
  rw [appended] at size same width
  rw [position_emit] at width
  have holdsHead : (Memory.ofBytes image).Holds asm.position head := holds_emit size same
  -- The branch is filled in at the end.
  rw [assemble_append, assemble_cons] at finished ⊢
  obtain ⟨target, tb, bound, filled, holdsBranch⟩ := finish_fills finished (by omega)
  rw [hsite] at filled holdsBranch
  obtain ⟨near, rfl⟩ := fill?_branch filled
  obtain ⟨sb, store, length, holdsStore, takesStore⟩ :=
    @exists_store (.ofBytes image) (asm.position + head.length) asm.version opcode
      (by rw [← width]; exact Nat.le_of_lt holdsBranch.1)
  obtain ⟨named, silent⟩ := traits_of_hasBranch branches
  have decoded := decode_of_holds named encoded takesStore
    (by rw [branches]; exact (Decode.takes_longBranch condition near.1 near.2).optional_some)
    (by rw [silent]; exact .optional_none _)
    (Memory.holds_append.mpr ⟨holdsHead, Memory.holds_append.mpr ⟨holdsStore, by
      rw [length, List.append_nil, ← width]
      exact holdsBranch⟩⟩)
  refine ⟨target, _, bound, decoded, rfl, by omega, ?_⟩
  have next : asm.position + (head ++ (sb ++ Encode.longBranch condition (target - site))).length
      = site + 2 := by
    have two : (Encode.longBranch condition (target - site)).length = 2 := rfl
    simp only [List.length_append, length, two]
    omega
  rw [Option.map_some, next]

/-- A jump decodes to the distance to its label, cut to sixteen bits. -/
theorem decode_jump {asm : Assembler} {after : List Emission} {l : Nat} {image : Array Byte}
    (body : headerSize ≤ asm.position)
    (references : ∀ r ∈ asm.references.toList, r.site + 2 ≤ asm.position)
    (unpatched : ∀ e ∈ after, ∀ x, asm.position ≤ x → x < asm.position + 3 → ¬e.Overwrites x)
    (finished : ((asm.jump l).assemble after).finish = .ok image) :
    ∃ target i, ((asm.jump l).assemble after).labels.getD l none = some target ∧
      decode (.ofBytes image) asm.version asm.position = .ok i ∧ i.opcode = .jump ∧
      i.jumpTarget? = some (relativeTarget (asm.position + 1 + 2)
        (((target : Int) - (asm.position + 1 : Nat)).bmod 65536)) := by
  have one : (asm.emit [0x8c]).position = asm.position + 1 := position_emit ..
  -- The operation stands as it was emitted.
  have referred :=
    Appends.refer (fun x (h : asm.position ≤ x ∧ x < (asm.emit [0x8c]).position) => h.2)
    l .jump
  obtain ⟨-, size, same⟩ := finish_keeps finished
    (referred.toExtends.trans (.assemble (referred.inside fun _ h => h.2)
      (fun _ h => Nat.le_trans body h.1) fun e mem x h => unpatched e mem x h.1 (by omega)))
    body references
  have holdsHead : (Memory.ofBytes image).Holds asm.position [0x8c] := holds_emit size same
  -- The distance is filled in at the end, whatever it is.
  obtain ⟨target, tb, bound, filled, holdsDistance⟩ := finish_fills finished (by omega)
  rw [one] at filled holdsDistance
  obtain rfl : Word.bytes (Word.ofInt ((target : Int) - (asm.position + 1 : Nat))) = tb :=
    Option.some.inj filled
  have holds : (Memory.ofBytes image).Holds asm.position
      ((0x8c :: Word.bytes (Word.ofInt ((target : Int) - (asm.position + 1 : Nat))))
        ++ ([] ++ ([] ++ []))) :=
    ⟨holdsHead.1, holdsHead.2.1, holdsDistance⟩
  have decoded := decode_of_holds (by rintro _ _ ⟨⟩) (Encode.instruction_jump asm.version _)
    (.optional_none _) (.optional_none _) (.optional_none _) holds
  refine ⟨target, _, bound, decoded, rfl, ?_⟩
  rw [← Word.signed_ofInt]
  rfl

end Assembler

open Assembler

/-- The label of a branch is bound outside of the instruction. -/
theorem BranchLine.Intact.target_outside {b : BranchLine} {version : Byte}
    (intact : b.Intact version)
    {target : Nat} (bound : boundAt b.label (start version) b.program = some target) :
    target ≤ b.address version ∨ b.site version + 2 ≤ target := by
  have parts : b.program
      = (b.before ++ (.op b.opcode b.operands :: b.between ++ [.branch b.condition b.label]))
        ++ b.after := by simp [program]
  have silent : ∀ e ∈ .op b.opcode b.operands :: b.between ++ [.branch b.condition b.label],
      ¬e.Binding := by
    intro e mem
    simp only [List.cons_append, List.mem_cons, List.mem_append, List.not_mem_nil, or_false] at mem
    rcases mem with rfl | mem | rfl
    · simp [Emission.Binding]
    · exact intact.unbound e mem
    · simp [Emission.Binding]
  rw [parts, boundAt_append, boundAt_append, boundAt_eq_none silent, Option.none_or,
    Option.or_eq_some_iff] at bound
  rcases bound with after | ⟨-, before⟩
  · refine .inr (Nat.le_trans (Nat.le_of_eq ?_) (boundAt_bounds after).1)
    rw [← List.append_assoc, assemble_append]
    exact (position_emit _ [0, 0]).symm
  · exact .inl (boundAt_bounds before).2

/-- A branch to a label goes where the label is bound. -/
theorem BranchLine.decode_finished {b : BranchLine} {version : Byte} {image : Array Byte}
    (intact : b.Intact version)
    (finished : ((start version).assemble b.program).finish = .ok image) :
    ∃ target i, boundAt b.label (start version) b.program = some target ∧
      decode (.ofBytes image) version.toNat (b.address version) = .ok i ∧ i.opcode = b.opcode ∧
      i.branch = some ⟨b.condition, target - b.site version, .address (target % addressSpace)⟩ := by
  obtain ⟨sameVersion, body, references⟩ := assemble_start version b.before
  have branches := intact.hasBranch
  have width := intact.width
  have parts (es : List Emission) :
      (start version).assemble (b.before ++ .op b.opcode b.operands :: es)
      = (((start version).assemble b.before).op b.opcode b.operands).assemble es :=
    assemble_append ..
  have site :
      ((((start version).assemble b.before).op b.opcode b.operands).assemble b.between).position
      = b.site version := (congrArg position (parts b.between)).symm
  rw [parts] at width
  rw [← labels_start]
  rw [program, parts] at finished ⊢
  rw [← sameVersion] at branches width ⊢
  obtain ⟨target, i, bound, decoded, opcode, behind, branch⟩ :=
    decode_branch body references branches
    site width intact.unpatched finished
  refine ⟨target, i, bound, decoded, opcode, ?_⟩
  rw [← parts, labels_start] at bound
  have outside := intact.target_outside bound
  have address : b.address version < b.site version := behind
  rw [branch, Branch.ofOffset, relativeTarget_distance, if_neg (by omega), if_neg (by omega)]

/-- A jump to a label goes where the label is bound if the distance has sixteen bits. -/
theorem JumpLine.decode_finished {j : JumpLine} {version : Byte} {image : Array Byte}
    (intact : j.Intact version)
    (finished : ((start version).assemble j.program).finish = .ok image) :
    ∃ target i, boundAt j.label (start version) j.program = some target ∧
      decode (.ofBytes image) version.toNat (j.address version) = .ok i ∧ i.opcode = .jump ∧
      i.jumpTarget? = some (relativeTarget (j.site version + 2)
        (((target : Int) - j.site version).bmod 65536)) := by
  obtain ⟨sameVersion, body, references⟩ := assemble_start version j.before
  have parts : (start version).assemble j.program
      = (((start version).assemble j.before).jump j.label).assemble j.after := assemble_append ..
  rw [← labels_start]
  rw [parts] at finished ⊢
  rw [← sameVersion]
  exact decode_jump body references intact finished

/-- In the image of a program, every branch to a label goes where the label is bound: one that could
not reach it makes the assembler refuse.  Jumps are not refused.  One goes where its label is bound
if the distance has sixteen bits, and by the distance modulo 2^16 otherwise. -/
theorem references_resolved {version : Byte} {program : List Emission} {image : Array Byte}
    (finished : ((start version).assemble program).finish = .ok image) :
    (∀ b : BranchLine, b.program = program → b.Intact version →
      ∃ target i, boundAt b.label (start version) program = some target ∧
        decode (.ofBytes image) version.toNat (b.address version) = .ok i ∧ i.opcode = b.opcode ∧
        i.branch = some ⟨b.condition, target - b.site version, .address (target % addressSpace)⟩) ∧
    (∀ j : JumpLine, j.program = program → j.Intact version →
      ∃ target i, boundAt j.label (start version) program = some target ∧
        decode (.ofBytes image) version.toNat (j.address version) = .ok i ∧ i.opcode = .jump ∧
        i.jumpTarget? = some (relativeTarget (j.site version + 2)
          (((target : Int) - j.site version).bmod 65536)) ∧
        (-32768 ≤ (target : Int) - j.site version → (target : Int) - j.site version ≤ 32767 →
          i.jumpTarget? = some (target % addressSpace))) := by
  constructor
  · rintro b rfl intact
    exact b.decode_finished intact finished
  · rintro j rfl intact
    obtain ⟨target, i, bound, decoded, opcode, goes⟩ := j.decode_finished intact finished
    refine ⟨target, i, bound, decoded, opcode, goes, fun low high => ?_⟩
    have whole : ((target : Int) - j.site version).bmod 65536 = target - j.site version := by
      rw [Int.bmod_def]
      split <;> omega
    rw [goes, whole, relativeTarget_distance]

/-- A loop whose exit is a branch forward over the jump back. -/
def loopExit : BranchLine where
  before := [.label, .here]
  opcode := .getChild
  operands := [.var (.localVar 0)]
  between := [.store .stack]
  condition := false
  label := 0
  after := [.jump 1, .bindLabel 0, .op .quit []]

/-- Its jump back. -/
def loopJump : JumpLine where
  before := [.label, .here, .op .getChild [.var (.localVar 0)], .store .stack, .branch false 0]
  label := 1
  after := [.bindLabel 0, .op .quit []]

theorem references_resolved_loop : ∃ image i j,
    ((start 5).assemble loopExit.program).finish = .ok image ∧ loopExit.Intact 5 ∧
    loopJump.Intact 5 ∧
    decode (.ofBytes image) 5 64 = .ok i ∧ i.branch = some ⟨false, 5, .address 72⟩ ∧
    decode (.ofBytes image) 5 69 = .ok j ∧ j.jumpTarget? = some 64 := by
  obtain ⟨image, finished⟩ : ∃ image, ((start 5).assemble loopExit.program).finish = .ok image := by
    exact ⟨_, Except.eq_ok_getD #[] (by decide +kernel)⟩
  -- Nothing in the program is put over the branch, the jump or what lies between.
  have exitIntact : loopExit.Intact 5 :=
    { hasBranch := rfl
      width := by decide +kernel
      unbound := by
        intro e mem
        rw [List.mem_singleton.mp mem]
        simp [Emission.Binding]
      unpatched := by
        intro e mem x _ _
        simp only [loopExit, List.cons_append, List.nil_append, List.mem_cons, List.not_mem_nil,
          or_false] at mem
        rcases mem with rfl | rfl | rfl | rfl <;> exact id }
  have jumpIntact : loopJump.Intact 5 := by
    intro e mem x _ _
    simp only [loopJump, List.mem_cons, List.not_mem_nil, or_false] at mem
    rcases mem with rfl | rfl <;> exact id
  obtain ⟨exit, jump⟩ := references_resolved finished
  obtain ⟨target, i, bound, decoded, -, branch⟩ := exit loopExit rfl exitIntact
  obtain ⟨target', j, bound', decoded', -, -, goes⟩ := jump loopJump rfl jumpIntact
  have exitBound : boundAt 0 (start 5) loopExit.program = some 72 := by decide +kernel
  have jumpBound : boundAt 1 (start 5) loopExit.program = some 64 := by decide +kernel
  have exitSite : loopExit.address 5 = 64 ∧ loopExit.site 5 = 67 := by decide +kernel
  have jumpSite : loopJump.address 5 = 69 ∧ loopJump.site 5 = 70 := by decide +kernel
  obtain rfl : target = 72 := Option.some.inj (bound.symm.trans exitBound)
  obtain rfl : target' = 64 := Option.some.inj (bound'.symm.trans jumpBound)
  rw [exitSite.1] at decoded
  rw [exitSite.2] at branch
  rw [jumpSite.1] at decoded'
  rw [jumpSite.2] at goes
  exact ⟨image, i, j, finished, exitIntact, jumpIntact, decoded, branch, decoded',
    goes (by decide) (by decide)⟩

/-- A jump over more bytes than a distance of sixteen bits can count. -/
def farJump : JumpLine where
  before := [.label]
  label := 0
  after := [.zeros 40000, .bindLabel 0, .op .quit []]

theorem assemble_farJump :
    ((start 5).assemble farJump.program).references.toList = [⟨65, 0, .jump⟩] ∧
      ((start 5).assemble farJump.program).failure = none ∧
      boundAt 0 (start 5) farJump.program = some 40067 := by
  have quit : Encode.instruction 5 .quit [] = .ok [0xba] := rfl
  refine ⟨?_, ?_, ?_⟩
  · simp [farJump, JumpLine.program, assemble, Emission.run, Assembler.zeros, Assembler.jump, refer,
      emit, Assembler.label, bindLabel, Assembler.op, position, start, headerSize, quit]
  · simp [farJump, JumpLine.program, assemble, Emission.run, Assembler.zeros, Assembler.jump, refer,
      emit, Assembler.label, bindLabel, Assembler.op, start, quit]
  · simp [farJump, JumpLine.program, boundAt, Emission.Binds, Emission.run, Assembler.zeros,
      Assembler.jump, refer, emit, Assembler.label, position, start, headerSize]

/-- The assembler does not refuse every distance that cannot be represented: it makes an image in
which a jump goes elsewhere. -/
theorem exists_astray : ∃ image target i, ((start 5).assemble farJump.program).finish = .ok image ∧
    farJump.Intact 5 ∧ boundAt farJump.label (start 5) farJump.program = some target ∧
    decode (.ofBytes image) 5 (farJump.address 5) = .ok i ∧ i.opcode = .jump ∧
    i.jumpTarget? ≠ some (target % addressSpace) := by
  obtain ⟨references, clean, bound⟩ := assemble_farJump
  have intact : farJump.Intact 5 := by
    intro e mem x _ _
    simp only [farJump, List.mem_cons, List.not_mem_nil, or_false] at mem
    rcases mem with rfl | rfl | rfl <;> exact id
  obtain ⟨bytes, resolved⟩ : ∃ bytes, ((start 5).assemble farJump.program).references.toList.foldlM
      (resolve ((start 5).assemble farJump.program).labels)
      ((start 5).assemble farJump.program).bytes
        = .ok bytes := by
    have labelled := (labels_start 5 farJump.program 0).trans bound
    rw [references]
    exact ⟨_, Except.bind_eq_ok.mpr ⟨_, resolve_eq_ok.mpr ⟨40067, _, labelled, rfl, rfl⟩, rfl⟩⟩
  -- Nothing is refused: the distance is simply cut.
  have finished := finish_eq_ok.mpr ⟨clean, bytes, resolved, rfl⟩
  obtain ⟨target, i, bound', decoded, opcode, goes⟩ := farJump.decode_finished intact finished
  obtain rfl : target = 40067 := Option.some.inj (bound'.symm.trans bound)
  have site : farJump.site 5 = 65 := by
    simp [JumpLine.site, JumpLine.address, farJump, assemble, Emission.run,
      Assembler.label, position, start, headerSize]
  refine ⟨_, _, i, finished, intact, bound', decoded, opcode, ?_⟩
  rw [goes, site]
  decide

end ZMachine
