/-
  What compiling depends on.

  Of the pool of literals only the numbers of texts depend, and of the image
  only the texts themselves.  So compiling the same routine twice, from other
  pools and from images that give the same texts, gives the same code up to
  the numbers of its texts, or fails alike.
-/
import ZMachine.Compile.Routine
import ZMachine.Proofs.Actions
import ZMachine.Proofs.Lockstep
import ZMachine.Proofs.Partition

namespace ZMachine

variable {α β : Type}

/-! ## Actions that leave the pool alone -/

/-- An action of the compiler that neither looks at the pool nor changes it; its result has the
property `Q`. -/
def CompileM.Still (Q : α → Prop) (x : CompileM α) : Prop :=
  ∃ r : Except CompileError α, (∀ a, r = .ok a → Q a) ∧
    ∀ pool, x pool =
      match r with
      | .ok a => .ok a pool
      | .error e => .error e pool

namespace CompileM.Still

variable {Q : α → Prop} {R : β → Prop}

theorem pure {a : α} (h : Q a) : Still Q (Pure.pure a : CompileM α) :=
  ⟨.ok a, fun _ same => Except.ok.inj same ▸ h, fun _ => rfl⟩

theorem throw (e : CompileError) : Still Q (MonadExcept.throw e : CompileM α) :=
  ⟨.error e, nofun, fun _ => rfl⟩

theorem bind {x : CompileM α} {f : α → CompileM β} (hx : Still Q x)
    (hf : ∀ a, Q a → Still R (f a)) : Still R (x >>= f) := by
  obtain ⟨r, hQ, hx⟩ := hx
  cases r with
  | error e =>
      refine ⟨.error e, nofun, fun pool => ?_⟩
      simp only [Bind.bind, EStateM.bind, hx]
  | ok a =>
      obtain ⟨r, hR, hf⟩ := hf a (hQ a rfl)
      refine ⟨r, hR, fun pool => ?_⟩
      simp only [Bind.bind, EStateM.bind, hx, hf]

theorem map {x : CompileM α} {f : α → β} (hx : Still Q x) (hf : ∀ a, Q a → R (f a)) :
    Still R (f <$> x) := by
  rw [map_eq_pure_bind]
  exact hx.bind fun a ha => .pure (hf a ha)

end CompileM.Still

open CompileM

namespace Scope

variable (e : Scope)

/-- Nothing is asked of a result. -/
abbrev any (_ : α) : Prop := True

theorem still_require (address : Nat) (h : Helper) : Still any (e.require address h) := by
  unfold require
  split
  · exact .pure trivial
  · exact .throw _

theorem still_requireAll (address : Nat) (hs : List Helper) :
    Still any (e.requireAll address hs) := by
  unfold requireAll
  induction hs with
  | nil => exact .pure trivial
  | cons h hs ih => exact (e.still_require address h).bind fun _ _ => ih

theorem still_blockAt (address target : Nat) : Still any (e.blockAt address target) := by
  unfold blockAt
  split
  · exact .pure trivial
  · exact .throw _

theorem still_branchOf (i : Instruction) : Still any (e.branchOf i) := by
  unfold branchOf
  split
  · exact .pure trivial
  · rename_i b _
    refine CompileM.Still.bind (Q := any) ?_ fun _ _ =>
      (e.still_blockAt _ _).bind fun _ _ => .pure trivial
    cases b.target with
    | returnFalse => exact .pure trivial
    | returnTrue => exact .pure trivial
    | address a => exact (e.still_blockAt _ _).map fun _ _ => trivial

theorem still_requireOperand (i : Instruction) (index : Nat) :
    Still any (requireOperand i index) := by
  unfold requireOperand
  split
  · exact .pure trivial
  · exact .throw _

theorem still_textOf (i : Instruction) : Still any (e.textOf i) := by
  unfold textOf
  split
  · exact .pure trivial
  · exact .throw _

end Scope

/-- The text that an action prints, by its number. -/
def Action.literal? : Action → Option Nat
  | .print n => some n
  | .printLeave n => some n
  | _ => none

/-- An action that prints no text of the pool. -/
abbrev Action.Silent (a : Action) : Prop := a.literal? = none

/-- Opcodes whose texts go to the pool. -/
def Opcode.usesPool : Opcode → Bool
  | .print | .printRet | .newLine => true
  | _ => false

namespace Scope

variable (e : Scope) (i : Instruction)

theorem still_indirect : Still Action.Silent (e.indirect i) := by
  unfold indirect
  refine (still_requireOperand i 0).bind fun _ _ => ?_
  split
  · exact (e.still_requireAll _ _).bind fun _ _ => .pure rfl
  · exact (e.still_requireAll _ _).bind fun _ _ => .pure rfl
  · refine (still_requireOperand i 1).bind fun _ _ => (e.still_requireAll _ _).bind fun _ _ => ?_
    exact (e.still_branchOf i).bind fun _ _ => .pure rfl
  · refine (still_requireOperand i 1).bind fun _ _ => (e.still_requireAll _ _).bind fun _ _ => ?_
    exact (e.still_branchOf i).bind fun _ _ => .pure rfl
  · refine (still_requireOperand i 1).bind fun _ _ => (e.still_requireAll _ _).bind fun _ _ => ?_
    exact .pure rfl
  · exact (e.still_requireAll _ _).bind fun _ _ => .pure rfl
  · exact (e.still_requireAll _ _).bind fun _ _ => .pure rfl

theorem still_call : Still Action.Silent (e.call i) := by
  unfold call
  refine (still_requireOperand i 0).bind fun _ _ => ?_
  split
  · split
    · exact (e.still_requireAll _ _).bind fun _ _ => .pure rfl
    · exact (e.still_requireAll _ _).bind fun _ _ => .pure rfl
  · exact (e.still_requireAll _ _).bind fun _ _ => .pure rfl

theorem still_data : Still Action.Silent (e.data i) := by
  unfold data
  dsimp only
  split
  · exact (e.still_requireAll _ _).bind fun _ _ => .pure rfl
  · split
    · exact (e.still_branchOf i).bind fun _ _ => .pure rfl
    · split
      · exact (e.still_requireAll _ _).bind fun _ _ => .pure rfl
      · refine (e.still_requireAll _ _).bind fun _ _ => ?_
        exact (e.still_branchOf i).bind fun _ _ => .pure rfl

theorem still_action (h : i.opcode.usesPool = false) : Still Action.Silent (e.action i) := by
  unfold action
  dsimp only
  split
  -- Only the opcodes with texts put them into the pool.
  case h_7 | h_8 | h_9 => simp_all [Opcode.usesPool]
  case h_1 | h_2 | h_3 => exact .pure rfl
  case h_4 => exact (still_requireOperand i 0).bind fun _ _ => .pure rfl
  case h_6 =>
    split
    · exact (e.still_blockAt _ _).bind fun _ _ => .pure rfl
    · exact (e.still_requireAll _ _).bind fun _ _ => .pure rfl
  case h_12 | h_13 | h_14 =>
    exact (still_requireOperand i 0).bind fun _ _ =>
      (e.still_requireAll _ _).bind fun _ _ => .pure rfl
  case h_16 =>
    split
    · exact e.still_call i
    · split
      · split
        · exact (e.still_requireAll _ _).bind fun _ _ => .pure rfl
        · exact (e.still_requireAll _ _).bind fun _ _ => .pure rfl
      · split
        · exact e.still_indirect i
        · split
          · exact (e.still_requireAll _ _).bind fun _ _ => .pure rfl
          · exact e.still_data i
  all_goals exact (e.still_requireAll _ _).bind fun _ _ => .pure rfl

/-- The scope with another image to read. -/
def reading (m : Memory) : Scope := { e with story := { e.story with memory := m } }

/-- But for texts, the image does not matter. -/
theorem action_reading (m : Memory) (h : i.opcode.usesPool = false) :
    (e.reading m).action i = e.action i := by
  unfold action
  split
  case h_7 | h_8 | h_9 => simp_all [Opcode.usesPool]
  all_goals rfl

end Scope

/-! ## Compiling side by side -/

/-- The same action up to the numbers of texts, which `R` relates. -/
inductive Action.Alike (R : Nat → Nat → Prop) : Action → Action → Prop where
  | silent (a : Action) (h : a.Silent) : Alike R a a
  | print {n n' : Nat} (h : R n n') : Alike R (.print n) (.print n')
  | printLeave {n n' : Nat} (h : R n n') : Alike R (.printLeave n) (.printLeave n')

/-- The same step up to the numbers of texts. -/
structure CodeStep.Alike (R : Nat → Nat → Prop) (s s' : CodeStep) : Prop where
  operands : s.operands = s'.operands
  action : s.action.Alike R s'.action

/-- The same block up to the numbers of texts. -/
structure CodeBlock.Alike (R : Nat → Nat → Prop) (b b' : CodeBlock) : Prop where
  steps : List.Forall₂ (CodeStep.Alike R) b.steps b'.steps
  next : b.next = b'.next

/-- The same code up to the numbers of texts. -/
structure Code.Alike (R : Nat → Nat → Prop) (c c' : Code) : Prop where
  address : c.address = c'.address
  defaults : c.defaults = c'.defaults
  blocks : List.Forall₂ (CodeBlock.Alike R) c.blocks.toList c'.blocks.toList

section Alike

variable {R R' : Nat → Nat → Prop}

theorem Action.Alike.mono {a a' : Action} (h : a.Alike R a') (le : ∀ n n', R n n' → R' n n') :
    a.Alike R' a' := by
  cases h with
  | silent a h => exact .silent a h
  | print h => exact .print (le _ _ h)
  | printLeave h => exact .printLeave (le _ _ h)

theorem CodeStep.Alike.mono {s s' : CodeStep} (h : s.Alike R s') (le : ∀ n n', R n n' → R' n n') :
    s.Alike R' s' := ⟨h.operands, h.action.mono le⟩

theorem CodeBlock.Alike.mono {b b' : CodeBlock} (h : b.Alike R b')
    (le : ∀ n n', R n n' → R' n n') : b.Alike R' b' := ⟨h.steps.imp fun _ _ h => h.mono le, h.next⟩

theorem Code.Alike.mono {c c' : Code} (h : c.Alike R c') (le : ∀ n n', R n n' → R' n n') :
    c.Alike R' c' := ⟨h.address, h.defaults, h.blocks.imp fun _ _ h => h.mono le⟩

theorem Action.alike_refl (a : Action) : a.Alike Eq a := by
  cases a with
  | print => exact .print rfl
  | printLeave => exact .printLeave rfl
  | _ => exact .silent _ rfl

theorem Code.alike_refl (c : Code) : c.Alike Eq c := by
  refine ⟨rfl, rfl, List.forall₂_same.mpr fun b _ => ⟨List.forall₂_same.mpr fun s _ => ?_, rfl⟩⟩
  exact ⟨rfl, s.action.alike_refl⟩

end Alike

/-- Numbers of one text in two pools. -/
def SameLiteral (pool pool' : List String) (n n' : Nat) : Prop :=
  ∃ text, pool[n]? = some text ∧ pool'[n']? = some text

theorem getElem?_of_isPrefix {pool more : List String} (h : pool <+: more) {n : Nat} {text : String}
    (found : pool[n]? = some text) : more[n]? = some text := by
  obtain ⟨rest, rfl⟩ := h
  rw [List.getElem?_append_left (List.getElem?_eq_some_iff.mp found).1]
  exact found

theorem SameLiteral.mono {pool pool' more more' : List String} (hp : pool <+: more)
    (hp' : pool' <+: more') (n n' : Nat) (h : SameLiteral pool pool' n n') :
    SameLiteral more more' n n' := by
  obtain ⟨text, found, found'⟩ := h
  exact ⟨text, getElem?_of_isPrefix hp found, getElem?_of_isPrefix hp' found'⟩

/-- The same action on two pools. -/
abbrev Action.Same (pool pool' : List String) : Action → Action → Prop :=
  Action.Alike (SameLiteral pool pool')

/-- The same step on two pools. -/
abbrev CodeStep.Same (pool pool' : List String) : CodeStep → CodeStep → Prop :=
  CodeStep.Alike (SameLiteral pool pool')

/-- The same block on two pools. -/
abbrev CodeBlock.Same (pool pool' : List String) : CodeBlock → CodeBlock → Prop :=
  CodeBlock.Alike (SameLiteral pool pool')

/-- The same code on two pools. -/
abbrev Code.Same (pool pool' : List String) : Code → Code → Prop :=
  Code.Alike (SameLiteral pool pool')

/-- Results of the compiler that `V` relates, or the same failure; the pools only grew. -/
abbrev Together (V : List String → List String → α → β → Prop) (pool pool' : List String) :
    EStateM.Result CompileError (List String) α → EStateM.Result CompileError (List String) β →
      Prop :=
  Joint (fun a more b more' => V more more' a b ∧ pool <+: more ∧ pool' <+: more')
    fun e more e' more' => e = e' ∧ pool <+: more ∧ pool' <+: more'

/-- Two actions of the compiler give results that `V` relates, or fail alike; the pools only
grow. -/
def Parallel (V : List String → List String → α → β → Prop) (x : CompileM α) (y : CompileM β) :
    Prop :=
  ∀ pool pool', Together V pool pool' (x pool) (y pool')

theorem Together.bind {γ δ : Type} {V : List String → List String → α → β → Prop}
    {W : List String → List String → γ → δ → Prop} {x : CompileM α} {y : CompileM β}
    {f : α → CompileM γ} {g : β → CompileM δ} {pool pool' : List String}
    (first : Together V pool pool' (x pool) (y pool'))
    (rest : ∀ a b more more', V more more' a b → pool <+: more → pool' <+: more' →
      Together W more more' (f a more) (g b more')) :
    Together W pool pool' ((x >>= f) pool) ((y >>= g) pool') := by
  simp only [Bind.bind, EStateM.bind]
  generalize x pool = r at first
  generalize y pool' = r' at first
  cases first with
  | ok h =>
      refine (rest _ _ _ _ h.1 h.2.1 h.2.2).mono (fun _ _ _ _ hc => ?_) fun _ _ _ _ he => ?_
      · exact ⟨hc.1, h.2.1.trans hc.2.1, h.2.2.trans hc.2.2⟩
      · exact ⟨he.1, h.2.1.trans he.2.1, h.2.2.trans he.2.2⟩
  | error h => exact .error h

namespace Parallel

variable {γ δ : Type} {V : List String → List String → α → β → Prop}
  {W : List String → List String → γ → δ → Prop}

theorem of_still {Q : α → Prop} {x : CompileM α} (h : Still Q x) :
    Parallel (fun _ _ a b => a = b ∧ Q a) x x := by
  obtain ⟨r, hQ, hx⟩ := h
  intro pool pool'
  rw [hx, hx]
  cases r with
  | ok a => exact .ok ⟨⟨rfl, hQ a rfl⟩, List.prefix_rfl, List.prefix_rfl⟩
  | error e => exact .error ⟨rfl, List.prefix_rfl, List.prefix_rfl⟩

theorem pure {a : α} {b : β} (h : ∀ pool pool', V pool pool' a b) :
    Parallel V (Pure.pure a) (Pure.pure b) :=
  fun _ _ => .ok ⟨h _ _, List.prefix_rfl, List.prefix_rfl⟩

theorem bind {x : CompileM α} {y : CompileM β} {f : α → CompileM γ} {g : β → CompileM δ}
    (first : Parallel V x y)
    (rest : ∀ a b pool pool', V pool pool' a b → Together W pool pool' (f a pool) (g b pool')) :
    Parallel W (x >>= f) (y >>= g) :=
  fun pool pool' => (first pool pool').bind fun a b more more' h _ _ => rest a b more more' h

theorem mono {V' : List String → List String → α → β → Prop} {x : CompileM α} {y : CompileM β}
    (h : Parallel V x y) (hV : ∀ pool pool' a b, V pool pool' a b → V' pool pool' a b) :
    Parallel V' x y :=
  fun pool pool' => (h pool pool').mono (fun _ _ _ _ h => ⟨hV _ _ _ _ h.1, h.2⟩) fun _ _ _ _ h => h

/-- The pool only grows. -/
theorem grows {x : CompileM α} {y : CompileM β} (h : Parallel V x y) {pool more : List String}
    {a : α} (ran : x pool = .ok a more) : pool <+: more := by
  have joint := h pool []
  rw [ran] at joint
  generalize y [] = result at joint
  cases joint with
  | ok h => exact h.2.1

theorem mapM {ι : Type} {x : ι → CompileM α} {y : ι → CompileM β}
    (mono : ∀ a b pool pool' more more', V pool pool' a b → pool <+: more → pool' <+: more' →
      V more more' a b)
    (is : List ι) (h : ∀ i ∈ is, Parallel V (x i) (y i)) :
    Parallel (fun pool pool' => List.Forall₂ (V pool pool')) (is.mapM x) (is.mapM y) := by
  induction is with
  | nil => exact .pure fun _ _ => .nil
  | cons i is ih =>
      rw [List.mapM_cons, List.mapM_cons]
      refine (h i (by simp)).bind fun a b pool pool' hab => ?_
      have rest := ih fun j hj => h j (by simp [hj])
      refine (rest pool pool').bind fun as bs more more' habs grows grows' => ?_
      exact .ok ⟨.cons (mono _ _ _ _ _ _ hab grows grows') habs, List.prefix_rfl, List.prefix_rfl⟩

end Parallel

namespace Scope

/-- A text gets a number in the pool under which it is found. -/
theorem run_literal (text : String) (pool : List String) :
    ∃ n more, literal text pool = .ok n more ∧ more[n]? = some text ∧ pool <+: more := by
  simp only [literal, Bind.bind, EStateM.bind, run_get]
  cases found : pool.idxOf? text with
  | some n =>
      refine ⟨n, pool, rfl, ?_, List.prefix_rfl⟩
      obtain ⟨bound, found, -⟩ := List.findIdx?_eq_some_iff_getElem.mp found
      rw [List.getElem?_eq_getElem bound]
      simpa using found
  | none => exact ⟨pool.length, pool ++ [text], rfl, by simp, List.prefix_append ..⟩

theorem parallel_literal (text : String) :
    Parallel (fun pool pool' n n' => pool[n]? = some text ∧ pool'[n']? = some text)
      (literal text) (literal text) := by
  intro pool pool'
  obtain ⟨n, more, ran, found, grows⟩ := run_literal text pool
  obtain ⟨n', more', ran', found', grows'⟩ := run_literal text pool'
  rw [ran, ran']
  exact .ok ⟨⟨found, found'⟩, grows, grows'⟩

variable (e : Scope) (m : Memory) (i : Instruction)

/-- Whether the image `m` gives an instruction the same text. -/
def SameText : Prop :=
  e.story.tables.decodeWords m (i.text.getD []) =
    e.story.tables.decodeWords e.story.memory (i.text.getD [])

variable {e m i}

theorem SameText.textOf (same : e.SameText m i) : (e.reading m).textOf i = e.textOf i := by
  have words : (e.reading m).story.tables.decodeWords (e.reading m).story.memory (i.text.getD [])
      = e.story.tables.decodeWords e.story.memory (i.text.getD []) := same
  unfold Scope.textOf
  rw [words]

/-- A helper that is required is so on both sides. -/
theorem Together.after_still {V : List String → List String → α → β → Prop} {x : CompileM Unit}
    (still : Still any x) {a : α} {b : β} {pool pool' : List String} (h : V pool pool' a b) :
    Together V pool pool' ((x >>= fun _ => (pure a : CompileM α)) pool)
      ((x >>= fun _ => (pure b : CompileM β)) pool') := by
  obtain ⟨r, -, hx⟩ := still
  simp only [Bind.bind, EStateM.bind, hx]
  cases r with
  | ok _ => exact .ok ⟨h, List.prefix_rfl, List.prefix_rfl⟩
  | error e => exact .error ⟨rfl, List.prefix_rfl, List.prefix_rfl⟩

theorem parallel_action (same : e.SameText m i) :
    Parallel Action.Same (e.action i) ((e.reading m).action i) := by
  by_cases pool : i.opcode.usesPool
  · unfold Scope.action
    dsimp only
    rw [same.textOf]
    split <;> rename_i h <;> try (rw [h] at pool; cases pool; done)
    -- Text, text with a return after it, and a new line.
    · refine (Parallel.of_still (e.still_textOf i)).bind fun text text' pool pool' htext => ?_
      rw [← htext.1]
      refine (parallel_literal text).bind (fun n n' pool pool' found => ?_) pool pool'
      exact Together.after_still (e.still_requireAll _ _) (.print ⟨_, found.1, found.2⟩)
    · refine (Parallel.of_still (e.still_textOf i)).bind fun text text' pool pool' htext => ?_
      rw [← htext.1]
      refine (parallel_literal (text ++ "\n")).bind (fun n n' pool pool' found => ?_) pool pool'
      exact Together.after_still (e.still_requireAll _ _) (.printLeave ⟨_, found.1, found.2⟩)
    · refine (parallel_literal "\n").bind fun n n' pool pool' found => ?_
      exact Together.after_still (e.still_requireAll _ _) (.print ⟨_, found.1, found.2⟩)
    · simp_all [Opcode.usesPool]
  · have pool : i.opcode.usesPool = false := by simpa using pool
    rw [e.action_reading i m pool]
    refine (Parallel.of_still (e.still_action i pool)).mono fun _ _ a b h => ?_
    obtain ⟨rfl, silent⟩ := h
    exact .silent a silent

theorem parallel_step (same : e.SameText m i) :
    Parallel CodeStep.Same (e.step i) ((e.reading m).step i) := by
  refine (Parallel.of_still (e.still_requireAll i.address _)).bind fun _ _ pool pool' _ => ?_
  refine (parallel_action same).bind (fun a a' pool pool' h => ?_) pool pool'
  exact .ok ⟨⟨rfl, h⟩, List.prefix_rfl, List.prefix_rfl⟩

theorem endsBlock_of_same {pool pool' : List String} {a a' : Action} (h : a.Same pool pool' a') :
    a.endsBlock = a'.endsBlock := by
  cases h <;> rfl

theorem parallel_steps (is : List Instruction) (same : ∀ i ∈ is, e.SameText m i) :
    Parallel (fun pool pool' p p' => List.Forall₂ (CodeStep.Same pool pool') p.1 p'.1 ∧ p.2 = p'.2)
      (e.steps is) ((e.reading m).steps is) := by
  induction is with
  | nil => exact .pure fun _ _ => ⟨.nil, rfl⟩
  | cons i rest ih =>
      unfold Scope.steps
      refine (parallel_step (same i (by simp))).bind fun s s' pool pool' h => ?_
      dsimp only
      rw [endsBlock_of_same h.action]
      split
      · exact .ok ⟨⟨.cons h .nil, rfl⟩, List.prefix_rfl, List.prefix_rfl⟩
      · split
        · exact .ok ⟨⟨.cons h .nil, rfl⟩, List.prefix_rfl, List.prefix_rfl⟩
        · have more := ih fun j hj => same j (by simp [hj])
          refine (more pool pool').bind fun p p' more more' hp grows grows' => ?_
          exact .ok ⟨⟨.cons (h.mono (SameLiteral.mono grows grows')) hp.1, hp.2⟩, List.prefix_rfl,
            List.prefix_rfl⟩

theorem parallel_block (b : Block) (same : ∀ i ∈ b.instructions, e.SameText m i) :
    Parallel CodeBlock.Same (e.block b) ((e.reading m).block b) := by
  refine (parallel_steps b.instructions same).bind fun p p' pool pool' h => ?_
  obtain ⟨steps, last⟩ := p
  obtain ⟨steps', last'⟩ := p'
  obtain ⟨hsteps, rfl⟩ := h
  have rest (n : Option Nat) : CodeBlock.Same pool pool' ⟨steps, n⟩ ⟨steps', n⟩ := ⟨hsteps, rfl⟩
  cases last with
  | none => exact .ok ⟨rest none, List.prefix_rfl, List.prefix_rfl⟩
  | some address =>
      cases hi : b.instructions.getLast? with
      | none => exact .ok ⟨rest none, List.prefix_rfl, List.prefix_rfl⟩
      | some i =>
          obtain ⟨r, -, target⟩ := e.still_blockAt address i.next
          change Joint _ _ ((e.blockAt address i.next >>= _) pool)
            ((e.blockAt address i.next >>= _) pool')
          simp only [Bind.bind, EStateM.bind, target]
          cases r with
          | error e => exact .error ⟨rfl, List.prefix_rfl, List.prefix_rfl⟩
          | ok n => exact .ok ⟨rest (some n), List.prefix_rfl, List.prefix_rfl⟩

end Scope

/-! ## Routines -/

/-- What the instructions of a routine are compiled against. -/
def Scope.ofRoutine (story : StoryText) (r : Routine) : Scope :=
  { story, graph := .build r, localCount := r.localCount
    available := fun h => (Needs.scan r).wants h.group }

/-- Compiling a routine compiles its blocks. -/
theorem run_compile (story : StoryText) (r : Routine) (pool : List String) :
    match ((Scope.ofRoutine story r).graph.blocks.mapM (Scope.ofRoutine story r).block) pool with
    | .ok blocks more => ∃ statistics,
        compile story true r pool =
          .ok ({ address := r.address, defaults := r.defaults, blocks := blocks.toArray },
            statistics)
            more ∧
        statistics.needs = Needs.scan r
    | .error e more => compile story true r pool = .error e more := by
  simp only [compile, Bind.bind, EStateM.bind]
  change (match (List.mapM (Scope.ofRoutine story r).block _) pool with
    | .ok blocks more => _
    | .error e more => _)
  split
  · rename_i blocks more h
    exact ⟨_, by erw [h]; rfl, rfl⟩
  · rename_i e more h
    erw [h]

theorem compile_ok {story : StoryText} {r : Routine} {pool more : List String} {code : Code}
    {statistics : CompileStatistics} (h : compile story true r pool = .ok (code, statistics) more) :
    statistics.needs = Needs.scan r ∧ code.defaults = r.defaults ∧ ∃ blocks,
      ((Scope.ofRoutine story r).graph.blocks.mapM (Scope.ofRoutine story r).block) pool
        = .ok blocks more ∧ code.blocks = blocks.toArray := by
  have run := run_compile story r pool
  split at run
  · rename_i blocks more' hb
    obtain ⟨statistics', ran, needs⟩ := run
    rw [ran] at h
    cases h
    exact ⟨needs, rfl, blocks, hb, rfl⟩
  · rw [run] at h
    cases h

/-- Compiling a routine from other pools and images gives the same code or fails alike, as long as
the texts are the same. -/
theorem parallel_compile {story : StoryText} {m : Memory} {r : Routine}
    (same : ∀ i ∈ r.instructions, story.tables.decodeWords m (i.text.getD [])
      = story.tables.decodeWords story.memory (i.text.getD [])) :
    Parallel (fun pool pool' p p' => Code.Same pool pool' p.1 p'.1) (compile story true r)
      (compile { story with memory := m } true r) := by
  intro pool pool'
  have blocks : Parallel (fun pool pool' => List.Forall₂ (CodeBlock.Same pool pool'))
      ((Scope.ofRoutine story r).graph.blocks.mapM (Scope.ofRoutine story r).block)
      ((Scope.ofRoutine story r).graph.blocks.mapM
        ((Scope.ofRoutine story r).reading m).block) := by
    refine Parallel.mapM (fun _ _ _ _ _ _ h hp hp' => h.mono (SameLiteral.mono hp hp')) _
      fun b hb => ?_
    obtain ⟨_, _, -, -, part⟩ := FlowGraph.mem_build hb
    exact Scope.parallel_block b fun i hi => same i (part.subset hi)
  have joint := blocks pool pool'
  -- On both sides compiling is that of the blocks, with statistics to it.
  have left := run_compile story r pool
  have right := run_compile { story with memory := m } r pool'
  change (match ((Scope.ofRoutine story r).graph.blocks.mapM
    ((Scope.ofRoutine story r).reading m).block) pool' with
    | .ok blocks more => _
    | .error e more => _) at right
  generalize (Scope.ofRoutine story r).graph.blocks.mapM (Scope.ofRoutine story r).block pool = x
    at joint left
  generalize (Scope.ofRoutine story r).graph.blocks.mapM ((Scope.ofRoutine story r).reading m).block
    pool' = y at joint right
  cases joint with
  | ok h =>
      obtain ⟨statistics, left, -⟩ := left
      obtain ⟨statistics', right, -⟩ := right
      rw [left, right]
      exact .ok ⟨⟨rfl, rfl, h.1⟩, h.2⟩
  | error h =>
      rw [left, right]
      exact .error h

/-- The pool grows, whether or not compiling succeeds. -/
theorem compile_grows (story : StoryText) (r : Routine) (pool : List String) :
    pool <+: endState (compile story true r pool) := by
  have parallel : Parallel _ (compile story true r) (compile story true r) :=
    parallel_compile fun _ _ => rfl
  have together := parallel pool pool
  generalize compile story true r pool = x at together
  cases together with
  | ok h => exact h.2.1
  | error h => exact h.2.1

/-! ## The shape of compiled code -/

namespace Scope

variable (e : Scope)

/-- An instruction was compiled to a step, and its text is in the pool. -/
def Becomes (pool : List String) (i : Instruction) (s : CodeStep) : Prop :=
  ∃ before after, e.step i before = .ok s after ∧ after <+: pool

/-- How the instructions of a block were compiled: up to the first that control does not pass, or to
the last one, from which control goes on in the block `next`. -/
inductive Renders (pool : List String) :
    List Instruction → List CodeStep → Option Nat → Prop where
  | ends {i : Instruction} {s : CodeStep} {rest : List Instruction} {next : Option Nat}
      (step : e.Becomes pool i s) (ends : s.action.endsBlock = true) :
      Renders pool (i :: rest) [s] next
  | last {i : Instruction} {s : CodeStep} {n : Nat} (step : e.Becomes pool i s)
      (passes : s.action.endsBlock = false) (target : e.graph.indexOf? i.next = some n) :
      Renders pool [i] [s] (some n)
  | more {i j : Instruction} {s : CodeStep} {rest : List Instruction} {steps : List CodeStep}
      {next : Option Nat} (step : e.Becomes pool i s) (passes : s.action.endsBlock = false)
      (tail : Renders pool (j :: rest) steps next) : Renders pool (i :: j :: rest) (s :: steps) next

variable {e}

theorem Becomes.mono {pool more : List String} {i : Instruction} {s : CodeStep}
    (h : e.Becomes pool i s) (hp : pool <+: more) : e.Becomes more i s := by
  obtain ⟨before, after, ran, grows⟩ := h
  exact ⟨before, after, ran, grows.trans hp⟩

/-- There is a step for the first instruction. -/
theorem Renders.head {pool : List String} {is : List Instruction} {steps : List CodeStep}
    {next : Option Nat} (h : e.Renders pool is steps next) :
    ∃ i rest s tail, is = i :: rest ∧ steps = s :: tail ∧ e.Becomes pool i s := by
  cases h with
  | ends step _ => exact ⟨_, _, _, _, rfl, rfl, step⟩
  | last step _ _ => exact ⟨_, _, _, _, rfl, rfl, step⟩
  | more step _ _ => exact ⟨_, _, _, _, rfl, rfl, step⟩

theorem Renders.mono {pool more : List String} {is : List Instruction} {steps : List CodeStep}
    {next : Option Nat} (h : e.Renders pool is steps next) (hp : pool <+: more) :
    e.Renders more is steps next := by
  induction h with
  | ends step ends => exact .ends (step.mono hp) ends
  | last step passes target => exact .last (step.mono hp) passes target
  | more step passes _ ih => exact .more (step.mono hp) passes ih

theorem blockAt_ok {address target n : Nat} {pool more : List String}
    (h : e.blockAt address target pool = .ok n more) :
    e.graph.indexOf? target = some n ∧ more = pool := by
  unfold blockAt at h
  cases hn : e.graph.indexOf? target with
  | some n' =>
      rw [hn] at h
      cases h
      exact ⟨rfl, rfl⟩
  | none =>
      rw [hn] at h
      cases h

/-- The result of an action of two parts is that of the second, where the first one led to. -/
theorem bind_ok {x : CompileM α} {f : α → CompileM β} {pool more : List String} {b : β}
    (h : (x >>= f) pool = .ok b more) : ∃ a mid, x pool = .ok a mid ∧ f a mid = .ok b more := by
  simp only [Bind.bind, EStateM.bind] at h
  split at h
  · rename_i a mid hx
    exact ⟨a, mid, hx, h⟩
  · cases h

theorem sameText_refl (i : Instruction) : e.SameText e.story.memory i := rfl

theorem steps_grows {is : List Instruction} {p : List CodeStep × Option Nat}
    {pool more : List String} (h : e.steps is pool = .ok p more) : pool <+: more :=
  (parallel_steps is fun i _ => sameText_refl i).grows h

theorem block_grows {b : Block} {c : CodeBlock} {pool more : List String}
    (h : e.block b pool = .ok c more) : pool <+: more :=
  (parallel_block b fun i _ => sameText_refl i).grows h

theorem renders_steps {i : Instruction} {rest : List Instruction} {steps : List CodeStep}
    {last : Option Nat} {pool more : List String} {next : Option Nat}
    (h : e.steps (i :: rest) pool = .ok (steps, last) more)
    (target : ∀ a l, last = some a → (i :: rest).getLast? = some l →
      ∃ n, next = some n ∧ e.graph.indexOf? l.next = some n) :
    e.Renders more (i :: rest) steps next := by
  -- By induction on what follows the first instruction, unless that ends the block.
  induction rest generalizing i steps last pool with
  | nil =>
      unfold Scope.steps at h
      obtain ⟨s, mid, hs, h⟩ := bind_ok h
      split at h
      · rename_i ends
        cases h
        exact .ends ⟨_, _, hs, List.prefix_rfl⟩ ends
      · rename_i passes
        cases h
        obtain ⟨n, rfl, hn⟩ := target i.address i rfl rfl
        exact .last ⟨_, _, hs, List.prefix_rfl⟩ (by simpa using passes) hn
  | cons j rest ih =>
      unfold Scope.steps at h
      obtain ⟨s, mid, hs, h⟩ := bind_ok h
      split at h
      · rename_i ends
        cases h
        exact .ends ⟨_, _, hs, List.prefix_rfl⟩ ends
      · rename_i passes
        obtain ⟨⟨rest', last'⟩, mid', hrest, h⟩ := bind_ok h
        cases h
        refine .more ⟨_, _, hs, steps_grows hrest⟩ (by simpa using passes) (ih hrest ?_)
        intro a l hl hlast
        exact target a l hl (by rw [List.getLast?_cons_cons]; exact hlast)

theorem renders_block {b : Block} {c : CodeBlock} {pool more : List String} {i : Instruction}
    {rest : List Instruction} (cons : b.instructions = i :: rest)
    (h : e.block b pool = .ok c more) : e.Renders more b.instructions c.steps c.next := by
  unfold Scope.block at h
  obtain ⟨⟨steps, last⟩, mid, hsteps, h⟩ := bind_ok h
  rw [cons] at hsteps h ⊢
  cases last with
  | none =>
      cases h
      exact renders_steps hsteps (by simp)
  | some address =>
      cases hl : (i :: rest).getLast? with
      | none => simp at hl
      | some l =>
          rw [hl] at h
          obtain ⟨n, mid', hn, h⟩ := bind_ok h
          cases h
          obtain ⟨target, rfl⟩ := blockAt_ok hn
          -- Control goes on at what comes behind the last instruction.
          refine renders_steps hsteps fun a l' _ hl' => ⟨n, rfl, ?_⟩
          rw [hl] at hl'
          cases hl'
          exact target

theorem mapM_ok {ι : Type} {f : ι → CompileM α} (grows : ∀ i a pool more,
    f i pool = .ok a more → pool <+: more) {is : List ι} {as : List α} {pool more : List String}
    (h : is.mapM f pool = .ok as more) :
    pool <+: more ∧
      List.Forall₂ (fun i a => ∃ before after, f i before = .ok a after ∧ after <+: more)
        is as := by
  induction is generalizing as pool with
  | nil =>
      cases h
      exact ⟨List.prefix_rfl, .nil⟩
  | cons i is ih =>
      rw [List.mapM_cons] at h
      obtain ⟨a, mid, ha, h⟩ := bind_ok h
      obtain ⟨rest, mid', hrest, h⟩ := bind_ok h
      cases h
      obtain ⟨later, all⟩ := ih hrest
      exact ⟨(grows _ _ _ _ ha).trans later, .cons ⟨_, _, ha, later⟩ all⟩

end Scope

/-- The code of a routine: every block is compiled from the block of the routine with its number. -/
theorem renders_compile {story : StoryText} {r : Routine} {pool more : List String} {code : Code}
    {statistics : CompileStatistics} (h : compile story true r pool = .ok (code, statistics) more)
    {n : Nat} {b : Block} (hb : (FlowGraph.build r).blocks[n]? = some b) :
    ∃ c, code.blocks[n]? = some c ∧
      (Scope.ofRoutine story r).Renders more b.instructions c.steps c.next := by
  obtain ⟨-, -, blocks, ran, same⟩ := compile_ok h
  obtain ⟨-, all⟩ := Scope.mapM_ok (fun _ _ _ _ => Scope.block_grows) ran
  obtain ⟨bound, found⟩ := List.getElem?_eq_some_iff.mp hb
  have bound' : n < blocks.length := all.length_eq ▸ bound
  obtain ⟨before, after, compiled, grows⟩ := all.get bound bound'
  obtain ⟨i, rest, cons, -, -⟩ := FlowGraph.mem_build (List.mem_of_getElem? hb)
  refine ⟨blocks[n], by rw [same, List.getElem?_toArray]; exact List.getElem?_eq_getElem bound', ?_⟩
  have b_eq : (Scope.ofRoutine story r).graph.blocks.get ⟨n, bound⟩ = b := found
  rw [b_eq] at compiled
  exact (Scope.renders_block cons compiled).mono grows

end ZMachine
