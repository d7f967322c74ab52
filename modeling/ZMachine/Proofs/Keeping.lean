/-
  What an engine keeps of the routines.

  The routines that an engine keeps are known to its machine, and what it
  keeps for them is what it makes of them, as long as the abbreviations read
  as they did.  So asking for a routine depends on the machine alone: it is
  found as the machine finds it, and compiled or left to the interpreter
  whether the engine kept it or not.
-/
import ZMachine.Proofs.Equivalence

namespace ZMachine

open Machine

/-! ## What a machine retains -/

namespace Machine

variable {s t u : Machine} {α : Type}

/-- The story stays the same, known routines stay or go, and routines that go are remembered as
stale. -/
structure Retains (s t : Machine) : Prop where
  header : t.header = s.header
  text : t.text = s.text
  stale : ∀ a ∈ s.code.routines.stale, a ∈ t.code.routines.stale
  routines : ∀ a, t.code.routines.get? a = s.code.routines.get? a ∨
    t.code.routines.get? a = none ∧ a ∈ t.code.routines.stale

theorem Retains.refl (s : Machine) : s.Retains s := ⟨rfl, rfl, fun _ h => h, fun _ => .inl rfl⟩

theorem Retains.trans (h : s.Retains t) (h' : t.Retains u) : s.Retains u where
  header := h'.header.trans h.header
  text := h'.text.trans h.text
  stale a stale := h'.stale a (h.stale a stale)
  routines a := by
    rcases h'.routines a with same | gone
    · rcases h.routines a with same' | ⟨gone, stale⟩
      · exact .inl (same.trans same')
      · exact .inr ⟨same.trans gone, h'.stale a stale⟩
    · exact .inr gone

theorem Retains.of_sheds (h : s.Sheds t) : s.Retains t := ⟨h.header, h.text, h.stale, h.routines⟩

theorem retains_of_does {raw control : Bool} {x : MachineM α} (does : Does raw control x) :
    Leads Retains x := fun s => .of_sheds (sheds_of_effects (does s))

instance : IsPreorder Machine Retains where
  refl := .refl
  trans _ _ _ := .trans

theorem persists_retains : Persists Retains where
  effects _ _ effects := .of_sheds (sheds_of_effects effects)
  beside _ _ _ _ _ := ⟨rfl, rfl, fun _ h => h, fun _ => .inl rfl⟩

theorem retains_store {x : MemoryM Unit} (a len : Nat) :
    Leads Retains (inMemory x >>= fun _ => touched a len) := by
  intro s
  simp only [Bind.bind, EStateM.bind, run_inMemory]
  cases x s.memory with
  | error e m => exact ⟨rfl, rfl, fun _ h => h, fun _ => .inl rfl⟩
  | ok _ m =>
      exact ⟨rfl, rfl, fun _ h => RoutineTable.stale_invalidate _ _ _ h,
        fun _ => RoutineTable.get?_invalidate _ _ _ _⟩

end Machine

/-! ## What an engine keeps -/

/-- The abbreviations, as a machine reads them. -/
abbrev Spelling := Nat → Except ImageError (List Char)

/-- The abbreviations read so in an image. -/
def Spelling.Holds (texts : Spelling) (tables : TextTables) (m : Memory) : Prop :=
  ∀ n < TextTables.abbreviationCount, tables.abbreviation m n = texts n

/-- Compiling a routine takes no notice of the image but for the abbreviations. -/
theorem Spelling.Holds.parallel {texts : Spelling} {tables : TextTables} {m m' : Memory}
    (h : texts.Holds tables m) (h' : texts.Holds tables m') (header : Header) (r : Routine) :
    Parallel (fun pool pool' p p' => Code.Same pool pool' p.1 p'.1)
      (compile { memory := m, header, tables } true r)
      (compile { memory := m', header, tables } true r) := by
  have same (i : Instruction) (_ : i ∈ r.instructions) :
      tables.decodeWords m' (i.text.getD []) = tables.decodeWords m (i.text.getD []) :=
    TextTables.decodeWords_congr tables (fun n small => (h' n small).trans (h n small).symm) _
  exact parallel_compile same

namespace Engine

variable {α : Type} {texts : Spelling} {e f : Engine} {r : Routine} {a : Nat}

/-- A tier that the engine makes of a routine while the abbreviations read so. -/
def Keeps (e : Engine) (texts : Spelling) (r : Routine) : Tier → Prop
  | .compiled code _ => (e.fallback = true → (Needs.scan r).interpreterOnly = none) ∧
      ∃ m before after statistics, texts.Holds e.machine.text m ∧
        compile { memory := m, header := e.machine.header, tables := e.machine.text } true r before
          = .ok (code, statistics) after ∧ after <+: e.literals
  | .interpreted => e.fallback = true ∧
      ((Needs.scan r).interpreterOnly.isSome = true ∨
        ∃ m before error after, texts.Holds e.machine.text m ∧
          compile { memory := m, header := e.machine.header, tables := e.machine.text }
            true r before
            = .error error after)

/-- Everything that is kept was made of a known routine, while the abbreviations read so, or is
known to be stale. -/
def Consistent (texts : Spelling) (e : Engine) : Prop :=
  ∀ (b : Nat) (tier : Tier), e.tiers[b]? = some tier →
    b ∈ e.machine.code.routines.stale ∨
      ∃ r, e.machine.code.routines.get? b = some r ∧ e.Keeps texts r tier

/-- What is kept depends on the story and the pool alone. -/
theorem Keeps.mono {tier : Tier} (h : e.Keeps texts r tier)
    (header : f.machine.header = e.machine.header)
    (text : f.machine.text = e.machine.text) (fallback : f.fallback = e.fallback)
    (grows : e.literals <+: f.literals) : f.Keeps texts r tier := by
  cases tier with
  | compiled code statistics =>
      obtain ⟨translated, m, before, after, statistics', holds, compiled, into⟩ := h
      refine ⟨fallback ▸ translated, m, before, after, statistics', ?_, ?_, into.trans grows⟩
      · rwa [text]
      · rwa [text, header]
  | interpreted =>
      obtain ⟨allowed, reason⟩ := h
      refine ⟨fallback.trans allowed, reason.imp_right ?_⟩
      rintro ⟨m, before, error, after, holds, failed⟩
      refine ⟨m, before, error, after, ?_, ?_⟩
      · rwa [text]
      · rwa [text, header]

theorem Consistent.of_retains {s : Machine} (h : e.Consistent texts)
    (retains : e.machine.Retains s) : Consistent texts { e with machine := s } := by
  intro b tier kept
  rcases h b tier kept with stale | ⟨r, known, keeps⟩
  · exact .inl (retains.stale b stale)
  · rcases retains.routines b with same | ⟨-, stale⟩
    · exact .inr ⟨r, same.trans known, keeps.mono retains.header retains.text rfl List.prefix_rfl⟩
    · exact .inl stale

/-- Tiers that are the same up to the numbers of texts. -/
inductive SameTier (pool pool' : List String) : Tier → Tier → Prop where
  | compiled {code code' : Code} {statistics statistics' : CompileStatistics}
      (same : code.Same pool pool' code') :
      SameTier pool pool' (.compiled code statistics) (.compiled code' statistics')
  | interpreted : SameTier pool pool' .interpreted .interpreted

/-- What a strict engine keeps for a routine is compiled code. -/
theorem Keeps.compiles {tier : Tier} (h : e.Keeps texts r tier) (strict : e.fallback = false)
    {s : Machine} (machine : e.machine = s) {m : Memory} (holds : texts.Holds s.text m)
    (before : List String) (error : CompileError) (after : List String) :
    compile { memory := m, header := s.header, tables := s.text } true r before
      ≠ .error error after := by
  intro failed
  subst machine
  cases tier with
  | compiled code statistics =>
      obtain ⟨-, m', before', after', _, holds', compiled, -⟩ := h
      have together := holds.parallel holds' e.machine.header r before before'
      rw [failed, compiled] at together
      cases together
  | interpreted =>
      have allowed := h.1
      rw [strict] at allowed
      cases allowed

/-- What one engine has compiled, no engine with the same machine leaves to the interpreter. -/
theorem Keeps.not_interpreted {code : Code} {statistics : CompileStatistics}
    (h : e.Keeps texts r (.compiled code statistics)) (h' : f.Keeps texts r .interpreted)
    (machine : f.machine = e.machine) (fallback : f.fallback = e.fallback) : False := by
  obtain ⟨translated, m, before, after, _, holds, compiled, -⟩ := h
  obtain ⟨allowed, interpreterOnly | ⟨m', before', error, after', holds', failed⟩⟩ := h'
  · simp [translated (fallback.symm.trans allowed)] at interpreterOnly
  · -- Whether compiling fails does not depend on the pool.
    rw [machine] at holds' failed
    have together := holds.parallel holds' e.machine.header r before before'
    rw [compiled, failed] at together
    cases together

/-- Two engines make the same of a routine. -/
theorem Keeps.same {tier tier' : Tier} (h : e.Keeps texts r tier) (h' : f.Keeps texts r tier')
    (machine : f.machine = e.machine) (fallback : f.fallback = e.fallback) :
    SameTier e.literals f.literals tier tier' := by
  cases tier with
  | compiled code statistics =>
      cases tier' with
      | interpreted => exact (h.not_interpreted h' machine fallback).elim
      | compiled code' statistics' =>
          obtain ⟨-, m, before, after, _, holds, compiled, into⟩ := h
          obtain ⟨-, m', before', after', _, holds', compiled', into'⟩ := h'
          rw [machine] at holds' compiled'
          have together := holds.parallel holds' e.machine.header r before before'
          rw [compiled, compiled'] at together
          cases together with
          | ok same => exact .compiled (same.1.mono (SameLiteral.mono into into'))
  | interpreted =>
      cases tier' with
      | interpreted => exact .interpreted
      | compiled code' statistics' => exact (h'.not_interpreted h machine.symm fallback.symm).elim

/-! ## Preparing a routine -/

/-- An engine after a routine was asked for: the machine is given, and what was kept is kept. -/
structure Follows (texts : Spelling) (e : Engine) (s : Machine) (e' : Engine) : Prop where
  machine : e'.machine = s
  fallback : e'.fallback = e.fallback
  consistent : e'.Consistent texts
  grows : e.literals <+: e'.literals

/-- How asking for a routine ends, by what the machine finds there. -/
inductive Prepares (texts : Spelling) (a : Nat) (e : Engine) :
    EStateM.Result Halt Engine Tier → Prop where
  | unread {g : Fault} {s : Machine} {e' : Engine} (found : discover a e.machine.swept = .error g s)
      (follows : e.Follows texts s e') : Prepares texts a e (.error (.fault g) e')
  | refused {r : Routine} {s : Machine} {error : CompileError} {m : Memory}
      {before after : List String} {e' : Engine} (found : discover a e.machine.swept = .ok r s)
      (follows : e.Follows texts s e') (strict : e.fallback = false) (holds : texts.Holds s.text m)
      (failed : compile { memory := m, header := s.header, tables := s.text } true r before
        = .error error after) :
      Prepares texts a e (.error (.fault (.compileFailed a error.message)) e')
  | tier {r : Routine} {s : Machine} {tier : Tier} {e' : Engine}
      (found : discover a e.machine.swept = .ok r s) (follows : e.Follows texts s e')
      (keeps : e'.Keeps texts r tier) : Prepares texts a e (.ok tier e')

theorem Consistent.swept {e₁ : Engine} (h : e.Consistent texts) (swept : e.Swept e₁) {b : Nat}
    {tier : Tier} (kept : e₁.tiers[b]? = some tier) :
    ∃ r, e₁.machine.code.routines.get? b = some r ∧ e₁.Keeps texts r tier := by
  have header : e₁.machine.header = e.machine.header := by
    rw [swept.machine]
    rfl
  have text : e₁.machine.text = e.machine.text := by
    rw [swept.machine]
    rfl
  rw [swept.tiers] at kept
  split at kept
  · cases kept
  · rename_i fresh
    obtain ⟨r, known, keeps⟩ := (h b tier kept).resolve_left fresh
    refine ⟨r, ?_, keeps.mono header text swept.fallback (swept.literals ▸ List.prefix_rfl)⟩
    rw [swept.machine]
    exact known

/-- Finding a routine changes nothing but what is known of the code, and what was known stays. -/
theorem discover_spec (a : Nat) (s : Machine) :
    endState (discover a s) = { s with code := (endState (discover a s)).code } ∧
      (∀ b r, s.code.routines.get? b = some r →
        (endState (discover a s)).code.routines.get? b = some r) ∧
      ∀ r t, discover a s = .ok r t → t.code.routines.get? a = some r := by
  unfold discover
  cases found : s.code.discover s.memory s.header a with
  | ok r code =>
      obtain ⟨here, -, others⟩ := CodeIndex.get?_discover found
      refine ⟨rfl, others, fun r' t same => ?_⟩
      cases same
      exact here
  | error g code =>
      refine ⟨rfl, fun b r known => ?_, fun r t same => by cases same⟩
      -- A search that fails has read no routine to its end, so none was put into the table.
      have same : code.routines = s.code.routines := by
        unfold CodeIndex.discover at found
        split at found
        · cases found
        · split at found
          · cases found
          · rename_i hr
            cases found
            unfold CodeIndex.readRoutine at hr
            split at hr
            · cases hr
            · cases hr
              rfl
      exact same ▸ known

/-- The routines that are kept stay known when another one is found. -/
theorem Consistent.discovered {e₁ : Engine} (h : e.Consistent texts) (swept : e.Swept e₁) (a : Nat)
    {literals : List String} (grows : e₁.literals <+: literals) (counts : EngineCounts)
    {s : Machine} (found : endState (discover a e₁.machine) = s) :
    e.Follows texts s { e₁ with machine := s, literals, counts } := by
  subst found
  obtain ⟨same, others, -⟩ := discover_spec a e₁.machine
  refine ⟨rfl, swept.fallback, fun b tier kept => .inr ?_, swept.literals ▸ grows⟩
  obtain ⟨r, known, keeps⟩ := h.swept swept kept
  refine ⟨r, others b r known, keeps.mono ?_ ?_ rfl grows⟩
  · change (endState (discover a e₁.machine)).header = _
    rw [same]
  · change (endState (discover a e₁.machine)).text = _
    rw [same]

/-- A tier is kept for the routine that it was made of. -/
theorem Follows.withTier {s : Machine} {e' : Engine} (h : e.Follows texts s e') {tier : Tier}
    (known : s.code.routines.get? a = some r) (keeps : e'.Keeps texts r tier)
    (counts : EngineCounts) : e.Follows texts s (withTier e' a tier counts) := by
  have mono {r : Routine} {tier' : Tier} (kept : e'.Keeps texts r tier') :
      (Engine.withTier e' a tier counts).Keeps texts r tier' :=
    kept.mono rfl rfl rfl List.prefix_rfl
  refine ⟨h.machine, h.fallback, fun b tier' kept => ?_, h.grows⟩
  simp only [Engine.withTier] at kept ⊢
  rw [Std.HashMap.getElem?_insert] at kept
  split at kept
  · rename_i same
    cases kept
    refine .inr ⟨r, ?_, mono keeps⟩
    rw [← eq_of_beq same, h.machine]
    exact known
  · rcases h.consistent b tier' kept with stale | ⟨r', known', kept'⟩
    · exact .inl stale
    · exact .inr ⟨r', known', mono kept'⟩

/-- A tier that was just made is kept. -/
theorem Prepares.anew {s : Machine} {e' : Engine} {tier : Tier}
    (found : discover a e.machine.swept = .ok r s) (follows : e.Follows texts s e')
    (known : s.code.routines.get? a = some r) (keeps : e'.Keeps texts r tier)
    (counts : EngineCounts) : Prepares texts a e (.ok tier (withTier e' a tier counts)) :=
  .tier found (follows.withTier known keeps counts) (keeps.mono rfl rfl rfl List.prefix_rfl)

section Sought

-- The engine has looked for the routine at `a` after it forgot the dropped routines.
variable (h : e.Consistent texts) {e₁ : Engine} (ran : evictStale e = .ok () e₁)
  (swept : e.Swept e₁)

include h ran swept

/-- A routine that has a tier keeps it. -/
theorem prepares_kept {tier : Tier} (kept : e₁.tiers[a]? = some tier) :
    Prepares texts a e (prepare a e) := by
  have run := run_prepare a ran
  rw [kept] at run
  rw [run]
  obtain ⟨r, known, keeps⟩ := h.swept swept kept
  have found : discover a e.machine.swept = .ok r e.machine.swept := by
    rw [swept.machine] at known
    simp only [discover, CodeIndex.discover, known]
  refine .tier found ⟨swept.machine, swept.fallback, fun b tier kept => .inr ?_, ?_⟩ keeps
  · exact h.swept swept kept
  · exact swept.literals ▸ List.prefix_rfl

variable (fresh : e₁.tiers[a]? = none)
include fresh

theorem prepares_unread {g : Fault} {s : Machine} (found : discover a e₁.machine = .error g s) :
    Prepares texts a e (prepare a e) := by
  have run := run_prepare a ran
  rw [fresh, found] at run
  rw [run]
  rw [swept.machine] at found
  refine .unread found (h.discovered swept a List.prefix_rfl e₁.counts ?_)
  rw [swept.machine, found, endState_error]

/-- A routine that was read is compiled, or left to the interpreter: before compiling is tried, or
where it fails. -/
theorem prepares_found (holds : texts.Holds e.machine.text e.machine.memory) {s : Machine}
    (found : discover a e₁.machine = .ok r s) : Prepares texts a e (prepare a e) := by
  have run := run_prepare a ran
  obtain ⟨same, -, here⟩ := discover_spec a e₁.machine
  have known := here r s found
  rw [found, endState_ok] at same
  rw [fresh, found] at run
  have follows {literals : List String} (grows : e₁.literals <+: literals) (counts : EngineCounts) :
      e.Follows texts s { e₁ with machine := s, literals, counts } :=
    h.discovered swept a grows counts (by rw [found, endState_ok])
  rw [swept.machine] at found same
  have holds' : texts.Holds s.text s.memory := by
    rw [same]
    exact holds
  -- Texts that were numbered stay in the pool, whether or not compiling fails.
  have grows :=
    compile_grows { memory := s.memory, header := s.header, tables := s.text } r e₁.literals
  dsimp only at run
  split at run
  · rename_i left
    obtain ⟨counts, run⟩ := run
    rw [run]
    have keeps : Keeps { e₁ with machine := s } texts r .interpreted := ⟨left.1, .inl left.2⟩
    exact .anew found (follows List.prefix_rfl e₁.counts) known keeps counts
  · rename_i right
    split at run
    · rename_i code statistics literals compiled
      obtain ⟨counts, run⟩ := run
      rw [run]
      rw [compiled, endState_ok] at grows
      have keeps :
          Keeps { e₁ with machine := s, literals } texts r (.compiled code statistics) := by
        refine ⟨fun allowed => ?_, _, _, _, _, holds', compiled, List.prefix_rfl⟩
        by_contra some
        exact right ⟨allowed, by simpa [Option.isSome_iff_ne_none] using some⟩
      exact .anew found (follows grows e₁.counts) known keeps counts
    · rename_i error literals failed
      obtain ⟨counts, run⟩ := run
      rw [failed, endState_error] at grows
      split at run
      · rename_i allowed
        rw [run]
        have keeps : Keeps { e₁ with machine := s, literals } texts r .interpreted :=
          ⟨allowed, .inr ⟨_, _, _, _, holds', failed⟩⟩
        exact .anew found (follows grows e₁.counts) known keeps counts
      · rename_i strict
        rw [run]
        have strict' : e.fallback = false := by
          rw [← swept.fallback]
          simpa using strict
        exact .refused found (follows grows counts) strict' holds' failed

end Sought

/-- While the abbreviations read as they did, asking for a routine depends on the machine alone. -/
theorem prepares (h : e.Consistent texts) (holds : texts.Holds e.machine.text e.machine.memory)
    (a : Nat) : Prepares texts a e (prepare a e) := by
  obtain ⟨e₁, ran, swept⟩ := run_evictStale e
  cases kept : e₁.tiers[a]? with
  | some tier => exact prepares_kept h ran swept kept
  | none =>
      cases found : discover a e₁.machine with
      | error g s => exact prepares_unread h ran swept kept found
      | ok r s => exact prepares_found h ran swept kept holds found

end Engine

end ZMachine
