/-
  Preparing routines.

  An engine that is asked for a routine finds it and compiles it, or leaves it
  to the interpreter, and keeps what it made.  While the bytes of the routines
  and the texts of the abbreviations stay, the fate of a routine depends on
  the image alone: neither what was kept nor when it was made plays a part.
-/
import ZMachine.Engine.Basic
import ZMachine.Proofs.Compiling
import ZMachine.Proofs.Native
import ZMachine.Proofs.Reading

namespace ZMachine

/-! ## Texts -/

namespace TextTables

/-- Number of abbreviations. -/
def abbreviationCount : Nat := 96

theorem unpack_lt {ws : List Word} {z : Byte} (h : z ∈ ZChars.unpack ws) : z.toNat < 32 := by
  obtain ⟨w, -, hz⟩ := List.mem_flatMap.mp h
  simp only [ZChars.ofWord, List.mem_cons, List.not_mem_nil, or_false] at hz
  rcases hz with rfl | rfl | rfl
  all_goals
    rw [UInt8.toNat_and]
    exact Nat.lt_of_le_of_lt Nat.and_le_right (by decide)

theorem abbreviation_lt {version : Nat} {z index : Byte} (h : isAbbreviation version z = true)
    (small : index.toNat < 32) : 32 * (z.toNat - 1) + index.toNat < abbreviationCount := by
  have few : z.toNat ≤ 3 := by
    unfold isAbbreviation at h
    split at h
    · cases h
    · split at h
      · rw [eq_of_beq h]
        decide
      · simp only [Bool.and_eq_true, decide_eq_true_eq] at h
        exact UInt8.le_iff_toNat_le.mp h.2
  unfold abbreviationCount
  omega

/-- Text depends on the abbreviations alone. -/
theorem decodeChars_congr (t : TextTables) {expand expand' : Nat → Except ImageError (List Char)}
    (same : ∀ n < abbreviationCount, expand n = expand' n) (lock : Nat) (shift : Option Nat)
    (zs : List Byte) (small : ∀ z ∈ zs, z.toNat < 32) :
    t.decodeChars expand lock shift zs = t.decodeChars expand' lock shift zs := by
  induction hn : zs.length using Nat.strongRecOn generalizing lock shift zs with
  | ind n ih =>
  subst hn
  -- Whatever is read next follows on at least one character.
  have later (rest : List Byte) (suffix : rest <:+ zs) (shorter : rest.length < zs.length)
      (lock : Nat) (shift : Option Nat) :
      t.decodeChars expand lock shift rest = t.decodeChars expand' lock shift rest :=
    ih rest.length shorter lock shift rest (fun z hz => small z (suffix.subset hz)) rfl
  cases zs with
  | nil => rw [decodeChars, decodeChars]
  | cons z zs =>
      have tail := later zs (List.suffix_cons z zs) (Nat.lt_succ_self _)
      rw [decodeChars.eq_def, decodeChars.eq_def t expand']
      dsimp only
      by_cases short : isAbbreviation t.version z = true
      · cases zs with
        | nil => simp only [short, if_true, tail]
        | cons index rest =>
            have text := same _ (abbreviation_lt short (small index (by simp)))
            have tail' := later rest ⟨[z, index], rfl⟩ (Nat.lt_succ_of_lt (Nat.lt_succ_self _))
            simp only [short, if_true, tail, tail', text]
      · rcases zs with - | ⟨high, - | ⟨low, rest⟩⟩
        · simp only [short, if_false, tail, Bool.false_eq_true]
        · simp only [short, if_false, tail, Bool.false_eq_true]
        · have tail' := later rest ⟨[z, high, low], rfl⟩ (by simp; omega)
          simp only [short, if_false, tail, tail', Bool.false_eq_true]

theorem decodeWords_congr (t : TextTables) {m m' : Memory}
    (same : ∀ n < abbreviationCount, t.abbreviation m n = t.abbreviation m' n) (words : List Word) :
    t.decodeWords m words = t.decodeWords m' words := by
  unfold decodeWords
  rw [decodeChars_congr t same 0 none _ fun z hz => unpack_lt hz]

end TextTables

/-! ## Looking for a tier -/

/-- The machine with no dropped routines left to tell of. -/
def Machine.swept (s : Machine) : Machine :=
  { s with code := { s.code with routines := { s.code.routines with stale := [] } } }

namespace Engine

/-- An engine that has forgotten the dropped routines. -/
structure Swept (e e' : Engine) : Prop where
  machine : e'.machine = e.machine.swept
  literals : e'.literals = e.literals
  fallback : e'.fallback = e.fallback
  tiers : ∀ a : Nat, e'.tiers[a]? =
    if a ∈ e.machine.code.routines.stale then none else e.tiers[a]?

theorem run_evict (a : Nat) (e : Engine) : ∃ e', evict a e = .ok () e' ∧
    e'.machine = e.machine ∧ e'.literals = e.literals ∧ e'.fallback = e.fallback ∧
    ∀ x : Nat, e'.tiers[x]? = if x = a then none else e.tiers[x]? := by
  have ran : evict a e = .ok () (if e.tiers.contains a then
      { e with
        tiers := e.tiers.erase a
        counts := { e.counts with evicted := e.counts.evicted + 1 } }
      else e) := rfl
  by_cases kept : e.tiers.contains a = true
  · rw [if_pos kept] at ran
    refine ⟨_, ran, rfl, rfl, rfl, fun x => ?_⟩
    dsimp only
    rw [Std.HashMap.getElem?_erase]
    by_cases same : x = a
    · simp [same]
    · simp [same, Ne.symm same]
  · rw [if_neg kept] at ran
    refine ⟨_, ran, rfl, rfl, rfl, fun x => ?_⟩
    split
    · rename_i same
      subst same
      exact Std.HashMap.getElem?_eq_none (by simpa using kept)
    · rfl

theorem run_evictAll (stale : List Nat) (e : Engine) : ∃ e', stale.forM evict e = .ok () e' ∧
    e'.machine = e.machine ∧ e'.literals = e.literals ∧ e'.fallback = e.fallback ∧
    ∀ x : Nat, e'.tiers[x]? = if x ∈ stale then none else e.tiers[x]? := by
  induction stale generalizing e with
  | nil => exact ⟨e, rfl, rfl, rfl, rfl, fun x => by simp⟩
  | cons a stale ih =>
      obtain ⟨e₁, first, machine₁, literals₁, fallback₁, tiers₁⟩ := run_evict a e
      obtain ⟨e₂, rest, machine₂, literals₂, fallback₂, tiers₂⟩ := ih e₁
      refine ⟨e₂, ?_, machine₂.trans machine₁, literals₂.trans literals₁,
        fallback₂.trans fallback₁, fun x => ?_⟩
      · change (evict a >>= fun _ => stale.forM evict) e = _
        simp only [Bind.bind, EStateM.bind, first]
        exact rest
      · rw [tiers₂, tiers₁]
        by_cases same : x = a <;> simp [same]

theorem run_evictStale (e : Engine) : ∃ e', evictStale e = .ok () e' ∧ e.Swept e' := by
  obtain ⟨e', rest, machine, literals, fallback, tiers⟩ :=
    run_evictAll e.machine.code.routines.stale { e with machine := e.machine.swept }
  exact ⟨e', rest, machine, literals, fallback, tiers⟩

/-- The engine with a tier for the routine at an address. -/
def withTier (e : Engine) (a : Nat) (tier : Tier) (counts : EngineCounts) : Engine :=
  { e with tiers := e.tiers.insert a tier, counts }

/-- A routine is looked for among those that are kept, then found and compiled. -/
theorem run_prepare (a : Nat) {e e₁ : Engine} (swept : evictStale e = .ok () e₁) :
    match e₁.tiers[a]? with
    | some tier => prepare a e = .ok tier e₁
    | none =>
        match discover a e₁.machine with
        | .error g s => prepare a e = .error (.fault g) { e₁ with machine := s }
        | .ok r s =>
            if e₁.fallback = true ∧ (Needs.scan r).interpreterOnly.isSome = true then
              ∃ counts, prepare a e =
                .ok .interpreted (withTier { e₁ with machine := s } a .interpreted counts)
            else
              match compile { memory := s.memory, header := s.header, tables := s.text } true r
                  e₁.literals with
              | .ok (code, statistics) literals => ∃ counts,
                  prepare a e = .ok (.compiled code statistics)
                    (withTier { e₁ with machine := s, literals } a
                      (.compiled code statistics) counts)
              | .error error literals => ∃ counts,
                  prepare a e =
                    if e₁.fallback = true then
                      .ok .interpreted
                        (withTier { e₁ with machine := s, literals } a .interpreted counts)
                    else
                      .error (.fault (.compileFailed a error.message))
                        { e₁ with machine := s, literals, counts } := by
  cases kept : e₁.tiers[a]? with
  | some tier =>
      simp only [prepare, Bind.bind, EStateM.bind, swept, run_get, kept]
      rfl
  -- Not kept: the routine is found first, which changes the machine only.
  | none =>
      simp only [prepare, Bind.bind, EStateM.bind, swept, run_get, kept, run_act]
      cases found : discover a e₁.machine with
      | error g s => rfl
      | ok r s =>
          dsimp only
          -- A routine for the interpreter is not compiled, though it could be.
          by_cases left : e₁.fallback = true ∧ (Needs.scan r).interpreterOnly.isSome = true
          · rw [if_pos left]
            simp only [left.1, left.2, Bool.and_self, if_true]
            exact ⟨_, rfl⟩
          · rw [if_neg left]
            have stays : ¬(e₁.fallback && (Needs.scan r).interpreterOnly.isSome) = true := by
              simpa using left
            simp only [if_neg stays, EStateM.bind, compileRoutine]
            cases compile { memory := s.memory, header := s.header, tables := s.text } true r
                e₁.literals with
            | ok result literals => exact ⟨_, rfl⟩
            | error error literals =>
                -- Where compiling fails, the interpreter takes over if it may.
                by_cases fallback : e₁.fallback = true
                · simp only [fallback, if_true]
                  exact ⟨_, rfl⟩
                · simp only [fallback]
                  exact ⟨_, rfl⟩

/-- Of the machine, only what it knows of its code changes when a routine is asked for. -/
theorem machine_prepare (a : Nat) (e : Engine) :
    ∃ code, (endState (prepare a e)).machine = { e.machine with code } := by
  obtain ⟨e₁, ran, swept⟩ := run_evictStale e
  have run := run_prepare a ran
  have known : ∃ code, endState (discover a e₁.machine) = { e.machine with code } := by
    rw [swept.machine, discover]
    split <;> exact ⟨_, rfl⟩
  cases kept : e₁.tiers[a]? with
  | some tier =>
      rw [kept] at run
      rw [run]
      exact ⟨_, swept.machine⟩
  | none =>
      rw [kept] at run
      cases found : discover a e₁.machine with
      | error g s =>
          rw [found] at run known
          rw [run]
          exact known
      | ok r s =>
          rw [found] at run known
          dsimp only at run
          -- The rest of it leaves the machine alone.
          split at run
          · obtain ⟨counts, run⟩ := run
            rw [run]
            exact known
          · split at run
            all_goals
              obtain ⟨counts, run⟩ := run
              rw [run]
            · exact known
            · split <;> exact known

end Engine

/-! ## The fate of a routine -/

/-- What stays while a story runs: its header and text tables, the bytes at the places of `steady`,
and the texts of the abbreviations.  Whatever reading a routine of `called` looks at is steady. -/
structure Setting where
  image : Memory
  header : Header
  tables : TextTables
  /-- Whether the interpreter may take over. -/
  fallback : Bool
  steady : Nat → Prop
  called : Nat → Prop
  covered : ∀ a, called a → ∀ x, a ≤ x → x < Routine.readEnd image header.version a → steady x

/-- What becomes of a routine that an engine is asked for. -/
inductive Fate where
  /-- It runs as compiled code. -/
  | native (r : Routine)
  | interpreted
  /-- It cannot be read. -/
  | refused

namespace Setting

variable (S : Setting)

/-- What compiling reads. -/
def story : StoryText := { memory := S.image, header := S.header, tables := S.tables }

/-- The fate of the routine at an address. -/
def fate (a : Nat) : Fate :=
  match Routine.found? S.image S.header.version a with
  | none => .refused
  | some r =>
      if (Needs.scan r).interpreterOnly.isSome then .interpreted
      else
        match compile S.story true r [] with
        | .ok _ _ => .native r
        | .error _ _ => .interpreted

theorem found_of_native {a : Nat} {r : Routine} (h : S.fate a = .native r) :
    Routine.found? S.image S.header.version a = some r ∧ (Needs.scan r).interpreterOnly = none := by
  unfold fate at h
  split at h
  · cases h
  · rename_i r' found
    split at h
    · cases h
    · rename_i translated
      split at h
      · cases h
        exact ⟨found, by simpa using translated⟩
      · cases h

theorem refused_iff {a : Nat} :
    S.fate a = .refused ↔ Routine.found? S.image S.header.version a = none := by
  unfold fate
  cases Routine.found? S.image S.header.version a with
  | none => simp
  | some r =>
      dsimp only
      split
      · simp
      · split <;> simp

/-- An image in which everything steady is as it was. -/
structure Unchanged (m : Memory) : Prop where
  agrees : S.image.Agrees S.steady m
  abbreviations : ∀ n < TextTables.abbreviationCount,
    S.tables.abbreviation m n = S.tables.abbreviation S.image n

theorem Unchanged.texts {S : Setting} {m : Memory} (h : S.Unchanged m) (words : List Word) :
    S.tables.decodeWords m words = S.tables.decodeWords S.image words :=
  S.tables.decodeWords_congr h.abbreviations words

/-- What lasts of the machine while the story runs. -/
structure Holds (s : Machine) : Prop where
  header : s.header = S.header
  text : s.text = S.tables
  drawn : s.code.decoded.Drawn S.steady S.image S.header.version
  calm : s.host.Calm

theorem Holds.of_sheds {S : Setting} {s s' : Machine} (h : S.Holds s) (sheds : s.Sheds s') :
    S.Holds s' where
  header := sheds.header.trans h.header
  text := sheds.text.trans h.text
  drawn := h.drawn.of_sheds sheds
  calm := sheds.calm h.calm

/-- Code that was compiled from a routine while the texts were the same; they are in the pool. -/
def Stems (pool : List String) (r : Routine) (code : Code) : Prop :=
  ∃ m before after statistics,
    (∀ words, S.tables.decodeWords m words = S.tables.decodeWords S.image words) ∧
    compile { S.story with memory := m } true r before = .ok (code, statistics) after ∧
    after <+: pool

theorem Stems.mono {S : Setting} {pool more : List String} {r : Routine} {code : Code}
    (h : S.Stems pool r code) (grows : pool <+: more) : S.Stems more r code := by
  obtain ⟨m, before, after, statistics, texts, compiled, into⟩ := h
  exact ⟨m, before, after, statistics, texts, compiled, into.trans grows⟩

/-- A tier as the fate of the routine wants it. -/
def Suits (pool : List String) (a : Nat) : Tier → Prop
  | .compiled code _ => ∃ r, S.fate a = .native r ∧ S.Stems pool r code
  | .interpreted => S.fate a = .interpreted

theorem Suits.mono {S : Setting} {pool more : List String} {a : Nat} {tier : Tier}
    (h : S.Suits pool a tier) (grows : pool <+: more) : S.Suits more a tier := by
  cases tier with
  | compiled code statistics =>
      obtain ⟨r, native, stems⟩ := h
      exact ⟨r, native, stems.mono grows⟩
  | interpreted => exact h

/-- An engine whose kept tiers suit the routines that are called, except for those that were
dropped. -/
structure Prepared (e : Engine) : Prop where
  holds : S.Holds e.machine
  known : e.machine.code.Known S.steady S.called S.image S.header.version
  fallback : e.fallback = S.fallback
  tiers : ∀ a, S.called a → ∀ tier, e.tiers[a]? = some tier →
    a ∈ e.machine.code.routines.stale ∨ S.Suits e.literals a tier

theorem Prepared.of_sheds {S : Setting} {e : Engine} {s : Machine} (h : S.Prepared e)
    (sheds : e.machine.Sheds s) : S.Prepared { e with machine := s } where
  holds := h.holds.of_sheds sheds
  known := by
    refine ⟨h.known.drawn.of_sheds sheds, fun a called r found => ?_⟩
    rcases sheds.routines a with same | ⟨gone, -⟩
    · exact h.known.routines a called r (same ▸ found)
    · rw [gone] at found
      cases found
  fallback := h.fallback
  tiers a called tier kept := by
    rcases h.tiers a called tier kept with dropped | suits
    · exact .inl (sheds.stale a dropped)
    · exact .inr suits

/-- An engine that can go on with compiled code whose texts are in the pool. -/
structure Ready (pool : List String) (e : Engine) : Prop where
  prepared : S.Prepared e
  grows : pool <+: e.literals
  running : e.machine.state = .running

/-- Being ready lasts while the machine acts. -/
theorem lasting (pool : List String) : Lasting (S.Ready pool) S.Holds where
  engine _ _ h sheds stays := ⟨h.prepared.of_sheds sheds, h.grows, stays.state.trans h.running⟩
  machine _ _ h sheds := h.of_sheds sheds

/-! ## Preparing a routine -/

variable {S}

/-- Whether a routine can be compiled does not depend on when that is tried. -/
theorem together_compile {m : Memory} (unchanged : S.Unchanged m) (r : Routine)
    (pool : List String) :
    Together (fun pool pool' p p' => Code.Same pool pool' p.1 p'.1) [] pool
      (compile S.story true r [])
      (compile { memory := m, header := S.header, tables := S.tables } true r pool) := by
  have parallel : Parallel (fun pool pool' p p' => Code.Same pool pool' p.1 p'.1)
      (compile S.story true r) (compile { S.story with memory := m } true r) :=
    parallel_compile fun _ _ => unchanged.texts _
  exact parallel [] pool

theorem Prepared.swept {e e₁ : Engine} (h : S.Prepared e) (swept : e.Swept e₁) :
    S.Prepared e₁ ∧ ∀ a, S.called a → ∀ tier, e₁.tiers[a]? = some tier →
      S.Suits e₁.literals a tier := by
  have suits : ∀ a, S.called a → ∀ tier, e₁.tiers[a]? = some tier →
      S.Suits e₁.literals a tier := by
    intro a called tier kept
    rw [swept.tiers] at kept
    split at kept
    · cases kept
    · rename_i fresh
      rw [swept.literals]
      exact (h.tiers a called tier kept).resolve_left fresh
  refine ⟨⟨?_, ?_, swept.fallback.trans h.fallback, fun a called tier kept =>
    .inr (suits a called tier kept)⟩, suits⟩
  · rw [swept.machine]
    exact ⟨h.holds.header, h.holds.text, h.holds.drawn, h.holds.calm⟩
  · rw [swept.machine]
    exact ⟨h.known.drawn, h.known.routines⟩

/-- What preparing a routine leaves of an engine. -/
structure Kept (S : Setting) (e e' : Engine) : Prop where
  prepared : S.Prepared e'
  machine : e'.machine = { e.machine with code := e'.machine.code }
  literals : e.literals <+: e'.literals

/-- An engine stays prepared when it keeps a tier that suits. -/
theorem Kept.withTier {e e₁ : Engine} (swept : e.Swept e₁)
    (suits : ∀ a, S.called a → ∀ tier, e₁.tiers[a]? = some tier → S.Suits e₁.literals a tier)
    (prepared : S.Prepared e₁) {code : CodeIndex}
    (known : code.Known S.steady S.called S.image S.header.version) {literals : List String}
    (grows : e₁.literals <+: literals) {a : Nat} {tier : Tier} (suit : S.Suits literals a tier)
    (counts : EngineCounts) :
    S.Kept e (Engine.withTier { e₁ with machine := { e₁.machine with code }, literals } a tier
      counts) where
  prepared := by
    refine ⟨⟨prepared.holds.header, prepared.holds.text, known.drawn, prepared.holds.calm⟩, known,
      prepared.fallback, fun b called tier' kept => .inr ?_⟩
    simp only [Engine.withTier] at kept
    -- Only the tier of `a` is new; the others may refer to the literals that were there.
    rw [Std.HashMap.getElem?_insert] at kept
    split at kept
    · rename_i same
      cases kept
      rwa [← eq_of_beq same]
    · exact (suits b called tier' kept).mono grows
  machine := by
    simp only [Engine.withTier, swept.machine]
    rfl
  literals := by
    rw [← swept.literals]
    exact grows

theorem fate_of_found {a : Nat} {r : Routine}
    (found : Routine.found? S.image S.header.version a = some r) :
    S.fate a =
      if (Needs.scan r).interpreterOnly.isSome then .interpreted
      else
        match compile S.story true r [] with
        | .ok _ _ => .native r
        | .error _ _ => .interpreted := by
  rw [fate, found]

/-- An engine prepares the routine at an address as its fate wants it. -/
def Prepares (S : Setting) (e : Engine) (a : Nat) : Fate → Prop
  | .native r => ∃ code statistics e', Engine.prepare a e = .ok (.compiled code statistics) e' ∧
      S.Stems e'.literals r code ∧ S.Kept e e'
  | .interpreted => ∃ e', Engine.prepare a e = .ok .interpreted e' ∧ S.Kept e e'
  | .refused => ∃ g e', Engine.prepare a e = .error (.fault g) e'

section Sought

-- The engine has looked for the routine at `a` after it forgot the dropped routines.
variable {e e₁ : Engine} (ran : Engine.evictStale e = .ok () e₁) (swept : e.Swept e₁)
  (prepared : S.Prepared e₁) (suits : ∀ a, S.called a → ∀ tier, e₁.tiers[a]? = some tier →
    S.Suits e₁.literals a tier) {a : Nat}

include ran swept prepared suits

/-- A routine that has a tier keeps it. -/
theorem prepares_kept (called : S.called a) {tier : Tier} (kept : e₁.tiers[a]? = some tier) :
    S.Prepares e a (S.fate a) := by
  have run := Engine.run_prepare a ran
  rw [kept] at run
  have left : S.Kept e e₁ :=
    ⟨prepared, by rw [swept.machine]; rfl, swept.literals ▸ List.prefix_rfl⟩
  have suit := suits a called tier kept
  cases tier with
  | compiled code statistics =>
      obtain ⟨r, native, stems⟩ := suit
      rw [native]
      exact ⟨code, statistics, e₁, run, stems, left⟩
  | interpreted =>
      rw [show S.fate a = .interpreted from suit]
      exact ⟨e₁, run, left⟩

variable (fresh : e₁.tiers[a]? = none) {r : Routine} {code : CodeIndex}
  (discovered : Engine.discover a e₁.machine = .ok r { e₁.machine with code })
  (known : code.Known S.steady S.called S.image S.header.version)
  (found : Routine.found? S.image S.header.version a = some r)
  (settled : S.fate a = .interpreted → S.fallback = true)

include fresh discovered known found settled

/-- A routine that only the interpreter runs is left to it. -/
theorem prepares_left (left : (Needs.scan r).interpreterOnly.isSome = true) :
    S.Prepares e a (S.fate a) := by
  have run := Engine.run_prepare a ran
  have fate := S.fate_of_found found
  rw [if_pos left] at fate
  rw [fresh, discovered] at run
  dsimp only at run
  rw [if_pos ⟨prepared.fallback.trans (settled fate), left⟩] at run
  obtain ⟨counts, run⟩ := run
  have suit : S.Suits e₁.literals a .interpreted := fate
  rw [fate]
  exact ⟨_, run, .withTier swept suits prepared known List.prefix_rfl suit counts⟩

/-- Any other routine is compiled, or left to the interpreter where that fails.  Whether it fails
was settled from the start. -/
theorem prepares_compiled (unchanged : S.Unchanged e₁.machine.memory)
    (stays : ¬(Needs.scan r).interpreterOnly.isSome = true) : S.Prepares e a (S.fate a) := by
  have run := Engine.run_prepare a ran
  have fate := S.fate_of_found found
  rw [if_neg stays] at fate
  rw [fresh, discovered] at run
  dsimp only at run
  rw [if_neg fun h => stays h.2] at run
  -- The engine compiles with more texts in the pool than the fate was read off; a larger pool
  -- changes neither whether it succeeds nor what it comes to.
  have together := together_compile unchanged r e₁.literals
  rw [← prepared.holds.header, ← prepared.holds.text] at together
  generalize compiled : compile { memory := e₁.machine.memory
                                  header := e₁.machine.header
                                  tables := e₁.machine.text } true r e₁.literals = result
    at run together
  generalize compile S.story true r [] = first at fate together
  cases together with
  | @ok p _ p' more h =>
      obtain ⟨counts, run⟩ := run
      rw [prepared.holds.header, prepared.holds.text] at compiled
      have stems : S.Stems more r p'.1 :=
        ⟨_, _, _, p'.2, unchanged.texts, compiled, List.prefix_rfl⟩
      have suit : S.Suits more a (.compiled p'.1 p'.2) := ⟨r, fate, stems⟩
      rw [fate]
      exact ⟨_, _, _, run, stems, .withTier swept suits prepared known h.2.2 suit counts⟩
  | @error _ _ _ more h =>
      obtain ⟨counts, run⟩ := run
      have suit : S.Suits more a .interpreted := fate
      rw [if_pos (prepared.fallback.trans (settled fate))] at run
      rw [fate]
      exact ⟨_, run, .withTier swept suits prepared known h.2.2 suit counts⟩

end Sought

/-- A routine that is called is prepared as its fate wants it. -/
theorem prepare_spec {e : Engine} (prepared : S.Prepared e)
    (unchanged : S.Unchanged e.machine.memory) {a : Nat} (called : S.called a)
    (settled : S.fate a = .interpreted → S.fallback = true) : S.Prepares e a (S.fate a) := by
  obtain ⟨e₁, ran, swept⟩ := Engine.run_evictStale e
  obtain ⟨prepared₁, suits⟩ := prepared.swept swept
  cases kept : e₁.tiers[a]? with
  | some tier => exact prepares_kept ran swept prepared₁ suits called kept
  | none =>
      have memory : e₁.machine.memory = e.machine.memory := by rw [swept.machine]; rfl
      have agrees : S.image.Agrees S.steady e₁.machine.memory := memory ▸ unchanged.agrees
      -- Reading the routine gives what it gave when the story began.
      obtain ⟨known, reads⟩ := prepared₁.known.discover agrees e₁.machine.header S.covered called
      cases found : Routine.found? S.image S.header.version a with
      | none =>
          have run := Engine.run_prepare a ran
          rw [found] at reads
          obtain ⟨g, code, hd⟩ := reads
          rw [kept, Engine.discover, hd] at run
          rw [S.refused_iff.mpr found]
          exact ⟨g, _, run⟩
      | some r =>
          rw [found] at reads
          obtain ⟨code, hd⟩ := reads
          rw [hd] at known
          have discovered : Engine.discover a e₁.machine = .ok r { e₁.machine with code } := by
            rw [Engine.discover, hd]
          by_cases left : (Needs.scan r).interpreterOnly.isSome = true
          · exact prepares_left ran swept prepared₁ suits kept discovered known found settled left
          · exact prepares_compiled ran swept prepared₁ suits kept discovered known found settled
              (memory ▸ unchanged) left

end Setting

end ZMachine
