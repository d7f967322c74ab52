/-
  Reading routines.

  Routines are read through the kept instructions, which may stem from older
  images.  Where these images hold the same bytes as the present one, a
  routine reads as if nothing had been kept.
-/
import Mathlib.Data.List.Chain
import ZMachine.Proofs.Coherence

namespace ZMachine

/-! ## Decoding from images that agree -/

namespace Memory.Agrees

variable {X : Nat → Prop} {m₀ m : Memory}

theorem decode (h : m₀.Agrees X m) {version a : Nat} {i : Instruction}
    (hi : ZMachine.decode m₀ version a = .ok i) (covered : ∀ x, a ≤ x → x < i.next → X x) :
    ZMachine.decode m version a = .ok i := by
  obtain ⟨-, -, inside, -⟩ := decode_spec hi
  exact decode_congr hi (h.size ▸ inside) fun x low high => h.bytes x (covered x low high)

theorem decode' (h : m₀.Agrees X m) {version a : Nat} {i : Instruction}
    (hi : ZMachine.decode m version a = .ok i) (covered : ∀ x, a ≤ x → x < i.next → X x) :
    ZMachine.decode m₀ version a = .ok i := by
  obtain ⟨-, -, inside, -⟩ := decode_spec hi
  exact decode_congr hi (h.size ▸ inside) fun x low high => (h.bytes x (covered x low high)).symm

end Memory.Agrees

namespace DecodeCache

variable {X : Nat → Prop} {m₀ m : Memory} {version : Nat} {c c' : DecodeCache}

/-- Every kept instruction was decoded from an image that agrees with `m₀`. -/
structure Drawn (X : Nat → Prop) (m₀ : Memory) (v : Nat) (c : DecodeCache) : Prop where
  version : c.version = v
  kept : ∀ (a : Nat) (i : Instruction), c.kept[a]? = some i →
    ∃ m, m₀.Agrees X m ∧ ZMachine.decode m v a = .ok i

theorem Coherent.drawn (h : c.Coherent m₀) (hv : c.version = version) (X : Nat → Prop) :
    c.Drawn X m₀ version := ⟨hv, fun a i kept => ⟨m₀, .refl X m₀, hv ▸ h a i kept⟩⟩

/-- Whatever the cache yields was decoded from an image that agrees. -/
theorem Drawn.source (h : c.Drawn X m₀ version) (agrees : m₀.Agrees X m) {a : Nat}
    {i : Instruction} (hd : c.decode m a = (.ok i, c')) :
    ∃ m', m₀.Agrees X m' ∧ ZMachine.decode m' version a = .ok i := by
  unfold decode at hd
  split at hd
  · exact ⟨m, agrees, h.version ▸ congrArg Prod.fst hd⟩
  · split at hd
    · rename_i j hj
      cases hd
      exact h.kept a i hj
    · split at hd
      · rename_i j hj
        cases hd
        exact ⟨m, agrees, h.version ▸ hj⟩
      · cases hd

theorem Drawn.of_decode (h : c.Drawn X m₀ version) (agrees : m₀.Agrees X m) {a : Nat}
    {r : Except ImageError Instruction} (hd : c.decode m a = (r, c')) : c'.Drawn X m₀ version := by
  refine ⟨(version_decode hd).1.trans h.version, fun x i kept => ?_⟩
  rcases kept_decode hd kept with old | ⟨rfl, -, new⟩
  · exact h.kept x i old
  · exact ⟨m, agrees, h.version ▸ new⟩

/-- An instruction that lies in `X` is decoded as it stands in `m₀`. -/
theorem Drawn.decode_eq (h : c.Drawn X m₀ version) (agrees : m₀.Agrees X m) {a : Nat}
    {i : Instruction} (hi : ZMachine.decode m₀ version a = .ok i)
    (covered : ∀ x, a ≤ x → x < i.next → X x) : ∃ c', c.decode m a = (.ok i, c') := by
  have fresh := agrees.decode hi covered
  rw [← h.version] at fresh
  unfold decode
  split
  · exact ⟨_, by rw [fresh]⟩
  · split
    · rename_i j hj
      obtain ⟨m', agrees', hj⟩ := h.kept a j hj
      have : i = j := Except.ok.inj ((agrees'.decode hi covered).symm.trans hj)
      exact ⟨_, by rw [this]⟩
    · rw [fresh]
      exact ⟨_, rfl⟩

theorem Drawn.of_sheds {s s' : Machine} (h : s.code.decoded.Drawn X m₀ version)
    (sheds : s.Sheds s') : s'.code.decoded.Drawn X m₀ version :=
  ⟨sheds.version.trans h.version, fun a i kept => h.kept a i (sheds.kept a i kept)⟩

end DecodeCache

/-! ## Instructions one after the other -/

namespace Routine

/-- Instructions of a routine, decoded afresh. -/
def scan (m : Memory) (version : Nat) : Nat → Nat → Nat → Option (List Instruction)
  | 0, _, _ => none
  | limit + 1, pc, furthest =>
      match decode m version pc with
      | .error _ => none
      | .ok i =>
          let furthest := i.targets.foldl max furthest
          if i.opcode.isTerminal ∧ furthest < i.next then some [i]
          else (scan m version limit i.next furthest).map (i :: ·)

/-- Where reading instructions ends, and no byte beyond is looked at. -/
def scanEnd (m : Memory) (version : Nat) : Nat → Nat → Nat → Nat
  | 0, pc, _ => pc
  | limit + 1, pc, furthest =>
      match decode m version pc with
      | .error _ => max pc m.size
      | .ok i =>
          let furthest := i.targets.foldl max furthest
          if i.opcode.isTerminal ∧ furthest < i.next then i.next
          else scanEnd m version limit i.next furthest

theorem le_scanEnd (m : Memory) (version limit pc furthest : Nat) :
    pc ≤ scanEnd m version limit pc furthest := by
  induction limit generalizing pc furthest with
  | zero => exact Nat.le_refl pc
  | succ limit ih =>
      unfold scanEnd
      split
      · exact Nat.le_max_left _ _
      · rename_i i hi
        obtain ⟨-, positive, -, -⟩ := decode_spec hi
        dsimp only
        split
        · exact Nat.le_of_lt positive
        · exact Nat.le_trans (Nat.le_of_lt positive) (ih _ _)

/-- A run of instructions that follow each other from `pc` on, as they stand in `m`. -/
structure Row (m : Memory) (version pc : Nat) (is : List Instruction) : Prop where
  nonempty : is ≠ []
  first : ∀ i, is.head? = some i → i.address = pc
  next : is.IsChain fun i j => j.address = i.next
  decoded : ∀ i ∈ is, decode m version i.address = .ok i

theorem scan_row {m : Memory} {version limit pc furthest : Nat} {is : List Instruction}
    (h : scan m version limit pc furthest = some is) :
    Row m version pc is ∧
      ∀ i ∈ is, pc ≤ i.address ∧ i.next ≤ scanEnd m version limit pc furthest := by
  -- Along the scan: every instruction that is read begins where the one before it ended.
  induction limit generalizing pc furthest is with
  | zero => cases h
  | succ limit ih =>
      rw [scan] at h
      rw [scanEnd]
      split at h
      · cases h
      rename_i i hi
      obtain ⟨address, positive, -, -⟩ := decode_spec hi
      dsimp only at h ⊢
      split at h
      · rename_i last
        cases h
        refine ⟨⟨by simp, by simp [address], .singleton i, by simp [address, hi]⟩, ?_⟩
        simp [address, last]
      · rename_i more
        obtain ⟨rest, hrest, rfl⟩ := Option.map_eq_some_iff.mp h
        obtain ⟨⟨nonempty, first, next, decoded⟩, inside⟩ := ih hrest
        obtain ⟨j, rest, rfl⟩ := List.exists_cons_of_ne_nil nonempty
        rw [if_neg more]
        refine ⟨⟨by simp, by simp [address], .cons_cons (first j rfl) next, ?_⟩, ?_⟩
        · intro k hk
          rcases List.mem_cons.mp hk with rfl | hk
          · rwa [address]
          · exact decoded k hk
        · intro k hk
          rcases List.mem_cons.mp hk with rfl | hk
          · exact ⟨Nat.le_of_eq address.symm, le_scanEnd ..⟩
          · have later := inside k hk
            exact ⟨by omega, later.2⟩

/-- Reading ends after the last instruction. -/
theorem scanEnd_eq {m : Memory} {version limit pc furthest : Nat} {is : List Instruction}
    (h : scan m version limit pc furthest = some is) :
    is.getLast?.map Instruction.next = some (scanEnd m version limit pc furthest) := by
  induction limit generalizing pc furthest is with
  | zero => cases h
  | succ limit ih =>
      rw [scan] at h
      rw [scanEnd]
      split at h
      · cases h
      dsimp only at h ⊢
      split at h
      · rename_i last
        cases h
        rw [if_pos last]
        rfl
      · rename_i more
        obtain ⟨rest, hrest, rfl⟩ := Option.map_eq_some_iff.mp h
        -- There is something behind an instruction that is not the last.
        obtain ⟨j, rest, rfl⟩ := List.exists_cons_of_ne_nil (scan_row hrest).1.nonempty
        rw [if_neg more, List.getLast?_cons_cons]
        exact ih hrest

/-! ## Reading through the cache -/

variable {X : Nat → Prop} {m₀ m : Memory} {version : Nat}

theorem run_fetch (m : Memory) (a : Nat) (c : DecodeCache) :
    DecodeCache.fetch m a c =
      match c.decode m a with
      | (.ok i, c) => .ok i c
      | (.error e, c) => .error (.image e) c := rfl

theorem run_readInstructions (m : Memory) (address limit pc furthest : Nat) (c : DecodeCache) :
    readInstructions m address (limit + 1) pc furthest c =
      match c.decode m pc with
      | (.ok i, c) =>
          if i.opcode.isTerminal ∧ i.targets.foldl max furthest < i.next then .ok [i] c
          else
            match readInstructions m address limit i.next (i.targets.foldl max furthest) c with
            | .ok is c => .ok (i :: is) c
            | .error e c => .error e c
      | (.error e, c) => .error (.image e) c := by
  rw [readInstructions]
  simp only [Bind.bind, EStateM.bind, run_fetch]
  rcases c.decode m pc with ⟨_ | i, c'⟩
  · rfl
  · dsimp only
    split
    · rfl
    · simp only [EStateM.bind]
      generalize readInstructions m address limit i.next _ c' = rest
      cases rest <;> rfl

/-- Reading keeps to instructions that were decoded from images that agree. -/
theorem drawn_readInstructions (agrees : m₀.Agrees X m) (address limit pc furthest : Nat)
    {c : DecodeCache} (drawn : c.Drawn X m₀ version) :
    (endState (readInstructions m address limit pc furthest c)).Drawn X m₀ version := by
  induction limit generalizing pc furthest c with
  | zero => exact drawn
  | succ limit ih =>
      rw [run_readInstructions]
      rcases hd : c.decode m pc with ⟨_ | i, c'⟩
      · exact drawn.of_decode agrees hd
      · have drawn' := drawn.of_decode agrees hd
        dsimp only
        split
        · exact drawn'
        · have rest := ih i.next (i.targets.foldl max furthest) drawn'
          split <;> rename_i h <;> rwa [h] at rest

/-- What reading through the cache gives where reading afresh gives `fresh`. -/
def Reads {α : Type} (fresh : Option α) (r : EStateM.Result Fault DecodeCache α) : Prop :=
  match fresh with
  | some a => ∃ c, r = .ok a c
  | none => ∃ e c, r = .error e c

theorem reads_instructions (agrees : m₀.Agrees X m) (address : Nat) {limit pc furthest : Nat}
    {c : DecodeCache} (drawn : c.Drawn X m₀ version)
    (covered : ∀ x, pc ≤ x → x < scanEnd m₀ version limit pc furthest → X x) :
    Reads (scan m₀ version limit pc furthest)
      (readInstructions m address limit pc furthest c) := by
  -- Along the instructions: the next one is the same in both images, and so is where the scan ends.
  induction limit generalizing pc furthest c with
  | zero => exact ⟨_, _, rfl⟩
  | succ limit ih =>
      rw [run_readInstructions, scan]
      rw [scanEnd] at covered
      cases hi : decode m₀ version pc with
      | error e =>
          rw [hi] at covered
          rcases hd : c.decode m pc with ⟨e' | i, c'⟩
          · exact ⟨_, _, rfl⟩
          · -- Whatever the cache yields lies inside of the image, where both images agree.
            obtain ⟨m', agrees', found⟩ := drawn.source agrees hd
            obtain ⟨-, -, inside, -⟩ := decode_spec found
            rw [agrees'.size] at inside
            have fresh := agrees'.decode' found fun x low high =>
              covered x low (Nat.lt_of_lt_of_le (Nat.lt_of_lt_of_le high inside)
                (Nat.le_max_right ..))
            rw [hi] at fresh
            cases fresh
      | ok i =>
          rw [hi] at covered
          dsimp only at covered ⊢
          have within (x : Nat) (low : pc ≤ x) (high : x < i.next) : X x := by
            refine covered x low ?_
            split
            · exact high
            · exact Nat.lt_of_lt_of_le high (le_scanEnd ..)
          obtain ⟨c', hd⟩ := drawn.decode_eq agrees hi within
          rw [hd]
          dsimp only
          split
          · exact ⟨_, rfl⟩
          · rename_i more
            rw [if_neg more] at covered
            obtain ⟨-, positive, -, -⟩ := decode_spec hi
            have rest := ih (drawn.of_decode agrees hd) fun x low high =>
              covered x (Nat.le_trans (Nat.le_of_lt positive) low) high
            generalize scan m₀ version limit i.next _ = fresh at rest
            cases fresh with
            | some is =>
                obtain ⟨c'', read⟩ := rest
                exact ⟨c'', by rw [read]⟩
            | none =>
                obtain ⟨e', c'', read⟩ := rest
                exact ⟨e', c'', by rw [read]⟩

/-! ## Locals -/

/-- What the first bytes of the routine at `a` say of its locals. -/
def locals (m : Memory) (version a : Nat) : List Word × Nat :=
  let count := (m.byteAt a).toNat
  if version ≤ 4 then ((List.range count).map fun i => m.wordAt (a + 1 + i * 2), a + 1 + count * 2)
  else (List.replicate count 0, a + 1)

theorem readLocals_eq_ok {a : Nat} {p : List Word × Nat} :
    readLocals m version a = .ok p ↔
      a < m.size ∧ (m.byteAt a).toNat ≤ maxLocals ∧ (locals m version a).2 ≤ m.size ∧
        p = locals m version a := by
  unfold readLocals
  -- The reader fails in the order of its checks: the count, its limit, the words behind it.
  by_cases first : a < m.size
  · have byte : m.readByte a = .ok (m.byteAt a) := Memory.readByte_eq_ok.mpr ⟨first, rfl⟩
    rw [byte]
    by_cases many : maxLocals < (m.byteAt a).toNat
    · simp [liftM, monadLift, MonadLift.monadLift, Bind.bind, Except.bind, many]
    · have few : min ((m.byteAt a).toNat * 2) Memory.lengthLimit = (m.byteAt a).toNat * 2 := by
        have : maxLocals * 2 ≤ Memory.lengthLimit := by decide
        omega
      by_cases early : version ≤ 4
      · by_cases fits : a + 1 + (m.byteAt a).toNat * 2 ≤ m.size
        · simp [liftM, monadLift, MonadLift.monadLift, Bind.bind, Except.bind, many, early, first,
            Memory.readWords, Memory.check, few, fits, locals, Nat.le_of_not_lt many, Pure.pure,
            Except.pure, eq_comm]
        · simp [liftM, monadLift, MonadLift.monadLift, Bind.bind, Except.bind, many, early, first,
            Memory.readWords, Memory.check, few, fits, locals]
      · simp [liftM, monadLift, MonadLift.monadLift, Bind.bind, Except.bind, many, early, first,
          locals, Nat.le_of_not_lt many, Pure.pure, Except.pure, Nat.succ_le_of_lt first, eq_comm]
  · have byte : ∃ e, m.readByte a = .error e := by
      cases h : m.readByte a with
      | error e => exact ⟨e, rfl⟩
      | ok b => exact absurd (Memory.readByte_eq_ok.mp h).1 first
    obtain ⟨e, byte⟩ := byte
    simp [byte, first, liftM, monadLift, MonadLift.monadLift, Bind.bind, Except.bind]

theorem lt_locals (m : Memory) (version a : Nat) : a < (locals m version a).2 := by
  unfold locals
  dsimp only
  split <;> dsimp only <;> omega

theorem locals_congr {a : Nat}
    (same : ∀ x, a ≤ x → x < (locals m₀ version a).2 → m.byteAt x = m₀.byteAt x) :
    locals m version a = locals m₀ version a := by
  have first : m.byteAt a = m₀.byteAt a := same a (Nat.le_refl a) (lt_locals m₀ version a)
  unfold locals at same ⊢
  dsimp only at same ⊢
  rw [first]
  split
  · rename_i early
    rw [if_pos early] at same
    dsimp only at same
    have words : (List.range (m₀.byteAt a).toNat).map (fun i => m.wordAt (a + 1 + i * 2))
        = (List.range (m₀.byteAt a).toNat).map fun i => m₀.wordAt (a + 1 + i * 2) := by
      apply List.map_congr_left
      intro i hi
      have hi := List.mem_range.mp hi
      exact Memory.wordAt_congr fun x low high => same x (by omega) (by omega)
    rw [words]
  · rfl

/-- Locals read alike from images that agree on them. -/
theorem readLocals_congr {a : Nat} {p : List Word × Nat} (size : m.size = m₀.size)
    (same : ∀ x, a ≤ x → x < p.2 → m.byteAt x = m₀.byteAt x)
    (h : readLocals m₀ version a = .ok p) : readLocals m version a = .ok p := by
  obtain ⟨first, few, fits, rfl⟩ := readLocals_eq_ok.mp h
  have alike : locals m version a = locals m₀ version a := locals_congr same
  refine readLocals_eq_ok.mpr ⟨size ▸ first, ?_, ?_, alike.symm⟩
  · rwa [same a (Nat.le_refl a) (lt_locals m₀ version a)]
  · rwa [alike, size]

/-! ## Routines -/

/-- The routine at an address, read with nothing kept. -/
def found? (m : Memory) (version a : Nat) : Option Routine :=
  match Routine.read m a { version } with
  | .ok r _ => some r
  | .error _ _ => none

/-- Where reading the routine at an address ends. -/
def readEnd (m : Memory) (version a : Nat) : Nat :=
  match readLocals m version a with
  | .ok (_, entry) => scanEnd m version maxRoutineInstructions entry entry
  | .error _ => max a m.size

theorem run_read (m : Memory) (a : Nat) (c : DecodeCache) :
    Routine.read m a c =
      match readLocals m c.version a with
      | .ok (defaults, entry) =>
          match readInstructions m a maxRoutineInstructions entry entry c with
          | .ok instructions c => .ok { address := a, defaults, instructions } c
          | .error e c => .error e c
      | .error e => .error e c := by
  simp only [Routine.read, Bind.bind, EStateM.bind, run_get, liftM, monadLift, MonadLift.monadLift]
  cases readLocals m c.version a with
  | error e => rfl
  | ok p =>
      dsimp only
      generalize readInstructions m a maxRoutineInstructions p.2 p.2 c = rest
      cases rest <;> rfl

/-- A routine that is read consists of its locals and of the instructions behind them. -/
theorem read_ok {m : Memory} {a : Nat} {c c' : DecodeCache} {r : Routine}
    (read : Routine.read m a c = .ok r c') :
    ∃ entry, readLocals m c.version a = .ok (r.defaults, entry) ∧
      readInstructions m a maxRoutineInstructions entry entry c = .ok r.instructions c' := by
  rw [run_read] at read
  cases locals : readLocals m c.version a with
  | error e =>
      rw [locals] at read
      cases read
  | ok p =>
      obtain ⟨defaults, entry⟩ := p
      rw [locals] at read
      dsimp only at read
      cases rest : readInstructions m a maxRoutineInstructions entry entry c with
      | error e d =>
          rw [rest] at read
          cases read
      | ok is d =>
          rw [rest] at read
          cases read
          exact ⟨entry, rfl, rest⟩

theorem drawn_read (agrees : m₀.Agrees X m) (a : Nat) {c : DecodeCache}
    (drawn : c.Drawn X m₀ version) : (endState (Routine.read m a c)).Drawn X m₀ version := by
  rw [run_read]
  cases readLocals m c.version a with
  | error e => exact drawn
  | ok p =>
      have rest := drawn_readInstructions agrees a maxRoutineInstructions p.2 p.2 drawn
      dsimp only
      generalize readInstructions m a maxRoutineInstructions p.2 p.2 c = result at rest
      cases result <;> exact rest

/-- The routine at an address, from its locals and its instructions. -/
def survey (m : Memory) (version a : Nat) : Option Routine :=
  match readLocals m version a with
  | .ok (defaults, entry) =>
      (scan m version maxRoutineInstructions entry entry).map fun instructions =>
        { address := a, defaults, instructions }
  | .error _ => none

theorem reads_survey (agrees : m₀.Agrees X m) {a : Nat} {c : DecodeCache}
    (drawn : c.Drawn X m₀ version)
    (covered : ∀ x, a ≤ x → x < readEnd m₀ version a → X x) :
    Reads (survey m₀ version a) (Routine.read m a c) := by
  rw [run_read, drawn.version, survey]
  unfold readEnd at covered
  cases hl : readLocals m₀ version a with
  -- Where one header does not fit into the image, the other does not either.
  | error e =>
      rw [hl] at covered
      dsimp only at covered
      cases hl' : readLocals m version a with
      | error e' => exact ⟨_, _, rfl⟩
      | ok p =>
          obtain ⟨-, -, fits, rfl⟩ := readLocals_eq_ok.mp hl'
          have back := readLocals_congr agrees.size.symm
            (fun x low high => (agrees.bytes x (covered x low (by
              have := agrees.size
              have := Nat.le_max_right a m₀.size
              omega))).symm) hl'
          rw [hl] at back
          cases back
  | ok p =>
      rw [hl] at covered
      dsimp only at covered
      have start := le_scanEnd m₀ version maxRoutineInstructions p.2 p.2
      obtain ⟨-, -, -, hp⟩ := readLocals_eq_ok.mp hl
      have later := lt_locals m₀ version a
      rw [← hp] at later
      rw [readLocals_congr agrees.size
        (fun x low high => agrees.bytes x (covered x low (Nat.lt_of_lt_of_le high start))) hl]
      dsimp only
      have rest := reads_instructions agrees a drawn fun x low high =>
        covered x (Nat.le_trans (Nat.le_of_lt later) low) high
      generalize scan m₀ version maxRoutineInstructions p.2 p.2 = fresh at rest
      cases fresh with
      | some is =>
          obtain ⟨c', read⟩ := rest
          exact ⟨c', by rw [read]⟩
      | none =>
          obtain ⟨e, c', read⟩ := rest
          exact ⟨e, c', by rw [read]⟩

theorem found?_eq_survey (m : Memory) (version a : Nat) :
    found? m version a = survey m version a := by
  have drawn : DecodeCache.Drawn (fun _ => True) m version { version } := ⟨rfl, by simp⟩
  have reads := reads_survey (.refl _ m) drawn (a := a) fun _ _ _ => trivial
  rw [found?]
  cases hs : survey m version a with
  | some r =>
      rw [hs] at reads
      obtain ⟨c, read⟩ := reads
      rw [read]
  | none =>
      rw [hs] at reads
      obtain ⟨e, c, read⟩ := reads
      rw [read]

/-- A routine whose bytes were not changed is read as it was, also through the cache. -/
theorem reads_found (agrees : m₀.Agrees X m) {a : Nat} {c : DecodeCache}
    (drawn : c.Drawn X m₀ version)
    (covered : ∀ x, a ≤ x → x < readEnd m₀ version a → X x) :
    Reads (found? m₀ version a) (Routine.read m a c) := by
  rw [found?_eq_survey]
  exact reads_survey agrees drawn covered

/-- A routine that is read through a coherent cache is the one that stands in the image. -/
theorem found_of_read {a : Nat} {c c' : DecodeCache} {r : Routine} (coherent : c.Coherent m)
    (read : Routine.read m a c = .ok r c') : found? m c.version a = some r := by
  have reads := reads_found (.refl (fun _ => True) m) (coherent.drawn rfl _) (a := a)
    fun _ _ _ => trivial
  rw [read] at reads
  cases h : found? m c.version a with
  | none =>
      rw [h] at reads
      obtain ⟨e, d, other⟩ := reads
      cases other
  | some s =>
      rw [h] at reads
      obtain ⟨d, same⟩ := reads
      cases same
      rfl

/-- What is known of a routine that was read: its locals stand in front of its instructions, which
follow each other. -/
structure Stands (m : Memory) (version a entry : Nat) (r : Routine) : Prop where
  address : r.address = a
  locals : readLocals m version a = .ok (r.defaults, entry)
  row : Row m version entry r.instructions
  inside : ∀ i ∈ r.instructions, a ≤ i.address ∧ i.next ≤ readEnd m version a
  headInside : ∀ x, a ≤ x → x < entry → x < readEnd m version a

theorem stands_of_found {a : Nat} {r : Routine} (h : found? m version a = some r) :
    ∃ entry, Stands m version a entry r := by
  rw [found?_eq_survey, survey] at h
  cases hl : readLocals m version a with
  | error e => rw [hl] at h; cases h
  | ok p =>
      obtain ⟨defaults, entry⟩ := p
      rw [hl] at h
      obtain ⟨instructions, hi, rfl⟩ := Option.map_eq_some_iff.mp h
      obtain ⟨row, inside⟩ := scan_row hi
      have readEnd_eq :
          readEnd m version a = scanEnd m version maxRoutineInstructions entry entry := by
        rw [readEnd, hl]
      obtain ⟨-, -, -, hp⟩ := readLocals_eq_ok.mp hl
      have later := lt_locals m version a
      rw [← hp] at later
      refine ⟨entry, rfl, hl, row, fun i hi => ?_, fun x _ high => ?_⟩
      · rw [readEnd_eq]
        exact ⟨Nat.le_trans (Nat.le_of_lt later) (inside i hi).1, (inside i hi).2⟩
      · rw [readEnd_eq]
        exact Nat.lt_of_lt_of_le high (le_scanEnd ..)

/-- No byte after a routine is looked at when it is read. -/
theorem readEnd_eq_stop {a : Nat} {r : Routine} (h : found? m version a = some r) :
    readEnd m version a = r.stop := by
  rw [found?_eq_survey, survey] at h
  cases hl : readLocals m version a with
  | error e =>
      rw [hl] at h
      cases h
  | ok p =>
      rw [hl] at h
      obtain ⟨instructions, hi, rfl⟩ := Option.map_eq_some_iff.mp h
      rw [readEnd, hl, stop, scanEnd_eq hi]
      rfl

theorem mapM_eq_ok {α β : Type} {f : α → Except Fault β} {g : α → β} {as : List α}
    (h : ∀ a ∈ as, f a = .ok (g a)) : as.mapM f = .ok (as.map g) := by
  induction as with
  | nil => rfl
  | cons a as ih =>
      rw [List.mapM_cons, h a (by simp), ih fun b hb => h b (by simp [hb])]
      rfl

/-- A call finds the locals as reading the routine does. -/
theorem routineHeader_of_readLocals {a : Nat} {p : List Word × Nat}
    (h : readLocals m version a = .ok p) : Machine.routineHeader m version a = .ok p := by
  obtain ⟨first, few, fits, rfl⟩ := readLocals_eq_ok.mp h
  have byte : m.readByte a = .ok (m.byteAt a) := Memory.readByte_eq_ok.mpr ⟨first, rfl⟩
  unfold Machine.routineHeader
  unfold locals at fits ⊢
  rw [byte]
  have few : ¬maxLocals < (m.byteAt a).toNat := Nat.not_lt.mpr few
  by_cases early : version ≤ 4
  · simp only [early, if_true] at fits
    have words : (List.range (m.byteAt a).toNat).mapM
        (fun i => (liftM (m.readWord (a + 1 + i * 2)) : Except Fault Word))
        = .ok ((List.range (m.byteAt a).toNat).map fun i => m.wordAt (a + 1 + i * 2)) := by
      refine mapM_eq_ok fun i hi => ?_
      have hi := List.mem_range.mp hi
      rw [Memory.readWord_eq_ok.mpr ⟨by omega, rfl⟩]
      rfl
    simp only [liftM, monadLift, MonadLift.monadLift, Bind.bind, Except.bind, few, if_false, early,
      if_true] at words ⊢
    rw [words]
    rfl
  · simp only [liftM, monadLift, MonadLift.monadLift, Bind.bind, Except.bind, few, if_false, early]
    rfl

theorem length_defaults {a : Nat} {p : List Word × Nat} (h : readLocals m version a = .ok p) :
    p.1.length ≤ maxLocals := by
  obtain ⟨-, few, -, rfl⟩ := readLocals_eq_ok.mp h
  unfold locals
  dsimp only
  split <;> simpa using few

end Routine

/-! ## Finding routines -/

namespace CodeIndex

variable {X D : Nat → Prop} {m₀ m : Memory} {version : Nat}

/-- What is known of the code holds for `m₀`, as far as the routines of `D` are concerned. -/
structure Known (X D : Nat → Prop) (m₀ : Memory) (version : Nat) (c : CodeIndex) : Prop where
  drawn : c.decoded.Drawn X m₀ version
  routines : ∀ a, D a → ∀ r, c.routines.get? a = some r → Routine.found? m₀ version a = some r

theorem run_readRoutine (m : Memory) (a : Nat) (c : CodeIndex) :
    readRoutine m a c =
      match Routine.read m a c.decoded with
      | .ok r d => .ok r { c with decoded := d }
      | .error e d => .error e { c with decoded := d } := rfl

/-- Reading another routine leaves the routines found alone. -/
theorem routines_readRoutine (m : Memory) (a : Nat) (c : CodeIndex) :
    (endState (readRoutine m a c)).routines = c.routines := by
  rw [run_readRoutine]
  cases Routine.read m a c.decoded <;> rfl

theorem Known.readRoutine (agrees : m₀.Agrees X m) {c : CodeIndex} (known : c.Known X D m₀ version)
    (a : Nat) : (endState (readRoutine m a c)).Known X D m₀ version := by
  have drawn := Routine.drawn_read agrees a known.drawn
  rw [run_readRoutine]
  cases hr : Routine.read m a c.decoded <;> rw [hr] at drawn <;> exact ⟨drawn, known.routines⟩

/-- A routine of `D` is read as it stands in `m₀`. -/
theorem Known.found_of_readRoutine (agrees : m₀.Agrees X m) {c c' : CodeIndex}
    (known : c.Known X D m₀ version) {a : Nat} {r : Routine}
    (covered : ∀ x, a ≤ x → x < Routine.readEnd m₀ version a → X x)
    (h : CodeIndex.readRoutine m a c = .ok r c') : Routine.found? m₀ version a = some r := by
  have reads := Routine.reads_found agrees known.drawn covered
  rw [run_readRoutine] at h
  cases hf : Routine.found? m₀ version a with
  | some r' =>
      rw [hf] at reads
      obtain ⟨d, read⟩ := reads
      rw [read] at h
      cases h
      rfl
  | none =>
      rw [hf] at reads
      obtain ⟨e, d, read⟩ := reads
      rw [read] at h
      cases h

theorem Known.insert {c : CodeIndex} (known : c.Known X D m₀ version) {r : Routine}
    (found : D r.address → Routine.found? m₀ version r.address = some r) :
    ({ c with routines := c.routines.insert r } : CodeIndex).Known X D m₀ version := by
  refine ⟨known.drawn, fun a ha r' hr' => ?_⟩
  rw [RoutineTable.get?_insert] at hr'
  split at hr'
  · rename_i same
    cases hr'
    subst same
    exact found ha
  · exact known.routines a ha r' hr'

/-- Following calls keeps to what holds for `m₀`. -/
theorem Known.follow (agrees : m₀.Agrees X m) (h : Header)
    (covered : ∀ a, D a → ∀ x, a ≤ x → x < Routine.readEnd m₀ version a → X x) (c : CodeIndex)
    (pending : List Nat) (known : c.Known X D m₀ version) :
    (CodeIndex.follow m h c pending).Known X D m₀ version := by
  -- By the routines that are still to be read, each of which adds what it calls.
  fun_induction CodeIndex.follow m h c pending with
  | case1 c => exact known
  | case2 c a pending _ ih => exact ih known
  | case3 c a pending _ r c' found ih =>
      have known' := known.readRoutine agrees a
      rw [found] at known'
      refine ih (known'.insert fun ha => ?_)
      rw [(address_of_readRoutine found).1] at ha ⊢
      exact known.found_of_readRoutine agrees (covered a ha) found
  | case4 c a pending _ e c' failed ih =>
      have known' := known.readRoutine agrees a
      rw [failed] at known'
      exact ih ⟨known'.drawn, known.routines⟩

/-- Following calls forgets nothing and drops nothing. -/
theorem get?_follow (m : Memory) (h : Header) (c : CodeIndex) (pending : List Nat) :
    (∀ a r, c.routines.get? a = some r → (follow m h c pending).routines.get? a = some r) ∧
      (follow m h c pending).routines.stale = c.routines.stale := by
  -- A routine is only read if it is not known, so no entry is replaced.
  fun_induction CodeIndex.follow m h c pending with
  | case1 c => exact ⟨fun _ _ h => h, rfl⟩
  | case2 c a pending _ ih => exact ih
  | case3 c a pending unknown r c' found ih =>
      obtain ⟨address, same⟩ := address_of_readRoutine found
      refine ⟨fun b r' known => ih.1 b r' ?_, by rw [ih.2, ← same]; rfl⟩
      have other : r.address ≠ b := by
        rintro rfl
        rw [address] at known
        exact unknown (.inl (by simp [known]))
      rw [RoutineTable.get?_insert, if_neg other, same]
      exact known
  | case4 c a pending _ e c' failed ih => exact ih

/-- Finding a routine of `D`: as it stands in `m₀`, if it can be read there. -/
theorem Known.discover (agrees : m₀.Agrees X m) (h : Header)
    (covered : ∀ a, D a → ∀ x, a ≤ x → x < Routine.readEnd m₀ version a → X x) {c : CodeIndex}
    (known : c.Known X D m₀ version) {a : Nat} (ha : D a) :
    (endState (discover m h a c)).Known X D m₀ version ∧
      match Routine.found? m₀ version a with
      | some r => ∃ c', discover m h a c = .ok r c'
      | none => ∃ e c', discover m h a c = .error e c' := by
  unfold CodeIndex.discover
  cases hg : c.routines.get? a with
  | some r =>
      rw [known.routines a ha r hg]
      exact ⟨known, c, rfl⟩
  | none =>
      have known' := known.readRoutine agrees a
      have reads := Routine.reads_found agrees known.drawn (covered a ha)
      dsimp only
      cases hr : CodeIndex.readRoutine m a c with
      | ok r c' =>
          rw [hr] at known'
          have found := known.found_of_readRoutine agrees (covered a ha) hr
          rw [found]
          refine ⟨Known.follow agrees h covered _ _ (known'.insert fun _ => ?_), _, rfl⟩
          rw [(address_of_readRoutine hr).1]
          exact found
      -- What can be read in `m₀` can be read here.
      | error e c' =>
          rw [hr] at known'
          refine ⟨known', ?_⟩
          cases hf : Routine.found? m₀ version a with
          | none => exact ⟨e, c', rfl⟩
          | some r =>
              rw [hf] at reads
              obtain ⟨d, read⟩ := reads
              rw [run_readRoutine, read] at hr
              cases hr

/-- A routine that was found is known from then on, and what was known stays. -/
theorem get?_discover {m : Memory} {h : Header} {a : Nat} {c c' : CodeIndex} {r : Routine}
    (found : discover m h a c = .ok r c') :
    c'.routines.get? a = some r ∧ c'.routines.stale = c.routines.stale ∧
      ∀ b r', c.routines.get? b = some r' → c'.routines.get? b = some r' := by
  unfold CodeIndex.discover at found
  split at found
  · cases found
    exact ⟨by assumption, rfl, fun _ _ h => h⟩
  · rename_i unknown
    split at found
    · rename_i r' d hr
      cases found
      obtain ⟨address, same⟩ := address_of_readRoutine hr
      -- The routine is in the table before its calls are followed, and nothing is dropped
      -- meanwhile.
      obtain ⟨keeps, stale⟩ := get?_follow m h { d with routines := d.routines.insert r }
        (r.calls h).reverse
      refine ⟨keeps a r ?_, by rw [stale, ← same]; rfl, fun b r' known => keeps b r' ?_⟩
      · rw [RoutineTable.get?_insert, if_pos address]
      · have other : r.address ≠ b := by
          rintro rfl
          rw [address, unknown] at known
          cases known
        rw [RoutineTable.get?_insert, if_neg other, same]
        exact known
    · cases found

/-- A routine that calls none is found on its own. -/
theorem discover_leaf {m : Memory} {h : Header} {a : Nat} {c c' : CodeIndex} {r : Routine}
    (unknown : c.routines.get? a = none) (read : readRoutine m a c = .ok r c')
    (leaf : r.calls h = []) :
    discover m h a c = .ok r { c' with routines := c'.routines.insert r } := by
  simp only [discover, unknown, read, leaf, List.reverse_nil]
  rw [follow]

end CodeIndex

end ZMachine
