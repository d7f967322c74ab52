/-
  The table of routines when a story begins anew.

  A story that begins anew gets its whole image back, but forgets only the
  routines that begin below the static memory.  A routine that begins there or
  higher is left in the table, and is not noted as stale, also if the story
  had changed its bytes before it was read.  So the table fits the image
  afterwards exactly if every routine left in it reads as it did.
-/
import Mathlib.Data.List.TakeWhile
import ZMachine.Proofs.Forgetting
import ZMachine.Proofs.FreshStart

namespace ZMachine

open Machine

/-! ## Routines that read so -/

namespace Routine

variable {m m' : Memory} {version a : Nat} {r : Routine}

/-- A routine that is found begins where it was looked for, and ends behind its beginning. -/
theorem lt_stop_of_found (found : found? m version a = some r) : r.address < r.stop := by
  have genuine : DecodeCache.Genuine { version } := by
    intro x i kept
    simp at kept
  have extended := (genuine.read (m := m) a).2 r
  unfold found? at found
  cases read : Routine.read m a { version } with
  | error e c =>
      rw [read] at found
      cases found
  | ok q c =>
      rw [read] at found extended
      exact extended found

/-- A routine is found where its bytes are as in an image in which it was found. -/
theorem found_congr (found : found? m version a = some r) (size : m'.size = m.size)
    (same : ∀ x, a ≤ x → x < r.stop → m'.byteAt x = m.byteAt x) : found? m' version a = some r := by
  have agrees : m.Agrees (fun x => a ≤ x ∧ x < r.stop) m' := ⟨size, fun x hx => same x hx.1 hx.2⟩
  have fresh : DecodeCache.Drawn (fun x => a ≤ x ∧ x < r.stop) m version { version } :=
    ⟨rfl, fun x i kept => by simp at kept⟩
  have reads := reads_found agrees fresh (a := a) fun x low high =>
    ⟨low, Nat.lt_of_lt_of_eq high (readEnd_eq_stop found)⟩
  rw [found] at reads
  obtain ⟨c, read⟩ := reads
  rw [found?, read]

end Routine

namespace RoutineTable

variable {t : RoutineTable}

/-- From the bottom up every routine is hit that begins in the range. -/
theorem hit_below (extended : ∀ r ∈ t.routines, r.address < r.stop) {len : Nat}
    (small : len ≤ DecodeCache.lastAddress) :
    t.hit 0 len = t.routines.reverse.filter fun r => decide (r.address < len) := by
  rw [hit, Nat.zero_add, Nat.min_eq_left small, List.takeWhile_eq_self_iff]
  intro r hr
  have known : r ∈ t.routines := List.mem_reverse.mp (List.mem_filter.mp hr).1
  exact decide_eq_true (Nat.lt_of_le_of_lt (Nat.zero_le _) (extended r known))

theorem mem_hit_below (extended : ∀ r ∈ t.routines, r.address < r.stop) {len : Nat}
    (small : len ≤ DecodeCache.lastAddress) {r : Routine} :
    r ∈ t.hit 0 len ↔ r ∈ t.routines ∧ r.address < len := by
  rw [hit_below extended small, List.mem_filter, List.mem_reverse, decide_eq_true_eq]

theorem mem_invalidate_below (extended : ∀ r ∈ t.routines, r.address < r.stop) {len : Nat}
    (small : len ≤ DecodeCache.lastAddress) {r : Routine} :
    r ∈ (t.invalidate 0 len).2.routines ↔ r ∈ t.routines ∧ len ≤ r.address := by
  rw [invalidate_eq, List.mem_filter]
  refine and_congr_right fun known => ?_
  have listed : r.address ∈ (t.hit 0 len).map Routine.address ↔ r.address < len := by
    rw [List.mem_map]
    constructor
    · rintro ⟨q, hq, same⟩
      exact same ▸ ((mem_hit_below extended small).mp hq).2
    · intro low
      exact ⟨r, (mem_hit_below extended small).mpr ⟨known, low⟩, rfl⟩
  rw [← Nat.not_lt, ← listed]
  simp

end RoutineTable

/-! ## The table after beginning anew -/

namespace Machine

variable {image : Array Byte} {options : MachineOptions} {host : Host} {s t : Machine} {r : Routine}

/-- A routine is what is found at its address in the present image. -/
def Current (s : Machine) (r : Routine) : Prop :=
  Routine.found? s.memory s.header.version r.address = some r

/-- On the way from `s` to `t` the table of routines was kept up to date: all of it is current, and
what was dropped or has changed is noted as stale. -/
structure UpToDate (s t : Machine) : Prop where
  current : ∀ r ∈ t.code.routines.routines, t.Current r
  noted : ∀ r ∈ s.code.routines.routines,
    r ∉ t.code.routines.routines ∨ ¬t.Current r → r.address ∈ t.code.routines.stale

theorem staticMemoryBase_le (h : Header) : h.staticMemoryBase.toNat ≤ DecodeCache.lastAddress := by
  have := h.staticMemoryBase.toNat_lt
  unfold DecodeCache.lastAddress addressSpace
  omega

theorem Current.of_bytes (current : s.Current r) (same : s.SameStory t)
    (bytes : ∀ x, r.address ≤ x → x < r.stop → t.memory.byteAt x = s.memory.byteAt x) :
    t.Current r := by
  rw [Current, same.header]
  exact Routine.found_congr current same.size bytes

section Anew

variable (h : Arises image options host s) (current : ∀ r ∈ s.code.routines.routines, s.Current r)
  (ran : restart s = .ok () t)

include h current ran

/-- Beginning anew leaves the routines that begin in the static memory or above it. -/
theorem mem_routines_restart : r ∈ t.code.routines.routines ↔
    r ∈ s.code.routines.routines ∧ s.header.staticMemoryBase.toNat ≤ r.address := by
  rw [(routines_restart h.roomy ran).1]
  refine RoutineTable.mem_invalidate_below (fun q known => ?_) (staticMemoryBase_le s.header)
  exact Routine.lt_stop_of_found (current q known)

/-- Beginning anew notes the other routines as stale. -/
theorem stale_restart : ∃ dropped, t.code.routines.stale = s.code.routines.stale ++ dropped ∧
    ∀ a, a ∈ dropped ↔
      ∃ r ∈ s.code.routines.routines, r.address < s.header.staticMemoryBase.toNat ∧
        r.address = a := by
  have extended : ∀ r ∈ s.code.routines.routines, r.address < r.stop := fun q known =>
    Routine.lt_stop_of_found (current q known)
  refine ⟨(s.code.routines.hit 0 s.header.staticMemoryBase.toNat).map Routine.address, ?_,
    fun a => ?_⟩
  · rw [(routines_restart h.roomy ran).2, RoutineTable.invalidate_eq]
  · rw [List.mem_map]
    refine exists_congr fun q => ?_
    rw [RoutineTable.mem_hit_below extended (staticMemoryBase_le s.header), and_assoc]

/-- The table was kept up to date exactly if every routine that is left is current. -/
theorem upToDate_restart_iff : s.UpToDate t ↔ ∀ r ∈ s.code.routines.routines,
    s.header.staticMemoryBase.toNat ≤ r.address → t.Current r := by
  constructor
  · intro good r known high
    exact good.current r ((mem_routines_restart h current ran).mpr ⟨known, high⟩)
  · intro good
    refine ⟨fun r kept => ?_, fun r known gone => ?_⟩
    · obtain ⟨known, high⟩ := (mem_routines_restart h current ran).mp kept
      exact good r known high
    · -- What is left is current, so a routine that is gone or has changed began below.
      have low : r.address < s.header.staticMemoryBase.toNat := by
        refine Classical.byContradiction fun above => ?_
        have high : s.header.staticMemoryBase.toNat ≤ r.address := Nat.le_of_not_lt above
        rcases gone with dropped | changed
        · exact dropped ((mem_routines_restart h current ran).mpr ⟨known, high⟩)
        · exact changed (good r known high)
      obtain ⟨dropped, whole, noted⟩ := stale_restart h current ran
      rw [whole]
      exact List.mem_append_right _ ((noted r.address).mpr ⟨r, known, low, rfl⟩)

end Anew

/-- Of a table that is current, a story that begins anew drops exactly the routines that begin below
the static memory, and notes them as stale.  The others are current afterwards if their bytes are
what they were; and the table was kept up to date exactly if all of the others are current. -/
theorem restart_upToDate_iff (h : Arises image options host s)
    (current : ∀ r ∈ s.code.routines.routines, s.Current r) :
    ∃ t, restart s = .ok () t ∧
      (∀ r, r ∈ t.code.routines.routines ↔
        r ∈ s.code.routines.routines ∧ s.header.staticMemoryBase.toNat ≤ r.address) ∧
      (∃ dropped, t.code.routines.stale = s.code.routines.stale ++ dropped ∧ ∀ a, a ∈ dropped ↔
        ∃ r ∈ s.code.routines.routines, r.address < s.header.staticMemoryBase.toNat ∧
          r.address = a) ∧
      (∀ r ∈ t.code.routines.routines,
        (∀ x, r.address ≤ x → x < r.stop → t.memory.byteAt x = s.memory.byteAt x) → t.Current r) ∧
      (s.UpToDate t ↔ ∀ r ∈ s.code.routines.routines,
        s.header.staticMemoryBase.toNat ≤ r.address → t.Current r) := by
  obtain ⟨m, loads, same⟩ := h.sameStory
  obtain ⟨t, ran, -⟩ := restart_of_sameStory loads same
  have story : s.SameStory t := sameStory_restart.of_ok ran
  refine ⟨t, ran, fun r => mem_routines_restart h current ran, stale_restart h current ran, ?_,
    upToDate_restart_iff h current ran⟩
  intro r kept bytes
  have known : r ∈ s.code.routines.routines := ((mem_routines_restart h current ran).mp kept).1
  exact (current r known).of_bytes story bytes

/-! ## A routine of the static memory -/

/-- A story with two routines that return true: one at 66, and one at 72, where the static memory
begins. -/
def twoRoutines : Array Byte :=
  overwrite (overwrite (overwrite (Array.replicate 80 0)
    0 [3, 0, 0, 0, 0, 0, 0, 64, 0, 0, 0, 0, 0, 0, 0, 72]) 66 [0, 0xb0]) 72 [0, 0xb0]

/-- The routine at an address that does nothing but to return. -/
def returning (a : Nat) (opcode : Opcode) : Routine :=
  { address := a
    defaults := []
    instructions := [
      { address := a + 1, length := 1, opcode, operands := []
        store := none, branch := none, text := none }] }

/-- The machine after this story was loaded. -/
def twofold : Machine := (load twoRoutines {} {}).toOption.getD default

/-- The machine after both routines were found. -/
def explored : Machine := endState (Engine.discover 72 (endState (Engine.discover 66 twofold)))

/-- The machine after the story changed the second routine, which now returns false. -/
def rewritten : Machine := endState (perform .storeb [72, 1, 0xb1] twofold)

/-- The machine after the changed routine was found. -/
def misled : Machine := endState (Engine.discover 72 rewritten)

theorem loaded_twofold : load twoRoutines {} {} = .ok twofold :=
  Except.eq_ok_getD _ (by decide +kernel)

theorem endState_discover (a : Nat) (s : Machine) : endState (Engine.discover a s) =
    { s with code := endState (s.code.discover s.memory s.header a) } := by
  unfold Engine.discover
  cases s.code.discover s.memory s.header a <;> rfl

theorem sameStory_discover (a : Nat) : Leads SameStory (Engine.discover a) := by
  intro s
  rw [endState_discover]
  exact ⟨rfl, rfl, rfl, rfl, rfl, rfl, rfl⟩

/-- The kept instructions are those of the present image. -/
abbrev Fitting (s : Machine) : Prop :=
  s.code.decoded.Drawn (fun _ => True) s.memory s.header.version

/-- A routine that calls none is added to the table on its own. -/
theorem routines_discover {a : Nat} (fitting : s.Fitting) (unknown : s.code.routines.get? a = none)
    (survey : Routine.survey s.memory s.header.version a = some r) (leaf : r.calls s.header = []) :
    (endState (Engine.discover a s)).code.routines = s.code.routines.insert r ∧
      (endState (Engine.discover a s)).Fitting := by
  have agrees : s.memory.Agrees (fun _ => True) s.memory := .refl _ _
  have reads := Routine.reads_survey agrees fitting (a := a) fun _ _ _ => trivial
  have drawn := Routine.drawn_read agrees a fitting
  rw [survey] at reads
  obtain ⟨c, read⟩ := reads
  rw [read] at drawn
  have found : CodeIndex.readRoutine s.memory a s.code = .ok r { s.code with decoded := c } := by
    rw [CodeIndex.run_readRoutine, read]
  rw [endState_discover, CodeIndex.discover_leaf unknown found leaf]
  exact ⟨rfl, drawn⟩

theorem fitting_twofold : twofold.Fitting := by
  obtain ⟨tidy, unkept⟩ := kept_load loaded_twofold
  exact ⟨tidy.version, fun a i kept => by simp [unkept a] at kept⟩

theorem fitting_rewritten : rewritten.Fitting := by
  obtain ⟨tidy, unkept⟩ := kept_load loaded_twofold
  have does : Does false false (perform .storeb [72, 1, 0xb1]) := does_perform .storeb [72, 1, 0xb1]
  have sheds : twofold.Sheds rewritten := sheds_of_effects (does twofold)
  refine ⟨?_, fun a i kept => ?_⟩
  · rw [sheds.version, sheds.header, tidy.version]
  · have old := sheds.kept a i kept
    simp [unkept a] at old

theorem routines_explored :
    explored.code.routines.routines = [returning 66 .rtrue, returning 72 .rtrue] := by
  obtain ⟨first, fitting⟩ := routines_discover (a := 66) (r := returning 66 .rtrue) fitting_twofold
    (by decide +kernel) (by decide +kernel) (by decide +kernel)
  have memory : (endState (Engine.discover 66 twofold)).memory = twofold.memory := by
    rw [endState_discover]
  have header : (endState (Engine.discover 66 twofold)).header = twofold.header := by
    rw [endState_discover]
  obtain ⟨second, -⟩ := routines_discover (a := 72) (r := returning 72 .rtrue) fitting
    (by rw [first]; decide +kernel) (by rw [memory, header]; decide +kernel)
    (by rw [header]; decide +kernel)
  rw [explored, second, first]
  decide +kernel

theorem sameStory_explored : twofold.SameStory explored :=
  (sameStory_discover 66 twofold).trans (sameStory_discover 72 _)

theorem memory_explored : explored.memory = twofold.memory := by
  rw [explored, endState_discover, endState_discover]

theorem current_explored : ∀ r ∈ explored.code.routines.routines, explored.Current r := by
  intro r known
  rw [routines_explored] at known
  rw [Current, Routine.found?_eq_survey, memory_explored, sameStory_explored.header]
  rcases List.mem_cons.mp known with rfl | known
  · decide +kernel
  · rw [List.mem_singleton.mp known]
    decide +kernel

theorem restart_upToDate_iff_explored :
    Arises twoRoutines {} {} explored ∧
      (∀ r ∈ explored.code.routines.routines, explored.Current r) ∧
      ∃ t, restart explored = .ok () t ∧ returning 66 .rtrue ∉ t.code.routines.routines ∧
        66 ∈ t.code.routines.stale ∧ returning 72 .rtrue ∈ t.code.routines.routines ∧
        explored.UpToDate t := by
  have arises : Arises twoRoutines {} {} explored :=
    (Arises.loaded loaded_twofold).outside sameStory_explored
  obtain ⟨t, ran, left, ⟨dropped, stale, noted⟩, kept, good⟩ :=
    restart_upToDate_iff arises current_explored
  -- Static memory begins between the two routines: only the first is forgotten.
  have base : explored.header.staticMemoryBase.toNat = 72 := by
    rw [sameStory_explored.header]
    decide +kernel
  have first : returning 66 .rtrue ∈ explored.code.routines.routines := by simp [routines_explored]
  have second : returning 72 .rtrue ∈ explored.code.routines.routines := by simp [routines_explored]
  rw [base] at left noted good
  have stays : returning 72 .rtrue ∈ t.code.routines.routines :=
    (left _).mpr ⟨second, Nat.le_refl 72⟩
  refine ⟨arises, current_explored, t, ran, ?_, ?_, stays, good.mpr fun r known high => ?_⟩
  · intro listed
    have high : 72 ≤ 66 := ((left _).mp listed).2
    omega
  · rw [stale]
    exact List.mem_append_right _ ((noted 66).mpr ⟨_, first, by decide, rfl⟩)
  · -- The bytes of the second routine are still those that were loaded.
    obtain ⟨u, again, new⟩ := restart_of_sameStory loaded_twofold sameStory_explored
    cases again.symm.trans ran
    refine kept r ((left r).mpr ⟨known, high⟩) fun x low _ => ?_
    rw [memory_explored]
    refine new.bytes x ?_
    show x ≠ 17
    omega

theorem routines_misled :
    misled.code.routines = rewritten.code.routines.insert (returning 72 .rfalse) := by
  obtain ⟨found, -⟩ := routines_discover (a := 72) (r := returning 72 .rfalse) fitting_rewritten
    (by decide +kernel) (by decide +kernel) (by decide +kernel)
  rw [misled, found]

/-- Beginning anew need not keep the table up to date: a routine of the static memory that the story
had changed before it was read stays as it was read, is not noted as stale, and has changed back. -/
theorem exists_outlived :
    Arises twoRoutines {} {} misled ∧ (∀ r ∈ misled.code.routines.routines, misled.Current r) ∧
      ∃ t, restart misled = .ok () t ∧ returning 72 .rfalse ∈ t.code.routines.routines ∧
        Routine.found? t.memory 3 72 = some (returning 72 .rtrue) ∧ 72 ∉ t.code.routines.stale ∧
        ¬misled.UpToDate t := by
  -- The story writes over the routine, and only then it is read.
  have written : twofold.SameStory rewritten :=
    MachineOperation.sameStory (.perform .storeb [72, 1, 0xb1]) twofold
  have same : twofold.SameStory misled := written.trans (sameStory_discover 72 rewritten)
  have arises : Arises twoRoutines {} {} misled := (Arises.loaded loaded_twofold).outside same
  have listed : misled.code.routines.routines = [returning 72 .rfalse] := by
    rw [routines_misled]
    decide +kernel
  have current : ∀ r ∈ misled.code.routines.routines, misled.Current r := by
    have memory : misled.memory = rewritten.memory := by rw [misled, endState_discover]
    intro r known
    rw [listed] at known
    rw [Current, Routine.found?_eq_survey, memory, same.header, List.mem_singleton.mp known]
    decide +kernel
  have base : misled.header.staticMemoryBase.toNat = 72 := by
    rw [same.header]
    decide +kernel
  obtain ⟨t, ran, new⟩ := restart_of_sameStory loaded_twofold same
  have stays : returning 72 .rfalse ∈ t.code.routines.routines := by
    refine (mem_routines_restart arises current ran).mpr ⟨by simp [listed], ?_⟩
    rw [base]
    exact Nat.le_refl 72
  have reads : Routine.found? t.memory 3 72 = some (returning 72 .rtrue) := by
    have loaded : Routine.found? twofold.memory 3 72 = some (returning 72 .rtrue) := by
      rw [Routine.found?_eq_survey]
      decide +kernel
    refine Routine.found_congr loaded new.size fun x low _ => new.bytes x ?_
    show x ≠ 17
    omega
  -- Only routines below the static memory are noted as stale.
  have unnoted : 72 ∉ t.code.routines.stale := by
    obtain ⟨dropped, stale, noted⟩ := stale_restart arises current ran
    have fresh : misled.code.routines.stale = [] := by
      rw [routines_misled]
      decide +kernel
    rw [stale, fresh, List.nil_append, noted, base]
    rintro ⟨r, -, low, address⟩
    omega
  refine ⟨arises, current, t, ran, stays, reads, unnoted, fun good => ?_⟩
  -- What is listed returns false, and what stands there returns true again.
  have still := good.current _ stays
  have version : t.header.version = 3 := by
    rw [new.header]
    decide +kernel
  rw [Current, version] at still
  cases reads.symm.trans still

end Machine

end ZMachine
