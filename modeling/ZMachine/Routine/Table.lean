/-
  What is known of the code of a story: decoded instructions, the routines
  found so far, and the routines that were called.

  Routines are found by following calls to constant addresses.  A write drops
  everything that was decoded from the bytes that it changed; the routines
  dropped are remembered until they are asked for.
-/
import ZMachine.Routine.Basic

namespace ZMachine

/-- The routines found so far. -/
structure RoutineTable where
  /-- Address of the main routine. -/
  main : Nat
  /-- Routines in ascending order of their addresses. -/
  routines : List Routine := []
  /-- Addresses called while the story ran. -/
  called : Ascending := []
  /-- Addresses of dropped routines, in the order in which they were dropped. -/
  stale : List Nat := []
deriving Inhabited

/-- One line about a routine. -/
structure RoutineSummary where
  address : Nat
  name : String
  locals : Nat
  instructions : Nat
  /-- Number of bytes from the locals to the end. -/
  length : Nat
deriving DecidableEq, Repr, Inhabited

namespace RoutineTable

/-- Put a routine at its place in a list; one with the same address is replaced. -/
def place (r : Routine) : List Routine → List Routine
  | [] => [r]
  | s :: rest =>
      if r.address < s.address then r :: s :: rest
      else if r.address = s.address then r :: rest
      else s :: place r rest

/-- The routine at an address. -/
def get? (t : RoutineTable) (a : Nat) : Option Routine := t.routines.find? fun r => r.address == a

/-- Add a routine. -/
def insert (t : RoutineTable) (r : Routine) : RoutineTable :=
  { t with routines := place r t.routines }

/-- Note a call; says whether it is the first to that address. -/
def recordCall (t : RoutineTable) (a : Nat) : Bool × RoutineTable :=
  (!t.called.contains a, { t with called := Ascending.insert a t.called })

/-- Drop the routines that overlap the `len` bytes at `a`: from the last one that begins before the
end of the range downwards, as long as they reach into it. -/
def invalidate (t : RoutineTable) (a len : Nat) : Nat × RoutineTable :=
  let stop := min (a + len) DecodeCache.lastAddress
  let before := t.routines.reverse.filter fun r => decide (r.address < stop)
  let dropped := (before.takeWhile fun r => decide (a < r.stop)).map Routine.address
  (dropped.length,
    { t with
      routines := t.routines.filter fun r => !dropped.contains r.address
      stale := t.stale ++ dropped })

/-- Addresses of the routines dropped since the last time. -/
def takeStale (t : RoutineTable) : List Nat × RoutineTable := (t.stale, { t with stale := [] })

/-- Name of a routine in listings. -/
def name (t : RoutineTable) (a : Nat) : String :=
  if a = t.main then "Main" else "R" ++ Show.hex 5 a

/-- Summaries in ascending order of addresses. -/
def summaries (t : RoutineTable) : List RoutineSummary :=
  t.routines.map fun r =>
    { address := r.address, name := t.name r.address, locals := r.localCount
      instructions := r.instructions.length, length := r.stop - r.address }

theorem find?_place (r : Routine) (a : Nat) (rs : List Routine) :
    (place r rs).find? (fun s => s.address == a)
      = if r.address = a then some r else rs.find? fun s => s.address == a := by
  induction rs with
  | nil => by_cases h : r.address = a <;> simp [place, h]
  | cons s rest ih =>
    unfold place
    split
    · by_cases h : r.address = a <;> simp [h]
    · split
      next h =>
        by_cases ha : r.address = a
        · simp [ha]
        · have hs : ¬s.address = a := h ▸ ha
          simp [ha, hs]
      next h =>
        by_cases ha : r.address = a
        · have hs : ¬s.address = a := fun e => h (ha.trans e.symm)
          simp [ha, hs, ih]
        · by_cases hs : s.address = a <;> simp [ha, hs, ih]

theorem get?_insert (t : RoutineTable) (r : Routine) (a : Nat) :
    (t.insert r).get? a = if r.address = a then some r else t.get? a :=
  find?_place r a t.routines

/-- Number of addresses of an image at which no routine was found yet. -/
def unread (t : RoutineTable) (m : Memory) : Nat :=
  ((List.range m.size).filter fun a => (t.get? a).isNone).length

/-- Finding a new routine leaves fewer addresses without one. -/
theorem unread_insert (t : RoutineTable) (m : Memory) (r : Routine)
    (inside : r.address < m.size) (new : (t.get? r.address).isNone) :
    (t.insert r).unread m < t.unread m := by
  have same : ((List.range m.size).filter fun a => ((t.insert r).get? a).isNone)
      = ((List.range m.size).filter fun a => (t.get? a).isNone).filter
          fun a => decide (r.address ≠ a) := by
    rw [List.filter_filter]
    apply List.filter_congr
    intro a _
    rw [get?_insert]
    by_cases h : r.address = a <;> simp [h]
  unfold unread
  rw [same]
  apply List.length_filter_lt_length_iff_exists.mpr
  exact ⟨r.address, by simp [inside, Option.isNone_iff_eq_none.mp new], by simp⟩

end RoutineTable

/-- What is known of the code of a story. -/
structure CodeIndex where
  decoded : DecodeCache
  routines : RoutineTable
deriving Inhabited

namespace CodeIndex

/-- Read the routine at an address. -/
def readRoutine (m : Memory) (a : Nat) : EStateM Fault CodeIndex Routine := fun c =>
  match Routine.read m a c.decoded with
  | .ok r d => .ok r { c with decoded := d }
  | .error e d => .error e { c with decoded := d }

/-- A routine read stands at the address asked for. -/
theorem address_of_readRoutine {m : Memory} {a : Nat} {c c' : CodeIndex} {r : Routine}
    (h : readRoutine m a c = .ok r c') : r.address = a ∧ c'.routines = c.routines := by
  simp only [readRoutine] at h
  split at h
  case h_2 => simp at h
  case h_1 r' d' heq =>
    simp only [EStateM.Result.ok.injEq] at h
    obtain ⟨rfl, rfl⟩ := h
    refine ⟨?_, rfl⟩
    simp only [Routine.read, bind, EStateM.bind, pure, EStateM.pure] at heq
    repeat' split at heq
    all_goals simp_all
    all_goals
      obtain ⟨rfl, -⟩ := heq
      rfl

/-- Find the routines at the pending addresses, and all that they call; the address pushed last
comes first.  What cannot be read is passed over. -/
def follow (m : Memory) (h : Header) (c : CodeIndex) : List Nat → CodeIndex
  | [] => c
  | a :: pending =>
      if _known : (c.routines.get? a).isSome ∨ m.size ≤ a then follow m h c pending
      else
        match _found : readRoutine m a c with
        | .ok r c' =>
            follow m h { c' with routines := c'.routines.insert r }
              ((r.calls h).reverse ++ pending)
        | .error _ c' => follow m h { c' with routines := c.routines } pending
termination_by pending => (c.routines.unread m, pending.length)
decreasing_by
  · exact Prod.Lex.right _ (Nat.lt_succ_self _)
  · have ⟨at_a, same⟩ := address_of_readRoutine _found
    apply Prod.Lex.left
    simp only [not_or, Nat.not_le] at _known
    rw [same]
    apply RoutineTable.unread_insert
    · rw [at_a]; exact _known.2
    · rw [at_a]; simpa using _known.1
  · exact Prod.Lex.right _ (Nat.lt_succ_self _)

/-- Find the routine at `root` and all that can be reached from it by calls to constant
addresses. -/
def discover (m : Memory) (h : Header) (root : Nat) : EStateM Fault CodeIndex Routine := fun c =>
  match c.routines.get? root with
  | some r => .ok r c
  | none =>
      match readRoutine m root c with
      | .ok r c =>
          .ok r (follow m h { c with routines := c.routines.insert r } (r.calls h).reverse)
      | .error e c => .error e c

/-- Find every routine that was called. -/
def resolveCalled (m : Memory) (h : Header) (c : CodeIndex) : CodeIndex :=
  c.routines.called.foldl
    (fun c a =>
      match discover m h a c with
      | .ok _ c => c
      | .error _ c => c) c

/-- Forget what was decoded from the `len` bytes at `a`. -/
def invalidate (c : CodeIndex) (a len : Nat) : CodeIndex :=
  { decoded := if c.decoded.floor < a + len then c.decoded.invalidate a len else c.decoded
    routines := (c.routines.invalidate a len).2 }

/-- Note a call. -/
def recordCall (c : CodeIndex) (a : Nat) : CodeIndex :=
  { c with routines := (c.routines.recordCall a).2 }

end CodeIndex

end ZMachine
