/-
  Which routines are found.

  A search keeps a list of addresses that are still to be looked at.  A
  routine that is read is put into the table, and what it calls is put on the
  list, so the list may grow, and the same address may stand there more than
  once.  But no routine is read twice.  At any time every routine of the table
  is reached from the root, and what it calls is in the table as well or still
  on the list: in the end the list is empty, and nothing is missing.
-/
import Mathlib.Logic.Relation
import ZMachine.Proofs.Ascending
import ZMachine.Proofs.Forgetting

namespace ZMachine

namespace Routine

/-- The routine calls what begins at `b`, by a constant address other than 0. -/
def Calls (r : Routine) (h : Header) (b : Nat) : Prop :=
  ∃ i ∈ r.instructions, i.opcode.isCall = true ∧ ∃ (o : Operand) (packed : Word),
    i.operands.head? = some o ∧ o.constant? = some packed ∧ packed ≠ 0 ∧ h.routineAddress packed = b

theorem mem_calls {r : Routine} {h : Header} {b : Nat} : b ∈ r.calls h ↔ r.Calls h b := by
  rw [calls, Ascending.mem_ofList, List.mem_filterMap]
  refine exists_congr fun i => and_congr_right fun _ => ?_
  simp [callTarget?, guard, Option.bind_eq_some_iff]

/-- Addresses of routines that are reached from a root: what a routine calls is reached from there
if it lies in the image and can be read. -/
inductive Reached (m : Memory) (version : Nat) (h : Header) (root : Nat) : Nat → Prop where
  | root : Reached m version h root root
  | call {a b : Nat} {r : Routine} (reached : Reached m version h root a)
      (found : found? m version a = some r) (calls : r.Calls h b) (inside : b < m.size)
      (readable : (found? m version b).isSome = true) : Reached m version h root b

end Routine

/-- The routines of a table are those of the image, and what they call is in the table as well, if
it lies in the image and can be read. -/
structure RoutineTable.CallClosed (m : Memory) (version : Nat) (h : Header) (t : RoutineTable) :
    Prop where
  found : ∀ a r, t.get? a = some r → Routine.found? m version a = some r
  called : ∀ a r b, t.get? a = some r → r.Calls h b → b < m.size →
    (Routine.found? m version b).isSome = true → (t.get? b).isSome = true

theorem RoutineTable.closed_nil {t : RoutineTable} (empty : t.routines = []) (m : Memory)
    (version : Nat) (h : Header) : t.CallClosed m version h ∧ t.Ordered := by
  have unlisted (a : Nat) : t.get? a = none := by rw [RoutineTable.get?, empty, List.find?_nil]
  refine ⟨⟨?_, ?_⟩, ?_, ?_⟩
  · intro a r listed
    rw [unlisted] at listed
    cases listed
  · intro a r b listed
    rw [unlisted] at listed
    cases listed
  · rw [empty]
    exact .nil
  · rw [empty]
    intro r mem
    cases mem

namespace CodeIndex

/-! ## Turns of a search -/

/-- What is known, and the addresses that are still to be looked at. -/
abbrev Search := CodeIndex × List Nat

/-- One turn of a search: an address is passed over, or the routine there is read. -/
inductive Turn (m : Memory) (h : Header) : Search → Search → Prop where
  | pass {c : CodeIndex} {a : Nat} {pending : List Nat}
      (known : (c.routines.get? a).isSome = true ∨ m.size ≤ a) :
      Turn m h (c, a :: pending) (c, pending)
  | read {c c' : CodeIndex} {a : Nat} {pending : List Nat} {r : Routine}
      (unknown : c.routines.get? a = none) (inside : a < m.size)
      (found : readRoutine m a c = .ok r c') :
      Turn m h (c, a :: pending)
        ({ c' with routines := c'.routines.insert r }, (r.calls h).reverse ++ pending)
  | fail {c c' : CodeIndex} {a : Nat} {pending : List Nat} {e : Fault}
      (unknown : c.routines.get? a = none) (inside : a < m.size)
      (failed : readRoutine m a c = .error e c') :
      Turn m h (c, a :: pending) ({ c' with routines := c.routines }, pending)

variable {m : Memory} {version root : Nat} {h : Header} {c c' : CodeIndex} {s s' : Search}

/-- A search is a sequence of turns, up to an empty list. -/
theorem turns_follow (m : Memory) (h : Header) (c : CodeIndex) (pending : List Nat) :
    Relation.ReflTransGen (Turn m h) (c, pending) (follow m h c pending, []) := by
  fun_induction follow m h c pending with
  | case1 c => exact .refl
  | case2 c a pending known ih => exact .head (.pass known) ih
  | case3 c a pending other r c' found ih =>
      rw [not_or, Bool.not_eq_true, Option.isSome_eq_false_iff, Option.isNone_iff_eq_none,
        Nat.not_le] at other
      exact .head (.read other.1 other.2 found) ih
  | case4 c a pending other e c' failed ih =>
      rw [not_or, Bool.not_eq_true, Option.isSome_eq_false_iff, Option.isNone_iff_eq_none,
        Nat.not_le] at other
      exact .head (.fail other.1 other.2 failed) ih

/-- No search goes on for ever: a turn that adds to the list leaves fewer addresses without a
routine. -/
theorem wellFounded_turn (m : Memory) (h : Header) :
    WellFounded fun s' s : Search => Turn m h s s' := by
  have measure := (Prod.lex Nat.lt_wfRel Nat.lt_wfRel).wf
  -- Reading makes the list longer, but there are only finitely many addresses to read at.
  refine Subrelation.wf ?_
    (InvImage.wf (fun s : Search => (s.1.routines.unread m, s.2.length)) measure)
  intro s' s turn
  cases turn with
  | pass known => exact .right _ (Nat.lt_succ_self _)
  | @read c c' a pending r unknown inside found =>
      obtain ⟨address, same⟩ := address_of_readRoutine found
      apply Prod.Lex.left
      show (c'.routines.insert r).unread m < c.routines.unread m
      rw [same]
      apply RoutineTable.unread_insert
      · rw [address]
        exact inside
      · rw [address, unknown]
        rfl
  | fail unknown inside failed => exact .right _ (Nat.lt_succ_self _)

/-! ## What holds during a search -/

/-- Everything that a routine of the table calls is in the table or still to be looked at. -/
structure Searching (m : Memory) (version : Nat) (h : Header) (s : Search) : Prop where
  known : s.1.Known (fun _ => True) (fun _ => True) m version
  called : ∀ a r b, s.1.routines.get? a = some r → r.Calls h b → b < m.size →
    (Routine.found? m version b).isSome = true →
      (s.1.routines.get? b).isSome = true ∨ b ∈ s.2

/-- Everything in the table is reached from the root, and so is what is still to be looked at, where
a routine can be read. -/
structure Reaching (m : Memory) (version : Nat) (h : Header) (root : Nat) (s : Search) : Prop where
  listed : ∀ a, (s.1.routines.get? a).isSome = true → Routine.Reached m version h root a
  pending : ∀ b ∈ s.2, b < m.size → (Routine.found? m version b).isSome = true →
    Routine.Reached m version h root b

theorem Known.found_of_ok (known : c.Known (fun _ => True) (fun _ => True) m version) {a : Nat}
    {r : Routine} (read : CodeIndex.readRoutine m a c = .ok r c') :
    Routine.found? m version a = some r :=
  known.found_of_readRoutine (.refl _ m) (fun _ _ _ => trivial) read

theorem Known.unreadable (known : c.Known (fun _ => True) (fun _ => True) m version) {a : Nat}
    {e : Fault} (failed : CodeIndex.readRoutine m a c = .error e c') :
    Routine.found? m version a = none := by
  have reads := Routine.reads_found (.refl _ m) known.drawn (a := a) fun _ _ _ => trivial
  cases found : Routine.found? m version a with
  | none => rfl
  | some r =>
      rw [found] at reads
      obtain ⟨d, read⟩ := reads
      rw [run_readRoutine, read] at failed
      cases failed

namespace Searching

/-- The address at the head of the list may be left out, if what can be read there is in the
table. -/
theorem skip {a : Nat} {pending : List Nat} (h₀ : Searching m version h (c, a :: pending))
    (known : c'.Known (fun _ => True) (fun _ => True) m version) (same : c'.routines = c.routines)
    (there : a < m.size → (Routine.found? m version a).isSome = true →
      (c.routines.get? a).isSome = true) : Searching m version h (c', pending) := by
  refine ⟨known, fun x r b listed calls inside readable => ?_⟩
  change c'.routines.get? x = some r at listed
  change (c'.routines.get? b).isSome = true ∨ b ∈ pending
  rw [same] at listed ⊢
  rcases h₀.called x r b listed calls inside readable with known | waits
  · exact .inl known
  · rcases List.mem_cons.mp waits with rfl | waits
    · exact .inl (there inside readable)
    · exact .inr waits

theorem turn (h₀ : Searching m version h s) (turn : Turn m h s s') : Searching m version h s' := by
  cases turn with
  | pass known =>
      -- What is passed over is in the table, as what is called from elsewhere lies in the image.
      exact h₀.skip h₀.known rfl fun inside _ => known.resolve_right (Nat.not_le.mpr inside)
  | @read c c' a pending r unknown inside found =>
      obtain ⟨address, same⟩ := address_of_readRoutine found
      have here : Routine.found? m version r.address = some r := by
        rw [address]
        exact h₀.known.found_of_ok found
      have known' := h₀.known.readRoutine (.refl _ m) a
      rw [found] at known'
      refine ⟨known'.insert fun _ => here, ?_⟩
      intro x q b listed calls inside readable
      show ((c'.routines.insert r).get? b).isSome = true ∨ b ∈ (r.calls h).reverse ++ pending
      rw [List.mem_append, List.mem_reverse, Routine.mem_calls, RoutineTable.get?_insert, same]
      change (c'.routines.insert r).get? x = some q at listed
      rw [RoutineTable.get?_insert, same] at listed
      split at listed
      · -- What the routine itself calls was put on the list.
        cases listed
        exact .inr (.inl calls)
      · rcases h₀.called x q b listed calls inside readable with there | there
        · left
          split
          · rfl
          · exact there
        · rcases List.mem_cons.mp there with rfl | there
          · left
            rw [if_pos address]
            rfl
          · exact .inr (.inr there)
  | @fail c c' a pending e unknown inside failed =>
      have known' := h₀.known.readRoutine (.refl _ m) a
      rw [failed] at known'
      -- What cannot be read need not be in the table.
      refine h₀.skip ⟨known'.drawn, h₀.known.routines⟩ rfl fun _ readable => ?_
      rw [h₀.known.unreadable failed] at readable
      cases readable

theorem turns (h₀ : Searching m version h s) (turns : Relation.ReflTransGen (Turn m h) s s') :
    Searching m version h s' := by
  induction turns with
  | refl => exact h₀
  | tail _ last ih => exact ih.turn last

/-- With nothing left to be looked at, nothing is missing. -/
theorem closed (h₀ : Searching m version h (c, [])) : c.routines.CallClosed m version h where
  found := fun a r listed => h₀.known.routines a trivial r listed
  called := by
    intro a r b listed calls inside readable
    rcases h₀.called a r b listed calls inside readable with there | there
    · exact there
    · cases there

/-- The search for what a routine calls, which was just put into a closed table. -/
theorem start (known : c.Known (fun _ => True) (fun _ => True) m version)
    (closed : c.routines.CallClosed m version h) {r : Routine}
    (found : Routine.found? m version r.address = some r) :
    Searching m version h ({ c with routines := c.routines.insert r }, (r.calls h).reverse) := by
  refine ⟨known.insert fun _ => found, ?_⟩
  intro a q b listed calls inside readable
  change (c.routines.insert r).get? a = some q at listed
  show ((c.routines.insert r).get? b).isSome = true ∨ b ∈ (r.calls h).reverse
  rw [List.mem_reverse, Routine.mem_calls, RoutineTable.get?_insert]
  rw [RoutineTable.get?_insert] at listed
  split at listed
  · cases listed
    exact .inr calls
  · left
    split
    · rfl
    · exact closed.called a q b listed calls inside readable

end Searching

namespace Reaching

theorem turn (reaching : Reaching m version h root s) (searching : Searching m version h s)
    (turn : Turn m h s s') : Reaching m version h root s' := by
  cases turn with
  | pass known =>
      exact ⟨reaching.listed, fun b there => reaching.pending b (List.mem_cons_of_mem _ there)⟩
  | @read c c' a pending r unknown inside found =>
      obtain ⟨address, same⟩ := address_of_readRoutine found
      have here := searching.known.found_of_ok found
      have reached := reaching.pending a List.mem_cons_self inside (by rw [here]; rfl)
      constructor
      · intro x listed
        change ((c'.routines.insert r).get? x).isSome = true at listed
        rw [RoutineTable.get?_insert, same] at listed
        split at listed
        · rename_i at_x
          rw [← at_x, address]
          exact reached
        · exact reaching.listed x listed
      · intro b there inside readable
        rcases List.mem_append.mp there with called | there
        · rw [List.mem_reverse, Routine.mem_calls] at called
          exact .call reached here called inside readable
        · exact reaching.pending b (List.mem_cons_of_mem _ there) inside readable
  | fail unknown inside failed =>
      exact ⟨reaching.listed, fun b there => reaching.pending b (List.mem_cons_of_mem _ there)⟩

theorem turns (reaching : Reaching m version h root s) (searching : Searching m version h s)
    (turns : Relation.ReflTransGen (Turn m h) s s') : Reaching m version h root s' := by
  induction turns with
  | refl => exact reaching
  | tail before last ih => exact ih.turn (searching.turns before) last

end Reaching

/-- A closed table that has the root has everything that is reached from there. -/
theorem listed_of_reached {t : RoutineTable} (closed : t.CallClosed m version h)
    (there : (t.get? root).isSome = true) {a : Nat} (reached : Routine.Reached m version h root a) :
    (t.get? a).isSome = true := by
  induction reached with
  | root => exact there
  | @call a b r reached found calls inside readable ih =>
      -- By induction the caller is in the table, and the table has the same routine there.
      obtain ⟨q, listed⟩ := Option.isSome_iff_exists.mp ih
      have same := closed.found a q listed
      rw [found] at same
      cases same
      exact closed.called a r b listed calls inside readable

/-! ## Finding routines -/

theorem Known.of_closed (coherent : c.decoded.Coherent m)
    (closed : c.routines.CallClosed m c.decoded.version h) :
    c.Known (fun _ => True) (fun _ => True) m c.decoded.version :=
  ⟨coherent.drawn rfl _, fun a _ r listed => closed.found a r listed⟩

/-- What follows after the root was read. -/
theorem searching_of_read (known : c.Known (fun _ => True) (fun _ => True) m version)
    (closed : c.routines.CallClosed m version h) {r : Routine}
    (read : readRoutine m root c = .ok r c') :
    Searching m version h ({ c' with routines := c'.routines.insert r }, (r.calls h).reverse) := by
  obtain ⟨address, same⟩ := address_of_readRoutine read
  have known' := known.readRoutine (.refl _ m) root
  rw [read] at known'
  refine .start known' (same ▸ closed) ?_
  rw [address]
  exact known.found_of_ok read

theorem closed_discover (known : c.Known (fun _ => True) (fun _ => True) m version)
    (closed : c.routines.CallClosed m version h) :
    (endState (discover m h root c)).routines.CallClosed m version h := by
  have same := routines_readRoutine m root c
  unfold discover
  split
  · exact closed
  · split
    · rename_i r c' read
      exact ((searching_of_read known closed read).turns (turns_follow m h _ _)).closed
    · rename_i e c' failed
      rw [failed] at same
      exact same.symm ▸ closed

/-- The search begins with what the root calls, and with nothing but the root in the table. -/
theorem reaching_of_read (known : c.Known (fun _ => True) (fun _ => True) m version)
    (unknown : ∀ a, c.routines.get? a = none) {r : Routine}
    (read : readRoutine m root c = .ok r c') :
    Reaching m version h root
      ({ c' with routines := c'.routines.insert r }, (r.calls h).reverse) := by
  obtain ⟨address, same⟩ := address_of_readRoutine read
  have at_root := known.found_of_ok read
  constructor
  · intro a listed
    change ((c'.routines.insert r).get? a).isSome = true at listed
    rw [RoutineTable.get?_insert, same, unknown a] at listed
    split at listed
    · rename_i at_a
      rw [← at_a, address]
      exact .root
    · cases listed
  · intro b called inside readable
    rw [List.mem_reverse, Routine.mem_calls] at called
    exact .call .root at_root called inside readable

/-- Finding routines comes to an end, whatever calls what, since every search does.  With an empty
table, it fails as reading the root does and leaves the table empty, or it finds exactly the
routines that are reached from the root, each of them once and as it is read.  A table to which
nothing is to be added for its own routines stays so. -/
theorem discovers_reached (coherent : c.decoded.Coherent m) (h : Header) (root : Nat) :
    (WellFounded fun s' s : Search => Turn m h s s') ∧
    (c.routines.routines = [] →
      (∀ e d, Routine.read m root c.decoded = .error e d →
        discover m h root c = .error e { c with decoded := d }) ∧
      ∀ r d, Routine.read m root c.decoded = .ok r d → ∃ c', discover m h root c = .ok r c' ∧
        Relation.ReflTransGen (Turn m h) (⟨d, c.routines.insert r⟩, (r.calls h).reverse) (c', []) ∧
        c'.routines.routines.Pairwise (fun r s => r.address < s.address) ∧
        ∀ a s, c'.routines.get? a = some s ↔
          Routine.Reached m c.decoded.version h root a ∧
            Routine.found? m c.decoded.version a = some s) ∧
    (c.routines.CallClosed m c.decoded.version h →
      (endState (discover m h root c)).routines.CallClosed m c.decoded.version h) := by
  refine ⟨wellFounded_turn m h, ?_, fun closed =>
    closed_discover (.of_closed coherent closed) closed⟩
  intro empty
  obtain ⟨closed, ordered⟩ := RoutineTable.closed_nil empty m c.decoded.version h
  have known := Known.of_closed coherent closed
  have unknown (a : Nat) : c.routines.get? a = none := by
    rw [RoutineTable.get?, empty, List.find?_nil]
  constructor
  · intro e d failed
    rw [discover, unknown root, run_readRoutine, failed]
  · intro r d read
    have ran : readRoutine m root c = .ok r { c with decoded := d } := by rw [run_readRoutine, read]
    have found : discover m h root c =
        .ok r (follow m h ⟨d, c.routines.insert r⟩ (r.calls h).reverse) := by
      rw [discover, unknown root, ran]
    have turns := turns_follow m h ⟨d, c.routines.insert r⟩ (r.calls h).reverse
    -- Two invariants of the search: nothing that is called is missed, and all that is listed is
    -- reached from the root.
    have searching := searching_of_read known closed ran
    have final := (searching.turns turns).closed
    have reaching := (reaching_of_read (h := h) known unknown ran).turns searching turns
    have sorted := (RoutineTable.Ordered.discover h root coherent.genuine ordered (m := m)).2
    rw [found] at sorted
    refine ⟨_, found, turns, sorted.ascending, ?_⟩
    intro a s
    constructor
    · intro listed
      exact ⟨reaching.listed a (by rw [listed]; rfl), final.found a s listed⟩
    -- A routine that is reached is listed, as the final table is closed and has the root.
    · rintro ⟨reached, there⟩
      have root_listed := (get?_discover found).1
      have listed := listed_of_reached final (by rw [root_listed]; rfl) reached
      obtain ⟨q, listed⟩ := Option.isSome_iff_exists.mp listed
      have same := final.found a q listed
      rw [there] at same
      cases same
      exact listed

/-- An image with a routine at 64 that calls one at 76, and what lies outside of the image; the one
at 76 calls the first, and what cannot be read at 88. -/
def callingImage : Memory :=
  .ofBytes (overwrite (overwrite (Array.replicate 96 0)
    64 [0, 0xe0, 0x3f, 0, 38, 0, 0xe0, 0x3f, 0, 127, 0, 0xba])
    76 [0, 0xe0, 0x3f, 0, 32, 0, 0xe0, 0x3f, 0, 44, 0, 0xb0, 0xff])

/-- The routine that begins at an address of this image. -/
@[irreducible] def callingAt (a : Nat) : Routine := (Routine.survey callingImage 3 a).getD default

/-- Its header, as far as addresses of routines depend on it. -/
def callingHeader : Header := { (default : Header) with version := 3 }

/-- Nothing is known of this image yet, and nothing will be kept. -/
def callingIndex : CodeIndex :=
  { decoded := { version := 3, floor := addressSpace }, routines := { main := 64 } }

theorem discovers_reached_calling :
    callingIndex.decoded.Coherent callingImage ∧
      ∃ c', discover callingImage callingHeader 64 callingIndex = .ok (callingAt 64) c' ∧
        c'.routines.get? 76 = some (callingAt 76) ∧ c'.routines.get? 88 = none := by
  have coherent : callingIndex.decoded.Coherent callingImage := by
    intro a i kept
    simp [callingIndex] at kept
  have read : Routine.read callingImage 64 callingIndex.decoded = .ok (callingAt 64) _ :=
    eq_ok_of_value? (by decide +kernel)
  obtain ⟨-, only, -⟩ := discovers_reached coherent callingHeader 64
  obtain ⟨c', found, -, -, listed⟩ := (only rfl).2 _ _ read
  have inside : 76 < callingImage.size := by decide +kernel
  have calls : 76 ∈ (callingAt 64).calls callingHeader := by decide +kernel
  -- Without a cache, routines can be evaluated.
  obtain ⟨first, second, third⟩ :
      Routine.found? callingImage 3 64 = some (callingAt 64) ∧
        Routine.found? callingImage 3 76 = some (callingAt 76) ∧
          Routine.found? callingImage 3 88 = none := by
    simp only [Routine.found?_eq_survey]
    decide +kernel
  refine ⟨coherent, c', found, (listed 76 _).mpr ⟨?_, second⟩, ?_⟩
  · exact .call .root first (Routine.mem_calls.mp calls) inside (Option.isSome_of_eq_some second)
  · cases other : c'.routines.get? 88 with
    | none => rfl
    | some r =>
        have there : Routine.found? callingImage 3 88 = some r := ((listed 88 r).mp other).2
        rw [third] at there
        cases there

end CodeIndex

end ZMachine
