/-
  Forgetting routines.

  A write makes the table of routines forget what it knows of the bytes that
  were changed.  The table is searched from the last routine that begins
  before the end of the range downwards, as far as the first one that ends
  before the range.  Every routine that is forgotten has a byte in the range.
  But routines may lie within each other, and one that goes on behind another
  is passed over by a write behind that other one: it stays as it was read.
-/
import Mathlib.Data.List.Nodup
import ZMachine.Proofs.Reading

namespace ZMachine

/-! ## The beginning of a list in order -/

/-- Of a list in order, those elements stand before the first without a property that have it
together with all elements before them. -/
theorem mem_takeWhile_iff {α : Type} {before : α → α → Prop} {p : α → Bool}
    (asymm : ∀ x y, before x y → ¬before y x) {l : List α} (ordered : l.Pairwise before) {x : α} :
    x ∈ l.takeWhile p ↔ x ∈ l ∧ p x = true ∧ ∀ y ∈ l, before y x → p y = true := by
  induction l with
  | nil => simp
  | cons z l ih =>
      obtain ⟨first, ordered⟩ := List.pairwise_cons.mp ordered
      by_cases hz : p z = true
      · rw [List.takeWhile_cons_of_pos hz, List.mem_cons, ih ordered]
        constructor
        · rintro (rfl | ⟨member, hx, others⟩)
          · refine ⟨List.mem_cons_self, hz, ?_⟩
            intro y hy earlier
            rcases List.mem_cons.mp hy with rfl | hy
            · exact hz
            · exact absurd earlier (asymm _ _ (first y hy))
          · refine ⟨List.mem_cons_of_mem z member, hx, ?_⟩
            intro y hy earlier
            rcases List.mem_cons.mp hy with rfl | hy
            · exact hz
            · exact others y hy earlier
        · rintro ⟨member, hx, others⟩
          rcases List.mem_cons.mp member with rfl | member
          · exact .inl rfl
          · exact .inr ⟨member, hx, fun y hy => others y (List.mem_cons_of_mem z hy)⟩
      · rw [List.takeWhile_cons_of_neg hz]
        constructor
        · intro member
          cases member
        -- The first element lacks the property and stands before all others.
        · rintro ⟨member, hx, others⟩
          rcases List.mem_cons.mp member with rfl | member
          · exact absurd hx hz
          · exact absurd (others z List.mem_cons_self (first x member)) hz

/-! ## Routines that were read -/

/-- A routine has a byte among the `len` bytes at `a`. -/
def Routine.Overlaps (r : Routine) (a len : Nat) : Prop :=
  ∃ x, r.address ≤ x ∧ x < r.stop ∧ a ≤ x ∧ x < a + len

/-- Every kept instruction was decoded, from one image or another. -/
def DecodeCache.Genuine (c : DecodeCache) : Prop :=
  ∀ (a : Nat) (i : Instruction), c.kept[a]? = some i → ∃ m, ZMachine.decode m c.version a = .ok i

theorem DecodeCache.Coherent.genuine {c : DecodeCache} {m : Memory} (h : c.Coherent m) :
    c.Genuine :=
  fun a i kept => ⟨m, h a i kept⟩

namespace DecodeCache.Genuine

variable {c c' : DecodeCache} {m : Memory} {a : Nat}

theorem of_decode (genuine : c.Genuine) {r : Except ImageError Instruction}
    (h : c.decode m a = (r, c')) : c'.Genuine := by
  intro x i kept
  rw [(version_decode h).1]
  rcases kept_decode h kept with old | ⟨rfl, -, new⟩
  · exact genuine x i old
  · exact ⟨m, new⟩

/-- Whatever the cache yields was decoded. -/
theorem source (genuine : c.Genuine) {i : Instruction} (h : c.decode m a = (.ok i, c')) :
    ∃ m', ZMachine.decode m' c.version a = .ok i := by
  unfold decode at h
  split at h
  · exact ⟨m, congrArg Prod.fst h⟩
  · split at h
    · rename_i j kept
      cases h
      exact genuine a i kept
    · split at h
      · rename_i j fresh
        cases h
        exact ⟨m, fresh⟩
      · cases h

theorem lt_next (genuine : c.Genuine) {i : Instruction} (h : c.decode m a = (.ok i, c')) :
    a < i.next := by
  obtain ⟨m', decoded⟩ := genuine.source h
  exact (decode_spec decoded).2.1

/-- The instructions of a routine end behind the place where reading began. -/
theorem readInstructions (genuine : c.Genuine) (address limit pc furthest : Nat) :
    (endState (Routine.readInstructions m address limit pc furthest c)).Genuine ∧
      ∀ is ∈ value? (Routine.readInstructions m address limit pc furthest c),
        ∃ i, is.getLast? = some i ∧ pc < i.next := by
  -- By the number of instructions that may follow: the last one is that of the rest.
  induction limit generalizing pc furthest c with
  | zero =>
      refine ⟨genuine, ?_⟩
      intro is mem
      cases mem
  | succ limit ih =>
      rw [Routine.run_readInstructions]
      cases decoded : c.decode m pc with
      | mk result d =>
          have kept : d.Genuine := genuine.of_decode decoded
          cases result with
          | error e =>
              refine ⟨kept, ?_⟩
              intro is mem
              cases mem
          | ok i =>
              have later : pc < i.next := genuine.lt_next decoded
              dsimp only
              split
              · refine ⟨kept, ?_⟩
                intro is mem
                cases mem
                exact ⟨i, rfl, later⟩
              · obtain ⟨kept, rest⟩ := ih (c := d) kept i.next (i.targets.foldl max furthest)
                cases read : Routine.readInstructions m address limit i.next
                    (i.targets.foldl max furthest) d with
                | error e d' =>
                    rw [read] at kept
                    refine ⟨kept, ?_⟩
                    intro is mem
                    cases mem
                | ok is d' =>
                    rw [read] at kept rest
                    obtain ⟨j, last, behind⟩ := rest is rfl
                    refine ⟨kept, ?_⟩
                    intro all mem
                    cases mem
                    refine ⟨j, ?_, by omega⟩
                    rw [List.getLast?_cons, last]
                    rfl

/-- A routine that was read begins before it ends. -/
theorem read (genuine : c.Genuine) (a : Nat) :
    (endState (Routine.read m a c)).Genuine ∧
      ∀ r ∈ value? (Routine.read m a c), r.address < r.stop := by
  rw [Routine.run_read]
  cases locals : Routine.readLocals m c.version a with
  | error e =>
      refine ⟨genuine, ?_⟩
      intro r mem
      cases mem
  | ok p =>
      obtain ⟨defaults, entry⟩ := p
      -- The locals stand between the address and the first instruction.
      have inside : a < entry := by
        obtain ⟨-, -, -, eq⟩ := Routine.readLocals_eq_ok.mp locals
        have := Routine.lt_locals m c.version a
        rwa [← eq] at this
      obtain ⟨kept, last⟩ := genuine.readInstructions (m := m) a maxRoutineInstructions entry entry
      dsimp only
      cases read : Routine.readInstructions m a maxRoutineInstructions entry entry c with
      | error e d =>
          rw [read] at kept
          refine ⟨kept, ?_⟩
          intro r mem
          cases mem
      | ok is d =>
          rw [read] at kept last
          obtain ⟨i, last, behind⟩ := last is rfl
          refine ⟨kept, ?_⟩
          intro r mem
          cases mem
          show a < _
          rw [Routine.stop, last]
          show a < i.next
          omega

theorem readRoutine {c : CodeIndex} (genuine : c.decoded.Genuine) (a : Nat) :
    (endState (CodeIndex.readRoutine m a c)).decoded.Genuine ∧
      ∀ r ∈ value? (CodeIndex.readRoutine m a c), r.address < r.stop := by
  have read := genuine.read (m := m) a
  rw [CodeIndex.run_readRoutine]
  cases h : Routine.read m a c.decoded with
  | ok r d =>
      rw [h] at read
      exact read
  | error e d =>
      rw [h] at read
      refine ⟨read.1, ?_⟩
      intro r mem
      cases mem

end DecodeCache.Genuine

/-! ## Tables in order -/

namespace RoutineTable

/-- The routines stand in ascending order, and each of them ends behind its beginning. -/
structure Ordered (t : RoutineTable) : Prop where
  ascending : t.routines.Pairwise fun r s => r.address < s.address
  extended : ∀ r ∈ t.routines, r.address < r.stop

theorem mem_place {r s : Routine} {rs : List Routine} (h : s ∈ place r rs) : s = r ∨ s ∈ rs := by
  induction rs with
  | nil => exact .inl (List.mem_singleton.mp h)
  | cons q rest ih =>
      unfold place at h
      split at h
      · exact List.mem_cons.mp h
      · split at h
        · rcases List.mem_cons.mp h with rfl | h
          · exact .inl rfl
          · exact .inr (List.mem_cons_of_mem q h)
        · rcases List.mem_cons.mp h with rfl | h
          · exact .inr List.mem_cons_self
          · exact (ih h).imp id (List.mem_cons_of_mem q)

theorem ascending_place {r : Routine} {rs : List Routine}
    (h : rs.Pairwise fun r s => r.address < s.address) :
    (place r rs).Pairwise fun r s => r.address < s.address := by
  induction rs with
  | nil => exact List.pairwise_singleton _ r
  | cons q rest ih =>
      obtain ⟨first, ordered⟩ := List.pairwise_cons.mp h
      unfold place
      split
      · rename_i before
        refine List.pairwise_cons.mpr ⟨?_, h⟩
        intro s hs
        rcases List.mem_cons.mp hs with rfl | hs
        · exact before
        · exact Nat.lt_trans before (first s hs)
      -- It takes the place of a routine with its address, or goes on along the list.
      · split
        · rename_i same
          exact List.pairwise_cons.mpr ⟨fun s hs => same ▸ first s hs, ordered⟩
        · rename_i other
          refine List.pairwise_cons.mpr ⟨?_, ih ordered⟩
          intro s hs
          rcases mem_place hs with rfl | hs
          · omega
          · exact first s hs

namespace Ordered

variable {t : RoutineTable} {c : CodeIndex} {m : Memory}

theorem insert (h : t.Ordered) {r : Routine} (extended : r.address < r.stop) :
    (t.insert r).Ordered where
  ascending := ascending_place h.ascending
  extended := by
    intro s hs
    rcases mem_place hs with rfl | hs
    · exact extended
    · exact h.extended s hs

theorem invalidate (h : t.Ordered) (a len : Nat) : (t.invalidate a len).2.Ordered where
  ascending := h.ascending.filter _
  extended := fun r hr => h.extended r (List.mem_filter.mp hr).1

theorem follow (header : Header) (pending : List Nat) (genuine : c.decoded.Genuine)
    (h : c.routines.Ordered) :
    (CodeIndex.follow m header c pending).decoded.Genuine ∧
      (CodeIndex.follow m header c pending).routines.Ordered := by
  -- By the routines that are still to be read, as the search goes on.
  fun_induction CodeIndex.follow m header c pending with
  | case1 c => exact ⟨genuine, h⟩
  | case2 c a pending _ ih => exact ih genuine h
  | case3 c a pending _ r c' found ih =>
      obtain ⟨kept, extended⟩ := genuine.readRoutine (m := m) a
      obtain ⟨-, same⟩ := CodeIndex.address_of_readRoutine found
      rw [found] at kept extended
      exact ih kept ((same ▸ h).insert (extended r rfl))
  | case4 c a pending _ e c' failed ih =>
      have kept := (genuine.readRoutine (m := m) a).1
      rw [failed] at kept
      exact ih kept h

theorem discover (header : Header) (root : Nat) (genuine : c.decoded.Genuine)
    (h : c.routines.Ordered) :
    (endState (CodeIndex.discover m header root c)).decoded.Genuine ∧
      (endState (CodeIndex.discover m header root c)).routines.Ordered := by
  unfold CodeIndex.discover
  cases known : c.routines.get? root with
  | some r => exact ⟨genuine, h⟩
  | none =>
      obtain ⟨kept, extended⟩ := genuine.readRoutine (m := m) root
      have same := CodeIndex.routines_readRoutine m root c
      dsimp only
      cases read : CodeIndex.readRoutine m root c with
      | ok r c' =>
          rw [read] at kept extended same
          exact follow header _ kept ((same.symm ▸ h).insert (extended r rfl))
      | error e c' =>
          rw [read] at kept same
          exact ⟨kept, same.symm ▸ h⟩

theorem resolveCalled (header : Header) (genuine : c.decoded.Genuine) (h : c.routines.Ordered) :
    (CodeIndex.resolveCalled m header c).routines.Ordered := by
  unfold CodeIndex.resolveCalled
  generalize c.routines.called = called
  induction called generalizing c with
  | nil => exact h
  | cons a called ih =>
      have found := discover (m := m) header a genuine h
      rw [List.foldl_cons]
      cases read : CodeIndex.discover m header a c <;> rw [read] at found <;>
        exact ih found.1 found.2

end Ordered

/-- A table that comes of finding routines, finding those that were called, noting calls and
forgetting, in any order.  The image, its header and the kept instructions may be others each
time. -/
inductive Gathered : RoutineTable → Prop where
  | new (main : Nat) : Gathered { main }
  | discover {t : RoutineTable} (h : Gathered t) (m : Memory) (header : Header) {d : DecodeCache}
      (genuine : d.Genuine) (root : Nat) :
      Gathered (endState (CodeIndex.discover m header root ⟨d, t⟩)).routines
  | resolveCalled {t : RoutineTable} (h : Gathered t) (m : Memory) (header : Header)
      {d : DecodeCache} (genuine : d.Genuine) :
      Gathered (CodeIndex.resolveCalled m header ⟨d, t⟩).routines
  | recordCall {t : RoutineTable} (h : Gathered t) (a : Nat) : Gathered (t.recordCall a).2
  | invalidate {t : RoutineTable} (h : Gathered t) (a len : Nat) : Gathered (t.invalidate a len).2
  | takeStale {t : RoutineTable} (h : Gathered t) : Gathered t.takeStale.2

theorem Gathered.ordered {t : RoutineTable} (h : t.Gathered) : t.Ordered := by
  induction h with
  | new main => exact ⟨.nil, fun r listed => by cases listed⟩
  | discover h m header genuine root ih => exact (Ordered.discover header root genuine ih).2
  | resolveCalled h m header genuine ih => exact Ordered.resolveCalled header genuine ih
  | recordCall h a ih => exact ⟨ih.ascending, ih.extended⟩
  | invalidate h a len ih => exact ih.invalidate a len
  | takeStale h ih => exact ⟨ih.ascending, ih.extended⟩

/-! ## What a write makes the table forget -/

variable {t : RoutineTable}

theorem Ordered.eq_of_address (h : t.Ordered) {r s : Routine} (hr : r ∈ t.routines)
    (hs : s ∈ t.routines) (same : r.address = s.address) : r = s := by
  have distinct : (t.routines.map Routine.address).Nodup :=
    List.pairwise_map.mpr (h.ascending.imp Nat.ne_of_lt)
  exact List.inj_on_of_nodup_map distinct hr hs same

/-- Why a write at `a` passes over a routine: another one begins behind its beginning and ends
before the write, or it begins where no range of addresses reaches. -/
inductive PassesOver (t : RoutineTable) (a : Nat) (r : Routine) : Prop where
  | within {s : Routine} (known : s ∈ t.routines) (later : r.address < s.address)
      (near : s.address < DecodeCache.lastAddress) (before : s.stop ≤ a) : PassesOver t a r
  | beyond (far : DecodeCache.lastAddress ≤ r.address) : PassesOver t a r

/-- The routines that a write makes the table forget, from the last one downwards. -/
def hit (t : RoutineTable) (a len : Nat) : List Routine :=
  (t.routines.reverse.filter fun r =>
    decide (r.address < min (a + len) DecodeCache.lastAddress)).takeWhile fun r =>
      decide (a < r.stop)

theorem invalidate_eq (t : RoutineTable) (a len : Nat) :
    t.invalidate a len =
      ((t.hit a len).length,
        { t with
          routines :=
            t.routines.filter fun r => !((t.hit a len).map Routine.address).contains r.address
          stale := t.stale ++ (t.hit a len).map Routine.address }) := by
  rw [invalidate, hit, List.length_map]

theorem Ordered.mem_hit_iff (h : t.Ordered) {a len : Nat} (nonempty : 1 ≤ len) {r : Routine} :
    r ∈ t.hit a len ↔ r ∈ t.routines ∧ r.Overlaps a len ∧ ¬t.PassesOver a r := by
  have descending : t.routines.reverse.Pairwise fun r s => s.address < r.address :=
    List.pairwise_reverse.mpr h.ascending
  have seen (s : Routine) : (s ∈ t.routines.reverse.filter fun r =>
      decide (r.address < min (a + len) DecodeCache.lastAddress))
        ↔ s ∈ t.routines ∧ s.address < a + len ∧ s.address < DecodeCache.lastAddress := by
    rw [List.mem_filter, List.mem_reverse, decide_eq_true_eq, Nat.lt_min]
  have asymm (r s : Routine) (less : s.address < r.address) : ¬r.address < s.address := by omega
  rw [hit, mem_takeWhile_iff asymm (descending.filter _), seen]
  simp only [decide_eq_true_eq]
  constructor
  · rintro ⟨⟨known, low, near⟩, reaches, others⟩
    have extended : r.address < r.stop := h.extended r known
    refine ⟨known, ⟨max a r.address, by omega, by omega, by omega, by omega⟩, ?_⟩
    intro passed
    cases passed with
    | within member later near before =>
        -- It ends before the write, so it was looked at before and ended the search.
        have extended := h.extended _ member
        have := others _ ((seen _).mpr ⟨member, by omega, near⟩) later
        omega
    | beyond far => omega
  · rintro ⟨known, ⟨x, low, high, first, last⟩, found⟩
    have near : r.address < DecodeCache.lastAddress := by
      by_contra far
      exact found (.beyond (Nat.le_of_not_lt far))
    refine ⟨⟨known, by omega, near⟩, by omega, ?_⟩
    intro s hs later
    obtain ⟨member, -, near⟩ := (seen s).mp hs
    by_contra before
    exact found (.within member later near (Nat.le_of_not_lt before))

theorem Ordered.mem_invalidate_iff (h : t.Ordered) (a len : Nat) {r : Routine} :
    r ∈ (t.invalidate a len).2.routines ↔ r ∈ t.routines ∧ r ∉ t.hit a len := by
  have part (s : Routine) (hs : s ∈ t.hit a len) : s ∈ t.routines := by
    have := (List.takeWhile_subset _) hs
    exact List.mem_reverse.mp (List.mem_filter.mp this).1
  rw [invalidate_eq, List.mem_filter]
  refine and_congr_right fun known => ?_
  have address : r.address ∈ (t.hit a len).map Routine.address ↔ r ∈ t.hit a len := by
    constructor
    · intro listed
      obtain ⟨s, hs, same⟩ := List.mem_map.mp listed
      rwa [← h.eq_of_address (part s hs) known same]
    · exact List.mem_map_of_mem
  rw [← address]
  simp

/-- A write of one byte or more makes the table forget exactly the routines that have a byte in the
range and are not passed over; their addresses, and no others, are noted as stale.  So no routine
with a byte in the range is left exactly if none of them is passed over. -/
theorem forgets_iff (gathered : t.Gathered) (a : Nat) {len : Nat} (nonempty : 1 ≤ len) :
    (∀ r, r ∈ (t.invalidate a len).2.routines ↔
      r ∈ t.routines ∧ (r.Overlaps a len → t.PassesOver a r)) ∧
    (∃ stale, (t.invalidate a len).2.stale = t.stale ++ stale ∧
      (t.invalidate a len).1 = stale.length ∧
      ∀ x, x ∈ stale ↔
        ∃ r ∈ t.routines, r ∉ (t.invalidate a len).2.routines ∧ r.address = x) ∧
    ((∀ r ∈ (t.invalidate a len).2.routines, ¬r.Overlaps a len) ↔
      ∀ r ∈ t.routines, r.Overlaps a len → ¬t.PassesOver a r) := by
  -- A routine is dropped if it was hit, and what is hit overlaps and is not passed over.
  have left (r : Routine) : r ∈ (t.invalidate a len).2.routines ↔
      r ∈ t.routines ∧ (r.Overlaps a len → t.PassesOver a r) := by
    rw [gathered.ordered.mem_invalidate_iff, gathered.ordered.mem_hit_iff nonempty]
    tauto
  refine ⟨left, ⟨(t.hit a len).map Routine.address, ?_, ?_, ?_⟩, ?_⟩
  · rw [invalidate_eq]
  · rw [invalidate_eq, List.length_map]
  · intro x
    rw [List.mem_map]
    refine exists_congr fun r => ?_
    rw [gathered.ordered.mem_invalidate_iff, gathered.ordered.mem_hit_iff nonempty]
    tauto
  · simp only [left]
    constructor
    · intro apart r known overlaps passed
      exact apart r ⟨known, fun _ => passed⟩ overlaps
    · rintro apart r ⟨known, passed⟩ overlaps
      exact apart r known overlaps (passed overlaps)

/-! ## A routine within another -/

/-- An image with a routine from 64 to 72 that branches over another one, at 68 and 69. -/
def nestedImage : Memory :=
  .ofBytes (overwrite (Array.replicate 80 0) 64 [0, 0x90, 0, 0xc6, 2, 0xb0, 0, 0xc0, 0xb0])

/-- The routine that begins at an address of this image. -/
@[irreducible] def nestedAt (a : Nat) : Routine := (Routine.survey nestedImage 5 a).getD default

/-- The table after both routines were found, the outer one first. -/
def nestedTable : RoutineTable := { main := 64, routines := [nestedAt 64, nestedAt 68] }

theorem routines_discover_leaf {m : Memory} (header : Header) {d : DecodeCache} {a : Nat}
    {r : Routine} (unknown : t.get? a = none) (read : value? (Routine.read m a d) = some r)
    (leaf : r.calls header = []) :
    (endState (CodeIndex.discover m header a ⟨d, t⟩)).routines = t.insert r := by
  have read : CodeIndex.readRoutine m a ⟨d, t⟩ = .ok r ⟨endState (Routine.read m a d), t⟩ := by
    rw [CodeIndex.run_readRoutine, eq_ok_of_value? read, endState_ok]
  rw [CodeIndex.discover_leaf unknown read leaf]
  rfl

theorem gathered_nested : nestedTable.Gathered := by
  -- With this floor nothing is kept, and every instruction is decoded afresh.
  let d : DecodeCache := { version := 5, floor := addressSpace }
  have genuine : d.Genuine := by
    intro a i kept
    simp [d] at kept
  have outer := routines_discover_leaf (m := nestedImage) default (d := d) (t := { main := 64 })
    (a := 64) (r := nestedAt 64) rfl (by decide +kernel) (by decide +kernel)
  have inner := routines_discover_leaf (m := nestedImage) default (d := d)
    (t := RoutineTable.insert { main := 64 } (nestedAt 64)) (a := 68) (r := nestedAt 68)
    (by decide +kernel) (by decide +kernel) (by decide +kernel)
  have gathered := ((Gathered.new 64).discover nestedImage default genuine 64).discover nestedImage
    default genuine 68
  rw [outer, inner] at gathered
  have both : RoutineTable.place (nestedAt 68) [nestedAt 64] = [nestedAt 64, nestedAt 68] := by
    decide +kernel
  have table : (RoutineTable.insert { main := 64 } (nestedAt 64)).insert (nestedAt 68)
      = nestedTable := by
    simp only [RoutineTable.insert, place, both, nestedTable]
  rwa [table] at gathered

theorem forgets_iff_nested :
    nestedTable.Gathered ∧ 1 ≤ 2 ∧ nestedAt 64 ∉ (nestedTable.invalidate 68 2).2.routines ∧
      nestedAt 68 ∉ (nestedTable.invalidate 68 2).2.routines := by
  obtain ⟨left, -, -⟩ := forgets_iff gathered_nested 68 (show 1 ≤ 2 by decide)
  obtain ⟨outerStart, outerStop, innerStart, innerStop⟩ :
      (nestedAt 64).address = 64 ∧ (nestedAt 64).stop = 73 ∧
        (nestedAt 68).address = 68 ∧ (nestedAt 68).stop = 70 := by decide +kernel
  have near : 68 < DecodeCache.lastAddress := by decide
  -- Neither routine ends before the write.
  have found (r : Routine) (low : r.address ≤ 68) : ¬nestedTable.PassesOver 68 r := by
    intro passed
    cases passed with
    | within known later _ before =>
        have either := List.mem_cons.mp known
        rw [List.mem_singleton] at either
        rcases either with same | same
        · rw [same] at before
          omega
        · rw [same] at before
          omega
    | beyond far => omega
  refine ⟨gathered_nested, by decide, ?_, ?_⟩
  · intro stays
    have overlaps : (nestedAt 64).Overlaps 68 2 := ⟨68, by omega, by omega, by omega, by omega⟩
    exact found _ (by omega) (((left _).mp stays).2 overlaps)
  · intro stays
    have overlaps : (nestedAt 68).Overlaps 68 2 := ⟨68, by omega, by omega, by omega, by omega⟩
    exact found _ (by omega) (((left _).mp stays).2 overlaps)

/-- A write need not make the table forget every routine that has a byte in the range: the outer
routine goes on behind the inner one, and a write there leaves it as it was. -/
theorem exists_remaining :
    nestedTable.Gathered ∧ ∃ r ∈ (nestedTable.invalidate 72 1).2.routines, r.Overlaps 72 1 ∧
      r.address ∉ (nestedTable.invalidate 72 1).2.stale := by
  refine ⟨gathered_nested, nestedAt 64, by decide +kernel, ⟨72, ?_⟩, by decide +kernel⟩
  decide +kernel

end RoutineTable

end ZMachine
