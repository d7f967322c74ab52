/-
  Numbers in ascending order.

  Adding a number keeps the order, and a number is found by ruling out one half
  of the list after the other.  Whatever is found stands where it was found;
  that everything which stands in the list is found needs the order.
-/
import ZMachine.Routine.Basic

namespace ZMachine

namespace Ascending

variable {a b k : Nat} {ns : Ascending}

/-! ## Adding numbers -/

theorem mem_insert : a ∈ insert b ns ↔ a = b ∨ a ∈ ns := by
  induction ns with
  | nil => exact List.mem_cons
  | cons n ns ih =>
      unfold insert
      split
      · exact List.mem_cons
      · split
        · rename_i same
          rw [same, List.mem_cons, or_self_left]
        · rw [List.mem_cons, ih, List.mem_cons, or_left_comm]

theorem mem_ofList {ns : List Nat} : a ∈ ofList ns ↔ a ∈ ns := by
  induction ns with
  | nil => exact Iff.rfl
  | cons n ns ih => rw [ofList, List.foldr_cons, mem_insert, List.mem_cons, ← ih, ofList]

theorem ofList_eq_nil {ns : List Nat} (h : ofList ns = []) : ns = [] := by
  apply List.eq_nil_iff_forall_not_mem.mpr
  intro a mem
  rw [← mem_ofList, h] at mem
  cases mem

theorem pairwise_insert (ascending : ns.Pairwise (· < ·)) : (insert b ns).Pairwise (· < ·) := by
  induction ns with
  | nil => exact List.pairwise_singleton _ b
  | cons n ns ih =>
      obtain ⟨first, rest⟩ := List.pairwise_cons.mp ascending
      unfold insert
      split
      · rename_i before
        refine List.pairwise_cons.mpr ⟨?_, ascending⟩
        intro a mem
        rcases List.mem_cons.mp mem with rfl | mem
        · exact before
        · exact Nat.lt_trans before (first a mem)
      · split
        · exact ascending
        · refine List.pairwise_cons.mpr ⟨?_, ih rest⟩
          intro a mem
          rcases mem_insert.mp mem with rfl | mem
          · omega
          · exact first a mem

theorem pairwise_ofList (ns : List Nat) : (ofList ns).Pairwise (· < ·) := by
  induction ns with
  | nil => exact .nil
  | cons n ns ih => exact pairwise_insert ih

/-! ## Finding numbers -/

/-- What is found stands where it was found, in whatever order the numbers are. -/
theorem getElem?_of_indexOf? (found : indexOf? ns a = some k) : ns[k]? = some a := by
  fun_induction indexOf? ns a generalizing k with
  | case1 ns more half below =>
      rename_i ih
      have low : (ns.take half)[k]? = some a := ih found
      rw [List.getElem?_take] at low
      split at low
      · exact low
      · cases low
  | case2 ns more half above =>
      rename_i ih
      obtain ⟨j, upper, rfl⟩ := Option.map_eq_some_iff.mp found
      rw [← List.getElem?_drop]
      exact ih upper
  | case3 ns few first =>
      cases found
      rw [← List.head?_eq_getElem?]
      exact first
  | case4 => cases found

/-- The numbers in front of a place are smaller than those from there on. -/
theorem lt_of_getElem? (ascending : ns.Pairwise (· < ·)) {i j : Nat} (first : ns[i]? = some a)
    (second : ns[j]? = some b) (less : i < j) : a < b := by
  obtain ⟨hi, rfl⟩ := List.getElem?_eq_some_iff.mp first
  obtain ⟨hj, rfl⟩ := List.getElem?_eq_some_iff.mp second
  exact List.pairwise_iff_getElem.mp ascending i j hi hj less

theorem getElem?_half (more : 1 < ns.length) :
    ns[ns.length / 2]? = some (ns.getD (ns.length / 2) 0) := by
  have inside : ns.length / 2 < ns.length := Nat.div_lt_self (by omega) (by decide)
  rw [List.getD_eq_getElem?_getD, List.getElem?_eq_getElem inside]
  rfl

/-- Among numbers in ascending order each one is found, at the place where it stands. -/
theorem indexOf?_eq_some_iff (ascending : ns.Pairwise (· < ·)) :
    indexOf? ns a = some k ↔ ns[k]? = some a := by
  refine ⟨getElem?_of_indexOf?, ?_⟩
  intro there
  fun_induction indexOf? ns a generalizing k with
  | case1 ns more half below =>
      rename_i ih
      -- The number in the middle is greater, so `a` stands in front of it.
      have middle : ns[half]? = some (ns.getD half 0) := getElem?_half more
      have low : k < half := by
        rcases Nat.lt_trichotomy k half with less | rfl | greater
        · exact less
        · rw [there] at middle
          have := Option.some.inj middle
          omega
        · have := lt_of_getElem? ascending middle there greater
          omega
      apply ih (ascending.sublist (List.take_sublist half ns))
      rw [List.getElem?_take_of_lt low]
      exact there
  | case2 ns more half above =>
      rename_i ih
      have middle : ns[half]? = some (ns.getD half 0) := getElem?_half more
      -- The number in the middle is not greater, so `a` stands there or behind it.
      have high : half ≤ k := by
        apply Nat.le_of_not_lt
        intro less
        have := lt_of_getElem? ascending there middle less
        omega
      have rest : (ns.drop half)[k - half]? = some a := by
        rw [List.getElem?_drop, Nat.add_sub_cancel' high]
        exact there
      rw [ih (ascending.sublist (List.drop_sublist half ns)) rest, Option.map_some,
        Nat.add_sub_cancel' high]
  | case3 ns few first =>
      -- At most one number is left.
      obtain ⟨inside, -⟩ := List.getElem?_eq_some_iff.mp there
      congr 1
      omega
  | case4 ns few other =>
      obtain ⟨inside, -⟩ := List.getElem?_eq_some_iff.mp there
      obtain rfl : k = 0 := by omega
      rw [← List.head?_eq_getElem?] at there
      exact absurd there other

/-- A number is found exactly if it is there. -/
theorem isSome_indexOf? (ascending : ns.Pairwise (· < ·)) :
    (indexOf? ns a).isSome = true ↔ a ∈ ns := by
  rw [Option.isSome_iff_exists, List.mem_iff_getElem?]
  exact exists_congr fun k => indexOf?_eq_some_iff ascending

end Ascending

end ZMachine
