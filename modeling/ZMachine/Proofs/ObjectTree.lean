/-
  The object tree.

  Parent, sibling and child are links from object to object, spread over the
  bytes of the entries.  They form a tree if every way up ends and the list
  that begins at the first child of an object holds exactly the objects whose
  parent it is.  Removing and inserting change three links at most besides
  those of the object itself; what they do to parents and to lists of children
  is shown on the links alone, and carried over to the image.
-/
import Mathlib.Data.Finset.Card
import Mathlib.Order.Interval.Finset.Nat
import ZMachine.ObjectTable.Tree
import ZMachine.Proofs.Effects

namespace ZMachine

/-! ## Links -/

/-- Where every link of every object leads. -/
abbrev Links := ObjectLink → Word → Word

namespace Links

variable {L L' : Links} {link : ObjectLink} {n : Nat}

/-- The links after one of them was changed. -/
def set (L : Links) (link : ObjectLink) (object value : Word) : Links :=
  fun k o => if k = link ∧ o = object then value else L k o

/-- Following one kind of link from `w` on meets these objects, and then ends. -/
def Follows (L : Links) (link : ObjectLink) : Word → List Word → Prop
  | w, [] => w = 0
  | w, o :: os => w = o ∧ o ≠ 0 ∧ L.Follows link (L link o) os

instance decidableFollows (L : Links) (link : ObjectLink) :
    ∀ (w : Word) (os : List Word), Decidable (L.Follows link w os)
  | w, [] => inferInstanceAs (Decidable (w = 0))
  | w, o :: os =>
      have := decidableFollows L link (L link o) os
      inferInstanceAs (Decidable (w = o ∧ o ≠ 0 ∧ L.Follows link (L link o) os))

theorem Follows.unique {w : Word} {os os' : List Word} (h : L.Follows link w os)
    (h' : L.Follows link w os') : os = os' := by
  induction os generalizing w os' with
  | nil =>
      cases os' with
      | nil => rfl
      | cons o' os' => exact absurd (h'.1.symm.trans h) h'.2.1
  | cons o os ih =>
      cases os' with
      | nil => exact absurd (h.1.symm.trans h') h.2.1
      | cons o' os' =>
          obtain rfl : o = o' := h.1.symm.trans h'.1
          rw [ih h.2.2 h'.2.2]

/-- The way goes on from every object on it. -/
theorem Follows.suffix {w o : Word} {pre post : List Word}
    (h : L.Follows link w (pre ++ o :: post)) : L.Follows link o (o :: post) := by
  induction pre generalizing w with
  | nil => exact ⟨rfl, h.2⟩
  | cons x pre ih => exact ih h.2.2

/-- A way that ends meets no object twice. -/
theorem Follows.nodup {w : Word} {os : List Word} (h : L.Follows link w os) : os.Nodup := by
  induction os generalizing w with
  | nil => exact List.nodup_nil
  | cons o os ih =>
      refine List.nodup_cons.mpr ⟨fun again => ?_, ih h.2.2⟩
      obtain ⟨pre, post, split⟩ := List.append_of_mem again
      have first : L.Follows link o (o :: os) := ⟨rfl, h.2⟩
      have second : L.Follows link o (o :: post) := (split ▸ h.2.2).suffix
      have lengths := congrArg List.length (first.unique second)
      rw [split] at lengths
      simp at lengths
      omega

/-- A way does not begin with an object that comes later. -/
theorem Follows.ne_later {w x o : Word} {pre post : List Word}
    (h : L.Follows link w (pre ++ x :: o :: post)) : w ≠ o := by
  have apart := List.nodup_append.mp h.nodup
  rintro rfl
  cases pre with
  | nil => exact (List.nodup_cons.mp apart.2.1).1 (by simp [← h.1])
  | cons z pre => exact apart.2.2 z (by simp) w (by simp) h.1.symm

theorem Follows.congr {w : Word} {os : List Word} (h : L.Follows link w os)
    (agree : ∀ o ∈ os, L' link o = L link o) : L'.Follows link w os := by
  induction os generalizing w with
  | nil => exact h
  | cons o os ih =>
      refine ⟨h.1, h.2.1, ?_⟩
      rw [agree o (by simp)]
      exact ih h.2.2 fun x hx => agree x (by simp [hx])

/-- Leading the link before an object past it takes the object out of the way. -/
theorem Follows.splice {w x o : Word} {pre post : List Word}
    (h : L.Follows link w (pre ++ x :: o :: post)) (past : L' link x = L link o)
    (agree : ∀ y ∈ pre ++ post, L' link y = L link y) : L'.Follows link w (pre ++ x :: post) := by
  induction pre generalizing w with
  | nil =>
      obtain ⟨start, nonzero, -, -, rest⟩ := h
      refine ⟨start, nonzero, ?_⟩
      rw [past]
      exact rest.congr fun y hy => agree y (by simp [hy])
  | cons y pre ih =>
      obtain ⟨start, nonzero, rest⟩ := h
      refine ⟨start, nonzero, ?_⟩
      rw [agree y (by simp)]
      exact ih rest fun z hz => agree z (by
        rcases List.mem_append.mp hz with hz | hz
        · simp [hz]
        · simp [hz])

/-! ## Trees -/

/-- The numbers of `n` objects. -/
def Within (n : Nat) (o : Word) : Prop := o ≠ 0 ∧ o.toNat ≤ n

instance (n : Nat) (o : Word) : Decidable (Within n o) := inferInstanceAs (Decidable (_ ∧ _))

/-- The children of an object, in order. -/
def Children (L : Links) (p : Word) (cs : List Word) : Prop := L.Follows .sibling (L .child p) cs

instance (L : Links) (p : Word) (cs : List Word) : Decidable (L.Children p cs) :=
  inferInstanceAs (Decidable (L.Follows .sibling (L .child p) cs))

/-- `d` is `o` or lies below it. -/
inductive Below (L : Links) (o : Word) : Word → Prop where
  | self : Below L o o
  | child {d : Word} (nonzero : d ≠ 0) (h : Below L o (L .parent d)) : Below L o d

/-- The links of `n` objects form a tree: they lead to objects, every way up ends, and the children
of an object are those whose parent it is. -/
structure IsTree (n : Nat) (L : Links) : Prop where
  links : ∀ link o, Within n o → L link o = 0 ∨ Within n (L link o)
  rooted : ∀ o, Within n o → ∃ path, L.Follows .parent o path
  children : ∀ p, Within n p →
    ∃ cs, L.Children p cs ∧ cs.Nodup ∧ ∀ o, o ∈ cs ↔ Within n o ∧ L .parent o = p

namespace IsTree

variable {o p d q : Word} {cs : List Word}

/-- An object is among the children exactly of its parent. -/
theorem mem_children (tree : IsTree n L) (hp : Within n p) (h : L.Children p cs) :
    o ∈ cs ↔ Within n o ∧ L .parent o = p := by
  obtain ⟨cs', children, -, all⟩ := tree.children p hp
  rw [h.unique children]
  exact all o

theorem within_of_follows (tree : IsTree n L) {w : Word} {os : List Word}
    (start : w = 0 ∨ Within n w) (h : L.Follows link w os) : ∀ o ∈ os, Within n o := by
  induction os generalizing w with
  | nil => simp
  | cons x os ih =>
      obtain ⟨rfl, nonzero, rest⟩ := h
      have here := start.resolve_left nonzero
      intro o ho
      rcases List.mem_cons.mp ho with rfl | ho
      · exact here
      · exact ih (tree.links link w here) rest o ho

end IsTree

/-- Different objects are no more than there are. -/
theorem length_le_of_within {os : List Word} (nodup : os.Nodup) (within : ∀ o ∈ os, Within n o) :
    os.length ≤ n := by
  have injective : Function.Injective UInt16.toNat := fun a b h => UInt16.toNat_inj.mp h
  have inside : (os.map UInt16.toNat).toFinset ⊆ Finset.Icc 1 n := by
    intro k hk
    obtain ⟨o, ho, rfl⟩ := List.mem_map.mp (List.mem_toFinset.mp hk)
    obtain ⟨nonzero, le⟩ := within o ho
    refine Finset.mem_Icc.mpr ⟨Nat.pos_of_ne_zero fun zero => nonzero ?_, le⟩
    exact UInt16.toNat_inj.mp zero
  have card := Finset.card_le_card inside
  rwa [List.toFinset_card_of_nodup (nodup.map injective), List.length_map, Nat.card_Icc,
    Nat.add_sub_cancel] at card

/-- Whether an object lies below another one shows on its way up. -/
theorem mem_path_iff {o d : Word} {path : List Word} (nonzero : o ≠ 0)
    (h : L.Follows .parent d path) : o ∈ path ↔ L.Below o d := by
  -- By induction on the way up: what is below is the object itself, or has a parent that is below.
  induction path generalizing d with
  | nil =>
      have zero : d = 0 := h
      refine ⟨fun hm => absurd hm (by simp), fun below => ?_⟩
      cases below with
      | self => exact absurd zero nonzero
      | child nonzero' => exact absurd zero nonzero'
  | cons x path ih =>
      obtain ⟨rfl, nonzero', rest⟩ := h
      rw [List.mem_cons, ih rest]
      constructor
      · rintro (rfl | below)
        · exact .self
        · exact .child nonzero' below
      · intro below
        cases below with
        | self => exact .inl rfl
        | child _ below => exact .inr below

/-! ## Taking an object out -/

/-- What is left after an object was taken out of the tree. -/
structure Removed (n : Nat) (L L' : Links) (o : Word) : Prop where
  tree : IsTree n L'
  parent : L' .parent o = 0
  parents : ∀ x, x ≠ o → L' .parent x = L .parent x
  left : ∀ cs, L .parent o ≠ 0 → L.Children (L .parent o) cs →
    L'.Children (L .parent o) (cs.erase o)
  others : ∀ q cs, Within n q → q ≠ L .parent o → L.Children q cs → L'.Children q cs

/-- An object without a parent is out of the tree already. -/
theorem Removed.refl {o : Word} (tree : IsTree n L) (root : L .parent o = 0) : Removed n L L o :=
  ⟨tree, root, fun _ _ => rfl, fun _ nonzero => absurd root nonzero, fun _ _ _ _ h => h⟩

/-- The link that leads to the object after `pre` among the children of `p`. -/
def linkBefore (p : Word) (pre : List Word) : ObjectLink × Word :=
  match pre.getLast? with
  | none => (.child, p)
  | some x => (.sibling, x)

theorem linkBefore_nil (p : Word) : linkBefore p [] = (.child, p) := rfl

theorem linkBefore_concat (p x : Word) (pre : List Word) :
    linkBefore p (pre ++ [x]) = (.sibling, x) := by
  simp [linkBefore]

/-- The links after an object was taken out of the list in which `before` leads to it. -/
def detach (L : Links) (o : Word) (before : ObjectLink × Word) : Links :=
  ((L.set before.1 before.2 (L .sibling o)).set .parent o 0).set .sibling o 0

section Detach

variable {o p q : Word} {pre post cs : List Word}

theorem parent_detach (x : Word) :
    L.detach o (linkBefore p pre) .parent x = if x = o then 0 else L .parent x := by
  rcases List.eq_nil_or_concat' pre with rfl | ⟨init, y, rfl⟩
  · simp [linkBefore_nil, detach, set]
  · simp [linkBefore_concat, detach, set]

/-- The list of the old parent loses the object and keeps its order. -/
theorem children_detach (h : L.Children p (pre ++ o :: post)) :
    (L.detach o (linkBefore p pre)).Children p (pre ++ post) := by
  have nodup := List.nodup_append.mp h.nodup
  have apart : o ∉ post := (List.nodup_cons.mp nodup.2.1).1
  rcases List.eq_nil_or_concat' pre with rfl | ⟨init, x, rfl⟩
  · -- The object is the first child.
    have rest : L.Follows .sibling (L .sibling o) post := h.2.2
    have first : L.detach o (linkBefore p []) .child p = L .sibling o := by
      simp [linkBefore_nil, detach, set]
    rw [Children, first]
    refine rest.congr fun y hy => ?_
    have : y ≠ o := fun same => apart (same ▸ hy)
    simp [linkBefore_nil, detach, set, this]
  · have distinct : ∀ y ∈ init ++ [x], y ≠ o := fun y hy => nodup.2.2 y hy o (by simp)
    have first : L.detach o (linkBefore p (init ++ [x])) .child p = L .child p := by
      simp [linkBefore_concat, detach, set]
    rw [Children, first]
    rw [List.append_assoc, List.singleton_append] at h ⊢
    refine h.splice ?_ fun y hy => ?_
    · have : x ≠ o := distinct x (by simp)
      simp [linkBefore_concat, detach, set, this]
    · -- Neither the object nor the one before it is met again.
      have ne : y ≠ o ∧ y ≠ x := by
        have whole := h.nodup
        rw [List.nodup_append] at whole
        rcases List.mem_append.mp hy with hy | hy
        · exact ⟨whole.2.2 y hy o (by simp), whole.2.2 y hy x (by simp)⟩
        · have tail := List.nodup_cons.mp whole.2.1
          exact ⟨fun same => apart (same ▸ hy), fun same => tail.1 (same ▸ by simp [hy])⟩
      simp [linkBefore_concat, detach, set, ne.1, ne.2]

/-- The lists of the other objects stay. -/
theorem children_detach_of_ne (tree : IsTree n L) (hp : Within n p)
    (h : L.Children p (pre ++ o :: post)) (hq : Within n q) (ne : q ≠ p) (hc : L.Children q cs) :
    (L.detach o (linkBefore p pre)).Children q cs := by
  have elsewhere {x : Word} (hx : x ∈ pre ++ o :: post) {y : Word} (hy : y ∈ cs) : y ≠ x := by
    rintro rfl
    have above := (tree.mem_children hp h).mp hx
    have above' := (tree.mem_children hq hc).mp hy
    exact ne (above'.2.symm.trans above.2)
  -- What is changed belongs to the list of `p`, whether the parent or the child before it is linked
  -- anew.
  rcases List.eq_nil_or_concat' pre with rfl | ⟨init, x, rfl⟩
  · have first : L.detach o (linkBefore p []) .child q = L .child q := by
      simp [linkBefore_nil, detach, set, ne]
    rw [Children, first]
    refine hc.congr fun y hy => ?_
    have : y ≠ o := elsewhere (by simp) hy
    simp [linkBefore_nil, detach, set, this]
  · have first : L.detach o (linkBefore p (init ++ [x])) .child q = L .child q := by
      simp [linkBefore_concat, detach, set]
    rw [Children, first]
    refine hc.congr fun y hy => ?_
    have : y ≠ o := elsewhere (by simp) hy
    have : y ≠ x := elsewhere (by simp) hy
    simp [linkBefore_concat, detach, set, *]

/-- Ways up end, also if some of them end earlier. -/
theorem rooted_detach {path : List Word} {d : Word} (h : L.Follows .parent d path) :
    ∃ path', (L.detach o (linkBefore p pre)).Follows .parent d path' := by
  induction path generalizing d with
  | nil => exact ⟨[], h⟩
  | cons x path ih =>
      obtain ⟨rfl, nonzero, rest⟩ := h
      by_cases same : d = o
      · exact ⟨[d], rfl, nonzero, by rw [parent_detach, if_pos same]; rfl⟩
      · obtain ⟨path', rest'⟩ := ih rest
        exact ⟨d :: path', rfl, nonzero, by rwa [parent_detach, if_neg same]⟩

theorem links_detach (tree : IsTree n L) (ho : Within n o) (link : ObjectLink) {x : Word}
    (hx : Within n x) :
    L.detach o (linkBefore p pre) link x = 0 ∨ Within n (L.detach o (linkBefore p pre) link x) := by
  simp only [detach, set]
  split
  · exact .inl rfl
  · split
    · exact .inl rfl
    · split
      · exact tree.links .sibling o ho
      · exact tree.links link x hx

/-- Of the children of its parent, an object that is taken out leaves those before and behind it. -/
theorem erase_of_children (h : L.Children p (pre ++ o :: post)) :
    (pre ++ o :: post).erase o = pre ++ post := by
  have before : o ∉ pre := fun mem => (List.nodup_append.mp h.nodup).2.2 o mem o (by simp) rfl
  rw [List.erase_append_right _ before, List.erase_cons_head]

theorem isTree_detach (tree : IsTree n L) (ho : Within n o) (hp : Within n p)
    (parent : L .parent o = p) (h : L.Children p (pre ++ o :: post)) :
    IsTree n (L.detach o (linkBefore p pre)) where
  links link x := links_detach tree ho link
  rooted x hx := by
    obtain ⟨path, up⟩ := tree.rooted x hx
    exact rooted_detach up
  -- Only the old parent has one child less.
  children q hq := by
    by_cases same : q = p
    · subst same
      refine ⟨pre ++ post, children_detach h, (children_detach h).nodup, fun x => ?_⟩
      rw [← erase_of_children h, h.nodup.mem_erase_iff, tree.mem_children hp h, parent_detach]
      by_cases here : x = o
      · simp only [here, ne_eq, not_true, false_and, if_true, false_iff, not_and]
        exact fun _ zero => hp.1 zero.symm
      · simp [here]
    · obtain ⟨cs, hc, nodup, all⟩ := tree.children q hq
      refine ⟨cs, children_detach_of_ne tree hp h hq same hc, nodup, fun x => ?_⟩
      rw [all x, parent_detach]
      by_cases here : x = o
      · subst here
        simp only [parent, if_true, and_congr_right_iff]
        exact fun _ => ⟨fun back => absurd back.symm same, fun zero => absurd zero.symm hq.1⟩
      · simp [here]

theorem removed_detach (tree : IsTree n L) (ho : Within n o) (hp : Within n p)
    (parent : L .parent o = p) (h : L.Children p (pre ++ o :: post)) :
    Removed n L (L.detach o (linkBefore p pre)) o := by
  refine ⟨isTree_detach tree ho hp parent h, ?_, ?_, ?_, ?_⟩
  · rw [parent_detach, if_pos rfl]
  · intro x ne
    rw [parent_detach, if_neg ne]
  · intro cs _ hc
    rw [parent] at hc ⊢
    rw [hc.unique h, erase_of_children h]
    exact children_detach h
  · intro q cs hq ne hc
    exact children_detach_of_ne tree hp h hq (parent ▸ ne) hc

end Detach

/-! ## Putting an object in -/

/-- What there is after an object was made the first child of another. -/
structure Inserted (n : Nat) (L L' : Links) (o d : Word) : Prop where
  tree : IsTree n L'
  parent : L' .parent o = d
  parents : ∀ x, x ≠ o → L' .parent x = L .parent x
  first : ∀ cs, L.Children d cs → L'.Children d (o :: cs.erase o)
  left : ∀ cs, L .parent o ≠ 0 → L .parent o ≠ d → L.Children (L .parent o) cs →
    L'.Children (L .parent o) (cs.erase o)
  others : ∀ q cs, Within n q → q ≠ d → q ≠ L .parent o → L.Children q cs → L'.Children q cs

/-- The links after an object without a parent was made the first child of another. -/
def attach (L : Links) (o d : Word) : Links :=
  ((L.set .sibling o (L .child d)).set .child d o).set .parent o d

section Attach

variable {o d q : Word} {cs : List Word}

theorem parent_attach (x : Word) : L.attach o d .parent x = if x = o then d else L .parent x := by
  simp [attach, set]

/-- An object without a parent is in no list. -/
theorem IsTree.not_mem_children (tree : IsTree n L) (root : L .parent o = 0) (hq : Within n q)
    (hc : L.Children q cs) : o ∉ cs := fun mem =>
  hq.1 (((tree.mem_children hq hc).mp mem).2.symm.trans root)

/-- The list that gets the object begins with it. -/
theorem children_attach (tree : IsTree n L) (root : L .parent o = 0) (nonzero : o ≠ 0)
    (hd : Within n d) (hc : L.Children d cs) : (L.attach o d).Children d (o :: cs) := by
  have next : L.attach o d .sibling o = L .child d := by simp [attach, set]
  refine ⟨by simp [attach, set], nonzero, ?_⟩
  rw [next]
  refine hc.congr fun y hy => ?_
  have : y ≠ o := fun same => tree.not_mem_children root hd hc (same ▸ hy)
  simp [attach, set, this]

/-- The other lists stay. -/
theorem children_attach_of_ne (tree : IsTree n L) (root : L .parent o = 0) (hq : Within n q)
    (ne : q ≠ d) (hc : L.Children q cs) : (L.attach o d).Children q cs := by
  have first : L.attach o d .child q = L .child q := by simp [attach, set, ne]
  rw [Children, first]
  refine hc.congr fun y hy => ?_
  have : y ≠ o := fun same => tree.not_mem_children root hq hc (same ▸ hy)
  simp [attach, set, this]

/-- The way up from an object that does not lie below `o` stays. -/
theorem follows_attach {path : List Word} {x : Word} (h : L.Follows .parent x path)
    (apart : o ∉ path) : (L.attach o d).Follows .parent x path := by
  refine h.congr fun y hy => ?_
  have : y ≠ o := fun same => apart (same ▸ hy)
  rw [parent_attach, if_neg this]

/-- The way up from `o` goes through its new parent. -/
theorem rooted_attach {above : List Word} (hd : L.Follows .parent d above)
    (apart : o ∉ above) {path : List Word} {x : Word} (h : L.Follows .parent x path) :
    ∃ path', (L.attach o d).Follows .parent x path' := by
  induction path generalizing x with
  | nil => exact ⟨[], h⟩
  | cons y path ih =>
      obtain ⟨rfl, nonzero', rest⟩ := h
      by_cases same : x = o
      · refine ⟨x :: above, rfl, nonzero', ?_⟩
        rw [parent_attach, if_pos same]
        exact follows_attach hd apart
      · obtain ⟨path', rest'⟩ := ih rest
        exact ⟨x :: path', rfl, nonzero', by rwa [parent_attach, if_neg same]⟩

theorem isTree_attach (tree : IsTree n L) (root : L .parent o = 0) (ho : Within n o)
    (hd : Within n d) (apart : ¬L.Below o d) : IsTree n (L.attach o d) where
  links link x hx := by
    simp only [attach, set]
    split
    · exact .inr hd
    · split
      · exact .inr ho
      · split
        · exact tree.links .child d hd
        · exact tree.links link x hx
  rooted x hx := by
    obtain ⟨above, up⟩ := tree.rooted d hd
    obtain ⟨path, up'⟩ := tree.rooted x hx
    exact rooted_attach up (fun mem => apart ((mem_path_iff ho.1 up).mp mem)) up'
  -- Only the new parent has one child more.
  children q hq := by
    obtain ⟨cs, hc, nodup, all⟩ := tree.children q hq
    by_cases same : q = d
    · subst same
      have children := children_attach tree root ho.1 hq hc
      refine ⟨o :: cs, children, children.nodup, fun x => ?_⟩
      rw [List.mem_cons, all x, parent_attach]
      by_cases here : x = o
      · simp [here, ho]
      · simp [here]
    · refine ⟨cs, children_attach_of_ne tree root hq same hc, nodup, fun x => ?_⟩
      rw [all x, parent_attach]
      by_cases here : x = o
      · subst here
        simp only [root, if_true, and_congr_right_iff]
        exact fun _ => ⟨fun zero => absurd zero.symm hq.1, fun back => absurd back.symm same⟩
      · simp [here]

/-- What lies below an object that was taken out lay below it before. -/
theorem Removed.below (removed : Removed n L L' o) (h : L'.Below o d) : L.Below o d := by
  induction h with
  | self => exact .self
  | @child d nonzero _ ih =>
      by_cases same : d = o
      · exact same ▸ .self
      · exact .child nonzero (removed.parents d same ▸ ih)

/-- An object is moved by taking it out and putting it in. -/
theorem Removed.attach (removed : Removed n L L' o) (tree : IsTree n L) (ho : Within n o)
    (hd : Within n d) (apart : ¬L.Below o d) : Inserted n L (L'.attach o d) o d := by
  have root := removed.parent
  have tree' := removed.tree
  refine ⟨isTree_attach tree' root ho hd fun below => apart (removed.below below), ?_, ?_,
    ?_, ?_, ?_⟩
  · rw [parent_attach, if_pos rfl]
  · intro x ne
    rw [parent_attach, if_neg ne, removed.parents x ne]
  · intro cs hc
    refine children_attach tree' root ho.1 hd ?_
    -- Under its old parent the object comes to the front of the others; elsewhere it was
    -- not listed.
    by_cases same : d = L .parent o
    · subst same
      exact removed.left cs hd.1 hc
    · have absent : o ∉ cs := fun mem => same ((tree.mem_children hd hc).mp mem).2.symm
      rw [List.erase_of_not_mem absent]
      exact removed.others d cs hd same hc
  · intro cs nonzero ne hc
    have hp : Within n (L .parent o) := (tree.links .parent o ho).resolve_left nonzero
    exact children_attach_of_ne tree' root hp ne (removed.left cs nonzero hc)
  · intro q cs hq ne ne' hc
    exact children_attach_of_ne tree' root hq ne (removed.others q cs hq ne' hc)

end Attach

end Links

/-! ## Links in the image -/

namespace ObjectTable

open Links

variable {t : ObjectTable} {m : Memory} {o : Word}

/-- Where the links of all objects lead in an image. -/
def links (t : ObjectTable) (m : Memory) : Links := fun link o => (t.link m link o).toOption.getD 0

/-- The image holds all links. -/
def Readable (t : ObjectTable) (m : Memory) : Prop :=
  ∀ link o, Within t.count o → t.link m link o = .ok (t.links m link o)

/-- The links in an image form a tree. -/
structure WellFormed (t : ObjectTable) (m : Memory) : Prop where
  readable : t.Readable m
  tree : IsTree t.count (t.links m)

/-- Address of a link of an object. -/
def slotAddress (t : ObjectTable) (link : ObjectLink) (o : Word) : Nat :=
  t.linkAddress (t.entries + (o.toNat - 1) * t.layout.entrySize) link

theorem entry_of_within (ho : Within t.count o) :
    t.entry o = .ok (t.entries + (o.toNat - 1) * t.layout.entrySize) := by
  have valid : ¬(o = 0 ∨ t.count < o.toNat) := by
    rintro (zero | large)
    · exact ho.1 zero
    · exact absurd ho.2 (by omega)
  rw [entry, if_neg valid]

theorem entry_of_not_within (ho : ¬Within t.count o) : t.entry o = .error (.invalidObject o) := by
  have invalid : o = 0 ∨ t.count < o.toNat := by
    by_cases zero : o = 0
    · exact .inl zero
    · exact .inr (Nat.not_le.mp fun le => ho ⟨zero, le⟩)
  rw [entry, if_pos invalid]

/-- What a link at an address holds. -/
def slotValue (t : ObjectTable) (m : Memory) (a : Nat) : Word :=
  if t.version ≤ 3 then (m.byteAt a).toUInt16 else m.wordAt a

theorem link_eq_ok (link : ObjectLink) (ho : Within t.count o) {w : Word} :
    t.link m link o = .ok w ↔
      t.slotAddress link o + t.layout.linkBytes ≤ m.size ∧
      t.slotValue m (t.slotAddress link o) = w := by
  have address : t.linkAddress (t.entries + (o.toNat - 1) * t.layout.entrySize) link
      = t.slotAddress link o := rfl
  simp only [ObjectTable.link, entry_of_within ho, Bind.bind, Except.bind, address, slotValue]
  -- A link is a byte in the first versions and a word later.
  by_cases early : t.version ≤ 3
  · have bytes : t.layout.linkBytes = 1 := by simp [layout, ObjectLayout.of, early]
    simp only [early, if_true, bytes]
    cases read : m.readByte (t.slotAddress link o) with
    | ok b =>
        obtain ⟨inside, rfl⟩ := Memory.readByte_eq_ok.mp read
        simp only [inside, true_and]
        exact ⟨Except.ok.inj, congrArg Except.ok⟩
    | error e =>
        refine ⟨fun h => (by cases h), fun ⟨inside, _⟩ => ?_⟩
        rw [Memory.readByte_eq_ok.mpr ⟨inside, rfl⟩] at read
        cases read
  · have bytes : t.layout.linkBytes = 2 := by simp [layout, ObjectLayout.of, early]
    simp only [early, if_false, bytes]
    rw [← Memory.readWord_eq_ok]
    cases m.readWord (t.slotAddress link o) with
    | ok v =>
        exact ⟨fun h => congrArg Except.ok (Except.ok.inj h),
          fun h => congrArg Except.ok (Except.ok.inj h)⟩
    | error e => exact ⟨fun h => (by cases h), fun h => (by cases h)⟩

theorem readable_iff : t.Readable m ↔
    ∀ link o, Within t.count o → t.slotAddress link o + t.layout.linkBytes ≤ m.size := by
  refine ⟨fun h link o ho => ((link_eq_ok link ho).mp (h link o ho)).1, fun h link o ho => ?_⟩
  have ok := (link_eq_ok link ho).mpr ⟨h link o ho, rfl⟩
  rw [ok, links, ok]
  rfl

/-- Links of different kinds or objects lie apart. -/
theorem slotAddress_apart {link link' : ObjectLink} {o o' : Word} (ho : o ≠ 0) (ho' : o' ≠ 0)
    (ne : ¬(link' = link ∧ o' = o)) :
    t.slotAddress link' o' + t.layout.linkBytes ≤ t.slotAddress link o ∨
      t.slotAddress link o + t.layout.linkBytes ≤ t.slotAddress link' o' := by
  have positive {x : Word} (hx : x ≠ 0) : 0 < x.toNat :=
    Nat.pos_of_ne_zero fun zero => hx (UInt16.toNat_inj.mp zero)
  have slots : link'.slot = link.slot → link' = link := by
    cases link <;> cases link' <;> simp [ObjectLink.slot]
  have bound (k : ObjectLink) : k.slot ≤ 2 := by cases k <;> simp [ObjectLink.slot]
  have := bound link
  have := bound link'
  have := positive ho
  have := positive ho'
  have differ : link'.slot ≠ link.slot ∨ o'.toNat ≠ o.toNat := by
    refine Classical.byContradiction fun same => ne ?_
    rw [not_or, Classical.not_not, Classical.not_not] at same
    exact ⟨slots same.1, UInt16.toNat_inj.mp same.2⟩
  by_cases early : t.version ≤ 3
  · simp only [slotAddress, linkAddress, layout, ObjectLayout.of, early, if_true,
      ObjectLayout.entrySize, ObjectLayout.propertyOffset]
    omega
  · simp only [slotAddress, linkAddress, layout, ObjectLayout.of, early, if_false,
      ObjectLayout.entrySize, ObjectLayout.propertyOffset]
    omega

theorem links_of_within (readable : t.Readable m) (link : ObjectLink) (ho : Within t.count o) :
    t.links m link o = t.slotValue m (t.slotAddress link o) :=
  ((link_eq_ok link ho).mp (readable link o ho)).2.symm

theorem link_of_not_within (link : ObjectLink) (ho : ¬Within t.count o) :
    t.link m link o = .error (.invalidObject o) := by
  rw [ObjectTable.link, entry_of_not_within ho]
  rfl

/-- There are no links of what is no object. -/
theorem links_of_not_within (link : ObjectLink) (ho : ¬Within t.count o) :
    t.links m link o = 0 := by
  rw [links, link_of_not_within link ho]
  rfl

/-- The bytes of a link. -/
def slotBytes (t : ObjectTable) (v : Word) : List Byte :=
  if t.version ≤ 3 then [v.toUInt8] else Word.bytes v

theorem length_slotBytes (t : ObjectTable) (v : Word) :
    (t.slotBytes v).length = t.layout.linkBytes := by
  by_cases early : t.version ≤ 3
  · simp [slotBytes, layout, ObjectLayout.of, early]
  · simp [slotBytes, layout, ObjectLayout.of, early, Word.bytes]

theorem slotBytes_ne_nil (t : ObjectTable) (v : Word) : t.slotBytes v ≠ [] := by
  unfold slotBytes
  split <;> simp [Word.bytes]

theorem setLink_eq (link : ObjectLink) (ho : Within t.count o) (v : Word) :
    t.setLink link o v m = MemoryM.writeBytes (t.slotAddress link o) (t.slotBytes v) m := by
  simp only [setLink, entry_of_within ho, slotBytes]
  by_cases early : t.version ≤ 3
  · simp only [early, if_true]
    rfl
  · simp only [early, if_false]
    rfl

/-- A link of an object has its place in the image. -/
theorem run_setLink (readable : t.Readable m) (link : ObjectLink) (ho : Within t.count o)
    (v : Word) :
    t.setLink link o v m = .ok () (m.commit (t.slotAddress link o) (t.slotBytes v)) := by
  have inside := readable_iff.mp readable link o ho
  rw [← t.length_slotBytes v] at inside
  rw [setLink_eq link ho]
  exact MemoryM.run_writeBytes (t.slotBytes_ne_nil v) inside

/-- A link that was written is read; up to version 3 there are few enough objects for one byte. -/
theorem slotValue_commit_self (small : t.count ≤ t.layout.maxObjects) {a : Nat} {v : Word}
    (fits : a + t.layout.linkBytes ≤ m.size) (hv : v = 0 ∨ Within t.count v) :
    t.slotValue (m.commit a (t.slotBytes v)) a = v := by
  unfold slotValue slotBytes
  by_cases early : t.version ≤ 3
  · have bytes : t.layout.linkBytes = 1 := by simp [layout, ObjectLayout.of, early]
    have limit : t.layout.maxObjects = 255 := by simp [layout, ObjectLayout.of, early]
    have byte : v.toNat < 2 ^ 8 := by
      rcases hv with rfl | hv
      · decide
      · have := hv.2
        omega
    simp only [early, if_true]
    rw [m.byteAt_commit_of_inside (Nat.le_refl a) (by simp) (by simpa [bytes] using fits)]
    apply UInt16.toNat_inj.mp
    simpa using byte
  · have bytes : t.layout.linkBytes = 2 := by simp [layout, ObjectLayout.of, early]
    simp only [early, if_false]
    exact m.wordAt_commit v (by omega)

theorem slotValue_commit_of_apart {a b : Nat} {v : Word}
    (apart : b + t.layout.linkBytes ≤ a ∨ a + t.layout.linkBytes ≤ b) :
    t.slotValue (m.commit a (t.slotBytes v)) b = t.slotValue m b := by
  have length := t.length_slotBytes v
  unfold slotValue
  by_cases early : t.version ≤ 3
  · have bytes : t.layout.linkBytes = 1 := by simp [layout, ObjectLayout.of, early]
    simp only [early, if_true]
    rw [m.byteAt_commit_of_outside (by omega)]
  · have bytes : t.layout.linkBytes = 2 := by simp [layout, ObjectLayout.of, early]
    simp only [early, if_false, Memory.wordAt]
    rw [m.byteAt_commit_of_outside (by omega), m.byteAt_commit_of_outside (by omega)]

/-- An action on the image turns the links into others. -/
def Turns (t : ObjectTable) (x : MemoryM Unit) (m : Memory) (L : Links) : Prop :=
  ∃ m', x m = .ok () m' ∧ t.Readable m' ∧ t.links m' = L

/-- Changing one link changes no other. -/
theorem turns_setLink (small : t.count ≤ t.layout.maxObjects) (readable : t.Readable m)
    (link : ObjectLink) (ho : Within t.count o) {v : Word} (hv : v = 0 ∨ Within t.count v) :
    t.Turns (t.setLink link o v) m ((t.links m).set link o v) := by
  have inside := readable_iff.mp readable
  have readable' : t.Readable (m.commit (t.slotAddress link o) (t.slotBytes v)) := by
    rw [readable_iff]
    intro link' x hx
    rw [Memory.size_commit]
    exact inside link' x hx
  refine ⟨m.commit (t.slotAddress link o) (t.slotBytes v), ?_, readable', ?_⟩
  · exact run_setLink readable link ho v
  · funext link' x
    by_cases hx : Within t.count x
    · rw [links_of_within readable' link' hx, Links.set]
      -- The other links lie in other bytes.
      by_cases same : link' = link ∧ x = o
      · obtain ⟨rfl, rfl⟩ := same
        rw [if_pos ⟨rfl, rfl⟩]
        exact slotValue_commit_self small (inside link' x hx) hv
      · rw [if_neg same, links_of_within readable link' hx]
        exact slotValue_commit_of_apart (slotAddress_apart ho.1 hx.1 same)
    · have other : ¬(link' = link ∧ x = o) := fun same => hx (same.2 ▸ ho)
      rw [links_of_not_within link' hx, Links.set, if_neg other, links_of_not_within link' hx]

/-! ## Removing and inserting in the image -/

theorem Turns.bind {x : MemoryM Unit} {y : MemoryM Unit} {L L' : Links} (hx : t.Turns x m L)
    (hy : ∀ m', t.Readable m' → t.links m' = L → t.Turns y m' L') :
    t.Turns (x >>= fun _ => y) m L' := by
  obtain ⟨m', ran, readable, same⟩ := hx
  obtain ⟨m'', ran', readable', same'⟩ := hy m' readable same
  refine ⟨m'', ?_, readable', same'⟩
  simp only [Bind.bind, EStateM.bind, ran, ran']

/-- Looking a link up. -/
theorem turns_link {link : ObjectLink} {f : Word → MemoryM Unit} {L : Links}
    (readable : t.Readable m) (ho : Within t.count o) (hf : t.Turns (f (t.links m link o)) m L) :
    t.Turns (MemoryM.query (fun m => t.link m link o) >>= f) m L := by
  obtain ⟨m', ran, rest⟩ := hf
  refine ⟨m', ?_, rest⟩
  simp only [Bind.bind, EStateM.bind, MemoryM.query, readable link o ho, ran]

/-- The walk along the list of children finds the link before the object within its bound. -/
theorem turns_unlink (small : t.count ≤ t.layout.maxObjects) (readable : t.Readable m)
    {next current x : Word} {pre post : List Word} {bound : Nat}
    (h : (t.links m).Follows .sibling current (pre ++ x :: o :: post))
    (within : ∀ y ∈ pre ++ x :: o :: post, Within t.count y) (hn : next = 0 ∨ Within t.count next)
    (enough : pre.length ≤ bound) :
    t.Turns (t.unlink o next bound current) m ((t.links m).set .sibling x next) := by
  -- Along the children before the object: the walk stops at the one whose link leads to it.
  induction pre generalizing current bound with
  | nil =>
      obtain ⟨rfl, nonzero, found, -⟩ := h
      have hx := within current (by simp)
      unfold unlink
      rw [if_neg nonzero]
      refine turns_link readable hx ?_
      rw [if_pos found]
      exact turns_setLink small readable .sibling hx hn
  | cons y pre ih =>
      obtain ⟨rfl, nonzero, rest⟩ := h
      have hy := within current (by simp)
      obtain ⟨bound, rfl⟩ : ∃ b, bound = b + 1 := by
        rw [List.length_cons] at enough
        exact ⟨bound - 1, by omega⟩
      unfold unlink
      rw [if_neg nonzero]
      refine turns_link readable hy ?_
      rw [if_neg rest.ne_later]
      refine ih rest (fun z hz => within z (by simp [hz])) ?_
      rw [List.length_cons] at enough
      omega

/-- Removing an object takes it out of the tree. -/
theorem turns_remove (small : t.count ≤ t.layout.maxObjects) (wf : t.WellFormed m)
    (ho : Within t.count o) : ∃ L, t.Turns (t.remove o) m L ∧ Removed t.count (t.links m) L o := by
  have readable := wf.readable
  have tree := wf.tree
  by_cases root : t.links m .parent o = 0
  · refine ⟨t.links m, ?_, .refl tree root⟩
    refine turns_link readable ho ?_
    rw [if_pos root]
    exact ⟨m, rfl, readable, rfl⟩
  · have hp := (tree.links .parent o ho).resolve_left root
    obtain ⟨cs, hc, nodup, all⟩ := tree.children _ hp
    obtain ⟨pre, post, rfl⟩ := List.append_of_mem ((all o).mpr ⟨ho, rfl⟩)
    have hn := tree.links .sibling o ho
    refine ⟨_, ?_, removed_detach tree ho hp rfl hc⟩
    -- Whichever link led to the object, its own links are cleared in the end.
    have clears {m' : Memory} {before : ObjectLink × Word} (readable : t.Readable m')
        (same : t.links m' = (t.links m).set before.1 before.2 (t.links m .sibling o)) :
        t.Turns (do t.setLink .parent o 0; t.setLink .sibling o 0) m'
          ((t.links m).detach o before) := by
      refine (turns_setLink small readable .parent ho (.inl rfl)).bind
        fun m'' readable'' same'' => ?_
      have last := turns_setLink small readable'' .sibling ho (v := 0) (.inl rfl)
      rwa [same'', same] at last
    refine turns_link readable ho ?_
    rw [if_neg root]
    refine turns_link readable ho (turns_link readable hp ?_)
    rcases List.eq_nil_or_concat' pre with rfl | ⟨init, x, rfl⟩
    · have first : t.links m .child (t.links m .parent o) = o := hc.1
      rw [if_pos first]
      exact (turns_setLink small readable .child hp hn).bind fun m' readable' same =>
        clears readable' same
    · rw [List.append_assoc, List.singleton_append] at hc nodup all
      have within : ∀ y ∈ init ++ x :: o :: post, Within t.count y := fun y hy => ((all y).mp hy).1
      have few := length_le_of_within nodup within
      rw [if_neg hc.ne_later, linkBefore_concat]
      refine (turns_unlink small readable hc within hn ?_).bind fun m' readable' same =>
        clears readable' same
      simp only [List.length_append, List.length_cons] at few
      omega

/-- The walk to the root meets the object or ends within its bound. -/
theorem checkAncestors_eq (readable : t.Readable m) {d current : Word} {path : List Word}
    {bound : Nat}
    (h : (t.links m).Follows .parent current path) (within : ∀ y ∈ path, Within t.count y)
    (enough : path.length ≤ bound) :
    t.checkAncestors m o d bound current
      = if o ∈ path then .error (.invalidObject o) else .ok () := by
  -- By induction on the path: every object on it takes one of the bound.
  induction path generalizing current bound with
  | nil =>
      have zero : current = 0 := h
      unfold checkAncestors
      simp [zero]
      rfl
  | cons y path ih =>
      obtain ⟨rfl, nonzero, rest⟩ := h
      obtain ⟨bound, rfl⟩ : ∃ b, bound = b + 1 := by
        rw [List.length_cons] at enough
        exact ⟨bound - 1, by omega⟩
      unfold checkAncestors
      rw [if_neg nonzero]
      by_cases same : current = o
      · rw [if_pos same, if_pos (by simp [same])]
        rfl
      · rw [if_neg same]
        have later := ih rest (fun z hz => within z (by simp [hz])) (Nat.le_of_succ_le_succ enough)
        simp only [readable .parent current (within current (by simp)), Bind.bind, Except.bind]
        rw [later]
        have : o ∈ current :: path ↔ o ∈ path := by
          rw [List.mem_cons]
          exact or_iff_right fun back => same back.symm
        simp only [this]

/-- The walk to the root has room for all objects, so it ends, and it fails exactly at the object
that is to be put in. -/
theorem WellFormed.checkAncestors (wf : t.WellFormed m) {d : Word} (ho : Within t.count o)
    (hd : Within t.count d) :
    ((t.links m).Below o d → t.checkAncestors m o d t.count d = .error (.invalidObject o)) ∧
      (¬(t.links m).Below o d → t.checkAncestors m o d t.count d = .ok ()) := by
  obtain ⟨path, up⟩ := wf.tree.rooted d hd
  have within := wf.tree.within_of_follows (.inr hd) up
  have check := checkAncestors_eq (o := o) (d := d) wf.readable up within
    (length_le_of_within up.nodup within)
  have meets := mem_path_iff ho.1 up
  exact ⟨fun below => check.trans (if_pos (meets.mpr below)),
    fun apart => check.trans (if_neg fun mem => apart (meets.mp mem))⟩

/-- An object cannot be put below itself; the image stays as it is. -/
theorem insert_of_below (wf : t.WellFormed m) {d : Word} (ho : Within t.count o)
    (hd : Within t.count d) (below : (t.links m).Below o d) :
    t.insert o d m = .error (.invalidObject o) m := by
  have check := (wf.checkAncestors ho hd).1 below
  unfold insert
  rw [entry_of_within ho, entry_of_within hd]
  change (MemoryM.query (fun m => t.checkAncestors m o d t.count d) >>= _) m = _
  simp only [Bind.bind, EStateM.bind, MemoryM.query, check]

/-- Any other object becomes the first child. -/
theorem turns_insert (small : t.count ≤ t.layout.maxObjects) (wf : t.WellFormed m) {d : Word}
    (ho : Within t.count o) (hd : Within t.count d) (apart : ¬(t.links m).Below o d) :
    ∃ L, t.Turns (t.insert o d) m L ∧ Inserted t.count (t.links m) L o d := by
  have check := (wf.checkAncestors ho hd).2 apart
  obtain ⟨L, removes, removed⟩ := turns_remove small wf ho
  refine ⟨L.attach o d, ?_, removed.attach wf.tree ho hd apart⟩
  -- The object is taken out first, so the new links are read from the table without it.
  have attaches : t.Turns (t.remove o >>= fun _ =>
      MemoryM.query (fun m => t.link m .child d) >>= fun first =>
        t.setLink .sibling o first >>= fun _ =>
        t.setLink .child d o >>= fun _ => t.setLink .parent o d) m (L.attach o d) := by
    refine removes.bind fun m₁ readable₁ same₁ => turns_link readable₁ hd ?_
    have hf : t.links m₁ .child d = 0 ∨ Within t.count (t.links m₁ .child d) := by
      rw [same₁]
      exact removed.tree.links .child d hd
    refine (turns_setLink small readable₁ .sibling ho hf).bind fun m₂ readable₂ same₂ => ?_
    refine (turns_setLink small readable₂ .child hd (.inr ho)).bind fun m₃ readable₃ same₃ => ?_
    have last := turns_setLink small readable₃ .parent ho (.inr hd)
    rwa [same₃, same₂, same₁] at last
  -- Before that the checks pass, as the object is not above its new parent.
  obtain ⟨m', ran, rest⟩ := attaches
  refine ⟨m', ?_, rest⟩
  unfold insert
  rw [entry_of_within ho, entry_of_within hd]
  change (MemoryM.query (fun m => t.checkAncestors m o d t.count d) >>= _) m = _
  rw [← ran]
  simp only [Bind.bind, EStateM.bind, MemoryM.query, check]

/-! ## Any number of moves -/

theorem scan_le (m : Memory) (l : ObjectLayout) (entries limit count lowest : Nat) :
    scan m l entries limit count lowest ≤ count + limit := by
  induction limit generalizing count lowest with
  | zero => exact Nat.le_refl _
  | succ limit ih =>
      unfold scan
      dsimp only
      split
      · omega
      · exact Nat.le_trans (ih _ _) (by omega)

/-- The numbers of the objects of a story fit into their links. -/
theorem count_ofHeader (m : Memory) (h : Header) :
    (ofHeader m h).count ≤ (ofHeader m h).layout.maxObjects := by
  have bound : (ofHeader m h).count ≤ (ObjectLayout.of h.version).maxObjects := by
    simp only [ofHeader]
    split
    · exact Nat.zero_le _
    · exact Nat.le_trans (scan_le _ _ _ _ _ _) (by omega)
  exact bound

/-- One change of the tree. -/
inductive Move where
  | remove (o : Word)
  | insert (o d : Word)
deriving DecidableEq, Repr

/-- Make a change. -/
def Move.run (t : ObjectTable) : Move → MemoryM Unit
  | .remove o => t.remove o
  | .insert o d => t.insert o d

/-- The change names objects. -/
def Move.Names (n : Nat) : Move → Prop
  | .remove o => Within n o
  | .insert o d => Within n o ∧ Within n d

/-- The image after changes, those that fail included. -/
def after (t : ObjectTable) (moves : List Move) (m : Memory) : Memory :=
  moves.foldl (fun m move => endState (move.run t m)) m

theorem WellFormed.remove (small : t.count ≤ t.layout.maxObjects) (wf : t.WellFormed m)
    (ho : Within t.count o) :
    ∃ m', t.remove o m = .ok () m' ∧ t.WellFormed m' ∧
      Removed t.count (t.links m) (t.links m') o := by
  obtain ⟨L, ⟨m', ran, readable, rfl⟩, removed⟩ := turns_remove small wf ho
  exact ⟨m', ran, ⟨readable, removed.tree⟩, removed⟩

theorem WellFormed.insert (small : t.count ≤ t.layout.maxObjects) (wf : t.WellFormed m) {d : Word}
    (ho : Within t.count o) (hd : Within t.count d) (apart : ¬(t.links m).Below o d) :
    ∃ m', t.insert o d m = .ok () m' ∧ t.WellFormed m' ∧
      Inserted t.count (t.links m) (t.links m') o d := by
  obtain ⟨L, ⟨m', ran, readable, rfl⟩, inserted⟩ := turns_insert small wf ho hd apart
  exact ⟨m', ran, ⟨readable, inserted.tree⟩, inserted⟩

/-- A change leaves a tree, whether or not it fails. -/
theorem WellFormed.move (small : t.count ≤ t.layout.maxObjects) (wf : t.WellFormed m) {move : Move}
    (names : move.Names t.count) : t.WellFormed (endState (move.run t m)) := by
  cases move with
  | remove o =>
      obtain ⟨m', ran, wf', -⟩ := wf.remove small names
      rw [Move.run, ran]
      exact wf'
  | insert o d =>
      rw [Move.run]
      by_cases below : (t.links m).Below o d
      · rw [insert_of_below wf names.1 names.2 below]
        exact wf
      · obtain ⟨m', ran, wf', -⟩ := wf.insert small names.1 names.2 below
        rw [ran]
        exact wf'

theorem WellFormed.after (small : t.count ≤ t.layout.maxObjects) (wf : t.WellFormed m)
    {moves : List Move} (names : ∀ move ∈ moves, move.Names t.count) :
    t.WellFormed (t.after moves m) := by
  induction moves generalizing m with
  | nil => exact wf
  | cons move moves ih =>
      exact ih (wf.move small (names move (by simp))) fun move' h => names move' (by simp [h])

/-- In a tree, and after any changes of it, an object can be removed, and it can be inserted exactly
where that does not put it below itself.  Parents and lists of children are then as they should be,
and it is a tree again. -/
theorem objectTree_exact (image : Memory) (header : Header) {m : Memory}
    (wf : (ofHeader image header).WellFormed m) (moves : List Move)
    (names : ∀ move ∈ moves, move.Names (ofHeader image header).count) :
    let t := ofHeader image header
    let m := t.after moves m
    t.WellFormed m ∧ ∀ o, Within t.count o →
      (∃ m', t.remove o m = .ok () m' ∧ t.WellFormed m' ∧
        Removed t.count (t.links m) (t.links m') o) ∧
      ∀ d, Within t.count d →
        ((t.links m).Below o d → t.insert o d m = .error (.invalidObject o) m) ∧
        (¬(t.links m).Below o d → ∃ m', t.insert o d m = .ok () m' ∧ t.WellFormed m' ∧
          Inserted t.count (t.links m) (t.links m') o d) := by
  intro t m
  have small := count_ofHeader image header
  have wf : t.WellFormed m := wf.after small names
  refine ⟨wf, fun o ho => ⟨wf.remove small ho, fun d hd => ⟨?_, ?_⟩⟩⟩
  · exact insert_of_below wf ho hd
  · exact wf.insert small ho hd

/-- An image with two objects, the second of which is the child of the first. -/
def pairImage : Memory :=
  .ofBytes (overwrite (overwrite (Array.replicate 84 0) 68 [0, 0, 2, 0, 82]) 77 [1, 0, 0, 0, 82])

/-- A header that names the table of these objects. -/
def pairHeader : Header := { (default : Header) with version := 3, objectTable := 2 }

/-- The table of these objects. -/
def pair : ObjectTable := ofHeader pairImage pairHeader

theorem within_pair (ho : Within pair.count o) : o = 1 ∨ o = 2 := by
  have two : pair.count = 2 := by decide +kernel
  obtain ⟨nonzero, le⟩ := ho
  rw [two] at le
  have positive : 0 < o.toNat := Nat.pos_of_ne_zero fun zero => nonzero (UInt16.toNat_inj.mp zero)
  rcases (by omega : o.toNat = 1 ∨ o.toNat = 2) with one | two
  · exact .inl (UInt16.toNat_inj.mp one)
  · exact .inr (UInt16.toNat_inj.mp two)

theorem wellFormed_pair : pair.WellFormed pairImage where
  readable := by
    rw [readable_iff]
    intro link o ho
    rcases within_pair ho with rfl | rfl <;> cases link <;> decide +kernel
  tree := {
    links := by
      intro link o ho
      rcases within_pair ho with rfl | rfl <;> cases link <;> decide +kernel
    rooted := by
      intro o ho
      rcases within_pair ho with rfl | rfl
      · exact ⟨[1], by decide +kernel⟩
      · exact ⟨[2, 1], by decide +kernel⟩
    children := by
      intro p hp
      rcases within_pair hp with rfl | rfl
      · refine ⟨[2], by decide +kernel, by simp, fun o => ⟨?_, ?_⟩⟩
        · intro mem
          obtain rfl := List.mem_singleton.mp mem
          decide +kernel
        · rintro ⟨ho, parent⟩
          rcases within_pair ho with rfl | rfl
          · exact absurd parent (by decide +kernel)
          · exact List.mem_singleton.mpr rfl
      · refine ⟨[], by decide +kernel, by simp, fun o => ⟨fun mem => absurd mem (by simp), ?_⟩⟩
        rintro ⟨ho, parent⟩
        rcases within_pair ho with rfl | rfl
        · exact absurd parent (by decide +kernel)
        · exact absurd parent (by decide +kernel) }

theorem objectTree_exact_pair :
    ∃ m, pair.remove 2 pairImage = .ok () m ∧ pair.WellFormed m ∧ pair.links m .parent 2 = 0 ∧
      (pair.links m).Children 1 [] := by
  have two : Within pair.count 2 := by decide +kernel
  obtain ⟨-, moves⟩ := objectTree_exact pairImage pairHeader wellFormed_pair [] (by simp)
  obtain ⟨⟨m, ran, wf, removed⟩, -⟩ := moves 2 two
  have parent : pair.links pairImage .parent 2 = 1 := by decide +kernel
  have children : (pair.links pairImage).Children (pair.links pairImage .parent 2) [2] := by
    decide +kernel
  have nonzero : pair.links pairImage .parent 2 ≠ 0 := by decide +kernel
  have left : (pair.links m).Children (pair.links pairImage .parent 2) [] :=
    removed.left [2] nonzero children
  rw [parent] at left
  exact ⟨m, ran, wf, removed.parent, left⟩

end ObjectTable

end ZMachine
