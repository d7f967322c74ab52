/-
  Keeping a copy of memory by its reports.

  An observer that copies the image when it subscribes, and then writes the
  new bytes of every reported change over its copy, holds what memory holds.
  A report comes with every write that succeeds and has bytes to write, once
  to every observer and in the order of subscription; nothing else is
  reported.  Observers come and go between the writes.
-/
import Mathlib.Data.List.Induction
import Mathlib.Logic.Function.Basic
import ZMachine.Proofs.Bytes

namespace ZMachine

/-! ## Uses of memory -/

/-- A use of memory, other than a reload. -/
inductive MemoryCall where
  | writeByte (a : Nat) (b : Byte)
  | writeBytes (a : Nat) (bs : List Byte)
  | writeWord (a : Nat) (w : Word)
  | writeWords (a : Nat) (ws : List Word)
  | writeDword (a : Nat) (v : UInt32)
  | readByte (a : Nat)
  | readBytes (a len : Nat)
  | readWord (a : Nat)
  | readWords (a count : Nat)
  | readDword (a : Nat)
  | subscribe
  | unsubscribe (id : UInt32)
deriving DecidableEq, Repr

namespace MemoryCall

/-- Memory after a call that does not fail. -/
def run (m : Memory) : MemoryCall → Except ImageError Memory
  | writeByte a b => m.writeByte a b
  | writeBytes a bs => m.writeBytes a bs
  | writeWord a w => m.writeWord a w
  | writeWords a ws => m.writeWords a ws
  | writeDword a v => m.writeDword a v
  | readByte a => (m.readByte a).map fun _ => m
  | readBytes a len => (m.readBytes a len).map fun _ => m
  | readWord a => (m.readWord a).map fun _ => m
  | readWords a count => (m.readWords a count).map fun _ => m
  | readDword a => (m.readDword a).map fun _ => m
  | subscribe => .ok m.subscribe.2
  | unsubscribe id => .ok (m.unsubscribe id).2

/-- Where a call writes, and what. -/
def written? : MemoryCall → Option (Nat × List Byte)
  | writeByte a b => some (a, [b])
  | writeBytes a bs => some (a, bs)
  | writeWord a w => some (a, Word.bytes w)
  | writeWords a ws => some (a, wordBytes ws)
  | writeDword a v => some (a, dwordBytes v)
  | _ => none

/-- A write of some bytes that succeeds. -/
def Writes (m : Memory) (c : MemoryCall) (a : Nat) (bs : List Byte) : Prop :=
  c.written? = some (a, bs) ∧ bs ≠ [] ∧ ∃ m', c.run m = .ok m'

variable {m : Memory} {c : MemoryCall} {a : Nat} {bs : List Byte}

/-- All widths of writing come down to one. -/
theorem run_eq_writeBytes (h : c.written? = some (a, bs)) : c.run m = m.writeBytes a bs := by
  cases c <;> cases h <;> rfl

/-- A write succeeds if its bytes fit; one of no bytes always does. -/
theorem succeeds_iff (h : c.written? = some (a, bs)) :
    (∃ m', c.run m = .ok m') ↔ bs = [] ∨ a + bs.length ≤ m.size := by
  rw [run_eq_writeBytes h]
  cases bs with
  | nil => exact ⟨fun _ => .inl rfl, fun _ => ⟨m, rfl⟩⟩
  | cons b bs =>
      have unfolded : m.writeBytes a (b :: bs) =
          if a + (b :: bs).length ≤ m.size then .ok (m.commit a (b :: bs))
          else .error (.outOfRange a (b :: bs).length m.size) := by
        simp [Memory.writeBytes, Memory.fits]
      rw [unfolded]
      split <;> simp_all

theorem run_of_writes (h : c.Writes m a bs) : c.run m = .ok (m.commit a bs) := by
  obtain ⟨write, nonempty, m', run⟩ := h
  rw [run_eq_writeBytes write, Memory.writeBytes, if_neg (by simpa using nonempty)] at run ⊢
  split at run
  · rename_i fits
    rw [if_pos fits]
  · cases run

theorem eq_of_read {α : Type} {x : Except ImageError α} {m' : Memory}
    (h : (x.map fun _ => m) = .ok m') : m' = m := by
  cases x with
  | error e => cases h
  | ok v =>
      cases h
      rfl

/-- What a call can make of memory: it writes, changes the observers, or does nothing. -/
inductive Makes (m : Memory) (c : MemoryCall) : Memory → Prop where
  | written {a : Nat} {bs : List Byte} (writes : c.Writes m a bs) : Makes m c (m.commit a bs)
  | joined (joins : c = .subscribe) : Makes m c m.subscribe.2
  | left {id : UInt32} (leaves : c = .unsubscribe id) : Makes m c (m.unsubscribe id).2
  | idle (quiet : ∀ a bs, ¬c.Writes m a bs) (old : c ≠ .subscribe)
      (kept : ∀ id, c ≠ .unsubscribe id) :
      Makes m c m

theorem makes_of_run {m' : Memory} (h : c.run m = .ok m') : c.Makes m m' := by
  cases write : c.written? with
  | some p =>
      obtain ⟨a, bs⟩ := p
      by_cases empty : bs = []
      · -- An empty write succeeds anywhere.
        subst empty
        have stays : c.run m = .ok m := by rw [run_eq_writeBytes write]; rfl
        rw [stays] at h
        cases h
        refine .idle (fun a bs writes => ?_) ?_ ?_
        · cases write.symm.trans writes.1
          exact writes.2.1 rfl
        · rintro rfl
          cases write
        · rintro id rfl
          cases write
      · have writes : c.Writes m a bs := ⟨write, empty, m', h⟩
        rw [run_of_writes writes] at h
        cases h
        exact .written writes
  | none =>
      -- A call that writes nothing reads, subscribes or unsubscribes.
      have plain (a : Nat) (bs : List Byte) : ¬c.Writes m a bs := fun writes => by
        cases write.symm.trans writes.1
      cases c with
      | writeByte | writeBytes | writeWord | writeWords | writeDword => cases write
      | subscribe => cases h; exact .joined rfl
      | unsubscribe id => cases h; exact .left rfl
      | readByte | readBytes | readWord | readWords | readDword =>
          obtain rfl := eq_of_read h
          exact .idle plain (by simp) (by simp)

/-- A call that fails does nothing. -/
theorem idle_of_error {e : ImageError} (h : c.run m = .error e) : (∀ a bs, ¬c.Writes m a bs) ∧
    c ≠ .subscribe ∧ ∀ id, c ≠ .unsubscribe id := by
  refine ⟨fun a bs writes => ?_, ?_, ?_⟩
  · cases h.symm.trans (run_of_writes writes)
  · rintro rfl
    cases h
  · rintro id rfl
    cases h

end MemoryCall

/-! ## Reports -/

namespace Memory

/-- Memory after a call; one that fails leaves all as it was. -/
def after (m : Memory) (c : MemoryCall) : Memory :=
  match c.run m with
  | .ok m' => m'
  | .error _ => m

/-- What a call reports, and to whom. -/
def told (m : Memory) (c : MemoryCall) : List (UInt32 × Change) :=
  (m.after c).notices.toList.drop m.notices.size

theorem toList_notices_notify (m : Memory) (change : Change) :
    (m.notify change).notices.toList = m.notices.toList ++ m.observers.map (·, change) := by
  have pushes (ids : List UInt32) (log : Array (UInt32 × Change)) :
      (ids.foldl (fun log id => log.push (id, change)) log).toList
        = log.toList ++ ids.map (·, change) := by
    induction ids generalizing log with
    | nil => simp
    | cons id ids ih => rw [List.foldl_cons, ih]; simp
  exact pushes m.observers m.notices

/-- A write is reported with the bytes that it replaced. -/
theorem toList_notices_commit (m : Memory) (a : Nat) (bs : List Byte) :
    (m.commit a bs).notices.toList = m.notices.toList ++
      m.observers.map (·, ⟨a, (m.bytes.extract a (a + bs.length)).toList, bs⟩) := by
  unfold commit
  split
  · rename_i unobserved
    rw [List.isEmpty_iff.mp unobserved]
    simp
  · exact toList_notices_notify _ _

@[simp] theorem observers_commit (m : Memory) (a : Nat) (bs : List Byte) :
    (m.commit a bs).observers = m.observers := by
  unfold commit
  split <;> rfl

@[simp] theorem nextObserver_commit (m : Memory) (a : Nat) (bs : List Byte) :
    (m.commit a bs).nextObserver = m.nextObserver := by
  unfold commit
  split <;> rfl

variable {m : Memory} {c : MemoryCall}

theorem after_of_writes {a : Nat} {bs : List Byte} (h : c.Writes m a bs) :
    m.after c = m.commit a bs := by
  rw [after, MemoryCall.run_of_writes h]

theorem told_of_writes {a : Nat} {bs : List Byte} (h : c.Writes m a bs) :
    m.told c = m.observers.map (·, ⟨a, (m.bytes.extract a (a + bs.length)).toList, bs⟩) := by
  rw [told, after_of_writes h, toList_notices_commit]
  simp

theorem makes_after (m : Memory) (c : MemoryCall) : c.Makes m (m.after c) := by
  cases run : c.run m with
  | ok m' => rw [after, run]; exact MemoryCall.makes_of_run run
  | error e =>
      obtain ⟨quiet, old, kept⟩ := MemoryCall.idle_of_error run
      rw [after, run]
      exact .idle quiet old kept

/-- Reports are added to those made before, and only writes are reported. -/
theorem toList_notices_after (m : Memory) (c : MemoryCall) :
    (m.after c).notices.toList = m.notices.toList ++ m.told c ∧
      ((∀ a bs, ¬c.Writes m a bs) → m.told c = []) := by
  have made := m.makes_after c
  unfold told
  generalize m.after c = m' at made ⊢
  cases made with
  | written writes =>
      rw [toList_notices_commit]
      exact ⟨by simp, fun quiet => absurd writes (quiet _ _)⟩
  | joined | left | idle => simp [subscribe, unsubscribe]

theorem told_of_not_writes (h : ∀ a bs, ¬c.Writes m a bs) : m.told c = [] :=
  (m.toList_notices_after c).2 h

end Memory

/-! ## Observers with copies -/

/-- Memory, and the copy of the image that every observer holds. -/
structure Watched where
  memory : Memory
  copies : UInt32 → Array Byte

namespace Watched

/-- An observer writes the new bytes of a reported change over its copy. -/
def hear (copies : UInt32 → Array Byte) (report : UInt32 × Change) : UInt32 → Array Byte :=
  Function.update copies report.1 (overwrite (copies report.1) report.2.address report.2.new)

/-- A call, and what observers make of it: a new one copies the image, and all of them hear the
reports. -/
def call (s : Watched) (c : MemoryCall) : Watched where
  memory := s.memory.after c
  copies :=
    (s.memory.told c).foldl hear <|
      if c = .subscribe then
        Function.update s.copies s.memory.subscribe.1 s.memory.subscribe.2.bytes
      else s.copies

/-- Calls on an image, from one without observers on. -/
def run (image : Array Byte) (calls : List MemoryCall) : Watched :=
  calls.foldl call { memory := .ofBytes image, copies := fun _ => #[] }

theorem run_snoc (image : Array Byte) (calls : List MemoryCall) (c : MemoryCall) :
    run image (calls ++ [c]) = (run image calls).call c := by
  rw [run, List.foldl_append]
  rfl

/-- Observers that all hear of one change all make it. -/
theorem foldl_hear {ids : List UInt32} (once : ids.Nodup) (change : Change)
    (copies : UInt32 → Array Byte) (id : UInt32) :
    (ids.map (·, change)).foldl hear copies id =
      if id ∈ ids then overwrite (copies id) change.address change.new else copies id := by
  induction ids generalizing copies with
  | nil => rfl
  | cons k ids ih =>
      obtain ⟨fresh, once⟩ := List.nodup_cons.mp once
      rw [List.map_cons, List.foldl_cons, ih once]
      by_cases here : id = k
      · subst here
        simp [fresh, hear]
      · simp [here, hear]

end Watched

/-! ## Subscriptions -/

/-- An observer subscribed in the course of these calls and was not removed since.  Its number is
that of the subscriptions before its own. -/
def StillSubscribed (calls : List MemoryCall) (id : UInt32) : Prop :=
  ∃ before since, calls = before ++ .subscribe :: since ∧
    id = (before.count .subscribe).toUInt32 ∧ .unsubscribe id ∉ since

namespace StillSubscribed

variable {calls : List MemoryCall} {c : MemoryCall} {id : UInt32}

/-- One call more: a subscription adds the next number, a removal takes its number away. -/
theorem snoc :
    StillSubscribed (calls ++ [c]) id ↔
      (StillSubscribed calls id ∧ c ≠ .unsubscribe id) ∨
        (c = .subscribe ∧ id = (calls.count .subscribe).toUInt32) := by
  constructor
  · rintro ⟨before, since, split, number, kept⟩
    rcases List.eq_nil_or_concat since with rfl | ⟨since, last, rfl⟩
    · obtain ⟨rfl, same⟩ := List.append_inj' split rfl
      cases same
      exact .inr ⟨rfl, number⟩
    · rw [List.concat_eq_append, ← List.cons_append, ← List.append_assoc] at split
      obtain ⟨rfl, same⟩ := List.append_inj' split rfl
      cases same
      simp only [List.concat_eq_append, List.mem_append, List.mem_singleton, not_or] at kept
      exact .inl ⟨⟨before, since, rfl, number, kept.1⟩, fun same => kept.2 same.symm⟩
  · rintro (⟨⟨before, since, rfl, number, kept⟩, stays⟩ | ⟨rfl, number⟩)
    · refine ⟨before, since ++ [c], by simp, number, ?_⟩
      simp only [List.mem_append, List.mem_singleton, not_or]
      exact ⟨kept, fun same => stays same.symm⟩
    · exact ⟨calls, [], rfl, number, by simp⟩

/-- Numbers are given in order as long as they do not run out. -/
theorem toNat_lt (few : calls.count .subscribe < UInt32.size) (h : StillSubscribed calls id) :
    id.toNat < calls.count .subscribe := by
  obtain ⟨before, since, rfl, rfl, -⟩ := h
  rw [List.count_append, List.count_cons_self] at few ⊢
  rw [Nat.toUInt32, UInt32.toNat_ofNat_of_lt' (by omega)]
  omega

end StillSubscribed

/-! ## The course of calls -/

namespace Watched

/-- After these calls the observers are those still subscribed, in the order of their subscription,
and every one of them holds a copy of memory. -/
structure Mirrors (calls : List MemoryCall) (s : Watched) : Prop where
  subscribed : ∀ id, id ∈ s.memory.observers ↔ StillSubscribed calls id
  ordered : s.memory.observers.Pairwise (· < ·)
  next : s.memory.nextObserver = (calls.count .subscribe).toUInt32
  copies : ∀ id ∈ s.memory.observers, s.copies id = s.memory.bytes

variable {calls : List MemoryCall} {c : MemoryCall} {s : Watched}

theorem Mirrors.nodup (h : s.Mirrors calls) : s.memory.observers.Nodup :=
  h.ordered.imp fun less same => by
    subst same
    exact absurd less (UInt32.lt_irrefl _)

theorem Mirrors.writes (h : s.Mirrors calls) {a : Nat} {bs : List Byte}
    (writes : c.Writes s.memory a bs) : (s.call c).Mirrors (calls ++ [c]) := by
  have memory : (s.call c).memory = s.memory.commit a bs := Memory.after_of_writes writes
  have neither : c ≠ .subscribe ∧ ∀ id, c ≠ .unsubscribe id := by
    constructor
    · rintro rfl
      cases writes.1
    · rintro id rfl
      cases writes.1
  refine ⟨fun id => ?_, ?_, ?_, fun id mem => ?_⟩
  · rw [memory, Memory.observers_commit, h.subscribed, StillSubscribed.snoc]
    simp [neither]
  · rw [memory, Memory.observers_commit]
    exact h.ordered
  · rw [memory, Memory.nextObserver_commit, h.next, List.count_append]
    simp [neither]
  -- Each subscriber hears of every write once, and keeps its copy by it.
  · have copies : (s.call c).copies = (s.memory.told c).foldl hear s.copies := by
      rw [call, if_neg neither.1]
    rw [memory, Memory.observers_commit] at mem
    rw [memory, Memory.bytes_commit, copies, Memory.told_of_writes writes, foldl_hear h.nodup,
      if_pos mem, h.copies id mem]

theorem Mirrors.subscribe (h : s.Mirrors calls) (few : calls.count .subscribe < UInt32.size) :
    (s.call .subscribe).Mirrors (calls ++ [.subscribe]) := by
  have silent : s.memory.told .subscribe = [] :=
    Memory.told_of_not_writes fun a bs writes => by cases writes.1
  have memory : (s.call .subscribe).memory = s.memory.subscribe.2 := rfl
  have observers : s.memory.subscribe.2.observers = s.memory.observers ++ [s.memory.nextObserver] :=
    rfl
  have number : s.memory.nextObserver.toNat = calls.count .subscribe := by
    rw [h.next, Nat.toUInt32, UInt32.toNat_ofNat_of_lt' few]
  -- The new number is greater than all others, so that no other copy is touched.
  have newest : ∀ id ∈ s.memory.observers, id < s.memory.nextObserver := fun id mem => by
    rw [UInt32.lt_iff_toNat_lt, number]
    exact ((h.subscribed id).mp mem).toNat_lt few
  refine ⟨fun id => ?_, ?_, ?_, fun id mem => ?_⟩
  · rw [memory, observers, List.mem_append, List.mem_singleton, h.subscribed, h.next,
      StillSubscribed.snoc]
    simp
  · rw [memory, observers, List.pairwise_append]
    exact ⟨h.ordered, List.pairwise_singleton _ _, fun id mem k last =>
      List.mem_singleton.mp last ▸ newest id mem⟩
  · change s.memory.nextObserver + 1 = _
    rw [h.next, List.count_append]
    simp [Nat.toUInt32]
  · have copies : (s.call .subscribe).copies =
        Function.update s.copies s.memory.nextObserver s.memory.bytes := by
      rw [call, silent]
      rfl
    rw [copies]
    rw [memory, observers, List.mem_append, List.mem_singleton] at mem
    rcases mem with old | rfl
    · rw [Function.update_of_ne fun same => ?_, h.copies id old]
      · rfl
      · exact absurd (same ▸ newest id old) (UInt32.lt_irrefl _)
    · rw [Function.update_self]
      rfl

theorem Mirrors.unsubscribe (h : s.Mirrors calls) (k : UInt32) :
    (s.call (.unsubscribe k)).Mirrors (calls ++ [.unsubscribe k]) := by
  have silent : s.memory.told (.unsubscribe k) = [] :=
    Memory.told_of_not_writes fun a bs writes => by cases writes.1
  have copies : (s.call (.unsubscribe k)).copies = s.copies := by
    rw [call, silent]
    rfl
  have observers : (s.call (.unsubscribe k)).memory.observers
      = s.memory.observers.filter (· != k) :=
    rfl
  refine ⟨fun id => ?_, ?_, ?_, fun id mem => ?_⟩
  · rw [observers, List.mem_filter, h.subscribed, StillSubscribed.snoc]
    simp only [bne_iff_ne, ne_eq, MemoryCall.unsubscribe.injEq, reduceCtorEq, false_and, or_false]
    exact and_congr_right fun _ => not_congr eq_comm
  · rw [observers]
    exact h.ordered.filter _
  · change s.memory.nextObserver = _
    rw [h.next, List.count_append]
    simp
  · rw [observers] at mem
    rw [copies]
    exact h.copies id (List.mem_filter.mp mem).1

/-- One call keeps the copies true. -/
theorem Mirrors.call (h : s.Mirrors calls) (few : calls.count .subscribe < UInt32.size)
    (c : MemoryCall) : (s.call c).Mirrors (calls ++ [c]) := by
  have made := s.memory.makes_after c
  generalize memory : s.memory.after c = m at made
  cases made with
  | written writes => exact h.writes writes
  | joined joins => exact joins ▸ h.subscribe few
  | left leaves => exact leaves ▸ h.unsubscribe _
  | idle quiet old kept =>
      have stays : s.call c = s := by
        rw [Watched.call, Memory.told_of_not_writes quiet, memory, if_neg old]
        rfl
      rw [stays]
      refine ⟨fun id => ?_, h.ordered, ?_, h.copies⟩
      · rw [h.subscribed, StillSubscribed.snoc]
        simp [old, kept]
      · rw [h.next, List.count_append]
        simp [old]

theorem mirrors_run (image : Array Byte) {calls : List MemoryCall}
    (few : calls.count .subscribe < UInt32.size) : (run image calls).Mirrors calls := by
  induction calls using List.reverseRecOn with
  | nil =>
      refine ⟨fun id => ?_, .nil, rfl, fun id mem => by cases mem⟩
      simp [run, Memory.ofBytes, StillSubscribed]
  | append_singleton calls c ih =>
      rw [List.count_append] at few
      rw [run_snoc]
      exact (ih (by omega)).call (by omega) c

/-- What a call reports to the observers, by the copies that they hold. -/
structure Reports (s : Watched) (c : MemoryCall) : Prop where
  /-- Reports are added to those made before. -/
  added : (s.call c).memory.notices.toList = s.memory.notices.toList ++ s.memory.told c
  /-- A write is reported once to every observer, the oldest first, with what stands in its copy
  and with what is written. -/
  once : ∀ a bs, c.Writes s.memory a bs → s.memory.told c =
    s.memory.observers.map fun id => (id, ⟨a, ((s.copies id).extract a (a + bs.length)).toList, bs⟩)
  /-- Nothing else is reported. -/
  silent : (∀ a bs, ¬c.Writes s.memory a bs) → s.memory.told c = []
  /-- A write succeeds if its bytes fit; one of no bytes always does. -/
  succeeds : ∀ a bs, c.written? = some (a, bs) →
    ((∃ m', c.run s.memory = .ok m') ↔ bs = [] ∨ a + bs.length ≤ s.memory.size)
  /-- A call that fails changes nothing. -/
  failed : ∀ e, c.run s.memory = .error e → s.call c = s

theorem Mirrors.reports (h : s.Mirrors calls) (c : MemoryCall) : s.Reports c where
  added := (s.memory.toList_notices_after c).1
  once a bs writes := by
    rw [Memory.told_of_writes writes]
    exact List.map_congr_left fun id mem => by rw [h.copies id mem]
  silent := Memory.told_of_not_writes
  succeeds a bs := MemoryCall.succeeds_iff
  failed e fails := by
    obtain ⟨quiet, old, -⟩ := MemoryCall.idle_of_error fails
    rw [Watched.call, Memory.told_of_not_writes quiet, if_neg old, Memory.after, fails]
    rfl

/-- Reports are enough to mirror memory: after any calls the observers are those still subscribed
and hold what memory holds, and the next call is reported to them by their copies. -/
theorem reports_suffice (image : Array Byte) (calls : List MemoryCall)
    (few : calls.count .subscribe < UInt32.size) :
    (run image calls).Mirrors calls ∧ ∀ c, (run image calls).Reports c :=
  have mirrors := mirrors_run image few
  ⟨mirrors, mirrors.reports⟩

/-- Two observers, of which the first leaves, and a write that does not fit. -/
def comingAndGoing : List MemoryCall :=
  [.subscribe, .writeWord 1 0x0506, .subscribe, .writeByte 4 0, .unsubscribe 0,
    .writeBytes 0 [7, 8]]

theorem reports_suffice_comingAndGoing :
    comingAndGoing.count .subscribe < UInt32.size ∧
      (run #[1, 2, 3, 4] comingAndGoing).Mirrors comingAndGoing ∧
      (∀ c, (run #[1, 2, 3, 4] comingAndGoing).Reports c) ∧
      (run #[1, 2, 3, 4] comingAndGoing).memory.observers = [1] ∧
      (run #[1, 2, 3, 4] comingAndGoing).copies 0 = #[1, 5, 6, 4] ∧
      (run #[1, 2, 3, 4] comingAndGoing).copies 1 = #[7, 8, 6, 4] ∧
      (run #[1, 2, 3, 4] comingAndGoing).memory.notices
        = #[(0, ⟨1, [2, 3], [5, 6]⟩), (1, ⟨0, [1, 5], [7, 8]⟩)] := by
  obtain ⟨mirrors, reports⟩ := reports_suffice #[1, 2, 3, 4] comingAndGoing (by decide)
  exact ⟨by decide, mirrors, reports, by decide, by decide, by decide, by decide⟩

end Watched

end ZMachine
