/-
  Decoding through a cache while the image changes.

  Whoever writes to the image has to tell the cache of the bytes that were
  written, unless all of them lie below the floor.  Instructions overlap each
  other at will, and a write may hit any part of one.  As long as every write
  is told before the next instruction is asked for, the cache answers as if it
  kept nothing.
-/
import ZMachine.Proofs.Coherence

namespace ZMachine

/-- A run of bytes that was written. -/
structure Span where
  start : Nat
  len : Nat
deriving DecidableEq, Repr

namespace Span

/-- Address after the last byte. -/
def stop (w : Span) : Nat := w.start + w.len

/-- Whether bytes of an instruction were written. -/
def Hits (w : Span) (i : Instruction) : Prop := i.address < w.stop ∧ w.start < i.next

instance (w : Span) (i : Instruction) : Decidable (w.Hits i) := inferInstanceAs (Decidable (_ ∧ _))

/-- A write that hits no byte of an instruction leaves it what it was. -/
theorem decode_of_not_hits {m m' : Memory} {version a : Nat} {bs : List Byte} {i : Instruction}
    (decoded : ZMachine.decode m version a = .ok i) {x : Nat} (written : m.writeBytes x bs = .ok m')
    (missed : ¬(Span.mk x bs.length).Hits i) : ZMachine.decode m' version a = .ok i := by
  obtain ⟨address, -, inside, -⟩ := decode_spec decoded
  simp only [Hits, stop, address] at missed
  unfold Memory.writeBytes at written
  split at written
  · cases written
    exact decoded
  · split at written
    · cases written
      refine decode_congr decoded (by rwa [Memory.size_commit]) fun y low high => ?_
      exact Memory.byteAt_commit_of_outside _ (by omega)
    · cases written

end Span

namespace DecodeCache

/-- An image and a cache after any number of questions to the cache, writes to the image, and orders
to drop what was kept.  `due` holds the writes of which the cache was not told yet; nothing is asked
while there are any.  Writes that end at or below the floor need not be told. -/
inductive Tended (version floor : Nat) : Memory → DecodeCache → List Span → Prop where
  | fresh (m : Memory) : Tended version floor m { version, floor } []
  /-- Addresses are numbers of 32 bits, and the end of the instruction that is read is one
  of them. -/
  | decode {m : Memory} {c : DecodeCache} (before : Tended version floor m c []) (a : Nat)
      (ends : ∀ i, ZMachine.decode m version a = .ok i → i.next ≤ lastAddress) :
      Tended version floor m (c.decode m a).2 []
  | write {m m' : Memory} {c : DecodeCache} {due : List Span}
      (before : Tended version floor m c due)
      (a : Nat) (bs : List Byte) (written : m.writeBytes a bs = .ok m') :
      Tended version floor m' c
        (if floor < a + bs.length then ⟨a, bs.length⟩ :: due else due)
  | invalidate {m : Memory} {c : DecodeCache} {due : List Span}
      (before : Tended version floor m c due) (a len : Nat) :
      Tended version floor m (c.invalidate a len) (due.filter (· ≠ ⟨a, len⟩))
  | clear {m : Memory} {c : DecodeCache} {due : List Span} (before : Tended version floor m c due) :
      Tended version floor m c.clear due

/-- A kept instruction is what the image holds, or a write that is due has hit it. -/
structure Vouched (version floor : Nat) (m : Memory) (due : List Span) (a : Nat) (i : Instruction) :
    Prop where
  address : i.address = a
  above : floor ≤ a
  positive : a < i.next
  ends : i.next ≤ lastAddress
  holds : ZMachine.decode m version a = .ok i ∨ ∃ w ∈ due, w.Hits i

namespace Vouched

variable {version floor : Nat} {m : Memory} {due : List Span} {a : Nat} {i : Instruction}

/-- An instruction that was just decoded. -/
theorem of_decoded (above : floor ≤ a) (decoded : ZMachine.decode m version a = .ok i)
    (ends : i.next ≤ lastAddress) : Vouched version floor m due a i := by
  obtain ⟨address, positive, -⟩ := decode_spec decoded
  exact ⟨address, above, positive, ends, .inl decoded⟩

/-- A write is due if it hits an instruction that is kept: it ends above the floor then. -/
theorem write (h : Vouched version floor m due a i) {m' : Memory} {x : Nat} {bs : List Byte}
    (written : m.writeBytes x bs = .ok m') :
    Vouched version floor m'
      (if floor < x + bs.length then ⟨x, bs.length⟩ :: due else due) a i := by
  refine { h with holds := ?_ }
  by_cases hits : (Span.mk x bs.length).Hits i
  · have high : floor < x + bs.length := by
      have low := h.above
      have first := h.address ▸ hits.1
      simp only [Span.stop] at first
      omega
    rw [if_pos high]
    exact .inr ⟨_, List.mem_cons_self, hits⟩
  · rcases h.holds with decoded | ⟨w, late, hit⟩
    · exact .inl (Span.decode_of_not_hits decoded written hits)
    · refine .inr ⟨w, ?_, hit⟩
      split
      · exact List.mem_cons_of_mem _ late
      · exact late

/-- What stays after an order to drop was not hit by the write that it is about. -/
theorem invalidate (h : Vouched version floor m due a i) {x len : Nat}
    (stays : min (x + len) lastAddress ≤ a ∨ i.next ≤ x) :
    Vouched version floor m (due.filter (· ≠ ⟨x, len⟩)) a i := by
  refine { h with holds := h.holds.imp_right ?_ }
  rintro ⟨w, late, hit⟩
  refine ⟨w, List.mem_filter.mpr ⟨late, decide_eq_true ?_⟩, hit⟩
  rintro rfl
  obtain ⟨first, last⟩ := hit
  rw [h.address] at first
  simp only [Span.stop] at first last
  -- Ranges are cut at the last address; no instruction starts there.
  have positive := h.positive
  have ends := h.ends
  omega

end Vouched

namespace Tended

variable {version floor : Nat} {m : Memory} {c : DecodeCache} {due : List Span}

theorem version_eq (h : Tended version floor m c due) : c.version = version ∧ c.floor = floor := by
  induction h with
  | fresh => exact ⟨rfl, rfl⟩
  | decode _ a _ ih =>
      obtain ⟨same, same'⟩ := version_decode (Prod.eta _).symm
      exact ⟨same.trans ih.1, same'.trans ih.2⟩
  | write _ _ _ _ ih => exact ih
  | invalidate _ _ _ ih => exact ih
  | clear _ ih => exact ih

/-- Every kept instruction is vouched for, whatever the order of questions, writes and drops. -/
theorem vouched (h : Tended version floor m c due) (a : Nat) (i : Instruction)
    (kept : c.kept[a]? = some i) : Vouched version floor m due a i := by
  induction h generalizing a i with
  | fresh => simp at kept
  | @decode m c before x ends ih =>
      obtain ⟨same, same'⟩ := before.version_eq
      rcases kept_decode (Prod.eta _).symm kept with old | ⟨rfl, above, decoded⟩
      · exact ih a i old
      · rw [same] at decoded
        exact .of_decoded (same' ▸ above) decoded (ends i decoded)
  | write _ x bs written ih => exact (ih a i kept).write written
  | invalidate _ x len ih =>
      obtain ⟨old, stays⟩ := kept_invalidate kept
      exact (ih a i old).invalidate stays
  | clear => simp [DecodeCache.clear] at kept

theorem coherent (h : Tended version floor m c []) : c.Coherent m := by
  intro a i kept
  rw [h.version_eq.1]
  rcases (h.vouched a i kept).holds with decoded | ⟨w, late, -⟩
  · exact decoded
  · cases late

end Tended

/-- A cache that was told of every write answers as if it kept nothing. -/
theorem decode_memoised {version floor : Nat} {m : Memory} {c : DecodeCache}
    (tended : Tended version floor m c []) (a : Nat) :
    (c.decode m a).1 = ZMachine.decode m version a := by
  rw [tended.coherent.decode, tended.version_eq.1]

/-- An image with `add 1 2` into the stack at 64; from 66 on its last bytes read `nop`. -/
def addsAtStart : Memory :=
  .ofBytes (overwrite (Array.replicate 72 0) 64 [0x14, 1, 0xb4, 0, 0xb0])

/-- The image with the last operand changed, which both instructions hold. -/
def addsRewritten : Memory := addsAtStart.commit 66 [0xb1]

/-- The cache after both instructions were asked for, and the cache was told of the write. -/
def tendedCache : DecodeCache :=
  let c : DecodeCache := { version := 5, floor := 64 }
  (((c.decode addsAtStart 64).2.decode addsAtStart 66).2).invalidate 66 1

theorem decode_memoised_overlap :
    Tended 5 64 addsRewritten tendedCache [] ∧
      (tendedCache.decode addsRewritten 64).1 = ZMachine.decode addsRewritten 5 64 ∧
      ZMachine.decode addsRewritten 5 64 ≠ ZMachine.decode addsAtStart 5 64 := by
  have near (a : Nat) (i : Instruction) (h : ZMachine.decode addsAtStart 5 a = .ok i) :
      i.next ≤ lastAddress := by
    obtain ⟨-, -, inside, -⟩ := decode_spec h
    exact Nat.le_trans inside (by decide)
  have asked : Tended 5 64 addsAtStart _ [] :=
    ((Tended.fresh addsAtStart).decode 64 (near 64)).decode 66 (near 66)
  have tended : Tended 5 64 addsRewritten tendedCache [] :=
    (asked.write 66 [0xb1] (by rfl)).invalidate 66 1
  refine ⟨tended, decode_memoised tended 64, ?_⟩
  have differ : (ZMachine.decode addsRewritten 5 64).toOption
      ≠ (ZMachine.decode addsAtStart 5 64).toOption := by decide +kernel
  exact fun same => differ (congrArg Except.toOption same)

end DecodeCache

end ZMachine
