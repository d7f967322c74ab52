/-
  Printing in one go and in parts.

  Printing two texts one after the other leaves the same bytes, the same
  streams and the same host as printing both at once.
-/
import ZMachine.Proofs.Lockstep
import ZMachine.Proofs.Observation

namespace ZMachine

namespace OutputStreams

/-- Both fail with the same fault. -/
abbrev SameFault {σ τ : Type} (e : Fault) (_ : σ) (e' : Fault) (_ : τ) : Prop := e = e'

/-- Images that differ at most in the count of a table. -/
structure SameButCount (table : Nat) (m n : Memory) : Prop where
  size : n.size = m.size
  bytes : ∀ x, x < table ∨ table + 2 ≤ x → n.byteAt x = m.byteAt x

theorem lockstep_writeByte (table a : Nat) (b : Byte) :
    Lockstep (SameButCount table) SameFault Eq (MemoryM.writeByte a b) (MemoryM.writeByte a b) := by
  intro m n same
  unfold MemoryM.writeByte MemoryM.writeBytes
  have fits : n.fits a [b].length = m.fits a [b].length := by
    rw [Memory.fits, Memory.fits, same.size]
  rw [fits, same.size]
  split
  · exact .ok ⟨rfl, same⟩
  · split
    · rename_i inside
      have inside : a + [b].length ≤ m.size := by simpa [Memory.fits] using inside
      have inside' : a + [b].length ≤ n.size := same.size ▸ inside
      refine .ok ⟨rfl, by rw [Memory.size_commit, Memory.size_commit, same.size], fun x hx => ?_⟩
      by_cases here : a ≤ x ∧ x < a + [b].length
      · rw [m.byteAt_commit_of_inside here.1 here.2 inside,
          n.byteAt_commit_of_inside here.1 here.2 inside']
      · have there : x < a ∨ a + [b].length ≤ x := by omega
        rw [m.byteAt_commit_of_outside there, n.byteAt_commit_of_outside there]
        exact same.bytes x hx
    · exact .error rfl

theorem lockstep_appendCodes (table : Nat) (count : Word) (codes : List Byte) :
    Lockstep (SameButCount table) SameFault Eq (appendCodes table count codes)
      (appendCodes table count codes) := by
  induction codes generalizing count with
  | nil => exact .pure rfl
  | cons b bs ih => exact (lockstep_writeByte table _ b).bind fun _ _ _ => ih _

theorem appendCodes_append (table : Nat) (count : Word) (bs cs : List Byte) :
    appendCodes table count (bs ++ cs) =
      (appendCodes table count bs >>= fun count => appendCodes table count cs) := by
  induction bs generalizing count with
  | nil => rfl
  | cons b bs ih =>
      rw [List.cons_append, appendCodes, appendCodes, bind_assoc]
      congr 1
      funext _
      exact ih _

/-- Once the count is written, nothing tells the images apart. -/
theorem SameButCount.plain_commit {table : Nat} {m n : Memory} (same : SameButCount table m n)
    (w : Word) (fits : table + 2 ≤ m.size) :
    (m.commit table (Word.bytes w)).plain = (n.commit table (Word.bytes w)).plain := by
  have length : (Word.bytes w).length = 2 := rfl
  have fits' : table + 2 ≤ n.size := same.size ▸ fits
  unfold Memory.plain
  congr 1
  refine Memory.bytes_ext (by rw [Memory.size_commit, Memory.size_commit, same.size]) fun x => ?_
  by_cases here : table ≤ x ∧ x < table + (Word.bytes w).length
  · rw [m.byteAt_commit_of_inside here.1 here.2 (by omega),
      n.byteAt_commit_of_inside here.1 here.2 (by omega)]
  · have there : x < table ∨ table + (Word.bytes w).length ≤ x := by omega
    rw [m.byteAt_commit_of_outside there, n.byteAt_commit_of_outside there]
    exact (same.bytes x there).symm

theorem run_readWord (m : Memory) (a : Nat) :
    MemoryM.readWord a m =
      if a + 2 ≤ m.size then .ok (m.wordAt a) m
      else .error (.image (.outOfRange a 2 m.size)) m := by
  unfold MemoryM.readWord MemoryM.query Memory.readWord Memory.check
  by_cases fits : a + 2 ≤ m.size
  · simp only [fits, if_true]
    rfl
  · simp only [fits, if_false]
    rfl

/-- A count that was just written is read again. -/
theorem run_recount {table : Nat} {n : Memory} (w : Word) (fits : table + 2 ≤ n.size) :
    (MemoryM.writeWord table w >>= fun _ => MemoryM.readWord table) n
      = .ok w (n.commit table (Word.bytes w)) := by
  have again : table + 2 ≤ (n.commit table (Word.bytes w)).size := by rwa [Memory.size_commit]
  simp only [Bind.bind, EStateM.bind, MemoryM.run_writeWord w fits, run_readWord, again, if_true,
    n.wordAt_commit w fits]

/-- Text goes to a table in parts as in one go. -/
theorem writeToTable_append (t : TextTables) (table : Nat) (x y : List Char) (m : Memory) :
    Joint (fun _ m _ n => m.plain = n.plain) SameFault
      ((writeToTable t table x >>= fun _ => writeToTable t table y) m)
      (writeToTable t table (x ++ y) m) := by
  unfold writeToTable
  simp only [bind_assoc, List.map_append, appendCodes_append]
  by_cases fits : table + 2 ≤ m.size
  · refine Lockstep.bind_at (V := fun c n c' n' => c = c' ∧ n = m ∧ n' = m) ?_ ?_
    · rw [run_readWord, if_pos fits]
      exact .ok ⟨rfl, rfl, rfl⟩
    rintro count m₁ _ m₂ ⟨rfl, same₁, same₂⟩
    rw [same₁, same₂]
    have size := (tame_appendCodes table count (x.map (tableCode t))).size m
    refine Lockstep.bind_at (V := fun c n c' n' => c = c' ∧ n = n' ∧ n.size = m.size) ?_ ?_
    · cases h : appendCodes table count (x.map (tableCode t)) m with
      | ok c n => rw [h] at size; exact .ok ⟨rfl, rfl, size⟩
      | error e n => exact .error rfl
    rintro first n _ _ ⟨rfl, rfl, same⟩
    have fits : table + 2 ≤ n.size := same ▸ fits
    -- The count of the first text is written, and read again for the second.
    have between : SameButCount table n (n.commit table (Word.bytes first)) :=
      ⟨Memory.size_commit _ _ _, fun x hx => n.byteAt_commit_of_outside hx⟩
    have counted := run_recount first fits
    rw [← bind_assoc]
    simp only [Bind.bind, EStateM.bind] at counted ⊢
    rw [counted]
    dsimp only
    -- From here on the images differ in the count alone, until it is written at the end.
    have rest := lockstep_appendCodes table first (y.map (tableCode t)) _ _ between
    have grown := (tame_appendCodes table first (y.map (tableCode t))).size n
    cases h : appendCodes table first (y.map (tableCode t)) n with
    | error e u =>
        rw [h] at rest
        generalize appendCodes table first (y.map (tableCode t)) _ = r at rest ⊢
        cases rest with
        | error h => exact .error h.symm
    | ok c u =>
        rw [h] at rest grown
        generalize appendCodes table first (y.map (tableCode t)) _ = r at rest ⊢
        cases rest with
        | ok h =>
            obtain ⟨rfl, same⟩ := h
            have fits' : table + 2 ≤ u.size := by
              have grown : u.size = n.size := grown
              rwa [grown]
            dsimp only
            rw [MemoryM.run_writeWord _ fits', MemoryM.run_writeWord _ (same.size ▸ fits')]
            exact .ok (same.plain_commit _ fits').symm
  · simp only [Bind.bind, EStateM.bind, run_readWord, fits, if_false]
    exact .error rfl

end OutputStreams

/-- A host that looks for no text is shown text in parts as in one go. -/
theorem Host.deliver_append {h : Host} (calm : h.Calm) (d : Delivery) (x y : String) :
    (h.deliver d x).deliver d y = h.deliver d (x ++ y) := by
  obtain ⟨quiet, -⟩ := calm
  cases hs : d.screen <;> cases ht : d.transcript <;> cases hc : h.console <;>
    simp [deliver, print, copyToTranscript, quiet, hs, ht, hc, String.append_assoc]

namespace Machine

theorem run_print (text : String) (s : Machine) :
    print text s =
      match s.streams.write s.text text s.memory with
      | .ok d m => .ok () { s with memory := m, host := s.host.deliver d text }
      | .error e m => .error e { s with memory := m } := by
  simp only [print, Bind.bind, EStateM.bind, run_get,
    run_inMemory]
  cases s.streams.write s.text text s.memory <;> rfl

theorem run_print_empty (s : Machine) : print "" s = .ok () s := by
  rw [run_print]
  rfl

theorem write_outside {o : OutputStreams} (h : o.tables = []) (t : TextTables) {text : String}
    (nonempty : text ≠ "") (m : Memory) :
    o.write t text m =
      match OutputStreams.transcriptOn m with
      | .ok on => .ok ⟨o.screen, on⟩ m
      | .error e => .error (.image e) m := by
  unfold OutputStreams.write
  rw [String.isEmpty_eq_false_iff.mpr nonempty, h]
  simp only [Bool.false_eq_true, if_false, Bind.bind, EStateM.bind, MemoryM.query, liftM, monadLift,
    MonadLift.monadLift]
  cases OutputStreams.transcriptOn m <;> rfl

theorem write_inside {o : OutputStreams} {table : Nat} {rest : List Nat}
    (h : o.tables = table :: rest) (t : TextTables) {text : String} (nonempty : text ≠ "")
    (m : Memory) :
    o.write t text m =
      match OutputStreams.writeToTable t table text.toList m with
      | .ok _ m => .ok ⟨false, false⟩ m
      | .error e m => .error e m := by
  unfold OutputStreams.write
  rw [String.isEmpty_eq_false_iff.mpr nonempty, h]
  simp only [Bool.false_eq_true, if_false, Bind.bind, EStateM.bind]
  cases OutputStreams.writeToTable t table text.toList m <;> rfl

/-- Printing in parts leaves what printing in one go leaves. -/
theorem print_append {s : Machine} (calm : s.host.Calm) (x : String) {y : String}
    (nonempty : y ≠ "") :
    Joint (fun _ s _ t => s.bare = t.bare) OutputStreams.SameFault
      ((print x >>= fun _ => print y) s) (print (x ++ y) s) := by
  simp only [Bind.bind, EStateM.bind]
  by_cases empty : x = ""
  · subst empty
    rw [run_print_empty, String.empty_append]
    dsimp only
    cases print y s with
    | ok _ t => exact .ok rfl
    | error e t => exact .error rfl
  have both : x ++ y ≠ "" := fun h => empty (String.append_eq_empty_iff.mp h).1
  rw [run_print, run_print]
  -- Where no table is open the host takes the text; else the innermost table does.
  cases tables : s.streams.tables with
  | nil =>
      rw [write_outside tables _ empty, write_outside tables _ both]
      cases on : OutputStreams.transcriptOn s.memory with
      | error e => exact .error rfl
      | ok _ =>
          dsimp only
          rw [run_print, write_outside tables _ nonempty, on]
          dsimp only
          rw [Host.deliver_append calm]
          exact .ok rfl
  | cons table rest =>
      have parts := OutputStreams.writeToTable_append s.text table x.toList y.toList s.memory
      rw [write_inside tables _ empty, write_inside tables _ both, String.toList_append]
      simp only [Bind.bind, EStateM.bind] at parts
      generalize OutputStreams.writeToTable s.text table (x.toList ++ y.toList) s.memory = whole
        at parts ⊢
      cases first : OutputStreams.writeToTable s.text table x.toList s.memory with
      | error e m =>
          rw [first] at parts
          cases parts with
          | error h => exact .error h
      | ok _ m =>
          rw [first] at parts
          dsimp only at parts ⊢
          rw [run_print, write_inside tables _ nonempty]
          generalize OutputStreams.writeToTable s.text table y.toList m = second at parts ⊢
          cases parts with
          | error h => exact .error h
          | ok h =>
              refine .ok ?_
              simp only [bare, h]
              rfl

end Machine

end ZMachine
