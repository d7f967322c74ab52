/-
  Reading a container within its bounds.

  How long a form is, how long each chunk is and how many entries an index
  has, is told by the bytes themselves, whoever wrote them.  Reading is said
  here once more with every slice and every index guarded: one that is out of
  range is a failure of its own.  On no bytes does this failure occur, and
  apart from it both readings are the same.  The chunks of a container that
  was read lie one behind the other within the declared form.
-/
import ZMachine.Container

namespace ZMachine

open Container (form ifrs resourceIndex releaseNumber storyIdentity storyCode executable)

/-- How a guarded reading fails. -/
inductive GuardedError where
  /-- Places that the bytes, or the list, do not have. -/
  | outOfRange (start stop size : Nat)
  | refused (e : ContainerError)

/-- Reading in which nothing is taken from outside. -/
abbrev Guarded := Except GuardedError

namespace Guarded

/-! ## Guarded reading -/

/-- Give up for a reason that concerns the container. -/
def refuse {α : Type} (e : ContainerError) : Guarded α := .error (.refused e)

/-- A reading without guards, among those with guards. -/
def ofPlain {α : Type} (x : Except ContainerError α) : Guarded α := x.mapError .refused

/-- The bytes from `start` up to `stop`. -/
def slice (bytes : Array Byte) (start stop : Nat) : Guarded (Array Byte) :=
  if start ≤ stop ∧ stop ≤ bytes.size then .ok (bytes.extract start stop)
  else .error (.outOfRange start stop bytes.size)

/-- The byte at a place. -/
def byte (bytes : Array Byte) (i : Nat) : Guarded Byte :=
  match bytes[i]? with
  | some b => .ok b
  | none => .error (.outOfRange i (i + 1) bytes.size)

/-- The word of the first two bytes. -/
def word (bytes : Array Byte) : Guarded Word := do
  return .ofBytes (← byte bytes 0) (← byte bytes 1)

/-- The 32-bit value of the first four bytes. -/
def dword (bytes : Array Byte) : Guarded UInt32 := do
  return dwordOfBytes (← byte bytes 0) (← byte bytes 1) (← byte bytes 2) (← byte bytes 3)

/-- The chunks from `offset` up to `stop`. -/
def chunksFrom (bytes : Array Byte) (stop offset : Nat) : Guarded (List Chunk) :=
  if _h : offset + 8 ≤ stop then do
    let tag ← slice bytes offset (offset + 4)
    let len := (← dword (← slice bytes (offset + 4) (offset + 8))).toNat
    let dataEnd := offset + 8 + len
    if dataEnd ≤ stop then do
      let chunks ← chunksFrom bytes stop (dataEnd + len % 2)
      return ⟨tag.toList, offset, offset + 8, dataEnd⟩ :: chunks
    else refuse (.chunkOverrun tag.toList offset)
  else .ok []
termination_by stop - offset
decreasing_by omega

variable (c : Container)

/-- The data of a chunk. -/
def data (k : Chunk) : Guarded (Array Byte) := slice c.bytes k.start k.stop

/-- The data of the first chunk with a tag. -/
def chunk? (tag : Tag) : Guarded (Option (Array Byte)) :=
  match c.find? tag with
  | some k => some <$> data c k
  | none => .ok none

/-- One entry of the resource index. -/
def readResource (entry : Array Byte) : Guarded Resource := do
  let usage ← slice entry 0 4
  let offset := (← dword (← slice entry 8 12)).toNat
  match c.chunks.findIdx? fun k => k.offset == offset with
  | some chunk =>
      let number ← dword (← slice entry 4 8)
      return { usage := usage.toList, number, chunk }
  | none => refuse (.unresolvedResource offset)

/-- The resource index; empty if there is none. -/
def readIndex : Guarded (List Resource) := do
  match ← chunk? c resourceIndex with
  | none => return []
  | some index =>
      if index.size < 4 then refuse (.shortChunk resourceIndex index.size)
      else
        let count := (← dword (← slice index 0 4)).toNat
        if index.size < count * 12 + 4 then refuse (.shortChunk resourceIndex index.size)
        else
          let entries ← slice index 4 (count * 12 + 4)
          (List.range count).mapM fun i => do
            readResource c (← slice entries (i * 12) (i * 12 + 12))

/-- The release number, if a chunk gives it; 0 if that chunk is too short. -/
def readRelease : Guarded (Option Word) := do
  match ← chunk? c releaseNumber with
  | none => return none
  | some release => if 2 ≤ release.size then some <$> word release else return some 0

/-- The identity of the story, if a chunk gives it. -/
def readIdentity : Guarded (Option StoryIdentity) := do
  match ← chunk? c storyIdentity with
  | none => return none
  | some identity =>
      if identity.size < 10 then refuse (.shortChunk storyIdentity identity.size)
      else
        let release ← word (← slice identity 0 2)
        let serial ← slice identity 2 8
        let checksum ← word (← slice identity 8 10)
        return some { release, serial := serial.toList, checksum }

/-- The parts of a container that are read from its chunks. -/
def readParts : Guarded Container := do
  let resources ← readIndex c
  let release ← readRelease c
  let identity ← readIdentity c
  return { c with resources, release, identity }

/-- Read a container. -/
def parse (bytes : Array Byte) : Guarded Container :=
  if bytes.size < 12 then refuse .notAForm
  else do
    if (← slice bytes 0 4).toList ≠ form then refuse .notAForm
    else
      let type := (← slice bytes 8 12).toList
      if type ≠ ifrs then refuse (.notResourceFile type)
      else
        let stop := (← dword (← slice bytes 4 8)).toNat + 8
        if bytes.size < stop then refuse (.chunkOverrun form 0)
        else
          let chunks ← chunksFrom bytes stop 12
          readParts { bytes, chunks }

/-- The chunk at a position of the list. -/
def chunkAt (i : Nat) : Guarded Chunk :=
  match c.chunks[i]? with
  | some k => .ok k
  | none => .error (.outOfRange i (i + 1) c.chunks.length)

/-- The data of the first chunk of story code. -/
def firstCode : Guarded (List Byte) := do
  match ← chunk? c storyCode with
  | some code => return code.toList
  | none => refuse (.missingChunk storyCode)

/-- The story image. -/
def story : Guarded (List Byte) :=
  match c.resources.find? fun r => r.usage == executable with
  | some r => do
      let k ← chunkAt c r.chunk
      if k.tag = storyCode then Array.toList <$> data c k else firstCode c
  | none => firstCode c

/-- Whether bytes begin like a container. -/
def isContainer (bytes : Array Byte) : Guarded Bool :=
  if 4 ≤ bytes.size then do return (← slice bytes 0 4).toList == form
  else .ok false

/-- The story image in a file. -/
def loadStory (bytes : Array Byte) : Guarded (Array Byte) := do
  if ← isContainer bytes then
    let c ← parse bytes
    List.toArray <$> story c
  else return bytes

/-! ## Guards that hold -/

variable {bytes : Array Byte} {a b i j : Nat}

theorem slice_eq (ordered : i ≤ j) (fits : j ≤ bytes.size) :
    slice bytes i j = .ok (bytes.extract i j) :=
  if_pos ⟨ordered, fits⟩

theorem size_slice (fits : b ≤ bytes.size) : (bytes.extract a b).size = b - a := by
  rw [Array.size_extract, Nat.min_eq_left fits]

/-- A slice of a slice. -/
theorem slice_extract (bytes : Array Byte) (a b i j : Nat) (ordered : i ≤ j) (within : a + j ≤ b)
    (fits : b ≤ bytes.size) :
    slice (bytes.extract a b) i j = .ok (bytes.extract (a + i) (a + j)) := by
  have size : (bytes.extract a b).size = b - a := size_slice fits
  rw [slice_eq ordered (by omega), Array.extract_extract, Nat.min_eq_left within]

theorem byte_extract (within : a + i < b) (fits : b ≤ bytes.size) :
    byte (bytes.extract a b) i = .ok (bytes.getD (a + i) 0) := by
  have inside : a + i < bytes.size := by omega
  have here : i < (bytes.extract a b).size := by
    rw [size_slice fits]
    omega
  rw [byte, Array.getElem?_eq_getElem here]
  simp [Array.getD, inside]

theorem word_extract (bytes : Array Byte) (a b : Nat) (within : a + 2 ≤ b) (fits : b ≤ bytes.size) :
    word (bytes.extract a b) = .ok (Container.wordAt bytes a) := by
  rw [word, byte_extract (by omega) fits, byte_extract (by omega) fits]
  rfl

theorem dword_extract (bytes : Array Byte) (a b : Nat) (within : a + 4 ≤ b)
    (fits : b ≤ bytes.size) : dword (bytes.extract a b) = .ok (Container.dwordAt bytes a) := by
  rw [dword, byte_extract (by omega) fits, byte_extract (by omega) fits,
    byte_extract (by omega) fits, byte_extract (by omega) fits]
  rfl

/-- The tag and the length of a chunk can be read. -/
theorem chunksFrom_step {stop offset : Nat} (fits : stop ≤ bytes.size) (more : offset + 8 ≤ stop) :
    chunksFrom bytes stop offset =
      let tag := Container.slice bytes offset (offset + 4)
      let dataEnd := offset + 8 + (Container.dwordAt bytes (offset + 4)).toNat
      if dataEnd ≤ stop then do
        let chunks ← chunksFrom bytes stop (Container.nextOffset bytes offset)
        return ⟨tag, offset, offset + 8, dataEnd⟩ :: chunks
      else refuse (.chunkOverrun tag offset) := by
  have length := dword_extract bytes (offset + 4) (offset + 8) (by omega) (by omega)
  rw [chunksFrom, dif_pos more, slice_eq (by omega) (by omega), slice_eq (by omega) (by omega)]
  simp only [Bind.bind, Except.bind, length]
  rfl

/-- The guards on the way over the chunks all hold if the end is inside. -/
theorem chunksFrom_eq {stop : Nat} (fits : stop ≤ bytes.size) (offset : Nat) :
    chunksFrom bytes stop offset = ofPlain (Container.chunksFrom bytes stop offset) := by
  fun_induction Container.chunksFrom bytes stop offset with
  | case1 offset more tag dataEnd inside ih =>
      rw [chunksFrom_step fits more]
      dsimp only
      rw [if_pos inside, ih]
      cases Container.chunksFrom bytes stop (Container.nextOffset bytes offset) <;> rfl
  | case2 offset more tag dataEnd outside =>
      rw [chunksFrom_step fits more]
      dsimp only
      rw [if_neg outside]
      rfl
  | case3 offset done =>
      rw [chunksFrom, dif_neg done]
      rfl

end Guarded

/-! ## Where the chunks lie -/

/-- A chunk of a form that ends at `stop`: its data begins behind its tag and its length, is as long
as the length says, and ends within the form. -/
structure Chunk.Within (bytes : Array Byte) (stop : Nat) (k : Chunk) : Prop where
  tag : k.tag = Container.slice bytes k.offset (k.offset + 4)
  start : k.start = k.offset + 8
  length : k.stop = k.start + (Container.dwordAt bytes (k.offset + 4)).toNat
  inside : k.stop ≤ stop

theorem Chunk.Within.bounds {bytes : Array Byte} {stop : Nat} {k : Chunk} (h : k.Within bytes stop)
    (fits : stop ≤ bytes.size) : k.start ≤ k.stop ∧ k.stop ≤ bytes.size :=
  ⟨h.length ▸ Nat.le_add_right _ _, Nat.le_trans h.inside fits⟩

namespace Container

variable {bytes : Array Byte} {stop offset : Nat}

/-- The chunks lie one behind the other, each within the form. -/
theorem chunksFrom_within {ks : List Chunk} (walked : chunksFrom bytes stop offset = .ok ks) :
    (∀ k ∈ ks, offset ≤ k.offset ∧ k.Within bytes stop) ∧
    ks.Pairwise fun k l => k.stop ≤ l.offset := by
  fun_induction chunksFrom bytes stop offset generalizing ks with
  | case1 offset more tag dataEnd inside =>
      rename_i ih
      cases rest : chunksFrom bytes stop (nextOffset bytes offset) with
      | error e =>
          rw [rest] at walked
          cases walked
      | ok ls =>
          rw [rest] at walked
          cases walked
          obtain ⟨within, apart⟩ := ih rest
          -- What follows begins behind the data and its padding.
          have next : dataEnd ≤ nextOffset bytes offset := Nat.le_add_right _ _
          have behind (l : Chunk) (mem : l ∈ ls) : dataEnd ≤ l.offset :=
            Nat.le_trans next (within l mem).1
          refine ⟨?_, List.pairwise_cons.mpr ⟨behind, apart⟩⟩
          intro k mem
          rcases List.mem_cons.mp mem with rfl | mem
          · exact ⟨Nat.le_refl _, rfl, rfl, rfl, inside⟩
          · have first : offset + 8 ≤ dataEnd := Nat.le_add_right _ _
            have second := behind k mem
            exact ⟨by omega, (within k mem).2⟩
  | case2 => cases walked
  | case3 =>
      cases walked
      exact ⟨nofun, .nil⟩

/-- Where a form ends, as its length says. -/
def formEnd (bytes : Array Byte) : Nat := (dwordAt bytes 4).toNat + 8

/-- The parts of a container that are read from its chunks. -/
def readParts (c : Container) : Except ContainerError Container := do
  let resources ← c.readIndex
  let identity ← c.readIdentity
  return { c with resources, release := c.readRelease, identity }

/-- A container is read in steps, each behind a check. -/
theorem parse_eq (bytes : Array Byte) : parse bytes =
    if bytes.size < 12 then .error .notAForm
    else if slice bytes 0 4 ≠ form then .error .notAForm
    else if slice bytes 8 12 ≠ ifrs then .error (.notResourceFile (slice bytes 8 12))
    else if bytes.size < formEnd bytes then .error (.chunkOverrun form 0)
    else chunksFrom bytes (formEnd bytes) 12 >>= fun chunks => readParts { bytes, chunks } := by
  unfold parse
  by_cases brief : bytes.size < 12
  · rw [if_pos brief]
    exact if_pos (.inl brief)
  · rw [if_neg brief]
    by_cases isForm : slice bytes 0 4 ≠ form
    · rw [if_pos isForm]
      exact if_pos (.inr isForm)
    · rw [if_neg isForm]
      refine (if_neg (not_or.mpr ⟨brief, isForm⟩)).trans ?_
      by_cases isIfrs : slice bytes 8 12 ≠ ifrs
      · rw [if_pos isIfrs, if_pos isIfrs]
        rfl
      · rw [if_neg isIfrs, if_neg isIfrs]
        by_cases short : bytes.size < formEnd bytes
        · rw [if_pos short]
          exact if_pos short
        · rw [if_neg short]
          exact if_neg short

/-- The data of all chunks lies within the bytes. -/
def Bounded (c : Container) : Prop := ∀ k ∈ c.chunks, k.start ≤ k.stop ∧ k.stop ≤ c.bytes.size

theorem bounded_of_chunksFrom (fits : stop ≤ bytes.size) {chunks : List Chunk}
    (walked : chunksFrom bytes stop offset = .ok chunks) : Bounded { bytes, chunks } :=
  fun k mem => ((chunksFrom_within walked).1 k mem).2.bounds fits

end Container

namespace Guarded

/-! ## The parts of a container -/

variable {c : Container} {bytes : Array Byte} {a : Nat}

theorem readResource_eq (fits : a + 12 ≤ c.bytes.size) :
    readResource c (c.bytes.extract a (a + 12)) = ofPlain (c.readResource a) := by
  have usage := slice_extract c.bytes a (a + 12) 0 4 (by omega) (by omega) fits
  have number := slice_extract c.bytes a (a + 12) 4 8 (by omega) (by omega) fits
  have offset := slice_extract c.bytes a (a + 12) 8 12 (by omega) (by omega) fits
  have numbered := dword_extract c.bytes (a + 4) (a + 8) (by omega) (by omega)
  have begun := dword_extract c.bytes (a + 8) (a + 12) (by omega) (by omega)
  unfold readResource Container.readResource
  simp only [usage, number, offset, numbered, begun, Bind.bind, Except.bind]
  cases c.chunks.findIdx? fun k => k.offset == (Container.dwordAt c.bytes (a + 8)).toNat <;> rfl

/-- Readings one after the other whose guards all hold. -/
theorem mapM_ofPlain {α β : Type} {f : α → Except ContainerError β} {g : α → Guarded β}
    {xs : List α} (same : ∀ x ∈ xs, g x = ofPlain (f x)) : xs.mapM g = ofPlain (xs.mapM f) := by
  induction xs with
  | nil => rfl
  | cons x xs ih =>
      rw [List.mapM_cons, List.mapM_cons, same x List.mem_cons_self,
        ih fun y mem => same y (List.mem_cons_of_mem _ mem)]
      cases f x with
      | error e => rfl
      | ok y => cases xs.mapM f <;> rfl

section

variable (bounded : c.Bounded)

include bounded

theorem data_eq {k : Chunk} (mem : k ∈ c.chunks) :
    data c k = .ok (c.bytes.extract k.start k.stop) :=
  slice_eq (bounded k mem).1 (bounded k mem).2

theorem chunk?_eq (tag : Tag) :
    chunk? c tag = .ok ((c.find? tag).map fun k => c.bytes.extract k.start k.stop) := by
  unfold chunk?
  cases found : c.find? tag with
  | none => rfl
  | some k =>
      show some <$> data c k = _
      rw [data_eq bounded (List.mem_of_find?_eq_some found)]
      rfl

theorem readIndex_eq : readIndex c = ofPlain c.readIndex := by
  unfold readIndex Container.readIndex
  rw [chunk?_eq bounded]
  cases found : c.find? resourceIndex with
  | none => rfl
  | some k =>
      obtain ⟨ordered, fits⟩ := bounded k (List.mem_of_find?_eq_some found)
      simp only [Option.map_some, Bind.bind, Except.bind, size_slice fits]
      by_cases short : k.stop - k.start < 4
      · rw [if_pos short, if_pos (.inl short)]
        rfl
      · have first := slice_extract c.bytes k.start k.stop 0 4 (by omega) (by omega) fits
        have counted := dword_extract c.bytes k.start (k.start + 4) (by omega) (by omega)
        rw [Nat.add_zero] at first
        simp only [if_neg short, first, counted]
        generalize (Container.dwordAt c.bytes k.start).toNat = count
        by_cases few : k.stop - k.start < count * 12 + 4
        · rw [if_pos few, if_pos (.inr few)]
          rfl
        -- Every entry lies in the slice of all entries, which lies in that of the chunk.
        · have entries :=
            slice_extract c.bytes k.start k.stop 4 (count * 12 + 4) (by omega) (by omega) fits
          rw [if_neg (not_or.mpr ⟨short, few⟩)]
          simp only [if_neg few, entries]
          refine mapM_ofPlain fun i mem => ?_
          have small := List.mem_range.mp mem
          have entry :=
            slice_extract c.bytes (k.start + 4) (k.start + (count * 12 + 4)) (i * 12) (i * 12 + 12)
            (by omega) (by omega) (by omega)
          simp only [entry]
          rw [← Nat.add_assoc]
          exact readResource_eq (by omega)

theorem readRelease_eq : readRelease c = .ok c.readRelease := by
  unfold readRelease Container.readRelease
  rw [chunk?_eq bounded]
  cases found : c.find? releaseNumber with
  | none => rfl
  | some k =>
      obtain ⟨ordered, fits⟩ := bounded k (List.mem_of_find?_eq_some found)
      simp only [Option.map_some, Bind.bind, Except.bind, size_slice fits]
      by_cases long : 2 ≤ k.stop - k.start
      · rw [if_pos long, if_pos long, word_extract _ _ _ (by omega) fits]
        rfl
      · rw [if_neg long, if_neg long]
        rfl

theorem readIdentity_eq : readIdentity c = ofPlain c.readIdentity := by
  unfold readIdentity Container.readIdentity
  rw [chunk?_eq bounded]
  cases found : c.find? storyIdentity with
  | none => rfl
  | some k =>
      obtain ⟨ordered, fits⟩ := bounded k (List.mem_of_find?_eq_some found)
      simp only [Option.map_some, Bind.bind, Except.bind, size_slice fits]
      by_cases short : k.stop - k.start < 10
      · rw [if_pos short, if_pos short]
        rfl
      · have part (i j : Nat) (ordered : i ≤ j) (short : j ≤ 10) :
            slice (c.bytes.extract k.start k.stop) i j
              = .ok (c.bytes.extract (k.start + i) (k.start + j)) :=
          slice_extract _ _ _ i j ordered (by omega) fits
        have release := word_extract c.bytes k.start (k.start + 2) (by omega) (by omega)
        have checksum := word_extract c.bytes (k.start + 8) (k.start + 10) (by omega) (by omega)
        simp only [if_neg short, part 0 2 (by omega) (by omega), part 2 8 (by omega) (by omega),
          part 8 10 (by omega) (by omega), Nat.add_zero, release, checksum]
        rfl

theorem readParts_eq : readParts c = ofPlain c.readParts := by
  rw [readParts, Container.readParts, readIndex_eq bounded, readRelease_eq bounded,
    readIdentity_eq bounded]
  cases c.readIndex with
  | error e => rfl
  | ok resources => cases c.readIdentity <;> rfl

end

/-! ## Whole containers -/

/-- The head of a container can be read if there are twelve bytes. -/
theorem parse_step (long : ¬bytes.size < 12) : parse bytes =
    if Container.slice bytes 0 4 ≠ form then refuse .notAForm
    else if Container.slice bytes 8 12 ≠ ifrs then
      refuse (.notResourceFile (Container.slice bytes 8 12))
    else if bytes.size < Container.formEnd bytes then refuse (.chunkOverrun form 0)
    else chunksFrom bytes (Container.formEnd bytes) 12 >>= fun chunks =>
      readParts { bytes, chunks } := by
  have part (i j : Nat) (ordered : i ≤ j) (inside : j ≤ 12) :
      slice bytes i j = .ok (bytes.extract i j) := slice_eq ordered (by omega)
  have length := dword_extract bytes 4 8 (by omega) (by omega)
  rw [parse, if_neg long, part 0 4 (by omega) (by omega), part 8 12 (by omega) (by omega),
    part 4 8 (by omega) (by omega)]
  simp only [Bind.bind, Except.bind, length]
  rfl

/-- No guard fails, whatever the bytes are. -/
theorem parse_eq (bytes : Array Byte) : parse bytes = ofPlain (Container.parse bytes) := by
  rw [Container.parse_eq]
  by_cases brief : bytes.size < 12
  · rw [parse, if_pos brief, if_pos brief]
    rfl
  · rw [parse_step brief, if_neg brief]
    by_cases isForm : Container.slice bytes 0 4 ≠ form
    · rw [if_pos isForm, if_pos isForm]
      rfl
    · rw [if_neg isForm, if_neg isForm]
      by_cases isIfrs : Container.slice bytes 8 12 ≠ ifrs
      · rw [if_pos isIfrs, if_pos isIfrs]
        rfl
      · rw [if_neg isIfrs, if_neg isIfrs]
        by_cases short : bytes.size < Container.formEnd bytes
        · rw [if_pos short, if_pos short]
          rfl
        · have fits := Nat.le_of_not_lt short
          rw [if_neg short, if_neg short, chunksFrom_eq fits]
          cases walked : Container.chunksFrom bytes (Container.formEnd bytes) 12 with
          | error e => rfl
          | ok chunks => exact readParts_eq (Container.bounded_of_chunksFrom fits walked)

section

variable (bounded : c.Bounded)

include bounded

theorem firstCode_eq : firstCode c =
    match c.chunk? storyCode with
    | some code => .ok code
    | none => refuse (.missingChunk storyCode) := by
  rw [firstCode, chunk?_eq bounded, Container.chunk?]
  cases c.find? storyCode <;> rfl

/-- The story is found within the bytes if the index names chunks that there are. -/
theorem story_eq (named : ∀ r ∈ c.resources, r.chunk < c.chunks.length) :
    story c = ofPlain c.story := by
  unfold story Container.story
  rw [firstCode_eq bounded]
  cases found : c.resources.find? fun r => r.usage == executable with
  | none => cases c.chunk? storyCode <;> rfl
  | some r =>
      have inside : r.chunk < c.chunks.length := named r (List.mem_of_find?_eq_some found)
      have there : c.chunks[r.chunk]? = some c.chunks[r.chunk] := List.getElem?_eq_getElem inside
      have placed := data_eq bounded (List.getElem_mem inside)
      generalize c.chunks[r.chunk] = k at there placed
      have reached : chunkAt c r.chunk = .ok k := by rw [chunkAt, there]
      dsimp only [Option.bind_eq_bind, Option.bind_some]
      rw [reached, there, Option.bind_some]
      show (if k.tag = storyCode then Array.toList <$> data c k else _) = _
      -- A resource that is no code is passed over for the chunk with the code, if any.
      by_cases isCode : k.tag = storyCode
      · have passes : guard (f := Option) (k.tag = storyCode) = some () := if_pos isCode
        rw [if_pos isCode, placed, passes]
        rfl
      · have stops : guard (f := Option) (k.tag = storyCode) = none := if_neg isCode
        rw [if_neg isCode, stops]
        cases c.chunk? storyCode <;> rfl

end

theorem isContainer_eq (bytes : Array Byte) :
    isContainer bytes = .ok (ZMachine.isContainer bytes) := by
  unfold isContainer ZMachine.isContainer
  by_cases long : 4 ≤ bytes.size
  · rw [if_pos long, slice_eq (by omega) long]
    rfl
  · -- Fewer than four bytes are no tag.
    have differs : (Container.slice bytes 0 4 == form) = false := by
      rw [beq_eq_false_iff_ne]
      intro same
      have length := congrArg List.length same
      rw [Container.slice, Array.length_toList, Array.size_extract,
        show form.length = 4 from rfl] at length
      omega
    rw [if_neg long, differs]

end Guarded

namespace Container

/-! ## Containers that were read -/

/-- The form ends within the bytes, the chunks lie one behind the other in it, and each entry of the
index leads to the chunk that begins where the entry says. -/
structure InBounds (c : Container) : Prop where
  declared : formEnd c.bytes ≤ c.bytes.size
  within : ∀ k ∈ c.chunks, 12 ≤ k.offset ∧ k.Within c.bytes (formEnd c.bytes)
  apart : c.chunks.Pairwise fun k l => k.offset < l.offset ∧ k.stop ≤ l.start
  indexed : ∀ i r, c.resources[i]? = some r → ∃ index k, c.find? resourceIndex = some index ∧
    index.start + 4 + (i + 1) * 12 ≤ index.stop ∧ c.chunks[r.chunk]? = some k ∧
    k.offset = (dwordAt c.bytes (index.start + 4 + i * 12 + 8)).toNat

theorem InBounds.bounded {c : Container} (h : c.InBounds) : c.Bounded :=
  fun k mem => (h.within k mem).2.bounds h.declared

theorem InBounds.named {c : Container} (h : c.InBounds) :
    ∀ r ∈ c.resources, r.chunk < c.chunks.length := by
  intro r mem
  obtain ⟨i, there⟩ := List.mem_iff_getElem?.mp mem
  obtain ⟨_, _, _, _, leads, _⟩ := h.indexed i r there
  exact (List.getElem?_eq_some_iff.mp leads).1

theorem getElem?_of_mapM {ε α β : Type} {f : α → Except ε β} {xs : List α} {ys : List β}
    (ran : xs.mapM f = .ok ys) {i : Nat} {y : β} (there : ys[i]? = some y) :
    ∃ x, xs[i]? = some x ∧ f x = .ok y := by
  induction xs generalizing ys i with
  | nil =>
      cases ran
      cases there
  | cons x xs ih =>
      rw [List.mapM_cons] at ran
      cases first : f x with
      | error e =>
          rw [first] at ran
          cases ran
      | ok z =>
          cases rest : xs.mapM f with
          | error e =>
              rw [first, rest] at ran
              cases ran
          | ok zs =>
              rw [first, rest] at ran
              cases ran
              cases i with
              | zero =>
                  cases there
                  exact ⟨x, rfl, first⟩
              | succ i => exact ih rest there

/-- Entries are read only if all of them are there, and lead to chunks that begin where they say. -/
theorem resources_of_readIndex {c : Container} {rs : List Resource} (reads : c.readIndex = .ok rs)
    {i : Nat} {r : Resource} (there : rs[i]? = some r) : ∃ index k,
      c.find? resourceIndex = some index ∧ index.start + 4 + (i + 1) * 12 ≤ index.stop ∧
      c.chunks[r.chunk]? = some k ∧
      k.offset = (dwordAt c.bytes (index.start + 4 + i * 12 + 8)).toNat := by
  unfold readIndex at reads
  cases found : c.find? resourceIndex with
  | none =>
      rw [found] at reads
      cases reads
      cases there
  | some index =>
      rw [found] at reads
      dsimp only at reads
      split at reads
      case isTrue => cases reads
      case isFalse enough =>
        -- An entry is read at its own place, and only if some chunk begins where it says.
        obtain ⟨j, place, entry⟩ := getElem?_of_mapM reads there
        obtain ⟨small, value⟩ := List.getElem?_eq_some_iff.mp place
        rw [List.getElem_range] at value
        rw [List.length_range] at small
        subst value
        unfold readResource at entry
        dsimp only at entry
        split at entry
        case h_1 chunk listed =>
          cases entry
          obtain ⟨inside, here, -⟩ := List.findIdx?_eq_some_iff_getElem.mp listed
          exact ⟨index, _, rfl, by omega, List.getElem?_eq_getElem inside, eq_of_beq here⟩
        case h_2 => cases entry

theorem readParts_ok {c c' : Container} (read : c.readParts = .ok c') :
    c'.bytes = c.bytes ∧ c'.chunks = c.chunks ∧ c.readIndex = .ok c'.resources := by
  unfold readParts at read
  cases index : c.readIndex with
  | error e =>
      rw [index] at read
      cases read
  | ok resources =>
      cases identity : c.readIdentity with
      | error e =>
          rw [index, identity] at read
          cases read
      | ok identity' =>
          rw [index, identity] at read
          cases read
          exact ⟨rfl, rfl, rfl⟩

/-- What is known of a container that was read: all its checks were passed. -/
theorem parse_ok {bytes : Array Byte} {c : Container} (parsed : parse bytes = .ok c) :
    c.bytes = bytes ∧ c.InBounds := by
  rw [parse_eq] at parsed
  split at parsed
  case isTrue => cases parsed
  split at parsed
  case isTrue => cases parsed
  split at parsed
  case isTrue => cases parsed
  split at parsed
  case isTrue => cases parsed
  case isFalse short =>
    cases walked : chunksFrom bytes (formEnd bytes) 12 with
    | error e =>
        rw [walked] at parsed
        cases parsed
    | ok chunks =>
        rw [walked] at parsed
        obtain ⟨rfl, rfl, index⟩ := readParts_ok parsed
        obtain ⟨within, apart⟩ := chunksFrom_within walked
        refine ⟨rfl, Nat.le_of_not_lt short, within, ?_, fun i r there =>
          resources_of_readIndex index there⟩
        -- A chunk begins eight bytes before its data, and its data is not before that.
        refine apart.imp_of_mem fun {k l} hk hl behind => ?_
        have first := (within k hk).2
        have second := (within l hl).2
        have start := first.start
        have length := first.length
        have start' := second.start
        exact ⟨by omega, by omega⟩

end Container

namespace Guarded

/-- A story is loaded without a failing guard. -/
theorem loadStory_eq (bytes : Array Byte) :
    loadStory bytes = ofPlain (ZMachine.loadStory bytes) := by
  unfold loadStory ZMachine.loadStory
  rw [isContainer_eq]
  cases ZMachine.isContainer bytes with
  | false => rfl
  | true =>
      show (parse bytes >>= fun c => List.toArray <$> story c) = _
      rw [parse_eq]
      cases parsed : Container.parse bytes with
      | error e => rfl
      | ok c =>
          obtain ⟨-, inBounds⟩ := Container.parse_ok parsed
          show List.toArray <$> story c = _
          rw [story_eq inBounds.bounded inBounds.named]
          show _ = ofPlain (c.story >>= fun data => pure data.toArray)
          cases c.story <;> rfl

end Guarded

namespace Container

/-- Whatever the bytes are, reading them as a container, or for the story in them, takes
no slice and no place from outside, and ends with a container or with an error of the
format.  The chunks of a container that was read lie one behind the other within the
declared form, its resources name chunks that begin where the index says, and its chunks
and its story are found without looking outside. -/
theorem parse_inBounds (bytes : Array Byte) :
    Guarded.parse bytes = Guarded.ofPlain (parse bytes) ∧
    Guarded.loadStory bytes = Guarded.ofPlain (loadStory bytes) ∧
    ∀ c, parse bytes = .ok c → c.bytes = bytes ∧ c.InBounds ∧
      (∀ tag, Guarded.chunk? c tag = .ok ((c.chunk? tag).map List.toArray)) ∧
      Guarded.story c = Guarded.ofPlain c.story := by
  refine ⟨Guarded.parse_eq bytes, Guarded.loadStory_eq bytes, fun c parsed => ?_⟩
  obtain ⟨same, inBounds⟩ := parse_ok parsed
  refine ⟨same, inBounds, fun tag => ?_, Guarded.story_eq inBounds.bounded inBounds.named⟩
  rw [Guarded.chunk?_eq inBounds.bounded, chunk?, Option.map_map]
  rfl

/-- A container with an index, and with a story of an odd length behind it. -/
def indexedStory : Array Byte :=
  (form ++ [0, 0, 0, 41] ++ ifrs ++ resourceIndex ++ [0, 0, 0, 16, 0, 0, 0, 1] ++ executable
    ++ [0, 0, 0, 0, 0, 0, 0, 36] ++ storyCode ++ [0, 0, 0, 5, 1, 2, 3, 4, 5]).toArray

theorem parse_inBounds_indexed : ∃ c, parse indexedStory = .ok c ∧ c.InBounds ∧
    c.chunks = [⟨resourceIndex, 12, 20, 36⟩, ⟨storyCode, 36, 44, 49⟩] ∧
    Guarded.story c = .ok [1, 2, 3, 4, 5] := by
  obtain ⟨-, -, facts⟩ := parse_inBounds indexedStory
  have parsed : parse indexedStory = .ok {
      bytes := indexedStory
      chunks := [⟨resourceIndex, 12, 20, 36⟩, ⟨storyCode, 36, 44, 49⟩]
      resources := [⟨executable, 0, 1⟩] } := by cbv
  obtain ⟨-, inBounds, -, story⟩ := facts _ parsed
  exact ⟨_, parsed, inBounds, rfl, story.trans rfl⟩

end Container

end ZMachine
