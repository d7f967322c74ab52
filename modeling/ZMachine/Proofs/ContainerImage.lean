/-
  Containers as they are written.

  A container is a `FORM` of type `IFRS`.  Its chunks follow one another, each
  behind its tag and its length, and a zero byte follows data of an odd
  length.  Reading what was written gives the chunks back, wherever they
  stand, and whatever follows the `FORM`.
-/
import Mathlib.Data.List.Forall2
import ZMachine.Container

namespace ZMachine

/-! ## Four bytes of a value -/

theorem toNat_dwordOfBytes (a b c d : Byte) :
    (dwordOfBytes a b c d).toNat
      = ((a.toNat * 256 + b.toNat) * 256 + c.toNat) * 256 + d.toNat := by
  have ha := a.toNat_lt
  have hb := b.toNat_lt
  have hc := c.toNat_lt
  have hd := d.toNat_lt
  unfold dwordOfBytes
  simp only [UInt32.toNat_or, UInt32.toNat_shiftLeft, UInt8.toNat_toUInt32, UInt32.reduceToNat,
    Nat.reduceMod]
  -- No bit is shifted out, and the shifted bytes have no bit in common.
  rw [Nat.mod_eq_of_lt (by rw [Nat.shiftLeft_eq]; omega),
    Nat.mod_eq_of_lt (by rw [Nat.shiftLeft_eq]; omega),
    Nat.mod_eq_of_lt (by rw [Nat.shiftLeft_eq]; omega), Nat.or_assoc, Nat.or_assoc,
    ← Nat.shiftLeft_add_eq_or_of_lt (i := 8) (by omega),
    ← Nat.shiftLeft_add_eq_or_of_lt (i := 16) (by rw [Nat.shiftLeft_eq]; omega),
    ← Nat.shiftLeft_add_eq_or_of_lt (i := 24) (by rw [Nat.shiftLeft_eq, Nat.shiftLeft_eq]; omega)]
  simp only [Nat.shiftLeft_eq]
  omega

theorem dwordOfBytes_dwordBytes (v : UInt32) :
    dwordOfBytes (v >>> 24).toUInt8 (v >>> 16).toUInt8 (v >>> 8).toUInt8 v.toUInt8 = v := by
  have bound : v.toNat < 4294967296 := v.toNat_lt
  apply UInt32.toNat_inj.mp
  rw [toNat_dwordOfBytes]
  simp only [UInt32.toNat_toUInt8, UInt32.toNat_shiftRight, UInt32.reduceToNat, Nat.reduceMod,
    Nat.shiftRight_eq_div_pow]
  omega

@[simp] theorem length_dwordBytes (v : UInt32) : (dwordBytes v).length = 4 := rfl

/-! ## What stands where -/

/-- These bytes stand at the address `a`. -/
def StandsAt (bytes : Array Byte) (a : Nat) (part : List Byte) : Prop :=
  ∃ before after, bytes.toList = before ++ (part ++ after) ∧ before.length = a

namespace StandsAt

variable {bytes : Array Byte} {a : Nat} {x y : List Byte}

theorem left (h : StandsAt bytes a (x ++ y)) : StandsAt bytes a x := by
  obtain ⟨before, after, whole, length⟩ := h
  exact ⟨before, y ++ after, by rw [whole, List.append_assoc], length⟩

theorem right (h : StandsAt bytes a (x ++ y)) : StandsAt bytes (a + x.length) y := by
  obtain ⟨before, after, whole, length⟩ := h
  refine ⟨before ++ x, after, ?_, ?_⟩
  · rw [whole, List.append_assoc, List.append_assoc]
  · rw [List.length_append, length]

theorem inside (h : StandsAt bytes a x) : a + x.length ≤ bytes.size := by
  obtain ⟨before, after, whole, length⟩ := h
  have size := congrArg List.length whole
  rw [Array.length_toList, List.length_append, List.length_append] at size
  omega

theorem slice (h : StandsAt bytes a x) : Container.slice bytes a (a + x.length) = x := by
  obtain ⟨before, after, whole, rfl⟩ := h
  rw [Container.slice, Array.toList_extract, whole]
  simp

theorem getD (h : StandsAt bytes a x) {i : Nat} (inside : i < x.length) :
    bytes.getD (a + i) 0 = x.getD i 0 := by
  obtain ⟨before, after, whole, rfl⟩ := h
  rw [Array.getD_eq_getD_getElem?, ← Array.getElem?_toList, whole,
    List.getElem?_append_right (by omega), Nat.add_sub_cancel_left,
    List.getElem?_append_left inside, List.getD_eq_getElem?_getD]

theorem dword {v : UInt32} (h : StandsAt bytes a (dwordBytes v)) :
    Container.dwordAt bytes a = v := by
  have byte (i : Nat) (inside : i < 4) : bytes.getD (a + i) 0 = (dwordBytes v).getD i 0 :=
    h.getD inside
  show dwordOfBytes (bytes.getD (a + 0) 0) (bytes.getD (a + 1) 0) (bytes.getD (a + 2) 0)
    (bytes.getD (a + 3) 0) = v
  rw [byte 0 (by omega), byte 1 (by omega), byte 2 (by omega), byte 3 (by omega)]
  exact dwordOfBytes_dwordBytes v

end StandsAt

namespace Container

/-! ## Chunks -/

/-- A chunk to be written. -/
structure Parcel where
  tag : Tag
  data : List Byte
  /-- Tags have four bytes. -/
  named : tag.length = 4

/-- A chunk as it is written: data of an odd length is padded. -/
def Parcel.image (p : Parcel) : List Byte :=
  p.tag ++ (dwordBytes p.data.length.toUInt32 ++ (p.data ++ List.replicate (p.data.length % 2) 0))

/-- Chunks one after the other. -/
def body (ps : List Parcel) : List Byte := ps.flatMap Parcel.image

/-- The container of these chunks. -/
def image (ps : List Parcel) : List Byte :=
  form ++ (dwordBytes (4 + (body ps).length).toUInt32 ++ (ifrs ++ body ps))

/-- Chunks that are written one after the other from `a` on, each with the place of its tag. -/
def placed (a : Nat) : List Parcel → List (Nat × Parcel)
  | [] => []
  | p :: ps => (a, p) :: placed (a + p.image.length) ps

/-- What reading gives of a chunk that is written at `x.1`. -/
def chunkOf (x : Nat × Parcel) : Chunk where
  tag := x.2.tag
  offset := x.1
  start := x.1 + 8
  stop := x.1 + 8 + x.2.data.length

theorem Parcel.length_image (p : Parcel) :
    p.image.length = 8 + p.data.length + p.data.length % 2 := by
  rw [image, List.length_append, List.length_append, List.length_append, List.length_replicate,
    length_dwordBytes, p.named]
  omega

theorem map_snd_placed (a : Nat) (ps : List Parcel) : (placed a ps).map Prod.snd = ps := by
  induction ps generalizing a with
  | nil => rfl
  | cons p ps ih => rw [placed, List.map_cons, ih]

/-- Among chunks that have their places, the same one is first. -/
theorem find?_placed (a : Nat) (ps : List Parcel) (q : Parcel → Bool) :
    ps.find? q = ((placed a ps).find? fun x => q x.2).map Prod.snd := by
  conv_lhs => rw [← map_snd_placed a ps, List.find?_map]
  rfl

variable {bytes : Array Byte} {a : Nat} {ps : List Parcel}

/-- Each chunk stands at its place. -/
theorem standsAt_of_placed (stands : StandsAt bytes a (body ps)) {x : Nat × Parcel}
    (mem : x ∈ placed a ps) : StandsAt bytes x.1 x.2.image := by
  induction ps generalizing a with
  | nil => cases mem
  | cons p ps ih =>
      have split : StandsAt bytes a (p.image ++ body ps) := stands
      cases mem with
      | head => exact split.left
      | tail _ mem => exact ih split.right mem

theorem Parcel.standsAt_tag {p : Parcel} (stands : StandsAt bytes a p.image) :
    slice bytes a (a + 4) = p.tag := by
  have tag := StandsAt.slice (StandsAt.left stands)
  rwa [p.named] at tag

theorem Parcel.standsAt_length {p : Parcel} (stands : StandsAt bytes a p.image) :
    dwordAt bytes (a + 4) = p.data.length.toUInt32 := by
  have length := StandsAt.dword (StandsAt.left (StandsAt.right stands))
  rwa [p.named] at length

theorem Parcel.standsAt_data {p : Parcel} (stands : StandsAt bytes a p.image) :
    StandsAt bytes (a + 8) p.data := by
  have data := StandsAt.left (StandsAt.right (StandsAt.right stands))
  rwa [p.named, length_dwordBytes, Nat.add_assoc] at data

/-- Walking over chunks that were written finds them all. -/
theorem chunksFrom_body (stands : StandsAt bytes a (body ps))
    (short : (body ps).length < UInt32.size) :
    chunksFrom bytes (a + (body ps).length) a = .ok ((placed a ps).map chunkOf) := by
  induction ps generalizing a with
  | nil =>
      have past : ¬a + 8 ≤ a + (body []).length := by
        show ¬a + 8 ≤ a + 0
        omega
      rw [chunksFrom, dif_neg past]
      rfl
  | cons p ps ih =>
      have split : StandsAt bytes a (p.image ++ body ps) := stands
      have first := split.left
      have whole : (body (p :: ps)).length = p.image.length + (body ps).length :=
        List.length_append
      have room := p.length_image
      rw [whole] at short ⊢
      have length : (dwordAt bytes (a + 4)).toNat = p.data.length := by
        rw [Parcel.standsAt_length first]
        exact UInt32.toNat_ofNat_of_lt' (by omega)
      -- The next chunk is looked for behind this one and its padding.
      have next : nextOffset bytes a = a + p.image.length := by
        rw [nextOffset, length, room]
        omega
      have rest := ih split.right (by omega)
      rw [Nat.add_assoc] at rest
      have here : a + 8 ≤ a + (p.image.length + (body ps).length) := by omega
      have inside : a + 8 + p.data.length ≤ a + (p.image.length + (body ps).length) := by omega
      rw [chunksFrom, dif_pos here]
      simp only [length, if_pos inside, next, rest, Parcel.standsAt_tag first]
      rfl

/-- The data of a chunk is found where reading says that it is. -/
theorem slice_chunkOf (stands : StandsAt bytes a (body ps)) {x : Nat × Parcel}
    (mem : x ∈ placed a ps) : slice bytes (chunkOf x).start (chunkOf x).stop = x.2.data :=
  (Parcel.standsAt_data (standsAt_of_placed stands mem)).slice

/-! ## Containers that hold the chunks -/

/-- The container was read from bytes where these chunks stand. -/
structure Holds (c : Container) (ps : List Parcel) : Prop where
  stands : StandsAt c.bytes 12 (body ps)
  chunks : c.chunks = (placed 12 ps).map chunkOf

namespace Holds

variable {c : Container} (holds : c.Holds ps)

include holds

theorem payloads : c.chunks.map (fun k => slice c.bytes k.start k.stop) = ps.map Parcel.data := by
  rw [holds.chunks, List.map_map]
  conv_rhs => rw [← map_snd_placed 12 ps, List.map_map]
  apply List.map_congr_left
  intro x mem
  exact slice_chunkOf holds.stands mem

/-- The first chunk with a tag is the first that was written with it. -/
theorem find_eq (tag : Tag) :
    c.find? tag = ((placed 12 ps).find? fun x => x.2.tag == tag).map chunkOf := by
  rw [find?, holds.chunks, List.find?_map]
  rfl

theorem chunk_eq (tag : Tag) : c.chunk? tag = (ps.find? fun p => p.tag == tag).map Parcel.data := by
  rw [chunk?, holds.find_eq, find?_placed 12, Option.map_map, Option.map_map]
  -- Only of a chunk that is found, its data must be read.
  apply Option.map_congr
  intro x found
  exact slice_chunkOf holds.stands (List.mem_of_find?_eq_some found)

/-- A chunk that is found first stands in the image, and was written first of its tag. -/
theorem of_find {tag : Tag} {k : Chunk} (found : c.find? tag = some k) :
    ∃ p, ps.find? (fun p => p.tag == tag) = some p ∧ StandsAt c.bytes k.start p.data ∧
      k.stop = k.start + p.data.length := by
  rw [holds.find_eq] at found
  obtain ⟨x, first, rfl⟩ := Option.map_eq_some_iff.mp found
  have stands := standsAt_of_placed holds.stands (List.mem_of_find?_eq_some first)
  refine ⟨x.2, ?_, Parcel.standsAt_data stands, rfl⟩
  rw [find?_placed 12, first]
  rfl

end Holds

/-! ## The index -/

/-- An index entry to be written: it names the chunk that begins at `start`. -/
structure Entry where
  usage : Tag
  number : UInt32
  start : UInt32
  /-- Usages have four bytes. -/
  named : usage.length = 4

/-- An index entry as it is written. -/
def Entry.image (e : Entry) : List Byte :=
  e.usage ++ (dwordBytes e.number ++ dwordBytes e.start)

theorem Entry.length_image (e : Entry) : e.image.length = 12 := by
  rw [image, List.length_append, List.length_append, length_dwordBytes, length_dwordBytes, e.named]

/-- The data of the index chunk: the number of entries, and the entries. -/
def indexData (es : List Entry) : List Byte :=
  dwordBytes es.length.toUInt32 ++ es.flatMap Entry.image

theorem length_flatMap_entries (es : List Entry) :
    (es.flatMap Entry.image).length = es.length * 12 := by
  induction es with
  | nil => rfl
  | cons e es ih =>
      rw [List.flatMap_cons, List.length_append, ih, e.length_image, List.length_cons]
      omega

/-- The first index chunk has these entries; without an index chunk there are none. -/
def Indexes (ps : List Parcel) (es : List Entry) : Prop :=
  match ps.find? fun p => p.tag == resourceIndex with
  | none => es = []
  | some p => ∃ more, p.data = indexData es ++ more

/-- All entries name places where chunks begin. -/
def Pointing (ps : List Parcel) (es : List Entry) : Prop :=
  ∀ e ∈ es, ∃ p, (e.start.toNat, p) ∈ placed 12 ps

/-- What reading gives of an entry. -/
def resourceOf (ps : List Parcel) (e : Entry) : Resource where
  usage := e.usage
  number := e.number
  chunk := (placed 12 ps).findIdx fun x => x.1 == e.start.toNat

variable {c : Container} {es : List Entry}

theorem readResource_image (holds : c.Holds ps) {e : Entry} (stands : StandsAt c.bytes a e.image)
    {p : Parcel} (there : (e.start.toNat, p) ∈ placed 12 ps) :
    c.readResource a = .ok (resourceOf ps e) := by
  have usage : slice c.bytes a (a + 4) = e.usage := by
    have usage := StandsAt.slice (StandsAt.left stands)
    rwa [e.named] at usage
  have number : dwordAt c.bytes (a + 4) = e.number := by
    have number := StandsAt.dword (StandsAt.left (StandsAt.right stands))
    rwa [e.named] at number
  have start : dwordAt c.bytes (a + 8) = e.start := by
    have start := StandsAt.dword (StandsAt.right (StandsAt.right stands))
    rwa [e.named, length_dwordBytes, Nat.add_assoc] at start
  have found : (c.chunks.findIdx? fun k => k.offset == e.start.toNat)
      = some ((placed 12 ps).findIdx fun x => x.1 == e.start.toNat) := by
    rw [holds.chunks, List.findIdx?_map]
    apply List.findIdx?_eq_some_of_exists
    exact ⟨_, there, beq_self_eq_true _⟩
  unfold readResource
  simp only [start, found, usage, number]
  rfl

theorem mapM_readResource (holds : c.Holds ps)
    (stands : StandsAt c.bytes a (es.flatMap Entry.image)) (pointing : Pointing ps es) :
    (List.range es.length).mapM (fun i => c.readResource (a + i * 12))
      = .ok (es.map (resourceOf ps)) := by
  induction es generalizing a with
  | nil => rfl
  | cons e es ih =>
      have split : StandsAt c.bytes a (e.image ++ es.flatMap Entry.image) := stands
      obtain ⟨p, there⟩ := pointing e List.mem_cons_self
      have first := readResource_image holds split.left there
      have rest := ih split.right fun e mem => pointing e (List.mem_cons_of_mem _ mem)
      rw [e.length_image] at rest
      have shift (i : Nat) : a + Nat.succ i * 12 = a + 12 + i * 12 := by
        rw [Nat.succ_mul]
        omega
      rw [List.length_cons, List.range_succ_eq_map, List.mapM_cons, List.mapM_map]
      simp only [Function.comp_def, shift, rest, Nat.zero_mul, Nat.add_zero, first]
      rfl

theorem length_le_body {p : Parcel} (mem : p ∈ ps) : p.data.length ≤ (body ps).length := by
  have within : p.image ∈ ps.map Parcel.image := List.mem_map_of_mem mem
  have part := (List.sublist_flatten_of_mem within).length_le
  rw [Parcel.length_image, ← List.flatMap_def] at part
  show _ ≤ (ps.flatMap Parcel.image).length
  omega

/-- The index is read in full. -/
theorem readIndex_eq (holds : c.Holds ps) (short : (body ps).length < UInt32.size)
    (indexes : Indexes ps es) (pointing : Pointing ps es) :
    c.readIndex = .ok (es.map (resourceOf ps)) := by
  unfold Indexes at indexes
  unfold readIndex
  cases found : c.find? resourceIndex with
  | none =>
      rw [holds.find_eq, Option.map_eq_none_iff] at found
      rw [find?_placed 12, found] at indexes
      rw [show es = [] from indexes]
      rfl
  | some k =>
      obtain ⟨p, first, stands, stop⟩ := holds.of_find found
      rw [first] at indexes
      obtain ⟨more, data⟩ := indexes
      have small := length_le_body (List.mem_of_find?_eq_some first)
      have length : p.data.length = 4 + es.length * 12 + more.length := by
        rw [data, indexData, List.length_append, List.length_append, length_dwordBytes,
          length_flatMap_entries]
      -- The chunk holds the count and the entries in front of whatever else it was given.
      rw [data] at stands
      have count : (dwordAt c.bytes k.start).toNat = es.length := by
        rw [StandsAt.dword stands.left.left]
        exact UInt32.toNat_ofNat_of_lt' (by omega)
      have enough : ¬(k.stop - k.start < 4 ∨ k.stop - k.start < es.length * 12 + 4) := by omega
      have entries := mapM_readResource holds (StandsAt.right stands.left) pointing
      simp only [count, if_neg enough]
      exact entries

/-- An entry that was read names the chunk that begins where the written one says. -/
structure Resolves (c : Container) (e : Entry) (r : Resource) : Prop where
  usage : r.usage = e.usage
  number : r.number = e.number
  chunk : ∃ k, c.chunks[r.chunk]? = some k ∧ k.offset = e.start.toNat

/-- The chunk that an entry leads to is the one at its place. -/
theorem chunk_resourceOf (holds : c.Holds ps) (e : Entry) :
    c.chunks[(resourceOf ps e).chunk]?
      = ((placed 12 ps).find? fun x => x.1 == e.start.toNat).map chunkOf := by
  rw [holds.chunks, List.getElem?_map, List.find?_eq_getElem?_findIdx]
  rfl

theorem resolves_resourceOf (holds : c.Holds ps) (pointing : Pointing ps es) :
    List.Forall₂ (Resolves c) es (es.map (resourceOf ps)) := by
  rw [List.forall₂_map_right_iff, List.forall₂_same]
  intro e mem
  obtain ⟨p, there⟩ := pointing e mem
  have listed : ((placed 12 ps).find? fun x => x.1 == e.start.toNat).isSome = true := by
    rw [List.find?_isSome]
    exact ⟨_, there, beq_self_eq_true _⟩
  obtain ⟨x, found⟩ := Option.isSome_iff_exists.mp listed
  have here := List.find?_some found
  refine ⟨rfl, rfl, chunkOf x, ?_, eq_of_beq here⟩
  rw [chunk_resourceOf holds, found]
  rfl

/-! ## The story -/

/-- The chunk that begins at a place. -/
def parcelAt? (ps : List Parcel) (start : Nat) : Option Parcel :=
  ((placed 12 ps).find? fun x => x.1 == start).map Prod.snd

/-- The data of the first chunk of story code. -/
def firstCode (ps : List Parcel) : Except ContainerError (List Byte) :=
  match ps.find? fun p => p.tag == storyCode with
  | some p => .ok p.data
  | none => .error (.missingChunk storyCode)

/-- The data of the chunk that the first entry for an executable names, if that is story code, and
else that of the first chunk of story code. -/
def storyData (ps : List Parcel) (es : List Entry) : Except ContainerError (List Byte) :=
  match (es.find? fun e => e.usage == executable).bind fun e => parcelAt? ps e.start.toNat with
  | some p => if p.tag = storyCode then .ok p.data else firstCode ps
  | none => firstCode ps

/-- What an entry names counts as the story only if it is story code. -/
theorem indexed_eq (holds : c.Holds ps) (e : Entry) :
    (do
      let k ← c.chunks[(resourceOf ps e).chunk]?
      guard (k.tag = storyCode)
      return slice c.bytes k.start k.stop)
      = (parcelAt? ps e.start.toNat).bind fun p => if p.tag = storyCode then
      some p.data else none := by
  rw [chunk_resourceOf holds, parcelAt?]
  cases found : (placed 12 ps).find? fun x => x.1 == e.start.toNat with
  | none => rfl
  | some x =>
      have data := slice_chunkOf holds.stands (List.mem_of_find?_eq_some found)
      rw [Option.map_some, Option.map_some, Option.bind_eq_bind, Option.bind_some, Option.bind_some]
      by_cases isCode : x.2.tag = storyCode
      · have passes : guard (f := Option) ((chunkOf x).tag = storyCode) = some () := if_pos isCode
        rw [passes, if_pos isCode]
        exact congrArg some data
      · have stops : guard (f := Option) ((chunkOf x).tag = storyCode) = none := if_neg isCode
        rw [stops, if_neg isCode]
        rfl

theorem story_eq (holds : c.Holds ps) (resources : c.resources = es.map (resourceOf ps)) :
    c.story = storyData ps es := by
  have first : (c.resources.find? fun r => r.usage == executable)
      = (es.find? fun e => e.usage == executable).map (resourceOf ps) := by
    rw [resources, List.find?_map]
    rfl
  unfold story storyData firstCode
  rw [first, holds.chunk_eq]
  -- Both sides fall back on the first chunk of story code, if there is one.
  generalize (ps.find? fun p => p.tag == storyCode) = code
  cases es.find? fun e => e.usage == executable with
  | none => cases code <;> rfl
  | some e =>
      rw [Option.map_some, Option.bind_eq_bind, Option.bind_some, indexed_eq holds,
        Option.bind_some]
      cases parcelAt? ps e.start.toNat with
      | none => cases code <;> rfl
      | some p =>
          rw [Option.bind_some]
          dsimp only
          by_cases isCode : p.tag = storyCode
          · rw [if_pos isCode, if_pos isCode]
            rfl
          · rw [if_neg isCode, if_neg isCode]
            cases code <;> rfl

/-! ## Reading a container -/

/-- The identity of the story is read if its chunk is long enough. -/
theorem readIdentity_ok (holds : c.Holds ps)
    (identified : ∀ p, ps.find? (fun p => p.tag == storyIdentity) = some p → 10 ≤ p.data.length) :
    ∃ identity, c.readIdentity = .ok identity := by
  unfold readIdentity
  cases found : c.find? storyIdentity with
  | none => exact ⟨none, rfl⟩
  | some k =>
      obtain ⟨p, first, -, stop⟩ := holds.of_find found
      have long := identified p first
      have enough : ¬k.stop - k.start < 10 := by omega
      simp only [if_neg enough]
      exact ⟨_, rfl⟩

section

variable (stands : StandsAt bytes 0 (image ps))

include stands

theorem form_of_image : slice bytes 0 4 = form := StandsAt.slice (StandsAt.left stands)

theorem length_of_image : dwordAt bytes 4 = (4 + (body ps).length).toUInt32 :=
  StandsAt.dword (StandsAt.left (StandsAt.right stands))

theorem ifrs_of_image : slice bytes 8 12 = ifrs :=
  StandsAt.slice (StandsAt.left (StandsAt.right (StandsAt.right stands)))

theorem body_of_image : StandsAt bytes 12 (body ps) :=
  StandsAt.right (StandsAt.right (StandsAt.right stands))

end

/-- The parts of a container are read one after the other; only then is there a container. -/
theorem parse_holds (stands : StandsAt bytes 0 (image ps))
    (fits : 4 + (body ps).length < UInt32.size) (indexes : Indexes ps es)
    (pointing : Pointing ps es)
    (identified : ∀ p, ps.find? (fun p => p.tag == storyIdentity) = some p → 10 ≤ p.data.length) :
    ∃ c, parse bytes = .ok c ∧ c.Holds ps ∧ c.resources = es.map (resourceOf ps) := by
  have chunks := body_of_image stands
  have inside := chunks.inside
  have length : (dwordAt bytes 4).toNat = 4 + (body ps).length := by
    rw [length_of_image stands]
    exact UInt32.toNat_ofNat_of_lt' (by omega)
  have short : (body ps).length < UInt32.size := by omega
  let c : Container := { bytes, chunks := (placed 12 ps).map chunkOf }
  have holds : c.Holds ps := ⟨chunks, rfl⟩
  obtain ⟨identity, identified⟩ := readIdentity_ok holds identified
  have index := readIndex_eq holds short indexes pointing
  refine ⟨{ c with resources := es.map (resourceOf ps), release := c.readRelease, identity }, ?_,
    ⟨chunks, rfl⟩, rfl⟩
  have stop : 4 + (body ps).length + 8 = 12 + (body ps).length := by omega
  -- Each check of the reader passes: the tag, the kind and the length.
  have isForm : ¬(bytes.size < 12 ∨ slice bytes 0 4 ≠ form) := by
    rw [form_of_image stands]
    simp
    omega
  have whole : ¬bytes.size < 12 + (body ps).length := by omega
  unfold parse
  simp only [if_neg isForm, ifrs_of_image stands, length, stop, if_neg whole, ne_eq,
    not_true_eq_false, if_false, chunksFrom_body chunks short]
  change (do
    let resources ← c.readIndex
    let identity ← c.readIdentity
    return { c with resources, release := c.readRelease, identity }) = _
  rw [index, identified]
  rfl

/-- Bytes that begin with a container are loaded as one. -/
theorem loadStory_eq (stands : StandsAt bytes 0 (image ps)) (parsed : parse bytes = .ok c) :
    loadStory bytes = List.toArray <$> c.story := by
  have isContainer : isContainer bytes = true := by
    unfold ZMachine.isContainer
    rw [form_of_image stands]
    exact beq_self_eq_true _
  unfold loadStory
  rw [isContainer, parsed]
  show (c.story >>= fun data => pure data.toArray) = _
  rw [← map_eq_pure_bind]

/-- Chunks with an index that can be read are read as they were written, whatever follows them. -/
theorem parse_image (ps : List Parcel) (es : List Entry) (after : List Byte)
    (fits : 4 + (body ps).length < UInt32.size) (indexes : Indexes ps es)
    (pointing : Pointing ps es)
    (identified : ∀ p, ps.find? (fun p => p.tag == storyIdentity) = some p → 10 ≤ p.data.length) :
    ∃ c, parse (image ps ++ after).toArray = .ok c ∧
      c.chunks = (placed 12 ps).map chunkOf ∧
      c.chunks.map (fun k => slice c.bytes k.start k.stop) = ps.map Parcel.data ∧
      (∀ tag, c.chunk? tag = (ps.find? fun p => p.tag == tag).map Parcel.data) ∧
      List.Forall₂ (Resolves c) es c.resources ∧
      c.story = storyData ps es ∧
      loadStory (image ps ++ after).toArray = List.toArray <$> storyData ps es := by
  have stands : StandsAt (image ps ++ after).toArray 0 (image ps) := ⟨[], after, rfl, rfl⟩
  obtain ⟨c, parsed, holds, resources⟩ := parse_holds stands fits indexes pointing identified
  have told : c.story = storyData ps es := story_eq holds resources
  have resolves := resolves_resourceOf holds pointing
  rw [← resources] at resolves
  exact ⟨c, parsed, holds.chunks, holds.payloads, holds.chunk_eq, resolves, told,
    told ▸ loadStory_eq stands parsed⟩

/-- An entry for an executable; it names the second chunk of story code in `twoStories`. -/
def secondStory : Entry := { usage := executable, number := 0, start := 58, named := by decide }

/-- Chunks with an index, data of odd lengths, two stories and an identity. -/
def twoStories : List Parcel :=
  [{ tag := resourceIndex, data := indexData [secondStory], named := by decide },
    { tag := .ofString "AUTH", data := [65], named := by decide },
    { tag := storyCode, data := [1, 2, 3], named := by decide },
    { tag := storyCode, data := [4], named := by decide },
    { tag := storyIdentity, data := List.replicate 10 0, named := by decide }]

theorem parse_image_twoStories :
    4 + (body twoStories).length < UInt32.size ∧ Indexes twoStories [secondStory] ∧
      Pointing twoStories [secondStory] ∧
      (∀ p, twoStories.find? (fun p => p.tag == storyIdentity) = some p → 10 ≤ p.data.length) ∧
      ∃ c, parse (image twoStories ++ [7]).toArray = .ok c ∧
        c.chunks.map Chunk.offset = [12, 36, 46, 58, 68] ∧ c.story = .ok [4] := by
  have fits : 4 + (body twoStories).length < UInt32.size := by decide +kernel
  have indexes : Indexes twoStories [secondStory] := ⟨[], rfl⟩
  have pointing : Pointing twoStories [secondStory] := by
    intro e mem
    cases List.mem_singleton.mp mem
    exact ⟨{ tag := storyCode, data := [4], named := by decide },
      .tail _ (.tail _ (.tail _ (.head _)))⟩
  have identified (p : Parcel)
      (first : twoStories.find? (fun p => p.tag == storyIdentity) = some p) :
      10 ≤ p.data.length := by
    cases first
    decide
  obtain ⟨c, parsed, chunks, -, -, -, story, -⟩ :=
    parse_image twoStories [secondStory] [7] fits indexes pointing identified
  refine ⟨fits, indexes, pointing, identified, c, parsed, ?_, ?_⟩
  · rw [chunks]
    decide +kernel
  · rw [story]
    rfl

end Container

end ZMachine
