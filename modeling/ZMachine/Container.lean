/-
  Resource containers.

  A container is a `FORM` of type `IFRS`: a list of tagged chunks, each
  padded to an even length.  One chunk may be an index of resources, one may
  identify the story, and one holds the story image.
-/
import ZMachine.Header
import ZMachine.Text.Utf8

namespace ZMachine

/-- Four bytes that name the kind of a chunk. -/
abbrev Tag := List Byte

/-- The tag spelled by a text. -/
def Tag.ofString (s : String) : Tag := s.toList.map fun c => c.toNat.toUInt8

/-- A tag as text. -/
def Tag.text (t : Tag) : String := Utf8.decodeLossy t

/-- Failure to read a container. -/
inductive ContainerError where
  | notAForm
  | notResourceFile (type : Tag)
  /-- A chunk claims more bytes than there are. -/
  | chunkOverrun (tag : Tag) (offset : Nat)
  | missingChunk (tag : Tag)
  /-- A chunk is shorter than its layout. -/
  | shortChunk (tag : Tag) (length : Nat)
  /-- An index entry names an offset where no chunk begins. -/
  | unresolvedResource (offset : Nat)
deriving DecidableEq, Repr, Inhabited

/-- Wording of a container error, without its origin. -/
def ContainerError.reason : ContainerError → String
  | notAForm => "not a FORM container"
  | notResourceFile type => "FORM type is '" ++ type.text ++ "', expected 'IFRS'"
  | chunkOverrun tag offset =>
      "chunk '" ++ tag.text ++ "' at " ++ Show.address 0 offset ++ " overruns the container"
  | missingChunk tag => "missing required chunk '" ++ tag.text ++ "'"
  | shortChunk tag length =>
      "chunk '" ++ tag.text ++ "' too short: " ++ Nat.repr length ++ " byte(s)"
  | unresolvedResource offset =>
      "resource index entry points at " ++ Show.address 0 offset ++ ", which is not a chunk"

/-- Wording of a container error. -/
def ContainerError.message (e : ContainerError) : String := "container error: " ++ e.reason

/-- One chunk: where its tag stands, and where its data begins and ends. -/
structure Chunk where
  tag : Tag
  offset : Nat
  start : Nat
  stop : Nat
deriving DecidableEq, Repr, Inhabited

/-- One entry of the resource index. -/
structure Resource where
  usage : Tag
  number : UInt32
  /-- Position in the list of chunks. -/
  chunk : Nat
deriving DecidableEq, Repr, Inhabited

/-- What tells a story from every other. -/
structure StoryIdentity where
  release : Word
  serial : List Byte
  checksum : Word
deriving DecidableEq, Repr, Inhabited

/-- Whether an identity names the story with this header. -/
def StoryIdentity.matchesHeader (i : StoryIdentity) (h : Header) : Bool :=
  i.release == h.release && i.serial == h.serial && i.checksum == h.checksum

/-- A container that has been read. -/
structure Container where
  bytes : Array Byte
  chunks : List Chunk
  resources : List Resource := []
  release : Option Word := none
  identity : Option StoryIdentity := none
deriving Inhabited

namespace Container

/-! ## Tags -/

def form : Tag := .ofString "FORM"
def ifrs : Tag := .ofString "IFRS"
def resourceIndex : Tag := .ofString "RIdx"
def releaseNumber : Tag := .ofString "RelN"
def storyIdentity : Tag := .ofString "IFhd"
def storyCode : Tag := .ofString "ZCOD"
def executable : Tag := .ofString "Exec"

/-- The bytes from `start` up to `stop`. -/
def slice (bytes : Array Byte) (start stop : Nat) : List Byte := (bytes.extract start stop).toList

/-- The word at `a`. -/
def wordAt (bytes : Array Byte) (a : Nat) : Word :=
  .ofBytes (bytes.getD a 0) (bytes.getD (a + 1) 0)

/-- The 32-bit value at `a`. -/
def dwordAt (bytes : Array Byte) (a : Nat) : UInt32 :=
  dwordOfBytes (bytes.getD a 0) (bytes.getD (a + 1) 0) (bytes.getD (a + 2) 0)
    (bytes.getD (a + 3) 0)

/-- Where the chunk after the one at `offset` begins: data is padded to an even length. -/
def nextOffset (bytes : Array Byte) (offset : Nat) : Nat :=
  let len := (dwordAt bytes (offset + 4)).toNat
  offset + 8 + len + len % 2

theorem lt_nextOffset (bytes : Array Byte) (offset : Nat) : offset < nextOffset bytes offset := by
  simp only [nextOffset]; omega

/-- The chunks from `offset` up to `stop`. -/
def chunksFrom (bytes : Array Byte) (stop offset : Nat) : Except ContainerError (List Chunk) :=
  if _h : offset + 8 ≤ stop then
    let tag := slice bytes offset (offset + 4)
    -- The padding byte of the last chunk may be missing.
    let dataEnd := offset + 8 + (dwordAt bytes (offset + 4)).toNat
    if dataEnd ≤ stop then do
      let chunks ← chunksFrom bytes stop (nextOffset bytes offset)
      return ⟨tag, offset, offset + 8, dataEnd⟩ :: chunks
    else .error (.chunkOverrun tag offset)
  else .ok []
termination_by stop - offset
decreasing_by
  have := lt_nextOffset bytes offset
  omega

/-- The first chunk with a tag. -/
def find? (c : Container) (tag : Tag) : Option Chunk := c.chunks.find? fun k => k.tag == tag

/-- The data of the first chunk with a tag. -/
def chunk? (c : Container) (tag : Tag) : Option (List Byte) :=
  (c.find? tag).map fun k => slice c.bytes k.start k.stop

/-- One entry of the resource index, at `a`. -/
def readResource (c : Container) (a : Nat) : Except ContainerError Resource :=
  let offset := (dwordAt c.bytes (a + 8)).toNat
  match c.chunks.findIdx? fun k => k.offset == offset with
  | some chunk =>
      .ok { usage := slice c.bytes a (a + 4), number := dwordAt c.bytes (a + 4), chunk }
  | none => .error (.unresolvedResource offset)

/-- The resource index; empty if there is none. -/
def readIndex (c : Container) : Except ContainerError (List Resource) :=
  match c.find? resourceIndex with
  | none => .ok []
  | some k =>
      let len := k.stop - k.start
      let count := (dwordAt c.bytes k.start).toNat
      if len < 4 ∨ len < count * 12 + 4 then .error (.shortChunk resourceIndex len)
      else (List.range count).mapM fun i => c.readResource (k.start + 4 + i * 12)

/-- The identity of the story, if a chunk gives it. -/
def readIdentity (c : Container) : Except ContainerError (Option StoryIdentity) :=
  match c.find? storyIdentity with
  | none => .ok none
  | some k =>
      let len := k.stop - k.start
      if len < 10 then .error (.shortChunk storyIdentity len)
      else .ok (some {
        release := wordAt c.bytes k.start
        serial := slice c.bytes (k.start + 2) (k.start + 8)
        checksum := wordAt c.bytes (k.start + 8) })

/-- The release number, if a chunk gives it; 0 if that chunk is too short. -/
def readRelease (c : Container) : Option Word :=
  (c.find? releaseNumber).map fun k =>
    if 2 ≤ k.stop - k.start then wordAt c.bytes k.start else 0

/-- Read a container. -/
def parse (bytes : Array Byte) : Except ContainerError Container := do
  if bytes.size < 12 ∨ slice bytes 0 4 ≠ form then throw .notAForm
  let type := slice bytes 8 12
  if type ≠ ifrs then throw (.notResourceFile type)
  let stop := (dwordAt bytes 4).toNat + 8
  if bytes.size < stop then throw (.chunkOverrun form 0)
  let chunks ← chunksFrom bytes stop 12
  let c : Container := { bytes, chunks }
  let resources ← c.readIndex
  let identity ← c.readIdentity
  return { c with resources, release := c.readRelease, identity }

/-- The story image: the executable resource if it is story code, else the first chunk of story
code. -/
def story (c : Container) : Except ContainerError (List Byte) :=
  let indexed := do
    let r ← c.resources.find? fun r => r.usage == executable
    let k ← c.chunks[r.chunk]?
    guard (k.tag = storyCode)
    return slice c.bytes k.start k.stop
  match indexed <|> c.chunk? storyCode with
  | some bytes => .ok bytes
  | none => .error (.missingChunk storyCode)

end Container

/-- Whether bytes begin like a container. -/
def isContainer (bytes : Array Byte) : Bool := Container.slice bytes 0 4 == Container.form

/-- The story image in a file, which is either the image itself or a container that holds it. -/
def loadStory (bytes : Array Byte) : Except ContainerError (Array Byte) := do
  if isContainer bytes then
    let c ← Container.parse bytes
    return (← c.story).toArray
  else return bytes

end ZMachine
