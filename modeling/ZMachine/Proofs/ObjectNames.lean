/-
  The names of objects as a story prints them.

  The name of an object stands at the beginning of its property table, behind
  the number of its words.  Printing it does not look at this number: it goes
  on up to the word that is marked as the last.  A name that was laid out has
  such a word, and is printed whole.  But nothing is laid out for the empty
  name, so what is printed then is what the properties come to as a text.
-/
import ZMachine.Proofs.FreshStart
import ZMachine.Proofs.ObjectMarks
import ZMachine.Proofs.Printing
import ZMachine.Proofs.TextRoundTrip

namespace ZMachine

/-! ## Printing on the screen -/

namespace Machine

variable {s : Machine} {text : String} {x : MachineM Outcome}

/-- The host after a text came up on the screen, and on the transcript if that is kept. -/
def told (s : Machine) (text : String) : Host :=
  if text = "" then s.host
  else
    let transcript := (OutputStreams.transcriptOn s.memory).toOption.getD false
    s.host.deliver ⟨true, transcript⟩ text

/-- Exactly a text is sent to the host, and nothing else comes of it. -/
def Sends (x : MachineM Outcome) (text : String) (s : Machine) : Prop :=
  x s = .ok .done { s with host := s.told text }

theorem told_empty (s : Machine) : s.told "" = s.host := rfl

/-- What was told can be told from the host. -/
theorem output_told (s : Machine) (text : String) :
    (s.told text).output = s.host.output ++ text := by
  unfold told
  split
  · rename_i empty
    rw [empty, String.append_empty]
  · dsimp only [Host.deliver]
    rw [if_pos rfl]
    split
    · unfold Host.copyToTranscript
      split <;> rfl
    · rfl

/-- No more than one text is sent. -/
theorem Sends.unique {text' : String} (h : Sends x text s) (h' : Sends x text' s) :
    text = text' := by
  have same := h.symm.trans h'
  have hosts : s.told text = s.told text' := by
    injection same with _ machines
    exact congrArg Machine.host machines
  have outputs := congrArg Host.output hosts
  rw [output_told, output_told] at outputs
  exact String.append_right_inj _ |>.mp outputs

theorem run_print_screen (roomy : s.Roomy) (screen : s.streams.screen = true)
    (outside : s.streams.tables = []) (text : String) :
    print text s = .ok () { s with host := s.told text } := by
  by_cases empty : text = ""
  · rw [empty, run_print_empty, told_empty]
  · have flags : HeaderField.flags2 + 2 ≤ s.memory.size := Nat.le_trans (by decide) roomy.header
    have on : OutputStreams.transcriptOn s.memory
        = .ok (s.memory.wordAt HeaderField.flags2 &&& transcriptBit != 0) := by
      rw [OutputStreams.transcriptOn, Memory.readWord_eq_ok.mpr ⟨flags, rfl⟩]
      rfl
    rw [run_print, write_outside outside _ empty, told, if_neg empty, on, screen]
    rfl

/-- A text at an address is sent if it is read there. -/
theorem sends_printAt_iff (roomy : s.Roomy) (screen : s.streams.screen = true)
    (outside : s.streams.tables = []) (a : Nat) :
    s.Sends (doing (printAt a)) text ↔ ∃ len, s.text.decode s.memory a = .ok (text, len) := by
  have run : doing (printAt a) s =
      match s.text.decode s.memory a with
      | .ok (read, _) => .ok .done { s with host := s.told read }
      | .error e => .error (.image e) s := by
    simp only [doing, printAt, ask, Bind.bind, EStateM.bind, run_get, liftM, monadLift,
      MonadLift.monadLift]
    cases s.text.decode s.memory a with
    | error e => rfl
    | ok p =>
        have printed := run_print_screen roomy screen outside p.1
        dsimp only [EStateM.pure, pure]
        rw [printed]
  -- What is sent is determined, so a text is sent exactly if it is the one that is read.
  cases decoded : s.text.decode s.memory a with
  | error e =>
      rw [decoded] at run
      constructor
      · intro sends
        cases run.symm.trans sends
      · rintro ⟨len, other⟩
        cases other
  | ok p =>
      rw [decoded] at run
      have sends : s.Sends (doing (printAt a)) p.1 := run
      constructor
      · intro also
        rw [also.unique sends]
        exact ⟨p.2, rfl⟩
      · rintro ⟨len, same⟩
        cases same
        exact sends

/-- For an object the text behind the number of its words is printed, if there is such a number. -/
theorem run_printObj {object : Word} {a : Nat} {len : Byte}
    (found : s.objects.shortName s.memory object = .ok (a, len)) :
    perform .printObj [object] s = doing (printAt a) s := by
  show ((ask fun m => s.objects.shortName m object) >>= fun name => doing (printAt name.1)) s = _
  simp only [ask, Bind.bind, EStateM.bind, run_get, liftM, monadLift, MonadLift.monadLift, found]

theorem run_printObj_error {object : Word} {e : Fault}
    (unnamed : s.objects.shortName s.memory object = .error e) :
    perform .printObj [object] s = .error e s := by
  show ((ask fun m => s.objects.shortName m object) >>= fun name => doing (printAt name.1)) s = _
  simp only [ask, Bind.bind, EStateM.bind, run_get, liftM, monadLift, MonadLift.monadLift, unnamed]

end Machine

/-! ## A name that was laid out -/

/-- What an image holds, another one holds that has the same bytes there. -/
theorem Memory.Holds.congr {m n : Memory} {a : Nat} {bs : List Byte} (holds : m.Holds a bs)
    (size : n.size = m.size) (same : ∀ x, a ≤ x → x < a + bs.length → n.byteAt x = m.byteAt x) :
    n.Holds a bs := by
  induction bs generalizing a with
  | nil => exact trivial
  | cons b bs ih =>
      obtain ⟨inside, here, rest⟩ := holds
      rw [List.length_cons] at same
      refine ⟨size ▸ inside, (same a (Nat.le_refl a) (by omega)).trans here, ?_⟩
      exact ih rest fun x low high => same x (by omega) (by omega)

namespace ObjectTable

open ObjectEntry Assembler

variable {t : ObjectTable} {m : Memory} {object : Word} {o : ObjectEntry} {b : Nat}

/-- A name stands behind the number of its words. -/
theorem Placed.shortName (placed : t.Placed m object o b) :
    ∃ count, t.shortName m object = .ok (b + 1, count) ∧
      (o.name ≠ "" → m.Holds (b + 1) (wordBytes (encodeText t.version o.name.toList))) := by
  have name : m.Holds b (nameBytes t.version o.name) := (Memory.holds_append.mp placed.table).1
  obtain ⟨count, words, split, spelled⟩ :
      ∃ count words, nameBytes t.version o.name = count :: words ∧
      (o.name ≠ "" → words = wordBytes (encodeText t.version o.name.toList)) := by
    unfold nameBytes
    by_cases empty : o.name = ""
    · exact ⟨0, [], by rw [empty]; rfl, fun other => absurd empty other⟩
    · rw [String.isEmpty_eq_false_iff.mpr empty]
      exact ⟨_, _, rfl, fun _ => rfl⟩
  rw [split] at name
  refine ⟨count, ?_, ?_⟩
  · simp only [ObjectTable.shortName, placed.propertyTable, name.readByte, Bind.bind,
      Except.bind, pure, Except.pure, liftM, monadLift, MonadLift.monadLift]
  · intro filled
    rw [← spelled filled]
    exact name.2.2

end ObjectTable

namespace Machine

open ObjectEntry

variable {s : Machine} {o : ObjectEntry} {object : Word} {b : Nat} {text : String}

/-- A name of printable characters is printed as it was laid out, unless it is empty: then what is
printed is the text that is read behind the number of its words. -/
theorem sends_printObj_iff (placed : s.objects.Placed s.memory object o b) (roomy : s.Roomy)
    (screen : s.streams.screen = true) (outside : s.streams.tables = [])
    (known : 1 ≤ s.objects.version) (version : s.text.version = s.objects.version)
    (alphabets : s.text.alphabets = .default s.objects.version)
    (plain : ∀ c ∈ o.name.toList, PlainChar c) :
    s.Sends (perform .printObj [object]) text ↔
      (o.name ≠ "" → text = o.name) ∧
        (o.name = "" → ∃ len, s.text.decode s.memory (b + 1) = .ok (text, len)) := by
  obtain ⟨count, found, spelled⟩ := placed.shortName
  have prints : s.Sends (perform .printObj [object]) text ↔
      ∃ len, s.text.decode s.memory (b + 1) = .ok (text, len) := by
    rw [← sends_printAt_iff roomy screen outside, Sends, Sends, run_printObj found]
  -- An empty name has no words, so what is read begins at whatever comes behind.
  rw [prints]
  by_cases empty : o.name = ""
  · exact ⟨fun decoded => ⟨fun filled => absurd empty filled, fun _ => decoded⟩,
      fun either => either.2 empty⟩
  · -- The last word of a name that was laid out is marked, so that all of it is read and no more.
    have decoded : s.text.decode s.memory (b + 1)
        = .ok (o.name, (encodeText s.objects.version o.name.toList).length * 2) := by
      obtain ⟨terminated, -⟩ := unpack_encodeText s.objects.version o.name.toList
      have words := Memory.textWords_of_holds terminated (spelled empty)
      have decoded := TextTables.decodeWords_encodeText (t := s.text) (version ▸ known)
        (version ▸ alphabets) plain s.memory
      rw [version] at decoded
      simp only [TextTables.decode, words, decoded, Bind.bind, Except.bind, pure, Except.pure]
    rw [decoded]
    constructor
    · rintro ⟨len, same⟩
      exact ⟨fun _ => (Prod.mk.inj (Except.ok.inj same)).1.symm, fun ended => absurd ended empty⟩
    · intro either
      exact ⟨_, by rw [either.1 empty]⟩

/-- A number that no object has stops the story. -/
theorem not_sends_printObj (beyond : s.objects.count < object.toNat) :
    ¬s.Sends (perform .printObj [object]) text := by
  have missing : s.objects.entry object = .error (.invalidObject object) :=
    if_pos (.inr beyond)
  have unnamed : s.objects.shortName s.memory object = .error (.invalidObject object) := by
    rw [ObjectTable.shortName, ObjectTable.propertyTable, missing]
    rfl
  intro sends
  cases (run_printObj_error unnamed).symm.trans sends

/-! ## What was read from an image -/

variable {image : Array Byte} {options : MachineOptions} {host : Host} {m : Machine}

/-- A story without alphabets of its own has those of its version. -/
theorem Arises.alphabets (arises : Arises image options host m)
    (usual : m.header.alphabetTable = 0) :
    m.text.version = m.objects.version ∧ m.text.alphabets = .default m.objects.version := by
  obtain ⟨m', loads, same⟩ := arises.sameStory
  obtain ⟨h, t, -, tables, first⟩ := story_of_load loads
  have story := first.trans same
  have header : m.header = h := story.header
  have texts : m.text = t := story.text
  have objects : m.objects = .ofHeader (.ofBytes image) h := story.objects
  rw [header] at usual
  rw [texts, objects]
  exact TextTables.alphabets_of_read tables usual

end Machine

/-- Where the property table of an object stands, if the object table stands at `a`. -/
def ObjectEntry.tableAt (version : Nat) (objects : List ObjectEntry) (a i : Nat) : Nat :=
  let layout := ObjectLayout.of version
  tableStart version objects (a + layout.defaults * 2 + objects.length * layout.entrySize) i

/-! ## A story with an object table -/

namespace Assembler

variable {version : Byte} {defaults : List Word} {objects : List ObjectEntry}
    {before after : List Emission}
  {image : Array Byte} {options : MachineOptions} {host : Host} {s : Machine}

/-- The state has the same object table as the image. -/
def KeepsTable (version : Byte) (before : List Emission) (defaults : List Word)
    (objects : List ObjectEntry) (image : Array Byte) (s : Machine) : Prop :=
  ∀ x, ((start version).assemble before).position ≤ x →
    x < (((start version).assemble before).objectTable defaults objects).2.position →
      s.memory.byteAt x = (Memory.ofBytes image).byteAt x

/-- The same object table comes of objects with attributes that the version has. -/
theorem LaidOut.unmarked (laid : LaidOut version before defaults objects after image)
    (among : ObjectEntry.Among version.toNat objects) :
    ∃ objects', objects'.map ObjectEntry.unmarked = objects.map ObjectEntry.unmarked ∧
      (∀ o ∈ objects', o.Fits version.toNat) ∧
      LaidOut version before defaults objects' after image ∧
      (KeepsTable version before defaults objects image s →
        KeepsTable version before defaults objects' image s) := by
  obtain ⟨begins, -, -⟩ := assemble_start version before
  obtain ⟨objects', same, fits, table⟩ :=
    objectTable_among (begins ▸ payloads_of_finish laid.finished) (begins ▸ among) defaults
  rw [begins] at fits
  -- Both tables are the same bytes, so all that is said of one holds of the other.
  refine ⟨objects', same, fits, ⟨laid.known, table ▸ laid.near, ?_, laid.unchanged, ?_⟩, ?_⟩
  · have finished := laid.finished
    rw [assemble_append, assemble_cons] at finished ⊢
    show (assemble (objectTable _ defaults objects').2 after).finish = _
    rw [← table]
    exact finished
  · intro e mem x kept
    refine laid.unpatched e mem x ?_
    rwa [OfObjectTable, table]
  · intro kept x low high
    refine kept x low ?_
    rwa [table]

/-- The numbers of all objects fit into words, since their entries do not reach further. -/
theorem LaidOut.length_lt (laid : LaidOut version before defaults objects after image)
    (fits : ∀ o ∈ objects, o.Fits version.toNat) : objects.length < 65536 := by
  obtain ⟨begins, -, -⟩ := assemble_start version before
  have near := laid.near
  rw [objectTable_emits (begins ▸ fits), position_patchWord, position_emit, objectTableBytes,
    List.length_append, length_wordBytes, List.length_map, List.length_range, List.length_append,
    ObjectEntry.length_entryRow, begins] at near
  -- An entry has at least one byte, and the words in front of the entries take some as well.
  have wide : 1 ≤ (ObjectLayout.of version.toNat).entrySize := by
    unfold ObjectLayout.of
    split <;> decide
  have := Nat.le_mul_of_pos_right objects.length wide
  have positive : 1 ≤ (ObjectLayout.of version.toNat).defaults := by
    unfold ObjectLayout.of
    split <;> decide
  omega

/-- In every state that still has the object table, the objects have their places. -/
theorem LaidOut.placed (laid : LaidOut version before defaults objects after image)
    (fits : ∀ o ∈ objects, o.Fits version.toNat) (arises : Machine.Arises image options host s)
    (kept : KeepsTable version before defaults objects image s) (nonempty : 1 ≤ objects.length) :
    s.objects.version = version.toNat ∧
      s.objects.count = min objects.length (ObjectLayout.of version.toNat).maxObjects ∧
      ∀ i o, objects[i]? = some o → i < (ObjectLayout.of version.toNat).maxObjects →
        s.objects.Placed s.memory (i + 1).toUInt16 o
          (ObjectEntry.tableAt version.toNat objects
            ((start version).assemble before).position i) := by
  obtain ⟨h, reads, version', position, stands⟩ := laid.exists_header fits
  -- The state has the sizes and the objects that were read from the image.
  obtain ⟨m, loads, same⟩ := arises.sameStory
  obtain ⟨h', t, reads', -, first⟩ := Machine.story_of_load loads
  obtain rfl : h' = h := Except.ok.inj (reads'.symm.trans reads)
  have story := first.trans same
  have objects_eq : s.objects = .ofHeader (.ofBytes image) h' := story.objects
  -- It also has the object table itself.
  obtain ⟨begins, -, -⟩ := assemble_start version before
  rw [KeepsTable, objectTable_emits (begins ▸ fits), position_patchWord, position_emit,
    begins, ← position, ← version'] at kept
  have stands' : ObjectTable.StandsFor s.memory h' defaults objects :=
    ⟨stands.named, stands.holds.congr story.size kept, stands.near⟩
  obtain ⟨count, -, -⟩ := stands.placed_below nonempty
  obtain ⟨count', -, placed⟩ := stands'.placed_below nonempty
  -- The objects are counted once, when the story is loaded; counting them again gives the same.
  have table : ObjectTable.ofHeader s.memory h' = s.objects := by
    rw [objects_eq]
    have counts := count'.trans count.symm
    unfold ObjectTable.ofHeader at counts ⊢
    dsimp only at counts ⊢
    rw [counts]
  rw [table] at placed count'
  rw [← version', ← position]
  exact ⟨by rw [objects_eq]; rfl, count', placed⟩

end Assembler

namespace Machine

open Assembler

variable {version : Byte} {defaults : List Word} {objects : List ObjectEntry}
    {before after : List Emission}
  {image : Array Byte} {options : MachineOptions} {host : Host} {s : Machine} {i : Nat}
  {o : ObjectEntry}

/-- What is printed for an object, if the version has all attributes that were laid out. -/
theorem sends_printObj_iff_of_fits (laid : LaidOut version before defaults objects after image)
    (fits : ∀ o ∈ objects, o.Fits version.toNat) (arises : Arises image options host s)
    (usual : s.header.alphabetTable = 0) (kept : KeepsTable version before defaults objects image s)
    (screen : s.streams.screen = true) (outside : s.streams.tables = [])
    (listed : objects[i]? = some o) (plain : ∀ c ∈ o.name.toList, PlainChar c) (text : String) :
    s.Sends (perform .printObj [(i + 1).toUInt16]) text ↔
      i < (ObjectLayout.of version.toNat).maxObjects ∧ (o.name ≠ "" → text = o.name) ∧
        (o.name = "" → ∃ len, s.text.decode s.memory (ObjectEntry.tableAt version.toNat objects
          ((Assembler.start version).assemble before).position i + 1) = .ok (text, len)) := by
  obtain ⟨inside, -⟩ := List.getElem?_eq_some_iff.mp listed
  obtain ⟨same, count, placed⟩ := laid.placed fits arises kept (by omega)
  obtain ⟨version', alphabets⟩ := arises.alphabets usual
  by_cases few : i < (ObjectLayout.of version.toNat).maxObjects
  · rw [sends_printObj_iff (placed i o listed few) arises.roomy screen outside
      (same ▸ laid.known.1) version' alphabets plain]
    exact ⟨fun either => ⟨few, either⟩, fun all => all.2⟩
  · have room := laid.length_lt fits
    have number : (i + 1).toUInt16.toNat = i + 1 := by
      rw [UInt16.toNat_ofNat']
      omega
    refine ⟨fun sends => absurd sends (not_sends_printObj ?_), fun all => absurd all.1 few⟩
    rw [number, count]
    omega

/-- Let a story have an object table that was laid out with names of printable characters
and attributes that stay in the entries, no alphabets of its own and output on the screen.
If the version can have so many objects, printing the name of an object sends exactly that
name, whatever properties the object has, unless the name is empty: then it sends what is
read as a text behind the empty name. -/
theorem printObj_sends_iff (laid : LaidOut version before defaults objects after image)
    (among : ObjectEntry.Among version.toNat objects)
    (plain : ∀ o ∈ objects, ∀ c ∈ o.name.toList, PlainChar c) (arises : Arises image options host s)
    (usual : s.header.alphabetTable = 0) (kept : KeepsTable version before defaults objects image s)
    (screen : s.streams.screen = true) (outside : s.streams.tables = [])
    (listed : objects[i]? = some o) (text : String) :
    s.Sends (perform .printObj [(i + 1).toUInt16]) text ↔
      i < (ObjectLayout.of version.toNat).maxObjects ∧ (o.name ≠ "" → text = o.name) ∧
        (o.name = "" → ∃ len, s.text.decode s.memory (ObjectEntry.tableAt version.toNat objects
          ((Assembler.start version).assemble before).position i + 1) = .ok (text, len)) := by
  -- Attributes that the version lacks fall into other entries, so other objects may have
  -- them; names stay.
  obtain ⟨objects', same, fits, laid', keeps⟩ := laid.unmarked among
  have alike :
      (objects'.map ObjectEntry.unmarked)[i]? = (objects.map ObjectEntry.unmarked)[i]? := by
    rw [same]
  rw [List.getElem?_map, List.getElem?_map, listed] at alike
  obtain ⟨o', listed', unmarked⟩ := Option.map_eq_some_iff.mp alike
  have name : o'.name = o.name := by
    have names := congrArg ObjectEntry.name unmarked
    exact names
  have count : objects'.length = objects.length := by
    simpa using congrArg List.length same
  have plain' : ∀ c ∈ o'.name.toList, PlainChar c := by
    rw [name]
    exact plain o (List.mem_of_getElem? listed)
  have prints :=
    sends_printObj_iff_of_fits laid' fits arises usual (keeps kept) screen outside listed' plain'
    text
  rw [name, ObjectEntry.tableAt, count, ObjectEntry.tableStart_of_unmarked same] at prints
  exact prints

end Machine

open Assembler ObjectEntry Machine

/-- A box, and behind it something without a name that has a property. -/
def boxAndMore : List ObjectEntry :=
  [{ name := "box" }, { properties := [(24, [0xa5, 0, 0, 0, 0])] }]

/-- An image with these objects and nothing else. -/
def boxImage : Array Byte :=
  overwrite (overwrite
    (overwrite (overwrite (Array.replicate 156 0) 0 [3, 0, 0, 0, 0, 0, 0, 0, 0, 0, 0, 64])
    26 [0, 78, 3, 157]) 133 [0, 144]) 142 [0, 148, 1, 0x9e, 0x9d, 0, 0, 0x98, 0xa5]

theorem fits_boxAndMore : ∀ o ∈ boxAndMore, o.Fits 3 := by
  intro o mem
  rcases List.mem_cons.mp mem with rfl | mem
  · constructor <;> decide +kernel
  · obtain rfl := List.mem_singleton.mp mem
    constructor <;> decide +kernel

theorem objectTableBytes_boxAndMore :
    objectTableBytes 3 [] boxAndMore 64 = boxImage.toList.drop 64 := by
  -- Sorting does not compute, so the property tables come first.
  have box : tableBytes 3 { name := "box" } = [1, 0x9e, 0x9d, 0] := by
    simp only [tableBytes, ordered, sortProperties, List.mergeSort_nil]
    decide +kernel
  have unnamed : tableBytes 3 { properties := [(24, [0xa5, 0, 0, 0, 0])] }
      = [0, 0x98, 0xa5, 0, 0, 0, 0, 0] := by
    simp only [tableBytes, ordered, sortProperties, List.mergeSort_singleton]
    decide +kernel
  simp only [objectTableBytes, boxAndMore, entryRow, List.flatMap_cons, List.flatMap_nil,
    box, unnamed]
  decide +kernel

theorem objectTable_boxAndMore : (start 3).objectTable [] boxAndMore
    = (64, ((start 3).emit (boxImage.toList.drop 64)).patchWord HeaderField.objectTable 64) := by
  have laid := @objectTable_emits (start 3) boxAndMore fits_boxAndMore []
  rw [laid, ← objectTableBytes_boxAndMore]
  rfl

theorem finish_boxAndMore :
    ((start 3).assemble [.objectTable [] boxAndMore]).finish = .ok boxImage := by
  show ((start 3).objectTable [] boxAndMore).2.finish = _
  rw [objectTable_boxAndMore]
  refine (Except.eq_ok_getD #[] ?_).trans (congrArg _ ?_) <;> decide +kernel

/-- The machine after this image was loaded. -/
def Machine.boxed : Machine := (load boxImage {} {}).toOption.getD default

theorem Machine.loaded_boxed : load boxImage {} {} = .ok boxed :=
  Except.eq_ok_getD _ (by decide +kernel)

theorem Machine.decode_behind_unnamed : boxed.text.decode boxed.memory 149 = .ok ("a", 2) := by
  refine (Except.eq_ok_getD ("", 0) ?_).trans (congrArg _ ?_) <;> decide +kernel

theorem Machine.printObj_sends_iff_box :
    boxed.Sends (perform .printObj [1]) "box" ∧ boxed.Sends (perform .printObj [2]) "a" := by
  have position : (((Assembler.start 3).assemble []).objectTable [] boxAndMore).2.position
      = 156 := by
    show ((Assembler.start 3).objectTable [] boxAndMore).2.position = 156
    rw [objectTable_boxAndMore]
    decide +kernel
  -- Loading writes into the header alone, so the table is as it was laid out.
  have same : boxed.memory.bytes.toList.drop 64 = boxImage.toList.drop 64 := by decide +kernel
  have kept (x : Nat) (low : 64 ≤ x) (_ : x < 156) :
      boxed.memory.byteAt x = (Memory.ofBytes boxImage).byteAt x := by
    have byte := congrArg (fun bs => bs.getD (x - 64) 0) same
    simpa [List.getD_eq_getElem?_getD, List.getElem?_drop, Nat.add_sub_cancel' low, Memory.byteAt,
      Memory.ofBytes, Array.getD_eq_getD_getElem?] using byte
  have starts : tableAt 3 boxAndMore 64 1 = 148 := by
    simp only [tableAt, tableStart, boxAndMore, List.take_succ_cons, List.take_zero,
      List.flatMap_cons, List.flatMap_nil, List.append_nil, length_tableBytes]
    decide +kernel
  have all : boxAndMore.all (fun o => o.name.toList.all fun c => decide (PlainChar c)) = true := by
    decide +kernel
  have plain : ∀ o ∈ boxAndMore, ∀ c ∈ o.name.toList, PlainChar c := fun o listed c mem =>
    of_decide_eq_true (List.all_eq_true.mp (List.all_eq_true.mp all o listed) c mem)
  have laid : LaidOut 3 [] [] boxAndMore [] boxImage :=
    ⟨by decide, by rw [position]; decide, finish_boxAndMore, by simp, by simp⟩
  have keeps : KeepsTable 3 [] [] boxAndMore boxImage boxed := by
    rw [KeepsTable, position]
    exact kept
  have sends {i : Nat} {o : ObjectEntry} (listed : boxAndMore[i]? = some o) (text : String) :=
    printObj_sends_iff laid (among_of_attributes fun o mem => (fits_boxAndMore o mem).attributes)
      plain (.loaded loaded_boxed) (by decide +kernel) keeps (by decide +kernel)
      (by decide +kernel) listed text
  have box := sends (i := 0) rfl "box"
  have unnamed := sends (i := 1) rfl "a"
  refine ⟨box.mpr ⟨by decide, fun _ => rfl, fun empty => absurd empty (by decide)⟩,
    unnamed.mpr ⟨by decide, fun filled => absurd rfl filled, fun _ => ⟨2, ?_⟩⟩⟩
  show boxed.text.decode boxed.memory (tableAt 3 boxAndMore 64 1 + 1) = _
  rw [starts]
  exact decode_behind_unnamed

/-- What has no name is not always printed as nothing: its properties can be read as a text. -/
theorem Machine.exists_misnamed :
    ∃ (objects : List ObjectEntry) (image : Array Byte) (s : Machine) (o : ObjectEntry),
    ((Assembler.start 3).assemble [.objectTable [] objects]).finish = .ok image ∧
    load image {} {} = .ok s ∧
      s.header.alphabetTable = 0 ∧ s.streams.screen = true ∧ s.streams.tables = [] ∧
      objects[1]? = some o ∧ o.name = "" ∧
      s.Sends (perform .printObj [2]) "a" ∧ ¬s.Sends (perform .printObj [2]) o.name := by
  have screen : boxed.streams.screen = true := by decide +kernel
  have outside : boxed.streams.tables = [] := by decide +kernel
  have found : boxed.objects.shortName boxed.memory 2 = .ok (149, 0) := by
    refine (Except.eq_ok_getD (0, 0) ?_).trans (congrArg _ ?_) <;> decide +kernel
  have roomy := (Arises.loaded loaded_boxed).roomy
  -- The address is that of the size of the first property, which is read as the first
  -- byte of a text.
  have sends : boxed.Sends (perform .printObj [2]) "a" := by
    rw [Sends, run_printObj found]
    exact (sends_printAt_iff roomy screen outside 149).mpr ⟨2, decode_behind_unnamed⟩
  refine ⟨boxAndMore, boxImage, boxed, _, finish_boxAndMore,
    loaded_boxed, by decide +kernel, screen,
    outside, rfl, rfl, sends, fun nothing => ?_⟩
  have same := sends.unique nothing
  revert same
  decide

end ZMachine
