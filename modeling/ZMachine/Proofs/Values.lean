/-
  Operations on values.

  An operation on values works on bytes of the image, on the words of the
  running routine, and with the host.  It sees little else of the machine, and
  where the frames are or how the routine was entered is not part of that.
  Here every operation is taken apart, once; whatever holds of the parts, and
  of parts that follow one another, holds of every operation.
-/
import ZMachine.Machine.Step
import ZMachine.Proofs.ImageActions

namespace ZMachine

/-! ## Calm hosts -/

/-- A host that looks for no text raises no stop request by itself. -/
def Host.Calm (h : Host) : Prop := h.stopText = none ∧ h.interrupted = false

namespace Host.Calm

variable {h : Host}

theorem print (calm : h.Calm) (text : String) : (h.print text).Calm :=
  ⟨calm.1, by simp [Host.print, calm.1, calm.2]⟩

theorem copyToTranscript (calm : h.Calm) (text : String) : (h.copyToTranscript text).Calm := by
  unfold Host.copyToTranscript
  split <;> exact calm

theorem deliver (calm : h.Calm) (d : Delivery) (text : String) : (h.deliver d text).Calm := by
  unfold Host.deliver
  cases d.screen <;> cases d.transcript
  · exact calm
  · exact calm.copyToTranscript text
  · exact calm.print text
  · exact (calm.print text).copyToTranscript text

theorem showStatus (calm : h.Calm) (status : StatusLine) : (h.showStatus status).Calm := by
  unfold Host.showStatus
  split <;> exact calm

theorem screen (calm : h.Calm) (command : ScreenCommand) : (h.screen command).Calm := by
  unfold Host.screen
  repeat' split
  all_goals exact calm

theorem readLine (calm : h.Calm) (limit : Nat) : (h.readLine limit).2.Calm := by
  unfold Host.readLine
  split <;> exact calm

theorem readChar (calm : h.Calm) : h.readChar.2.Calm := by
  unfold Host.readChar
  repeat' split
  all_goals exact calm

end Host.Calm

/-! ## Places and sizes -/

namespace Machine

/-- Places that a word names are far below the last address. -/
theorem near_word (w : Word) {offset : Nat} (h : offset ≤ 0x20000) :
    w.toNat + offset ≤ DecodeCache.lastAddress := by
  have := w.toNat_lt
  simp only [DecodeCache.lastAddress, addressSpace]
  omega

theorem near_globalAddress (s : Machine) (index : Byte) :
    s.globalAddress index + 2 ≤ DecodeCache.lastAddress := by
  have := index.toNat_lt
  unfold globalAddress
  rw [Nat.add_assoc]
  exact near_word _ (by omega)

theorem natAbs_signed (w : Word) : (Word.signed w).natAbs ≤ 0x10000 := by
  have low := Int16.le_toInt w.toInt16
  have high := Int16.toInt_lt w.toInt16
  unfold Word.signed
  omega

theorem length_pack (zs : List Byte) : (ZChars.pack zs).length ≤ zs.length := by
  fun_induction ZChars.pack zs <;> simp_all
  omega

/-- Dictionary words are a few words long. -/
theorem length_encodeWord (t : TextTables) (typed : List Byte) :
    (t.encodeWord typed).length ≤ 9 := by
  unfold TextTables.encodeWord
  refine Nat.le_trans (length_pack _) ?_
  have : t.dictionaryWords ≤ 3 := by
    unfold TextTables.dictionaryWords
    split <;> omega
  simp only [List.length_append, List.length_replicate, List.length_take]
  omega

end Machine

/-! ## Actions on values -/

/-- Opcodes that may write to the image without dropping what was decoded from it: those that change
objects and properties, print, or fill buffers. -/
def Opcode.writesUntracked : Opcode → Bool
  | .setAttr | .clearAttr | .insertObj | .removeObj | .putProp | .print | .printRet | .newLine
  | .printChar | .printUnicode | .printNum | .printAddr | .printPaddr | .printObj | .printTable
  | .tokenise | .outputStream | .sread | .aread => true
  | _ => false

namespace Machine

variable {raw : Bool} {α β : Type}

/-- What operations on values may look at, besides words of the running routine and the number of
its arguments: no observers, nothing that was decoded, no stack, and nothing of the flow of
control. -/
def outline (s : Machine) : Machine :=
  { s with
    memory := s.memory.plain
    code := default
    stack := default
    pc := 0
    events := {}
    nested := 0
    lastReturn := none }

/-- Actions put together from parts that work on values.  `raw` permits writes that drop nothing of
what was decoded. -/
inductive OnValues (raw : Bool) : {α : Type} → MachineM α → Prop where
  | pure {α : Type} (a : α) : OnValues raw (Pure.pure a)
  | throw {α : Type} (e : Fault) : OnValues raw (MonadExcept.throw e : MachineM α)
  | bind {α β : Type} {x : MachineM α} {f : α → MachineM β} (hx : OnValues raw x)
      (hf : ∀ a, OnValues raw (f a)) : OnValues raw (x >>= f)
  | look {α : Type} {f : Machine → MachineM α} (h : ∀ s, f s.outline = f s)
      (hf : ∀ s, OnValues raw (f s)) : OnValues raw (get >>= f)
  /-- The number of arguments of the running routine is looked at. -/
  | argumentCount {α : Type} {f : Nat → MachineM α} (hf : ∀ n, OnValues raw (f n)) :
      OnValues raw (do
        let frame ← (← get).stack.current
        f frame.argumentCount)
  | push (w : Word) : OnValues raw (push w)
  | pop : OnValues raw pop
  | peek : OnValues raw (peekVariable .stack)
  | replaceTop (w : Word) : OnValues raw (replaceVariable .stack w)
  | inMemory {α : Type} {x : MemoryM α} (permitted : raw = true) (tame : x.Tame) :
      OnValues raw (inMemory x)
  /-- A write on behalf of the story.  The story names the place by a word, give or take an
  index. -/
  | write (a : Nat) (bs : List Byte) (nonempty : bs ≠ [])
      (near : a + bs.length ≤ DecodeCache.lastAddress) :
      OnValues raw (do Machine.inMemory (MemoryM.writeBytes a bs); touched a bs.length)
  | host {α : Type} (f : Host → α × Host) (calm : ∀ h : Host, h.Calm → (f h).2.Calm) :
      OnValues raw fun s => .ok (f s.host).1 { s with host := (f s.host).2 }
  | setStreams (streams : OutputStreams) :
      OnValues raw (modify fun s => { s with streams } : MachineM PUnit)
  | setRandom (random : RandomSource) :
      OnValues raw (modify fun s => { s with random } : MachineM PUnit)

namespace OnValues

theorem mono {raw' : Bool} (wider : raw = true → raw' = true) {x : MachineM α}
    (h : OnValues raw x) : OnValues raw' x := by
  induction h with
  | pure a => exact .pure a
  | throw e => exact .throw e
  | bind _ _ ihx ihf => exact ihx.bind ihf
  | look h _ ih => exact .look h ih
  | argumentCount _ ih => exact .argumentCount ih
  | push w => exact .push w
  | pop => exact .pop
  | peek => exact .peek
  | replaceTop w => exact .replaceTop w
  | inMemory permitted tame => exact .inMemory (wider permitted) tame
  | write a bs nonempty near => exact .write a bs nonempty near
  | host f calm => exact .host f calm
  | setStreams streams => exact .setStreams streams
  | setRandom random => exact .setRandom random

theorem lift (x : Except Fault α) : OnValues raw (liftM x : MachineM α) := by
  cases x with
  | ok a => exact .pure a
  | error e => exact .throw e

theorem map {x : MachineM α} (f : α → β) (hx : OnValues raw x) : OnValues raw (f <$> x) := by
  rw [map_eq_pure_bind]
  exact hx.bind fun a => .pure (f a)

theorem discard {x : MachineM α} (hx : OnValues raw x) : OnValues raw (Functor.discard x) :=
  hx.map _

theorem ite {x y : MachineM α} (c : Prop) [Decidable c] (hx : OnValues raw x)
    (hy : OnValues raw y) : OnValues raw (if c then x else y) := by
  split
  · exact hx
  · exact hy

theorem forM {x : β → MachineM PUnit} (bs : List β) (hx : ∀ b ∈ bs, OnValues raw (x b)) :
    OnValues raw (bs.forM x) := by
  induction bs with
  | nil => exact .pure _
  | cons b bs ih =>
      exact (hx b List.mem_cons_self).bind fun _ => ih fun b' mem =>
        hx b' (List.mem_cons_of_mem b mem)

theorem ask {ε : Type} [MonadLiftT (Except ε) (Except Fault)] {f : Memory → Except ε α}
    (h : Memory.Lookup f) : OnValues raw (ask f) := by
  refine .look (fun s => ?_) fun s => lift _
  exact congrArg (fun x => (liftM (liftM x : Except Fault α) : MachineM α)) (h s.memory)

theorem tell {f : Host → Host} (calm : ∀ h : Host, h.Calm → (f h).Calm) : OnValues raw (tell f) :=
  .host (fun h => ((), f h)) calm

/-! ### Memory, printing and input -/

theorem storeByte {a : Nat} (b : Byte) (near : a + 1 ≤ DecodeCache.lastAddress) :
    OnValues raw (storeByte a b) := .write a [b] (List.cons_ne_nil _ _) near

theorem storeWord {a : Nat} (w : Word) (near : a + 2 ≤ DecodeCache.lastAddress) :
    OnValues raw (storeWord a w) := .write a (Word.bytes w) (List.cons_ne_nil _ _) near

theorem readGlobal (i : Byte) : OnValues raw (readGlobal i) :=
  .look (fun _ => rfl) fun _ => ask fun _ => rfl

theorem writeGlobal (i : Byte) (w : Word) : OnValues raw (writeGlobal i w) :=
  .look (fun _ => rfl) fun s => storeWord w (near_globalAddress s i)

theorem print (text : String) : OnValues true (print text) := by
  refine .look (fun _ => rfl) fun s => .look (fun _ => rfl) fun t => ?_
  exact (inMemory rfl (OutputStreams.tame_write _ _ _)).bind fun _ => tell fun _ calm =>
    calm.deliver _ _

theorem printAt (a : Nat) : OnValues true (printAt a) :=
  .look (fun _ => rfl) fun s => (ask (s.text.lookup_decode a)).bind fun _ => print _

theorem printWords (ws : List Word) : OnValues true (printWords ws) :=
  .look (fun _ => rfl) fun s => (ask (s.text.lookup_decodeWords ws)).bind fun _ => print _

theorem statusLine : OnValues raw statusLine := by
  refine .look (fun _ => rfl) fun s => (readGlobal 0).bind fun object => ite _ ?_ ?_
  · refine (OnValues.pure _).bind fun location => (readGlobal 1).bind fun first => ?_
    exact (readGlobal 2).bind fun second => (ask fun _ => rfl).bind fun flags => .pure _
  · refine (ask fun _ => rfl).bind fun name => ?_
    refine (map _ (ask (s.text.lookup_decode _))).bind fun location => ?_
    refine (readGlobal 1).bind fun first => (readGlobal 2).bind fun second => ?_
    exact (ask fun _ => rfl).bind fun flags => .pure _

theorem showStatus : OnValues raw showStatus :=
  .look (fun _ => rfl) fun _ =>
    ite _ (statusLine.bind fun _ => tell fun _ calm => calm.showStatus _) (.pure _)

theorem lineCapacity (buffer : Nat) : OnValues raw (lineCapacity buffer) :=
  .look (fun _ => rfl) fun _ => (ask fun _ => rfl).bind fun _ => .pure _

theorem finishLine (textBuffer parseBuffer : Nat) (line : String) :
    OnValues true (finishLine textBuffer parseBuffer line) := by
  refine (lineCapacity _).bind fun _ => .look (fun _ => rfl) fun s =>
    .look (fun _ => rfl) fun t => ?_
  refine (inMemory rfl (tame_fillBuffer _ _ _)).bind fun _ => ite _ (.pure _) ?_
  refine (ask fun _ => rfl).bind fun dictionary => ?_
  exact (inMemory rfl (tame_tokenise _ _ _ _ _)).bind fun _ => .pure _

theorem finishChar (c : Char) : OnValues raw (finishChar c) := .look (fun _ => rfl) fun _ => .pure _

theorem hostLine (capacity : Nat) : OnValues raw (hostLine capacity) :=
  .host (·.readLine capacity) fun _ calm => calm.readLine capacity

theorem hostChar : OnValues raw hostChar := .host Host.readChar fun _ calm => calm.readChar

theorem pullFromTable (table : Word) : OnValues raw (pullFromTable table.toNat) := by
  refine (ask fun _ => rfl).bind fun _ => (ask fun _ => rfl).bind fun _ => ?_
  exact (storeWord _ (near_word _ (by omega))).bind fun _ => .pure _

/-! ### Operations -/

theorem doing {x : MachineM Unit} (h : OnValues raw x) : OnValues raw (doing x) :=
  h.bind fun _ => .pure _

theorem screen (command : ScreenCommand) : OnValues raw (screen command) :=
  (tell fun _ calm => calm.screen command).bind fun _ => .pure _

theorem copyTable (first second : Word) {size : Int} (h : size.natAbs ≤ 0x10000) :
    OnValues raw (copyTable first second size) := by
  have near (w : Word) {i : Nat} (hi : i < size.natAbs) :
      w.toNat + i + 1 ≤ DecodeCache.lastAddress := by
    rw [Nat.add_assoc]
    exact near_word w (by omega)
  have copy (source : Nat) {target : Nat} (near : target + 1 ≤ DecodeCache.lastAddress) :
      OnValues raw (copyByte source target) := (ask fun _ => rfl).bind fun _ => storeByte _ near
  refine ite _ ?_ (ite _ ?_ ?_)
  · exact forM _ fun i mem => storeByte _ (near _ (List.mem_range.mp mem))
  · exact forM _ fun i mem => copy _ (near _ (List.mem_range.mp mem))
  · exact forM _ fun i mem => copy _ (near _ (List.mem_range.mp (List.mem_reverse.mp mem)))

theorem printTable (width skip height a : Nat) (isFirst : Bool) :
    OnValues true (printTable width skip height a isFirst) := by
  induction height generalizing a isFirst with
  | zero => exact .pure _
  | succ height ih =>
      have row : OnValues true (do
          let bytes ← Machine.ask (·.readBytes a width)
          let tables := (← get).text
          Machine.print (String.ofList (bytes.filterMap fun b => tables.charOfZscii b.toNat))
          Machine.printTable width skip height (a + width + skip) false) := by
        refine (ask fun _ => rfl).bind fun _ => .look (fun _ => rfl) fun _ => ?_
        exact (print _).bind fun _ => ih _ _
      exact ite _ row ((print _).bind fun _ => row)

theorem performObject (opcode : Opcode) (args : List Word) :
    OnValues opcode.writesUntracked (performObject opcode args) := by
  unfold Machine.performObject
  refine .look (fun _ => rfl) fun s => ?_
  have link (l : ObjectLink) (object : Word) {raw : Bool} :
      OnValues raw (Machine.ask fun m => s.objects.link m l object) :=
    ask (s.objects.lookup_link l object)
  dsimp only
  split
  case h_1 =>
    exact (lift _).bind fun _ => (link _ _).bind fun _ => (lift _).bind fun _ => .pure _
  case h_2 =>
    refine (lift _).bind fun _ => (lift _).bind fun _ => ?_
    exact (ask (s.objects.lookup_testAttribute _ _)).bind fun _ => .pure _
  -- changes
  case h_3 | h_4 =>
    refine doing ((lift _).bind fun _ => (lift _).bind fun _ => ?_)
    exact inMemory rfl (s.objects.tame_setAttribute _ _ _)
  case h_5 =>
    refine doing ((lift _).bind fun _ => (lift _).bind fun _ => ?_)
    exact inMemory rfl (s.objects.tame_insert _ _)
  case h_6 => exact doing ((lift _).bind fun _ => inMemory rfl (s.objects.tame_remove _))
  case h_14 =>
    refine doing ((lift _).bind fun _ => (lift _).bind fun _ => (lift _).bind fun _ => ?_)
    exact inMemory rfl (s.objects.tame_setProperty _ _ _)
  -- links and properties
  case h_7 | h_8 | h_9 => exact (lift _).bind fun _ => (link _ _).bind fun _ => .pure _
  case h_10 =>
    refine (lift _).bind fun _ => (lift _).bind fun _ => ?_
    exact (ask (s.objects.lookup_property _ _)).bind fun _ => .pure _
  case h_11 =>
    refine (lift _).bind fun _ => (lift _).bind fun _ => ?_
    exact (ask (s.objects.lookup_propertyAddress _ _)).bind fun _ => .pure _
  case h_12 =>
    refine (lift _).bind fun _ => (lift _).bind fun _ => ?_
    exact (ask (s.objects.lookup_nextProperty _ _)).bind fun _ => .pure _
  case h_13 =>
    exact (lift _).bind fun _ => (ask (s.objects.lookup_propertyLength _)).bind fun _ => .pure _
  case h_15 => exact .throw _

theorem performMemory (opcode : Opcode) (args : List Word) :
    OnValues raw (performMemory opcode args) := by
  unfold Machine.performMemory
  dsimp only
  split
  case h_1 | h_2 =>
    exact (lift _).bind fun _ => (lift _).bind fun _ => (ask fun _ => rfl).bind fun _ => .pure _
  case h_3 =>
    refine (lift _).bind fun _ => (lift _).bind fun _ => doing ((lift _).bind fun _ => ?_)
    exact storeWord _ (near_word _ (by omega))
  case h_4 =>
    refine (lift _).bind fun _ => (lift _).bind fun _ => doing ((lift _).bind fun _ => ?_)
    exact storeByte _ (near_word _ (by omega))
  case h_5 => exact doing ((lift _).bind fun _ => .push _)
  case h_6 =>
    refine (lift _).bind fun _ => (lift _).bind fun _ => (lift _).bind fun _ => ?_
    exact ask (lookup_scanTable _ _ _ _ _)
  case h_7 =>
    refine doing ((lift _).bind fun _ => (lift _).bind fun _ => (lift _).bind fun _ => ?_)
    exact copyTable _ _ (natAbs_signed _)
  case h_8 =>
    have compared (n : Nat) : OnValues raw (do
        return Outcome.test (decide ((← argument .checkArgCount args 0).toNat ≤ n))) :=
      (lift _).bind fun _ => .pure _
    exact .argumentCount compared
  case h_9 =>
    refine (lift _).bind fun range => .look (fun _ => rfl) fun s => ite _ ?_ ?_
    · exact (setRandom _).bind fun _ => .pure _
    · exact (setRandom _).bind fun _ => .pure _
  case h_10 => exact .throw _

theorem performText (opcode : Opcode) (args : List Word) :
    OnValues opcode.writesUntracked (performText opcode args) := by
  unfold Machine.performText
  dsimp only
  split
  case h_1 => exact doing (print _)
  case h_2 =>
    refine .look (fun _ => rfl) fun s => (lift _).bind fun w => ?_
    split
    · exact doing (print _)
    · exact .pure _
  case h_3 | h_5 => exact doing ((lift _).bind fun _ => print _)
  case h_4 => exact .look (fun _ => rfl) fun _ => (lift _).bind fun _ => .pure _
  case h_6 => exact doing ((lift _).bind fun _ => printAt _)
  case h_7 => exact doing (.look (fun _ => rfl) fun _ => (lift _).bind fun _ => printAt _)
  case h_8 =>
    refine (lift _).bind fun _ => .look (fun _ => rfl) fun _ => (ask fun _ => rfl).bind fun _ => ?_
    exact doing (printAt _)
  case h_9 => exact (lift _).bind fun _ => (lift _).bind fun _ => doing (printTable _ _ _ _ _)
  case h_10 =>
    refine .look (fun _ => rfl) fun _ => (ask fun _ => rfl).bind fun _ => ?_
    refine (lift _).bind fun _ => (lift _).bind fun _ => .look (fun _ => rfl) fun _ => ?_
    exact doing (inMemory rfl (tame_tokenise _ _ _ _ _))
  case h_11 =>
    refine (lift _).bind fun _ => (lift _).bind fun _ => (lift _).bind fun _ => ?_
    refine (lift _).bind fun coded => (ask fun _ => rfl).bind fun letters => ?_
    refine .look (fun _ => rfl) fun s => doing (forM _ fun p mem => storeWord _ ?_)
    have index := (List.mem_zipIdx mem).2.1
    have short := length_encodeWord s.text letters
    rw [Nat.add_assoc]
    exact near_word coded (by omega)
  case h_12 => exact .throw _

theorem performScreen (opcode : Opcode) (args : List Word) :
    OnValues opcode.writesUntracked (performScreen opcode args) := by
  unfold Machine.performScreen
  dsimp only
  split
  case h_1 =>
    refine (lift _).bind fun _ => .look (fun _ => rfl) fun _ => ?_
    refine (inMemory rfl (OutputStreams.tame_select _ _ _)).bind fun streams => ?_
    exact (setStreams streams).bind fun _ => .pure _
  case h_2 =>
    exact .look (fun _ => rfl) fun _ => ite _ ((discard (lift _)).bind fun _ => .pure _) (.pure _)
  case h_3 => exact doing showStatus
  case h_9 =>
    refine .look (fun _ => rfl) fun _ => (lift _).bind fun _ => ?_
    refine (storeWord _ (near_word _ (by omega))).bind fun _ => doing (storeWord _ ?_)
    rw [Nat.add_assoc]
    exact near_word _ (by omega)
  case h_12 | h_13 => exact (lift _).bind fun _ => (lift _).bind fun _ => screen _
  case h_14 => exact screen _
  case h_15 => exact .look (fun _ => rfl) fun _ => (lift _).bind fun _ => .pure _
  case h_16 | h_17 | h_18 | h_19 => exact .pure _
  case h_20 => exact .throw _
  -- requests to the screen with one operand
  all_goals exact (lift _).bind fun _ => screen _

theorem performFile (opcode : Opcode) : OnValues raw (performFile opcode) := by
  unfold Machine.performFile
  split
  all_goals
    first
    | exact .throw _
    | exact .pure _
    | exact .look (fun _ => rfl) fun _ => .pure _

/-- Every operation works on values, and writes untracked only if its opcode is one that does so. -/
theorem perform (opcode : Opcode) (args : List Word) :
    OnValues opcode.writesUntracked (perform opcode args) := by
  unfold Machine.perform
  split
  all_goals
    first
    | exact lift _
    | exact performObject _ _
    | exact performMemory _ _
    | exact performText _ _
    | exact performScreen _ _
    | exact performFile _

/-- Where untracked writes are no matter, every operation will do. -/
theorem performed (opcode : Opcode) (args : List Word) :
    OnValues true (Machine.perform opcode args) :=
  (perform opcode args).mono fun _ => rfl

end OnValues

end Machine

end ZMachine
