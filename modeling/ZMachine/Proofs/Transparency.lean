/-
  The cache of compiled routines.

  An engine that keeps compiled code runs a routine as an engine does that
  keeps nothing, whatever was written between the calls: both go through the
  same machines, as long as the abbreviations read the same whenever a routine
  is asked for.  That is not idle: compiled code holds the texts of the
  abbreviations that it prints, and writing over them drops no code.
-/
import ZMachine.Proofs.Keeping
import ZMachine.Proofs.Tracking

namespace ZMachine

open Machine

/-! ## A record of what is asked for -/

namespace Engine

variable {α : Type}

/-- A run of the engine with a record of the machines in which a routine was asked for. -/
abbrev RecordM := EStateM Halt (Engine × List Machine)

/-- Act without asking for a routine. -/
def unrecorded (x : EngineM α) : RecordM α := fun (e, record) =>
  match x e with
  | .ok a e => .ok a (e, record)
  | .error h e => .error h (e, record)

/-- The helpers of compiled code, where `invoke` runs a routine. -/
def recordingHelpers (invoke : Nat → List Word → RecordM (Option Word)) : Helpers RecordM :=
  let plain := helpers fun _ _ => throw .exhausted
  { trap := fun f => unrecorded (plain.trap f)
    exhausted := unrecorded plain.exhausted
    push := fun w => unrecorded (plain.push w)
    pop := unrecorded plain.pop
    peek := unrecorded plain.peek
    replaceTop := fun w => unrecorded (plain.replaceTop w)
    readGlobal := fun i => unrecorded (plain.readGlobal i)
    writeGlobal := fun i w => unrecorded (plain.writeGlobal i w)
    perform := fun opcode args => unrecorded (plain.perform opcode args)
    call := fun a args => do unrecorded (resultOf (← invoke a args))
    callPacked := fun packed args => do
      if packed = 0 then return 0
      let header := (← get).1.machine.header
      unrecorded (resultOf (← invoke (header.routineAddress packed) args))
    print := fun id => unrecorded (plain.print id)
    readLine := fun textBuffer parseBuffer => unrecorded (plain.readLine textBuffer parseBuffer)
    readChar := unrecorded plain.readChar
    quit := unrecorded plain.quit }

/-- The end of compiled code. -/
def finishRecorded (x : RecordM Word) : RecordM (Option Word) := fun p =>
  match x p with
  | .ok w p => unrecorded (finishCompiled fun e => .ok w e) p
  | .error h p => unrecorded (finishCompiled fun e => .error h e) p

/-- Run a routine by its tier. -/
def carryOut (invoke : Nat → List Word → RecordM (Option Word)) (bound a : Nat) (args : List Word) :
    Tier → RecordM (Option Word)
  | .interpreted => unrecorded do
      count fun c => { c with interpretedCalls := c.interpretedCalls + 1 }
      onMachine (runRoutine bound a args)
  | .compiled code _ => do
      unrecorded (act (enterCompiled a (args.take Helpers.maxArguments)))
      unrecorded (count fun c => { c with nativeCalls := c.nativeCalls + 1 })
      finishRecorded ((recordingHelpers invoke).runCode code bound (args.take Helpers.maxArguments))

/-- Run the routine at an address as `invoke` does, and record every machine in which a routine is
asked for. -/
def invokeRecorded : Nat → Nat → List Word → RecordM (Option Word)
  | 0, _, _ => throw .exhausted
  | bound + 1, a, args => do
      if (← get).1.machine.host.interrupted then throw (.fault .interrupted)
      if a = 0 then return some 0
      modify fun (e, record) => (e, record ++ [e.machine])
      carryOut (fun a args => invokeRecorded bound a args) bound a args (← unrecorded (prepare a))

/-- The machines in which a routine is asked for while the routine at an address is run. -/
def asked (bound a : Nat) (args : List Word) (e : Engine) : List Machine :=
  (endState (invokeRecorded bound a args (e, []))).2

end Engine

namespace Engine

variable {α : Type} {texts : Spelling} {e f : Engine} {r : Routine} {s : Machine} {a : Nat}

/-! ## Side by side -/

/-- Two engines with the same machine, each of which keeps what it makes of the routines.  Their
pools hold at least the given texts. -/
structure Peers (texts : Spelling) (pool pool' : List String) (e f : Engine) : Prop where
  machine : e.machine = f.machine
  fallback : f.fallback = e.fallback
  left : e.Consistent texts
  right : f.Consistent texts
  grows : pool <+: e.literals
  grows' : pool' <+: f.literals

variable {pool pool' more more' : List String}

theorem Peers.weaken (h : Peers texts more more' e f) (le : pool <+: more) (le' : pool' <+: more') :
    Peers texts pool pool' e f :=
  ⟨h.machine, h.fallback, h.left, h.right, le.trans h.grows, le'.trans h.grows'⟩

/-- Counting is of no account. -/
theorem Peers.counted (h : Peers texts pool pool' e f) (counts counts' : EngineCounts) :
    Peers texts pool pool' { e with counts } { f with counts := counts' } :=
  ⟨h.machine, h.fallback, h.left, h.right, h.grows, h.grows'⟩

theorem Peers.of_retains (h : Peers texts pool pool' e f) {s : Machine}
    (retains : e.machine.Retains s) :
    Peers texts pool pool' { e with machine := s } { f with machine := s } :=
  ⟨rfl, h.fallback, h.left.of_retains retains, h.right.of_retains (h.machine ▸ retains), h.grows,
    h.grows'⟩

/-- Two actions of engines that go alike while the engines are peers. -/
abbrev Abreast (texts : Spelling) (pool pool' : List String) (x y : EngineM α) : Prop :=
  Lockstep (Peers texts pool pool') (Agree (Peers texts pool pool')) Eq x y

theorem abreast_onMachine {x : RunM α} (retains : Leads Retains x) :
    Abreast texts pool pool' (onMachine x) (onMachine x) := by
  intro e f peers
  have retained := retains e.machine
  rw [run_onMachine, run_onMachine, ← peers.machine]
  cases hx : x e.machine with
  | ok a s =>
      rw [hx] at retained
      exact .ok ⟨rfl, peers.of_retains retained⟩
  | error h s =>
      rw [hx] at retained
      exact .error ⟨rfl, peers.of_retains retained⟩

theorem abreast_act {x : MachineM α} (retains : Leads Retains x) :
    Abreast texts pool pool' (act x) (act x) := by
  refine abreast_onMachine fun s => ?_
  have retained := retains s
  simp only [liftM, monadLift, MonadLift.monadLift]
  cases hx : x s <;> rw [hx] at retained <;> exact retained

theorem abreast_does {raw control : Bool} {x : MachineM α} (does : Does raw control x) :
    Abreast texts pool pool' (act x) (act x) := abreast_act (retains_of_does does)

theorem abreast_values {x : MachineM α} (h : OnValues true x) :
    Abreast texts pool pool' (act x) (act x) :=
  have does : Does true true x := h.does
  abreast_does does

theorem abreast_throw (h : Halt) :
    Abreast texts pool pool' (throw h : EngineM α) (throw h) := .throw fun _ _ peers => ⟨rfl, peers⟩

theorem abreast_count (g : EngineCounts → EngineCounts) :
    Abreast texts pool pool' (count g) (count g) :=
  fun _ _ peers => .ok ⟨rfl, peers.counted _ _⟩

theorem abreast_resultOf (result : Option Word) :
    Abreast texts pool pool' (resultOf result) (resultOf result) := by
  cases result with
  | none => exact abreast_throw _
  | some w => exact .pure rfl

/-- The same text is printed, whatever its number. -/
theorem abreast_printLiteral {n n' : Nat} (same : SameLiteral pool pool' n n') :
    Abreast texts pool pool' (printLiteral n) (printLiteral n') := by
  intro e f peers
  obtain ⟨text, found, found'⟩ := same
  have run {e : Engine} {n : Nat} (found : e.literals[n]? = some text) :
      printLiteral n e = act (Machine.print text) e := by
    simp only [printLiteral, Bind.bind, EStateM.bind, run_get, found]
  rw [run (getElem?_of_isPrefix peers.grows found), run (getElem?_of_isPrefix peers.grows' found')]
  exact abreast_values (.print text) e f peers

theorem abreast_quit :
    Abreast texts pool pool' (act Machine.quit >>= fun _ => throw .quit : EngineM α)
      (act Machine.quit >>= fun _ => throw .quit) := by
  have stop : Does true true Machine.quit := does_quit
  exact (abreast_does stop).bind fun _ _ _ => abreast_throw .quit

/-- Code ends alike, however it ended. -/
theorem abreast_finish (result : Except Halt Word) :
    Abreast texts pool pool'
      (finishCompiled fun e => match result with | .ok w => .ok w e | .error h => .error h e)
      (finishCompiled fun e => match result with | .ok w => .ok w e | .error h => .error h e) := by
  have leave (w : Word) : Does true true (leaveCompiled w) := does_leaveCompiled w
  have stop : Does true true Machine.quit := does_quit
  intro e f peers
  cases result with
  | ok w => exact ((abreast_does (leave w)).bind fun _ _ _ => .pure rfl) e f peers
  | error h =>
      cases h with
      | quit => exact ((abreast_does stop).bind fun _ _ _ => .pure rfl) e f peers
      | exhausted | miscounted => exact .error ⟨rfl, peers⟩
      | fault g =>
          by_cases interrupted : g = .interrupted
          · simp only [finishCompiled, if_pos interrupted]
            exact .error ⟨rfl, peers⟩
          · simp only [finishCompiled, if_neg interrupted]
            exact .error ⟨rfl, peers.counted _ _⟩

/-- Engines that follow peers to the same machine are peers. -/
theorem Peers.follow (peers : Peers texts pool pool' e f) {s : Machine} {e' f' : Engine}
    (left : e.Follows texts s e') (right : f.Follows texts s f') :
    Peers texts pool pool' e' f' where
  machine := left.machine.trans right.machine.symm
  fallback := by rw [right.fallback, peers.fallback, left.fallback]
  left := left.consistent
  right := right.consistent
  grows := peers.grows.trans left.grows
  grows' := peers.grows'.trans right.grows

/-- Peers get the same answer when they ask for a routine. -/
theorem joint_prepare (peers : Peers texts pool pool' e f)
    (holds : texts.Holds e.machine.text e.machine.memory) (a : Nat) :
    Joint (fun tier e' tier' f' =>
        SameTier e'.literals f'.literals tier tier' ∧ Peers texts pool pool' e' f')
      (Agree (Peers texts pool pool')) (prepare a e) (prepare a f) := by
  have left := prepares peers.left holds a
  have right := prepares peers.right (peers.machine ▸ holds) a
  generalize prepare a e = x at left ⊢
  generalize prepare a f = y at right ⊢
  -- Both find the same routine, or neither finds one, as they ask the same machine.
  cases left with
  | unread found follows =>
      rw [peers.machine] at found
      cases right with
      | unread found' follows' =>
          cases found.symm.trans found'
          exact .error ⟨rfl, peers.follow follows follows'⟩
      | refused found' | tier found' => cases found.symm.trans found'
  | @refused r s error m before after e' found follows strict holds' failed =>
      rw [peers.machine] at found
      cases right with
      | unread found' => cases found.symm.trans found'
      | @refused _ _ error' m' before' after' f' found' follows' strict' holds'' failed' =>
          cases found.symm.trans found'
          -- Compiling fails here whatever the pool is, and with the same error.
          have together := holds'.parallel holds'' s.header r before before'
          rw [failed, failed'] at together
          cases together with
          | error same =>
              rw [same.1]
              exact .error ⟨rfl, peers.follow follows follows'⟩
      | tier found' follows' keeps' =>
          cases found.symm.trans found'
          -- One engine cannot refuse what the other keeps: it would not compile there either.
          have strict' := follows'.fallback.trans (peers.fallback.trans strict)
          exact absurd failed (keeps'.compiles strict' follows'.machine holds' _ _ _)
  | @tier r s tier e' found follows keeps =>
      rw [peers.machine] at found
      cases right with
      | unread found' => cases found.symm.trans found'
      | refused found' follows' strict' holds' failed' =>
          cases found.symm.trans found'
          have strict := follows.fallback.trans (peers.fallback.symm.trans strict')
          exact absurd failed' (keeps.compiles strict follows.machine holds' _ _ _)
      | tier found' follows' keeps' =>
          cases found.symm.trans found'
          have same := keeps.same keeps' (by rw [follows.machine, follows'.machine])
            (by rw [follows'.fallback, peers.fallback, follows.fallback])
          exact .ok ⟨same, peers.follow follows follows'⟩

/-! ## Runs by their tier -/

/-- Run a routine by its tier, without a record. -/
def runTier (bound a : Nat) (args : List Word) : Tier → EngineM (Option Word)
  | .interpreted => do
      count fun c => { c with interpretedCalls := c.interpretedCalls + 1 }
      onMachine (runRoutine bound a args)
  | .compiled code _ => do
      act (enterCompiled a (args.take Helpers.maxArguments))
      count fun c => { c with nativeCalls := c.nativeCalls + 1 }
      finishCompiled ((helpers fun a args => invoke bound a args).runCode code bound
        (args.take Helpers.maxArguments))

/-- Running a routine, up to its tier. -/
theorem invoke_succ (bound a : Nat) (args : List Word) (e : Engine) :
    invoke (bound + 1) a args e =
      if e.machine.host.interrupted then .error (.fault .interrupted) e
      else if a = 0 then .ok (some 0) e
      else (prepare a >>= runTier bound a args) e := by
  rw [invoke]
  simp only [Bind.bind, EStateM.bind, run_get]
  by_cases interrupted : e.machine.host.interrupted = true
  · simp only [if_pos interrupted]
    rfl
  · simp only [if_neg interrupted]
    by_cases zero : a = 0
    · simp only [if_pos zero]
      rfl
    · simp only [if_neg zero]
      rfl

/-- The same with a record, which gets longer whenever a routine is asked for. -/
theorem invokeRecorded_succ (bound a : Nat) (args : List Word) (e : Engine)
    (record : List Machine) :
    invokeRecorded (bound + 1) a args (e, record) =
      if e.machine.host.interrupted then .error (.fault .interrupted) (e, record)
      else if a = 0 then .ok (some 0) (e, record)
      else (unrecorded (prepare a) >>= carryOut (fun a args => invokeRecorded bound a args)
        bound a args)
        (e, record ++ [e.machine]) := by
  rw [invokeRecorded]
  simp only [Bind.bind, EStateM.bind, run_get]
  by_cases interrupted : e.machine.host.interrupted = true
  · simp only [if_pos interrupted]
    rfl
  · simp only [if_neg interrupted]
    by_cases zero : a = 0
    · simp only [if_pos zero]
      rfl
    · simp only [if_neg zero]
      rfl

/-! ## A run that strays

Once a machine of the record reads the abbreviations otherwise, it stays there. -/

/-- Some machine of the record reads the abbreviations otherwise. -/
def Strayed (texts : Spelling) (p : Engine × List Machine) : Prop :=
  ∃ s ∈ p.2, ¬texts.Holds s.text s.memory

theorem record_unrecorded (x : EngineM α) (p : Engine × List Machine) :
    (endState (unrecorded x p)).2 = p.2 := by
  obtain ⟨e, record⟩ := p
  simp only [unrecorded]
  cases x e <;> rfl

theorem strayed_unrecorded (x : EngineM α) (p : Engine × List Machine) (h : Strayed texts p) :
    Strayed texts (endState (unrecorded x p)) := by
  obtain ⟨s, member, strays⟩ := h
  exact ⟨s, by rwa [record_unrecorded], strays⟩

theorem strayed_finish {x : RecordM Word} {p : Engine × List Machine}
    (h : Strayed texts (endState (x p))) : Strayed texts (endState (finishRecorded x p)) := by
  unfold finishRecorded
  cases hx : x p with
  | ok w q =>
      rw [hx] at h
      exact strayed_unrecorded _ q h
  | error g q =>
      rw [hx] at h
      exact strayed_unrecorded _ q h

/-- Who goes nowhere together is asked only to stay lost. -/
abbrev StaysLost (texts : Spelling) (x : RecordM α) : Prop :=
  Tracks (Strayed texts) (fun _ (_ : Engine × List Machine) => False) x x

theorem staysLost_of {x : RecordM α} (h : ∀ p, Strayed texts p → Strayed texts (endState (x p))) :
    StaysLost texts x := ⟨h, fun _ _ never => never.elim⟩

theorem staysLost_unrecorded (x : EngineM α) : StaysLost texts (unrecorded x) :=
  staysLost_of (strayed_unrecorded x)

theorem staysLost_helpers {run : Nat → List Word → RecordM (Option Word)}
    (calls : ∀ a args, StaysLost texts (run a args)) :
    Helpers.Alike (Tracks (Strayed texts) fun _ (_ : Engine × List Machine) => False) Eq
      (recordingHelpers run) (recordingHelpers run) where
  trap f := staysLost_unrecorded (throw (.fault f))
  exhausted := staysLost_unrecorded (throw .exhausted)
  push _ := staysLost_unrecorded _
  pop := staysLost_unrecorded _
  peek := staysLost_unrecorded _
  replaceTop _ := staysLost_unrecorded _
  readGlobal _ := staysLost_unrecorded _
  writeGlobal _ _ := staysLost_unrecorded _
  perform _ _ := staysLost_unrecorded _
  call a args := (calls a args).bind fun _ => staysLost_unrecorded _
  callPacked packed args := by
    -- The header that unpacks the address is read off the state, so the state comes first here.
    refine staysLost_of fun p strayed => ?_
    by_cases zero : packed = 0
    · simp only [recordingHelpers, if_pos zero]
      exact strayed
    · simp only [recordingHelpers, if_neg zero]
      have rest (a : Nat) :
          StaysLost texts (run a args >>= fun result => unrecorded (resultOf result)) :=
        (calls a args).bind fun _ => staysLost_unrecorded _
      exact (rest (p.1.machine.header.routineAddress packed)).lost p strayed
  print same := same ▸ staysLost_unrecorded _
  readLine _ _ := staysLost_unrecorded _
  readChar := staysLost_unrecorded _
  quit := staysLost_unrecorded _

theorem staysLost_carryOut {run : Nat → List Word → RecordM (Option Word)}
    (calls : ∀ a args, StaysLost texts (run a args)) (bound a : Nat) (args : List Word)
    (tier : Tier) : StaysLost texts (carryOut run bound a args tier) := by
  cases tier with
  | interpreted => exact staysLost_unrecorded _
  | compiled code statistics =>
      refine (staysLost_unrecorded _).bind fun _ => (staysLost_unrecorded _).bind fun _ => ?_
      refine staysLost_of fun p strayed => strayed_finish ?_
      exact ((staysLost_helpers calls).runCode code.alike_refl bound _).lost p strayed

theorem staysLost_invoke (bound a : Nat) (args : List Word) :
    StaysLost texts (invokeRecorded bound a args) := by
  induction bound generalizing a args with
  | zero => exact .throw _
  | succ bound ih =>
      refine staysLost_of fun p strayed => ?_
      obtain ⟨e, record⟩ := p
      rw [invokeRecorded_succ]
      by_cases interrupted : e.machine.host.interrupted = true
      · rw [if_pos interrupted]
        exact strayed
      · rw [if_neg interrupted]
        by_cases zero : a = 0
        · rw [if_pos zero]
          exact strayed
        · rw [if_neg zero]
          -- What strayed before the routine is still in the record with its state added in front.
          have rest : StaysLost texts (unrecorded (prepare a) >>=
              carryOut (fun a args => invokeRecorded bound a args) bound a args) :=
            (staysLost_unrecorded _).bind fun tier => staysLost_carryOut ih bound a args tier
          obtain ⟨s, member, strays⟩ := strayed
          exact rest.lost _ ⟨s, List.mem_append_left _ member, strays⟩

/-! ## Running a routine twice -/

theorem tracks_unrecorded {x y : EngineM α} (h : Abreast texts pool pool' x y) :
    Tracks (Strayed texts) (fun p f => Peers texts pool pool' p.1 f) (unrecorded x) y where
  lost := strayed_unrecorded x
  joint := by
    rintro ⟨e, record⟩ f peers
    have joint := h e f peers
    right
    simp only [unrecorded]
    generalize x e = r at joint ⊢
    generalize y f = r' at joint ⊢
    cases joint with
    | ok h => exact .ok h
    | error h => exact .error h

theorem tracks_act {x : MachineM α} (does : Does true true x) :
    Tracks (Strayed texts) (fun p f => Peers texts pool pool' p.1 f) (unrecorded (act x)) (act x) :=
  tracks_unrecorded (abreast_does does)

theorem tracks_values {x : MachineM α} (h : OnValues true x) :
    Tracks (Strayed texts) (fun p f => Peers texts pool pool' p.1 f) (unrecorded (act x)) (act x) :=
  tracks_unrecorded (abreast_values h)

/-- Who records goes abreast with who does not, as far as calls do. -/
theorem alike_helpers {run : Nat → List Word → RecordM (Option Word)}
    {run' : Nat → List Word → EngineM (Option Word)}
    (calls : ∀ a args, Tracks (Strayed texts) (fun p f => Peers texts pool pool' p.1 f)
      (run a args) (run' a args)) :
    Helpers.Alike (Tracks (Strayed texts) fun p f => Peers texts pool pool' p.1 f)
      (SameLiteral pool pool') (recordingHelpers run) (helpers run') where
  trap f := tracks_unrecorded (abreast_throw (.fault f))
  exhausted := tracks_unrecorded (abreast_throw .exhausted)
  push w := tracks_values (.push w)
  pop := tracks_values .pop
  peek := tracks_values .peek
  replaceTop w := tracks_values (.replaceTop w)
  readGlobal i := tracks_values (.readGlobal i)
  writeGlobal i w := tracks_values (.writeGlobal i w)
  perform opcode args := tracks_values (.performed opcode args)
  call a args := (calls a args).bind fun _ => tracks_unrecorded (abreast_resultOf _)
  callPacked packed args := by
    have rest (a : Nat) : Tracks (Strayed texts) (fun p f => Peers texts pool pool' p.1 f)
        (run a args >>= fun result => unrecorded (resultOf result))
        (run' a args >>= fun result => resultOf result) :=
      (calls a args).bind fun _ => tracks_unrecorded (abreast_resultOf _)
    by_cases zero : packed = 0
    · simp only [recordingHelpers, helpers, if_pos zero]
      exact .pure 0
    · simp only [recordingHelpers, helpers, if_neg zero]
      -- Each side unpacks the address by its own header, and the headers are the same.
      refine ⟨fun p => (rest (p.1.machine.header.routineAddress packed)).lost p,
        fun p f peers => ?_⟩
      have joint := (rest (p.1.machine.header.routineAddress packed)).joint p f peers
      have same : f.machine.header = p.1.machine.header := by rw [peers.machine]
      change _ ∨ Joint _ _ _ ((run' (f.machine.header.routineAddress packed) args >>= _) f)
      rw [same]
      exact joint
  print same := tracks_unrecorded (abreast_printLiteral same)
  readLine textBuffer parseBuffer := tracks_values (onValues_readLine textBuffer parseBuffer)
  readChar := tracks_values onValues_readChar
  quit := tracks_unrecorded abreast_quit

theorem tracks_finish {x : RecordM Word} {y : EngineM Word}
    (h : Tracks (Strayed texts) (fun p f => Peers texts pool pool' p.1 f) x y) :
    Tracks (Strayed texts) (fun p f => Peers texts pool pool' p.1 f) (finishRecorded x)
      (finishCompiled y) where
  lost p strayed := strayed_finish (h.lost p strayed)
  joint p f peers := by
    rcases h.joint p f peers with strayed | joint
    · exact .inl (strayed_finish strayed)
    · unfold finishRecorded
      generalize hx : x p = r at joint
      generalize hy : y f = r' at joint
      cases joint with
      -- What is made of a run depends on how it ended only, so its end may stand for it.
      | @ok w q w' g agree =>
          obtain ⟨rfl, peers'⟩ := agree
          have finish := (tracks_unrecorded (abreast_finish (.ok w))).joint q g peers'
          have same : finishCompiled y f = finishCompiled (fun e => .ok w e) g := by
            simp only [finishCompiled, hy]
          rw [same]
          exact finish
      | @error h q h' g agree =>
          obtain ⟨rfl, peers'⟩ := agree
          have finish := (tracks_unrecorded (abreast_finish (.error h))).joint q g peers'
          have same : finishCompiled y f = finishCompiled (fun e => .error h e) g := by
            simp only [finishCompiled, hy]
          rw [same]
          exact finish

/-- A routine is run alike by tiers that are the same. -/
theorem tracks_tier {bound : Nat} {tier tier' : Tier} (same : SameTier pool pool' tier tier')
    (calls : ∀ a args, Tracks (Strayed texts) (fun p f => Peers texts pool pool' p.1 f)
      (invokeRecorded bound a args) (invoke bound a args)) (a : Nat) (args : List Word) :
    Tracks (Strayed texts) (fun p f => Peers texts pool pool' p.1 f)
      (carryOut (fun a args => invokeRecorded bound a args) bound a args tier)
      (runTier bound a args tier') := by
  cases same with
  | interpreted =>
      refine tracks_unrecorded ((abreast_count _).bind fun _ _ _ => ?_)
      exact abreast_onMachine (persists_retains.runRoutine bound a args)
  | compiled same =>
      refine (tracks_act (does_enterCompiled a _)).bind fun _ => ?_
      refine (tracks_unrecorded (abreast_count _)).bind fun _ => tracks_finish ?_
      exact (alike_helpers calls).runCode same bound _

/-- A routine is run alike by peers, as long as the abbreviations read the same whenever a routine
is asked for. -/
theorem tracks_invoke (bound a : Nat) (args : List Word) (pool pool' : List String) :
    Tracks (Strayed texts) (fun p f => Peers texts pool pool' p.1 f) (invokeRecorded bound a args)
      (invoke bound a args) := by
  induction bound generalizing a args pool pool' with
  | zero => exact .throw _
  | succ bound ih =>
      refine ⟨(staysLost_invoke _ a args).lost, ?_⟩
      rintro ⟨e, record⟩ f peers
      have machine : e.machine = f.machine := peers.machine
      rw [invokeRecorded_succ, invoke_succ, ← machine]
      by_cases interrupted : e.machine.host.interrupted = true
      · rw [if_pos interrupted, if_pos interrupted]
        exact .inr (.error ⟨rfl, peers⟩)
      rw [if_neg interrupted, if_neg interrupted]
      by_cases zero : a = 0
      · rw [if_pos zero, if_pos zero]
        exact .inr (.ok ⟨rfl, peers⟩)
      rw [if_neg zero, if_neg zero]
      have rest (tier : Tier) : StaysLost texts
          (carryOut (fun a args => invokeRecorded bound a args) bound a args tier) :=
        staysLost_carryOut (fun a args => staysLost_invoke bound a args) bound a args tier
      by_cases holds : texts.Holds e.machine.text e.machine.memory
      · have joint := joint_prepare peers holds a
        simp only [Bind.bind, EStateM.bind, unrecorded]
        generalize prepare a e = x at joint ⊢
        generalize prepare a f = y at joint ⊢
        cases joint with
        | error agree => exact .inr (.error agree)
        | @ok tier e' tier' f' h =>
            obtain ⟨same, peers'⟩ := h
            -- The code that was found is run with the pools as they are now.
            have grown : Peers texts e'.literals f'.literals e' f' :=
              ⟨peers'.machine, peers'.fallback, peers'.left, peers'.right, List.prefix_rfl,
                List.prefix_rfl⟩
            have weaken {β : Type} (b : β) (p : Engine × List Machine) (b' : β) (g : Engine)
                (agree : Agree (fun p f => Peers texts e'.literals f'.literals p.1 f) b p b' g) :
                Agree (fun p f => Peers texts pool pool' p.1 f) b p b' g :=
              ⟨agree.1, agree.2.weaken peers'.grows peers'.grows'⟩
            refine ((tracks_tier same (fun a args => ih a args _ _) a args).joint
              (e', record ++ [e.machine]) f' grown).imp_right fun joint => ?_
            exact joint.mono weaken weaken
      · left
        have strayed : Strayed texts (e, record ++ [e.machine]) := ⟨e.machine, by simp, holds⟩
        exact ((staysLost_unrecorded (prepare a)).bind rest).lost _ strayed

/-! ## A routine that prints -/

/-- Code that prints a text and returns 1. -/
def printing (a id : Nat) : Code :=
  { address := a
    defaults := []
    blocks := #[{ steps := [{ operands := [], action := .printLeave id }], next := none }] }

/-- What such code does to the machine. -/
def prints (a : Nat) (text : String) : MachineM Unit := do
  enterCompiled a []
  Machine.print text
  leaveCompiled 1

theorem run_pure {ε σ ρ α : Type} (a : α) (r : ρ) (s : σ) :
    (StateT.pure a : StateT ρ (EStateM ε σ) α) r s = .ok (a, r) s := rfl

theorem runCode_printing {ε σ : Type} (h : Helpers (EStateM ε σ)) (a id : Nat) (bound : Nat) :
    h.runCode (printing a id) (bound + 1) [] = h.print id >>= fun _ => pure 1 := by
  funext s
  cases printed : h.print id s <;>
    simp [Helpers.runCode, Helpers.blocks, printing, Helpers.steps, Helpers.step, Helpers.act,
      Bind.bind, StateT.bind, EStateM.bind, printed, StateT.run', liftM, monadLift,
      MonadLift.monadLift, StateT.lift, run_pure, Pure.pure, EStateM.pure, Functor.map, EStateM.map]

theorem prepare_kept {tier : Tier} (kept : e.tiers[a]? = some tier)
    (fresh : a ∉ e.machine.code.routines.stale) :
    ∃ e', prepare a e = .ok tier e' ∧ e'.machine = e.machine.swept ∧ e'.literals = e.literals := by
  obtain ⟨e₁, ran, swept⟩ := run_evictStale e
  have run := run_prepare a ran
  rw [swept.tiers, if_neg fresh, kept] at run
  exact ⟨e₁, run, swept.machine, swept.literals⟩

theorem prepare_compiled {code : Code} {statistics : CompileStatistics} {literals : List String}
    (unkept : e.tiers[a]? = none ∨ a ∈ e.machine.code.routines.stale)
    (found : discover a e.machine.swept = .ok r s)
    (translated : (Needs.scan r).interpreterOnly = none)
    (compiled : compile s.storyText true r e.literals = .ok (code, statistics) literals) :
    ∃ e', prepare a e = .ok (.compiled code statistics) e' ∧ e'.machine = s ∧
      e'.literals = literals ∧ e'.tiers[a]? = some (.compiled code statistics) := by
  obtain ⟨e₁, ran, swept⟩ := run_evictStale e
  have run := run_prepare a ran
  -- What was kept is dropped when it is stale, so the routine is compiled anew.
  have absent : e₁.tiers[a]? = none := by
    rw [swept.tiers]
    rcases unkept with unkept | stale
    · rw [unkept, ite_self]
    · rw [if_pos stale]
  rw [absent, swept.machine, found] at run
  dsimp only at run
  rw [if_neg (by simp [translated]), swept.literals] at run
  simp only [storyText] at compiled
  rw [compiled] at run
  obtain ⟨counts, run⟩ := run
  exact ⟨_, run, rfl, rfl, by simp [withTier]⟩

/-- Running a routine that prints. -/
theorem invoke_printing {id : Nat} {statistics : CompileStatistics} {text : String} {e' : Engine}
    (bound : Nat) (quiet : e.machine.host.interrupted = false) (nonzero : a ≠ 0)
    (prepared : prepare a e = .ok (.compiled (printing a id) statistics) e')
    (literal : e'.literals[id]? = some text) (ran : prints a text e'.machine = .ok () s) :
    ∃ counts, invoke (bound + 2) a [] e = .ok (some 1) { e' with machine := s, counts } := by
  rw [invoke_succ, if_neg (by simp [quiet]), if_neg nonzero]
  simp only [prints, Bind.bind, EStateM.bind] at ran
  simp only [Bind.bind, EStateM.bind, prepared, runTier, List.take_nil, runCode_printing, run_act]
  -- Whatever fails along the way would have failed in `prints`.
  cases entered : enterCompiled a [] e'.machine with
  | error g t =>
      rw [entered] at ran
      cases ran
  | ok _ t =>
      rw [entered] at ran
      dsimp only at ran ⊢
      cases printed : Machine.print text t with
      | error g u =>
          rw [printed] at ran
          cases ran
      | ok _ u =>
          rw [printed] at ran
          simp only [count, run_modify, finishCompiled, helpers, printLiteral, Bind.bind,
            EStateM.bind, run_get, literal, run_act, printed, Pure.pure, EStateM.pure, ran]
          exact ⟨_, rfl⟩

/-- The record stays as it is. -/
def Unasking {α : Type} (x : RecordM α) : Prop := ∀ p, (endState (x p)).2 = p.2

theorem Unasking.bind {α β : Type} {x : RecordM α} {f : α → RecordM β} (hx : Unasking x)
    (hf : ∀ a, Unasking (f a)) : Unasking (x >>= f) := by
  intro p
  have first := hx p
  simp only [Bind.bind, EStateM.bind]
  cases h : x p with
  | ok a q =>
      rw [h] at first
      exact (hf a q).trans first
  | error g q =>
      rw [h] at first
      exact first

theorem Unasking.finish {x : RecordM Word} (hx : Unasking x) : Unasking (finishRecorded x) := by
  intro p
  have first := hx p
  unfold finishRecorded
  cases h : x p with
  | ok w q =>
      rw [h] at first
      exact (record_unrecorded _ q).trans first
  | error g q =>
      rw [h] at first
      exact (record_unrecorded _ q).trans first

/-- Code that prints asks for no routine. -/
theorem unasking_printing {id : Nat} (statistics : CompileStatistics) (bound : Nat)
    (run : Nat → List Word → RecordM (Option Word)) :
    Unasking (carryOut run (bound + 1) a [] (.compiled (printing a id) statistics)) := by
  refine .bind (record_unrecorded _) fun _ => .bind (record_unrecorded _) fun _ => .finish ?_
  rw [List.take_nil, runCode_printing]
  exact .bind (record_unrecorded _) fun _ _ => rfl

theorem asked_printing {id : Nat} {statistics : CompileStatistics} {e' : Engine} (bound : Nat)
    (quiet : e.machine.host.interrupted = false) (nonzero : a ≠ 0)
    (prepared : prepare a e = .ok (.compiled (printing a id) statistics) e') :
    asked (bound + 2) a [] e = [e.machine] := by
  rw [asked, invokeRecorded_succ, if_neg (by simp [quiet]), if_neg nonzero]
  simp only [Bind.bind, EStateM.bind, unrecorded, prepared]
  exact unasking_printing statistics bound _ _

theorem discover_leaf {c : CodeIndex} (unknown : s.code.routines.get? a = none)
    (read : CodeIndex.readRoutine s.memory a s.code = .ok r c) (leaf : r.calls s.header = []) :
    discover a s = .ok r { s with code := { c with routines := c.routines.insert r } } := by
  simp only [discover, CodeIndex.discover_leaf unknown read leaf]

theorem discover_known (known : s.code.routines.get? a = some r) : discover a s = .ok r s := by
  simp only [discover, CodeIndex.discover, known]

/-- The machine when the routine at an address was found on its own. -/
def discovered (a : Nat) (s : Machine) : Machine :=
  match CodeIndex.readRoutine s.memory a s.code with
  | .ok r c => { s with code := { c with routines := c.routines.insert r } }
  | .error _ _ => s

/-- An image with a routine at 72 that prints its first abbreviation, which stands at 80. -/
def abbreviates : Array Byte :=
  overwrite (overwrite (overwrite (overwrite (Array.replicate 84 0)
    0 [3, 0, 0, 0, 0, 0, 0, 64, 0, 0, 0, 0, 0, 0, 255, 255]) 24 [0, 78])
    72 [0, 0xb3, 0x84, 5]) 78 [0, 40, 0x98, 0xa5]

/-- The machine after this story was loaded. -/
@[irreducible] def abbreviating : Machine := (load abbreviates {} {}).toOption.getD default

/-- Its routine, when it prints the text of some words. -/
def printer (words : List Word) : Routine :=
  { address := 72
    defaults := []
    instructions := [{ address := 73, length := 3, opcode := .printRet, operands := []
                       store := none, branch := none, text := some words }] }


theorem loaded_abbreviating : load abbreviates {} {} = .ok abbreviating := by
  unfold abbreviating
  exact Except.eq_ok_getD _ (by decide +kernel)

/-- The routine is found and compiled if it is not kept. -/
theorem prepare_printer (words : List Word) (id : Nat) (machine : e.machine = s)
    (unkept : e.tiers[72]? = none ∨ 72 ∈ s.code.routines.stale)
    (unknown : s.swept.code.routines.get? 72 = none)
    (read : value? (CodeIndex.readRoutine s.swept.memory 72 s.swept.code) = some (printer words))
    (compiled :
        (value? (compile (discovered 72 s.swept).storyText true (printer words) e.literals)).map
      Prod.fst = some (printing 72 id)) :
    ∃ statistics e', prepare 72 e = .ok (.compiled (printing 72 id) statistics) e' ∧
      e'.machine = discovered 72 s.swept ∧
      e'.literals
        = endState (compile (discovered 72 s.swept).storyText true (printer words) e.literals) ∧
      e'.tiers[72]? = some (.compiled (printing 72 id) statistics) := by
  subst machine
  have read := eq_ok_of_value? read
  have found := discover_leaf unknown read rfl
  rw [discovered, read] at compiled ⊢
  obtain ⟨⟨code, statistics⟩, compiled, rfl⟩ := Option.map_eq_some_iff.mp compiled
  have prepared := prepare_compiled unkept found rfl (eq_ok_of_value? compiled)
  exact ⟨statistics, prepared⟩

/-- The machine after the routine was run for the first time. -/
def shown : Machine := endState (prints 72 "a\n" (discovered 72 abbreviating.swept))

theorem invoke_abbreviating : ∃ statistics e',
    prepare 72 { machine := abbreviating } = .ok (.compiled (printing 72 0) statistics) e' ∧
    ∃ e'', invoke 9 72 [] { machine := abbreviating } = .ok (some 1) e'' ∧ e''.machine = shown ∧
      e''.literals = ["a\n"] ∧ e''.tiers[72]? = some (.compiled (printing 72 0) statistics) := by
  obtain ⟨statistics, e', prepared, machine, literals, kept⟩ :=
    prepare_printer (e := { machine := abbreviating }) [0x8405] 0 rfl (.inl (by simp))
      (by decide +kernel) (by decide +kernel) (by decide +kernel)
  have pool : e'.literals = ["a\n"] := by
    rw [literals]
    decide +kernel
  have quiet : abbreviating.host.interrupted = false := by decide +kernel
  have ran : prints 72 "a\n" e'.machine = .ok () shown := by
    rw [machine]
    exact eq_ok_of_value? (by decide +kernel)
  obtain ⟨counts, invoked⟩ := invoke_printing 7 quiet (by decide) prepared (by rw [pool]; rfl) ran
  exact ⟨statistics, e', prepared, _, invoked, rfl, pool, kept⟩

/-! ## Sequences of calls and writes -/

/-- What a result shows of the engine: its machine. -/
def observed : EStateM.Result Halt Engine (Option Word) → EStateM.Result Halt Machine (Option Word)
  | .ok w e => .ok w e.machine
  | .error h e => .error h e.machine

/-- The engine with nothing kept. -/
def emptied (e : Engine) : Engine := { machine := e.machine, fallback := e.fallback }

/-- The engine, with `entropy` for the answers of the system to the coming requests for a seed. -/
def answeredBy (entropy : Entropy) (e : Engine) : Engine :=
  { e with machine.random.entropy := entropy }

theorem consistent_of_empty (empty : e.tiers = {}) : e.Consistent texts := by
  intro b tier kept
  simp [empty] at kept

/-- Running a routine by peers: the result is the same, and they stay peers. -/
theorem Peers.invoke (peers : Peers texts pool pool' e f) (bound a : Nat) (args : List Word)
    (steady : ∀ s ∈ asked bound a args e, texts.Holds s.text s.memory) :
    Joint (Agree (Peers texts pool pool')) (Agree (Peers texts pool pool')) (invoke bound a args e)
      (invoke bound a args f) := by
  have kept : ¬Strayed texts (endState (invokeRecorded bound a args (e, []))) := by
    rintro ⟨s, member, strays⟩
    exact strays (steady s member)
  -- The run with a record goes abreast with both.
  have self : Peers texts pool pool e e :=
    ⟨rfl, rfl, peers.left, peers.left, peers.grows, peers.grows⟩
  have own := ((tracks_invoke bound a args pool pool).joint (e, []) e self).resolve_left kept
  have other := ((tracks_invoke bound a args pool pool').joint (e, []) f peers).resolve_left kept
  have join {p : Engine × List Machine} {e' f' : Engine} (left : Peers texts pool pool p.1 e')
      (right : Peers texts pool pool' p.1 f') : Peers texts pool pool' e' f' :=
    ⟨left.machine.symm.trans right.machine, right.fallback.trans left.fallback.symm, left.right,
      right.right, left.grows', right.grows'⟩
  generalize invokeRecorded bound a args (e, []) = x at own other
  generalize Engine.invoke bound a args e = y at own ⊢
  generalize Engine.invoke bound a args f = z at other ⊢
  cases own with
  | ok left =>
      cases other with
      | ok right => exact .ok ⟨left.1.symm.trans right.1, join left.2 right.2⟩
  | error left =>
      cases other with
      | error right => exact .error ⟨left.1.symm.trans right.1, join left.2 right.2⟩

/-- Something done to an engine from outside: a routine is run, or something is written. -/
inductive Operation where
  | invoke (bound a : Nat) (args : List Word)
  | storeByte (a : Nat) (b : Byte)
  | storeWord (a : Nat) (w : Word)

/-- Carry out an operation. -/
def Operation.run : Operation → EngineM (Option Word)
  | .invoke bound a args => Engine.invoke bound a args
  | .storeByte a b => do
      act (Machine.storeByte a b)
      return none
  | .storeWord a w => do
      act (Machine.storeWord a w)
      return none

/-- The machines in which a routine is asked for by an operation. -/
def Operation.asked : Operation → Engine → List Machine
  | .invoke bound a args, e => e.asked bound a args
  | .storeByte .., _ => []
  | .storeWord .., _ => []

/-- The engine after a sequence of operations, whether they failed or not. -/
def after (e : Engine) : List Operation → Engine
  | [] => e
  | o :: rest => after (endState (o.run e)) rest

/-- The machines in which a routine is asked for by a sequence of operations. -/
def askedBy (e : Engine) : List Operation → List Machine
  | [] => []
  | o :: rest => o.asked e ++ askedBy (endState (o.run e)) rest

theorem Consistent.run {o : Operation} (h : e.Consistent texts)
    (steady : ∀ s ∈ o.asked e, texts.Holds s.text s.memory) :
    (endState (o.run e)).Consistent texts := by
  have peers : Peers texts [] [] e e := ⟨rfl, rfl, h, h, List.nil_prefix, List.nil_prefix⟩
  have stays (x : EngineM (Option Word))
      (joint : Joint (Agree (Peers texts [] [])) (Agree (Peers texts [] [])) (x e) (x e)) :
      (endState (x e)).Consistent texts := by
    generalize x e = r at joint
    cases joint with
    | ok agree => exact agree.2.left
    | error agree => exact agree.2.left
  refine stays _ ?_
  cases o with
  | invoke bound a args => exact peers.invoke bound a args steady
  | storeByte a b =>
      exact ((abreast_act (retains_store a 1)).bind fun _ _ _ => .pure rfl) e e peers
  | storeWord a w =>
      exact ((abreast_act (retains_store a 2)).bind fun _ _ _ => .pure rfl) e e peers

theorem Consistent.after {before : List Operation} (h : e.Consistent texts)
    (steady : ∀ s ∈ e.askedBy before, texts.Holds s.text s.memory) :
    (e.after before).Consistent texts := by
  induction before generalizing e with
  | nil => exact h
  | cons o rest ih =>
      exact ih (h.run fun s member => steady s (List.mem_append_left _ member))
        fun s member => steady s (List.mem_append_right _ member)

theorem askedBy_append (before rest : List Operation) :
    e.askedBy (before ++ rest) = e.askedBy before ++ (e.after before).askedBy rest := by
  induction before generalizing e with
  | nil => rfl
  | cons o before ih =>
      rw [List.cons_append, askedBy, askedBy, ih, List.append_assoc]
      rfl

theorem run_storeByte {b : Byte} (stored : storeByte a b e.machine = .ok () s) :
    Operation.run (.storeByte a b) e = .ok none { e with machine := s } := by
  simp only [Operation.run, Bind.bind, EStateM.bind, run_act, stored]
  rfl

/-- No two routines that were found overlap. -/
def Disjoint (e : Engine) : Prop :=
  e.machine.code.routines.routines.Pairwise fun r r' => r.stop ≤ r'.address

/-- After any calls and writes, an engine runs a routine as one does that keeps nothing, if the
abbreviations read the same whenever a routine was asked for: the result and the machine are the
same.  Whatever the system answers when a routine asks it for a seed, it answers both engines
alike. -/
theorem invoke_transparent (empty : e.tiers = {}) (before : List Operation) (bound a : Nat)
    (args : List Word) {entropy : Entropy}
    (answers : (e.after before).machine.random.entropy = entropy)
    (steady : ∀ s ∈ e.askedBy (before ++ [.invoke bound a args]), texts.Holds s.text s.memory) :
    observed (invoke bound a args (e.after before)) =
      observed (invoke bound a args ((e.after before).emptied.answeredBy entropy)) := by
  subst answers
  change _ = observed (invoke bound a args (e.after before).emptied)
  rw [askedBy_append] at steady
  have consistent : (e.after before).Consistent texts :=
    (consistent_of_empty empty).after fun s member => steady s (List.mem_append_left _ member)
  have peers : Peers texts [] [] (e.after before) (e.after before).emptied :=
    ⟨rfl, rfl, consistent, consistent_of_empty rfl, List.nil_prefix, List.nil_prefix⟩
  have joint := peers.invoke bound a args fun s member =>
    steady s (List.mem_append_right _ (List.mem_append_left _ member))
  generalize Engine.invoke bound a args (e.after before) = x at joint ⊢
  generalize Engine.invoke bound a args (e.after before).emptied = y at joint ⊢
  cases joint with
  | ok agree => rw [observed, observed, agree.1, agree.2.machine]
  | error agree => rw [observed, observed, agree.1, agree.2.machine]

/-- The machine after the routine was written over: it prints another text. -/
def rewritten : Machine := endState (storeByte 74 0x9c shown)

theorem invoke_transparent_rewritten :
    let e := after { machine := abbreviating } [.invoke 9 72 [], .storeByte 74 0x9c]
    observed (invoke 9 72 [] e) =
      observed (invoke 9 72 [] (e.emptied.answeredBy e.machine.random.entropy)) := by
  intro e
  obtain ⟨statistics, _, prepared, once, invoked, machine, literals, kept⟩ := invoke_abbreviating
  have wrote : Operation.run (.storeByte 74 0x9c) once =
      .ok none { once with machine := rewritten } := by
    refine run_storeByte ?_
    rw [machine]
    exact eq_ok_of_value? (by decide +kernel)
  -- The routine is dropped, and found again as it is now.
  have stale : 72 ∈ rewritten.code.routines.stale := by decide +kernel
  have unknown : rewritten.swept.code.routines.get? 72 = none := by decide +kernel
  have read : value? (CodeIndex.readRoutine rewritten.swept.memory 72 rewritten.swept.code) =
      some (printer [0x9c05]) := by decide +kernel
  have compiled : (value? (compile (discovered 72 rewritten.swept).storyText true (printer [0x9c05])
      ["a\n"])).map Prod.fst = some (printing 72 1) := by decide +kernel
  obtain ⟨_, _, prepared', -⟩ :=
    prepare_printer (e := { once with machine := rewritten }) [0x9c05] 1
    rfl (.inr stale) unknown read (literals ▸ compiled)
  have quiet : abbreviating.host.interrupted = false ∧ rewritten.host.interrupted = false := by
    decide +kernel
  have first := asked_printing 7 quiet.1 (by decide) prepared
  have second := asked_printing 7 quiet.2 (by decide) prepared'
  have texts : ∀ s ∈ [abbreviating, rewritten], ∀ n < TextTables.abbreviationCount,
      s.text.abbreviation s.memory n = abbreviating.text.abbreviation abbreviating.memory n := by
    decide +kernel
  have ran : Operation.run (.invoke 9 72 []) { machine := abbreviating } = .ok (some 1) once :=
    invoked
  refine invoke_transparent rfl _ 9 72 [] rfl fun s member => texts s ?_
  simp only [List.cons_append, List.nil_append, askedBy, ran, wrote, endState_ok, Operation.asked,
    List.append_nil, first, second] at member
  exact member

/-- The machine after the abbreviation was written over. -/
def respelt : Machine := endState (storeByte 80 0x9c shown)

/-- Not every engine runs a routine as one does that keeps nothing: a text that was compiled
outlives a write to the abbreviation in it. -/
theorem exists_outdated :
    ¬∀ (image : Array Byte) (options : MachineOptions) (host : Host) (s : Machine) (fallback : Bool)
      (before : List Operation) (bound a : Nat) (args : List Word),
      load image options host = .ok s →
      (∀ k, Disjoint (after { machine := s, fallback } (before.take k))) →
      observed (invoke bound a args (after { machine := s, fallback } before)) =
        observed (invoke bound a args (after { machine := s, fallback } before).emptied) := by
  intro transparent
  obtain ⟨statistics, -, -, once, invoked, machine, literals, kept⟩ := invoke_abbreviating
  -- The write drops nothing.
  have wrote :
      Operation.run (.storeByte 80 0x9c) once = .ok none { once with machine := respelt } := by
    refine run_storeByte ?_
    rw [machine]
    exact eq_ok_of_value? (by decide +kernel)
  have changed : after { machine := abbreviating } [.invoke 9 72 [], .storeByte 80 0x9c] =
      { once with machine := respelt } := by
    have first : Operation.run (.invoke 9 72 []) { machine := abbreviating } = .ok (some 1) once :=
      invoked
    simp only [after, first, wrote, endState_ok]
  have disjoint (k : Nat) :
      Disjoint (after { machine := abbreviating }
        (List.take k [.invoke 9 72 [], .storeByte 80 0x9c])) := by
    match k with
    | 0 =>
        change abbreviating.code.routines.routines.Pairwise _
        decide +kernel
    | 1 =>
        change Disjoint (endState (Engine.invoke 9 72 [] { machine := abbreviating }))
        rw [invoked, endState_ok, Disjoint, machine]
        decide +kernel
    | k + 2 =>
        rw [List.take_of_length_le (by simp), changed]
        change respelt.code.routines.routines.Pairwise _
        decide +kernel
  have same :=
    transparent _ _ _ _ true [.invoke 9 72 [], .storeByte 80 0x9c] 9 72 [] loaded_abbreviating
    disjoint
  rw [changed] at same
  have quiet : respelt.host.interrupted = false := by decide +kernel
  -- What was compiled prints the old text.
  have fresh : 72 ∉ respelt.code.routines.stale := by decide +kernel
  obtain ⟨e₁, prepared₁, machine₁, literals₁⟩ :=
    prepare_kept (e := { once with machine := respelt }) kept fresh
  have old : prints 72 "a\n" respelt.swept = .ok () _ := eq_ok_of_value? (by decide +kernel)
  obtain ⟨_, invoked₁⟩ := invoke_printing 7 quiet (by decide) prepared₁
    (by rw [literals₁, literals]; rfl) (machine₁ ▸ old)
  -- What is compiled now prints the new one.
  have found : discover 72 respelt.swept = .ok (printer [0x8405]) respelt.swept :=
    discover_known (by decide +kernel)
  obtain ⟨⟨code, _⟩, compiled, rfl⟩ : ∃ p, value? (compile respelt.swept.storyText true
      (printer [0x8405]) []) = some p ∧ p.1 = printing 72 0 :=
    Option.map_eq_some_iff.mp (by decide +kernel)
  have text : (endState (compile respelt.swept.storyText true (printer [0x8405]) []))[0]? =
      some "b\n" := by decide +kernel
  obtain ⟨e₂, prepared₂, machine₂, literals₂, -⟩ :=
    prepare_compiled (e := emptied { once with machine := respelt })
      (.inl (by simp [emptied])) found rfl (eq_ok_of_value? compiled)
  have new : prints 72 "b\n" respelt.swept = .ok () _ := eq_ok_of_value? (by decide +kernel)
  obtain ⟨_, invoked₂⟩ := invoke_printing 7 quiet (by decide) prepared₂
    (by rw [literals₂]; exact text) (machine₂ ▸ new)
  have outputs : (endState (prints 72 "a\n" respelt.swept)).host.output =
      (endState (prints 72 "b\n" respelt.swept)).host.output := by
    rw [invoked₁, invoked₂] at same
    injection same with _ machines
    change endState (prints 72 "a\n" e₁.machine) = endState (prints 72 "b\n" e₂.machine) at machines
    rw [machine₁, machine₂] at machines
    exact congrArg (fun s => s.host.output) machines
  revert outputs
  decide +kernel

end Engine

end ZMachine
