import ShapeCompiler.Proofs.Engine.Sessions

/-!
Histories of sessions: every engine that a session went through, with what each step was about.

A logged run does what a run does and notes its steps; what it did before it was stopped stays noted.
Main statement: without its notes, a logged request of the host is that request
(`Request.logged_erases`).
-/

namespace ShapeCompiler

/-- What a step was about. -/
inductive Event where
  /-- The artifact of a signature was requested. -/
  | requested (s : Signature)
  /-- A call site was bound to the artifact of its callee. -/
  | bound (caller : Signature) (site : Nat) (callee : Signature)
  /-- The host entered compiled code, or failed to, as specialising the function answered. -/
  | entered (specialised : Except Error Artifact)
  | other

def Event.requested? : Event → Option Signature
  | requested s => some s
  | _ => none

/-- Whether the host entered compiled code. -/
def Event.isEntry : Event → Bool
  | entered (.ok _) => true
  | _ => false

/-- A step and the engine that it left behind. -/
structure Moment where
  event : Event
  engine : Engine

/-- The steps that an engine has taken. -/
structure History where
  /-- The engine at the beginning. -/
  start : Engine
  /-- What happened since, the latest first. -/
  past : List Moment

namespace History

variable (h : History)

def now : Engine :=
  match h.past with
  | [] => h.start
  | m :: _ => m.engine

/-- The history with one more step. -/
def push (event : Event) (e : Engine) : History := ⟨h.start, ⟨event, e⟩ :: h.past⟩

/-- The signatures that were requested from the specialiser, the latest first. -/
def requests : List Signature := h.past.filterMap (·.event.requested?)

/-- How often the host entered compiled code. -/
def entries : Nat := h.past.countP (·.event.isEntry)

/-- The first history is what the second one once was. -/
def Precedes (h h' : History) : Prop := h.start = h'.start ∧ h.past <:+ h'.past

end History

/-- A run that notes its steps. -/
abbrev Logged := ExceptT Error (ExceptT Halt (StateM History))

variable {α β : Type}

/-- The answer of a logged run, unless it was stopped, and the history with its steps. -/
def History.record (h : History) (x : Logged α) : Except Halt (Except Error α) × History :=
  x.run.run.run h

namespace Logged

def note (event : Event) (x : Run α) : Logged α :=
  ExceptT.mk <| ExceptT.mk fun h =>
    match h.now.run x with
    | .ok (y, e) => (.ok y, h.push event e)
    | .error why => (.error why, h)

instance : MonadLift Run Logged := ⟨note .other⟩

/-- Stops the run. -/
def halt (why : Halt) : Logged α := ExceptT.mk (ExceptT.mk fun h => (.error why, h))

instance : MonadHalt Logged := ⟨halt⟩

/-- Goes on with the answer of a run, be it an error. -/
def attempt (x : Logged α) : Logged (Except Error α) := ExceptT.mk (.ok <$> x.run)

def answer : Except Error α → Logged α
  | .ok a => pure a
  | .error e => throw e

def activation (body : Logged α) : Logged α := do
  Run.enterActivation
  let r ← attempt body
  Run.leaveActivation
  answer r

def perform (call : Ident → List Value → Logged Value) : Callback → Logged (Except String Value)
  | .finish result => pure result
  | .enter function args resume => do
    let answer ← attempt (call function args)
    perform call (resume answer)

/-! ### The specialiser -/

def artifactOf (s : Signature) : Logged Artifact := note (.requested s) (Update.artifactOf s)

def specialize (function : Ident) (args : List Value) : Logged Artifact := do
  let s ← Update.signatureOf function args
  artifactOf s

def bindSite (caller : Signature) (site : Nat) (callee : Signature) : Logged Artifact := do
  let e ← (get : Run Engine)
  match e.bound.get? (caller, site) with
  | some a => pure a
  | none => do
    let a ← artifactOf callee
    note (.bound caller site callee)
      (modify fun e => { e with bound := e.bound.insert (caller, site) a })
    pure a

/-! ### The machine -/

variable (host : HostSite → List Compiled → Logged Compiled)

def exec (m : Machine) : Op → Logged Step
  | .call dst site args =>
    match m.function.callSites[site]? with
    | none => halt .outOfRange
    | some callee => do
      let a ← bindSite m.function.signature site callee
      let cs ← m.readAll args
      pure (.next (m.enter a dst cs))
  | .callHost dst site args => do
    let cs ← m.readAll args
    match m.function.hostSites[site]? with
    | none => halt .outOfRange
    | some h => do
      let c ← host h cs
      m.writeNext dst c
  | op => m.exec (fun _ _ => Run.halt .outOfRange) op

/-- Executes the next instruction. -/
def step (m : Machine) : Logged Step :=
  match m.function.code[m.pc]? with
  | some op => exec host m op
  | none => throw (.runtime (.missingReturn m.function.signature.function))

def run : Nat → Machine → Logged Compiled
  | 0, _ => halt .outOfFuel
  | fuel + 1, m => do
    match ← step host m with
    | .done c => pure c
    | .next m => run fuel m

def execute (fuel : Nat) (a : Artifact) (args : List Compiled) : Logged Compiled :=
  if args.length ≠ a.signature.args.length then
    throw (.runtime (.arityMismatch a.signature.function a.signature.args.length args.length))
  else run host fuel (Machine.start a args)

/-! ### Calls -/

mutual

def interpret : Nat → Interpreter → FunctionDef → List Value → Logged Value
  | 0, _, _, _ => halt .outOfFuel
  | fuel + 1, i, d, args =>
    if args.length ≠ d.arity then throw (.runtime (.arityMismatch d.name d.arity args.length))
    else activation (i.body (callFrom fuel i) fuel d args)

def callFrom : Nat → Interpreter → Ident → List Value → Logged Value
  | 0, _, _, _ => halt .outOfFuel
  | fuel + 1, i, name, args =>
    match i.types.recordNamed? name with
    | some (_, r) => Run.ofRuntime (i.construct r args)
    | none => do
      match ← Run.function? name with
      | none => throw (.runtime (.notDefined name))
      | some (.decorated d) =>
        match i.mode with
        | .host => callDecorated fuel name args
        | .reference => interpret fuel i d args
      | some (.interpreted d) => interpret fuel i d args
      | some (.native n) => callNative fuel n args

def callDecorated : Nat → Ident → List Value → Logged Value
  | 0, _, _ => halt .outOfFuel
  | fuel + 1, name, args => do
    -- an entry is noted once it is known whether it succeeds, failures included
    match ← attempt (specialize name args) with
    | .ok a => do
      note (.entered (.ok a)) Run.countExecution
      runArtifact fuel a args
    | .error e => do
      note (.entered (.error e)) (pure ())
      throw e

def runArtifact : Nat → Artifact → List Value → Logged Value
  | 0, _, _ => halt .outOfFuel
  | fuel + 1, a, args => do
    let t ← Run.types
    let cs ← Update.ofType (t.encodeAll args a.signature.args)
    let c ← execute (callHost fuel) fuel a cs
    Run.artifactResult t a c

def callHost : Nat → HostSite → List Compiled → Logged Compiled
  | 0, _, _ => halt .outOfFuel
  | fuel + 1, site, cs => do
    let t ← Run.types
    let vs ← Update.ofType (t.decodeAll cs site.params)
    let v ←
      match site.function with
      | .native n => callNative fuel n vs
      | .interpreted d => do
        let i ← Run.interpreter .host
        interpret fuel i d vs
    Run.hostResult t site v

def callNative : Nat → Native → List Value → Logged Value
  | 0, _, _ => halt .outOfFuel
  | fuel + 1, n, args =>
    if args.length ≠ n.params.length then
      throw (.runtime (.arityMismatch n.name n.params.length args.length))
    else do
      match ← perform (call fuel) (n.run args) with
      | .error message => throw (.runtime (.hostFunction n.name message))
      | .ok v => do
        let t ← Run.types
        match t.normalize v n.returns with
        | .ok v => pure v
        | .error fault => throw (fault.inHost n.name)

def call : Nat → Ident → List Value → Logged Value
  | 0, _, _ => halt .outOfFuel
  | fuel + 1, name, args => do
    match ← Run.function? name with
    | none => throw (.runtime (.notDefined name))
    | some (.decorated _) => callDecorated fuel name args
    | some (.interpreted d) => do
      let i ← Run.interpreter .host
      interpret fuel i d args
    | some (.native n) => callNative fuel n args

end

/-- Calls a decorated function twice, compiled and interpreted, and compares the results. -/
def verify (fuel : Nat) (name : Ident) (args : List Value) : Logged Value := do
  match ← Run.function? name with
  | none => throw (.runtime (.notDefined name))
  | some (.decorated d) => do
    let compiled ← callDecorated fuel name args
    let s ← Update.signatureOf name args
    let t ← Run.types
    let normalized ← Update.ofType (t.normalizeAll args s.args)
    let i ← Run.interpreter .reference
    let reference ← interpret fuel i d normalized
    if compiled == reference then pure compiled
    else throw (.mismatch name compiled reference)
  | some _ => call fuel name args

end Logged

/-- Serves a request and notes its steps. -/
def Request.logged (fuel : Nat) : Request → Logged Unit
  | specialize function args => do
    let _ ← Logged.specialize function args
  | call function args => do
    let _ ← Logged.call fuel function args
  | callHandle function args => do
    let _ ← Logged.callDecorated fuel function args
  | verify function args => do
    let _ ← Logged.verify fuel function args
  | r => r.perform fuel

/-- The history of an engine that has served requests, each with some fuel. A request that was
stopped leaves what it had done until then. -/
def Engine.history (e : Engine) (session : List (Nat × Request)) : History :=
  session.foldl (fun h r => (h.record (r.2.logged r.1)).2) ⟨e, []⟩

/-! ### Histories without their notes -/

/-- What is left of a logged run without its notes. -/
def History.erase : Except Halt (Except Error α) × History → Except Halt (Except Error α × Engine)
  | (.ok y, h) => .ok (y, h.now)
  | (.error why, _) => .error why

namespace Logged

variable {h : History} {x : Logged α} {y : Run α} {f : α → Logged β} {g : α → Run β}

/-- A sequence goes on behind an answer, and ends with its first part otherwise. -/
theorem record_bind (h : History) (x : Logged α) (f : α → Logged β) :
    h.record (x >>= f) =
      match h.record x with
      | (.ok (.ok a), h') => h'.record (f a)
      | (.ok (.error err), h') => (.ok (.error err), h')
      | (.error why, h') => (.error why, h') := by
  have hx : h.record (x >>= f) =
      (ExceptT.bindCont (ExceptT.bindCont f) (h.record x).1) (h.record x).2 := rfl
  rw [hx]
  rcases h.record x with ⟨_ | _ | _, h'⟩ <;> rfl

theorem record_note (h : History) (event : Event) (y : Run α) :
    h.record (note event y) =
      match h.now.run y with
      | .ok (a, e) => (.ok a, h.push event e)
      | .error why => (.error why, h) := rfl

theorem record_attempt (h : History) (x : Logged α) :
    h.record (attempt x) = ((h.record x).1.map Except.ok, (h.record x).2) := by
  have hx : h.record (attempt x) =
      (ExceptT.bindCont (fun y => pure (Except.ok y)) (h.record x).1 : StateM History _)
        (h.record x).2 := rfl
  rw [hx]
  rcases h.record x with ⟨_ | _, h'⟩ <;> rfl

/-- An activation is refused at the limit, else it begins and ends around its body. -/
theorem record_activation (h : History) (x : Logged α) :
    h.record (activation x) =
      if h.now.options.maxHostDepth ≤ h.now.activations.alive then
        (.ok (.error (.runtime (.recursionLimit h.now.options.maxHostDepth))), h.push .other h.now)
      else
        match (h.push .other h.now.entered).record x with
        | (.ok y, h') => (.ok y, h'.push .other h'.now.left)
        | (.error why, h') => (.error why, h') := by
  have hanswer : ∀ (r : Except Error α) (h' : History), h'.record (answer r) = (.ok r, h') := by
    intro r h'
    cases r <;> rfl
  have hbegin := record_note h .other Run.enterActivation
  rw [Engine.run_enterActivation] at hbegin
  unfold activation
  split
  · rename_i hfull
    rw [if_pos hfull] at hbegin
    exact (record_bind ..).trans (by rw [show h.record (liftM Run.enterActivation) = _ from hbegin])
  · rename_i hroom
    rw [if_neg hroom] at hbegin
    refine (record_bind ..).trans ?_
    rw [show h.record (liftM Run.enterActivation) = _ from hbegin]
    refine (record_bind ..).trans ?_
    rw [record_attempt]
    rcases (h.push .other h.now.entered).record x with ⟨why | y, h'⟩
    · rfl
    · exact hanswer y _

/-- The run does what the other one does, and notes its steps; its answers satisfy a condition. -/
def erasing : Relation Logged Run where
  rel Q x y := ∀ h : History,
    History.erase (h.record x) = h.now.run y ∧ ∀ a, (h.record x).1 = .ok (.ok a) → Q a
  pure hQ h := ⟨rfl, fun _ ha => by cases ha; exact hQ⟩
  bind := by
    intro α β Q Q' x y f g hx hf h
    obtain ⟨he, hq⟩ := hx h
    rw [record_bind, Engine.run_bind, ← he]
    rcases hr : h.record x with ⟨why | err | a, h'⟩
    · exact ⟨rfl, fun _ ha => by cases ha⟩
    · exact ⟨rfl, fun _ ha => by cases ha⟩
    · exact hf a (hq a (by rw [hr])) h'
  throw _ _ := ⟨rfl, fun _ ha => by cases ha⟩
  halt _ := ⟨rfl, fun _ ha => by cases ha⟩

/-- Without its notes, the logged run is the other one. -/
abbrev Erases (x : Logged α) (y : Run α) : Prop := erasing.rel (fun _ => True) x y

namespace Erases

theorem pure (a : α) : Erases (Pure.pure a) (Pure.pure a) := erasing.pure trivial

theorem throw (e : Error) : Erases (throw e : Logged α) (throw e) := fun _ => ⟨rfl, fun _ _ => trivial⟩

theorem halt (why : Halt) : Erases (halt why : Logged α) (Run.halt why) := fun _ =>
  ⟨rfl, fun _ _ => trivial⟩

theorem bind (hx : Erases x y) (hf : ∀ a, Erases (f a) (g a)) : Erases (x >>= f) (y >>= g) :=
  erasing.bind hx fun a _ => hf a

theorem note (event : Event) (y : Run α) : Erases (note event y) y := by
  intro h
  refine ⟨?_, fun _ _ => trivial⟩
  rw [record_note]
  rcases h.now.run y with _ | _ <;> rfl

theorem lift (y : Run α) : Erases (liftM y) y := note .other y

theorem ofUpdate (y : Update α) : Erases (liftM y) (Run.ofUpdate y) := note .other (Run.ofUpdate y)

theorem attempt (hx : Erases x y) : Erases (attempt x) (Run.attempt y) := by
  intro h
  refine ⟨?_, fun _ _ => trivial⟩
  rw [record_attempt, Engine.run_attempt, ← (hx h).1]
  rcases h.record x with ⟨_ | _, h'⟩ <;> rfl

theorem answer (r : Except Error α) : Erases (answer r) (Run.answer r) := by
  cases r with
  | ok a => exact .pure a
  | error e => exact .throw e

theorem activation (hx : Erases x y) : Erases (activation x) (Run.activation y) :=
  .bind (.lift _) fun _ => .bind (.attempt hx) fun r => .bind (.lift _) fun _ => .answer r

/-- Going on with an answer and failing with an error, each after a note, is to go on. -/
theorem guarded (hx : Erases x y) {k : Except Error α → Logged β} (hok : ∀ a, Erases (k (.ok a)) (g a))
    (herr : ∀ e, Erases (k (.error e)) (MonadExcept.throw e)) :
    Erases (Logged.attempt x >>= k) (y >>= g) := by
  intro h
  refine ⟨?_, fun _ _ => trivial⟩
  rw [record_bind, record_attempt, Engine.run_bind, ← (hx h).1]
  rcases h.record x with ⟨why | e | a, h'⟩
  · rfl
  · exact (herr e h').1
  · exact (hok a h').1

theorem perform {call : Ident → List Value → Logged Value} {call' : Ident → List Value → Run Value}
    (hcall : ∀ name args, Erases (call name args) (call' name args)) (cb : Callback) :
    Erases (perform call cb) (cb.perform call') := by
  induction cb with
  | finish result => exact .pure result
  | enter function args resume ih => exact .bind (.attempt (hcall function args)) fun r => ih r

theorem body {i : Interpreter} {call : Ident → List Value → Logged Value}
    {call' : Ident → List Value → Run Value}
    (hcall : ∀ name args, Erases (call name args) (call' name args)) (fuel : Nat) (d : FunctionDef)
    (args : List Value) : Erases (i.body call fuel d args) (i.body call' fuel d args) :=
  erasing.body i.closed_true (fun name args _ => hcall name args) (.inl rfl) d fun _ _ => trivial

theorem specialize (name : Ident) (args : List Value) :
    Erases (specialize name args) (Run.ofUpdate (Update.specialize name args)) := by
  unfold Update.specialize
  rw [Run.ofUpdate_bind]
  exact .bind (.ofUpdate _) fun s => .note _ _

theorem bindSite (caller : Signature) (site : Nat) (callee : Signature) :
    Erases (bindSite caller site callee) (Run.ofUpdate (Update.bindSite caller site callee)) := by
  unfold Update.bindSite
  rw [Run.ofUpdate_bind]
  refine .bind (.lift _) fun e => ?_
  cases e.bound.get? (caller, site) with
  | some a => exact .pure a
  | none =>
    rw [Run.ofUpdate_bind]
    exact .bind (.note _ _) fun a => .bind (.note _ _) fun _ => .pure a

/-! ### The machine -/

variable {host : HostSite → List Compiled → Logged Compiled}
  {host' : HostSite → List Compiled → Run Compiled} (hhost : ∀ s cs, Erases (host s cs) (host' s cs))
include hhost

theorem exec (m : Machine) (op : Op) : Erases (exec host m op) (m.exec host' op) := by
  cases op with
  | call dst site args =>
    simp only [Logged.exec, Machine.exec]
    cases m.function.callSites[site]? with
    | none => exact .halt _
    | some callee => exact .bind (.bindSite _ _ _) fun a => .bind (.lift _) fun cs => .pure _
  | callHost dst site args =>
    simp only [Logged.exec, Machine.exec]
    refine .bind (.lift _) fun cs => ?_
    cases m.function.hostSites[site]? with
    | none => exact .halt _
    | some h => exact .bind (hhost h cs) fun c => .lift _
  | _ => exact .lift _

theorem step (m : Machine) : Erases (step host m) (m.step host') := by
  unfold Logged.step Machine.step
  cases m.function.code[m.pc]? with
  | none => exact .throw _
  | some op => exact exec hhost m op

theorem run (fuel : Nat) (m : Machine) : Erases (run host fuel m) (Machine.run host' fuel m) := by
  induction fuel generalizing m with
  | zero => exact .halt _
  | succ fuel ih =>
    rw [Logged.run, Machine.run]
    refine .bind (step hhost m) fun s => ?_
    cases s with
    | done c => exact .pure c
    | next m' => exact ih m'

theorem execute (fuel : Nat) (a : Artifact) (cs : List Compiled) :
    Erases (execute host fuel a cs) (a.execute host' fuel cs) := by
  unfold Logged.execute Artifact.execute
  split
  · exact .throw _
  · exact run hhost fuel _

end Erases

/-! ### Calls -/

/-- Without their notes, the logged ways to run code are those of the engine. -/
structure Erasure (fuel : Nat) : Prop where
  interpret : ∀ i d args, Erases (interpret fuel i d args) (Run.interpret fuel i d args)
  callFrom : ∀ i name args, Erases (callFrom fuel i name args) (Run.callFrom fuel i name args)
  callDecorated : ∀ name args,
    Erases (callDecorated fuel name args) (Run.callDecorated fuel name args)
  runArtifact : ∀ a args, Erases (runArtifact fuel a args) (Run.runArtifact fuel a args)
  callHost : ∀ site cs, Erases (callHost fuel site cs) (Run.callHost fuel site cs)
  callNative : ∀ n args, Erases (callNative fuel n args) (Run.callNative fuel n args)
  call : ∀ name args, Erases (call fuel name args) (Run.call fuel name args)

namespace Erasure

variable {fuel : Nat} (ih : Erasure fuel)
include ih

theorem interpret_succ (i : Interpreter) (d : FunctionDef) (args : List Value) :
    Erases (Logged.interpret (fuel + 1) i d args) (Run.interpret (fuel + 1) i d args) := by
  rw [Logged.interpret, Run.interpret]
  split
  · exact .throw _
  · exact .activation (.body (ih.callFrom i) fuel d args)

theorem callFrom_succ (i : Interpreter) (name : Ident) (args : List Value) :
    Erases (Logged.callFrom (fuel + 1) i name args) (Run.callFrom (fuel + 1) i name args) := by
  rw [Logged.callFrom, Run.callFrom]
  cases i.types.recordNamed? name with
  | some p => exact .lift _
  | none =>
    refine .bind (.lift _) fun f => ?_
    rcases f with _ | (d | d | n)
    · exact .throw _
    · cases i.mode with
      | host => exact ih.callDecorated name args
      | reference => exact ih.interpret i d args
    · exact ih.interpret i d args
    · exact ih.callNative n args

theorem callDecorated_succ (name : Ident) (args : List Value) :
    Erases (Logged.callDecorated (fuel + 1) name args) (Run.callDecorated (fuel + 1) name args) := by
  rw [Logged.callDecorated, Run.callDecorated]
  refine .guarded (.specialize name args) (fun a => ?_) fun e => ?_
  · exact .bind (.note _ _) fun _ => ih.runArtifact a args
  · exact .bind (.note _ _) fun _ => .throw e

theorem runArtifact_succ (a : Artifact) (args : List Value) :
    Erases (Logged.runArtifact (fuel + 1) a args) (Run.runArtifact (fuel + 1) a args) := by
  rw [Logged.runArtifact, Run.runArtifact_succ]
  exact .bind (.lift _) fun t => .bind (.ofUpdate _) fun cs =>
    .bind (.execute ih.callHost fuel a cs) fun c => .lift _

theorem callHost_succ (site : HostSite) (cs : List Compiled) :
    Erases (Logged.callHost (fuel + 1) site cs) (Run.callHost (fuel + 1) site cs) := by
  rw [Logged.callHost, Run.callHost_succ]
  refine .bind (.lift _) fun t => .bind (.ofUpdate _) fun vs => ?_
  unfold Run.hostValue
  cases site.function with
  | native n => exact .bind (ih.callNative n vs) fun v => .lift _
  | interpreted d =>
    rw [bind_assoc]
    exact .bind (.lift _) fun i => .bind (ih.interpret i d vs) fun v => .lift _

theorem callNative_succ (n : Native) (args : List Value) :
    Erases (Logged.callNative (fuel + 1) n args) (Run.callNative (fuel + 1) n args) := by
  rw [Logged.callNative, Run.callNative]
  split
  · exact .throw _
  · refine .bind (.perform ih.call _) fun r => ?_
    cases r with
    | error message => exact .throw _
    | ok v =>
      refine .bind (.lift _) fun t => ?_
      cases t.normalize v n.returns with
      | ok v => exact .pure v
      | error fault => exact .throw _

theorem call_succ (name : Ident) (args : List Value) :
    Erases (Logged.call (fuel + 1) name args) (Run.call (fuel + 1) name args) := by
  rw [Logged.call, Run.call]
  refine .bind (.lift _) fun f => ?_
  rcases f with _ | (d | d | n)
  · exact .throw _
  · exact ih.callDecorated name args
  · exact .bind (.lift _) fun i => ih.interpret i d args
  · exact ih.callNative n args

end Erasure

theorem Erasure.all (fuel : Nat) : Erasure fuel := by
  induction fuel with
  | zero => exact ⟨fun _ _ _ => .halt _, fun _ _ _ => .halt _, fun _ _ => .halt _, fun _ _ => .halt _,
      fun _ _ => .halt _, fun _ _ => .halt _, fun _ _ => .halt _⟩
  | succ fuel ih =>
    exact {
      interpret := ih.interpret_succ
      callFrom := ih.callFrom_succ
      callDecorated := ih.callDecorated_succ
      runArtifact := ih.runArtifact_succ
      callHost := ih.callHost_succ
      callNative := ih.callNative_succ
      call := ih.call_succ }

theorem verify_erases (fuel : Nat) (name : Ident) (args : List Value) :
    Erases (verify fuel name args) (Run.verify fuel name args) := by
  have hall := Erasure.all fuel
  unfold Logged.verify Run.verify
  refine .bind (.lift _) fun f => ?_
  rcases f with _ | (d | d | n)
  · exact .throw _
  · refine .bind (hall.callDecorated name args) fun compiled => .bind (.ofUpdate _) fun s =>
      .bind (.lift _) fun t => .bind (.ofUpdate _) fun vs => .bind (.lift _) fun i =>
        .bind (hall.interpret i d vs) fun reference => ?_
    split
    · exact .pure _
    · exact .throw _
  · exact hall.call name args
  · exact hall.call name args

end Logged

/-- Without its notes, a logged request is the request. -/
theorem Request.logged_erases (r : Request) (fuel : Nat) :
    Logged.Erases (r.logged fuel) (r.perform fuel) := by
  have hall := Logged.Erasure.all fuel
  have discard : ∀ {α : Type} {x : Logged α} {y : Run α}, Logged.Erases x y →
      Logged.Erases (do let _ ← x; pure ()) (do let _ ← y; pure ()) := fun hx =>
    .bind hx fun _ => .pure ()
  cases r with
  | specialize function args => exact discard (.specialize function args)
  | call function args => exact discard (hall.call function args)
  | callHandle function args => exact discard (hall.callDecorated function args)
  | verify function args => exact discard (Logged.verify_erases fuel function args)
  | _ => exact .lift _

theorem Engine.history_append (e : Engine) (session : List (Nat × Request)) (fuel : Nat) (r : Request) :
    e.history (session ++ [(fuel, r)]) = ((e.history session).record (r.logged fuel)).2 := by
  unfold Engine.history
  rw [List.foldl_append]
  rfl

end ShapeCompiler
