import ShapeCompiler.Proofs.Conversions
import ShapeCompiler.Proofs.Engine.Requests
import ShapeCompiler.Proofs.Interpretation

/-!
Runs extend the engine in which they begin, whatever native functions ask of it.

Main statements: instructions that touch nothing but the machine change no engine and bring no
function in (`Machine.exec_still`), a machine whose frames hold artifacts of the engine goes on to such
machines (`Machine.step_ensures`), and every way to run code extends the engine (`Run.Growth.all`).
-/

namespace ShapeCompiler

variable {α β : Type} {fixed : Prop} {P : Engine → Prop} {e e' : Engine}

/-- What runs begin under: if all definitions are fixed, the engine is in order. -/
abbrev Engine.InOrder (fixed : Prop) (e : Engine) : Prop := fixed → e.Coherent

/-! ### Runs that change no engine -/

/-- An error of compilation or of a program. -/
def Error.IsPlain : Error → Prop
  | .compile _ => True
  | .runtime _ => True
  | _ => False

theorem Error.OfRun.plain {err : Error} (h : err.OfRun) : err.IsPlain := by
  cases err with
  | compile _ | runtime _ => trivial
  | mismatch _ _ _ | options _ => exact h.elim

/-- The run changes no engine and only fails as a program or to convert a value; its answers satisfy a
condition. -/
def Run.Still (x : Run α) (R : α → Prop) : Prop :=
  ∀ (e : Engine) y e', e.run x = .ok (y, e') →
    e' = e ∧ (∀ a, y = .ok a → R a) ∧ ∀ err, y = .error err → err.OfRun

namespace Run.Still

variable {x : Run α} {f : α → Run β} {R S : α → Prop} {R' : β → Prop}

theorem pure {a : α} (h : R a) : Still (pure a) R := by
  intro e y e' hr
  cases hr
  exact ⟨rfl, fun b hb => by cases hb; exact h, fun err herr => by cases herr⟩

theorem halt (why : Halt) : Still (halt why) R := by
  intro e y e' hr
  cases hr

theorem bind (hx : Still x R) (hf : ∀ a, R a → Still (f a) R') : Still (x >>= f) R' := by
  intro e y e' hr
  rcases Engine.run_bind_eq_ok.1 hr with ⟨a, e₁, h₁, h₂⟩ | ⟨err, h₁, rfl⟩
  · obtain ⟨rfl, ha, -⟩ := hx e _ _ h₁
    exact hf a (ha a rfl) e₁ _ _ h₂
  · obtain ⟨rfl, -, herr⟩ := hx e _ _ h₁
    exact ⟨rfl, fun b hb => (by cases hb), fun err' h => by cases h; exact herr err rfl⟩

theorem weaken (hx : Still x R) (hR : ∀ a, R a → S a) : Still x S := by
  intro e y e' hr
  obtain ⟨he, ha, herr⟩ := hx e y e' hr
  exact ⟨he, fun a h => hR a (ha a h), herr⟩

theorem throw {err : Error} (h : err.OfRun) : Still (throw err) R := by
  intro e y e' hr
  cases hr
  exact ⟨rfl, fun a ha => (by cases ha), fun err' herr => by cases herr; exact h⟩

theorem ofRuntime (r : Except RuntimeError α) : Still (ofRuntime r) fun _ => True := by
  cases r with
  | ok a => exact .pure trivial
  | error fault => exact .throw trivial

theorem ofType {r : Except TypeError α} (h : Converts r) :
    Still (ofUpdate (Update.ofType r)) fun _ => True := by
  cases r with
  | ok a => exact .pure trivial
  | error fault => exact .throw (show (Error.compile (.type fault)).OfRun from h fault rfl)

theorem get : Still (MonadState.get : Run Engine) fun _ => True := by
  intro e y e' hr
  cases hr
  exact ⟨rfl, fun _ _ => trivial, fun err herr => by cases herr⟩

theorem function? (name : Ident) : Still (function? name) fun _ => True :=
  get.bind fun _ _ => .pure trivial

theorem types : Still types fun _ => True := get.bind fun _ _ => .pure trivial

theorem interpreter (mode : Mode) : Still (interpreter mode) fun _ => True :=
  get.bind fun _ _ => .pure trivial

theorem ensures (hx : Still x R) : Ensures fixed P x fun a e => P e ∧ R a := by
  intro e he y e' hr
  obtain ⟨rfl, ha, -⟩ := hx e y e' hr
  exact ⟨.refl e', fun a h => ⟨he, ha a h⟩⟩

/-- What holds of an engine still holds behind a run that does not change it. -/
theorem keeps (hx : Still x R) : Ensures fixed P x fun _ e => P e :=
  hx.ensures.weaken (fun _ h => h) fun _ _ h => h.1

end Run.Still

/-! ### Instructions -/

/-- The instruction touches nothing but the machine. -/
def Op.IsLocal : Op → Prop
  | .call .. | .callHost .. => False
  | _ => True

namespace Machine

variable {m : Machine}

def functions (m : Machine) : List Artifact := m.function :: m.frames.map (·.function)

/-- What a step of a machine leads to has its functions from that machine. -/
def Within (m : Machine) (s : Step) : Prop := ∀ m', s = .next m' → m'.functions ⊆ m.functions

theorem within_next {m' : Machine} (h : m'.functions ⊆ m.functions) : m.Within (.next m') := by
  rintro _ ⟨rfl⟩
  exact h

theorem read_still (m : Machine) (r : Reg) : (m.read r).Still fun _ => True := by
  unfold read
  split
  · exact .pure trivial
  · exact .halt _

theorem readAll_still (m : Machine) (rs : List Reg) : (m.readAll rs).Still fun _ => True := by
  induction rs with
  | nil => exact .pure trivial
  | cons r rest ih => exact (m.read_still r).bind fun _ _ => ih.bind fun _ _ => .pure trivial

theorem write_still (m : Machine) (r : Reg) (c : Compiled) :
    (m.write r c).Still fun m' => m'.functions = m.functions := by
  unfold write
  split
  · exact .pure rfl
  · exact .halt _

theorem writeNext_still (m : Machine) (r : Reg) (c : Compiled) :
    (m.writeNext r c).Still m.Within := by
  refine (m.write_still r c).bind fun m' hm => .pure (within_next ?_)
  show m'.functions ⊆ m.functions
  rw [hm]
  exact List.Subset.refl _

theorem unpack_still (subject : Reg) (fields : List (Reg × FieldAccess)) (m : Machine) :
    (unpack subject m fields).Still fun m' => m'.functions = m.functions := by
  induction fields generalizing m with
  | nil => exact .pure rfl
  | cons p rest ih =>
    refine (m.read_still subject).bind fun s _ => (Run.Still.ofRuntime _).bind fun c _ => ?_
    refine (m.write_still p.1 c).bind fun m' hm => (ih m').weaken fun m'' hm' => ?_
    exact hm'.trans hm

theorem leave_still (m : Machine) (c : Compiled) : (m.leave c).Still m.Within := by
  unfold leave
  split
  · exact .pure fun _ h => by cases h
  · rename_i f rest hfr
    refine (write_still _ _ _).bind fun m' hm => .pure (within_next ?_)
    rw [hm]
    unfold functions
    rw [hfr]
    exact List.subset_cons_of_subset _ (List.Subset.refl _)

/-- A local instruction changes no engine and brings no function in. -/
theorem exec_still {host : HostSite → List Compiled → Run Compiled} {op : Op} (h : op.IsLocal) :
    (m.exec host op).Still m.Within := by
  cases op with
  | const dst value => exact m.writeNext_still dst _
  | move dst src => exact (m.read_still src).bind fun c _ => m.writeNext_still dst c
  | incomplete dst => exact m.writeNext_still dst _
  | binary dst op bits lhs rhs =>
    exact (m.read_still lhs).bind fun a _ => (m.read_still rhs).bind fun b _ =>
      (Run.Still.ofRuntime _).bind fun c _ => m.writeNext_still dst c
  | construct dst tag shape args =>
    exact (m.readAll_still args).bind fun cs _ => (Run.Still.ofRuntime _).bind fun c _ =>
      m.writeNext_still dst c
  | switchTag subject table default =>
    exact (m.read_still subject).bind fun c _ => .pure (within_next (List.Subset.refl _))
  | switchScalar subject cases' default =>
    exact (m.read_still subject).bind fun c _ => .pure (within_next (List.Subset.refl _))
  | unpack subject fields =>
    refine (unpack_still subject fields m).bind fun m' hm => .pure (within_next ?_)
    show m'.functions ⊆ m.functions
    rw [hm]
    exact List.Subset.refl _
  | field dst subject access =>
    exact (m.read_still subject).bind fun s _ => (Run.Still.ofRuntime _).bind fun c _ =>
      m.writeNext_still dst c
  | call dst site args => exact h.elim
  | callSelf dst args =>
    refine (m.readAll_still args).bind fun cs _ => .pure (within_next ?_)
    exact List.cons_subset.2 ⟨List.mem_cons_self, List.Subset.refl _⟩
  | callHost dst site args => exact h.elim
  | jump target => exact .pure (within_next (List.Subset.refl _))
  | ret src => exact (m.read_still src).bind fun c _ => m.leave_still c

/-- The functions in all frames are artifacts that the engine keeps. -/
def Kept (fixed : Prop) (m : Machine) (e : Engine) : Prop :=
  e.Holds fixed m.function ∧ ∀ f ∈ m.frames, e.Holds fixed f.function

theorem stable_kept (m : Machine) : Engine.Stable fixed (Kept fixed m) := fun e e' h hk =>
  ⟨Engine.stable_holds _ e e' h hk.1, fun f hf => Engine.stable_holds _ e e' h (hk.2 f hf)⟩

theorem Kept.inOrder {e : Engine} (h : m.Kept fixed e) : e.InOrder fixed := fun hf => (h.1 hf).1

theorem kept_iff : m.Kept fixed e ↔ ∀ a ∈ m.functions, e.Holds fixed a := by
  simp [Kept, functions]

/-- What a step of a machine leads to holds artifacts that the engine keeps. -/
def Step.Kept (fixed : Prop) (s : Step) (e : Engine) : Prop := ∀ m, s = .next m → m.Kept fixed e

theorem within_ensures {x : Run Step} (hx : x.Still m.Within) :
    Run.Ensures fixed (Kept fixed m) x (Step.Kept fixed) := by
  refine hx.ensures.weaken (fun _ h => h) ?_
  rintro s e ⟨hk, hs⟩ m' rfl
  exact kept_iff.2 fun a ha => kept_iff.1 hk a (hs m' rfl ha)

theorem enter_kept {e : Engine} (hk : m.Kept fixed e) {a : Artifact} (ha : e.Holds fixed a) (dst : Reg)
    (args : List Compiled) : (m.enter a dst args).Kept fixed e := by
  refine ⟨ha, fun f hf => ?_⟩
  rcases List.mem_cons.1 hf with rfl | hf
  · exact hk.1
  · exact hk.2 f hf

variable {host : HostSite → List Compiled → Run Compiled}
  (hhost : ∀ site cs, Run.Ensures fixed (Engine.InOrder fixed) (host site cs) fun _ _ => True)
include hhost

theorem exec_ensures (op : Op) :
    Run.Ensures fixed (Kept fixed m) (m.exec host op) (Step.Kept fixed) := by
  cases op with
  | call dst site args =>
    simp only [exec]
    split
    · exact .halt _
    · rename_i callee hsite
      have hbind := ((Run.bindSite_ensures m.function site hsite).weaken
        (fun e (h : m.Kept fixed e) => h.1) fun _ _ h => h.1).keep (stable_kept m)
      refine hbind.bind fun a => (m.readAll_still args).keeps.bind fun cs => .pure ?_
      rintro e ⟨hk, ha⟩ m' h
      cases h
      exact enter_kept hk ha _ _
  | callHost dst site args =>
    refine (m.readAll_still args).keeps.bind fun cs => ?_
    split
    · exact .halt _
    · rename_i h hsite
      have := ((hhost h cs).weaken (fun e (hk : m.Kept fixed e) => hk.inOrder) fun _ _ h => h).keep
        (stable_kept m)
      exact (this.weaken (fun _ h => h) fun _ _ h => h.1).bind fun c =>
        within_ensures (m.writeNext_still _ c)
  | _ => exact within_ensures (exec_still trivial)

theorem step_ensures : Run.Ensures fixed (Kept fixed m) (m.step host) (Step.Kept fixed) := by
  unfold step
  split
  · exact exec_ensures hhost _
  · exact .throw _

theorem run_ensures (fuel : Nat) :
    Run.Ensures fixed (Kept fixed m) (run host fuel m) fun _ _ => True := by
  induction fuel generalizing m with
  | zero => exact .halt _
  | succ fuel ih =>
    rw [run]
    refine (step_ensures hhost).bind fun s => ?_
    cases s with
    | done c => exact .pure fun _ _ => trivial
    | next m' => exact ih.weaken (fun e h => h m' rfl) fun _ _ h => h

end Machine

/-! ### Activations -/

namespace Engine

/-- The engine with one more activation. -/
def entered (e : Engine) : Engine :=
  { e with activations :=
      ⟨e.activations.alive + 1, max e.activations.peak (e.activations.alive + 1)⟩ }

/-- The engine with one activation less. -/
def left (e : Engine) : Engine :=
  { e with activations := { e.activations with alive := e.activations.alive - 1 } }

theorem run_enterActivation (e : Engine) : e.run Run.enterActivation =
    if e.options.maxHostDepth ≤ e.activations.alive then
      .ok (.error (.runtime (.recursionLimit e.options.maxHostDepth)), e)
    else .ok (.ok (), e.entered) := by
  unfold Run.enterActivation
  rw [run_bind]
  show e.run (if e.options.maxHostDepth ≤ e.activations.alive then _ else _) = _
  split <;> rfl

/-- An activation is refused at the limit, else it is the run of its body. -/
theorem run_activation (e : Engine) (x : Run α) :
    e.run (Run.activation x) =
      if e.options.maxHostDepth ≤ e.activations.alive then
        .ok (.error (.runtime (.recursionLimit e.options.maxHostDepth)), e)
      else (e.entered.run x).map fun p => (p.1, p.2.left) := by
  have hanswer : ∀ (r : Except Error α) (e₁ : Engine),
      e₁.run (Run.leaveActivation >>= fun _ => Run.answer r) = .ok (r, e₁.left) := by
    intro r e₁
    show e₁.left.run (Run.answer r) = _
    cases r <;> rfl
  unfold Run.activation
  rw [run_bind, run_enterActivation]
  split
  · rfl
  · show e.entered.run (Run.attempt x >>= fun r => Run.leaveActivation >>= fun _ => Run.answer r) = _
    rw [run_bind, run_attempt]
    cases e.entered.run x with
    | error h => rfl
    | ok p => exact hanswer p.1 p.2

/-- An activation that ends is refused at the limit or ends with its body. -/
theorem run_activation_eq_ok {x : Run α} {y : Except Error α} :
    e.run (Run.activation x) = .ok (y, e') ↔
      (e.options.maxHostDepth ≤ e.activations.alive ∧
        y = .error (.runtime (.recursionLimit e.options.maxHostDepth)) ∧ e' = e) ∨
      (e.activations.alive < e.options.maxHostDepth ∧
        ∃ e₁, e.entered.run x = .ok (y, e₁) ∧ e' = e₁.left) := by
  rw [run_activation]
  split
  · rename_i hl
    constructor
    · intro h; cases h; exact .inl ⟨hl, rfl, rfl⟩
    · rintro (⟨-, rfl, rfl⟩ | ⟨hl', -⟩)
      · rfl
      · omega
  · rename_i hl
    rw [map_eq_ok]
    constructor
    · rintro ⟨⟨y₁, e₁⟩, hx, h⟩
      cases h
      exact .inr ⟨by omega, e₁, hx, rfl⟩
    · rintro (⟨hl', -⟩ | ⟨-, e₁, hx, rfl⟩)
      · omega
      · exact ⟨(y, e₁), hx, rfl⟩

end Engine

/-! ### All ways to run code -/

namespace Run

variable {Q : α → Engine → Prop}

/-- The request extends every engine that is in order. -/
abbrev Orderly (fixed : Prop) (x : Run α) : Prop :=
  Ensures fixed (Engine.InOrder fixed) x fun _ e => e.InOrder fixed

theorem Ensures.orderly {Q : α → Engine → Prop} {x : Run α}
    (h : Ensures fixed (Engine.InOrder fixed) x Q) : Orderly fixed x :=
  (h.keep Engine.stable_coherent).weaken (fun _ h => h) fun _ _ h => h.1

theorem Orderly.pure (a : α) : Orderly fixed (Pure.pure a) :=
  Ensures.pure fun _ h => h

theorem Orderly.bind {x : Run α} {f : α → Run β} (hx : Orderly fixed x)
    (hf : ∀ a, Orderly fixed (f a)) : Orderly fixed (x >>= f) := Ensures.bind hx hf

theorem Orderly.of_still {x : Run α} {R : α → Prop} (hx : Still x R) : Orderly fixed x := hx.keeps

/-- An activation keeps what its body keeps, unless that is about activations. -/
theorem Ensures.activation {x : Run α} (hP : Engine.Stable fixed P) (hin : ∀ e : Engine, P e → P e.entered)
    (hx : Ensures fixed P x Q) : Ensures fixed P (activation x) fun _ e => P e := by
  intro e he y e' hr
  rcases Engine.run_activation_eq_ok.1 hr with ⟨-, rfl, rfl⟩ | ⟨-, e₁, hbody, rfl⟩
  · exact ⟨.refl _, fun _ h => by cases h⟩
  · obtain ⟨hext, -⟩ := hx _ (hin e he) _ _ hbody
    have hext' : e.Extends fixed e₁.left := hext.activation (by
      show e₁.activations.alive - 1 = _
      rw [hext.alive]
      rfl)
    exact ⟨hext', fun _ _ => hP e _ hext' he⟩

theorem Orderly.activation {x : Run α} (hx : Orderly fixed x) : Orderly fixed (activation x) :=
  Ensures.activation Engine.stable_coherent
    (fun _ he hf => (he hf).of_eq rfl rfl rfl rfl rfl rfl) hx

/-- The interpreter does to an engine what the calls in a body do to it. -/
def growth (fixed : Prop) : Relation Run Run where
  rel Q x _ := Ensures fixed (Engine.InOrder fixed) x fun a e => Q a ∧ e.InOrder fixed
  pure hQ := .pure fun _ h => ⟨hQ, h⟩
  bind := by
    intro α β Q Q' x y f g hx hf
    refine Ensures.bind hx fun a => ?_
    by_cases hQ : Q a
    · exact (hf a hQ).weaken (fun _ h => h.2) fun _ _ h => h
    · exact fun _ h => absurd h.1 hQ
  throw _ := .throw _
  halt := .halt _

theorem Orderly.body {i : Interpreter} {call : Ident → List Value → Run Value}
    (h : ∀ name args, Orderly fixed (call name args)) (fuel : Nat) (d : FunctionDef)
    (args : List Value) : Orderly fixed (i.body call fuel d args) := by
  have hcall : ∀ name args, (∀ v ∈ args, True) →
      (growth fixed).rel (fun _ : Value => True) (call name args) (call name args) :=
    fun name args _ => (h name args).weaken (fun _ h => h) fun _ _ h => ⟨trivial, h⟩
  have hbody : (growth fixed).rel (fun _ : Value => True) (i.body call fuel d args)
      (i.body call fuel d args) :=
    (growth fixed).body i.closed_true hcall (.inl rfl) d fun _ _ => trivial
  exact hbody.orderly

theorem Orderly.perform {call : Ident → List Value → Run Value}
    (h : ∀ name args, Orderly fixed (call name args)) (cb : Callback) :
    Orderly fixed (cb.perform call) := by
  induction cb with
  | finish result => exact .pure _
  | enter function args resume ih =>
    exact .bind (Ensures.attempt (h function args)).orderly fun answer => ih answer

/-- Every way to run code with some fuel extends an engine that is in order. -/
structure Growth (fixed : Prop) (fuel : Nat) : Prop where
  interpret : ∀ i d args, Orderly fixed (interpret fuel i d args)
  callFrom : ∀ i name args, Orderly fixed (callFrom fuel i name args)
  callDecorated : ∀ name args, Orderly fixed (callDecorated fuel name args)
  runArtifact : ∀ a args, Ensures fixed (Engine.Holds fixed a) (runArtifact fuel a args)
    fun _ e => e.InOrder fixed
  callHost : ∀ site cs, Orderly fixed (callHost fuel site cs)
  callNative : ∀ n args, Orderly fixed (callNative fuel n args)
  call : ∀ name args, Orderly fixed (call fuel name args)

theorem countExecution_orderly : Orderly fixed countExecution := by
  refine (Ensures.modify fun e _ => ?_).orderly
  exact .of_eq rfl rfl rfl rfl rfl rfl rfl

theorem Ensures.execute {host : HostSite → List Compiled → Run Compiled}
    (hhost : ∀ site cs, Orderly fixed (host site cs)) (fuel : Nat) (a : Artifact)
    (cs : List Compiled) :
    Ensures fixed (Engine.Holds fixed a) (a.execute host fuel cs) fun _ e => e.InOrder fixed := by
  unfold Artifact.execute
  split
  · exact .throw _
  · have hrun : Run.Ensures fixed ((Machine.start a cs).Kept fixed)
        (Machine.run host fuel (Machine.start a cs)) fun _ _ => True :=
      Machine.run_ensures (fun site cs => (hhost site cs).weaken (fun _ h => h) fun _ _ _ => trivial) fuel
    refine (hrun.keep (Machine.stable_kept _)).weaken (fun e he => ⟨he, fun f hf => by cases hf⟩) ?_
    exact fun _ e h => h.1.inOrder

/-- The answer of a host function that is called from compiled code. -/
def hostValue (fuel : Nat) : HostFunction → List Value → Run Value
  | .native n, vs => callNative fuel n vs
  | .interpreted d, vs => do
    let i ← interpreter .host
    interpret fuel i d vs

/-- The answer of a host function as compiled code takes it back. -/
def hostResult (t : TypeTable) (site : HostSite) (v : Value) : Run Compiled :=
  match site.returns with
  | some type =>
    match t.encode v type with
    | .ok c => Pure.pure c
    | .error fault => throw (fault.inHost site.name)
  | none =>
    if v.isIncomplete then Pure.pure .incomplete
    else throw (.runtime (.typeMismatch (.hostResult site.name) [.ofValue v]))

theorem callHost_succ (fuel : Nat) (site : HostSite) (cs : List Compiled) :
    callHost (fuel + 1) site cs = (do
      let t ← types
      let vs ← Update.ofType (t.decodeAll cs site.params)
      let v ← hostValue fuel site.function vs
      hostResult t site v) := by
  rw [callHost]
  refine congrArg _ (funext fun t => congrArg _ (funext fun vs => ?_))
  unfold hostValue
  cases site.function with
  | native n => rfl
  | interpreted d => rw [bind_assoc]; rfl

/-- The result of an artifact as the host takes it back. -/
def artifactResult (t : TypeTable) (a : Artifact) (c : Compiled) : Run Value :=
  match a.returns with
  | some type => ofUpdate (Update.ofType (t.decode c type))
  | none =>
    if c.isIncomplete then Pure.pure .incomplete
    else throw (.runtime (.typeMismatch .result [c.found]))

theorem runArtifact_succ (fuel : Nat) (a : Artifact) (args : List Value) :
    runArtifact (fuel + 1) a args = (do
      let t ← types
      let cs ← Update.ofType (t.encodeAll args a.signature.args)
      let c ← a.execute (callHost fuel) fuel cs
      artifactResult t a c) := by
  rw [runArtifact]
  rfl

theorem hostResult_still (t : TypeTable) (site : HostSite) (v : Value) :
    (hostResult t site v).Still fun _ => True := by
  unfold hostResult
  split
  · split
    · exact .pure trivial
    · exact .throw trivial
  · split
    · exact .pure trivial
    · exact .throw trivial

theorem artifactResult_still (t : TypeTable) (a : Artifact) (c : Compiled) :
    (artifactResult t a c).Still fun _ => True := by
  unfold artifactResult
  split
  · exact .ofType (t.decode_converts c _)
  · split
    · exact .pure trivial
    · exact .throw trivial

/-- What follows when a decorated function has been specialised. -/
theorem Growth.counted {fuel : Nat} (h : Growth fixed fuel) (a : Artifact) (args : List Value) :
    Ensures fixed (Engine.Holds fixed a) (do
      countExecution
      Run.runArtifact fuel a args) fun _ e => e.InOrder fixed := by
  have hcount := (countExecution_orderly.weaken (fun _ (h : Engine.Holds fixed a _) hf => (h hf).1)
    fun _ _ h => h).keep (Engine.stable_holds a)
  exact Ensures.bind (hcount.weaken (fun _ h => h) fun _ _ h => h.1) fun _ => h.runArtifact a args

namespace Growth

variable {fuel : Nat} (ih : Growth fixed fuel)
include ih

theorem interpret_succ (i : Interpreter) (d : FunctionDef) (args : List Value) :
    Orderly fixed (Run.interpret (fuel + 1) i d args) := by
  rw [Run.interpret]
  split
  · exact .throw _
  · exact (Orderly.body (ih.callFrom i) fuel d args).activation

theorem callFrom_succ (i : Interpreter) (name : Ident) (args : List Value) :
    Orderly fixed (Run.callFrom (fuel + 1) i name args) := by
  rw [Run.callFrom]
  split
  · exact .of_still (.ofRuntime _)
  · refine (Orderly.of_still (.function? name)).bind fun f => ?_
    rcases f with _ | (d | d | n)
    · exact .throw _
    · simp only
      split
      · exact ih.callDecorated name args
      · exact ih.interpret i d args
    · exact ih.interpret i d args
    · exact ih.callNative n args

theorem callDecorated_succ (name : Ident) (args : List Value) :
    Orderly fixed (Run.callDecorated (fuel + 1) name args) := by
  rw [Run.callDecorated]
  exact Ensures.bind (specialize_ensures name args) fun a =>
    (ih.counted a args).weaken (fun _ h => h.1) fun _ _ h => h

theorem runArtifact_succ (a : Artifact) (args : List Value) :
    Ensures fixed (Engine.Holds fixed a) (Run.runArtifact (fuel + 1) a args) fun _ e => e.InOrder fixed := by
  rw [Run.runArtifact_succ]
  have held : ∀ {β : Type} {x : Run β}, Orderly fixed x →
      Ensures fixed (Engine.Holds fixed a) x fun _ e => e.Holds fixed a := fun hx =>
    ((hx.weaken (fun _ h hf => (h hf).1) fun _ _ h => h).keep
      (Engine.stable_holds a)).weaken (fun _ h => h) fun _ _ h => h.1
  exact Ensures.bind (held (.of_still .types)) fun t =>
    Ensures.bind (held (.of_still (.ofType (t.encodeAll_converts _ _)))) fun cs =>
    Ensures.bind (Ensures.execute ih.callHost fuel a cs) fun c =>
      Orderly.of_still (artifactResult_still t a c)

theorem callHost_succ (site : HostSite) (cs : List Compiled) :
    Orderly fixed (Run.callHost (fuel + 1) site cs) := by
  rw [Run.callHost_succ]
  refine (Orderly.of_still .types).bind fun t =>
    (Orderly.of_still (.ofType (t.decodeAll_converts _ _))).bind fun vs =>
      Orderly.bind ?_ fun v => .of_still (hostResult_still t site v)
  unfold hostValue
  cases site.function with
  | native n => exact ih.callNative n vs
  | interpreted d => exact (Orderly.of_still (.interpreter .host)).bind fun i => ih.interpret i d vs

theorem callNative_succ (n : Native) (args : List Value) :
    Orderly fixed (Run.callNative (fuel + 1) n args) := by
  rw [Run.callNative]
  split
  · exact .throw _
  · refine (Orderly.perform ih.call _).bind fun r => ?_
    cases r with
    | error message => exact .throw _
    | ok v =>
      refine (Orderly.of_still .types).bind fun t => ?_
      split
      · exact .pure _
      · exact .throw _

theorem call_succ (name : Ident) (args : List Value) : Orderly fixed (Run.call (fuel + 1) name args) := by
  rw [Run.call]
  refine (Orderly.of_still (.function? name)).bind fun f => ?_
  rcases f with _ | (d | d | n)
  · exact .throw _
  · exact ih.callDecorated name args
  · exact (Orderly.of_still (.interpreter .host)).bind fun i => ih.interpret i d args
  · exact ih.callNative n args

end Growth

/-- Every way to run code extends an engine that is in order. -/
theorem Growth.all (fuel : Nat) : Growth fixed fuel := by
  induction fuel with
  | zero => exact ⟨fun _ _ _ => .halt _, fun _ _ _ => .halt _, fun _ _ => .halt _, fun _ _ => .halt _,
      fun _ _ => .halt _, fun _ _ => .halt _, fun _ _ => .halt _⟩
  | succ fuel ih =>
    exact {
      interpret := ih.interpret_succ
      callFrom := ih.callFrom_succ
      callDecorated := ih.callDecorated_succ
      runArtifact := ih.runArtifact_succ
      callHost := ih.callHost_succ
      callNative := ih.callNative_succ
      call := ih.call_succ }

end Run

end ShapeCompiler
