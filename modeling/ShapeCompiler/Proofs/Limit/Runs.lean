import ShapeCompiler.Proofs.Engine.Sessions
import ShapeCompiler.Proofs.Lowering.Flow
import ShapeCompiler.Proofs.Machine.Blind
import ShapeCompiler.Proofs.Natives

/-!
Runs under a higher recursion limit.

The limit is read where an activation begins and nowhere else, and what fails there fails as a whole
if native functions never enter the engine again. Main statement: a run that does not fail at the limit
is the same under every higher one (`Run.Capping.all`, `Run.verify_capped`).
-/

namespace ShapeCompiler

variable {α β : Type} {e e' : Engine}

/-- The engine under another recursion limit. -/
def Engine.withLimit (e : Engine) (limit : Nat) : Engine :=
  { e with options := { e.options with maxHostDepth := limit } }

/-! ### Requests that do not look at the limit -/

/-- The second run does under a limit what the first one does. -/
def Run.Under (limit : Nat) (x y : Run α) : Prop :=
  ∀ e : Engine, (e.withLimit limit).run y = (e.run x).map fun p => (p.1, p.2.withLimit limit)

/-- The run is the same under every limit. -/
abbrev Run.Heedless (x : Run α) : Prop := ∀ limit, Under limit x x

namespace Run.Under

variable {limit : Nat}

theorem of_blind {x : Run α} (hx : Blind x) : Under limit x x := by
  obtain ⟨r, hr⟩ := hx
  intro e
  rw [hr, hr]
  cases r <;> rfl

theorem pure (a : α) : Under limit (pure a) (pure a) := .of_blind (.pure a)

theorem bind {x y : Run α} {f g : α → Run β} (hx : Under limit x y) (hf : ∀ a, Under limit (f a) (g a)) :
    Under limit (x >>= f) (y >>= g) := by
  intro e
  rw [Engine.run_bind, Engine.run_bind, hx e]
  rcases e.run x with why | ⟨err | a, e₁⟩
  · rfl
  · rfl
  · exact hf a e₁

theorem bind_update {x y : Update α} {f g : α → Update β} (hx : Under limit (ofUpdate x) (ofUpdate y))
    (hf : ∀ a, Under limit (ofUpdate (f a)) (ofUpdate (g a))) :
    Under limit (ofUpdate (x >>= f)) (ofUpdate (y >>= g)) := by
  rw [ofUpdate_bind, ofUpdate_bind]
  exact hx.bind hf

theorem bind_get {f g : Engine → Update β}
    (hf : ∀ e, Under limit (ofUpdate (f e)) (ofUpdate (g (e.withLimit limit)))) :
    Under limit (ofUpdate (get >>= f)) (ofUpdate (get >>= g)) := fun e => hf e e

theorem bind_set {e : Engine} {x y : Update β} (h : Under limit (ofUpdate x) (ofUpdate y)) :
    Under limit (ofUpdate (do set e; x)) (ofUpdate (do set (e.withLimit limit); y)) := fun _ => h e

end Run.Under

namespace Run.Heedless

open Run.Under

theorem of_blind {x : Run α} (hx : Blind x) : Heedless x := fun _ => .of_blind hx

theorem bind {x : Run α} {f : α → Run β} (hx : Heedless x) (hf : ∀ a, Heedless (f a)) :
    Heedless (x >>= f) := fun limit => (hx limit).bind fun a => hf a limit

theorem function? (name : Ident) : Heedless (function? name) := fun _ _ => rfl

theorem types : Heedless types := fun _ _ => rfl

theorem interpreter (mode : Mode) : Heedless (interpreter mode) := fun _ _ => rfl

theorem countExecution : Heedless countExecution := fun _ _ => rfl

theorem ofType (x : Except TypeError α) : Heedless (ofUpdate (Update.ofType x)) := .of_blind (.ofType x)

theorem ofCompile (x : Except CompileError α) : Heedless (ofUpdate (Update.ofCompile x)) := by
  cases x with
  | ok a => exact .of_blind (.pure a)
  | error err => exact .of_blind (.throw _)

theorem declareScalar (bits : Nat) : Heedless (ofUpdate (Update.declareScalar bits)) := fun limit =>
  bind_get fun e => bind_update (ofType (e.types.declareScalar bits) limit) fun _ =>
    bind_set (.pure _)

theorem argumentType (t : TypeTable) (function : Ident) (v : Value) :
    Heedless (ofUpdate (Update.argumentType t function v)) := by
  cases v with
  | int n => exact fun limit => bind_get fun e => declareScalar e.options.defaultBits limit
  | uint u => exact declareScalar _
  | record name vs =>
    simp only [Update.argumentType]
    split
    · exact .of_blind (.pure _)
    · exact .of_blind (.throw _)
  | incomplete => exact .of_blind (.throw _)

theorem signatureOf (function : Ident) (args : List Value) :
    Heedless (ofUpdate (Update.signatureOf function args)) := by
  have all : ∀ t, Heedless (ofUpdate (args.mapM (Update.argumentType t function))) := by
    intro t
    induction args with
    | nil => exact .of_blind (.pure _)
    | cons v rest ih =>
      rw [List.mapM_cons]
      exact fun limit => bind_update (argumentType t function v limit) fun _ =>
        bind_update (ih limit) fun _ => .pure _
  exact fun limit => bind_get fun e => bind_update (all e.types limit) fun _ => .pure _

theorem artifactOf (s : Signature) : Heedless (ofUpdate (Update.artifactOf s)) := by
  intro limit
  refine bind_get fun e => ?_
  have hget : (e.withLimit limit).compiled.get? s = e.compiled.get? s := rfl
  rw [hget]
  cases e.compiled.get? s with
  | some outcome => exact bind_set (ofCompile outcome limit)
  | none => exact bind_update (bind_get fun e => bind_set (.pure _)) fun outcome => ofCompile outcome limit

theorem bindSite (caller : Signature) (site : Nat) (callee : Signature) :
    Heedless (ofUpdate (Update.bindSite caller site callee)) := by
  intro limit
  refine bind_get fun e => ?_
  have hget : (e.withLimit limit).bound.get? (caller, site) = e.bound.get? (caller, site) := rfl
  rw [hget]
  cases e.bound.get? (caller, site) with
  | some a => exact .pure a
  | none => exact bind_update (artifactOf callee limit) fun a _ => rfl

theorem specialize (function : Ident) (args : List Value) :
    Heedless (ofUpdate (Update.specialize function args)) := fun limit =>
  bind_update (signatureOf function args limit) fun s => artifactOf s limit

end Run.Heedless

/-! ### Runs that the limit only cuts off -/

/-- The engine is in order, and none of its native functions ever enters it again. -/
structure Engine.Calm (e : Engine) : Prop where
  coherent : e.Coherent
  pure : e.functions.Pure

/-- The run fails at the limit of an engine. -/
def Engine.CutsOff (e : Engine) (x : Run α) : Prop :=
  ∃ e', e.run x = .ok (.error (.runtime (.recursionLimit e.options.maxHostDepth)), e')

/-- Begun under a condition, the run ensures another one, and it fails at the limit or does the same
under every higher limit. -/
structure Run.Capped (P : Engine → Prop) (x : Run α) (Q : α → Engine → Prop) : Prop where
  ensures : x.Ensures True P Q
  cut : ∀ e limit, P e → e.options.maxHostDepth ≤ limit →
    e.CutsOff x ∨ (e.withLimit limit).run x = (e.run x).map fun p => (p.1, p.2.withLimit limit)

namespace Engine

theorem stable_calm : Stable True Calm := fun e e' h hc =>
  ⟨h.coherent trivial hc.coherent, by rw [h.functions]; exact hc.pure⟩

theorem Calm.inOrder (h : e.Calm) : e.InOrder True := fun _ => h.coherent

/-- Behind a host site of an artifact that is kept stands a function that is registered. -/
theorem Coherent.hostSite (h : e.Coherent) {a : Artifact} (hk : e.Keeps a) {pc site : Nat} {dst : Reg}
    {args : List Reg} {s : HostSite} (hop : a.code[pc]? = some (.callHost dst site args))
    (hs : a.hostSites[site]? = some s) : e.functions.get? s.name = some s.function.toFunction := by
  obtain ⟨-, c, hserves, hcomp⟩ := h.compiled hk
  obtain ⟨d, T, pool, -, -, ha⟩ := Typing.compile_eq_ok hcomp
  obtain ⟨s', hs', htakes⟩ := ha.fitting _ (Array.mem_of_getElem? hop)
  cases hs.symm.trans hs'
  exact (hserves.functions htakes.function).1

end Engine

namespace Run.Capped

variable {P P' : Engine → Prop} {Q R : α → Engine → Prop} {Q' : β → Engine → Prop} {x : Run α}
  {f : α → Run β}

theorem of_heedless (hx : Heedless x) (hens : x.Ensures True P Q) : Capped P x Q :=
  ⟨hens, fun e limit _ _ => .inr (hx limit e)⟩

/-- A run that changes no engine and does not look at the limit. -/
theorem still {S : α → Prop} (hx : Still x S) (hh : Heedless x) : Capped P x fun _ e => P e :=
  .of_heedless hh hx.keeps

theorem pure {a : α} (h : ∀ e, P e → Q a e) : Capped P (pure a) Q :=
  .of_heedless (.of_blind (.pure a)) (.pure h)

theorem throw (err : Error) : Capped P (throw err) Q := .of_heedless (.of_blind (.throw err)) (.throw err)

theorem halt (why : Halt) : Capped P (halt why) Q := .of_heedless (.of_blind (.halt why)) (.halt why)

theorem weaken (hx : Capped P x Q) (hP : ∀ e, P' e → P e) (hQ : ∀ a e, Q a e → R a e) : Capped P' x R :=
  ⟨hx.ensures.weaken hP hQ, fun e limit he => hx.cut e limit (hP e he)⟩

/-- The limit cuts off a sequence where it cuts off one of its parts. -/
theorem bind (hx : Capped P x Q) (hf : ∀ a, Capped (Q a) (f a) Q') : Capped P (x >>= f) Q' := by
  refine ⟨hx.ensures.bind fun a => (hf a).ensures, fun e limit he hle => ?_⟩
  rcases hx.cut e limit he hle with ⟨e₁, hcut⟩ | hsame
  · left
    exact ⟨e₁, Engine.run_bind_eq_ok.2 (.inr ⟨_, hcut, rfl⟩)⟩
  · unfold Engine.CutsOff
    rw [Engine.run_bind, Engine.run_bind, hsame]
    rcases hrun : e.run x with why | ⟨err | a, e₁⟩
    · exact .inr rfl
    · exact .inr rfl
    · obtain ⟨hext, hq⟩ := hx.ensures e he _ _ hrun
      have hcut := (hf a).cut e₁ limit (hq a rfl) (by rw [hext.options]; exact hle)
      unfold Engine.CutsOff at hcut
      rw [hext.options] at hcut
      exact hcut

/-- What a run begins under may be taken to hold. -/
theorem assuming {φ : Prop} (h : ∀ e, P e → φ) (hx : φ → Capped P x Q) : Capped P x Q :=
  ⟨fun e he => (hx (h e he)).ensures e he, fun e limit he => (hx (h e he)).cut e limit he⟩

/-- What a run begins under still holds behind it. -/
theorem keep (hx : Capped P x Q) (hP : Engine.Stable True P) : Capped P x fun a e => P e ∧ Q a e :=
  ⟨hx.ensures.keep hP, hx.cut⟩

/-- An activation that the limit allows is allowed by every higher one. -/
theorem activation (hx : Capped Engine.Calm x Q) :
    Capped Engine.Calm (activation x) fun _ e => e.Calm := by
  have hin : ∀ e : Engine, e.Calm → e.entered.Calm := fun e he =>
    ⟨he.coherent.of_eq rfl rfl rfl rfl rfl rfl, he.pure⟩
  refine ⟨.activation Engine.stable_calm hin hx.ensures, fun e limit he hle => ?_⟩
  unfold Engine.CutsOff
  rw [Engine.run_activation, Engine.run_activation]
  by_cases hfull : e.options.maxHostDepth ≤ e.activations.alive
  · rw [if_pos hfull]
    exact .inl ⟨e, rfl⟩
  · have hroom : ¬ (e.withLimit limit).options.maxHostDepth ≤ (e.withLimit limit).activations.alive :=
      fun h => hfull (Nat.le_trans hle h)
    rw [if_neg hfull, if_neg hroom]
    rcases hx.cut e.entered limit (hin e he) hle with ⟨e₁, hcut⟩ | hsame
    · exact .inl ⟨e₁.left, by rw [hcut]; rfl⟩
    · right
      show (e.entered.withLimit limit |>.run x).map _ = _
      rw [hsame]
      cases e.entered.run x <;> rfl

end Run.Capped

/-! ### The interpreter -/

namespace Run

/-- The limit cuts off an interpretation where it cuts off a call in the body. -/
def capping : Relation Run Run where
  rel Q x _ := Capped Engine.Calm x fun a e => Q a ∧ e.Calm
  pure hQ := .pure fun _ h => ⟨hQ, h⟩
  bind := by
    intro α β Q Q' x y f g hx hf
    refine Capped.bind hx fun a => ?_
    by_cases hQ : Q a
    · exact (hf a hQ).weaken (fun _ h => h.2) fun _ _ h => h
    · exact ⟨fun _ h => absurd h.1 hQ, fun _ _ h => absurd h.1 hQ⟩
  throw _ := .throw _
  halt := .halt _

/-- The run is cut off by the limit or the same under every higher one, in an engine that is calm. -/
abbrev Calmly (x : Run α) : Prop := Capped Engine.Calm x fun _ e => e.Calm

theorem Calmly.body {i : Interpreter} {call : Ident → List Value → Run Value}
    (h : ∀ name args, Calmly (call name args)) (fuel : Nat) (d : FunctionDef) (args : List Value) :
    Calmly (i.body call fuel d args) := by
  have hcall : ∀ name args, (∀ v ∈ args, True) →
      capping.rel (fun _ : Value => True) (call name args) (call name args) :=
    fun name args _ => (h name args).weaken (fun _ h => h) fun _ _ h => ⟨trivial, h⟩
  have hbody : capping.rel (fun _ : Value => True) (i.body call fuel d args)
      (i.body call fuel d args) :=
    capping.body i.closed_true hcall (.inl rfl) d fun _ _ => trivial
  exact hbody.weaken (fun _ h => h) fun _ _ h => h.2

end Run

/-! ### The machine -/

namespace Machine

variable {m : Machine} {host : HostSite → List Compiled → Run Compiled}

/-- The engine is calm and keeps the functions in all frames. -/
structure Attended (m : Machine) (e : Engine) : Prop where
  calm : e.Calm
  kept : m.Kept True e

theorem stable_attended (m : Machine) : Engine.Stable True m.Attended := fun e e' h ha =>
  ⟨Engine.stable_calm e e' h ha.calm, stable_kept m e e' h ha.kept⟩

/-- What a step leads to is attended. -/
def Step.Attended (s : Step) (e : Engine) : Prop := ∀ m, s = .next m → m.Attended e

end Machine

/-- Where a registered function is called from compiled code, the limit only cuts off. -/
structure Run.HostsCapped (host : HostSite → List Compiled → Run Compiled) : Prop where
  orderly : ∀ site cs, Orderly True (host site cs)
  capped : ∀ site cs, Capped
    (fun e => e.Calm ∧ e.functions.get? site.name = some site.function.toFunction) (host site cs)
    fun _ e => e.Calm

namespace Machine

variable {m : Machine} {host : HostSite → List Compiled → Run Compiled}

theorem exec_local_heedless {op : Op} (h : op.IsLocal) : (m.exec host op).Heedless :=
  .of_blind (m.exec_blind h)

theorem exec_call_heedless (dst : Reg) (site : Nat) (args : List Reg) :
    (m.exec host (.call dst site args)).Heedless := by
  simp only [exec]
  cases m.function.callSites[site]? with
  | none => exact .of_blind (.halt _)
  | some callee =>
    exact (Run.Heedless.bindSite _ _ _).bind fun a => .of_blind ((m.readAll_blind args).bind fun _ => .pure _)

variable (hhost : Run.HostsCapped host)
include hhost

theorem exec_callHost_capped {dst : Reg} {site : Nat} {args : List Reg}
    (hop : m.function.code[m.pc]? = some (.callHost dst site args)) :
    Run.Capped m.Attended (m.exec host (.callHost dst site args)) fun _ _ => True := by
  refine (Run.Capped.still (m.readAll_still args) (.of_blind (m.readAll_blind args))).bind fun cs => ?_
  cases hsite : m.function.hostSites[site]? with
  | none => exact .halt _
  | some s =>
    refine ((hhost.capped s cs).weaken ?_ fun _ _ h => h).bind fun c => ?_
    · rintro e ⟨hcalm, hkept⟩
      exact ⟨hcalm, hcalm.coherent.hostSite (hkept.1 trivial).2 hop hsite⟩
    · exact (Run.Capped.still (m.writeNext_still dst c) (.of_blind (m.writeNext_blind dst c))).weaken
        (fun _ h => h) fun _ _ _ => trivial

/-- The limit cuts off no instruction but calls of host functions. -/
theorem step_capped : Run.Capped m.Attended (m.step host) Step.Attended := by
  constructor
  · have hgrows : ∀ site cs, Run.Ensures True (Engine.InOrder True) (host site cs) fun _ _ => True :=
      fun site cs => (hhost.orderly site cs).weaken (fun _ h => h) fun _ _ _ => trivial
    refine ((step_ensures (m := m) hgrows).frame Engine.stable_calm).weaken
      (fun e h => ⟨h.kept, h.calm⟩) ?_
    rintro s e ⟨hcalm, hs⟩ m' h
    exact ⟨hcalm, hs m' h⟩
  · intro e limit he hle
    unfold step Engine.CutsOff
    cases hop : m.function.code[m.pc]? with
    | none => exact .inr rfl
    | some op =>
      cases op with
      | call dst site args => exact .inr (exec_call_heedless dst site args limit e)
      | callHost dst site args => exact (exec_callHost_capped hhost hop).cut e limit he hle
      | _ =>
        refine .inr (exec_local_heedless ?_ limit e)
        trivial

theorem run_capped (fuel : Nat) (m : Machine) :
    Run.Capped m.Attended (run host fuel m) fun _ e => e.Calm := by
  induction fuel generalizing m with
  | zero => exact .halt _
  | succ fuel ih =>
    rw [run]
    refine ((step_capped hhost).keep (stable_attended m)).bind fun s => ?_
    cases s with
    | done c => exact .pure fun _ h => h.1.calm
    | next m' => exact (ih m').weaken (fun e h => h.2 m' rfl) fun _ _ h => h

end Machine

theorem Run.Capped.execute {host : HostSite → List Compiled → Run Compiled} (hhost : HostsCapped host)
    (fuel : Nat) (a : Artifact) (cs : List Compiled) :
    Capped (fun e => e.Calm ∧ e.Keeps a) (a.execute host fuel cs) fun _ e => e.Calm := by
  unfold Artifact.execute
  split
  · exact .throw _
  · refine (Machine.run_capped hhost fuel (Machine.start a cs)).weaken ?_ fun _ _ h => h
    rintro e ⟨hcalm, hkeep⟩
    exact ⟨hcalm, fun _ => ⟨hcalm.coherent, hkeep⟩, fun f hf => by cases hf⟩

/-! ### All ways to run code -/

namespace Run

/-- With some fuel, the limit only cuts off every way to run code. -/
structure Capping (fuel : Nat) : Prop where
  interpret : ∀ i d args, Calmly (interpret fuel i d args)
  callFrom : ∀ i name args, Calmly (callFrom fuel i name args)
  callDecorated : ∀ name args, Calmly (callDecorated fuel name args)
  runArtifact : ∀ a args, Capped (fun e => e.Calm ∧ e.Keeps a) (runArtifact fuel a args)
    fun _ e => e.Calm
  callHost : HostsCapped (callHost fuel)
  /-- A native function that enters the engine again could hide a failure at the limit. -/
  callNative : ∀ n : Native, n.IsPure → ∀ args, Calmly (callNative fuel n args)
  call : ∀ name args, Calmly (call fuel name args)

theorem Calmly.function? {name : Ident} {f : Option Function → Run β}
    (hf : ∀ r, Capped (fun e => e.Calm ∧ e.functions.get? name = r) (f r) fun _ e => e.Calm) :
    Calmly (function? name >>= f) := by
  refine Capped.bind (Q := fun r e => e.Calm ∧ e.functions.get? name = r)
    (.of_heedless (.function? name) ?_) hf
  intro e he y e' hr
  cases hr
  exact ⟨.refl e, fun a ha => by cases ha; exact ⟨he, rfl⟩⟩

/-- Where a function was found, no more is needed than that the engine is calm. -/
theorem Capped.found {φ : Engine → Prop} {x : Run α} (hx : Calmly x) :
    Capped (fun e => e.Calm ∧ φ e) x fun _ e => e.Calm := hx.weaken (fun _ h => h.1) fun _ _ h => h

theorem Capped.specialize (name : Ident) (args : List Value) :
    Capped Engine.Calm (ofUpdate (Update.specialize name args)) fun a e => e.Calm ∧ e.Keeps a := by
  refine .of_heedless (.specialize name args) ?_
  refine ((specialize_ensures name args).frame Engine.stable_calm).weaken
    (fun e h => ⟨h.inOrder, h⟩) ?_
  rintro a e ⟨hcalm, hholds, -⟩
  exact ⟨hcalm, (hholds trivial).2⟩

theorem Capped.countExecution {P : Engine → Prop} (hP : Engine.Stable True P)
    (hcalm : ∀ e, P e → e.Calm) : Capped P countExecution fun _ e => P e := by
  refine .of_heedless .countExecution ?_
  exact (countExecution_orderly.frame hP).weaken (fun e h => ⟨(hcalm e h).inOrder, h⟩) fun _ _ h => h.1

/-- The limit cuts off no callback that ends at once. -/
theorem Calmly.settle {n : Native} (hn : n.IsPure) {call : Ident → List Value → Run Value} {args : List Value}
    {f : Except String Value → Run β} (hf : ∀ r, Calmly (f r)) :
    Calmly ((n.run args).perform call >>= f) := by
  obtain ⟨result, hr⟩ := hn args
  rw [hr]
  exact hf result

section Still

variable {P : Engine → Prop} {Q : β → Engine → Prop} {f : α → Run β}

theorem Capped.types_bind {f : TypeTable → Run β} (hf : ∀ t, Capped P (f t) Q) :
    Capped P (types >>= f) Q := (Capped.still .types .types).bind hf

theorem Capped.ofType_bind {x : Except TypeError α} (hx : Converts x) (hf : ∀ a, Capped P (f a) Q) :
    Capped P (ofUpdate (Update.ofType x) >>= f) Q := (Capped.still (.ofType hx) (.ofType x)).bind hf

theorem Capped.interpreter_bind {mode : Mode} {f : Interpreter → Run β} (hf : ∀ i, Capped P (f i) Q) :
    Capped P (interpreter mode >>= f) Q := (Capped.still (.interpreter mode) (.interpreter mode)).bind hf

theorem Capped.artifactResult (t : TypeTable) (a : Artifact) (c : Compiled) :
    Capped P (artifactResult t a c) fun _ e => P e := by
  refine .still (artifactResult_still t a c) ?_
  unfold Run.artifactResult
  split
  · exact .ofType _
  · split
    · exact .of_blind (.pure _)
    · exact .of_blind (.throw _)

theorem Capped.hostResult (t : TypeTable) (site : HostSite) (v : Value) :
    Capped P (hostResult t site v) fun _ e => P e := by
  refine .still (hostResult_still t site v) ?_
  unfold Run.hostResult
  split
  · split
    · exact .of_blind (.pure _)
    · exact .of_blind (.throw _)
  · split
    · exact .of_blind (.pure _)
    · exact .of_blind (.throw _)

end Still

namespace Capping

variable {fuel : Nat} (ih : Capping fuel)
include ih

theorem interpret_succ (i : Interpreter) (d : FunctionDef) (args : List Value) :
    Calmly (Run.interpret (fuel + 1) i d args) := by
  rw [Run.interpret]
  split
  · exact .throw _
  · exact Capped.activation (Calmly.body (ih.callFrom i) fuel d args)

theorem callFrom_succ (i : Interpreter) (name : Ident) (args : List Value) :
    Calmly (Run.callFrom (fuel + 1) i name args) := by
  rw [Run.callFrom]
  split
  · exact Capped.still (.ofRuntime _) (.of_blind (.ofRuntime _))
  · refine Calmly.function? fun f => ?_
    rcases f with _ | (d | d | n)
    · exact .throw _
    · simp only
      split
      · exact .found (ih.callDecorated name args)
      · exact .found (ih.interpret i d args)
    · exact .found (ih.interpret i d args)
    · exact .assuming (fun e h => h.1.pure name n h.2) fun hn => .found (ih.callNative n hn args)

theorem callDecorated_succ (name : Ident) (args : List Value) :
    Calmly (Run.callDecorated (fuel + 1) name args) := by
  rw [Run.callDecorated]
  refine (Capped.specialize name args).bind fun a => ?_
  have hstable : Engine.Stable True fun e => e.Calm ∧ e.Keeps a := fun e e' h hp =>
    ⟨Engine.stable_calm e e' h hp.1, hp.2.extends h⟩
  exact (Capped.countExecution hstable fun e h => h.1).bind fun _ => ih.runArtifact a args

theorem runArtifact_succ (a : Artifact) (args : List Value) :
    Capped (fun e => e.Calm ∧ e.Keeps a) (Run.runArtifact (fuel + 1) a args) fun _ e => e.Calm := by
  rw [Run.runArtifact_succ]
  exact Capped.types_bind fun t => Capped.ofType_bind (t.encodeAll_converts _ _) fun cs =>
    (Capped.execute ih.callHost fuel a cs).bind fun c => .artifactResult t a c

theorem callHost_succ : HostsCapped (Run.callHost (fuel + 1)) := by
  refine ⟨(Growth.all (fuel + 1)).callHost, fun site cs => ?_⟩
  rw [Run.callHost_succ]
  refine Capped.types_bind fun t => Capped.ofType_bind (t.decodeAll_converts _ _) fun vs => ?_
  have hvalue : Capped (fun e => e.Calm ∧ e.functions.get? site.name = some site.function.toFunction)
      (hostValue fuel site.function vs) fun _ e => e.Calm := by
    unfold hostValue
    cases hf : site.function with
    | native n =>
      refine .assuming (fun e h => ?_) fun hn => .found (ih.callNative n hn vs)
      exact h.1.pure site.name n h.2
    | interpreted d =>
      exact Capped.interpreter_bind fun i => .found (ih.interpret i d vs)
  exact hvalue.bind fun v => .hostResult t site v

omit ih in
theorem callNative_succ (n : Native) (hn : n.IsPure) (args : List Value) :
    Calmly (Run.callNative (fuel + 1) n args) := by
  rw [Run.callNative]
  split
  · exact .throw _
  · refine .settle hn fun r => ?_
    cases r with
    | error message => exact .throw _
    | ok v =>
      refine Capped.types_bind fun t => ?_
      split
      · exact .pure fun _ h => h
      · exact .throw _

theorem call_succ (name : Ident) (args : List Value) : Calmly (Run.call (fuel + 1) name args) := by
  rw [Run.call]
  refine .function? fun f => ?_
  rcases f with _ | (d | d | n)
  · exact .throw _
  · exact .found (ih.callDecorated name args)
  · exact Capped.interpreter_bind fun i => .found (ih.interpret i d args)
  · exact .assuming (fun e h => h.1.pure name n h.2) fun hn => .found (ih.callNative n hn args)

end Capping

/-- Every case of a call goes on with a part that has less fuel, or ends. -/
theorem Capping.all (fuel : Nat) : Capping fuel := by
  induction fuel with
  | zero => exact ⟨fun _ _ _ => .halt _, fun _ _ _ => .halt _, fun _ _ => .halt _, fun _ _ => .halt _,
      ⟨(Growth.all 0).callHost, fun _ _ => .halt _⟩, fun _ _ _ => .halt _, fun _ _ => .halt _⟩
  | succ fuel ih =>
    exact {
      interpret := ih.interpret_succ
      callFrom := ih.callFrom_succ
      callDecorated := ih.callDecorated_succ
      runArtifact := ih.runArtifact_succ
      callHost := ih.callHost_succ
      callNative := Capping.callNative_succ
      call := ih.call_succ }

theorem Calmly.signatureOf (name : Ident) (args : List Value) :
    Calmly (ofUpdate (Update.signatureOf name args)) := by
  refine .of_heedless (.signatureOf name args) ?_
  exact ((signatureOf_ensures name args).frame Engine.stable_calm).weaken (fun _ h => ⟨fun _ => h.coherent.types, h⟩)
    fun _ _ h => h.1

theorem verify_capped (fuel : Nat) (name : Ident) (args : List Value) : Calmly (verify fuel name args) := by
  have hall := Capping.all fuel
  unfold verify
  refine Calmly.function? fun f => ?_
  rcases f with _ | (d | d | n)
  · exact .throw _
  · refine .found ((hall.callDecorated name args).bind fun compiled =>
      (Calmly.signatureOf name args).bind fun s => Capped.types_bind fun t =>
        Capped.ofType_bind (t.normalizeAll_converts _ _) fun vs => Capped.interpreter_bind fun i =>
          (hall.interpret i d vs).bind fun reference => ?_)
    split
    · exact .pure fun _ h => h
    · exact .throw _
  · exact .found (hall.call name args)
  · exact .found (hall.call name args)

end Run

end ShapeCompiler
