import ShapeCompiler.Proofs.Simulation.Blocks

/-!
Every way to run code conforms to the answers of the reference.

Compiled code calls host functions, these are interpreted, and what is interpreted calls compiled code
again. So the induction is on the fuel, over all ways to run code at once. Main statement: if calls of
native functions conform, then so do all runs (`Comparison.Conformance.all`).
-/

namespace ShapeCompiler

open TypeTable

/-- An interpreter that has decorated functions compiled, in surroundings that a world hosts. -/
structure World.Interprets (w : World) (i : Interpreter) : Prop where
  mode : i.mode = .host
  bits : i.defaultBits = w.defaultBits
  types : i.types.WellFormed
  grows : w.types.GrowsByScalars i.types

theorem World.Hosts.interprets {w : World} {e : Engine} (h : w.Hosts e) :
    w.Interprets ⟨e.types, .host, e.options.defaultBits⟩ :=
  ⟨rfl, h.bits, h.types, h.grows⟩

namespace Comparison

variable {C : Comparison} {depth : Option Nat} {e e' : Engine} {α β : Type} {R : α → β → Prop}
  {p q : Answers α} {x y : Run β} {a : Artifact} {d : FunctionDef} {vs args : List Value}
  {cs : List Compiled} {host : HostSite → List Compiled → Run Compiled} {fuel : Nat}

/-! ### Runs and answers that are put differently -/

/-- A run that goes on as another one does in an engine that has grown. -/
theorem Conforms.later (hx : e.Extends True e') (h : e.run x = e'.run y) (hy : C.Conforms R p e' y) :
    C.Conforms R p e x := by
  refine hy.imp_right fun hy => ?_
  rw [h]
  cases hr : e'.run y with
  | error halt =>
    rw [hr] at hy
    exact hy
  | ok r =>
    obtain ⟨r, e₂⟩ := r
    rw [hr] at hy
    cases r with
    | error err => exact ⟨hx.trans hy.1, hy.2⟩
    | ok b => exact ⟨hx.trans hy.1, hy.2⟩

theorem Conforms.of_run (h : e.run x = e.run y) (hy : C.Conforms R p e y) : C.Conforms R p e x :=
  hy.later (.refl e) h

theorem Conforms.of_answers (h : ∀ z, p z → q z) (hx : C.Conforms R p e x) : C.Conforms R q e x := by
  refine hx.imp (fun hl => ⟨hl.1, h _ hl.2⟩) fun hx => ?_
  cases hr : e.run x with
  | error halt =>
    rw [hr] at hx
    exact hx
  | ok r =>
    obtain ⟨r, e₂⟩ := r
    rw [hr] at hx
    cases r with
    | error err => exact ⟨hx.1, hx.2.mono fun _ hp => h _ hp⟩
    | ok b =>
      obtain ⟨hx, v, hv, hR⟩ := hx
      exact ⟨hx, v, h _ hv, hR⟩

/-- An activation that the engine has room for conforms if its body does. -/
theorem Conforms.entered (hlim : e.activations.alive < e.options.maxHostDepth)
    (h : C.Conforms R p e.entered x) : C.Conforms R p e (Run.activation x) := by
  refine h.imp_right fun h => ?_
  rw [Engine.run_activation, if_neg (by omega)]
  have outside : ∀ {e₁ : Engine}, e.entered.Extends True e₁ → e.Extends True e₁.left := by
    intro e₁ hx
    refine hx.activation ?_
    show e₁.activations.alive - 1 = _
    rw [hx.alive]
    rfl
  cases hr : e.entered.run x with
  | error halt =>
    rw [hr] at h
    exact h
  | ok r =>
    obtain ⟨r, e₁⟩ := r
    rw [hr] at h
    cases r with
    | error err =>
      refine ⟨outside h.1, ?_⟩
      cases err with
      | compile err => exact h.2
      | runtime f => exact h.2
      | options _ => exact h.2
      | mismatch _ _ _ => exact h.2
    | ok b => exact ⟨outside h.1, h.2⟩

/-- An activation conforms if its body does. -/
theorem activation_conforms (he : C.Runs depth e) (harity : args.length = d.arity) {x : Run β}
    {R : Value → β → Prop}
    (hx : ∀ depth' e', C.Runs depth' e' →
      C.Conforms R (C.world.body (C.world.calls depth') d args) e' x) :
    C.Conforms R (C.world.apply true C.world.calls depth d args) e (Run.activation x) := by
  have hroom := he.room
  have hlimit := he.hosts.limit
  have entered : ∀ {depth'}, C.Room depth' e.entered → C.Runs depth' e.entered := fun hroom =>
    ⟨he.hosts.entered, he.coherent.of_eq rfl rfl rfl rfl rfl rfl, hroom⟩
  unfold World.apply
  rw [if_neg (not_not.2 harity), if_pos rfl]
  rcases depth with _ | _ | k
  · rcases Nat.lt_or_ge e.activations.alive e.options.maxHostDepth with hlt | hge
    · exact .entered hlt (hx none _ (entered hroom))
    · have hfails : C.Fails (C.world.body (C.world.calls none) d args) e
          (.runtime (.recursionLimit C.world.limit)) := .inl ⟨hroom, rfl⟩
      refine .of_run ?_ (.throw hfails)
      rw [Engine.run_activation, if_pos hge, hlimit]
      rfl
  · obtain ⟨hb, -, hfull⟩ := hroom
    cases hcounts : C.world.counts with
    | true => exact .inl ⟨⟨hb, hcounts⟩, rfl⟩
    | false =>
      have hge := hfull hcounts
      refine .of_run ?_ (.throw (.of_alike rfl (RuntimeError.alike_self trivial)))
      rw [Engine.run_activation, if_pos (by omega), hlimit]
      rfl
  · obtain ⟨hb, hlt, hfull⟩ := hroom
    refine .entered (by omega) (hx (some k) _ (entered ⟨hb, ?_, fun hcounts => ?_⟩))
    · show k ≤ C.world.limit - (e.activations.alive + 1)
      omega
    · have := hfull hcounts
      show C.world.limit - (e.activations.alive + 1) ≤ k
      omega

/-! ### Artifacts -/

theorem execute_eq (host : HostSite → List Compiled → Run Compiled) (fuel : Nat) {t t' : TypeTable}
    (hforms : Forms t vs cs) (hargs : ArgsHave t' a.signature.args vs) :
    a.execute host fuel cs = Machine.run host fuel (Machine.start a cs) := by
  have hlen : cs.length = a.signature.args.length := by
    rw [← hforms.length_eq, ← hargs.length_eq]
  unfold Artifact.execute
  rw [if_neg (not_not.2 hlen)]

section Artifacts

variable (hp : C.world.Proper) (hhost : C.HostConforms host) (he : C.Runs depth e) (ha : e.Keeps a)
  (hd : C.world.functions.get? a.signature.function = some (.decorated d))
  (hforms : Forms C.world.types vs cs) (hargs : ArgsHave e.types a.signature.args vs)
include hp hhost he ha hd hforms hargs

theorem start_drives (hlim : ¬ C.Limited (C.world.apply C.world.counts C.world.calls depth d vs)) (n : Nat) :
    C.Drives host (C.world.apply C.world.counts C.world.calls depth d vs) n e (Machine.start a cs) := by
  have hlen : cs.length ≤ a.frameSize := by
    rw [← hforms.length_eq, ← hargs.length_eq]
    exact Nat.le_max_right _ _
  refine bodyDrives_all hp hhost n he ha hd rfl rfl ?_ (fun k c hc => ?_) hforms hargs hlim
    (fun _ h => h) ?_
  · have hsize : (a.frame cs).size = a.frameSize := Machine.size_frame hlen
    show 0 + a.frameSize ≤ (a.frame cs).size
    omega
  · show (a.frame cs)[0 + k]? = some c
    rw [Nat.zero_add]
    exact Machine.frame_get hc
  · rintro n' - e' m' v hv ⟨-, hcont, src, c, hret, hread, hf⟩
    cases n' with
    | zero => trivial
    | succ n' =>
      have hframes : m'.frames = [] := hcont.frames
      unfold Drives
      rw [Machine.run_step hret]
      simp only [Machine.exec]
      rw [Machine.run_read hread]
      unfold Machine.leave
      rw [hframes]
      exact ⟨v, hv, hf⟩

/-- Executing an artifact conforms to applying its function. -/
theorem execute_conforms (horderly : ∀ site cs, Run.Orderly True (host site cs)) (fuel : Nat) :
    C.Conforms C.world.types.Form (C.world.apply C.world.counts C.world.calls depth d vs) e
      (a.execute host fuel cs) := by
  by_cases hlim : C.Limited (C.world.apply C.world.counts C.world.calls depth d vs)
  · exact .inl hlim
  have hrun := execute_eq host fuel hforms hargs
  have hends := (start_drives hp hhost he ha hd hforms hargs hlim fuel).run
  have hext := Run.Ensures.execute horderly fuel a cs e fun _ => ⟨he.coherent, ha⟩
  refine .inr ?_
  rw [hrun] at hext ⊢
  cases hr : e.run (Machine.run host fuel (Machine.start a cs)) with
  | error halt =>
    rw [hr] at hends
    exact hends
  | ok r =>
    obtain ⟨r, e'⟩ := r
    rw [hr] at hends
    have hx := (hext _ _ hr).1
    cases r with
    | error err => exact ⟨hx, hends⟩
    | ok c => exact ⟨hx, hends⟩

omit hp hhost hforms in
theorem Runs.returns_has (hp : C.world.Proper) {v : Value}
    (hv : C.world.apply C.world.counts C.world.calls depth d vs (.ok v)) :
    (StaticType.ofReturn a.returns).Has e.types v := by
  obtain ⟨l, pool, hl, hserves⟩ := he.lowered ha
  have hfun : C.world.functions.get? l.signature.function = some (.decorated d) := by
    rw [← hl.compiled.signature]
    exact hd
  obtain rfl : l.definition = d := by
    have := hl.function
    rw [hfun] at this
    cases this
    rfl
  have hA : (Typing.assumptionsOf l.returnTypes).get? a.signature = some (.ofReturn a.returns) := by
    rw [Typing.get?_assumptionsOf, hl.compiled.signature, hl.compiled.get?_returns]
    rfl
  have hnormal : ∀ v ∈ vs, C.world.types.Normal v := fun v hv =>
    (normal_iff he.hosts.grows hp.types he.hosts.types).1 (hargs.normal v hv)
  have hgrown := (World.apply_grows hp he.hosts.grows he.hosts.types
    (fun _ _ _ h => World.calls_grows hp he.hosts.grows he.hosts.types h) l.definition hnormal _ hv).1
  obtain ⟨-, s', hwalk, -⟩ := hl.settled _ _ hA
  obtain ⟨f, d', -, -, hf, hfd, -⟩ := Typing.walk_eq_ok hwalk
  obtain rfl : f = .decorated l.definition := by
    have := (hserves.functions hf).1
    rw [he.hosts.functions, hd] at this
    exact (Option.some.inj this).symm
  exact Typing.Describes.apply_has (hp.describes he.hosts hserves) hl.settled hA hf rfl hargs hgrown

end Artifacts

/-! ### All ways to run code -/

/-- Calls of native functions with as many arguments as they take conform. -/
def NativesConform (C : Comparison) : Prop :=
  ∀ {fuel depth e name n args}, C.Runs depth e → C.world.functions.get? name = some (.native n) →
    args.length = n.params.length → (∀ v ∈ args, C.world.types.Normal v) →
    C.Conforms (Same C.world.types.Normal) (C.world.native n args) e (Run.callNative fuel n args)

/-- Every way to run code with some fuel conforms to what the world answers. -/
structure Conformance (C : Comparison) (fuel : Nat) : Prop where
  interpret : ∀ {depth e i d args}, C.Runs depth e → C.world.Interprets i →
    (∀ v ∈ args, C.world.types.Normal v) →
    C.Conforms (Same C.world.types.Normal) (C.world.apply true C.world.calls depth d args) e
      (Run.interpret fuel i d args)
  callFrom : ∀ {depth e i name args}, C.Runs depth e → C.world.Interprets i →
    (∀ v ∈ args, C.world.types.Normal v) →
    C.Conforms (Same C.world.types.Normal) (C.world.calls depth name args) e
      (Run.callFrom fuel i name args)
  callDecorated : ∀ {depth e name d args}, C.Runs depth e →
    C.world.functions.get? name = some (.decorated d) → (∀ v ∈ args, C.world.types.Normal v) →
    C.Conforms (Same C.world.types.Normal) (C.world.apply C.world.counts C.world.calls depth d args) e
      (Run.callDecorated fuel name args)
  /-- The arguments need not have their declared widths; compiled code sees the normalised ones. -/
  runArtifact : ∀ {depth e a d args vs cs}, C.Runs depth e → e.Keeps a →
    C.world.functions.get? a.signature.function = some (.decorated d) →
    e.types.encodeAll args a.signature.args = .ok cs → Forms C.world.types vs cs →
    ArgsHave e.types a.signature.args vs →
    C.Conforms (Same C.world.types.Normal) (C.world.apply C.world.counts C.world.calls depth d vs) e
      (Run.runArtifact fuel a args)
  callHost : C.HostConforms (Run.callHost fuel)

theorem Runs.normal_iff (hp : C.world.Proper) (he : C.Runs depth e) {v : Value} :
    e.types.Normal v ↔ C.world.types.Normal v :=
  TypeTable.normal_iff he.hosts.grows hp.types he.hosts.types

theorem run_artifactResult {t : TypeTable} (hw : t.WellFormed) {v : Value} {c : Compiled}
    (hhas : (StaticType.ofReturn a.returns).Has t v) (hf : t.Form v c) (e : Engine) :
    e.run (Run.artifactResult t a c) = .ok (.ok v, e) := by
  unfold Run.artifactResult
  cases hr : a.returns with
  | some id =>
    rw [hr] at hhas
    simp only [hw.decode_eq hhas hf]
    rfl
  | none =>
    rw [hr] at hhas
    obtain rfl : v = .incomplete := hhas.1
    rw [hf.of_incomplete]
    rfl

theorem artifactResult_conforms (hp : C.world.Proper) (he : C.Runs depth e) {v : Value} {c : Compiled}
    (hhas : (StaticType.ofReturn a.returns).Has e.types v) (hf : C.world.types.Form v c) :
    C.Conforms (Same C.world.types.Normal) (Pure.pure v) e' (Run.artifactResult e.types a c) := by
  have hn : C.world.types.Normal v := ⟨c, hf⟩
  have hrun : e'.run (Run.artifactResult e.types a c) = e'.run (Pure.pure v) :=
    run_artifactResult he.hosts.types hhas ((he.form_iff hp).2 hf) e'
  exact .of_run hrun (.pure rfl ⟨rfl, hn⟩)

/-- What a host function answers is encoded to its form. -/
theorem hostResult_conforms (hp : C.world.Proper) (he : C.Runs depth e) {site : HostSite} {v : Value}
    (hhas : (StaticType.ofReturn site.returns).Has e.types v) :
    C.Conforms C.world.types.Form (Pure.pure v) e' (Run.hostResult e.types site v) := by
  obtain ⟨c, hf⟩ := hhas.2
  refine .of_run ?_ (.pure rfl ((he.form_iff hp).1 hf))
  unfold Run.hostResult
  cases hr : site.returns with
  | some id =>
    rw [hr] at hhas
    simp only [he.hosts.types.encode_eq hhas hf]
  | none =>
    rw [hr] at hhas
    obtain rfl : v = .incomplete := hhas.1
    rw [hf.of_incomplete]
    rfl

namespace Conformance

variable (hp : C.world.Proper) (ih : C.Conformance fuel)
include hp ih

theorem interpret_succ {i : Interpreter} (he : C.Runs depth e) (hi : C.world.Interprets i)
    (hargs : ∀ v ∈ args, C.world.types.Normal v) :
    C.Conforms (Same C.world.types.Normal) (C.world.apply true C.world.calls depth d args) e
      (Run.interpret (fuel + 1) i d args) := by
  rw [Run.interpret]
  split
  · rename_i harity
    unfold World.apply
    rw [if_pos harity]
    exact .throw (.of_alike rfl (RuntimeError.alike_self trivial))
  · rename_i harity
    refine activation_conforms he (not_not.1 harity) fun depth' e' he' => ?_
    have hclosed : Interpreter.Closed C.world.types.Normal i C.world.interpreter :=
      @Interpreter.closed_normal C.world.interpreter i hi.grows hp.types hi.types hi.bits.symm
    have hcalls : ∀ name args, (∀ v ∈ args, C.world.types.Normal v) →
        (C.conformance depth').rel C.world.types.Normal (Run.callFrom fuel i name args)
          (C.world.calls depth' name args) :=
      fun _ _ hargs _ he₁ => ih.callFrom he₁ hi hargs
    have hbody : C.Conforms (Same C.world.types.Normal)
        (C.world.interpreter.body (C.world.calls depth') fuel d args) e'
        (i.body (Run.callFrom fuel i) fuel d args) :=
      (C.conformance depth').body hclosed hcalls (.inl rfl) d hargs e' he'
    exact hbody.of_answers fun y hy => ⟨fuel, hy⟩

/-- What is specialised on values with declared widths has their types, and runs in the engine then. -/
theorem callDecorated_succ {name : Ident} (he : C.Runs depth e)
    (hd : C.world.functions.get? name = some (.decorated d))
    (hargs : ∀ v ∈ args, C.world.types.Normal v) :
    C.Conforms (Same C.world.types.Normal) (C.world.apply C.world.counts C.world.calls depth d args) e
      (Run.callDecorated (fuel + 1) name args) := by
  rw [Run.callDecorated]
  rcases Engine.run_specialize he.coherent fun v hv => (he.normal_iff hp).2 (hargs v hv) with
    ⟨a, e₁, ha, hx, hk, hname, hhas⟩ | ⟨err, e₁, herr, hx, hexcuse⟩
  · let e₂ : Engine := { e₁ with stats := { e₁.stats with executions := e₁.stats.executions + 1 } }
    have hx₂ : e.Extends True e₂ := hx.trans (.of_eq rfl rfl rfl rfl rfl rfl rfl)
    have he₂ := he.extends hx₂
    obtain ⟨cs, hforms⟩ := exists_forms hargs
    have hhas : ArgsHave e₂.types a.signature.args args := hhas
    have hencode := he₂.hosts.types.encodeAll_eq hhas
      (hforms.imp fun _ _ h => (he₂.form_iff hp).2 h)
    refine (ih.runArtifact he₂ hk (by rwa [hname]) hencode hforms hhas).later hx₂ ?_
    show e.run (Run.ofUpdate (Update.specialize name args) >>= _) = _
    rw [Engine.run_bind, ha]
    rfl
  · refine .inr ?_
    show C.Ends _ _ e (e.run (Run.ofUpdate (Update.specialize name args) >>= _))
    rw [Engine.run_bind, herr]
    exact ⟨hx, hexcuse⟩

theorem runArtifact_succ (he : C.Runs depth e) (ha : e.Keeps a)
    (hd : C.world.functions.get? a.signature.function = some (.decorated d))
    (hencode : e.types.encodeAll args a.signature.args = .ok cs) (hforms : Forms C.world.types vs cs)
    (hargs : ArgsHave e.types a.signature.args vs) :
    C.Conforms (Same C.world.types.Normal) (C.world.apply C.world.counts C.world.calls depth d vs) e
      (Run.runArtifact (fuel + 1) a args) := by
  have hgrowth : Run.Growth True fuel := .all fuel
  have hexec := execute_conforms hp ih.callHost he ha hd hforms hargs hgrowth.callHost fuel
  have hbind := hexec.bind (S := Same C.world.types.Normal) (g := Pure.pure)
    (f := Run.artifactResult e.types a) fun v c e' hx hv hf =>
      artifactResult_conforms hp he (he.returns_has ha hd hargs hp hv) hf
  rw [Answers.bind_pure] at hbind
  refine hbind.of_run ?_
  rw [Run.runArtifact_succ, Engine.run_types]
  show e.run (Run.ofUpdate (Update.ofType (e.types.encodeAll args a.signature.args)) >>= _) = _
  rw [Engine.run_bind, hencode]
  rfl

omit hp ih in
theorem native_conforms (hn : C.NativesConform) (he : C.Runs depth e) {name : Ident} {n : Native}
    (hvisible : C.world.types.recordNamed? name = none)
    (hf : C.world.functions.get? name = some (.native n))
    (hargs : ∀ v ∈ args, C.world.types.Normal v) :
    C.Conforms (Same C.world.types.Normal) (C.world.calls depth name args) e
      (Run.callNative fuel n args) := by
  have hcalls : ∀ y, C.world.calls depth name args y ↔ C.world.step C.world.calls depth name args y :=
    fun _ => World.calls_iff
  unfold World.step at hcalls
  simp only [hvisible, hf] at hcalls
  by_cases hlen : args.length = n.params.length
  · rw [if_neg (not_not.2 hlen)] at hcalls
    exact (hn he hf hlen hargs).of_answers fun y hy => (hcalls y).2 hy
  · rw [if_pos hlen] at hcalls
    cases fuel with
    | zero => exact .inr fun _ => rfl
    | succ fuel =>
      rw [Run.callNative, if_pos hlen]
      exact .throw (.of_alike ((hcalls _).2 rfl) (RuntimeError.alike_self trivial))

theorem callFrom_succ (hn : C.NativesConform) {i : Interpreter} {name : Ident} (he : C.Runs depth e)
    (hi : C.world.Interprets i) (hargs : ∀ v ∈ args, C.world.types.Normal v) :
    C.Conforms (Same C.world.types.Normal) (C.world.calls depth name args) e
      (Run.callFrom (fuel + 1) i name args) := by
  rw [Run.callFrom, hi.grows.recordNamed?_eq hp.types hi.types]
  cases hr : C.world.types.recordNamed? name with
  | some p =>
    obtain ⟨id, r⟩ := p
    have hname := name_of_recordNamed? hr
    have hco : i.construct r args = C.world.interpreter.construct r args :=
      Interpreter.construct_congr hi.grows hp.types hi.types hi.bits.symm
        (recordNamed?_eq_some.1 hr).2 hargs
    simp only [hco]
    have hcalls : ∀ y, C.world.calls depth name args y ↔
        (Interpreter.step (C.world.interpreter.construct r args) : Answers Value) y :=
      fun _ => World.calls_constructor hr
    cases hx : C.world.interpreter.construct r args with
    | error f =>
      rw [hx] at hcalls
      exact .throw (.of_alike ((hcalls _).2 rfl)
        (RuntimeError.alike_self (Interpreter.construct_ordinary hx)))
    | ok v =>
      rw [hx] at hcalls
      exact .pure ((hcalls _).2 rfl)
        ⟨rfl, (Interpreter.construct_ok (i := C.world.interpreter) hp.types (hname.symm ▸ hr) hargs hx).2⟩
  | none =>
    refine .of_run (Engine.run_function? e name _) ?_
    rw [he.hosts.functions]
    cases hf : C.world.functions.get? name with
    | none =>
      refine .throw (.of_alike (World.calls_iff.2 ?_) (RuntimeError.alike_self trivial))
      unfold World.step
      simp only [hr, hf]
      rfl
    | some f =>
      cases f with
      | decorated d =>
        simp only [hi.mode]
        exact (ih.callDecorated he hf hargs).of_answers fun y hy =>
          (World.calls_decorated hr hf).2 hy
      | interpreted d =>
        exact (ih.interpret he hi hargs).of_answers fun y hy =>
          (World.calls_interpreted hr hf).2 hy
      | native n => exact native_conforms hn he hr hf hargs

theorem callHost_succ (hn : C.NativesConform) : C.HostConforms (Run.callHost (fuel + 1)) := by
  intro depth e site vs cs he hsite hforms
  have hvs : ∀ v ∈ vs, C.world.types.Normal v := forms_normal hforms
  have hvalue : C.Conforms (Same C.world.types.Normal) (C.world.calls depth site.name vs) e
      (Run.hostValue fuel site.function vs) := by
    have hf := hsite.function
    unfold Run.hostValue
    cases hfun : site.function with
    | native n =>
      rw [hfun] at hf
      exact native_conforms hn he hsite.visible hf hvs
    | interpreted d =>
      rw [hfun] at hf
      exact (ih.interpret he he.hosts.interprets hvs).of_answers fun y hy =>
        (World.calls_interpreted hsite.visible hf).2 hy
  have hdecode := he.hosts.types.decodeAll_eq hsite.params
    (hforms.imp fun _ _ h => (he.form_iff hp).2 h)
  have hbind := hvalue.bind (S := C.world.types.Form) (g := Pure.pure)
    (f := Run.hostResult e.types site) fun v v' e' hx hv hsame => by
      obtain ⟨rfl, -⟩ := hsame
      exact hostResult_conforms hp he (hsite.returns v hv)
  rw [Answers.bind_pure] at hbind
  refine hbind.of_run ?_
  rw [Run.callHost_succ, Engine.run_types]
  show e.run (Run.ofUpdate (Update.ofType (e.types.decodeAll cs site.params)) >>= _) = _
  rw [Engine.run_bind, hdecode]
  rfl

end Conformance

/-- Every way to run code conforms to what the world answers if calls of native functions do. -/
theorem Conformance.all (hp : C.world.Proper) (hn : C.NativesConform) (fuel : Nat) :
    C.Conformance fuel := by
  induction fuel with
  | zero =>
    constructor
    · exact fun _ _ _ => .inr fun _ => rfl
    · exact fun _ _ _ => .inr fun _ => rfl
    · exact fun _ _ _ => .inr fun _ => rfl
    · exact fun _ _ _ _ _ _ => .inr fun _ => rfl
    · exact fun _ _ _ => .inr fun _ => rfl
  | succ fuel ih =>
    exact ⟨ih.interpret_succ hp, ih.callFrom_succ hp hn, ih.callDecorated_succ hp,
      ih.runArtifact_succ hp, ih.callHost_succ hp hn⟩

/-- The call of a decorated function conforms to its reference evaluation on the arguments as compiled
code sees them. -/
theorem Conformance.callDecorated_normalized {e₁ : Engine} {name : Ident} {ws : List Value}
    {s : Signature} (hp : C.world.Proper) (hn : C.NativesConform)
    (he : C.Runs depth e) (hd : C.world.functions.get? name = some (.decorated d))
    (hs : e.update (Update.signatureOf name args) = (.ok s, e₁))
    (hnorm : e₁.types.normalizeAll args s.args = .ok ws) (fuel : Nat) :
    C.Conforms (Same C.world.types.Normal) (C.world.apply C.world.counts C.world.calls depth d ws) e
      (Run.callDecorated fuel name args) := by
  cases fuel with
  | zero => exact .inr fun _ => rfl
  | succ fuel =>
    obtain ⟨rfl, hspec, hx₁⟩ := Engine.update_signatureOf_eq_ok he.hosts.types hs
    have he₁ := he.extends hx₁
    have hrun : e.run (Run.callDecorated (fuel + 1) s.function args) =
        e₁.run (Run.ofUpdate (Update.artifactOf s) >>= fun a => do
          Run.countExecution
          Run.runArtifact fuel a args) := by
      rw [Run.callDecorated]
      show e.run (Run.ofUpdate (Update.specialize s.function args) >>= _) = _
      rw [Update.specialize, Run.ofUpdate_bind, bind_assoc, Engine.run_bind, Engine.run_ofUpdate, hs]
      rfl
    refine .later hx₁ hrun ?_
    rcases he₁.coherent.run_artifactOf (Engine.registered_of_signatureOf he.hosts.types hs) with
      ⟨a, e₂, ha, hx₂, htypes, hk, rfl⟩ | ⟨err, e₂, ha, hx₂, hexcuse⟩
    · let e₃ : Engine := { e₂ with stats := { e₂.stats with executions := e₂.stats.executions + 1 } }
      have hx₃ : e₁.Extends True e₃ := hx₂.trans (.of_eq rfl rfl rfl rfl rfl rfl rfl)
      have he₃ := he₁.extends hx₃
      have hnorm₃ : e₃.types.normalizeAll args a.signature.args = .ok ws := by
        rw [show e₃.types = e₁.types from htypes]
        exact hnorm
      obtain ⟨cs, hcs⟩ := encodeAll_of_normalizeAll hnorm₃
      obtain ⟨ws', hws, hforms, hargs⟩ := he₃.hosts.types.normalizeAll_of_encodeAll hspec.length_eq hcs
      obtain rfl : ws' = ws := Except.ok.inj (hws.symm.trans hnorm₃)
      refine ((Conformance.all hp hn fuel).runArtifact he₃ hk hd hcs
        (hforms.imp fun _ _ h => (he₃.form_iff hp).1 h) hargs).later hx₃ ?_
      rw [Engine.run_bind, ha]
      rfl
    · refine .inr ?_
      rw [Engine.run_bind, ha]
      exact ⟨hx₂, hexcuse⟩

end Comparison

end ShapeCompiler
