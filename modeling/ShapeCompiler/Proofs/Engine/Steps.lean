import Mathlib.Data.List.Induction
import ShapeCompiler.Catalog.Programs
import ShapeCompiler.Proofs.Assoc
import ShapeCompiler.Proofs.Engine.Logs

/-!
All that a session does is steps of the few kinds that histories are made of.

Main statements: every way to run code takes steps of code, failures and stops included, and its notes say
why it fails to compile (`Logged.Running.all`); so at every point of every session the counts of an engine are
counts of what happened (`Engine.history_coherent`).
-/

namespace ShapeCompiler

variable {α β : Type} {P P' : Engine → Prop}

/-! ### Logged runs -/

/-- From a history whose engine satisfies a condition, the run takes steps of code, also if it fails or is
stopped; what it answers satisfies another condition. If all definitions stay fixed, the notes say why it
fails to compile. -/
def Logged.Ensures (fixed : Prop) (P : Engine → Prop) (x : Logged α) (Q : α → Engine → Prop) : Prop :=
  ∀ h : History, h.now.Ready fixed → P h.now → ∀ r h', h.record x = (r, h') →
    h.RunsTo fixed h' ∧ (∀ a, r = .ok (.ok a) → Q a h'.now) ∧
      (fixed → ∀ err, r = .ok (.error (.compile err)) → h.Blames fixed err h')

/-- The run takes steps of code from every history. -/
abbrev Logged.Safe (fixed : Prop) (x : Logged α) : Prop := x.Ensures fixed (fun _ => True) fun _ _ => True

namespace Logged

variable {fixed : Prop} {x : Logged α} {f : α → Logged β} {Q R : α → Engine → Prop} {Q' : β → Engine → Prop}

namespace Ensures

theorem pure {a : α} (hq : ∀ e, P e → Q a e) : Ensures fixed P (pure a) Q := by
  rintro h - hp _ _ ⟨⟩
  exact ⟨.refl, fun b hb => by cases hb; exact hq _ hp, fun _ err herr => by cases herr⟩

theorem throw {err : Error} (herr : err.isCompileError = false) : Ensures fixed P (throw err) Q := by
  rintro h - - _ _ ⟨⟩
  exact ⟨.refl, fun b hb => (by cases hb), fun _ err' h' => by cases h'; cases herr⟩

theorem halt (why : Halt) : Ensures fixed P (halt why) Q := by
  rintro h - - _ _ ⟨⟩
  exact ⟨.refl, fun b hb => (by cases hb), fun _ err herr => by cases herr⟩

theorem bind (hx : Ensures fixed P x Q) (hf : ∀ a, Ensures fixed (Q a) (f a) Q') :
    Ensures fixed P (x >>= f) Q' := by
  intro h hb hp r h' hr
  rw [record_bind] at hr
  cases hrec : h.record x with
  | mk y h₁ =>
    obtain ⟨hto, hq, hblame⟩ := hx h hb hp _ _ hrec
    rw [hrec] at hr
    rcases y with why | err | a
    · cases hr
      exact ⟨hto, fun b hb => (by cases hb), fun _ err herr => by cases herr⟩
    · cases hr
      exact ⟨hto, fun b hb => (by cases hb), fun hbl err' herr => hblame hbl err' (by cases herr; rfl)⟩
    · obtain ⟨hto', hq', hblame'⟩ := hf a h₁ (hto.ready hb) (hq a rfl) _ _ hr
      exact ⟨hto.trans hto', hq', fun hbl err herr => (hblame' hbl err herr).trans hto .refl⟩

theorem weaken (hx : Ensures fixed P x Q) (hP : ∀ e, P' e → P e) (hQ : ∀ a e, Q a e → R a e) :
    Ensures fixed P' x R := by
  intro h hb hp r h' hr
  obtain ⟨hto, hq, hblame⟩ := hx h hb (hP _ hp) r h' hr
  exact ⟨hto, fun a ha => hQ a _ (hq a ha), hblame⟩

/-- What a run begins under still holds behind it if it lasts. -/
theorem keep (hx : Ensures fixed P x Q) (hP : Engine.Lasting P) :
    Ensures fixed P x fun a e => P e ∧ Q a e := by
  intro h hb hp r h' hr
  obtain ⟨hto, hq, hblame⟩ := hx h hb hp r h' hr
  exact ⟨hto, fun a ha => ⟨hP _ _ hto.remembers hp, hq a ha⟩, hblame⟩

theorem note {event : Event} {y : Run α}
    (hy : ∀ h : History, h.now.Ready fixed → P h.now → ∀ r e, h.now.run y = .ok (r, e) →
      Event.Takes fixed h.now event e ∧ (∀ a, r = .ok a → Q a e) ∧
        (fixed → ∀ err, r = .error (.compile err) → h.Blames fixed err (h.push event e))) :
    Ensures fixed P (note event y) Q := by
  intro h hb hp r h' hr
  rw [record_note] at hr
  cases hrun : h.now.run y with
  | error why =>
    rw [hrun] at hr
    cases hr
    exact ⟨.refl, fun b hb => (by cases hb), fun _ err herr => by cases herr⟩
  | ok p =>
    obtain ⟨ht, hq, hblame⟩ := hy h hb hp p.1 p.2 hrun
    rw [hrun] at hr
    cases hr
    exact ⟨.step .refl ht, fun a ha => hq a (Except.ok.inj ha),
      fun hbl err herr => hblame hbl err (Except.ok.inj herr)⟩

/-- A run that changes no engine keeps what lasts. -/
theorem lift {y : Run α} {R : α → Prop} (hy : y.Still R) : Ensures fixed P (liftM y) fun a e => P e ∧ R a :=
  note fun h _ hp r e hr => by
    obtain ⟨rfl, hq, herr⟩ := hy _ r e hr
    refine ⟨.rested (.refl _) (.refl _), fun a ha => ⟨hp, hq a ha⟩, fun _ err he => ?_⟩
    cases err with
    | type fault => exact .value rfl (herr _ he)
    | _ => exact (herr _ he).elim

theorem still {y : Run α} {R : α → Prop} (hy : y.Still R) : Ensures fixed P (liftM y) fun _ e => P e :=
  (lift hy).weaken (fun _ hp => hp) fun _ _ hp => hp.1

theorem attempt (hx : Ensures fixed P x Q) :
    Ensures fixed P (attempt x) fun r e => ∀ a, r = .ok a → Q a e := by
  intro h hb hp r h' hr
  rw [record_attempt] at hr
  cases hrec : h.record x with
  | mk y h₁ =>
    obtain ⟨hto, hq, -⟩ := hx h hb hp _ _ hrec
    rw [hrec] at hr
    cases hr
    refine ⟨hto, fun z hz a ha => hq a ?_, fun _ err herr => ?_⟩
    · cases y with
      | error why => cases hz
      | ok y =>
        cases hz
        exact congrArg _ ha
    · cases y <;> cases herr

end Ensures

namespace Safe

theorem of_ensures (hx : Ensures fixed (fun _ => True) x Q) : Safe fixed x :=
  hx.weaken (fun _ hp => hp) fun _ _ _ => trivial

theorem pure (a : α) : Safe fixed (Pure.pure a) := Ensures.pure fun _ _ => trivial

theorem bind (hx : Safe fixed x) (hf : ∀ a, Safe fixed (f a)) : Safe fixed (x >>= f) := Ensures.bind hx hf

theorem still {y : Run α} {R : α → Prop} (hy : y.Still R) : Safe fixed (liftM y) := Ensures.still hy

theorem attempt (hx : Safe fixed x) : Safe fixed (attempt x) := of_ensures (Ensures.attempt hx)

theorem assume (hx : Safe fixed x) : Ensures fixed P x fun _ _ => True :=
  hx.weaken (fun _ _ => trivial) fun _ _ h => h

/-- A run goes on with the function that a name stands for. -/
theorem found {name : Ident} {f : Option Function → Logged β}
    (hf : ∀ g, Ensures fixed (fun e => e.functions.get? name = g) (f g) fun _ _ => True) :
    Safe fixed (liftM (Run.function? name) >>= f) := by
  refine Ensures.bind (Q := fun g e => e.functions.get? name = g) (.note fun h _ _ r e hr => ?_) hf
  cases hr
  exact ⟨.rested (.refl _) (.refl _), fun g hg => by cases hg; rfl, fun _ err herr => by cases herr⟩

/-- An activation begins and ends around its body, unless there are too many. -/
theorem activation (hx : Safe fixed x) : Safe fixed (activation x) := by
  intro h hb _ r h' hr
  rw [record_activation] at hr
  split at hr
  · cases hr
    exact ⟨.step .refl (.rested (.refl _) (.refl _)), fun _ _ => trivial, fun _ err herr => by cases herr⟩
  · rename_i hroom
    have hbegan : h.RunsTo fixed (h.push .other h.now.entered) := .step .refl (.began (Nat.not_le.1 hroom))
    cases hrec : (h.push .other h.now.entered).record x with
    | mk y h₁ =>
      obtain ⟨hto, -, hblame⟩ := hx _ (hbegan.ready hb) trivial _ _ hrec
      rw [hrec] at hr
      cases y with
      | error why =>
        cases hr
        exact ⟨hbegan.trans hto, fun _ _ => trivial, fun _ err herr => by cases herr⟩
      | ok y =>
        cases hr
        refine ⟨(hbegan.trans hto).step .ended, fun _ _ => trivial, fun hbl err herr => ?_⟩
        exact (hblame hbl err herr).trans hbegan (.step .refl .ended)

theorem perform {call : Ident → List Value → Logged Value} (hcall : ∀ name args, Safe fixed (call name args))
    (cb : Callback) : Safe fixed (perform call cb) := by
  induction cb with
  | finish result => exact .pure _
  | enter function args resume ih => exact .bind (.attempt (hcall function args)) fun r => ih r

/-- The interpreter takes steps of code if the calls in a body do. -/
def relation (fixed : Prop) : Relation Logged Logged where
  rel Q x _ := Ensures fixed (fun _ => True) x fun a _ => Q a
  pure hq := Ensures.pure fun _ _ => hq
  bind hx hf := Ensures.bind hx fun a h hb hq => hf a hq h hb trivial
  throw _ := Ensures.throw rfl
  halt := Ensures.halt _

theorem body {i : Interpreter} {call : Ident → List Value → Logged Value}
    (hcall : ∀ name args, Safe fixed (call name args)) (fuel : Nat) (d : FunctionDef) (args : List Value) :
    Safe fixed (i.body call fuel d args) := by
  have hall : ∀ name args, (∀ v ∈ args, True) →
      (relation fixed).rel (fun _ : Value => True) (call name args) (call name args) :=
    fun name args _ => hcall name args
  exact (relation fixed).body i.closed_true hall (.inl rfl) d fun _ _ => trivial

end Safe

/-! ### The specialiser -/

section Specialiser

variable {h : History} {function : Ident} {args : List Value}

theorem record_artifactOf (h : History) (s : Signature) : h.record (artifactOf s) =
    (.ok (h.now.update (Update.artifactOf s)).1,
      h.push (.requested s) (h.now.update (Update.artifactOf s)).2) := rfl

/-- Specialising finds the signature and requests its artifact. -/
theorem record_specialize (h : History) (function : Ident) (args : List Value) :
    h.record (specialize function args) =
      match h.now.update (Update.signatureOf function args) with
      | (.ok s, e) => (h.push .other e).record (artifactOf s)
      | (.error err, e) => (.ok (.error err), h.push .other e) := by
  unfold specialize
  refine (record_bind ..).trans ?_
  have hnote : h.record (liftM (Update.signatureOf function args) : Logged Signature) =
      (.ok (h.now.update (Update.signatureOf function args)).1,
        h.push .other (h.now.update (Update.signatureOf function args)).2) := rfl
  rw [hnote]
  rcases h.now.update (Update.signatureOf function args) with ⟨err | s, e⟩ <;> rfl

theorem record_bindSite (h : History) (caller : Signature) (site : Nat) (callee : Signature) :
    h.record (bindSite caller site callee) =
      match h.now.bound.get? (caller, site) with
      | some a => (.ok (.ok a), h.push .other h.now)
      | none =>
        match h.now.update (Update.artifactOf callee) with
        | (.ok a, e) => (.ok (.ok a), ((h.push .other h.now).push (.requested callee) e).push
            (.bound caller site callee) (e.withBound caller site a))
        | (.error err, e) => (.ok (.error err), (h.push .other h.now).push (.requested callee) e) := by
  unfold bindSite
  refine (record_bind ..).trans ?_
  have hget : h.record (liftM (get : Run Engine)) = (.ok (.ok h.now), h.push .other h.now) := rfl
  rw [hget]
  cases hb : h.now.bound.get? (caller, site) with
  | some a => simp only [hb]; rfl
  | none =>
    simp only [hb]
    refine (record_bind ..).trans ?_
    rw [record_artifactOf, show (h.push .other h.now).now = h.now from rfl]
    rcases h.now.update (Update.artifactOf callee) with ⟨err | a, e⟩ <;> rfl

theorem signatureOf_takes {e e' : Engine} {r : Except Error Signature} (he : e.InOrder fixed)
    (hr : e.update (Update.signatureOf function args) = (r, e')) :
    Event.Takes fixed e .other e' ∧ e'.functions = e.functions ∧
      ∀ s, r = .ok s → s.function = function ∧ (fixed → s.Registered e'.types) := by
  obtain ⟨hx, hs⟩ := Run.signatureOf_ensures function args e (fun hf => (he hf).types) r e'
    (congrArg Except.ok hr)
  obtain ⟨hrests, hname⟩ := Run.Quiet.signatureOf function args e r e' (congrArg Except.ok hr)
  exact ⟨.rested hx hrests, hx.functions, fun s h => ⟨hname s h, (hs s h).2⟩⟩

/-- Behind a call site of an artifact that the engine keeps stands the artifact that it keeps for the
signature listed there. -/
theorem bindSite_ensures (caller : Artifact) (site : Nat) {callee : Signature}
    (hsite : caller.callSites[site]? = some callee) :
    Ensures fixed (fun e => e.Keeps caller) (bindSite caller.signature site callee)
      fun a e => e.Keeps a ∧ a.signature = callee := by
  intro h hb hcaller r h' hr
  have hget : h.RunsTo fixed (h.push .other h.now) := .step .refl (.rested (.refl _) (.refl _))
  rw [record_bindSite] at hr
  cases hbound : h.now.bound.get? (caller.signature, site) with
  | some a =>
    rw [hbound] at hr
    cases hr
    refine ⟨hget, fun b hb' => ?_, fun _ err herr => by cases herr⟩
    cases hb'
    obtain ⟨caller', s, hcaller', hs, ha⟩ := hb.bound hbound
    cases hcaller.symm.trans hcaller'
    cases hsite.symm.trans hs
    exact ⟨hb.keeps ha, hb.signature ha⟩
  | none =>
    have hcallee : fixed → callee.Registered h.now.types := fun hf =>
      (hb.inOrder hf).sites hcaller callee (List.mem_of_getElem? hsite)
    rw [hbound] at hr
    cases hx : h.now.update (Update.artifactOf callee) with
    | mk y e =>
      rw [hx] at hr
      have hreq : h.RunsTo fixed ((h.push .other h.now).push (.requested callee) e) :=
        .step hget (.requested hcallee hx)
      cases y with
      | error err =>
        cases hr
        refine ⟨hreq, fun b hb' => (by cases hb'), fun _ err' herr => ?_⟩
        cases herr
        exact .binding hget hcaller hsite hx .refl
      | ok a =>
        cases hr
        have ha : e.compiled.get? callee = some (.ok a) := Engine.artifactOf_ok hx
        have he : e.Ready fixed := hreq.ready hb
        refine ⟨.step hreq (.bound (hreq.remembers _ _ hcaller) hsite ha), fun b hb' => ?_,
          fun _ err herr => by cases herr⟩
        cases hb'
        exact ⟨he.keeps ha, he.signature ha⟩

/-- The host enters compiled code once it has specialised a decorated function; where it cannot, its note
says why. -/
theorem entering_ensures (name : Ident) (args : List Value) {f : Artifact → Logged β}
    {Q : β → Engine → Prop} (hf : ∀ a, Ensures fixed (fun e => e.Keeps a) (f a) Q) :
    Ensures fixed (fun e => fixed → e.Decorates name) (do
      match ← attempt (specialize name args) with
      | .ok a => do
        note (.entered (.ok a)) Run.countExecution
        f a
      | .error err => do
        note (.entered (.error err)) (Pure.pure ())
        throw err) Q := by
  intro h hb hd r h' hr
  have hspec := record_specialize h name args
  rw [record_bind, record_attempt] at hr
  cases hsig : h.now.update (Update.signatureOf name args) with
  | mk y e₁ =>
    rw [hsig] at hspec
    obtain ⟨htakes, hfunctions, hs⟩ := signatureOf_takes hb.inOrder hsig
    have hto : h.RunsTo fixed (h.push .other e₁) := .step .refl htakes
    cases y with
    | error err =>
      rw [hspec] at hr
      cases hr
      refine ⟨hto.step .refused, fun b hb' => (by cases hb'), fun _ err' herr => ?_⟩
      cases herr
      rcases Engine.signatureOf_error hsig with herr | herr
      · cases herr
        exact .sentinel hto rfl .refl
      · cases err' with
        | type fault => exact .value rfl herr
        | _ => exact herr.elim
    | ok s =>
      obtain ⟨hname, hreg⟩ := hs s rfl
      cases hx : e₁.update (Update.artifactOf s) with
      | mk y e =>
        have hreq : h.RunsTo fixed ((h.push .other e₁).push (.requested s) e) :=
          .step hto (.requested hreg hx)
        have hart : h.record (specialize name args) = (.ok y, (h.push .other e₁).push (.requested s) e) := by
          refine hspec.trans ((record_artifactOf _ s).trans ?_)
          rw [show (h.push .other e₁).now = e₁ from rfl, hx]
        rw [hart] at hr
        cases y with
        | error err =>
          cases hr
          refine ⟨hreq.step .refused, fun b hb' => (by cases hb'), fun hbl err' herr => ?_⟩
          cases herr
          obtain ⟨d, hd⟩ := hd hbl
          have hdecorated : (h.push .other e₁).now.Decorates s.function := ⟨d, by
            rw [hname]
            exact hfunctions ▸ hd⟩
          exact .outcome hto hdecorated hx .refl
        | ok a =>
          have ha : e.Keeps a := (hreq.ready hb).keeps (Engine.artifactOf_ok hx)
          have hin := hreq.step (.entered ha)
          obtain ⟨hto', hq, hblame⟩ := hf a _ (hin.ready hb) ha _ _ hr
          exact ⟨hin.trans hto', hq, fun hbl err herr => (hblame hbl err herr).trans hin .refl⟩

theorem specialize_safe (function : Ident) (args : List Value) : Safe False (specialize function args) := by
  intro h hb _ r h' hr
  refine ⟨?_, fun _ _ => trivial, False.elim⟩
  rw [record_specialize] at hr
  cases hsig : h.now.update (Update.signatureOf function args) with
  | mk y e =>
    rw [hsig] at hr
    have hto : h.RunsTo False (h.push .other e) := .step .refl (signatureOf_takes hb.inOrder hsig).1
    cases y with
    | error err =>
      cases hr
      exact hto
    | ok s =>
      cases hr
      exact .step hto (.requested False.elim rfl)

end Specialiser

/-! ### The machine -/

variable {m : Machine} {host : HostSite → List Compiled → Logged Compiled}
  (hhost : ∀ site cs, Safe fixed (host site cs))

/-- The functions in all frames are artifacts that the engine keeps. -/
def Held (m : Machine) (e : Engine) : Prop := ∀ a ∈ m.functions, e.Keeps a

/-- What a step leads to holds artifacts that the engine keeps. -/
def HeldNext (s : Step) (e : Engine) : Prop := ∀ m, s = .next m → Held m e

theorem lasting_held (m : Machine) : Engine.Lasting (Held m) := fun _ _ h hm a ha => h _ _ (hm a ha)

theorem within_ensures {y : Run Step} (hy : y.Still m.Within) :
    Ensures fixed (Held m) (liftM y) HeldNext := by
  refine (Ensures.lift hy).weaken (fun _ h => h) ?_
  rintro s e ⟨hm, hs⟩ m' rfl a ha
  exact hm a (hs m' rfl ha)

include hhost

theorem exec_ensures (op : Op) : Ensures fixed (Held m) (exec host m op) HeldNext := by
  cases op with
  | call dst site args =>
    simp only [exec]
    cases hsite : m.function.callSites[site]? with
    | none => exact .halt _
    | some callee =>
      have hbind : Ensures fixed (Held m) (bindSite m.function.signature site callee) fun a e => e.Keeps a :=
        (bindSite_ensures m.function site hsite).weaken (fun e hm => hm m.function List.mem_cons_self)
          fun _ _ h => h.1
      refine .bind (hbind.keep (lasting_held m)) fun a => ?_
      refine .bind (.still (m.readAll_still args)) fun cs => .pure ?_
      rintro e ⟨hm, ha⟩ m' h b hb
      cases h
      rcases List.mem_cons.1 hb with rfl | hb
      · exact ha
      · exact hm b hb
  | callHost dst site args =>
    simp only [exec]
    refine .bind (.still (m.readAll_still args)) fun cs => ?_
    cases m.function.hostSites[site]? with
    | none => exact .halt _
    | some s =>
      have hkeep := ((hhost s cs).weaken (fun _ (_ : Held m _) => trivial) fun _ _ h => h).keep
        (lasting_held m)
      exact .bind (hkeep.weaken (fun _ h => h) fun _ _ h => h.1) fun c =>
        within_ensures (m.writeNext_still dst c)
  | _ => exact within_ensures (Machine.exec_still trivial)

theorem step_ensures : Ensures fixed (Held m) (step host m) HeldNext := by
  unfold step
  cases m.function.code[m.pc]? with
  | none => exact .throw rfl
  | some op => exact exec_ensures hhost op

theorem run_ensures (fuel : Nat) : Ensures fixed (Held m) (run host fuel m) fun _ _ => True := by
  induction fuel generalizing m with
  | zero => exact .halt _
  | succ fuel ih =>
    rw [run]
    refine .bind (step_ensures hhost) fun s => ?_
    cases s with
    | done c => exact .pure fun _ _ => trivial
    | next m' => exact ih.weaken (fun e h => h m' rfl) fun _ _ h => h

theorem execute_ensures (fuel : Nat) (a : Artifact) (cs : List Compiled) :
    Ensures fixed (fun e => e.Keeps a) (execute host fuel a cs) fun _ _ => True := by
  unfold execute
  split
  · exact .throw rfl
  · refine (run_ensures hhost fuel).weaken (fun e he b hb => ?_) fun _ _ h => h
    cases List.mem_singleton.1 hb
    exact he

omit hhost

/-! ### Calls -/

/-- Every way to run code takes steps of code. -/
structure Running (fixed : Prop) (fuel : Nat) : Prop where
  interpret : ∀ i d args, Safe fixed (interpret fuel i d args)
  callFrom : ∀ i name args, Safe fixed (callFrom fuel i name args)
  callDecorated : ∀ name args,
    Ensures fixed (fun e => fixed → e.Decorates name) (callDecorated fuel name args) fun _ _ => True
  runArtifact : ∀ a args, Ensures fixed (fun e => e.Keeps a) (runArtifact fuel a args) fun _ _ => True
  callHost : ∀ site cs, Safe fixed (callHost fuel site cs)
  callNative : ∀ n args, Safe fixed (callNative fuel n args)
  call : ∀ name args, Safe fixed (call fuel name args)

namespace Running

variable {fuel : Nat} (ih : Running fixed fuel)
include ih

theorem interpret_succ (i : Interpreter) (d : FunctionDef) (args : List Value) :
    Safe fixed (Logged.interpret (fuel + 1) i d args) := by
  rw [Logged.interpret]
  split
  · exact .throw rfl
  · exact .activation (.body (ih.callFrom i) fuel d args)

theorem callFrom_succ (i : Interpreter) (name : Ident) (args : List Value) :
    Safe fixed (Logged.callFrom (fuel + 1) i name args) := by
  rw [Logged.callFrom]
  cases i.types.recordNamed? name with
  | some p => exact .still (.ofRuntime _)
  | none =>
    refine Safe.found fun f => ?_
    rcases f with _ | (d | d | n)
    · exact .throw rfl
    · cases i.mode with
      | host => exact (ih.callDecorated name args).weaken (fun e he _ => ⟨d, he⟩) fun _ _ h => h
      | reference => exact Safe.assume (ih.interpret i d args)
    · exact Safe.assume (ih.interpret i d args)
    · exact Safe.assume (ih.callNative n args)

theorem callDecorated_succ (name : Ident) (args : List Value) :
    Ensures fixed (fun e => fixed → e.Decorates name) (Logged.callDecorated (fuel + 1) name args)
      fun _ _ => True := by
  rw [Logged.callDecorated]
  exact entering_ensures name args fun a => ih.runArtifact a args

theorem runArtifact_succ (a : Artifact) (args : List Value) :
    Ensures fixed (fun e => e.Keeps a) (Logged.runArtifact (fuel + 1) a args) fun _ _ => True := by
  rw [Logged.runArtifact]
  exact .bind (.still .types) fun t => .bind (.still (.ofType (t.encodeAll_converts _ _))) fun cs =>
    .bind (execute_ensures ih.callHost fuel a cs) fun c => .still (Run.artifactResult_still t a c)

theorem callHost_succ (site : HostSite) (cs : List Compiled) :
    Safe fixed (Logged.callHost (fuel + 1) site cs) := by
  rw [Logged.callHost]
  refine .bind (.still .types) fun t => .bind (.still (.ofType (t.decodeAll_converts _ _))) fun vs => ?_
  cases site.function with
  | native n => exact .bind (ih.callNative n vs) fun v => .still (Run.hostResult_still t site v)
  | interpreted d =>
    exact .bind (.still (.interpreter .host)) fun i => .bind (ih.interpret i d vs) fun v =>
      .still (Run.hostResult_still t site v)

theorem callNative_succ (n : Native) (args : List Value) :
    Safe fixed (Logged.callNative (fuel + 1) n args) := by
  rw [Logged.callNative]
  split
  · exact .throw rfl
  · refine .bind (.perform ih.call _) fun r => ?_
    cases r with
    | error message => exact .throw rfl
    | ok v =>
      refine .bind (.still .types) fun t => ?_
      cases t.normalize v n.returns with
      | ok v => exact .pure v
      | error fault => exact .throw rfl

theorem call_succ (name : Ident) (args : List Value) : Safe fixed (Logged.call (fuel + 1) name args) := by
  rw [Logged.call]
  refine Safe.found fun f => ?_
  rcases f with _ | (d | d | n)
  · exact .throw rfl
  · exact (ih.callDecorated name args).weaken (fun e he _ => ⟨d, he⟩) fun _ _ h => h
  · exact Safe.assume (.bind (.still (.interpreter .host)) fun i => ih.interpret i d args)
  · exact Safe.assume (ih.callNative n args)

end Running

theorem Running.all (fuel : Nat) : Running fixed fuel := by
  induction fuel with
  | zero => exact ⟨fun _ _ _ => .halt _, fun _ _ _ => .halt _, fun _ _ => .halt _, fun _ _ => .halt _,
      fun _ _ => .halt _, fun _ _ => .halt _, fun _ _ => .halt _⟩
  | succ fuel ih =>
    exact {
      interpret := ih.interpret_succ
      callFrom := ih.callFrom_succ
      callDecorated := ih.callDecorated_succ
      runArtifact := ih.runArtifact_succ
      callHost := ih.callHost_succ
      callNative := ih.callNative_succ
      call := ih.call_succ }

/-- A call through a handle, whatever it is a handle of. -/
theorem Running.callHandle {fuel : Nat} (h : Running False fuel) (name : Ident) (args : List Value) :
    Safe False (Logged.callDecorated fuel name args) :=
  (h.callDecorated name args).weaken (fun _ _ hf => hf.elim) fun _ _ h => h

/-- What a verification adds to its calls are steps, too. -/
theorem verify_safe (fuel : Nat) (name : Ident) (args : List Value) :
    Safe False (verify fuel name args) := by
  have hall : Running False fuel := .all fuel
  unfold verify
  refine .bind (.still (.function? name)) fun f => ?_
  rcases f with _ | (d | d | n)
  · exact .throw rfl
  · have hsig : Safe False (liftM (Update.signatureOf name args)) := Ensures.note fun h hb _ r e hr =>
      ⟨(signatureOf_takes hb.inOrder (Except.ok.inj hr)).1, fun _ _ => trivial, False.elim⟩
    refine .bind (hall.callHandle name args) fun compiled => .bind hsig fun s =>
      .bind (.still .types) fun t => .bind (.still (.ofType (t.normalizeAll_converts _ _))) fun vs =>
        .bind (.still (.interpreter .reference)) fun i => .bind (hall.interpret i d vs) fun r => ?_
    split
    · exact .pure _
    · exact .throw rfl
  · exact hall.call name args
  · exact hall.call name args

end Logged

/-! ### Sessions -/

variable {h h' : History} {fuel : Nat}

/-- Requests that run code take steps of code. -/
theorem Request.logged_safe {r : Request} (hr : ¬ r.Registers) (fuel : Nat) :
    Logged.Safe False (r.logged fuel) := by
  have hall : Logged.Running False fuel := .all fuel
  have discard : ∀ {α : Type} {x : Logged α}, Logged.Safe False x →
      Logged.Safe False (do let _ ← x; pure ()) := fun hx => .bind hx fun _ => .pure ()
  cases r with
  | specialize function args => exact discard (Logged.specialize_safe function args)
  | call function args => exact discard (hall.call function args)
  | callHandle function args => exact discard (hall.callHandle function args)
  | verify function args => exact discard (Logged.verify_safe fuel function args)
  | _ => exact absurd trivial hr

/-- Definitions are one step that leaves the specialiser alone. -/
theorem Request.logged_registers {r : Request} (hr : r.Registers) {y : Except Halt (Except Error Unit)}
    (hrec : h.record (r.logged fuel) = (y, h')) : h' = h ∨ ∃ e, h.now.Rests e ∧ h' = h.push .other e := by
  have hnote : r.logged fuel = Logged.note .other (r.perform fuel) := by
    cases r with
    | declareTypes _ | declareScalar _ | decorate _ | define _ | defineNative _ => rfl
    | specialize _ _ | call _ _ | callHandle _ _ | verify _ _ => exact hr.elim
  rw [hnote, Logged.record_note] at hrec
  split at hrec
  · rename_i hrun
    cases hrec
    exact .inr ⟨_, (registers_quiet hr fuel _ _ _ hrun).1, rfl⟩
  · cases hrec
    exact .inl rfl

/-- Every request carries lawful histories on. -/
theorem Request.logged_lawful (fuel : Nat) (r : Request) (hl : h.Lawful) :
    (h.record (r.logged fuel)).2.Lawful := by
  cases hrec : h.record (r.logged fuel) with
  | mk y h' =>
    by_cases hr : r.Registers
    · rcases logged_registers hr hrec with rfl | ⟨e, he, rfl⟩
      · exact hl
      · exact hl.push he.toAlike
    · exact (logged_safe hr fuel h ⟨hl.coherent.toBindings, False.elim⟩ trivial _ _ hrec).1.lawful hl

namespace Engine

variable {e : Engine}

/-- The history of a session is made of lawful steps. -/
theorem history_lawful {schedule : Schedule} {o : Options} (hc : Engine.createWith schedule o = .ok e)
    (session : List (Nat × Request)) : (e.history session).Lawful := by
  have start : History.Lawful ⟨e, []⟩ := by
    unfold Engine.createWith at hc
    split at hc
    · cases hc
    · cases hc
      exact .start rfl rfl rfl
  -- a session goes on at its end, where its history does
  induction session using List.reverseRecOn with
  | nil => exact start
  | append_singleton session p ih =>
    rw [history_append]
    exact p.2.logged_lawful p.1 ih

/-- Specialising runs nothing, and keeps at most one outcome more, that of its own signature. -/
theorem update_specialize {function : Ident} {args : List Value} {y : Except Error Artifact}
    {e' : Engine} (h : e.update (Update.specialize function args) = (y, e')) :
    e'.stats.executions = e.stats.executions ∧
    (e'.compiled.keys = e.compiled.keys ∨
      ∃ s e₁, e.update (Update.signatureOf function args) = (.ok s, e₁) ∧ s.function = function ∧
        e'.compiled.keys = e.compiled.keys ++ [s]) := by
  unfold Update.specialize at h
  cases hsig : e.update (Update.signatureOf function args) with
  | mk y₁ e₁ =>
    obtain ⟨halike, hname⟩ := Run.Quiet.signatureOf function args e y₁ e₁ (congrArg Except.ok hsig)
    have hexec : e₁.stats.executions = e.stats.executions := by rw [halike.stats]
    cases y₁ with
    | error err =>
      rw [update_bind_error hsig] at h
      cases h
      exact ⟨hexec, .inl (by rw [halike.compiled])⟩
    | ok s =>
      rw [update_bind_ok hsig] at h
      have he' : e' = _ := (congrArg Prod.snd h).symm.trans (update_artifactOf e₁ s)
      split at he' <;> subst he'
      · exact ⟨hexec, .inl (congrArg Assoc.keys halike.compiled)⟩
      · rename_i hnone
        refine ⟨hexec, .inr ⟨s, e₁, rfl, hname s rfl, ?_⟩⟩
        unfold withOutcome
        rw [Assoc.keys_insert, if_neg, halike.compiled]
        rwa [Assoc.mem_keys_iff]

/--
In every session, and at every point of it, the counts of an engine are counts of what happened:
compilations of signatures, hits of requests, executions of entries into compiled code. An outcome
never changes, a bound call site holds what stands at its signature, and specialising adds at most
its own signature. The history is that of the engine, each step being what its event says.
-/
theorem history_coherent {schedule : Schedule} {o : Options} (hc : Engine.createWith schedule o = .ok e)
    (session : List (Nat × Request)) :
    (∀ h : History, h.Precedes (e.history session) → h.Coherent) ∧
    (∀ h h' : History, h.Precedes h' → h'.Precedes (e.history session) → h.now.Remembers h'.now) ∧
    (∀ (h : History) function args y e', h.Precedes (e.history session) →
      h.now.update (Update.specialize function args) = (y, e') →
        e'.stats.executions = h.now.stats.executions ∧
        (e'.compiled.keys = h.now.compiled.keys ∨
          ∃ s e₁, h.now.update (Update.signatureOf function args) = (.ok s, e₁) ∧
            s.function = function ∧ e'.compiled.keys = h.now.compiled.keys ++ [s])) ∧
    (∀ (h : History) event e', (h.push event e').Precedes (e.history session) →
      event.Leads h.now e') ∧
    ∀ (h : History) (r : Request) fuel,
      History.erase (h.record (r.logged fuel)) = h.now.run (r.perform fuel) := by
  have hl := history_lawful hc session
  refine ⟨fun h hh => (hl.of_precedes hh).1.coherent, fun h h' hh hh' => ?_,
    fun h function args y e' _ hs => update_specialize hs, fun h event e' hh => ?_,
    fun h r fuel => (r.logged_erases fuel h).1⟩
  · exact ((hl.of_precedes hh').1.of_precedes hh).2
  · exact (hl.of_precedes hh).1.leads

end Engine

namespace Catalog

/-- Defines a function and one that calls it, and calls the first one. -/
def paritySession : List (Nat × Request) :=
  [(0, .decorate isEven), (0, .decorate isOdd), (60, .call "is_even" [.int 3])]

/-- In a call of one function the other one is compiled, too, and the first one is found again. -/
theorem history_coherent_parity :
    (Engine.default.history paritySession).now.stats = ⟨2, 1, 1⟩ ∧
    (Engine.default.history paritySession).requests =
      [⟨"is_even", [⟨0⟩]⟩, ⟨"is_odd", [⟨0⟩]⟩, ⟨"is_even", [⟨0⟩]⟩] ∧
    ∀ h : History, h.Precedes (Engine.default.history paritySession) → h.Coherent :=
  ⟨by decide +kernel, by decide +kernel,
    (Engine.history_coherent (o := {}) rfl paritySession).1⟩

end Catalog

end ShapeCompiler
