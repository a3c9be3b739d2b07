import Mathlib.Data.List.Induction
import ShapeCompiler.Proofs.Engine.Logs

/-!
What holds at every moment of a session.

An activation begins only below the recursion limit, and nothing else changes how many are alive. Main
statements: whatever an activation keeps where it begins and where it ends holds at every moment of every
session (`Engine.Lasts.history`), a request leaves as many activations alive as it found
(`Request.perform_level`), and at no moment are there more than the limit (`Engine.history_bounded`).
-/

namespace ShapeCompiler

variable {α β : Type} {e e' : Engine}

/-! ### Runs that neither begin nor end an activation -/

/-- The run changes no option, and behind it as many activations are alive as before it. -/
def Run.Level (x : Run α) : Prop :=
  ∀ (e : Engine) y e', e.run x = .ok (y, e') →
    e'.options = e.options ∧ e'.activations.alive = e.activations.alive

namespace Run.Level

theorem of_ensures {x : Run α} {Q : α → Engine → Prop} (hx : Ensures False (fun _ => True) x Q) : Level x :=
  fun e y e' hr => ⟨(hx e trivial y e' hr).1.options, (hx e trivial y e' hr).1.alive⟩

theorem of_orderly {x : Run α} (hx : Orderly False x) : Level x :=
  .of_ensures (hx.weaken (fun _ _ h => h.elim) fun _ _ h => h)

theorem of_still {x : Run α} {R : α → Prop} (hx : Still x R) : Level x := .of_ensures hx.keeps

theorem of_quiet {x : Run α} {Q : α → Prop} (hx : Quiet x Q) : Level x := fun e y e' hr =>
  ⟨(hx e y e' hr).1.options, congrArg Activations.alive (hx e y e' hr).1.activations⟩

end Run.Level

/-- A request leaves as many activations alive as it found, whatever it answers. -/
theorem Request.perform_level (fuel : Nat) (r : Request) : (r.perform fuel).Level := by
  by_cases hr : r.Registers
  · exact .of_quiet (registers_quiet hr fuel)
  · refine .of_orderly (Engine.perform_orderly ?_)
    cases r with
    | declareTypes _ | decorate _ | define _ | defineNative _ => exact absurd trivial hr
    | _ => trivial

/-! ### Invariants of activations -/

/-- The condition is about options and activations alone, and it is kept where an activation begins
below the limit and where one ends. -/
structure Engine.Lasts (I : Engine → Prop) : Prop where
  level : ∀ {e e' : Engine}, e'.options = e.options → e'.activations.alive = e.activations.alive → I e → I e'
  enter : ∀ {e : Engine}, I e → e.activations.alive < e.options.maxHostDepth → I e.entered
  leave : ∀ {e : Engine}, I e → I e.left

/-- The condition holds at the beginning and at every moment since. -/
def History.Throughout (I : Engine → Prop) (h : History) : Prop := I h.start ∧ ∀ m ∈ h.past, I m.engine

variable {I : Engine → Prop}

theorem History.Throughout.now {h : History} (hh : h.Throughout I) : I h.now := by
  obtain ⟨start, past⟩ := h
  cases past with
  | nil => exact hh.1
  | cons m _ => exact hh.2 m List.mem_cons_self

/-- If the condition has held throughout a history, it holds at the moments that the run adds. -/
def Logged.Keeps (I : Engine → Prop) (x : Logged α) : Prop :=
  ∀ h : History, h.Throughout I → (h.record x).2.Throughout I

namespace Logged.Keeps

variable {x : Logged α} {f : α → Logged β}

theorem pure (a : α) : Keeps I (pure a) := fun _ h => h

theorem throw (err : Error) : Keeps I (throw err : Logged α) := fun _ h => h

theorem halt (why : Halt) : Keeps I (halt why : Logged α) := fun _ h => h

theorem bind (hx : Keeps I x) (hf : ∀ a, Keeps I (f a)) : Keeps I (x >>= f) := by
  intro h hh
  have hh₁ := hx h hh
  rw [record_bind]
  rcases hr : h.record x with ⟨why | err | a, h₁⟩ <;> rw [hr] at hh₁
  · exact hh₁
  · exact hh₁
  · exact hf a h₁ hh₁

theorem attempt (hx : Keeps I x) : Keeps I (attempt x) := by
  intro h hh
  rw [record_attempt]
  exact hx h hh

theorem note {event : Event} {y : Run α} (hy : ∀ e r e', I e → e.run y = .ok (r, e') → I e') :
    Keeps I (note event y) := by
  intro h hh
  rw [record_note]
  cases hr : h.now.run y with
  | error why => exact hh
  | ok p =>
    refine ⟨hh.1, fun m hm => ?_⟩
    rcases List.mem_cons.1 hm with rfl | hm
    · exact hy h.now p.1 p.2 hh.now hr
    · exact hh.2 m hm

theorem answer (r : Except Error α) : Keeps I (answer r) := by
  cases r with
  | ok a => exact .pure a
  | error e => exact .throw e

theorem perform {call : Ident → List Value → Logged Value} (hcall : ∀ name args, Keeps I (call name args))
    (cb : Callback) : Keeps I (perform call cb) := by
  induction cb with
  | finish result => exact .pure _
  | enter function args resume ih => exact .bind (.attempt (hcall function args)) fun r => ih r

/-- The interpreter keeps what the calls in a body keep. -/
def relation (I : Engine → Prop) : Relation Logged Logged where
  rel Q x _ := ∀ h : History, h.Throughout I →
    (h.record x).2.Throughout I ∧ ∀ a, (h.record x).1 = .ok (.ok a) → Q a
  pure hq h hh := ⟨hh, fun _ ha => by cases ha; exact hq⟩
  bind := by
    intro α β Q Q' x y f g hx hf h hh
    obtain ⟨hh₁, hq⟩ := hx h hh
    rw [record_bind]
    rcases hr : h.record x with ⟨why | err | a, h₁⟩ <;> rw [hr] at hh₁ hq
    · exact ⟨hh₁, fun b hb => by cases hb⟩
    · exact ⟨hh₁, fun b hb => by cases hb⟩
    · exact hf a (hq a rfl) h₁ hh₁
  throw _ h hh := ⟨hh, fun _ ha => by cases ha⟩
  halt h hh := ⟨hh, fun _ ha => by cases ha⟩

theorem body {i : Interpreter} {call : Ident → List Value → Logged Value}
    (hcall : ∀ name args, Keeps I (call name args)) (fuel : Nat) (d : FunctionDef) (args : List Value) :
    Keeps I (i.body call fuel d args) := by
  have hall : ∀ name args, (∀ v ∈ args, True) →
      (relation I).rel (fun _ : Value => True) (call name args) (call name args) :=
    fun name args _ h hh => ⟨hcall name args h hh, fun _ _ => trivial⟩
  have hbody : (relation I).rel (fun _ : Value => True) (i.body call fuel d args) (i.body call fuel d args) :=
    (relation I).body i.closed_true hall (.inl rfl) d fun _ _ => trivial
  exact fun h hh => (hbody h hh).1

end Logged.Keeps

/-! ### All ways to run code -/

namespace Logged.Keeps

variable (hI : Engine.Lasts I)
include hI

theorem note_level {event : Event} {y : Run α} (hy : y.Level) : Keeps I (Logged.note event y) :=
  .note fun e r e' he hr => hI.level (hy e r e' hr).1 (hy e r e' hr).2 he

theorem lift_still {y : Run α} {R : α → Prop} (hy : y.Still R) : Keeps I (liftM y) :=
  note_level hI (.of_still hy)

theorem activation {body : Logged α} (hbody : Keeps I body) : Keeps I (activation body) := by
  refine .bind (.note fun e r e' he hr => ?_) fun _ => .bind (.attempt hbody) fun r =>
    .bind (.note fun e r e' he hr => ?_) fun _ => .answer r
  · change e.run Run.enterActivation = .ok (r, e') at hr
    rw [Engine.run_enterActivation] at hr
    split at hr
    · cases hr
      exact he
    · rename_i hroom
      cases hr
      exact hI.enter he (Nat.not_le.1 hroom)
  · cases hr
    exact hI.leave he

theorem artifactOf (s : Signature) : Keeps I (artifactOf s) := 
  note_level hI (.of_ensures ((Run.artifactOf_ensures s).weaken (fun _ _ h => h.elim) fun _ _ h => h))

theorem signatureOf (function : Ident) (args : List Value) :
    Keeps I (liftM (Update.signatureOf function args)) :=
  note_level hI (.of_ensures
    ((Run.signatureOf_ensures function args).weaken (fun _ _ h => h.elim) fun _ _ h => h))

theorem specialize (function : Ident) (args : List Value) : Keeps I (specialize function args) :=
  .bind (signatureOf hI function args) fun s => artifactOf hI s

theorem bindSite (caller : Signature) (site : Nat) (callee : Signature) :
    Keeps I (bindSite caller site callee) := by
  refine .bind (lift_still hI .get) fun e => ?_
  cases e.bound.get? (caller, site) with
  | some a => exact .pure a
  | none =>
    refine .bind (artifactOf hI callee) fun a => .bind (.note fun e r e' he hr => ?_) fun _ => .pure a
    cases hr
    exact hI.level (e := e) rfl rfl he

section Machine

variable {host : HostSite → List Compiled → Logged Compiled} (hhost : ∀ site cs, Keeps I (host site cs))
include hhost

theorem step (m : Machine) : Keeps I (step host m) := by
  unfold Logged.step
  cases m.function.code[m.pc]? with
  | none => exact .throw _
  | some op =>
    cases op with
    | call dst site args =>
      simp only [exec]
      cases m.function.callSites[site]? with
      | none => exact .halt _
      | some callee =>
        exact .bind (bindSite hI _ _ _) fun a => .bind (lift_still hI (m.readAll_still args)) fun _ => .pure _
    | callHost dst site args =>
      refine .bind (lift_still hI (m.readAll_still args)) fun cs => ?_
      cases m.function.hostSites[site]? with
      | none => exact .halt _
      | some s => exact .bind (hhost s cs) fun c => lift_still hI (m.writeNext_still dst c)
    | _ =>
      refine lift_still hI (Machine.exec_still ?_)
      trivial

theorem run (fuel : Nat) (m : Machine) : Keeps I (run host fuel m) := by
  induction fuel generalizing m with
  | zero => exact .halt _
  | succ fuel ih =>
    rw [Logged.run]
    refine .bind (step hI hhost m) fun s => ?_
    cases s with
    | done c => exact .pure c
    | next m' => exact ih m'

theorem execute (fuel : Nat) (a : Artifact) (cs : List Compiled) : Keeps I (execute host fuel a cs) := by
  unfold Logged.execute
  split
  · exact .throw _
  · exact run hI hhost fuel _

end Machine

end Logged.Keeps

namespace Logged

/-- Every way to run code keeps what lasts. -/
structure Keeping (I : Engine → Prop) (fuel : Nat) : Prop where
  interpret : ∀ i d args, Keeps I (interpret fuel i d args)
  callFrom : ∀ i name args, Keeps I (callFrom fuel i name args)
  callDecorated : ∀ name args, Keeps I (callDecorated fuel name args)
  runArtifact : ∀ a args, Keeps I (runArtifact fuel a args)
  callHost : ∀ site cs, Keeps I (callHost fuel site cs)
  callNative : ∀ n args, Keeps I (callNative fuel n args)
  call : ∀ name args, Keeps I (call fuel name args)

namespace Keeping

variable {fuel : Nat} (hI : Engine.Lasts I) (ih : Keeping I fuel)
include hI ih

theorem interpret_succ (i : Interpreter) (d : FunctionDef) (args : List Value) :
    Keeps I (Logged.interpret (fuel + 1) i d args) := by
  rw [Logged.interpret]
  split
  · exact .throw _
  · exact .activation hI (.body (ih.callFrom i) fuel d args)

theorem callFrom_succ (i : Interpreter) (name : Ident) (args : List Value) :
    Keeps I (Logged.callFrom (fuel + 1) i name args) := by
  rw [Logged.callFrom]
  cases i.types.recordNamed? name with
  | some p => exact .lift_still hI (.ofRuntime _)
  | none =>
    refine .bind (.lift_still hI (.function? name)) fun f => ?_
    rcases f with _ | (d | d | n)
    · exact .throw _
    · cases i.mode with
      | host => exact ih.callDecorated name args
      | reference => exact ih.interpret i d args
    · exact ih.interpret i d args
    · exact ih.callNative n args

theorem callDecorated_succ (name : Ident) (args : List Value) :
    Keeps I (Logged.callDecorated (fuel + 1) name args) := by
  rw [Logged.callDecorated]
  refine .bind (.attempt (.specialize hI name args)) fun r => ?_
  cases r with
  | error err => exact .bind (.note_level hI (.of_still (R := fun _ => True) (.pure trivial))) fun _ => .throw err
  | ok a => exact .bind (.note_level hI (.of_orderly Run.countExecution_orderly)) fun _ => ih.runArtifact a args

theorem runArtifact_succ (a : Artifact) (args : List Value) :
    Keeps I (Logged.runArtifact (fuel + 1) a args) := by
  rw [Logged.runArtifact]
  exact .bind (.lift_still hI .types) fun t => .bind (.lift_still hI (.ofType (t.encodeAll_converts _ _))) fun cs =>
    .bind (.execute hI ih.callHost fuel a cs) fun c => .lift_still hI (Run.artifactResult_still t a c)

theorem callHost_succ (site : HostSite) (cs : List Compiled) :
    Keeps I (Logged.callHost (fuel + 1) site cs) := by
  rw [Logged.callHost]
  refine .bind (.lift_still hI .types) fun t =>
    .bind (.lift_still hI (.ofType (t.decodeAll_converts _ _))) fun vs => ?_
  cases site.function with
  | native n => exact .bind (ih.callNative n vs) fun v => .lift_still hI (Run.hostResult_still t site v)
  | interpreted d =>
    exact .bind (.lift_still hI (.interpreter .host)) fun i => .bind (ih.interpret i d vs) fun v =>
      .lift_still hI (Run.hostResult_still t site v)

theorem callNative_succ (n : Native) (args : List Value) : Keeps I (Logged.callNative (fuel + 1) n args) := by
  rw [Logged.callNative]
  split
  · exact .throw _
  · refine .bind (.perform ih.call _) fun r => ?_
    cases r with
    | error message => exact .throw _
    | ok v =>
      refine .bind (.lift_still hI .types) fun t => ?_
      cases t.normalize v n.returns with
      | ok v => exact .pure v
      | error fault => exact .throw _

theorem call_succ (name : Ident) (args : List Value) : Keeps I (Logged.call (fuel + 1) name args) := by
  rw [Logged.call]
  refine .bind (.lift_still hI (.function? name)) fun f => ?_
  rcases f with _ | (d | d | n)
  · exact .throw _
  · exact ih.callDecorated name args
  · exact .bind (.lift_still hI (.interpreter .host)) fun i => ih.interpret i d args
  · exact ih.callNative n args

end Keeping

theorem Keeping.all (hI : Engine.Lasts I) (fuel : Nat) : Keeping I fuel := by
  induction fuel with
  | zero => exact ⟨fun _ _ _ => .halt _, fun _ _ _ => .halt _, fun _ _ => .halt _, fun _ _ => .halt _,
      fun _ _ => .halt _, fun _ _ => .halt _, fun _ _ => .halt _⟩
  | succ fuel ih =>
    exact {
      interpret := ih.interpret_succ hI
      callFrom := ih.callFrom_succ hI
      callDecorated := ih.callDecorated_succ hI
      runArtifact := ih.runArtifact_succ hI
      callHost := ih.callHost_succ hI
      callNative := ih.callNative_succ hI
      call := ih.call_succ hI }

theorem verify_keeps (hI : Engine.Lasts I) (fuel : Nat) (name : Ident) (args : List Value) :
    Keeps I (verify fuel name args) := by
  have hall := Keeping.all hI fuel
  have still : ∀ {α : Type} {y : Run α} {R : α → Prop}, y.Still R → Keeps I (liftM y) := .lift_still hI
  unfold verify
  refine .bind (still (.function? name)) fun f => ?_
  rcases f with _ | (d | d | n)
  · exact .throw _
  · refine .bind (hall.callDecorated name args) fun compiled => .bind (.signatureOf hI name args) fun s =>
      .bind (still .types) fun t => .bind (still (.ofType (t.normalizeAll_converts _ _))) fun vs =>
        .bind (still (.interpreter .reference)) fun i => .bind (hall.interpret i d vs) fun r => ?_
    split
    · exact .pure _
    · exact .throw _
  · exact hall.call name args
  · exact hall.call name args

end Logged

/-- Every request keeps what lasts, also if it is stopped. -/
theorem Request.logged_keeps (hI : Engine.Lasts I) (fuel : Nat) (r : Request) :
    (r.logged fuel).Keeps I := by
  have hall := Logged.Keeping.all hI fuel
  have discard : ∀ {α : Type} {x : Logged α}, x.Keeps I → Logged.Keeps I (do let _ ← x; pure ()) :=
    fun hx => .bind hx fun _ => .pure ()
  cases r with
  | specialize function args => exact discard (.specialize hI function args)
  | call function args => exact discard (hall.call function args)
  | callHandle function args => exact discard (hall.callDecorated function args)
  | verify function args => exact discard (Logged.verify_keeps hI fuel function args)
  | declareTypes _ | declareScalar _ | decorate _ | define _ | defineNative _ =>
    exact .note_level hI (perform_level fuel _)

namespace Engine

/-- What lasts holds at every moment of a session that begins with it. -/
theorem Lasts.history (hI : Lasts I) (he : I e) (session : List (Nat × Request)) :
    (e.history session).Throughout I := by
  induction session using List.reverseRecOn with
  | nil => exact ⟨he, fun m hm => by cases hm⟩
  | append_singleton session p ih =>
    rw [history_append]
    exact p.2.logged_keeps hI p.1 _ ih

/-- The recursion limit is the given one, and no more activations are alive. -/
structure Bounded (limit : Nat) (e : Engine) : Prop where
  options : e.options.maxHostDepth = limit
  alive : e.activations.alive ≤ limit

theorem bounded_lasts (limit : Nat) : Lasts (Bounded limit) where
  level ho hl h := ⟨by rw [ho]; exact h.options, by rw [hl]; exact h.alive⟩
  enter h hroom := ⟨h.options, h.options ▸ hroom⟩
  leave h := ⟨h.options, Nat.le_trans (Nat.sub_le ..) h.alive⟩

/-- At no moment of a session are more activations alive than the limit allows. -/
theorem history_bounded (h : e.activations.alive ≤ e.options.maxHostDepth)
    (session : List (Nat × Request)) :
    ∀ m ∈ (e.history session).past, m.engine.activations.alive ≤ e.options.maxHostDepth := fun m hm =>
  (((bounded_lasts e.options.maxHostDepth).history ⟨rfl, h⟩ session).2 m hm).alive

end Engine

end ShapeCompiler
