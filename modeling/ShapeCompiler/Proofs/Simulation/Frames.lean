import ShapeCompiler.Proofs.Arguments
import ShapeCompiler.Proofs.Lowering.Types
import ShapeCompiler.Proofs.Machine.Scopes
import ShapeCompiler.Proofs.Simulation.Outcome

/-!
Frames of compiled functions.

Main statements: an artifact that an engine keeps is lowered from a definition of the world
(`Comparison.Runs.lowered`), static types describe what the interpreter computes in the scope of a
running function (`Comparison.Lowered.expr_has`), and a callee that returns leaves the frame of its
caller as it was (`Machine.run_leave`).
-/

namespace ShapeCompiler

open TypeTable

/-! ### Entering and leaving -/

namespace Machine

variable {e : Engine} {m m' : Machine} {a : Artifact} {dst : Reg} {cs : List Compiled} {c : Compiled}

theorem size_frame (h : cs.length ≤ a.frameSize) : (a.frame cs).size = a.frameSize := by
  unfold Artifact.frame
  simp
  omega

theorem size_enter (h : cs.length ≤ a.frameSize) :
    (m.enter a dst cs).registers.size = m.registers.size + a.frameSize := by
  unfold enter
  rw [Array.size_append, size_frame h]

theorem frame_get {k : Nat} (h : cs[k]? = some c) : (a.frame cs)[k]? = some c := by
  have hlt := (List.getElem?_eq_some_iff.1 h).1
  unfold Artifact.frame
  rw [Array.getElem?_append_left (by simpa using hlt), List.getElem?_toArray, h]

/-- The arguments are in the first registers of the callee. -/
theorem reads_enter {k : Nat} (h : cs[k]? = some c) : (m.enter a dst cs).Reads k c := by
  unfold Reads enter
  simp only
  rw [Array.getElem?_append_right (Nat.le_add_right _ _), Nat.add_sub_cancel_left]
  exact frame_get h

/-- A callee that returns writes its result for its caller, whose registers it has left alone. -/
theorem run_leave (h : (m.enter a dst cs).Continues 0 m') (hd : m.base + dst < m.registers.size) :
    e.run (m'.leave c) = .ok (.ok (.next (m.put dst c).advance), e) := by
  have hregs : m'.registers.shrink m.registers.size = m.registers := by
    have hsize : m'.registers.size = m.registers.size + (a.frame cs).size :=
      h.size.trans Array.size_append
    apply Array.ext
    · rw [Array.size_shrink, hsize]
      omega
    · intro i hi hi'
      have hbelow : m'.registers[i]? = m.registers[i]? :=
        (h.below i hi').trans (Array.getElem?_append_left hi')
      rw [Array.getElem?_eq_getElem hi', Array.getElem?_eq_getElem (by omega)] at hbelow
      rw [Array.getElem_shrink]
      exact Option.some.inj hbelow
  have hbase : m'.base = m.registers.size := h.base
  have hframes : m'.frames = ⟨m.function, m.pc + 1, m.base, dst⟩ :: m.frames := h.frames
  unfold leave
  rw [hframes]
  simp only [hbase, hregs]
  exact run_write (m := { m with pc := m.pc + 1 }) hd _

end Machine

/-! ### Call sites -/

theorem Engine.run_ofUpdate_get {α : Type} (e : Engine) (f : Engine → Update α) :
    e.run (Run.ofUpdate (do
      let e ← get
      f e)) = e.run (Run.ofUpdate (f e)) := rfl

/-- What is asked for is there, or the engine keeps why it cannot be compiled; types stay as they are. -/
theorem Engine.run_artifactOf (e : Engine) (s : Signature) :
    (∃ a e', e.run (Run.ofUpdate (Update.artifactOf s)) = .ok (.ok a, e') ∧ e'.types = e.types) ∨
    ∃ err e', e.run (Run.ofUpdate (Update.artifactOf s)) = .ok (.error (.compile err), e') ∧
      e'.compiled.get? s = some (.error err) := by
  unfold Update.artifactOf
  rw [run_ofUpdate_get]
  cases hs : e.compiled.get? s with
  | some outcome =>
    cases outcome with
    | ok a => exact .inl ⟨a, _, rfl, rfl⟩
    | error err => exact .inr ⟨err, _, rfl, hs⟩
  | none =>
    have hrun : e.run (Run.ofUpdate (do
          let outcome ← Update.compile s
          Update.ofCompile outcome)) =
        (e.withOutcome s).run (Run.ofUpdate (Update.ofCompile (e.outcomeWith e.types s))) := rfl
    have hkept : (e.withOutcome s).compiled.get? s = some (e.outcomeWith e.types s) :=
      Assoc.get?_insert_self _ _ _
    simp only
    rw [hrun]
    cases ho : e.outcomeWith e.types s with
    | ok a => exact .inl ⟨a, _, rfl, rfl⟩
    | error err => exact .inr ⟨err, _, rfl, by rw [hkept, ho]⟩

/-- What stands behind a call site is an artifact or a failure to compile its signature. -/
theorem Engine.run_bindSite (e : Engine) (caller : Signature) (site : Nat) (callee : Signature) :
    (∃ b e', e.run (Run.ofUpdate (Update.bindSite caller site callee)) = .ok (.ok b, e')) ∨
    ∃ err e', e.run (Run.ofUpdate (Update.bindSite caller site callee)) =
      .ok (.error (.compile err), e') ∧ e'.compiled.get? callee = some (.error err) := by
  unfold Update.bindSite
  rw [run_ofUpdate_get]
  cases e.bound.get? (caller, site) with
  | some b => exact .inl ⟨b, e, rfl⟩
  | none =>
    simp only [Run.ofUpdate_bind]
    rcases e.run_artifactOf callee with ⟨b, e', hb, -⟩ | ⟨err, e', hb, herr⟩
    · refine .inl ⟨b, { e' with bound := e'.bound.insert (caller, site) b }, ?_⟩
      rw [run_bind, hb]
      rfl
    · refine .inr ⟨err, e', ?_, herr⟩
      rw [run_bind, hb]
      rfl

/-- An engine in order keeps the artifact that is asked for, or why it cannot be compiled. -/
theorem Engine.Coherent.run_artifactOf {e : Engine} (he : e.Coherent) {s : Signature}
    (hs : s.Registered e.types) :
    (∃ a e', e.run (Run.ofUpdate (Update.artifactOf s)) = .ok (.ok a, e') ∧ e.Extends True e' ∧
      e'.types = e.types ∧ e'.Keeps a ∧ a.signature = s) ∨
    ∃ err e', e.run (Run.ofUpdate (Update.artifactOf s)) = .ok (.error (.compile err), e') ∧
      e.Extends True e' ∧ e'.Excuses err := by
  rcases e.run_artifactOf s with ⟨a, e', ha, htypes⟩ | ⟨err, e', ha, hkept⟩
  · obtain ⟨hx, hget⟩ := Run.artifactOf_ensures s e (fun _ => hs) _ _ ha
    obtain ⟨hk, hsig⟩ := (hx.coherent trivial he).keeps (hget a rfl)
    exact .inl ⟨a, e', ha, hx, htypes, hk, hsig⟩
  · have hx : e.Extends True e' := (Run.artifactOf_ensures s e (fun _ => hs) _ _ ha).1
    exact .inr ⟨err, e', ha, hx, .inl ⟨s, hkept⟩⟩

/-- Specialising on values with declared widths yields an artifact that the engine keeps, for types
of the values, or is excused. -/
theorem Engine.run_specialize {e : Engine} {name : Ident} {args : List Value} (he : e.Coherent)
    (hargs : ∀ v ∈ args, e.types.Normal v) :
    (∃ a e', e.run (Run.ofUpdate (Update.specialize name args)) = .ok (.ok a, e') ∧
      e.Extends True e' ∧ e'.Keeps a ∧ a.signature.function = name ∧
      ArgsHave e'.types a.signature.args args) ∨
    ∃ err e', e.run (Run.ofUpdate (Update.specialize name args)) = .ok (.error (.compile err), e') ∧
      e.Extends True e' ∧ e'.Excuses err := by
  unfold Update.specialize
  rw [Run.ofUpdate_bind, run_bind, run_ofUpdate]
  rcases @run_signatureOf e name args he.types hargs with
    ⟨s, e₁, hs, hx₁, rfl, hhas⟩ | ⟨e₁, hs, hx₁⟩
  · rw [hs]
    rcases (hx₁.coherent trivial he).run_artifactOf (registered_of_signatureOf he.types hs) with
      ⟨a, e₂, ha, hx₂, -, hk, hsig⟩ | ⟨err, e₂, ha, hx₂, hexcuse⟩
    · refine .inl ⟨a, e₂, ha, hx₁.trans hx₂, hk, by rw [hsig], ?_⟩
      rw [hsig]
      exact hhas.imp fun _ _ h => h.extends hx₂ (hx₁.types he.types).1
    · exact .inr ⟨err, e₂, ha, hx₁.trans hx₂, hexcuse⟩
  · rw [hs]
    exact .inr ⟨_, e₁, rfl, hx₁, .inr ⟨name, rfl⟩⟩

/-! ### Running functions -/

namespace Comparison

variable {C : Comparison} {depth : Option Nat} {e e' : Engine} {l : Lowerer} {a : Artifact}
  {pool p p' : Pool} {m m' : Machine} {start k k' : Nat} {env : RegEnv} {venv : Env} {shown : Prop}

/-- The artifact holds the lowered body of a function of the world. -/
structure Lowered (C : Comparison) (l : Lowerer) (a : Artifact) (pool : Pool) : Prop where
  compiled : a.Compiled l pool
  function : C.world.functions.get? l.signature.function = some (.decorated l.definition)
  settled : l.toTyping.Settled (Typing.assumptionsOf l.returnTypes)

/-- An artifact that an engine keeps is lowered in surroundings that the engine still has. -/
theorem Runs.lowered (h : C.Runs depth e) (hk : e.Keeps a) :
    ∃ l pool, C.Lowered l a pool ∧ l.toTyping.Serves e := by
  obtain ⟨-, c, hserves, hcomp⟩ := h.coherent.compiled hk
  obtain ⟨d, T, pool, hf, hT, hart⟩ := Typing.compile_eq_ok hcomp
  obtain ⟨hset, -⟩ :=
    Typing.infer_settled hserves.fits.wellFormed e.schedule.complete hT
  refine ⟨_, pool, ⟨hart, ?_, hset⟩, hserves⟩
  rw [← h.hosts.functions]
  exact (hserves.functions hf).1

/-- A function is at a position of its code, with the variables of a scope in registers below a
number; the placeholder may be none of them. -/
structure At (C : Comparison) (shown : Prop) (depth : Option Nat) (l : Lowerer) (a : Artifact) (e : Engine)
    (m : Machine) (start k : Nat) (env : RegEnv) (venv : Env) : Prop where
  runs : C.Runs depth e
  keeps : e.Keeps a
  serves : l.toTyping.Serves e
  function : m.function = a
  pc : m.pc = start
  size : m.base + a.registers ≤ m.registers.size
  types : EnvHas e.types shown env.types venv
  known : EnvKnown env.types
  scope : RegScope C.world.types m k shown env venv

/-- The running function has gone on to a position and has kept the registers below a number, while
the engine has grown. -/
structure Reaches (k : Nat) (e : Engine) (m : Machine) (stop : Nat) (e' : Engine) (m' : Machine) :
    Prop where
  grown : e.Extends True e'
  continues : m.Continues k m'
  pc : m'.pc = stop

theorem Reaches.refl (k : Nat) (e : Engine) (m : Machine) : Reaches k e m m.pc e m :=
  ⟨.refl e, .refl k m, rfl⟩

theorem Reaches.trans {e'' : Engine} {m'' : Machine} {stop stop' : Nat}
    (h : Reaches k e m stop e' m') (h' : Reaches k' e' m' stop' e'' m'') (hk : k ≤ k') :
    Reaches k e m stop' e'' m'' :=
  ⟨h.grown.trans h'.grown, h.continues.trans h'.continues hk, h'.pc⟩

/-- The running function has gone on, while the engine has grown, and is about to return the form of a
value. -/
def Returning (C : Comparison) (e : Engine) (m : Machine) (v : Value) (e' : Engine) (m' : Machine) :
    Prop :=
  e.Extends True e' ∧ m.Continues 0 m' ∧ ∃ src c, m'.function.code[m'.pc]? = some (.ret src) ∧
    m'.Reads src c ∧ C.world.types.Form v c

theorem Reaches.returning {e'' : Engine} {m'' : Machine} {stop : Nat} {v : Value}
    (h : Reaches k e m stop e' m') (h' : C.Returning e' m' v e'' m'') : C.Returning e m v e'' m'' :=
  ⟨h.grown.trans h'.1, (h.continues.mono (Nat.zero_le k)).trans h'.2.1 (Nat.le_refl 0), h'.2.2⟩

theorem At.reaches (h : C.At shown depth l a e m start k env venv) {stop : Nat}
    (hr : Reaches k e m stop e' m') (hk : k ≤ k') : C.At shown depth l a e' m' stop k' env venv where
  runs := h.runs.extends hr.grown
  keeps := h.keeps.extends hr.grown
  serves := h.serves.extends hr.grown
  function := hr.continues.function.trans h.function
  pc := hr.pc
  size := by
    rw [hr.continues.base, hr.continues.size]
    exact h.size
  types name hn v hv := by
    obtain ⟨s, hs, hv⟩ := h.types name hn v hv
    exact ⟨s, hs, hv.extends hr.grown h.runs.hosts.types⟩
  known := h.known
  scope := h.scope.continues hr.continues hk

theorem At.inside (h : C.At shown depth l a e m start k env venv) {r : Reg} (hr : r < a.registers) :
    m.base + r < m.registers.size :=
  Nat.lt_of_lt_of_le (Nat.add_lt_add_left hr _) h.size

/-- Writing a register leads to the next instruction, and the register then stores the value. -/
theorem At.write (h : C.At shown depth l a e m start k env venv) {r : Reg} (hr : r < a.registers)
    (hk : k ≤ r) (hx : e.Extends True e') {v : Value} {c : Compiled} (hf : C.world.types.Form v c)
    (s : StaticType) :
    Reaches k e m (start + 1) e' (m.put r c).advance ∧
      (m.put r c).advance.Stores C.world.types (r + 1) (r, s) v := by
  have hput : (m.put r c).Reads r c := Machine.reads_put (h.inside hr)
  refine ⟨⟨hx, (Machine.Continues.put m c hk).advance, ?_⟩, Nat.lt_succ_self r, c, hput, hf⟩
  show m.pc + 1 = start + 1
  rw [h.pc]

theorem At.op (h : C.At shown depth l a e m start k env venv) {op : Op} (hop : a.code[start]? = some op) :
    m.function.code[m.pc]? = some op := by
  rw [h.function, h.pc]
  exact hop

theorem Runs.form_iff (hp : C.world.Proper) (h : C.Runs depth e) {v : Value} {c : Compiled} :
    e.types.Form v c ↔ C.world.types.Form v c :=
  TypeTable.form_iff h.hosts.grows hp.types h.hosts.types

theorem Runs.scope_iff (hp : C.world.Proper) (h : C.Runs depth e) :
    RegScope e.types m k shown env venv ↔ RegScope C.world.types m k shown env venv := by
  have hstores : m.Stores e.types k = m.Stores C.world.types k := by
    funext r v
    unfold Machine.Stores
    simp only [h.form_iff hp]
  unfold RegScope
  rw [hstores]

theorem Runs.fields (hp : C.world.Proper) (h : C.Runs depth e) {id : TypeId} {r : RecordType}
    (hr : e.types.record? id = some r) : r.fields.length ≤ 65536 := by
  rw [h.hosts.grows.record?_eq] at hr
  exact hp.fields hr

theorem At.step_drives {host : HostSite → List Compiled → Run Compiled} {ans : Answers Value} {n : Nat}
    {op : Op} {r : Reg} {x : Except RuntimeError Value} {y : Except RuntimeError Compiled}
    (hp : C.world.Proper) (h : C.At shown depth l a e m start k env venv) (hop : a.code[start]? = some op)
    (hmatch : StepMatches e.types x y)
    (hrun : e.run (m.exec host op) = e.run (Run.ofRuntime y >>= fun c => m.writeNext r c))
    (hr : r < a.registers) (hk : k ≤ r) (s : StaticType)
    (herr : ∀ f, x = .error f → ans (.error (.runtime f)))
    (hval : ∀ j ≤ n, ∀ m' v, x = .ok v → Reaches k e m (start + 1) e m' →
      m'.Stores C.world.types (r + 1) (r, s) v → C.Drives host ans j e m') :
    C.Drives host ans n e m := by
  refine drives_step (h.op hop) hmatch (fun hf => (h.runs.form_iff hp).1 hf) hrun (h.inside hr) herr ?_
  intro j hj v c hx hf
  obtain ⟨hreach, hstores⟩ := h.write hr hk (.refl e) hf s
  exact hval j (Nat.le_of_lt hj) _ v hx hreach hstores

namespace Lowered

variable (hl : C.Lowered l a pool) (hp : C.world.Proper)
include hl

abbrev walker (l : Lowerer) : Walker :=
  { l.toTyping with
    assumed := Typing.assumptionsOf l.returnTypes, function := l.definition.name, strict := true }

omit hl in
theorem follows : l.Follows (walker l) where
  typing := rfl
  assumed hr := by
    show (Typing.assumptionsOf l.returnTypes).get? _ = _
    rw [Typing.get?_assumptionsOf, hr]
    rfl

include hp

theorem sound (h : C.At shown depth l a e m start k env venv) :
    (walker l).Sound e.types C.world.interpreter (C.world.calls depth) :=
  hp.sound h.runs.hosts h.serves hl.settled _ _ depth

/-- Every value of a lowered expression is of the type that lowering gives it. -/
theorem expr_has {ex : Expr} (htidy : ex.Tidy shown) {r : LoweredExpr} {start' : Nat}
    (hr : (l.expr start' env ex).run p = .ok (r, p')) (h : C.At shown depth l a e m start k env venv) :
    r.type ≠ .unknown ∧ ∀ v, C.world.interpreter.expr (C.world.calls depth) venv ex (.ok v) →
      r.type.Has e.types v := by
  have hw := hl.sound hp h
  have htyped := Lowerer.expr_types follows {} ex _ _ _ _ _ hr
  obtain ⟨hne, hhas⟩ := hw.expr rfl ex htidy _ _ _ _ h.known htyped
    ((Findings.below_rising hw.fits).refl _)
  exact ⟨hne, fun v hv => hhas venv v h.types hv⟩

theorem exprs_has {es : List Expr} (htidy : ∀ ex ∈ es, ex.Tidy shown) {as : LoweredArgs} {start' : Nat}
    (hr : (l.exprs start' env es).run p = .ok (as, p')) (h : C.At shown depth l a e m start k env venv)
    {vs : List Value} (hvs : C.world.interpreter.exprs (C.world.calls depth) venv es (.ok vs)) :
    AllHave e.types (as.args.map Prod.snd) vs := by
  have hw := hl.sound hp h
  have htyped := Lowerer.exprs_types {} (fun ex _ => Lowerer.expr_types follows {} ex) hr
  obtain ⟨-, hhas⟩ := Walker.Sound.exprs hw.fits (F := {}) (fun ex hx => hw.expr rfl ex (htidy ex hx))
    h.known htyped ((Findings.below_rising hw.fits).refl _)
  exact hhas venv vs h.types hvs

end Lowered

end Comparison

end ShapeCompiler
