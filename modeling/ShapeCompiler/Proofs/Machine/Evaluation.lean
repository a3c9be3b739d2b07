import ShapeCompiler.Proofs.Machine.Recursion

/-!
Following given code to its result.

What a function evaluates to without the help of a host is what its machine returns, whatever the host
(`Machine.Evaluates.run`). Main statements: an instruction that stays in its frame leads to the state that
it is executed to (`Machine.Leads.step`), and a call leads, with the result of the callee, to the
instruction behind it (`Machine.Leads.callSelf`, `Machine.Leads.call`), until a return ends the evaluation
(`Machine.Evaluates.ret`).
-/

namespace ShapeCompiler

structure Artifact.Lists (a : Artifact) (code : List Op) (registers arity : Nat) : Prop where
  code : a.code.toList = code
  registers : a.registers = registers
  arity : a.signature.args.length = arity

theorem Artifact.Lists.op {a : Artifact} {code : List Op} {registers arity pc : Nat} {op : Op}
    (h : a.Lists code registers arity) (hop : code[pc]? = some op) : a.code[pc]? = some op := by
  rw [← Array.getElem?_toList, h.code, hop]

namespace Machine

variable {e e' e₁ e₂ : Engine} {m m₁ : Machine} {a b : Artifact} {c c' : Compiled}
  {cs rs : List Compiled} {pc : Nat} {dst : Reg} {args : List Reg}

/-- A host that answers nothing. -/
def noHost : HostSite → List Compiled → Run Compiled := fun _ _ => Run.halt .outOfFuel

/-- Without its host the function evaluates to a value and leaves an engine behind. -/
def Evaluates (m : Machine) (e : Engine) (c : Compiled) (e' : Engine) : Prop :=
  ∃ fuel, e.run (evaluate noHost fuel m) = .ok (.ok c, e')

/-- What the second machine evaluates to in its engine is what the first one evaluates to in its own. -/
def Leads (m : Machine) (e : Engine) (m₁ : Machine) (e₁ : Engine) : Prop :=
  ∀ c e', m₁.Evaluates e₁ c e' → m.Evaluates e c e'

/-- A function without callers, at an instruction and with values in its registers. -/
def frameAt (a : Artifact) (pc : Nat) (rs : List Compiled) : Machine := ⟨a, pc, 0, rs.toArray, []⟩

theorem start_eq {code : List Op} {registers arity : Nat} (h : a.Lists code registers arity)
    (cs : List Compiled) : start a cs =
      frameAt a 0 (cs ++ List.replicate (max registers arity - cs.length) .incomplete) := by
  unfold start frameAt Artifact.frame Artifact.frameSize
  rw [h.registers, h.arity]
  simp

theorem reads_frameAt {r : Reg} : (frameAt a pc rs).Reads r c ↔ rs[r]? = some c := by
  unfold Reads frameAt
  simp

theorem put_frameAt : ((frameAt a pc rs).put dst c).advance = frameAt a (pc + 1) (rs.set dst c) := by
  unfold put advance frameAt
  simp

/-! ### Whatever the host -/

/-- Only a call of a host function needs a host. -/
theorem exec_noHost_within (host : HostSite → List Compiled → Run Compiled) (op : Op) :
    (m.exec noHost op).Within (m.exec host op) := by
  cases op with
  | callHost dst site args =>
    refine .after _ fun cs => ?_
    cases m.function.hostSites[site]? with
    | none => exact .refl _
    | some s => exact fun e hs => absurd rfl (Engine.settles_bind.1 hs).1
  | _ => exact .refl _

theorem run_noHost_within (host : HostSite → List Compiled → Run Compiled) (fuel : Nat) (m : Machine) :
    (run noHost fuel m).Within (run host fuel m) := by
  induction fuel generalizing m with
  | zero => exact .refl _
  | succ fuel ih =>
    rw [run_succ, run_succ]
    have hstep : (m.step noHost).Within (m.step host) := by
      unfold step
      split
      · exact exec_noHost_within host _
      · exact .refl _
    refine hstep.bind fun s => ?_
    cases s with
    | done c => exact .refl _
    | next m' => exact ih m'

theorem settles_of_run {α : Type} {x : Run α} {y : Except Error α} (h : e.run x = .ok (y, e')) :
    e.Settles x := by
  unfold Engine.Settles
  rw [h]
  exact nofun

/-- Given enough fuel, the machine of a function returns what the function evaluates to. -/
theorem Evaluates.run (h : (start a cs).Evaluates e c e') : ∃ n, ∀ host fuel, n ≤ fuel →
    e.run (Machine.run host fuel (start a cs)) = .ok (.ok c, e') := by
  obtain ⟨g, hg⟩ := h
  obtain ⟨j, hj⟩ := evaluate_carries (start_alone a cs) (settles_of_run hg) #[] []
  -- without callers, the value that is handed back is the result
  have hrun : e.run (Machine.run noHost (0 + j) (start a cs)) = .ok (.ok c, e') := by
    have hback := hj 0
    rw [onto_start] at hback
    exact (hback.trans (congrArg e.run (bind_pure _))).trans hg
  refine ⟨0 + j, fun host fuel hle => ?_⟩
  have hmore : e.run (Machine.run noHost fuel (start a cs)) = .ok (.ok c, e') :=
    (run_within _ hle e (settles_of_run hrun)).trans hrun
  rw [run_noHost_within host fuel _ e (settles_of_run hmore), hmore]

/-! ### One instruction -/

theorem Leads.evaluates (h : m.Leads e m₁ e₁) (hm : m₁.Evaluates e₁ c e') : m.Evaluates e c e' := h c e' hm

theorem Leads.step {op : Op} (hop : m.function.code[m.pc]? = some op) (hstays : op.Stays)
    (hrun : e.run (m.exec noHost op) = .ok (.ok (.next m₁), e₁)) : m.Leads e m₁ e₁ := by
  rintro c e' ⟨fuel, h⟩
  refine ⟨fuel + 1, ?_⟩
  rw [evaluate_stays hop hstays]
  exact Engine.run_bind_eq_ok.2 (.inl ⟨_, e₁, hrun, h⟩)

theorem Leads.const {n : UInt64} (hop : a.code[pc]? = some (.const dst n)) (hd : dst < rs.length) :
    (frameAt a pc rs).Leads e (frameAt a (pc + 1) (rs.set dst (.scalar n))) e := by
  refine .step hop trivial ?_
  rw [exec, run_writeNext (by simpa [frameAt] using hd), put_frameAt]

theorem Leads.binary {op : Operator} {bits : Nat} {lhs rhs : Reg} {x y n : UInt64}
    (hop : a.code[pc]? = some (.binary dst op bits lhs rhs)) (hx : rs[lhs]? = some (.scalar x))
    (hy : rs[rhs]? = some (.scalar y)) (hn : op.apply x y bits = .ok n) (hd : dst < rs.length) :
    (frameAt a pc rs).Leads e (frameAt a (pc + 1) (rs.set dst (.scalar n))) e := by
  have hc : op.onCompiled bits (.scalar x) (.scalar y) = .ok (.scalar n) := by
    rw [Operator.onCompiled, hn]
    rfl
  refine .step hop trivial ?_
  rw [exec, run_read (reads_frameAt.2 hx), run_read (reads_frameAt.2 hy), hc, Engine.run_ofRuntime_ok,
    run_writeNext (by simpa [frameAt] using hd), put_frameAt]

theorem Leads.switchTag {subject : Reg} {table : List Nat} {default target : Nat} {tag : UInt8}
    (hop : a.code[pc]? = some (.switchTag subject table default)) (hc : rs[subject]? = some c)
    (htag : c.tag? = some tag) (htarget : table[tag.toNat]? = some target) :
    (frameAt a pc rs).Leads e (frameAt a target rs) e := by
  refine .step hop trivial ?_
  rw [exec, run_read (reads_frameAt.2 hc), htag, Option.bind_some, htarget]
  rfl

theorem Leads.switchScalar {subject : Reg} {cases' : List (UInt64 × Nat)} {default target : Nat} {n : UInt64}
    (hop : a.code[pc]? = some (.switchScalar subject cases' default))
    (hn : rs[subject]? = some (.scalar n))
    (htarget : ((cases'.find? (·.1 == n)).map Prod.snd).getD default = target) :
    (frameAt a pc rs).Leads e (frameAt a target rs) e := by
  refine .step hop trivial ?_
  rw [exec, run_read (reads_frameAt.2 hn), ← htarget]
  rfl

theorem Leads.construct {tag : UInt8} {shape : Shape}
    (hop : a.code[pc]? = some (.construct dst tag shape args))
    (hargs : List.Forall₂ (fun r c => rs[r]? = some c) args cs) (hc : shape.build tag cs = .ok c)
    (hd : dst < rs.length) :
    (frameAt a pc rs).Leads e (frameAt a (pc + 1) (rs.set dst c)) e := by
  refine .step hop trivial ?_
  rw [exec, run_readAll (hargs.imp fun r c => reads_frameAt.2), hc, Engine.run_ofRuntime_ok,
    run_writeNext (by simpa [frameAt] using hd), put_frameAt]

theorem Evaluates.ret {src : Reg} (hop : a.code[pc]? = some (.ret src)) (hc : rs[src]? = some c) :
    (frameAt a pc rs).Evaluates e c e := by
  have hcode : (frameAt a pc rs).function.code[(frameAt a pc rs).pc]? = some (.ret src) := hop
  refine ⟨1, ?_⟩
  rw [evaluate_step (by rw [hcode]; nofun) (by rw [hcode]; nofun), step_eq_exec hcode, exec, bind_assoc,
    run_read (reads_frameAt.2 hc)]
  rfl

/-! ### Calls -/

/-- The value of a callee is stored, and the function goes on behind the call. -/
theorem Evaluates.store (hd : dst < rs.length) (hc : (start b cs).Evaluates e c e₁)
    (h : (frameAt a (pc + 1) (rs.set dst c)).Evaluates e₁ c' e') : ∃ fuel, e.run
      (evaluate noHost fuel (start b cs) >>= storeAndEvaluate noHost fuel (frameAt a pc rs) dst) =
        .ok (.ok c', e') := by
  obtain ⟨n, hc⟩ := hc
  obtain ⟨n', h⟩ := h
  refine ⟨max n n', Engine.run_bind_eq_ok.2 (.inl ⟨c, e₁, ?_, ?_⟩)⟩
  · rw [evaluate_within _ (Nat.le_max_left n n') e (settles_of_run hc), hc]
  · have hd : (frameAt a pc rs).base + dst < (frameAt a pc rs).registers.size := by
      unfold frameAt
      simpa using hd
    rw [storeAndEvaluate, run_write hd, put_frameAt,
      evaluate_within _ (Nat.le_max_right n n') e₁ (settles_of_run h), h]

theorem Leads.callSelf (hop : a.code[pc]? = some (.callSelf dst args))
    (hargs : List.Forall₂ (fun r c => rs[r]? = some c) args cs) (hd : dst < rs.length)
    (hc : (start a cs).Evaluates e c e₁) :
    (frameAt a pc rs).Leads e (frameAt a (pc + 1) (rs.set dst c)) e₁ := by
  intro c' e' h
  obtain ⟨fuel, hrun⟩ := Evaluates.store hd hc h
  refine ⟨fuel + 1, ?_⟩
  rw [evaluate_callSelf (m := frameAt a pc rs) hop,
    run_readAll (hargs.imp fun r c => reads_frameAt.2)]
  exact hrun

/-- A call of another specialisation leads to the instruction behind it. -/
theorem Leads.call {site : Nat} {callee : Signature} (hop : a.code[pc]? = some (.call dst site args))
    (hsite : a.callSites[site]? = some callee)
    (hbind : e.update (Update.bindSite a.signature site callee) = (.ok b, e₁))
    (hargs : List.Forall₂ (fun r c => rs[r]? = some c) args cs) (hd : dst < rs.length)
    (hc : (start b cs).Evaluates e₁ c e₂) :
    (frameAt a pc rs).Leads e (frameAt a (pc + 1) (rs.set dst c)) e₂ := by
  intro c' e' h
  obtain ⟨fuel, hrun⟩ := Evaluates.store hd hc h
  refine ⟨fuel + 1, ?_⟩
  rw [evaluate_call (m := frameAt a pc rs) hop hsite]
  refine Engine.run_bind_eq_ok.2 (.inl ⟨b, e₁, congrArg Except.ok hbind, ?_⟩)
  rw [run_readAll (hargs.imp fun r c => reads_frameAt.2)]
  exact hrun

end Machine

end ShapeCompiler
