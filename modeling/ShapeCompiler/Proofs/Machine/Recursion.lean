import ShapeCompiler.Proofs.Machine.Registers

/-!
The machine computes what recursive evaluation computes.

Recursive evaluation runs every callee on a machine of its own, which has no callers. Such a machine
goes on in the same way on top of any callers (`Machine.exec_onto`). Main statements: what a function
evaluates to is what the machine returns to its caller (`Machine.run_onto`), and the machine ends only
where evaluation does (`Machine.evaluate_settles`), so both have the same results
(`Artifact.execute_iff_evaluate`).
-/

namespace ShapeCompiler

variable {α β : Type}

/-! ### Recursive evaluation -/

namespace Machine

variable (host : HostSite → List Compiled → Run Compiled)

/-- Runs a function to its return. A specialisation that it calls is run in registers of its own, and
its value is stored in the register for it. -/
def evaluate : Nat → Machine → Run Compiled
  | 0, _ => Run.halt .outOfFuel
  | fuel + 1, m =>
    match m.function.code[m.pc]? with
    | some (.call dst site args) =>
      match m.function.callSites[site]? with
      | none => Run.halt .outOfRange
      | some callee => do
        let a ← Update.bindSite m.function.signature site callee
        let cs ← m.readAll args
        let c ← evaluate fuel (start a cs)
        let m ← m.write dst c
        evaluate fuel m.advance
    | some (.callSelf dst args) => do
      let cs ← m.readAll args
      let c ← evaluate fuel (start m.function cs)
      let m ← m.write dst c
      evaluate fuel m.advance
    | _ => do
      match ← m.step host with
      | .done c => pure c
      | .next m => evaluate fuel m

end Machine

def Artifact.evaluate (host : HostSite → List ShapeCompiler.Compiled → Run ShapeCompiler.Compiled)
    (fuel : Nat) (a : Artifact) (args : List ShapeCompiler.Compiled) : Run ShapeCompiler.Compiled :=
  if args.length ≠ a.signature.args.length then
    throw (.runtime (.arityMismatch a.signature.function a.signature.args.length args.length))
  else Machine.evaluate host fuel (Machine.start a args)

/-! ### Machines on top of callers -/

namespace Machine

/-- The machine runs a function without callers. -/
structure Alone (m : Machine) : Prop where
  base : m.base = 0
  frames : m.frames = []

/-- The machine with its registers behind those of some callers. -/
def onto (m : Machine) (below : Array Compiled) (frames : List Frame) : Machine :=
  { m with base := below.size + m.base, registers := below ++ m.registers, frames }

/-- Hands a value to the caller, if there is one. -/
def resume (below : Array Compiled) (frames : List Frame) (c : Compiled) : Run Step :=
  match frames with
  | [] => pure (.done c)
  | f :: rest => do
    let caller ← write ⟨f.function, f.pc, f.base, below, rest⟩ f.dst c
    pure (.next caller)

end Machine

/-- What a step leads to, on top of some callers. -/
def Step.onto (below : Array Compiled) (frames : List Frame) : Step → Step
  | .next m => .next (m.onto below frames)
  | .done c => .done c

namespace Machine

variable {m : Machine} {e e' : Engine} {below : Array Compiled} {frames : List Frame}
  {host : HostSite → List Compiled → Run Compiled}

theorem start_alone (a : Artifact) (cs : List Compiled) : (start a cs).Alone := ⟨rfl, rfl⟩

theorem onto_start (a : Artifact) (cs : List Compiled) : (start a cs).onto #[] [] = start a cs := by
  unfold start onto
  simp

theorem read_onto (r : Reg) : (m.onto below frames).read r = m.read r := by
  unfold read onto
  simp only [Nat.add_assoc, Array.getElem?_append_right (Nat.le_add_right _ _),
    Nat.add_sub_cancel_left]

theorem readAll_onto (rs : List Reg) : (m.onto below frames).readAll rs = m.readAll rs := by
  induction rs with
  | nil => rfl
  | cons r rest ih => rw [readAll, readAll, read_onto, ih]

theorem write_onto (r : Reg) (c : Compiled) :
    (m.onto below frames).write r c = (·.onto below frames) <$> m.write r c := by
  unfold write onto
  simp only [Nat.add_assoc, Array.size_append, Nat.add_lt_add_iff_left]
  split
  · rw [map_pure, Array.set_append_right _ (Nat.le_add_right _ _)]
    simp only [Nat.add_sub_cancel_left]
  · rfl

theorem writeNext_onto (r : Reg) (c : Compiled) :
    (m.onto below frames).writeNext r c = Step.onto below frames <$> m.writeNext r c := by
  unfold writeNext
  rw [write_onto, bind_map_left, map_bind]
  rfl

theorem unpack_onto (subject : Reg) (fields : List (Reg × FieldAccess)) (m : Machine) :
    unpack subject (m.onto below frames) fields = (·.onto below frames) <$> unpack subject m fields := by
  induction fields generalizing m with
  | nil => rfl
  | cons p rest ih => simp only [unpack, read_onto, write_onto, map_bind, bind_map_left, ih]

end Machine

/-- The instruction goes on in the frame of the running function. -/
def Op.Stays : Op → Prop
  | .call .. | .callSelf .. | .ret _ => False
  | _ => True

namespace Machine

variable {m : Machine} {e e' : Engine} {below : Array Compiled} {frames : List Frame}
  {host : HostSite → List Compiled → Run Compiled}

/-- An instruction that stays in its frame is the same on top of any callers. -/
theorem exec_onto {op : Op} (h : op.Stays) :
    (m.onto below frames).exec host op = Step.onto below frames <$> m.exec host op := by
  cases op with
  | call dst site args => exact h.elim
  | callSelf dst args => exact h.elim
  | ret src => exact h.elim
  | callHost dst site args =>
    simp only [exec, readAll_onto, map_bind]
    refine congrArg _ (funext fun cs => ?_)
    have hsites : (m.onto below frames).function.hostSites[site]? = m.function.hostSites[site]? := rfl
    cases hs : m.function.hostSites[site]? with
    | none =>
      simp only [hsites, hs]
      rfl
    | some s => simp only [hsites, hs, writeNext_onto, map_bind]
  | unpack subject fields =>
    simp only [exec, unpack_onto, map_bind, bind_map_left]
    rfl
  | _ =>
    simp only [exec, read_onto, readAll_onto, writeNext_onto, map_bind, map_pure] <;> rfl

theorem leave_onto (h : m.Alone) (c : Compiled) :
    (m.onto below frames).leave c = resume below frames c := by
  have hshrink : (below ++ m.registers).shrink (below.size + m.base) = below := by
    rw [h.base]
    simp
  unfold leave resume onto
  rewrite [hshrink]
  rfl

/-- A callee that the machine enters, on top of the machine. -/
theorem enter_onto (h : m.Alone) (a : Artifact) (dst : Reg) (cs : List Compiled) :
    (m.onto below frames).enter a dst cs =
      (start a cs).onto (below ++ m.registers) (⟨m.function, m.pc + 1, below.size, dst⟩ :: frames) := by
  unfold enter start onto
  rw [h.base]
  rfl

/-- What a callee hands back is written to the register for it. -/
theorem resume_onto (h : m.Alone) (dst : Reg) (c : Compiled) :
    resume (below ++ m.registers) (⟨m.function, m.pc + 1, below.size, dst⟩ :: frames) c =
      (fun m' => Step.next (m'.advance.onto below frames)) <$> m.write dst c := by
  have hcaller : (⟨m.function, m.pc + 1, below.size, below ++ m.registers, frames⟩ : Machine) =
      m.advance.onto below frames := by
    unfold onto advance
    rw [h.base]
    rfl
  have hwrite : m.advance.write dst c = advance <$> m.write dst c := by
    unfold write
    show (if h : m.base + dst < m.registers.size then _ else _) = _
    split <;> rfl
  unfold resume
  simp only [hcaller, write_onto, hwrite, bind_pure_comp, Functor.map_map]

end Machine

/-! ### Instructions that stay in their frame -/

/-- Every answer of the run satisfies a condition. -/
def Run.Yields (x : Run α) (R : α → Prop) : Prop :=
  ∀ (e : Engine) a e', e.run x = .ok (.ok a, e') → R a

namespace Run.Yields

variable {R : α → Prop} {S : β → Prop} {x : Run α} {f : α → Run β}

theorem pure {a : α} (h : R a) : Yields (pure a) R := by
  intro e b e' hr
  cases hr
  exact h

theorem halt (why : Halt) : Yields (halt why) R := by
  intro e b e' hr
  cases hr

theorem bind (hx : Yields x R) (hf : ∀ a, R a → Yields (f a) S) : Yields (x >>= f) S := by
  intro e b e' hr
  rcases Engine.run_bind_eq_ok.1 hr with ⟨a, e₁, h₁, h₂⟩ | ⟨err, -, hb⟩
  · exact hf a (hx e a e₁ h₁) e₁ b e' h₂
  · cases hb

theorem any (x : Run α) : Yields x fun _ => True := fun _ _ _ _ => trivial

end Run.Yields

namespace Machine

/-- What a step leads to is in the same frame. -/
def StaysIn (m : Machine) (s : Step) : Prop := ∃ m', s = .next m' ∧ m.Continues 0 m'

variable {m : Machine} {host : HostSite → List Compiled → Run Compiled}

theorem write_yields (m : Machine) (r : Reg) (c : Compiled) : (m.write r c).Yields (m.Continues 0) := by
  unfold write
  split
  · rename_i hlt
    refine .pure ⟨rfl, rfl, rfl, by simp, fun i hi => ?_⟩
    exact Array.getElem?_set_ne hlt (by omega)
  · exact .halt _

theorem writeNext_yields (m : Machine) (r : Reg) (c : Compiled) : (m.writeNext r c).Yields m.StaysIn :=
  .bind (m.write_yields r c) fun _ h => .pure ⟨_, rfl, h.advance⟩

theorem unpack_yields (subject : Reg) (fields : List (Reg × FieldAccess)) (m : Machine) :
    (unpack subject m fields).Yields (m.Continues 0) := by
  induction fields generalizing m with
  | nil => exact .pure (.refl 0 m)
  | cons p rest ih =>
    refine .bind (.any _) fun s _ => .bind (.any _) fun c _ => .bind (m.write_yields p.1 c) fun m' h => ?_
    exact fun e a e' hr => h.trans (ih m' e a e' hr) (Nat.le_refl 0)

/-- An instruction that stays in its frame goes on there. -/
theorem exec_yields {op : Op} (h : op.Stays) : (m.exec host op).Yields m.StaysIn := by
  have stay : ∀ target, m.StaysIn (.next (m.goto target)) := fun target =>
    ⟨_, rfl, (Continues.refl 0 m).goto target⟩
  cases op with
  | const dst value => exact m.writeNext_yields dst _
  | move dst src => exact .bind (.any _) fun c _ => m.writeNext_yields dst c
  | incomplete dst => exact m.writeNext_yields dst _
  | binary dst op bits lhs rhs =>
    exact .bind (.any _) fun a _ => .bind (.any _) fun b _ => .bind (.any _) fun c _ =>
      m.writeNext_yields dst c
  | construct dst tag shape args =>
    exact .bind (.any _) fun cs _ => .bind (.any _) fun c _ => m.writeNext_yields dst c
  | switchTag subject table default => exact .bind (.any _) fun c _ => .pure (stay _)
  | switchScalar subject cases' default => exact .bind (.any _) fun c _ => .pure (stay _)
  | unpack subject fields =>
    exact .bind (unpack_yields subject fields m) fun m' h => .pure ⟨_, rfl, h.advance⟩
  | field dst subject access =>
    exact .bind (.any _) fun s _ => .bind (.any _) fun c _ => m.writeNext_yields dst c
  | call dst site args => exact h.elim
  | callSelf dst args => exact h.elim
  | callHost dst site args =>
    refine .bind (.any _) fun cs _ => ?_
    cases m.function.hostSites[site]? with
    | none => exact .halt _
    | some s => exact .bind (.any _) fun c _ => m.writeNext_yields dst c
  | jump target => exact .pure (stay target)
  | ret src => exact h.elim

theorem Continues.alone {m' : Machine} (h : m.Alone) (hm : m.Continues 0 m') : m'.Alone :=
  ⟨hm.base.trans h.base, hm.frames.trans h.frames⟩

end Machine

/-! ### Runs with enough fuel -/

/-- The run does not end because fuel is used up. -/
def Engine.Settles (e : Engine) (x : Run α) : Prop := e.run x ≠ .error .outOfFuel

namespace Engine

variable {e : Engine} {x : Run α} {f g : α → Run β}

/-- A sequence has enough fuel if its parts have. -/
theorem settles_bind : e.Settles (x >>= f) ↔
    e.Settles x ∧ ∀ a e', e.run x = .ok (.ok a, e') → e'.Settles (f a) := by
  unfold Settles
  rw [run_bind]
  cases hx : e.run x with
  | error why =>
    have hwhy : ∀ {γ : Type}, (Except.error why : Except Halt γ) ≠ .error .outOfFuel ↔ why ≠ .outOfFuel :=
      not_congr ⟨Except.error.inj, congrArg _⟩
    exact ⟨fun h => ⟨hwhy.2 (hwhy.1 h), nofun⟩, fun h => hwhy.2 (hwhy.1 h.1)⟩
  | ok p =>
    obtain ⟨y, e₁⟩ := p
    cases y with
    | error err => exact ⟨fun h => ⟨nofun, nofun⟩, fun _ => nofun⟩
    | ok a => exact ⟨fun h => ⟨nofun, fun b e' hb => by cases hb; exact h⟩, fun h => h.2 a e₁ rfl⟩

/-- Sequences with the same first part are the same where that goes on in the same way. -/
theorem run_bind_congr (h : ∀ a e', e.run x = .ok (.ok a, e') → e'.run (f a) = e'.run (g a)) :
    e.run (x >>= f) = e.run (x >>= g) := by
  rw [run_bind, run_bind]
  cases hx : e.run x with
  | error why => rfl
  | ok p =>
    obtain ⟨y, e₁⟩ := p
    cases y with
    | error err => rfl
    | ok a => exact h a e₁ hx

/-- A run has one answer at most, so a number found for its answer is one for all answers. -/
theorem exists_of_run {P : α → Engine → Nat → Prop}
    (h : ∀ a e', e.run x = .ok (.ok a, e') → ∃ j, P a e' j) :
    ∃ j, ∀ a e', e.run x = .ok (.ok a, e') → P a e' j := by
  by_cases hx : ∃ a e', e.run x = .ok (.ok a, e')
  · obtain ⟨a, e', hx⟩ := hx
    obtain ⟨j, hj⟩ := h a e' hx
    refine ⟨j, fun a' e'' hx' => ?_⟩
    cases hx.symm.trans hx'
    exact hj
  · exact ⟨0, fun a e' hx' => absurd ⟨a, e', hx'⟩ hx⟩

end Engine

namespace Machine

variable (host : HostSite → List Compiled → Run Compiled)

/-- Goes on with what a step led to. -/
def continueWith (fuel : Nat) : Step → Run Compiled
  | .done c => pure c
  | .next m => run host fuel m

/-- Goes on with the value of a callee. -/
def storeAndEvaluate (fuel : Nat) (m : Machine) (dst : Reg) (c : Compiled) : Run Compiled := do
  let m ← m.write dst c
  evaluate host fuel m.advance

variable {host} {m : Machine} {e : Engine} {below : Array Compiled} {frames : List Frame}
  {fuel fuel' : Nat}

theorem run_succ (fuel : Nat) (m : Machine) :
    run host (fuel + 1) m = m.step host >>= continueWith host fuel := by
  rw [run]
  refine congrArg _ (funext fun s => ?_)
  cases s <;> rfl

theorem evaluate_call {dst : Reg} {site : Nat} {args : List Reg} {callee : Signature}
    (hop : m.function.code[m.pc]? = some (.call dst site args))
    (hsite : m.function.callSites[site]? = some callee) :
    evaluate host (fuel + 1) m = (do
      let a ← Update.bindSite m.function.signature site callee
      let cs ← m.readAll args
      let c ← evaluate host fuel (start a cs)
      storeAndEvaluate host fuel m dst c) := by
  rw [evaluate, hop]
  simp only [hsite]
  rfl

theorem evaluate_callSelf {dst : Reg} {args : List Reg}
    (hop : m.function.code[m.pc]? = some (.callSelf dst args)) :
    evaluate host (fuel + 1) m = (do
      let cs ← m.readAll args
      let c ← evaluate host fuel (start m.function cs)
      storeAndEvaluate host fuel m dst c) := by
  rw [evaluate, hop]
  rfl

/-- An instruction that calls no specialisation is a step of the machine. -/
theorem evaluate_step (hcall : ∀ dst site args, m.function.code[m.pc]? ≠ some (.call dst site args))
    (hself : ∀ dst args, m.function.code[m.pc]? ≠ some (.callSelf dst args)) :
    evaluate host (fuel + 1) m = (do
      match ← m.step host with
      | .done c => pure c
      | .next m => evaluate host fuel m) := by
  rw [evaluate]
  split
  · rename_i dst site args hop
    exact absurd hop (hcall dst site args)
  · rename_i dst args hop
    exact absurd hop (hself dst args)
  · rfl

/-! ### Evaluation is what the machine does -/

/-- On top of any callers, the machine of a function gets to where the value of the function is
handed back. -/
def Carries (host : HostSite → List Compiled → Run Compiled) (e : Engine) (m : Machine) (x : Run Compiled) :
    Prop :=
  ∀ (below : Array Compiled) (frames : List Frame), ∃ j, ∀ k,
    e.run (run host (k + j) (m.onto below frames)) =
      e.run (x >>= fun c => resume below frames c >>= continueWith host k)

theorem step_eq_exec {op : Op} (hop : m.function.code[m.pc]? = some op) : m.step host = m.exec host op := by
  unfold step
  rw [hop]

theorem step_eq_throw (hop : m.function.code[m.pc]? = none) :
    m.step host = throw (.runtime (.missingReturn m.function.signature.function)) := by
  unfold step
  rw [hop]

/-- A machine that ends at its next instruction has handed back what it evaluates to. -/
theorem carries_of_step {x : Run Compiled}
    (h : ∀ below frames k, e.run ((m.onto below frames).step host >>= continueWith host k) =
      e.run (x >>= fun c => resume below frames c >>= continueWith host k)) : Carries host e m x :=
  fun below frames => ⟨1, fun k => by rw [run_succ, h]⟩

/-- Behind the code there is an error, with or without callers. -/
theorem carries_missing (hop : m.function.code[m.pc]? = none) :
    Carries host e m (evaluate host (fuel + 1) m) := by
  refine carries_of_step fun below frames k => ?_
  rw [evaluate_step (by rw [hop]; nofun) (by rw [hop]; nofun), step_eq_throw hop,
    step_eq_throw (m := m.onto below frames) hop]
  rfl

theorem carries_ret {src : Reg} (h : m.Alone) (hop : m.function.code[m.pc]? = some (.ret src)) :
    Carries host e m (evaluate host (fuel + 1) m) := by
  refine carries_of_step fun below frames k => ?_
  have hleave : ∀ c, m.leave c = pure (.done c) := fun c => by
    unfold leave
    rw [h.frames]
  rw [step_eq_exec (m := m.onto below frames) hop, exec, read_onto,
    evaluate_step (by rw [hop]; nofun) (by rw [hop]; nofun), step_eq_exec hop, exec]
  simp only [bind_assoc, leave_onto h, hleave]
  rfl

/-- A step in the frame of the function, with or without callers. -/
theorem evaluate_stays {op : Op} (hop : m.function.code[m.pc]? = some op) (hstays : op.Stays) :
    evaluate host (fuel + 1) m = (do
      match ← m.exec host op with
      | .done c => pure c
      | .next m => evaluate host fuel m) := by
  rw [← step_eq_exec hop]
  refine evaluate_step ?_ ?_ <;> rw [hop]
  · rintro _ _ _ ⟨⟩
    exact hstays
  · rintro _ _ ⟨⟩
    exact hstays

theorem exec_call_onto {dst : Reg} {site : Nat} {args : List Reg} {callee : Signature}
    (hsite : m.function.callSites[site]? = some callee) :
    (m.onto below frames).exec host (.call dst site args) = (do
      let a ← Update.bindSite m.function.signature site callee
      let cs ← m.readAll args
      pure (.next ((m.onto below frames).enter a dst cs))) := by
  rw [exec, readAll_onto]
  show (match m.function.callSites[site]? with | none => _ | some _ => _) = _
  rw [hsite]
  rfl

theorem exec_call_missing {dst : Reg} {site : Nat} {args : List Reg}
    (hsite : m.function.callSites[site]? = none) :
    m.exec host (.call dst site args) = Run.halt .outOfRange := by
  rw [exec]
  simp only [hsite]

/-- On top of any callers, a callee hands its value back, and its caller goes on with it. -/
theorem carries_enter {a : Artifact} {dst : Reg} {cs : List Compiled} (h : m.Alone)
    (hcallee : Carries host e (start a cs) (evaluate host fuel (start a cs)))
    (hrest : ∀ c e₁, e.run (evaluate host fuel (start a cs)) = .ok (.ok c, e₁) →
      ∀ m' e₂, e₁.run (m.write dst c) = .ok (.ok m', e₂) →
        Carries host e₂ m'.advance (evaluate host fuel m'.advance))
    (below : Array Compiled) (frames : List Frame) :
    ∃ j, ∀ k, e.run (run host (k + j) ((m.onto below frames).enter a dst cs)) =
      e.run ((evaluate host fuel (start a cs) >>= storeAndEvaluate host fuel m dst) >>=
        fun c => resume below frames c >>= continueWith host k) := by
  obtain ⟨j₁, hj₁⟩ := hcallee (below ++ m.registers) (⟨m.function, m.pc + 1, below.size, dst⟩ :: frames)
  obtain ⟨j₂, hj₂⟩ := Engine.exists_of_run fun c e₁ hc => Engine.exists_of_run fun m' e₂ hm =>
    hrest c e₁ hc m' e₂ hm below frames
  refine ⟨j₂ + j₁, fun k => ?_⟩
  rw [← Nat.add_assoc, enter_onto h, hj₁, bind_assoc]
  refine Engine.run_bind_congr fun c e₁ hc => ?_
  unfold storeAndEvaluate
  rw [resume_onto h, bind_map_left, bind_assoc]
  exact Engine.run_bind_congr fun m' e₂ hm => hj₂ c e₁ hc m' e₂ hm k

section Carries

variable (h : m.Alone)
  (ih : ∀ {m : Machine} {e : Engine}, m.Alone → e.Settles (evaluate host fuel m) →
    Carries host e m (evaluate host fuel m))
include h ih

theorem carries_stays {op : Op} (hop : m.function.code[m.pc]? = some op) (hstays : op.Stays)
    (hs : e.Settles (evaluate host (fuel + 1) m)) : Carries host e m (evaluate host (fuel + 1) m) := by
  rw [evaluate_stays hop hstays] at hs ⊢
  intro below frames
  obtain ⟨j, hj⟩ := Engine.exists_of_run (e := e) (x := m.exec host op)
    (P := fun s e' j => ∀ m', s = .next m' → ∀ k,
      e'.run (run host (k + j) (m'.onto below frames)) =
        e'.run (evaluate host fuel m' >>= fun c => resume below frames c >>= continueWith host k))
    fun s e' hrun => by
      obtain ⟨m', rfl, hm'⟩ := exec_yields hstays e s e' hrun
      obtain ⟨j, hj⟩ := ih (hm'.alone h) ((Engine.settles_bind.1 hs).2 _ e' hrun) below frames
      exact ⟨j, fun m'' hm'' => by cases hm''; exact hj⟩
  refine ⟨j + 1, fun k => ?_⟩
  rw [← Nat.add_assoc, run_succ, step_eq_exec (m := m.onto below frames) hop, exec_onto hstays,
    bind_map_left, bind_assoc]
  refine Engine.run_bind_congr fun s e' hrun => ?_
  obtain ⟨m', rfl, -⟩ := exec_yields hstays e s e' hrun
  exact hj _ e' hrun m' rfl k

/-- A call evaluates the callee and then the rest, both of which hand a value back. -/
theorem carries_callee (a : Artifact) (dst : Reg) (cs : List Compiled)
    (hs : e.Settles (evaluate host fuel (start a cs) >>= storeAndEvaluate host fuel m dst))
    (below : Array Compiled) (frames : List Frame) :
    ∃ j, ∀ k, e.run (run host (k + j) ((m.onto below frames).enter a dst cs)) =
      e.run ((evaluate host fuel (start a cs) >>= storeAndEvaluate host fuel m dst) >>=
        fun c => resume below frames c >>= continueWith host k) := by
  obtain ⟨hcallee, hrest⟩ := Engine.settles_bind.1 hs
  refine carries_enter h (ih (start_alone a cs) hcallee) (fun c e₁ hc m' e₂ hm => ?_) below frames
  have hm' : m'.Alone := (write_yields m dst c e₁ m' e₂ hm).alone h
  exact ih ⟨hm'.base, hm'.frames⟩ ((Engine.settles_bind.1 (hrest c e₁ hc)).2 m' e₂ hm)

theorem carries_call {dst : Reg} {site : Nat} {args : List Reg}
    (hop : m.function.code[m.pc]? = some (.call dst site args))
    (hs : e.Settles (evaluate host (fuel + 1) m)) : Carries host e m (evaluate host (fuel + 1) m) := by
  cases hsite : m.function.callSites[site]? with
  | none =>
    refine carries_of_step fun below frames k => ?_
    rw [step_eq_exec (m := m.onto below frames) hop,
      exec_call_missing (m := m.onto below frames) hsite, evaluate, hop]
    simp only [hsite]
    rfl
  | some callee =>
    rw [evaluate_call hop hsite] at hs ⊢
    obtain ⟨-, hs⟩ := Engine.settles_bind.1 hs
    intro below frames
    obtain ⟨j, hj⟩ := Engine.exists_of_run fun a e₁ ha => Engine.exists_of_run fun cs e₂ hcs =>
      carries_callee h ih a dst cs ((Engine.settles_bind.1 (hs a e₁ ha)).2 cs e₂ hcs) below frames
    refine ⟨j + 1, fun k => ?_⟩
    rw [← Nat.add_assoc, run_succ, step_eq_exec (m := m.onto below frames) hop, exec_call_onto hsite,
      bind_assoc, bind_assoc]
    refine Engine.run_bind_congr fun a e₁ ha => ?_
    rw [bind_assoc, bind_assoc]
    refine Engine.run_bind_congr fun cs e₂ hcs => ?_
    rw [pure_bind]
    exact hj a e₁ ha cs e₂ hcs k

theorem carries_callSelf {dst : Reg} {args : List Reg}
    (hop : m.function.code[m.pc]? = some (.callSelf dst args))
    (hs : e.Settles (evaluate host (fuel + 1) m)) : Carries host e m (evaluate host (fuel + 1) m) := by
  rw [evaluate_callSelf hop] at hs ⊢
  obtain ⟨-, hs⟩ := Engine.settles_bind.1 hs
  intro below frames
  obtain ⟨j, hj⟩ := Engine.exists_of_run fun cs e₁ hcs =>
    carries_callee h ih m.function dst cs (hs cs e₁ hcs) below frames
  refine ⟨j + 1, fun k => ?_⟩
  rw [← Nat.add_assoc, run_succ, step_eq_exec (m := m.onto below frames) hop, exec, readAll_onto,
    bind_assoc, bind_assoc]
  refine Engine.run_bind_congr fun cs e₁ hcs => ?_
  rw [pure_bind]
  exact hj cs e₁ hcs k

end Carries

/-- What a function evaluates to is what its machine hands back to its caller. -/
theorem evaluate_carries (h : m.Alone) (hs : e.Settles (evaluate host fuel m)) :
    Carries host e m (evaluate host fuel m) := by
  induction fuel generalizing m e with
  | zero => exact absurd rfl hs
  | succ fuel ih =>
    cases hop : m.function.code[m.pc]? with
    | none => exact carries_missing hop
    | some op =>
      by_cases hstays : op.Stays
      · exact carries_stays h ih hop hstays hs
      · cases op with
        | call dst site args => exact carries_call h ih hop hs
        | callSelf dst args => exact carries_callSelf h ih hop hs
        | ret src => exact carries_ret h hop
        | _ => exact absurd trivial hstays

end Machine

/-! ### More fuel -/

/-- The second run does what the first one does, unless that runs out of fuel. -/
def Run.Within (x y : Run α) : Prop := ∀ e : Engine, e.Settles x → e.run y = e.run x

namespace Run.Within

variable {x y : Run α} {f g : α → Run β}

theorem refl (x : Run α) : Within x x := fun _ _ => rfl

theorem bind (hx : Within x y) (hf : ∀ a, Within (f a) (g a)) : Within (x >>= f) (y >>= g) := by
  intro e hs
  obtain ⟨hsx, hsf⟩ := Engine.settles_bind.1 hs
  rw [Engine.run_bind, hx e hsx, ← Engine.run_bind]
  exact Engine.run_bind_congr fun a e' ha => hf a e' (hsf a e' ha)

theorem after (x : Run α) (hf : ∀ a, Within (f a) (g a)) : Within (x >>= f) (x >>= g) := (refl x).bind hf

theorem settles {e : Engine} (h : Within x y) (hs : e.Settles x) : e.Settles y := by
  unfold Engine.Settles
  rw [h e hs]
  exact hs

end Run.Within

namespace Machine

variable {host : HostSite → List Compiled → Run Compiled} {m : Machine} {e : Engine}
  {below : Array Compiled} {frames : List Frame} {fuel fuel' : Nat}

theorem run_within (m : Machine) (hle : fuel ≤ fuel') :
    (run host fuel m).Within (run host fuel' m) := by
  induction fuel generalizing m fuel' with
  | zero => exact fun e hs => absurd rfl hs
  | succ fuel ih =>
    obtain ⟨k, rfl⟩ := Nat.exists_eq_add_of_lt (Nat.lt_of_succ_le hle)
    rw [run_succ, run_succ]
    refine .after _ fun s => ?_
    cases s with
    | done c => exact .refl _
    | next m' => exact ih m' (Nat.le_add_right fuel k)

theorem evaluate_within (m : Machine) (hle : fuel ≤ fuel') :
    (evaluate host fuel m).Within (evaluate host fuel' m) := by
  induction fuel generalizing m fuel' with
  | zero => exact fun e hs => absurd rfl hs
  | succ fuel ih =>
    obtain ⟨k, rfl⟩ := Nat.exists_eq_add_of_lt (Nat.lt_of_succ_le hle)
    have ih := fun m => ih m (Nat.le_add_right fuel k)
    have hstore : ∀ dst c, (storeAndEvaluate host fuel m dst c).Within
        (storeAndEvaluate host (fuel + k) m dst c) := fun dst c => .after _ fun m' => ih m'.advance
    have hstep : (do
        match ← m.step host with
        | .done c => pure c
        | .next m => evaluate host fuel m : Run Compiled).Within (do
        match ← m.step host with
        | .done c => pure c
        | .next m => evaluate host (fuel + k) m) := by
      refine .after _ fun s => ?_
      cases s with
      | done c => exact .refl _
      | next m' => exact ih m'
    rw [evaluate, evaluate]
    split
    · split
      · exact .refl _
      · exact .after _ fun a => .after _ fun cs => (ih (start a cs)).bind (hstore _)
    · exact .after _ fun cs => (ih (start m.function cs)).bind (hstore _)
    · exact hstep

/-! ### Evaluation ends where the machine does -/

/-- Some fuel is enough to evaluate the function. -/
def Ends (host : HostSite → List Compiled → Run Compiled) (e : Engine) (m : Machine) : Prop :=
  ∃ g, e.Settles (evaluate host g m)

section Ends

variable (h : m.Alone)
  (ih : ∀ {m : Machine} {e : Engine} {below : Array Compiled} {frames : List Frame}, m.Alone →
    e.Settles (run host fuel (m.onto below frames)) → Ends host e m)
include h ih

theorem ends_stays {op : Op} (hop : m.function.code[m.pc]? = some op) (hstays : op.Stays)
    (hs : e.Settles (run host (fuel + 1) (m.onto below frames))) : Ends host e m := by
  rw [run_succ, step_eq_exec (m := m.onto below frames) hop, exec_onto hstays, bind_map_left] at hs
  obtain ⟨hexec, hs⟩ := Engine.settles_bind.1 hs
  obtain ⟨g, hg⟩ := Engine.exists_of_run (e := e) (x := m.exec host op)
    (P := fun s e' g => ∀ m', s = .next m' → e'.Settles (evaluate host g m')) fun s e' hrun => by
      obtain ⟨m', rfl, hm'⟩ := exec_yields hstays e s e' hrun
      obtain ⟨g, hg⟩ := ih (hm'.alone h) (hs _ e' hrun)
      exact ⟨g, fun m'' hm'' => by cases hm''; exact hg⟩
  refine ⟨g + 1, ?_⟩
  rw [evaluate_stays hop hstays]
  refine Engine.settles_bind.2 ⟨hexec, fun s e' hrun => ?_⟩
  obtain ⟨m', rfl, -⟩ := exec_yields hstays e s e' hrun
  exact hg _ e' hrun m' rfl

theorem ends_callee (a : Artifact) (dst : Reg) (cs : List Compiled)
    (hs : e.Settles (run host fuel ((m.onto below frames).enter a dst cs))) :
    ∃ g, e.Settles (evaluate host g (start a cs) >>= storeAndEvaluate host g m dst) := by
  rw [enter_onto h] at hs
  obtain ⟨g₁, hg₁⟩ := ih (start_alone a cs) hs
  obtain ⟨j, hj⟩ := evaluate_carries (start_alone a cs) hg₁ (below ++ m.registers)
    (⟨m.function, m.pc + 1, below.size, dst⟩ :: frames)
  -- behind the callee there is fuel left, as much as there was before
  have hback : e.Settles (evaluate host g₁ (start a cs) >>= fun c =>
      resume (below ++ m.registers) (⟨m.function, m.pc + 1, below.size, dst⟩ :: frames) c >>=
        continueWith host fuel) := by
    unfold Engine.Settles
    rw [← hj]
    exact (run_within _ (Nat.le_add_right fuel j)).settles hs
  simp only [resume_onto h, bind_map_left] at hback
  obtain ⟨-, hback⟩ := Engine.settles_bind.1 hback
  have hrest : ∀ c e₁, e.run (evaluate host g₁ (start a cs)) = .ok (.ok c, e₁) → ∀ m' e₂,
      e₁.run (m.write dst c) = .ok (.ok m', e₂) → Ends host e₂ m'.advance := by
    intro c e₁ hc m' e₂ hm
    have hm' : m'.Alone := (write_yields m dst c e₁ m' e₂ hm).alone h
    exact ih ⟨hm'.base, hm'.frames⟩ ((Engine.settles_bind.1 (hback c e₁ hc)).2 m' e₂ hm)
  obtain ⟨g₂, hg₂⟩ := Engine.exists_of_run fun c e₁ hc => Engine.exists_of_run (hrest c e₁ hc)
  have hwithin : (evaluate host g₁ (start a cs)).Within (evaluate host (max g₁ g₂) (start a cs)) :=
    evaluate_within _ (Nat.le_max_left g₁ g₂)
  refine ⟨max g₁ g₂, Engine.settles_bind.2 ⟨hwithin.settles hg₁, fun c e₁ hc => ?_⟩⟩
  rw [hwithin e hg₁] at hc
  refine Engine.settles_bind.2 ⟨(Engine.settles_bind.1 (hback c e₁ hc)).1, fun m' e₂ hm => ?_⟩
  exact (evaluate_within _ (Nat.le_max_right g₁ g₂)).settles (hg₂ c e₁ hc m' e₂ hm)

theorem ends_call {dst : Reg} {site : Nat} {args : List Reg}
    (hop : m.function.code[m.pc]? = some (.call dst site args))
    (hs : e.Settles (run host (fuel + 1) (m.onto below frames))) : Ends host e m := by
  cases hsite : m.function.callSites[site]? with
  | none =>
    refine ⟨1, ?_⟩
    rw [evaluate, hop]
    simp only [hsite]
    exact nofun
  | some callee =>
    rw [run_succ, step_eq_exec (m := m.onto below frames) hop, exec_call_onto hsite, bind_assoc] at hs
    simp only [bind_assoc, pure_bind] at hs
    obtain ⟨hbind, hs⟩ := Engine.settles_bind.1 hs
    obtain ⟨g, hg⟩ := Engine.exists_of_run fun a e₁ ha => Engine.exists_of_run fun cs e₂ hcs =>
      ends_callee h ih a dst cs ((Engine.settles_bind.1 (hs a e₁ ha)).2 cs e₂ hcs)
    refine ⟨g + 1, ?_⟩
    rw [evaluate_call hop hsite]
    refine Engine.settles_bind.2 ⟨hbind, fun a e₁ ha => ?_⟩
    exact Engine.settles_bind.2 ⟨(Engine.settles_bind.1 (hs a e₁ ha)).1, fun cs e₂ hcs => hg a e₁ ha cs e₂ hcs⟩

theorem ends_callSelf {dst : Reg} {args : List Reg}
    (hop : m.function.code[m.pc]? = some (.callSelf dst args))
    (hs : e.Settles (run host (fuel + 1) (m.onto below frames))) : Ends host e m := by
  rw [run_succ, step_eq_exec (m := m.onto below frames) hop, exec, readAll_onto] at hs
  simp only [bind_assoc, pure_bind] at hs
  obtain ⟨hread, hs⟩ := Engine.settles_bind.1 hs
  obtain ⟨g, hg⟩ := Engine.exists_of_run fun cs e₁ hcs =>
    ends_callee h ih m.function dst cs (hs cs e₁ hcs)
  refine ⟨g + 1, ?_⟩
  rw [evaluate_callSelf hop]
  exact Engine.settles_bind.2 ⟨hread, fun cs e₁ hcs => hg cs e₁ hcs⟩

end Ends

theorem ends_missing (hop : m.function.code[m.pc]? = none) : Ends host e m := by
  refine ⟨1, ?_⟩
  rw [evaluate_step (by rw [hop]; nofun) (by rw [hop]; nofun), step_eq_throw hop]
  exact nofun

theorem ends_ret {src : Reg} (h : m.Alone) (hop : m.function.code[m.pc]? = some (.ret src))
    (hs : e.Settles (run host (fuel + 1) (m.onto below frames))) : Ends host e m := by
  rw [run_succ, step_eq_exec (m := m.onto below frames) hop, exec, read_onto, bind_assoc] at hs
  refine ⟨1, ?_⟩
  rw [evaluate_step (by rw [hop]; nofun) (by rw [hop]; nofun), step_eq_exec hop, exec, bind_assoc]
  refine Engine.settles_bind.2 ⟨(Engine.settles_bind.1 hs).1, fun c e' _ => ?_⟩
  have hleave : m.leave c = pure (.done c) := by
    unfold leave
    rw [h.frames]
  rw [hleave]
  exact nofun

/-- Where the machine ends, evaluation does. -/
theorem ends_of_run (h : m.Alone) (hs : e.Settles (run host fuel (m.onto below frames))) :
    Ends host e m := by
  induction fuel generalizing m e below frames with
  | zero => exact absurd rfl hs
  | succ fuel ih =>
    cases hop : m.function.code[m.pc]? with
    | none => exact ends_missing hop
    | some op =>
      by_cases hstays : op.Stays
      · exact ends_stays h ih hop hstays hs
      · cases op with
        | call dst site args => exact ends_call h ih hop hs
        | callSelf dst args => exact ends_callSelf h ih hop hs
        | ret src => exact ends_ret h hop hs
        | _ => exact absurd trivial hstays

end Machine

/-- An execution ends in some way exactly if recursive evaluation ends in this way. -/
theorem Artifact.execute_iff_evaluate
    (host : HostSite → List ShapeCompiler.Compiled → Run ShapeCompiler.Compiled) (e : Engine)
    (a : Artifact) (cs : List ShapeCompiler.Compiled)
    {r : Except Halt (Except Error ShapeCompiler.Compiled × Engine)} (hr : r ≠ .error .outOfFuel) :
    (∃ fuel, e.run (a.execute host fuel cs) = r) ↔ ∃ fuel, e.run (a.evaluate host fuel cs) = r := by
  unfold execute evaluate
  split
  · exact ⟨fun ⟨_, h⟩ => ⟨0, h⟩, fun ⟨_, h⟩ => ⟨0, h⟩⟩
  · have halone := Machine.start_alone a cs
    -- without callers, the value that is handed back is the result
    have hcarries : ∀ g, e.Settles (Machine.evaluate host g (Machine.start a cs)) →
        ∃ j, ∀ k, e.run (Machine.run host (k + j) (Machine.start a cs)) =
          e.run (Machine.evaluate host g (Machine.start a cs)) := by
      intro g hg
      obtain ⟨j, hj⟩ := Machine.evaluate_carries halone hg #[] []
      refine ⟨j, fun k => ?_⟩
      have hrun := hj k
      rw [Machine.onto_start] at hrun
      exact hrun.trans (congrArg e.run (bind_pure _))
    constructor
    · rintro ⟨fuel, rfl⟩
      have hs : e.Settles (Machine.run host fuel (Machine.start a cs)) := hr
      have hs' : e.Settles (Machine.run host fuel ((Machine.start a cs).onto #[] [])) := by
        rwa [Machine.onto_start]
      obtain ⟨g, hg⟩ := Machine.ends_of_run halone hs'
      obtain ⟨j, hj⟩ := hcarries g hg
      exact ⟨g, (hj fuel).symm.trans (Machine.run_within _ (Nat.le_add_right fuel j) e hs)⟩
    · rintro ⟨g, rfl⟩
      obtain ⟨j, hj⟩ := hcarries g hr
      exact ⟨0 + j, hj 0⟩

end ShapeCompiler
