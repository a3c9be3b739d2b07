import ShapeCompiler.Proofs.Machine.Operations
import ShapeCompiler.Proofs.Machine.Registers
import ShapeCompiler.Proofs.Simulation.Surroundings

/-!
What it means that a run conforms to the answers of the reference.

A run conforms if it ends with the value or the kind of fault of a reference answer. It may also fail
to compile what it reaches, and it need not count activations as the reference does. Main statements:
a sequence of runs that conform conforms (`Comparison.conformance`), and a machine that goes on as the
reference answers say ends so (`Comparison.Drives.run`).
-/

namespace ShapeCompiler

open TypeTable

variable {α β : Type} {e e' : Engine} {fixed : Prop}

/-- A failure to compile that a run may end with: one that the engine keeps for a signature, or the
refusal to specialise a function on the sentinel. -/
def Engine.Excuses (e : Engine) (err : CompileError) : Prop :=
  (∃ s, e.compiled.get? s = some (.error err)) ∨ ∃ g, err = .type (.sentinelSpecialization g)

theorem RuntimeError.alike_self {f : RuntimeError} (h : f.Ordinary) : f.Alike f := ⟨h, rfl⟩

/-- What compiled code is compared with, and how strictly. -/
structure Comparison where
  world : World
  /-- Whether the activations of the reference are limited. -/
  bounded : Prop
  /-- Whether native functions are known never to have code run that leaves its registers. -/
  tame : Prop

namespace Comparison

variable {C : Comparison} {depth : Option Nat} {p q : Answers α} {err : Error}

/-- The activations that the reference may begin may also begin in the engine; there are no others if
the reference counts as the engine does. -/
def Room (C : Comparison) (depth : Option Nat) (e : Engine) : Prop :=
  match depth with
  | none => ¬ C.bounded
  | some k => C.bounded ∧ k ≤ C.world.limit - e.activations.alive ∧
      (C.world.counts = false → C.world.limit - e.activations.alive ≤ k)

/-- An engine in which the code of the world runs. -/
structure Runs (C : Comparison) (depth : Option Nat) (e : Engine) : Prop where
  hosts : C.world.Hosts e
  coherent : e.Coherent
  room : C.Room depth e

theorem Runs.extends (h : C.Runs depth e) (hx : e.Extends True e') : C.Runs depth e' where
  hosts := h.hosts.extends hx
  coherent := hx.coherent trivial h.coherent
  room := by
    have := h.room
    unfold Room at *
    rw [hx.alive]
    exact this

/-- The reference may end at its limit of activations before the engine does, after which nothing is
compared. -/
def Limited (C : Comparison) (p : Answers α) : Prop :=
  (C.bounded ∧ C.world.counts = true) ∧ p (.error (.runtime (.recursionLimit C.world.limit)))

/-- A failure of compiled code that conforms to reference answers. -/
def Fails (C : Comparison) (p : Answers α) (e : Engine) : Error → Prop
  | .compile err => e.Excuses err
  | .runtime f => (¬ C.bounded ∧ f = .recursionLimit C.world.limit) ∨
      ∃ f₀, p (.error (.runtime f₀)) ∧ f₀.Alike f
  | _ => False

theorem Fails.mono {q : Answers β} (h : C.Fails p e err)
    (hpq : ∀ err, p (.error err) → q (.error err)) : C.Fails q e err := by
  cases err with
  | compile err => exact h
  | runtime f => exact h.imp_right fun ⟨f₀, hf, ha⟩ => ⟨f₀, hpq _ hf, ha⟩
  | options _ => exact h
  | mismatch _ _ _ => exact h

theorem Fails.of_alike {f₀ f : RuntimeError} (h : p (.error (.runtime f₀))) (ha : f₀.Alike f) :
    C.Fails p e (.runtime f) := .inr ⟨f₀, h, ha⟩

/-- The end of a run conforms to reference answers, values being related to values. -/
def Ends (C : Comparison) (R : α → β → Prop) (p : Answers α) (e : Engine) :
    Except Halt (Except Error β × Engine) → Prop
  | .error h => C.tame → h = .outOfFuel
  | .ok (.ok b, e') => e.Extends True e' ∧ ∃ a, p (.ok a) ∧ R a b
  | .ok (.error err, e') => e.Extends True e' ∧ C.Fails p e' err

/-- A run conforms to reference answers. -/
def Conforms (C : Comparison) (R : α → β → Prop) (p : Answers α) (e : Engine) (x : Run β) : Prop :=
  C.Limited p ∨ C.Ends R p e (e.run x)

/-- The same value on both sides, of which something holds. -/
def Same (Q : α → Prop) (a b : α) : Prop := a = b ∧ Q a

theorem Conforms.pure {R : α → β → Prop} {a : α} {b : β} (hp : p (.ok a)) (hR : R a b) :
    C.Conforms R p e (Pure.pure b) :=
  .inr ⟨.refl e, a, hp, hR⟩

theorem Conforms.throw {R : α → β → Prop} (h : C.Fails p e err) :
    C.Conforms R p e (MonadExceptOf.throw err) :=
  .inr ⟨.refl e, h⟩

/-- A sequence of runs conforms to a sequence of answers. -/
theorem Conforms.bind {γ δ : Type} {R : α → β → Prop} {S : γ → δ → Prop} {x : Run β}
    {f : β → Run δ} {g : α → Answers γ} (hx : C.Conforms R p e x)
    (hf : ∀ a b e', e.Extends True e' → p (.ok a) → R a b → C.Conforms S (g a) e' (f b)) :
    C.Conforms S (p >>= g) e (x >>= f) := by
  rcases hx with ⟨hb, hl⟩ | hx
  · exact .inl ⟨hb, Answers.bind_error hl⟩
  · unfold Conforms
    rw [Engine.run_bind]
    cases hr : e.run x with
    | error h =>
      rw [hr] at hx
      exact .inr hx
    | ok r =>
      obtain ⟨r, e₁⟩ := r
      rw [hr] at hx
      cases r with
      | error err => exact .inr ⟨hx.1, hx.2.mono fun _ h => Answers.bind_error h⟩
      | ok b =>
        obtain ⟨hext, a, ha, hab⟩ := hx
        rcases hf a b e₁ hext ha hab with ⟨hb, hl⟩ | hy
        · exact .inl ⟨hb, Answers.bind_ok ha hl⟩
        · refine .inr ?_
          show C.Ends S (p >>= g) e (e₁.run (f b))
          cases hr' : e₁.run (f b) with
          | error h =>
            rw [hr'] at hy
            exact hy
          | ok r' =>
            obtain ⟨r', e₂⟩ := r'
            rw [hr'] at hy
            cases r' with
            | error err =>
              exact ⟨hext.trans hy.1, hy.2.mono fun _ h => Answers.bind_ok ha h⟩
            | ok d =>
              obtain ⟨hext', v, hv, hS⟩ := hy
              exact ⟨hext.trans hext', v, Answers.bind_ok ha hv, hS⟩

/-- Runs in engines of the world conform to answers, and only yield values of a class. -/
def conformance (C : Comparison) (depth : Option Nat) : Relation Run Answers where
  rel Q x p := ∀ e, C.Runs depth e → C.Conforms (Same Q) p e x
  pure hQ _ _ := .pure rfl ⟨rfl, hQ⟩
  bind := by
    intro α β Q Q' x p f g hx hf e he
    refine (hx e he).bind ?_
    rintro a _ e' hext - ⟨rfl, hQ⟩
    exact hf a hQ e' (he.extends hext)
  throw hf _ _ := .throw (.of_alike rfl (RuntimeError.alike_self hf))
  halt _ _ := .inr fun _ => rfl

end Comparison

/-! ### Machines -/

def Machine.CallsHost (m : Machine) : Prop :=
  ∃ dst site args, m.function.code[m.pc]? = some (.callHost dst site args)

/-- If an instruction ends with a fault over values, then over the sentinel. -/
def Error.OverSentinel : Error → Prop
  | .runtime f => f.OverSentinel
  | _ => True

namespace Comparison

variable {C : Comparison} {depth : Option Nat} {p : Answers Value} {err : Error} {m m' : Machine}
  {host : HostSite → List Compiled → Run Compiled} {n : Nat} {op : Op}

/-- A host site and the values that it is called with: the site calls the function of its name, and
its types are those of the values and of what the call answers. -/
structure SiteFits (C : Comparison) (depth : Option Nat) (e : Engine) (site : HostSite)
    (vs : List Value) : Prop where
  function : C.world.functions.get? site.name = some site.function.toFunction
  visible : C.world.types.recordNamed? site.name = none
  params : List.Forall₂ (fun type v => (StaticType.ofReturn type).Has e.types v) site.params vs
  returns : ∀ v, C.world.calls depth site.name vs (.ok v) →
    (StaticType.ofReturn site.returns).Has e.types v

/-- Calls of host functions conform to what the calls answer in the world. -/
def HostConforms (C : Comparison) (host : HostSite → List Compiled → Run Compiled) : Prop :=
  ∀ {depth e site vs cs}, C.Runs depth e → C.SiteFits depth e site vs → Forms C.world.types vs cs →
    C.Conforms C.world.types.Form (C.world.calls depth site.name vs) e (host site cs)

/-- For a number of steps, the machine goes on as reference answers say. -/
def Drives (C : Comparison) (host : HostSite → List Compiled → Run Compiled) (p : Answers Value) :
    Nat → Engine → Machine → Prop
  | 0, _, _ => True
  | n + 1, e, m =>
    match e.run (m.step host) with
    | .error h => C.tame → h = .outOfFuel
    | .ok (.ok (.next m'), e') => Drives C host p n e' m'
    | .ok (.ok (.done c), _) => ∃ v, p (.ok v) ∧ C.world.types.Form v c
    | .ok (.error err, e') => C.Fails p e' err ∧ (¬ m.CallsHost → err.OverSentinel)

/-- A machine that goes on as the answers say ends as they say. -/
theorem Drives.run (h : C.Drives host p n e m) :
    match e.run (Machine.run host n m) with
    | .error h => C.tame → h = .outOfFuel
    | .ok (.ok c, _) => ∃ v, p (.ok v) ∧ C.world.types.Form v c
    | .ok (.error err, e') => C.Fails p e' err := by
  induction n generalizing e m with
  | zero => exact fun _ => rfl
  | succ n ih =>
    rw [Machine.run, Engine.run_bind]
    unfold Drives at h
    split at h
    · rename_i hstep
      rw [hstep]
      exact h
    · rename_i m' e' hstep
      rw [hstep]
      exact ih h
    · rename_i c e' hstep
      rw [hstep]
      exact h
    · rename_i err e' hstep
      rw [hstep]
      exact h.1

/-- An instruction after which the machine goes on. -/
theorem drives_next (hop : m.function.code[m.pc]? = some op)
    (hrun : e.run (m.exec host op) = .ok (.ok (.next m'), e'))
    (h : ∀ k < n, C.Drives host p k e' m') : C.Drives host p n e m := by
  cases n with
  | zero => trivial
  | succ n =>
    unfold Drives
    rw [Machine.run_step hop, hrun]
    exact h n (Nat.lt_succ_self n)

theorem drives_error (hop : m.function.code[m.pc]? = some op)
    (hrun : e.run (m.exec host op) = .ok (.error err, e')) (hf : C.Fails p e' err)
    (hs : ¬ m.CallsHost → err.OverSentinel) : C.Drives host p n e m := by
  cases n with
  | zero => trivial
  | succ n =>
    unfold Drives
    rw [Machine.run_step hop, hrun]
    exact ⟨hf, hs⟩

theorem drives_halt {h : Halt} (hop : m.function.code[m.pc]? = some op)
    (hrun : e.run (m.exec host op) = .error h) (hh : C.tame → h = .outOfFuel) :
    C.Drives host p n e m := by
  cases n with
  | zero => trivial
  | succ n =>
    unfold Drives
    rw [Machine.run_step hop, hrun]
    exact hh

theorem drives_step {r : Reg} {x : Except RuntimeError Value} {y : Except RuntimeError Compiled}
    (hop : m.function.code[m.pc]? = some op) (hmatch : StepMatches e.types x y)
    (hform : ∀ {v c}, e.types.Form v c → C.world.types.Form v c)
    (hrun : e.run (m.exec host op) = e.run (Run.ofRuntime y >>= fun c => m.writeNext r c))
    (hr : m.base + r < m.registers.size) (herr : ∀ f, x = .error f → p (.error (.runtime f)))
    (hk : ∀ k < n, ∀ v c, x = .ok v → C.world.types.Form v c →
      C.Drives host p k e (m.put r c).advance) : C.Drives host p n e m := by
  cases hmatch with
  | @ok v c hf =>
    rw [Engine.run_ofRuntime_ok, Machine.run_writeNext hr] at hrun
    exact drives_next hop hrun fun k hlt => hk k hlt v c rfl (hform hf)
  | @error f f' ha hs =>
    rw [Engine.run_ofRuntime_error] at hrun
    exact drives_error hop hrun (.of_alike (herr f rfl) ha) fun _ => hs

end Comparison

end ShapeCompiler
