import Mathlib.Data.Nat.Init
import ShapeCompiler.Proofs.CallResults

/-!
What specialisations compute, whatever has been compiled and bound before.

While compiled code runs, an engine only gains outcomes of compiling and bound call sites, and all of them
are what the engine in which the run began would make of its signatures (`Engine.Continues`). In every such
engine a request for the artifact behind a call site answers the same (`Engine.Continues.update_bindSite`),
so code can be followed without saying which sites are bound already. Main statements: a call leads to the
instruction behind it with what its callee computes (`Machine.Computes.callSelf`, `Machine.Computes.call`),
and a call by the host returns what the specialisation of its arguments computes
(`Engine.Prepared.returns_of_computes`). A program that recurses on parts of its argument is given by what
one of its activations computes (`Recursion`), and returns its result (`Engine.Prepared.returns_of_recursion`).
-/

namespace ShapeCompiler

namespace Engine

variable {e₀ e e₁ : Engine} {s callee : Signature} {a b : Artifact} {k : Nat}

/-- The second engine compiles as the first one does, and all that it has compiled or bound is what the
first one would compile. -/
structure Continues (e₀ e : Engine) : Prop where
  outcomes : ∀ s, e.outcomeWith e.types s = e₀.outcomeWith e₀.types s
  compiled : ∀ {s y}, e.compiled.get? s = some y → y = e₀.outcomeWith e₀.types s
  bound : ∀ {s k b}, e.bound.get? (s, k) = some b →
    ∀ {a callee}, e₀.Compiles s a → a.callSites[k]? = some callee → e₀.Compiles callee b

theorem Compiles.unique (ha : e.Compiles s a) (hb : e.Compiles s b) : a = b :=
  Except.ok.inj (Eq.symm ha |>.trans hb)

theorem Prepared.continues (h : e.Prepared) : e.Continues e where
  outcomes _ := rfl
  compiled hs := by
    rw [h.compiled] at hs
    cases hs
  bound hb := by
    rw [h.bound] at hb
    cases hb

namespace Continues

variable (h : e₀.Continues e)
include h

/-- Counts do not matter. -/
theorem of_eq (ho : ∀ s, e₁.outcomeWith e₁.types s = e.outcomeWith e.types s) (hc : e₁.compiled = e.compiled)
    (hb : e₁.bound = e.bound) : e₀.Continues e₁ where
  outcomes s := (ho s).trans (h.outcomes s)
  compiled hs := h.compiled (hc ▸ hs)
  bound hs := h.bound (hb ▸ hs)

theorem compiles (ha : e₀.Compiles s a) : e.Compiles s a := (h.outcomes s).trans ha

theorem withOutcome (s : Signature) : e₀.Continues (e.withOutcome s) where
  outcomes := h.outcomes
  compiled {s' y} hs := by
    unfold Engine.withOutcome at hs
    rw [Assoc.get?_insert] at hs
    split at hs
    · rename_i heq
      cases hs
      rw [← heq]
      exact h.outcomes s
    · exact h.compiled hs
  bound hb := h.bound hb

theorem withBound (ha : e₀.Compiles s a) (hk : a.callSites[k]? = some callee)
    (hb : e₀.Compiles callee b) : e₀.Continues (e.withBound s k b) where
  outcomes := h.outcomes
  compiled hs := h.compiled hs
  bound {s' k' b'} hs a' callee' ha' hk' := by
    unfold Engine.withBound at hs
    rw [Assoc.get?_insert] at hs
    split at hs
    · rename_i heq
      cases heq
      cases hs
      obtain rfl := ha.unique ha'
      obtain rfl := Option.some.inj (hk.symm.trans hk')
      exact hb
    · exact h.bound hs ha' hk'

/-- A request for what can be compiled answers the artifact, and the engine goes on as before. -/
theorem update_artifactOf (hb : e₀.Compiles s b) :
    ∃ e₁, e.update (Update.artifactOf s) = (.ok b, e₁) ∧ e₀.Continues e₁ := by
  cases hs : e.compiled.get? s with
  | none => exact ⟨_, update_artifactOf_new hs (h.compiles hb), h.withOutcome s⟩
  | some y =>
    obtain rfl := (h.compiled hs).trans hb
    refine ⟨e.withHit, ?_, h.of_eq (fun _ => rfl) rfl rfl⟩
    unfold Update.artifactOf
    rw [update_get, hs]
    rfl

/-- A call site answers the artifact of the signature that its caller lists there, whether it is bound
already or not. -/
theorem update_bindSite (ha : e₀.Compiles s a) (hk : a.callSites[k]? = some callee)
    (hb : e₀.Compiles callee b) :
    ∃ e₁, e.update (Update.bindSite s k callee) = (.ok b, e₁) ∧ e₀.Continues e₁ := by
  cases hs : e.bound.get? (s, k) with
  | none =>
    obtain ⟨e₁, hrun, h₁⟩ := h.update_artifactOf hb
    exact ⟨_, update_bindSite_new hs hrun, h₁.withBound ha hk hb⟩
  | some b' =>
    obtain rfl := (h.bound hs ha hk).unique hb
    exact ⟨e, update_bindSite_bound hs, h⟩

end Continues

end Engine

namespace Machine

variable {e₀ : Engine} {m m₁ : Machine} {a b : Artifact} {c c' : Compiled} {cs rs : List Compiled}
  {pc site : Nat} {dst src : Reg} {args : List Reg} {callee : Signature}

/-- In every engine that continues a given one the machine evaluates to the value. -/
def Computes (e₀ : Engine) (m : Machine) (c : Compiled) : Prop :=
  ∀ e, e₀.Continues e → ∃ e₁, e₀.Continues e₁ ∧ m.Evaluates e c e₁

/-- An instruction that leaves the engine alone leads to what the machine then computes. -/
theorem Leads.computes (h : ∀ e, m.Leads e m₁ e) (hm : m₁.Computes e₀ c) : m.Computes e₀ c := by
  intro e he
  obtain ⟨e₁, he₁, hm⟩ := hm e he
  exact ⟨e₁, he₁, (h e).evaluates hm⟩

namespace Computes

theorem ret (hop : a.code[pc]? = some (.ret src)) (hc : rs[src]? = some c) :
    (frameAt a pc rs).Computes e₀ c := fun e he => ⟨e, he, .ret hop hc⟩

/-- A call of the function by itself leads to the instruction behind it. -/
theorem callSelf (hop : a.code[pc]? = some (.callSelf dst args))
    (hargs : List.Forall₂ (fun r c => rs[r]? = some c) args cs) (hd : dst < rs.length)
    (hc : (start a cs).Computes e₀ c)
    (h : (frameAt a (pc + 1) (rs.set dst c)).Computes e₀ c') : (frameAt a pc rs).Computes e₀ c' := by
  intro e he
  obtain ⟨e₁, he₁, hc⟩ := hc e he
  obtain ⟨e₂, he₂, h⟩ := h e₁ he₁
  exact ⟨e₂, he₂, (Leads.callSelf hop hargs hd hc).evaluates h⟩

/-- A call of another specialisation leads to the instruction behind it. -/
theorem call (hop : a.code[pc]? = some (.call dst site args)) (ha : e₀.Compiles a.signature a)
    (hsite : a.callSites[site]? = some callee) (hb : e₀.Compiles callee b)
    (hargs : List.Forall₂ (fun r c => rs[r]? = some c) args cs) (hd : dst < rs.length)
    (hc : (start b cs).Computes e₀ c)
    (h : (frameAt a (pc + 1) (rs.set dst c)).Computes e₀ c') : (frameAt a pc rs).Computes e₀ c' := by
  intro e he
  obtain ⟨e₁, hbind, he₁⟩ := he.update_bindSite ha hsite hb
  obtain ⟨e₂, he₂, hc⟩ := hc e₁ he₁
  obtain ⟨e₃, he₃, h⟩ := h e₂ he₂
  exact ⟨e₃, he₃, (Leads.call hop hsite hbind hargs hd hc).evaluates h⟩

end Computes

/-- An instruction leads behind itself, with one value for another that it reads. -/
def Delegates (e₀ : Engine) (recurse : Reg → Reg → Op) (a : Artifact) (x y : Compiled) : Prop :=
  ∀ {pc : Nat} {dst src : Reg} {rs : List Compiled} {c : Compiled}, a.code[pc]? = some (recurse dst src) →
    rs[src]? = some x → dst < rs.length → (frameAt a (pc + 1) (rs.set dst y)).Computes e₀ c →
      (frameAt a pc rs).Computes e₀ c

theorem Delegates.bySelf {x y : Compiled} (h : (start a [x]).Computes e₀ y) :
    Delegates e₀ (fun dst src => .callSelf dst [src]) a x y :=
  fun hop hx hd hc => .callSelf hop (.cons hx .nil) hd h hc

theorem Delegates.bySite {x y : Compiled} (ha : e₀.Compiles a.signature a)
    (hsite : a.callSites[site]? = some callee) (hb : e₀.Compiles callee b)
    (h : (start b [x]).Computes e₀ y) : Delegates e₀ (fun dst src => .call dst site [src]) a x y :=
  fun hop hx hd hc => .call hop ha hsite hb (.cons hx .nil) hd h hc

end Machine

/-! ### Programs that recurse on parts of their argument -/

open Machine

/-- A program of one argument that asks for the results of smaller arguments, be it of itself or behind a
call site, and what it computes in an engine. -/
structure Recursion (e₀ : Engine) (α : Type) where
  name : Ident
  /-- How large an argument is. -/
  size : α → Nat
  /-- An argument as compiled code holds it. -/
  form : α → Compiled
  result : α → Compiled
  /-- The code, given how it asks for the result of a smaller argument. -/
  code : (Reg → Reg → Op) → List Op
  registers : Nat
  step : ∀ {recurse : Reg → Reg → Op} {a : Artifact} (x : α), a.Lists (code recurse) registers 1 →
    (∀ y, size y < size x → Delegates e₀ recurse a (form y) (result y)) →
      (start a [form x]).Computes e₀ (result x)

namespace Recursion

variable {e₀ : Engine} {α : Type} {r : Recursion e₀ α} {a b : Artifact} {callee : Signature}

/-- The code that asks itself. -/
def own (r : Recursion e₀ α) : List Op := r.code fun dst src => .callSelf dst [src]

/-- The code that asks what is behind its first call site. -/
def entry (r : Recursion e₀ α) : List Op := r.code fun dst src => .call dst 0 [src]

theorem computes_own (h : a.Lists r.own r.registers 1) (x : α) :
    (start a [r.form x]).Computes e₀ (r.result x) := by
  induction hn : r.size x using Nat.strong_induction_on generalizing x with
  | _ n ih =>
    subst hn
    exact r.step x h fun y hy => Delegates.bySelf (ih _ hy y rfl)

theorem computes_entry (h : a.Lists r.entry r.registers 1) (ha : e₀.Compiles a.signature a)
    (hsite : a.callSites[0]? = some callee) (hb : e₀.Compiles callee b) (h' : b.Lists r.own r.registers 1)
    (x : α) : (start a [r.form x]).Computes e₀ (r.result x) :=
  r.step x h fun y _ => Delegates.bySite ha hsite hb (computes_own h' y)

end Recursion

namespace Engine

variable {e : Engine} {name : Ident} {d : FunctionDef} {ids : List TypeId} {a : Artifact}
  {args : List Value} {v : Value} {cs : List Compiled} {c : Compiled} {type : TypeId}

/-- On a prepared engine a call returns what the specialisation of its arguments computes. -/
theorem Prepared.returns_of_computes (he : e.Prepared) (hd : e.functions.get? name = some (.decorated d))
    (hs : List.Forall₂ e.Specialises args ids) (ha : e.Compiles ⟨name, ids⟩ a)
    (hcs : e.types.encodeAll args ids = .ok cs) (hlen : cs.length = ids.length)
    (hc : (Machine.start a cs).Computes e c) (hr : a.returns = some type)
    (hv : e.types.decode c type = .ok v) : e.Returns name args v := by
  have hsig : a.signature = ⟨name, ids⟩ := ha.signature
  have hcounted : e.Continues (e.withOutcome ⟨name, ids⟩).counted :=
    (he.continues.withOutcome ⟨name, ids⟩).of_eq (fun _ => rfl) rfl rfl
  obtain ⟨e', -, hrun⟩ := hc _ hcounted
  refine returns_of_evaluates hd (he.update_specialize (s := ⟨name, ids⟩) hs ha) ?_ ?_ hrun hr hv
  · rw [hsig]
    exact hcs
  · rw [hsig]
    exact hlen

/-- A recursion specialised on a type of its argument, which calls what is specialised on another type for
the parts of the argument, returns its result. -/
theorem Prepared.returns_of_recursion {α : Type} {r : Recursion e α} {id part : TypeId} {other : Option TypeId}
    {w : Value} {x : α} (he : e.Prepared) (hd : e.functions.get? r.name = some (.decorated d))
    (hentry : e.parts? ⟨r.name, [id]⟩ = some (r.entry, r.registers, [⟨r.name, [part]⟩], some type))
    (hown : e.parts? ⟨r.name, [part]⟩ = some (r.own, r.registers, [], other))
    (hv : e.Specialises v id) (hx : e.types.encode v id = .ok (r.form x))
    (hw : e.types.decode (r.result x) type = .ok w) : e.Returns r.name [v] w := by
  obtain ⟨a, ha, hsig, hlists, hsites, hreturns⟩ := exists_of_parts? hentry
  obtain ⟨b, hb, -, hlists', -, -⟩ := exists_of_parts? hown
  have hencode : e.types.encodeAll [v] [id] = .ok [r.form x] := by
    rw [TypeTable.encodeAll, hx]
    rfl
  have hc : (start a [r.form x]).Computes e (r.result x) :=
    r.computes_entry hlists (hsig.symm ▸ ha) (by rw [hsites]; rfl) hb hlists' x
  exact he.returns_of_computes hd (.cons hv .nil) ha hencode rfl hc hreturns hw

end Engine

end ShapeCompiler
