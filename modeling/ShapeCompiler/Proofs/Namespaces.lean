import ShapeCompiler.Catalog.Programs
import ShapeCompiler.Proofs.Engine.Sessions
import ShapeCompiler.Proofs.Types.Scalars

/-!
Names of types and names of functions.

A function cannot be registered under the name of a type, but a type can be declared under the name of
a function, and so can a scalar be registered on the side. Main statements: no other request makes one
name stand for both (`Engine.clashes_of_perform`); and while no request does that, a call by name means
the same in a body and from the host (`Engine.Reached.name_means_one`).
-/

namespace ShapeCompiler

open TypeTable

def Function.callee : Function → Callee
  | .decorated _ => .decorated
  | .interpreted d => .host (.interpreted d)
  | .native n => .host (.native n)

namespace Request

/-- No type is declared under the name of a function, and no function is called like a scalar, which
may be registered on the side. -/
def SparesNames (e : Engine) : Request → Prop
  | declareTypes group => ∀ d ∈ group, e.functions.get? d.name = none
  | r => ∀ name, r.registers? = some name → ¬ name.IsScalar

theorem SparesNames.not_isScalar {e : Engine} {r : Request} {name : Ident} (h : r.SparesNames e)
    (hr : r.registers? = some name) : ¬ name.IsScalar := by
  cases r with
  | declareTypes group => cases hr
  | _ => exact h name hr

end Request

namespace Engine

variable {e e' : Engine} {r : Request} {fuel : Nat} {y : Except Error Unit} {name : Ident}

/-- The name stands for a function and for a type. -/
def Clashes (e : Engine) (name : Ident) : Prop :=
  (e.functions.get? name).isSome ∧ (e.types.lookup name).isSome

theorem Extends.clashes_cases {fixed : Prop} (hx : e.Extends fixed e') (hw : e.types.WellFormed)
    (h : e'.Clashes name) : e.Clashes name ∨ (e.functions.get? name).isSome ∧ name.IsScalar := by
  obtain ⟨hw', hg⟩ := hx.types hw
  obtain ⟨hf, ht⟩ := h
  rw [hx.functions] at hf
  rcases hg.lookup_cases hw hw' ht with ht | hs
  · exact .inl ⟨hf, ht⟩
  · exact .inr ⟨hf, hs⟩

/-- A request lets a name stand for both only by a type that takes the name of a function. -/
theorem clashes_of_perform (hw : e.types.WellFormed) (hrun : e.run (r.perform fuel) = .ok (y, e'))
    (h : e'.Clashes name) : e.Clashes name ∨ (e.functions.get? name).isSome ∧
      (name.IsScalar ∨ ∃ group, r = .declareTypes group ∧ ∃ d ∈ group, d.name = name) := by
  have extended : ∀ {fixed : Prop} {e' : Engine}, e.Extends fixed e' → e'.Clashes name →
      e.Clashes name ∨ (e.functions.get? name).isSome ∧
        (name.IsScalar ∨ ∃ group, r = .declareTypes group ∧ ∃ d ∈ group, d.name = name) :=
    fun hx h => (hx.clashes_cases hw h).imp_right fun ⟨hf, hs⟩ => ⟨hf, .inl hs⟩
  rcases perform_cases hw hrun with hs | hx | hd
  · have hgrows : Run.Orderly False (r.perform fuel) := perform_orderly hs
    exact extended (hgrows e (fun h => h.elim) _ _ hrun).1 h
  · exact extended hx h
  · cases hd with
    | @types group ids t hr hdecl =>
      obtain ⟨hw', -, hmore⟩ := hw.declare hdecl
      obtain ⟨hf, ht⟩ := h
      obtain ⟨id, hid⟩ := Option.isSome_iff_exists.1 ht
      obtain ⟨d, hd, rfl⟩ := get?_of_lookup hid
      rcases hmore hd with hold | ⟨bits, rfl⟩ | ⟨decl, hmem, hname⟩
      · exact .inl ⟨hf, by rw [hw.lookup_name hold]; rfl⟩
      · exact .inr ⟨hf, .inl ⟨bits, (hw'.width hd).1, (hw'.width hd).2, rfl⟩⟩
      · exact .inr ⟨hf, .inr ⟨group, hr, decl, hmem, hname⟩⟩
    | @function new f e₁ hr hx hc hf hfree =>
      obtain ⟨hn, ht⟩ := h
      have hne : new ≠ name := by
        rintro rfl
        rw [hfree] at ht
        cases ht
      rw [Assoc.get?_insert, if_neg hne] at hn
      exact extended hx ⟨hn, ht⟩

/-- The functions after a request are those before it and the one that it registers. -/
theorem functions_of_perform (hw : e.types.WellFormed) (hrun : e.run (r.perform fuel) = .ok (y, e'))
    (h : (e'.functions.get? name).isSome) :
    (e.functions.get? name).isSome ∨ r.registers? = some name := by
  rcases perform_cases hw hrun with hs | hx | hd
  · have hgrows : Run.Orderly False (r.perform fuel) := perform_orderly hs
    rw [(hgrows e (fun h => h.elim) _ _ hrun).1.functions] at h
    exact .inl h
  · rw [hx.functions] at h
    exact .inl h
  · cases hd with
    | types _ _ => exact .inl h
    | @function new f e₁ hr hx _ _ _ =>
      rw [Assoc.get?_insert] at h
      split at h
      · rename_i heq
        exact .inr (heq ▸ hr)
      · rw [hx.functions] at h
        exact .inl h

/-- While requests spare names, a function is called like no type, and like none on the side. -/
theorem Reached.not_clashes (h : Reached (fun e r => r.SparesNames e) e)
    (hf : (e.functions.get? name).isSome) : e.types.lookup name = none ∧ ¬ name.IsScalar := by
  induction h generalizing name with
  | create h =>
    unfold Engine.createWith at h
    split at h <;> cases h
    cases hf
  | @request e e' r fuel y he hr hrun ih =>
    have hw := he.wellFormed.types
    have hscalar : ¬ name.IsScalar := by
      rcases functions_of_perform hw hrun hf with hf | hreg
      · exact (ih hf).2
      · exact hr.not_isScalar hreg
    refine ⟨?_, hscalar⟩
    by_contra hne
    have hclash : e'.Clashes name := ⟨hf, Option.isSome_iff_ne_none.2 hne⟩
    rcases clashes_of_perform hw hrun hclash with ⟨hf, ht⟩ | ⟨hf, hs | ⟨group, rfl, d, hd, rfl⟩⟩
    · rw [(ih hf).1] at ht
      cases ht
    · exact hscalar hs
    · rw [hr d hd] at hf
      cases hf

/-! ### Calls by name -/

theorem recordNamed?_eq_none {t : TypeTable} (h : t.lookup name = none) : t.recordNamed? name = none := by
  unfold recordNamed?
  rw [h]
  rfl

theorem resolve_function {c : Typing} {f : Function} (ht : c.types.lookup name = none)
    (hf : c.functions.get? name = some f) (n : Nat) :
    c.resolve name n = Typing.expectArgs name f.arity n f.callee := by
  unfold Typing.resolve
  rw [recordNamed?_eq_none ht, hf]
  cases f <;> rfl

/-- A body calls a function of that name just as the host does. -/
theorem run_callFrom_function {f : Function} (ht : e.types.lookup name = none)
    (hf : e.functions.get? name = some f) (fuel : Nat) (args : List Value) :
    e.run (Run.callFrom fuel ⟨e.types, .host, e.options.defaultBits⟩ name args) =
      e.run (Run.call fuel name args) := by
  cases fuel with
  | zero => rfl
  | succ fuel =>
    rw [Run.callFrom, recordNamed?_eq_none ht, Run.call, run_function?, run_function?, hf]
    cases f with
    | decorated d => rfl
    | interpreted d => rfl
    | native n => rfl

/-- While no type takes the name of a function, a function is called like no type, neither now nor in
any table that the engine had before, and a call by its name means it in compiled code, in interpreted
bodies and from the host. -/
theorem Reached.name_means_one (h : Reached (fun e r => r.SparesNames e) e) {f : Function}
    (hf : e.functions.get? name = some f) :
    (∀ t : TypeTable, t.Grows e.types → t.lookup name = none) ∧
    (∀ c n, e.typing = .ok c → c.resolve name n = Typing.expectArgs name f.arity n f.callee) ∧
    ∀ fuel args, e.run (Run.callFrom fuel ⟨e.types, .host, e.options.defaultBits⟩ name args) =
      e.run (Run.call fuel name args) := by
  have hnone := (h.not_clashes (Option.isSome_iff_exists.2 ⟨f, hf⟩)).1
  refine ⟨fun t hg => ?_, fun c n hc => ?_, run_callFrom_function hnone hf⟩
  · refine Option.eq_none_iff_forall_ne_some.2 fun id hid => ?_
    rw [hg.lookup h.wellFormed.types hid] at hnone
    cases hnone
  · obtain ⟨hfun, htypes, -⟩ := typing_eq_ok hc
    exact resolve_function (htypes ▸ hnone) (hfun ▸ hf) n

end Engine

/-! ### A record called like a function -/

namespace Catalog

/-- A function with the name of a record. -/
def seven : FunctionDef := ⟨"Leaf", ["value"], returning (.lit 7)⟩

/-- Calls that name. -/
def grow : FunctionDef := ⟨"grow", ["x"], returning (.call "Leaf" [.var "x"])⟩

/-- The table of the default engine with trees. -/
def forest : TypeTable :=
  match Engine.default.types.declare treeTypes with
  | .ok (_, t) => t
  | .error _ => {}

theorem forest_declared : Engine.default.types.declare treeTypes = .ok ([⟨1⟩, ⟨2⟩, ⟨3⟩], forest) := by
  with_unfolding_all rfl

/-- The engine with trees and the function that calls a name. -/
def growEngine : Engine :=
  ({ Engine.default with types := forest } : Engine).withFunction grow.name (.interpreted grow)

/-- Where no function takes the name of the record, the function is called like no type, and a call
by its name builds a leaf from anywhere. -/
theorem grow_means_one : Engine.Reached (fun e r => r.SparesNames e) growEngine ∧
    growEngine.types.lookup "grow" = none ∧
    growEngine.run (Run.callFrom 9 ⟨growEngine.types, .host, 24⟩ "grow" [.int 5]) =
      growEngine.run (Run.call 9 "grow" [.int 5]) := by
  have hscalar : ¬ Ident.IsScalar "grow" := by
    rintro ⟨bits, -, -, h⟩
    have := congrArg String.toList h
    simp [scalarName] at this
  have hreached : Engine.Reached (fun e r => r.SparesNames e) growEngine :=
    (Engine.reached_default.declareTypes (fun _ _ => rfl) forest_declared).define grow
      (fun name hn => by cases hn; exact hscalar) (by with_unfolding_all rfl)
  obtain ⟨hnone, -, hcall⟩ := Engine.Reached.name_means_one hreached
    (show growEngine.functions.get? "grow" = some (.interpreted grow) from rfl)
  exact ⟨hreached, hnone _ (.refl _), hcall 9 [.int 5]⟩

/-- The engine in which trees are declared after a function has taken the name of a record. -/
def clashEngine : Engine :=
  ({ Engine.default.withFunction seven.name (.interpreted seven) with types := forest } :
    Engine).withFunction grow.name (.interpreted grow)

/-- The name of the record stands for a function too: a body builds a leaf, the host gets a number. -/
theorem one_name_means_two : clashEngine.Reachable ∧ clashEngine.Clashes "Leaf" ∧
    (clashEngine.run (Run.call 9 "grow" [.int 5])).map Prod.fst = .ok (.ok (leaf 5)) ∧
    (clashEngine.run (Run.call 9 "Leaf" [.int 5])).map Prod.fst = .ok (.ok (.u24 7)) := by
  refine ⟨?_, ⟨by with_unfolding_all rfl, by with_unfolding_all rfl⟩, by with_unfolding_all rfl,
    by with_unfolding_all rfl⟩
  have hdefault : Engine.default.Reachable := Engine.reached_default
  have hseven := hdefault.define seven trivial (by with_unfolding_all rfl)
  exact (hseven.declareTypes trivial forest_declared).define grow trivial (by with_unfolding_all rfl)

end Catalog

end ShapeCompiler
