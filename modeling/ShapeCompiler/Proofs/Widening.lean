import ShapeCompiler.Catalog.Shapes
import ShapeCompiler.Proofs.Safety
import ShapeCompiler.Proofs.Typing.Confluence

/-!
Specialisations of one function agree.

A function can be specialised on a record and on the home of the record. The two are inferred and
lowered apart: they call other specialisations, access other fields and dispatch on other tags. But
each of them goes as the function goes when it is interpreted, on the same values, and if the reference
counts activations as the engine does, namely those of interpreted functions alone, it even meets the
limit in the same place. Main statement: both yield the same compiled value or fail in the same way
(`Engine.Regular.specializations_agree`).
-/

namespace ShapeCompiler

open TypeTable

/-! ### One form -/

theorem TypeTable.Encodes.unique {t : TypeTable} {v : Value} {c c' : Compiled} (hw : t.WellFormed)
    (h : t.Encodes v c) (h' : t.Encodes v c') : c = c' := by
  cases v with
  | int n => cases h
  | incomplete => cases h
  | uint u =>
    cases h
    cases h'
    rfl
  | record name vs =>
    obtain ⟨rid, r, hr⟩ : ∃ rid r, t.recordNamed? name = some (rid, r) := by
      cases h with
      | packed hr _ _ => exact ⟨_, _, hr⟩
      | boxed hr _ _ => exact ⟨_, _, hr⟩
    have ha : t.Admits rid (.record name vs) := ⟨rid, r, hr, .inl rfl⟩
    exact Except.ok.inj ((hw.encode_of_encodes h ha).symm.trans (hw.encode_of_encodes h' ha))

theorem TypeTable.Form.unique {t : TypeTable} {v : Value} {c c' : Compiled} (hw : t.WellFormed)
    (h : t.Form v c) (h' : t.Form v c') : c = c' := by
  rcases h with ⟨rfl, rfl⟩ | h
  · exact h'.of_incomplete.symm
  · rcases h' with ⟨rfl, -⟩ | h'
    · exact absurd rfl h.ne_incomplete
    · exact h.unique hw h'

/-! ### Wider arguments -/

theorem ArgsHave.wider {t : TypeTable} {ids ids' : List TypeId} {vs : List Value} (hw : t.WellFormed)
    (h : ArgsHave t ids vs) (hids : List.Forall₂ (fun a b => a = b ∨ t.widen a = b) ids ids') :
    ArgsHave t ids' vs := by
  induction h generalizing ids' with
  | nil => cases hids; exact .nil
  | cons hv _ ih =>
    cases hids with
    | cons hid hids =>
      refine .cons ?_ (ih hids)
      rcases hid with rfl | rfl
      · exact hv
      · exact ⟨hv.1.imp_right fun ha => (TypeTable.Grows.refl t).admits_widen hw ha, hv.2⟩

/-! ### Two specialisations -/

namespace Comparison

variable {C : Comparison} {e e' : Engine} {α β : Type} {R : α → β → Prop} {p : Answers α} {x : Run β}
  {y : Except Error β}

/-- Where the reference counts activations as the engine does, a run ends as a reference answer says
unless something cannot be compiled. -/
theorem Conforms.settled (h : C.Conforms R p e x) (hb : C.bounded) (hc : C.world.counts = false)
    (hx : e.run x = .ok (y, e')) :
    (∃ err, y = .error (.compile err)) ∨ (∃ a b, y = .ok b ∧ p (.ok a) ∧ R a b) ∨
    ∃ f₀ f, y = .error (.runtime f) ∧ p (.error (.runtime f₀)) ∧ f.code = f₀.code :=
  (h.answered hb hx).resolve_left fun hl => by cases hc.symm.trans hl.1.2

end Comparison

namespace Engine

variable {e e₁ e₂ e₁' e₂' : Engine} {a a₁ a₂ : Artifact} {d : FunctionDef} {vs args : List Value}
  {cs : List Compiled} {n₁ n₂ k₁ k₂ : Nat} {y₁ y₂ : Except Error Compiled}

/-- Runs of the engine beside a reference that counts the activations that the engine counts. -/
def counting (e : Engine) : Comparison :=
  ⟨{ e.world (Native.outcome e.types) with counts := false }, True, True⟩

theorem Regular.proper_counting (he : e.Regular) : e.counting.world.Proper :=
  have hp := he.proper_outcome
  ⟨hp.types, hp.tidy, hp.fields, hp.nativeType, hp.native⟩

/-- Once an artifact is in the engine, executing it in a later one conforms to its function. -/
theorem Regular.execute_counting (he : e.Regular) (hpure : e.functions.Pure) (hx : e.Extends True e₁)
    (ha : e.Keeps a) (hd : e.functions.get? a.signature.function = some (.decorated d))
    (hforms : Forms e.types vs cs) (hargs : ArgsHave e.types a.signature.args vs) (n k : Nat) :
    e.counting.Conforms e.types.Form
      (e.counting.world.apply false e.counting.world.calls
        (some (e.options.maxHostDepth - e.activations.alive)) d vs) e₁
      (a.execute (Run.callHost n) k cs) := by
  have hcoherent := he.coherent
  have hhosts : e.counting.world.Hosts e := ⟨rfl, hcoherent.types, .refl _, rfl, rfl⟩
  have hruns : e.counting.Runs (some (e.options.maxHostDepth - e.activations.alive)) e :=
    ⟨hhosts, hcoherent, trivial, Nat.le_refl _, fun _ => Nat.le_refl _⟩
  have hconformance := Comparison.Conformance.all (C := e.counting) he.proper_counting
    (natives_conform_outcome hcoherent.toWellFormed hpure) n
  exact Comparison.execute_conforms (C := e.counting) he.proper_counting hconformance.callHost
    (hruns.extends hx) (ha.extends hx) hd hforms
    (hargs.imp fun _ _ h => h.extends hx hcoherent.types) (Run.Growth.all n).callHost k

/-- Two specialisations of a function on arguments that differ in that some are a record in one and its
home in the other, executed in later engines on arguments of the narrower signature, yield the same
value or fail in the same way, unless something cannot be compiled. -/
theorem Regular.specializations_agree (he : e.Regular) (hpure : e.functions.Pure)
    (ha₁ : e.Keeps a₁) (ha₂ : e.Keeps a₂) (hbelow : a₁.signature.Below e.types a₂.signature)
    (hlen : args.length = a₁.signature.args.length)
    (hencode : e.types.encodeAll args a₁.signature.args = .ok cs)
    (hx₁ : e.Extends True e₁) (hx₂ : e.Extends True e₂)
    (hrun₁ : e₁.run (a₁.execute (Run.callHost n₁) k₁ cs) = .ok (y₁, e₁'))
    (hrun₂ : e₂.run (a₂.execute (Run.callHost n₂) k₂ cs) = .ok (y₂, e₂'))
    (hcompile₁ : ∀ err, y₁ ≠ .error (.compile err)) (hcompile₂ : ∀ err, y₂ ≠ .error (.compile err)) :
    (∃ c, y₁ = .ok c ∧ y₂ = .ok c) ∨
    ∃ f₁ f₂, y₁ = .error (.runtime f₁) ∧ y₂ = .error (.runtime f₂) ∧ f₁.code = f₂.code := by
  obtain ⟨d, vs, hs⟩ := he.coherent.starts ha₁ hlen hencode
  have hargs₂ := hs.args.wider he.coherent.types hbelow.args
  have h₁ := (he.execute_counting hpure hx₁ ha₁ hs.function hs.forms hs.args n₁ k₁).settled trivial rfl hrun₁
  have h₂ := (he.execute_counting hpure hx₂ ha₂ (hbelow.function ▸ hs.function) hs.forms hargs₂ n₂ k₂).settled
    trivial rfl hrun₂
  have unique : ∀ {y y'}, e.counting.world.apply false e.counting.world.calls
      (some (e.options.maxHostDepth - e.activations.alive)) d vs y →
      e.counting.world.apply false e.counting.world.calls
        (some (e.options.maxHostDepth - e.activations.alive)) d vs y' → y = y' :=
    World.apply_calls_unique fun _ _ _ _ => Native.outcome_unique
  obtain ⟨err, rfl⟩ | ⟨v₁, c₁, rfl, hv₁, hf₁⟩ | ⟨g₁, f₁, rfl, hg₁, hcode₁⟩ := h₁
  · exact absurd rfl (hcompile₁ err)
  · obtain ⟨err, rfl⟩ | ⟨v₂, c₂, rfl, hv₂, hf₂⟩ | ⟨g₂, f₂, rfl, hg₂, -⟩ := h₂
    · exact absurd rfl (hcompile₂ err)
    · cases unique hv₁ hv₂
      exact .inl ⟨c₁, rfl, by rw [hf₂.unique he.coherent.types hf₁]⟩
    · cases unique hv₁ hg₂
  · obtain ⟨err, rfl⟩ | ⟨v₂, c₂, rfl, hv₂, -⟩ | ⟨g₂, f₂, rfl, hg₂, hcode₂⟩ := h₂
    · exact absurd rfl (hcompile₂ err)
    · cases unique hg₁ hv₂
    · cases unique hg₁ hg₂
      exact .inr ⟨f₁, f₂, rfl, rfl, hcode₁.trans hcode₂.symm⟩

end Engine

/-! ### A leaf as a leaf and as a tree -/

namespace Catalog

def boxTypes : List TypeDecl := treeTypes ++ [.record "Box" [("tree", "Tree")]]

def boxTable : TypeTable :=
  match Engine.default.types.declare boxTypes with
  | .ok (_, t) => t
  | .error _ => {}

theorem boxTable_declared :
    Engine.default.types.declare boxTypes = .ok ([⟨1⟩, ⟨2⟩, ⟨3⟩, ⟨4⟩], boxTable) := by
  with_unfolding_all rfl

/-- Hands its argument to a host function. -/
def offer : FunctionDef := ⟨"offer", ["x"], returning (.call "handle" [.var "x"])⟩

/-- Offers the tree in a box. -/
def unbox : FunctionDef := ⟨"unbox", ["b"], returning (.call "offer" [.field (.var "b") "tree"])⟩

/-- Yields its argument. -/
def handBack : FunctionDef := ⟨"handle", ["x"], returning (.var "x")⟩

/-- Reads a placeholder that a pattern has bound to a node, which inference takes for the argument. -/
def clone : FunctionDef :=
  ⟨"handle", ["x"], [.assign "_" (.var "x"),
    .branch (.call "Node" [.var "x", .var "x"]) [⟨.bind "_", returning (.var "_")⟩]]⟩

def boxEngine (host : FunctionDef) : Engine :=
  ((({ Engine.default with types := boxTable } : Engine).withFunction host.name
    (.interpreted host)).withFunction offer.name (.decorated offer)).withFunction unbox.name
    (.decorated unbox)

/-- The engine after specialising a function on a leaf and, by way of a box, on a tree. -/
def boxedEngine (host : FunctionDef) : Engine :=
  ((boxEngine host).after 0 (.specialize "offer" [leaf 1])).after 60
    (.call "unbox" [.record "Box" [leaf 1]])

theorem boxTypes_session : ({ Engine.default with types := boxTable } : Engine).Session :=
  Engine.reached_default.declareTypes (.inl rfl) boxTable_declared

theorem boxEngine_session {host : FunctionDef} (h : boxTable.lookup host.name = none) :
    (boxEngine host).Session :=
  ((boxTypes_session.define host (.inl rfl) h).decorate offer (.inl rfl) (by with_unfolding_all rfl)).decorate
    unbox (.inl rfl) (by with_unfolding_all rfl)

theorem boxedEngine_session {host : FunctionDef} (h : boxTable.lookup host.name = none) :
    (boxedEngine host).Session :=
  Engine.Reached.after (Engine.Reached.after (boxEngine_session h) trivial) trivial

/-- How the specialisation on a type ends on a compiled leaf: with a value, or a fault of a kind. -/
def ending (e : Engine) (type : TypeId) : Option (Option String) :=
  ((e.compiled.get? ⟨"offer", [type]⟩).bind Except.toOption).bind fun a =>
    match e.run (a.execute (Run.callHost 60) 60 [.packed 257]) with
    | .ok (.ok _, _) => some none
    | .ok (.error (.runtime f), _) => some (some f.code)
    | _ => none

/-- The end of a run of compiled code: a value, or a fault of a kind. -/
def HasEnding (y : Except Error Compiled) : Option String → Prop
  | none => ∃ c, y = .ok c
  | some code => ∃ f, y = .error (.runtime f) ∧ f.code = code

theorem exists_of_ending {e : Engine} (he : e.Coherent) (type : TypeId) (r : Option String)
    (h : ending e type = some r) :
    ∃ a y e', e.Keeps a ∧ a.signature = ⟨"offer", [type]⟩ ∧
      e.run (a.execute (Run.callHost 60) 60 [.packed 257]) = .ok (y, e') ∧ HasEnding y r := by
  obtain ⟨a, ha, h⟩ := Option.bind_eq_some_iff.1 h
  obtain ⟨outcome, hget, ha⟩ := Option.bind_eq_some_iff.1 ha
  obtain rfl : outcome = .ok a := by
    cases outcome with
    | error err => cases ha
    | ok b => cases ha; rfl
  obtain ⟨hk, hs⟩ := he.keeps hget
  refine ⟨a, ?_⟩
  split at h
  · rename_i c e' hrun
    cases h
    exact ⟨_, e', hk, hs, hrun, c, rfl⟩
  · rename_i f e' hrun
    cases h
    exact ⟨_, e', hk, hs, hrun, f, rfl, rfl⟩
  · cases h

theorem encode_leaf : boxTable.encodeAll [leaf 1] [⟨1⟩] = .ok [.packed 257] := by
  with_unfolding_all rfl

theorem below_leaf : Signature.Below boxTable ⟨"offer", [⟨1⟩]⟩ ⟨"offer", [⟨3⟩]⟩ :=
  ⟨rfl, .cons (.inr (by with_unfolding_all rfl)) .nil⟩

theorem boxTable_fields {id : TypeId} {r : RecordType} (hr : boxTable.record? id = some r) :
    r.fields.length ≤ 65536 := fields_le (by with_unfolding_all decide) hr

theorem boxEngine_handBack_regular : (boxEngine handBack).Regular where
  session := boxEngine_session (by with_unfolding_all rfl)
  clean := by
    have hhost : (Function.interpreted handBack).Clean := by
      simp [handBack, returning, Function.Clean, Block.Clean, Expr.Clean, placeholder]
    have hoffer : (Function.decorated offer).Clean := by
      simp [offer, returning, Function.Clean, Block.Clean, Expr.Clean, Expr.AllClean, placeholder]
    have hunbox : (Function.decorated unbox).Clean := by
      simp [unbox, returning, Function.Clean, Block.Clean, Expr.Clean, Expr.AllClean, placeholder]
    exact ((Functions.clean_empty.insert hhost _).insert hoffer _).insert hunbox _
  fields := boxTable_fields

theorem boxedEngine_handBack_regular : (boxedEngine handBack).Regular :=
  have h : ((boxEngine handBack).after 0 (.specialize "offer" [leaf 1])).Regular :=
    boxEngine_handBack_regular.after trivial
  h.after trivial

theorem boxedEngine_pure (host : FunctionDef) : (boxedEngine host).functions.Pure := by
  have hx : (boxEngine host).Extends False
      ((boxEngine host).after 0 (.specialize "offer" [leaf 1])) :=
    Engine.after_extends trivial fun h => h.elim
  have hx' : Engine.Extends False _ (boxedEngine host) := Engine.after_extends trivial fun h => h.elim
  rw [hx'.functions, hx.functions]
  exact ((Functions.pure_empty.interpreted host).decorated offer).decorated unbox

/-- A function that hands back its argument yields the same for a leaf as a leaf and as a tree. -/
theorem specializations_agree_leaf : ∃ a₁ a₂ c e₁ e₂,
    (boxedEngine handBack).Keeps a₁ ∧ a₁.signature = ⟨"offer", [⟨1⟩]⟩ ∧
    (boxedEngine handBack).Keeps a₂ ∧ a₂.signature = ⟨"offer", [⟨3⟩]⟩ ∧
    (boxedEngine handBack).run (a₁.execute (Run.callHost 60) 60 [.packed 257]) = .ok (.ok c, e₁) ∧
    (boxedEngine handBack).run (a₂.execute (Run.callHost 60) 60 [.packed 257]) = .ok (.ok c, e₂) := by
  have he := boxedEngine_handBack_regular
  have htypes : (boxedEngine handBack).types = boxTable := by decide +kernel
  obtain ⟨a₁, y₁, e₁, hk₁, hs₁, hrun₁, c₁, rfl⟩ :=
    exists_of_ending he.coherent ⟨1⟩ none (by decide +kernel)
  obtain ⟨a₂, y₂, e₂, hk₂, hs₂, hrun₂, c₂, rfl⟩ :=
    exists_of_ending he.coherent ⟨3⟩ none (by decide +kernel)
  have hbelow : a₁.signature.Below (boxedEngine handBack).types a₂.signature := by
    rw [hs₁, hs₂, htypes]
    exact below_leaf
  have hencode : (boxedEngine handBack).types.encodeAll [leaf 1] a₁.signature.args = .ok [.packed 257] := by
    rw [hs₁, htypes]
    exact encode_leaf
  obtain ⟨c, h₁, h₂⟩ | ⟨f₁, f₂, h₁, -⟩ := Engine.Regular.specializations_agree he (boxedEngine_pure _)
    hk₁ hk₂ hbelow (by rw [hs₁]; rfl) hencode (.refl _) (.refl _) hrun₁ hrun₂ (by simp) (by simp)
  · cases h₁
    cases h₂
    exact ⟨a₁, a₂, c₁, e₁, e₂, hk₁, hs₁, hk₂, hs₂, hrun₁, hrun₂⟩
  · cases h₁

/-- A function that reads a placeholder which a pattern has bound fails for a leaf as a leaf, and
yields a node for it as a tree. -/
theorem specializations_differ :
    (boxedEngine clone).Session ∧ (boxedEngine clone).functions.Pure ∧ ∃ a₁ a₂ f c e₁ e₂,
      (boxedEngine clone).Keeps a₁ ∧ (boxedEngine clone).Keeps a₂ ∧
      a₁.signature.Below (boxedEngine clone).types a₂.signature ∧
      (boxedEngine clone).types.encodeAll [leaf 1] a₁.signature.args = .ok [.packed 257] ∧
      (boxedEngine clone).run (a₁.execute (Run.callHost 60) 60 [.packed 257]) =
        .ok (.error (.runtime f), e₁) ∧
      (boxedEngine clone).run (a₂.execute (Run.callHost 60) 60 [.packed 257]) = .ok (.ok c, e₂) := by
  have hsession : (boxedEngine clone).Session := boxedEngine_session (by with_unfolding_all rfl)
  have he : (boxedEngine clone).Coherent := Engine.Reached.coherent hsession
  have htypes : (boxedEngine clone).types = boxTable := by decide +kernel
  obtain ⟨a₁, y₁, e₁, hk₁, hs₁, hrun₁, f, rfl, -⟩ :=
    exists_of_ending he ⟨1⟩ (some "RuntimeError::HostFunction") (by decide +kernel)
  obtain ⟨a₂, y₂, e₂, hk₂, hs₂, hrun₂, c, rfl⟩ :=
    exists_of_ending he ⟨3⟩ none (by decide +kernel)
  refine ⟨hsession, boxedEngine_pure _, a₁, a₂, f, c, e₁, e₂, hk₁, hk₂, ?_, ?_, hrun₁, hrun₂⟩
  · rw [hs₁, hs₂, htypes]
    exact below_leaf
  · rw [hs₁, htypes]
    exact encode_leaf

end Catalog

end ShapeCompiler
