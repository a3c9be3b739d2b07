import ShapeCompiler.Proofs.Engine.Sessions
import ShapeCompiler.Proofs.Inference
import ShapeCompiler.Proofs.Lowering.Sites

/-!
What an artifact and the artifacts behind its call sites say about return types.

The caller has been typed with what inference found from its own root, the callee with what it found
from the callee. Main statement: each of the two return types allows every value that the callee can
yield (`Engine.Reached.bound_returns`). They need not be the same, even if no function is ever
registered anew.
-/

namespace ShapeCompiler

open TypeTable

variable {e e' : Engine} {a b : Artifact} {s : Signature} {r : Option TypeId}

namespace Engine

/-- The return type that inference found for a signature when the artifact was compiled, in
surroundings that the engine still has. -/
def Records (e : Engine) (a : Artifact) (s : Signature) (r : Option TypeId) : Prop :=
  ∃ c : Typing, c.Serves e ∧ c.compile e.schedule.order a.signature = .ok a ∧
    ∃ T, c.infer e.schedule.order a.signature = .ok T ∧ T.get? s = some r

/-- An artifact of an engine in order has a record of its own return type and of one for each of its
call sites. -/
theorem Coherent.records (he : e.Coherent) (ha : e.Keeps a) :
    e.Records a a.signature a.returns ∧ ∀ s ∈ a.callSites, ∃ r, e.Records a s r := by
  obtain ⟨-, c, hserves, hcompile⟩ := he.compiled ha
  obtain ⟨d, T, pool, -, hT, hart⟩ := Typing.compile_eq_ok hcompile
  refine ⟨⟨c, hserves, hcompile, T, hT, hart.get?_returns⟩, fun s hs => ?_⟩
  obtain ⟨-, r, hr⟩ := hart.callable s hs
  exact ⟨r, c, hserves, hcompile, T, hT, hr⟩

/-- A recorded return type allows every value that the reference interpreter yields. -/
theorem Records.returnAllows (h : e.Records a s r) (he : e.WellFormed) (hclean : e.functions.Clean)
    {d : FunctionDef} (hd : e.functions.get? s.function = some (.decorated d)) {fuel : Nat}
    {args : List Value} {v : Value} (hargs : Typing.ArgumentsInhabit e.types s.args args)
    (hrun : e.run (do
      let i ← Run.interpreter .reference
      Run.interpret fuel i d args) = .ok (.ok v, e')) : Typing.ReturnAllows e.types r v := by
  obtain ⟨c, hserves, -, T, hT, hr⟩ := h
  obtain ⟨hset, -⟩ := Typing.infer_settled hserves.fits.wellFormed e.schedule.complete hT
  have hA : (Typing.assumptionsOf T).get? s = some (.ofReturn r) := by
    rw [Typing.get?_assumptionsOf, hr]
    rfl
  obtain ⟨-, s', hwalk, -⟩ := hset s _ hA
  obtain ⟨f, d', -, -, hf, hfd, -⟩ := Typing.walk_eq_ok hwalk
  obtain rfl : .decorated d = f := by
    have := (hserves.functions hf).1
    rw [hd] at this
    exact Option.some.inj this
  cases hfd
  exact hserves.returnAllows he hclean hset hr hf rfl hargs hrun

/-- Once a call site is bound, the return type that was recorded for it when its caller was compiled
and the return type of the artifact behind it both allow every value that the callee yields for
arguments of its signature. -/
theorem Reached.bound_returns (he : e.Session) (hclean : e.functions.Clean) {caller : Signature}
    {k : Nat} (ha : e.compiled.get? caller = some (.ok a)) (hb : e.bound.get? (caller, k) = some b) :
    a.callSites[k]? = some b.signature ∧ (∃ r, e.Records a b.signature r) ∧
    ∃ d, e.functions.get? b.signature.function = some (.decorated d) ∧
      ∀ r, e.Records a b.signature r → ∀ fuel args v e',
        Typing.ArgumentsInhabit e.types b.signature.args args →
        e.run (do
          let i ← Run.interpreter .reference
          Run.interpret fuel i d args) = .ok (.ok v, e') →
        Typing.ReturnAllows e.types r v ∧ Typing.ReturnAllows e.types b.returns v := by
  have hco := Reached.coherent he
  obtain ⟨hkb, a', ha', hsite⟩ := hco.bound hb
  obtain rfl : a = a' := by
    rw [ha] at ha'
    cases ha'
    rfl
  obtain ⟨-, hsites⟩ := hco.records (hco.keeps ha).1
  obtain ⟨hown, -⟩ := hco.records hkb
  obtain ⟨-, c, hserves, hcompile⟩ := hco.compiled hkb
  obtain ⟨d, -, -, hd, -, -⟩ := Typing.compile_eq_ok hcompile
  have hd := (hserves.functions hd).1
  refine ⟨hsite, hsites _ (List.mem_of_getElem? hsite), d, hd, fun r hr fuel args v e' hargs hrun => ?_⟩
  exact ⟨hr.returnAllows hco.toWellFormed hclean hd hargs hrun,
    hown.returnAllows hco.toWellFormed hclean hd hargs hrun⟩

end Engine

/-! ### Two records that differ -/

namespace Catalog

/-- Yields its argument. -/
def same : FunctionDef := ⟨"same", ["x"], returning (.var "x")⟩

/-- Yields nothing on the only number that it picks an arm for within eight bits. -/
def pick : FunctionDef :=
  ⟨"pick", ["x"], returning (.branch (.call "same" [.var "x"])
    [⟨.lit 1, .incomplete⟩, ⟨.lit 257, .lit 5⟩])⟩

/-- Hands its argument on. -/
def relay : FunctionDef := ⟨"relay", ["x"], returning (.call "pick" [.var "x"])⟩

/-- Hands its argument on after a call by which inference gets to know the type of `same` early. -/
def start : FunctionDef :=
  ⟨"start", ["x"], [.eval (.call "same" [.var "x"]), .ret (.call "relay" [.var "x"])]⟩

/-- The default engine with these functions and with numbers of eight bits. -/
def relayEngine : Engine :=
  let e := { Engine.default with types := (Engine.default.types.ensureScalar 8).2 }
  (((e.withFunction same.name (.decorated same)).withFunction pick.name (.decorated pick)).withFunction
    relay.name (.decorated relay)).withFunction start.name (.decorated start)

/-- The engine after specialising the last function. -/
def specializedEngine : Engine := relayEngine.after 0 (.specialize "start" [.uint (.wrap 8 1)])

/-- The engine after a call of it. -/
def relayedEngine : Engine := specializedEngine.after 100 (.call "start" [.uint (.wrap 8 1)])

/-- The surroundings in which the engine compiles. -/
def relayTyping : Typing := ⟨relayEngine.functions, relayEngine.types, 24, ⟨0⟩⟩

theorem typing_relayEngine : relayEngine.typing = .ok relayTyping :=
  Engine.typing_of_scalar (by with_unfolding_all rfl)

theorem relayEngine_session : relayEngine.Session := by
  have hscalar : Engine.default.types.declareScalar 8 =
      .ok (⟨1⟩, (Engine.default.types.ensureScalar 8).2) := by with_unfolding_all rfl
  exact ((((Engine.reached_default.declareScalar trivial hscalar).decorate same (.inl rfl)
    (by with_unfolding_all rfl)).decorate pick (.inl rfl) (by with_unfolding_all rfl)).decorate relay (.inl rfl)
    (by with_unfolding_all rfl)).decorate start (.inl rfl) (by with_unfolding_all rfl)

theorem relayedEngine_session : relayedEngine.Session :=
  Engine.Reached.after (Engine.Reached.after relayEngine_session trivial) trivial

theorem extends_relayedEngine : Engine.Extends False specializedEngine relayedEngine :=
  Engine.after_extends trivial fun h => h.elim

theorem relayEngine_clean : relayEngine.functions.Clean := by
  have hsame : (Function.decorated same).Clean := by
    simp [same, returning, Function.Clean, Block.Clean, Expr.Clean, placeholder]
  have hpick : (Function.decorated pick).Clean := by
    simp [pick, returning, Function.Clean, Block.Clean, Expr.Clean, Expr.AllClean, Expr.ArmsClean,
      placeholder]
  have hrelay : (Function.decorated relay).Clean := by
    simp [relay, returning, Function.Clean, Block.Clean, Expr.Clean, Expr.AllClean, placeholder]
  have hstart : (Function.decorated start).Clean := by
    simp [start, Function.Clean, Block.Clean, Expr.Clean, Expr.AllClean, placeholder]
  exact (((Functions.clean_empty.insert hsame _).insert hpick _).insert hrelay _).insert hstart _

/-- Specialising compiles in these surroundings. -/
theorem compiled_relayedEngine : relayedEngine.compiled.get? ⟨"start", [⟨1⟩]⟩ =
    some (relayTyping.compile .calleesFirst ⟨"start", [⟨1⟩]⟩) := by
  have hscalar : relayEngine.types.declareScalar (Uint.wrap 8 1).bits = .ok (⟨1⟩, relayEngine.types) := by
    with_unfolding_all rfl
  have hfirst : specializedEngine.compiled.get? ⟨"start", [⟨1⟩]⟩ = 
      some (relayTyping.compile .calleesFirst ⟨"start", [⟨1⟩]⟩) :=
    Engine.compiled_after_specialize typing_relayEngine (Engine.update_signatureOf hscalar) rfl
  exact extends_relayedEngine.compiled hfirst

/-- What inference finds from the last function: the third yields nothing. -/
def relayReturns : ReturnTypes :=
  ⟨[(⟨"start", [⟨1⟩]⟩, none), (⟨"same", [⟨1⟩]⟩, some ⟨1⟩), (⟨"relay", [⟨1⟩]⟩, none),
    (⟨"pick", [⟨1⟩]⟩, none)]⟩

theorem infer_start : relayTyping.infer .calleesFirst ⟨"start", [⟨1⟩]⟩ = .ok relayReturns := by
  with_unfolding_all rfl

/-- Behind the second call site there is an artifact that returns numbers. -/
theorem bound_relayedEngine :
    (relayedEngine.bound.get? (⟨"start", [⟨1⟩]⟩, 1)).map (fun b => (b.signature, b.returns)) =
      some (⟨"relay", [⟨1⟩]⟩, some ⟨0⟩) := by
  decide +kernel

/-- The two records as they are found in the engine. -/
theorem records_relayedEngine : ∃ a b,
    relayedEngine.compiled.get? ⟨"start", [⟨1⟩]⟩ = some (.ok a) ∧
    relayedEngine.bound.get? (⟨"start", [⟨1⟩]⟩, 1) = some b ∧
    b.signature = ⟨"relay", [⟨1⟩]⟩ ∧ b.returns = some ⟨0⟩ ∧
    relayedEngine.Records a b.signature none := by
  have hok : (relayTyping.compile .calleesFirst ⟨"start", [⟨1⟩]⟩).isOk := by with_unfolding_all rfl
  obtain ⟨a, ha⟩ : ∃ a, relayTyping.compile .calleesFirst ⟨"start", [⟨1⟩]⟩ = .ok a := by
    cases h : relayTyping.compile .calleesFirst ⟨"start", [⟨1⟩]⟩ with
    | ok a => exact ⟨a, rfl⟩
    | error err => rw [h] at hok; cases hok
  have hs : a.signature = ⟨"start", [⟨1⟩]⟩ := Typing.compile_signature ha
  obtain ⟨b, hb, hpair⟩ := Option.map_eq_some_iff.1 bound_relayedEngine
  obtain ⟨hsig, hret⟩ := Prod.mk.inj hpair
  have hx : Engine.Extends False relayEngine specializedEngine :=
    Engine.after_extends trivial fun h => h.elim
  have hserves : relayTyping.Serves relayedEngine := by
    have hfirst := (Engine.Reached.wellFormed relayEngine_session).typing_serves typing_relayEngine
    exact (hfirst.extends hx).extends extends_relayedEngine
  have hschedule : relayedEngine.schedule = .calleesFirst :=
    extends_relayedEngine.schedule.trans hx.schedule
  refine ⟨a, b, by rw [compiled_relayedEngine, ha], hb, hsig, hret, relayTyping, hserves, ?_,
    relayReturns, ?_, ?_⟩
  · rw [hs, hschedule]
    exact ha
  · rw [hs, hschedule]
    exact infer_start
  · rw [hsig]
    with_unfolding_all rfl

/-- Whatever `relay` yields for a number of eight bits, both records allow it, so it is the
sentinel. -/
theorem bound_returns_relay : ∃ a b,
    relayedEngine.compiled.get? ⟨"start", [⟨1⟩]⟩ = some (.ok a) ∧
    relayedEngine.bound.get? (⟨"start", [⟨1⟩]⟩, 1) = some b ∧
    a.callSites[1]? = some b.signature ∧
    ∃ d, relayedEngine.functions.get? b.signature.function = some (.decorated d) ∧
      ∀ fuel args v e', Typing.ArgumentsInhabit relayedEngine.types b.signature.args args →
        relayedEngine.run (do
          let i ← Run.interpreter .reference
          Run.interpret fuel i d args) = .ok (.ok v, e') →
        Typing.ReturnAllows relayedEngine.types none v ∧
        Typing.ReturnAllows relayedEngine.types b.returns v := by
  obtain ⟨a, b, ha, hb, -, -, hr⟩ := records_relayedEngine
  have hclean : relayedEngine.functions.Clean := by
    have hx : Engine.Extends False relayEngine specializedEngine :=
      Engine.after_extends trivial fun h => h.elim
    rw [extends_relayedEngine.functions, hx.functions]
    exact relayEngine_clean
  obtain ⟨hsite, -, d, hd, hall⟩ :=
    Engine.Reached.bound_returns relayedEngine_session hclean ha hb
  exact ⟨a, b, ha, hb, hsite, d, hd, hall none hr⟩

/-! ### A callee that is registered anew -/

/-- Yields nothing. -/
def withhold : FunctionDef := ⟨"pass", ["x"], returning .incomplete⟩

/-- Takes its place and yields its argument. -/
def release : FunctionDef := ⟨"pass", ["x"], returning (.var "x")⟩

/-- Calls whichever of the two is registered. -/
def hand : FunctionDef := ⟨"hand", ["x"], returning (.call "pass" [.var "x"])⟩

def handEngine : Engine :=
  (Engine.default.withFunction withhold.name (.decorated withhold)).withFunction hand.name
    (.decorated hand)

/-- The surroundings in which this engine compiles. -/
def handTyping : Typing := ⟨handEngine.functions, handEngine.types, 24, ⟨0⟩⟩

/-- What inference finds there. -/
def handReturns : ReturnTypes := ⟨[(⟨"hand", [⟨0⟩]⟩, none), (⟨"pass", [⟨0⟩]⟩, none)]⟩

/-- The engine after specialising the caller and registering the callee anew. -/
def renewedEngine : Engine :=
  (handEngine.after 0 (.specialize "hand" [.uint (.wrap 24 1)])).withFunction release.name
    (.decorated release)

/-- The engine after a call of the caller. -/
def handedEngine : Engine := renewedEngine.after 100 (.call "hand" [.uint (.wrap 24 1)])

theorem typing_handEngine : handEngine.typing = .ok handTyping :=
  Engine.typing_of_scalar (by with_unfolding_all rfl)

theorem handedEngine_reachable : handedEngine.Reachable := by
  have h : handEngine.Reachable :=
    (Engine.reached_default.decorate withhold trivial (by with_unfolding_all rfl)).decorate hand trivial
      (by with_unfolding_all rfl)
  exact Engine.Reached.after ((Engine.Reached.after h trivial).decorate release trivial
    (by with_unfolding_all rfl)) trivial

theorem compiled_handedEngine : handedEngine.compiled.get? ⟨"hand", [⟨0⟩]⟩ =
    some (handTyping.compile .calleesFirst ⟨"hand", [⟨0⟩]⟩) := by
  have hscalar : handEngine.types.declareScalar (Uint.wrap 24 1).bits = .ok (⟨0⟩, handEngine.types) := by
    with_unfolding_all rfl
  have hfirst : renewedEngine.compiled.get? ⟨"hand", [⟨0⟩]⟩ =
      some (handTyping.compile .calleesFirst ⟨"hand", [⟨0⟩]⟩) :=
    Engine.compiled_after_specialize typing_handEngine (Engine.update_signatureOf hscalar) rfl
  have hx : Engine.Extends False renewedEngine handedEngine :=
    Engine.after_extends trivial fun h => h.elim
  exact hx.compiled hfirst

/-- The two return types of a call site differ, no function being registered anew after it has been
compiled, and they do so more widely when the callee is. -/
theorem bound_returns_differ :
    (relayedEngine.Session ∧ ∃ a b,
      relayedEngine.compiled.get? ⟨"start", [⟨1⟩]⟩ = some (.ok a) ∧
      relayedEngine.bound.get? (⟨"start", [⟨1⟩]⟩, 1) = some b ∧
      relayedEngine.Records a b.signature none ∧ b.returns = some ⟨0⟩) ∧
    (handedEngine.Reachable ∧ ∃ b,
      handedEngine.compiled.get? ⟨"hand", [⟨0⟩]⟩ =
        some (handTyping.compile .calleesFirst ⟨"hand", [⟨0⟩]⟩) ∧
      handTyping.infer .calleesFirst ⟨"hand", [⟨0⟩]⟩ = .ok handReturns ∧
      handedEngine.bound.get? (⟨"hand", [⟨0⟩]⟩, 0) = some b ∧
      handReturns.get? b.signature = some none ∧ b.returns = some ⟨0⟩) := by
  constructor
  · obtain ⟨a, b, ha, hb, -, hret, hr⟩ := records_relayedEngine
    exact ⟨relayedEngine_session, a, b, ha, hb, hr, hret⟩
  · have hbound : (handedEngine.bound.get? (⟨"hand", [⟨0⟩]⟩, 0)).map
        (fun b => (b.signature, b.returns)) = some (⟨"pass", [⟨0⟩]⟩, some ⟨0⟩) := by
      with_unfolding_all rfl
    obtain ⟨b, hb, hpair⟩ := Option.map_eq_some_iff.1 hbound
    obtain ⟨hsig, hret⟩ := Prod.mk.inj hpair
    refine ⟨handedEngine_reachable, b, compiled_handedEngine, by with_unfolding_all rfl, hb, ?_, hret⟩
    rw [hsig]
    with_unfolding_all rfl

end Catalog

end ShapeCompiler
