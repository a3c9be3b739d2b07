import ShapeCompiler.Proofs.Agreement
import ShapeCompiler.Proofs.Independence.Runs
import ShapeCompiler.Proofs.Typing.Confluence
import ShapeCompiler.Proofs.Widening

/-!
Calls and what has been served before them.

Requests that are served add to an engine, whether they succeed or fail: scalars, outcomes of compiling,
bound call sites, counts. Main statements: on an engine on which everything is defined before anything
else, a call or a verification has the same answer whatever has been served before it, if it does not
matter to compiling how further scalars are numbered (`Engine.Prepared.same_answers`). It may matter, since
a schedule can look at these numbers and acceptance depends on the order of visits
(`Catalog.history_matters`); it does not where that order is of no consequence
(`Engine.WellFormed.uniform_of_orderFree`).
-/

namespace ShapeCompiler

open TypeTable

variable {N : Ident → Prop} {e e₀ e' e₁ e₂ : Engine} {fuel : Nat} {r : Request}

namespace Engine

theorem Prepared.ground (h : e.Prepared) (hpure : e.functions.Pure) (huniform : e.Uniform)
    (hN : ∀ {id r}, e.types.record? id = some r → N r.name) : Ground N e where
  toWellFormed := Reached.wellFormed h
  pure := hpure
  records := hN
  uniform := huniform

theorem Prepared.uniform (h : e.Prepared) (hs : e.schedule = .calleesFirst) : e.Uniform := by
  refine (Reached.wellFormed h).uniform (fun hn => (Reached.registered h hn).params) fun t t' _ => ?_
  rw [hs]
  exact .calleesFirst t t'

/-! ### Twins -/

/-- Engines with as many activations alive are twins with respect to the names that both had from the
beginning. -/
theorem Descends.twins (h : e₀.Descends e) (h' : e₀.Descends e')
    (halive : e.activations.alive = e'.activations.alive) :
    Twin (fun n => (e₀.types.lookup n).isSome) e₀ e e' where
  left := h
  right := h'
  alive := halive
  names n hn := by
    obtain ⟨id, hid⟩ := Option.isSome_iff_exists.1 hn
    obtain ⟨d, hd, -⟩ := get?_of_lookup hid
    rw [h.grows.lookup h.types hid, h'.grows.lookup h'.types hid]
    exact .some ⟨d, h.grows.get? hd, h'.grows.get? hd⟩

/-- On an engine on which all types and functions are defined before anything else, whose natives never
enter it again and for which numbers of scalars do not matter, a call and a verification have the same
answer whatever has been served before, if the records in their arguments have names of types that were
defined. -/
theorem Prepared.same_answers (he : e.Prepared) (hpure : e.functions.Pure) (huniform : e.Uniform)
    (h₁ : e.Onward e₁) (h₂ : e.Onward e₂) (fuel : Nat) (name : Ident) {args : List Value}
    (hargs : ∀ v ∈ args, v.RecordsIn fun n => (e.types.lookup n).isSome) :
    (e₁.run (Run.call fuel name args)).map Prod.fst = (e₂.run (Run.call fuel name args)).map Prod.fst ∧
    (e₁.run (Run.verify fuel name args)).map Prod.fst =
      (e₂.run (Run.verify fuel name args)).map Prod.fst := by
  obtain ⟨hd₁, ha₁⟩ := h₁.descends he.descends
  obtain ⟨hd₂, ha₂⟩ := h₂.descends he.descends
  have hground : Ground (fun n => (e.types.lookup n).isSome) e :=
    he.ground hpure huniform fun hr => lookup_isSome_of_get? (record?_eq_some.1 hr)
  have htwin := Descends.twins hd₁ hd₂ (ha₁.trans ha₂.symm)
  have hall : Alikeness (fun n => (e.types.lookup n).isSome) e fuel := .all hground fuel
  exact ⟨(hall.call name args hargs e₁ e₂ htwin).answers fun _ _ _ _ h => h.1,
    (hground.verify fuel name hargs e₁ e₂ htwin).answers fun _ _ _ _ h => h.1⟩

/-- The order is of no consequence where compiled functions call no others. -/
theorem WellFormed.orderFree_of_closed (he : e.WellFormed)
    (h : ∀ c : Typing, c.functions = e.functions → c.types.WellFormed → e.types.GrowsByScalars c.types →
      ∀ s d, c.decorated? s.function = .ok d → c.Closed s) : e.OrderFree := by
  intro t hw hg s _ σ σ'
  obtain ⟨c, hc, hf, rfl, -⟩ := he.typing hw hg
  unfold outcomeWith withSchedule
  simp only [hc]
  change c.compile σ.order s = c.compile σ'.order s
  unfold Typing.compile
  cases hd : c.decorated? s.function with
  | error err => rfl
  | ok d => rw [(h c hf hw hg s d hd).infer σ.complete σ'.complete]

end Engine

/-! ### A native function between compiled ones -/

namespace Catalog

/-- Visits in one of two orders, depending on whether a type has a number above one. -/
def byNumber : VisitOrder := fun pass discovered =>
  if discovered.any fun s => s.args.any (1 < ·.index) then inTime pass discovered
  else VisitOrder.calleesFirst pass discovered

theorem complete_byNumber : byNumber.Complete := by
  intro pass l s
  unfold byNumber
  split
  · exact complete_inTime pass l s
  · exact VisitOrder.complete_calleesFirst pass l s

/-- The default engine, but for a schedule that looks at numbers of types. -/
def numberingEngine : Engine := { Engine.default with schedule := ⟨byNumber, complete_byNumber⟩ }

theorem numberingEngine_prepared : numberingEngine.Prepared :=
  @Engine.Reached.create _ ⟨byNumber, complete_byNumber⟩ {} _ rfl

/-- Hands back a tree from outside. -/
def handler : NativeDef := ⟨"handle", ["Tree"], "Tree", Callback.argument 0⟩

/-- An engine with trees and boxes, whose compiled function hands trees to the native one. -/
def handlerEngine : Engine :=
  (({ numberingEngine with types := boxTable } : Engine).withFunction handler.name
    (.native ⟨"handle", [⟨3⟩], ⟨3⟩, Callback.argument 0⟩)).withFunction offer.name (.decorated offer)

/-- This engine after a call, a verification that registers a scalar and keeps a failure for it, and a
request that fails for want of a type. -/
def warmEngine : Engine :=
  ((handlerEngine.after 60 (.call "offer" [leaf 2])).after 60
    (.verify "offer" [.uint (.wrap 8 5)])).after 60 (.specialize "offer" [.record "Stranger" []])

theorem handlerEngine_prepared : handlerEngine.Prepared := by
  have htypes : Engine.Prepared { numberingEngine with types := boxTable } :=
    numberingEngine_prepared.declareTypes trivial boxTable_declared
  have hhandler : (({ numberingEngine with types := boxTable } : Engine).withFunction handler.name
      (.native ⟨"handle", [⟨3⟩], ⟨3⟩, Callback.argument 0⟩)).Prepared :=
    @Engine.Reached.request _ _ _ (.defineNative handler) 0 _ htypes trivial
      (congrArg Except.ok (by with_unfolding_all rfl))
  exact hhandler.decorate offer trivial (by with_unfolding_all rfl)

theorem argument_finishes (index : Nat) (args : List Value) :
    ∃ result, Callback.argument index args = .finish result := by
  unfold Callback.argument
  split
  · exact ⟨_, rfl⟩
  · exact ⟨_, rfl⟩

theorem handlerEngine_pure : handlerEngine.functions.Pure :=
  (Functions.pure_empty.insert handler.name fun _ h => by
    cases h
    exact argument_finishes 0).decorated offer

theorem returnType_offer {w : Walker} (hname : w.types.recordNamed? "handle" = none)
    (hn : w.functions.get? "handle" = some (.native ⟨"handle", [⟨3⟩], ⟨3⟩, Callback.argument 0⟩)) (id : TypeId) :
    (w.returnType offer [id]).run {} = (w.checkParams "handle" 0 [⟨3⟩] [.known id]).map fun _ =>
      (.known ⟨3⟩, { returns := .known ⟨3⟩ }) := by
  have hcall : (w.call "handle" [.known id]).run {} =
      (w.checkParams "handle" 0 [⟨3⟩] [.known id]).map fun _ => (.known ⟨3⟩, {}) :=
    Walker.run_call_native hname hn rfl {}
  have hexpr : ∀ env : TypeEnv, env.get? "x" = some (.known id) →
      (w.expr env (.call "handle" [.var "x"])).run {} =
        (w.checkParams "handle" 0 [⟨3⟩] [.known id]).map fun _ => (.known ⟨3⟩, {}) := by
    intro env henv
    rw [← hcall, Walker.expr, StateT.run_bind]
    have hargs : (w.exprs env [.var "x"]).run {} = .ok ([.known id], {}) := by
      simp only [Walker.exprs, Walker.expr, henv]
      rfl
    rw [hargs]
    rfl
  have hblock : (w.block (Assoc.ofList [("x", .known id)]) offer.body).run {} =
      (w.checkParams "handle" 0 [⟨3⟩] [.known id]).map fun _ =>
        (Assoc.ofList [("x", .known id)], { returns := .known ⟨3⟩ }) := by
    rw [offer, returning, Walker.block, StateT.run_bind, hexpr _ rfl]
    cases w.checkParams "handle" 0 [⟨3⟩] [.known id] <;> rfl
  change ((w.block (Assoc.ofList [("x", .known id)]) offer.body) >>= _ : WalkM StaticType).run {} = _
  rw [StateT.run_bind, hblock]
  cases w.checkParams "handle" 0 [⟨3⟩] [.known id] <;> rfl

/-- What is compiled answers what the native function declares, whatever is assumed. -/
theorem closed_offer {c : Typing} (hf : c.functions = handlerEngine.functions)
    (hname : c.types.recordNamed? "handle" = none) (args : List TypeId) : c.Closed ⟨"offer", args⟩ := by
  have hoffer : c.functions.get? "offer" = some (.decorated offer) := by rw [hf]; with_unfolding_all rfl
  have hhandle : c.functions.get? "handle" = some (.native ⟨"handle", [⟨3⟩], ⟨3⟩, Callback.argument 0⟩) := by
    rw [hf]; with_unfolding_all rfl
  have hwalk : ∀ P, c.walk P ⟨"offer", args⟩ =
      ((Walker.returnType { c with assumed := P, function := "offer", strict := true } offer args).run {}).map
        fun p => (p.1, p.2.discovered) := by
    intro P
    unfold Typing.walk Typing.instance?
    rw [hoffer]
    rfl
  rcases args with _ | ⟨id, _ | ⟨id', rest⟩⟩
  · exact ⟨.error (.arityMismatch "offer" 1 0), fun P => hwalk P⟩
  · refine ⟨(c.checkParams "handle" 0 [⟨3⟩] [.known id]).map fun _ => .known ⟨3⟩, fun P => ?_⟩
    rw [hwalk, returnType_offer hname hhandle]
    cases c.checkParams "handle" 0 [⟨3⟩] [.known id] <;> rfl
  · exact ⟨.error (.arityMismatch "offer" 1 (rest.length + 2)), fun P => hwalk P⟩
/-- Nothing that is compiled there calls anything compiled. -/
theorem handlerEngine_uniform : handlerEngine.Uniform := by
  have he := Engine.Reached.wellFormed handlerEngine_prepared
  refine he.uniform_of_orderFree (fun hn => (Engine.Reached.registered handlerEngine_prepared hn).params) ?_
  refine he.orderFree_of_closed fun c hf hw hg s d hd => ?_
  have hnone : c.types.recordNamed? "handle" = none := by
    rw [hg.recordNamed?_eq he.types hw]
    with_unfolding_all rfl
  have hname : s.function = "offer" := by
    unfold Typing.decorated? at hd
    rw [hf] at hd
    simp only [handlerEngine, Engine.withFunction, Assoc.get?_insert] at hd
    by_contra hne
    rw [if_neg (show offer.name ≠ s.function from Ne.symm hne)] at hd
    split at hd
    · rename_i hfound
      split at hfound <;> cases hfound
    · cases hd
  obtain ⟨name, args⟩ := s
  subst hname
  exact closed_offer hf hnone args

/-- A leaf is offered with the same answer on the warm engine as on the cold one, which succeeds. -/
theorem same_answers_leaf :
    warmEngine.compiled.keys.length = 2 ∧ handlerEngine.types.size < warmEngine.types.size ∧
    ((handlerEngine.run (Run.call 60 "offer" [leaf 1])).toOption.bind fun p => p.1.toOption).isSome ∧
    (warmEngine.run (Run.call 60 "offer" [leaf 1])).map Prod.fst =
      (handlerEngine.run (Run.call 60 "offer" [leaf 1])).map Prod.fst ∧
    (warmEngine.run (Run.verify 60 "offer" [leaf 1])).map Prod.fst =
      (handlerEngine.run (Run.verify 60 "offer" [leaf 1])).map Prod.fst := by
  have hwarm : handlerEngine.Onward warmEngine := by
    unfold warmEngine
    refine .after (.after (.after .start ?_) ?_) ?_
    all_goals trivial
  have hleaf : ∀ v ∈ [leaf 1], v.RecordsIn fun n => (handlerEngine.types.lookup n).isSome := by
    rintro v (⟨⟩ | ⟨_, ⟨⟩⟩)
    refine .record (by decide +kernel) ?_
    rintro v (⟨⟩ | ⟨_, ⟨⟩⟩)
    exact .uint _
  exact ⟨by decide +kernel, by decide +kernel, by decide +kernel,
    Engine.Prepared.same_answers handlerEngine_prepared handlerEngine_pure handlerEngine_uniform hwarm
      .start 60 "offer" hleaf⟩

/-! ### A schedule that looks at numbers of types -/

/-- An engine with this schedule and functions that one of its orders accepts. -/
def wayEngine : Engine := numberingEngine.withDecorated hurried

theorem wayEngine_prepared : wayEngine.Prepared :=
  numberingEngine_prepared.withDecorated (by with_unfolding_all decide)

theorem wayEngine_pure : wayEngine.functions.Pure := Functions.pure_empty.withDecorated hurried

/-- This engine after a call that registers a scalar. -/
def shiftedEngine : Engine := wayEngine.after 60 (.call "accept" [.uint (.wrap 8 5)])

/-- A call is refused by an engine and answered by the same engine after another call, which has given the
type of its argument another number. -/
theorem history_matters :
    wayEngine.Prepared ∧ wayEngine.functions.Pure ∧ wayEngine.Onward shiftedEngine ∧
    (∃ e', wayEngine.run (Run.call 60 "collect" [.uint (.wrap 16 3)]) =
      .ok (.error (.compile (.type (.sentinelArgument 0 "accept"))), e')) ∧
    ∃ v e', shiftedEngine.run (Run.call 60 "collect" [.uint (.wrap 16 3)]) = .ok (.ok v, e') ∧
      v.asUint 24 = some (.wrap 16 3) :=
  ⟨wayEngine_prepared, wayEngine_pure, .after .start trivial,
    exists_of_compileError? (by decide +kernel), exists_of_number (by decide +kernel)⟩

end Catalog

end ShapeCompiler
