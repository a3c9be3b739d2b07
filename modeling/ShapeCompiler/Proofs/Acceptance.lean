import Mathlib
import ShapeCompiler.Proofs.Inference
import ShapeCompiler.Proofs.Typing.Passes

/-!
What inference accepts.

A pass walks bodies under what the passes before have found, which may be less than what holds. Main
statements: inference accepts a root if the walks under all that it can assume on the way confirm one
assignment of return types (`Typing.infer_accepts`); it is not enough that the walks under the
assignment itself do (`Catalog.consistent_refused`), since a function whose callees are still being
found passes for one that answers nothing.
-/

namespace ShapeCompiler

open TypeTable

namespace Typing

/-- Inference accepts a root that a stable assignment contains, in whatever order the passes visit, and
finds nothing above this assignment. -/
theorem infer_accepts {e : Engine} (he : e.Reachable) {c : Typing} (hc : e.typing = .ok c)
    {order : VisitOrder} (ho : order.Complete) {A : Assumptions} (hA : c.Stable A) {root : Signature}
    (hroot : (A.get? root).isSome) :
    ∃ T, c.infer order root = .ok T ∧ (T.get? root).isSome ∧ c.Within (assumptionsOf T) A := by
  have hw := (he.wellFormed.typing_serves hc).fits.wellFormed
  obtain ⟨T, hT, hwithin⟩ := hA.infer hw ho hroot
  exact ⟨T, hT, (infer_settled hw ho hT).2, hwithin⟩

end Typing

namespace Catalog

/-! ### A stable assignment -/

/-- What is below a number of 24 bits in an engine without records. -/
theorem below_number {s : StaticType} (h : s.Below parityTyping.types (.known ⟨0⟩)) :
    s = .unknown ∨ s = .incomplete ∨ s = .known ⟨0⟩ := by
  have hwiden : ∀ id, parityTyping.types.widen id = id := by
    intro id
    refine TypeTable.widen_of_no_record ?_
    rw [Option.eq_none_iff_forall_ne_some]
    intro r hr
    have hr := TypeTable.record?_eq_some.1 hr
    have htypes : parityTyping.types.types = #[.scalar 24] := by with_unfolding_all rfl
    unfold TypeTable.get? at hr
    rw [htypes] at hr
    have := Array.mem_of_getElem? hr
    simp at this
  cases s with
  | unknown => exact .inl rfl
  | incomplete => exact .inr (.inl rfl)
  | known id =>
    obtain ⟨_, hid, ha⟩ := h.known
    cases hid
    rcases ha with rfl | ha
    · exact .inr (.inr rfl)
    · rw [hwiden] at ha
      exact .inr (.inr (by rw [ha]))

/-- Whatever is assumed of one test of parity, as long as it is no more than a number, the other one
yields a number. -/
theorem parity_walk {name other : Ident}
    (hpair : name = "is_even" ∧ other = "is_odd" ∨ name = "is_odd" ∧ other = "is_even")
    {P : Assumptions} (hP : (Typing.assumption P ⟨other, [⟨0⟩]⟩).Below parityTyping.types (.known ⟨0⟩)) :
    ∃ found, parityTyping.walk P ⟨name, [⟨0⟩]⟩ = .ok (.known ⟨0⟩, found) ∧
      ∀ x ∈ found, x = ⟨other, [⟨0⟩]⟩ := by
  have hother := below_number hP
  cases h : P.get? ⟨other, [⟨0⟩]⟩ with
  | none =>
    refine ⟨[⟨other, [⟨0⟩]⟩], ?_, by simp⟩
    rcases hpair with ⟨rfl, rfl⟩ | ⟨rfl, rfl⟩
    all_goals
      conv at h => lhs; cbv
      conv_lhs => cbv
      rw [h]
      with_unfolding_all rfl
  | some s =>
    rw [Typing.assumption, h, Option.getD_some] at hother
    refine ⟨[], ?_, by simp⟩
    rcases hpair with ⟨rfl, rfl⟩ | ⟨rfl, rfl⟩ <;> rcases hother with rfl | rfl | rfl
    all_goals
      conv at h => lhs; cbv
      conv_lhs => cbv
      rw [h]
      with_unfolding_all rfl

theorem parityReturns_stable : parityTyping.Stable (Typing.assumptionsOf parityReturns) := by
  have hkeys : ∀ s st, (Typing.assumptionsOf parityReturns).get? s = some st → st = .known ⟨0⟩ ∧
      (s = ⟨"is_even", [⟨0⟩]⟩ ∨ s = ⟨"is_odd", [⟨0⟩]⟩) := by
    intro s st h
    have hentry : s = ⟨"is_even", [⟨0⟩]⟩ ∧ st = .known ⟨0⟩ ∨ s = ⟨"is_odd", [⟨0⟩]⟩ ∧ st = .known ⟨0⟩ := by
      simpa [Typing.assumptionsOf, parityReturns, StaticType.ofReturn] using Assoc.mem_of_get? h
    rcases hentry with ⟨hs, hst⟩ | ⟨hs, hst⟩
    · exact ⟨hst, .inl hs⟩
    · exact ⟨hst, .inr hs⟩
  constructor
  · intro s hs id hid
    obtain ⟨st, hst⟩ := Option.isSome_iff_exists.1 hs
    rcases (hkeys s st hst).2 with rfl | rfl
    all_goals
      obtain rfl : id = ⟨0⟩ := by simpa using hid
      with_unfolding_all rfl
  · intro P hP s st _ hst
    obtain ⟨rfl, rfl | rfl⟩ := hkeys s st hst
    · have hodd : (Typing.assumptionsOf parityReturns).get? ⟨"is_odd", [⟨0⟩]⟩ = some (.known ⟨0⟩) := by
        with_unfolding_all rfl
      obtain ⟨found, hwalk, hfound⟩ := parity_walk (.inl ⟨rfl, rfl⟩) (Typing.assumption_within hP hodd)
      exact ⟨_, found, hwalk, .refl _, fun x hx => by rw [hfound x hx, hodd]; rfl⟩
    · have heven : (Typing.assumptionsOf parityReturns).get? ⟨"is_even", [⟨0⟩]⟩ = some (.known ⟨0⟩) := by
        with_unfolding_all rfl
      obtain ⟨found, hwalk, hfound⟩ := parity_walk (.inr ⟨rfl, rfl⟩) (Typing.assumption_within hP heven)
      exact ⟨_, found, hwalk, .refl _, fun x hx => by rw [hfound x hx, heven]; rfl⟩

/-- The tests of parity are accepted, and no test is found to yield more than a number. -/
theorem infer_accepts_parity : ∃ T, parityTyping.infer .calleesFirst ⟨"is_even", [⟨0⟩]⟩ = .ok T ∧
    (T.get? ⟨"is_even", [⟨0⟩]⟩).isSome ∧
    parityTyping.Within (Typing.assumptionsOf T) (Typing.assumptionsOf parityReturns) :=
  Typing.infer_accepts parityEngine_reachable typing_parityEngine VisitOrder.complete_calleesFirst
    parityReturns_stable (by with_unfolding_all rfl)

/-! ### A consistent assignment that is not stable -/

/-- Hands its argument to another function and yields what this answers. -/
def forward (name callee : Ident) : FunctionDef := ⟨name, ["x"], returning (.call callee [.var "x"])⟩

/-- Yields its argument. -/
def identity (name : Ident) : FunctionDef := ⟨name, ["x"], returning (.var "x")⟩

/-- Hands on what comes back along a chain of calls. -/
def collect : FunctionDef := ⟨"collect", ["x"], returning (.call "accept" [.call "first" [.var "x"]])⟩

def chain : List FunctionDef :=
  [collect, forward "first" "second", forward "second" "third", forward "third" "last", identity "last",
    identity "accept"]

def chainEngine : Engine :=
  chain.foldl (fun e d => e.withFunction d.name (.decorated d)) Engine.default

/-- The surroundings in which this engine compiles. -/
def chainTyping : Typing := ⟨chainEngine.functions, chainEngine.types, 24, ⟨0⟩⟩

/-- Each function of the chain yields a number of 24 bits. -/
def chainReturns : Assumptions := ⟨chain.map fun d => (⟨d.name, [⟨0⟩]⟩, .known ⟨0⟩)⟩

theorem chainEngine_reachable : chainEngine.Reachable :=
  (((((Engine.reached_default.decorate collect trivial (by with_unfolding_all rfl)).decorate
    (forward "first" "second") trivial (by with_unfolding_all rfl)).decorate
    (forward "second" "third") trivial (by with_unfolding_all rfl)).decorate
    (forward "third" "last") trivial (by with_unfolding_all rfl)).decorate
    (identity "last") trivial (by with_unfolding_all rfl)).decorate
    (identity "accept") trivial (by with_unfolding_all rfl)

theorem typing_chainEngine : chainEngine.typing = .ok chainTyping :=
  Engine.typing_of_scalar (by with_unfolding_all rfl)

theorem chainReturns_confirmed : chainTyping.Confirms chainReturns chainReturns := by
  intro s st _ hst
  have hwalks : ∀ d ∈ chain, chainTyping.walk chainReturns ⟨d.name, [⟨0⟩]⟩ = .ok (.known ⟨0⟩, []) := by
    unfold chain
    simp only [List.forall_mem_cons]
    exact ⟨by with_unfolding_all rfl, by with_unfolding_all rfl, by with_unfolding_all rfl,
      by with_unfolding_all rfl, by with_unfolding_all rfl, by with_unfolding_all rfl, by simp⟩
  obtain ⟨d, hd, he⟩ := List.mem_map.1 (Assoc.mem_of_get? hst)
  obtain ⟨rfl, rfl⟩ := Prod.mk.inj he
  exact ⟨_, [], hwalks d hd, .refl _, by simp⟩

/-- An assignment that the walks under it confirm is not enough: inference rejects the first function
of the chain, for a return type that stands for the sentinel until the end of the chain is found. -/
theorem consistent_refused :
    chainEngine.Reachable ∧ chainEngine.typing = .ok chainTyping ∧
    chainTyping.Confirms chainReturns chainReturns ∧
    (chainReturns.get? ⟨"collect", [⟨0⟩]⟩).isSome ∧
    chainTyping.infer .calleesFirst ⟨"collect", [⟨0⟩]⟩ =
      .error (.type (.sentinelArgument 0 "accept")) :=
  ⟨chainEngine_reachable, typing_chainEngine, chainReturns_confirmed, by with_unfolding_all rfl,
    by with_unfolding_all rfl⟩

end Catalog

end ShapeCompiler
