import ShapeCompiler.Proofs.Specialisations
import ShapeCompiler.Proofs.Trees.Perfect
import ShapeCompiler.Proofs.Typing.Passes

/-!
Two tests of parity that count down and ask each other.

A test is specialised on the width of its argument, and one less than the argument has the wider of this
width and the default one. So the first step down may change the specialisation, and from then on two
specialisations of one width call each other. Typing and lowering are followed for any width, in any
surroundings that have both tests (`Catalog.HasTests`): inference finds that every test yields a number
(`HasTests.infer_test`), and the code of a test is that of the other one but for a constant
(`HasTests.parts_test`). Main statement: on the engine of the catalog the tests decide whether the number
that an integer is encoded to is even or odd (`Catalog.parity_decided`).
-/

namespace ShapeCompiler.Catalog

open Machine TypeTable

/-- The name of the test for even numbers, or of the one for odd numbers. -/
def testName (even : Bool) : Ident := if even then "is_even" else "is_odd"

/-- What a test says of a number. -/
def verdict (even : Bool) (n : Nat) : UInt64 := if (n % 2 == 0) == even then 1 else 0

/-- The test for even numbers, or the one for odd numbers. -/
def test (even : Bool) : FunctionDef := parity (testName even) (testName !even) (verdict even 0)

/-- The surroundings have both tests, and literals are of 24 bits. -/
structure HasTests (c : Typing) : Prop where
  wellFormed : c.types.WellFormed
  width : c.defaultBits = 24
  literal : c.defaultScalar = ⟨0⟩
  number : c.types.scalarBits? ⟨0⟩ = some 24
  free : ∀ even, c.types.recordNamed? (testName even) = none
  decorated : ∀ even, c.functions.get? (testName even) = some (.decorated (test even))

/-- The types of a number of some width and of one less than it. -/
structure Lowers (t : TypeTable) (id less : TypeId) (bits : Nat) : Prop where
  number : t.scalarBits? id = some bits
  less : t.scalarBits? less = some (max bits 24)

theorem Lowers.again {t : TypeTable} {id less : TypeId} {bits : Nat} (h : Lowers t id less bits) :
    Lowers t less less (max bits 24) where
  number := h.less
  less := by rw [h.less, max_assoc, max_self]

theorem Lowers.of_mem {t : TypeTable} {id less arg : TypeId} {bits : Nat} (h : Lowers t id less bits)
    (harg : arg = id ∨ arg = less) : ∃ bits', Lowers t arg less bits' := by
  rcases harg with rfl | rfl
  · exact ⟨bits, h⟩
  · exact ⟨_, h.again⟩

theorem testName_ne (even : Bool) : testName (!even) ≠ testName even := by cases even <;> decide

/-- A number is even where the one below it is odd. -/
theorem verdict_succ (even : Bool) (n : Nat) : verdict even (n + 1) = verdict (!even) n := by
  unfold verdict
  congr 1
  cases even <;> simp <;> omega

variable {c : Typing} {t : TypeTable} {id less : TypeId} {bits n : Nat} {even : Bool} {P : Assumptions}

theorem zero_beq_ofNat_succ (hn : n + 1 < 2 ^ 64) : ((0 : UInt64) == UInt64.ofNat (n + 1)) = false := by
  rw [beq_eq_false_iff_ne, ne_eq, ← UInt64.toNat_inj, UInt64.toNat_ofNat_of_lt' hn]
  show ¬ 0 = _
  omega

/-- One less is not cut at any width that the number has. -/
theorem apply_sub_one (hn : n + 1 < 2 ^ bits) (hbits : bits ≤ 64) :
    Operator.sub.apply (UInt64.ofNat (n + 1)) 1 (max bits 24) = .ok (UInt64.ofNat n) := by
  have hword : n + 1 < 2 ^ 64 := Nat.lt_of_lt_of_le hn (Nat.pow_le_pow_right (by decide) hbits)
  have hwide : n < 2 ^ max bits 24 := Nat.lt_of_lt_of_le (Nat.lt_of_succ_lt hn)
    (Nat.pow_le_pow_right (by decide) (Nat.le_max_left _ _))
  have hpred : UInt64.ofNat (n + 1) - 1 = UInt64.ofNat n := by
    rw [UInt64.ofNat_add]
    exact UInt64.add_sub_cancel _ _
  have hmask : UInt64.ofNat n &&& mask (max bits 24) = UInt64.ofNat n := by
    rw [← UInt64.toNat_inj, toNat_and_mask _ (Nat.max_le.2 ⟨hbits, by decide⟩),
      UInt64.toNat_ofNat_of_lt' (Nat.lt_of_succ_lt hword), Nat.mod_eq_of_lt hwide]
  exact congrArg Except.ok (by rw [hpred, hmask])

/-- The arms of a test look at the number, then at nothing. -/
theorem Lowers.plan (hid : Lowers c.types id less bits) (f : Ident) :
    c.plan f (.known id) [.lit 0, .wildcard] =
      .ok { dispatch := .scalars [(0, 0)], reachable := [0, 1], default := some 1 } := by
  have hbits : c.literalBits (.known id) = .ok bits := by
    simp only [Typing.literalBits, StaticType.known?, hid.number]
  have harms : c.planArms (.known id) [.lit 0, .wildcard] =
      .ok (Typing.planScalars bits 0 [] [] [.lit 0, .wildcard]) := by
    unfold Typing.planArms
    rw [hbits]
    rfl
  rw [Typing.plan, harms, Typing.planScalars, UInt64.zero_and]
  rfl

abbrev testScope (id : TypeId) : TypeEnv := Assoc.ofList [("n", .known id)]

abbrev testRegisters (id : TypeId) : RegEnv := Assoc.ofList [("n", (0, .known id))]

/-- The code of a test, which counts down at a width. -/
def testCode (even : Bool) (bits : Nat) : List Op := [
  .switchScalar 0 [(0, 1)] 3,
  .const 1 (verdict even 0), .ret 1,
  .const 2 1, .binary 3 .sub bits 0 2, .call 4 0 [3], .ret 4,
  .incomplete 5, .ret 5]

/-- A signature, unless something is assumed of it. -/
def unassumed (P : Assumptions) (s : Signature) : List Signature := if (P.get? s).isSome then [] else [s]

/-- That the tests yield numbers. -/
def numeric (id less : TypeId) : Assumptions :=
  ⟨[⟨testName true, [id]⟩, ⟨testName false, [id]⟩, ⟨testName true, [less]⟩, ⟨testName false, [less]⟩].map
    fun s => (s, .known ⟨0⟩)⟩

theorem mem_numeric {s : Signature} {st : StaticType} (h : (numeric id less).get? s = some st) :
    st = .known ⟨0⟩ ∧ ∃ even arg, (arg = id ∨ arg = less) ∧ s = ⟨testName even, [arg]⟩ := by
  have hmem := Assoc.mem_of_get? h
  simp only [numeric, List.map_cons, List.map_nil, List.mem_cons, Prod.mk.injEq, List.not_mem_nil,
    or_false] at hmem
  rcases hmem with ⟨rfl, rfl⟩ | ⟨rfl, rfl⟩ | ⟨rfl, rfl⟩ | ⟨rfl, rfl⟩
  · exact ⟨rfl, true, id, .inl rfl, rfl⟩
  · exact ⟨rfl, false, id, .inl rfl, rfl⟩
  · exact ⟨rfl, true, less, .inr rfl, rfl⟩
  · exact ⟨rfl, false, less, .inr rfl, rfl⟩

theorem get?_numeric {arg : TypeId} (harg : arg = id ∨ arg = less) (even : Bool) :
    (numeric id less).get? ⟨testName even, [arg]⟩ = some (.known ⟨0⟩) := by
  have hsome : ((numeric id less).get? ⟨testName even, [arg]⟩).isSome := by
    rw [← Assoc.mem_keys_iff]
    rcases harg with rfl | rfl <;> cases even <;> simp [numeric, Assoc.keys]
  obtain ⟨st, hst⟩ := Option.isSome_iff_exists.1 hsome
  rw [hst, (mem_numeric hst).1]

namespace HasTests

theorem resolve (h : HasTests c) (even : Bool) : c.resolve (testName even) 1 = .ok .decorated := by
  simp only [Typing.resolve, h.free, h.decorated]
  rfl

/-- One less than a number has the wider of its width and that of a literal. -/
theorem binary_sub (h : HasTests c) (hid : Lowers c.types id less bits) :
    c.binary .sub (.known id) (.known c.defaultScalar) = .ok (.known less) := by
  have hless := h.wellFormed.scalar?_of_scalarBits? hid.less
  rw [h.literal]
  simp only [Typing.binary, Typing.expectScalar, StaticType.known?, hid.number, h.number, Typing.widerOf,
    Typing.scalarBits, Option.getD_some, hless]
  rfl

/-! ### Typing a test -/

section Walk

variable {w : Walker} {F : Findings} (h : HasTests w.toTyping) (hid : Lowers w.types id less bits)
include h hid

theorem run_less : (w.expr (testScope id) (minus (.var "n") 1)).run F = .ok (.known less, F) := by
  simp only [minus, Walker.expr]
  exact run_bind_eq_ok.2 ⟨_, F, rfl,
    run_bind_eq_ok.2 ⟨_, F, rfl, run_lift_eq_ok.2 ⟨h.binary_sub hid, rfl⟩⟩⟩

theorem run_ask : (w.expr (testScope id) (.call (testName !even) [minus (.var "n") 1])).run F =
    .ok (Typing.assumption w.assumed ⟨testName !even, [less]⟩,
      { F with discovered := F.discovered ++ unassumed w.assumed ⟨testName !even, [less]⟩ }) := by
  have hcalled : (w.called (testName !even) [.known less]).run F =
      .ok (Typing.assumption w.assumed ⟨testName !even, [less]⟩,
        { F with discovered := F.discovered ++ unassumed w.assumed ⟨testName !even, [less]⟩ }) := by
    unfold Walker.called
    refine run_bind_eq_ok.2 ⟨some ⟨testName !even, [less]⟩, F, rfl, ?_⟩
    cases hs : w.assumed.get? ⟨testName !even, [less]⟩ with
    | none =>
      simp only [unassumed, hs, Typing.assumption]
      rfl
    | some s =>
      simp only [unassumed, hs, Typing.assumption, Option.isSome_some, if_true, List.append_nil]
      rfl
  simp only [Walker.expr, Walker.exprs]
  refine run_bind_eq_ok.2 ⟨[.known less], F, run_bind_eq_ok.2 ⟨_, F, run_less h hid, rfl⟩, ?_⟩
  exact run_bind_eq_ok.2 ⟨.decorated, F, run_lift_eq_ok.2 ⟨h.resolve _, rfl⟩, hcalled⟩

/-- A test yields a number as long as no more than that is assumed of the other one. -/
theorem run_returnType
    (hbelow : (Typing.assumption w.assumed ⟨testName !even, [less]⟩).Below w.types (.known ⟨0⟩)) :
    (w.returnType (test even) [id]).run {} = .ok (.known ⟨0⟩,
      { returns := .known ⟨0⟩, discovered := unassumed w.assumed ⟨testName !even, [less]⟩ }) := by
  have hzero : (w.block (testScope id) (returning (.lit (verdict even 0)))).run {} =
      .ok (testScope id, { returns := .known ⟨0⟩ }) := by
    rw [returning, Walker.block, Walker.expr, h.literal]
    rfl
  have hask : (w.block (testScope id) (returning (.call (testName !even) [minus (.var "n") 1]))).run
      { returns := .known ⟨0⟩ } = .ok (testScope id,
        { returns := .known ⟨0⟩, discovered := unassumed w.assumed ⟨testName !even, [less]⟩ }) := by
    rw [returning, Walker.block]
    refine run_bind_eq_ok.2 ⟨_, _, run_ask h hid, run_bind_eq_ok.2 ⟨_, _, rfl, ?_⟩⟩
    exact run_bind_eq_ok.2 ⟨_, _, run_lift_eq_ok.2 ⟨Typing.join_of_below h.wellFormed hbelow, rfl⟩, rfl⟩
  have hbody : (w.block (testScope id) (test even).body).run {} = .ok (testScope id,
      { returns := .known ⟨0⟩, discovered := unassumed w.assumed ⟨testName !even, [less]⟩ }) := by
    simp only [test, parity, Walker.block, Walker.blockArms, Walker.expr]
    refine run_bind_eq_ok.2 ⟨.known id, {}, rfl, ?_⟩
    refine run_bind_eq_ok.2 ⟨_, {}, run_lift_eq_ok.2 ⟨hid.plan _, rfl⟩, ?_⟩
    refine run_bind_eq_ok.2 ⟨(), _, ?_, rfl⟩
    exact run_bind_eq_ok.2 ⟨_, _, hzero, run_bind_eq_ok.2 ⟨_, _, hask, rfl⟩⟩
  unfold Walker.returnType
  rw [if_neg (by simp [test, parity, FunctionDef.arity])]
  exact run_bind_eq_ok.2 ⟨_, _, hbody, run_bind_eq_ok.2 ⟨_, _, rfl, rfl⟩⟩

end Walk

theorem walk_test (h : HasTests c) (hid : Lowers c.types id less bits)
    (hbelow : (Typing.assumption P ⟨testName !even, [less]⟩).Below c.types (.known ⟨0⟩)) :
    c.walk P ⟨testName even, [id]⟩ = .ok (.known ⟨0⟩, unassumed P ⟨testName !even, [less]⟩) := by
  have hinst : c.instance? ⟨testName even, [id]⟩ = .ok (test even, true) := by
    simp only [Typing.instance?, h.decorated]
  have hrun := run_returnType (w := { c with assumed := P, function := testName even, strict := true })
    h hid hbelow
  exact bind_eq_ok.2 ⟨_, hinst, bind_eq_ok.2 ⟨_, hrun, rfl⟩⟩

theorem numeric_stable (h : HasTests c) (hid : Lowers c.types id less bits) : c.Stable (numeric id less) where
  registered := by
    intro s hs arg harg
    obtain ⟨st, hst⟩ := Option.isSome_iff_exists.1 hs
    obtain ⟨-, even, arg', harg', rfl⟩ := mem_numeric hst
    obtain rfl := List.mem_singleton.1 harg
    obtain ⟨bits', hlowers⟩ := hid.of_mem harg'
    rw [scalarBits?_eq_some.1 hlowers.number]
    rfl
  confirmed := by
    intro P hP s st _ hst
    obtain ⟨rfl, even, arg, harg, rfl⟩ := mem_numeric hst
    obtain ⟨bits', hlowers⟩ := hid.of_mem harg
    have hless : (numeric id less).get? ⟨testName !even, [less]⟩ = some (.known ⟨0⟩) :=
      get?_numeric (.inr rfl) !even
    refine ⟨_, _, h.walk_test hlowers (Typing.assumption_within hP hless), .refl _, fun x hx => ?_⟩
    unfold unassumed at hx
    split at hx
    · cases hx
    · rw [List.mem_singleton.1 hx, hless]
      rfl

/-- Inference finds that a test yields a number, and so does the one that it asks. -/
theorem infer_test (h : HasTests c) {order : VisitOrder} (ho : order.Complete)
    (hid : Lowers c.types id less bits) (even : Bool) :
    ∃ T, c.infer order ⟨testName even, [id]⟩ = .ok T ∧
      T.get? ⟨testName even, [id]⟩ = some (some ⟨0⟩) ∧ T.get? ⟨testName !even, [less]⟩ = some (some ⟨0⟩) := by
  have hroot : ((numeric id less).get? ⟨testName even, [id]⟩).isSome := by
    rw [get?_numeric (.inl rfl)]
    rfl
  obtain ⟨T, hT, hwithin⟩ := (h.numeric_stable hid).infer h.wellFormed ho hroot
  obtain ⟨hsettled, hknown⟩ := Typing.infer_settled h.wellFormed ho hT
  -- what is found of a test is what its walk finds, and this has met the test that it asks
  have hfound : ∀ {even arg}, (arg = id ∨ arg = less) → (T.get? ⟨testName even, [arg]⟩).isSome →
      T.get? ⟨testName even, [arg]⟩ = some (some ⟨0⟩) ∧ (T.get? ⟨testName !even, [less]⟩).isSome := by
    intro even arg harg hsome
    obtain ⟨bits', hlowers⟩ := hid.of_mem harg
    obtain ⟨r, hr⟩ := Option.isSome_iff_exists.1 hsome
    have hget : (Typing.assumptionsOf T).get? ⟨testName even, [arg]⟩ = some (.ofReturn r) := by
      rw [Typing.get?_assumptionsOf, hr]
      rfl
    have hbelow := Typing.assumption_within hwithin (get?_numeric harg even)
    obtain ⟨-, s, hwalk, hjoin⟩ := hsettled _ _ hget
    rw [h.walk_test hlowers (Typing.assumption_within hwithin (get?_numeric (.inr rfl) !even))] at hwalk
    obtain ⟨rfl, hnone⟩ := Prod.mk.inj (Except.ok.inj hwalk)
    rw [Typing.assumption, hget] at hbelow
    have hnumber := hbelow.antisymm h.wellFormed (Typing.join_above_right hjoin)
    constructor
    · cases r with
      | none => cases hnumber
      | some id => rw [hr, StaticType.known.inj hnumber]
    · by_contra hmissing
      rw [unassumed, Typing.get?_assumptionsOf, Option.isSome_map, if_neg hmissing] at hnone
      cases hnone
  obtain ⟨hr, hother⟩ := hfound (.inl rfl) hknown
  exact ⟨T, hT, hr, (hfound (.inr rfl) hother).1⟩

/-! ### The code of a test -/

section Lower

variable {l : Lowerer} {p : Pool} {start : Nat} (h : HasTests l.toTyping) (hid : Lowers l.types id less bits)
include h hid

theorem lower_less : (l.expr start (testRegisters id) (minus (.var "n") 1)).run p =
    .ok (⟨[.const p.registers 1, .binary (p.registers + 1) .sub (max bits 24) 0 p.registers],
      p.registers + 1, .known less⟩, { p with registers := p.registers + 2 }) := by
  have hless : l.scalarBits less = max bits 24 := by
    rw [Typing.scalarBits, hid.less]
    rfl
  simp only [minus, Lowerer.expr, h.width]
  refine run_bind_eq_ok.2 ⟨⟨[], 0, .known id⟩, p, rfl, run_bind_eq_ok.2 ⟨_, _, rfl, ?_⟩⟩
  refine run_bind_eq_ok.2 ⟨_, _, run_lift_eq_ok.2 ⟨h.binary_sub hid, rfl⟩, ?_⟩
  rw [← hless]
  rfl

theorem lower_ask (hs : l.signature = ⟨testName even, [id]⟩) (hp : p.callSites = [])
    (ht : l.returned ⟨testName !even, [less]⟩ = .ok (.known ⟨0⟩)) :
    (l.expr start (testRegisters id) (.call (testName !even) [minus (.var "n") 1])).run p =
      .ok (⟨[.const p.registers 1, .binary (p.registers + 1) .sub (max bits 24) 0 p.registers,
          .call (p.registers + 2) 0 [p.registers + 1]], p.registers + 2, .known ⟨0⟩⟩,
        { p with registers := p.registers + 3, callSites := [⟨testName !even, [less]⟩] }) := by
  have hne : (⟨testName !even, [less]⟩ : Signature) ≠ l.signature := by
    rw [hs]
    exact fun h => testName_ne even (congrArg Signature.function h)
  have hsite : (Pool.callSite ⟨testName !even, [less]⟩).run { p with registers := p.registers + 3 } =
      .ok (0, { p with registers := p.registers + 3, callSites := [⟨testName !even, [less]⟩] }) := by
    unfold Pool.callSite
    refine run_bind_eq_ok.2 ⟨_, _, rfl, ?_⟩
    rw [hp]
    rfl
  simp only [Lowerer.expr, Lowerer.exprs]
  refine run_bind_eq_ok.2 ⟨_, _, run_bind_eq_ok.2 ⟨_, _, lower_less h hid, rfl⟩, ?_⟩
  refine run_bind_eq_ok.2 ⟨⟨[.call (p.registers + 2) 0 [p.registers + 1]], p.registers + 2, .known ⟨0⟩⟩,
    _, ?_, rfl⟩
  unfold Lowerer.call
  refine run_bind_eq_ok.2 ⟨_, _, rfl, ?_⟩
  refine run_bind_eq_ok.2 ⟨_, _, run_lift_eq_ok.2 ⟨h.resolve _, rfl⟩, ?_⟩
  refine run_bind_eq_ok.2 ⟨⟨testName !even, [less]⟩, _, rfl, ?_⟩
  refine run_bind_eq_ok.2 ⟨_, _, run_lift_eq_ok.2 ⟨ht, rfl⟩, ?_⟩
  rw [if_neg hne]
  exact run_bind_eq_ok.2 ⟨_, _, hsite, rfl⟩

theorem lower_body (hs : l.signature = ⟨testName even, [id]⟩) (hd : l.definition = test even)
    (ht : l.returned ⟨testName !even, [less]⟩ = .ok (.known ⟨0⟩)) :
    l.body.run {} = .ok (testCode even (max bits 24), ⟨6, [⟨testName !even, [less]⟩], []⟩) := by
  have hzero : (l.block 1 (testRegisters id) (returning (.lit (verdict even 0)))).run ⟨1, [], []⟩ =
      .ok (([.const 1 (verdict even 0), .ret 1], true), ⟨2, [], []⟩) := by
    have hmask : verdict even 0 &&& mask 24 = verdict even 0 := by cases even <;> rfl
    rw [returning, Lowerer.block, Lowerer.expr, h.width, hmask]
    rfl
  have hask : (l.block 3 (testRegisters id) (returning (.call (testName !even) [minus (.var "n") 1]))).run
      ⟨2, [], []⟩ = .ok (([.const 2 1, .binary 3 .sub (max bits 24) 0 2, .call 4 0 [3], .ret 4], true),
        ⟨5, [⟨testName !even, [less]⟩], []⟩) := by
    rw [returning, Lowerer.block]
    exact run_bind_eq_ok.2 ⟨_, _, lower_ask h hid hs rfl ht, rfl⟩
  have hbody : (l.block 0 (testRegisters id) (test even).body).run ⟨1, [], []⟩ =
      .ok (((testCode even (max bits 24)).take 7, false), ⟨5, [⟨testName !even, [less]⟩], []⟩) := by
    simp only [test, parity, Lowerer.block, Lowerer.blockArms, Lowerer.expr]
    refine run_bind_eq_ok.2 ⟨⟨[], 0, .known id⟩, _, rfl, ?_⟩
    refine run_bind_eq_ok.2 ⟨_, _, run_lift_eq_ok.2 ⟨hid.plan _, rfl⟩, ?_⟩
    refine run_bind_eq_ok.2 ⟨[⟨0, 1, [.const 1 (verdict even 0), .ret 1], false⟩,
      ⟨1, 3, [.const 2 1, .binary 3 .sub (max bits 24) 0 2, .call 4 0 [3], .ret 4], false⟩], _, ?_, rfl⟩
    refine run_bind_eq_ok.2 ⟨(testRegisters id, []), _, rfl, run_bind_eq_ok.2 ⟨_, _, hzero, ?_⟩⟩
    refine run_bind_eq_ok.2 ⟨_, _, ?_, rfl⟩
    refine run_bind_eq_ok.2 ⟨(testRegisters id, []), _, rfl, run_bind_eq_ok.2 ⟨_, _, hask, rfl⟩⟩
  unfold Lowerer.body
  rw [hd, hs]
  exact run_bind_eq_ok.2 ⟨testRegisters id, ⟨1, [], []⟩, rfl, run_bind_eq_ok.2 ⟨_, _, hbody, rfl⟩⟩

end Lower

/-- A test is compiled to its code, in which the first call site leads to the other test. -/
theorem parts_test {e : Engine} (h : HasTests c) (hc : e.typing = .ok c) (hid : Lowers c.types id less bits)
    (even : Bool) : e.parts? ⟨testName even, [id]⟩ =
      some (testCode even (max bits 24), 6, [⟨testName !even, [less]⟩], some ⟨0⟩) := by
  obtain ⟨T, hT, hroot, hother⟩ := h.infer_test e.schedule.complete hid even
  let l : Lowerer := { c with returnTypes := T, signature := ⟨testName even, [id]⟩, definition := test even }
  have hreturned : ∀ {s}, T.get? s = some (some ⟨0⟩) → l.returned s = .ok (.known ⟨0⟩) := fun hs => by
    simp only [Lowerer.returned, l, hs]
    rfl
  have hartifact : l.artifact = .ok ⟨⟨testName even, [id]⟩, (testCode even (max bits 24)).toArray, 6,
      [⟨testName !even, [less]⟩], [], some ⟨0⟩⟩ := by
    have hbody := lower_body (l := l) h hid rfl rfl (hreturned hother)
    unfold Lowerer.artifact
    rw [if_neg (by simp [l, test, parity, FunctionDef.arity])]
    exact bind_eq_ok.2 ⟨_, hbody, bind_eq_ok.2 ⟨_, hreturned hroot, rfl⟩⟩
  have hcompile : c.compile e.schedule.order ⟨testName even, [id]⟩ = l.artifact := by
    have hdecorated : c.decorated? (testName even) = .ok (test even) := by
      simp only [Typing.decorated?, h.decorated]
    unfold Typing.compile
    rw [hdecorated]
    show (c.infer e.schedule.order _ >>= _) = _
    rw [hT]
    rfl
  exact Engine.parts?_of_compiles (bind_eq_ok.2 ⟨c, hc, hcompile.trans hartifact⟩)

/-! ### Counting down -/

/-- At every width a test gives its answer: the step down leads to the other test, be it of the same width
or of a wider one, and stays above zero. -/
theorem computes_test {e₀ : Engine} {a : Artifact} (h : HasTests c) (hc : e₀.typing = .ok c)
    (hid : Lowers c.types id less bits) (hn : n < 2 ^ bits) (ha : e₀.Compiles ⟨testName even, [id]⟩ a) :
    (Machine.start a [.scalar (UInt64.ofNat n)]).Computes e₀ (.scalar (verdict even n)) := by
  induction n generalizing id bits even a with
  | zero =>
    obtain ⟨a', ha', -, hlists, -, -⟩ := Engine.exists_of_parts? (h.parts_test hc hid even)
    obtain rfl := ha.unique ha'
    rw [start_eq hlists]
    refine Leads.computes (fun e => .switchScalar (hlists.op rfl) rfl rfl) ?_
    refine Leads.computes (fun e => .const (hlists.op rfl) (by simp)) ?_
    exact .ret (hlists.op rfl) rfl
  | succ n ih =>
    obtain ⟨a', ha', hsig, hlists, hsites, -⟩ := Engine.exists_of_parts? (h.parts_test hc hid even)
    obtain rfl := ha.unique ha'
    obtain ⟨b, hb, -⟩ := Engine.exists_of_parts? (h.parts_test hc hid.again !even)
    have hbits := (h.wellFormed.width (scalarBits?_eq_some.1 hid.number)).2
    have hword : 2 ^ bits ≤ 2 ^ 64 := Nat.pow_le_pow_right (by decide) hbits
    have hwide : 2 ^ bits ≤ 2 ^ max bits 24 := Nat.pow_le_pow_right (by decide) (Nat.le_max_left _ _)
    rw [start_eq hlists, verdict_succ]
    refine Leads.computes (fun e => .switchScalar (hlists.op rfl) rfl
      (by rw [List.find?_cons, zero_beq_ofNat_succ (Nat.lt_of_lt_of_le hn hword)])) ?_
    refine Leads.computes (fun e => .const (hlists.op rfl) (by simp)) ?_
    refine Leads.computes (fun e => .binary (hlists.op rfl) rfl rfl (apply_sub_one hn hbits) (by simp)) ?_
    refine .call (hlists.op rfl) (hsig.symm ▸ ha) (by rw [hsites]; rfl) hb (.cons rfl .nil) (by simp)
      (ih hid.again (Nat.lt_of_lt_of_le (Nat.lt_of_succ_lt hn) hwide) hb) ?_
    exact .ret (hlists.op rfl) rfl

end HasTests

/-! ### On the engine of the catalog -/

variable {e : Engine} {v : Value} {u : Uint}

theorem specialises_integer (hd : e.options.defaultBits = 24) (hv : v.asUint 24 = some u)
    (hid : e.types.scalarBits? id = some u.bits) : e.Specialises v id := by
  cases v with
  | int n =>
    cases hv
    exact hid.trans (congrArg some hd.symm)
  | uint u' =>
    cases hv
    exact hid
  | record name vs => cases hv
  | incomplete => cases hv

theorem recordsIn_of_asUint {N : Ident → Prop} (hv : v.asUint 24 = some u) : ∀ w ∈ [v], w.RecordsIn N := by
  refine List.forall_mem_singleton.2 ?_
  cases v with
  | int n => exact .int n
  | uint u' => exact .uint u'
  | record name vs => cases hv
  | incomplete => cases hv

/-- The signature of a call with an integer, and what the integer is encoded to under it. -/
theorem signatureOf_integer (hw : e.types.WellFormed) (hd : e.options.defaultBits = 24)
    (hv : v.asUint 24 = some u) (name : Ident) :
    ∃ id e', e.update (Update.signatureOf name [v]) = (.ok ⟨name, [id]⟩, e') ∧
      e'.types.encode v id = .ok (.scalar u.value) := by
  have hscalar : e.types.declareScalar u.bits = .ok (e.types.ensureScalar u.bits) :=
    if_pos ⟨u.bits_pos, u.bits_le⟩
  have hid := scalarBits?_eq_some.2 (hw.get?_ensureScalar u.bits_pos u.bits_le)
  have htype : e.update (Update.argumentType e.types name v) =
      (.ok (e.types.ensureScalar u.bits).1, { e with types := (e.types.ensureScalar u.bits).2 }) := by
    cases v with
    | int n =>
      cases hv
      rw [Update.argumentType, Engine.update_get, hd]
      exact Engine.update_declareScalar hscalar
    | uint u' =>
      cases hv
      exact Engine.update_declareScalar hscalar
    | record name vs => cases hv
    | incomplete => cases hv
  refine ⟨_, { e with types := (e.types.ensureScalar u.bits).2 }, ?_, encode_integer hv hid⟩
  rw [Update.signatureOf, Engine.update_get, List.mapM_cons, List.mapM_nil]
  exact Engine.update_bind_ok (Engine.update_bind_ok htype)

theorem test_mem (even : Bool) : test even ∈ programs := by
  cases even with
  | false => exact (by simp [programs] : isOdd ∈ programs)
  | true => exact (by simp [programs] : isEven ∈ programs)

theorem hasTests_of_descends (h : engine.Descends e) :
    ∃ c, e.typing = .ok c ∧ c.types = e.types ∧ HasTests c := by
  have hwidth : e.options.defaultBits = 24 := by rw [h.options, engine_defaultBits]
  have hnumber := h.grows.scalarBits? engine_hasTrees.number
  have hscalar : e.types.scalar? e.options.defaultBits = some ⟨0⟩ := by
    rw [hwidth]
    exact h.types.scalar?_of_scalarBits? hnumber
  have hfree : ∀ even, engine.types.recordNamed? (testName even) = none := fun even => by
    rw [Option.eq_none_iff_forall_ne_some]
    rintro ⟨rid, r⟩ hr
    have hlookup := (recordNamed?_eq_some.1 hr).1
    rw [engine_types] at hlookup
    cases hlookup.symm.trans (programs_free _ (test_mem even))
  refine ⟨_, Engine.typing_of_scalar hscalar, rfl, h.types, hwidth, rfl, hnumber, fun even => ?_,
    fun even => ?_⟩
  · exact (h.grows.recordNamed?_eq engine_hasTrees.wellFormed h.types _).trans (hfree even)
  · rw [h.functions]
    exact engine_decorated (test_mem even)

/-- The engine of the catalog in which a width is declared. -/
def declaring (bits : Nat) : Engine := { engine with types := (engine.types.ensureScalar bits).2 }

theorem declaring_onward (u : Uint) : engine.Onward (declaring u.bits) := by
  have hrun : engine.run ((Request.declareScalar u.bits).perform 0) = .ok (.ok (), declaring u.bits) :=
    Engine.run_declareScalar (if_pos ⟨u.bits_pos, u.bits_le⟩)
  exact .serve (r := .declareScalar u.bits) .start trivial hrun

theorem returns_verdict (hv : v.asUint 24 = some u) (even : Bool) :
    (declaring u.bits).Returns (testName even) [v] (.u24 (verdict even u.value.toNat)) := by
  have hscalar : engine.types.declareScalar u.bits = .ok (engine.types.ensureScalar u.bits) :=
    if_pos ⟨u.bits_pos, u.bits_le⟩
  have hprepared : (declaring u.bits).Prepared :=
    Engine.Reached.declareScalar engine_prepared trivial hscalar
  obtain ⟨hdescends, -⟩ := (declaring_onward u).descends engine_prepared.descends
  obtain ⟨c, hc, htypes, htests⟩ := hasTests_of_descends hdescends
  have hnumber := hdescends.grows.scalarBits? engine_hasTrees.number
  have hid : (declaring u.bits).types.scalarBits? (engine.types.ensureScalar u.bits).1 = some u.bits :=
    scalarBits?_eq_some.2 (engine_hasTrees.wellFormed.get?_ensureScalar u.bits_pos u.bits_le)
  obtain ⟨less, hlowers⟩ : ∃ less, Lowers c.types (engine.types.ensureScalar u.bits).1 less u.bits := by
    rw [htypes]
    rcases Nat.le_total u.bits 24 with hle | hle
    · exact ⟨⟨0⟩, hid, by rw [Nat.max_eq_right hle, hnumber]⟩
    · exact ⟨_, hid, by rw [Nat.max_eq_left hle, hid]⟩
  obtain ⟨a, ha, -, -, -, hreturns⟩ := Engine.exists_of_parts? (htests.parts_test hc hlowers even)
  have hlt : u.value.toNat < 2 ^ u.bits := by
    rw [← u.value_masked, toNat_and_mask _ u.bits_le]
    exact Nat.mod_lt _ (Nat.two_pow_pos _)
  have hrun := htests.computes_test hc hlowers hlt ha
  rw [UInt64.ofNat_toNat] at hrun
  have hencode : (declaring u.bits).types.encodeAll [v] [(engine.types.ensureScalar u.bits).1] =
      .ok [.scalar u.value] := by
    rw [TypeTable.encodeAll, encode_integer hv hid]
    rfl
  exact hprepared.returns_of_computes (hdescends.functions ▸ engine_decorated (test_mem even))
    (.cons (specialises_integer (hdescends.options ▸ engine_defaultBits) hv hid) .nil) ha hencode rfl hrun
    hreturns (decode_scalar hnumber _)

/-- Whatever has been served before, the tests say of an integer, with a width or without one, whether the
number that it is encoded to is even or odd. -/
theorem parity_decided (h : engine.Onward e) (hv : v.asUint 24 = some u) :
    (∀ name ∈ ["is_even", "is_odd"], ∃ id e',
      e.update (Update.signatureOf name [v]) = (.ok ⟨name, [id]⟩, e') ∧
      e'.types.encode v id = .ok (.scalar u.value)) ∧
    e.Returns "is_even" [v] (.u24 (if u.value.toNat % 2 = 0 then 1 else 0)) ∧
    e.Returns "is_odd" [v] (.u24 (if u.value.toNat % 2 = 0 then 0 else 1)) := by
  obtain ⟨hdescends, -⟩ := h.descends engine_prepared.descends
  have hreturns : ∀ even, e.Returns (testName even) [v] (.u24 (verdict even u.value.toNat)) := fun even =>
    (declaring_onward u).returns engine_prepared engine_pure engine_uniform h (recordsIn_of_asUint hv)
      (returns_verdict hv even)
  refine ⟨fun name _ => ?_, ?_, ?_⟩
  · exact signatureOf_integer hdescends.types (hdescends.options ▸ engine_defaultBits) hv name
  · have heven : verdict true u.value.toNat = if u.value.toNat % 2 = 0 then 1 else 0 := by simp [verdict]
    exact heven ▸ hreturns true
  · have hodd : verdict false u.value.toNat = if u.value.toNat % 2 = 0 then 0 else 1 := by
      unfold verdict
      split <;> simp_all
    exact hodd ▸ hreturns false

/-- The tests take numbers that are narrower and wider than literals, whatever they have been asked before. -/
theorem parity_decided_widths :
    usedEngine.Returns "is_even" [.uint (Uint.wrap 8 7)] (.u24 0) ∧
    usedEngine.Returns "is_odd" [.uint (Uint.wrap 64 18446744073709551615)] (.u24 1) ∧
    (usedEngine.after 0 (.specialize "is_odd" [.int 3])).Returns "is_even" [.int 16777218] (.u24 1) := by
  have hused : engine.Onward usedEngine := .after .start trivial
  have hasked : engine.Onward (usedEngine.after 0 (.specialize "is_odd" [.int 3])) := hused.after trivial
  have hbyte := (parity_decided hused (v := .uint (Uint.wrap 8 7)) rfl).2.1
  have hword := (parity_decided hused (v := .uint (Uint.wrap 64 18446744073709551615)) rfl).2.2
  have hint := (parity_decided hasked (v := .int 16777218) rfl).2.1
  rw [if_neg (by decide)] at hbyte hword
  rw [if_pos (by decide)] at hint
  exact ⟨hbyte, hword, hint⟩

end ShapeCompiler.Catalog
