import ShapeCompiler.Proofs.Lowering.Pools

/-!
Where lowering puts the arms of a match.

Main statement: each arm that can run stands at the position which the match jumps to, followed by a
jump behind the match if it exits (`Lowerer.exprArms_lowered`, `Lowerer.blockArms_lowered`,
`LoweredArm.Chained.placed`).
-/

namespace ShapeCompiler

/-- From a position on, the code goes on with some instructions. -/
def Placed (code : Array Op) (start : Nat) (ops : List Op) : Prop :=
  ∀ k op, ops[k]? = some op → code[start + k]? = some op

section Placed

variable {code : Array Op} {start : Nat} {xs ys : List Op} {op : Op}

theorem placed_append :
    Placed code start (xs ++ ys) ↔ Placed code start xs ∧ Placed code (start + xs.length) ys := by
  constructor
  · intro h
    refine ⟨fun k op hk => h k op ?_, fun k op hk => ?_⟩
    · rw [List.getElem?_append_left (List.getElem?_eq_some_iff.1 hk).1, hk]
    · rw [Nat.add_assoc]
      refine h _ op ?_
      rw [List.getElem?_append_right (Nat.le_add_right _ _), Nat.add_sub_cancel_left, hk]
  · rintro ⟨hx, hy⟩ k op hk
    rcases Nat.lt_or_ge k xs.length with hlt | hge
    · rw [List.getElem?_append_left hlt] at hk
      exact hx k op hk
    · rw [List.getElem?_append_right hge] at hk
      have := hy _ op hk
      rwa [Nat.add_assoc, Nat.add_sub_cancel' hge] at this

theorem placed_singleton : Placed code start [op] ↔ code[start]? = some op := by
  constructor
  · exact fun h => h 0 op rfl
  · intro h k op' hk
    cases k with
    | zero => cases hk; exact h
    | succ k => cases hk

/-- Code that is lowered for a whole array stands at its beginning. -/
theorem placed_toList (code : Array Op) : Placed code 0 code.toList := by
  intro k op hk
  rwa [Nat.zero_add, ← Array.getElem?_toList]

end Placed

namespace LoweredArm

variable {arms : List LoweredArm} {a : LoweredArm} {start target index : Nat}

/-- Arms that stand one after another, the first one at a position. -/
def Chained : Nat → List LoweredArm → Prop
  | _, [] => True
  | start, a :: rest => a.start = start ∧ Chained (start + a.size) rest

theorem length_joinTo : (joinTo target arms).length = totalSize arms := by
  induction arms with
  | nil => rfl
  | cons a rest ih =>
    have hcons : joinTo target (a :: rest) =
        (a.code ++ if a.exits then [Op.jump target] else []) ++ joinTo target rest := rfl
    rw [hcons, List.length_append, ih, totalSize, List.length_append, size]
    split <;> rfl

/-- A match ends with the code of its last arm. -/
theorem length_match {front : List Op} {op : Op} :
    start + (front ++ [op] ++ joinTo target arms).length = start + front.length + 1 + totalSize arms := by
  simp only [List.length_append, List.length_singleton, length_joinTo]
  omega

/-- The subject of a match, the instruction that picks an arm, the arms and what comes behind them. -/
theorem placed_match {code : Array Op} {front rest : List Op} {op : Op} :
    Placed code start (front ++ [op] ++ joinTo target arms ++ rest) ↔
      Placed code start front ∧ Placed code (start + front.length) [op] ∧
      Placed code (start + front.length + 1) (joinTo target arms) ∧
      Placed code (start + front.length + 1 + totalSize arms) rest := by
  rw [placed_append, length_match, placed_append, placed_append, List.length_append, ← Nat.add_assoc,
    List.length_singleton, and_assoc, and_assoc]

/-- Each of the arms stands where it starts, with the jump behind it. -/
theorem Chained.placed {code : Array Op} (h : Chained start arms)
    (hp : Placed code start (joinTo target arms)) (ha : a ∈ arms) :
    Placed code a.start (a.code ++ if a.exits then [.jump target] else []) := by
  induction arms generalizing start with
  | nil => cases ha
  | cons b rest ih =>
    obtain ⟨hb, hrest⟩ := h
    have hcons : joinTo target (b :: rest) =
        (b.code ++ if b.exits then [Op.jump target] else []) ++ joinTo target rest := rfl
    rw [hcons, placed_append] at hp
    rcases List.mem_cons.1 ha with rfl | ha
    · rw [hb]
      exact hp.1
    · refine ih hrest ?_ ha
      have hsize : (b.code ++ if b.exits then [Op.jump target] else []).length = b.size := by
        rw [List.length_append, size]
        split <;> rfl
      rw [← hsize]
      exact hp.2

theorem startOf_cons_self : startOf (a :: arms) a.index = some a.start := by
  simp [startOf]

theorem startOf_cons_of_ne (h : a.index ≠ index) : startOf (a :: arms) index = startOf arms index := by
  simp [startOf, h]

end LoweredArm

namespace Lowerer

open LoweredArm

variable {l : Lowerer} {p p' : Pool} {env : RegEnv} {subject dst : Reg} {type joined t : StaticType}
  {reachable : List Nat} {lowered : List LoweredArm} {start index : Nat}

/-- The arm at a position of a match has been lowered, its scope and its body between two pools;
`body` is the lowering of what the arm does in its scope, and whether that always returns. -/
def ArmLowered (l : Lowerer) (env : RegEnv) (subject : Reg) (type : StaticType) (p p' : Pool)
    (lowered : List LoweredArm) (index : Nat) (pattern : Pattern)
    (body : Nat → RegEnv → LowerM (List Op × Bool)) : Prop :=
  ∃ arm ∈ lowered, startOf lowered index = some arm.start ∧
    ∃ p₁ p₂ p₃ scope unpack code returns, p.Le p₁ ∧
      (l.bindPattern env pattern subject type).run p₁ = .ok ((scope, unpack), p₂) ∧
      (body (arm.start + unpack.length) scope).run p₂ = .ok ((code, returns), p₃) ∧ p₃.Le p' ∧
      arm.code = unpack ++ code ∧ arm.exits = !returns

theorem ArmLowered.starts {pattern : Pattern} {body : Nat → RegEnv → LowerM (List Op × Bool)}
    (h : ArmLowered l env subject type p p' lowered index pattern body) :
    ∃ start, startOf lowered index = some start := by
  obtain ⟨arm, -, hs, -⟩ := h
  exact ⟨arm.start, hs⟩

theorem ArmLowered.cons {a : LoweredArm} {p₀ : Pool} {pattern : Pattern}
    {body : Nat → RegEnv → LowerM (List Op × Bool)} (hp : p₀.Le p) (ha : a.index ≠ index)
    (h : ArmLowered l env subject type p p' lowered index pattern body) :
    ArmLowered l env subject type p₀ p' (a :: lowered) index pattern body := by
  obtain ⟨arm, harm, hstart, p₁, p₂, p₃, scope, unpack, code, returns, hp₁, h⟩ := h
  exact ⟨arm, List.mem_cons_of_mem _ harm, by rw [startOf_cons_of_ne ha, hstart], p₁, p₂, p₃, scope,
    unpack, code, returns, Pool.le_ordered.trans hp hp₁, h⟩

/-- What the arm of an expression does: it moves its value to the register of the match. -/
def armExpr (l : Lowerer) (dst : Reg) (body : Expr) (start : Nat) (scope : RegEnv) :
    LowerM (List Op × Bool) := do
  let b ← l.expr start scope body
  pure (b.code ++ [.move dst b.reg], false)

theorem run_armExpr {body : Expr} {scope : RegEnv} {b : LoweredExpr}
    (h : (l.expr start scope body).run p = .ok (b, p')) :
    (l.armExpr dst body start scope).run p = .ok ((b.code ++ [.move dst b.reg], false), p') :=
  run_bind_eq_ok.2 ⟨b, p', h, rfl⟩

theorem exprArms_lowered {arms : List (Arm Expr)}
    (h : (l.exprArms start env subject type dst reachable index joined arms).run p =
      .ok ((t, lowered), p')) :
    Chained start lowered ∧ ∀ k a, index + k ∈ reachable → arms[k]? = some a →
      ArmLowered l env subject type p p' lowered (index + k) a.pattern (l.armExpr dst a.body) := by
  have ho := Pool.le_ordered
  induction arms generalizing start index joined lowered p p' with
  | nil =>
    rw [exprArms] at h
    obtain ⟨h, -⟩ := run_pure_eq_ok.1 h
    cases h
    exact ⟨trivial, by simp⟩
  | cons a rest ih =>
    rw [exprArms] at h
    split at h
    · obtain ⟨⟨scope, unpack⟩, p₁, hb, h⟩ := run_bind_eq_ok.1 h
      obtain ⟨b, p₂, he, h⟩ := run_bind_eq_ok.1 h
      obtain ⟨joined', p₃, hl, h⟩ := run_bind_eq_ok.1 h
      obtain ⟨-, rfl⟩ := run_lift_eq_ok.1 hl
      obtain ⟨⟨t', lowered'⟩, p₄, hr, h⟩ := run_bind_eq_ok.1 h
      obtain ⟨h, rfl⟩ := run_pure_eq_ok.1 h
      cases h
      obtain ⟨hchain, harms⟩ := ih hr
      refine ⟨⟨rfl, hchain⟩, ?_⟩
      intro k x hk hx
      cases k with
      | zero =>
        cases hx
        refine ⟨_, List.mem_cons_self, startOf_cons_self, p, p₁, p₂, scope, unpack, _, false,
          ho.refl p, hb, run_armExpr he, ?_, List.append_assoc _ _ _, rfl⟩
        exact exprArms_increasing _ _ _ _ _ _ _ hr
      | succ k =>
        have hlt : index ≠ index + (k + 1) := by omega
        rw [← Nat.add_assoc, Nat.add_right_comm] at hk hlt ⊢
        refine (harms k x hk hx).cons ?_ hlt
        exact ho.trans (bindPattern_increasing _ _ _ _ _ _ _ hb) (expr_increasing a.body _ _ _ _ _ he)
    · rename_i hnot
      obtain ⟨hchain, harms⟩ := ih h
      refine ⟨hchain, ?_⟩
      intro k x hk hx
      cases k with
      | zero => exact absurd hk hnot
      | succ k =>
        rw [← Nat.add_assoc, Nat.add_right_comm] at hk ⊢
        exact harms k x hk hx

theorem blockArms_lowered {arms : List (Arm (List Stmt))}
    (h : (l.blockArms start env subject type reachable index arms).run p = .ok (lowered, p')) :
    Chained start lowered ∧ ∀ k a, index + k ∈ reachable → arms[k]? = some a →
      ArmLowered l env subject type p p' lowered (index + k) a.pattern
        (fun start scope => l.block start scope a.body) := by
  have ho := Pool.le_ordered
  induction arms generalizing start index lowered p p' with
  | nil =>
    rw [blockArms] at h
    obtain ⟨rfl, -⟩ := run_pure_eq_ok.1 h
    exact ⟨trivial, by simp⟩
  | cons a rest ih =>
    rw [blockArms] at h
    split at h
    · obtain ⟨⟨scope, unpack⟩, p₁, hb, h⟩ := run_bind_eq_ok.1 h
      obtain ⟨⟨code, returns⟩, p₂, he, h⟩ := run_bind_eq_ok.1 h
      obtain ⟨lowered', p₃, hr, h⟩ := run_bind_eq_ok.1 h
      obtain ⟨rfl, rfl⟩ := run_pure_eq_ok.1 h
      obtain ⟨hchain, harms⟩ := ih hr
      refine ⟨⟨rfl, hchain⟩, ?_⟩
      intro k x hk hx
      cases k with
      | zero =>
        cases hx
        refine ⟨_, List.mem_cons_self, startOf_cons_self, p, p₁, p₂, scope, unpack, code, returns,
          ho.refl p, hb, he, ?_, rfl, rfl⟩
        exact blockArms_increasing _ _ _ _ _ _ hr
      | succ k =>
        have hlt : index ≠ index + (k + 1) := by omega
        rw [← Nat.add_assoc, Nat.add_right_comm] at hk hlt ⊢
        refine (harms k x hk hx).cons ?_ hlt
        exact ho.trans (bindPattern_increasing _ _ _ _ _ _ _ hb) (block_increasing a.body _ _ _ _ _ he)
    · rename_i hnot
      obtain ⟨hchain, harms⟩ := ih h
      refine ⟨hchain, ?_⟩
      intro k x hk hx
      cases k with
      | zero => exact absurd hk hnot
      | succ k =>
        rw [← Nat.add_assoc, Nat.add_right_comm] at hk ⊢
        exact harms k x hk hx

end Lowerer

end ShapeCompiler
