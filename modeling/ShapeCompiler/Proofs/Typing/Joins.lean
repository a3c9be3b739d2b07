import ShapeCompiler.Proofs.Dispatch
import ShapeCompiler.Proofs.Typing.Passes

/-!
Joins are least upper bounds.

Two static types need not have a common one above them: of two scalars, or of two records without a
common home, nothing is above both. A join succeeds exactly where there is one, and yields the least of
them. The other laws of joins follow from this alone, for what is least above some static types does not
depend on their order, on their grouping, or on how often each of them is named (`foldlM_join_congr`).

Main statement: in every table that registrations lead to, joins are lawful (`Typing.lawfulJoin`).
-/

namespace ShapeCompiler

open TypeTable

variable {c : Typing} {t : TypeTable} {a b d s s' u : StaticType} {ss ss' : List StaticType}

/-! ### The order -/

namespace StaticType

/-- A static type is above each of some others. -/
def Bounds (t : TypeTable) (ss : List StaticType) (s : StaticType) : Prop := ∀ x ∈ ss, x.Below t s

/-- The least of the static types that are above each of some others. -/
structure LeastAbove (t : TypeTable) (ss : List StaticType) (s : StaticType) : Prop where
  bounds : Bounds t ss s
  least : ∀ u, Bounds t ss u → s.Below t u

@[simp] theorem bounds_nil : Bounds t [] s := by
  simp [Bounds]

@[simp] theorem bounds_cons : Bounds t (a :: ss) s ↔ a.Below t s ∧ Bounds t ss s := by
  simp [Bounds]

theorem bounds_congr (h : ∀ x, x ∈ ss ↔ x ∈ ss') : Bounds t ss s ↔ Bounds t ss' s :=
  forall_congr' fun x => imp_congr_left (h x)

theorem leastAbove_congr (h : ∀ u, Bounds t ss u ↔ Bounds t ss' u) :
    LeastAbove t ss s ↔ LeastAbove t ss' s :=
  ⟨fun hs => ⟨(h s).1 hs.bounds, fun u hu => hs.least u ((h u).2 hu)⟩,
    fun hs => ⟨(h s).2 hs.bounds, fun u hu => hs.least u ((h u).1 hu)⟩⟩

theorem LeastAbove.unique (hw : t.WellFormed) (h : LeastAbove t ss s) (h' : LeastAbove t ss s') : s = s' :=
  (h.least s' h'.bounds).antisymm hw (h'.least s h.bounds)

/-- Beyond equality the order says that unknown is below everything, the sentinel below every type, and a
record below its home. -/
theorem below_iff : a.Below t b ↔ a = b ∨ a = .unknown ∨ (a = .incomplete ∧ b ≠ .unknown) ∨
    ∃ id r S, t.record? id = some r ∧ r.home = some S ∧ a = .known id ∧ b = .known S := by
  constructor
  · rintro (_ | _ | id | id)
    · exact .inl rfl
    · exact .inr (.inl rfl)
    · exact .inr (.inr (.inl ⟨rfl, by simp⟩))
    · cases hr : t.record? id with
      | none => exact .inl (by rw [widen_of_no_record hr])
      | some r =>
        cases hh : r.home with
        | none => exact .inl (by rw [widen_of_no_home hr hh])
        | some S => exact .inr (.inr (.inr ⟨id, r, S, hr, hh, rfl, by rw [widen_of_home hr hh]⟩))
  · rintro (rfl | rfl | ⟨rfl, hb⟩ | ⟨id, r, S, hr, hh, rfl, rfl⟩)
    · exact .refl _
    · exact .unknown _
    · cases b with
      | unknown => exact absurd rfl hb
      | incomplete => exact .refl _
      | known id => exact .incomplete id
    · rw [← widen_of_home hr hh]
      exact .widen id

theorem incomplete_below_iff : Below t .incomplete a ↔ a ≠ .unknown := by
  cases a with
  | unknown => exact ⟨nofun, fun h => absurd rfl h⟩
  | incomplete => exact ⟨fun _ => by simp, fun _ => .refl _⟩
  | known id => exact ⟨fun _ => by simp, fun _ => .incomplete id⟩

end StaticType

open StaticType

/-! ### Joins of two -/

namespace Typing

section Join

variable (hw : c.types.WellFormed)
include hw

/-- A join succeeds as soon as anything is above both operands. -/
theorem join_isOk_iff : (∃ s, c.join a b = .ok s) ↔ ∃ u, a.Below c.types u ∧ b.Below c.types u :=
  ⟨fun ⟨s, h⟩ => ⟨s, join_above h, join_above_right h⟩,
    fun ⟨_, ha, hb⟩ => (join_below hw ha hb).imp fun _ h => h.1⟩

theorem exists_join (h : Bounds c.types (a :: b :: ss) s) : ∃ joined, c.join a b = .ok joined := by
  rw [bounds_cons, bounds_cons] at h
  exact (join_isOk_iff hw).2 ⟨s, h.1, h.2.1⟩

theorem leastAbove_of_join (h : c.join a b = .ok s) : LeastAbove c.types [a, b] s := by
  refine ⟨by simp [join_above h, join_above_right h], fun u hu => ?_⟩
  rw [bounds_cons, bounds_cons] at hu
  obtain ⟨joined, hj, hbelow⟩ := join_below hw hu.1 hu.2.1
  cases h.symm.trans hj
  exact hbelow

/-- A join is the least static type above both operands, and fails only where there is none. -/
theorem join_eq_ok : c.join a b = .ok s ↔ LeastAbove c.types [a, b] s := by
  refine ⟨leastAbove_of_join hw, fun h => ?_⟩
  obtain ⟨joined, hj⟩ := exists_join hw h.bounds
  rw [hj, (leastAbove_of_join hw hj).unique hw h]

/-! ### Joins of many -/

/-- Joining one after the other yields the least static type above all. -/
theorem foldlM_join_eq_ok : ss.foldlM c.join a = .ok s ↔ LeastAbove c.types (a :: ss) s := by
  induction ss generalizing a with
  | nil =>
    rw [List.foldlM_nil]
    constructor
    · intro h
      cases h
      exact ⟨by simp [Below.refl], fun u hu => (bounds_cons.1 hu).1⟩
    · intro h
      have ha := h.least a (by simp [Below.refl])
      rw [ha.antisymm hw (bounds_cons.1 h.bounds).1]
      rfl
  | cons b ss ih =>
    -- what is above the first two is what is above their join
    have hstep : ∀ {joined}, c.join a b = .ok joined →
        (LeastAbove c.types (joined :: ss) s ↔ LeastAbove c.types (a :: b :: ss) s) := fun {joined} h => by
      refine leastAbove_congr fun u => ?_
      rw [bounds_cons, bounds_cons, bounds_cons, ← and_assoc]
      refine and_congr_left fun _ =>
        ⟨fun hu => ⟨(join_above h).trans hw hu, (join_above_right h).trans hw hu⟩, fun hu => ?_⟩
      exact (leastAbove_of_join hw h).least u (by simpa using hu)
    rw [List.foldlM_cons]
    constructor
    · intro h
      obtain ⟨joined, hj, h⟩ := bind_eq_ok.1 h
      exact (hstep hj).1 (ih.1 h)
    · intro h
      obtain ⟨joined, hj⟩ := exists_join hw h.bounds
      exact bind_eq_ok.2 ⟨joined, hj, ih.2 ((hstep hj).2 h)⟩

/-- Joining the same static types in another order, or some of them more than once, succeeds in the same
cases and yields the same. -/
theorem foldlM_join_congr (h : ∀ x, x ∈ a :: ss ↔ x ∈ b :: ss') :
    (ss.foldlM c.join a).toOption = (ss'.foldlM c.join b).toOption := by
  refine toOption_eq_of_ok_iff fun s => ?_
  rw [foldlM_join_eq_ok hw, foldlM_join_eq_ok hw]
  exact leastAbove_congr fun u => bounds_congr h

/-! ### Laws -/

theorem join_comm (a b : StaticType) : (c.join a b).toOption = (c.join b a).toOption := by
  refine toOption_eq_of_ok_iff fun s => ?_
  rw [join_eq_ok hw, join_eq_ok hw]
  exact leastAbove_congr fun u => bounds_congr fun x => by simp [or_comm]

/-- Both groupings join the same three static types. -/
theorem join_assoc (a b d : StaticType) :
    (c.join a b >>= fun s => c.join s d).toOption = (c.join b d >>= fun s => c.join a s).toOption := by
  have hright : (c.join b d >>= fun s => c.join a s).toOption =
      (c.join b d >>= fun s => c.join s a).toOption := by
    cases c.join b d with
    | error e => rfl
    | ok s => exact join_comm hw a s
  have hfold : ([b, d].foldlM c.join a).toOption = ([d, a].foldlM c.join b).toOption :=
    foldlM_join_congr hw fun x => by
      simp only [List.mem_cons, List.not_mem_nil, or_false]
      tauto
  rw [hright]
  simpa using hfold

theorem join_of_above (h : a.Below c.types s) : c.join a s = .ok s := by
  refine (join_eq_ok hw).2 ⟨by simp [h, Below.refl], fun u hu => ?_⟩
  rw [bounds_cons, bounds_cons] at hu
  exact hu.2.1

end Join

/-- What can be relied on about joins. Two that fail are not told apart, since their texts name the
operands in order. -/
structure LawfulJoin (c : Typing) : Prop where
  order : IsPartialOrder StaticType (Below c.types)
  below_iff : ∀ {a b : StaticType}, a.Below c.types b ↔
    a = b ∨ a = .unknown ∨ (a = .incomplete ∧ b ≠ .unknown) ∨
      ∃ id r S, c.types.record? id = some r ∧ r.home = some S ∧ a = .known id ∧ b = .known S
  /-- A join yields the least upper bound of its operands where there is one, and fails elsewhere. -/
  least : ∀ {a b s}, c.join a b = .ok s ↔ LeastAbove c.types [a, b] s
  /-- There is one as soon as there is any upper bound. -/
  isOk_iff : ∀ {a b : StaticType}, (∃ s, c.join a b = .ok s) ↔ ∃ u, a.Below c.types u ∧ b.Below c.types u
  comm : ∀ a b, (c.join a b).toOption = (c.join b a).toOption
  idem : ∀ a, c.join a a = .ok a
  assoc : ∀ a b d, (c.join a b >>= fun s => c.join s d).toOption =
    (c.join b d >>= fun s => c.join a s).toOption
  unknown : ∀ a, c.join .unknown a = .ok a ∧ c.join a .unknown = .ok a
  incomplete_below_iff : ∀ {a}, Below c.types .incomplete a ↔ a ≠ .unknown
  incomplete : ∀ a, a ≠ .unknown → c.join .incomplete a = .ok a ∧ c.join a .incomplete = .ok a

theorem isPartialOrder_below (hw : t.WellFormed) : IsPartialOrder StaticType (Below t) where
  refl := .refl
  trans _ _ _ h h' := h.trans hw h'
  antisymm _ _ h h' := h.antisymm hw h'

/-- Joins are lawful in every table that registrations lead to. -/
theorem lawfulJoin (h : c.types.Registered) : c.LawfulJoin :=
  have hw := h.wellFormed
  { order := isPartialOrder_below hw
    below_iff := StaticType.below_iff
    least := join_eq_ok hw
    isOk_iff := join_isOk_iff hw
    comm := join_comm hw
    idem := fun a => join_of_below hw (.refl a)
    assoc := join_assoc hw
    unknown := fun a => ⟨join_of_above hw (.unknown a), join_of_below hw (.unknown a)⟩
    incomplete_below_iff := StaticType.incomplete_below_iff
    incomplete := fun _ ha =>
      have hbelow := StaticType.incomplete_below_iff.2 ha
      ⟨join_of_above hw hbelow, join_of_below hw hbelow⟩ }

end Typing

/-! ### A leaf, a node and a number -/

namespace Catalog

/-- A leaf and a node join to a tree, which is the least type above both. Nothing is above a leaf and a
number, so a leaf, a node and a number do not join, however they are grouped. -/
theorem lawfulJoin_tree :
    treeTyping.types.Registered ∧
    treeTyping.join (.known ⟨1⟩) (.known ⟨2⟩) = .ok (.known ⟨3⟩) ∧
    LeastAbove treeTable [.known ⟨1⟩, .known ⟨2⟩] (.known ⟨3⟩) ∧
    (¬ ∃ u, Below treeTable (.known ⟨1⟩) u ∧ Below treeTable (.known ⟨0⟩) u) ∧
    (treeTyping.join (.known ⟨2⟩) (.known ⟨0⟩) >>= fun s => treeTyping.join (.known ⟨1⟩) s).toOption =
      none := by
  have hlawful := Typing.lawfulJoin (c := treeTyping) treeTable_registered
  have hjoin : treeTyping.join (.known ⟨1⟩) (.known ⟨2⟩) = .ok (.known ⟨3⟩) := by with_unfolding_all rfl
  have hnumber : ∀ id, id = ⟨1⟩ ∨ id = ⟨3⟩ →
      (treeTyping.join (.known id) (.known ⟨0⟩)).toOption = none := by
    rintro _ (rfl | rfl) <;> with_unfolding_all rfl
  refine ⟨treeTable_registered, hjoin, hlawful.least.1 hjoin, fun hu => ?_, ?_⟩
  · obtain ⟨s, hs⟩ := hlawful.isOk_iff.2 hu
    have hnone := hnumber ⟨1⟩ (.inl rfl)
    rw [hs] at hnone
    cases hnone
  · rw [← hlawful.assoc, hjoin]
    exact hnumber ⟨3⟩ (.inr rfl)

end Catalog

end ShapeCompiler
