import ShapeCompiler.Proofs.Specialisations
import ShapeCompiler.Proofs.Trees.Perfect

/-!
Lists as compiled values, and what compiled code makes of them.

A list is a chain of boxed records that ends in a packed one without fields. Both programs that read a list
recurse on its tail: the sum matches on either record (`Catalog.summing`), the length on one of them only, so
that the empty list falls through the match (`Catalog.measuring`). Main statement: on the engine of the
catalog both return what they are named for, modulo `2 ^ 24`, of lists of any length, and the third program
makes the list that counts down from a number (`Catalog.lists_match_reference`).
-/

namespace ShapeCompiler.Catalog

open Machine TypeTable

def nilType : RecordType := ⟨"Nil", [], some ⟨6⟩, 0, .packed []⟩

def consType : RecordType := ⟨"Cons", [⟨"head", ⟨0⟩⟩, ⟨"tail", ⟨6⟩⟩], some ⟨6⟩, 1, .boxed⟩

/-- The table has the types of lists. -/
structure HasLists (t : TypeTable) : Prop where
  wellFormed : t.WellFormed
  number : t.scalarBits? ⟨0⟩ = some 24
  empty : t.recordNamed? "Nil" = some (⟨4⟩, nilType)
  cons : t.recordNamed? "Cons" = some (⟨5⟩, consType)

variable {t : TypeTable} {id : TypeId} {e₀ : Engine} {a : Artifact} {recurse : Reg → Reg → Op} {n : UInt64}
  {ns : List UInt64}

/-! ### Encoding and decoding -/

def listForm : List UInt64 → Compiled
  | [] => .packed 0
  | n :: ns => .boxed 1 [.scalar (Uint.u24 n).value, listForm ns]

/-- The type of the outermost record. -/
def listType : List UInt64 → TypeId
  | [] => ⟨4⟩
  | _ :: _ => ⟨5⟩

theorem admits_list (ht : HasLists t) (ns : List UInt64) (hid : id = listType ns ∨ id = ⟨6⟩) :
    t.Admits id (list ns) := by
  have hwiden : ∀ {name rid r}, t.recordNamed? name = some (rid, r) → r.home = some ⟨6⟩ →
      t.widen rid = ⟨6⟩ := fun hr hh => widen_of_home (recordNamed?_eq_some.1 hr).2 hh
  cases ns with
  | nil => exact ⟨_, _, ht.empty, hid.imp Eq.symm fun h => (hwiden ht.empty rfl).trans h.symm⟩
  | cons n ns => exact ⟨_, _, ht.cons, hid.imp Eq.symm fun h => (hwiden ht.cons rfl).trans h.symm⟩

theorem encodes_list (ht : HasLists t) (ns : List UInt64) : t.Encodes (list ns) (listForm ns) := by
  induction ns with
  | nil =>
    have hnil : t.Encodes (.record "Nil" ([].map .uint)) (listForm []) := .packed ht.empty rfl rfl
    exact hnil
  | cons n ns ih =>
    refine .boxed ht.cons rfl (.cons ?_ (.scalar _) (.cons ?_ ih .nil))
    · exact ht.number
    · exact admits_list ht ns (.inr rfl)

theorem encode_list (ht : HasLists t) (ns : List UInt64) (hid : id = listType ns ∨ id = ⟨6⟩) :
    t.encode (list ns) id = .ok (listForm ns) :=
  ht.wellFormed.encode_of_encodes (encodes_list ht ns) (admits_list ht ns hid)

theorem decode_list (ht : HasLists t) (ns : List UInt64) (hid : id = listType ns ∨ id = ⟨6⟩) :
    t.decode (listForm ns) id = .ok (list ns) :=
  ht.wellFormed.decode_of_encodes (encodes_list ht ns) (admits_list ht ns hid)

theorem recordsIn_list {N : Ident → Prop} (hnil : N "Nil") (hcons : N "Cons") (ns : List UInt64) :
    (list ns).RecordsIn N := by
  induction ns with
  | nil => exact .record hnil (by simp)
  | cons n ns ih => exact .record hcons (List.forall_mem_cons.2 ⟨.uint _, List.forall_mem_singleton.2 ih⟩)

/-! ### The length -/

/-- The code that counts, given how it asks for the length of the tail. -/
def lengthCode (recurse : Reg → Reg → Op) : List Op := [
  .switchTag 0 [6, 1] 6,
  .unpack 0 [(1, .boxed 1)], .const 2 1, recurse 3 1, .binary 4 .add 24 2 3, .ret 4,
  .const 5 0, .ret 5]

theorem apply_add (y z : Int) : Operator.add.apply (word24 y) (word24 z) 24 = .ok (word24 (y + z)) :=
  congrArg Except.ok (word24_add y z)

/-- The empty list matches no arm. -/
theorem computes_lengthNil (h : a.Lists (lengthCode recurse) 6 1) :
    (Machine.start a [listForm []]).Computes e₀ (.scalar 0) := by
  rw [start_eq h]
  refine Leads.computes (fun e => .switchTag (h.op rfl) rfl rfl rfl) ?_
  refine Leads.computes (fun e => .const (h.op rfl) (by simp)) ?_
  exact .ret (h.op rfl) rfl

theorem computes_lengthCons (h : a.Lists (lengthCode recurse) 6 1) {z : Int}
    (hns : Delegates e₀ recurse a (listForm ns) (.scalar (word24 z))) :
    (Machine.start a [listForm (n :: ns)]).Computes e₀ (.scalar (word24 (1 + z))) := by
  rw [start_eq h]
  refine Leads.computes (fun e => .switchTag (h.op rfl) rfl rfl rfl) ?_
  have hunpack : ∀ e, (frameAt a 1 (listForm (n :: ns) :: List.replicate 5 .incomplete)).Leads e
      (frameAt a 2 (listForm (n :: ns) :: listForm ns :: List.replicate 4 .incomplete)) e :=
    fun e => .step (h.op rfl) trivial rfl
  refine Leads.computes hunpack ?_
  refine Leads.computes (fun e => .const (h.op rfl) (by simp)) ?_
  refine hns (h.op rfl) rfl (by simp) ?_
  refine Leads.computes (fun e => .binary (h.op rfl) rfl rfl (apply_add 1 z) (by simp)) ?_
  exact .ret (h.op rfl) rfl

/-- The program as a recursion on lists. -/
def measuring (e₀ : Engine) : Recursion e₀ (List UInt64) where
  name := "length"
  size := List.length
  form := listForm
  result ns := .scalar (word24 ns.length)
  code := lengthCode
  registers := 6
  step ns h hsub := by
    cases ns with
    | nil => exact computes_lengthNil h
    | cons n ns =>
      rw [List.length_cons, Nat.cast_succ, add_comm]
      exact computes_lengthCons h (hsub ns (Nat.lt_succ_self _))

/-! ### The sum -/

/-- The code that adds up, given how it asks for the sum of the tail. -/
def sumCode (recurse : Reg → Reg → Op) : List Op := [
  .switchTag 0 [1, 3] 7,
  .const 1 0, .ret 1,
  .unpack 0 [(2, .boxed 0), (3, .boxed 1)], recurse 4 3, .binary 5 .add 24 2 4, .ret 5,
  .incomplete 6, .ret 6]

theorem computes_sumNil (h : a.Lists (sumCode recurse) 7 1) :
    (Machine.start a [listForm []]).Computes e₀ (.scalar 0) := by
  rw [start_eq h]
  refine Leads.computes (fun e => .switchTag (h.op rfl) rfl rfl rfl) ?_
  refine Leads.computes (fun e => .const (h.op rfl) (by simp)) ?_
  exact .ret (h.op rfl) rfl

theorem computes_sumCons (h : a.Lists (sumCode recurse) 7 1) {z : Int}
    (hns : Delegates e₀ recurse a (listForm ns) (.scalar (word24 z))) :
    (Machine.start a [listForm (n :: ns)]).Computes e₀ (.scalar (word24 (n.toNat + z))) := by
  have hhead : (Uint.u24 n).value = word24 n.toNat := and_mask_eq_word24 n
  rw [start_eq h]
  refine Leads.computes (fun e => .switchTag (h.op rfl) rfl rfl rfl) ?_
  have hunpack : ∀ e, (frameAt a 3 (listForm (n :: ns) :: List.replicate 6 .incomplete)).Leads e
      (frameAt a 4 (listForm (n :: ns) :: .incomplete :: .scalar (word24 n.toNat) :: listForm ns ::
        List.replicate 3 .incomplete)) e :=
    fun e => .step (h.op rfl) trivial (by rw [← hhead]; rfl)
  refine Leads.computes hunpack ?_
  refine hns (h.op rfl) rfl (by simp) ?_
  refine Leads.computes (fun e => .binary (h.op rfl) rfl rfl (apply_add n.toNat z) (by simp)) ?_
  exact .ret (h.op rfl) rfl

/-- The program as a recursion on lists. -/
def summing (e₀ : Engine) : Recursion e₀ (List UInt64) where
  name := "sum_list"
  size := List.length
  form := listForm
  result ns := .scalar (word24 (ns.map UInt64.toNat).sum)
  code := sumCode
  registers := 7
  step ns h hsub := by
    cases ns with
    | nil => exact computes_sumNil h
    | cons n ns =>
      rw [List.map_cons, List.sum_cons, Nat.cast_add]
      exact computes_sumCons h (hsub ns (Nat.lt_succ_self _))

/-! ### Counting down -/

/-- The numbers from one to a number, the largest first. -/
def descending (k : Nat) : List UInt64 := (List.range' 1 k).reverse.map UInt64.ofNat

theorem descending_succ (k : Nat) : descending (k + 1) = UInt64.ofNat (k + 1) :: descending k := by
  rw [descending, List.range'_1_concat, List.reverse_append, Nat.add_comm 1 k]
  rfl

/-- Twice the sum of the numbers up to a number is a product. -/
theorem sum_descending {k : Nat} (hk : k < 2 ^ 64) :
    ((descending k).map UInt64.toNat).sum = k * (k + 1) / 2 := by
  induction k with
  | zero => rfl
  | succ k ih =>
    rw [descending_succ, List.map_cons, List.sum_cons, ih (Nat.lt_of_succ_lt hk),
      UInt64.toNat_ofNat_of_lt' hk, show (k + 1) * (k + 1 + 1) = k * (k + 1) + (k + 1) * 2 by ring,
      Nat.add_mul_div_right _ _ (by decide), Nat.add_comm]

/-- The code that counts down. -/
def descendingCode : List Op := [
  .switchScalar 0 [(0, 1)] 3,
  .construct 1 0 (.packed []) [], .ret 1,
  .const 2 1, .binary 3 .sub 24 0 2, .callSelf 4 [3],
  .construct 5 1 (.boxed [some 24, none]) [0, 4], .ret 5,
  .incomplete 6, .ret 6]

theorem build_cons (n : UInt64) (ns : List UInt64) :
    (Shape.boxed [some 24, none]).build 1 [.scalar n, listForm ns] = .ok (listForm (n :: ns)) := by
  cases ns <;> rfl

theorem computes_descending (h : a.Lists descendingCode 7 1) {k : Nat} (hk : k < 2 ^ 24) :
    (Machine.start a [.scalar (word24 k)]).Computes e₀ (listForm (descending k)) := by
  induction k with
  | zero =>
    rw [start_eq h]
    refine Leads.computes (fun e => .switchScalar (h.op rfl) rfl rfl) ?_
    refine Leads.computes (fun e => .construct (h.op rfl) .nil rfl (by simp)) ?_
    exact .ret (h.op rfl) rfl
  | succ k ih =>
    have hless : Operator.sub.apply (word24 (k + 1 : Nat)) 1 24 = .ok (word24 k) := by
      rw [Tree.apply_sub_one, Nat.cast_succ, Int.add_sub_cancel]
    have hhead : word24 (k + 1 : Nat) = UInt64.ofNat (k + 1) := by
      rw [← UInt64.toNat_inj, toNat_word24, UInt64.toNat_ofNat_of_lt' (Nat.lt_trans hk (by decide))]
      omega
    rw [start_eq h, descending_succ, ← hhead]
    refine Leads.computes (fun e => .switchScalar (h.op rfl) rfl
      (by rw [List.find?_cons, Tree.zero_beq_word24_succ hk])) ?_
    refine Leads.computes (fun e => .const (h.op rfl) (by simp)) ?_
    refine Leads.computes (fun e => .binary (h.op rfl) rfl rfl hless (by simp)) ?_
    refine .callSelf (h.op rfl) (.cons rfl .nil) (by simp) (ih (Nat.lt_of_succ_lt hk)) ?_
    refine Leads.computes (fun e => .construct (h.op rfl) (.cons rfl (.cons rfl .nil)) (build_cons _ _)
      (by simp)) ?_
    exact .ret (h.op rfl) rfl

/-! ### On the engine of the catalog -/

theorem engine_hasLists : HasLists engine.types where
  wellFormed := (Engine.Reached.wellFormed engine_prepared).types
  number := engine_hasTrees.number
  empty := by rw [engine_types]; with_unfolding_all rfl
  cons := by rw [engine_types]; with_unfolding_all rfl

theorem length_parts : (∀ id ∈ [(⟨4⟩ : TypeId), ⟨5⟩], engine.parts? ⟨"length", [id]⟩ =
      some ((measuring engine).entry, 6, [⟨"length", [⟨6⟩]⟩], some ⟨0⟩)) ∧
    engine.parts? ⟨"length", [⟨6⟩]⟩ = some ((measuring engine).own, 6, [], some ⟨0⟩) := by
  decide +kernel

theorem sumList_parts : (∀ id ∈ [(⟨4⟩ : TypeId), ⟨5⟩], engine.parts? ⟨"sum_list", [id]⟩ =
      some ((summing engine).entry, 7, [⟨"sum_list", [⟨6⟩]⟩], some ⟨0⟩)) ∧
    engine.parts? ⟨"sum_list", [⟨6⟩]⟩ = some ((summing engine).own, 7, [], some ⟨0⟩) := by
  decide +kernel

theorem genList_parts : engine.parts? ⟨"gen_list", [⟨0⟩]⟩ = some (descendingCode, 7, [], some ⟨6⟩) := by
  decide +kernel

theorem listType_mem (ns : List UInt64) : listType ns ∈ [(⟨4⟩ : TypeId), ⟨5⟩] := by
  cases ns <;> simp [listType]

theorem specialises_list (ns : List UInt64) : engine.Specialises (list ns) (listType ns) := by
  cases ns with
  | nil => exact (recordNamed?_eq_some.1 engine_hasLists.empty).1
  | cons n ns => exact (recordNamed?_eq_some.1 engine_hasLists.cons).1

theorem returns_length (ns : List UInt64) :
    engine.Returns "length" [list ns] (.u24 (word24 ns.length)) :=
  engine_prepared.returns_of_recursion (r := measuring engine)
    (engine_decorated (d := length) (by simp [programs])) (length_parts.1 _ (listType_mem ns)) length_parts.2
    (specialises_list ns) (encode_list engine_hasLists ns (.inl rfl)) (Tree.decode_number engine_hasTrees _)

theorem returns_sumList (ns : List UInt64) :
    engine.Returns "sum_list" [list ns] (.u24 (word24 (ns.map UInt64.toNat).sum)) :=
  engine_prepared.returns_of_recursion (r := summing engine)
    (engine_decorated (d := sumList) (by simp [programs])) (sumList_parts.1 _ (listType_mem ns))
    sumList_parts.2 (specialises_list ns) (encode_list engine_hasLists ns (.inl rfl))
    (Tree.decode_number engine_hasTrees _)

theorem returns_descending {k : Nat} (hk : k < 2 ^ 24) :
    engine.Returns "gen_list" [.int (UInt64.ofNat k)] (list (descending k)) := by
  obtain ⟨a, ha, -, hlists, -, hreturns⟩ := Engine.exists_of_parts? genList_parts
  have hnumber : engine.Specialises (.int (UInt64.ofNat k)) ⟨0⟩ := by
    show engine.types.scalarBits? ⟨0⟩ = some engine.options.defaultBits
    rw [engine_defaultBits, engine_hasTrees.number]
  have hword : UInt64.ofNat k &&& mask 24 = word24 k := by
    rw [and_mask_eq_word24, UInt64.toNat_ofNat_of_lt' (Nat.lt_trans hk (by decide))]
  refine engine_prepared.returns_of_computes (engine_decorated (d := genList) (by simp [programs]))
    (.cons hnumber .nil) ha ?_ rfl (computes_descending hlists hk) hreturns
    (decode_list engine_hasLists _ (.inr rfl))
  rw [TypeTable.encodeAll, Tree.encode_number engine_hasTrees, hword]
  rfl

/-- Whatever has been served before, the length and the sum of a list are those of its numbers modulo
`2 ^ 24`, and the list that counts down from a number below `2 ^ 24` has the sum of the numbers up to it. -/
theorem lists_match_reference {e : Engine} (h : engine.Onward e) :
    (∀ ns : List UInt64,
      e.Returns "length" [list ns] (.u24 (UInt64.ofNat (ns.length % 2 ^ 24))) ∧
      e.Returns "sum_list" [list ns] (.u24 (UInt64.ofNat ((ns.map UInt64.toNat).sum % 2 ^ 24)))) ∧
    ∀ k < 2 ^ 24,
      e.Returns "gen_list" [.int (UInt64.ofNat k)] (list (descending k)) ∧
      e.Returns "sum_list" [list (descending k)] (.u24 (UInt64.ofNat (k * (k + 1) / 2 % 2 ^ 24))) := by
  have hargs : ∀ ns, ∀ v ∈ [list ns], v.RecordsIn fun n => (engine.types.lookup n).isSome := fun ns =>
    List.forall_mem_singleton.2 (recordsIn_list
      (Option.isSome_of_eq_some (recordNamed?_eq_some.1 engine_hasLists.empty).1)
      (Option.isSome_of_eq_some (recordNamed?_eq_some.1 engine_hasLists.cons).1) ns)
  have hsum : ∀ ns,
      e.Returns "sum_list" [list ns] (.u24 (UInt64.ofNat ((ns.map UInt64.toNat).sum % 2 ^ 24))) := fun ns =>
    engine_prepared.returns engine_pure engine_uniform h (hargs ns) (returns_sumList ns)
  refine ⟨fun ns => ⟨engine_prepared.returns engine_pure engine_uniform h (hargs ns) (returns_length ns), hsum ns⟩,
    fun k hk => ⟨?_, ?_⟩⟩
  · exact engine_prepared.returns engine_pure engine_uniform h (List.forall_mem_singleton.2 (.int _))
      (returns_descending hk)
  · have hdown := hsum (descending k)
    rwa [sum_descending (Nat.lt_trans hk (by decide))] at hdown

/-- Numbers and sums wrap, and the empty list is as good as any other. -/
theorem lists_match_reference_wraps :
    usedEngine.Returns "length" [list []] (.u24 0) ∧
    usedEngine.Returns "sum_list" [list [16777215, 3, 4294967296]] (.u24 2) ∧
    usedEngine.Returns "gen_list" [.int 3] (list [3, 2, 1]) ∧
    usedEngine.Returns "sum_list" [list (descending 8191)] (.u24 16773120) ∧
    usedEngine.Returns "sum_list" [list (descending 8192)] (.u24 4096) := by
  have hused : engine.Onward usedEngine := .after .start trivial
  obtain ⟨hread, hmade⟩ := lists_match_reference hused
  exact ⟨(hread []).1, (hread _).2, (hmade 3 (by decide)).1, (hmade 8191 (by decide)).2,
    (hmade 8192 (by decide)).2⟩

end ShapeCompiler.Catalog
