import ShapeCompiler.Catalog.Shapes
import ShapeCompiler.Proofs.Arithmetic
import ShapeCompiler.Proofs.Independence.Values
import ShapeCompiler.Proofs.RoundTrip

/-!
Trees as values and as compiled values.

The numbers in the leaves of a tree may be of any width; compiled code sees their lowest 24 bits. Main
statements: under its own type and under the sum a tree is encoded to its compiled form
(`Tree.encode_value`), from which the tree with numbers of 24 bits is decoded (`Tree.decode_compiled`),
and the work-list sum of the leaves is their sum modulo `2 ^ 24` (`Tree.leafSum_value`).
-/

namespace ShapeCompiler.Catalog

open TypeTable

inductive Tree where
  | leaf (u : Uint)
  | node (left right : Tree)

/-- The table has the types of trees. -/
structure HasTrees (t : TypeTable) : Prop where
  wellFormed : t.WellFormed
  number : t.scalarBits? ⟨0⟩ = some 24
  leaf : t.recordNamed? "Leaf" = some (⟨1⟩, leafType)
  node : t.recordNamed? "Node" = some (⟨2⟩, nodeType)

/-! ### Numbers modulo `2 ^ 24` -/

def word24 (z : Int) : UInt64 := UInt64.ofNat (z % 2 ^ 24).toNat

theorem toNat_word24 (z : Int) : (word24 z).toNat = (z % 2 ^ 24).toNat := by
  rw [word24, UInt64.toNat_ofNat', Nat.mod_eq_of_lt]
  omega

theorem and_mask_eq_word24 (n : UInt64) : n &&& mask 24 = word24 n.toNat := by
  rw [← UInt64.toNat_inj, toNat_and_mask n (by decide), toNat_word24]
  omega

/-- A sum of words is cut to the word of the sum. -/
theorem word24_add (y z : Int) : (word24 y + word24 z) &&& mask 24 = word24 (y + z) := by
  rw [← UInt64.toNat_inj, toNat_and_mask _ (by decide), Operator.toNat_add_mod (by decide), toNat_word24,
    toNat_word24, toNat_word24]
  omega

/-- A difference of words is cut to the word of the difference. -/
theorem word24_sub (y z : Int) : (word24 y - word24 z) &&& mask 24 = word24 (y - z) := by
  rw [← UInt64.toNat_inj, toNat_and_mask _ (by decide), Operator.toNat_sub_mod (by decide), toNat_word24,
    toNat_word24, toNat_word24]
  omega

theorem word24_and_mask (z : Int) : word24 z &&& mask 24 = word24 z := by
  rw [and_mask_eq_word24, ← UInt64.toNat_inj, toNat_word24, toNat_word24]
  omega

/-! ### Integers as compiled values -/

section Integers

variable {t : TypeTable} {id : TypeId} {v : Value} {u : Uint}

theorem encode_integer (hv : v.asUint 24 = some u) (hid : t.scalarBits? id = some u.bits) :
    t.encode v id = .ok (.scalar u.value) := by
  have hrun : EncodeTask.run t [.value v id] [] = .ok [.scalar u.value] := by
    cases v with
    | int n =>
      cases hv
      simp only [EncodeTask.run, scalarBits?_eq_some.1 hid]
      rfl
    | uint u' =>
      cases hv
      simp only [EncodeTask.run, scalarBits?_eq_some.1 hid, u.value_masked]
    | record name vs => cases hv
    | incomplete => cases hv
  rw [encode, hrun]

theorem decode_scalar {bits : Nat} (hid : t.scalarBits? id = some bits) (n : UInt64) :
    t.decode (.scalar n) id = .ok (.uint (Uint.wrap bits n)) := by
  have hrun : DecodeTask.run t [.value (.scalar n) id] [] = .ok [.uint (Uint.wrap bits n)] := by
    simp only [DecodeTask.run, hid]
  rw [decode, hrun]

end Integers

namespace Tree

variable {t : TypeTable} {id : TypeId}

def value : Tree → Value
  | leaf u => .record "Leaf" [.uint u]
  | node l r => Catalog.node l.value r.value

/-- The tree with its numbers wrapped to 24 bits. -/
def narrow : Tree → Tree
  | leaf u => leaf (Uint.u24 u.value)
  | node l r => node l.narrow r.narrow

def compiled : Tree → Compiled
  | leaf u => .packed (pack 1 [⟨8, 24⟩] [(Uint.u24 u.value).value])
  | node l r => .boxed 0 [l.compiled, r.compiled]

/-- The type of the outermost record. -/
def type : Tree → TypeId
  | leaf _ => ⟨1⟩
  | node _ _ => ⟨2⟩

/-- What the leaves amount to if a number amounts to `g`. -/
def total (g : Uint → Nat) : Tree → Nat
  | leaf u => g u
  | node l r => l.total g + r.total g

/-- The sum of the numbers in the leaves. -/
def sum : Tree → Nat := total fun u => u.value.toNat

def leaves : Tree → Nat := total fun _ => 1

/-! ### Encoding and decoding -/

theorem tag_leaf (u : Uint) : (leaf u).compiled.tag? = some 1 :=
  congrArg some (toUInt8_pack 1 _ ⟨rfl, by decide, by decide, trivial⟩)

theorem read_leaf (u : Uint) :
    Slot.read ⟨8, 24⟩ (pack 1 [⟨8, 24⟩] [(Uint.u24 u.value).value]) = word24 u.value.toNat := by
  have hslots : Adjacent tagBits [⟨8, 24⟩] := ⟨rfl, by decide, by decide, trivial⟩
  have hfit : FitSlots [⟨8, 24⟩] [(Uint.u24 u.value).value] := ⟨(Uint.u24 u.value).value_masked, trivial⟩
  rw [← and_mask_eq_word24]
  exact (List.cons.inj (map_read_pack hslots hfit fun i hi => bit_tag 1 hi)).1

theorem admits_value (ht : HasTrees t) (tree : Tree) (hid : id = tree.type ∨ id = ⟨3⟩) :
    t.Admits id tree.value := by
  have hwiden : ∀ {name rid r}, t.recordNamed? name = some (rid, r) → r.home = some ⟨3⟩ →
      t.widen rid = ⟨3⟩ := fun hr hh => widen_of_home (recordNamed?_eq_some.1 hr).2 hh
  cases tree with
  | leaf u => exact ⟨_, _, ht.leaf, hid.imp Eq.symm fun h => (hwiden ht.leaf rfl).trans h.symm⟩
  | node l r => exact ⟨_, _, ht.node, hid.imp Eq.symm fun h => (hwiden ht.node rfl).trans h.symm⟩

/-- The compiled form of a tree is that of the tree with numbers of 24 bits. -/
theorem encodes_narrow (ht : HasTrees t) (tree : Tree) : t.Encodes tree.narrow.value tree.compiled := by
  induction tree with
  | leaf u =>
    have hleaf : t.Encodes (.record "Leaf" ([Uint.u24 u.value].map .uint)) (leaf u).compiled :=
      .packed ht.leaf rfl rfl
    exact hleaf
  | node l r hl hr =>
    refine .boxed ht.node rfl (.cons ?_ hl (.cons ?_ hr .nil))
    · exact admits_value ht _ (.inr rfl)
    · exact admits_value ht _ (.inr rfl)

theorem norm_value (ht : HasTrees t) (tree : Tree) : t.norm id tree.value = tree.narrow.value := by
  induction tree generalizing id with
  | leaf u =>
    simp only [value, TypeTable.norm, fieldsOf_eq ht.leaf, leafType, normFields, integerAt, ht.number]
    rfl
  | node l r hl hr =>
    simp only [value, Catalog.node, TypeTable.norm, fieldsOf_eq ht.node, nodeType, normFields, hl, hr]
    rfl

theorem narrow_narrow (tree : Tree) : tree.narrow.narrow = tree.narrow := by
  induction tree with
  | leaf u =>
    have hwrap : Uint.u24 (Uint.u24 u.value).value = Uint.u24 u.value := Uint.wrap_self (Uint.u24 u.value)
    rw [narrow, narrow, hwrap]
  | node l r hl hr => rw [narrow, narrow, hl, hr]

theorem type_narrow (tree : Tree) : tree.narrow.type = tree.type := by cases tree <;> rfl

theorem encode_value (ht : HasTrees t) (tree : Tree) (hid : id = tree.type ∨ id = ⟨3⟩) :
    t.encode tree.value id = .ok tree.compiled := by
  have hnarrow : t.encode tree.narrow.value id = .ok tree.compiled :=
    ht.wellFormed.encode_of_encodes (encodes_narrow ht tree)
      (admits_value ht tree.narrow (by rwa [type_narrow]))
  rw [ht.wellFormed.encode_eq_iff hnarrow, norm_value ht, norm_value ht, narrow_narrow]

theorem decode_compiled (ht : HasTrees t) (tree : Tree) (hid : id = tree.type ∨ id = ⟨3⟩) :
    t.decode tree.compiled id = .ok tree.narrow.value := by
  rw [ht.wellFormed.decode_encode (encode_value ht tree hid), norm_value ht]

/-- A number without a width is encoded to 24 bits. -/
theorem encode_number (ht : HasTrees t) (n : UInt64) :
    t.encode (.int n) ⟨0⟩ = .ok (.scalar (n &&& mask 24)) :=
  encode_integer (v := .int n) (u := Uint.u24 n) rfl ht.number

theorem decode_number (ht : HasTrees t) (n : UInt64) : t.decode (.scalar n) ⟨0⟩ = .ok (.u24 n) :=
  decode_scalar ht.number n

theorem recordsIn_value {N : Ident → Prop} (hleaf : N "Leaf") (hnode : N "Node") (tree : Tree) :
    tree.value.RecordsIn N := by
  induction tree with
  | leaf u => exact .record hleaf (List.forall_mem_singleton.2 (.uint u))
  | node l r hl hr => exact .record hnode (List.forall_mem_cons.2 ⟨hl, List.forall_mem_singleton.2 hr⟩)

/-! ### The sum of the leaves -/

/-- The work list adds the numbers of one tree before it goes on. -/
theorem sumLeaves_value (tree : Tree) (sum : UInt64) (rest : List Value) :
    sumLeaves sum (tree.value :: rest) = sumLeaves (sum + UInt64.ofNat tree.sum) rest := by
  induction tree generalizing sum rest with
  | leaf u =>
    rw [value, sumLeaves, Tree.sum, total, UInt64.ofNat_toNat]
  | node l r hl hr =>
    have hnode : sumLeaves sum (Catalog.node l.value r.value :: rest) =
        sumLeaves sum (l.value :: r.value :: rest) := by
      rw [Catalog.node, sumLeaves]
    rw [value, hnode, hl, hr, UInt64.add_assoc, ← UInt64.ofNat_add]
    rfl

/-- The work-list sum is the sum of the leaves modulo `2 ^ 24`. -/
theorem leafSum_value (tree : Tree) : leafSum tree.value = word24 tree.sum := by
  rw [leafSum, sumLeaves_value, sumLeaves, UInt64.zero_add, ← UInt64.toNat_inj, toNat_and_mask _ (by decide),
    UInt64.toNat_ofNat', mod_word_mod _ (by decide), toNat_word24]
  omega

end Tree

end ShapeCompiler.Catalog
