import Std.Data.TreeSet.Basic
import ShapeCompiler.Error
import ShapeCompiler.Types

/-!
Registering a group of declarations that may refer to each other.

The group is checked and resolved on a copy of the table: first its names, then its sums, then the
fields of its records. Either all declarations are registered or the table stays as it was. A
declaration that is already registered in the same words is accepted and keeps its number.
-/

namespace ShapeCompiler.TypeTable

def declaration? (t : TypeTable) (name : Ident) : Option TypeDecl :=
  t.declared.find? (·.name == name)

/-- The names of a group that are new to the table, in order; `known` are those seen before. -/
def freshNames (t : TypeTable) (known : List Ident) : List TypeDecl → Except TypeError (List Ident)
  | [] => .ok known
  | d :: rest =>
    if (scalarWidth d.name).isSome then .error (.builtinScalar d.name)
    else
      match t.declaration? d.name with
      | some old => if old = d then t.freshNames known rest else .error (.redeclared d.name)
      | none =>
        if d.name ∈ known then .error (.declaredTwice d.name)
        else t.freshNames (known ++ [d.name]) rest

def fieldTypes : TypeDecl → List Ident
  | .record _ fields => fields.map Prod.snd
  | .sum _ _ => []

/-- Registers a scalar for a field type that nothing else is called. -/
def withFieldScalar (fresh : List Ident) (t : TypeTable) (type : Ident) : TypeTable :=
  if type ∈ fresh ∨ (t.lookup type).isSome then t
  else
    match scalarWidth type with
    | some bits => (t.ensureScalar bits).2
    | none => t

def withFieldScalars (t : TypeTable) (fresh : List Ident) (group : List TypeDecl) : TypeTable :=
  (group.flatMap fieldTypes).foldl (withFieldScalar fresh) t

/-- The number that a new name is going to have: fresh types follow the registered ones. -/
def freshId (t : TypeTable) (fresh : List Ident) (name : Ident) : Option TypeId :=
  (fresh.findIdx? (· == name)).map fun i => ⟨t.size + i⟩

/-- Whether a name is that of a record of the group which is new to the table. -/
def isFreshRecord (group : List TypeDecl) (fresh : List Ident) (name : Ident) : Bool :=
  group.any (fun | .record n _ => n == name | .sum _ _ => false) && fresh.contains name

/-- The home and the tag given to a record by a sum of the group. -/
structure Home where
  record : Ident
  sum : TypeId
  tag : UInt8

/-- The homes after one more sum has claimed its variants, the first of which has tag `tag`. -/
def claimVariants (group : List TypeDecl) (fresh : List Ident) (sum : Ident) (id : TypeId) :
    Nat → List Home → List Ident → Except TypeError (List Home)
  | _, homes, [] => .ok homes
  | tag, homes, v :: rest =>
    if !isFreshRecord group fresh v then .error (.foreignVariant v sum)
    else if homes.any (·.record == v) then .error (.sharedVariant v)
    else
      claimVariants group fresh sum id (tag + 1) (homes ++ [⟨v, id, UInt8.ofNat tag⟩]) rest

def claimHomes (t : TypeTable) (group : List TypeDecl) (fresh : List Ident) :
    List Home → List TypeDecl → Except TypeError (List Home)
  | homes, [] => .ok homes
  | homes, .record _ _ :: rest => t.claimHomes group fresh homes rest
  | homes, .sum name variants :: rest =>
    match t.freshId fresh name with
    | none => t.claimHomes group fresh homes rest
    | some id =>
      if variants.length < 2 then .error (.tooFewVariants name)
      else if 256 < variants.length then .error (.tooManyVariants name)
      else
        match claimVariants group fresh name id 0 homes variants with
        | .ok homes => t.claimHomes group fresh homes rest
        | .error e => .error e

/-- The fields of a record with their types by number; `seen` are the names of those before. -/
def resolveFields (t : TypeTable) (fresh : List Ident) (record : Ident) :
    Std.TreeSet Ident → List (Ident × Ident) → Except TypeError (List Field)
  | _, [] => .ok []
  | seen, (field, type) :: rest =>
    if seen.contains field then .error (.duplicateField record field)
    else
      match (t.freshId fresh type).or (t.lookup type) with
      | none => .error (.unresolvedField type record field)
      | some id => (t.resolveFields fresh record (seen.insert field) rest).map (⟨field, id⟩ :: ·)

/-- The slots of fields that start at bit `shift`, if all are scalars that fit into the word. -/
def slotsFrom (t : TypeTable) : Nat → List Field → Option (List Slot)
  | _, [] => some []
  | shift, f :: rest =>
    match t.scalarBits? f.type with
    | none => none
    | some bits =>
      if 64 < shift + bits then none
      else (t.slotsFrom (shift + bits) rest).map (⟨shift, bits⟩ :: ·)

/-- A word if the fields are scalars that fit behind the tag, else a box. -/
def layoutOf (t : TypeTable) (fields : List Field) : Layout :=
  match t.slotsFrom tagBits fields with
  | some slots => .packed slots
  | none => .boxed

def describe (t : TypeTable) (fresh : List Ident) (homes : List Home) :
    TypeDecl → Except TypeError TypeDescriptor
  | .record name fields =>
    match t.resolveFields fresh name {} fields with
    | .error e => .error e
    | .ok resolved =>
      let home := homes.find? (·.record == name)
      .ok (.record {
        name
        fields := resolved
        home := home.map (·.sum)
        tag := (home.map (·.tag)).getD 0
        layout := t.layoutOf resolved })
  | .sum name variants => .ok (.sum ⟨name, variants.filterMap (t.freshId fresh)⟩)

def describeFresh (t : TypeTable) (fresh : List Ident) (homes : List Home) :
    List TypeDecl → Except TypeError (List (TypeDecl × TypeDescriptor))
  | [] => .ok []
  | d :: rest =>
    if d.name ∈ fresh then do
      let here ← t.describe fresh homes d
      let later ← t.describeFresh fresh homes rest
      pure ((d, here) :: later)
    else t.describeFresh fresh homes rest

def register (t : TypeTable) (staged : List (TypeDecl × TypeDescriptor)) : TypeTable where
  types := t.types ++ (staged.map Prod.snd).toArray
  declared := t.declared ++ staged.map Prod.fst

def idsOf (t : TypeTable) : List TypeDecl → Except TypeError (List TypeId)
  | [] => .ok []
  | d :: rest =>
    match t.lookup d.name with
    | none => .error (.notRegistered d.name)
    | some id => (t.idsOf rest).map (id :: ·)

def declare (t : TypeTable) (group : List TypeDecl) :
    Except TypeError (List TypeId × TypeTable) := do
  let fresh ← t.freshNames [] group
  let t := t.withFieldScalars fresh group
  let homes ← t.claimHomes group fresh [] group
  let staged ← t.describeFresh fresh homes group
  let t := t.register staged
  let ids ← t.idsOf group
  pure (ids, t)

def declareScalar (t : TypeTable) (bits : Nat) : Except TypeError (TypeId × TypeTable) :=
  if 1 ≤ bits ∧ bits ≤ 64 then .ok (t.ensureScalar bits) else .error (.widthOutOfRange bits)

end ShapeCompiler.TypeTable
