import ShapeCompiler.Types.Width

/-!
Scalar, record and sum types and the table that numbers them.

Fields refer to other types by number, so a sum that is recursive through its own fields is a
reference back into the table. A record belongs to at most one sum, its home; its tag is its
position there, or zero without a home, so a record is represented alike under its own type and
under its home.
-/

namespace ShapeCompiler

/--
The number of a type in its table.

It is held in a word of 32 bits, to which the size of the table is narrowed unchecked. Here it has no
bound, which is the same for a table of at most `2 ^ 32` types.
-/
structure TypeId where
  index : Nat
  deriving DecidableEq

/-- The number of a type behind a hash mark. -/
def TypeId.text (id : TypeId) : String := "#" ++ toString id.index

/-- A field of a record, and its type. -/
structure Field where
  name : Ident
  type : TypeId
  deriving DecidableEq

/-- The bits of a word that hold one field. -/
structure Slot where
  /-- The lowest bit of the field. -/
  shift : Nat
  bits : Nat
  deriving DecidableEq

/-- How the instances of a record are represented. -/
inductive Layout where
  /-- The tag and every field share one word. -/
  | packed (slots : List Slot)
  /-- A tag and a list of fields. -/
  | boxed
  deriving DecidableEq

/-- The number of low bits of a packed word that hold the tag. -/
def tagBits : Nat := 8

structure RecordType where
  name : Ident
  fields : List Field
  /-- The sum that the record is a variant of. -/
  home : Option TypeId
  /-- The position in the home, zero without one. -/
  tag : UInt8
  layout : Layout
  deriving DecidableEq

namespace RecordType

def fieldIndex? (r : RecordType) (name : Ident) : Option Nat :=
  r.fields.findIdx? (·.name == name)

/-- Whether the instances fit into one word. -/
def isPacked (r : RecordType) : Bool :=
  match r.layout with
  | .packed _ => true
  | .boxed => false

end RecordType

/-- A sum type; the tag of a variant is its position in the list. -/
structure SumType where
  name : Ident
  variants : List TypeId
  deriving DecidableEq

/-- What a type number stands for. -/
inductive TypeDescriptor where
  | scalar (bits : Nat)
  | record (type : RecordType)
  | sum (type : SumType)
  deriving DecidableEq

def TypeDescriptor.name : TypeDescriptor → Ident
  | scalar bits => scalarName bits
  | record type => type.name
  | sum type => type.name

/-- A declaration; types are given by name. -/
inductive TypeDecl where
  | record (name : Ident) (fields : List (Ident × Ident))
  | sum (name : Ident) (variants : List Ident)
  deriving DecidableEq

def TypeDecl.name : TypeDecl → Ident
  | record name _ => name
  | sum name _ => name

/-- The registered types by number, and the declarations they come from. -/
structure TypeTable where
  types : Array TypeDescriptor := #[]
  declared : List TypeDecl := []
  deriving DecidableEq

namespace TypeTable

def size (t : TypeTable) : Nat := t.types.size

def get? (t : TypeTable) (id : TypeId) : Option TypeDescriptor := t.types[id.index]?

def lookup (t : TypeTable) (name : Ident) : Option TypeId :=
  (t.types.findIdx? (·.name == name)).map TypeId.mk

def scalar? (t : TypeTable) (bits : Nat) : Option TypeId := t.lookup (scalarName bits)

def scalarBits? (t : TypeTable) (id : TypeId) : Option Nat :=
  match t.get? id with
  | some (.scalar bits) => some bits
  | _ => none

def record? (t : TypeTable) (id : TypeId) : Option RecordType :=
  match t.get? id with
  | some (.record r) => some r
  | _ => none

def sum? (t : TypeTable) (id : TypeId) : Option SumType :=
  match t.get? id with
  | some (.sum s) => some s
  | _ => none

def recordNamed? (t : TypeTable) (name : Ident) : Option (TypeId × RecordType) :=
  (t.lookup name).bind fun id => (t.record? id).map (id, ·)

/-- The home of a record, every other type itself. -/
def widen (t : TypeTable) (id : TypeId) : TypeId :=
  ((t.record? id).bind (·.home)).getD id

def name (t : TypeTable) (id : TypeId) : String :=
  match t.get? id with
  | some d => d.name
  | none => ""

/-- The table with one more type, and its number. -/
def push (t : TypeTable) (d : TypeDescriptor) : TypeId × TypeTable :=
  (⟨t.size⟩, { t with types := t.types.push d })

/-- Registers the scalar type of a width unless it is there. -/
def ensureScalar (t : TypeTable) (bits : Nat) : TypeId × TypeTable :=
  match t.scalar? bits with
  | some id => (id, t)
  | none => t.push (.scalar bits)

/--
The record type that a value of static type `id` has under a tag: a variant of the sum, or the
record itself if the tag is its own.
-/
def variant? (t : TypeTable) (id : TypeId) (tag : UInt8) : Option (TypeId × RecordType) :=
  match t.get? id with
  | some (.sum s) => s.variants[tag.toNat]?.bind fun v => (t.record? v).map (v, ·)
  | some (.record r) => if r.tag = tag then some (id, r) else none
  | _ => none

end TypeTable

end ShapeCompiler
