import ShapeCompiler.Execution

/-!
Why a value is not converted.

Conversions between host values and compiled ones have errors of their own, which compiling never answers.
Main statements: values are encoded (`TypeTable.encodeAll_converts`), decoded (`TypeTable.decodeAll_converts`)
and normalised (`TypeTable.normalizeAll_converts`), or fail with such an error.
-/

namespace ShapeCompiler

/-- The fault is that a value, an argument of a request included, is not of a type. -/
def TypeError.OfValue : TypeError → Prop
  | sentinelInRecord _ | notValueOf _ _ | notRecord _ | fieldCount _ _ _ | wrongValue _ _ => True
  | undecodable _ _ | noValue _ | undeclared _ | widthOutOfRange _ => True
  | _ => False

/-- The failure of a program or of the conversion of a value. -/
def Error.OfRun : Error → Prop
  | .compile (.type fault) => fault.OfValue
  | .runtime _ => True
  | _ => False

/-- The conversion only fails because a value is not of a type. -/
def Converts {α : Type} (x : Except TypeError α) : Prop := ∀ fault, x = .error fault → fault.OfValue

namespace Converts

variable {α β : Type}

theorem pure (a : α) : Converts (pure a) := fun _ h => by cases h

theorem bind {x : Except TypeError α} {f : α → Except TypeError β} (hx : Converts x) (hf : ∀ a, Converts (f a)) :
    Converts (x >>= f) := by
  cases x with
  | error fault => exact fun _ h => by cases h; exact hx fault rfl
  | ok a => exact hf a

end Converts

namespace TypeTable

variable {t : TypeTable} {fault : TypeError} {v : Value} {vs : List Value} {c : Compiled} {cs : List Compiled}
  {id : TypeId} {ids : List TypeId}

theorem instanceType_ofValue {name : Ident} {fields : Nat} (h : t.instanceType name fields id = .error fault) :
    fault.OfValue := by
  unfold instanceType at h
  split at h
  · cases h
    trivial
  · split at h
    · cases h
      trivial
    · split at h
      · cases h
      · cases h
        trivial

theorem packFields_ofValue {word : UInt64} {slots : List Slot} {fields : List Field}
    (h : t.packFields word vs slots fields = .error fault) : fault.OfValue := by
  fun_induction packFields t word vs slots fields with
  | case1 => cases h; trivial
  | case2 _ _ _ _ _ _ _ _ _ ih => exact ih h
  | case3 => cases h

theorem run_encode_ofValue {tasks : List EncodeTask} {out : List Compiled}
    (h : EncodeTask.run t tasks out = .error fault) : fault.OfValue := by
  fun_induction EncodeTask.run t tasks out with
  | case1 => cases h
  | case2 _ _ _ _ ih | case3 _ _ _ ih | case15 _ _ _ _ _ _ ih | case17 _ _ _ _ _ _ ih => exact ih h
  | case7 _ _ _ _ _ _ _ _ _ _ _ _ _ _ ih | case12 _ _ _ _ _ _ _ _ _ _ _ _ _ _ ih => exact ih h
  | case8 _ _ _ _ _ _ _ _ _ _ _ ih | case13 _ _ _ _ _ _ _ _ _ _ _ ih => exact ih h
  | case4 _ _ _ _ _ _ _ _ hinstance | case9 _ _ _ _ _ _ _ _ hinstance =>
    cases h
    exact instanceType_ofValue hinstance
  | case6 _ _ _ _ _ _ _ _ _ _ _ _ _ hpack | case11 _ _ _ _ _ _ _ _ _ _ _ _ _ hpack =>
    cases h
    exact packFields_ofValue hpack
  | case5 | case10 | case14 | case16 | case18 =>
    cases h
    trivial

theorem run_decode_ofValue {tasks : List DecodeTask} {out : List Value}
    (h : DecodeTask.run t tasks out = .error fault) : fault.OfValue := by
  fun_induction DecodeTask.run t tasks out with
  | case1 => cases h
  | case2 _ _ _ _ ih | case3 _ _ _ ih | case4 _ _ _ _ _ _ ih => exact ih h
  | case6 _ _ _ _ _ _ _ _ _ _ _ ih | case8 _ _ _ _ _ _ _ _ _ _ _ _ ih => exact ih h
  | case5 | case7 | case9 | case10 =>
    cases h
    trivial

theorem encode_converts (t : TypeTable) (v : Value) (id : TypeId) : Converts (t.encode v id) := by
  intro fault h
  unfold encode at h
  split at h
  · rename_i hrun
    cases h
    exact run_encode_ofValue hrun
  · cases h
  · cases h
    trivial

theorem decode_converts (t : TypeTable) (c : Compiled) (id : TypeId) : Converts (t.decode c id) := by
  intro fault h
  unfold decode at h
  split at h
  · rename_i hrun
    cases h
    exact run_decode_ofValue hrun
  · cases h
  · cases h
    trivial

theorem encodeAll_converts (t : TypeTable) (vs : List Value) (ids : List TypeId) :
    Converts (t.encodeAll vs ids) := by
  fun_induction TypeTable.encodeAll t vs ids with
  | case1 v vs id ids ih => exact (t.encode_converts v id).bind fun _ => ih.bind fun _ => .pure _
  | case2 => exact .pure []

theorem decodeAll_converts (t : TypeTable) (cs : List Compiled) (types : List (Option TypeId)) :
    Converts (t.decodeAll cs types) := by
  fun_induction TypeTable.decodeAll t cs types with
  | case1 c cs types _ id ih => exact (t.decode_converts c id).bind fun _ => ih.bind fun _ => .pure _
  | case2 c cs types _ ih => exact Converts.bind (.pure _) fun _ => ih.bind fun _ => .pure _
  | case3 => exact .pure []

theorem normalizeAll_converts (t : TypeTable) (vs : List Value) (ids : List TypeId) :
    Converts (t.normalizeAll vs ids) := by
  fun_induction TypeTable.normalizeAll t vs ids with
  | case1 v vs id ids ih =>
    refine ((t.encode_converts v id).bind fun c => t.decode_converts c id).bind fun _ => ?_
    exact ih.bind fun _ => .pure _
  | case2 => exact .pure []

end TypeTable

end ShapeCompiler
