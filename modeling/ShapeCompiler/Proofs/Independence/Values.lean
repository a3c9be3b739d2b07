import ShapeCompiler.Proofs.Independence.Tables
import ShapeCompiler.Proofs.Interpretation

/-!
Values whose records have names of a class, and steps of the interpreter on them.

Main statements: no step leaves such values if the class has the names of all declared records
(`TypeTable.decode_recordsIn`, `Interpreter.construct_recordsIn`), and steps do the same with tables that
have grown from one by scalars (`Interpreter.Twin.closed`, `Interpreter.Twin.construct_eq`).
-/

namespace ShapeCompiler

open TypeTable

/-- All records in the value, at any depth, have names of a class. -/
inductive Value.RecordsIn (N : Ident → Prop) : Value → Prop
  | int (n : UInt64) : RecordsIn N (.int n)
  | uint (u : Uint) : RecordsIn N (.uint u)
  | incomplete : RecordsIn N .incomplete
  | record {name : Ident} {vs : List Value} (hname : N name) (hvs : ∀ v ∈ vs, RecordsIn N v) :
    RecordsIn N (.record name vs)

variable {N : Ident → Prop} {t t₀ t' : TypeTable}

/-! ### Decoding -/

/-- Records are only built of a class of names. -/
def DecodeTask.BuildsIn (N : Ident → Prop) : DecodeTask → Prop
  | .value _ _ => True
  | .build name _ => N name

theorem DecodeTask.run_recordsIn (hN : ∀ {id r}, t.record? id = some r → N r.name)
    {tasks : List DecodeTask} {out res : List Value} (htasks : ∀ task ∈ tasks, task.BuildsIn N)
    (hout : ∀ v ∈ out, v.RecordsIn N) (h : DecodeTask.run t tasks out = .ok res) :
    ∀ v ∈ res, v.RecordsIn N := by
  fun_induction DecodeTask.run t tasks out with
  | case1 out =>
    cases h
    exact hout
  | case2 name arity rest out ih =>
    obtain ⟨hname, hrest⟩ := List.forall_mem_cons.1 htasks
    refine ih hrest (List.forall_mem_cons.2 ⟨.record hname fun v hv => ?_, fun v hv => ?_⟩) h
    · exact hout v (List.mem_of_mem_take (List.mem_reverse.1 hv))
    · exact hout v (List.mem_of_mem_drop hv)
  | case3 type rest out ih =>
    exact ih (List.forall_mem_cons.1 htasks).2 (List.forall_mem_cons.2 ⟨.incomplete, hout⟩) h
  | case4 n type rest out bits hb ih =>
    exact ih (List.forall_mem_cons.1 htasks).2 (List.forall_mem_cons.2 ⟨.uint _, hout⟩) h
  | case6 word type rest out rid name fields home tag slots hv ih =>
    refine ih (List.forall_mem_cons.1 htasks).2
      (List.forall_mem_cons.2 ⟨.record (hN (record?_of_variant? hv)) fun v hv => ?_, hout⟩) h
    obtain ⟨s, -, rfl⟩ := List.mem_map.1 hv
    exact .uint _
  | case8 tag cs type rest out rid name fields home tag' hv hlen ih =>
    refine ih (fun task htask => ?_) hout h
    rcases List.mem_append.1 htask with htask | htask
    · obtain ⟨i, hi⟩ := List.getElem?_of_mem htask
      rw [DecodeTask.ofFields, List.getElem?_zipWith] at hi
      split at hi
      · cases hi
        trivial
      · cases hi
    · rcases List.mem_cons.1 htask with rfl | htask
      · exact hN (record?_of_variant? hv)
      · exact (List.forall_mem_cons.1 htasks).2 task htask
  | _ => cases h

/-- Decoding builds declared records only. -/
theorem TypeTable.decode_recordsIn (hN : ∀ {id r}, t.record? id = some r → N r.name) {c : Compiled}
    {id : TypeId} {v : Value} (h : t.decode c id = .ok v) : v.RecordsIn N := by
  unfold TypeTable.decode at h
  split at h
  · cases h
  · rename_i hrun
    cases h
    have htasks : ∀ task ∈ [DecodeTask.value c id], task.BuildsIn N := by simp [DecodeTask.BuildsIn]
    exact DecodeTask.run_recordsIn hN htasks (by simp) hrun _ List.mem_cons_self
  · cases h

theorem TypeTable.decodeAll_recordsIn (hN : ∀ {id r}, t.record? id = some r → N r.name)
    {cs : List Compiled} {types : List (Option TypeId)} {vs : List Value}
    (h : t.decodeAll cs types = .ok vs) : ∀ v ∈ vs, v.RecordsIn N := by
  induction cs generalizing types vs with
  | nil => cases types <;> cases h <;> simp
  | cons c cs ih =>
    cases types with
    | nil =>
      cases h
      simp
    | cons type types =>
      cases type with
      | none =>
        rw [decodeAll] at h
        obtain ⟨v, hv, h⟩ := bind_eq_ok.1 h
        obtain ⟨ws, hws, h⟩ := bind_eq_ok.1 h
        cases hv
        cases h
        exact List.forall_mem_cons.2 ⟨.incomplete, ih hws⟩
      | some id =>
        rw [decodeAll] at h
        obtain ⟨v, hv, h⟩ := bind_eq_ok.1 h
        obtain ⟨ws, hws, h⟩ := bind_eq_ok.1 h
        cases h
        exact List.forall_mem_cons.2 ⟨decode_recordsIn hN hv, ih hws⟩

theorem TypeTable.normalize_recordsIn (hN : ∀ {id r}, t.record? id = some r → N r.name) {v w : Value}
    {id : TypeId} (h : t.normalize v id = .ok w) : w.RecordsIn N := by
  obtain ⟨c, -, hd⟩ := bind_eq_ok.1 h
  exact decode_recordsIn hN hd

theorem TypeTable.normalizeAll_recordsIn (hN : ∀ {id r}, t.record? id = some r → N r.name)
    {vs ws : List Value} {ids : List TypeId} (h : t.normalizeAll vs ids = .ok ws) :
    ∀ w ∈ ws, w.RecordsIn N := by
  induction vs generalizing ids ws with
  | nil => cases ids <;> cases h <;> simp
  | cons v vs ih =>
    cases ids with
    | nil =>
      cases h
      simp
    | cons id ids =>
      rw [normalizeAll] at h
      obtain ⟨w, hw, h⟩ := bind_eq_ok.1 h
      obtain ⟨ws, hws, h⟩ := bind_eq_ok.1 h
      cases h
      exact List.forall_mem_cons.2 ⟨normalize_recordsIn hN hw, ih hws⟩

/-! ### Steps of the interpreter -/

namespace Interpreter

/-- Interpreters that differ only in the scalars that their tables have gained. -/
structure Twin (t₀ : TypeTable) (i i' : Interpreter) : Prop where
  types : Siblings t₀ i.types i'.types
  mode : i'.mode = i.mode
  bits : i'.defaultBits = i.defaultBits

variable {i i' : Interpreter} {id rid : TypeId} {r : RecordType} {v : Value} {vs : List Value}

theorem isInstance_eq_isSome (i : Interpreter) (name : Ident) (id : TypeId) : i.isInstance name id =
    ((i.types.lookup name).filter fun j => j = id ∨ i.types.widen j = id).isSome := by
  unfold isInstance
  cases i.types.lookup name with
  | none => rfl
  | some j =>
    rw [Option.filter_some]
    by_cases hj : j = id ∨ i.types.widen j = id
    · simp [hj]
    · simp [not_or.1 hj]

theorem coerceAll_recordsIn {record : Ident} {fs : List Field} {ws : List Value}
    (hvs : ∀ v ∈ vs, v.RecordsIn N) (h : i.coerceAll record fs vs = .ok ws) : ∀ w ∈ ws, w.RecordsIn N := by
  induction fs generalizing vs ws with
  | nil => cases vs <;> cases h <;> simp
  | cons f fs ih =>
    cases vs with
    | nil =>
      cases h
      simp
    | cons v vs =>
      rw [coerceAll] at h
      obtain ⟨w, hw, h⟩ := bind_eq_ok.1 h
      obtain ⟨ws, hws, h⟩ := bind_eq_ok.1 h
      cases h
      refine List.forall_mem_cons.2 ⟨?_, ih (fun x hx => hvs x (List.mem_cons_of_mem _ hx)) hws⟩
      unfold coerce at hw
      split at hw
      · split at hw
        · cases hw
          exact .uint _
        · cases hw
      · split at hw
        · split at hw
          · cases hw
            exact hvs _ List.mem_cons_self
          · cases hw
        · cases hw

theorem construct_recordsIn (hr : N r.name) (hvs : ∀ v ∈ vs, v.RecordsIn N) (h : i.construct r vs = .ok v) :
    v.RecordsIn N := by
  unfold construct at h
  split at h
  · cases h
  · obtain ⟨ws, hws, rfl⟩ := map_eq_ok.1 h
    exact .record hr (coerceAll_recordsIn hvs hws)

namespace Twin

variable (h : Twin t₀ i i')
include h

theorem isInstance_eq (hs : (t₀.get? id).isSome) (hnot : t₀.scalarBits? id = none) (name : Ident) :
    i'.isInstance name id = i.isInstance name id := by
  rw [isInstance_eq_isSome, isInstance_eq_isSome,
    h.types.growsRight.filter_lookup_eq h.types.base h.types.right hs hnot,
    h.types.growsLeft.filter_lookup_eq h.types.base h.types.left hs hnot]

theorem coerce_eq {record : Ident} {f : Field} (hf : (t₀.get? f.type).isSome) (v : Value) :
    i'.coerce record f v = i.coerce record f v := by
  have hbits := h.types.growsLeft.scalarBits?_eq hf
  unfold coerce
  rw [(h.types.common hf).scalarBits?_eq, hbits, h.bits]
  cases hb : t₀.scalarBits? f.type with
  | some bits => rfl
  | none => simp only [h.isInstance_eq hf hb]

theorem coerceAll_eq {record : Ident} {fs : List Field} (hf : ∀ f ∈ fs, (t₀.get? f.type).isSome)
    (vs : List Value) : i'.coerceAll record fs vs = i.coerceAll record fs vs := by
  induction fs generalizing vs with
  | nil => cases vs <;> rfl
  | cons f fs ih =>
    cases vs with
    | nil => rfl
    | cons v vs =>
      rw [coerceAll, coerceAll, h.coerce_eq (hf f (by simp)),
        ih fun g hg => hf g (List.mem_cons_of_mem _ hg)]

/-- Both interpreters construct the same. -/
theorem construct_eq (hr : i.types.record? rid = some r) (vs : List Value) :
    i'.construct r vs = i.construct r vs := by
  unfold construct
  rw [h.coerceAll_eq (h.types.field hr)]

/-- Both interpreters take the same steps, which keep the names of records. -/
theorem closed : i.Closed (Value.RecordsIn N) i' where
  bits := h.bits.symm
  uint := .uint
  incomplete := .incomplete
  fields hv := by
    cases hv with
    | record _ hvs => exact hvs
  field _ := by
    unfold field
    simp only [h.types.recordNamed?_eq]

end Twin

end Interpreter

end ShapeCompiler
