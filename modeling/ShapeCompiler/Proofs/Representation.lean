import Mathlib.Data.List.Forall2
import ShapeCompiler.Proofs.Types.WellFormed

/-!
Values and their compiled form.

A value in which every integer has its declared width has one compiled form, whatever its static
type. Main statements: encoding such a value gives this form (`encode_of_encodes`), decoding the form
gives the value back (`decode_of_encodes`), and encoding any value gives the form of a value with
declared widths (`encodes_of_encode`).
-/

namespace ShapeCompiler

/-- Induction on a value with all fields of a record at once. -/
theorem Value.ind {P : Value → Prop} (int : ∀ n, P (.int n)) (uint : ∀ u, P (.uint u))
    (incomplete : P .incomplete)
    (record : ∀ name vs, (∀ v ∈ vs, P v) → P (.record name vs)) : ∀ v, P v
  | .int n => int n
  | .uint u => uint u
  | .incomplete => incomplete
  | .record name vs => record name vs fun v _ => Value.ind int uint incomplete record v

/-- Induction on a compiled value with all fields of a record at once. -/
theorem Compiled.ind {P : Compiled → Prop} (scalar : ∀ n, P (.scalar n)) (packed : ∀ w, P (.packed w))
    (boxed : ∀ tag cs, (∀ c ∈ cs, P c) → P (.boxed tag cs)) (incomplete : P .incomplete) : ∀ c, P c
  | .scalar n => scalar n
  | .packed w => packed w
  | .boxed tag cs => boxed tag cs fun c _ => Compiled.ind scalar packed boxed incomplete c
  | .incomplete => incomplete

namespace TypeTable

/-- Whether a value is of a type, judged by its outermost layer. -/
def Admits (t : TypeTable) (id : TypeId) : Value → Prop
  | .uint u => t.scalarBits? id = some u.bits
  | .record name _ => ∃ rid r, t.recordNamed? name = some (rid, r) ∧ (rid = id ∨ t.widen rid = id)
  | _ => False

mutual

/-- A value in which every integer has its declared width, and its compiled form. -/
inductive Encodes (t : TypeTable) : Value → Compiled → Prop
  | scalar (u : Uint) : Encodes t (.uint u) (.scalar u.value)
  | packed {name rid r slots} {us : List Uint} (hr : t.recordNamed? name = some (rid, r))
      (hl : r.layout = .packed slots) (hb : us.map Uint.bits = slots.map Slot.bits) :
      Encodes t (.record name (us.map .uint))
        (.packed (pack (UInt64.ofNat r.tag.toNat) slots (us.map Uint.value)))
  | boxed {name rid r vs cs} (hr : t.recordNamed? name = some (rid, r)) (hl : r.layout = .boxed)
      (hf : EncodesAll t r.fields vs cs) : Encodes t (.record name vs) (.boxed r.tag cs)

/-- The fields of a record and their compiled forms. -/
inductive EncodesAll (t : TypeTable) : List Field → List Value → List Compiled → Prop
  | nil : EncodesAll t [] [] []
  | cons {f v c fs vs cs} (ha : t.Admits f.type v) (he : Encodes t v c)
      (hs : EncodesAll t fs vs cs) : EncodesAll t (f :: fs) (v :: vs) (c :: cs)

end

/-- A value and its compiled form, the sentinel included. -/
def Form (t : TypeTable) (v : Value) (c : Compiled) : Prop :=
  (v = .incomplete ∧ c = .incomplete) ∨ t.Encodes v c

/-- A value in which every integer of a record has its declared width; the sentinel is one. -/
def Normal (t : TypeTable) (v : Value) : Prop := ∃ c, t.Form v c

variable {t t' : TypeTable} {id rid : TypeId} {v : Value} {c : Compiled} {r : RecordType}
  {name : Ident} {vs : List Value} {cs : List Compiled} {fs : List Field}

theorem Encodes.ne_incomplete (h : t.Encodes v c) : v ≠ .incomplete := by
  cases h <;> simp

theorem Encodes.isIncomplete (h : t.Encodes v c) : c.isIncomplete = false := by
  cases h <;> rfl

theorem Form.sentinel : t.Form .incomplete .incomplete := .inl ⟨rfl, rfl⟩

theorem Form.of_incomplete (h : t.Form .incomplete c) : c = .incomplete := by
  rcases h with ⟨-, rfl⟩ | h
  · rfl
  · exact absurd rfl h.ne_incomplete

theorem Form.of_admits (h : t.Form v c) (ha : t.Admits id v) : t.Encodes v c := by
  rcases h with ⟨rfl, -⟩ | h
  · exact ha.elim
  · exact h

theorem EncodesAll.length_left (h : t.EncodesAll fs vs cs) : vs.length = fs.length := by
  induction vs generalizing fs cs with
  | nil => cases h; rfl
  | cons v vs ih =>
    cases h with
    | cons _ _ hs => simp [ih hs]

theorem EncodesAll.length_right (h : t.EncodesAll fs vs cs) : cs.length = vs.length := by
  induction vs generalizing fs cs with
  | nil => cases h; rfl
  | cons v vs ih =>
    cases h with
    | cons _ _ hs => simp [ih hs]

theorem EncodesAll.any_incomplete (h : t.EncodesAll fs vs cs) :
    vs.any (·.isIncomplete) = false := by
  induction vs generalizing fs cs with
  | nil => rfl
  | cons v vs ih =>
    cases h with
    | cons _ he hs =>
      rw [List.any_cons, ih hs]
      cases he <;> rfl

theorem EncodesAll.get (h : t.EncodesAll fs vs cs) {i : Nat} {f : Field} (hi : fs[i]? = some f) :
    ∃ v c, vs[i]? = some v ∧ cs[i]? = some c ∧ t.Admits f.type v ∧ t.Encodes v c := by
  induction i generalizing fs vs cs with
  | zero =>
    cases h with
    | nil => cases hi
    | cons ha he _ =>
      cases hi
      exact ⟨_, _, rfl, rfl, ha, he⟩
  | succ i ih =>
    cases h with
    | nil => cases hi
    | cons _ _ hs => exact ih hs hi

/-! ### Growth -/

theorem Admits.grows (h : t.Grows t') (hw' : t'.WellFormed) (ha : t.Admits id v) :
    t'.Admits id v := by
  cases v with
  | int n => exact ha
  | incomplete => exact ha
  | uint u => exact h.scalarBits? ha
  | record name vs =>
    obtain ⟨rid, r, hr, hid⟩ := ha
    refine ⟨rid, r, h.recordNamed? hw' hr, hid.imp (fun e => e) fun e => ?_⟩
    rw [h.widen_of_record (recordNamed?_eq_some.1 hr).2, e]

/-- A value is of a registered type also when further scalars are registered, and only then. -/
theorem admits_iff (h : t.GrowsByScalars t') (hw : t.WellFormed) (hw' : t'.WellFormed)
    (hs : (t.get? id).isSome) : t'.Admits id v ↔ t.Admits id v := by
  cases v with
  | int n => exact Iff.rfl
  | incomplete => exact Iff.rfl
  | uint u => unfold Admits; rw [h.scalarBits?_eq hs]
  | record name vs =>
    unfold Admits
    simp only [h.recordNamed?_eq hw hw', h.widen_eq]

theorem Encodes.grows (h : t.Grows t') (hw' : t'.WellFormed) :
    ∀ {v c}, t.Encodes v c → t'.Encodes v c := by
  intro v
  induction v using Value.ind with
  | int n => intro c he; cases he
  | incomplete => intro c he; cases he
  | uint u => intro c he; cases he; exact .scalar u
  | record name vs ih =>
    intro c he
    have hall : ∀ {fs cs}, t.EncodesAll fs vs cs → t'.EncodesAll fs vs cs := by
      clear he
      induction vs with
      | nil => intro fs cs hs; cases hs; exact .nil
      | cons v vs ihs =>
        intro fs cs hs
        cases hs with
        | cons ha he hs =>
          exact .cons (ha.grows h hw') (ih v (by simp) he)
            (ihs (fun w hm => ih w (List.mem_cons_of_mem _ hm)) hs)
    cases he with
    | packed hr hl hb => exact .packed (h.recordNamed? hw' hr) hl hb
    | boxed hr hl hf => exact .boxed (h.recordNamed? hw' hr) hl (hall hf)

theorem Encodes.of_grows (h : t.GrowsByScalars t') (hw : t.WellFormed) (hw' : t'.WellFormed) :
    ∀ {v c}, t'.Encodes v c → t.Encodes v c := by
  intro v
  induction v using Value.ind with
  | int n => intro c he; cases he
  | incomplete => intro c he; cases he
  | uint u => intro c he; cases he; exact .scalar u
  | record name vs ih =>
    intro c he
    have hall : ∀ {fs cs}, (∀ f ∈ fs, (t.get? f.type).isSome) → t'.EncodesAll fs vs cs →
        t.EncodesAll fs vs cs := by
      clear he
      induction vs with
      | nil => intro fs cs _ hs; cases hs; exact .nil
      | cons v vs ihs =>
        intro fs cs hfs hs
        cases hs with
        | cons ha he hs =>
          exact .cons ((admits_iff h hw hw' (hfs _ (by simp))).1 ha) (ih v (by simp) he)
            (ihs (fun w hm => ih w (List.mem_cons_of_mem _ hm))
              (fun f hf => hfs f (List.mem_cons_of_mem _ hf)) hs)
    cases he with
    | packed hr hl hb => exact .packed ((h.recordNamed?_eq hw hw' name).symm.trans hr) hl hb
    | boxed hr hl hf =>
      have hr := (h.recordNamed?_eq hw hw' name).symm.trans hr
      exact .boxed hr hl (hall (hw.fields (recordNamed?_eq_some.1 hr).2) hf)

theorem encodes_iff (h : t.GrowsByScalars t') (hw : t.WellFormed) (hw' : t'.WellFormed) :
    t'.Encodes v c ↔ t.Encodes v c :=
  ⟨Encodes.of_grows h hw hw', Encodes.grows h.toGrows hw'⟩

theorem form_iff (h : t.GrowsByScalars t') (hw : t.WellFormed) (hw' : t'.WellFormed) :
    t'.Form v c ↔ t.Form v c :=
  or_congr Iff.rfl (encodes_iff h hw hw')

/-! ### Records -/

/-- A value of a declared type is found under the number and the tag of its record. -/
theorem instanceType_eq (hr : t.recordNamed? name = some (rid, r))
    (hid : rid = id ∨ t.widen rid = id) {n : Nat} (hn : r.fields.length = n) :
    t.instanceType name n id = .ok r := by
  obtain ⟨hl, hr⟩ := recordNamed?_eq_some.1 hr
  unfold instanceType
  rw [hl]
  simp [Option.filter, hid, hr, hn]

/-- What a record may be a value of is a record type or a sum. -/
theorem WellFormed.get?_of_isA (hw : t.WellFormed) (hr : t.record? rid = some r)
    (hid : rid = id ∨ t.widen rid = id) :
    (∃ r, t.get? id = some (.record r)) ∨ ∃ s, t.get? id = some (.sum s) := by
  by_cases he : rid = id
  · subst he
    exact .inl ⟨r, record?_eq_some.1 hr⟩
  · have hwid := hid.resolve_left he
    cases hh : r.home with
    | none => exact absurd ((widen_of_no_home hr hh).symm.trans hwid) he
    | some S =>
      obtain rfl : S = id := (widen_of_home hr hh).symm.trans hwid
      obtain ⟨s, hs⟩ := hw.sum_of_home hr hh
      exact .inr ⟨s, sum?_eq_some.1 hs⟩

theorem fitSlots_values {us : List Uint} {slots : List Slot}
    (h : us.map Uint.bits = slots.map Slot.bits) : FitSlots slots (us.map Uint.value) := by
  induction us generalizing slots with
  | nil =>
    cases slots with
    | nil => trivial
    | cons s slots => cases h
  | cons u us ih =>
    cases slots with
    | nil => cases h
    | cons s slots =>
      simp only [List.map_cons, List.cons.injEq] at h
      refine ⟨?_, ih h.2⟩
      rw [← h.1]
      exact u.value_masked

theorem map_wrap_read {us : List Uint} {slots : List Slot} {word : UInt64}
    (hb : us.map Uint.bits = slots.map Slot.bits)
    (hr : slots.map (fun s => s.read word) = us.map Uint.value) :
    slots.map (fun s => Value.uint (Uint.wrap s.bits (s.read word))) = us.map Value.uint := by
  induction us generalizing slots with
  | nil =>
    cases slots with
    | nil => rfl
    | cons s slots => cases hb
  | cons u us ih =>
    cases slots with
    | nil => cases hb
    | cons s slots =>
      simp only [List.map_cons, List.cons.injEq] at hb hr ⊢
      refine ⟨?_, ih hb.2 hr.2⟩
      rw [hr.1, ← hb.1, Uint.wrap_self]

/-! ### Decoding -/

theorem DecodeTask.run_ofFields
    (ih : ∀ v ∈ vs, ∀ {c id rest out}, t.Encodes v c → t.Admits id v →
      DecodeTask.run t (.value c id :: rest) out = DecodeTask.run t rest (v :: out))
    (h : t.EncodesAll fs vs cs) (rest : List DecodeTask) (out : List Value) :
    DecodeTask.run t (DecodeTask.ofFields cs fs ++ rest) out =
      DecodeTask.run t rest (vs.reverse ++ out) := by
  induction vs generalizing fs cs out with
  | nil => cases h; rfl
  | cons v vs ihs =>
    cases h with
    | cons ha he hs =>
      rw [DecodeTask.ofFields, List.zipWith_cons_cons, List.cons_append, ih v (by simp) he ha]
      rw [← DecodeTask.ofFields, ihs (fun w hm => ih w (List.mem_cons_of_mem _ hm)) hs]
      simp

/-- Decoding a compiled form under a type of its value puts the value on the pile. -/
theorem WellFormed.run_decode (hw : t.WellFormed) : ∀ {v c id rest out}, t.Encodes v c →
    t.Admits id v → DecodeTask.run t (.value c id :: rest) out = DecodeTask.run t rest (v :: out) := by
  intro v
  induction v using Value.ind with
  | int n => intro c id rest out he; cases he
  | incomplete => intro c id rest out he; cases he
  | uint u =>
    intro c id rest out he ha
    cases he
    rw [DecodeTask.run, show t.scalarBits? id = some u.bits from ha]
    simp
  | record name vs ih =>
    intro c id rest out he ha
    obtain ⟨rid, r, hr, hid⟩ := ha
    have hrec := (recordNamed?_eq_some.1 hr).2
    have htag := hw.variant?_tag hrec hid
    have hname := name_of_recordNamed? hr
    cases he with
    | packed hr' hl hb =>
      obtain ⟨rfl, rfl⟩ : rid = _ ∧ r = _ := by simpa using hr.symm.trans hr'
      obtain ⟨hadj, -⟩ := hw.packed hrec hl
      have hread := map_read_pack hadj (fitSlots_values hb) (fun i hi => bit_tag r.tag hi)
      obtain ⟨rname, fields, home, tag, layout⟩ := r
      cases hl
      cases hname
      rw [DecodeTask.run, toUInt8_pack _ _ hadj, htag]
      simp only []
      rw [map_wrap_read hb hread]
    | boxed hr' hl hf =>
      obtain ⟨rfl, rfl⟩ : rid = _ ∧ r = _ := by simpa using hr.symm.trans hr'
      obtain ⟨rname, fields, home, tag, layout⟩ := r
      cases hl
      cases hname
      rw [DecodeTask.run, htag]
      simp only []
      rw [if_pos (hf.length_right.trans hf.length_left), DecodeTask.run_ofFields ih hf,
        DecodeTask.run, hf.length_right]
      simp

/-- Decoding the compiled form of a value under a type of the value gives the value back. -/
theorem WellFormed.decode_of_encodes (hw : t.WellFormed) (he : t.Encodes v c) (ha : t.Admits id v) :
    t.decode c id = .ok v := by
  unfold decode
  rw [hw.run_decode he ha, DecodeTask.run]

theorem decode_incomplete (id : TypeId) : t.decode .incomplete id = .ok .incomplete := by
  unfold decode
  rw [DecodeTask.run, DecodeTask.run]

/-! ### Encoding -/

theorem packFields_eq {us : List Uint} {slots : List Slot} (hb : us.map Uint.bits = slots.map Slot.bits)
    (hl : fs.length = slots.length) (word : UInt64) :
    t.packFields word (us.map .uint) slots fs = .ok (pack word slots (us.map Uint.value)) := by
  induction us generalizing slots fs word with
  | nil =>
    cases slots with
    | nil => rfl
    | cons s slots => cases hb
  | cons u us ih =>
    cases slots with
    | nil => cases hb
    | cons s slots =>
      cases fs with
      | nil => cases hl
      | cons f fs =>
        simp only [List.map_cons, List.cons.injEq] at hb ⊢
        have hu : Value.wordAt? s.bits (.uint u) = some u.value := by
          rw [Value.wordAt?, ← hb.1, u.value_masked]
        rw [packFields]
        simp only [hu]
        rw [ih hb.2 (by simpa using hl), pack]

theorem any_incomplete_uints (us : List Uint) :
    (us.map Value.uint).any (·.isIncomplete) = false := by
  rw [List.any_map, List.any_eq_false]
  intro u _
  simp [Value.isIncomplete]

theorem EncodeTask.run_ofFields
    (ih : ∀ v ∈ vs, ∀ {c id rest out}, t.Encodes v c → t.Admits id v →
      EncodeTask.run t (.value v id :: rest) out = EncodeTask.run t rest (c :: out))
    (h : t.EncodesAll fs vs cs) (rest : List EncodeTask) (out : List Compiled) :
    EncodeTask.run t (EncodeTask.ofFields vs fs ++ rest) out =
      EncodeTask.run t rest (cs.reverse ++ out) := by
  induction vs generalizing fs cs out with
  | nil => cases h; rfl
  | cons v vs ihs =>
    cases h with
    | cons ha he hs =>
      rw [EncodeTask.ofFields, List.zipWith_cons_cons, List.cons_append, ih v (by simp) he ha]
      rw [← EncodeTask.ofFields, ihs (fun w hm => ih w (List.mem_cons_of_mem _ hm)) hs]
      simp

theorem EncodeTask.run_record {d : TypeDescriptor} (hd : t.get? id = some d)
    (hnot : ∀ bits, d ≠ .scalar bits) (rest : List EncodeTask) (out : List Compiled) :
    EncodeTask.run t (.value (.record name vs) id :: rest) out =
      match t.instanceType name vs.length id with
      | .error e => .error e
      | .ok r =>
        if vs.any (·.isIncomplete) then .error (.sentinelInRecord name)
        else
          match r.layout with
          | .packed slots =>
            match t.packFields (UInt64.ofNat r.tag.toNat) vs slots r.fields with
            | .error e => .error e
            | .ok word => EncodeTask.run t rest (.packed word :: out)
          | .boxed =>
            EncodeTask.run t (EncodeTask.ofFields vs r.fields ++ .build r.tag vs.length :: rest) out := by
  cases d with
  | scalar bits => exact absurd rfl (hnot bits)
  | record r =>
    rewrite [EncodeTask.run, hd]
    rfl
  | sum s =>
    rewrite [EncodeTask.run, hd]
    rfl

theorem WellFormed.exists_descriptor (hw : t.WellFormed) (hr : t.record? rid = some r)
    (hid : rid = id ∨ t.widen rid = id) :
    ∃ d, t.get? id = some d ∧ ∀ bits, d ≠ .scalar bits := by
  rcases hw.get?_of_isA hr hid with ⟨r, h⟩ | ⟨s, h⟩
  · exact ⟨_, h, by simp⟩
  · exact ⟨_, h, by simp⟩

/-- Encoding a value with declared widths under a type of the value puts its form on the pile. -/
theorem WellFormed.run_encode (hw : t.WellFormed) : ∀ {v c id rest out}, t.Encodes v c →
    t.Admits id v → EncodeTask.run t (.value v id :: rest) out = EncodeTask.run t rest (c :: out) := by
  intro v
  induction v using Value.ind with
  | int n => intro c id rest out he; cases he
  | incomplete => intro c id rest out he; cases he
  | uint u =>
    intro c id rest out he ha
    cases he
    rw [EncodeTask.run, scalarBits?_eq_some.1 ha]
    simp only [u.value_masked]
  | record name vs ih =>
    intro c id rest out he ha
    obtain ⟨rid, r, hr, hid⟩ := ha
    have hrec := (recordNamed?_eq_some.1 hr).2
    obtain ⟨d, hd, hnot⟩ := hw.exists_descriptor hrec hid
    cases he with
    | @packed _ _ _ slots us hr' hl hb =>
      obtain ⟨rfl, rfl⟩ : rid = _ ∧ r = _ := by simpa using hr.symm.trans hr'
      have hlen : r.fields.length = slots.length := (hw.packed hrec hl).2.length_eq
      have hus : us.length = slots.length := by simpa using congrArg List.length hb
      rw [EncodeTask.run_record hd hnot, instanceType_eq hr hid (by simp [hlen, hus])]
      simp only [any_incomplete_uints, Bool.false_eq_true, if_false, hl, packFields_eq hb hlen]
    | boxed hr' hl hf =>
      obtain ⟨rfl, rfl⟩ : rid = _ ∧ r = _ := by simpa using hr.symm.trans hr'
      rw [EncodeTask.run_record hd hnot, instanceType_eq hr hid hf.length_left.symm]
      simp only [hf.any_incomplete, Bool.false_eq_true, if_false, hl]
      rw [EncodeTask.run_ofFields ih hf, EncodeTask.run, ← hf.length_right]
      simp

/-- Encoding a value with declared widths under a type of the value gives its compiled form. -/
theorem WellFormed.encode_of_encodes (hw : t.WellFormed) (he : t.Encodes v c) (ha : t.Admits id v) :
    t.encode v id = .ok c := by
  unfold encode
  rw [hw.run_encode he ha, EncodeTask.run]

theorem encode_incomplete (id : TypeId) : t.encode .incomplete id = .ok .incomplete := by
  unfold encode
  rw [EncodeTask.run, EncodeTask.run]

/-! ### Normalisation -/

theorem exists_uints_of_packFields {slots : List Slot} {word w : UInt64}
    (hwidth : ∀ s ∈ slots, 1 ≤ s.bits ∧ s.bits ≤ 64) (hv : vs.length = slots.length)
    (hl : fs.length = slots.length) (h : t.packFields word vs slots fs = .ok w) :
    ∃ us : List Uint, us.map Uint.bits = slots.map Slot.bits ∧
      w = pack word slots (us.map Uint.value) := by
  induction slots generalizing vs fs word with
  | nil =>
    cases vs with
    | nil => cases h; exact ⟨[], rfl, rfl⟩
    | cons v vs => cases hv
  | cons s slots ih =>
    cases vs with
    | nil => cases hv
    | cons v vs =>
      cases fs with
      | nil => cases hl
      | cons f fs =>
        rw [packFields] at h
        cases hn : v.wordAt? s.bits with
        | none => simp [hn] at h
        | some n =>
          simp only [hn] at h
          obtain ⟨us, hb, rfl⟩ := ih (fun s hs => hwidth s (List.mem_cons_of_mem _ hs))
            (by simpa using hv) (by simpa using hl) h
          obtain ⟨h1, h2⟩ := hwidth s (by simp)
          have hmask : n &&& mask s.bits = n := by
            cases v <;> simp [Value.wordAt?] at hn <;> subst hn <;> simp
          refine ⟨Uint.wrap s.bits n :: us, ?_, ?_⟩
          · simp [hb, Uint.bits_wrap h1 h2]
          · rw [List.map_cons, pack, Uint.value_wrap h1 h2, hmask]

/-- What an encoding of one value leaves on the pile: the form of a value with declared widths. -/
def Encoded (t : TypeTable) (v : Value) (id : TypeId) (rest : List EncodeTask)
    (out res : List Compiled) : Prop :=
  ∃ c, EncodeTask.run t rest (c :: out) = .ok res ∧
    ((v = .incomplete ∧ c = .incomplete) ∨
      v ≠ .incomplete ∧ ∃ v', t.Encodes v' c ∧ t.Admits id v')

theorem EncodeTask.exists_fields
    (ih : ∀ v ∈ vs, ∀ {id rest out res}, EncodeTask.run t (.value v id :: rest) out = .ok res →
      t.Encoded v id rest out res)
    (hany : vs.any (·.isIncomplete) = false) (hlen : vs.length = fs.length)
    {rest : List EncodeTask} {out res : List Compiled}
    (h : EncodeTask.run t (EncodeTask.ofFields vs fs ++ rest) out = .ok res) :
    ∃ vs' cs, t.EncodesAll fs vs' cs ∧ EncodeTask.run t rest (cs.reverse ++ out) = .ok res := by
  induction vs generalizing fs out with
  | nil =>
    cases fs with
    | nil => exact ⟨[], [], .nil, h⟩
    | cons f fs => cases hlen
  | cons v vs ihs =>
    cases fs with
    | nil => cases hlen
    | cons f fs =>
      rw [List.any_cons, Bool.or_eq_false_iff] at hany
      obtain ⟨c, hrest, hc⟩ := ih v (by simp) h
      obtain ⟨v', he, ha⟩ : ∃ v', t.Encodes v' c ∧ t.Admits f.type v' := by
        rcases hc with ⟨rfl, -⟩ | ⟨-, hc⟩
        · simp [Value.isIncomplete] at hany
        · exact hc
      obtain ⟨vs', cs, hs, hres⟩ := ihs (fun w hm => ih w (List.mem_cons_of_mem _ hm)) hany.2
        (by simpa using hlen) hrest
      exact ⟨v' :: vs', c :: cs, .cons ha he hs, by simpa using hres⟩

theorem get?_record_of_instanceType {k : Nat} (h : t.instanceType name k id = .ok r) :
    ∃ rid, t.recordNamed? name = some (rid, r) ∧ (rid = id ∨ t.widen rid = id) ∧
      r.fields.length = k := by
  unfold instanceType at h
  split at h
  · cases h
  · rename_i rid hl
    obtain ⟨hl, hid⟩ := Option.filter_eq_some_iff.1 hl
    split at h
    · cases h
    · rename_i r' hr
      split at h
      · rename_i hlen
        cases h
        exact ⟨rid, recordNamed?_eq_some.2 ⟨hl, hr⟩, by simpa using hid, hlen⟩
      · cases h

/-- What is encoded is the form of a value with declared widths and of the same type. -/
theorem WellFormed.encoded_of_run (hw : t.WellFormed) : ∀ {v id rest out res},
    EncodeTask.run t (.value v id :: rest) out = .ok res → t.Encoded v id rest out res := by
  have integer : ∀ {v : Value} {n : UInt64} {bits id rest out res}, t.get? id = some (.scalar bits) →
      v ≠ .incomplete → EncodeTask.run t rest (.scalar (n &&& mask bits) :: out) = .ok res →
      t.Encoded v id rest out res := by
    intro v n bits id rest out res hd hv h
    obtain ⟨h1, h2⟩ := hw.width hd
    refine ⟨_, h, .inr ⟨hv, .uint (Uint.wrap bits n), ?_, ?_⟩⟩
    · rw [← Uint.value_wrap h1 h2]
      exact .scalar _
    · exact scalarBits?_eq_some.2 (by rw [hd, Uint.bits_wrap h1 h2])
  intro v
  induction v using Value.ind with
  | int n =>
    intro id rest out res h
    rw [EncodeTask.run] at h
    split at h
    · rename_i bits hd
      exact integer hd (by simp) h
    · cases h
  | uint u =>
    intro id rest out res h
    rw [EncodeTask.run] at h
    split at h
    · rename_i bits hd
      exact integer hd (by simp) h
    · cases h
  | incomplete =>
    intro id rest out res h
    rw [EncodeTask.run] at h
    exact ⟨_, h, .inl ⟨rfl, rfl⟩⟩
  | record name vs ih =>
    intro id rest out res h
    have hd : ∃ d, t.get? id = some d ∧ ∀ bits, d ≠ .scalar bits := by
      rw [EncodeTask.run] at h
      split at h
      · rename_i r hd; exact ⟨_, hd, by simp⟩
      · rename_i s hd; exact ⟨_, hd, by simp⟩
      · cases h
    obtain ⟨d, hd, hnot⟩ := hd
    rw [EncodeTask.run_record hd hnot] at h
    split at h
    · cases h
    · rename_i r hi
      obtain ⟨rid, hr, hid, hlen⟩ := get?_record_of_instanceType hi
      have hrec := (recordNamed?_eq_some.1 hr).2
      split at h
      · cases h
      · rename_i hany
        split at h
        · rename_i slots hl
          obtain ⟨hadj, hfields⟩ := hw.packed hrec hl
          split at h
          · cases h
          · rename_i w hp
            obtain ⟨us, hb, rfl⟩ := exists_uints_of_packFields hadj.width
              (hlen.symm.trans hfields.length_eq) hfields.length_eq hp
            exact ⟨_, h, .inr ⟨by simp, _, .packed hr hl hb, rid, r, hr, hid⟩⟩
        · rename_i hl
          obtain ⟨vs', cs, hs, hres⟩ := EncodeTask.exists_fields ih (by simpa using hany) hlen.symm h
          rw [EncodeTask.run] at hres
          refine ⟨.boxed r.tag cs, ?_, .inr ⟨by simp, .record name vs', .boxed hr hl hs, rid, r, hr, hid⟩⟩
          have hcs : vs.length = cs.reverse.length := by
            rw [List.length_reverse, hs.length_right, hs.length_left, hlen]
          rw [hcs, List.take_left, List.drop_left, List.reverse_reverse] at hres
          exact hres

/-- Encoding any value gives the form of a value with declared widths and of the same type. -/
theorem WellFormed.encodes_of_encode (hw : t.WellFormed) (h : t.encode v id = .ok c) :
    (v = .incomplete ∧ c = .incomplete) ∨
      v ≠ .incomplete ∧ ∃ v', t.Encodes v' c ∧ t.Admits id v' := by
  unfold encode at h
  cases hrun : EncodeTask.run t [.value v id] [] with
  | error e => simp [hrun] at h
  | ok res =>
    obtain ⟨c', hres, hc⟩ := hw.encoded_of_run hrun
    rw [EncodeTask.run] at hres
    cases hres
    simp only [hrun, Except.ok.injEq] at h
    exact h ▸ hc

end TypeTable

end ShapeCompiler
