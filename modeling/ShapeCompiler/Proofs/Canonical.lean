import ShapeCompiler.Proofs.RoundTrip

/-!
What can be decoded, and what comes back when it is encoded again.

A compiled value need not be the result of an encoding: its numbers may have bits above the width of
their type, a packed word may have bits that neither the tag nor a slot takes, and nothing need fit
the type. Main statement: exactly the compiled values are decoded whose kind, tag, layout and number of
fields fit the type at every depth, and a decoded value without a sentinel inside a record is encoded to
the compiled value without its stray bits (`Registered.decode_canonicalises`).
-/

namespace ShapeCompiler

/-- No record inside the value has the sentinel for a field. -/
inductive Value.Whole : Value → Prop
  | int (n : UInt64) : Whole (.int n)
  | uint (u : Uint) : Whole (.uint u)
  | incomplete : Whole .incomplete
  | record {name : Ident} {vs : List Value} (hne : ∀ v ∈ vs, v ≠ .incomplete)
      (h : ∀ v ∈ vs, Whole v) : Whole (.record name vs)

namespace TypeTable

/-- A record of a type: the type itself or a variant of the sum, with a given tag. -/
def IsVariant (t : TypeTable) (id : TypeId) (tag : UInt8) (r : RecordType) : Prop :=
  r.tag = tag ∧ ∃ rid, t.record? rid = some r ∧
    (rid = id ∨ ∃ s, t.sum? id = some s ∧ rid ∈ s.variants)

mutual

/-- The compiled values that suit a type: a word for a scalar type; a packed word whose tag is that of a
packed record of the type; a box whose tag is that of a boxed record of the type, with as many fields
as the record has, each of which suits its type. The sentinel suits every type. -/
inductive Suits (t : TypeTable) : TypeId → Compiled → Prop
  | incomplete {id : TypeId} : Suits t id .incomplete
  | scalar {id : TypeId} {n : UInt64} (h : (t.scalarBits? id).isSome) : Suits t id (.scalar n)
  | packed {id : TypeId} {w : UInt64} {r : RecordType} {slots : List Slot}
      (hr : t.IsVariant id w.toUInt8 r) (hl : r.layout = .packed slots) : Suits t id (.packed w)
  | boxed {id : TypeId} {tag : UInt8} {cs : List Compiled} {r : RecordType}
      (hr : t.IsVariant id tag r) (hl : r.layout = .boxed) (hf : FieldsSuit t r.fields cs) :
      Suits t id (.boxed tag cs)

/-- As many compiled values as there are fields, each of which suits the type of its field. -/
inductive FieldsSuit (t : TypeTable) : List Field → List Compiled → Prop
  | nil : FieldsSuit t [] []
  | cons {f : Field} {fs : List Field} {c : Compiled} {cs : List Compiled} (h : Suits t f.type c)
      (hs : FieldsSuit t fs cs) : FieldsSuit t (f :: fs) (c :: cs)

end

mutual

/-- The compiled values that suit a type and have no stray bits: every number is below the bound of its
width, and every bit of a packed word is one of the tag or of a slot. -/
inductive Canonical (t : TypeTable) : TypeId → Compiled → Prop
  | incomplete {id : TypeId} : Canonical t id .incomplete
  | scalar {id : TypeId} {n : UInt64} {bits : Nat} (hb : t.scalarBits? id = some bits)
      (h : n.toNat < Nat.pow 2 bits) : Canonical t id (.scalar n)
  | packed {id : TypeId} {w : UInt64} {r : RecordType} {slots : List Slot}
      (hr : t.IsVariant id w.toUInt8 r) (hl : r.layout = .packed slots)
      (h : ∀ i, bit w i → i < tagBits ∨ ∃ s ∈ slots, s.covers i) : Canonical t id (.packed w)
  | boxed {id : TypeId} {tag : UInt8} {cs : List Compiled} {r : RecordType}
      (hr : t.IsVariant id tag r) (hl : r.layout = .boxed) (hf : FieldsCanonical t r.fields cs) :
      Canonical t id (.boxed tag cs)

/-- As many compiled values as there are fields, each without stray bits for the type of its field. -/
inductive FieldsCanonical (t : TypeTable) : List Field → List Compiled → Prop
  | nil : FieldsCanonical t [] []
  | cons {f : Field} {fs : List Field} {c : Compiled} {cs : List Compiled}
      (h : Canonical t f.type c) (hs : FieldsCanonical t fs cs) : FieldsCanonical t (f :: fs) (c :: cs)

end

mutual

/-- The compiled value with every number masked to its width, and with those bits of every packed word
cleared that neither the tag nor a slot takes. -/
def canon (t : TypeTable) : TypeId → Compiled → Compiled
  | _, .incomplete => .incomplete
  | id, .scalar n =>
    match t.scalarBits? id with
    | some bits => .scalar (n &&& mask bits)
    | none => .scalar n
  | id, .packed w =>
    match t.variant? id w.toUInt8 with
    | some (_, ⟨_, _, _, _, .packed slots⟩) => .packed (w &&& usedBits slots)
    | _ => .packed w
  | id, .boxed tag cs =>
    match t.variant? id tag with
    | some (_, r) => .boxed tag (canonFields t r.fields cs)
    | none => .boxed tag cs

/-- The compiled values of fields, each with its stray bits cleared. -/
def canonFields (t : TypeTable) : List Field → List Compiled → List Compiled
  | f :: fs, c :: cs => canon t f.type c :: canonFields t fs cs
  | _, cs => cs

end

mutual

/-- A compiled value, and what it is decoded to under a type. -/
inductive Decodes (t : TypeTable) : TypeId → Compiled → Value → Prop
  | incomplete {id : TypeId} : Decodes t id .incomplete .incomplete
  | scalar {id : TypeId} {n : UInt64} {bits : Nat} (hb : t.scalarBits? id = some bits) :
      Decodes t id (.scalar n) (.uint (Uint.wrap bits n))
  | packed {id rid : TypeId} {w : UInt64} {r : RecordType} {slots : List Slot}
      (hv : t.variant? id w.toUInt8 = some (rid, r)) (hl : r.layout = .packed slots) :
      Decodes t id (.packed w)
        (.record r.name (slots.map fun s => .uint (Uint.wrap s.bits (s.read w))))
  | boxed {id rid : TypeId} {tag : UInt8} {cs : List Compiled} {r : RecordType} {vs : List Value}
      (hv : t.variant? id tag = some (rid, r)) (hl : r.layout = .boxed)
      (hf : DecodesAll t r.fields cs vs) : Decodes t id (.boxed tag cs) (.record r.name vs)

/-- The compiled values of some fields, and what they are decoded to. -/
inductive DecodesAll (t : TypeTable) : List Field → List Compiled → List Value → Prop
  | nil : DecodesAll t [] [] []
  | cons {f : Field} {fs : List Field} {c : Compiled} {cs : List Compiled} {v : Value}
      {vs : List Value} (h : Decodes t f.type c v) (hs : DecodesAll t fs cs vs) :
      DecodesAll t (f :: fs) (c :: cs) (v :: vs)

end

variable {t : TypeTable} {id rid : TypeId} {tag : UInt8} {r : RecordType} {v : Value} {c : Compiled}
  {fs : List Field} {cs : List Compiled} {vs : List Value} {rest : List DecodeTask}
  {out res : List Value}

/-! ### Decoding -/

theorem DecodesAll.length_eq (h : t.DecodesAll fs cs vs) :
    cs.length = fs.length ∧ vs.length = cs.length := by
  induction cs generalizing fs vs with
  | nil => cases h; exact ⟨rfl, rfl⟩
  | cons c cs ih => cases h with | cons _ hs => simp [ih hs]

theorem DecodeTask.run_ofFields_eq_ok
    (ih : ∀ c ∈ cs, ∀ {id rest out}, DecodeTask.run t (.value c id :: rest) out = .ok res ↔
      ∃ v, t.Decodes id c v ∧ DecodeTask.run t rest (v :: out) = .ok res)
    (hlen : cs.length = fs.length) :
    DecodeTask.run t (DecodeTask.ofFields cs fs ++ rest) out = .ok res ↔
      ∃ vs, t.DecodesAll fs cs vs ∧ DecodeTask.run t rest (vs.reverse ++ out) = .ok res := by
  induction cs generalizing fs out with
  | nil =>
    obtain rfl := List.length_eq_zero_iff.1 hlen.symm
    constructor
    · intro h
      exact ⟨[], .nil, h⟩
    · rintro ⟨vs, hs, h⟩
      cases hs
      exact h
  | cons c cs ihs =>
    obtain ⟨f, fs, rfl⟩ := List.exists_cons_of_length_eq_add_one hlen.symm
    have hrest := fun {out} => @ihs fs out (fun d hd => ih d (List.mem_cons_of_mem _ hd))
      (by simpa using hlen)
    rw [DecodeTask.ofFields, List.zipWith_cons_cons, List.cons_append, ih c List.mem_cons_self]
    constructor
    · rintro ⟨v, hv, h⟩
      obtain ⟨vs, hvs, h⟩ := hrest.1 h
      exact ⟨v :: vs, .cons hv hvs, by simpa using h⟩
    · rintro ⟨_, hs, h⟩
      cases hs with | cons hv hvs =>
      exact ⟨_, hv, hrest.2 ⟨_, hvs, by simpa using h⟩⟩

/-- A compiled value is worked off if and only if it is decoded to a value, which lands on the pile. -/
theorem DecodeTask.run_value_eq_ok :
    DecodeTask.run t (.value c id :: rest) out = .ok res ↔
      ∃ v, t.Decodes id c v ∧ DecodeTask.run t rest (v :: out) = .ok res := by
  induction c using Compiled.ind generalizing id rest out with
  | incomplete =>
    rw [DecodeTask.run]
    constructor
    · intro h
      exact ⟨_, .incomplete, h⟩
    · rintro ⟨v, hv, h⟩
      cases hv
      exact h
  | scalar n =>
    rw [DecodeTask.run]
    constructor
    · intro h
      split at h
      · rename_i bits hb
        exact ⟨_, .scalar hb, h⟩
      · cases h
    · rintro ⟨v, hv, h⟩
      cases hv with | scalar hb =>
      simp only [hb, h]
  | packed w =>
    rw [DecodeTask.run]
    constructor
    · intro h
      split at h
      · rename_i hv
        exact ⟨_, .packed hv rfl, h⟩
      · cases h
    · rintro ⟨v, hv, h⟩
      cases hv with | @packed _ _ _ r slots hv hl =>
      obtain ⟨name, fields, home, tag, layout⟩ := r
      cases hl
      simp only [hv, h]
  | boxed tag cs ih =>
    rw [DecodeTask.run]
    constructor
    · intro h
      split at h
      · rename_i hv
        split at h
        · rename_i hlen
          -- the fields lie on the pile, the last one on top, when the record is built from them
          obtain ⟨vs, hvs, h⟩ := (DecodeTask.run_ofFields_eq_ok (fun c hc => ih c hc) hlen).1 h
          rw [DecodeTask.run, ← hvs.length_eq.2] at h
          exact ⟨_, .boxed hv rfl hvs, by simpa using h⟩
        · cases h
      · cases h
    · rintro ⟨v, hv, h⟩
      cases hv with | @boxed _ _ _ _ r vs hv hl hf =>
      obtain ⟨name, fields, home, tag, layout⟩ := r
      cases hl
      simp only [hv, hf.length_eq.1, if_true]
      refine (DecodeTask.run_ofFields_eq_ok (fun c hc => ih c hc) hf.length_eq.1).2 ⟨vs, hf, ?_⟩
      rw [DecodeTask.run, ← hf.length_eq.1, ← hf.length_eq.2]
      simpa using h

theorem decode_eq_ok : t.decode c id = .ok v ↔ t.Decodes id c v := by
  unfold decode
  constructor
  · intro h
    cases hrun : DecodeTask.run t [.value c id] [] with
    | error e => simp [hrun] at h
    | ok res =>
      obtain ⟨w, hw, hres⟩ := DecodeTask.run_value_eq_ok.1 hrun
      rw [DecodeTask.run] at hres
      cases hres
      simp only [hrun, Except.ok.injEq] at h
      exact h ▸ hw
  · intro h
    rw [DecodeTask.run_value_eq_ok.2 ⟨v, h, by rw [DecodeTask.run]⟩]

/-! ### What is decoded -/

/-- The record found by a tag is one that a type has under the tag, and there is no other. -/
theorem WellFormed.variant?_eq_some (hw : t.WellFormed) : t.variant? id tag = some (rid, r) ↔
    t.record? rid = some r ∧ r.tag = tag ∧ (rid = id ∨ t.widen rid = id) := by
  constructor
  · intro h
    unfold variant? at h
    split at h
    · rename_i s hs
      obtain ⟨v, hv, h⟩ := Option.bind_eq_some_iff.1 h
      obtain ⟨r', hr', h⟩ := Option.map_eq_some_iff.1 h
      cases h
      obtain ⟨r', hr'', hh, htag⟩ := hw.variant (sum?_eq_some.2 hs) hv
      obtain rfl := Option.some.inj (hr''.symm.trans hr')
      exact ⟨hr', UInt8.toNat_inj.1 htag, .inr (widen_of_home hr' hh)⟩
    · rename_i r' hr'
      split at h
      · rename_i htag
        cases h
        exact ⟨record?_eq_some.2 hr', htag, .inl rfl⟩
      · cases h
    · cases h
  · rintro ⟨hr, rfl, hid⟩
    exact hw.variant?_tag hr hid

theorem WellFormed.isVariant_iff (hw : t.WellFormed) :
    t.IsVariant id tag r ↔ ∃ rid, t.variant? id tag = some (rid, r) := by
  constructor
  · rintro ⟨htag, rid, hr, hid⟩
    exact ⟨rid, hw.variant?_eq_some.2 ⟨hr, htag, (hw.isA_iff hr).1 hid⟩⟩
  · rintro ⟨rid, h⟩
    obtain ⟨hr, htag, hid⟩ := hw.variant?_eq_some.1 h
    exact ⟨htag, rid, hr, (hw.isA_iff hr).2 hid⟩

theorem fieldsSuit_iff (ih : ∀ c ∈ cs, ∀ {id}, t.Suits id c ↔ ∃ v, t.Decodes id c v) :
    t.FieldsSuit fs cs ↔ ∃ vs, t.DecodesAll fs cs vs := by
  induction cs generalizing fs with
  | nil =>
    constructor
    · rintro ⟨⟩
      exact ⟨[], .nil⟩
    · rintro ⟨_, ⟨⟩⟩
      exact .nil
  | cons c cs ihs =>
    have hrest := fun {fs} => @ihs fs fun d hd => ih d (List.mem_cons_of_mem _ hd)
    constructor
    · rintro (_ | ⟨h, hs⟩)
      obtain ⟨v, hv⟩ := (ih c List.mem_cons_self).1 h
      obtain ⟨vs, hvs⟩ := hrest.1 hs
      exact ⟨v :: vs, .cons hv hvs⟩
    · rintro ⟨_, _ | ⟨hv, hvs⟩⟩
      exact .cons ((ih c List.mem_cons_self).2 ⟨_, hv⟩) (hrest.2 ⟨_, hvs⟩)

theorem WellFormed.suits_iff (hw : t.WellFormed) : t.Suits id c ↔ ∃ v, t.Decodes id c v := by
  induction c using Compiled.ind generalizing id with
  | incomplete => exact ⟨fun _ => ⟨_, .incomplete⟩, fun _ => .incomplete⟩
  | scalar n =>
    constructor
    · rintro (_ | h)
      obtain ⟨bits, hb⟩ := Option.isSome_iff_exists.1 h
      exact ⟨_, .scalar hb⟩
    · rintro ⟨_, _ | hb⟩
      exact .scalar (Option.isSome_of_eq_some hb)
  | packed w =>
    constructor
    · rintro (_ | _ | ⟨hr, hl⟩)
      obtain ⟨rid, hv⟩ := hw.isVariant_iff.1 hr
      exact ⟨_, .packed hv hl⟩
    · rintro ⟨_, _ | _ | ⟨hv, hl⟩⟩
      exact .packed (hw.isVariant_iff.2 ⟨_, hv⟩) hl
  | boxed tag cs ih =>
    constructor
    · rintro (_ | _ | _ | ⟨hr, hl, hf⟩)
      obtain ⟨rid, hv⟩ := hw.isVariant_iff.1 hr
      obtain ⟨vs, hvs⟩ := (fieldsSuit_iff fun c hc => ih c hc).1 hf
      exact ⟨_, .boxed hv hl hvs⟩
    · rintro ⟨_, _ | _ | _ | ⟨hv, hl, hf⟩⟩
      exact .boxed (hw.isVariant_iff.2 ⟨_, hv⟩) hl ((fieldsSuit_iff fun c hc => ih c hc).2 ⟨_, hf⟩)

/-! ### Clearing stray bits -/

theorem WellFormed.encodes_packed (hw : t.WellFormed) {w : UInt64} {slots : List Slot}
    (hv : t.variant? id w.toUInt8 = some (rid, r)) (hl : r.layout = .packed slots) :
    t.Encodes (.record r.name (slots.map fun s => .uint (Uint.wrap s.bits (s.read w))))
      (.packed (w &&& usedBits slots)) := by
  obtain ⟨hr, htag, -⟩ := hw.variant?_eq_some.1 hv
  obtain ⟨hadj, -⟩ := hw.packed hr hl
  have hbits : (slots.map fun s => Uint.wrap s.bits (s.read w)).map Uint.bits = slots.map Slot.bits := by
    rw [List.map_map]
    exact List.map_congr_left fun s hs => Uint.bits_wrap (hadj.width s hs).1 (hadj.width s hs).2 _
  -- what is read from a slot has its width already, so wrapping it to the width keeps it
  have hvalues : (slots.map fun s => Uint.wrap s.bits (s.read w)).map Uint.value =
      slots.map fun s => s.read w := by
    rw [List.map_map]
    refine List.map_congr_left fun s hs => ?_
    rw [Function.comp_apply, Uint.value_wrap (hadj.width s hs).1 (hadj.width s hs).2]
    exact and_mask_and_mask _ _
  have he := Encodes.packed (hw.recordNamed?_name hr) hl hbits
  rwa [hvalues, htag, pack_read hadj, List.map_map] at he

theorem DecodesAll.encodesAll (h : t.DecodesAll fs cs vs) (hne : ∀ v ∈ vs, v ≠ .incomplete)
    (hwhole : ∀ v ∈ vs, v.Whole)
    (ih : ∀ c ∈ cs, ∀ {id v}, t.Decodes id c v → v.Whole → v ≠ .incomplete →
      t.Admits id v ∧ t.Encodes v (t.canon id c)) :
    t.EncodesAll fs vs (t.canonFields fs cs) := by
  induction cs generalizing fs vs with
  | nil =>
    cases h
    rw [canonFields]
    · exact .nil
    · simp
  | cons c cs ihs =>
    cases h with | @cons f fs _ _ v vs hv hvs =>
    rw [canonFields]
    obtain ⟨ha, he⟩ := ih c List.mem_cons_self hv (hwhole v List.mem_cons_self) (hne v List.mem_cons_self)
    exact .cons ha he (ihs hvs (fun w hm => hne w (List.mem_cons_of_mem _ hm))
      (fun w hm => hwhole w (List.mem_cons_of_mem _ hm)) fun d hd => ih d (List.mem_cons_of_mem _ hd))

/-- A decoded value without a sentinel is of the type, and its compiled form is what it was decoded
from, but for the stray bits. -/
theorem WellFormed.encodes_canon (hw : t.WellFormed) (h : t.Decodes id c v) (hwhole : v.Whole)
    (hne : v ≠ .incomplete) : t.Admits id v ∧ t.Encodes v (t.canon id c) := by
  induction c using Compiled.ind generalizing id v with
  | incomplete =>
    cases h
    exact absurd rfl hne
  | scalar n =>
    cases h with | @scalar _ _ bits hb =>
    obtain ⟨h₁, h₂⟩ := hw.width (scalarBits?_eq_some.1 hb)
    have he := Encodes.scalar (t := t) (Uint.wrap bits n)
    rw [Uint.value_wrap h₁ h₂] at he
    simp only [canon, hb, Admits, Uint.bits_wrap h₁ h₂]
    exact ⟨trivial, he⟩
  | packed w =>
    cases h with | @packed _ rid _ r slots hv hl =>
    obtain ⟨hr, -, hid⟩ := hw.variant?_eq_some.1 hv
    refine ⟨⟨rid, r, hw.recordNamed?_name hr, hid⟩, ?_⟩
    have he := hw.encodes_packed hv hl
    obtain ⟨name, fields, home, tag, layout⟩ := r
    cases hl
    simpa only [canon, hv] using he
  | boxed tag cs ih =>
    cases h with | @boxed _ rid _ _ r vs hv hl hf =>
    obtain ⟨hr, htag, hid⟩ := hw.variant?_eq_some.1 hv
    cases hwhole with | record hvs hwhole =>
    refine ⟨⟨rid, r, hw.recordNamed?_name hr, hid⟩, ?_⟩
    simp only [canon, hv]
    rw [← htag]
    exact .boxed (hw.recordNamed?_name hr) hl (hf.encodesAll hvs hwhole fun c hc => ih c hc)

theorem canonFields_eq_iff (h : t.FieldsSuit fs cs)
    (ih : ∀ c ∈ cs, ∀ {id}, t.Suits id c → (t.canon id c = c ↔ t.Canonical id c)) :
    t.canonFields fs cs = cs ↔ t.FieldsCanonical fs cs := by
  induction cs generalizing fs with
  | nil =>
    cases h
    rw [canonFields]
    · exact ⟨fun _ => .nil, fun _ => rfl⟩
    · simp
  | cons c cs ihs =>
    cases h with | @cons f fs _ _ hc hcs =>
    have hfield := ih c List.mem_cons_self hc
    have hrest := ihs hcs fun d hd => ih d (List.mem_cons_of_mem _ hd)
    rw [canonFields, List.cons.injEq, hfield, hrest]
    constructor
    · rintro ⟨hc, hcs⟩
      exact .cons hc hcs
    · rintro (_ | ⟨hc, hcs⟩)
      exact ⟨hc, hcs⟩

/-- Clearing stray bits changes nothing if and only if there are none. -/
theorem WellFormed.canon_eq_iff (hw : t.WellFormed) (h : t.Suits id c) :
    t.canon id c = c ↔ t.Canonical id c := by
  induction c using Compiled.ind generalizing id with
  | incomplete =>
    rw [canon]
    exact ⟨fun _ => .incomplete, fun _ => rfl⟩
  | scalar n =>
    cases h with | scalar h =>
    obtain ⟨bits, hb⟩ := Option.isSome_iff_exists.1 h
    have hwidth := (hw.width (scalarBits?_eq_some.1 hb)).2
    simp only [canon, hb, Compiled.scalar.injEq, and_mask_eq_iff hwidth]
    constructor
    · exact .scalar hb
    · rintro (_ | ⟨hb', h⟩)
      cases hb.symm.trans hb'
      exact h
  | packed w =>
    cases h with | @packed _ _ r slots hr hl =>
    obtain ⟨rid, hv⟩ := hw.isVariant_iff.1 hr
    obtain ⟨hadj, -⟩ := hw.packed (hw.variant?_eq_some.1 hv).1 hl
    have hcanon : t.canon id (.packed w) = .packed (w &&& usedBits slots) := by
      obtain ⟨name, fields, home, tag, layout⟩ := r
      cases hl
      simp only [canon, hv]
    rw [hcanon, Compiled.packed.injEq, and_usedBits_eq_iff hadj]
    constructor
    · exact .packed hr hl
    · rintro (_ | _ | ⟨hr', hl', h⟩)
      obtain ⟨rid', hv'⟩ := hw.isVariant_iff.1 hr'
      cases hv.symm.trans hv'
      cases hl.symm.trans hl'
      exact h
  | boxed tag cs ih =>
    cases h with | @boxed _ _ _ r hr hl hf =>
    obtain ⟨rid, hv⟩ := hw.isVariant_iff.1 hr
    simp only [canon, hv, Compiled.boxed.injEq, true_and,
      canonFields_eq_iff hf fun c hc => ih c hc]
    constructor
    · exact .boxed hr hl
    · rintro (_ | _ | _ | ⟨hr', hl', hf⟩)
      obtain ⟨rid', hv'⟩ := hw.isVariant_iff.1 hr'
      cases hv.symm.trans hv'
      exact hf

/-! ### Canonical forms -/

/-- Exactly the compiled values that suit a type at every depth are decoded. A decoded value without a
sentinel inside a record is encoded to the compiled value without its stray bits, which decodes alike
and is the compiled value itself if and only if that has no stray bits. -/
theorem Registered.decode_canonicalises (h : t.Registered) (id : TypeId) (c : Compiled) :
    ((∃ v, t.decode c id = .ok v) ↔ t.Suits id c) ∧
    ∀ v, t.decode c id = .ok v → v.Whole →
      t.encode v id = .ok (t.canon id c) ∧ t.decode (t.canon id c) id = .ok v ∧
        (t.canon id c = c ↔ t.Canonical id c) := by
  have hw := h.wellFormed
  simp only [decode_eq_ok (c := c)]
  refine ⟨hw.suits_iff.symm, fun v hv hwhole => ?_⟩
  have hcanon := hw.canon_eq_iff (hw.suits_iff.2 ⟨v, hv⟩)
  by_cases hne : v = .incomplete
  · subst hne
    cases hv
    simp only [canon] at hcanon ⊢
    exact ⟨encode_incomplete id, decode_incomplete id, hcanon⟩
  · obtain ⟨ha, he⟩ := hw.encodes_canon hv hwhole hne
    exact ⟨hw.encode_of_encodes he ha, hw.decode_of_encodes he ha, hcanon⟩

end TypeTable

/-! ### A node with a stray bit -/

namespace Catalog

/-- A node whose right leaf has a bit above its number. -/
def strayNode : Compiled := .boxed 0 [.packed 1793, .packed 1099511629569]

/-- The bit is lost on the way through the host form. -/
theorem decode_canonicalises_node :
    treeTable.decode strayNode ⟨3⟩ = .ok (node (leaf 7) (leaf 7)) ∧
    treeTable.encode (node (leaf 7) (leaf 7)) ⟨3⟩ = .ok (.boxed 0 [.packed 1793, .packed 1793]) ∧
    ¬ treeTable.Canonical ⟨3⟩ strayNode := by
  have hdecode : treeTable.decode strayNode ⟨3⟩ = .ok (node (leaf 7) (leaf 7)) := by
    with_unfolding_all rfl
  have hcanon : treeTable.canon ⟨3⟩ strayNode = .boxed 0 [.packed 1793, .packed 1793] := by
    with_unfolding_all rfl
  have hleaf : (leaf 7).Whole := .record (by simp [Value.u24]) (by simp [Value.u24, Value.Whole.uint])
  obtain ⟨-, hall⟩ := treeTable_registered.decode_canonicalises ⟨3⟩ strayNode
  obtain ⟨hencode, -, hiff⟩ := hall _ hdecode
    (.record (by simp [leaf]) (by simp [hleaf]))
  refine ⟨hdecode, hcanon ▸ hencode, fun h => ?_⟩
  have := hiff.2 h
  rw [hcanon] at this
  simp [strayNode] at this

end Catalog

end ShapeCompiler
