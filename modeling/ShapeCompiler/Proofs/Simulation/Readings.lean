import ShapeCompiler.Proofs.Natives
import ShapeCompiler.Proofs.RoundTrip
import ShapeCompiler.Proofs.Simulation.Pairs

/-!
Untyped integers in the interpreter.

The interpreter keeps an untyped integer as it is and reads it at the default width wherever a number is
needed. So it goes on such values as it goes on the same values with every untyped integer read
beforehand (`carries_reads`), and so do calls, if native functions do not see the difference
(`Comparison.Readings.all`). Compiled code never sees it: where all widths are those declared, encoding
a value is encoding what it reads as (`WellFormed.normalize_reads`).
-/

namespace ShapeCompiler

open TypeTable

mutual

def Value.readAt (bits : Nat) : Value → Value
  | .int n => .uint (Uint.wrap bits n)
  | .uint u => .uint u
  | .record name vs => .record name (readAllAt bits vs)
  | .incomplete => .incomplete

/-- The values, each with every untyped integer read at a width. -/
def Value.readAllAt (bits : Nat) : List Value → List Value
  | [] => []
  | v :: vs => v.readAt bits :: readAllAt bits vs

end

theorem Value.readAllAt_eq_map (bits : Nat) (vs : List Value) :
    readAllAt bits vs = vs.map (readAt bits) := by
  induction vs with
  | nil => rfl
  | cons v vs ih => rw [readAllAt, ih, List.map_cons]

theorem Value.asUint_readAt (bits : Nat) (v : Value) : (v.readAt bits).asUint bits = v.asUint bits := by
  cases v <;> rfl

/-- A value with declared widths holds no untyped integer. -/
theorem TypeTable.WellFormed.readAt_normal {t : TypeTable} (hw : t.WellFormed) {bits : Nat} {v : Value}
    (h : t.Normal v) : v.readAt bits = v := by
  induction v using Value.ind with
  | int n => exact absurd h (not_normal_int n)
  | uint u => rfl
  | incomplete => rfl
  | record name vs ih =>
    obtain ⟨-, r, -, hf⟩ := h.fields hw
    rw [Value.readAt, Value.readAllAt_eq_map]
    exact congrArg _ ((List.map_congr_left fun v hv => ih v hv (hf.normal v hv)).trans (List.map_id vs))

/-- A value, and the value with declared widths that it reads as. -/
def TypeTable.Reads (t : TypeTable) (bits : Nat) (v w : Value) : Prop := v.readAt bits = w ∧ t.Normal w

namespace TypeTable

variable {t : TypeTable} {bits : Nat} {id : TypeId} {v w : Value} {vs ws : List Value} {name : Ident}

theorem WellFormed.reads_self (hw : t.WellFormed) (h : t.Normal v) : t.Reads bits v v :=
  ⟨hw.readAt_normal h, h⟩

theorem reads_all (h : ∀ v ∈ vs, t.Normal (v.readAt bits)) :
    List.Forall₂ (t.Reads bits) vs (vs.map (Value.readAt bits)) := by
  rw [List.forall₂_map_right_iff]
  exact List.forall₂_same.2 fun v hv => ⟨rfl, h v hv⟩

theorem eq_of_reads_all (h : List.Forall₂ (t.Reads bits) vs ws) : ws = vs.map (Value.readAt bits) := by
  induction h with
  | nil => rfl
  | cons hv _ ih => rw [List.map_cons, ← ih, hv.1]

theorem normal_of_reads_all (h : List.Forall₂ (t.Reads bits) vs ws) : ∀ w ∈ ws, t.Normal w := by
  induction h with
  | nil => simp
  | cons hv _ ih => exact List.forall_mem_cons.2 ⟨hv.2, ih⟩

/-- Only the sentinel reads as the sentinel. -/
theorem Reads.incomplete (h : t.Reads bits v .incomplete) : v = .incomplete := by
  cases v with
  | incomplete => rfl
  | int n => cases h.1
  | uint u => cases h.1
  | record name vs => cases h.1

theorem WellFormed.reads_record (hw : t.WellFormed) (h : t.Reads bits (.record name vs) w) :
    ∃ ws, w = .record name ws ∧ List.Forall₂ (t.Reads bits) vs ws := by
  obtain ⟨rfl, hn⟩ := h
  rw [Value.readAt, Value.readAllAt_eq_map] at hn
  obtain ⟨-, r, -, hf⟩ := hn.fields hw
  refine ⟨vs.map (Value.readAt bits), by rw [Value.readAt, Value.readAllAt_eq_map], reads_all fun v hv => ?_⟩
  exact hf.normal _ (List.mem_map_of_mem hv)

/-- A value that reads as one of a type is of the type, and normalised to what it reads as. -/
theorem WellFormed.loosely_of_reads (hw : t.WellFormed) (h : t.Reads bits v w) (ha : t.Admits id w) :
    t.Loosely id v ∧ t.norm id v = w := by
  induction v using Value.ind generalizing id w with
  | int n =>
    obtain ⟨rfl, -⟩ := h
    have hb : t.scalarBits? id = some (clampWidth bits) := ha
    refine ⟨.int (by rw [hb]; rfl), ?_⟩
    rw [norm, integerAt, hb]
    exact congrArg _ (Uint.wrap_clampWidth bits n)
  | uint u =>
    obtain ⟨rfl, -⟩ := h
    have hb : t.scalarBits? id = some u.bits := ha
    refine ⟨.uint (by rw [hb]; rfl), ?_⟩
    rw [norm, integerAt, hb]
    exact congrArg _ (Uint.wrap_self u)
  | incomplete =>
    obtain ⟨rfl, -⟩ := h
    exact ha.elim
  | record name vs ih =>
    obtain ⟨ws, rfl, hvs⟩ := hw.reads_record h
    obtain ⟨rid, r, hr, hid⟩ := ha
    obtain ⟨rid', r', hr', hf⟩ := h.2.fields hw
    obtain ⟨rfl, rfl⟩ := Prod.mk.inj (Option.some.inj (hr.symm.trans hr'))
    have hfields : ∀ {fs vs ws}, (∀ v ∈ vs, ∀ {id w}, t.Reads bits v w → t.Admits id w →
        t.Loosely id v ∧ t.norm id v = w) → List.Forall₂ (t.Reads bits) vs ws → t.FieldValues fs ws →
        t.FieldsLoosely fs vs ∧ t.normFields fs vs = ws := by
      intro fs vs ws ih hvs hf
      induction hvs generalizing fs with
      | nil => cases hf; exact ⟨.nil, rfl⟩
      | cons hv _ ihs =>
        cases hf with
        | cons hfv hfs =>
          obtain ⟨hl, hn⟩ := ih _ (by simp) hv hfv.1
          obtain ⟨hls, hns⟩ := ihs (fun x hx => ih x (List.mem_cons_of_mem _ hx)) hfs
          exact ⟨.cons hl hls, by rw [normFields, hn, hns]⟩
    obtain ⟨hl, hn⟩ := hfields (fun v hv => ih v hv) hvs hf
    refine ⟨.record hr ((hw.isA_iff (recordNamed?_eq_some.1 hr).2).2 hid) hl, ?_⟩
    rw [norm, fieldsOf_eq hr, hn]

theorem WellFormed.normalize_reads (hw : t.WellFormed) (h : t.Reads bits v w)
    (hhas : (StaticType.known id).Has t w) : t.normalize v id = .ok w := by
  unfold normalize
  rcases hhas.1 with rfl | ha
  · obtain rfl := h.incomplete
    rw [encode_incomplete]
    exact decode_incomplete id
  · obtain ⟨hl, hn⟩ := hw.loosely_of_reads h ha
    obtain ⟨c, hc⟩ := hw.encode_isOk_iff.2 (.inr hl)
    rw [hc, ← hn]
    exact hw.decode_encode hc

end TypeTable

/-! ### Steps of the interpreter -/

namespace Interpreter

variable {i i' : Interpreter} {bits : Nat} {v w : Value}

section Steps

variable (hg : i'.types.GrowsByScalars i.types) (hw' : i'.types.WellFormed) (hw : i.types.WellFormed)
  (hb : i.defaultBits = bits) (hb' : i'.defaultBits = bits)

include hb hb' in
theorem binary_reads {op : Operator} {a b : Value} (h : i.binary op a b = .ok v) :
    i'.binary op (a.readAt bits) (b.readAt bits) = .ok v ∧ ∃ u, v = .uint u := by
  unfold binary at h ⊢
  rw [hb] at h
  rw [hb', Value.asUint_readAt, Value.asUint_readAt]
  split at h
  · obtain ⟨n, -, rfl⟩ := map_eq_ok.1 h
    exact ⟨h, _, rfl⟩
  · cases h

include hb hb' in
theorem holds_reads {a : Value} {go : Bool} (h : i.holds a = .ok go) :
    i'.holds (a.readAt bits) = .ok go := by
  unfold holds at h ⊢
  rw [hb] at h
  rw [hb', Value.asUint_readAt]
  split at h
  · exact h
  · cases h

theorem field_record_eq_ok {type name : Ident} {vs : List Value} :
    i.field (.record type vs) name = .ok v ↔ ∃ id r index, i.types.recordNamed? type = some (id, r) ∧
      r.fieldIndex? name = some index ∧ vs[index]? = some v := by
  unfold field
  dsimp only
  constructor
  · intro h
    split at h
    · rename_i x hx
      cases h
      simp only [Option.bind_eq_bind, Option.bind_eq_some_iff] at hx
      obtain ⟨⟨id, r⟩, hr, index, hindex, hv⟩ := hx
      exact ⟨id, r, index, hr, hindex, hv⟩
    · cases h
  · rintro ⟨id, r, index, hr, hindex, hv⟩
    split
    · rename_i x hx
      simp only [Option.bind_eq_bind, hr, Option.bind_some, hindex, hv, Option.some.injEq] at hx
      rw [hx]
    · rename_i hx
      simp [hr, hindex, hv] at hx

include hg hw' hw in
theorem field_reads {name : Ident} {a a' : Value} (ha : i'.types.Reads bits a a')
    (h : i.field a name = .ok v) : ∃ w, i'.field a' name = .ok w ∧ i'.types.Reads bits v w := by
  cases a with
  | int n => cases h
  | uint u => cases h
  | incomplete => cases h
  | record type vs =>
    obtain ⟨ws, rfl, hvs⟩ := hw'.reads_record ha
    rw [field_record_eq_ok, hg.recordNamed?_eq hw' hw] at h
    obtain ⟨id, r, index, hr, hindex, hx⟩ := h
    have hx' : ws[index]? = some (v.readAt bits) := by
      rw [eq_of_reads_all hvs, List.getElem?_map, hx]
      rfl
    exact ⟨_, field_record_eq_ok.2 ⟨id, r, index, hr, hindex, hx'⟩, rfl,
      normal_of_reads_all hvs _ (List.mem_of_getElem? hx')⟩

include hw' hb hb' in
theorem bindings_reads {p : Pattern} {a a' : Value} (ha : i'.types.Reads bits a a')
    {o : Option (List (Ident × Value))} (h : i.bindings p a = .ok o) :
    ∃ o', i'.bindings p a' = .ok o' ∧ Option.Rel (BoundWith (i'.types.Reads bits)) o o' := by
  cases p with
  | wildcard =>
    cases h
    exact ⟨_, rfl, .some .nil⟩
  | bind name =>
    cases h
    exact ⟨_, rfl, .some (.cons ⟨rfl, ha⟩ .nil)⟩
  | lit n =>
    unfold bindings at h ⊢
    simp only [hb] at h
    simp only [hb', ← ha.1, Value.asUint_readAt]
    split at h
    · cases h
      refine ⟨_, rfl, ?_⟩
      split
      · exact .some .nil
      · exact .none
    · cases h
      exact ⟨_, rfl, .none⟩
  | ctor name binders =>
    cases a with
    | record type vs =>
      obtain ⟨ws, rfl, hvs⟩ := hw'.reads_record ha
      unfold bindings at h ⊢
      simp only at h ⊢
      rw [← hvs.length_eq]
      split at h
      · rename_i hname
        cases h
        exact ⟨_, if_pos hname, .none⟩
      · rename_i hname
        rw [if_neg hname]
        split at h
        · rename_i hempty
          cases h
          exact ⟨_, if_pos hempty, .some .nil⟩
        · rename_i hempty
          rw [if_neg hempty]
          split at h
          · cases h
          · rename_i hlen
            cases h
            refine ⟨_, if_neg hlen, .some ?_⟩
            refine List.rel_filter ?_ (boundWith_zip hvs binders)
            intro b b' hbound
            simp only [hbound.1]
    | int n =>
      cases h
      cases ha.1
      exact ⟨_, rfl, .none⟩
    | uint u =>
      cases h
      cases ha.1
      exact ⟨_, rfl, .none⟩
    | incomplete =>
      cases h
      cases ha.1
      exact ⟨_, rfl, .none⟩

include hw' hb hb' in
theorem selectFrom_reads {a a' : Value} (ha : i'.types.Reads bits a a') {patterns : List Pattern}
    {index : Nat} {s : Option (Nat × List (Ident × Value))}
    (h : i.selectFrom a index patterns = .ok s) :
    ∃ s', i'.selectFrom a' index patterns = .ok s' ∧ PickedWith (i'.types.Reads bits) s s' := by
  induction patterns generalizing index with
  | nil =>
    cases h
    exact ⟨none, rfl, .none⟩
  | cons p rest ih =>
    rw [selectFrom] at h ⊢
    split at h
    · cases h
    · rename_i bound hbound
      cases h
      obtain ⟨o', ho', hrel⟩ := bindings_reads hw' hb hb' ha hbound
      rw [ho']
      cases hrel with
      | some hR => exact ⟨_, rfl, .some ⟨rfl, hR⟩⟩
    · rename_i hbound
      obtain ⟨o', ho', hrel⟩ := bindings_reads hw' hb hb' ha hbound
      rw [ho']
      cases hrel
      exact ih h

include hg hw' hw hb hb' in
/-- The interpreter goes on values as it goes on what they read as. -/
theorem carries_reads : Carries (i'.types.Reads bits) i i' where
  literal n := by
    rw [hb, hb']
    exact hw'.reads_self (normal_uint _)
  incomplete := ⟨rfl, normal_incomplete⟩
  binary ha hb₁ h := by
    obtain ⟨h', u, rfl⟩ := binary_reads hb hb' h
    rw [ha.1, hb₁.1] at h'
    exact ⟨_, h', hw'.reads_self (normal_uint u)⟩
  field ha h := field_reads hg hw' hw ha h
  selectArm ha h := selectFrom_reads hw' hb hb' ha h
  holds ha h := ha.1 ▸ holds_reads hb hb' h

/-! ### Constructors -/

include hw' hb in
theorem coerce_reads {record : Ident} {f : Field} {a a' : Value} (ha : i'.types.Reads bits a a')
    (h : i.coerce record f a = .ok v) :
    ∃ w, i.coerce record f a' = .ok w ∧ i'.types.Reads bits v w := by
  unfold coerce at h ⊢
  cases hf : i.types.scalarBits? f.type with
  | some width =>
    simp only [hf, hb] at h ⊢
    rw [← ha.1, Value.asUint_readAt]
    split at h
    · cases h
      exact ⟨_, rfl, hw'.reads_self (normal_uint _)⟩
    · cases h
  | none =>
    simp only [hf] at h ⊢
    cases a with
    | int n => cases h
    | uint u => cases h
    | incomplete => cases h
    | record name vs =>
      obtain ⟨ws, rfl, -⟩ := hw'.reads_record ha
      simp only at h ⊢
      split at h
      · rename_i hname
        cases h
        exact ⟨_, if_pos hname, ha⟩
      · cases h

include hw' hb in
theorem coerceAll_reads {record : Ident} {fs : List Field} {as as' vs : List Value}
    (ha : List.Forall₂ (i'.types.Reads bits) as as') (h : i.coerceAll record fs as = .ok vs) :
    ∃ ws, i.coerceAll record fs as' = .ok ws ∧ List.Forall₂ (i'.types.Reads bits) vs ws := by
  induction ha generalizing fs vs with
  | nil =>
    cases fs <;> cases h <;> exact ⟨[], rfl, .nil⟩
  | cons hv _ ih =>
    cases fs with
    | nil =>
      cases h
      exact ⟨[], rfl, .nil⟩
    | cons f fs =>
      rw [coerceAll] at h ⊢
      obtain ⟨v, hcoerce, h⟩ := bind_eq_ok.1 h
      obtain ⟨vs', hrest, h⟩ := bind_eq_ok.1 h
      cases h
      obtain ⟨w, hw₁, hR⟩ := coerce_reads hw' hb hv hcoerce
      obtain ⟨ws, hws, hRs⟩ := ih hrest
      exact ⟨w :: ws, by rw [hw₁, hws]; rfl, .cons hR hRs⟩

include hg hw' hw hb hb' in
/-- A constructor builds what reads as the record that it builds from what the arguments read as. -/
theorem construct_reads {r : RecordType} {id : TypeId} {as as' : List Value}
    (hr : i'.types.recordNamed? r.name = some (id, r))
    (ha : List.Forall₂ (i'.types.Reads bits) as as') (h : i.construct r as = .ok v) :
    ∃ w, i'.construct r as' = .ok w ∧ i'.types.Reads bits v w := by
  have hn := normal_of_reads_all ha
  have hcongr : i.construct r as' = i'.construct r as' :=
    construct_congr hg hw' hw (hb'.trans hb.symm) (recordNamed?_eq_some.1 hr).2 hn
  unfold construct at h
  split at h
  · cases h
  · rename_i hlen
    obtain ⟨vs, hvs, rfl⟩ := map_eq_ok.1 h
    obtain ⟨ws, hws, hR⟩ := coerceAll_reads hw' hb ha hvs
    have hbuilt : i'.construct r as' = .ok (.record r.name ws) := by
      rw [← hcongr, construct, ← ha.length_eq, if_neg hlen, hws]
      rfl
    refine ⟨_, hbuilt, ?_, (construct_ok hw' hr hn hbuilt).2⟩
    rw [Value.readAt, Value.readAllAt_eq_map, ← eq_of_reads_all hR]

end Steps

end Interpreter

/-! ### Arguments of compiled code -/

namespace Engine

variable {e : Engine} {bits : Nat}

theorem Specialises.reads_has {v w : Value} {id : TypeId} (hw : e.types.WellFormed)
    (hb : e.options.defaultBits = bits) (h : e.Specialises v id) (hR : e.types.Reads bits v w) :
    (StaticType.known id).Has e.types w := by
  obtain ⟨rfl, hn⟩ := hR
  refine ⟨.inr ?_, hn⟩
  cases v with
  | int n =>
    have hid : e.types.scalarBits? id = some bits := by
      rw [← hb]
      exact h
    obtain ⟨h₁, h₂⟩ := hw.width (scalarBits?_eq_some.1 hid)
    show e.types.scalarBits? id = some (Uint.wrap bits n).bits
    rw [Uint.bits_wrap h₁ h₂, hid]
  | uint u => exact h
  | incomplete => exact h.elim
  | record name vs =>
    obtain ⟨rid, r, hr, -⟩ := hn.fields hw
    have hlookup : e.types.lookup name = some id := h
    rw [(recordNamed?_eq_some.1 hr).1] at hlookup
    exact ⟨rid, r, hr, .inl (Option.some.inj hlookup)⟩

theorem normalizeAll_reads {args ws : List Value} {ids : List TypeId} (hw : e.types.WellFormed)
    (hb : e.options.defaultBits = bits) (h : List.Forall₂ e.Specialises args ids)
    (hR : List.Forall₂ (e.types.Reads bits) args ws) :
    e.types.normalizeAll args ids = .ok ws ∧ ArgsHave e.types ids ws := by
  induction h generalizing ws with
  | nil =>
    cases hR
    exact ⟨rfl, .nil⟩
  | cons hv _ ih =>
    cases hR with
    | cons hRv hRvs =>
      have hhas := hv.reads_has hw hb hRv
      obtain ⟨hrest, hargs⟩ := ih hRvs
      exact ⟨by rw [normalizeAll, hw.normalize_reads hRv hhas, hrest]; rfl, .cons hhas hargs⟩

end Engine

/-! ### Calls -/

/-- Values that the interpreter of a world reads alike. -/
abbrev World.Reads (w : World) : Value → Value → Prop := w.types.Reads w.defaultBits

theorem Follows.of_run {α β : Type} {R : α → β → Prop} {p : Answers β} {e : Engine} {x y : Run α}
    (h : e.run x = e.run y) (hy : Follows R p e y) : Follows R p e x := fun a e' hr =>
  hy a e' (h.symm.trans hr)

namespace Comparison

variable {C : Comparison} {e : Engine} {fuel : Nat} {args ws : List Value} {d : FunctionDef}
  {name : Ident} {i : Interpreter}

/-- Without a limit, a run that conforms follows the answers. -/
theorem Conforms.follows {α β : Type} {R : α → β → Prop} {S : β → α → Prop} {p : Answers α} {x : Run β}
    (hb : ¬ C.bounded) (h : C.Conforms R p e x) (hRS : ∀ a b, R a b → S b a) : Follows S p e x := by
  intro b e' hr
  rcases h with ⟨⟨hbounded, -⟩, -⟩ | h
  · exact absurd hbounded hb
  · rw [hr] at h
    obtain ⟨hx, a, ha, hR⟩ := h
    exact ⟨hx, a, ha, hRS a b hR⟩

/-- Calls of native functions follow the calls on what the arguments read as. -/
def NativesFollow (C : Comparison) : Prop :=
  ∀ {fuel e name n args ws}, C.Runs none e → C.world.functions.get? name = some (.native n) →
    args.length = n.params.length → List.Forall₂ C.world.Reads args ws →
    Follows C.world.Reads (C.world.native n ws) e (Run.callNative fuel n args)

/-- With some fuel, interpreted code goes on values as the reference goes on what they read as. -/
structure Readings (C : Comparison) (fuel : Nat) : Prop where
  interpret : ∀ {e i d args ws}, C.Runs none e → C.world.Interprets i →
    List.Forall₂ C.world.Reads args ws →
    Follows C.world.Reads (C.world.apply true C.world.calls none d ws) e (Run.interpret fuel i d args)
  callFrom : ∀ {e i name args ws}, C.Runs none e → C.world.Interprets i →
    List.Forall₂ C.world.Reads args ws →
    Follows C.world.Reads (C.world.calls none name ws) e (Run.callFrom fuel i name args)

theorem Runs.reads_iff (hp : C.world.Proper) (he : C.Runs none e) {v w : Value} :
    C.world.Reads v w ↔ e.types.Reads e.options.defaultBits v w := by
  rw [he.hosts.bits]
  exact and_congr_right fun _ => (he.normal_iff hp).symm

section Calls

variable (hp : C.world.Proper)
include hp

/-- Compiled code sees what the arguments read as. -/
theorem callDecorated_reads (hn : C.NativesConform) (he : C.Runs none e)
    (hd : C.world.functions.get? name = some (.decorated d)) (hR : List.Forall₂ C.world.Reads args ws)
    {s : Signature} {e₁ : Engine} (hs : e.update (Update.signatureOf name args) = (.ok s, e₁))
    (fuel : Nat) :
    C.Conforms (Same C.world.types.Normal) (C.world.apply C.world.counts C.world.calls none d ws) e
      (Run.callDecorated fuel name args) := by
  obtain ⟨-, hspec, hx⟩ := Engine.update_signatureOf_eq_ok he.hosts.types hs
  have he₁ := he.extends hx
  obtain ⟨hnorm, -⟩ := Engine.normalizeAll_reads he₁.hosts.types rfl hspec
    (hR.imp fun _ _ h => (he₁.reads_iff hp).1 h)
  exact Conformance.callDecorated_normalized hp hn he hd hs hnorm fuel

theorem callDecorated_follows (hn : C.NativesConform) (he : C.Runs none e)
    (hd : C.world.functions.get? name = some (.decorated d)) (hR : List.Forall₂ C.world.Reads args ws) :
    Follows C.world.Reads (C.world.apply C.world.counts C.world.calls none d ws) e
      (Run.callDecorated fuel name args) := by
  intro v e' hr
  obtain ⟨s, -, e₁, hs, -⟩ := Engine.run_callDecorated_eq_ok he.coherent hr
  refine (callDecorated_reads hp hn he hd hR hs fuel).follows he.room ?_ v e' hr
  rintro a b ⟨rfl, hnormal⟩
  exact hp.types.reads_self hnormal

variable (ih : C.Readings fuel)
include ih

theorem Readings.interpret_succ (he : C.Runs none e) (hi : C.world.Interprets i)
    (hR : List.Forall₂ C.world.Reads args ws) :
    Follows C.world.Reads (C.world.apply true C.world.calls none d ws) e
      (Run.interpret (fuel + 1) i d args) := by
  rw [Run.interpret]
  split
  · exact .throw _
  · rename_i harity
    intro v e' hr
    rcases Engine.run_activation_eq_ok.1 hr with ⟨-, h, -⟩ | ⟨-, e₁, hbody, rfl⟩
    · cases h
    · have hentered : C.Runs none e.entered :=
        ⟨he.hosts.entered, he.coherent.of_eq rfl rfl rfl rfl rfl rfl, he.room⟩
      have hcarries : Interpreter.Carries C.world.Reads i C.world.interpreter :=
        @Interpreter.carries_reads i C.world.interpreter _ hi.grows hp.types hi.types hi.bits rfl
      have hcalls : ∀ name vs ws e, C.Runs none e → List.Forall₂ C.world.Reads vs ws →
          Follows C.world.Reads (C.world.calls none name ws) e (Run.callFrom fuel i name vs) :=
        fun _ _ _ _ he hR => ih.callFrom he hi hR
      have hfollow : Follows C.world.Reads (C.world.interpreter.body (C.world.calls none) fuel d ws)
          e.entered (i.body (Run.callFrom fuel i) fuel d args) :=
        Follows.body (fun _ _ hx he => he.extends hx) hcarries hcalls d hentered hR
      obtain ⟨hext, w, hw, hvw⟩ := hfollow v e₁ hbody
      refine ⟨hext.activation ?_, w, ?_, hvw⟩
      · show e₁.activations.alive - 1 = _
        rw [hext.alive]
        rfl
      · unfold World.apply
        rw [← hR.length_eq, if_neg harity, if_pos rfl]
        exact ⟨fuel, hw⟩

omit hp ih in
theorem native_follows (hf : C.NativesFollow) {n : Native} (he : C.Runs none e)
    (hvisible : C.world.types.recordNamed? name = none)
    (hn : C.world.functions.get? name = some (.native n)) (hR : List.Forall₂ C.world.Reads args ws) :
    Follows C.world.Reads (C.world.calls none name ws) e (Run.callNative fuel n args) := by
  by_cases hlen : args.length = n.params.length
  · refine (hf he hn hlen hR).of_answers fun v hv => World.calls_iff.2 ?_
    unfold World.step
    simp only [hvisible, hn]
    rw [← hR.length_eq, if_neg (not_not.2 hlen)]
    exact hv
  · cases fuel with
    | zero => exact .halt _
    | succ fuel =>
      rw [Run.callNative, if_pos hlen]
      exact .throw _

theorem Readings.callFrom_succ (hn : C.NativesConform) (hf : C.NativesFollow) (he : C.Runs none e)
    (hi : C.world.Interprets i) (hR : List.Forall₂ C.world.Reads args ws) :
    Follows C.world.Reads (C.world.calls none name ws) e (Run.callFrom (fuel + 1) i name args) := by
  rw [Run.callFrom, hi.grows.recordNamed?_eq hp.types hi.types]
  cases hr : C.world.types.recordNamed? name with
  | some p =>
    obtain ⟨id, r⟩ := p
    have hname := name_of_recordNamed? hr
    refine (Follows.step (z := C.world.interpreter.construct r ws) fun v hv => ?_).of_answers
      fun b hb => (World.calls_constructor hr).2 hb
    exact Interpreter.construct_reads hi.grows hp.types hi.types hi.bits rfl (hname.symm ▸ hr) hR hv
  | none =>
    refine .of_run (Engine.run_function? e name _) ?_
    rw [he.hosts.functions]
    cases hfun : C.world.functions.get? name with
    | none => exact .throw _
    | some f =>
      cases f with
      | decorated d =>
        simp only [hi.mode]
        exact (callDecorated_follows hp hn he hfun hR).of_answers fun y hy =>
          (World.calls_decorated hr hfun).2 hy
      | interpreted d =>
        exact (ih.interpret he hi hR).of_answers fun y hy => (World.calls_interpreted hr hfun).2 hy
      | native n => exact native_follows hf he hr hfun hR

omit ih in
/-- Interpreted code goes on values as the reference goes on what they read as, if native functions
do. -/
theorem Readings.all (hn : C.NativesConform) (hf : C.NativesFollow) (fuel : Nat) : C.Readings fuel := by
  induction fuel with
  | zero =>
    constructor
    · exact fun _ _ _ => .halt _
    · exact fun _ _ _ => .halt _
  | succ fuel ih => exact ⟨ih.interpret_succ hp, ih.callFrom_succ hp hn hf⟩

end Calls

end Comparison

/-! ### Native functions -/

/-- What a native function yields, it also yields for arguments with every untyped integer read at a
width. -/
def Native.Blind (n : Native) (t : TypeTable) (bits : Nat) : Prop :=
  ∀ args v, n.outcome t args (.ok v) → n.outcome t (args.map (Value.readAt bits)) (.ok v)

/-- Pure native functions that do not tell an untyped integer from one of the default width follow. -/
theorem Engine.natives_follow_outcome {e : Engine} {tame : Prop} (he : e.WellFormed)
    (hpure : e.functions.Pure) (hblind : ∀ name n, e.functions.get? name = some (.native n) →
      n.Blind e.types e.options.defaultBits) :
    Comparison.NativesFollow ⟨e.world (Native.outcome e.types), False, tame⟩ := by
  intro fuel e₁ name n args ws hruns hf hlen hR v e' hr
  cases fuel with
  | zero => cases hr
  | succ fuel =>
    obtain ⟨result, hresult⟩ := hpure name n hf args
    have hrun : e₁.run (Run.callNative (fuel + 1) n args) = .ok (n.settle e.types result, e₁) := by
      rw [run_callNative fuel hlen, hresult]
      show Except.ok (n.settle e₁.types result, e₁) = _
      rw [Native.settle_eq hruns.hosts.grows he.types hruns.hosts.types (he.natives hf)]
      rfl
    obtain ⟨hv, rfl⟩ := Prod.mk.inj (Except.ok.inj (hrun.symm.trans hr))
    refine ⟨.refl e₁, v, ?_, he.types.reads_self (Native.settle_has he.types hv).2⟩
    rw [eq_of_reads_all hR]
    exact hblind name n hf args v ⟨result, hresult, hv.symm⟩

end ShapeCompiler
