import ShapeCompiler.Proofs.Machine.Operations
import ShapeCompiler.Proofs.RoundTrip

/-!
Reading a field out of the compiled form of a record.

A declaration may have any number of fields, and the way to a field of a boxed record keeps 16 bits of
its position. Main statement: the way to a position leads, for both layouts, to the normalised field
whose position is the rest modulo 65536, which is the field itself unless 65536 others precede it
(`Registered.reads_field`).
-/

namespace ShapeCompiler

namespace TypeTable

variable {t : TypeTable} {id rid : TypeId} {r : RecordType} {v : Value} {c : Compiled} {k : Nat}

/-- The way to a position of a record leads, in the compiled form of a value, to the normalised field
at a position, decoded at the type of that field. -/
def ReadsAt (t : TypeTable) (rid : TypeId) (r : RecordType) (v : Value) (c : Compiled)
    (position field : Nat) : Prop :=
  ∃ ws f w fc, t.norm rid v = .record r.name ws ∧ r.fields[field]? = some f ∧ ws[field]? = some w ∧
    (r.access position).read c = .ok fc ∧ t.decode fc f.type = .ok w

theorem WellFormed.exists_fields (hw : t.WellFormed) (hr : t.record? rid = some r)
    (hv : t.Loosely rid v) : ∃ vs, v = .record r.name vs ∧ t.FieldsLoosely r.fields vs := by
  have hnot : ¬ (t.scalarBits? rid).isSome := by
    unfold scalarBits?
    rw [record?_eq_some.1 hr]
    exact Bool.false_ne_true
  cases hv with
  | int h => exact absurd h hnot
  | uint h => exact absurd h hnot
  | @record _ rid' r' name vs hrn hid hf =>
    obtain ⟨-, hrec⟩ := recordNamed?_eq_some.1 hrn
    obtain rfl := hw.eq_of_isA hr ((hw.isA_iff hrec).1 hid)
    obtain rfl : r' = r := Option.some.inj (hrec.symm.trans hr)
    exact ⟨vs, by rw [name_of_recordNamed? hrn], hf⟩

/-- Reading any field of the compiled form of a value succeeds, whatever the layout of the record. What
is read is the normalised field at the position modulo 65536, at the type of that field. -/
theorem Registered.reads_field (h : t.Registered) (hr : t.record? rid = some r)
    (hk : k < r.fields.length) (hv : t.Loosely rid v) (hc : t.encode v id = .ok c) :
    t.ReadsAt rid r v c k (k % 65536) := by
  have hw := h.wellFormed
  obtain ⟨vs, rfl, hf⟩ := hw.exists_fields hr hv
  have hrn := hw.recordNamed?_name hr
  obtain ⟨-, he⟩ := (hw.form_norm hc).resolve_left (by simp)
  rw [norm, fieldsOf_eq hrn] at he
  obtain ⟨rid', r', hrn', hfields⟩ := he.normal.fields hw
  obtain ⟨rfl, rfl⟩ : rid = rid' ∧ r = r' := by simpa using hrn.symm.trans hrn'
  obtain ⟨w, fc, hw', hread, hfe⟩ := he.access_mod hw hrn (hfields.length_eq ▸ hk)
  obtain ⟨f, hfk⟩ : ∃ f, r.fields[k % 65536]? = some f :=
    ⟨_, List.getElem?_eq_getElem (Nat.lt_of_le_of_lt (Nat.mod_le ..) hk)⟩
  exact ⟨_, f, w, fc, by rw [norm, fieldsOf_eq hrn], hfk, hw', hread,
    hw.decode_of_encodes hfe (hfields.get hfk hw').1⟩

end TypeTable

namespace Catalog

open TypeTable

/-- The right subtree of a node is read from the compiled form of the tree, its number at 24 bits. -/
theorem reads_field_right :
    ∃ c fc, treeTable.encode (node (leaf 3) (.record "Leaf" [.int 16777223])) ⟨3⟩ = .ok c ∧
      (nodeType.access 1).read c = .ok fc ∧ treeTable.decode fc ⟨3⟩ = .ok (leaf 7) := by
  have hleaf : treeTable.Loosely ⟨3⟩ (leaf 3) :=
    .record treeTable_leaf (.inr ⟨_, treeTable_tree, by decide⟩)
      (.cons (.uint (Option.isSome_of_eq_some treeTable_number)) .nil)
  have hfields : treeTable.FieldsLoosely nodeType.fields [leaf 3, .record "Leaf" [.int 16777223]] :=
    .cons hleaf (.cons (loosely_leaf 16777223) .nil)
  obtain ⟨c, hc⟩ :
      ∃ c, treeTable.encode (node (leaf 3) (.record "Leaf" [.int 16777223])) ⟨3⟩ = .ok c :=
    treeTable_registered.wellFormed.encode_isOk_iff.2
      (.inr (.record treeTable_node (.inr ⟨_, treeTable_tree, by decide⟩) hfields))
  obtain ⟨ws, f, w, fc, hnorm, hf, hget, hread, hdecode⟩ := treeTable_registered.reads_field
    (r := nodeType) (k := 1) (recordNamed?_eq_some.1 treeTable_node).2 (by decide)
    (.record treeTable_node (.inl rfl) hfields) hc
  have hws : ws = [leaf 3, leaf 7] := by
    simp only [leaf, Value.u24, TypeTable.norm, fieldsOf_eq treeTable_node, fieldsOf_eq treeTable_leaf,
      nodeType, leafType, normFields, integerAt, treeTable_number] at hnorm
    cases hnorm
    rfl
  subst hws
  cases hf
  cases hget
  exact ⟨c, fc, hc, hread, hdecode⟩

/-! ### A record of more fields than 16 bits can number -/

/-- The declaration of a record of numbers of 64 bits. -/
def numbersDecl (names : List Ident) : TypeDecl := .record "Numbers" (names.map (·, "u64"))

def numbersType (names : List Ident) : RecordType :=
  ⟨"Numbers", names.map (⟨·, ⟨0⟩⟩), none, 0, .boxed⟩

/-- The table in which only such a record is declared. -/
def numbersTable (names : List Ident) : TypeTable :=
  ⟨#[.scalar 64, .record (numbersType names)], [numbersDecl names]⟩

def numbers (us : List Uint) : Value := .record "Numbers" (us.map .uint)

/-- The table in which only the numbers of 64 bits are registered. -/
def scalarTable : TypeTable := ⟨#[.scalar 64], []⟩

theorem withFieldScalars_numbers {names : List Ident} (hne : names ≠ []) :
    withFieldScalars {} ["Numbers"] [numbersDecl names] = scalarTable := by
  have hstep : withFieldScalar ["Numbers"] {} "u64" = scalarTable := by with_unfolding_all rfl
  have hstay : withFieldScalar ["Numbers"] scalarTable "u64" = scalarTable := by with_unfolding_all rfl
  have hrest : ∀ rest : List Ident,
      (rest.map fun _ => "u64").foldl (withFieldScalar ["Numbers"]) scalarTable = scalarTable := by
    intro rest
    induction rest with
    | nil => rfl
    | cons _ rest ih => rw [List.map_cons, List.foldl_cons, hstay, ih]
  obtain ⟨name, rest, rfl⟩ := List.exists_cons_of_ne_nil hne
  unfold withFieldScalars
  have : [numbersDecl (name :: rest)].flatMap fieldTypes = "u64" :: rest.map fun _ => "u64" := by
    simp [numbersDecl, fieldTypes, Function.comp_def]
  rw [this, List.foldl_cons, hstep, hrest]

/-- Fields of different names are resolved, however many there are. -/
theorem resolveFields_numbers {names : List Ident} {seen : Std.TreeSet Ident} (hnd : names.Nodup)
    (hseen : ∀ n ∈ names, seen.contains n = false) :
    scalarTable.resolveFields ["Numbers"] "Numbers" seen (names.map (·, "u64")) =
      .ok (names.map (⟨·, ⟨0⟩⟩)) := by
  have hid : (scalarTable.freshId ["Numbers"] "u64").or (scalarTable.lookup "u64") = some ⟨0⟩ := by
    with_unfolding_all rfl
  induction names generalizing seen with
  | nil => rfl
  | cons name rest ih =>
    obtain ⟨hname, hnd⟩ := List.nodup_cons.1 hnd
    have hrest : ∀ n ∈ rest, (seen.insert name).contains n = false := by
      intro n hn
      rw [Std.TreeSet.contains_insert, hseen n (List.mem_cons_of_mem _ hn), Bool.or_false]
      have : name ≠ n := fun he => hname (he ▸ hn)
      simpa using this
    rw [List.map_cons, resolveFields, hseen name List.mem_cons_self, hid]
    simp only [Bool.false_eq_true, if_false]
    rw [ih hnd hrest]
    rfl

theorem declare_numbers {names : List Ident} (hne : names ≠ []) (hnd : names.Nodup) :
    declare {} [numbersDecl names] = .ok ([⟨1⟩], numbersTable names) := by
  have hfresh : freshNames {} [] [numbersDecl names] = .ok ["Numbers"] := by
    have hname : scalarWidth "Numbers" = none := by decide +kernel
    rw [freshNames, show (numbersDecl names).name = "Numbers" from rfl, hname]
    rfl
  have hlayout : scalarTable.layoutOf (names.map (⟨·, ⟨0⟩⟩)) = .boxed := by
    obtain ⟨name, rest, rfl⟩ := List.exists_cons_of_ne_nil hne
    rfl
  have hdescribe : scalarTable.describe ["Numbers"] [] (numbersDecl names) =
      .ok (.record (numbersType names)) := by
    rw [numbersDecl, describe, resolveFields_numbers hnd fun n _ => Std.TreeSet.contains_emptyc]
    simp only [hlayout]
    rfl
  have hstaged : scalarTable.describeFresh ["Numbers"] [] [numbersDecl names] =
      .ok [(numbersDecl names, .record (numbersType names))] := by
    rw [describeFresh, if_pos (show (numbersDecl names).name ∈ ["Numbers"] from .head _), hdescribe]
    rfl
  have hids : (numbersTable names).idsOf [numbersDecl names] = .ok [⟨1⟩] := by
    have hlookup : (numbersTable names).lookup (numbersDecl names).name = some ⟨1⟩ := by
      with_unfolding_all rfl
    rw [idsOf, hlookup]
    rfl
  unfold declare
  refine bind_eq_ok.2 ⟨["Numbers"], hfresh, ?_⟩
  rw [withFieldScalars_numbers hne]
  exact bind_eq_ok.2 ⟨[], rfl, bind_eq_ok.2 ⟨_, hstaged, bind_eq_ok.2 ⟨_, hids, rfl⟩⟩⟩

theorem recordNamed?_numbers (names : List Ident) :
    (numbersTable names).recordNamed? "Numbers" = some (⟨1⟩, numbersType names) := by
  with_unfolding_all rfl

theorem encodes_numbers {names : List Ident} {us : List Uint} (hlen : us.length = names.length)
    (hbits : ∀ u ∈ us, u.bits = 64) :
    (numbersTable names).Encodes (numbers us) (.boxed 0 (us.map fun u => .scalar u.value)) := by
  have hscalar : (numbersTable names).scalarBits? ⟨0⟩ = some 64 := rfl
  have hall : ∀ (ns : List Ident), us.length = ns.length → (numbersTable names).EncodesAll
      (ns.map (⟨·, ⟨0⟩⟩)) (us.map .uint) (us.map fun u => .scalar u.value) := by
    intro ns hns
    clear hlen
    induction us generalizing ns with
    | nil =>
      obtain rfl := List.length_eq_zero_iff.1 hns.symm
      exact .nil
    | cons u us ih =>
      obtain ⟨n, ns, rfl⟩ := List.exists_cons_of_length_eq_add_one hns.symm
      have hu : (numbersTable names).Admits ⟨0⟩ (.uint u) := by
        rw [Admits, hscalar, hbits u List.mem_cons_self]
      exact .cons hu (.scalar u)
        (ih (fun w hw => hbits w (List.mem_cons_of_mem _ hw)) ns (by simpa using hns))
  exact .boxed (recordNamed?_numbers names) rfl (hall names hlen)

/-- Where the position modulo 65536 has another number, that one is read. -/
theorem not_readsAt_numbers {names : List Ident} {us : List Uint} {k : Nat} {u w : Uint}
    (h : (numbersTable names).Registered) (hlen : us.length = names.length)
    (hbits : ∀ u ∈ us, u.bits = 64) (hu : us[k % 65536]? = some u) (hw : us[k]? = some w)
    (hne : w ≠ u) :
    ∃ c, (numbersTable names).encode (numbers us) ⟨1⟩ = .ok c ∧
      ((numbersType names).access k).read c = .ok (.scalar u.value) ∧
      ¬ (numbersTable names).ReadsAt ⟨1⟩ (numbersType names) (numbers us) c k k := by
  have he := encodes_numbers hlen hbits
  have ha : (numbersTable names).Admits ⟨1⟩ (numbers us) :=
    ⟨_, _, recordNamed?_numbers names, .inl rfl⟩
  have hread : ((numbersType names).access k).read (.boxed 0 (us.map fun u => .scalar u.value)) =
      .ok (.scalar u.value) := by
    unfold RecordType.access FieldAccess.read
    simp [numbersType, hu]
  refine ⟨_, h.wellFormed.encode_of_encodes he ha, hread, ?_⟩
  rintro ⟨ws, f, w', fc, hnorm, hf, hw', hread', hdecode⟩
  -- the field asked for holds `w`
  rw [h.wellFormed.norm_of_encodes he ha] at hnorm
  cases hnorm
  obtain rfl : .uint w = w' := by simpa [hw] using hw'
  -- what is read is decoded to `u`
  obtain rfl : Compiled.scalar u.value = fc := Except.ok.inj (hread.symm.trans hread')
  have htype : f.type = ⟨0⟩ := by
    obtain ⟨n, -, rfl⟩ := List.mem_map.1 (List.mem_of_getElem? hf)
    rfl
  have hscalar : (numbersTable names).Admits ⟨0⟩ (.uint u) := by
    rw [Admits, hbits u (List.mem_of_getElem? hu)]
    rfl
  rw [htype, h.wellFormed.decode_of_encodes (.scalar u) hscalar] at hdecode
  cases hdecode
  exact hne rfl

def fieldNames (n : Nat) : List Ident := (List.range n).map fun k => "f" ++ toString k

theorem fieldNames_nodup (n : Nat) : (fieldNames n).Nodup := by
  refine List.nodup_range.map fun a b h => ?_
  have hdigits := (String.append_right_inj "f").1 h
  rw [Nat.toString_eq_ofList_toDigits, Nat.toString_eq_ofList_toDigits, String.ofList_inj] at hdigits
  rw [← Nat.ofDigitChars_ten_toDigits (n := a), hdigits, Nat.ofDigitChars_ten_toDigits]

/-- Some zeros and a one behind them. -/
def lastOne (n : Nat) : List Uint := List.replicate n (Uint.wrap 64 0) ++ [Uint.wrap 64 1]

/-- A record may have a field at a position that 16 bits take for the first. -/
theorem lastOne_misread {n : Nat} (hpos : 0 < n) (hfirst : n % 65536 = 0) :
    declare {} [numbersDecl (fieldNames (n + 1))] = .ok ([⟨1⟩], numbersTable (fieldNames (n + 1))) ∧
    n < (numbersType (fieldNames (n + 1))).fields.length ∧
    ∃ c, (numbersTable (fieldNames (n + 1))).encode (numbers (lastOne n)) ⟨1⟩ = .ok c ∧
      ((numbersType (fieldNames (n + 1))).access n).read c = .ok (.scalar 0) ∧
      ¬ (numbersTable (fieldNames (n + 1))).ReadsAt ⟨1⟩ (numbersType (fieldNames (n + 1)))
        (numbers (lastOne n)) c n n := by
  have hne : fieldNames (n + 1) ≠ [] := List.ne_nil_of_length_pos (by simp [fieldNames])
  have hdeclare := declare_numbers hne (fieldNames_nodup (n + 1))
  have hbits : ∀ u ∈ lastOne n, u.bits = 64 := by
    intro u hu
    rcases List.mem_append.1 hu with hu | hu
    · obtain rfl := List.eq_of_mem_replicate hu
      rfl
    · obtain rfl := List.mem_singleton.1 hu
      rfl
  refine ⟨hdeclare, by simp [numbersType, fieldNames], ?_⟩
  refine not_readsAt_numbers (u := Uint.wrap 64 0) (w := Uint.wrap 64 1) (.declare .empty hdeclare)
    (by simp [lastOne, fieldNames]) hbits ?_ (by simp [lastOne]) (by decide)
  rw [hfirst, lastOne, List.getElem?_append_left (by simpa using hpos), List.getElem?_replicate_of_lt hpos]

/-- A declaration with 65537 fields is accepted, and the last field is read as the first. -/
theorem last_field_misread :
    declare {} [numbersDecl (fieldNames 65537)] = .ok ([⟨1⟩], numbersTable (fieldNames 65537)) ∧
    65536 < (numbersType (fieldNames 65537)).fields.length ∧
    ∃ c, (numbersTable (fieldNames 65537)).encode (numbers (lastOne 65536)) ⟨1⟩ = .ok c ∧
      ((numbersType (fieldNames 65537)).access 65536).read c = .ok (.scalar 0) ∧
      ¬ (numbersTable (fieldNames 65537)).ReadsAt ⟨1⟩ (numbersType (fieldNames 65537))
        (numbers (lastOne 65536)) c 65536 65536 :=
  lastOne_misread (Nat.succ_pos _) (Nat.mod_self _)

end Catalog

end ShapeCompiler
