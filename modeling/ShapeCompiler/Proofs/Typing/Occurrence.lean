import ShapeCompiler.Proofs.Conversions
import ShapeCompiler.Proofs.Typing.Passes

/-!
The types and the specialisations that walks can meet.

Every rule of typing answers types of its operands or registered ones, and fails for a reason that
further passes would not remove. So the types in the inference of a root are those of the table and
those of the root (`Typing.occurring`), and every call that is met is one of finitely many
specialisations (`Typing.signatures`).

Main statement: this holds of every expression (`Walker.expr_walks`).
-/

namespace ShapeCompiler

open TypeTable

/-- The error is not that types went on changing. -/
def CompileError.Final : CompileError → Prop
  | .type (.unsettled _ _) => False
  | .type (.unsettledLoop _) => False
  | _ => True

/-- The error is a fault of the program: neither that types went on changing, nor that a value is not of a
type. -/
def CompileError.OfTyping : CompileError → Prop
  | .type (.unsettled _ _) | .type (.unsettledLoop _) => False
  | .type (.sentinelInRecord _) | .type (.notValueOf _ _) | .type (.notRecord _) => False
  | .type (.fieldCount _ _ _) | .type (.wrongValue _ _) | .type (.undecodable _ _) => False
  | .type (.noValue _) | .type (.undeclared _) | .type (.widthOutOfRange _) => False
  | _ => True

theorem CompileError.OfTyping.final {err : CompileError} (h : err.OfTyping) : err.Final := by
  cases err with
  | type fault => cases fault <;> first | exact h.elim | trivial
  | _ => trivial

section Yields

variable {α β : Type} {Q : α → Prop} {Q' : β → Prop}

/-- The step answers something with a property, or fails for good. -/
def Yields (Q : α → Prop) (x : Except CompileError α) : Prop :=
  (∀ a, x = .ok a → Q a) ∧ ∀ err, x = .error err → err.OfTyping

namespace Yields

theorem pure {a : α} (h : Q a) : Yields Q (.ok a) :=
  ⟨fun _ ha => Except.ok.inj ha ▸ h, fun _ he => (by cases he)⟩

theorem throw {err : CompileError} (h : err.OfTyping) : Yields Q (.error err) :=
  ⟨fun _ ha => (by cases ha), fun _ he => Except.error.inj he ▸ h⟩

theorem bind {x : Except CompileError α} {f : α → Except CompileError β} (hx : Yields Q x)
    (hf : ∀ a, Q a → Yields Q' (f a)) : Yields Q' (x >>= f) := by
  cases x with
  | error err => exact throw (hx.2 err rfl)
  | ok a => exact hf a (hx.1 a rfl)

theorem weaken {x : Except CompileError α} {P : α → Prop} (hx : Yields Q x) (h : ∀ a, Q a → P a) :
    Yields P x :=
  ⟨fun a ha => h a (hx.1 a ha), hx.2⟩

end Yields

end Yields

/-! ### Types that occur -/

/-- A static type made of given types. -/
def StaticType.Over (ids : List TypeId) (s : StaticType) : Prop := ∀ id, s = .known id → id ∈ ids

/-- Surroundings whose rules name registered types only. -/
structure Typing.Grounded (c : Typing) : Prop where
  wellFormed : c.types.WellFormed
  defaultScalar : (c.types.get? c.defaultScalar).isSome
  natives : ∀ {name n}, c.functions.get? name = some (.native n) → (c.types.get? n.returns).isSome

variable {c : Typing} {root : Signature} {s s₁ s₂ : StaticType} {ids : List TypeId} {id : TypeId}
  {name : Ident}

namespace StaticType

@[simp] theorem over_unknown : unknown.Over ids := fun _ h => nomatch h

@[simp] theorem over_incomplete : incomplete.Over ids := fun _ h => nomatch h

@[simp] theorem over_known : (known id).Over ids ↔ id ∈ ids :=
  ⟨fun h => h id rfl, fun h _ he => known.inj he ▸ h⟩

end StaticType

namespace Typing

theorem widen_occurring (hw : c.types.WellFormed) (h : id ∈ c.occurring root) :
    c.types.widen id ∈ c.occurring root := by
  cases hr : c.types.record? id with
  | none => rwa [widen_of_no_record hr]
  | some r =>
    cases hh : r.home with
    | none => rwa [widen_of_no_home hr hh]
    | some S =>
      obtain ⟨sum, hsum⟩ := hw.sum_of_home hr hh
      rw [widen_of_home hr hh]
      exact mem_occurring (by rw [sum?_eq_some.1 hsum]; rfl) root

theorem lookup_occurring (h : c.types.lookup name = some id) : id ∈ c.occurring root := by
  obtain ⟨d, hd, -⟩ := get?_of_lookup h
  exact mem_occurring (by rw [hd]; rfl) root

theorem fields_occurring (hw : c.types.WellFormed) {r : RecordType} (hr : c.types.record? id = some r)
    {f : Field} (hf : f ∈ r.fields) : f.type ∈ c.occurring root :=
  mem_occurring (hw.fields hr f hf) root

/-! ### The typing rules -/

theorem join_yields (hw : c.types.WellFormed) (h₁ : s₁.Over (c.occurring root))
    (h₂ : s₂.Over (c.occurring root)) : Yields (·.Over (c.occurring root)) (c.join s₁ s₂) := by
  cases s₁ with
  | unknown =>
    rw [join_unknown]
    exact .pure h₂
  | incomplete => cases s₂ <;> exact .pure (by assumption)
  | known a =>
    cases s₂ with
    | unknown => exact .pure h₁
    | incomplete => exact .pure h₁
    | known b =>
      rw [join]
      split
      · exact .pure h₁
      · split
        · exact .pure (StaticType.over_known.2 (widen_occurring hw (StaticType.over_known.1 h₁)))
        · exact .throw trivial

theorem expectScalar_yields (op : Operator) (s : StaticType) :
    Yields (fun _ => True) (c.expectScalar op s) := by
  unfold expectScalar
  split
  · exact .pure trivial
  · split
    · exact .pure trivial
    · exact .throw trivial

theorem widerOf_over (hg : c.Grounded) (h₁ : s₁.Over (c.occurring root))
    (h₂ : s₂.Over (c.occurring root)) : (c.widerOf s₁ s₂).Over (c.occurring root) := by
  unfold widerOf
  split
  · exact StaticType.over_unknown
  · exact StaticType.over_unknown
  · rename_i a b
    rw [StaticType.over_known]
    cases hs : c.types.scalar? (max (c.scalarBits a) (c.scalarBits b)) with
    | none => exact StaticType.over_known.1 h₁
    | some id => exact lookup_occurring hs
  · exact h₁
  · exact h₂
  · exact StaticType.over_known.2 (mem_occurring hg.defaultScalar root)

theorem binary_yields (hg : c.Grounded) (op : Operator) (h₁ : s₁.Over (c.occurring root))
    (h₂ : s₂.Over (c.occurring root)) : Yields (·.Over (c.occurring root)) (c.binary op s₁ s₂) :=
  (expectScalar_yields op s₁).bind fun _ _ => (expectScalar_yields op s₂).bind fun _ _ =>
    .pure (widerOf_over hg h₁ h₂)

theorem expectType_yields (position : Position) (expected : TypeId) (s : StaticType) :
    Yields (fun _ => True) (c.expectType position expected s) := by
  unfold expectType
  split
  · exact .pure trivial
  · split
    · exact .pure trivial
    · exact .throw trivial

theorem checkFields_yields (record : Ident) (fs : List Field) :
    ∀ ss, Yields (fun _ => True) (c.checkFields record fs ss) := by
  induction fs with
  | nil => intro ss; exact .pure trivial
  | cons f fs ih =>
    intro ss
    cases ss with
    | nil => exact .pure trivial
    | cons s ss => exact (expectType_yields _ _ s).bind fun _ _ => ih ss

theorem checkParams_yields (function : Ident) (ps : List TypeId) :
    ∀ index ss, Yields (fun _ => True) (c.checkParams function index ps ss) := by
  induction ps with
  | nil => intro index ss; exact .pure trivial
  | cons p ps ih =>
    intro index ss
    cases ss with
    | nil => exact .pure trivial
    | cons s ss => exact (expectType_yields _ _ s).bind fun _ _ => ih _ ss

theorem field_yields (hg : c.Grounded) (hs : s.Over (c.occurring root)) (name : Ident) :
    Yields (·.1.Over (c.occurring root)) (c.field s name) := by
  unfold Typing.field
  split
  · split
    · rename_i r hr
      split
      · exact .throw trivial
      · split
        · exact .throw trivial
        · rename_i f hf
          exact .pure (StaticType.over_known.2
            (fields_occurring hg.wellFormed hr (List.mem_of_getElem? hf)))
    · exact .throw trivial
  · exact .pure hs

theorem argTypes_ofTyping {function : Ident} {index : Nat} {ss : List StaticType} {err : CompileError}
    (h : argTypes function index ss = .error err) : err.OfTyping := by
  induction ss generalizing index with
  | nil => cases h
  | cons s rest ih =>
    cases s with
    | unknown => cases h
    | incomplete => cases h; trivial
    | known id =>
      rw [argTypes] at h
      split at h
      · cases h
      · rename_i hrest
        cases h
        exact ih hrest

theorem signature?_yields (function : Ident) (ss : List StaticType) :
    Yields (fun o => ∀ sig, o = some sig → sig.function = function ∧ ss = sig.args.map .known)
      (signature? function ss) := by
  refine ⟨fun o ho sig hsig => signature?_eq (by rw [ho, hsig]), fun err herr => ?_⟩
  unfold signature? at herr
  cases h : argTypes function 0 ss with
  | ok ids => rw [h] at herr; cases herr
  | error err' =>
    rw [h] at herr
    cases herr
    exact argTypes_ofTyping h

theorem plan_yields (function : Ident) (subject : StaticType) (patterns : List Pattern) :
    Yields (fun _ => True) (c.plan function subject patterns) := by
  unfold plan
  cases c.planArms subject patterns with
  | ok p => exact .pure trivial
  | error fault => exact .throw trivial

/-- What a name means to typing, with the number of arguments that it takes. -/
theorem resolve_yields (name : Ident) (k : Nat) :
    Yields (fun callee => match callee with
      | .constructor id _ => c.types.lookup name = some id
      | .host (.native n) => c.functions.get? name = some (.native n)
      | _ => ∃ f, c.functions.get? name = some f ∧ f.arity = k) (c.resolve name k) := by
  unfold resolve expectArgs
  split
  · rename_i id r hr
    split
    · exact .pure (recordNamed?_eq_some.1 hr).1
    · exact .throw trivial
  · split
    · exact .throw trivial
    · rename_i f hf
      split
      · rename_i hk
        cases f with
        | decorated d => exact .pure ⟨_, hf, hk⟩
        | interpreted d => exact .pure ⟨_, hf, hk⟩
        | native n => exact .pure hf
      · exact .throw trivial

end Typing

/-! ### Scopes -/

/-- A scope that lists no variable twice and whose types are among given ones. -/
structure TypeEnv.Over (ids : List TypeId) (env : TypeEnv) : Prop where
  nodup : env.keys.Nodup
  types : ∀ {name s}, env.get? name = some s → s.Over ids

namespace TypeEnv.Over

variable {env : TypeEnv}

theorem empty : TypeEnv.Over ids Assoc.empty := ⟨List.nodup_nil, fun h => nomatch h⟩

theorem insert (h : TypeEnv.Over ids env) (hs : s.Over ids) (name : Ident) :
    TypeEnv.Over ids (Assoc.insert env name s) := by
  refine ⟨Assoc.nodup_insert h.nodup, fun hother => ?_⟩
  rw [Assoc.get?_insert] at hother
  split at hother
  · cases hother
    exact hs
  · exact h.types hother

theorem insertAll (h : TypeEnv.Over ids env) {pairs : List (Ident × StaticType)}
    (hp : ∀ p ∈ pairs, p.2.Over ids) : TypeEnv.Over ids (Assoc.insertAll env pairs) := by
  unfold Assoc.insertAll
  induction pairs generalizing env with
  | nil => exact h
  | cons p rest ih =>
    exact ih (h.insert (hp p (by simp)) p.1) fun q hq => hp q (List.mem_cons_of_mem _ hq)

theorem bind (h : TypeEnv.Over ids env) {binders : List Binder} (hb : ∀ b ∈ binders, b.type.Over ids) :
    TypeEnv.Over ids (env.bind binders) := by
  refine h.insertAll fun p hp => ?_
  obtain ⟨b, hmem, rfl⟩ := List.mem_map.1 hp
  exact hb b hmem

end TypeEnv.Over

theorem Typing.fieldBinders_over {r : RecordType} {fs : List Field} (hf : ∀ f ∈ fs, f.type ∈ ids) :
    ∀ index names, ∀ b ∈ fieldBinders r index names fs, b.type.Over ids := by
  induction fs with
  | nil => intro index names b hb; cases names <;> cases hb
  | cons f fs ih =>
    have ih := ih fun g hg => hf g (List.mem_cons_of_mem _ hg)
    intro index names b hb
    cases names with
    | nil => cases hb
    | cons name names =>
      rw [fieldBinders] at hb
      split at hb
      · exact ih _ _ b hb
      · rcases List.mem_cons.1 hb with rfl | hb
        · exact StaticType.over_known.2 (hf f (by simp))
        · exact ih _ _ b hb

theorem Typing.binders_over (hg : c.Grounded) (pattern : Pattern) {subject : StaticType}
    (hs : subject.Over (c.occurring root)) :
    ∀ b ∈ c.binders pattern subject, b.type.Over (c.occurring root) := by
  unfold Typing.binders
  split
  · split
    · simp
    · simpa using hs
  · split
    · rename_i id r hr
      exact fieldBinders_over
        (fun f hf => fields_occurring hg.wellFormed (recordNamed?_eq_some.1 hr).2 hf) _ _
    · simp
  · simp

/-! ### Walks -/

/-- Findings made of the types and the specialisations that can occur. -/
structure Findings.Over (c : Typing) (root : Signature) (f : Findings) : Prop where
  returns : f.returns.Over (c.occurring root)
  discovered : ∀ x ∈ f.discovered, x ∈ c.signatures root

section Walks

variable {α β : Type} {Q : α → Prop} {Q' : β → Prop}

/-- From findings of what can occur, the step leads to such findings and answers something with a
property, or fails for good. -/
def Walks (c : Typing) (root : Signature) (Q : α → Prop) (x : WalkM α) : Prop :=
  ∀ f : Findings, f.Over c root → Yields (fun p => Q p.1 ∧ p.2.Over c root) (x.run f)

namespace Walks

theorem pure {a : α} (h : Q a) : Walks c root Q (pure a) := fun _ hf => .pure ⟨h, hf⟩

theorem throw {err : CompileError} (h : err.OfTyping) : Walks c root Q (throw err) := fun _ _ => .throw h

theorem bind {x : WalkM α} {g : α → WalkM β} (hx : Walks c root Q x)
    (hg : ∀ a, Q a → Walks c root Q' (g a)) : Walks c root Q' (x >>= g) := fun f hf =>
  (hx f hf).bind fun p hp => hg p.1 hp.1 p.2 hp.2

theorem lift {x : Except CompileError α} (h : Yields Q x) : Walks c root Q (liftM x) := fun f hf => by
  cases x with
  | ok a => exact .pure ⟨h.1 a rfl, hf⟩
  | error err => exact .throw (h.2 err rfl)

theorem get : Walks c root (·.Over c root) (MonadState.get : WalkM Findings) :=
  fun _ hf => .pure ⟨hf, hf⟩

theorem set {f : Findings} (h : f.Over c root) :
    Walks c root (fun _ => True) (MonadState.set f : WalkM PUnit) := fun _ _ => .pure ⟨trivial, h⟩

theorem weaken {x : WalkM α} {P : α → Prop} (hx : Walks c root Q x) (h : ∀ a, Q a → P a) :
    Walks c root P x := fun f hf => (hx f hf).weaken fun _ hp => ⟨h _ hp.1, hp.2⟩

end Walks

end Walks

namespace Walker

/-- A walker whose rules and assumptions name types that can occur. -/
structure Grounded (w : Walker) (root : Signature) : Prop where
  typing : w.toTyping.Grounded
  assumed : ∀ {x s}, w.assumed.get? x = some s → s.Over (w.occurring root)

variable {w : Walker}

section Expressions

variable (hw : w.Grounded root)
include hw

theorem called_walks {args : List StaticType} (hargs : ∀ s ∈ args, s.Over (w.occurring root))
    {f : Function} (hf : w.functions.get? name = some f) (harity : f.arity = args.length) :
    Walks w.toTyping root (·.Over (w.occurring root)) (w.called name args) := by
  unfold called
  refine (Walks.lift (Typing.signature?_yields name args)).bind fun o ho => ?_
  cases o with
  | none => exact .pure StaticType.over_unknown
  | some sig =>
    obtain ⟨rfl, rfl⟩ := ho sig rfl
    have hsig : sig ∈ w.signatures root := by
      refine Typing.mem_signatures hf (by simpa using harity) fun id hid => ?_
      exact StaticType.over_known.1 (hargs _ (List.mem_map_of_mem hid))
    simp only
    split
    · rename_i s hs
      exact .pure (hw.assumed hs)
    · refine Walks.bind (Q := fun _ => True) (fun F hF => ?_) fun _ _ => .pure StaticType.over_unknown
      refine .pure ⟨trivial, hF.returns, fun x hx => ?_⟩
      rcases List.mem_append.1 hx with hx | hx
      · exact hF.discovered x hx
      · rwa [List.mem_singleton.1 hx]

theorem call_walks {args : List StaticType} (hargs : ∀ s ∈ args, s.Over (w.occurring root)) :
    Walks w.toTyping root (·.Over (w.occurring root)) (w.call name args) := by
  unfold call
  refine (Walks.lift (Typing.resolve_yields name args.length)).bind fun callee hc => ?_
  rcases callee with ⟨id, r⟩ | _ | (d | n)
  · exact (Walks.lift (Typing.checkFields_yields _ _ _)).bind fun _ _ =>
      .pure (StaticType.over_known.2 (Typing.lookup_occurring hc))
  · obtain ⟨f, hf, harity⟩ := hc
    exact called_walks hw hargs hf harity
  · obtain ⟨f, hf, harity⟩ := hc
    exact called_walks hw hargs hf harity
  · exact (Walks.lift (Typing.checkParams_yields _ _ _ _)).bind fun _ _ =>
      .pure (StaticType.over_known.2 (Typing.mem_occurring (hw.typing.natives hc) root))

/-- The expression can be walked in every scope of types that can occur. -/
abbrev ExprWalks (w : Walker) (root : Signature) (e : Expr) : Prop :=
  ∀ env : TypeEnv, env.Over (w.occurring root) →
    Walks w.toTyping root (·.Over (w.occurring root)) (w.expr env e)

variable {env : TypeEnv} (henv : env.Over (w.occurring root))
include henv

omit hw in
theorem exprs_walks {es : List Expr} (ih : ∀ e ∈ es, ExprWalks w root e) :
    Walks w.toTyping root (fun ss => ∀ s ∈ ss, s.Over (w.occurring root)) (w.exprs env es) := by
  induction es with
  | nil => rw [exprs]; exact .pure (by simp)
  | cons e rest ihs =>
    rw [exprs]
    refine (ih e (by simp) env henv).bind fun s hs =>
      (ihs fun x hx => ih x (List.mem_cons_of_mem _ hx)).bind fun ss hss => .pure ?_
    exact List.forall_mem_cons.2 ⟨hs, hss⟩

theorem exprArms_walks {subject joined : StaticType} (hs : subject.Over (w.occurring root))
    (hj : joined.Over (w.occurring root)) {reachable : List Nat} {index : Nat} {arms : List (Arm Expr)}
    (ih : ∀ a ∈ arms, ExprWalks w root a.body) :
    Walks w.toTyping root (·.Over (w.occurring root))
      (w.exprArms env subject reachable index joined arms) := by
  induction arms generalizing index joined with
  | nil => rw [exprArms]; exact .pure hj
  | cons a rest ihs =>
    have ihr : ∀ x ∈ rest, ExprWalks w root x.body := fun x hx => ih x (List.mem_cons_of_mem _ hx)
    rw [exprArms]
    split
    · exact (ih a (by simp) _ (henv.bind (Typing.binders_over hw.typing _ hs))).bind fun t ht =>
        (Walks.lift (Typing.join_yields hw.typing.wellFormed hj ht)).bind fun _ hj' => ihs hj' ihr
    · exact ihs hj ihr

omit henv in
theorem expr_walks (e : Expr) : ExprWalks w root e := by
  induction e using Expr.ind with
  | lit n =>
    intro env _
    rw [expr]
    exact .pure (StaticType.over_known.2 (Typing.mem_occurring hw.typing.defaultScalar root))
  | var name =>
    intro env henv
    rw [expr]
    split
    · rename_i s hs
      exact .pure (henv.types hs)
    · exact .throw trivial
  | binary op lhs rhs ihl ihr =>
    intro env henv
    rw [expr]
    exact (ihl env henv).bind fun _ ha => (ihr env henv).bind fun _ hb =>
      .lift (Typing.binary_yields hw.typing op ha hb)
  | call name args ih =>
    intro env henv
    rw [expr]
    exact (exprs_walks henv ih).bind fun _ hargs => call_walks hw hargs
  | field subject name ih =>
    intro env henv
    rw [expr]
    exact (ih env henv).bind fun _ hs =>
      (Walks.lift (Typing.field_yields hw.typing hs name)).bind fun _ ht => .pure ht
  | branch subject arms ihs iha =>
    intro env henv
    rw [expr]
    refine (ihs env henv).bind fun s hs => (Walks.lift (Typing.plan_yields _ _ _)).bind fun plan _ =>
      (exprArms_walks hw henv hs StaticType.over_unknown iha).bind fun joined hj => ?_
    split
    · exact .pure hj
    · exact .lift (Typing.join_yields hw.typing.wellFormed hj StaticType.over_incomplete)
  | incomplete => intro env _; rw [expr]; exact .pure StaticType.over_incomplete

end Expressions

end Walker

end ShapeCompiler
