import ShapeCompiler.Proofs.Engine.Descent
import ShapeCompiler.Proofs.Independence.Code
import ShapeCompiler.Proofs.Independence.Values
import ShapeCompiler.Proofs.Natives

/-!
Engines that descend from one engine by serving requests.

Each has gained scalars of its own, and every outcome that it keeps was compiled with those that it had at
some time. Two of them are twins if, moreover, as many activations are alive and the names of a class are
looked up alike. Main statements: outcomes for signatures that are described alike are described alike
(`Engine.Twin.outcome`), and the specialiser answers alike, whether it finds an outcome or compiles one
(`Engine.Twin.specialize`, `Engine.Twin.bindSite`).
-/

namespace ShapeCompiler

open TypeTable

variable {α β γ δ : Type} {N : Ident → Prop} {e₀ e e' e₁ e₁' e₂ : Engine}

namespace Engine

/-- What a signature is compiled to does not depend on how the scalars that the engine has gained are
numbered. -/
def Uniform (e : Engine) : Prop := ∀ t t' : TypeTable, Siblings e.types t t' → ∀ s s' : Signature,
  s.Twin t t' s' → Parallel (Artifact.Twin e.functions t t') (e.outcomeWith t s) (e.outcomeWith t' s')

def withSchedule (e : Engine) (schedule : Schedule) : Engine := { e with schedule }

/-- Whatever scalars the engine gains, what a signature is compiled to does not depend on the order in
which passes visit. -/
def OrderFree (e : Engine) : Prop := ∀ t : TypeTable, t.WellFormed → e.types.GrowsByScalars t →
  ∀ s : Signature, s.Registered t → ∀ σ σ' : Schedule,
    (e.withSchedule σ).outcomeWith t s = (e.withSchedule σ').outcomeWith t s

/-- What requests rely on in the engine that they begin from: its natives never enter it again, a
class of names has those of its records, and numbers of scalars do not matter. -/
structure Ground (N : Ident → Prop) (e : Engine) : Prop extends WellFormed e where
  pure : e.functions.Pure
  records : ∀ {id r}, e.types.record? id = some r → N r.name
  uniform : e.Uniform

/-- Engines that descend from one engine, with as many activations alive, that look up the names of a class
alike. -/
structure Twin (N : Ident → Prop) (e₀ e e' : Engine) : Prop where
  left : e₀.Descends e
  right : e₀.Descends e'
  alive : e.activations.alive = e'.activations.alive
  names : ∀ n, N n → Option.Rel (e.types.Twin e'.types) (e.types.lookup n) (e'.types.lookup n)

/-- The second engine still has the types and the outcomes of the first one. -/
structure Gains (e e' : Engine) : Prop where
  types : e.types.Grows e'.types
  compiled : e.Remembers e'

theorem Gains.refl (e : Engine) : e.Gains e := ⟨.refl _, .refl e⟩

theorem Gains.trans (h : e.Gains e₁) (h' : e₁.Gains e₂) : e.Gains e₂ :=
  ⟨h.types.trans h'.types, h.compiled.trans h'.compiled⟩

/-! ### Outcomes -/

theorem registered_args {t t' : TypeTable} {s s' : Signature} (hs : s.Twin t t' s') :
    s.Registered t ∧ s'.Registered t' := by
  unfold Signature.Registered
  have hall := hs.args
  generalize s.args = ids at hall
  generalize s'.args = ids' at hall
  induction hall with
  | nil => simp
  | cons hid _ ih => exact ⟨List.forall_mem_cons.2 ⟨hid.left, ih.1⟩,
      List.forall_mem_cons.2 ⟨hid.symm.left, ih.2⟩⟩

namespace WellFormed

variable (he : e.WellFormed)
include he

/-- With further scalars, the surroundings in which the engine compiles are in order. -/
theorem typing {t : TypeTable} (hw : t.WellFormed) (ht : e.types.GrowsByScalars t) :
    ∃ c : Typing, Typing.of e.functions t e.options.defaultBits = .ok c ∧ c.functions = e.functions ∧
      c.types = t ∧ c.defaultBits = e.options.defaultBits ∧
        c.types.scalarBits? c.defaultScalar = some c.defaultBits ∧ c.Grounded := by
  have hwf : Engine.WellFormed { e with types := t } := he.of_types rfl rfl hw ht.toGrows
  obtain ⟨id, hid⟩ := hwf.defaultScalar
  have hc := typing_of_scalar (e := { e with types := t }) (hw.scalar?_of_scalarBits? hid)
  exact ⟨_, hc, rfl, rfl, rfl, hid, hwf.grounded hc⟩

variable (hp : ∀ {name n}, e.functions.get? name = some (.native n) → ∀ p ∈ n.params, (e.types.get? p).isSome)
include hp

/-- Outcomes with different further scalars are described alike, if signatures that are described alike
are visited at the same places. -/
theorem outcomeWith_alike {t t' : TypeTable} (hT : Siblings e.types t t') {σ σ' : Schedule}
    (ho : σ.order.Alike t t' σ'.order) {s s' : Signature} (hs : s.Twin t t' s') :
    Parallel (Artifact.Twin e.functions t t') ((e.withSchedule σ).outcomeWith t s)
      ((e.withSchedule σ').outcomeWith t' s') := by
  obtain ⟨c, hc, hf, rfl, hb, hscalar, hgrounded⟩ := he.typing hT.left hT.growsLeft
  obtain ⟨c', hc', hf', rfl, hb', hscalar', hgrounded'⟩ := he.typing hT.right hT.growsRight
  have htwin : Typing.Twin e.types c c' := by
    refine ⟨hT, hf'.trans hf.symm, hb'.trans hb.symm, ⟨_, scalarBits?_eq_some.1 hscalar, ?_⟩, fun hn => ?_⟩
    · rw [hb, ← hb']
      exact scalarBits?_eq_some.1 hscalar'
    · rw [hf] at hn
      exact ⟨hp hn, he.natives hn⟩
  unfold Engine.outcomeWith Engine.withSchedule
  rw [hc, hc', ← hf]
  exact htwin.compile hgrounded hgrounded' σ.complete σ'.complete ho hs

/-- Numbers do not matter to a schedule that does not look at them. -/
theorem uniform (ho : ∀ t t', Siblings e.types t t' → e.schedule.order.Alike t t' e.schedule.order) :
    e.Uniform := fun _ _ hT _ _ hs => he.outcomeWith_alike hp hT (ho _ _ hT) hs

/-- Numbers do not matter where the order does not. -/
theorem uniform_of_orderFree (hfree : e.OrderFree) : e.Uniform := by
  intro t t' hT s s' hs
  obtain ⟨hargs, hargs'⟩ := registered_args hs
  have hfirst : ∀ {t : TypeTable}, t.WellFormed → e.types.GrowsByScalars t → ∀ {s : Signature},
      s.Registered t → e.outcomeWith t s = (e.withSchedule .calleesFirst).outcomeWith t s :=
    fun hw hg _ hs => hfree _ hw hg _ hs e.schedule .calleesFirst
  rw [hfirst hT.left hT.growsLeft hargs, hfirst hT.right hT.growsRight hargs']
  exact he.outcomeWith_alike hp hT (.calleesFirst t t') hs

/-- An outcome stays what it is when scalars are gained. -/
theorem outcomeWith_grows {t t' : TypeTable} (hw : t.WellFormed) (hg : e.types.GrowsByScalars t)
    (hw' : t'.WellFormed) (hg' : t.GrowsByScalars t') {s : Signature} (hs : s.Registered t) :
    Parallel (Artifact.Twin e.functions t t') (e.outcomeWith t s) (e.outcomeWith t' s) := by
  have hT : Siblings e.types t t' := ⟨he.types, hw, hw', hg, hg.trans hg'⟩
  refine he.outcomeWith_alike hp hT (.of_grows hT hg'.toGrows e.schedule.complete) ⟨rfl, ?_⟩
  refine List.forall₂_same.2 fun id hid => ?_
  obtain ⟨d, hd⟩ := Option.isSome_iff_exists.1 (hs id hid)
  exact ⟨d, hd, hg'.toGrows.get? hd⟩

end WellFormed

namespace Twin

theorem siblings (hg : Ground N e₀) (h : Twin N e₀ e e') : Siblings e₀.types e.types e'.types :=
  ⟨hg.types, h.left.types, h.right.types, h.left.grows, h.right.grows⟩

/-- Outcomes for signatures that are described alike are described alike, whenever they were compiled. -/
theorem outcome (hg : Ground N e₀) (h : Twin N e₀ e e') {s s' : Signature}
    (hs : s.Twin e.types e'.types s') {r r' : Except CompileError Artifact}
    (hr : e.compiled.get? s = some r) (hr' : e'.compiled.get? s' = some r') :
    Parallel (Artifact.Twin e₀.functions e.types e'.types) r r' := by
  obtain ⟨t, hw, hgt, hte, hargs, rfl⟩ := h.left.outcome hr
  obtain ⟨t', hw', hgt', hte', hargs', rfl⟩ := h.right.outcome hr'
  -- what is described alike now was so when each of the outcomes was compiled
  have hsigs : s.Twin t t' s' := ⟨hs.function, by
    have hall := hs.args
    revert hargs hargs'
    unfold Signature.Registered
    generalize s.args = ids at hall
    generalize s'.args = ids' at hall
    intro hargs hargs'
    induction hall with
    | nil => exact .nil
    | cons hid _ ih =>
      rw [List.forall_mem_cons] at hargs hargs'
      exact .cons (hid.shrinks hte.toGrows hte'.toGrows hargs.1 hargs'.1) (ih hargs.2 hargs'.2)⟩
  exact (hg.uniform _ _ ⟨hg.types, hw, hw', hgt, hgt'⟩ _ _ hsigs).mono fun _ _ ha =>
    ha.grows hte.toGrows hte'.toGrows

end Twin

end Engine

/-! ### Requests on twins -/

/-- Where two requests end: in twins that have lost nothing, with the same error or related answers. -/
structure Ends (N : Ident → Prop) (e₀ e e' : Engine) (Q : Engine → Engine → α → β → Prop)
    (p : Except Error α × Engine) (q : Except Error β × Engine) : Prop where
  twin : Engine.Twin N e₀ p.2 q.2
  left : e.Gains p.2
  right : e'.Gains q.2
  answer : Parallel (Q p.2 q.2) p.1 q.1

/-- Two requests, begun in two engines, are both stopped for the same reason or end alike. -/
def RunsAlike (N : Ident → Prop) (e₀ : Engine) (Q : Engine → Engine → α → β → Prop) (e e' : Engine)
    (x : Run α) (y : Run β) : Prop :=
  Parallel (Ends N e₀ e e' Q) (e.run x) (e'.run y)

namespace RunsAlike

variable {Q : Engine → Engine → α → β → Prop} {Q' : Engine → Engine → γ → δ → Prop} {x : Run α} {y : Run β}

theorem pure (h : Engine.Twin N e₀ e e') {a : α} {b : β} (hQ : Q e e' a b) :
    RunsAlike N e₀ Q e e' (pure a) (pure b) :=
  .ok ⟨h, .refl e, .refl e', .ok hQ⟩

theorem throw (h : Engine.Twin N e₀ e e') (err : Error) :
    RunsAlike N e₀ Q e e' (throw err) (throw err) :=
  .ok ⟨h, .refl e, .refl e', .error err⟩

theorem halt (why : Halt) : RunsAlike N e₀ Q e e' (Run.halt why) (Run.halt why) := .error why

theorem bind {f : α → Run γ} {g : β → Run δ} (hx : RunsAlike N e₀ Q e e' x y)
    (hf : ∀ a b e₁ e₁', Engine.Twin N e₀ e₁ e₁' → e.Gains e₁ → e'.Gains e₁' → Q e₁ e₁' a b →
      RunsAlike N e₀ Q' e₁ e₁' (f a) (g b)) : RunsAlike N e₀ Q' e e' (x >>= f) (y >>= g) := by
  unfold RunsAlike at hx ⊢
  rw [Engine.run_bind, Engine.run_bind]
  refine hx.bind ?_
  rintro ⟨a, e₁⟩ ⟨b, e₁'⟩ ⟨htwin, hl, hr, ha⟩
  cases ha with
  | error err => exact .ok ⟨htwin, hl, hr, .error err⟩
  | ok hQ =>
    exact (hf _ _ _ _ htwin hl hr hQ).mono fun _ _ h =>
      ⟨h.twin, hl.trans h.left, hr.trans h.right, h.answer⟩

theorem mono {R : Engine → Engine → α → β → Prop} (hx : RunsAlike N e₀ Q e e' x y)
    (h : ∀ e₁ e₁' a b, Engine.Twin N e₀ e₁ e₁' → Q e₁ e₁' a b → R e₁ e₁' a b) :
    RunsAlike N e₀ R e e' x y :=
  Parallel.mono hx fun _ _ hE => ⟨hE.twin, hE.left, hE.right, hE.answer.mono fun _ _ => h _ _ _ _ hE.twin⟩

theorem answers {Q : Engine → Engine → α → α → Prop} {x y : Run α} (hx : RunsAlike N e₀ Q e e' x y)
    (h : ∀ e₁ e₁' a b, Q e₁ e₁' a b → a = b) : (e.run x).map Prod.fst = (e'.run y).map Prod.fst := by
  unfold RunsAlike at hx
  revert hx
  generalize e.run x = p
  generalize e'.run y = q
  intro hx
  cases hx with
  | error why => rfl
  | ok hE => exact congrArg Except.ok (hE.answer.mono fun _ _ => h _ _ _ _).eq.symm

theorem bind_update {x : Update α} {y : Update β} {f : α → Update γ} {g : β → Update δ}
    (hx : RunsAlike N e₀ Q e e' (Run.ofUpdate x) (Run.ofUpdate y))
    (hf : ∀ a b e₁ e₁', Engine.Twin N e₀ e₁ e₁' → e.Gains e₁ → e'.Gains e₁' → Q e₁ e₁' a b →
      RunsAlike N e₀ Q' e₁ e₁' (Run.ofUpdate (f a)) (Run.ofUpdate (g b))) :
    RunsAlike N e₀ Q' e e' (Run.ofUpdate (x >>= f)) (Run.ofUpdate (y >>= g)) := by
  rw [Run.ofUpdate_bind, Run.ofUpdate_bind]
  exact hx.bind hf

/-- The same step of a program on both sides. -/
theorem ofRuntime (h : Engine.Twin N e₀ e e') (x : Except RuntimeError α) :
    RunsAlike N e₀ (fun _ _ a b => a = b ∧ x = .ok a) e e' (Run.ofRuntime x) (Run.ofRuntime x) := by
  cases x with
  | ok a => exact .pure h ⟨rfl, rfl⟩
  | error err => exact .throw h _

/-- The same step on types on both sides. -/
theorem ofType (h : Engine.Twin N e₀ e e') (x : Except TypeError α) :
    RunsAlike N e₀ (fun _ _ a b => a = b ∧ x = .ok a) e e' (Run.ofUpdate (Update.ofType x))
      (Run.ofUpdate (Update.ofType x)) := by
  cases x with
  | ok a => exact .pure h ⟨rfl, rfl⟩
  | error err => exact .throw h (.compile (.type err))

end RunsAlike

namespace Engine

variable {s s' : Signature}

/-! ### Steps that leave types and outcomes alone -/

/-- A step that only changes the counts, and leaves as many activations alive on both sides. -/
theorem Twin.of_eq (h : Twin N e₀ e e') (hf : e₁.functions = e.functions) (ho : e₁.options = e.options)
    (hs : e₁.schedule = e.schedule) (ht : e₁.types = e.types) (hc : e₁.compiled = e.compiled)
    (hb : e₁.bound = e.bound) (hf' : e₁'.functions = e'.functions) (ho' : e₁'.options = e'.options)
    (hs' : e₁'.schedule = e'.schedule) (ht' : e₁'.types = e'.types)
    (hc' : e₁'.compiled = e'.compiled) (hb' : e₁'.bound = e'.bound)
    (halive : e₁.activations.alive = e₁'.activations.alive) : Twin N e₀ e₁ e₁' where
  left := h.left.of_eq hf ho hs ht hc hb
  right := h.right.of_eq hf' ho' hs' ht' hc' hb'
  alive := halive
  names := by
    rw [ht, ht']
    exact h.names

theorem Twin.function? (h : Twin N e₀ e e') (name : Ident) {Q : Engine → Engine → α → β → Prop}
    {f : Option Function → Run α} {g : Option Function → Run β}
    (hf : RunsAlike N e₀ Q e e' (f (e₀.functions.get? name)) (g (e₀.functions.get? name))) :
    RunsAlike N e₀ Q e e' (Run.function? name >>= f) (Run.function? name >>= g) := by
  unfold RunsAlike at hf ⊢
  rw [run_function?, run_function?, h.left.functions, h.right.functions]
  exact hf

theorem get_alike {Q : Engine → Engine → α → β → Prop} {f : Engine → Update α} {g : Engine → Update β}
    (hf : RunsAlike N e₀ Q e e' (Run.ofUpdate (f e)) (Run.ofUpdate (g e'))) :
    RunsAlike N e₀ Q e e' (Run.ofUpdate (MonadState.get >>= f)) (Run.ofUpdate (MonadState.get >>= g)) :=
  hf

theorem types_alike {Q : Engine → Engine → α → β → Prop} {f : TypeTable → Run α} {g : TypeTable → Run β}
    (hf : RunsAlike N e₀ Q e e' (f e.types) (g e'.types)) :
    RunsAlike N e₀ Q e e' (Run.types >>= f) (Run.types >>= g) := by
  unfold RunsAlike at hf ⊢
  rw [run_types, run_types]
  exact hf

theorem Twin.countExecution (h : Twin N e₀ e e') :
    RunsAlike N e₀ (fun _ _ _ _ => True) e e' Run.countExecution Run.countExecution :=
  .ok ⟨h.of_eq rfl rfl rfl rfl rfl rfl rfl rfl rfl rfl rfl rfl h.alive, ⟨.refl _, .refl _⟩, ⟨.refl _, .refl _⟩,
    .ok trivial⟩

/-- An activation is refused on both sides or on none. -/
theorem Twin.activation (h : Twin N e₀ e e') {Q : Engine → Engine → α → β → Prop} {x : Run α} {y : Run β}
    (hQ : ∀ e₁ e₁' a b, Q e₁ e₁' a b → Q e₁.left e₁'.left a b)
    (hx : Twin N e₀ e.entered e'.entered → RunsAlike N e₀ Q e.entered e'.entered x y) :
    RunsAlike N e₀ Q e e' (Run.activation x) (Run.activation y) := by
  have hentered : Twin N e₀ e.entered e'.entered :=
    h.of_eq rfl rfl rfl rfl rfl rfl rfl rfl rfl rfl rfl rfl (congrArg (· + 1) h.alive)
  unfold RunsAlike
  rw [run_activation, run_activation, h.left.options, h.right.options, h.alive]
  split
  · exact .ok ⟨h, .refl e, .refl e', .error _⟩
  · refine (hx hentered).map fun p q hE => ?_
    refine ⟨hE.twin.of_eq rfl rfl rfl rfl rfl rfl rfl rfl rfl rfl rfl rfl (congrArg (· - 1) hE.twin.alive),
      ⟨hE.left.types, hE.left.compiled⟩, ⟨hE.right.types, hE.right.compiled⟩, ?_⟩
    exact hE.answer.mono fun a b => hQ _ _ a b

/-! ### Scalars -/

/-- Both sides register the same width, or refuse it. -/
theorem Twin.declareScalar (h : Twin N e₀ e e') (bits : Nat) :
    RunsAlike N e₀ (fun e₁ e₁' id id' => e₁.types.Twin e₁'.types id id') e e'
      (Run.ofUpdate (Update.declareScalar bits)) (Run.ofUpdate (Update.declareScalar bits)) := by
  by_cases hb : 1 ≤ bits ∧ bits ≤ 64
  · have hs : ∀ t : TypeTable, t.declareScalar bits = .ok (t.ensureScalar bits) := fun t => if_pos hb
    have hget := h.left.types.get?_ensureScalar hb.1 hb.2
    have hget' := h.right.types.get?_ensureScalar hb.1 hb.2
    have hg := (ensureScalar_grows e.types bits).toGrows
    have hg' := (ensureScalar_grows e'.types bits).toGrows
    have htwin : Twin N e₀ { e with types := (e.types.ensureScalar bits).2 }
        { e' with types := (e'.types.ensureScalar bits).2 } := by
      refine ⟨h.left.onward (.scalar hb.1 hb.2), h.right.onward (.scalar hb.1 hb.2), h.alive, fun n hn => ?_⟩
      rw [h.left.types.lookup_ensureScalar hb.1 hb.2, h.right.types.lookup_ensureScalar hb.1 hb.2]
      split
      · exact .some ⟨_, hget, hget'⟩
      · exact rel_grows (h.names n hn) hg hg'
    unfold RunsAlike
    rw [run_ofUpdate, run_ofUpdate, update_declareScalar (hs _), update_declareScalar (hs _)]
    exact .ok ⟨htwin, ⟨hg, .refl _⟩, ⟨hg', .refl _⟩, .ok ⟨_, hget, hget'⟩⟩
  · have hs : ∀ t : TypeTable, t.declareScalar bits = .error (.widthOutOfRange bits) := fun t => if_neg hb
    refine get_alike ?_
    rw [hs, hs]
    exact .throw h (.compile (.type (.widthOutOfRange bits)))

theorem Twin.argumentType (h : Twin N e₀ e e') {t t' : TypeTable}
    (hnames : ∀ n, N n → Option.Rel (e.types.Twin e'.types) (t.lookup n) (t'.lookup n)) (function : Ident)
    {v : Value} (hv : v.RecordsIn N) :
    RunsAlike N e₀ (fun e₁ e₁' id id' => e₁.types.Twin e₁'.types id id') e e'
      (Run.ofUpdate (Update.argumentType t function v))
      (Run.ofUpdate (Update.argumentType t' function v)) := by
  cases hv with
  | int n =>
    refine get_alike ?_
    rw [h.left.options, h.right.options]
    exact h.declareScalar _
  | uint u => exact h.declareScalar u.bits
  | incomplete => exact .throw h _
  | @record name vs hname _ =>
    have hrel := hnames name hname
    simp only [Update.argumentType]
    generalize t.lookup name = o at hrel ⊢
    generalize t'.lookup name = o' at hrel ⊢
    cases hrel with
    | none => exact .throw h (.compile (.type (.undeclared name)))
    | some hid => exact .pure h hid

theorem Twin.argumentTypes (h : Twin N e₀ e e') {t t' : TypeTable}
    (hnames : ∀ n, N n → Option.Rel (e.types.Twin e'.types) (t.lookup n) (t'.lookup n)) (function : Ident)
    {args : List Value} (hargs : ∀ v ∈ args, v.RecordsIn N) :
    RunsAlike N e₀ (fun e₁ e₁' ids ids' => List.Forall₂ (e₁.types.Twin e₁'.types) ids ids') e e'
      (Run.ofUpdate (args.mapM (Update.argumentType t function)))
      (Run.ofUpdate (args.mapM (Update.argumentType t' function))) := by
  induction args generalizing e e' with
  | nil => exact .pure h .nil
  | cons v rest ih =>
    obtain ⟨hv, hrest⟩ := List.forall_mem_cons.1 hargs
    rw [List.mapM_cons, List.mapM_cons]
    refine (h.argumentType hnames function hv).bind_update fun id id' e₁ e₁' h₁ hg hg' hid => ?_
    refine (ih h₁ (fun n hn => rel_grows (hnames n hn) hg.types hg'.types) hrest).bind_update
      fun ids ids' e₂ e₂' h₂ hg hg' hids => ?_
    exact .pure h₂ (.cons (hid.grows hg.types hg'.types) hids)

theorem Twin.signatureOf (h : Twin N e₀ e e') (function : Ident) {args : List Value}
    (hargs : ∀ v ∈ args, v.RecordsIn N) :
    RunsAlike N e₀ (fun e₁ e₁' s s' => s.Twin e₁.types e₁'.types s') e e'
      (Run.ofUpdate (Update.signatureOf function args))
      (Run.ofUpdate (Update.signatureOf function args)) := by
  refine get_alike ?_
  exact (h.argumentTypes h.names function hargs).bind_update
    fun ids ids' e₁ e₁' h₁ _ _ hids => .pure h₁ ⟨rfl, hids⟩

/-! ### The specialiser -/

/-- The engine answers with an outcome of a signature that it then keeps. -/
def Provides (e₀ e : Engine) (s : Signature) (x : Update Artifact) : Prop :=
  ∃ r e₁, e.update x = (r.mapError Error.compile, e₁) ∧ e₁.compiled.get? s = some r ∧ e₀.Descends e₁ ∧
    e.Gains e₁ ∧ e₁.types = e.types ∧ e₁.activations = e.activations

theorem Descends.artifactOf (h : e₀.Descends e) (hs : s.Registered e.types) :
    Provides e₀ e s (Update.artifactOf s) := by
  have hof : ∀ (r : Except CompileError Artifact) (e₁ : Engine),
      e₁.update (Update.ofCompile r) = (r.mapError Error.compile, e₁) := fun r e₁ => by cases r <;> rfl
  unfold Update.artifactOf Provides
  rw [update_get]
  cases hr : e.compiled.get? s with
  | some r =>
    have hset : e.update (set e.withHit : Update PUnit) = (.ok ⟨⟩, e.withHit) := rfl
    refine ⟨r, e.withHit, ?_, hr, h.of_eq rfl rfl rfl rfl rfl rfl, ⟨.refl _, .refl _⟩, rfl, rfl⟩
    exact (update_bind_ok hset).trans (hof r _)
  | none =>
    exact ⟨_, e.withOutcome s, (update_bind_ok (update_compile e s)).trans (hof _ _),
      Assoc.get?_insert_self _ _ _, h.onward (.compile hr fun _ => hs),
      ⟨.refl _, remembers_withOutcome hr⟩, rfl, rfl⟩

/-- Behind a call site stands what the signature listed there comes to, whether it is bound or not. -/
theorem Descends.bindSite (h : e₀.Descends e) {caller : Artifact} (hk : e.Keeps caller) {site : Nat}
    (hsite : caller.callSites[site]? = some s) : Provides e₀ e s
      (Update.bindSite caller.signature site s) := by
  unfold Update.bindSite Provides
  rw [update_get]
  cases hb : e.bound.get? (caller.signature, site) with
  | some b =>
    obtain ⟨hkb, a, ha, hat⟩ := h.bound hb
    obtain rfl : caller = a := Except.ok.inj (Option.some.inj (hk.symm.trans ha))
    obtain rfl : s = b.signature := Option.some.inj (hsite.symm.trans hat)
    exact ⟨.ok b, e, rfl, hkb, h, .refl e, rfl, rfl⟩
  | none =>
    obtain ⟨r, e₁, hx, hr, h₁, hg, ht, ha⟩ := h.artifactOf (h.sites hk s (List.mem_of_getElem? hsite))
    cases r with
    | error err => exact ⟨.error err, e₁, update_bind_error hx, hr, h₁, hg, ht, ha⟩
    | ok b =>
      obtain ⟨hkb, rfl⟩ := h₁.toCoherent.keeps hr
      have hk₁ : e₁.compiled.get? caller.signature = some (.ok caller) := hg.compiled _ _ hk
      refine ⟨.ok b, e₁.withBound caller.signature site b, (update_bind_ok hx).trans rfl, hr,
        h₁.onward (.bind fun _ => ⟨hkb, caller, hk₁, hsite⟩),
        ⟨hg.types, hg.compiled⟩, ht, ha⟩

/-- Artifacts that two engines keep and that are described alike. -/
structure Held (e₀ e e' : Engine) (a a' : Artifact) : Prop where
  twin : a.Twin e₀.functions e.types e'.types a'
  left : e.Keeps a
  right : e'.Keeps a'

theorem Held.gains {a a' : Artifact} (h : Held e₀ e e' a a') (hg : e.Gains e₁) (hg' : e'.Gains e₁') :
    Held e₀ e₁ e₁' a a' :=
  ⟨h.twin.grows hg.types hg'.types, hg.compiled _ _ h.left, hg'.compiled _ _ h.right⟩

theorem Twin.provides (hground : Ground N e₀) (h : Twin N e₀ e e') (hs : s.Twin e.types e'.types s')
    {x y : Update Artifact} (hx : Provides e₀ e s x) (hy : Provides e₀ e' s' y) :
    RunsAlike N e₀ (Held e₀) e e' (Run.ofUpdate x) (Run.ofUpdate y) := by
  obtain ⟨r, e₁, hx, hr, h₁, hg, ht, ha⟩ := hx
  obtain ⟨r', e₁', hy, hr', h₁', hg', ht', ha'⟩ := hy
  have htwin : Twin N e₀ e₁ e₁' := by
    refine ⟨h₁, h₁', ?_, ?_⟩
    · rw [ha, ha']
      exact h.alive
    · rw [ht, ht']
      exact h.names
  unfold RunsAlike
  rw [run_ofUpdate, run_ofUpdate, hx, hy]
  refine .ok ⟨htwin, hg, hg', ?_⟩
  cases htwin.outcome hground (hs.grows hg.types hg'.types) hr hr' with
  | error err => exact .error _
  | ok htw => exact .ok ⟨htw, (h₁.toCoherent.keeps hr).1, (h₁'.toCoherent.keeps hr').1⟩

/-- Both sides specialise to artifacts that are described alike, or fail alike. -/
theorem Twin.specialize (hground : Ground N e₀) (h : Twin N e₀ e e') (function : Ident) {args : List Value}
    (hargs : ∀ v ∈ args, v.RecordsIn N) :
    RunsAlike N e₀ (Held e₀) e e' (Run.ofUpdate (Update.specialize function args))
      (Run.ofUpdate (Update.specialize function args)) := by
  unfold Update.specialize
  refine (h.signatureOf function hargs).bind_update fun s s' e₁ e₁' h₁ _ _ hs => ?_
  obtain ⟨hreg, hreg'⟩ := registered_args hs
  exact h₁.provides hground hs (h₁.left.artifactOf hreg) (h₁.right.artifactOf hreg')

/-- What stands behind the same call site of artifacts that are described alike is described alike. -/
theorem Twin.bindSite (hground : Ground N e₀) (h : Twin N e₀ e e') {a a' : Artifact}
    (ha : Held e₀ e e' a a') {site : Nat} (hsite : a.callSites[site]? = some s)
    (hsite' : a'.callSites[site]? = some s') (hs : s.Twin e.types e'.types s') :
    RunsAlike N e₀ (Held e₀) e e' (Run.ofUpdate (Update.bindSite a.signature site s))
      (Run.ofUpdate (Update.bindSite a'.signature site s')) := by
  exact h.provides hground hs (h.left.bindSite ha.left hsite) (h.right.bindSite ha.right hsite')

end Engine

end ShapeCompiler
