import ShapeCompiler.Proofs.Answers
import ShapeCompiler.Proofs.Engine.Growth

/-!
Requests extend the engine that serves them.

Main statements: a sequence of requests ensures what its parts ensure (`Run.Ensures.bind`), and what
is specialised or bound to a call site is kept by the engine afterwards (`Run.specialize_ensures`,
`Run.bindSite_ensures`).
-/

namespace ShapeCompiler

variable {α β : Type} {e e' : Engine}

/-! ### Running a sequence -/

theorem Engine.run_bind (e : Engine) (x : Run α) (f : α → Run β) :
    e.run (x >>= f) = e.run x >>= fun p =>
      match p.1 with
      | .ok a => p.2.run (f a)
      | .error err => .ok (.error err, p.2) := by
  show (x e >>= fun p => ExceptT.bindCont f p.1 p.2) = (x e >>= _)
  congr 1
  funext p
  rcases p with ⟨a | a, e'⟩ <;> rfl

/-- A sequence ends where its second part ends, or where its first part fails. -/
theorem Engine.run_bind_eq_ok {x : Run α} {f : α → Run β} {y : Except Error β} :
    e.run (x >>= f) = .ok (y, e') ↔
      (∃ a e₁, e.run x = .ok (.ok a, e₁) ∧ e₁.run (f a) = .ok (y, e')) ∨
        ∃ err, e.run x = .ok (.error err, e') ∧ y = .error err := by
  rw [run_bind, bind_eq_ok]
  constructor
  · rintro ⟨⟨a | a, e₁⟩, hx, hf⟩
    · cases hf
      exact .inr ⟨a, hx, rfl⟩
    · exact .inl ⟨a, e₁, hx, hf⟩
  · rintro (⟨a, e₁, hx, hf⟩ | ⟨err, hx, rfl⟩)
    · exact ⟨_, hx, hf⟩
    · exact ⟨_, hx, rfl⟩

theorem Engine.run_function? (e : Engine) (name : Ident) (f : Option Function → Run β) :
    e.run (Run.function? name >>= f) = e.run (f (e.functions.get? name)) := by
  rw [run_bind]
  rfl

theorem Engine.run_types (e : Engine) (f : TypeTable → Run β) :
    e.run (Run.types >>= f) = e.run (f e.types) := by
  rw [run_bind]
  rfl

theorem Engine.run_attempt (e : Engine) (x : Run α) :
    e.run (Run.attempt x) = (e.run x).map fun p => (.ok p.1, p.2) := by
  unfold Run.attempt
  cases hx : e.run x with
  | error h =>
    simp only [Engine.run, ExceptT.run, ExceptT.mk, StateT.run] at hx ⊢
    rw [hx]
    rfl
  | ok p =>
    simp only [Engine.run, ExceptT.run, ExceptT.mk, StateT.run] at hx ⊢
    rw [hx]
    rfl

theorem Engine.run_attempt_eq_ok {x : Run α} {y : Except Error (Except Error α)} :
    e.run (Run.attempt x) = .ok (y, e') ↔ ∃ answer, e.run x = .ok (answer, e') ∧ y = .ok answer := by
  rw [run_attempt]
  cases e.run x with
  | error h =>
    constructor
    · intro h; cases h
    · rintro ⟨_, h, -⟩; cases h
  | ok p =>
    constructor
    · intro h; cases h; exact ⟨p.1, rfl, rfl⟩
    · rintro ⟨answer, h, rfl⟩; cases h; rfl

theorem Run.ofUpdate_bind (x : Update α) (f : α → Update β) :
    ofUpdate (x >>= f) = ofUpdate x >>= fun a => ofUpdate (f a) := by
  funext e
  show Except.ok ((ExceptT.bindCont f (x e).1 (x e).2 : Except Error β × Engine)) =
    Engine.run e (ofUpdate x >>= fun a => ofUpdate (f a))
  rw [Engine.run_bind]
  show _ = (Except.ok (x e) >>= _ : Except Halt _)
  rcases x e with ⟨a | a, e'⟩ <;> rfl

/-! ### What requests ensure -/

/-- The request extends every engine in which it is begun under a condition, and what it yields then
satisfies another one. -/
def Run.Ensures (fixed : Prop) (P : Engine → Prop) (x : Run α) (Q : α → Engine → Prop) : Prop :=
  ∀ e, P e → ∀ y e', e.run x = .ok (y, e') →
    e.Extends fixed e' ∧ ∀ a, y = .ok a → Q a e'

/-- The request extends every engine. -/
abbrev Run.Grows (fixed : Prop) (x : Run α) : Prop := x.Ensures fixed (fun _ => True) fun _ _ => True

namespace Run

variable {fixed : Prop} {P : Engine → Prop} {Q : α → Engine → Prop} {Q' : β → Engine → Prop}

namespace Ensures

theorem pure {a : α} (h : ∀ e, P e → Q a e) : Ensures fixed P (pure a) Q := by
  intro e he y e' hr
  cases hr
  exact ⟨.refl e, fun b hb => by cases hb; exact h e he⟩

theorem throw (err : Error) : Ensures fixed P (throw err) Q := by
  intro e he y e' hr
  cases hr
  exact ⟨.refl e, fun b hb => by cases hb⟩

theorem halt (h : Halt) : Ensures fixed P (halt h) Q := by
  intro e he y e' hr
  cases hr

theorem bind {x : Run α} {f : α → Run β} (hx : Ensures fixed P x Q) (hf : ∀ a, Ensures fixed (Q a) (f a) Q') :
    Ensures fixed P (x >>= f) Q' := by
  intro e he y e' hr
  rcases Engine.run_bind_eq_ok.1 hr with ⟨a, e₁, h₁, h₂⟩ | ⟨err, h₁, rfl⟩
  · obtain ⟨hext, hq⟩ := hx e he _ _ h₁
    obtain ⟨hext', hq'⟩ := hf a e₁ (hq a rfl) _ _ h₂
    exact ⟨hext.trans hext', hq'⟩
  · exact ⟨(hx e he _ _ h₁).1, fun a ha => by cases ha⟩

theorem weaken {R : α → Engine → Prop} {P' : Engine → Prop} {x : Run α} (hx : Ensures fixed P x Q)
    (hP : ∀ e, P' e → P e) (hQ : ∀ a e, Q a e → R a e) : Ensures fixed P' x R := by
  intro e he y e' hr
  obtain ⟨hext, hq⟩ := hx e (hP e he) y e' hr
  exact ⟨hext, fun a ha => hQ a e' (hq a ha)⟩

/-- Whatever goes on to hold while an engine is extended still holds behind a request. -/
theorem frame {R : Engine → Prop} {x : Run α} (hx : Ensures fixed P x Q) (hR : Engine.Stable fixed R) :
    Ensures fixed (fun e => P e ∧ R e) x fun a e => R e ∧ Q a e := by
  intro e he y e' hr
  obtain ⟨hext, hq⟩ := hx e he.1 y e' hr
  exact ⟨hext, fun a ha => ⟨hR e e' hext he.2, hq a ha⟩⟩

/-- What a request begins under still holds behind it. -/
theorem keep {x : Run α} (hx : Ensures fixed P x Q) (hP : Engine.Stable fixed P) :
    Ensures fixed P x fun a e => P e ∧ Q a e :=
  (hx.frame hP).weaken (fun _ h => ⟨h, h⟩) fun _ _ h => h

theorem attempt {x : Run α} (hx : Ensures fixed P x Q) :
    Ensures fixed P (attempt x) fun r e => ∀ a, r = .ok a → Q a e := by
  intro e he y e' hr
  obtain ⟨answer, hx', rfl⟩ := Engine.run_attempt_eq_ok.1 hr
  obtain ⟨hext, hq⟩ := hx e he _ _ hx'
  exact ⟨hext, fun b hb => by cases hb; exact hq⟩

theorem get : Ensures fixed P get fun a e => a = e ∧ P e := by
  intro e he y e' hr
  cases hr
  exact ⟨.refl e, fun b hb => by cases hb; exact ⟨rfl, he⟩⟩

theorem set {s : Engine} (h : ∀ e, P e → e.Extends fixed s) : Ensures fixed P (set s) fun _ e => e = s := by
  intro e he y e' hr
  cases hr
  exact ⟨h e he, fun _ _ => rfl⟩

theorem modify {f : Engine → Engine} (h : ∀ e, P e → e.Extends fixed (f e)) :
    Ensures fixed P (modify f) fun _ e => ∃ e₀, P e₀ ∧ e = f e₀ := by
  intro e he y e' hr
  cases hr
  exact ⟨h e he, fun _ _ => ⟨e, he, rfl⟩⟩

end Ensures

/-! ### Requests that always end -/

/-- A request that always ends, as a run. -/
abbrev EnsuresUpdate (fixed : Prop) (P : Engine → Prop) (x : Update α) (Q : α → Engine → Prop) : Prop :=
  Ensures fixed P (ofUpdate x) Q

theorem Ensures.bind_update {x : Update α} {f : α → Update β} (hx : EnsuresUpdate fixed P x Q)
    (hf : ∀ a, EnsuresUpdate fixed (Q a) (f a) Q') : EnsuresUpdate fixed P (x >>= f) Q' := by
  unfold EnsuresUpdate
  rw [ofUpdate_bind]
  exact hx.bind hf

theorem ofType_ensures (x : Except TypeError α) :
    EnsuresUpdate fixed P (Update.ofType x) fun a e => P e ∧ x = .ok a := by
  cases x with
  | ok a => exact Ensures.pure fun e he => ⟨he, rfl⟩
  | error err => exact Ensures.throw _

theorem ofCompile_ensures (x : Except CompileError α) :
    EnsuresUpdate fixed P (Update.ofCompile x) fun a e => P e ∧ x = .ok a := by
  cases x with
  | ok a => exact Ensures.pure fun e he => ⟨he, rfl⟩
  | error err => exact Ensures.throw _

theorem Ensures.pure_update {a : α} (h : ∀ e, P e → Q a e) : EnsuresUpdate fixed P (Pure.pure a) Q :=
  Ensures.pure h

theorem Ensures.get_update : EnsuresUpdate fixed P MonadState.get fun a e => a = e ∧ P e := Ensures.get

theorem Ensures.set_update {s : Engine} (h : ∀ e, P e → e.Extends fixed s) :
    EnsuresUpdate fixed P (MonadState.set s) fun _ e => e = s := Ensures.set h

/-- The engine is in order, with the types of a table. -/
def HasTypes (t : TypeTable) (e : Engine) : Prop := e.types.WellFormed ∧ t.Grows e.types

theorem stable_hasTypes (t : TypeTable) : Engine.Stable fixed fun e => fixed → HasTypes t e := by
  intro e e' h he hf
  obtain ⟨hw, hg⟩ := he hf
  exact ⟨(h.types hw).1, hg.trans (h.types hw).2.toGrows⟩

/-- A scalar is registered afterwards. -/
theorem declareScalar_ensures (bits : Nat) :
    EnsuresUpdate fixed (fun e => fixed → e.types.WellFormed) (Update.declareScalar bits)
      fun id e => fixed → (e.types.get? id).isSome := by
  unfold Update.declareScalar
  refine Ensures.get_update.bind_update fun e => ?_
  refine (ofType_ensures _).bind_update fun p => ?_
  refine Ensures.bind_update (Q := fun _ e => fixed → (e.types.get? p.1).isSome) ?_ fun _ =>
    Ensures.pure_update fun _ h => h
  rintro e₁ ⟨⟨rfl, hw⟩, hd⟩ y e' hr
  unfold TypeTable.declareScalar at hd
  split at hd
  · rename_i hb
    cases hd
    cases hr
    refine ⟨.scalar hb.1 hb.2, fun _ _ hf => ?_⟩
    rw [(hw hf).get?_ensureScalar hb.1 hb.2]
    rfl
  · cases hd

theorem argumentType_ensures (t : TypeTable) (function : Ident) (v : Value) :
    EnsuresUpdate fixed (fun e => fixed → HasTypes t e) (Update.argumentType t function v)
      fun id e => fixed → (e.types.get? id).isSome := by
  cases v with
  | int n =>
    refine Ensures.bind_update Ensures.get_update fun e => ?_
    exact (declareScalar_ensures _).weaken (fun _ h hf => (h.2 hf).1) fun _ _ h => h
  | uint u => exact (declareScalar_ensures _).weaken (fun _ h hf => (h hf).1) fun _ _ h => h
  | record name vs =>
    simp only [Update.argumentType]
    split
    · rename_i id hid
      obtain ⟨d, hd, -⟩ := TypeTable.get?_of_lookup hid
      exact Ensures.pure_update fun e h hf => (h hf).2.get?_isSome (by rw [hd]; rfl)
    · exact Ensures.throw _
  | incomplete => exact Ensures.throw _

theorem argumentTypes_ensures (t : TypeTable) (function : Ident) (args : List Value) :
    EnsuresUpdate fixed (fun e => fixed → HasTypes t e) (args.mapM (Update.argumentType t function))
      fun ids e => fixed → ∀ id ∈ ids, (e.types.get? id).isSome := by
  induction args with
  | nil => exact Ensures.pure_update fun _ _ _ => by simp
  | cons v rest ih =>
    rw [List.mapM_cons]
    refine ((argumentType_ensures t function v).keep (stable_hasTypes t)).bind_update fun id => ?_
    have hlast : Engine.Stable fixed fun e => fixed → HasTypes t e ∧ (e.types.get? id).isSome := by
      intro e e' hx h hf
      exact ⟨stable_hasTypes t e e' hx (fun hf => (h hf).1) hf,
        (hx.types (h hf).1.1).2.toGrows.get?_isSome (h hf).2⟩
    refine Ensures.bind_update ((ih.frame hlast).weaken
      (fun e h => ⟨h.1, fun hf => ⟨h.1 hf, h.2 hf⟩⟩) fun _ _ h => h) fun ids => ?_
    exact Ensures.pure_update fun e h hf => List.forall_mem_cons.2 ⟨(h.1 hf).2, h.2 hf⟩

theorem signatureOf_ensures (function : Ident) (args : List Value) :
    EnsuresUpdate fixed (fun e => fixed → e.types.WellFormed) (Update.signatureOf function args)
      fun s e => s.function = function ∧ (fixed → s.Registered e.types) := by
  unfold Update.signatureOf
  refine Ensures.get_update.bind_update fun e => ?_
  have hargs := @argumentTypes_ensures fixed e.types function args
  refine (hargs.weaken ?_ fun _ _ h => h).bind_update fun ids => Ensures.pure_update fun _ h => ⟨rfl, h⟩
  rintro _ ⟨rfl, hw⟩ hf
  exact ⟨hw hf, .refl _⟩

end Run

theorem Engine.registered_of_signatureOf {function : Ident} {args : List Value} {s : Signature}
    (hw : e.types.WellFormed) (h : e.update (Update.signatureOf function args) = (.ok s, e')) :
    s.Registered e'.types :=
  ((@Run.signatureOf_ensures True function args e (fun _ => hw) _ _ (congrArg Except.ok h)).2 s rfl).2 trivial

namespace Run

variable {fixed : Prop} {P : Engine → Prop} {Q : α → Engine → Prop} {Q' : β → Engine → Prop}

theorem artifactOf_ensures (s : Signature) :
    EnsuresUpdate fixed (fun e => fixed → s.Registered e.types) (Update.artifactOf s)
      fun a e => e.compiled.get? s = some (.ok a) := by
  unfold Update.artifactOf
  refine Ensures.get_update.bind_update fun e => ?_
  split
  · rename_i outcome ho
    have hset : EnsuresUpdate fixed (fun e' => e = e' ∧ (fixed → s.Registered e'.types))
        (set { e with stats := { e.stats with cacheHits := e.stats.cacheHits + 1 } })
        fun _ e' => e'.compiled.get? s = some outcome := by
      refine (Ensures.set_update ?_).weaken (fun _ h => h) ?_
      · rintro _ ⟨rfl, -⟩
        exact .of_eq rfl rfl rfl rfl rfl rfl rfl
      · rintro _ _ rfl
        exact ho
    refine hset.bind_update fun _ => (ofCompile_ensures outcome).weaken (fun _ h => h) ?_
    rintro a e' ⟨he', rfl⟩
    exact he'
  · rename_i hnone
    have hcompile : EnsuresUpdate fixed (fun e' => e = e' ∧ (fixed → s.Registered e'.types))
        (Update.compile s)
        fun outcome e' => e'.compiled.get? s = some outcome := by
      unfold Update.compile
      refine Ensures.get_update.bind_update fun e₁ => ?_
      refine (Ensures.set_update ?_).bind_update fun _ => Ensures.pure_update ?_
      · rintro _ ⟨rfl, rfl, hargs⟩
        exact .compile hnone hargs
      · rintro _ rfl
        exact Assoc.get?_insert_self _ _ _
    refine hcompile.bind_update fun outcome => (ofCompile_ensures outcome).weaken (fun _ h => h) ?_
    rintro a e' ⟨he', rfl⟩
    exact he'

theorem specialize_ensures (function : Ident) (args : List Value) :
    EnsuresUpdate fixed (fun e => fixed → e.Coherent) (Update.specialize function args)
      fun a e => e.Holds fixed a ∧ (fixed → a.signature.function = function) := by
  unfold Update.specialize
  refine (((signatureOf_ensures function args).weaken (fun _ h hf => (h hf).types) fun _ _ h => h).keep
    Engine.stable_coherent).bind_update fun s => ?_
  have hkeep : Engine.Stable fixed fun e => (fixed → e.Coherent) ∧ s.function = function :=
    fun e e' h he => ⟨Engine.stable_coherent e e' h he.1, he.2⟩
  refine ((artifactOf_ensures s).frame hkeep).weaken (fun _ h => ⟨h.2.2, h.1, h.2.1⟩) ?_
  rintro a e ⟨⟨hco, hs⟩, ha⟩
  refine ⟨fun hf => ⟨hco hf, ((hco hf).keeps ha).1⟩, fun hf => ?_⟩
  rw [((hco hf).keeps ha).2, hs]

/-- What stands behind a call site of an artifact that the engine keeps is kept, too. -/
theorem bindSite_ensures (caller : Artifact) (site : Nat) {callee : Signature}
    (hsite : caller.callSites[site]? = some callee) :
    EnsuresUpdate fixed (Engine.Holds fixed caller)
      (Update.bindSite caller.signature site callee)
      fun b e => e.Holds fixed b ∧ (fixed → b.signature = callee) := by
  unfold Update.bindSite
  refine Ensures.get_update.bind_update fun e => ?_
  split
  · rename_i b hb
    refine Ensures.pure_update ?_
    rintro _ ⟨rfl, hcaller⟩
    have hbound : fixed → e.Keeps b ∧ b.signature = callee := by
      intro hf
      obtain ⟨hco, hkeep⟩ := hcaller hf
      obtain ⟨hk, a, ha, hs⟩ := hco.bound hb
      unfold Engine.Keeps at hkeep
      rw [hkeep] at ha
      cases ha
      rw [hsite] at hs
      exact ⟨hk, (Option.some.inj hs).symm⟩
    exact ⟨fun hf => ⟨(hcaller hf).1, (hbound hf).1⟩, fun hf => (hbound hf).2⟩
  · have hart : EnsuresUpdate fixed (Engine.Holds fixed caller) (Update.artifactOf callee)
        fun b e => e.Holds fixed caller ∧ e.compiled.get? callee = some (.ok b) :=
      ((artifactOf_ensures callee).weaken (fun _ h hf => (h hf).1.sites (h hf).2 _
        (List.mem_of_getElem? hsite)) fun _ _ h => h).keep (Engine.stable_holds caller)
    refine (hart.weaken (fun _ h => h.2) fun _ _ h => h).bind_update fun b => ?_
    have hkeep : ∀ e : Engine, e.Holds fixed caller ∧ e.compiled.get? callee = some (.ok b) →
        fixed → (e.Coherent ∧ e.Keeps b ∧ b.signature = callee) := by
      rintro e ⟨hcaller, hb⟩ hf
      obtain ⟨hco, -⟩ := hcaller hf
      exact ⟨hco, hco.keeps hb⟩
    have hext : ∀ e : Engine, e.Holds fixed caller ∧ e.compiled.get? callee = some (.ok b) →
        e.Extends fixed { e with bound := e.bound.insert (caller.signature, site) b } := by
      refine fun e he => .bind fun hf => ?_
      obtain ⟨-, hk, hsig⟩ := hkeep e he hf
      exact ⟨hk, caller, (he.1 hf).2, by rw [hsite, hsig]⟩
    refine Ensures.bind_update (Ensures.modify hext) fun _ => Ensures.pure_update ?_
    rintro _ ⟨e, he, rfl⟩
    refine ⟨fun hf => ?_, fun hf => (hkeep e he hf).2.2⟩
    obtain ⟨hco, hk, -⟩ := hkeep e he hf
    exact ⟨(hext e he).coherent hf hco, hk⟩

end Run

end ShapeCompiler
