import ShapeCompiler.Proofs.Engine.Runs

/-!
Engines that requests of the host lead to.

A session is respectful if it registers nothing anew once something is compiled: new names are fine
at any time. Main statements: types and natives of an engine are always in order
(`Engine.Reached.wellFormed`), and in a respectful session so are its artifacts
(`Engine.Reached.coherent`).
-/

namespace ShapeCompiler

open TypeTable

/-- What a host can ask of an engine. -/
inductive Request where
  | declareTypes (group : List TypeDecl)
  | declareScalar (bits : Nat)
  | decorate (d : FunctionDef)
  | define (d : FunctionDef)
  | defineNative (n : NativeDef)
  | specialize (function : Ident) (args : List Value)
  | call (function : Ident) (args : List Value)
  /-- A call through a handle, which only decorated functions have. -/
  | callHandle (function : Ident) (args : List Value)
  | verify (function : Ident) (args : List Value)

namespace Request

/-- Serves a request, its answer being left out. -/
def perform (fuel : Nat) : Request → Run Unit
  | declareTypes group => do
    let _ ← Update.declareTypes group
  | declareScalar bits => do
    let _ ← Update.declareScalar bits
  | decorate d => Update.decorate d
  | define d => Update.define d
  | defineNative n => Update.defineNative n
  | specialize function args => do
    let _ ← Update.specialize function args
  | call function args => do
    let _ ← Run.call fuel function args
  | callHandle function args => do
    let _ ← Run.callDecorated fuel function args
  | verify function args => do
    let _ ← Run.verify fuel function args

/-- Nothing is registered anew once something is compiled. -/
def Respects (e : Engine) : Request → Prop
  | declareTypes group => e.compiled = .empty ∨ ∀ d ∈ group, e.functions.get? d.name = none
  | decorate d => e.compiled = .empty ∨ e.functions.get? d.name = none
  | define d => e.compiled = .empty ∨ e.functions.get? d.name = none
  | defineNative n => e.compiled = .empty ∨ e.functions.get? n.name = none
  | _ => True

def registers? : Request → Option Ident
  | decorate d | define d => some d.name
  | defineNative n => some n.name
  | _ => none

theorem Respects.unregistered {e : Engine} {r : Request} {name : Ident} (h : r.Respects e)
    (hn : r.registers? = some name) : e.compiled = .empty ∨ e.functions.get? name = none := by
  cases r <;> cases hn <;> exact h

/-- The request defines nothing but scalars. -/
def IsServed : Request → Prop
  | declareTypes _ | decorate _ | define _ | defineNative _ => False
  | _ => True

end Request

/-- The types that a native function names are registered. -/
structure Native.Registered (t : TypeTable) (n : Native) : Prop where
  params : ∀ p ∈ n.params, (t.get? p).isSome
  returns : (t.get? n.returns).isSome

namespace Engine

/-- The engines that a host gets to with requests of a kind. -/
inductive Reached (kind : Engine → Request → Prop) : Engine → Prop
  | create {schedule o e} (h : Engine.createWith schedule o = .ok e) : Reached kind e
  | request {e e' : Engine} {r fuel y} (h : Reached kind e) (hr : kind e r)
      (hrun : e.run (r.perform fuel) = .ok (y, e')) : Reached kind e'

/-- An engine that any requests have led to. -/
abbrev Reachable : Engine → Prop := Reached fun _ _ => True

/-- An engine on which nothing has been registered anew once something was compiled. -/
abbrev Session : Engine → Prop := Reached fun e r => r.Respects e

variable {e e' : Engine} {α : Type} {fixed : Prop}

/-! ### New engines -/

theorem create_coherent {schedule : Schedule} {o : Options} (h : Engine.createWith schedule o = .ok e) :
    e.Coherent := by
  unfold Engine.createWith at h
  split at h
  · cases h
  · rename_i hv
    have hbits : 1 ≤ o.defaultBits ∧ o.defaultBits ≤ 64 := by
      unfold Options.validate at hv
      split at hv
      · cases hv
      · omega
    cases h
    refine ⟨⟨wellFormed_empty.ensureScalar hbits.1 hbits.2, ⟨_, scalarBits?_eq_some.2
      (wellFormed_empty.get?_ensureScalar hbits.1 hbits.2)⟩, ?_⟩, ?_, ?_, ?_⟩
    · intro name n h; cases h
    · intro s a h; cases h
    · intro s a h; cases h
    · intro s k b h; cases h

/-! ### Definitions -/

theorem Coherent.redefine (h : e.Coherent) (hw : e'.WellFormed) (ho : e'.schedule = e.schedule)
    (hg : e.types.Grows e'.types) (hc : e'.compiled = e.compiled) (hb : e'.bound = e.bound)
    (hs : ∀ c : Typing, e.compiled ≠ .empty → c.Serves e → c.Serves e') : e'.Coherent := by
  refine ⟨hw, ?_, ?_, ?_⟩
  · intro s a ha
    rw [hc] at ha
    obtain ⟨hsig, c, hserves, hcomp⟩ := h.compiled ha
    refine ⟨hsig, c, hs c ?_ hserves, by rw [ho]; exact hcomp⟩
    intro he
    rw [he] at ha
    cases ha
  · rw [hc]
    exact fun ha x hx => (h.sites ha x hx).grows hg
  · unfold Keeps
    rw [hc, hb]
    exact h.bound

theorem WellFormed.register (h : e.WellFormed) {name : Ident} {f : Function}
    (hn : ∀ n, f = .native n → (e.types.get? n.returns).isSome) :
    Engine.WellFormed { e with functions := e.functions.insert name f } where
  types := h.types
  defaultScalar := h.defaultScalar
  natives := by
    intro name' n hf
    rw [Assoc.get?_insert] at hf
    split at hf
    · exact hn n (Option.some.inj hf)
    · exact h.natives hf

theorem Coherent.register (h : e.Coherent) {name : Ident} {f : Function}
    (hn : ∀ n, f = .native n → (e.types.get? n.returns).isSome)
    (hnew : e.compiled = .empty ∨ e.functions.get? name = none) :
    Coherent { e with functions := e.functions.insert name f } := by
  refine h.redefine (h.toWellFormed.register hn) rfl (.refl _) rfl rfl fun c he hc => ?_
  refine ⟨hc.fits, hc.bits, fun {n g} hg => ?_⟩
  obtain ⟨hg', hr⟩ := hc.functions hg
  refine ⟨?_, hr⟩
  show (e.functions.insert name f).get? n = some g
  rw [Assoc.get?_insert, if_neg, hg']
  rintro rfl
  rw [hnew.resolve_left he] at hg'
  cases hg'

/-- Registering a function either changes nothing or adds the function, whose name is no type. -/
theorem register_cases {name : Ident} {f : Function} {y : Except Error Unit}
    (h : e.run (Run.ofUpdate (Update.register name f)) = .ok (y, e')) :
    e' = e ∨ e.types.lookup name = none ∧ e' = { e with functions := e.functions.insert name f } := by
  unfold Update.register at h
  rw [Run.ofUpdate_bind, run_bind_eq_ok] at h
  rcases h with ⟨e₀, e₁, hget, h⟩ | ⟨err, hget, -⟩
  · cases hget
    split at h
    · cases h; exact .inl rfl
    · rename_i hname
      cases h
      exact .inr ⟨Option.not_isSome_iff_eq_none.1 hname, rfl⟩
  · cases hget

theorem WellFormed.declare (h : e.WellFormed) {group : List TypeDecl} {ids : List TypeId}
    {t : TypeTable} (hd : e.types.declare group = .ok (ids, t)) :
    Engine.WellFormed { e with types := t } := by
  obtain ⟨hw, hg, -⟩ := h.types.declare hd
  exact h.of_types rfl rfl hw hg

theorem Coherent.declare (h : e.Coherent) {group : List TypeDecl} {ids : List TypeId} {t : TypeTable}
    (hd : e.types.declare group = .ok (ids, t))
    (hnew : e.compiled = .empty ∨ ∀ d ∈ group, e.functions.get? d.name = none) :
    Coherent { e with types := t } := by
  obtain ⟨hw, hg, hmore⟩ := h.types.declare hd
  refine h.redefine (h.toWellFormed.declare hd) rfl hg rfl rfl fun c he hc => ?_
  have hfits : c.Fits t :=
    { wellFormed := hc.fits.wellFormed
      grows := hc.fits.grows.trans hg
      target := hw
      defaultScalar := hc.fits.defaultScalar }
  refine ⟨hfits, hc.bits, fun {n f} hf => ?_⟩
  obtain ⟨hf', hr⟩ := hc.functions hf
  refine ⟨hf', fun hnone => ?_⟩
  have hr' := hr hnone
  -- a record of that name would be new, but the function keeps its name
  show t.recordNamed? n = none
  refine Option.eq_none_iff_forall_ne_some.2 ?_
  rintro ⟨id, r⟩ hrn
  obtain rfl := name_of_recordNamed? hrn
  have hrec := (recordNamed?_eq_some.1 hrn).2
  rcases hmore (record?_eq_some.1 hrec) with hold | ⟨bits, hb⟩ | ⟨d, hdg, hdn⟩
  · rw [h.types.recordNamed?_name (record?_eq_some.2 hold)] at hr'
    cases hr'
  · cases hb
  · have := hnew.resolve_left he d hdg
    rw [hdn] at this
    change e.functions.get? r.name = none at this
    rw [hf'] at this
    cases this

theorem declareTypes_cases {group : List TypeDecl} {y : Except Error (List TypeId)}
    (h : e.run (Run.ofUpdate (Update.declareTypes group)) = .ok (y, e')) :
    e' = e ∨ ∃ ids t, e.types.declare group = .ok (ids, t) ∧ e' = { e with types := t } := by
  unfold Update.declareTypes at h
  rw [Run.ofUpdate_bind, run_bind_eq_ok] at h
  rcases h with ⟨e₀, e₁, hget, h⟩ | ⟨err, hget, -⟩
  · cases hget
    cases hd : e.types.declare group with
    | error fault =>
      rw [hd] at h
      cases h
      exact .inl rfl
    | ok p =>
      rw [hd] at h
      cases h
      exact .inr ⟨p.1, p.2, rfl, rfl⟩
  · cases hget

/-- The type that a native function names is registered afterwards, and nothing is compiled. -/
theorem nativeType_ensures (m : Assoc Signature (Except CompileError Artifact))
    (function type : Ident) :
    Run.EnsuresUpdate fixed (fun e => e.types.WellFormed ∧ e.compiled = m)
      (Update.nativeType function type)
      fun id e => (e.types.WellFormed ∧ e.compiled = m) ∧ (e.types.get? id).isSome := by
  unfold Update.nativeType
  refine Run.Ensures.get_update.bind_update fun e => ?_
  split
  · rename_i id hid
    refine Run.Ensures.pure_update ?_
    rintro _ ⟨rfl, hw⟩
    obtain ⟨d, hd, -⟩ := get?_of_lookup hid
    exact ⟨hw, by rw [hd]; rfl⟩
  · split
    · rename_i bits _
      unfold Update.declareScalar
      refine Run.Ensures.get_update.bind_update fun e₁ => ?_
      cases hd : e₁.types.declareScalar bits with
      | error fault => exact Run.Ensures.throw _
      | ok p =>
        unfold declareScalar at hd
        split at hd
        · rename_i hb
          cases hd
          change Run.EnsuresUpdate fixed _ ((MonadState.set
            { e₁ with types := (e₁.types.ensureScalar bits).2 } : Update PUnit) >>= fun _ =>
              pure (e₁.types.ensureScalar bits).1) _
          refine Run.Ensures.bind_update (Q := fun _ e => (e.types.WellFormed ∧ e.compiled = m) ∧
            (e.types.get? (e₁.types.ensureScalar bits).1).isSome) ?_ fun _ =>
            Run.Ensures.pure_update fun _ h => h
          intro e₂ he₂ y e' hr
          obtain ⟨rfl, rfl, hw⟩ := he₂
          cases hr
          refine ⟨.scalar hb.1 hb.2, fun _ _ => ⟨⟨hw.1.ensureScalar hb.1 hb.2, hw.2⟩, ?_⟩⟩
          rw [hw.1.get?_ensureScalar hb.1 hb.2]
          rfl
        · cases hd
    · exact Run.Ensures.throw _

theorem stable_registered (id : TypeId) :
    Stable fixed fun e => e.types.WellFormed ∧ (e.types.get? id).isSome := fun _ _ hx h =>
  ⟨(hx.types h.1).1, (hx.types h.1).2.toGrows.get?_isSome h.2⟩

/-- The types that a native function takes are registered afterwards, and nothing is compiled. -/
theorem nativeTypes_ensures (m : Assoc Signature (Except CompileError Artifact)) (function : Ident)
    (names : List Ident) :
    Run.EnsuresUpdate fixed (fun e => e.types.WellFormed ∧ e.compiled = m)
      (names.mapM (Update.nativeType function))
      fun ids e => (e.types.WellFormed ∧ e.compiled = m) ∧ ∀ id ∈ ids, (e.types.get? id).isSome := by
  induction names with
  | nil => exact Run.Ensures.pure_update fun _ h => ⟨h, by simp⟩
  | cons name rest ih =>
    rw [List.mapM_cons]
    refine (nativeType_ensures m function name).bind_update fun id => ?_
    refine Run.Ensures.bind_update ((ih.frame (stable_registered id)).weaken
      (fun e h => ⟨h.1, h.1.1, h.2⟩) fun _ _ h => h) fun ids => Run.Ensures.pure_update fun e h => ?_
    exact ⟨h.2.1, List.forall_mem_cons.2 ⟨h.1.2, h.2.2⟩⟩

theorem defineNative_cases {n : NativeDef} {y : Except Error Unit} (hw : e.types.WellFormed)
    (h : e.run (Run.ofUpdate (Update.defineNative n)) = .ok (y, e')) :
    ∃ e₁, e.Extends True e₁ ∧ (e' = e₁ ∨ ∃ f, e₁.compiled = e.compiled ∧
      (∀ m, f = .native m → m.Registered e₁.types) ∧ e₁.types.lookup n.name = none ∧
      e' = { e₁ with functions := e₁.functions.insert n.name f }) := by
  have hok : ∀ {α β : Type} {x : Update α} {f : α → Update β} {y : Except Error β} {e e' : Engine},
      e.run (Run.ofUpdate (x >>= f)) = .ok (y, e') → (∃ a e₁, e.run (Run.ofUpdate x) = .ok (.ok a, e₁) ∧
        e₁.run (Run.ofUpdate (f a)) = .ok (y, e')) ∨
          ∃ err, e.run (Run.ofUpdate x) = .ok (.error err, e') ∧ y = .error err := by
    intro α β x f y e e' h
    rwa [Run.ofUpdate_bind, run_bind_eq_ok] at h
  have hparams := @nativeTypes_ensures True e.compiled n.name n.params e ⟨hw, rfl⟩
  unfold Update.defineNative at h
  rcases hok h with ⟨params, e₁, h₁, h⟩ | ⟨err, h₁, rfl⟩
  · obtain ⟨hx₁, hq₁⟩ := hparams _ _ h₁
    obtain ⟨hw₁, hids⟩ := hq₁ params rfl
    have hnative := @nativeType_ensures True e.compiled n.name n.returns e₁ hw₁
    rcases hok h with ⟨returns, e₂, h₂, h⟩ | ⟨err, h₂, rfl⟩
    · obtain ⟨hx₂, hq₂⟩ := hnative _ _ h₂
      refine ⟨e₂, hx₁.trans hx₂, ?_⟩
      rcases register_cases h with rfl | ⟨hfree, rfl⟩
      · exact .inl rfl
      · refine .inr ⟨_, (hq₂ returns rfl).1.2, fun m hm => ?_, hfree, rfl⟩
        cases hm
        exact ⟨fun p hp => (hx₂.types hw₁.1).2.toGrows.get?_isSome (hids p hp), (hq₂ returns rfl).2⟩
    · exact ⟨e', hx₁.trans (hnative _ _ h₂).1, .inl rfl⟩
  · exact ⟨e', (hparams _ _ h₁).1, .inl rfl⟩

/-! ### Requests -/

theorem verify_orderly (fuel : Nat) (name : Ident) (args : List Value) :
    Run.Orderly fixed (Run.verify fuel name args) := by
  have hg : Run.Growth fixed fuel := .all fuel
  unfold Run.verify
  refine (Run.Orderly.of_still (.function? name)).bind fun f => ?_
  rcases f with _ | (d | d | n)
  · exact .throw _
  · refine (hg.callDecorated name args).bind fun compiled => ?_
    refine ((Run.signatureOf_ensures name args).weaken (fun _ h hf => (h hf).types)
      fun _ _ h => h).orderly.bind fun s => ?_
    refine (Run.Orderly.of_still .types).bind fun t =>
      (Run.Orderly.of_still (.ofType (t.normalizeAll_converts _ _))).bind fun vs => ?_
    refine (Run.Orderly.of_still (.interpreter .reference)).bind fun i =>
      (hg.interpret i d vs).bind fun r => ?_
    split
    · exact .pure _
    · exact .throw _
  · exact hg.call name args
  · exact hg.call name args

/-- A request whose answer is left out leaves the engine that it leaves behind with its answer. -/
theorem run_discard_eq_ok {x : Run α} {y : Except Error Unit}
    (h : e.run (do let _ ← x; pure ()) = .ok (y, e')) : ∃ y', e.run x = .ok (y', e') := by
  rcases run_bind_eq_ok.1 h with ⟨a, e₁, hx, h⟩ | ⟨err, hx, -⟩
  · cases h
    exact ⟨_, hx⟩
  · exact ⟨_, hx⟩

theorem perform_orderly {fuel : Nat} {r : Request} (h : r.IsServed) :
    Run.Orderly fixed (r.perform fuel) := by
  have hg : Run.Growth fixed fuel := .all fuel
  cases r with
  | declareTypes group => exact h.elim
  | declareScalar bits =>
    exact ((Run.declareScalar_ensures bits).weaken (fun _ h hf => (h hf).types)
      fun _ _ h => h).orderly.bind fun _ => .pure _
  | decorate d => exact h.elim
  | define d => exact h.elim
  | defineNative n => exact h.elim
  | specialize function args =>
    exact (Run.specialize_ensures function args).orderly.bind fun _ => .pure _
  | call function args => exact (hg.call function args).bind fun _ => .pure _
  | callHandle function args => exact (hg.callDecorated function args).bind fun _ => .pure _
  | verify function args => exact (verify_orderly fuel function args).bind fun _ => .pure _

inductive Defines (e : Engine) (r : Request) : Engine → Prop
  | types {group : List TypeDecl} {ids : List TypeId} {t : TypeTable}
    (hr : r = .declareTypes group) (hd : e.types.declare group = .ok (ids, t)) :
    Defines e r { e with types := t }
  | function {name : Ident} {f : Function} {e₁ : Engine} (hr : r.registers? = some name)
    (hx : e.Extends True e₁) (hc : e₁.compiled = e.compiled)
    (hf : ∀ n, f = .native n → n.Registered e₁.types) (hfree : e₁.types.lookup name = none) :
    Defines e r { e₁ with functions := e₁.functions.insert name f }

/-- A request is served, or adds nothing but scalars, or defines something. -/
theorem perform_cases {fuel : Nat} {r : Request} {y : Except Error Unit} (hw : e.types.WellFormed)
    (hrun : e.run (r.perform fuel) = .ok (y, e')) : r.IsServed ∨ e.Extends True e' ∨ e.Defines r e' := by
  have host : ∀ {name f}, r.registers? = some name → (∀ n, f ≠ .native n) →
      e.run (Run.ofUpdate (Update.register name f)) = .ok (y, e') → e.Extends True e' ∨ e.Defines r e' := by
    intro name f hr hf h
    rcases register_cases h with rfl | ⟨hfree, rfl⟩
    · exact .inl (.refl e')
    · exact .inr (.function hr (.refl e) rfl (fun n hn => absurd hn (hf n)) hfree)
  cases r with
  | declareTypes group =>
    obtain ⟨y', hrun⟩ := run_discard_eq_ok hrun
    rcases declareTypes_cases hrun with rfl | ⟨ids, t, hd, rfl⟩
    · exact .inr (.inl (.refl e'))
    · exact .inr (.inr (.types rfl hd))
  | decorate d => exact .inr (host rfl (fun n => by simp) hrun)
  | define d => exact .inr (host rfl (fun n => by simp) hrun)
  | defineNative n =>
    obtain ⟨e₁, hx, rfl | ⟨f, hc, hf, hfree, rfl⟩⟩ := defineNative_cases hw hrun
    · exact .inr (.inl hx)
    · exact .inr (.inr (.function rfl hx hc hf hfree))
  | declareScalar _ | specialize _ _ | call _ _ | callHandle _ _ | verify _ _ => exact .inl trivial

/-- The types and the natives of an engine are in order whatever is asked of it. -/
theorem Reached.wellFormed {kind : Engine → Request → Prop} (h : Reached kind e) : e.WellFormed := by
  induction h with
  | create h => exact (create_coherent h).toWellFormed
  | @request e e' r fuel y _ _ hrun ih =>
    rcases perform_cases ih.types hrun with hs | hx | hd
    · have hgrows : Run.Orderly False (r.perform fuel) := perform_orderly hs
      exact ih.extends (hgrows e (fun h => h.elim) _ _ hrun).1
    · exact ih.extends hx
    · cases hd with
      | types _ hd => exact ih.declare hd
      | function _ hx _ hf => exact (ih.extends hx).register fun n hn => (hf n hn).returns

/-- The types that the natives of an engine name are registered whatever is asked of it. -/
theorem Reached.registered {kind : Engine → Request → Prop} (h : Reached kind e) {name : Ident} {n : Native}
    (hn : e.functions.get? name = some (.native n)) : n.Registered e.types := by
  induction h generalizing name n with
  | create h =>
    unfold Engine.createWith at h
    split at h
    · cases h
    · cases h
      cases hn
  | @request e e' r fuel y he _ hrun ih =>
    have more : ∀ {e₁ : Engine}, e.types.Grows e₁.types → e₁.functions = e.functions → ∀ {name n},
        e₁.functions.get? name = some (.native n) → n.Registered e₁.types := by
      intro e₁ hg hf name n hn
      rw [hf] at hn
      exact ⟨fun p hp => hg.get?_isSome ((ih hn).params p hp), hg.get?_isSome (ih hn).returns⟩
    have extended : ∀ {fixed} {e₁ : Engine}, e.Extends fixed e₁ → ∀ {name n},
        e₁.functions.get? name = some (.native n) → n.Registered e₁.types := fun hx =>
      more (hx.types he.wellFormed.types).2.toGrows hx.functions
    rcases perform_cases he.wellFormed.types hrun with hs | hx | hd
    · have hgrows : Run.Orderly False (r.perform fuel) := perform_orderly hs
      exact extended (hgrows e (fun h => h.elim) _ _ hrun).1 hn
    · exact extended hx hn
    · cases hd with
      | types _ hd => exact @more { e with types := _ } (he.wellFormed.types.declare hd).2.1 rfl _ _ hn
      | function _ hx _ hf =>
        rw [Assoc.get?_insert] at hn
        split at hn
        · exact hf n (Option.some.inj hn)
        · exact extended hx hn

/-- In a respectful session the artifacts of an engine are in order, too. -/
theorem Reached.coherent (h : e.Session) : e.Coherent := by
  induction h with
  | create h => exact create_coherent h
  | @request e e' r fuel y _ hr hrun ih =>
    rcases perform_cases ih.types hrun with hs | hx | hd
    · have hgrows : Run.Orderly True (r.perform fuel) := perform_orderly hs
      exact (hgrows e (fun _ => ih) _ _ hrun).1.coherent trivial ih
    · exact hx.coherent trivial ih
    · cases hd with
      | types hreq hd =>
        subst hreq
        exact ih.declare hd hr
      | function hreq hx hc hf =>
        refine (hx.coherent trivial ih).register (fun n hn => (hf n hn).returns) ?_
        rw [hc, hx.functions]
        exact hr.unregistered hreq

/-! ### Registering a function -/

def withFunction (e : Engine) (name : Ident) (f : Function) : Engine :=
  { e with functions := e.functions.insert name f }

/-- The engine with more functions, all of them decorated. -/
def withDecorated (e : Engine) (ds : List FunctionDef) : Engine :=
  ds.foldl (fun e d => e.withFunction d.name (.decorated d)) e

theorem update_register {name : Ident} (f : Function) (h : e.types.lookup name = none) :
    e.update (Update.register name f) = (.ok (), e.withFunction name f) := by
  have hfree : (e.types.lookup name).isSome = false := by rw [h]; rfl
  show (if (e.types.lookup name).isSome = true then _ else _ : Update Unit) e = _
  rw [hfree]
  rfl

variable {kind : Engine → Request → Prop}

theorem reached_default : Reached kind Engine.default := .create (o := {}) rfl

theorem Reached.decorate (h : Reached kind e) (d : FunctionDef) (hr : kind e (.decorate d))
    (hname : e.types.lookup d.name = none) :
    Reached kind (e.withFunction d.name (.decorated d)) :=
  @Reached.request kind e _ _ 0 _ h hr (congrArg Except.ok (update_register (.decorated d) hname))

theorem Reached.define (h : Reached kind e) (d : FunctionDef) (hr : kind e (.define d))
    (hname : e.types.lookup d.name = none) :
    Reached kind (e.withFunction d.name (.interpreted d)) :=
  @Reached.request kind e _ _ 0 _ h hr (congrArg Except.ok (update_register (.interpreted d) hname))

/-! ### One request -/

variable {fuel : Nat} {r : Request}

theorem update_bind_ok {α β : Type} {x : Update α} {f : α → Update β} {a : α}
    (h : e.update x = (.ok a, e')) : e.update (x >>= f) = e'.update (f a) := by
  show ExceptT.bindCont f (x e).1 (x e).2 = _
  rw [show x e = (.ok a, e') from h]
  rfl

theorem update_bind_error {α β : Type} {x : Update α} {f : α → Update β} {err : Error}
    (h : e.update x = (.error err, e')) : e.update (x >>= f) = (.error err, e') := by
  show ExceptT.bindCont f (x e).1 (x e).2 = _
  rw [show x e = (.error err, e') from h]
  rfl

theorem update_bind_eq_ok {α β : Type} {x : Update α} {f : α → Update β} {b : β}
    (h : e.update (x >>= f) = (.ok b, e')) :
    ∃ a e₁, e.update x = (.ok a, e₁) ∧ e₁.update (f a) = (.ok b, e') := by
  cases hx : e.update x with
  | mk r e₁ =>
    cases r with
    | ok a =>
      rw [update_bind_ok hx] at h
      exact ⟨a, e₁, rfl, h⟩
    | error err =>
      rw [update_bind_error hx] at h
      cases h

theorem update_bind_eq_error {α β : Type} {x : Update α} {f : α → Update β} {err : Error}
    (h : e.update (x >>= f) = (.error err, e')) : e.update x = (.error err, e') ∨
      ∃ a e₁, e.update x = (.ok a, e₁) ∧ e₁.update (f a) = (.error err, e') := by
  cases hx : e.update x with
  | mk r e₁ =>
    cases r with
    | ok a =>
      rw [update_bind_ok hx] at h
      exact .inr ⟨a, e₁, rfl, h⟩
    | error err =>
      rw [update_bind_error hx] at h
      cases h
      exact .inl rfl

theorem update_get {α : Type} (e : Engine) (f : Engine → Update α) :
    e.update (MonadState.get >>= f) = e.update (f e) := rfl

theorem update_declareScalar {bits : Nat} {id : TypeId} {t : TypeTable}
    (h : e.types.declareScalar bits = .ok (id, t)) :
    e.update (Update.declareScalar bits) = (.ok id, { e with types := t }) := by
  show (Update.ofType (e.types.declareScalar bits) >>= _ : Update TypeId) e = _
  rw [h]
  rfl

theorem run_declareScalar {bits : Nat} {id : TypeId} {t : TypeTable}
    (hs : e.types.declareScalar bits = .ok (id, t)) :
    e.run ((Request.declareScalar bits).perform fuel) = .ok (.ok (), { e with types := t }) := by
  show e.run (Run.ofUpdate (Update.declareScalar bits) >>= fun _ => pure ()) = _
  rw [run_bind]
  show (Except.ok (e.update (Update.declareScalar bits)) >>= _ : Except Halt _) = _
  rw [update_declareScalar hs]
  rfl

theorem Reached.declareScalar (h : Reached kind e) {bits : Nat} {id : TypeId} {t : TypeTable}
    (hr : kind e (.declareScalar bits)) (hs : e.types.declareScalar bits = .ok (id, t)) :
    Reached kind { e with types := t } :=
  have hrun : e.run ((Request.declareScalar bits).perform 0) = .ok (.ok (), { e with types := t }) :=
    run_declareScalar hs
  .request h hr hrun

theorem update_declareTypes (e : Engine) (group : List TypeDecl) :
    e.update (Update.declareTypes group) =
      match e.types.declare group with
      | .ok (ids, types) => (.ok ids, { e with types })
      | .error fault => (.error (.compile (.type fault)), e) := by
  show (Update.ofType (e.types.declare group) >>= _ : Update (List TypeId)) e = _
  cases e.types.declare group <;> rfl

theorem update_declareTypes_eq_ok {group : List TypeDecl} {ids : List TypeId} :
    e.update (Update.declareTypes group) = (.ok ids, e') ↔
      ∃ t, e.types.declare group = .ok (ids, t) ∧ e' = { e with types := t } := by
  rw [update_declareTypes]
  cases hd : e.types.declare group with
  | ok p =>
    constructor
    · intro h
      cases h
      exact ⟨_, rfl, rfl⟩
    · rintro ⟨t, ht, rfl⟩
      cases ht
      rfl
  | error fault =>
    constructor
    · intro h
      cases h
    · rintro ⟨t, ht, -⟩
      cases ht

theorem Reached.declareTypes (h : Reached kind e) {group : List TypeDecl} {ids : List TypeId}
    {t : TypeTable} (hr : kind e (.declareTypes group)) (hd : e.types.declare group = .ok (ids, t)) :
    Reached kind { e with types := t } := by
  have hupdate : e.update (Update.declareTypes group) = (.ok ids, { e with types := t }) :=
    update_declareTypes_eq_ok.2 ⟨t, hd, rfl⟩
  have hrun : e.run ((Request.declareTypes group).perform 0) = .ok (.ok (), { e with types := t }) := by
    show e.run (Run.ofUpdate (Update.declareTypes group) >>= fun _ => pure ()) = _
    rw [run_bind]
    show (Except.ok (e.update (Update.declareTypes group)) >>= _ : Except Halt _) = _
    rw [hupdate]
    rfl
  exact .request h hr hrun

/-- Specialising on one integer of a registered width changes no type. -/
theorem update_signatureOf {function : Ident} {u : Uint} {id : TypeId}
    (h : e.types.declareScalar u.bits = .ok (id, e.types)) :
    e.update (Update.signatureOf function [.uint u]) = (.ok ⟨function, [id]⟩, e) := by
  have hids : e.update ([Value.uint u].mapM (Update.argumentType e.types function)) = (.ok [id], e) := by
    rw [List.mapM_cons, List.mapM_nil]
    exact update_bind_ok (update_declareScalar h)
  exact update_bind_ok hids

/-- The engine that a request leaves behind. -/
def after (e : Engine) (fuel : Nat) (r : Request) : Engine :=
  match e.run (r.perform fuel) with
  | .ok (_, e') => e'
  | .error _ => e

theorem Reached.after (h : Reached kind e) (hr : kind e r) : Reached kind (e.after fuel r) := by
  unfold Engine.after
  split
  · rename_i hrun
    exact .request h hr hrun
  · exact h

theorem after_extends (hr : r.IsServed) (h : e.InOrder fixed) :
    e.Extends fixed (e.after fuel r) := by
  unfold Engine.after
  split
  · rename_i hrun
    exact (perform_orderly hr e h _ _ hrun).1
  · exact .refl e

/-- The engine with one more request of an artifact that it has. -/
def withHit (e : Engine) : Engine :=
  { e with stats := { e.stats with cacheHits := e.stats.cacheHits + 1 } }

theorem update_compile (e : Engine) (s : Signature) :
    e.update (Update.compile s) = (.ok (e.outcomeWith e.types s), e.withOutcome s) := rfl

theorem update_artifactOf (e : Engine) (s : Signature) : (e.update (Update.artifactOf s)).2 =
    if (e.compiled.get? s).isSome then e.withHit else e.withOutcome s := by
  unfold Update.artifactOf
  rw [update_get]
  cases e.compiled.get? s with
  | some outcome => cases outcome <;> rfl
  | none =>
    show (e.update (Update.compile s >>= Update.ofCompile)).2 = e.withOutcome s
    rw [update_bind_ok (update_compile e s)]
    cases e.outcomeWith e.types s <;> rfl

/-- Specialising what has not been asked for keeps the outcome. -/
theorem after_specialize {function : Ident} {args : List Value} {s : Signature}
    (hs : e.update (Update.signatureOf function args) = (.ok s, e))
    (hnew : e.compiled.get? s = none) :
    e.after fuel (.specialize function args) = e.withOutcome s := by
  have hart : ∃ y, e.update (Update.specialize function args) = (y, e.withOutcome s) := by
    refine ⟨_, Prod.ext rfl ?_⟩
    rw [show e.update (Update.specialize function args) = e.update (Update.artifactOf s) from
      update_bind_ok hs, update_artifactOf, hnew]
    rfl
  obtain ⟨y, hy⟩ := hart
  have : e.run ((Request.specialize function args).perform fuel) =
      .ok (y.map fun _ => (), e.withOutcome s) := by
    show e.run (Run.ofUpdate (Update.specialize function args) >>= fun _ => pure ()) = _
    rw [run_bind]
    show (Except.ok (e.update (Update.specialize function args)) >>= _ : Except Halt _) = _
    rw [hy]
    cases y <;> rfl
  unfold after
  rw [this]

/-- Specialising in given surroundings keeps what they make of the signature. -/
theorem compiled_after_specialize {c : Typing} {function : Ident} {args : List Value} {s : Signature}
    (hc : e.typing = .ok c)
    (hs : e.update (Update.signatureOf function args) = (.ok s, e))
    (hnew : e.compiled.get? s = none) :
    (e.after fuel (.specialize function args)).compiled.get? s = some (c.compile e.schedule.order s) := by
  have houtcome : e.outcomeWith e.types s = c.compile e.schedule.order s := by
    show (e.typing >>= _) = _
    rw [hc]
    rfl
  rw [after_specialize hs hnew, ← houtcome]
  exact Assoc.get?_insert_self _ _ _

end Engine

end ShapeCompiler
