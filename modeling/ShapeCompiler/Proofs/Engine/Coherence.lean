import Mathlib.Data.List.Dedup
import ShapeCompiler.Proofs.Engine.History

/-!
What the specialiser keeps and counts, step by step.

A history is made of few kinds of steps: a request of an artifact, the binding of a call site, an
entry into compiled code, and steps that leave alone what is compiled, bound and counted
(`Event.Leads`). Main statements: an outcome is there for good (`History.Lawful.of_precedes`), and at
every point the counts of the engine are counts of what happened (`History.Lawful.coherent`), both by
induction on the steps.
-/

namespace ShapeCompiler

variable {α β : Type}

namespace Engine

/-- The engines have compiled, bound and counted the same. -/
structure Alike (e e' : Engine) : Prop where
  compiled : e'.compiled = e.compiled
  bound : e'.bound = e.bound
  stats : e'.stats = e.stats

/-- The second engine still has every outcome of the first one. -/
def Remembers (e e' : Engine) : Prop :=
  ∀ s r, e.compiled.get? s = some r → e'.compiled.get? s = some r

/-- A condition that goes on to hold while outcomes are remembered. -/
def Lasting (P : Engine → Prop) : Prop := ∀ e e' : Engine, e.Remembers e' → P e → P e'

/-- The engine with one more entry into compiled code. -/
def counted (e : Engine) : Engine :=
  { e with stats := { e.stats with executions := e.stats.executions + 1 } }

def withBound (e : Engine) (caller : Signature) (site : Nat) (a : Artifact) : Engine :=
  { e with bound := e.bound.insert (caller, site) a }

/-- Artifacts stand at their own signatures, and bound call sites hold what stands at the signature
that their callers list. -/
structure Bindings (e : Engine) : Prop where
  signature : ∀ {s a}, e.compiled.get? s = some (.ok a) → a.signature = s
  bound : ∀ {s k b}, e.bound.get? (s, k) = some b → ∃ a callee,
    e.compiled.get? s = some (.ok a) ∧ a.callSites[k]? = some callee ∧
      e.compiled.get? callee = some (.ok b)

variable {e e' e'' : Engine}

theorem Alike.refl (e : Engine) : e.Alike e := ⟨rfl, rfl, rfl⟩

theorem Alike.trans (h : e.Alike e') (h' : e'.Alike e'') : e.Alike e'' :=
  ⟨h'.compiled.trans h.compiled, h'.bound.trans h.bound, h'.stats.trans h.stats⟩

theorem Remembers.of_eq (h : e'.compiled = e.compiled) : e.Remembers e' := fun s r hs => by rwa [h]

theorem Remembers.refl (e : Engine) : e.Remembers e := fun _ _ hs => hs

theorem Remembers.trans (h : e.Remembers e') (h' : e'.Remembers e'') : e.Remembers e'' :=
  fun s r hs => h' s r (h s r hs)

theorem remembers_withOutcome {s : Signature} (hs : e.compiled.get? s = none) :
    e.Remembers (e.withOutcome s) :=
  fun _ _ h => (@Extends.compile e False s hs (·.elim)).compiled h

end Engine

/-! ### Steps -/

/-- What a step that is about an event makes of an engine. -/
def Event.Leads (e e' : Engine) : Event → Prop
  | requested s => e' = (e.update (Update.artifactOf s)).2
  | bound caller site callee => ∃ a b, e.compiled.get? caller = some (.ok a) ∧
      a.callSites[site]? = some callee ∧ e.compiled.get? callee = some (.ok b) ∧
        e' = e.withBound caller site b
  | entered (.ok a) => e.Keeps a ∧ e' = e.counted
  | entered (.error _) => e' = e
  | other => e.Alike e'

variable {e e' : Engine} {event : Event} {h h' h'' : History}

theorem Event.Leads.remembers (hs : event.Leads e e') : e.Remembers e' := by
  cases event with
  | requested s =>
    cases hs
    rw [Engine.update_artifactOf]
    split
    · exact .of_eq rfl
    · rename_i hn
      exact Engine.remembers_withOutcome (Option.not_isSome_iff_eq_none.1 hn)
  | bound caller site callee =>
    obtain ⟨a, b, -, -, -, rfl⟩ := hs
    exact .of_eq rfl
  | entered specialised =>
    cases specialised with
    | ok a =>
      obtain ⟨-, rfl⟩ := hs
      exact .of_eq rfl
    | error err =>
      cases hs
      exact .refl e
  | other => exact .of_eq hs.compiled

namespace History

theorem Precedes.refl (h : History) : h.Precedes h := ⟨rfl, List.suffix_rfl⟩

theorem Precedes.trans (hh : h.Precedes h') (hh' : h'.Precedes h'') : h.Precedes h'' :=
  ⟨hh.1.trans hh'.1, hh.2.trans hh'.2⟩

theorem Precedes.antisymm (hh : h.Precedes h') (hh' : h'.Precedes h) : h = h' := by
  have hpast : h.past = h'.past := hh.2.eq_of_length_le hh'.2.length_le
  cases h
  cases hh.1
  cases hpast
  rfl

theorem precedes_push (h : History) (event : Event) (e : Engine) : h.Precedes (h.push event e) :=
  ⟨rfl, List.suffix_cons _ _⟩

/-- What a history once was it either is now or was before its last step. -/
theorem precedes_push_iff : h.Precedes (h'.push event e) ↔ h = h'.push event e ∨ h.Precedes h' := by
  constructor
  · rintro ⟨hs, hp⟩
    rcases List.suffix_cons_iff.1 hp with hp | hp
    · left
      cases h
      cases hs
      cases hp
      rfl
    · exact .inr ⟨hs, hp⟩
  · rintro (rfl | hh)
    · exact .refl _
    · exact hh.trans (precedes_push h' event e)

/-- The history begins with nothing compiled, bound or counted, and every step is what its event
says. -/
inductive Lawful : History → Prop
  | start {e : Engine} (hc : e.compiled = .empty) (hb : e.bound = .empty) (hs : e.stats = {}) :
    Lawful ⟨e, []⟩
  | push {h : History} {event : Event} {e : Engine} (hh : Lawful h)
    (hs : event.Leads h.now e) : Lawful (h.push event e)

/-- The last step of a lawful history is what its event says. -/
theorem Lawful.leads (hh : (h.push event e).Lawful) : event.Leads h.now e := by
  obtain ⟨start, past⟩ := h
  cases hh with
  | push _ hs => exact hs

/-- What a lawful history once was is lawful, and every outcome from then is there still. -/
theorem Lawful.of_precedes (hh : h'.Lawful) (hp : h.Precedes h') :
    h.Lawful ∧ h.now.Remembers h'.now := by
  induction hh with
  | @start e hc hb hs =>
    obtain ⟨start, past⟩ := h
    obtain ⟨rfl, hp⟩ := hp
    cases List.suffix_nil.1 hp
    exact ⟨.start hc hb hs, .refl _⟩
  | push hh hs ih =>
    rcases precedes_push_iff.1 hp with rfl | hp
    · exact ⟨hh.push hs, .refl _⟩
    · exact ⟨(ih hp).1, (ih hp).2.trans hs.remembers⟩

/-- The counts of the engine are counts of what happened, and it has an outcome for what was
requested. -/
structure Coherent (h : History) : Prop extends h.now.Bindings where
  requested : ∀ s, (h.now.compiled.get? s).isSome ↔ s ∈ h.requests
  /-- As many compilations as signatures were requested. -/
  compilations : h.now.stats.compilations = h.requests.dedup.length
  /-- All other requests were hits. -/
  cacheHits : h.now.stats.cacheHits + h.now.stats.compilations = h.requests.length
  /-- As many executions as specialisations that the host got and went on to run. -/
  executions : h.now.stats.executions = h.entries

theorem entries_push (h : History) (event : Event) (e : Engine) :
    (h.push event e).entries = h.entries + if event.isEntry then 1 else 0 := List.countP_cons

end History

namespace Engine

theorem Bindings.of_eq (h : e.Bindings) (hc : e'.compiled = e.compiled) (hb : e'.bound = e.bound) :
    e'.Bindings := by
  refine ⟨?_, ?_⟩
  · rw [hc]
    exact h.signature
  · rw [hc, hb]
    exact h.bound

theorem Bindings.keeps (h : e.Bindings) {s : Signature} {a : Artifact}
    (ha : e.compiled.get? s = some (.ok a)) : e.Keeps a := by
  unfold Keeps
  rw [h.signature ha]
  exact ha

theorem Bindings.withOutcome (h : e.Bindings) {s : Signature} (hs : e.compiled.get? s = none) :
    (e.withOutcome s).Bindings := by
  have hold := remembers_withOutcome hs
  refine ⟨?_, ?_⟩
  · intro s' a ha
    unfold Engine.withOutcome at ha
    rw [Assoc.get?_insert] at ha
    split at ha
    · rename_i heq
      subst heq
      obtain ⟨c, -, hcomp⟩ := bind_eq_ok.1 (Option.some.inj ha)
      exact Typing.compile_signature hcomp
    · exact h.signature ha
  · intro s' k b hb
    obtain ⟨a, callee, ha, hk, hcallee⟩ := h.bound hb
    exact ⟨a, callee, hold _ _ ha, hk, hold _ _ hcallee⟩

theorem Bindings.withBound (h : e.Bindings) {caller callee : Signature} {site : Nat} {a b : Artifact}
    (ha : e.compiled.get? caller = some (.ok a)) (hk : a.callSites[site]? = some callee)
    (hb : e.compiled.get? callee = some (.ok b)) : (e.withBound caller site b).Bindings := by
  refine ⟨h.signature, ?_⟩
  intro s k b' hb'
  unfold Engine.withBound at hb'
  rw [Assoc.get?_insert] at hb'
  split at hb'
  · rename_i heq
    cases heq
    cases hb'
    exact ⟨a, callee, ha, hk, hb⟩
  · exact h.bound hb'

theorem Bindings.leads (h : e.Bindings) {event : Event} (hs : event.Leads e e') : e'.Bindings := by
  cases event with
  | requested s =>
    cases hs
    rw [update_artifactOf]
    split
    · exact h.of_eq rfl rfl
    · rename_i hnone
      exact h.withOutcome (Option.not_isSome_iff_eq_none.1 hnone)
  | bound caller site callee =>
    obtain ⟨a, b, ha, hk, hb, rfl⟩ := hs
    exact h.withBound ha hk hb
  | entered specialised =>
    cases specialised with
    | ok a =>
      obtain ⟨-, rfl⟩ := hs
      exact h.of_eq rfl rfl
    | error err =>
      cases hs
      exact h
  | other => exact h.of_eq hs.compiled hs.bound

theorem isSome_withOutcome (e : Engine) (s s' : Signature) :
    ((e.withOutcome s).compiled.get? s').isSome ↔ s' = s ∨ (e.compiled.get? s').isSome := by
  unfold withOutcome
  rw [Assoc.get?_insert]
  split
  · rename_i heq
    simp [heq]
  · rename_i hne
    simp [Ne.symm hne]

end Engine

/-- One step keeps the counts right. -/
theorem History.Coherent.push (hh : h.Coherent) (hs : event.Leads h.now e) :
    (h.push event e).Coherent := by
  have hbindings : e.Bindings := hh.toBindings.leads hs
  have hentries := h.entries_push event e
  cases event with
  | requested s =>
    have hreq : (h.push (.requested s) e).requests = s :: h.requests := rfl
    cases hs
    rw [Engine.update_artifactOf] at hreq hentries hbindings ⊢
    split
    · rename_i hsome
      -- what has an outcome was requested before, so there is no new signature
      have hmem := (hh.requested s).1 hsome
      rw [if_pos hsome] at hreq hentries hbindings
      refine ⟨hbindings, fun s' => ?_, ?_, ?_, hh.executions.trans hentries.symm⟩
      · rw [hreq, List.mem_cons]
        exact ⟨fun h' => .inr ((hh.requested s').1 h'), by
          rintro (rfl | h')
          · exact hsome
          · exact (hh.requested s').2 h'⟩
      · rw [hreq, List.dedup_cons_of_mem hmem]
        exact hh.compilations
      · rw [hreq, List.length_cons, ← hh.cacheHits]
        show h.now.stats.cacheHits + 1 + h.now.stats.compilations = _
        omega
    · rename_i hnone
      have hmem : s ∉ h.requests := fun h' => hnone ((hh.requested s).2 h')
      rw [if_neg hnone] at hreq hentries hbindings
      refine ⟨hbindings, fun s' => ?_, ?_, ?_, hh.executions.trans hentries.symm⟩
      · rw [hreq, List.mem_cons, ← hh.requested]
        exact Engine.isSome_withOutcome _ _ _
      · rw [hreq, List.dedup_cons_of_notMem hmem, List.length_cons, ← hh.compilations]
        rfl
      · rw [hreq, List.length_cons, ← hh.cacheHits]
        show h.now.stats.cacheHits + (h.now.stats.compilations + 1) = _
        omega
  | bound caller site callee =>
    obtain ⟨a, b, ha, hk, hb, rfl⟩ := hs
    exact ⟨hbindings, hh.requested, hh.compilations, hh.cacheHits, hh.executions.trans hentries.symm⟩
  | entered specialised =>
    cases specialised with
    | ok a =>
      obtain ⟨-, rfl⟩ := hs
      refine ⟨hbindings, hh.requested, hh.compilations, hh.cacheHits, ?_⟩
      rw [hentries, ← hh.executions]
      rfl
    | error err =>
      cases hs
      exact ⟨hbindings, hh.requested, hh.compilations, hh.cacheHits, hh.executions.trans hentries.symm⟩
  | other =>
    have hreq : (h.push .other e).requests = h.requests := rfl
    refine ⟨hbindings, ?_, ?_, ?_, ?_⟩
    · rw [hreq]
      show ∀ s, (e.compiled.get? s).isSome ↔ _
      rw [hs.compiled]
      exact hh.requested
    · rw [hreq, ← hh.compilations, ← hs.stats]
      rfl
    · rw [hreq, ← hh.cacheHits, ← hs.stats]
      rfl
    · rw [hentries, show (h.push .other e).now.stats = h.now.stats from hs.stats]
      exact hh.executions

/-- What stands at a signature was compiled for it at some time. -/
theorem History.Lawful.exists_compile (hh : h.Lawful) {s : Signature} {a : Artifact}
    (ha : h.now.compiled.get? s = some (.ok a)) :
    ∃ (c : Typing) (order : VisitOrder), c.compile order s = .ok a := by
  induction hh with
  | @start e hc hb hs =>
    change e.compiled.get? s = _ at ha
    rw [hc] at ha
    cases ha
  | @push h event e hh hs ih =>
    change e.compiled.get? s = _ at ha
    cases event with
    | requested s' =>
      cases hs
      rw [Engine.update_artifactOf] at ha
      split at ha
      · exact ih ha
      · unfold Engine.withOutcome at ha
        rw [Assoc.get?_insert] at ha
        split at ha
        · rename_i heq
          subst heq
          obtain ⟨c, -, hcomp⟩ := bind_eq_ok.1 (Option.some.inj ha)
          exact ⟨c, _, hcomp⟩
        · exact ih ha
    | bound caller site callee =>
      obtain ⟨_, b, -, -, -, rfl⟩ := hs
      exact ih ha
    | entered specialised =>
      cases specialised with
      | ok b =>
        obtain ⟨-, rfl⟩ := hs
        exact ih ha
      | error err =>
        cases hs
        exact ih ha
    | other => exact ih (by rw [← hs.compiled]; exact ha)

/-- At every point of a lawful history the counts are right. -/
theorem History.Lawful.coherent (hh : h.Lawful) : h.Coherent := by
  induction hh with
  | @start e hc hb hs =>
    have hnow : (⟨e, []⟩ : History).now = e := rfl
    refine ⟨⟨?_, ?_⟩, ?_, ?_, ?_, ?_⟩
    · rw [hnow, hc]
      intro s a ha
      cases ha
    · rw [hnow, hb]
      intro s k b hb
      cases hb
    · rw [hnow, hc]
      intro s
      simp [requests]
    · rw [hnow, hs]
      rfl
    · rw [hnow, hs]
      rfl
    · rw [hnow, hs]
      rfl
  | push _ hs ih => exact ih.push hs

end ShapeCompiler
