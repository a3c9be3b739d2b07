import ShapeCompiler.Proofs.Lowering.Pools
import ShapeCompiler.Proofs.Lowering.Types
import ShapeCompiler.Proofs.Typing.Rules

/-!
What the call sites of an artifact are.

Main statement: behind every call site is a specialisation of a decorated function, and inference has
found its return type; no two are the same, and none is that of the function itself
(`Artifact.Compiled.sites`).
-/

namespace ShapeCompiler

namespace Lowerer

variable {l : Lowerer}

/-- The signature of a decorated function whose return type inference has found. -/
structure Callable (l : Lowerer) (s : Signature) : Prop where
  function : ∃ d, l.functions.get? s.function = some (.decorated d)
  returned : ∃ r, l.returnTypes.get? s = some r

/-- The signatures are callable and pairwise distinct, and none is that of the function itself. -/
structure Sites (l : Lowerer) (sites : List Signature) : Prop where
  callable : ∀ s ∈ sites, l.Callable s
  distinct : sites.Nodup
  foreign : l.signature ∉ sites

/-- If the call sites of one pool are as they should be, so are those of another. -/
def Sited (l : Lowerer) (p p' : Pool) : Prop := l.Sites p.callSites → l.Sites p'.callSites

theorem sited_ordered : Ordered l.Sited where
  refl _ h := h
  trans h h' hs := h' (h hs)

theorem fresh_sited : Increasing l.Sited Pool.fresh := by
  intro p r p' h
  obtain ⟨-, rfl⟩ := Pool.run_fresh h
  exact id

theorem callSite_sited {s : Signature} (hs : l.Callable s) (hne : s ≠ l.signature) :
    Increasing l.Sited (Pool.callSite s) := by
  intro p k p' h hp
  refine ⟨fun s' hs' => ?_, Pool.nodup_callSites h hp.distinct, fun hown => ?_⟩
  · rcases Pool.mem_callSites h hs' with hold | rfl
    · exact hp.callable s' hold
    · exact hs
  · rcases Pool.mem_callSites h hown with hold | heq
    · exact hp.foreign hold
    · exact hne heq.symm

theorem hostSite_sited (h : HostSite) : Increasing l.Sited (Pool.hostSite h) := by
  intro p k p' hrun
  unfold Pool.hostSite at hrun
  obtain ⟨q, q', hg, hrun⟩ := run_bind_eq_ok.1 hrun
  cases hg
  obtain ⟨_, q', hset, hrun⟩ := run_bind_eq_ok.1 hrun
  cases hset
  obtain ⟨-, rfl⟩ := run_pure_eq_ok.1 hrun
  exact id

theorem call_sited (name : Ident) (args : List (Reg × StaticType)) :
    Increasing l.Sited (l.call name args) := by
  have ho := sited_ordered (l := l)
  intro p c p' h
  unfold call at h
  obtain ⟨dst, p₁, hd, h⟩ := run_bind_eq_ok.1 h
  refine ho.trans (fresh_sited _ _ _ hd) ?_
  obtain ⟨callee, p₂, hlift, h⟩ := run_bind_eq_ok.1 h
  obtain ⟨hres, rfl⟩ := run_lift_eq_ok.1 hlift
  have hmeans := Typing.resolve_eq_ok hres
  rcases callee with ⟨id, r⟩ | _ | (d | n)
  · exact Increasing.bind ho (.lift ho _) (fun _ => .pure ho _) _ _ _ h
  · obtain ⟨-, d, hf⟩ := hmeans
    obtain ⟨s, p₃, hlift, h⟩ := run_bind_eq_ok.1 h
    obtain ⟨hs, rfl⟩ := run_lift_eq_ok.1 hlift
    obtain ⟨t, p₄, hlift, h⟩ := run_bind_eq_ok.1 h
    obtain ⟨ht, rfl⟩ := run_lift_eq_ok.1 hlift
    obtain ⟨hname, -⟩ := Typing.signature?_eq (calleeSignature_eq_ok hs)
    obtain ⟨r, hr, -⟩ := returned_eq_ok ht
    split at h
    · exact Increasing.pure ho _ _ _ _ h
    · rename_i hne
      have hcallable : l.Callable s := ⟨⟨d, hname ▸ hf⟩, r, hr⟩
      exact Increasing.bind ho (callSite_sited hcallable hne) (fun _ => .pure ho _) _ _ _ h
  · exact Increasing.bind ho (.lift ho _) (fun _ => .bind ho (.lift ho _) fun _ =>
      .bind ho (hostSite_sited _) fun _ => .pure ho _) _ _ _ h
  · exact Increasing.bind ho (.lift ho _) (fun _ => .bind ho (hostSite_sited _) fun _ =>
      .pure ho _) _ _ _ h

theorem steps_sited (l : Lowerer) : l.Steps l.Sited where
  ordered := sited_ordered
  fresh := fresh_sited
  call := call_sited

end Lowerer

/-- The call sites of an artifact are callable and pairwise distinct, and none is that of the function
itself. -/
theorem Artifact.Compiled.sites {a : Artifact} {l : Lowerer} {pool : Pool} (h : a.Compiled l pool) :
    l.Sites a.callSites := by
  rw [h.callSites]
  exact l.steps_sited.body_increasing _ _ _ h.body ⟨nofun, List.nodup_nil, nofun⟩

theorem Artifact.Compiled.callable {a : Artifact} {l : Lowerer} {pool : Pool} (h : a.Compiled l pool) :
    ∀ s ∈ a.callSites, l.Callable s :=
  h.sites.callable

end ShapeCompiler
