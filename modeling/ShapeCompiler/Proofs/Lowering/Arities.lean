import ShapeCompiler.Proofs.Lowering.Artifact
import ShapeCompiler.Proofs.Lowering.Paths
import ShapeCompiler.Proofs.Lowering.Pools
import ShapeCompiler.Proofs.Lowering.Types
import ShapeCompiler.Proofs.Typing.Rules

/-!
What the instruction of a call is.

Main statement: a call is lowered to one instruction, which reads the arguments, writes the result and
reaches a callee that takes as many arguments (`Lowerer.run_call_op`).
-/

namespace ShapeCompiler

/-- A name that stands for a function takes as many arguments as the function. -/
theorem Typing.resolve_arity {c : Typing} {name : Ident} {k : Nat} {callee : Callee} {f : Function}
    (h : c.resolve name k = .ok callee) (hr : c.types.recordNamed? name = none)
    (hf : c.functions.get? name = some f) : k = f.arity := by
  unfold resolve at h
  rw [hr, hf] at h
  simp only [expectArgs] at h
  split at h
  · rename_i heq
    exact heq.symm
  · cases h

/-- The signature is that of a decorated function, both of which take so many arguments. -/
structure Signature.Takes (s : Signature) (c : Typing) (k : Nat) : Prop where
  args : k = s.args.length
  function : ∃ d, c.functions.get? s.function = some (.decorated d) ∧ k = d.arity

/-- The site is one of a registered host function, both of which take so many arguments. -/
structure HostSite.Takes (h : HostSite) (c : Typing) (k : Nat) : Prop where
  params : k = h.params.length
  function : c.functions.get? h.name = some h.function.toFunction
  arity : k = h.function.toFunction.arity

/-- The call of an instruction reaches a callee that takes as many arguments. -/
def Op.Fits (c : Typing) (callSites : List Signature) (hostSites : List HostSite) (own : Signature) :
    Op → Prop
  | .call _ site args => ∃ s, callSites[site]? = some s ∧ s.Takes c args.length
  | .callSelf _ args => own.Takes c args.length
  | .callHost _ site args => ∃ h, hostSites[site]? = some h ∧ h.Takes c args.length
  | _ => True

/-- All calls in an artifact reach callees that take as many arguments. -/
def Artifact.Fitting (a : Artifact) (c : Typing) : Prop :=
  ∀ op ∈ a.code, op.Fits c a.callSites a.hostSites a.signature

theorem Op.Fits.le {c : Typing} {own : Signature} {p p' : Pool} {op : Op} (hp : p.Le p')
    (h : op.Fits c p.callSites p.hostSites own) : op.Fits c p'.callSites p'.hostSites own := by
  cases op with
  | call dst site args =>
    obtain ⟨s, hs, htakes⟩ := h
    exact ⟨s, hp.callSite hs, htakes⟩
  | callHost dst site args =>
    obtain ⟨s, hs, htakes⟩ := h
    exact ⟨s, hp.hostSite hs, htakes⟩
  | _ => exact h

/-- An instruction that computes a value from some registers and goes on behind itself. -/
structure Op.Computes (op : Op) (args : List Reg) (dst : Reg) : Prop where
  reads : op.reads = args
  writes : op.writes = [dst]
  targets : op.targets = []
  successors : ∀ pc, op.successors pc = [pc + 1]

theorem Lowerer.run_call_op {l : Lowerer} {p p' : Pool} {name : Ident} {args : List (Reg × StaticType)}
    {c : LoweredExpr} (h : (l.call name args).run p = .ok (c, p')) :
    ∃ op, c.code = [op] ∧ op.Computes (args.map Prod.fst) c.reg ∧
      op.Fits l.toTyping p'.callSites p'.hostSites l.signature := by
  unfold call at h
  obtain ⟨dst, p₁, -, h⟩ := run_bind_eq_ok.1 h
  obtain ⟨callee, p₂, hlift, h⟩ := run_bind_eq_ok.1 h
  obtain ⟨hres, -⟩ := run_lift_eq_ok.1 hlift
  have hmeans := Typing.resolve_eq_ok hres
  have hregs : (args.map Prod.fst).length = args.length := List.length_map _
  rcases callee with ⟨id, r⟩ | _ | (d | n)
  · obtain ⟨_, p₃, -, h⟩ := run_bind_eq_ok.1 h
    obtain ⟨rfl, -⟩ := run_pure_eq_ok.1 h
    exact ⟨_, rfl, ⟨rfl, rfl, rfl, fun _ => rfl⟩, trivial⟩
  · obtain ⟨hnone, d, hf⟩ := hmeans
    obtain ⟨s, p₃, hlift, h⟩ := run_bind_eq_ok.1 h
    obtain ⟨hs, -⟩ := run_lift_eq_ok.1 hlift
    obtain ⟨t, p₄, -, h⟩ := run_bind_eq_ok.1 h
    obtain ⟨hname, hargs⟩ := Typing.signature?_eq (calleeSignature_eq_ok hs)
    have htakes : s.Takes l.toTyping (args.map Prod.fst).length :=
      { args := by simpa using congrArg List.length hargs
        function := ⟨d, hname ▸ hf, hregs.trans (Typing.resolve_arity hres hnone hf)⟩ }
    split at h
    · rename_i heq
      obtain ⟨rfl, -⟩ := run_pure_eq_ok.1 h
      exact ⟨_, rfl, ⟨rfl, rfl, rfl, fun _ => rfl⟩, heq ▸ htakes⟩
    · obtain ⟨site, p₅, hsite, h⟩ := run_bind_eq_ok.1 h
      obtain ⟨rfl, rfl⟩ := run_pure_eq_ok.1 h
      exact ⟨_, rfl, ⟨rfl, rfl, rfl, fun _ => rfl⟩, s, (Pool.run_callSite hsite).2.2, htakes⟩
  · obtain ⟨hnone, hf⟩ := hmeans
    obtain ⟨s, p₃, -, h⟩ := run_bind_eq_ok.1 h
    obtain ⟨t, p₄, -, h⟩ := run_bind_eq_ok.1 h
    obtain ⟨site, p₅, hsite, h⟩ := run_bind_eq_ok.1 h
    obtain ⟨rfl, rfl⟩ := run_pure_eq_ok.1 h
    exact ⟨_, rfl, ⟨rfl, rfl, rfl, fun _ => rfl⟩, _, (Pool.run_hostSite hsite).2.2,
      ⟨by simp, hf, hregs.trans (Typing.resolve_arity hres hnone hf)⟩⟩
  · obtain ⟨hnone, hf⟩ := hmeans
    obtain ⟨_, p₃, -, h⟩ := run_bind_eq_ok.1 h
    obtain ⟨site, p₄, hsite, h⟩ := run_bind_eq_ok.1 h
    obtain ⟨rfl, rfl⟩ := run_pure_eq_ok.1 h
    exact ⟨_, rfl, ⟨rfl, rfl, rfl, fun _ => rfl⟩, _, (Pool.run_hostSite hsite).2.2,
      ⟨by simp, hf, hregs.trans (Typing.resolve_arity hres hnone hf)⟩⟩

end ShapeCompiler
