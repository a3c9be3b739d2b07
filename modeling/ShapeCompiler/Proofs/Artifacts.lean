import ShapeCompiler.Proofs.Inference
import ShapeCompiler.Proofs.Lowering.Sites
import ShapeCompiler.Proofs.Machine.Activations
import ShapeCompiler.Proofs.Simulation.Frames

/-!
What the code of an artifact is like.

Main statement: the code that the compiler produces is well formed, so an activation executes no more
instructions than its function has (`Typing.compile_wellFormed`). Nothing is assumed of the surroundings
in which it compiles: lowering sees to all of this by itself.
-/

namespace ShapeCompiler

open Machine

/-- The code of an artifact is well formed, in the surroundings that it was compiled in. -/
structure Artifact.WellFormed (a : Artifact) (c : Typing) : Prop where
  /-- An instruction jumps to later ones only. -/
  ahead : ∀ pc op, a.code[pc]? = some op → ∀ target ∈ op.targets, pc < target ∧ target < a.code.size
  /-- Control never comes to the end of the code, nor to an instruction twice. -/
  within : ∀ trace pc, Path a.code trace pc → pc < a.code.size ∧ trace.length ≤ pc
  /-- Where control cannot go on it has come to a return. -/
  returns : ∀ trace pc, Path a.code trace pc → (∀ next, ¬ Path a.code (pc :: trace) next) →
    ∃ src, a.code[pc]? = some (.ret src)
  /-- What an instruction reads is an argument, or has been written on every way to it. -/
  assigned : ∀ trace pc op, Path a.code trace pc → a.code[pc]? = some op → ∀ r ∈ op.reads,
    r < a.signature.args.length ∨ r ∈ written a.code trace
  named : ∀ op ∈ a.code, ∀ r ∈ op.reads ++ op.writes, r < a.registers
  /-- The first registers are those of the arguments, and keep them. -/
  parameters : a.signature.args.length ≤ a.registers ∧
    ∀ op ∈ a.code, ∀ r ∈ op.writes, a.signature.args.length ≤ r
  fitting : a.Fitting c
  distinct : a.callSites.Nodup
  foreign : a.signature ∉ a.callSites

variable {a : Artifact} {l : Lowerer} {pool : Pool} {c : Typing} {order : VisitOrder} {s : Signature}

theorem Artifact.Compiled.path {trace : List Nat} {pc : Nat} (h : a.Compiled l pool)
    (hp : Path a.code trace pc) :
    ∃ op, a.code[pc]? = some op ∧ trace.length ≤ pc ∧
      (∀ r ∈ op.reads, r < a.signature.args.length ∨ r ∈ written a.code trace) := by
  obtain ⟨hforward, hlen⟩ := h.covers.entry.path hp
  have hlt := hforward.lt_size
  exact ⟨_, Array.getElem?_eq_getElem hlt, hlen, (hforward.get (Array.getElem?_eq_getElem hlt)).2.1⟩

/-- The parameters get the first registers, before anything else is lowered. -/
theorem Artifact.Compiled.run_bindParams (h : a.Compiled l pool) : ∃ env,
    (Lowerer.bindParams .empty (l.definition.params.zip l.signature.args)).run {} =
      .ok (env, { registers := l.signature.args.length }) ∧ l.signature.args.length ≤ a.registers := by
  have ho := Pool.le_ordered
  have hbody := h.body
  unfold Lowerer.body at hbody
  obtain ⟨env, p, hparams, hrest⟩ := run_bind_eq_ok.1 hbody
  have hpool := (Lowerer.run_bindParams_registers hparams).pool
  have hlen : (l.definition.params.zip l.signature.args).length = l.signature.args.length := by
    rw [List.length_zip, ← h.arity]
    exact Nat.min_self _
  rw [hlen, Nat.zero_add] at hpool
  subst hpool
  refine ⟨env, hparams, ?_⟩
  have hle : Increasing Pool.Le (l.block 0 env l.definition.body >>= fun x =>
      if x.2 then pure x.1 else Pool.fresh >>= fun dst =>
        (pure (x.1 ++ [.incomplete dst, .ret dst]) : LowerM (List Op))) := by
    refine .bind ho (Lowerer.block_increasing _ _ _) fun x => ?_
    split
    · exact .pure ho _
    · exact .bind ho Pool.fresh_increasing fun _ => .pure ho _
  rw [h.registers]
  exact (hle _ _ _ hrest).registers

theorem Artifact.Compiled.wellFormed (h : a.Compiled l pool) : a.WellFormed l.toTyping where
  ahead pc op hop target ht := by
    have hlt := (Array.getElem?_eq_some_iff.1 hop).1
    obtain ⟨-, -, hsucc⟩ := (h.covers.inside pc (Nat.zero_le _) hlt).get hop
    obtain ⟨hahead, hforward⟩ := hsucc target (Op.mem_successors_of_mem_targets ht)
    exact ⟨hahead, hforward.lt_size⟩
  within trace pc hp := by
    obtain ⟨op, hop, hlen, -⟩ := h.path hp
    exact ⟨(Array.getElem?_eq_some_iff.1 hop).1, hlen⟩
  returns trace pc hp hend := by
    obtain ⟨op, hop, -, -⟩ := h.path hp
    have hnil : op.successors pc = [] :=
      List.eq_nil_iff_forall_not_mem.2 fun next hn => hend next (hp.step hop hn)
    obtain ⟨src, rfl⟩ := Op.successors_eq_nil_iff.1 hnil
    exact ⟨src, hop⟩
  assigned trace pc op hp hop := by
    obtain ⟨op', hop', -, hreads⟩ := h.path hp
    cases hop.symm.trans hop'
    exact hreads
  named op hop r hr := by
    have hemits := h.emits hop
    rw [h.registers]
    rcases List.mem_append.1 hr with hr | hr
    · exact hemits.reads r hr
    · exact (hemits.writes r hr).2
  parameters := by
    obtain ⟨env, -, hle⟩ := h.run_bindParams
    exact ⟨h.signature ▸ hle, fun op hop r hr => ((h.emits hop).writes r hr).1⟩
  fitting := h.fitting
  distinct := h.sites.distinct
  foreign := h.signature ▸ h.sites.foreign

theorem Artifact.Compiled.parameter_register (h : a.Compiled l pool) : ∃ env,
    (Lowerer.bindParams .empty (l.definition.params.zip l.signature.args)).run {} =
      .ok (env, { registers := l.signature.args.length }) ∧
    ∀ k name, l.definition.params[k]? = some name → name ∉ l.definition.params.drop (k + 1) →
      ∃ t, env.get? name = some (k, t) := by
  obtain ⟨env, hparams, -⟩ := h.run_bindParams
  refine ⟨env, hparams, fun k name hk hlast => ?_⟩
  have hlt : k < l.signature.args.length := h.arity ▸ (List.getElem?_eq_some_iff.1 hk).1
  have hzip : (l.definition.params.zip l.signature.args)[k]? = some (name, l.signature.args[k]) := by
    rw [List.getElem?_zip_eq_some]
    exact ⟨hk, List.getElem?_eq_getElem hlt⟩
  have hnames : ((l.definition.params.zip l.signature.args).drop (k + 1)).map Prod.fst =
      l.definition.params.drop (k + 1) := by
    rw [List.map_drop, List.map_fst_zip (Nat.le_of_eq h.arity)]
  have hplace := (Lowerer.run_bindParams_registers hparams).places k name _ hzip (hnames ▸ hlast)
  exact ⟨_, hplace.trans (by rw [Nat.zero_add])⟩

/-- A fresh frame has the registers that the code names, and the arguments in the first of them. -/
theorem Artifact.WellFormed.frame (h : a.WellFormed c) {cs : List ShapeCompiler.Compiled}
    (hlen : cs.length = a.signature.args.length) :
    (a.frame cs).size = a.registers ∧ ∀ (k : Nat) x, cs[k]? = some x → (a.frame cs)[k]? = some x := by
  refine ⟨?_, fun k x => frame_get⟩
  rw [size_frame (length_le_frameSize hlen), Artifact.frameSize, Nat.max_eq_left h.parameters.1]

/-- An activation executes no instruction twice, and is at one until it returns. -/
theorem Artifact.WellFormed.activation (h : a.WellFormed c)
    {host : HostSite → List ShapeCompiler.Compiled → Run ShapeCompiler.Compiled} {e e' : Engine}
    {m m' : Machine} {trace : List Nat} (hm : m.function = a) (hpc : m.pc = 0)
    (hrun : Advances host e m trace e' m') :
    trace.length < a.code.size ∧ m'.function = a ∧ ∃ op, a.code[m'.pc]? = some op := by
  subst hm
  obtain ⟨hfunction, hpath⟩ := hrun.path hpc
  obtain ⟨hlt, hle⟩ := h.within trace m'.pc hpath
  exact ⟨Nat.lt_of_le_of_lt hle hlt, hfunction, _, Array.getElem?_eq_getElem hlt⟩

/-- The code that the compiler produces is well formed: it jumps ahead, reads what is assigned, names
registers of its frame and reaches callees that take what it passes, through sites that are not for the
function itself nor twice for another. The parameters of its function are in the first registers, and
no activation executes more instructions than there are. -/
theorem Typing.compile_wellFormed (h : c.compile order s = .ok a) :
    a.signature = s ∧ a.WellFormed c ∧
    (∃ d env, c.functions.get? s.function = some (.decorated d) ∧ d.arity = s.args.length ∧
      (Lowerer.bindParams .empty (d.params.zip s.args)).run {} =
        .ok (env, { registers := s.args.length }) ∧
      ∀ k name, d.params[k]? = some name → name ∉ d.params.drop (k + 1) →
        ∃ t, env.get? name = some (k, t)) ∧
    (∀ cs : List Compiled, cs.length = s.args.length →
      (a.frame cs).size = a.registers ∧ ∀ (k : Nat) x, cs[k]? = some x → (a.frame cs)[k]? = some x) ∧
    ∀ {host e m trace e' m'}, m.function = a → m.pc = 0 → Advances host e m trace e' m' →
      trace.length < a.code.size ∧ m'.function = a ∧ ∃ op, a.code[m'.pc]? = some op := by
  obtain ⟨d, T, pool, hd, -, hcompiled⟩ := Typing.compile_eq_ok h
  have hsig : a.signature = s := hcompiled.signature
  have hwf : a.WellFormed c := hcompiled.wellFormed
  obtain ⟨env, hparams, hplaces⟩ := hcompiled.parameter_register
  refine ⟨hsig, hwf, ⟨d, env, hd, hcompiled.arity, hparams, hplaces⟩, fun cs hlen => ?_, ?_⟩
  · exact hwf.frame (hlen.trans (congrArg (·.args.length) hsig.symm))
  · exact hwf.activation

namespace Catalog

/-- The first test of parity, which calls the second one, is compiled to well-formed code. -/
theorem compile_wellFormed_parity :
    ∃ a, parityTyping.compile .calleesFirst ⟨"is_even", [⟨0⟩]⟩ = .ok a ∧ a.WellFormed parityTyping ∧
      a.callSites = [⟨"is_odd", [⟨0⟩]⟩] := by
  have hok : (parityTyping.compile .calleesFirst ⟨"is_even", [⟨0⟩]⟩).toOption.map (·.callSites) =
      some [⟨"is_odd", [⟨0⟩]⟩] := by
    with_unfolding_all rfl
  cases h : parityTyping.compile .calleesFirst ⟨"is_even", [⟨0⟩]⟩ with
  | error e =>
    rw [h] at hok
    cases hok
  | ok a =>
    rw [h] at hok
    obtain ⟨-, hwf, -⟩ := Typing.compile_wellFormed h
    exact ⟨a, rfl, hwf, Option.some.inj hok⟩

end Catalog

end ShapeCompiler
