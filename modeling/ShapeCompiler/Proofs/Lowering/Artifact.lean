import ShapeCompiler.Lowering
import ShapeCompiler.Proofs.Success

/-!
What an artifact is made of.

Main statement: an artifact holds the lowered body of the function that it was compiled from and the
return type that inference found (`Typing.compile_eq_ok`).
-/

namespace ShapeCompiler

/-- What a compiled artifact comes from. -/
structure Artifact.Compiled (a : Artifact) (l : Lowerer) (pool : Pool) : Prop where
  body : l.body.run {} = .ok (a.code.toList, pool)
  signature : a.signature = l.signature
  arity : l.definition.arity = l.signature.args.length
  registers : a.registers = pool.registers
  callSites : a.callSites = pool.callSites
  hostSites : a.hostSites = pool.hostSites
  returns : ∃ t, l.returned l.signature = .ok t ∧ a.returns = t.known?

theorem Lowerer.artifact_eq_ok {l : Lowerer} {a : Artifact} (h : l.artifact = .ok a) :
    ∃ pool, a.Compiled l pool := by
  unfold artifact at h
  split at h
  · cases h
  · rename_i hn
    obtain ⟨⟨code, pool⟩, hb, h⟩ := bind_eq_ok.1 h
    obtain ⟨t, ht, h⟩ := bind_eq_ok.1 h
    cases h
    exact ⟨pool, by simpa using hb, rfl, not_not.1 hn, rfl, rfl, rfl, t, ht, rfl⟩

theorem Typing.compile_eq_ok {c : Typing} {order : VisitOrder} {s : Signature} {a : Artifact}
    (h : c.compile order s = .ok a) :
    ∃ d T pool, c.functions.get? s.function = some (.decorated d) ∧ c.infer order s = .ok T ∧
      a.Compiled { c with returnTypes := T, signature := s, definition := d } pool := by
  unfold compile at h
  obtain ⟨d, hd, h⟩ := bind_eq_ok.1 h
  obtain ⟨T, hT, h⟩ := bind_eq_ok.1 h
  obtain ⟨pool, hpool⟩ := Lowerer.artifact_eq_ok h
  refine ⟨d, T, pool, ?_, hT, hpool⟩
  unfold decorated? at hd
  split at hd
  · rename_i d' hf
    cases hd
    exact hf
  · cases hd

theorem Typing.compile_signature {c : Typing} {order : VisitOrder} {s : Signature} {a : Artifact}
    (h : c.compile order s = .ok a) : a.signature = s := by
  obtain ⟨_, _, _, -, -, ha⟩ := compile_eq_ok h
  exact ha.signature

end ShapeCompiler
