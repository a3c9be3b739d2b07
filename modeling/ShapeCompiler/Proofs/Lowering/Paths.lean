import Mathlib.Data.Set.Insert
import Mathlib.Order.Interval.Set.Defs
import ShapeCompiler.Proofs.Lowering.Layout

/-!
The ways of control through register code.

Main statement: where control only goes ahead and every instruction reads what has been assigned by
then, every path does so (`Forward.path`), so it executes no instruction twice. `Passes` is the form in
which a piece of code is shown to be like that: from what holds behind the piece follows what holds
before it.
-/

namespace ShapeCompiler

namespace Op

/-- The registers that an instruction reads. -/
def reads : Op → List Reg
  | .const _ _ | .incomplete _ | .jump _ => []
  | .move _ src | .ret src => [src]
  | .binary _ _ _ lhs rhs => [lhs, rhs]
  | .construct _ _ _ args | .call _ _ args | .callSelf _ args | .callHost _ _ args => args
  | .switchTag subject _ _ | .switchScalar subject _ _ | .unpack subject _ | .field _ subject _ => [subject]

/-- The registers that an instruction writes; that of a call is written when the callee has returned. -/
def writes : Op → List Reg
  | .const dst _ | .move dst _ | .incomplete dst | .binary dst _ _ _ _ | .construct dst _ _ _
  | .field dst _ _ | .call dst _ _ | .callSelf dst _ | .callHost dst _ _ => [dst]
  | .unpack _ fields => fields.map Prod.fst
  | .switchTag _ _ _ | .switchScalar _ _ _ | .jump _ | .ret _ => []

/-- Where an instruction jumps to. -/
def targets : Op → List Nat
  | .switchTag _ table default => default :: table
  | .switchScalar _ cases default => default :: cases.map Prod.snd
  | .jump target => [target]
  | _ => []

/-- Where control can be after an instruction at a position: nowhere after a return. -/
def successors (pc : Nat) (op : Op) : List Nat :=
  match op with
  | .ret _ => []
  | .switchTag _ _ _ | .switchScalar _ _ _ | .jump _ => op.targets
  | _ => [pc + 1]

theorem mem_successors_of_mem_targets {op : Op} {pc target : Nat} (h : target ∈ op.targets) :
    target ∈ op.successors pc := by
  cases op with
  | switchTag subject table default => exact h
  | switchScalar subject cases' default => exact h
  | jump target => exact h
  | _ => cases h

/-- Control ends only at a return. -/
theorem successors_eq_nil_iff {op : Op} {pc : Nat} : op.successors pc = [] ↔ ∃ src, op = .ret src := by
  cases op <;> simp [successors, targets]

end Op

/-- A way of control from the first instruction on: the positions of the instructions that have been
executed, the last one first, and the position that control has come to. -/
inductive Path (code : Array Op) : List Nat → Nat → Prop
  | entry : Path code [] 0
  | step {trace : List Nat} {pc next : Nat} {op : Op} (h : Path code trace pc) (hop : code[pc]? = some op)
      (hnext : next ∈ op.successors pc) : Path code (pc :: trace) next

/-- The registers that the instructions at some positions write. -/
def written (code : Array Op) (trace : List Nat) : Set Reg :=
  {r | ∃ pc ∈ trace, ∃ op, code[pc]? = some op ∧ r ∈ op.writes}

variable {code : Array Op} {good : Op → Prop} {A A' B B' : Set Reg} {pc start mid stop : Nat} {op : Op}
  {trace : List Nat}

/-- Control that comes to an instruction with some registers assigned goes ahead until it returns,
through good instructions that read assigned registers. -/
inductive Forward (code : Array Op) (good : Op → Prop) : Set Reg → Nat → Prop
  | intro {A : Set Reg} {pc : Nat} {op : Op} (hop : code[pc]? = some op) (hgood : good op)
      (hreads : ∀ r ∈ op.reads, r ∈ A) (hahead : ∀ next ∈ op.successors pc, pc < next)
      (hnext : ∀ next ∈ op.successors pc, Forward code good (A ∪ {r | r ∈ op.writes}) next) :
      Forward code good A pc

namespace Forward

theorem mono (h : Forward code good A pc) (hA : A ⊆ B) : Forward code good B pc := by
  induction h generalizing B with
  | intro hop hgood hreads hahead _ ih =>
    exact .intro hop hgood (fun r hr => hA (hreads r hr)) hahead fun next hn =>
      ih next hn (Set.union_subset_union_left _ hA)

theorem lt_size (h : Forward code good A pc) : pc < code.size := by
  cases h with
  | intro hop => exact (Array.getElem?_eq_some_iff.1 hop).1

theorem get (h : Forward code good A pc) (hop : code[pc]? = some op) :
    good op ∧ (∀ r ∈ op.reads, r ∈ A) ∧ ∀ next ∈ op.successors pc, pc < next ∧
      Forward code good (A ∪ {r | r ∈ op.writes}) next := by
  cases h with
  | intro hop' hgood hreads hahead hnext =>
    cases hop.symm.trans hop'
    exact ⟨hgood, hreads, fun next hn => ⟨hahead next hn, hnext next hn⟩⟩

/-- What a path has written is assigned where it has come to, and it has executed no more instructions
than there are before. -/
theorem path (h : Forward code good A 0) (hp : Path code trace pc) :
    Forward code good (A ∪ written code trace) pc ∧ trace.length ≤ pc := by
  induction hp with
  | entry => exact ⟨h.mono Set.subset_union_left, Nat.le_refl 0⟩
  | @step trace pc next op _ hop hnext ih =>
    obtain ⟨hpc, hlen⟩ := ih
    obtain ⟨-, -, hsucc⟩ := hpc.get hop
    obtain ⟨hlt, hnext⟩ := hsucc next hnext
    refine ⟨hnext.mono ?_, Nat.lt_of_le_of_lt hlen hlt⟩
    rintro r ((hr | ⟨q, hq, op', hop', hr⟩) | hr)
    · exact .inl hr
    · exact .inr ⟨q, List.mem_cons_of_mem _ hq, op', hop', hr⟩
    · exact .inr ⟨pc, List.mem_cons_self, op, hop, hr⟩

end Forward

/-! ### Pieces of code -/

/-- A piece of code with what control finds behind it: control that enters it with some registers
assigned goes ahead, and so it would from any instruction of the piece. -/
structure Covers (code : Array Op) (good : Op → Prop) (A : Set Reg) (start stop : Nat) : Prop where
  entry : Forward code good A start
  inside : ∀ pc, start ≤ pc → pc < stop → Forward code good Set.univ pc

/-- A piece of code that control leaves at the end, with more registers assigned. -/
def Passes (code : Array Op) (good : Op → Prop) (A : Set Reg) (start stop : Nat) (B : Set Reg) : Prop :=
  Forward code good B stop → Covers code good A start stop

theorem Covers.mono (h : Covers code good A start stop) (hA : A ⊆ B) : Covers code good B start stop :=
  ⟨h.entry.mono hA, h.inside⟩

theorem Covers.append (h : Covers code good A start mid) (h' : Covers code good B mid stop) :
    Covers code good A start stop := by
  refine ⟨h.entry, fun pc hle hlt => ?_⟩
  rcases Nat.lt_or_ge pc mid with hm | hm
  · exact h.inside pc hle hm
  · exact h'.inside pc hm hlt

namespace Passes

theorem refl (code : Array Op) (good : Op → Prop) (A : Set Reg) (start : Nat) :
    Passes code good A start start A :=
  fun h => ⟨h, fun _ hle hlt => absurd hle (Nat.not_le_of_lt hlt)⟩

/-- A piece that control leaves, and what comes behind it. -/
theorem covers (h : Passes code good A start mid B) (h' : Covers code good B mid stop) :
    Covers code good A start stop :=
  (h h'.entry).append h'

theorem trans (h : Passes code good A start mid B) (h' : Passes code good B mid stop B') :
    Passes code good A start stop B' :=
  fun hstop => h.covers (h' hstop)

/-- Two pieces of code, one behind the other. -/
theorem append {xs ys : List Op} (h : Passes code good A start (start + xs.length) B)
    (h' : Passes code good B (start + xs.length) (start + xs.length + ys.length) B') :
    Passes code good A start (start + (xs ++ ys).length) B' := by
  rw [List.length_append, ← Nat.add_assoc]
  exact h.trans h'

/-- More registers may be assigned before and fewer be needed behind. -/
theorem mono (h : Passes code good A start stop B) (hA : A ⊆ A') (hB : B' ⊆ B) :
    Passes code good A' start stop B' :=
  fun hstop => (h (hstop.mono hB)).mono hA

/-- An instruction that goes on behind itself. -/
theorem single (hop : code[pc]? = some op) (hgood : good op) (hreads : ∀ r ∈ op.reads, r ∈ A)
    (hnext : op.successors pc = [pc + 1]) (hB : B ⊆ A ∪ {r | r ∈ op.writes}) :
    Passes code good A pc (pc + 1) B := by
  intro hstop
  have hforward : ∀ {A : Set Reg}, (∀ r ∈ op.reads, r ∈ A) → B ⊆ A ∪ {r | r ∈ op.writes} →
      Forward code good A pc := fun hreads hB =>
    .intro hop hgood hreads (by simp [hnext]) (by simpa [hnext] using hstop.mono hB)
  refine ⟨hforward hreads hB, fun q hle hlt => ?_⟩
  obtain rfl : q = pc := by omega
  exact hforward (fun _ _ => trivial) fun r _ => .inl trivial

end Passes

/-- An instruction whose successors control can go on from, and the code between. -/
theorem Covers.jump (hop : code[pc]? = some op) (hgood : good op) (hreads : ∀ r ∈ op.reads, r ∈ A)
    (hahead : ∀ next ∈ op.successors pc, pc < next)
    (hnext : ∀ next ∈ op.successors pc, Forward code good A next)
    (hinside : ∀ q, pc < q → q < stop → Forward code good Set.univ q) :
    Covers code good A pc stop := by
  have hforward : Forward code good A pc := .intro hop hgood hreads hahead fun next hn =>
    (hnext next hn).mono Set.subset_union_left
  refine ⟨hforward, fun q hle hlt => ?_⟩
  rcases Nat.eq_or_lt_of_le hle with rfl | hlt'
  · exact hforward.mono (Set.subset_univ _)
  · exact hinside q hlt' hlt

end ShapeCompiler
