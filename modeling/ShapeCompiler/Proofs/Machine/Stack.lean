import Mathlib
import ShapeCompiler.Proofs.Engine.Steps
import ShapeCompiler.Proofs.Lowering.Flow
import ShapeCompiler.Proofs.Machine.Recursion
import ShapeCompiler.Proofs.Safety

/-!
The frames of a running machine.

All frames lie in one array, that of the running function at its end. A step goes on in this frame,
puts one more behind it or takes it away (`Machine.step_cases`). Main statements: at every instruction
the frames fill the array, one behind the other (`Machine.Sound.goesTo`), and what a callee does leaves
the frames below alone, until its value is stored (`Machine.RunsAbove.cases`); so an execution is a
recursive evaluation whose register files lie side by side (`Engine.execute_recursive`).
-/

namespace ShapeCompiler

/-- The registers of a waiting caller. -/
def Frame.window (f : Frame) : Set Nat := Set.Ico f.base (f.base + f.function.frameSize)

namespace Machine

variable {e e' : Engine} {m m' : Machine} {s : Step} {frames : List Frame} {top : Nat}
  {host : HostSite → List Compiled → Run Compiled}

/-! ### Windows -/

/-- The registers of every frame, those of the running function first. -/
def windows (m : Machine) : List (Set Nat) :=
  Set.Ico m.base (m.base + m.function.frameSize) :: m.frames.map Frame.window

/-- The frames of some callers fill the registers below a number, each up to where the next begins. -/
def Fill : List Frame → Nat → Prop
  | [], top => top = 0
  | f :: rest, top => top = f.base + f.function.frameSize ∧ Fill rest f.base

theorem getElem?_shrink {xs : Array Compiled} {k r : Nat} (h : r < k) : (xs.shrink k)[r]? = xs[r]? := by
  rw [← Array.getElem?_toList, Array.toList_shrink, List.getElem?_take_of_lt h, Array.getElem?_toList]

/-- The frames fill the registers, one behind the other. -/
structure Stacked (m : Machine) : Prop where
  size : m.registers.size = m.base + m.function.frameSize
  adjacent : Fill m.frames m.base

theorem Fill.window_below (h : Fill frames top) {f : Frame} (hf : f ∈ frames) :
    ∀ r ∈ f.window, r < top := by
  induction frames generalizing top with
  | nil => cases hf
  | cons g rest ih =>
    obtain ⟨rfl, hrest⟩ := h
    intro r hr
    rcases List.mem_cons.1 hf with rfl | hf
    · exact hr.2
    · exact Nat.lt_of_lt_of_le (ih hrest hf r hr) (Nat.le_add_right _ _)

theorem Fill.pairwise (h : Fill frames top) : (frames.map Frame.window).Pairwise Disjoint := by
  induction frames generalizing top with
  | nil => exact .nil
  | cons f rest ih =>
    obtain ⟨-, hrest⟩ := h
    refine List.Pairwise.cons (fun w hw => ?_) (ih hrest)
    obtain ⟨g, hg, rfl⟩ := List.mem_map.1 hw
    exact Set.disjoint_left.2 fun r hr hr' => Nat.not_le_of_lt (hrest.window_below hg r hr') hr.1

/-- No register belongs to two frames. -/
theorem Stacked.disjoint (h : m.Stacked) : m.windows.Pairwise Disjoint := by
  refine List.Pairwise.cons (fun w hw => ?_) h.adjacent.pairwise
  obtain ⟨g, hg, rfl⟩ := List.mem_map.1 hw
  exact Set.disjoint_left.2 fun r hr hr' => Nat.not_le_of_lt (h.adjacent.window_below hg r hr') hr.1

/-- Fewer callers fill fewer registers. -/
theorem Fill.le_of_suffix {frames' : List Frame} {top' : Nat} (h : Fill frames top)
    (h' : Fill frames' top') (hs : frames <:+ frames') : top ≤ top' := by
  induction frames' generalizing top' with
  | nil =>
    cases List.suffix_nil.1 hs
    exact Nat.le_of_eq (Eq.trans h h'.symm)
  | cons f rest ih =>
    rcases List.suffix_cons_iff.1 hs with rfl | hs
    · exact Nat.le_of_eq (h.1.trans h'.1.symm)
    · exact Nat.le_trans (ih h'.2 hs) (h'.1 ▸ Nat.le_add_right _ _)

/-! ### Steps -/

/-- The instruction enters an artifact with so many arguments, whose value goes to a register. -/
inductive Enters (m : Machine) (e e' : Engine) : Artifact → Reg → Nat → Prop
  | call {dst site args callee a} (hop : m.function.code[m.pc]? = some (.call dst site args))
      (hsite : m.function.callSites[site]? = some callee)
      (hbind : e.run (Run.ofUpdate (Update.bindSite m.function.signature site callee)) = .ok (.ok a, e')) :
      Enters m e e' a dst args.length
  | self {dst args} (hop : m.function.code[m.pc]? = some (.callSelf dst args)) :
      Enters m e e' m.function dst args.length

/-- The caller of a frame, with the registers below it. -/
def caller (m : Machine) (f : Frame) (rest : List Frame) : Machine :=
  ⟨f.function, f.pc, f.base, m.registers.shrink m.base, rest⟩

/-- The running function hands its value to its caller, or ends the run. -/
inductive Leaves (m : Machine) : Step → Prop
  | done {c} (hf : m.frames = []) : Leaves m (.done c)
  | next {f rest c} (hf : m.frames = f :: rest) (hdst : f.base + f.dst < (m.caller f rest).registers.size) :
      Leaves m (.next ((m.caller f rest).put f.dst c))

theorem readAll_yields (m : Machine) (rs : List Reg) :
    (m.readAll rs).Yields fun cs => cs.length = rs.length := by
  induction rs with
  | nil => exact .pure rfl
  | cons r rest ih => exact .bind (.any _) fun c _ => .bind ih fun cs h => .pure (by simp [h])

theorem write_eq_ok {r : Reg} {c : Compiled} (h : e.run (m.write r c) = .ok (.ok m', e')) :
    m.base + r < m.registers.size ∧ m' = m.put r c := by
  unfold write at h
  split at h
  · rename_i hlt
    cases h
    refine ⟨hlt, ?_⟩
    unfold put Array.setIfInBounds
    rw [dif_pos hlt]
  · cases h

theorem leave_yields (m : Machine) (c : Compiled) : (m.leave c).Yields m.Leaves := by
  unfold leave
  split
  · rename_i hf
    exact .pure (.done hf)
  · rename_i f rest hf
    intro e s e' hrun
    rcases Engine.run_bind_eq_ok.1 hrun with ⟨m', e₁, hw, hs⟩ | ⟨err, -, hs⟩
    · obtain ⟨hdst, rfl⟩ := write_eq_ok hw
      cases hs
      exact .next hf hdst
    · cases hs

theorem step_cases (h : e.run (m.step host) = .ok (.ok s, e')) :
    m.StaysIn s ∨ (∃ a dst cs, m.Enters e e' a dst cs.length ∧ s = .next (m.enter a dst cs)) ∨
      m.Leaves s := by
  cases hop : m.function.code[m.pc]? with
  | none =>
    rw [step_eq_throw hop] at h
    cases h
  | some op =>
    rw [step_eq_exec hop] at h
    by_cases hstays : op.Stays
    · exact .inl (exec_yields hstays e s e' h)
    · cases op with
      | call dst site args =>
        cases hsite : m.function.callSites[site]? with
        | none =>
          rw [exec_call_missing hsite] at h
          cases h
        | some callee =>
          simp only [exec, hsite] at h
          rcases Engine.run_bind_eq_ok.1 h with ⟨a, e₁, ha, hrest⟩ | ⟨err, -, hs⟩
          · rcases Engine.run_bind_eq_ok.1 hrest with ⟨cs, e₂, hcs, hnext⟩ | ⟨err, -, hs⟩
            · obtain ⟨rfl, -⟩ := m.readAll_still args e₁ _ _ hcs
              cases hnext
              refine .inr (.inl ⟨a, dst, cs, ?_, rfl⟩)
              rw [m.readAll_yields args _ cs _ hcs]
              exact .call hop hsite ha
            · cases hs
          · cases hs
      | callSelf dst args =>
        rcases Engine.run_bind_eq_ok.1 h with ⟨cs, e₂, hcs, h⟩ | ⟨err, -, hs⟩
        · cases h
          refine .inr (.inl ⟨_, dst, cs, ?_, rfl⟩)
          rw [m.readAll_yields args _ cs _ hcs]
          exact .self hop
        · cases hs
      | ret src =>
        rcases Engine.run_bind_eq_ok.1 h with ⟨c, e₂, -, h⟩ | ⟨err, -, hs⟩
        · exact .inr (.inr (m.leave_yields c _ _ _ h))
        · cases hs
      | _ => exact absurd trivial hstays

/-! ### One step keeps the frames in order -/

theorem length_le_frameSize {a : Artifact} {cs : List Compiled}
    (h : cs.length = a.signature.args.length) : cs.length ≤ a.frameSize :=
  h ▸ Nat.le_max_right _ _

theorem start_stacked {a : Artifact} {cs : List Compiled} (h : cs.length = a.signature.args.length) :
    (start a cs).Stacked :=
  ⟨(size_frame (length_le_frameSize h)).trans (Nat.zero_add _).symm, rfl⟩

theorem Stacked.continues (h : m.Stacked) (hm : m.Continues 0 m') : m'.Stacked := by
  refine ⟨?_, ?_⟩
  · rw [hm.size, hm.base, hm.function, h.size]
  · rw [hm.frames, hm.base]
    exact h.adjacent

theorem Stacked.enter (h : m.Stacked) {a : Artifact} {cs : List Compiled}
    (hlen : cs.length = a.signature.args.length) (dst : Reg) : (m.enter a dst cs).Stacked :=
  ⟨size_enter (length_le_frameSize hlen), h.size, h.adjacent⟩

theorem Stacked.caller (h : m.Stacked) {f : Frame} {rest : List Frame} (hf : m.frames = f :: rest) :
    (m.caller f rest).Stacked := by
  have hfill := h.adjacent
  rw [hf] at hfill
  refine ⟨?_, hfill.2⟩
  have hle : m.base ≤ m.registers.size := h.size ▸ Nat.le_add_right _ _
  show (m.registers.shrink m.base).size = f.base + f.function.frameSize
  rw [Array.size_shrink, ← hfill.1]
  omega

theorem Stacked.put (h : m.Stacked) (r : Reg) (c : Compiled) : (m.put r c).Stacked :=
  h.continues (.put m c (Nat.zero_le r))

/-- One step keeps the frames in order, if calls pass as many arguments as the callee takes. -/
theorem Stacked.step (h : m.Stacked)
    (hfits : ∀ a dst k, m.Enters e e' a dst k → k = a.signature.args.length)
    (hrun : e.run (m.step host) = .ok (.ok (.next m'), e')) : m'.Stacked := by
  rcases step_cases hrun with ⟨m₁, hs, hm⟩ | ⟨a, dst, cs, henters, hs⟩ | hleaves
  · cases hs
    exact h.continues hm
  · cases hs
    exact h.enter (hfits a dst _ henters) dst
  · cases hleaves with
    | next hf hdst => exact (h.caller hf).put _ _

end Machine

/-! ### Machines of a session -/

/-- A run of the engine from a lawful history, with what its notes ensure. -/
theorem Logged.Ensures.erased {α : Type} {e e' : Engine} {P : Engine → Prop} {Q : α → Engine → Prop}
    {x : Logged α} {y : Run α} {a : α} (hx : x.Ensures False P Q) (herase : Logged.Erases x y)
    (hl : ∃ h : History, h.Lawful ∧ h.now = e) (hp : P e) (hy : e.run y = .ok (.ok a, e')) :
    (∃ h : History, h.Lawful ∧ h.now = e') ∧ Q a e' := by
  obtain ⟨h, hl, rfl⟩ := hl
  have heq := (herase h).1
  rw [hy] at heq
  rcases hr : h.record x with ⟨why | y', h'⟩ <;> rw [hr] at heq <;> cases heq
  obtain ⟨hto, hq, -⟩ := hx h ⟨hl.coherent.toBindings, False.elim⟩ hp _ _ hr
  exact ⟨⟨h', hto.lawful hl, rfl⟩, hq a rfl⟩

namespace Machine

variable {e e' : Engine} {m m' m₁ : Machine} {n : Nat}
  {host : HostSite → List Compiled → Run Compiled}

/-- The machine runs artifacts of an engine whose history is lawful, and its frames are in order. -/
structure Sound (m : Machine) (e : Engine) : Prop where
  lawful : ∃ h : History, h.Lawful ∧ h.now = e
  held : Logged.Held m e
  stacked : m.Stacked

/-- Calls pass as many arguments as the callee takes. -/
theorem Sound.fits (h : m.Sound e) {a : Artifact} {dst : Reg} {k : Nat} (he : m.Enters e e' a dst k) :
    k = a.signature.args.length := by
  have hkeeps : e.Keeps m.function := h.held _ List.mem_cons_self
  obtain ⟨hist, hl, rfl⟩ := h.lawful
  obtain ⟨c, order, hcomp⟩ := hl.exists_compile hkeeps
  obtain ⟨d, T, pool, -, -, hcompiled⟩ := Typing.compile_eq_ok hcomp
  cases he with
  | call hop hsite hbind =>
    obtain ⟨s, hs, htakes⟩ := hcompiled.fitting _ (Array.mem_of_getElem? hop)
    cases hsite.symm.trans hs
    have hens := (Logged.bindSite_ensures m.function _ hsite).erased (Logged.Erases.bindSite _ _ _)
      ⟨hist, hl, rfl⟩ hkeeps hbind
    rw [htakes.args, hens.2.2]
  | self hop => exact (hcompiled.fitting _ (Array.mem_of_getElem? hop)).args

theorem Sound.step (h : m.Sound e) (hrun : e.run (m.step (Run.callHost n)) = .ok (.ok (.next m'), e')) :
    m'.Sound e' := by
  obtain ⟨hlawful, hheld⟩ := (Logged.step_ensures (Logged.Running.all n).callHost).erased
    (Logged.Erases.step (Logged.Erasure.all n).callHost m) h.lawful h.held hrun
  exact ⟨hlawful, hheld m' rfl, h.stacked.step (fun _ _ _ => h.fits) hrun⟩

/-- At every instruction of a run the frames are in order. -/
theorem Sound.goesTo (h : m.Sound e) (hgo : GoesTo (Run.callHost n) e m e' m') : m'.Sound e' := by
  induction hgo with
  | refl => exact h
  | step hs _ ih => exact ih (h.step hs)

/-! ### What a callee does -/

/-- The machine gets from one instruction to another one, with more callers than a number at every
instruction but the last. -/
inductive RunsAbove (host : HostSite → List Compiled → Run Compiled) (depth : Nat) :
    Engine → Machine → Engine → Machine → Prop
  | refl (e : Engine) (m : Machine) : RunsAbove host depth e m e m
  | step {e e' e'' : Engine} {m m' m'' : Machine} (hd : depth < m.frames.length)
      (h : e.run (m.step host) = .ok (.ok (.next m'), e')) (hrest : RunsAbove host depth e' m' e'' m'') :
      RunsAbove host depth e m e'' m''

/-- The callers of one machine still wait in the other one, and their registers are as they were. -/
structure Waits (m m' : Machine) : Prop where
  frames : m.frames <:+ m'.frames
  registers : ∀ r < m.base, m'.registers[r]? = m.registers[r]?

theorem Waits.refl (m : Machine) : m.Waits m := ⟨List.suffix_rfl, fun _ _ => rfl⟩

/-- Machines with the same registers below the same frame leave the same to its caller. -/
theorem Waits.caller_eq {f : Frame} {rest : List Frame} (hw : m₁.Waits m) (h₁ : m₁.Stacked)
    (h : m.Stacked) (hf₁ : m₁.frames = f :: rest) (hf : m.frames = f :: rest) :
    m.caller f rest = m₁.caller f rest := by
  have hfill₁ := h₁.adjacent
  have hfill := h.adjacent
  rw [hf₁] at hfill₁
  rw [hf] at hfill
  have hbase : m.base = m₁.base := hfill.1.trans hfill₁.1.symm
  have hregisters : m.registers.shrink m.base = m₁.registers.shrink m₁.base := by
    refine Array.ext_getElem? fun r => ?_
    by_cases hr : r < m₁.base
    · rw [getElem?_shrink (hbase ▸ hr), getElem?_shrink hr, hw.registers r hr]
    · rw [Array.getElem?_eq_none, Array.getElem?_eq_none] <;> rw [Array.size_shrink] <;> omega
  unfold Machine.caller
  rw [hregisters]

/-- A step leaves the waiting callers alone, or hands a value to the last one. -/
theorem Waits.step (hw : m₁.Waits m) (h₁ : m₁.Stacked) (h : m.Stacked)
    (hrun : e.run (m.step host) = .ok (.ok (.next m'), e')) :
    m₁.Waits m' ∨ ∃ f rest c, m₁.frames = f :: rest ∧ m' = (m₁.caller f rest).put f.dst c := by
  have hbase : m₁.base ≤ m.base := h₁.adjacent.le_of_suffix h.adjacent hw.frames
  have hsize : m.base ≤ m.registers.size := h.size ▸ Nat.le_add_right _ _
  rcases step_cases hrun with ⟨_, hs, hm⟩ | ⟨a, dst, cs, -, hs⟩ | hleaves
  · cases hs
    exact .inl ⟨hm.frames ▸ hw.frames, fun r hr => (hm.below r (by omega)).trans (hw.registers r hr)⟩
  · cases hs
    refine .inl ⟨hw.frames.trans (List.suffix_cons _ _), fun r hr => ?_⟩
    rw [← hw.registers r hr]
    exact Array.getElem?_append_left (by omega)
  · cases hleaves with
    | @next f rest c hf hdst =>
      rcases List.suffix_cons_iff.1 (hf ▸ hw.frames) with heq | hsuffix
      · exact .inr ⟨f, rest, c, heq, by rw [hw.caller_eq h₁ h heq hf]⟩
      · refine .inl ⟨hsuffix, fun r hr => ?_⟩
        have hfill := h.adjacent
        rw [hf] at hfill
        have hle : m₁.base ≤ f.base := h₁.adjacent.le_of_suffix hfill.2 hsuffix
        calc ((m.caller f rest).put f.dst c).registers[r]?
            = (m.registers.shrink m.base)[r]? := Array.getElem?_setIfInBounds_ne (by
              show f.base + f.dst ≠ r
              omega)
          _ = m.registers[r]? := getElem?_shrink (by omega)
          _ = m₁.registers[r]? := hw.registers r hr

/-- The callers of a machine wait until a value is handed to the last one. -/
theorem RunsAbove.cases {f : Frame} {rest : List Frame} (hf : m₁.frames = f :: rest)
    (h₁ : m₁.Stacked) (hgo : RunsAbove (Run.callHost n) rest.length e m e' m') (h : m.Sound e)
    (hw : m₁.Waits m) :
    m₁.Waits m' ∨ m'.frames = rest ∧ ∃ c, m' = (m₁.caller f rest).put f.dst c := by
  induction hgo with
  | refl => exact .inl hw
  | step hd hrun hrest ih =>
    rcases hw.step h₁ h.stacked hrun with hw' | ⟨g, rest', c, hf', rfl⟩
    · exact ih (h.step hrun) hw'
    · cases hf.symm.trans hf'
      -- the callee has returned, so the run is over
      cases hrest with
      | refl => exact .inr ⟨rfl, c, rfl⟩
      | step hd' => exact absurd hd' (Nat.lt_irrefl _)

/-- What the running function gets back from a callee is written to the register for it. -/
theorem caller_enter (m : Machine) (a : Artifact) (dst : Reg) (cs : List Compiled) :
    (m.enter a dst cs).caller ⟨m.function, m.pc + 1, m.base, dst⟩ m.frames = m.advance := by
  unfold caller enter advance
  simp

end Machine

/-! ### Executions of a session -/

namespace Engine

variable {schedule : Schedule} {o : Options} {e₀ : Engine} {h : History} {a : Artifact} {cs : List Compiled}

/-- At every point of a session an execution is a recursive evaluation. On the way the frames fill the
registers, one behind the other; while a callee runs, all callers wait with their registers as they were,
and when it has returned, its value has been stored and nothing else has changed for them. -/
theorem execute_recursive (hc : Engine.createWith schedule o = .ok e₀) (session : List (Nat × Request))
    (hh : h.Precedes (e₀.history session)) (ha : h.now.Keeps a)
    (hlen : cs.length = a.signature.args.length) (n : Nat) :
    (∀ r, r ≠ .error .outOfFuel →
      ((∃ fuel, h.now.run (a.execute (Run.callHost n) fuel cs) = r) ↔
        ∃ fuel, h.now.run (a.evaluate (Run.callHost n) fuel cs) = r)) ∧
    ∀ e m, Machine.GoesTo (Run.callHost n) h.now (Machine.start a cs) e m →
      m.Stacked ∧ m.windows.Pairwise Disjoint ∧
      ∀ e₁ m₁ e₂ m₂, e.run (m.step (Run.callHost n)) = .ok (.ok (.next m₁), e₁) →
        m.frames.length < m₁.frames.length →
        Machine.RunsAbove (Run.callHost n) m.frames.length e₁ m₁ e₂ m₂ →
          ∃ b dst k, m.Enters e e₁ b dst k ∧
            ((m₁.frames = ⟨m.function, m.pc + 1, m.base, dst⟩ :: m.frames ∧ m₁.frames <:+ m₂.frames ∧
              ∀ r < m.registers.size, m₂.registers[r]? = m.registers[r]?) ∨
            m₂.frames = m.frames ∧ ∃ c, m₂ = (m.put dst c).advance) := by
  have hl := ((history_lawful hc session).of_precedes hh).1
  have hstart : (Machine.start a cs).Sound h.now :=
    ⟨⟨h, hl, rfl⟩, fun b hb => by cases List.mem_singleton.1 hb; exact ha, Machine.start_stacked hlen⟩
  refine ⟨fun r hr => Artifact.execute_iff_evaluate _ _ a cs hr, fun e m hgo => ?_⟩
  have hm := hstart.goesTo hgo
  refine ⟨hm.stacked, hm.stacked.disjoint, fun e₁ m₁ e₂ m₂ hrun hdeeper hruns => ?_⟩
  rcases Machine.step_cases hrun with ⟨_, hs, hcont⟩ | ⟨b, dst, args, henters, hs⟩ | hleaves
  · cases hs
    rw [hcont.frames] at hdeeper
    exact absurd hdeeper (Nat.lt_irrefl _)
  · cases hs
    refine ⟨b, dst, _, henters, ?_⟩
    have hm₁ := hm.step hrun
    rcases hruns.cases rfl hm₁.stacked hm₁ (.refl _) with hw | ⟨hf, c, rfl⟩
    · refine .inl ⟨rfl, hw.frames, fun r hr => (hw.registers r hr).trans ?_⟩
      exact Array.getElem?_append_left hr
    · refine .inr ⟨hf, c, ?_⟩
      rw [Machine.caller_enter]
      rfl
  · cases hleaves with
    | next hf hdst =>
      rw [hf] at hdeeper
      exact absurd hdeeper (Nat.not_lt_of_lt (Nat.lt_succ_self _))

end Engine

namespace Catalog

/-- The test of parity as its session leaves it, and its result on a number, by recursion too. -/
theorem execute_recursive_parity :
    ∃ (h : History) (a : Artifact) (c : Compiled) (e : Engine),
      h.Precedes (Engine.default.history paritySession) ∧ h.now.Keeps a ∧ c.scalar? = some 0 ∧
      h.now.run (a.execute (Run.callHost 60) 60 [.scalar 3]) = .ok (.ok c, e) ∧
      (∃ fuel, h.now.run (a.evaluate (Run.callHost 60) fuel [.scalar 3]) = .ok (.ok c, e)) ∧
      ∀ e' m, Machine.GoesTo (Run.callHost 60) h.now (Machine.start a [.scalar 3]) e' m → m.Stacked := by
  have hrun : ((Engine.default.history paritySession).now.compiled.get? ⟨"is_even", [⟨0⟩]⟩).bind (fun r =>
      r.toOption.bind fun a =>
        ((Engine.default.history paritySession).now.run
          (a.execute (Run.callHost 60) 60 [.scalar 3])).toOption.bind fun p =>
            p.1.toOption.bind Compiled.scalar?) = some 0 := by
    decide +kernel
  have hcreate : Engine.createWith .calleesFirst {} = .ok Engine.default := rfl
  have hcoherent := (Engine.history_lawful hcreate paritySession).coherent
  generalize hnow : Engine.default.history paritySession = h at hrun hcoherent
  obtain ⟨r, hr, hrun⟩ := Option.bind_eq_some_iff.1 hrun
  cases r with
  | error err => cases hrun
  | ok a =>
    obtain ⟨_, ⟨⟩, hrun⟩ := Option.bind_eq_some_iff.1 hrun
    obtain ⟨p, hp, hrun⟩ := Option.bind_eq_some_iff.1 hrun
    cases hx : h.now.run (a.execute (Run.callHost 60) 60 [.scalar 3]) with
    | error stop =>
      rw [hx] at hp
      cases hp
    | ok q =>
      rw [hx] at hp
      cases hp
      obtain ⟨y, e⟩ := p
      cases y with
      | error err => cases hrun
      | ok c =>
        have hk := hcoherent.toBindings.keeps hr
        have hlen : [Compiled.scalar 3].length = a.signature.args.length := by
          rw [hcoherent.signature hr]
          rfl
        obtain ⟨hiff, hgo⟩ := Engine.execute_recursive hcreate paritySession (hnow ▸ .refl _) hk hlen 60
        have heval := (hiff (.ok (.ok c, e)) nofun).1 ⟨60, hx⟩
        exact ⟨h, a, c, e, hnow ▸ .refl _, hk, hrun, hx, heval, fun e' m hm => (hgo e' m hm).1⟩

end Catalog

end ShapeCompiler
