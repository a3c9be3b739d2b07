import ShapeCompiler.Proofs.Machine.Stack

/-!
The instructions of one activation.

While a callee runs, the activation of its caller stands still. Main statement: the instructions that an
activation executes lie on a path through the code of its function (`Machine.Advances.path`).
-/

namespace ShapeCompiler

/-- A step leads to one of some instructions. -/
def Step.GoesOn (next : List Nat) (s : Step) : Prop := ∃ m, s = .next m ∧ m.pc ∈ next

namespace Machine

variable {e e' : Engine} {m m' : Machine} {trace : List Nat} {op : Op}
  {host : HostSite → List Compiled → Run Compiled}

/-! ### Where an instruction leads -/

theorem write_pc (m : Machine) (r : Reg) (c : Compiled) : (m.write r c).Yields (·.pc = m.pc) := by
  unfold write
  split
  · exact .pure rfl
  · exact .halt _

theorem writeNext_goesOn (m : Machine) (r : Reg) (c : Compiled) :
    (m.writeNext r c).Yields (Step.GoesOn [m.pc + 1]) :=
  .bind (m.write_pc r c) fun _ h => .pure ⟨_, rfl, List.mem_singleton.2 (congrArg (· + 1) h)⟩

theorem unpack_pc (subject : Reg) (fields : List (Reg × FieldAccess)) (m : Machine) :
    (unpack subject m fields).Yields (·.pc = m.pc) := by
  induction fields generalizing m with
  | nil => exact .pure rfl
  | cons p rest ih =>
    refine .bind (.any _) fun s _ => .bind (.any _) fun c _ => .bind (m.write_pc p.1 c) fun m' h => ?_
    exact fun e a e' hr => (ih m' e a e' hr).trans h

theorem exec_goesOn (h : op.Stays) : (m.exec host op).Yields (Step.GoesOn (op.successors m.pc)) := by
  cases op with
  | const dst value => exact m.writeNext_goesOn dst _
  | move dst src => exact .bind (.any _) fun c _ => m.writeNext_goesOn dst c
  | incomplete dst => exact m.writeNext_goesOn dst _
  | binary dst op bits lhs rhs =>
    exact .bind (.any _) fun a _ => .bind (.any _) fun b _ => .bind (.any _) fun c _ =>
      m.writeNext_goesOn dst c
  | construct dst tag shape args =>
    exact .bind (.any _) fun cs _ => .bind (.any _) fun c _ => m.writeNext_goesOn dst c
  | switchTag subject table default =>
    refine .bind (.any _) fun c _ => .pure ⟨_, rfl, ?_⟩
    cases htarget : c.tag?.bind fun tag => table[tag.toNat]? with
    | none => exact List.mem_cons_self
    | some target =>
      obtain ⟨tag, -, hget⟩ := Option.bind_eq_some_iff.1 htarget
      exact List.mem_cons_of_mem _ (List.mem_of_getElem? hget)
  | switchScalar subject cases' default =>
    refine .bind (.any _) fun c _ => .pure ⟨_, rfl, ?_⟩
    cases htarget : c.scalar?.bind fun n => (cases'.find? (·.1 == n)).map Prod.snd with
    | none => exact List.mem_cons_self
    | some target =>
      obtain ⟨n, -, hfind⟩ := Option.bind_eq_some_iff.1 htarget
      obtain ⟨p, hp, rfl⟩ := Option.map_eq_some_iff.1 hfind
      exact List.mem_cons_of_mem _ (List.mem_map_of_mem (List.mem_of_find?_eq_some hp))
  | unpack subject fields =>
    exact .bind (unpack_pc subject fields m) fun _ h =>
      .pure ⟨_, rfl, List.mem_singleton.2 (congrArg (· + 1) h)⟩
  | field dst subject access =>
    exact .bind (.any _) fun s _ => .bind (.any _) fun c _ => m.writeNext_goesOn dst c
  | call dst site args => exact h.elim
  | callSelf dst args => exact h.elim
  | callHost dst site args =>
    refine .bind (.any _) fun cs _ => ?_
    cases m.function.hostSites[site]? with
    | none => exact .halt _
    | some s => exact .bind (.any _) fun c _ => m.writeNext_goesOn dst c
  | jump target => exact .pure ⟨_, rfl, List.mem_singleton_self target⟩
  | ret src => exact h.elim

theorem exec_moves (h : ¬ op.Stays) :
    (m.exec host op).Yields fun s => ∀ m', s = .next m' → m'.frames ≠ m.frames := by
  have henter : ∀ a dst cs m', Step.next (m.enter a dst cs) = .next m' → m'.frames ≠ m.frames := by
    intro a dst cs m' hs hframes
    cases hs
    exact absurd (congrArg List.length hframes) (Nat.succ_ne_self _)
  cases op with
  | call dst site args =>
    simp only [exec]
    cases m.function.callSites[site]? with
    | none => exact .halt _
    | some callee => exact .bind (.any _) fun a _ => .bind (.any _) fun cs _ => .pure (henter a dst cs)
  | callSelf dst args => exact .bind (.any _) fun cs _ => .pure (henter m.function dst cs)
  | ret src =>
    refine .bind (.any _) fun c _ => fun e s e' hrun m' hs hframes => ?_
    subst hs
    cases m.leave_yields c e _ e' hrun with
    | next hf hdst =>
      rw [hf] at hframes
      exact absurd (congrArg List.length hframes).symm (Nat.succ_ne_self _)
  | _ => exact absurd trivial h

/-- A step that stays in the frame follows the code of the function. -/
theorem step_successor (hrun : e.run (m.step host) = .ok (.ok (.next m'), e'))
    (hframes : m'.frames = m.frames) :
    ∃ op, m.function.code[m.pc]? = some op ∧ m'.pc ∈ op.successors m.pc := by
  cases hop : m.function.code[m.pc]? with
  | none =>
    rw [step_eq_throw hop] at hrun
    cases hrun
  | some op =>
    rw [step_eq_exec hop] at hrun
    by_cases hstays : op.Stays
    · obtain ⟨_, hs, hnext⟩ := exec_goesOn hstays _ _ _ hrun
      cases hs
      exact ⟨op, rfl, hnext⟩
    · exact absurd hframes (exec_moves hstays _ _ _ hrun m' rfl)

/-! ### Rounds -/

/-- The machine gets from one instruction of an activation to the next one, by a step or by way of a
callee. -/
inductive Round (host : HostSite → List Compiled → Run Compiled) :
    Engine → Machine → Engine → Machine → Prop
  | step {e e' : Engine} {m m' : Machine} (hrun : e.run (m.step host) = .ok (.ok (.next m'), e'))
      (hframes : m'.frames = m.frames) : Round host e m e' m'
  | callee {e e₁ e' : Engine} {m m₁ m' : Machine}
      (hrun : e.run (m.step host) = .ok (.ok (.next m₁), e₁)) (hdeeper : m.frames.length < m₁.frames.length)
      (hruns : RunsAbove host m.frames.length e₁ m₁ e' m') (hframes : m'.frames = m.frames) :
      Round host e m e' m'

/-- The machine gets from one instruction of an activation to another one; the instructions of the
activation in between stand at some positions, the last one first. -/
inductive Advances (host : HostSite → List Compiled → Run Compiled) (e : Engine) (m : Machine) :
    List Nat → Engine → Machine → Prop
  | refl : Advances host e m [] e m
  | round {trace : List Nat} {e₁ e₂ : Engine} {m₁ m₂ : Machine} (h : Advances host e m trace e₁ m₁)
      (hround : Round host e₁ m₁ e₂ m₂) : Advances host e m (m₁.pc :: trace) e₂ m₂

/-- A caller waits until it goes on where it stopped. -/
theorem RunsAbove.resumes {f : Frame} {rest : List Frame} (h : RunsAbove host rest.length e m e' m')
    (hm : f :: rest <:+ m.frames) :
    f :: rest <:+ m'.frames ∨ m'.function = f.function ∧ m'.pc = f.pc := by
  induction h with
  | refl => exact .inl hm
  | step hd hrun hrest ih =>
    rcases step_cases hrun with ⟨_, hs, hcont⟩ | ⟨a, dst, cs, -, hs⟩ | hleaves
    · cases hs
      exact ih (hcont.frames ▸ hm)
    · cases hs
      exact ih (hm.trans (List.suffix_cons _ _))
    · cases hleaves with
      | @next g more c hf hdst =>
        rcases List.suffix_cons_iff.1 (hf ▸ hm) with heq | hsuffix
        · cases heq
          -- the callee has returned, so the run is over
          cases hrest with
          | refl => exact .inr ⟨rfl, rfl⟩
          | step hd' => exact absurd hd' (Nat.lt_irrefl _)
        · exact ih hsuffix

/-- A round follows the code of the function. -/
theorem Round.successor (h : Round host e m e' m') :
    m'.function = m.function ∧ ∃ op, m.function.code[m.pc]? = some op ∧ m'.pc ∈ op.successors m.pc := by
  cases h with
  | step hrun hframes =>
    refine ⟨?_, step_successor hrun hframes⟩
    rcases step_cases hrun with ⟨_, hs, hcont⟩ | ⟨a, dst, cs, -, hs⟩ | hleaves
    · cases hs
      exact hcont.function
    · cases hs
      exact absurd (congrArg List.length hframes) (Nat.succ_ne_self _)
    · cases hleaves with
      | next hf hdst =>
        rw [hf] at hframes
        exact absurd (congrArg List.length hframes).symm (Nat.succ_ne_self _)
  | callee hrun hdeeper hruns hframes =>
    rcases step_cases hrun with ⟨_, hs, hcont⟩ | ⟨a, dst, cs, henters, hs⟩ | hleaves
    · cases hs
      rw [hcont.frames] at hdeeper
      exact absurd hdeeper (Nat.lt_irrefl _)
    · cases hs
      rcases hruns.resumes (List.suffix_refl _) with hwaits | ⟨hfunction, hpc⟩
      · have hlen := hwaits.length_le
        rw [hframes] at hlen
        exact absurd hlen (Nat.not_succ_le_self _)
      · refine ⟨hfunction, ?_⟩
        generalize cs.length = k at henters
        cases henters with
        | call hop => exact ⟨_, hop, List.mem_singleton.2 hpc⟩
        | self hop => exact ⟨_, hop, List.mem_singleton.2 hpc⟩
    · cases hleaves with
      | next hf hdst =>
        rw [hf] at hdeeper
        exact absurd hdeeper (Nat.not_lt_of_lt (Nat.lt_succ_self _))

/-- The instructions that an activation executes lie on a path through the code of its function. -/
theorem Advances.path (h : Advances host e m trace e' m') (hpc : m.pc = 0) :
    m'.function = m.function ∧ Path m.function.code trace m'.pc := by
  induction h with
  | refl => exact ⟨rfl, hpc ▸ .entry⟩
  | round _ hround ih =>
    obtain ⟨hfunction, hpath⟩ := ih
    obtain ⟨hsame, op, hop, hnext⟩ := hround.successor
    rw [hfunction] at hop
    exact ⟨hsame.trans hfunction, .step hpath hop hnext⟩

end Machine

end ShapeCompiler
