import ShapeCompiler.Proofs.Independence.Engines

/-!
Machines that run the same code in two engines.

The artifacts in their frames are described alike, so the code in them is the same, and so is everything
else in the machines. Main statements: one instruction keeps them so, where host functions answer alike
(`Machine.Twin.step`), and so does a whole run (`Machine.Twin.run`, `Engine.Held.execute`).
-/

namespace ShapeCompiler

open Engine

variable {α β γ : Type} {N : Ident → Prop} {e₀ e e' e₁ e₁' : Engine}

/-! ### The same answers -/

/-- Two runs end alike with the same answer, of which something holds. -/
abbrev YieldsSame (N : Ident → Prop) (e₀ : Engine) (Q : α → Prop) (e e' : Engine) (x y : Run α) : Prop :=
  RunsAlike N e₀ (fun _ _ a b => a = b ∧ Q a) e e' x y

theorem YieldsSame.bind {Q : α → Prop} {Q' : Engine → Engine → β → γ → Prop} {x y : Run α} {f : α → Run β}
    {g : α → Run γ} (hx : YieldsSame N e₀ Q e e' x y)
    (hf : ∀ a e₁ e₁', Engine.Twin N e₀ e₁ e₁' → e.Gains e₁ → e'.Gains e₁' → Q a →
      RunsAlike N e₀ Q' e₁ e₁' (f a) (g a)) : RunsAlike N e₀ Q' e e' (x >>= f) (y >>= g) := by
  refine RunsAlike.bind hx fun a b e₁ e₁' h₁ hg hg' hab => ?_
  obtain ⟨rfl, hQ⟩ := hab
  exact hf a e₁ e₁' h₁ hg hg' hQ

/-! ### Machines -/

/-- Callers that wait at the same place of code that is described alike. -/
inductive Frame.Twin (e₀ e e' : Engine) : Frame → Frame → Prop
  | mk {a a' : Artifact} (ha : Held e₀ e e' a a') (pc base : Nat) (dst : Reg) :
    Twin e₀ e e' ⟨a, pc, base, dst⟩ ⟨a', pc, base, dst⟩

/-- Machines with the same registers, at the same place of code that is described alike. -/
inductive Machine.Twin (e₀ e e' : Engine) : Machine → Machine → Prop
  | mk {a a' : Artifact} (ha : Held e₀ e e' a a') (pc base : Nat) (registers : Array Compiled)
    {frames frames' : List Frame} (hframes : List.Forall₂ (Frame.Twin e₀ e e') frames frames') :
    Twin e₀ e e' ⟨a, pc, base, registers, frames⟩ ⟨a', pc, base, registers, frames'⟩

/-- Steps that lead to machines at the same place or to the same result. -/
inductive Step.Twin (e₀ e e' : Engine) : Step → Step → Prop
  | next {m m' : Machine} (hm : m.Twin e₀ e e' m') : Twin e₀ e e' (.next m) (.next m')
  | done (c : Compiled) : Twin e₀ e e' (.done c) (.done c)

/-- Calls of host functions from sites that are described alike have the same answers. -/
def HostsAlike (N : Ident → Prop) (e₀ : Engine) (host : HostSite → List Compiled → Run Compiled) : Prop :=
  ∀ e e', Engine.Twin N e₀ e e' → ∀ site site', site.Twin e₀.functions e.types e'.types site' → ∀ cs,
    YieldsSame N e₀ (fun _ => True) e e' (host site cs) (host site' cs)

theorem Frame.Twin.gains {f f' : Frame} (h : f.Twin e₀ e e' f') (hg : e.Gains e₁) (hg' : e'.Gains e₁') :
    f.Twin e₀ e₁ e₁' f' := by
  cases h with
  | mk ha pc base dst => exact .mk (ha.gains hg hg') pc base dst

/-- Fresh frames of artifacts that are described alike are the same. -/
theorem Engine.Held.frame_eq {a a' : Artifact} (h : Held e₀ e e' a a') (args : List Compiled) :
    a'.frame args = a.frame args := by
  unfold Artifact.frame Artifact.frameSize
  rw [h.twin.registers, h.twin.signature.args.length_eq]

theorem forall₂_getElem? {R : α → β → Prop} {xs : List α} {ys : List β} (h : List.Forall₂ R xs ys)
    (k : Nat) : Option.Rel R xs[k]? ys[k]? := by
  induction h generalizing k with
  | nil => exact .none
  | cons hd _ ih =>
    cases k with
    | zero => exact .some hd
    | succ k => exact ih k

namespace Machine

namespace Twin

variable {m m' : Machine}

theorem gains (h : m.Twin e₀ e e' m') (hg : e.Gains e₁) (hg' : e'.Gains e₁') : m.Twin e₀ e₁ e₁' m' := by
  cases h with
  | mk ha pc base registers hframes =>
    exact .mk (ha.gains hg hg') pc base registers (hframes.imp fun _ _ h => h.gains hg hg')

theorem function (h : m.Twin e₀ e e' m') : Held e₀ e e' m.function m'.function := by
  cases h
  assumption

theorem pc_eq (h : m.Twin e₀ e e' m') : m'.pc = m.pc := by
  cases h
  rfl

theorem advance (h : m.Twin e₀ e e' m') : m.advance.Twin e₀ e e' m'.advance := by
  cases h with
  | mk ha pc base registers hframes => exact .mk ha (pc + 1) base registers hframes

theorem goto (h : m.Twin e₀ e e' m') (target : Nat) : (m.goto target).Twin e₀ e e' (m'.goto target) := by
  cases h with
  | mk ha pc base registers hframes => exact .mk ha target base registers hframes

/-! ### Registers -/

theorem read (h : Engine.Twin N e₀ e e') (hm : m.Twin e₀ e e' m') (r : Reg) :
    YieldsSame N e₀ (fun _ => True) e e' (m.read r) (m'.read r) := by
  cases hm with
  | mk ha pc base registers hframes =>
    unfold Machine.read
    dsimp only
    split
    · exact .pure h ⟨rfl, trivial⟩
    · exact .halt _

theorem readAll (h : Engine.Twin N e₀ e e') (hm : m.Twin e₀ e e' m') (rs : List Reg) :
    YieldsSame N e₀ (fun _ => True) e e' (m.readAll rs) (m'.readAll rs) := by
  induction rs generalizing e e' with
  | nil => exact .pure h ⟨rfl, trivial⟩
  | cons r rest ih =>
    refine (hm.read h r).bind fun c e₁ e₁' h₁ hg hg' _ => ?_
    exact (ih h₁ (hm.gains hg hg')).bind fun cs e₂ e₂' h₂ _ _ _ => .pure h₂ ⟨rfl, trivial⟩

theorem write (h : Engine.Twin N e₀ e e') (hm : m.Twin e₀ e e' m') (r : Reg) (c : Compiled) :
    RunsAlike N e₀ (Machine.Twin e₀) e e' (m.write r c) (m'.write r c) := by
  cases hm with
  | mk ha pc base registers hframes =>
    unfold Machine.write
    dsimp only
    split
    · exact .pure h (.mk ha pc base _ hframes)
    · exact .halt _

theorem writeNext (h : Engine.Twin N e₀ e e') (hm : m.Twin e₀ e e' m') (r : Reg) (c : Compiled) :
    RunsAlike N e₀ (Step.Twin e₀) e e' (m.writeNext r c) (m'.writeNext r c) :=
  (hm.write h r c).bind fun _ _ _ _ h₁ _ _ hm => .pure h₁ (.next hm.advance)

theorem unpack (h : Engine.Twin N e₀ e e') (subject : Reg) (hm : m.Twin e₀ e e' m')
    (fields : List (Reg × FieldAccess)) :
    RunsAlike N e₀ (Machine.Twin e₀) e e' (Machine.unpack subject m fields)
      (Machine.unpack subject m' fields) := by
  induction fields generalizing e e' m m' with
  | nil => exact .pure h hm
  | cons p rest ih =>
    refine (hm.read h subject).bind fun s e₁ e₁' h₁ hg hg' _ => ?_
    have hm₁ := hm.gains hg hg'
    refine YieldsSame.bind (.ofRuntime h₁ _) fun c e₂ e₂' h₂ hg hg' _ => ?_
    exact ((hm₁.gains hg hg').write h₂ p.1 c).bind fun _ _ _ _ h₃ _ _ hm => ih h₃ hm

/-! ### Calls -/

theorem enter (hm : m.Twin e₀ e e' m') {a a' : Artifact} (ha : Held e₀ e e' a a') (dst : Reg)
    (args : List Compiled) : (m.enter a dst args).Twin e₀ e e' (m'.enter a' dst args) := by
  cases hm with
  | mk hb pc base registers hframes =>
    unfold Machine.enter
    rw [ha.frame_eq]
    exact .mk ha 0 _ _ (.cons (.mk hb (pc + 1) base dst) hframes)

theorem leave (h : Engine.Twin N e₀ e e') (hm : m.Twin e₀ e e' m') (c : Compiled) :
    RunsAlike N e₀ (Step.Twin e₀) e e' (m.leave c) (m'.leave c) := by
  cases hm with
  | mk ha pc base registers hframes =>
    cases hframes with
    | nil => exact .pure h (.done c)
    | cons hf hrest =>
      cases hf with
      | mk hb pc' base' dst =>
        exact ((Machine.Twin.mk hb pc' base' _ hrest).write h dst c).bind
          fun _ _ _ _ h₁ _ _ hm => .pure h₁ (.next hm)

/-! ### Instructions -/

variable {host : HostSite → List Compiled → Run Compiled} (hground : Ground N e₀)
  (hhost : HostsAlike N e₀ host)
include hground hhost

theorem exec (h : Engine.Twin N e₀ e e') (hm : m.Twin e₀ e e' m') (op : Op) :
    RunsAlike N e₀ (Step.Twin e₀) e e' (m.exec host op) (m'.exec host op) := by
  cases op with
  | const dst value => exact hm.writeNext h dst _
  | move dst src =>
    exact (hm.read h src).bind fun c _ _ h₁ hg hg' _ => (hm.gains hg hg').writeNext h₁ dst c
  | incomplete dst => exact hm.writeNext h dst _
  | binary dst op bits lhs rhs =>
    refine (hm.read h lhs).bind fun a _ _ h₁ hg hg' _ => ?_
    have hm₁ := hm.gains hg hg'
    refine (hm₁.read h₁ rhs).bind fun b _ _ h₂ hg hg' _ => ?_
    have hm₂ := hm₁.gains hg hg'
    exact YieldsSame.bind (.ofRuntime h₂ _) fun c _ _ h₃ hg hg' _ => (hm₂.gains hg hg').writeNext h₃ dst c
  | construct dst tag shape args =>
    refine (hm.readAll h args).bind fun cs _ _ h₁ hg hg' _ => ?_
    have hm₁ := hm.gains hg hg'
    exact YieldsSame.bind (.ofRuntime h₁ _) fun c _ _ h₂ hg hg' _ => (hm₁.gains hg hg').writeNext h₂ dst c
  | switchTag subject table default =>
    exact (hm.read h subject).bind fun c _ _ h₁ hg hg' _ => .pure h₁ (.next ((hm.gains hg hg').goto _))
  | switchScalar subject cases' default =>
    exact (hm.read h subject).bind fun c _ _ h₁ hg hg' _ => .pure h₁ (.next ((hm.gains hg hg').goto _))
  | unpack subject fields =>
    exact (hm.unpack h subject fields).bind fun _ _ _ _ h₁ _ _ hm => .pure h₁ (.next hm.advance)
  | field dst subject access =>
    refine (hm.read h subject).bind fun s _ _ h₁ hg hg' _ => ?_
    have hm₁ := hm.gains hg hg'
    exact YieldsSame.bind (.ofRuntime h₁ _) fun c _ _ h₂ hg hg' _ => (hm₁.gains hg hg').writeNext h₂ dst c
  | call dst site args =>
    have hsites := forall₂_getElem? hm.function.twin.callSites site
    simp only [Machine.exec]
    generalize hs : m.function.callSites[site]? = s at hsites ⊢
    generalize hs' : m'.function.callSites[site]? = s' at hsites ⊢
    cases hsites with
    | none => exact .halt _
    | some hsig =>
      -- the site may be bound on one side only
      refine (h.bindSite hground hm.function hs hs' hsig).bind fun a a' _ _ h₁ hg hg' ha => ?_
      refine ((hm.gains hg hg').readAll h₁ args).bind fun cs _ _ h₂ hg₂ hg₂' _ => ?_
      exact .pure h₂ (.next ((hm.gains (hg.trans hg₂) (hg'.trans hg₂')).enter (ha.gains hg₂ hg₂') dst cs))
  | callSelf dst args =>
    refine (hm.readAll h args).bind fun cs _ _ h₁ hg hg' _ => .pure h₁ (.next ?_)
    exact (hm.gains hg hg').enter (hm.function.gains hg hg') dst cs
  | callHost dst site args =>
    refine (hm.readAll h args).bind fun cs e₁ e₁' h₁ hg hg' _ => ?_
    have hm₁ := hm.gains hg hg'
    have hsites := forall₂_getElem? hm₁.function.twin.hostSites site
    generalize m.function.hostSites[site]? = s at hsites ⊢
    generalize m'.function.hostSites[site]? = s' at hsites ⊢
    cases hsites with
    | none => exact .halt _
    | some hsite =>
      exact (hhost e₁ e₁' h₁ _ _ hsite cs).bind fun c _ _ h₂ hg hg' _ =>
        (hm₁.gains hg hg').writeNext h₂ dst c
  | jump target => exact .pure h (.next (hm.goto target))
  | ret src => exact (hm.read h src).bind fun c _ _ h₁ hg hg' _ => (hm.gains hg hg').leave h₁ c

theorem step (h : Engine.Twin N e₀ e e') (hm : m.Twin e₀ e e' m') :
    RunsAlike N e₀ (Step.Twin e₀) e e' (m.step host) (m'.step host) := by
  unfold Machine.step
  rw [← hm.function.twin.code, hm.pc_eq, ← hm.function.twin.signature.function]
  split
  · exact hm.exec hground hhost h _
  · exact .throw h _

/-- Machines at the same place run alike to the end. -/
theorem run (fuel : Nat) (h : Engine.Twin N e₀ e e') (hm : m.Twin e₀ e e' m') :
    YieldsSame N e₀ (fun _ => True) e e' (Machine.run host fuel m) (Machine.run host fuel m') := by
  induction fuel generalizing e e' m m' with
  | zero => exact .halt _
  | succ fuel ih =>
    refine (hm.step hground hhost h).bind fun s s' e₁ e₁' h₁ _ _ hs => ?_
    cases hs with
    | next hm => exact ih h₁ hm
    | done c => exact .pure h₁ ⟨rfl, trivial⟩

end Twin

end Machine

theorem Engine.Held.execute {host : HostSite → List Compiled → Run Compiled} (hground : Ground N e₀)
    (hhost : HostsAlike N e₀ host) (fuel : Nat) (h : Engine.Twin N e₀ e e') {a a' : Artifact}
    (ha : Held e₀ e e' a a') (cs : List Compiled) :
    YieldsSame N e₀ (fun _ => True) e e' (a.execute host fuel cs) (a'.execute host fuel cs) := by
  unfold Artifact.execute Machine.start
  rw [← ha.twin.signature.args.length_eq, ← ha.twin.signature.function, ha.frame_eq]
  split
  · exact .throw h _
  · exact Machine.Twin.run hground hhost fuel h (.mk ha 0 0 _ .nil)

end ShapeCompiler
