import ShapeCompiler.Machine
import ShapeCompiler.Proofs.Placeholder.Engines

/-!
The register machine does not see a replacement.

Artifacts that are the same up to the definitions at their host sites have the same code. Main statements:
an instruction leads to the same machine (`RunsSame.exec`), and an artifact has the same result
(`RunsSame.execute`), where host functions answer alike.
-/

namespace ShapeCompiler

variable {r : Replacement}

/-- The caller with patterns replaced in the definitions at its sites. -/
def Frame.replace (r : Replacement) (f : Frame) : Frame := { f with function := f.function.replace r }

/-- The machine with patterns replaced in the definitions at the sites of its functions. -/
def Machine.replace (r : Replacement) (m : Machine) : Machine :=
  { m with function := m.function.replace r, frames := m.frames.map (Frame.replace r) }

def Step.replace (r : Replacement) : Step → Step
  | .next m => .next (m.replace r)
  | .done c => .done c

namespace RunsSame

variable (m : Machine)

theorem read (reg : Reg) : RunsSame r Eq (m.read reg) ((m.replace r).read reg) := by
  unfold Machine.read
  have hreg : (m.replace r).registers[(m.replace r).base + reg]? = m.registers[m.base + reg]? := rfl
  rw [hreg]
  cases m.registers[m.base + reg]? with
  | some c => exact .pure rfl
  | none => exact .halt _

theorem readAll (regs : List Reg) : RunsSame r Eq (m.readAll regs) ((m.replace r).readAll regs) := by
  induction regs with
  | nil => exact .pure rfl
  | cons reg rest ih => exact (read m reg).andThen fun c => ih.andThen fun cs => .pure rfl

theorem write (reg : Reg) (c : Compiled) : RunsSame r (fun m m' => m' = m.replace r) (m.write reg c)
    ((m.replace r).write reg c) := by
  unfold Machine.write
  by_cases h : m.base + reg < m.registers.size
  · rw [dif_pos h, dif_pos (show (m.replace r).base + reg < (m.replace r).registers.size from h)]
    exact .pure rfl
  · rw [dif_neg h, dif_neg (show ¬ (m.replace r).base + reg < (m.replace r).registers.size from h)]
    exact .halt _

theorem writeNext (reg : Reg) (c : Compiled) : RunsSame r (fun s s' => s' = s.replace r)
    (m.writeNext reg c) ((m.replace r).writeNext reg c) :=
  (write m reg c).bind fun _ _ h => h ▸ .pure rfl

theorem unpack (subject : Reg) (fields : List (Reg × FieldAccess)) :
    RunsSame r (fun m m' => m' = m.replace r) (Machine.unpack subject m fields)
      (Machine.unpack subject (m.replace r) fields) := by
  induction fields generalizing m with
  | nil => exact .pure rfl
  | cons p rest ih =>
    refine (read m subject).andThen fun s => (ofRuntime (p.2.read s)).andThen fun c => ?_
    exact (write m p.1 c).bind fun m₁ _ h => h ▸ ih m₁

theorem leave (c : Compiled) : RunsSame r (fun s s' => s' = s.replace r) (m.leave c)
    ((m.replace r).leave c) := by
  obtain ⟨function, pc, base, registers, frames⟩ := m
  cases frames with
  | nil => exact .pure rfl
  | cons f rest =>
    exact (write ⟨f.function, f.pc, f.base, registers.shrink base, rest⟩ f.dst c).bind
      fun _ _ h => h ▸ .pure rfl

variable {host host' : HostSite → List Compiled → Run Compiled}
  (hhost : ∀ site cs, RunsSame r Eq (host site cs) (host' (site.replace r) cs))
include hhost

theorem exec (op : Op) : RunsSame r (fun s s' => s' = s.replace r) (m.exec host op)
    ((m.replace r).exec host' op) := by
  cases op with
  | const dst value => exact writeNext m dst _
  | move dst src => exact (read m src).andThen fun c => writeNext m dst c
  | incomplete dst => exact writeNext m dst _
  | binary dst op bits lhs rhs =>
    refine (read m lhs).andThen fun a => (read m rhs).andThen fun b => ?_
    exact (ofRuntime _).andThen fun c => writeNext m dst c
  | construct dst tag shape args =>
    exact (readAll m args).andThen fun cs => (ofRuntime _).andThen fun c => writeNext m dst c
  | switchTag subject table default => exact (read m subject).andThen fun c => .pure rfl
  | switchScalar subject cases' default => exact (read m subject).andThen fun c => .pure rfl
  | unpack subject fields => exact (unpack m subject fields).bind fun _ _ h => h ▸ .pure rfl
  | field dst subject access =>
    refine (read m subject).andThen fun s => ?_
    exact (ofRuntime (access.read s)).andThen fun c => writeNext m dst c
  | call dst site args =>
    simp only [Machine.exec]
    have hsite : (m.replace r).function.callSites[site]? = m.function.callSites[site]? := rfl
    rw [hsite]
    cases m.function.callSites[site]? with
    | none => exact .halt _
    | some callee =>
      refine (bindSite m.function.signature site callee).bind fun a _ h => ?_
      subst h
      exact (readAll m args).andThen fun cs => .pure rfl
  | callSelf dst args => exact (readAll m args).andThen fun cs => .pure rfl
  | callHost dst site args =>
    refine (readAll m args).andThen fun cs => ?_
    have hsite : (m.replace r).function.hostSites[site]? =
        (m.function.hostSites[site]?).map (HostSite.replace r) := List.getElem?_map
    rw [hsite]
    cases m.function.hostSites[site]? with
    | none => exact .halt _
    | some h => exact (hhost h cs).andThen fun c => writeNext m dst c
  | jump target => exact .pure rfl
  | ret src => exact (read m src).andThen fun c => leave m c

theorem run (fuel : Nat) :
    RunsSame r Eq (Machine.run host fuel m) (Machine.run host' fuel (m.replace r)) := by
  induction fuel generalizing m with
  | zero => exact .halt _
  | succ fuel ih =>
    have hstep : RunsSame r (fun s s' => s' = s.replace r) (m.step host) ((m.replace r).step host') := by
      unfold Machine.step
      have hop : (m.replace r).function.code[(m.replace r).pc]? = m.function.code[m.pc]? := rfl
      rw [hop]
      cases m.function.code[m.pc]? with
      | some op => exact exec m hhost op
      | none => exact .throw _
    refine hstep.bind fun s _ h => ?_
    subst h
    cases s with
    | next m => exact ih m
    | done c => exact .pure rfl

theorem execute (fuel : Nat) (a : Artifact) (args : List Compiled) :
    RunsSame r Eq (a.execute host fuel args) ((a.replace r).execute host' fuel args) := by
  unfold Artifact.execute
  show RunsSame r Eq _ (if args.length ≠ a.signature.args.length then _ else _)
  split
  · exact .throw _
  · exact run (Machine.start a args) hhost fuel

end RunsSame

end ShapeCompiler
