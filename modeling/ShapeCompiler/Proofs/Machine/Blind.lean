import ShapeCompiler.Proofs.Engine.Runs

/-!
Instructions that do not look at the engine.

Main statement: only calls look at the engine; every other instruction does the same in every engine
and changes none (`Machine.exec_blind`).
-/

namespace ShapeCompiler

variable {α β : Type}

/-- The run does the same in every engine and changes none. -/
def Run.Blind (x : Run α) : Prop :=
  ∃ r : Except Halt (Except Error α), ∀ e : Engine, e.run x = r.map fun y => (y, e)

namespace Run.Blind

theorem pure (a : α) : Blind (pure a) := ⟨.ok (.ok a), fun _ => rfl⟩

theorem throw (err : Error) : Blind (throw err : Run α) := ⟨.ok (.error err), fun _ => rfl⟩

theorem halt (why : Halt) : Blind (halt why : Run α) := ⟨.error why, fun _ => rfl⟩

theorem bind {x : Run α} {f : α → Run β} (hx : Blind x) (hf : ∀ a, Blind (f a)) : Blind (x >>= f) := by
  obtain ⟨r, hr⟩ := hx
  rcases r with why | err | a
  · exact ⟨.error why, fun e => by rw [Engine.run_bind, hr]; rfl⟩
  · exact ⟨.ok (.error err), fun e => by rw [Engine.run_bind, hr]; rfl⟩
  · obtain ⟨s, hs⟩ := hf a
    exact ⟨s, fun e => by rw [Engine.run_bind, hr]; exact hs e⟩

theorem ofRuntime (x : Except RuntimeError α) : Blind (Run.ofRuntime x) := by
  cases x with
  | ok a => exact .pure a
  | error e => exact .throw _

theorem ofType (x : Except TypeError α) : Blind (Run.ofUpdate (Update.ofType x)) := by
  cases x with
  | ok a => exact .pure a
  | error e => exact .throw _

end Run.Blind

namespace Machine

variable (m : Machine)

theorem read_blind (r : Reg) : (m.read r).Blind := by
  unfold read
  split
  · exact .pure _
  · exact .halt _

theorem readAll_blind (rs : List Reg) : (m.readAll rs).Blind := by
  induction rs with
  | nil => exact .pure _
  | cons r rest ih => exact (m.read_blind r).bind fun _ => ih.bind fun _ => .pure _

theorem write_blind (r : Reg) (c : Compiled) : (m.write r c).Blind := by
  unfold write
  split
  · exact .pure _
  · exact .halt _

theorem writeNext_blind (r : Reg) (c : Compiled) : (m.writeNext r c).Blind :=
  (m.write_blind r c).bind fun _ => .pure _

theorem unpack_blind (subject : Reg) (fields : List (Reg × FieldAccess)) : (unpack subject m fields).Blind := by
  induction fields generalizing m with
  | nil => exact .pure _
  | cons p rest ih =>
    exact (m.read_blind subject).bind fun _ => (Run.Blind.ofRuntime _).bind fun c =>
      (m.write_blind p.1 c).bind ih

theorem leave_blind (c : Compiled) : (m.leave c).Blind := by
  unfold leave
  split
  · exact .pure _
  · exact (write_blind _ _ _).bind fun _ => .pure _

/-- Only calls look at the engine. -/
theorem exec_blind {host : HostSite → List Compiled → Run Compiled} {op : Op} (h : op.IsLocal) :
    (m.exec host op).Blind := by
  cases op with
  | const dst value => exact m.writeNext_blind dst _
  | move dst src => exact (m.read_blind src).bind (m.writeNext_blind dst)
  | incomplete dst => exact m.writeNext_blind dst _
  | binary dst op bits lhs rhs =>
    exact (m.read_blind lhs).bind fun a => (m.read_blind rhs).bind fun b =>
      (Run.Blind.ofRuntime _).bind (m.writeNext_blind dst)
  | construct dst tag shape args =>
    exact (m.readAll_blind args).bind fun cs => (Run.Blind.ofRuntime _).bind (m.writeNext_blind dst)
  | switchTag subject table default => exact (m.read_blind subject).bind fun _ => .pure _
  | switchScalar subject cases' default => exact (m.read_blind subject).bind fun _ => .pure _
  | unpack subject fields => exact (m.unpack_blind subject fields).bind fun _ => .pure _
  | field dst subject access =>
    exact (m.read_blind subject).bind fun s => (Run.Blind.ofRuntime _).bind (m.writeNext_blind dst)
  | call dst site args => exact h.elim
  | callSelf dst args => exact (m.readAll_blind args).bind fun _ => .pure _
  | callHost dst site args => exact h.elim
  | jump target => exact .pure _
  | ret src => exact (m.read_blind src).bind m.leave_blind

end Machine

end ShapeCompiler
