import ShapeCompiler.Machine
import ShapeCompiler.Proofs.Engine.Requests

/-!
Reading and writing registers.

Main statements: what the accesses of an instruction do where its registers exist
(`Machine.run_read`, `Machine.run_write`, `Machine.run_unpack_cons`), and that a machine which goes on
in the same frame keeps the registers below the ones it writes (`Machine.Continues.trans`).
-/

namespace ShapeCompiler

variable {α : Type} {e : Engine} {m m' m'' : Machine} {r : Reg} {c : Compiled} {k k' : Nat}

theorem Engine.run_pure (e : Engine) (a : α) : e.run (pure a) = .ok (.ok a, e) := rfl

theorem Engine.run_ofRuntime_ok (e : Engine) (a : α) {β : Type} (f : α → Run β) :
    e.run (Run.ofRuntime (.ok a) >>= f) = e.run (f a) := by
  rw [run_bind]
  rfl

theorem Engine.run_ofRuntime_error (e : Engine) (f : RuntimeError) {β : Type} (g : α → Run β) :
    e.run (Run.ofRuntime (.error f) >>= g) = .ok (.error (.runtime f), e) := by
  rw [run_bind]
  rfl

namespace Machine

/-- The register of the running function holds a value. -/
def Reads (m : Machine) (r : Reg) (c : Compiled) : Prop := m.registers[m.base + r]? = some c

/-- The machine after writing a register. -/
def put (m : Machine) (r : Reg) (c : Compiled) : Machine :=
  { m with registers := m.registers.setIfInBounds (m.base + r) c }

theorem reads_put (h : m.base + r < m.registers.size) : (m.put r c).Reads r c := by
  unfold Reads put
  simp [h]

/-! ### Runs -/

theorem run_read (h : m.Reads r c) (f : Compiled → Run α) : e.run (m.read r >>= f) = e.run (f c) := by
  unfold read
  rw [h, pure_bind]

theorem run_readAll {rs : List Reg} {cs : List Compiled} (h : List.Forall₂ m.Reads rs cs)
    (f : List Compiled → Run α) : e.run (m.readAll rs >>= f) = e.run (f cs) := by
  induction h generalizing f with
  | nil => rw [readAll, pure_bind]
  | cons hr _ ih =>
    rw [readAll, bind_assoc, run_read hr, bind_assoc, ih, pure_bind]

theorem run_write (h : m.base + r < m.registers.size) (f : Machine → Run α) :
    e.run (m.write r c >>= f) = e.run (f (m.put r c)) := by
  unfold write put Array.setIfInBounds
  rw [dif_pos h, dif_pos h, pure_bind]

theorem run_writeNext (h : m.base + r < m.registers.size) :
    e.run (m.writeNext r c) = .ok (.ok (.next (m.put r c).advance), e) := by
  unfold writeNext
  rw [run_write h, Engine.run_pure]

theorem run_unpack_cons {subject : Reg} {access : FieldAccess} {s : Compiled}
    {rest : List (Reg × FieldAccess)} (hs : m.Reads subject s) (hc : access.read s = .ok c)
    (h : m.base + r < m.registers.size) :
    e.run (unpack subject m ((r, access) :: rest)) = e.run (unpack subject (m.put r c) rest) := by
  rw [unpack, run_read hs, hc, Engine.run_ofRuntime_ok, run_write h]

theorem run_step {host : HostSite → List Compiled → Run Compiled} {op : Op}
    (h : m.function.code[m.pc]? = some op) : e.run (m.step host) = e.run (m.exec host op) := by
  unfold step
  rw [h]

/-! ### Going on in a frame -/

/-- The machine has gone on in the same frame and has kept the registers below a number. -/
structure Continues (k : Nat) (m m' : Machine) : Prop where
  function : m'.function = m.function
  base : m'.base = m.base
  frames : m'.frames = m.frames
  size : m'.registers.size = m.registers.size
  below : ∀ i, i < m.base + k → m'.registers[i]? = m.registers[i]?

namespace Continues

theorem refl (k : Nat) (m : Machine) : m.Continues k m := ⟨rfl, rfl, rfl, rfl, fun _ _ => rfl⟩

theorem trans (h : m.Continues k m') (h' : m'.Continues k' m'') (hk : k ≤ k') : m.Continues k m'' where
  function := h'.function.trans h.function
  base := h'.base.trans h.base
  frames := h'.frames.trans h.frames
  size := h'.size.trans h.size
  below i hi := (h'.below i (by rw [h.base]; omega)).trans (h.below i hi)

theorem mono (h : m.Continues k' m') (hk : k ≤ k') : m.Continues k m' :=
  (refl k m).trans h hk

theorem put (m : Machine) (c : Compiled) (hr : k ≤ r) :
    m.Continues k (m.put r c) where
  function := rfl
  base := rfl
  frames := rfl
  size := by simp [Machine.put]
  below i hi := by
    have hlt : i < m.base + r := Nat.lt_of_lt_of_le hi (Nat.add_le_add_left hr _)
    exact Array.getElem?_setIfInBounds_ne (Nat.ne_of_gt hlt)

theorem goto (h : m.Continues k m') (target : Nat) : m.Continues k (m'.goto target) :=
  ⟨h.function, h.base, h.frames, h.size, h.below⟩

theorem advance (h : m.Continues k m') : m.Continues k m'.advance := h.goto _

theorem reads (h : m.Continues k m') (hr : r < k) (hm : m.Reads r c) : m'.Reads r c := by
  unfold Reads at *
  rw [h.base, h.below _ (Nat.add_lt_add_left hr _)]
  exact hm

end Continues

end Machine

end ShapeCompiler
