import ShapeCompiler.Catalog.Programs
import ShapeCompiler.Proofs.Agreement
import ShapeCompiler.Proofs.Limit.Moments
import ShapeCompiler.Proofs.Limit.Runs

/-!
The recursion limit only cuts off.

Activations of the interpreter are counted whoever is between them: other activations, compiled code, or
native functions. Main statement: a higher limit changes no answer but that of running into the limit, at
no moment are more activations alive than the limit, and behind a request as many are alive as before it
(`Engine.limit_only_cuts`).
-/

namespace ShapeCompiler

namespace Engine

/--
Where definitions are fixed, so that the artifacts of the engine are those of its definitions, and native
functions never enter it again, a call and a verification under a higher limit answer the same and leave
the same engine behind, unless they fail at the lower limit.
In any session of any engine, redefinitions, stopped requests and native functions that enter it again
included, no more activations are ever alive than the limit allows; the history that says so is that of
the engine; and every request leaves as many activations alive as it found, whatever it answers.
-/
theorem limit_only_cuts :
    (∀ {e : Engine}, e.Coherent → e.functions.Pure → ∀ {limit}, e.options.maxHostDepth ≤ limit →
      ∀ fuel name args, ∀ request ∈ [Run.call fuel name args, Run.verify fuel name args],
      ∀ y e', e.run request = .ok (y, e') →
        y ≠ .error (.runtime (.recursionLimit e.options.maxHostDepth)) →
        (e.withLimit limit).run request = .ok (y, e'.withLimit limit)) ∧
    (∀ {e : Engine}, e.activations.alive ≤ e.options.maxHostDepth → ∀ session,
      ∀ m ∈ (e.history session).past, m.engine.activations.alive ≤ e.options.maxHostDepth) ∧
    (∀ (h : History) (r : Request) fuel,
      History.erase (h.record (r.logged fuel)) = h.now.run (r.perform fuel)) ∧
    ∀ {e e' : Engine} {fuel} {r : Request} {y}, e.run (r.perform fuel) = .ok (y, e') →
      e'.activations.alive = e.activations.alive := by
  refine ⟨?_, history_bounded, fun h r fuel => (r.logged_erases fuel h).1,
    fun hrun => (Request.perform_level _ _ _ _ _ hrun).2⟩
  intro e he hpure limit hle fuel name args request hrequest y e' hrun hne
  have hcapped : Run.Calmly request := by
    rcases List.mem_cons.1 hrequest with rfl | hrequest
    · exact (Run.Capping.all fuel).call name args
    · obtain rfl := List.mem_singleton.1 hrequest
      exact Run.verify_capped fuel name args
  rcases hcapped.cut e limit ⟨he, hpure⟩ hle with ⟨e₁, hcut⟩ | hsame
  · cases hrun.symm.trans hcut
    exact absurd rfl hne
  · rw [hsame, hrun]
    rfl

end Engine

/-! ### Compiled code and the interpreter in turns -/

namespace Catalog

/-- A test of parity that is compiled and one that is interpreted, which call each other, under a limit. -/
def mixedEngine (limit : Nat) : Engine :=
  ((Engine.default.withLimit limit).withFunction isEven.name (.decorated isEven)).withFunction isOdd.name
    (.interpreted isOdd)

theorem mixedEngine_session : (mixedEngine 2).Session :=
  ((Engine.Reached.create (o := { maxHostDepth := 2 }) rfl).decorate isEven (.inl rfl)
    (by with_unfolding_all rfl)).define isOdd (.inl rfl) (by with_unfolding_all rfl)

theorem mixedEngine_pure (limit : Nat) : (mixedEngine limit).functions.Pure :=
  (Functions.pure_empty.decorated isEven).interpreted isOdd

def limitHit? (x : Except Halt (Except Error Unit × Engine)) : Option Nat :=
  match x with
  | .ok (.error (.runtime (.recursionLimit limit)), _) => some limit
  | _ => none

theorem exists_of_limitHit? {x : Except Halt (Except Error Unit × Engine)} {limit : Nat}
    (h : limitHit? x = some limit) : ∃ e', x = .ok (.error (.runtime (.recursionLimit limit)), e') := by
  unfold limitHit? at h
  split at h
  · cases h
    exact ⟨_, rfl⟩
  · cases h

/-- Two activations are enough for three, with compiled code between them, but not for five, and the failed
request leaves none alive. -/
theorem limit_only_cuts_parity :
    (∃ v e', (mixedEngine 2).run (Run.call 60 "is_even" [.int 3]) = .ok (.ok v, e') ∧
      v.asUint 24 = some (Uint.u24 0) ∧
      (mixedEngine 10).run (Run.call 60 "is_even" [.int 3]) = .ok (.ok v, e'.withLimit 10)) ∧
    (∃ e', (mixedEngine 2).run ((Request.call "is_even" [.int 5]).perform 60) =
      .ok (.error (.runtime (.recursionLimit 2)), e') ∧ e'.activations.alive = 0) ∧
    (∃ v e', (mixedEngine 10).run (Run.call 60 "is_even" [.int 5]) = .ok (.ok v, e') ∧
      v.asUint 24 = some (Uint.u24 0)) ∧
    ∀ m ∈ ((mixedEngine 2).history [(60, .call "is_even" [.int 5])]).past, m.engine.activations.alive ≤ 2 := by
  obtain ⟨hsame, hbound, -, hlevel⟩ := Engine.limit_only_cuts
  obtain ⟨v, e', hcall, hv⟩ : ∃ v e', (mixedEngine 2).run (Run.call 60 "is_even" [.int 3]) =
      .ok (.ok v, e') ∧ v.asUint 24 = some (Uint.u24 0) := exists_of_number (by decide +kernel)
  refine ⟨⟨v, e', hcall, hv, ?_⟩, ?_, exists_of_number (by decide +kernel), hbound (by decide) _⟩
  · exact hsame mixedEngine_session.coherent (mixedEngine_pure 2) (by decide : 2 ≤ 10) 60 _ _ _
      List.mem_cons_self _ _ hcall (by simp)
  · obtain ⟨e₁, hfail⟩ : ∃ e₁, (mixedEngine 2).run ((Request.call "is_even" [.int 5]).perform 60) =
        .ok (.error (.runtime (.recursionLimit 2)), e₁) := exists_of_limitHit? (by decide +kernel)
    exact ⟨e₁, hfail, hlevel hfail⟩

end Catalog

end ShapeCompiler
