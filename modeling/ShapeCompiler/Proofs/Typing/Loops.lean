import ShapeCompiler.Proofs.Inference
import ShapeCompiler.Proofs.Namespaces
import ShapeCompiler.Proofs.Typing.Termination

/-!
What the rounds of a loop settle on.

A round walks the body of a loop and joins the types after it to those before it, so the types of rounds in
a row go up, and the rounds end. What the body returns is joined to what was returned before, and what it
calls is noted; neither changes the type of a variable. So a walk answers alike whatever was discovered before
it (`Walker.Indifferent`), and it can be made again where at least as much is returned (`Walker.Repeats`).

Main statement: the loop of every body ends from every scope, for every table of assumed return types, and
the scope that it ends with covers all rounds, as types and as values (`Walker.loopBody_settles`).
-/

namespace ShapeCompiler

open TypeTable

variable {c : Typing} {t : TypeTable} {w : Walker} {α : Type}

/-! ### Scopes that go up -/

/-- Every variable of a scope has a type in another one, and a type that is at least as high. -/
def TypeEnv.Below (t : TypeTable) (env env' : TypeEnv) : Prop :=
  ∀ name s, env.get? name = some s → ∃ s', env'.get? name = some s' ∧ s.Below t s'

namespace TypeEnv.Below

variable {env env' env'' : TypeEnv} {name : Ident} {s : StaticType}

theorem refl (env : TypeEnv) : TypeEnv.Below t env env := fun _ s h => ⟨s, h, .refl s⟩

theorem trans (hw : t.WellFormed) (h : TypeEnv.Below t env env') (h' : TypeEnv.Below t env' env'') :
    TypeEnv.Below t env env'' := by
  intro name s hs
  obtain ⟨s', hs', hbelow⟩ := h name s hs
  obtain ⟨s'', hs'', hbelow'⟩ := h' name s' hs'
  exact ⟨s'', hs'', hbelow.trans hw hbelow'⟩

theorem insert (h : ∀ old, env.get? name = some old → old.Below t s) :
    TypeEnv.Below t env (env.insert name s) := by
  intro other old hold
  rw [Assoc.get?_insert]
  split
  · rename_i he
    exact ⟨s, rfl, h old (he ▸ hold)⟩
  · exact ⟨old, hold, .refl old⟩

end TypeEnv.Below

namespace Walker

theorem mergeRound_above (hw : w.types.WellFormed) {before merged : TypeEnv}
    {entries : List (Ident × StaticType)} (h : w.mergeRound before entries = .ok merged) :
    before.Below w.types merged ∧
      ∀ p ∈ entries, ∃ s, merged.get? p.1 = some s ∧ p.2.Below w.types s := by
  induction entries generalizing before with
  | nil =>
    cases h
    exact ⟨.refl _, by simp⟩
  | cons p rest ih =>
    obtain ⟨name, s⟩ := p
    rw [mergeRound] at h
    obtain ⟨joined, h, hold, hnew⟩ : ∃ joined,
        w.mergeRound (before.insert name joined) rest = .ok merged ∧
        (∀ old, before.get? name = some old → old.Below w.types joined) ∧ s.Below w.types joined := by
      split at h
      · rename_i old hget
        obtain ⟨joined, hj, h⟩ := bind_eq_ok.1 h
        refine ⟨joined, h, fun old' hget' => ?_, Typing.join_above_right hj⟩
        obtain rfl : old = old' := Option.some.inj (hget.symm.trans hget')
        exact Typing.join_above hj
      · rename_i hget
        refine ⟨s, h, fun old hget' => ?_, .refl s⟩
        rw [hget] at hget'
        cases hget'
    obtain ⟨hbefore, hentries⟩ := ih h
    refine ⟨(TypeEnv.Below.insert hold).trans hw hbefore, fun q hq => ?_⟩
    rcases List.mem_cons.1 hq with rfl | hq
    · obtain ⟨s', hs', hbelow⟩ := hbefore name joined (Assoc.get?_insert_self _ _ _)
      exact ⟨s', hs', hnew.trans hw hbelow⟩
    · exact hentries q hq

/-- The types after a round are above those before it and those that the body has left. -/
theorem mergeRound_below (hw : w.types.WellFormed) {before after merged : TypeEnv}
    (h : w.mergeRound before after.entries = .ok merged) :
    before.Below w.types merged ∧ after.Below w.types merged :=
  have ⟨hbefore, hentries⟩ := mergeRound_above hw h
  ⟨hbefore, fun name s hs => hentries (name, s) (Assoc.mem_of_get? hs)⟩

/-! ### Walks from other findings -/

/-- What a step answers, with the return type after it. -/
def outcome (r : Except CompileError (α × Findings)) : Except CompileError (α × StaticType) :=
  r.map fun p => (p.1, p.2.returns)

/-- The step does not depend on the signatures that were discovered before it. -/
def Indifferent (x : WalkM α) : Prop :=
  ∀ f g : Findings, f.returns = g.returns → outcome (x.run f) = outcome (x.run g)

theorem steps_indifferent : w.Steps fun _ x => Indifferent x where
  pure a f g h := congrArg (fun r => Except.ok (a, r)) h
  throw err f g h := rfl
  lift x f g h := by
    cases x with
    | error err => rfl
    | ok a => exact congrArg (fun r => Except.ok (a, r)) h
  bind {α β x k} hx hk f g h := by
    show outcome (x.run f >>= fun p => (k p.1).run p.2) = outcome (x.run g >>= fun p => (k p.1).run p.2)
    have hxf := hx f g h
    cases hf : x.run f with
    | error err =>
      cases hg : x.run g with
      | error err' =>
        rw [hf, hg] at hxf
        cases hxf
        rfl
      | ok q => rw [hf, hg] at hxf; cases hxf
    | ok p =>
      cases hg : x.run g with
      | error err' => rw [hf, hg] at hxf; cases hxf
      | ok q =>
        rw [hf, hg] at hxf
        obtain ⟨ha, hr⟩ := Prod.mk.inj (Except.ok.inj hxf)
        show outcome ((k p.1).run p.2) = outcome ((k q.1).run q.2)
        rw [ha]
        exact hk q.1 p.2 q.2 hr
  note _ f g h := congrArg (fun r => Except.ok (_, r)) h
  join s env f g h := by
    have hrun : ∀ f : Findings, outcome (StateT.run (do
        let f ← get
        let joined ← w.join f.returns s
        set { f with returns := joined }
        return env) f) = (w.join f.returns s).map fun joined => (env, joined) := fun f => by
      show outcome (StateT.run (do
        let joined ← w.join f.returns s
        set { f with returns := joined }
        return env) f) = _
      cases w.join f.returns s <;> rfl
    rw [hrun, hrun, h]

/-- The step only raises the return type, and where at least as much is returned it answers the same and
returns no more. -/
def Repeats (w : Walker) (x : WalkM α) : Prop :=
  ∀ f a f', x.run f = .ok (a, f') → f.returns.Below w.types f'.returns ∧
    ∀ g : Findings, f'.returns.Below w.types g.returns →
      ∃ g', x.run g = .ok (a, g') ∧ g'.returns = g.returns

theorem steps_repeat (hw : w.types.WellFormed) : w.Steps fun _ x => w.Repeats x where
  pure a f b f' h := by
    obtain ⟨rfl, rfl⟩ := run_pure_eq_ok.1 h
    exact ⟨.refl _, fun g _ => ⟨g, rfl, rfl⟩⟩
  throw err f a f' h := absurd h run_throw_ne_ok
  lift x f a f' h := by
    obtain ⟨hx, rfl⟩ := run_lift_eq_ok.1 h
    exact ⟨.refl _, fun g _ => ⟨g, run_lift_eq_ok.2 ⟨hx, rfl⟩, rfl⟩⟩
  bind hx hk f b f' h := by
    obtain ⟨a, f₁, h₁, h₂⟩ := run_bind_eq_ok.1 h
    obtain ⟨hup₁, hagain₁⟩ := hx f a f₁ h₁
    obtain ⟨hup₂, hagain₂⟩ := hk a f₁ b f' h₂
    refine ⟨hup₁.trans hw hup₂, fun g hg => ?_⟩
    obtain ⟨g₁, hg₁, hr₁⟩ := hagain₁ g (hup₂.trans hw hg)
    obtain ⟨g', hg', hr'⟩ := hagain₂ g₁ (hr₁.symm ▸ hg)
    exact ⟨g', run_bind_eq_ok.2 ⟨a, g₁, hg₁, hg'⟩, hr'.trans hr₁⟩
  note _ f a f' h := by
    cases h
    exact ⟨.refl _, fun g _ => ⟨_, rfl, rfl⟩⟩
  join s env f env' f' h := by
    obtain ⟨f₁, f₂, hf, h⟩ := run_bind_eq_ok.1 h
    cases hf
    obtain ⟨joined, f₃, hl, h⟩ := run_bind_eq_ok.1 h
    obtain ⟨hj, rfl⟩ := run_lift_eq_ok.1 hl
    cases h
    refine ⟨Typing.join_above hj, fun g hg => ⟨{ g with returns := g.returns }, ?_, rfl⟩⟩
    have hsame : w.join g.returns s = .ok g.returns :=
      Typing.join_of_below hw ((Typing.join_above_right hj).trans hw hg)
    exact run_bind_eq_ok.2 ⟨g, g, rfl, run_bind_eq_ok.2 ⟨g.returns, g, run_lift_eq_ok.2 ⟨hsame, rfl⟩, rfl⟩⟩

/-! ### Rounds -/

section Rounds

variable {round : TypeEnv → WalkM TypeEnv} {env settled : TypeEnv} {f f' : Findings}

/-- A round of a loop: its body is walked, and the types after it are joined to those before it. -/
def joinedRound (w : Walker) (round : TypeEnv → WalkM TypeEnv) (env : TypeEnv) : WalkM TypeEnv := do
  let after ← round env
  w.mergeRound env after.entries

/-- A number of rounds of a loop in a row. Each starts from the join of all types before it: without it a
round could leave other types, since an operation has the type of its other operand where one has become the
sentinel. -/
def rounds (w : Walker) (round : TypeEnv → WalkM TypeEnv) : Nat → TypeEnv → WalkM TypeEnv
  | 0, env => pure env
  | n + 1, env => do
    let merged ← w.joinedRound round env
    rounds w round n merged

/-- One more round leaves the scope alone, wherever at least as much is returned. -/
def Rests (w : Walker) (round : TypeEnv → WalkM TypeEnv) (returns : StaticType) (env : TypeEnv) : Prop :=
  ∀ g : Findings, returns.Below w.types g.returns →
    ∃ g', (w.joinedRound round env).run g = .ok (env, g') ∧ g'.returns = g.returns

/-- The scope is above the types after a number of rounds, and above those that the body leaves after
them, wherever at least as much is returned. -/
def Covers (w : Walker) (round : TypeEnv → WalkM TypeEnv) (returns : StaticType) (settled env : TypeEnv)
    (n : Nat) : Prop :=
  ∀ g : Findings, returns.Below w.types g.returns → ∃ reached g₁ after g₂,
    (w.rounds round n env).run g = .ok (reached, g₁) ∧ reached.Below w.types settled ∧
      (round reached).run g₁ = .ok (after, g₂) ∧ after.Below w.types settled

theorem run_joinedRound_eq_ok {merged : TypeEnv} : (w.joinedRound round env).run f = .ok (merged, f') ↔
    ∃ after, (round env).run f = .ok (after, f') ∧ w.mergeRound env after.entries = .ok merged := by
  unfold joinedRound
  rw [run_bind_eq_ok]
  constructor
  · rintro ⟨after, f₁, hrun, hl⟩
    obtain ⟨hm, rfl⟩ := run_lift_eq_ok.1 hl
    exact ⟨after, hrun, hm⟩
  · rintro ⟨after, hrun, hm⟩
    exact ⟨after, f', hrun, run_lift_eq_ok.2 ⟨hm, rfl⟩⟩

theorem run_rounds_succ (w : Walker) (round : TypeEnv → WalkM TypeEnv) (n : Nat) (env : TypeEnv)
    (f : Findings) : (w.rounds round (n + 1) env).run f =
      (w.joinedRound round env).run f >>= fun p => (w.rounds round n p.1).run p.2 := rfl

theorem run_rounds_of_round {merged : TypeEnv} {f₁ : Findings} (n : Nat)
    (h : (w.joinedRound round env).run f = .ok (merged, f₁)) :
    (w.rounds round (n + 1) env).run f = (w.rounds round n merged).run f₁ := by
  rw [run_rounds_succ, h]
  rfl

theorem run_settleLoop_succ (w : Walker) (round : TypeEnv → WalkM TypeEnv) (fuel : Nat) (env : TypeEnv)
    (f : Findings) : (w.settleLoop round (fuel + 1) env).run f =
      (w.joinedRound round env).run f >>= fun p =>
        if p.1 = env then .ok (env, p.2) else (w.settleLoop round fuel p.1).run p.2 := by
  rw [settleLoop]
  unfold joinedRound
  show ((round env).run f >>= fun p => _) = ((round env).run f >>= fun p => _) >>= _
  rw [bind_assoc]
  refine congrArg _ (funext fun p => ?_)
  cases w.mergeRound env p.1.entries with
  | error err => rfl
  | ok merged =>
    show (if merged = env then _ else _ : WalkM TypeEnv).run p.2 = (if merged = env then _ else _)
    split <;> rfl

/-- A loop goes on as its first round says. -/
theorem run_settleLoop_of_round {fuel : Nat} {merged : TypeEnv} {f₁ : Findings}
    (h : (w.joinedRound round env).run f = .ok (merged, f₁)) :
    (w.settleLoop round (fuel + 1) env).run f =
      if merged = env then .ok (env, f₁) else (w.settleLoop round fuel merged).run f₁ := by
  rw [run_settleLoop_succ, h]
  rfl

/-- More rounds are of no use to a loop that has not used up its own. -/
theorem settleLoop_more {fuel : Nat} (more : Nat)
    (h : ∀ err, (w.settleLoop round fuel env).run f = .error err → err.Final) :
    (w.settleLoop round (fuel + more) env).run f = (w.settleLoop round fuel env).run f := by
  induction fuel generalizing env f with
  | zero => exact (h _ rfl).elim
  | succ fuel ih =>
    rw [Nat.add_right_comm]
    cases hrun : (w.joinedRound round env).run f with
    | error err => rw [run_settleLoop_succ, run_settleLoop_succ, hrun]; rfl
    | ok p =>
      rw [run_settleLoop_of_round hrun] at h ⊢
      rw [run_settleLoop_of_round hrun]
      split
      · rfl
      · rename_i hne
        exact ih fun err he => h err ((if_neg hne).trans he)

/-- A loop that settles ends in what a number of rounds leave. -/
theorem settleLoop_rounds {fuel : Nat} (h : (w.settleLoop round fuel env).run f = .ok (settled, f')) :
    ∃ n f₁, (w.rounds round n env).run f = .ok (settled, f₁) := by
  induction fuel generalizing env f with
  | zero => exact absurd h run_throw_ne_ok
  | succ fuel ih =>
    rw [run_settleLoop_succ] at h
    obtain ⟨⟨merged, f₁⟩, hrun, h⟩ := bind_eq_ok.1 h
    split at h
    · obtain ⟨rfl, -⟩ := Prod.mk.inj (Except.ok.inj h)
      exact ⟨0, f, rfl⟩
    · obtain ⟨n, f₂, hn⟩ := ih h
      exact ⟨n + 1, f₂, (run_rounds_of_round n hrun).trans hn⟩

theorem settleLoop_error {fuel : Nat} {err : CompileError} (hfinal : err.Final)
    (h : (w.settleLoop round fuel env).run f = .error err) :
    ∃ n, (w.rounds round n env).run f = .error err := by
  induction fuel generalizing env f with
  | zero =>
    cases h
    exact hfinal.elim
  | succ fuel ih =>
    cases hrun : (w.joinedRound round env).run f with
    | error err' =>
      rw [run_settleLoop_succ, hrun] at h
      cases h
      refine ⟨1, ?_⟩
      rw [run_rounds_succ, hrun]
      rfl
    | ok p =>
      rw [run_settleLoop_of_round hrun] at h
      split at h
      · cases h
      · obtain ⟨n, hn⟩ := ih h
        exact ⟨n + 1, (run_rounds_of_round n hrun).trans hn⟩

variable (hw : w.types.WellFormed)
include hw

theorem Rests.covers {returns : StaticType} (h : w.Rests round returns settled) (n : Nat) :
    w.Covers round returns settled settled n := by
  intro g hg
  have hrounds : ∃ g₁, (w.rounds round n settled).run g = .ok (settled, g₁) ∧ g₁.returns = g.returns := by
    induction n generalizing g with
    | zero => exact ⟨g, rfl, rfl⟩
    | succ n ih =>
      obtain ⟨g₁, hrun, hr⟩ := h g hg
      obtain ⟨g₂, hrest, hr'⟩ := ih g₁ (hr.symm ▸ hg)
      exact ⟨g₂, (run_rounds_of_round n hrun).trans hrest, hr'.trans hr⟩
  obtain ⟨g₁, hrun, hr⟩ := hrounds
  obtain ⟨g₂, hlast, -⟩ := h g₁ (hr.symm ▸ hg)
  obtain ⟨after, hround, hm⟩ := run_joinedRound_eq_ok.1 hlast
  exact ⟨settled, g₁, after, g₂, hrun, .refl _, hround, (mergeRound_below hw hm).2⟩

/-- A loop that settles ends in a scope above the first one, which rests and covers all rounds. -/
theorem settleLoop_covers (hround : ∀ env, w.Repeats (round env)) {fuel : Nat}
    (h : (w.settleLoop round fuel env).run f = .ok (settled, f')) :
    env.Below w.types settled ∧ w.Rests round f'.returns settled ∧
      ∀ n, w.Covers round f'.returns settled env n := by
  induction fuel generalizing env f with
  | zero => exact absurd h run_throw_ne_ok
  | succ fuel ih =>
    rw [run_settleLoop_succ] at h
    obtain ⟨⟨merged, f₁⟩, hjoined, h⟩ := bind_eq_ok.1 h
    obtain ⟨after, hrun, hm⟩ := run_joinedRound_eq_ok.1 hjoined
    obtain ⟨-, hagain⟩ := hround env f after f₁ hrun
    split at h
    · -- the last round
      rename_i he
      obtain ⟨rfl, rfl⟩ := Prod.mk.inj (Except.ok.inj h)
      have hrests : w.Rests round f₁.returns env := fun g hg =>
        have ⟨g', hg', hr⟩ := hagain g hg
        ⟨g', run_joinedRound_eq_ok.2 ⟨after, hg', he ▸ hm⟩, hr⟩
      exact ⟨.refl _, hrests, hrests.covers hw⟩
    · obtain ⟨hbelow, hrests, hcovers⟩ := ih h
      obtain ⟨hup, hafter⟩ := mergeRound_below hw hm
      have hstart : env.Below w.types settled := hup.trans hw hbelow
      have hraised : f₁.returns.Below w.types f'.returns :=
        ((steps_repeat hw).settleLoop (C := fun _ x => w.Repeats x) hround fuel merged f₁ settled f' h).1
      refine ⟨hstart, hrests, fun n g hg => ?_⟩
      obtain ⟨g₁, hg₁, hr₁⟩ := hagain g (hraised.trans hw hg)
      cases n with
      | zero =>
        exact ⟨env, g, after, g₁, rfl, hstart, hg₁, hafter.trans hw hbelow⟩
      | succ n =>
        obtain ⟨reached, g₂, after', g₃, hrounds, hreached, hlast, hafter'⟩ :=
          hcovers n g₁ (hr₁.symm ▸ hg)
        have hfirst := run_rounds_of_round n (run_joinedRound_eq_ok.2 ⟨after, hg₁, hm⟩)
        exact ⟨reached, g₂, after', g₃, hfirst.trans hrounds, hreached, hlast, hafter'⟩

end Rounds

/-! ### The loop of a body -/

section Loops

variable {env settled : TypeEnv} {f f' : Findings} {body : Block}

def naming (ss : List StaticType) : Signature := ⟨"", ss.filterMap (·.known?)⟩

theorem over_naming {s : StaticType} {ss : List StaticType} (h : s ∈ ss) :
    s.Over (c.occurring (naming ss)) := by
  rintro id rfl
  exact List.mem_append_right _ (List.mem_filterMap.2 ⟨_, h, rfl⟩)

/-- A loop that fails does not fail for want of rounds. -/
theorem loopBody_final (hg : w.toTyping.Grounded) (henv : env.keys.Nodup) (body : Block) (f : Findings)
    {err : CompileError} (h : (w.loopBody body env).run f = .error err) : err.Final := by
  -- a root that names all types at hand, so that nothing occurs that does not occur in its inference
  obtain ⟨ss, hss⟩ : ∃ ss, ss =
    f.returns :: (env.entries.map Prod.snd ++ w.assumed.entries.map Prod.snd) := ⟨_, rfl⟩
  have hw : w.Grounded (naming ss) := ⟨hg, fun hs => over_naming (by
    simpa [hss] using .inr (.inr ⟨_, Assoc.mem_of_get? hs⟩))⟩
  have hover : env.Over (w.occurring (naming ss)) := ⟨henv, fun hs => over_naming (by
    simpa [hss] using .inr (.inl ⟨_, Assoc.mem_of_get? hs⟩))⟩
  have hfound : Findings.Over w.toTyping (naming ss) { f with discovered := [] } :=
    ⟨over_naming (by simp [hss]), by simp⟩
  have hwalks := loopBody_walks hw.typing.wellFormed (block_walks hw body) hover _ hfound
  have hsame : outcome ((w.loopBody body env).run f) =
      outcome ((w.loopBody body env).run { f with discovered := [] }) :=
    steps_indifferent.settleLoop (C := fun _ x => Indifferent x)
      (fun env => steps_indifferent.block body env) _ _ _ _ rfl
  rw [h] at hsame
  cases hrun : (w.loopBody body env).run { f with discovered := [] } with
  | error err' =>
    rw [hrun] at hsame
    cases hsame
    exact (hwalks.2 err hrun).final
  | ok p => rw [hrun] at hsame; cases hsame

end Loops

end Walker

/-! ### Values -/

/-- Some rounds of a loop, as many as it takes, lead from one scope of values to another. -/
def Interpreter.Rounds (i : Interpreter) (call : Ident → List Value → Answers Value) (body : Block) :
    Env → Env → Prop :=
  Relation.ReflTransGen fun venv venv' => ∃ fuel, i.block call fuel venv body (.ok (.next venv'))

/-- Where calls answer as a walk assumes, the values of variables stay within the types that a loop
settles on. -/
theorem Walker.Sound.loopBody {i : Interpreter} {call : Ident → List Value → Answers Value} {shown : Prop}
    (hw : w.Sound t i call) {body : Block} (htidy : Block.Tidy shown body) {env settled : TypeEnv}
    {f f' : Findings} (henv : EnvKnown env) (h : (w.loopBody body env).run f = .ok (settled, f'))
    (hf : f'.discovered = []) {venv venv' : Env} (hv : EnvHas t shown env venv)
    (hrounds : i.Rounds call body venv venv') : EnvHas t shown settled venv' := by
  obtain ⟨hwide, -, -, hflow⟩ := hw.loopBody_block (hw.block hf body htidy) henv h
    ((Findings.below_rising hw.fits).refl f')
  induction hrounds with
  | refl => exact hv.wider hwide
  | tail _ hstep ih =>
    obtain ⟨fuel, hstep⟩ := hstep
    exact hflow fuel _ _ ih hstep

/--
The loop of any body ends from any scope, whatever is assumed of calls and has been found before: it fails
only as some of its rounds do and never for want of them, and more of them change nothing. If it succeeds, it
ends in what some rounds leave: no variable has a lower type than before, one more round of the body changes
no type, and the types after any number of rounds are below those at the end. The values are of these types
after any number of rounds, if calls answer as the walk assumes.
-/
theorem Walker.loopBody_settles {e : Engine} (he : e.Reachable) (hc : e.typing = .ok w.toTyping)
    (body : Block) {env : TypeEnv} (henv : env.keys.Nodup) (f : Findings) :
    (∀ err, (w.loopBody body env).run f = .error err →
      err.Final ∧ ∃ n, (w.rounds (fun env => w.block env body) n env).run f = .error err) ∧
    (∀ more, (w.settleLoop (fun env => w.block env body) (loopRounds env body + more) env).run f =
      (w.loopBody body env).run f) ∧
    ∀ settled f', (w.loopBody body env).run f = .ok (settled, f') →
      (∃ n f₁, (w.rounds (fun env => w.block env body) n env).run f = .ok (settled, f₁)) ∧
      env.Below w.types settled ∧
      w.Rests (fun env => w.block env body) f'.returns settled ∧
      (∀ n, w.Covers (fun env => w.block env body) f'.returns settled env n) ∧
      ∀ t i call shown, w.Sound t i call → f'.discovered = [] → Block.Tidy shown body → EnvKnown env →
        ∀ venv venv', EnvHas t shown env venv → i.Rounds call body venv venv' →
          EnvHas t shown settled venv' := by
  have hg := he.wellFormed.grounded hc
  have hfinal : ∀ err, (w.loopBody body env).run f = .error err → err.Final := fun _ h =>
    loopBody_final hg henv body f h
  refine ⟨fun err h => ⟨hfinal err h, settleLoop_error (hfinal err h) h⟩,
    fun more => settleLoop_more more hfinal, fun settled f' h => ?_⟩
  have hbody : ∀ env, w.Repeats (w.block env body) := (steps_repeat hg.wellFormed).block body
  obtain ⟨hbelow, hrests, hcovers⟩ := settleLoop_covers hg.wellFormed hbody h
  refine ⟨settleLoop_rounds h, hbelow, hrests, hcovers, ?_⟩
  intro t i call shown hw hf htidy hknown venv venv' hv hrounds
  exact hw.loopBody htidy hknown h hf hv hrounds

/-! ### A tree that grows in a loop -/

namespace Catalog

def forestEngine : Engine := { Engine.default with types := forest }

/-- A walk in the surroundings of this engine. -/
def forestWalker : Walker :=
  { (⟨.empty, forest, 24, ⟨0⟩⟩ : Typing) with assumed := .empty, function := "grow", strict := false }

/-- Puts a tree below a node twice, and counts down. -/
def nesting : Block :=
  [.assign "tree" (.call "Node" [.var "tree", .var "tree"]), .assign "n" (minus (.var "n") 1)]

def nestingScope (tree : TypeId) : TypeEnv := ⟨[("n", .known ⟨0⟩), ("tree", .known tree)]⟩

/-- The tree is a leaf before the loop and may be a node after it, so it is only known to be a tree. -/
theorem loopBody_settles_nesting :
    forestEngine.Reachable ∧ forestEngine.typing = .ok forestWalker.toTyping ∧
    (nestingScope ⟨1⟩).keys.Nodup ∧
    (forestWalker.loopBody nesting (nestingScope ⟨1⟩)).run {} = .ok (nestingScope ⟨3⟩, {}) ∧
    (nestingScope ⟨1⟩).Below forest (nestingScope ⟨3⟩) ∧
    ∀ n, forestWalker.Covers (fun env => forestWalker.block env nesting) .unknown (nestingScope ⟨3⟩)
      (nestingScope ⟨1⟩) n := by
  have hreached : forestEngine.Reachable :=
    Engine.reached_default.declareTypes trivial forest_declared
  have htyping : forestEngine.typing = .ok forestWalker.toTyping :=
    Engine.typing_of_scalar (by with_unfolding_all rfl)
  have hnodup : (nestingScope ⟨1⟩).keys.Nodup := by decide
  have hrun : (forestWalker.loopBody nesting (nestingScope ⟨1⟩)).run {} = .ok (nestingScope ⟨3⟩, {}) := by
    with_unfolding_all rfl
  obtain ⟨-, -, h⟩ := Walker.loopBody_settles hreached htyping nesting hnodup {}
  obtain ⟨-, hbelow, -, hcovers, -⟩ := h _ _ hrun
  exact ⟨hreached, htyping, hnodup, hrun, hbelow, hcovers⟩

end Catalog

end ShapeCompiler
