import ShapeCompiler.Proofs.Inference
import ShapeCompiler.Proofs.Natives
import ShapeCompiler.Proofs.Typing.Progress

/-!
Programs that inference accepts do not go wrong in the reference interpreter, if it covers their loops.

Inference types the condition of a loop once, and takes a variable that a loop assigns for defined
behind it. Main statements: where each loop is covered nonetheless, an accepted program can only fail
in ways that its types do not rule out (`Typing.infer_progress`); where one is not, it can go wrong
(`Catalog.accepted_loop_fails`).
-/

namespace ShapeCompiler

open TypeTable

namespace Typing

variable {c : Typing} {w : World} {A : Assumptions} {sig : Signature} {counted : Bool}

/-- The walk over the body of a specialisation covers its loops. -/
def LoopsCovered (c : Typing) (A : Assumptions) (s : Signature) : Prop :=
  ∀ d strict, c.instance? s = .ok (d, strict) →
    Walker.LoopsCovered { c with assumed := A, function := s.function, strict }
      (Walker.params d s.args) d.body

/-- Calls whose arguments have passed the checks of inference fail in no way that the types rule
out. -/
structure Spares (c : Typing) (w : World) (A : Assumptions)
    (call : Ident → List Value → Answers Value) : Prop where
  constructor : ∀ {name id r ss vs err}, c.types.recordNamed? name = some (id, r) →
    r.fields.length = ss.length → c.checkFields r.name r.fields ss = .ok () →
    AllHave w.types ss vs → call name vs (.error err) → err.Tolerated
  native : ∀ {name n vs err}, c.types.recordNamed? name = none →
    c.functions.get? name = some (.native n) → vs.length = n.params.length →
    call name vs (.error err) → err.Tolerated
  function : ∀ {s st vs err}, c.types.recordNamed? s.function = none → A.get? s = some st →
    ArgsHave w.types s.args vs → call s.function vs (.error err) → err.Tolerated

variable (hd : c.Describes w) (hA : c.Settled A)
  (hloops : ∀ s, (A.get? s).isSome → c.LoopsCovered A s)
  (hnative : ∀ n args err, w.native n args (.error err) → err.Tolerated)
include hd hA hloops

/-- If calls can be trusted, a function fails on arguments of a signature only as its calls do. -/
theorem Spares.apply {C : Meaning} (ht : ∀ depth, c.Trusts w A (C depth))
    (hC : ∀ depth, c.Spares w A (C depth)) (hs : (A.get? sig).isSome) {f : Function}
    {d : FunctionDef} (hf : c.functions.get? sig.function = some f) (hfd : f.definition? = some d)
    {depth : Option Nat} {vs : List Value} {err : Error} (hvs : ArgsHave w.types sig.args vs)
    (h : w.apply counted C depth d vs (.error err)) : err.Tolerated := by
  obtain ⟨st, hst⟩ := Option.isSome_iff_exists.1 hs
  obtain ⟨-, s', hwalk, -⟩ := hA sig st hst
  obtain ⟨d', strict, F, hi, hr, hfound⟩ := walk_instance hwalk
  obtain ⟨f', hf', hfd'⟩ := instance?_eq_ok hi
  obtain rfl : f = f' := Option.some.inj (hf.symm.trans hf')
  obtain rfl : d = d' := Option.some.inj (hfd.symm.trans hfd')
  have htidy : Block.Tidy True d.body := by
    have := hd.tidy _ _ hf
    cases f with
    | decorated d => cases hfd; exact this
    | interpreted d => cases hfd; exact this
    | native n => cases hfd
  have hbody : ∀ {depth fuel}, w.interpreter.body (C depth) fuel d vs (.error err) → err.Tolerated := by
    intro depth fuel he
    have htolerant : Walker.Tolerant { c with assumed := A, function := sig.function, strict } w.types
        w.interpreter (C depth) :=
      { (ht depth).sound hd hA sig.function strict with
        constructor_error := (hC depth).constructor
        native_error := (hC depth).native
        function_error := (hC depth).function }
    exact htolerant.body htidy hr hfound.symm (hloops sig hs d strict hi) hvs he
  obtain ⟨hlen, -⟩ | h | ⟨k, fuel, h⟩ := World.apply_cases h
  · exact absurd (hvs.length_eq.symm.trans (Walker.returnType_ok hr).1.symm) hlen
  · cases h
    trivial
  · exact hbody h

include hnative

theorem Spares.step {C : Meaning} (ht : ∀ depth, c.Trusts w A (C depth))
    (hC : ∀ depth, c.Spares w A (C depth)) (depth : Option Nat) :
    c.Spares w A (w.step C depth) := by
  constructor
  · intro name id r ss vs err hr hlen hcheck hvs h
    unfold World.step at h
    simp only [hd.fits.grows.recordNamed? hd.fits.target hr] at h
    exact Error.tolerated_of_step (fun r' => hd.fits.construct_tolerated rfl
      (recordNamed?_eq_some.1 hr).2 hlen hcheck hvs) h
  · intro name n vs err hrec hf hlen h
    obtain ⟨hf', hrec'⟩ := hd.functions hf
    have hrec' := hrec' hrec
    unfold World.step at h
    simp only [hrec', hf', hlen, ne_eq, not_true, if_false] at h
    exact hnative n vs err h
  · intro s st vs err hrec hs hvs h
    obtain ⟨-, s', hwalk, -⟩ := hA s st hs
    obtain ⟨f, d, -, -, hf, hfd, -⟩ := walk_eq_ok hwalk
    obtain ⟨hf', hrec'⟩ := hd.functions hf
    have hrec' := hrec' hrec
    have hs : (A.get? s).isSome := by rw [hs]; rfl
    unfold World.step at h
    simp only [hrec', hf'] at h
    cases f with
    | decorated d => cases hfd; exact Spares.apply hd hA hloops ht hC hs hf rfl hvs h
    | interpreted d => cases hfd; exact Spares.apply hd hA hloops ht hC hs hf rfl hvs h
    | native n => cases hfd

/-- Calls spare what inference accepts. -/
theorem spares_calls (depth : Option Nat) : c.Spares w A (w.calls depth) := by
  have answer : ∀ {depth name vs y}, w.calls depth name vs y →
      c.Spares w A fun name' vs' y' => name' = name ∧ vs' = vs ∧ y' = y := by
    intro depth name vs y h
    induction h with
    | @intro C hC depth name vs y h ih =>
      have ht : ∀ depth, c.Trusts w A (C depth) := fun depth => (trusts_calls hd hA depth).of_le (hC depth)
      have hC' : ∀ depth, c.Spares w A (C depth) := fun depth =>
        ⟨fun hr hlen hcheck hvs h => (ih _ _ _ _ h).constructor hr hlen hcheck hvs ⟨rfl, rfl, rfl⟩,
          fun hr hf hlen h => (ih _ _ _ _ h).native hr hf hlen ⟨rfl, rfl, rfl⟩,
          fun hr hs hvs h => (ih _ _ _ _ h).function hr hs hvs ⟨rfl, rfl, rfl⟩⟩
      have hstep := Spares.step hd hA hloops hnative ht hC' depth
      constructor
      · rintro name' id r ss vs' err hr hlen hcheck hvs ⟨rfl, rfl, rfl⟩
        exact hstep.constructor hr hlen hcheck hvs h
      · rintro name' n vs' err hr hf hlen ⟨rfl, rfl, rfl⟩
        exact hstep.native hr hf hlen h
      · rintro s st vs' err hr hs hvs ⟨rfl, rfl, rfl⟩
        exact hstep.function hr hs hvs h
  exact ⟨fun hr hlen hcheck hvs h => (answer h).constructor hr hlen hcheck hvs ⟨rfl, rfl, rfl⟩,
    fun hr hf hlen h => (answer h).native hr hf hlen ⟨rfl, rfl, rfl⟩,
    fun hr hs hvs h => (answer h).function hr hs hvs ⟨rfl, rfl, rfl⟩⟩

/-- A function fails on arguments of a signature in no way that the types rule out. -/
theorem Describes.apply_error (hs : (A.get? sig).isSome) {f : Function} {d : FunctionDef}
    (hf : c.functions.get? sig.function = some f) (hfd : f.definition? = some d)
    {depth : Option Nat} {vs : List Value} {err : Error} (hvs : ArgsHave w.types sig.args vs)
    (h : w.apply counted w.calls depth d vs (.error err)) : err.Tolerated :=
  Spares.apply hd hA hloops (trusts_calls hd hA) (spares_calls hd hA hloops hnative) hs hf hfd hvs h

end Typing

/-! ### Engines -/

/-- What native functions can answer whatever they do: values of the type that they declare, and
failures of their own. -/
def Native.behaved (t : TypeTable) (n : Native) (args : List Value) : Answers Value :=
  fun y => Native.declared t n args y ∧ ∀ err, y = .error err → err.Tolerated

theorem Engine.WellFormed.nativesIn_behaved {e : Engine} (h : e.WellFormed) :
    (e.world (Native.behaved e.types)).NativesIn := by
  intro fuel n name args e₁ y e' he hf hlen hr
  refine ⟨h.nativesIn_declared ⟨he.functions, he.types, he.grows, he.limit, he.bits⟩ hf hlen hr, ?_⟩
  rintro err rfl
  cases fuel with
  | zero => cases hr
  | succ fuel =>
    rw [Engine.run_callNative fuel hlen] at hr
    rcases (n.run args).run_perform e₁ with ⟨halt, hp⟩ | ⟨result, e₂, hp⟩
    · rw [hp] at hr
      cases hr
    · rw [hp] at hr
      obtain ⟨hy, -⟩ := Prod.mk.inj (Except.ok.inj hr)
      obtain ⟨message, rfl⟩ := Native.settle_error hy
      trivial

namespace Typing

/-- Programs that inference accepts do not go wrong: if the walks of the inferred signatures cover their
loops, evaluation of such a signature on arguments that inhabit it never meets an undefined variable,
an undefined function or a wrong number of arguments, and where a value does not fit, this is the
sentinel. -/
theorem infer_progress {e : Engine} (he : e.Reachable) (hclean : e.functions.Clean) {c : Typing}
    (hc : e.typing = .ok c) {order : VisitOrder} (ho : order.Complete) {root : Signature}
    {T : ReturnTypes} (hT : c.infer order root = .ok T)
    (hloops : ∀ s, (T.get? s).isSome → c.LoopsCovered (assumptionsOf T) s) :
    ∀ s r, T.get? s = some r → ∃ f d, e.functions.get? s.function = some f ∧ f.definition? = some d ∧
      ∀ fuel args err e', ArgumentsInhabit e.types s.args args →
        e.run (do
          let i ← Run.interpreter .reference
          Run.interpret fuel i d args) = .ok (.error err, e') → err.Tolerated := by
  intro s r hs
  have hw := he.wellFormed
  have hserves := hw.typing_serves hc
  obtain ⟨hset, -⟩ := infer_settled hserves.fits.wellFormed ho hT
  have get?_of : ∀ s, ((assumptionsOf T).get? s).isSome → (T.get? s).isSome := by
    intro s hs
    rw [get?_assumptionsOf] at hs
    simpa using hs
  have hA : ((assumptionsOf T).get? s).isSome := by
    rw [get?_assumptionsOf, hs]
    rfl
  obtain ⟨st, hst⟩ := Option.isSome_iff_exists.1 hA
  obtain ⟨-, s', hwalk, -⟩ := hset s st hst
  obtain ⟨f, d, -, -, hf, hfd, -⟩ := walk_eq_ok hwalk
  refine ⟨f, d, (hserves.functions hf).1, hfd, fun fuel args err e' hargs hrun => ?_⟩
  have hanswer : (e.world (Native.behaved e.types)).apply true
      (e.world (Native.behaved e.types)).calls _ d args (.error err) :=
    ((World.interpret_answers hw.nativesIn_behaved rfl fuel).1 e.activations.alive d args e hw.hosts rfl
      (.error err) e' hrun).2.1
  exact Describes.apply_error (hserves.describes hclean fun _ _ _ h => h.1) hset
    (fun s hs => hloops s (get?_of s hs)) (fun _ _ err h => h.2 err rfl) hA hf hfd
    (argsHave_of_inhabit hw.types hargs) hanswer

end Typing

/-! ### A loop that is covered, and one that is not -/

namespace Catalog

/-- Counts down with a host function. -/
def launch : FunctionDef := ⟨"launch", ["n"], returning (.call "countdown" [.var "n"])⟩

/-- Counts its argument down to zero. -/
def countdown : FunctionDef :=
  ⟨"countdown", ["n"], [.loop (.var "n") [.assign "n" (minus (.var "n") 1)], .ret (.var "n")]⟩

/-- Counts its argument down too, but yields a variable that it has set on the way. -/
def lastSeen : FunctionDef :=
  ⟨"countdown", ["n"],
    [.loop (.var "n") [.assign "seen" (.var "n"), .assign "n" (minus (.var "n") 1)], .ret (.var "seen")]⟩

/-- The default engine with a function that counts down by this host function. -/
def launchEngine (host : FunctionDef) : Engine :=
  (Engine.default.withFunction launch.name (.decorated launch)).withFunction host.name (.interpreted host)

/-- The surroundings in which this engine compiles. -/
def launchTyping (host : FunctionDef) : Typing :=
  ⟨(launchEngine host).functions, (launchEngine host).types, 24, ⟨0⟩⟩

/-- What inference finds from the decorated function: both yield a number of 24 bits. -/
def launchReturns : ReturnTypes :=
  ⟨[(⟨"launch", [⟨0⟩]⟩, some ⟨0⟩), (⟨"countdown", [⟨0⟩]⟩, some ⟨0⟩)]⟩

theorem launchEngine_reachable {host : FunctionDef}
    (h : (Engine.default.withFunction launch.name (.decorated launch)).types.lookup host.name = none) :
    (launchEngine host).Reachable :=
  (Engine.reached_default.decorate launch trivial (by with_unfolding_all rfl)).define host trivial h

theorem launchEngine_clean {host : FunctionDef} (h : Block.Clean host.body) :
    (launchEngine host).functions.Clean := by
  have hlaunch : (Function.decorated launch).Clean := by
    simp [launch, returning, Function.Clean, Block.Clean, Expr.Clean, Expr.AllClean, placeholder]
  exact (Functions.clean_empty.insert hlaunch _).insert (f := .interpreted host) h _

theorem typing_launchEngine (host : FunctionDef) :
    (launchEngine host).typing = .ok (launchTyping host) :=
  Engine.typing_of_scalar (by with_unfolding_all rfl)

theorem infer_launch :
    (launchTyping countdown).infer .calleesFirst ⟨"launch", [⟨0⟩]⟩ = .ok launchReturns := by
  with_unfolding_all rfl

/-- A walk of these surroundings. -/
def launchWalker (host : FunctionDef) : Walker :=
  { launchTyping host with
    assumed := Typing.assumptionsOf launchReturns, function := "countdown", strict := false }

/-- The loop settles at once, since counting down leaves the type of the variable alone. -/
theorem countdown_loops :
    (launchWalker countdown).LoopsCovered (Walker.params countdown [⟨0⟩]) countdown.body := by
  rw [show countdown.body = [.loop (.var "n") [.assign "n" (minus (.var "n") 1)], .ret (.var "n")] from rfl,
    Walker.LoopsCovered]
  intro f settled f' h
  have hsettle : ((launchWalker countdown).settleLoop
      (fun env => (launchWalker countdown).block env [.assign "n" (minus (.var "n") 1)])
      (Walker.loopRounds (Walker.params countdown [⟨0⟩]) [.assign "n" (minus (.var "n") 1)])
      (Walker.params countdown [⟨0⟩])).run f = .ok (Walker.params countdown [⟨0⟩], f) := by
    with_unfolding_all rfl
  cases hsettle.symm.trans h
  refine ⟨⟨fun _ h => h, ?_⟩, .of_loopFree ?_ _, .of_loopFree ?_ _⟩
  · exact ⟨.known ⟨0⟩, {}, by with_unfolding_all rfl, rfl, .inr ⟨⟨0⟩, rfl, by with_unfolding_all rfl⟩⟩
  · simp [Block.LoopFree]
  · simp [Block.LoopFree]

theorem countdown_covered (s : Signature) (h : (launchReturns.get? s).isSome) :
    (launchTyping countdown).LoopsCovered (Typing.assumptionsOf launchReturns) s := by
  have hs : s = ⟨"launch", [⟨0⟩]⟩ ∨ s = ⟨"countdown", [⟨0⟩]⟩ := by
    have := Assoc.mem_keys_iff.2 h
    simpa [launchReturns, Assoc.keys] using this
  rcases hs with rfl | rfl
  · intro d strict hd
    obtain ⟨rfl, rfl⟩ : launch = d ∧ true = strict := by
      have : (launchTyping countdown).instance? ⟨"launch", [⟨0⟩]⟩ = .ok (launch, true) := by
        with_unfolding_all rfl
      exact Prod.mk.inj (Except.ok.inj (this.symm.trans hd))
    exact .of_loopFree (by simp [launch, returning, Block.LoopFree]) _
  · intro d strict hd
    obtain ⟨rfl, rfl⟩ : countdown = d ∧ false = strict := by
      have : (launchTyping countdown).instance? ⟨"countdown", [⟨0⟩]⟩ = .ok (countdown, false) := by
        with_unfolding_all rfl
      exact Prod.mk.inj (Except.ok.inj (this.symm.trans hd))
    exact countdown_loops

/-- Counting down fails in no way that the types rule out. -/
theorem infer_progress_launch :
    ∃ f d, (launchEngine countdown).functions.get? "countdown" = some f ∧ f.definition? = some d ∧
      ∀ fuel args err e', Typing.ArgumentsInhabit (launchEngine countdown).types [⟨0⟩] args →
        (launchEngine countdown).run (do
          let i ← Run.interpreter .reference
          Run.interpret fuel i d args) = .ok (.error err, e') → err.Tolerated :=
  Typing.infer_progress (launchEngine_reachable (by with_unfolding_all rfl))
    (launchEngine_clean (by simp [countdown, minus, Block.Clean, Expr.Clean, placeholder]))
    (typing_launchEngine countdown) VisitOrder.complete_calleesFirst infer_launch countdown_covered
    ⟨"countdown", [⟨0⟩]⟩ (some ⟨0⟩) (by with_unfolding_all rfl)

/-- Inference accepts a loop that is the first to assign a variable, and evaluation does not find the
variable where the loop makes no round. -/
theorem accepted_loop_fails :
    (launchEngine lastSeen).Reachable ∧ (launchEngine lastSeen).functions.Clean ∧
    (launchEngine lastSeen).typing = .ok (launchTyping lastSeen) ∧
    (launchTyping lastSeen).infer .calleesFirst ⟨"launch", [⟨0⟩]⟩ = .ok launchReturns ∧
    Typing.ArgumentsInhabit (launchEngine lastSeen).types [⟨0⟩] [.uint (.wrap 24 0)] ∧
    ∃ e', (launchEngine lastSeen).run (do
      let i ← Run.interpreter .reference
      Run.interpret 5 i lastSeen [.uint (.wrap 24 0)]) =
        .ok (.error (.runtime (.undefinedVariable "seen")), e') :=
  ⟨launchEngine_reachable (by with_unfolding_all rfl),
    launchEngine_clean (by simp [lastSeen, minus, Block.Clean, Expr.Clean, placeholder]),
    typing_launchEngine lastSeen, by with_unfolding_all rfl,
    .cons (.inr (.uint (by with_unfolding_all rfl))) .nil, _, by with_unfolding_all rfl⟩

end Catalog

end ShapeCompiler
