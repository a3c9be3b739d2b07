import ShapeCompiler.Proofs.Typing.Occurrence

/-!
Inference always ends.

A loop has finitely many variables, and a root has finitely many specialisations to find
(`Typing.Explores.size_le`). A round of a loop that changes anything raises the type of a variable or
brings one into scope, and a pass that changes anything raises a return type or adds a specialisation.

Main statements: the bounds on passes and on rounds are never reached (`Typing.infer_ofTyping`), and what
inference knows in the end is the root and signatures that a program can have (`Typing.infer_possible`).
-/

namespace ShapeCompiler

open TypeTable

variable {c : Typing} {root : Signature} {s : StaticType} {ids : List TypeId}

/-! ### Loops -/

/-- The variables that a block can add to its scope. -/
def Stmt.assigned : List Stmt → List Ident
  | [] => []
  | .assign name _ :: rest => name :: assigned rest
  | .ret _ :: _ => []
  | .eval _ :: rest => assigned rest
  | .branch _ _ :: rest => assigned rest
  | .loop _ body :: rest => assigned body ++ assigned rest
termination_by stmts => sizeOf stmts

theorem Stmt.length_assigned (stmts : List Stmt) : (assigned stmts).length ≤ assignments stmts := by
  induction stmts using Block.ind with
  | nil => simp [assigned]
  | assign name value rest ih =>
    rw [assigned, assignments, List.length_cons]
    omega
  | ret value rest => simp [assigned]
  | eval value rest ih => simpa [assigned, assignments] using ih
  | branch subject arms rest _ ih => simpa [assigned, assignments] using ih
  | loop condition body rest ihb ih =>
    rw [assigned, assignments, List.length_append]
    omega

namespace Walker

variable {w : Walker}

theorem mergeRound_yields (hw : w.types.WellFormed) {entries : List (Ident × StaticType)}
    (he : ∀ p ∈ entries, p.2.Over (w.occurring root)) :
    ∀ before : TypeEnv, before.Over (w.occurring root) →
      Yields (fun merged => merged.Over (w.occurring root) ∧
        (∀ x ∈ merged.keys, x ∈ before.keys ∨ x ∈ entries.map Prod.fst) ∧
        (merged = before ∨ w.weight before < w.weight merged)) (w.mergeRound before entries) := by
  induction entries with
  | nil => exact fun before hb => .pure ⟨hb, fun x hx => .inl hx, .inl rfl⟩
  | cons p rest ih =>
    obtain ⟨name, s⟩ := p
    have hs := he _ List.mem_cons_self
    have ih := ih fun q hq => he q (List.mem_cons_of_mem _ hq)
    intro before hb
    -- the rest of the round, once the variable has its type and that has not lowered the weight
    have hrest : ∀ joined : StaticType, joined.Over (w.occurring root) →
        (Assoc.insert before name joined = before ∨
          w.weight before < w.weight (Assoc.insert before name joined)) →
        Yields (fun merged => merged.Over (w.occurring root) ∧
          (∀ x ∈ merged.keys, x ∈ before.keys ∨ x ∈ ((name, s) :: rest).map Prod.fst) ∧
          (merged = before ∨ w.weight before < w.weight merged))
          (w.mergeRound (Assoc.insert before name joined) rest) := by
      intro joined hj hweight
      refine (ih _ (hb.insert hj name)).weaken fun merged ⟨hover, hkeys, hm⟩ =>
        ⟨hover, fun x hx => ?_, ?_⟩
      · rcases hkeys x hx with hx | hx
        · rw [Assoc.keys_insert] at hx
          split at hx
          · exact .inl hx
          · rcases List.mem_append.1 hx with hx | hx
            · exact .inl hx
            · exact .inr (by rw [List.mem_singleton.1 hx]; exact List.mem_cons_self)
        · exact .inr (List.mem_cons_of_mem _ hx)
      · rcases hweight with he | hlt
        · rwa [he] at hm
        · rcases hm with rfl | hlt'
          · exact .inr hlt
          · exact .inr (Nat.lt_trans hlt hlt')
    rw [mergeRound]
    split
    · rename_i old hold
      have hjoin := Typing.join_yields hw (hb.types hold) hs
      refine Yields.bind (Q := fun joined => joined.Over (w.occurring root) ∧
        w.join old s = .ok joined) ⟨fun joined h => ⟨hjoin.1 joined h, h⟩, hjoin.2⟩ ?_
      rintro joined ⟨hj, hjoined⟩
      refine hrest joined hj ?_
      by_cases hsame : joined = old
      · exact .inl (Assoc.insert_of_get? (hsame ▸ hold))
      · refine .inr (Typing.weight_insert_lt hw ?_ (.inr ?_)) <;> rw [hold, Option.getD_some]
        · exact Typing.join_above hjoined
        · exact hsame
    · rename_i hnone
      refine hrest s hs (.inr (Typing.weight_insert_lt hw ?_ (.inl hnone)))
      rw [hnone]
      exact .unknown s

/-- A scope whose types are among given ones weighs no more than its variables allow. -/
theorem weight_le_names {env : TypeEnv} (henv : env.Over ids) {names : List Ident}
    (hnames : env.keys ⊆ names) : c.weight env ≤ Typing.passesPerInstance * names.length := by
  have hle := (henv.nodup.subperm hnames).length_le
  rw [Assoc.keys, List.length_map] at hle
  exact Nat.le_trans (Typing.weight_le_size env) (Nat.mul_le_mul_left _ hle)

theorem settleLoop_walks (hw : w.types.WellFormed) {round : TypeEnv → WalkM TypeEnv}
    {names : List Ident}
    (hround : ∀ env : TypeEnv, env.Over (w.occurring root) → env.keys ⊆ names →
      Walks w.toTyping root (fun after : TypeEnv => after.Over (w.occurring root) ∧ after.keys ⊆ names)
        (round env)) :
    ∀ fuel (env : TypeEnv), env.Over (w.occurring root) → env.keys ⊆ names →
      Typing.passesPerInstance * names.length < fuel + w.weight env →
      Walks w.toTyping root (fun after : TypeEnv => after.Over (w.occurring root) ∧ after.keys ⊆ names)
        (w.settleLoop round fuel env) := by
  intro fuel
  induction fuel with
  | zero =>
    intro env henv hnames hfuel
    have := weight_le_names (c := w.toTyping) henv hnames
    omega
  | succ fuel ih =>
    intro env henv hnames hfuel
    rw [settleLoop]
    refine (hround env henv hnames).bind fun after hafter => ?_
    have hentries : ∀ p ∈ after.entries, p.2.Over (w.occurring root) := fun p hp =>
      hafter.1.types (Assoc.get?_of_mem hafter.1.nodup hp)
    refine (Walks.lift (mergeRound_yields hw hentries env henv)).bind fun merged hm => ?_
    obtain ⟨hover, hkeys, hweight⟩ := hm
    split
    · exact .pure ⟨henv, hnames⟩
    · rename_i hne
      have hlt := hweight.resolve_left hne
      refine ih merged hover (fun x hx => ?_) (by omega)
      rcases hkeys x hx with hx | hx
      · exact hnames hx
      · exact hafter.2 hx

/-! ### Blocks -/

section Blocks

variable (hw : w.Grounded root)
include hw

/-- The block can be walked in every scope of types that can occur, and adds no variables to it but
those that it assigns. -/
abbrev BlockWalks (w : Walker) (root : Signature) (stmts : List Stmt) : Prop :=
  ∀ env : TypeEnv, env.Over (w.occurring root) →
    Walks w.toTyping root (fun after : TypeEnv => after.Over (w.occurring root) ∧
      after.keys ⊆ env.keys ++ Stmt.assigned stmts) (w.block env stmts)

theorem blockArms_walks {env : TypeEnv} (henv : env.Over (w.occurring root)) {subject : StaticType}
    (hs : subject.Over (w.occurring root)) {reachable : List Nat} {index : Nat}
    {arms : List (Arm (List Stmt))} (ih : ∀ a ∈ arms, BlockWalks w root a.body) :
    Walks w.toTyping root (fun _ => True) (w.blockArms env subject reachable index arms) := by
  induction arms generalizing index with
  | nil => rw [blockArms]; exact .pure trivial
  | cons a rest ihs =>
    have ihr : ∀ x ∈ rest, BlockWalks w root x.body := fun x hx => ih x (List.mem_cons_of_mem _ hx)
    rw [blockArms]
    refine Walks.bind (Q := fun _ => True) ?_ fun _ _ => ihs ihr
    split
    · exact (ih a (by simp) _ (henv.bind (Typing.binders_over hw.typing _ hs))).weaken
        fun _ _ => trivial
    · exact .pure trivial

omit hw in
/-- A loop whose body can be walked settles within the rounds that it is given. -/
theorem loopBody_walks (hw : w.types.WellFormed) {body : Block} (hbody : BlockWalks w root body)
    {env : TypeEnv} (henv : env.Over (w.occurring root)) :
    Walks w.toTyping root (fun settled : TypeEnv => settled.Over (w.occurring root) ∧
      settled.keys ⊆ env.keys ++ Stmt.assigned body) (w.loopBody body env) := by
  -- the variables that are in scope before the loop, and those that its body can add
  have hrounds : Typing.passesPerInstance * (env.keys ++ Stmt.assigned body).length <
      loopRounds env body + w.weight env := by
    have := Stmt.length_assigned body
    rw [List.length_append, Assoc.keys, List.length_map]
    unfold loopRounds Typing.passesPerInstance Assoc.size
    omega
  refine settleLoop_walks hw (fun env' henv' hkeys => ?_) (loopRounds env body) env henv
    (List.subset_append_left _ _) hrounds
  exact (hbody env' henv').weaken fun after h => ⟨h.1, fun x hx =>
    (List.mem_append.1 (h.2 hx)).elim (hkeys ·) (List.mem_append_right _ ·)⟩

theorem block_walks (stmts : List Stmt) : BlockWalks w root stmts := by
  have hexpr := expr_walks hw
  induction stmts using Block.ind with
  | nil => intro env henv; rw [block]; exact .pure ⟨henv, by simp⟩
  | assign name value rest ih =>
    intro env henv
    rw [block]
    refine (hexpr value env henv).bind fun s hs =>
      (ih _ (henv.insert hs name)).weaken fun after h => ⟨h.1, fun x hx => ?_⟩
    rw [Stmt.assigned]
    rcases List.mem_append.1 (h.2 hx) with hx | hx
    · rw [Assoc.keys_insert] at hx
      split at hx
      · simp [hx]
      · rcases List.mem_append.1 hx with hx | hx
        · simp [hx]
        · simp [List.mem_singleton.1 hx]
    · simp [hx]
  | ret value rest =>
    intro env henv
    rw [block]
    exact (hexpr value env henv).bind fun s hs => Walks.get.bind fun F hF =>
      (Walks.lift (Typing.join_yields hw.typing.wellFormed hF.returns hs)).bind fun joined hj =>
        (Walks.set (f := { F with returns := joined }) ⟨hj, hF.discovered⟩).bind fun _ _ =>
          .pure ⟨henv, by simp⟩
  | eval value rest ih =>
    intro env henv
    rw [block, Stmt.assigned]
    exact (hexpr value env henv).bind fun _ _ => ih env henv
  | branch subject arms rest iha ih =>
    intro env henv
    rw [block, Stmt.assigned]
    exact (hexpr subject env henv).bind fun s hs => (Walks.lift (Typing.plan_yields _ _ _)).bind
      fun plan _ => (blockArms_walks hw henv hs iha).bind fun _ _ => ih env henv
  | loop condition body rest ihb ih =>
    intro env henv
    have hloop := loopBody_walks hw.typing.wellFormed ihb henv
    have hrest : Walks w.toTyping root (fun after : TypeEnv => after.Over (w.occurring root) ∧
        after.keys ⊆ env.keys ++ Stmt.assigned (.loop condition body :: rest)) (do
          let _ ← w.expr env condition
          let env ← w.loopBody body env
          w.block env rest) := by
      refine (hexpr condition env henv).bind fun _ _ => hloop.bind fun settled hs =>
        (ih settled hs.1).weaken fun after h => ⟨h.1, fun x hx => ?_⟩
      rw [Stmt.assigned, ← List.append_assoc]
      exact (List.mem_append.1 (h.2 hx)).elim
        (fun hx => List.mem_append_left _ (hs.2 hx)) (List.mem_append_right _ ·)
    rw [block_loop]
    split
    · exact Walks.bind (Q := fun _ => False) (.throw trivial) fun _ h => h.elim
    · exact hrest

theorem returnType_walks (d : FunctionDef) {args : List TypeId}
    (hargs : ∀ id ∈ args, id ∈ w.occurring root) :
    Walks w.toTyping root (·.Over (w.occurring root)) (w.returnType d args) := by
  have hparams : TypeEnv.Over (w.occurring root) (params d args) := by
    refine TypeEnv.Over.empty.insertAll fun p hp => ?_
    obtain ⟨id, hid, he⟩ := List.mem_map.1 (List.of_mem_zip hp).2
    rw [← he]
    exact StaticType.over_known.2 (hargs id hid)
  unfold returnType
  split
  · exact Walks.bind (Q := fun _ => False) (.throw trivial) fun _ h => h.elim
  · exact (block_walks hw d.body _ hparams).bind fun _ _ => Walks.get.bind fun F hF =>
      .lift (Typing.join_yields hw.typing.wellFormed hF.returns StaticType.over_incomplete)

end Blocks

end Walker

namespace Typing

variable {P : Assumptions} {sig : Signature} {l : List Signature}

/-! ### Passes -/

/-- A specialisation that the inference of a root can come to know. -/
def Possible (c : Typing) (root x : Signature) : Prop := x = root ∨ x ∈ c.signatures root

/-- Assumptions that the inference of a root can come to make. -/
structure Explores (c : Typing) (root : Signature) (P : Assumptions) : Prop where
  possible : ∀ x ∈ P.keys, c.Possible root x
  types : ∀ {x s}, P.get? x = some s → s.Over (c.occurring root)

theorem Possible.args (h : c.Possible root sig) : ∀ id ∈ sig.args, id ∈ c.occurring root := by
  rcases h with rfl | h
  · exact fun id hid => List.mem_append_right _ hid
  · exact mem_occurring_of_signatures h

theorem Explores.insert (h : c.Explores root P) (hsig : c.Possible root sig)
    (hs : s.Over (c.occurring root)) : c.Explores root (P.insert sig s) := by
  constructor
  · intro x hx
    rw [Assoc.keys_insert] at hx
    split at hx
    · exact h.possible x hx
    · rcases List.mem_append.1 hx with hx | hx
      · exact h.possible x hx
      · rwa [List.mem_singleton.1 hx]
  · intro x s' hx
    rw [Assoc.get?_insert] at hx
    split at hx
    · cases hx
      exact hs
    · exact h.types hx

/-- Inference begins with the root alone, of which nothing is known. -/
theorem Explores.start (c : Typing) (root : Signature) :
    c.Explores root (Assoc.empty.insert root .unknown) := by
  have hempty : c.Explores root Assoc.empty := ⟨fun _ hx => (nomatch hx), fun hx => (nomatch hx)⟩
  exact hempty.insert (.inl rfl) StaticType.over_unknown

theorem Explores.assumption (h : c.Explores root P) (x : Signature) :
    (assumption P x).Over (c.occurring root) := by
  unfold Typing.assumption
  cases hx : P.get? x with
  | none => exact StaticType.over_unknown
  | some s => exact h.types hx

theorem Explores.assumeNothing (h : c.Explores root P) (hl : ∀ x ∈ l, x ∈ c.signatures root) :
    c.Explores root (assumeNothing P l) := by
  induction l generalizing P with
  | nil => exact h
  | cons x rest ih =>
    have hrest : ∀ y ∈ rest, y ∈ c.signatures root := fun y hy => hl y (List.mem_cons_of_mem _ hy)
    rw [assumeNothing_cons]
    split
    · exact ih h hrest
    · exact ih (h.insert (.inr (hl x (by simp))) StaticType.over_unknown) hrest

/-- There are never more specialisations known than the bound allows for. -/
theorem Explores.size_le (h : c.Explores root P) (hn : P.keys.Nodup) :
    P.size ≤ c.instanceBound root := by
  have hsub : P.keys ⊆ root :: c.signatures root := fun x hx =>
    (h.possible x hx).elim (fun he => he ▸ List.mem_cons_self) (List.mem_cons_of_mem _ ·)
  have hle := (hn.subperm hsub).length_le
  rw [Assoc.keys, List.length_map, List.length_cons] at hle
  exact Nat.le_trans hle (length_signatures root)

section Grounded

variable (hg : c.Grounded)
include hg

theorem walk_yields (hP : c.Explores root P) (hsig : c.Possible root sig) :
    Yields (fun p => p.1.Over (c.occurring root) ∧ ∀ x ∈ p.2, x ∈ c.signatures root)
      (c.walk P sig) := by
  unfold walk instance?
  refine Yields.bind (Q := fun _ => True) ?_ fun p _ => ?_
  · split
    · exact .pure trivial
    · exact .pure trivial
    · exact .throw trivial
  · obtain ⟨d, strict⟩ := p
    have hw : Walker.Grounded { c with assumed := P, function := sig.function, strict } root :=
      ⟨hg, hP.types⟩
    refine (Walker.returnType_walks hw d hsig.args {} ⟨StaticType.over_unknown, by simp⟩).bind
      fun q hq => ?_
    exact .pure ⟨hq.1, hq.2.discovered⟩

theorem visit_yields (hP : c.Explores root P) (hl : ∀ x ∈ l, c.Possible root x) :
    Yields (fun p => c.Explores root p.1 ∧ ∀ x ∈ p.2, x ∈ c.signatures root) (c.visit P l) := by
  induction l generalizing P with
  | nil => exact .pure ⟨hP, by simp⟩
  | cons sig rest ih =>
    have hsig := hl sig (by simp)
    rw [visit]
    refine (walk_yields hg hP hsig).bind fun p hp => ?_
    obtain ⟨s, found⟩ := p
    refine (join_yields hg.wellFormed (hP.assumption sig) hp.1).bind fun joined hj => ?_
    have hnext : c.Explores root (if joined = assumption P sig then P else P.insert sig joined) := by
      split
      · exact hP
      · exact hP.insert hsig hj
    refine (ih hnext fun x hx => hl x (List.mem_cons_of_mem _ hx)).bind fun q hq => ?_
    exact .pure ⟨hq.1, fun x hx => (List.mem_append.1 hx).elim (hp.2 x) (hq.2 x)⟩

theorem pass_yields {order : List Signature → List Signature} (ho : ∀ l s, s ∈ order l ↔ s ∈ l)
    (hP : c.Explores root P) : Yields (c.Explores root) (c.pass order P) := by
  unfold pass
  refine (visit_yields hg hP fun x hx => hP.possible x ((ho _ _).1 hx)).bind fun p hp => ?_
  exact .pure (hp.1.assumeNothing hp.2)

/-- Passes settle before they are used up. -/
theorem settle_ofTyping {order : VisitOrder} (ho : order.Complete) {fuel passes : Nat}
    (hP : c.Explores root P) (hn : P.keys.Nodup) (hweight : passes < c.weight P)
    (hfuel : passesPerInstance * c.instanceBound root < fuel + passes) {err : CompileError}
    (h : c.settle order root.function fuel passes P = .error err) : err.OfTyping := by
  have hsize := weight_le_size (c := c) P
  induction fuel generalizing P passes with
  | zero =>
    have := hP.size_le hn
    unfold passesPerInstance at *
    omega
  | succ fuel ih =>
    rw [settle, if_pos (by omega : passes ≤ passesPerInstance * P.size)] at h
    obtain ⟨hnext, hfinal⟩ := pass_yields hg (ho passes) hP
    cases hpass : c.pass (order passes) P with
    | error err' =>
      rw [hpass] at h
      cases h
      exact hfinal _ hpass
    | ok next =>
      rw [hpass] at h
      change (if next = P then _ else _) = _ at h
      split at h
      · cases h
      · rename_i hne
        have hlt := (pass_weight hg.wellFormed hpass).resolve_left hne
        exact ih (hnext next hpass) (pass_nodup hn hpass) (by omega) (by omega) h
          (weight_le_size next)

theorem infer_ofTyping {order : VisitOrder} (ho : order.Complete) {err : CompileError}
    (h : c.infer order root = .error err) : err.OfTyping := by
  refine settle_ofTyping hg ho (.start c root) (List.nodup_singleton root) ?_ (by omega) h
  show 0 < WorkList.weigh _ [(root, StaticType.unknown)]
  simp [StaticType.rank]

/-- What is known when the passes settle can be known in the inference of the root. -/
theorem settle_possible {order : VisitOrder} (ho : order.Complete) {name : Ident} {fuel passes : Nat}
    (hP : c.Explores root P) {T : ReturnTypes} (h : c.settle order name fuel passes P = .ok T)
    (hsig : (T.get? sig).isSome) : c.Possible root sig := by
  induction fuel generalizing passes P with
  | zero => cases h
  | succ fuel ih =>
    rw [settle] at h
    split at h
    · obtain ⟨next, hpass, h⟩ := bind_eq_ok.1 h
      split at h
      · cases h
        refine hP.possible sig ?_
        have hkeys := Assoc.mem_keys_iff.2 hsig
        rwa [Assoc.keys, List.map_map] at hkeys
      · exact ih ((pass_yields hg (ho passes) hP).1 next hpass) h
    · cases h

/-- What is known when inference ends is the root or a signature that the program can have. -/
theorem infer_possible {order : VisitOrder} (ho : order.Complete) {T : ReturnTypes}
    (h : c.infer order root = .ok T) (hsig : (T.get? sig).isSome) : c.Possible root sig := by
  exact settle_possible hg ho (.start c root) h hsig

/-- The types in a signature that inference knows in the end are registered if those of the root are. -/
theorem infer_registered {order : VisitOrder} (ho : order.Complete) {T : ReturnTypes}
    (hroot : root.Registered c.types) (h : c.infer order root = .ok T) (hsig : (T.get? sig).isSome) :
    sig.Registered c.types := by
  intro id hid
  rcases List.mem_append.1 ((infer_possible hg ho h hsig).args id hid) with hid | hid
  · obtain ⟨k, hk, rfl⟩ := List.mem_map.1 hid
    have hlt : k < c.types.types.size := List.mem_range.1 hk
    exact Option.isSome_iff_exists.2 ⟨_, Array.getElem?_eq_getElem hlt⟩
  · exact hroot id hid

end Grounded

end Typing

end ShapeCompiler
