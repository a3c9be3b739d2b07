import ShapeCompiler.Proofs.Simulation.Frames

/-!
Calls from compiled code.

Main statement: the instruction of a call goes on with what the call answers in the world, whether it
builds a record, enters compiled code or asks the host (`Comparison.Lowered.call_drives`).
-/

namespace ShapeCompiler

open TypeTable

namespace Comparison

variable {C : Comparison} {depth : Option Nat} {e e' : Engine} {l : Lowerer} {a b : Artifact}
  {pool p p' : Pool} {m m' : Machine} {start k n : Nat} {env : RegEnv} {venv : Env}
  {host : HostSite → List Compiled → Run Compiled} {ans : Answers Value} {vs : List Value}
  {cs : List Compiled}

/-- A function that is entered goes on as the world says until it returns. -/
def BodyDrives (C : Comparison) (host : HostSite → List Compiled → Run Compiled) (n : Nat) : Prop :=
  ∀ {depth e m a d vs cs} {ans : Answers Value}, C.Runs depth e → e.Keeps a →
    C.world.functions.get? a.signature.function = some (.decorated d) →
    m.function = a → m.pc = 0 → m.base + a.frameSize ≤ m.registers.size →
    (∀ k c, cs[k]? = some c → m.Reads k c) → Forms C.world.types vs cs →
    ArgsHave e.types a.signature.args vs → ¬ C.Limited ans →
    (∀ err, C.world.apply C.world.counts C.world.calls depth d vs (.error err) → ans (.error err)) →
    (∀ n' ≤ n, ∀ e' m' v, C.world.apply C.world.counts C.world.calls depth d vs (.ok v) →
      C.Returning e m v e' m' → C.Drives host ans n' e' m') →
    C.Drives host ans n e m

/-- A callee that is entered goes on as the world says until it has written its result. -/
theorem enter_drives {dst : Reg} {d : FunctionDef} (hbody : ∀ k < n, C.BodyDrives host k)
    (hruns : C.Runs depth e) (hb : e.Keeps b)
    (hd : C.world.functions.get? b.signature.function = some (.decorated d))
    (hdst : m.base + dst < m.registers.size) (hforms : Forms C.world.types vs cs)
    (hargs : ArgsHave e.types b.signature.args vs) (hlim : ¬ C.Limited ans)
    (herr : ∀ err, C.world.apply C.world.counts C.world.calls depth d vs (.error err) → ans (.error err))
    (hk : ∀ n' ≤ n, ∀ e' v c, C.world.apply C.world.counts C.world.calls depth d vs (.ok v) → e.Extends True e' →
      C.world.types.Form v c → C.Drives host ans n' e' (m.put dst c).advance) :
    ∀ k < n, C.Drives host ans k e (m.enter b dst cs) := by
  intro k hkn
  have hlen : cs.length ≤ b.frameSize := by
    rw [← hforms.length_eq, ← hargs.length_eq]
    exact Nat.le_max_right _ _
  refine hbody k hkn hruns hb hd rfl rfl ?_ (fun k c hc => Machine.reads_enter hc) hforms hargs hlim
    herr ?_
  · rw [Machine.size_enter hlen]
    exact Nat.le_refl _
  · rintro n' hn' e' m' v hv ⟨hx, hcont, src, c, hret, hread, hf⟩
    have hrun : e'.run (m'.exec host (.ret src)) = .ok (.ok (.next (m.put dst c).advance), e') := by
      simp only [Machine.exec]
      rw [Machine.run_read hread, Machine.run_leave hcont hdst]
    exact drives_next hret hrun fun j hj => hk j (by omega) e' v c hv hx hf

/-- A function is at a call whose arguments are in registers, and goes on as reference answers say with
what the call answers in the world. -/
structure CallAt (C : Comparison) (host : HostSite → List Compiled → Run Compiled) (depth : Option Nat)
    (l : Lowerer) (a : Artifact) (e : Engine) (m : Machine) (start : Nat) (ans : Answers Value)
    (n : Nat) (name : Ident) (args : List (Reg × StaticType)) (dst : Reg) (vs : List Value)
    (cs : List Compiled) : Prop where
  position : ∃ shown k env venv, C.At shown depth l a e m start k env venv
  inside : dst < a.registers
  reads : List.Forall₂ m.Reads (args.map Prod.fst) cs
  forms : Forms C.world.types vs cs
  types : AllHave e.types (args.map Prod.snd) vs
  limit : ¬ C.Limited ans
  errors : ∀ err, C.world.calls depth name vs (.error err) → ans (.error err)
  values : ∀ n' ≤ n, ∀ e' v c, C.world.calls depth name vs (.ok v) → e.Extends True e' →
    C.world.types.Form v c → C.Drives host ans n' e' (m.put dst c).advance

namespace Lowered

variable (hl : C.Lowered l a pool) (hp : C.world.Proper) {name : Ident}
  {args : List (Reg × StaticType)} {dst : Reg}
  (hc : C.CallAt host depth l a e m start ans n name args dst vs cs)
include hp hc

theorem construct_drives {id : TypeId} {r : RecordType}
    (hr : l.types.recordNamed? name = some (id, r)) (hlen : args.length = r.fields.length)
    (hcheck : l.checkFields r.name r.fields (args.map Prod.snd) = .ok ())
    (hop : a.code[start]? = some (.construct dst r.tag (l.shapeOf r) (args.map Prod.fst))) :
    C.Drives host ans n e m := by
  obtain ⟨_, k, env, venv, hat⟩ := hc.position
  have hf := hat.serves.fits
  have hform {v c} := @Runs.form_iff C depth e hp hat.runs v c
  have hrw : C.world.types.recordNamed? name = some (id, r) := by
    rw [← hat.runs.hosts.grows.recordNamed?_eq hp.types hat.runs.hosts.types]
    exact hf.grows.recordNamed? hf.target hr
  have hnormal : ∀ v ∈ vs, C.world.types.Normal v := fun v hv =>
    (normal_iff hat.runs.hosts.grows hp.types hat.runs.hosts.types).1 (hc.types.normal v hv)
  let i : Interpreter := ⟨e.types, .reference, C.world.defaultBits⟩
  have hco : i.construct r vs = C.world.interpreter.construct r vs :=
    Interpreter.construct_congr hat.runs.hosts.grows
      hp.types hat.runs.hosts.types rfl (recordNamed?_eq_some.1 hrw).2 hnormal
  have hfit : ArgumentsFit l.toTyping e.types r.name r.fields (args.map Prod.snd) vs cs :=
    { check := hcheck
      fields := hf.wellFormed.fields (recordNamed?_eq_some.1 hr).2
      length := by rw [← hc.types.length_eq, List.length_map, hlen]
      types := hc.types.imp fun _ _ h => h.1
      forms := hc.forms.imp fun _ _ h => hform.2 h }
  have hmatch := Shape.build_matches (i := i) hf rfl hr hfit
  rw [hco] at hmatch
  refine drives_step (hat.op hop) hmatch (fun h => hform.1 h) ?_ (hat.inside hc.inside) ?_ ?_
  · simp only [Machine.exec]
    rw [Machine.run_readAll hc.reads]
  · intro f hx
    refine hc.errors _ ((World.calls_constructor hrw).2 ?_)
    rw [hx]
    rfl
  · intro j hj v c hx hfv
    refine hc.values j (Nat.le_of_lt hj) e v c ((World.calls_constructor hrw).2 ?_) (.refl e) hfv
    rw [hx]
    rfl

theorem function_drives {s : Signature} {d : FunctionDef} {op : Op}
    (hbody : ∀ k < n, C.BodyDrives host k) (hrec : l.types.recordNamed? name = none)
    (hf : l.functions.get? name = some (.decorated d)) (hname : s.function = name)
    (hargs : args.map Prod.snd = s.args.map .known) (hop : a.code[start]? = some op)
    (hx : e.Extends True e') (hb : e'.Keeps b) (hs : b.signature = s)
    (hrun : e.run (m.exec host op) = .ok (.ok (.next (m.enter b dst cs)), e')) :
    C.Drives host ans n e m := by
  obtain ⟨_, k, env, venv, hat⟩ := hc.position
  obtain ⟨hfe, hrece⟩ := hat.serves.functions hf
  have hfw : C.world.functions.get? name = some (.decorated d) := by rwa [← hat.runs.hosts.functions]
  have hrecw : C.world.types.recordNamed? name = none := by
    rw [← hat.runs.hosts.grows.recordNamed?_eq hp.types hat.runs.hosts.types]
    exact hrece hrec
  have hcall {y} : C.world.calls depth name vs y ↔ C.world.apply C.world.counts C.world.calls depth d vs y :=
    World.calls_decorated hrecw hfw
  have htypes := hc.types
  rw [hargs] at htypes
  have hhave : ArgsHave e'.types b.signature.args vs := by
    rw [hs]
    exact htypes.args.imp fun _ _ h => h.extends hx hat.runs.hosts.types
  have hd : C.world.functions.get? b.signature.function = some (.decorated d) := by
    rw [hs, hname]
    exact hfw
  refine drives_next (hat.op hop) hrun (enter_drives hbody (hat.runs.extends hx) hb hd
    (hat.inside hc.inside) hc.forms hhave hc.limit ?_ ?_)
  · exact fun err h => hc.errors err (hcall.2 h)
  · exact fun n' hn' e'' v c hv hx' hform =>
      hc.values n' hn' e'' v c (hcall.2 hv) (hx.trans hx') hform

include hl

/-- A call of another specialisation, through a site. -/
theorem site_drives {s : Signature} {d : FunctionDef} {site : Nat}
    (hbody : ∀ k < n, C.BodyDrives host k) (hrec : l.types.recordNamed? name = none)
    (hf : l.functions.get? name = some (.decorated d)) (hname : s.function = name)
    (hargs : args.map Prod.snd = s.args.map .known) (hsite : pool.callSites[site]? = some s)
    (hop : a.code[start]? = some (.call dst site (args.map Prod.fst))) :
    C.Drives host ans n e m := by
  obtain ⟨_, k, env, venv, hat⟩ := hc.position
  have hsite' : a.callSites[site]? = some s := by rw [hl.compiled.callSites, hsite]
  have hexec : m.exec host (.call dst site (args.map Prod.fst)) =
      (Run.ofUpdate (Update.bindSite a.signature site s) >>= fun b =>
        m.readAll (args.map Prod.fst) >>= fun cs => pure (.next (m.enter b dst cs))) := by
    simp only [Machine.exec]
    rw [hat.function, hsite']
    rfl
  rcases e.run_bindSite a.signature site s with ⟨b, e', hb⟩ | ⟨err, e', hb, hkept⟩
  · obtain ⟨hx, hbound⟩ := Run.bindSite_ensures a site hsite' e
      (fun _ => ⟨hat.runs.coherent, hat.keeps⟩) _ _ hb
    obtain ⟨hheld, hs⟩ := hbound b rfl
    refine function_drives hp hc hbody hrec hf hname hargs hop hx (hheld trivial).2 (hs trivial) ?_
    rw [hexec, Engine.run_bind, hb]
    show e'.run (m.readAll _ >>= _) = _
    rw [Machine.run_readAll hc.reads]
    rfl
  · have hfails : C.Fails ans e' (.compile err) := .inl ⟨s, hkept⟩
    refine drives_error (hat.op hop) ?_ hfails fun _ => trivial
    rw [hexec, Engine.run_bind, hb]
    rfl

omit hp in
theorem host_drives {h : HostSite} {site : Nat} (hhost : C.HostConforms host)
    (hname : h.name = name) (hfit : C.SiteFits depth e h vs) (hsite : pool.hostSites[site]? = some h)
    (hop : a.code[start]? = some (.callHost dst site (args.map Prod.fst))) :
    C.Drives host ans n e m := by
  obtain ⟨_, k, env, venv, hat⟩ := hc.position
  subst hname
  have hsite' : m.function.hostSites[site]? = some h := by
    rw [hat.function, hl.compiled.hostSites, hsite]
  have hexec : e.run (m.exec host (.callHost dst site (args.map Prod.fst))) =
      e.run (host h cs >>= fun c => m.writeNext dst c) := by
    simp only [Machine.exec]
    rw [Machine.run_readAll hc.reads, hsite']
  have hcalls : m.CallsHost := ⟨_, _, _, hat.op hop⟩
  have hin := hat.inside hc.inside
  rcases hhost hat.runs hfit hc.forms with ⟨hb, hlim⟩ | hend
  · exact absurd ⟨hb, hc.errors _ hlim⟩ hc.limit
  · rw [Engine.run_bind] at hexec
    cases hrun : e.run (host h cs) with
    | error halt =>
      rw [hrun] at hexec hend
      exact drives_halt (hat.op hop) hexec hend
    | ok r =>
      obtain ⟨r, e'⟩ := r
      rw [hrun] at hexec hend
      cases r with
      | error err =>
        exact drives_error (hat.op hop) hexec (hend.2.mono hc.errors) fun hn => absurd hcalls hn
      | ok c =>
        obtain ⟨hx, v, hv, hform⟩ := hend
        refine drives_next (hat.op hop) (hexec.trans (Machine.run_writeNext hin)) fun j hj => ?_
        exact hc.values j (Nat.le_of_lt hj) e' v c hv hx hform

/-- The instruction of a call goes on with what the call answers in the world. -/
theorem call_drives {c : LoweredExpr} (hhost : C.HostConforms host)
    (hbody : ∀ k < n, C.BodyDrives host k) (hr : (l.call name args).run p = .ok (c, p'))
    (hle : p'.Le pool) (hplaced : Placed a.code start c.code) (hdst : c.reg = dst) :
    C.Drives host ans n e m := by
  obtain ⟨_, k, env, venv, hat⟩ := hc.position
  have hknown : List.Forall₂ (fun type v => (StaticType.ofReturn type).Has e.types v)
      ((args.map Prod.snd).map (·.known?)) vs := by
    rw [List.forall₂_map_left_iff]
    refine hc.types.imp fun s v hv => ?_
    rw [Typing.ofReturn_known? hv.1.ne_unknown]
    exact hv
  have hfun : ∀ {f}, l.functions.get? name = some f → C.world.functions.get? name = some f := by
    intro f hf
    rw [← hat.runs.hosts.functions]
    exact (hat.serves.functions hf).1
  have hrec : ∀ {f}, l.types.recordNamed? name = none → l.functions.get? name = some f →
      C.world.types.recordNamed? name = none := by
    intro f hrec hf
    rw [← hat.runs.hosts.grows.recordNamed?_eq hp.types hat.runs.hosts.types]
    exact (hat.serves.functions hf).2 hrec
  have hsound := hl.sound hp hat
  unfold Lowerer.call at hr
  obtain ⟨dst', p₁, hd, hr⟩ := run_bind_eq_ok.1 hr
  obtain ⟨callee, p₂, hlift, hr⟩ := run_bind_eq_ok.1 hr
  obtain ⟨hres, rfl⟩ := run_lift_eq_ok.1 hlift
  have hmeans := Typing.resolve_eq_ok hres
  rcases callee with ⟨id, r⟩ | _ | (d | nat)
  · obtain ⟨hr', hlen⟩ := hmeans
    obtain ⟨_, p₃, hlift, hr⟩ := run_bind_eq_ok.1 hr
    obtain ⟨hcheck, rfl⟩ := run_lift_eq_ok.1 hlift
    obtain ⟨rfl, -⟩ := run_pure_eq_ok.1 hr
    obtain rfl : dst' = dst := hdst
    exact construct_drives hp hc hr' hlen hcheck (placed_singleton.1 hplaced)
  · obtain ⟨hnone, d, hf⟩ := hmeans
    obtain ⟨s, p₃, hlift, hr⟩ := run_bind_eq_ok.1 hr
    obtain ⟨hs, rfl⟩ := run_lift_eq_ok.1 hlift
    obtain ⟨t, p₄, hlift, hr⟩ := run_bind_eq_ok.1 hr
    obtain ⟨-, rfl⟩ := run_lift_eq_ok.1 hlift
    obtain ⟨hname, hargs⟩ := Typing.signature?_eq (Lowerer.calleeSignature_eq_ok hs)
    split at hr
    · rename_i hself
      obtain ⟨rfl, -⟩ := run_pure_eq_ok.1 hr
      obtain rfl : dst' = dst := hdst
      refine function_drives hp hc hbody hnone hf hname hargs (placed_singleton.1 hplaced) (.refl e)
        hat.keeps (hl.compiled.signature.trans hself.symm) ?_
      simp only [Machine.exec]
      rw [Machine.run_readAll hc.reads, hat.function]
      rfl
    · obtain ⟨site, p₅, hsite, hr⟩ := run_bind_eq_ok.1 hr
      obtain ⟨rfl, rfl⟩ := run_pure_eq_ok.1 hr
      obtain rfl : dst' = dst := hdst
      exact site_drives hl hp hc hbody hnone hf hname hargs
        (hle.callSite (Pool.run_callSite hsite).2.2) (placed_singleton.1 hplaced)
  · obtain ⟨hnone, hf⟩ := hmeans
    obtain ⟨s, p₃, hlift, hr⟩ := run_bind_eq_ok.1 hr
    obtain ⟨hs, rfl⟩ := run_lift_eq_ok.1 hlift
    obtain ⟨t, p₄, hlift, hr⟩ := run_bind_eq_ok.1 hr
    obtain ⟨ht, rfl⟩ := run_lift_eq_ok.1 hlift
    obtain ⟨site, p₅, hsite, hr⟩ := run_bind_eq_ok.1 hr
    obtain ⟨rfl, rfl⟩ := run_pure_eq_ok.1 hr
    obtain rfl : dst' = dst := hdst
    obtain ⟨rfl, hargs⟩ := Typing.signature?_eq (Lowerer.calleeSignature_eq_ok hs)
    obtain ⟨ret, hret, rfl⟩ := Lowerer.returned_eq_ok ht
    have htypes := hc.types
    rw [hargs] at htypes
    refine host_drives hl hc hhost rfl ⟨hfun hf, hrec hnone hf, hknown, fun v hv => ?_⟩
      (hle.hostSite (Pool.run_hostSite hsite).2.2) (placed_singleton.1 hplaced)
    have hassumed := (follows (l := l)).assumed hret
    have hhas := hsound.function hnone hassumed htypes.args hv
    rwa [Typing.ofReturn_known? hhas.1.ne_unknown]
  · obtain ⟨hnone, hf⟩ := hmeans
    obtain ⟨_, p₃, hlift, hr⟩ := run_bind_eq_ok.1 hr
    obtain ⟨-, rfl⟩ := run_lift_eq_ok.1 hlift
    obtain ⟨site, p₄, hsite, hr⟩ := run_bind_eq_ok.1 hr
    obtain ⟨rfl, rfl⟩ := run_pure_eq_ok.1 hr
    obtain rfl : dst' = dst := hdst
    refine host_drives hl hc hhost rfl ⟨hfun hf, hrec hnone hf, hknown, fun v hv => ?_⟩
      (hle.hostSite (Pool.run_hostSite hsite).2.2) (placed_singleton.1 hplaced)
    exact hsound.native hnone hf hv

end Lowered

end Comparison

end ShapeCompiler
