import TypeFlow.Proofs.Drives

/-!
# Installing what was asked for

Each part of an installation is a number of moves of the state in which the owner of the effects is
on top. No part can fail: in a sound state the files are exact, so that no site is missing from one,
and the children that are asked for can be entered.
-/

set_option autoImplicit false

namespace TypeFlow

open Machine State

structure UnlistedChildren where
  limbo : List SiteId := []
  asks : List Ask := []
  out : List SiteId := []

def Engine.under (ts : List Task) (d : Progress) (e : Engine) (_ : Unit) : State := ⟨e, ts, d⟩

def Run.under (w : Work) (home : Option NodeId) (ts : List Task) (d : Progress) (r : Run)
    (b : UnlistedChildren) : State :=
  ⟨r.engine, ⟨w, r.effects, b.limbo, home, b.asks, b.out⟩ :: ts, d⟩

section KeepsCounts

namespace OrderedSet

variable {α : Type} [DecidableEq α]

theorem foldl_insert_append {as bs : List α} (h : (bs ++ as).Nodup) :
    as.foldl insert (⟨bs⟩ : OrderedSet α) = ⟨bs ++ as⟩ := by
  induction as generalizing bs with
  | nil => rw [List.append_nil, List.foldl_nil]
  | cons a as ih =>
    have hnew : a ∉ bs := fun ha => (List.nodup_append.1 h).2.2 a ha a List.mem_cons_self rfl
    have hins : (⟨bs⟩ : OrderedSet α).insert a = ⟨bs ++ [a]⟩ := by
      simp [insert, hnew]
    rw [List.foldl_cons, hins, ih (by rwa [List.append_assoc, List.singleton_append]),
      List.append_assoc, List.singleton_append]

theorem foldl_insert_toList {s : OrderedSet α} (h : s.toList.Nodup) :
    s.toList.foldl insert {} = s :=
  foldl_insert_append h

theorem foldl_erase_self {as : List α} (h : as.Nodup) :
    as.foldl erase (⟨as⟩ : OrderedSet α) = {} := by
  induction as with
  | nil => rfl
  | cons a as ih =>
    obtain ⟨hnew, hrest⟩ := List.nodup_cons.1 h
    have hkeep : ∀ x ∈ as, x ≠ a := fun x hx he => hnew (he ▸ hx)
    have herase : (⟨a :: as⟩ : OrderedSet α).erase a = ⟨as⟩ := by
      simpa [erase] using hkeep
    rw [List.foldl_cons, herase, ih hrest]

end OrderedSet

end KeepsCounts

section Files

def Dependency.entity (w : World) : Dependency → String
  | .method key => "method " ++ w.methodName key
  | .const key => "constant " ++ w.constName key
  | .superclass m => "superclass of " ++ w.name m

namespace Run

def forgetEach (s : SiteId) : List Dependency → EngineM Unit
  | [] => return ()
  | d :: rest => do
    let e ← get
    if s ∈ e.world.watchers d then
      set (e.modifyWorld (·.watch d (·.erase s)))
      forgetEach s rest
    else throw (.missingReverseIndex s (d.entity e.world))

def file (s : SiteId) (e : Engine) (d : Dependency) : Engine :=
  let e := match d with
    | .const key => (e.ensureConst key).2
    | _ => e
  e.modifyWorld (·.watch d (·.insert s))

theorem hasFile_ensureConst {e : Engine} {key : ConstKey} (h : e.world.Knows key.module) :
    ((e.ensureConst key).2.world.get key.module).HasFile (.const key) := by
  unfold Engine.ensureConst
  cases hc : e.world.const? key with
  | some c => exact Option.isSome_iff_exists.2 ⟨c, hc⟩
  | none =>
    show ((World.modify _ _ _).get key.module).HasFile (.const key)
    rw [World.get_modify, if_pos ⟨rfl, h⟩]
    simp [Module.HasFile, OrderedMap.get?_insert]

theorem listed_iff {α : Type} {o : Option α} {f : α → OrderedSet SiteId} {s : SiteId} :
    (o.any fun x => (f x).contains s) = true ↔ s ∈ (o.map fun x => (f x).toList).getD [] := by
  cases o with
  | none => simp
  | some x => exact OrderedSet.contains_iff

theorem forgetMethods_eq (s : SiteId) (keys : List MemberKey) :
    forgetMethods s keys = forgetEach s (keys.map .method) := by
  induction keys with
  | nil => rfl
  | cons key keys ih =>
    funext e
    show (if _ then _ else _ : EngineM Unit) e = (if _ then _ else _ : EngineM Unit) e
    rw [if_congr listed_iff rfl rfl, ih]
    rfl

theorem forgetConsts_eq (s : SiteId) (keys : List ConstKey) :
    forgetConsts s keys = forgetEach s (keys.map .const) := by
  induction keys with
  | nil => rfl
  | cons key keys ih =>
    funext e
    show (if _ then _ else _ : EngineM Unit) e = (if _ then _ else _ : EngineM Unit) e
    rw [if_congr listed_iff rfl rfl, ih]
    rfl

theorem forgetSuperclasses_eq (s : SiteId) (ms : List ModuleId) :
    forgetSuperclasses s ms = forgetEach s (ms.map .superclass) := by
  induction ms with
  | nil => rfl
  | cons m ms ih =>
    funext e
    show (if _ then _ else _ : EngineM Unit) e = (if _ then _ else _ : EngineM Unit) e
    rw [if_congr OrderedSet.contains_iff rfl rfl, ih]
    rfl

def rebook (s : SiteId) (olds news : List Dependency) (fx : Effects) : RunM Unit := do
  RunM.ofEngine (forgetEach s olds)
  modify fun r => ⟨news.foldl (file s) r.engine, fx⟩

theorem rebook_eq {s : SiteId} {r : Run} {m : EngineM Unit} {olds news : List Dependency}
    {fx : Effects} {f : Run → Run} (hm : m = forgetEach s olds)
    (hf : ∀ e, f ⟨e, r.effects⟩ = ⟨news.foldl (file s) e, fx⟩) :
    (RunM.ofEngine m >>= fun _ => modify f) r = rebook s olds news fx r := by
  subst hm
  show EStateM.bind _ _ r = EStateM.bind _ _ r
  unfold EStateM.bind RunM.ofEngine
  cases forgetEach s olds r.engine with
  | error f e => rfl
  | ok _ e => exact congrArg (EStateM.Result.ok ()) (hf e)

theorem installMethodReads_eq {s : SiteId} {r : Run} : installMethodReads s r =
    rebook s (r.effects.installed.methodReads.toList.map .method)
      (r.effects.pending.methodReads.toList.map .method)
      ⟨{ r.effects.installed with methodReads := r.effects.pending.methodReads },
        { r.effects.pending with methodReads := {} }⟩ r :=
  rebook_eq (forgetMethods_eq s _) fun _ => (List.foldl_map ..).symm ▸ rfl

theorem installConstReads_eq {s : SiteId} {r : Run} : installConstReads s r =
    rebook s (r.effects.installed.constReads.toList.map .const)
      (r.effects.pending.constReads.toList.map .const)
      ⟨{ r.effects.installed with constReads := r.effects.pending.constReads },
        { r.effects.pending with constReads := {} }⟩ r :=
  rebook_eq (forgetConsts_eq s _) fun _ => (List.foldl_map ..).symm ▸ rfl

theorem installSuperclassReads_eq {s : SiteId} {r : Run} : installSuperclassReads s r =
    rebook s (r.effects.installed.superclassReads.toList.map .superclass)
      (r.effects.pending.superclassReads.toList.map .superclass)
      ⟨{ r.effects.installed with superclassReads := r.effects.pending.superclassReads },
        { r.effects.pending with superclassReads := {} }⟩ r :=
  rebook_eq (forgetSuperclasses_eq s _) fun _ => (List.foldl_map ..).symm ▸ rfl

variable {w : Work} {home : Option NodeId} {s : SiteId} {b : UnlistedChildren} {ts : List Task}
    {d : Progress}

def topped (w : Work) (home : Option NodeId) (b : UnlistedChildren) (ts : List Task) (d : Progress)
    (e : Engine)
    (fx : Effects) : State :=
  ⟨e, ⟨w, fx, b.limbo, home, b.asks, b.out⟩ :: ts, d⟩

theorem drives_forgetEach (hw : w.site? = some s) (deps : List Dependency) {e : Engine}
    {fx : Effects} (hn : deps.Nodup) (hr : ∀ x ∈ deps, fx.installed.Reads x) :
    Drives (topped w home b ts d) Never (forgetEach s deps) e fx fun _ e' fx' =>
      fx' = fx.mapInstalled (deps.foldl Installed.dropRead) ∧ e'.sites = e.sites := by
  induction deps generalizing e fx with
  | nil => exact Drives.pure ⟨rfl, rfl⟩
  | cons x deps ih =>
    obtain ⟨hnew, hrest⟩ := List.nodup_cons.1 hn
    refine Drives.withState fun hs => ?_
    have hfiled : s ∈ e.world.watchers x := by
      refine (hs.machine.filed.filed s x).2 ?_
      rw [show (topped w home b ts d e fx).machine.effectsOf s = fx from effectsOf_top hw]
      exact hr x List.mem_cons_self
    rw [if_pos hfiled]
    refine Drives.bind
      (P := fun _ e' fx' => fx' = fx.mapInstalled (·.dropRead x) ∧ e'.sites = e.sites)
      (fun _ => ⟨_, .single (.forget hw), rfl, rfl⟩) fun _ e' fx' _ hfx => ?_
    obtain ⟨rfl, hsites⟩ := hfx
    refine (ih hrest fun y hy => ?_).imp fun _ _ _ _ h => ⟨h.1, h.2.trans hsites⟩
    exact Installed.reads_dropRead.2 ⟨hr y (List.mem_cons_of_mem _ hy), fun he => hnew (he ▸ hy)⟩

theorem knows_ensureConst {e : Engine} {key : ConstKey} {m : ModuleId} (h : e.world.Knows m) :
    (e.ensureConst key).2.world.Knows m := by
  unfold Engine.ensureConst
  split
  · exact h
  · exact World.knows_modify.2 h

theorem knows_file {e : Engine} {x : Dependency} {m : ModuleId} (h : e.world.Knows m) :
    (file s e x).world.Knows m := by
  cases x with
  | method | superclass => exact World.knows_watch.2 h
  | const key => exact World.knows_watch.2 (knows_ensureConst h)

theorem moves_file (hw : w.site? = some s) {x : Dependency} {e : Engine} {fx : Effects}
    (hx : e.world.Knows x.module) :
    Moves (topped w home b ts d e fx)
      (topped w home b ts d (file s e x) (fx.mapInstalled (·.addRead x))) := by
  cases x with
  | method | superclass => exact .single (.note hw ⟨hx, trivial⟩)
  | const key =>
    have hnamed : Moves (topped w home b ts d e fx)
        (topped w home b ts d (e.ensureConst key).2 fx) := Engine.moves_ensureConst e key
    exact hnamed.tail (.note hw ⟨knows_ensureConst hx, hasFile_ensureConst hx⟩)

theorem moves_fileAll (hw : w.site? = some s) (deps : List Dependency) {e : Engine} {fx : Effects}
    (hd : ∀ x ∈ deps, e.world.Knows x.module) :
    Moves (topped w home b ts d e fx)
      (topped w home b ts d (deps.foldl (file s) e)
        (fx.mapInstalled (deps.foldl Installed.addRead))) := by
  induction deps generalizing e fx with
  | nil => exact .refl
  | cons x deps ih =>
    have hone : Moves (topped w home b ts d e fx) _ := moves_file hw (hd x List.mem_cons_self)
    exact hone.trans (ih fun y hy => knows_file (hd y (List.mem_cons_of_mem _ hy)))

theorem sites_foldl_file (s : SiteId) (deps : List Dependency) (e : Engine) :
    (deps.foldl (file s) e).sites = e.sites := by
  refine (Engine.SameStock.foldl (fun e x => ?_) deps e).sites
  unfold file
  cases x with
  | method | superclass => exact .modifyWorld e _
  | const key => exact (Engine.SameStock.ensureConst e key).trans (.modifyWorld _ _)

theorem exists_refile (hw : w.site? = some s) (olds news : List Dependency) {e : Engine}
    {fx : Effects} (hs : (topped w home b ts d e fx).Sound) (hn : olds.Nodup)
    (hold : ∀ x ∈ olds, fx.installed.Reads x) (hnew : ∀ x ∈ news, fx.pending.Reads x) :
    ∃ e', forgetEach s olds e = .ok () e' ∧ e'.sites = e.sites ∧
      Moves (topped w home b ts d e fx)
        (topped w home b ts d (news.foldl (file s) e')
          { fx with
            installed := news.foldl Installed.addRead
              (olds.foldl Installed.dropRead fx.installed) }) := by
  obtain ⟨_, e', fx', hforget, hmoves, rfl, hsites⟩ := (drives_forgetEach hw olds hn hold).ok hs
  refine ⟨e', hforget, hsites, hmoves.trans (moves_fileAll hw news fun x hx => hmoves.learns hs _
    ?_)⟩
  exact (hs.machine.grounded.frames _ List.mem_cons_self).reads x (hnew x hx)

variable {E : Fault → Run → UnlistedChildren → Prop} {r : Run}

theorem ofEngine_modify {m : EngineM Unit} {f : Run → Run} {e' : Engine}
    (h : m r.engine = .ok () e') :
    (do RunM.ofEngine m; modify f : RunM Unit) r = .ok () (f { r with engine := e' }) := by
  show EStateM.bind (RunM.ofEngine m) (fun _ => modify f) r = _
  unfold EStateM.bind RunM.ofEngine
  rw [h]
  rfl

theorem readsOnce (hw : w.site? = some s) (hs : (Run.under w home ts d r b).Sound) :
    r.effects.installed.ReadsOnce ∧ r.effects.pending.ReadsOnce := by
  have honce := hs.machine.filed.once s
  rw [show (Run.under w home ts d r b).machine.effectsOf s = r.effects from effectsOf_top hw]
    at honce
  exact ⟨honce, hs.machine.filed.asked _ List.mem_cons_self⟩

/-- Reads of one kind, which the books keep in a set of their own, are brought up to date. -/
theorem drives_rebook {α : Type} [DecidableEq α] (hw : w.site? = some s)
    {k : α → Dependency} {olds news : OrderedSet α} (f : OrderedSet α → Installed) {p : Pending}
    {m : RunM Unit} (hm : m r = rebook s (olds.toList.map k) (news.toList.map k) ⟨f news, p⟩ r)
    (hk : Function.Injective k) (hself : f olds = r.effects.installed)
    (hdrop : ∀ c a, (f c).dropRead (k a) = f (c.erase a))
    (hadd : ∀ c a, (f c).addRead (k a) = f (c.insert a))
    (honce : r.effects.installed.ReadsOnce → olds.toList.Nodup)
    (hasked : r.effects.pending.ReadsOnce → news.toList.Nodup)
    (hold : ∀ a ∈ olds.toList, r.effects.installed.Reads (k a))
    (hnew : ∀ a ∈ news.toList, r.effects.pending.Reads (k a))
    (hbeside : Effects.Beside ⟨f news, r.effects.pending⟩ ⟨f news, p⟩) :
    Drives (Run.under w home ts d) E m r b fun _ r' b' =>
      r'.effects = ⟨f news, p⟩ ∧ r'.engine.sites = r.engine.sites ∧ b' = b := by
  intro hs
  obtain ⟨hn, hn'⟩ := readsOnce hw hs
  obtain ⟨e', hforget, hsites, hmoves⟩ := exists_refile hw (olds.toList.map k) (news.toList.map k)
    hs
    ((honce hn).map hk) (List.forall_mem_map.2 hold) (List.forall_mem_map.2 hnew)
  have hout : (olds.toList.map k).foldl Installed.dropRead (f olds) = f {} := by
    rw [List.foldl_map, ← OrderedSet.foldl_erase_self (honce hn)]
    exact List.foldl_hom f hdrop
  have hin : (news.toList.map k).foldl Installed.addRead (f {}) = f news := by
    conv_rhs => rw [← OrderedSet.foldl_insert_toList (hasked hn')]
    rw [List.foldl_map]
    exact List.foldl_hom f hadd
  rw [← hself, hout, hin] at hmoves
  rw [hm, rebook, ofEngine_modify hforget]
  refine ⟨b, ?_, rfl, (sites_foldl_file s _ e').trans hsites, rfl⟩
  exact hmoves.tail (.jot hbeside)

theorem drives_installMethodReads (hw : w.site? = some s) :
    Drives (Run.under w home ts d) E (installMethodReads s) r b fun _ r' b' =>
      r'.effects = ⟨{ r.effects.installed with methodReads := r.effects.pending.methodReads },
        { r.effects.pending with methodReads := {} }⟩ ∧ r'.engine.sites = r.engine.sites ∧ b' = b :=
  drives_rebook hw (fun c => { r.effects.installed with methodReads := c }) installMethodReads_eq
    (fun _ _ => Dependency.method.inj) rfl (fun _ _ => rfl) (fun _ _ => rfl) (·.methods) (·.methods)
    (fun _ h => h) (fun _ h => h)
    ⟨⟨rfl, rfl, rfl, rfl, rfl, rfl, Or.inr rfl, Or.inl rfl, Or.inl rfl, rfl⟩, rfl, rfl, rfl⟩

theorem drives_installConstReads (hw : w.site? = some s) :
    Drives (Run.under w home ts d) E (installConstReads s) r b fun _ r' b' =>
      r'.effects = ⟨{ r.effects.installed with constReads := r.effects.pending.constReads },
        { r.effects.pending with constReads := {} }⟩ ∧ r'.engine.sites = r.engine.sites ∧ b' = b :=
  drives_rebook hw (fun c => { r.effects.installed with constReads := c }) installConstReads_eq
    (fun _ _ => Dependency.const.inj) rfl (fun _ _ => rfl) (fun _ _ => rfl) (·.consts) (·.consts)
    (fun _ h => h) (fun _ h => h)
    ⟨⟨rfl, rfl, rfl, rfl, rfl, rfl, Or.inl rfl, Or.inr rfl, Or.inl rfl, rfl⟩, rfl, rfl, rfl⟩

theorem drives_installSuperclassReads (hw : w.site? = some s) :
    Drives (Run.under w home ts d) E (installSuperclassReads s) r b fun _ r' b' =>
      r'.effects =
        ⟨{ r.effects.installed with superclassReads := r.effects.pending.superclassReads },
          { r.effects.pending with superclassReads := {} }⟩ ∧
        r'.engine.sites = r.engine.sites ∧ b' = b :=
  drives_rebook hw (fun c => { r.effects.installed with superclassReads := c })
    installSuperclassReads_eq (fun _ _ => Dependency.superclass.inj) rfl (fun _ _ => rfl)
    (fun _ _ => rfl) (·.superclasses) (·.superclasses) (fun _ h => h) (fun _ h => h)
    ⟨⟨rfl, rfl, rfl, rfl, rfl, rfl, Or.inl rfl, Or.inl rfl, Or.inr rfl, rfl⟩, rfl, rfl, rfl⟩

theorem drives_installReads (hw : w.site? = some s) :
    Drives (Run.under w home ts d) E (installReads (.site s)) r b fun _ r' b' =>
      r'.effects =
        ⟨{ r.effects.installed with
            methodReads := r.effects.pending.methodReads
            constReads := r.effects.pending.constReads
            superclassReads := r.effects.pending.superclassReads },
          { r.effects.pending with methodReads := {}, constReads := {}, superclassReads := {} }⟩ ∧
        r'.engine.sites = r.engine.sites ∧ b' = b := by
  refine Drives.bind (drives_installMethodReads hw) fun _ r1 _ _ h1 => ?_
  obtain ⟨h1, hs1, rfl⟩ := h1
  refine Drives.bind (drives_installConstReads hw) fun _ r2 _ _ h2 => ?_
  obtain ⟨h2, hs2, rfl⟩ := h2
  refine (drives_installSuperclassReads hw).imp fun _ r3 _ _ h3 => ?_
  obtain ⟨h3, hs3, rfl⟩ := h3
  exact ⟨by rw [h3, h2, h1], hs3.trans (hs2.trans hs1), rfl⟩

end Run

end Files

section Children

variable {w : Work} {home : Option NodeId} {fx : Effects} {ts : List Task} {d : Progress}

namespace Engine

def minding (w : Work) (home : Option NodeId) (fx : Effects) (ts : List Task) (d : Progress)
    (e : Engine) (b : UnlistedChildren) : State :=
  ⟨e, ⟨w, fx, b.limbo, home, b.asks, b.out⟩ :: ts, d⟩

theorem register_eq {rule : Rule} (h : rule.Complete) (s : SiteId) (e : Engine) :
    rule.register s e = .ok () (e.post s rule) := by
  cases rule with
  | methodDef r =>
    have hfind : r.formals.positional.find? (fun name => (r.args.get? name).isNone) = none := by
      refine List.find?_eq_none.2 fun name hname => ?_
      simp [Option.isSome_iff_ne_none.1 (h name hname)]
    unfold Rule.register
    dsimp only
    rw [hfind]
    rfl
  | methodDecl | ivarRead | constRead | typeRead | returnCheck | call | globalRead | multiAssign =>
    rfl

theorem createSite_eq (e : Engine) (node : NodeId) {rule : Rule} (h : rule.Complete) :
    createSite node rule e = .ok (e.placeSite node rule).1 (e.placeSite node rule).2 := by
  show EStateM.bind (rule.register (e.enterSite node rule).1) _ (e.enterSite node rule).2 = _
  unfold EStateM.bind
  rw [register_eq h]
  rfl

end Engine

namespace UnlistedChildren

def enter (b : UnlistedChildren) (s : SiteId) : UnlistedChildren :=
  { b with limbo := s :: b.limbo, out := s :: b.out }

structure Ready (missing : List Ask) (sites : OrderedMap SiteKey SiteId) (e : Engine)
    (b : UnlistedChildren) : Prop where
  asked : ∀ x ∈ missing, x ∈ b.asks
  known : ∀ x ∈ missing, x.2.2.Known e.world
  complete : ∀ x ∈ missing, x.2.2.Complete
  keys : (sites.keys ++ missing.map Prod.fst).Nodup
  limbo : ∀ s ∈ sites.values, s ∈ b.limbo
  counts : ∀ s, sites.values.count s ≤ b.out.count s
  back : ∀ s ∈ b.out, s ∈ sites.values ∨ e.isLive s = false

theorem Ready.next {ask : Ask} {missing : List Ask} {sites : OrderedMap SiteKey SiteId}
    {e e' : Engine} {b : UnlistedChildren} {s : SiteId} (h : Ready (ask :: missing) sites e b)
    (hknows : ∀ m, e.world.Knows m → e'.world.Knows m)
    (hlive : ∀ t, t ≠ s → e'.isLive t = true → e.isLive t = true) :
    Ready missing (sites.insert ask.1 s) e' (b.enter s) := by
  have hkey : ask.1 ∉ sites.keys := fun hmem =>
    (List.nodup_append.1 h.keys).2.2 _ hmem _ List.mem_cons_self rfl
  have hentries : sites.insert ask.1 s = ⟨sites.entries ++ [(ask.1, s)]⟩ :=
    if_neg (mt OrderedMap.contains_iff.1 hkey)
  have hvalues : (sites.insert ask.1 s).values = sites.values ++ [s] := by
    rw [hentries]
    simp [OrderedMap.values]
  refine ⟨fun x hx => h.asked x (List.mem_cons_of_mem _ hx),
    fun x hx => (h.known x (List.mem_cons_of_mem _ hx)).mono hknows,
    fun x hx => h.complete x (List.mem_cons_of_mem _ hx), ?_, fun t ht => ?_, fun t => ?_,
    fun t ht => ?_⟩
  · have hkeys : (sites.insert ask.1 s).keys = sites.keys ++ [ask.1] := by
      rw [hentries]
      simp [OrderedMap.keys]
    rw [hkeys, List.append_assoc]
    exact h.keys
  · rw [hvalues] at ht
    rcases List.mem_append.1 ht with ht | ht
    · exact List.mem_cons_of_mem _ (h.limbo t ht)
    · rw [List.mem_singleton.1 ht]
      exact List.mem_cons_self
  · have hcount := h.counts t
    rw [hvalues, List.count_append, List.count_singleton]
    show _ ≤ (s :: b.out).count t
    rw [List.count_cons]
    omega
  · rw [hvalues, List.mem_append]
    by_cases hts : t = s
    · exact Or.inl (Or.inr (List.mem_singleton.2 hts))
    · have ht : t ∈ b.out := (List.mem_cons.1 ht).resolve_left hts
      refine (h.back t ht).imp Or.inl fun hdead => Bool.eq_false_iff.2 fun hlive' => ?_
      exact Bool.false_ne_true (hdead.symm.trans (hlive t hts hlive'))

end UnlistedChildren

namespace Run

open Engine

theorem drives_createSites (missing : List Ask) {e : Engine} {sites : OrderedMap SiteKey SiteId}
    {b : UnlistedChildren} (h : UnlistedChildren.Ready missing sites e b) :
    Drives (minding w home fx ts d) Never (createSites missing sites) e b
      fun sites' e' b' => UnlistedChildren.Ready [] sites' e' b' ∧
        (missing = [] → sites' = sites ∧ e' = e) := by
  induction missing generalizing e sites b with
  | nil => exact Drives.pure ⟨h, fun _ => ⟨rfl, rfl⟩⟩
  | cons ask missing ih =>
    refine Drives.intro fun hs => Drives.bind
      (P := fun s e' b' => s = (e.placeSite ask.2.1 ask.2.2).1 ∧
        e' = (e.placeSite ask.2.1 ask.2.2).2 ∧ b' = b.enter s)
      (fun _ => ?_) fun s e' b' hmoves hdone => ?_
    · rw [createSite_eq e ask.2.1 (h.complete ask List.mem_cons_self)]
      exact ⟨b.enter _, .single (.placeSite (h.asked ask List.mem_cons_self)
        (h.known ask List.mem_cons_self)), rfl, rfl, rfl⟩
    · obtain ⟨rfl, rfl, rfl⟩ := hdone
      have horderly : (Machine.mk e _ _).Orderly := hs.machine.filed.toOrderly
      have hready : UnlistedChildren.Ready missing _ (e.placeSite ask.2.1 ask.2.2).2
          (b.enter (e.placeSite ask.2.1 ask.2.2).1) :=
        h.next (hmoves.learns hs) fun t ht hlive => by
          rwa [isLive_placeSite horderly, if_neg (Ne.symm ht)] at hlive
      exact (ih hready).imp fun _ _ _ _ hdone => ⟨hdone.1, fun hnil => by cases hnil⟩

def Destroys (limit : Nat) (destroy : SiteId → EngineM Unit) : Prop :=
  ∀ (e : Engine) (ts : List Task) (d : Progress) (s : SiteId), (∀ t ∈ ts.head?, s ∈ t.limbo) →
    e.population ≤ limit → Drives (Engine.under ts d) Never (destroy s) e ()
      fun _ e' _ => e'.isLive s = false ∧ e.Dwindles e'

variable {r : Run} {b : UnlistedChildren} {limit : Nat} {destroy : SiteId → EngineM Unit}

theorem drives_ofEngine {α : Type} {m : EngineM α} {Q : α → Run → UnlistedChildren → Prop}
    (h : Drives (minding w home r.effects ts d) Never m r.engine b
      fun a e b' => Q a { r with engine := e } b') :
    Drives (Run.under w home ts d) Never (RunM.ofEngine m) r b Q := by
  intro hs
  have h' := h hs
  revert h'
  unfold RunM.ofEngine
  cases m r.engine with
  | ok a e => exact id
  | error f e => exact fun ⟨_, _, hf⟩ => hf.elim

theorem drives_destroyAll (hd : Destroys limit destroy) {e : Engine}
    {gone : List (SiteKey × SiteId)} (hgone : ∀ x ∈ gone, x.2 ∈ b.limbo)
    (hlimit : e.population ≤ limit) :
    Drives (minding w home fx ts d) Never (gone.forM fun x => destroy x.2) e b
      fun _ e' b' => b' = b ∧ e.Dwindles e' ∧ ∀ x ∈ gone, e'.isLive x.2 = false := by
  induction gone generalizing e with
  | nil => exact Drives.pure ⟨rfl, .refl e, fun _ hx => absurd hx List.not_mem_nil⟩
  | cons x gone ih =>
    refine Drives.bind (P := fun _ e' b' => b' = b ∧ e'.isLive x.2 = false ∧ e.Dwindles e') ?_
      fun _ e' b' _ h => ?_
    · intro hs
      obtain ⟨_, e', _, hrun, hmoves, hdone⟩ := (hd e (⟨w, fx, b.limbo, home, b.asks,
        b.out⟩ :: ts) d
        x.2 (fun t ht => Option.some.inj ht ▸ hgone x List.mem_cons_self) hlimit).ok hs
      dsimp only
      rw [hrun]
      exact ⟨b, hmoves, rfl, hdone⟩
    · obtain ⟨rfl, hdead, hdwindles⟩ := h
      refine (ih (fun y hy => hgone y (List.mem_cons_of_mem _ hy))
        (hdwindles.population_le.trans hlimit)).imp fun _ e'' _ _ h => ?_
      obtain ⟨rfl, hdwindles', hrest⟩ := h
      exact ⟨rfl, hdwindles.trans hdwindles',
        List.forall_mem_cons.2 ⟨hdwindles'.dead hdead, hrest⟩⟩

def keptSites (r : Run) : List (SiteKey × SiteId) :=
  (r.effects.pending.sites.entries.filter r.keeps).filterMap fun x =>
    (r.effects.installed.sites.get? x.1).map fun s => (x.1, s)

theorem mem_keptSites {x : SiteKey × SiteId} (hx : x ∈ r.keptSites) :
    x ∈ r.effects.installed.sites.entries := by
  obtain ⟨y, -, hy⟩ := List.mem_filterMap.1 hx
  obtain ⟨s, hs, rfl⟩ := Option.map_eq_some_iff.1 hy
  exact OrderedMap.mem_entries_of_get? hs

theorem mem_keptSites_of_key (hn : r.effects.installed.sites.keys.Nodup) {x : SiteKey × SiteId}
    (hx : x ∈ r.effects.installed.sites.entries)
    (hk : x.1 ∈ (r.effects.pending.sites.entries.filter r.keeps).map Prod.fst) :
    x ∈ r.keptSites := by
  obtain ⟨ask, hask, hkey⟩ := List.mem_map.1 hk
  refine List.mem_filterMap.2 ⟨ask, hask, ?_⟩
  rw [hkey, OrderedMap.get?_of_mem_entries hn hx]
  rfl

theorem keys_keptSites : (r.keptSites.map Prod.fst).Sublist
    ((r.effects.pending.sites.entries.filter r.keeps).map Prod.fst) := by
  unfold keptSites
  induction r.effects.pending.sites.entries.filter r.keeps with
  | nil => exact .refl _
  | cons ask asks ih =>
    rw [List.filterMap_cons]
    cases r.effects.installed.sites.get? ask.1 with
    | none => exact ih.cons _
    | some s => exact ih.cons_cons _

theorem drives_installSites (hd : Destroys limit destroy) (hlimit : r.engine.population ≤ limit)
    (hout : b.out = []) :
    Drives (Run.under w home ts d) Never (installSites destroy) r b fun _ r' b' =>
      ∃ sites, r'.effects = r.effects.detach.attach sites ∧ b'.out = [] ∧
        (r.effects.pending.sites = {} → sites = {} ∧ r.engine.Dwindles r'.engine) := by
  refine Drives.withState fun hs => ?_
  have hknown := (hs.machine.grounded.frames _ List.mem_cons_self).asked
  have hcomplete := hs.complete _ List.mem_cons_self
  have hneat : r.effects.Neat := hs.neat.tasks _ List.mem_cons_self
  dsimp only
  rw [List.partition_eq_filter_filter]
  dsimp only
  let missing := r.effects.pending.sites.entries.filter (not ∘ r.keeps)
  have hmissing : ∀ x ∈ missing, x ∈ r.effects.pending.sites.entries := fun x =>
    List.mem_of_mem_filter
  let out : UnlistedChildren := ⟨r.effects.installed.sites.values ++ b.limbo,
    r.effects.pending.sites.entries, r.effects.installed.sites.values ++ b.out⟩
  refine Drives.bind
    (P := fun _ r' b' => r'.effects = r.effects.detach ∧ r'.engine = r.engine ∧ b' = out)
    (fun _ => ⟨out, .single .detach, rfl, rfl, rfl⟩) fun _ r1 _ hm1 h1 => ?_
  obtain ⟨hfx1, he1, rfl⟩ := h1
  refine Drives.bind (P := fun _ r' b' => r'.effects = r.effects.detach ∧ b' = out ∧
      r.engine.Dwindles r'.engine ∧ ∀ x ∈ r.effects.installed.sites.entries,
        x ∈ r.keptSites ∨ r'.engine.isLive x.2 = false)
    (drives_ofEngine ((drives_destroyAll hd (fun x hx => ?_) (he1 ▸ hlimit)).imp
      fun _ e' _ _ h => ⟨hfx1, h.1, he1 ▸ h.2.1, fun x hx => ?_⟩)) fun _ r2 _ hm2 h2 => ?_
  · exact List.mem_append_left _ (List.mem_map_of_mem (List.mem_of_mem_filter hx))
  · by_cases hk : x.1 ∈ (r.effects.pending.sites.entries.filter r.keeps).map Prod.fst
    · exact Or.inl (mem_keptSites_of_key hneat.sites hx hk)
    · exact Or.inr (h.2.2 x (List.mem_filter.2 ⟨hx, by simpa using hk⟩))
  obtain ⟨hfx2, rfl, hdwindles, hgone⟩ := h2
  have hlearns := Moves.learns (hm1.trans hm2) hs
  have hready : UnlistedChildren.Ready missing ⟨r.keptSites⟩ r2.engine out := by
    have hkeys : ((r.effects.pending.sites.entries.filter r.keeps).map Prod.fst ++
        missing.map Prod.fst).Nodup := by
      have hperm := List.filter_append_perm r.keeps r.effects.pending.sites.entries
      rw [← List.map_append]
      exact ((hperm.map Prod.fst).nodup_iff).2 hneat.askedSites
    refine ⟨hmissing, fun x hx => ?_, fun x hx => ?_, ?_, fun t ht => ?_, fun t => ?_,
      fun t ht => ?_⟩
    · exact (hknown x.2 (List.mem_map_of_mem (hmissing x hx))).mono hlearns
    · exact hcomplete x.2 (List.mem_map_of_mem (hmissing x hx))
    · exact hkeys.sublist (keys_keptSites.append_right _)
    · obtain ⟨x, hx, rfl⟩ := List.mem_map.1 ht
      exact List.mem_append_left _ (List.mem_map_of_mem (mem_keptSites hx))
    · have hnodup : r.keptSites.Nodup :=
        List.Nodup.of_map Prod.fst ((List.nodup_append.1 hkeys).1.sublist keys_keptSites)
      obtain ⟨l, hperm, hsub⟩ := List.subperm_of_subset hnodup fun x => mem_keptSites
      show (r.keptSites.map Prod.snd).count t ≤ _
      rw [List.count_append, ← (hperm.map Prod.snd).count_eq]
      exact ((hsub.map Prod.snd).count_le t).trans (Nat.le_add_right _ _)
    · rw [show out.out = r.effects.installed.sites.values ++ b.out from rfl, hout,
        List.append_nil] at ht
      obtain ⟨x, hx, rfl⟩ := List.mem_map.1 ht
      exact (hgone x hx).imp (fun hkept => List.mem_map_of_mem hkept) id
  refine Drives.bind (P := fun sites r' b' => r'.effects = r.effects.detach ∧
      UnlistedChildren.Ready [] sites r'.engine b' ∧
      (missing = [] → sites = ⟨r.keptSites⟩ ∧ r'.engine = r2.engine))
    (drives_ofEngine ((drives_createSites missing hready).imp fun _ _ _ _ h => ⟨hfx2, h⟩))
    fun sites r3 b3 _ h3 => ?_
  obtain ⟨hfx3, hready3, hnone⟩ := h3
  have hkeys : sites.keys.Nodup := (List.nodup_append.1 hready3.keys).1
  have hempty3 : r3.effects.installed.sites = {} := by
    rw [hfx3]
    rfl
  refine Drives.modify { b3 with out := [] } fun _ => ⟨.single (.attach hready3.limbo hkeys
    hempty3 hready3.counts hready3.back), sites, ?_, rfl, fun hempty => ?_⟩
  · show r3.effects.attach sites = _
    rw [hfx3]
  · have hnil : r.effects.pending.sites.entries = [] := by rw [hempty]
    obtain ⟨rfl, he3⟩ := hnone (by simp [missing, hnil])
    refine ⟨?_, ?_⟩
    · simp [keptSites, hnil]
    · show r.engine.Dwindles r3.engine
      rw [he3]
      exact hdwindles

end Run

end Children

section Rest

namespace Effects

def postDiagnostics (fx : Effects) : Effects where
  installed := { fx.installed with diagnostics := fx.pending.diagnostics }
  pending := { fx.pending with diagnostics := [] }

def settled (fx : Effects) (sites : OrderedMap SiteKey SiteId) : Owner → Effects
  | .site _ => {
      installed := {
        edges := fx.pending.edges
        sites
        diagnostics := fx.pending.diagnostics
        methodReads := fx.pending.methodReads
        constReads := fx.pending.constReads
        superclassReads := fx.pending.superclassReads
        scratch := fx.pending.scratch } }
  | .node _ => {
      installed := { fx.installed with
        edges := fx.pending.edges
        sites
        diagnostics := fx.pending.diagnostics
        scratch := fx.pending.scratch }
      pending := {
        methodReads := fx.pending.methodReads
        constReads := fx.pending.constReads
        superclassReads := fx.pending.superclassReads } }

end Effects

namespace Run

variable {w : Work} {home : Option NodeId} {ts : List Task} {d : Progress} {r : Run}
    {b : UnlistedChildren}

theorem moves_bury (e : Engine) (vs : List VertexId) :
    Moves ⟨e, ts, { d with hand := vs ++ d.hand }⟩ ⟨vs.foldl Engine.destroyVertex e, ts, d⟩ := by
  induction vs generalizing e with
  | nil => exact .refl
  | cons v vs ih =>
    have hone : Move ⟨e, ts, { d with hand := v :: (vs ++ d.hand) }⟩
        ⟨e.destroyVertex v, ts, { d with hand := vs ++ d.hand }⟩ := .bury rfl
    exact (Relation.ReflTransGen.single hone).trans (ih (e.destroyVertex v))

theorem moves_installScratch :
    Moves (r.under w home ts d b) (r.installScratch.under w home ts d b) := by
  have hshed : Moves (r.under w home ts d b) _ := .single .shed
  refine hshed.trans ?_
  have hbury : Moves ⟨r.engine, ⟨w, r.effects.shed, b.limbo, home, b.asks, b.out⟩ :: ts,
      { d with hand := r.effects.stale ++ d.hand }⟩ _ := moves_bury r.engine r.effects.stale
  rwa [Effects.stale, List.foldl_map] at hbury

/-- Installing proceeds in moves and puts in place what was asked for. Nothing comes to life unless
children are asked for. -/
theorem drives_installWith {limit : Nat} {destroy : SiteId → EngineM Unit}
    (hd : Destroys limit destroy) (hlimit : r.engine.population ≤ limit) (hout : b.out = []) :
    Drives (Run.under w home ts d) Never (installWith destroy w.owner) r b
      fun _ r' b' => ∃ sites, r'.effects = r.effects.settled sites w.owner ∧ b'.out = [] ∧
        (r.effects.pending.sites = {} → sites = {} ∧ r.engine.Dwindles r'.engine) := by
  have hedges : r.installEdges.engine.sites = r.engine.sites :=
    (Engine.SameStock.installEdges r).sites
  refine Drives.bind (P := fun _ r' b' => r' = r.installEdges ∧ b' = b)
    (Drives.modify b fun _ => ⟨.single .installEdges, rfl, rfl⟩) fun _ r1 _ _ h1 => ?_
  obtain ⟨rfl, rfl⟩ := h1
  refine Drives.bind (drives_installSites hd ?_ hout) fun _ r2 b2 _ h2 => ?_
  · exact (Engine.Dwindles.of_sites hedges).population_le.trans hlimit
  obtain ⟨sites, hfx2, hout2, hnone⟩ := h2
  refine Drives.bind (P := fun _ r' b' => r' = r2.installDiagnostics ∧ b' = b2)
    (Drives.modify b2 fun _ => ⟨.single (.jot ?_), rfl, rfl⟩) fun _ r3 b3 _ h3 => ?_
  · exact ⟨⟨rfl, rfl, rfl, rfl, rfl, rfl, Or.inl rfl, Or.inl rfl, Or.inl rfl, rfl⟩, rfl, rfl, rfl⟩
  obtain ⟨rfl, rfl⟩ := h3
  have hfx3 : r2.installDiagnostics.effects = _ := congrArg Effects.postDiagnostics hfx2
  have hscratch : ∀ r : Run, r.installScratch.engine.sites = r.engine.sites := fun r =>
    (Engine.SameStock.foldl (fun e x => .adoptGraph e _) _ r.engine).sites
  have hlast : ∀ {r4 : Run}, r4.effects.shed = r.effects.settled sites w.owner →
      r4.engine.sites = r2.engine.sites →
      Drives (Run.under w home ts d) Never (modify installScratch) r4 b3 fun _ r' b' =>
        ∃ sites, r'.effects = r.effects.settled sites w.owner ∧ b'.out = [] ∧
          (r.effects.pending.sites = {} → sites = {} ∧ r.engine.Dwindles r'.engine) :=
    fun {r4} h hsites => Drives.modify _ fun _ =>
      ⟨moves_installScratch, sites, h, hout2, fun hempty => ⟨(hnone hempty).1,
        ((Engine.Dwindles.of_sites hedges).trans (hnone hempty).2).trans
          (.of_sites ((hscratch r4).trans hsites))⟩⟩
  cases w with
  | node n =>
    refine Drives.bind (P := fun _ r' b' => r' = r2.installDiagnostics ∧ b' = b3)
      (Drives.pure ⟨rfl, rfl⟩) fun _ r4 b4 _ h4 => ?_
    obtain ⟨rfl, rfl⟩ := h4
    refine hlast ?_ rfl
    rw [hfx3]
    rfl
  | run s | destroy s =>
    refine Drives.bind (drives_installReads rfl) fun _ r4 _ _ h4 => ?_
    obtain ⟨hfx4, hsites4, rfl⟩ := h4
    refine hlast ?_ hsites4
    rw [hfx4, hfx3]
    rfl

end Run

end Rest

end TypeFlow
