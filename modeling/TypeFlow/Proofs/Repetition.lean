import TypeFlow.Proofs.Arenas
import TypeFlow.Proofs.Replay
import TypeFlow.Proofs.SharedSources

/-!
# Identical runs

A run that asks for exactly what the run before it asked for is meant to touch nothing. It does so
if and only if the run before has left alive all that it asked for itself. Installing can kill that:
a slot that was handed out again may still stand under another key of the same owner, or among the
vertices of a child that is given up, and is buried with it.
-/

set_option autoImplicit false

namespace TypeFlow

section Results

variable {σ α β : Type}

theorem EStateM.bind_ok {m : EStateM Fault σ α} {k : α → EStateM Fault σ β} {b : β} {s s' : σ} :
    (m >>= k) s = .ok b s' ↔ ∃ a t, m s = .ok a t ∧ k a t = .ok b s' := by
  show EStateM.bind m k s = _ ↔ _
  unfold EStateM.bind
  cases m s <;> simp

theorem RunM.ofEngine_ok {m : EngineM α} {r r' : Run} {a : α} :
    RunM.ofEngine m r = .ok a r' ↔ ∃ e, m r.engine = .ok a e ∧ r' = { r with engine := e } := by
  unfold RunM.ofEngine
  cases m r.engine <;> simp [eq_comm]

theorem leftBy_of_ok {m : EStateM Fault σ α} {a : α} {s s' : σ} (h : m s = .ok a s') :
    leftBy m s = s' := by
  unfold leftBy
  rw [h]

theorem Honours.ok {R : Engine → Engine → Prop} {view : σ → Engine} {m : EStateM Fault σ α}
    (hm : Honours R view m) {a : α} {s s' : σ} (h : m s = .ok a s') : R (view s) (view s') :=
  leftBy_of_ok h ▸ hm s

end Results

section Files

namespace World

variable {w : World} {d d' : Dependency} {s t : SiteId}

theorem files_of_mem_watchers (h : s ∈ w.watchers d) : w.Files d := by
  have hknows : w.Knows d.module := by
    by_contra hnot
    unfold watchers at h
    rw [get_of_not_knows hnot] at h
    cases d <;> simp [Module.watchers, Sided.get, OrderedMap.get?] at h
  refine ⟨hknows, ?_⟩
  by_contra hnot
  unfold watchers at h
  rw [(Module.watchers_of_not_hasFile (f := id) hnot).1] at h
  exact List.not_mem_nil h

theorem Files.watch (h : w.Files d) (f : OrderedSet SiteId → OrderedSet SiteId) :
    (w.watch d' f).Files d := by
  refine ⟨knows_watch.2 h.1, ?_⟩
  unfold World.watch
  rw [get_modify]
  split
  · cases d with
    | const key =>
      have hsome : ((w.get key.module).consts.get? key.name).isSome = true := h.2
      cases d' with
      | const key' =>
        show (((w.get key.module).consts.modify key'.name _).get? key.name).isSome = true
        rw [OrderedMap.get?_modify]
        split
        · rw [Option.isSome_map]
          exact hsome
        · exact hsome
      | method | superclass => exact hsome
    | method | superclass => exact trivial
  · exact h.2

end World

def Effects.postReads (fx : Effects) : Effects where
  installed := { fx.installed with
    methodReads := fx.pending.methodReads
    constReads := fx.pending.constReads
    superclassReads := fx.pending.superclassReads }
  pending := { fx.pending with methodReads := {}, constReads := {}, superclassReads := {} }

namespace Run

variable {s : SiteId} {e e' : Engine}

theorem forgetEach_ok {ds : List Dependency} (h : forgetEach s ds e = .ok () e') :
    ∃ w, e' = { e with world := w } ∧ (∀ d, e.world.Files d → w.Files d) ∧
      ∀ d t, t ∈ w.watchers d ↔ t ∈ e.world.watchers d ∧ ¬(d ∈ ds ∧ t = s) := by
  induction ds generalizing e with
  | nil =>
    cases h
    exact ⟨_, rfl, fun _ => id, fun d t => by simp⟩
  | cons x ds ih =>
    change (if s ∈ e.world.watchers x then _ else _ : EngineM Unit) e = _ at h
    split at h
    · obtain ⟨w, hw, hfiles, hwatchers⟩ := ih (e := e.modifyWorld (·.watch x (·.erase s))) h
      refine ⟨w, hw, fun d hd => hfiles d (hd.watch _), fun d t => ?_⟩
      refine (hwatchers d t).trans ?_
      have herase : t ∈ (e.modifyWorld (·.watch x (·.erase s))).world.watchers d ↔
          t ∈ e.world.watchers d ∧ ¬(x = d ∧ t = s) := World.mem_watchers_erase
      rw [herase, List.mem_cons]
      constructor
      · rintro ⟨⟨ht, hx⟩, hds⟩
        refine ⟨ht, ?_⟩
        rintro ⟨rfl | hd, hts⟩
        · exact hx ⟨rfl, hts⟩
        · exact hds ⟨hd, hts⟩
      · rintro ⟨ht, hds⟩
        exact ⟨⟨ht, fun hx => hds ⟨.inl hx.1.symm, hx.2⟩⟩, fun hd => hds ⟨.inr hd.1, hd.2⟩⟩
    · cases h

theorem exists_forgetEach {ds : List Dependency} (hn : ds.Nodup)
    (h : ∀ d ∈ ds, s ∈ e.world.watchers d) : ∃ e', forgetEach s ds e = .ok () e' := by
  induction ds generalizing e with
  | nil => exact ⟨e, rfl⟩
  | cons x ds ih =>
    obtain ⟨hx, hn⟩ := List.nodup_cons.1 hn
    obtain ⟨e', he'⟩ := ih (e := e.modifyWorld (·.watch x (·.erase s))) hn fun d hd =>
      World.mem_watchers_erase.2 ⟨h d (List.mem_cons_of_mem x hd), fun he => hx (he.1 ▸ hd)⟩
    refine ⟨e', ?_⟩
    show (if s ∈ e.world.watchers x then _ else _ : EngineM Unit) e = _
    rw [if_pos (h x List.mem_cons_self)]
    exact he'

theorem mem_watchers_file {d d' : Dependency} {t : SiteId} (h : e.world.Knows d.module) :
    t ∈ (file s e d).world.watchers d' ↔ t ∈ e.world.watchers d' ∨ d = d' ∧ t = s := by
  cases d with
  | method | superclass => exact World.mem_watchers_insert ⟨h, trivial⟩
  | const key =>
    have hsame : (e.ensureConst key).2.world.watchers d' = e.world.watchers d' := by
      unfold Engine.ensureConst
      cases hc : e.world.const? key with
      | some c => rfl
      | none => exact (World.Grows.nameConst hc _ rfl).watchers d'
    refine (World.mem_watchers_insert ⟨knows_ensureConst h, hasFile_ensureConst h⟩).trans ?_
    rw [hsame]

theorem mem_watchers_foldl_file {ds : List Dependency}
    (h : ∀ d ∈ ds, e.world.Knows d.module) {d : Dependency} {t : SiteId} :
    t ∈ (ds.foldl (file s) e).world.watchers d ↔ t ∈ e.world.watchers d ∨ d ∈ ds ∧ t = s := by
  induction ds generalizing e with
  | nil => simp
  | cons x ds ih =>
    rw [List.foldl_cons, ih fun d hd => knows_file (h d (List.mem_cons_of_mem x hd)),
      mem_watchers_file (h x List.mem_cons_self), List.mem_cons, or_assoc]
    refine or_congr_right ?_
    constructor
    · rintro (⟨rfl, ht⟩ | ⟨hd, ht⟩)
      · exact ⟨.inl rfl, ht⟩
      · exact ⟨.inr hd, ht⟩
    · rintro ⟨rfl | hd, ht⟩
      · exact .inl ⟨rfl, ht⟩
      · exact .inr ⟨hd, ht⟩

theorem foldl_file_eq {ds : List Dependency} (h : ∀ d ∈ ds, e.world.Files d) :
    ∃ w, ds.foldl (file s) e = { e with world := w } ∧ ∀ d, e.world.Files d → w.Files d := by
  induction ds generalizing e with
  | nil => exact ⟨e.world, rfl, fun _ => id⟩
  | cons x ds ih =>
    have hone : file s e x = e.modifyWorld (·.watch x (·.insert s)) := by
      cases x with
      | method | superclass => rfl
      | const key =>
        obtain ⟨c, hc⟩ := Option.isSome_iff_exists.1 (h _ List.mem_cons_self).2
        have hc : e.world.const? key = some c := hc
        have hthere : (e.ensureConst key).2 = e := by
          unfold Engine.ensureConst
          rw [hc]
        show (e.ensureConst key).2.modifyWorld (·.watch (.const key) (·.insert s)) = _
        rw [hthere]
    rw [List.foldl_cons, hone]
    obtain ⟨w, hw, hfiles⟩ := ih (e := e.modifyWorld (·.watch x (·.insert s))) fun d hd =>
      (h d (List.mem_cons_of_mem x hd)).watch _
    exact ⟨w, hw, fun d hd => hfiles d (hd.watch _)⟩

def refile (s : SiteId) (olds news : List Dependency) : EngineM Unit := do
  forgetEach s olds
  modify fun e => news.foldl (file s) e

def refileAll (s : SiteId) (x : Installed) (p : Pending) : EngineM Unit := do
  refile s (x.methodReads.toList.map .method) (p.methodReads.toList.map .method)
  refile s (x.constReads.toList.map .const) (p.constReads.toList.map .const)
  refile s (x.superclassReads.toList.map .superclass) (p.superclassReads.toList.map .superclass)

variable {r r' : Run}

theorem rebook_ok {olds news : List Dependency} {fx : Effects} :
    rebook s olds news fx r = .ok () r' ↔
      ∃ e', refile s olds news r.engine = .ok () e' ∧ r' = ⟨e', fx⟩ := by
  unfold refile rebook
  rw [EStateM.bind_ok]
  constructor
  · rintro ⟨_, t, ht, hr'⟩
    obtain ⟨e1, he1, rfl⟩ := RunM.ofEngine_ok.1 ht
    cases hr'
    exact ⟨_, EStateM.bind_ok.2 ⟨_, e1, he1, rfl⟩, rfl⟩
  · rintro ⟨e', he', rfl⟩
    obtain ⟨_, e1, he1, he'⟩ := EStateM.bind_ok.1 he'
    cases he'
    exact ⟨_, _, RunM.ofEngine_ok.2 ⟨e1, he1, rfl⟩, rfl⟩

theorem installReads_ok : installReads (.site s) r = .ok () r' ↔
    ∃ e', refileAll s r.effects.installed r.effects.pending r.engine = .ok () e' ∧
      r' = ⟨e', r.effects.postReads⟩ := by
  constructor
  · intro h
    obtain ⟨_, r1, h1, h⟩ := EStateM.bind_ok.1 h
    obtain ⟨_, r2, h2, h3⟩ := EStateM.bind_ok.1 h
    obtain ⟨e1, he1, rfl⟩ := rebook_ok.1 (installMethodReads_eq.symm.trans h1)
    obtain ⟨e2, he2, rfl⟩ := rebook_ok.1 (installConstReads_eq.symm.trans h2)
    obtain ⟨e3, he3, rfl⟩ := rebook_ok.1 (installSuperclassReads_eq.symm.trans h3)
    exact ⟨e3, EStateM.bind_ok.2 ⟨_, e1, he1, EStateM.bind_ok.2 ⟨_, e2, he2, he3⟩⟩, rfl⟩
  · rintro ⟨e3, h, rfl⟩
    obtain ⟨_, e1, he1, h⟩ := EStateM.bind_ok.1 h
    obtain ⟨_, e2, he2, he3⟩ := EStateM.bind_ok.1 h
    exact EStateM.bind_ok.2 ⟨_, _, installMethodReads_eq.trans (rebook_ok.2 ⟨e1, he1, rfl⟩),
      EStateM.bind_ok.2 ⟨_, _, installConstReads_eq.trans (rebook_ok.2 ⟨e2, he2, rfl⟩),
        installSuperclassReads_eq.trans (rebook_ok.2 ⟨e3, he3, rfl⟩)⟩⟩

theorem mem_watchers_refile {olds news : List Dependency} (h : refile s olds news e = .ok () e')
    (hknown : ∀ d ∈ news, e.world.Knows d.module) :
    (∀ m, e.world.Knows m → e'.world.Knows m) ∧ ∀ d t, t ∈ e'.world.watchers d ↔
      (t ∈ e.world.watchers d ∧ ¬(d ∈ olds ∧ t = s)) ∨ d ∈ news ∧ t = s := by
  obtain ⟨_, e1, h1, h⟩ := EStateM.bind_ok.1 h
  cases h
  have hforget := (honours_forgetEach (R := Engine.Upholds) s olds).ok h1
  have hfile := related_foldl (R := Engine.Upholds) (f := file s)
    (fun d (_ : d ∈ news) e => related_file s e d) e1
  have hknown1 : ∀ d ∈ news, e1.world.Knows d.module := fun d hd =>
    hforget.world.knows (hknown d hd)
  obtain ⟨w, rfl, -, hwatchers⟩ := forgetEach_ok h1
  refine ⟨fun m hm => hfile.world.knows (hforget.world.knows hm), fun d t => ?_⟩
  exact (mem_watchers_foldl_file hknown1).trans (or_congr_left (hwatchers d t))

theorem mem_watchers_refileAll {x : Installed} {p : Pending}
    (h : refileAll s x p e = .ok () e') (hknown : ∀ d, p.Reads d → e.world.Knows d.module)
    (d : Dependency) (hd : p.Reads d) : s ∈ e'.world.watchers d := by
  obtain ⟨_, e1, h1, h⟩ := EStateM.bind_ok.1 h
  obtain ⟨_, e2, h2, h3⟩ := EStateM.bind_ok.1 h
  obtain ⟨hknows1, hw1⟩ := mem_watchers_refile h1 fun d hd => by
    obtain ⟨key, hkey, rfl⟩ := List.mem_map.1 hd
    exact hknown _ hkey
  obtain ⟨hknows2, hw2⟩ := mem_watchers_refile h2 fun d hd => by
    obtain ⟨key, hkey, rfl⟩ := List.mem_map.1 hd
    exact hknows1 _ (hknown (.const key) hkey)
  obtain ⟨-, hw3⟩ := mem_watchers_refile h3 fun d hd => by
    obtain ⟨key, hkey, rfl⟩ := List.mem_map.1 hd
    exact hknows2 _ (hknows1 _ (hknown (.superclass key) hkey))
  rw [hw3, hw2, hw1]
  cases d with
  | method key =>
    have hkey : key ∈ p.methodReads.toList := hd
    simp [hkey]
  | const key =>
    have hkey : key ∈ p.constReads.toList := hd
    simp [hkey]
  | superclass m =>
    have hkey : m ∈ p.superclassReads.toList := hd
    simp [hkey]

theorem refile_again {ds : List Dependency} (hn : ds.Nodup)
    (h : ∀ d ∈ ds, s ∈ e.world.watchers d) :
    ∃ w, refile s ds ds e = .ok () { e with world := w } ∧
      ∀ d t, t ∈ w.watchers d ↔ t ∈ e.world.watchers d := by
  obtain ⟨e1, h1⟩ := exists_forgetEach hn h
  obtain ⟨w1, rfl, hfiles, -⟩ := forgetEach_ok h1
  obtain ⟨w, hw, -⟩ := foldl_file_eq (s := s) (e := { e with world := w1 }) fun d hd =>
    hfiles d (World.files_of_mem_watchers (h d hd))
  have hrefile : refile s ds ds e = .ok () { e with world := w } :=
    EStateM.bind_ok.2 ⟨_, _, h1, congrArg (EStateM.Result.ok ()) hw⟩
  refine ⟨w, hrefile, fun d t => ?_⟩
  refine ((mem_watchers_refile hrefile fun d hd =>
    (World.files_of_mem_watchers (h d hd)).1).2 d t).trans ?_
  constructor
  · rintro (⟨ht, -⟩ | ⟨hd, rfl⟩)
    · exact ht
    · exact h d hd
  · intro ht
    by_cases hds : d ∈ ds ∧ t = s
    · exact .inr hds
    · exact .inl ⟨ht, hds⟩

theorem refileAll_again {x : Installed} {p : Pending} (hm : x.methodReads = p.methodReads)
    (hc : x.constReads = p.constReads) (hs : x.superclassReads = p.superclassReads)
    (hn : p.ReadsOnce) (h : ∀ d, p.Reads d → s ∈ e.world.watchers d) :
    ∃ w, refileAll s x p e = .ok () { e with world := w } ∧
      ∀ d t, t ∈ w.watchers d ↔ t ∈ e.world.watchers d := by
  have hmap : ∀ {α : Type} {f : α → Dependency} {l : List α}, Function.Injective f → l.Nodup →
      (l.map f).Nodup := fun hf hl => List.Nodup.map hf hl
  obtain ⟨w1, h1, hw1⟩ := refile_again (s := s) (e := e)
    (hmap (fun _ _ he => Dependency.method.inj he) hn.methods) fun d hd => by
      obtain ⟨key, hkey, rfl⟩ := List.mem_map.1 hd
      exact h _ hkey
  obtain ⟨w2, h2, hw2⟩ := refile_again (s := s) (e := { e with world := w1 })
    (hmap (fun _ _ he => Dependency.const.inj he) hn.consts) fun d hd => by
      obtain ⟨key, hkey, rfl⟩ := List.mem_map.1 hd
      exact (hw1 _ _).2 (h (.const key) hkey)
  obtain ⟨w3, h3, hw3⟩ := refile_again (s := s) (e := { e with world := w2 })
    (hmap (fun _ _ he => Dependency.superclass.inj he) hn.superclasses) fun d hd => by
      obtain ⟨key, hkey, rfl⟩ := List.mem_map.1 hd
      exact (hw2 _ _).2 ((hw1 _ _).2 (h (.superclass key) hkey))
  refine ⟨w3, ?_, fun d t => (hw3 d t).trans ((hw2 d t).trans (hw1 d t))⟩
  unfold refileAll
  rw [hm, hc, hs]
  exact EStateM.bind_ok.2 ⟨_, _, h1, EStateM.bind_ok.2 ⟨_, _, h2, h3⟩⟩

end Run

end Files

section Children

namespace Engine

def UsesSite (e : Engine) (s : SiteId) : Prop :=
  s.index < e.sites.size ∧ s.index ∉ e.sites.free

structure Seats (e : Engine) (s : SiteId) (node : NodeId) (rule : Rule) : Prop where
  uses : e.UsesSite s
  site : (e.site? s).map (fun x => (x.rule, x.node)) = some (rule, node)

variable {e e' : Engine} {s : SiteId} {node : NodeId} {rule : Rule}
variable {dying : List (Nat × String)}

theorem Seats.mono (h : e.Seats s node rule) (hh : Houses s e e') : e'.Seats s node rule := by
  obtain ⟨hsize, hfree, hsite⟩ := hh h.uses.1 h.uses.2
  exact ⟨⟨hsize, hfree⟩, hsite.trans h.site⟩

theorem UsesSite.mono (h : e.UsesSite s) (hh : Houses s e e') : e'.UsesSite s :=
  ⟨(hh h.1 h.2).1, (hh h.1 h.2).2.1⟩

theorem Seats.siteMatches_iff (h : e.Seats s node rule) :
    e.siteMatches s node rule = true ↔ e.isLive s = true := by
  obtain ⟨x, hx, hsame⟩ := Option.map_eq_some_iff.1 h.site
  obtain ⟨hrule, hnode⟩ := Prod.mk.inj hsame
  unfold siteMatches isLive
  rw [hx]
  simp [hrule, hnode]

theorem CountsAgree.seats_of_matches (hb : e.CountsAgree dying)
    (h : e.siteMatches s node rule = true) : e.Seats s node rule := by
  obtain ⟨x, hx, hmatch⟩ := (Option.any_eq_true _ _).1 h
  simp only [Bool.and_eq_true, Bool.not_eq_true', decide_eq_true_eq] at hmatch
  obtain ⟨⟨hlive, hnode⟩, hrule⟩ := hmatch
  refine ⟨⟨Slots.lt_size_of_get? hx, fun hfree => ?_⟩, ?_⟩
  · obtain ⟨y, hy, hdead⟩ :=
      hb.sites.given_up s.index (List.mem_append_left _ (List.mem_append_right _ hfree))
    rw [show e.sites.get? s.index = some x from hx] at hy
    cases hy
    exact absurd (hlive.symm.trans hdead) (by decide)
  · rw [hx, Option.map_some, hnode, hrule]

theorem CountsAgree.seats_enterSite (hb : e.CountsAgree dying) (node : NodeId)
    (rule : Rule) : ¬e.UsesSite (e.enterSite node rule).1 ∧
      (e.enterSite node rule).2.Seats (e.enterSite node rule).1 node rule := by
  have hgiven : ∀ i ∈ e.sites.released ++ e.sites.free, i < e.sites.size := fun i hi => by
    obtain ⟨x, hx, -⟩ := hb.sites.given_up i (List.mem_append_left _ hi)
    exact Slots.lt_size_of_get? hx
  have hnodup := (List.nodup_append.1 hb.sites.nodup).1
  have hslot := Slots.get?_alloc (fun i hi => hgiven i (List.mem_append_right _ hi))
    ({ node, rule } : Site) (e.sites.alloc { node, rule }).1
  rw [if_pos rfl] at hslot
  obtain ⟨-, htail, -, hne⟩ := Slots.slots_alloc hnodup hgiven ({ node, rule } : Site)
  refine ⟨fun huses => ?_, ⟨Slots.lt_size_of_get? hslot, fun hfree => ?_⟩, ?_⟩
  · rcases e.sites.alloc_index { node, rule } with hi | hi
    · exact huses.2 hi
    · exact Nat.ne_of_lt huses.1 hi
  · exact hne _ (List.mem_append_right _ (htail ▸ hfree)) rfl
  · show ((e.sites.alloc { node, rule }).2.get? (e.sites.alloc { node, rule }).1).map _ = _
    rw [hslot]
    rfl

theorem createSite_related (h : createSite node rule e = .ok s e') :
    s = (e.enterSite node rule).1 ∧ ∀ (R : Engine → Engine → Prop) [Recedes R],
      R (e.enterSite node rule).2 e' := by
  obtain ⟨t, e1, henter, h⟩ := EStateM.bind_ok.1 h
  obtain ⟨_, e2, hregister, h⟩ := EStateM.bind_ok.1 h
  obtain ⟨_, e3, hschedule, h⟩ := EStateM.bind_ok.1 h
  cases henter
  cases hschedule
  cases h
  refine ⟨rfl, fun R _ => ?_⟩
  have hregistered : R (e.enterSite node rule).2 e2 := (rule.honours_register _).ok hregister
  exact Bears.trans hregistered (Recedes.schedule e2 _)

end Engine

namespace Run

open Engine

variable {e e' : Engine} {r r' : Run}
variable {destroy : SiteId → EngineM Unit} {owner : Owner}

theorem createSites_ok {asks : List (SiteKey × NodeId × Rule)} (out : OrderedMap SiteKey SiteId)
    {sites : OrderedMap SiteKey SiteId} (hb : e.CountsAgree [])
    (hn : (out.keys ++ asks.map Prod.fst).Nodup)
    (h : createSites asks out e = .ok sites e') :
    sites.keys.Nodup ∧ (∀ key ∈ sites.keys, key ∈ out.keys ∨ key ∈ asks.map Prod.fst) ∧
      (∀ key s, out.get? key = some s → sites.get? key = some s) ∧
      ∀ ask ∈ asks, ∃ s, sites.get? ask.1 = some s ∧ ¬e.UsesSite s ∧
        e'.Seats s ask.2.1 ask.2.2 := by
  induction asks generalizing e out with
  | nil =>
    cases h
    exact ⟨(List.nodup_append.1 hn).1, fun _ => .inl, fun _ _ => id,
      fun _ hmem => absurd hmem List.not_mem_nil⟩
  | cons ask asks ih =>
    obtain ⟨key, node, rule⟩ := ask
    obtain ⟨s, e1, hcreate, hrest⟩ := EStateM.bind_ok.1 h
    obtain ⟨rfl, hrelated⟩ := createSite_related hcreate
    obtain ⟨hunused, hseats⟩ := hb.seats_enterSite node rule
    set s := (e.enterSite node rule).1
    have hb1 : e1.CountsAgree [] := (honours_createSite (R := KeepsCounts) node rule).ok hcreate
      [] hb
    have hnew : key ∉ out.keys := fun hk =>
      (List.nodup_append.1 hn).2.2 key hk key List.mem_cons_self rfl
    have hkeys : (out.insert key s).keys = out.keys ++ [key] := by
      rw [OrderedMap.keys_insert, if_neg hnew]
    obtain ⟨hnodup, hwithin, hold, hchildren⟩ := ih (out.insert key s) hb1 (by
      rw [hkeys, List.append_assoc]
      exact hn) hrest
    refine ⟨hnodup, fun k hk => ?_, fun k t hk => hold k t ?_, List.forall_mem_cons.2 ⟨?_, ?_⟩⟩
    · rcases hwithin k hk with hk | hk
      · rw [hkeys, List.mem_append, List.mem_singleton] at hk
        rcases hk with hk | rfl
        · exact .inl hk
        · exact .inr List.mem_cons_self
      · exact .inr (List.mem_cons_of_mem _ hk)
    · have hne : key ≠ k := fun he => hnew (he ▸ OrderedMap.mem_keys_of_get? hk)
      rw [OrderedMap.get?_insert, if_neg hne, hk]
    · refine ⟨s, hold key s ((OrderedMap.get?_insert ..).trans (if_pos rfl)), hunused, ?_⟩
      exact (hseats.mono (hrelated (Houses s))).mono ((honours_createSites asks _).ok hrest)
    · intro ask hask
      obtain ⟨t, ht, hfresh, hseat⟩ := hchildren ask hask
      refine ⟨t, ht, fun huses => hfresh ?_, hseat⟩
      exact huses.mono ((honours_createSite node rule).ok hcreate)

def missing (r : Run) : List (SiteKey × NodeId × Rule) :=
  r.effects.pending.sites.entries.filter (not ∘ r.keeps)

def staleSites (r : Run) : List (SiteKey × SiteId) :=
  r.effects.installed.sites.entries.filter fun x =>
    !decide (x.1 ∈ (r.effects.pending.sites.entries.filter r.keeps).map Prod.fst)

theorem installSites_ok :
    installSites destroy r = .ok () r' ↔ ∃ e1 e2 sites,
      (r.staleSites.forM fun x => destroy x.2) r.engine = .ok () e1 ∧
      createSites r.missing ⟨r.keptSites⟩ e1 = .ok sites e2 ∧
      r' = ⟨e2, r.effects.detach.attach sites⟩ := by
  unfold installSites
  rw [EStateM.bind_ok]
  constructor
  · rintro ⟨_, _, hget, h⟩
    cases hget
    rw [List.partition_eq_filter_filter] at h
    obtain ⟨_, _, hset, h⟩ := EStateM.bind_ok.1 h
    cases hset
    obtain ⟨_, r1, hdestroy, h⟩ := EStateM.bind_ok.1 h
    obtain ⟨sites, r2, hcreate, h⟩ := EStateM.bind_ok.1 h
    obtain ⟨e1, he1, rfl⟩ := RunM.ofEngine_ok.1 hdestroy
    obtain ⟨e2, he2, rfl⟩ := RunM.ofEngine_ok.1 hcreate
    cases h
    exact ⟨e1, e2, sites, he1, he2, rfl⟩
  · rintro ⟨e1, e2, sites, he1, he2, rfl⟩
    refine ⟨r, r, rfl, ?_⟩
    rw [List.partition_eq_filter_filter]
    exact EStateM.bind_ok.2 ⟨_, _, rfl, EStateM.bind_ok.2 ⟨_, _, RunM.ofEngine_ok.2
      ⟨e1, he1, rfl⟩, EStateM.bind_ok.2 ⟨_, _, RunM.ofEngine_ok.2 ⟨e2, he2, rfl⟩, rfl⟩⟩⟩

theorem nodup_kept_missing (hn : r.effects.pending.sites.keys.Nodup) :
    (r.keptSites.map Prod.fst ++ r.missing.map Prod.fst).Nodup := by
  have hperm := List.filter_append_perm r.keeps r.effects.pending.sites.entries
  have hkeys : ((r.effects.pending.sites.entries.filter r.keeps).map Prod.fst ++
      r.missing.map Prod.fst).Nodup := by
    rw [← List.map_append]
    exact ((hperm.map Prod.fst).nodup_iff).2 hn
  exact hkeys.sublist (keys_keptSites.append_right _)

/-- Every child that was asked for is listed under its key, in a slot that holds what was asked for.
Nothing else is listed. -/
theorem seats_installSites (hb : r.engine.CountsAgree []) (hn : r.effects.pending.sites.keys.Nodup)
    (h : installSites destroySite r = .ok () r') :
    r'.effects.installed.sites.keys.Nodup ∧
      (∀ key ∈ r'.effects.installed.sites.keys, key ∈ r.effects.pending.sites.keys) ∧
      ∀ ask ∈ r.effects.pending.sites.entries, ∃ s,
        r'.effects.installed.sites.get? ask.1 = some s ∧ r'.engine.Seats s ask.2.1 ask.2.2 := by
  obtain ⟨e1, e2, sites, hdestroy, hcreate, rfl⟩ := installSites_ok.1 h
  have hb1 : e1.CountsAgree [] :=
    (honours_forM (R := KeepsCounts) (fun x : SiteKey × SiteId => honours_destroySite x.2) _).ok
      hdestroy [] hb
  obtain ⟨hnodup, hwithin, hold, hchildren⟩ :=
    createSites_ok ⟨r.keptSites⟩ hb1 (nodup_kept_missing hn) hcreate
  have hhouses : ∀ s, Houses s r.engine e2 := fun s => Houses.trans
    ((honours_forM (fun x : SiteKey × SiteId => honours_destroySite x.2) _).ok hdestroy)
    ((honours_createSites _ _).ok hcreate)
  refine ⟨hnodup, fun key hk => ?_, fun ask hask => ?_⟩
  · rcases hwithin key hk with hk | hk
    · obtain ⟨x, hx, rfl⟩ := List.mem_map.1 (keys_keptSites.subset hk)
      exact List.mem_map_of_mem (List.mem_of_mem_filter hx)
    · obtain ⟨x, hx, rfl⟩ := List.mem_map.1 hk
      exact List.mem_map_of_mem (List.mem_of_mem_filter hx)
  · by_cases hkeep : r.keeps ask = true
    · obtain ⟨s, hs, hmatch⟩ := (Option.any_eq_true _ _).1 hkeep
      refine ⟨s, hold ask.1 s ?_, (hb.seats_of_matches hmatch).mono (hhouses s)⟩
      refine OrderedMap.get?_of_mem_entries (x := (ask.1, s))
        (List.nodup_append.1 (nodup_kept_missing hn)).1 ?_
      exact List.mem_filterMap.2 ⟨ask, List.mem_filter.2 ⟨hask, hkeep⟩, by rw [hs]; rfl⟩
    · obtain ⟨s, hs, -, hseats⟩ := hchildren ask (List.mem_filter.2 ⟨hask, by simpa using hkeep⟩)
      exact ⟨s, hs, hseats⟩

theorem installWith_ok :
    installWith destroy owner r = .ok () r' ↔ ∃ r1 r2,
      installSites destroy r.installEdges = .ok () r1 ∧
      installReads owner r1.installDiagnostics = .ok () r2 ∧ r' = r2.installScratch := by
  unfold installWith
  constructor
  · intro h
    obtain ⟨_, _, hedges, h⟩ := EStateM.bind_ok.1 h
    obtain ⟨_, r1, hsites, h⟩ := EStateM.bind_ok.1 h
    obtain ⟨_, _, hdiagnostics, h⟩ := EStateM.bind_ok.1 h
    cases hedges
    cases hdiagnostics
    obtain ⟨_, r2, hreads, hscratch⟩ := EStateM.bind_ok.1 h
    cases hscratch
    exact ⟨r1, r2, hsites, hreads, rfl⟩
  · rintro ⟨r1, r2, hsites, hreads, rfl⟩
    exact EStateM.bind_ok.2 ⟨_, _, rfl, EStateM.bind_ok.2 ⟨_, r1, hsites,
      EStateM.bind_ok.2 ⟨_, _, rfl, EStateM.bind_ok.2 ⟨_, r2, hreads, rfl⟩⟩⟩⟩

theorem world_installScratch (r : Run) : r.installScratch.engine.world = r.engine.world := by
  have hbury : ∀ (as : List (ScratchKey × VertexId)) (e : Engine),
      (as.foldl (fun e x => e.destroyVertex x.2) e).world = e.world := by
    intro as
    induction as with
    | nil => exact fun _ => rfl
    | cons x as ih =>
      intro e
      obtain ⟨queue, hq⟩ := e.exists_adoptGraph_eq (e.graph.destroy x.2)
      refine (ih _).trans ?_
      show (e.adoptGraph (e.graph.destroy x.2)).world = e.world
      rw [hq]
  exact hbury _ r.engine

/-- What is in place after a run is what the run asked for: each child in a slot that holds it, and
the owner on the files of all that it read. -/
theorem install_spec (hb : r.engine.CountsAgree [])
    (hn : r.effects.pending.sites.keys.Nodup)
    (hknown : ∀ d, r.effects.pending.Reads d → r.engine.world.Knows d.module)
    (h : install owner r = .ok () r') :
    ∃ sites, r'.effects = r.effects.settled sites owner ∧ sites.keys.Nodup ∧
      (∀ key ∈ sites.keys, key ∈ r.effects.pending.sites.keys) ∧
      (∀ ask ∈ r.effects.pending.sites.entries, ∃ s, sites.get? ask.1 = some s ∧
        r'.engine.Seats s ask.2.1 ask.2.2) ∧
      ∀ s, owner = .site s → ∀ d, r.effects.pending.Reads d → s ∈ r'.engine.world.watchers d := by
  obtain ⟨r1, r2, hsites, hreads, rfl⟩ := installWith_ok.1 h
  have hkeepsCounts : KeepsCounts r.engine r.installEdges.engine :=
    related_installEdges fun x _ e => Endures.addEdge e x.1 x.2
  obtain ⟨hnodup, hwithin, hseats⟩ := seats_installSites (hkeepsCounts [] hb) hn hsites
  -- burying vertices touches neither the sites nor the files
  have hscratch : ∀ {R : Engine → Engine → Prop} [Recedes R],
      R r2.engine r2.installScratch.engine := fun {R} _ => related_foldl (fun x _ e =>
        Recedes.destroyVertex e x.2) r2.engine
  have hhouses : ∀ s, Houses s r1.engine r2.installScratch.engine := fun s =>
    Houses.trans (show Houses s r1.installDiagnostics.engine r2.engine from
      (honours_installReads owner).ok hreads) hscratch
  have hknown1 : ∀ d, r.effects.pending.Reads d → r1.engine.world.Knows d.module := fun d hd => by
    have hedges : r.engine.Upholds r.installEdges.engine :=
      related_installEdges fun x _ e => Endures.addEdge e x.1 x.2
    have hchildren : r.installEdges.engine.Upholds r1.engine :=
      (honours_installSites honours_destroySite).ok hsites
    exact (hedges.trans hchildren).world.knows (hknown d hd)
  obtain ⟨e1, e2, sites, -, -, rfl⟩ := installSites_ok.1 hsites
  refine ⟨sites, ?_, hnodup, hwithin, fun ask hask => ?_, fun s hs d hd => ?_⟩
  · cases owner with
    | node n =>
      cases hreads
      rfl
    | site s =>
      obtain ⟨e3, -, rfl⟩ := installReads_ok.1 hreads
      rfl
  · obtain ⟨s, hs, hseat⟩ := hseats ask hask
    exact ⟨s, hs, hseat.mono (hhouses s)⟩
  · subst hs
    obtain ⟨e3, hrefile, rfl⟩ := installReads_ok.1 hreads
    have hfiled := mem_watchers_refileAll hrefile hknown1 d hd
    rwa [world_installScratch]

theorem installEdges_again (h : r.effects.installed.edges = r.effects.pending.edges) :
    r.installEdges.engine = r.engine := by
  have hnone : ∀ edges : OrderedSet (VertexId × VertexId),
      (edges.toList.filter fun x => !edges.contains x) = [] := fun edges =>
    List.filter_eq_nil_iff.2 fun x hx => by simp [OrderedSet.contains, hx]
  unfold installEdges
  simp only [h, hnone, List.foldl_nil]

theorem installScratch_again (h : r.effects.installed.scratch = r.effects.pending.scratch)
    (hn : r.effects.pending.scratch.keys.Nodup) : r.installScratch.engine = r.engine := by
  have hnone : (r.effects.pending.scratch.entries.filter fun x =>
      !decide (r.effects.pending.scratch.get? x.1 = some x.2)) = [] :=
    List.filter_eq_nil_iff.2 fun x hx => by simp [OrderedMap.get?_of_mem_entries hn hx]
  unfold installScratch
  simp only [h, hnone, List.foldl_nil]

theorem installSites_again (destroy : SiteId → EngineM Unit)
    (hkeep : ∀ ask ∈ r.effects.pending.sites.entries, r.keeps ask = true)
    (hwithin : ∀ key ∈ r.effects.installed.sites.keys, key ∈ r.effects.pending.sites.keys) :
    installSites destroy r = .ok () ⟨r.engine, r.effects.detach.attach ⟨r.keptSites⟩⟩ := by
  have hall : r.effects.pending.sites.entries.filter r.keeps = r.effects.pending.sites.entries :=
    List.filter_eq_self.2 hkeep
  have hstale : r.staleSites = [] := by
    refine List.filter_eq_nil_iff.2 fun x hx => ?_
    have hmem : x.1 ∈ r.effects.pending.sites.entries.map Prod.fst :=
      hwithin x.1 (List.mem_map_of_mem hx)
    rw [hall, decide_eq_true hmem]
    decide
  have hmissing : r.missing = [] :=
    List.filter_eq_nil_iff.2 fun ask hask => by simp [hkeep ask hask]
  refine installSites_ok.2 ⟨r.engine, r.engine, ⟨r.keptSites⟩, ?_, ?_, rfl⟩
  · rw [hstale]
    rfl
  · rw [hmissing]
    rfl

theorem mem_keptSites_iff (hn : r.effects.installed.sites.keys.Nodup)
    (hkeep : ∀ ask ∈ r.effects.pending.sites.entries, r.keeps ask = true)
    (hwithin : ∀ key ∈ r.effects.installed.sites.keys, key ∈ r.effects.pending.sites.keys)
    {x : SiteKey × SiteId} : x ∈ r.keptSites ↔ x ∈ r.effects.installed.sites.entries := by
  refine ⟨mem_keptSites, fun hx => mem_keptSites_of_key hn hx ?_⟩
  rw [List.filter_eq_self.2 hkeep]
  exact hwithin x.1 (List.mem_map_of_mem hx)

end Run

end Children

section Repeat

namespace Run

structure Untouched (r r' : Run) : Prop where
  engine : r'.engine = { r.engine with world := r'.engine.world }
  watchers : ∀ d s, s ∈ r'.engine.world.watchers d ↔ s ∈ r.engine.world.watchers d
  children : ∀ x, x ∈ r'.effects.installed.sites.entries ↔ x ∈ r.effects.installed.sites.entries
  rest : r'.effects = r.effects.attach r'.effects.installed.sites

end Run

namespace Script

/-- Follows a script and installs what it asks for. -/
def perform (script : Script) (owner : Owner) : RunM (List VertexId) := fun r =>
  match script.stage [] r with
  | some (got, r) => (do Engine.install owner; return got) r
  | none => .error .endlessMatch r

variable {script : Script} {owner : Owner} {got : List VertexId} {r r' : Run}

theorem perform_ok : script.perform owner r = .ok got r' ↔
    ∃ r1, script.stage [] r = some (got, r1) ∧ Engine.install owner r1 = .ok () r' := by
  unfold perform
  cases script.stage [] r with
  | none => simp
  | some x =>
    refine EStateM.bind_ok.trans ⟨?_, ?_⟩
    · rintro ⟨_, t, ht, h⟩
      cases h
      exact ⟨x.2, rfl, ht⟩
    · rintro ⟨r1, hx, h⟩
      cases hx
      exact ⟨_, r', h, rfl⟩

end Script

namespace Run

open Engine

variable {owner : Owner} {r r' : Run} {P : Dependency → Prop}

theorem install_again {sites : OrderedMap SiteKey SiteId} (hproper : r.effects.pending.Proper P)
    (heffects : r'.effects = r.effects.settled sites owner) (hn : sites.keys.Nodup)
    (hwithin : ∀ key ∈ sites.keys, key ∈ r.effects.pending.sites.keys)
    (hmatch : ∀ ask ∈ r.effects.pending.sites.entries, ∃ s, sites.get? ask.1 = some s ∧
      r'.engine.siteMatches s ask.2.1 ask.2.2 = true)
    (hfiled : ∀ s, owner = .site s → ∀ d, r.effects.pending.Reads d →
      s ∈ r'.engine.world.watchers d) :
    ∃ r'', install owner (r.again r'.engine r'.effects.installed) = .ok () r'' ∧
      r'.Untouched r'' := by
  obtain ⟨e', fx'⟩ := r'
  obtain rfl : fx' = r.effects.settled sites owner := heffects
  let i := (r.again e' (r.effects.settled sites owner).installed).installEdges
  have hedges : i.engine = e' := installEdges_again (by cases owner <;> rfl)
  have hsites : i.effects.installed.sites = sites := by cases owner <;> rfl
  have hkeep : ∀ ask ∈ i.effects.pending.sites.entries, i.keeps ask = true := fun ask hask => by
    obtain ⟨s, hs, hmatch⟩ := hmatch ask hask
    unfold keeps
    rw [hsites, hs, hedges]
    exact hmatch
  have hchildren := installSites_again destroySite hkeep (hsites ▸ hwithin)
  have hkept : ∀ x, x ∈ i.keptSites ↔ x ∈ sites.entries := fun x => by
    rw [← hsites]
    refine mem_keptSites_iff (hsites ▸ hn) hkeep (hsites ▸ hwithin)
  let c : Run := ⟨i.engine, i.effects.detach.attach ⟨i.keptSites⟩⟩
  cases owner with
  | node n =>
    have hengine : c.installDiagnostics.installScratch.engine = e' :=
      (installScratch_again (r := c.installDiagnostics) rfl hproper.scratch).trans hedges
    refine ⟨_, installWith_ok.2 ⟨c, c.installDiagnostics, hchildren, rfl, rfl⟩, ?_, fun d t => ?_,
      hkept, rfl⟩
    · rw [hengine]
    · rw [hengine]
  | site s =>
    obtain ⟨w, hrefile, hw⟩ := refileAll_again (s := s) (e := e')
      (x := (r.effects.settled sites (.site s)).installed) rfl rfl rfl hproper.once (hfiled s rfl)
    let f : Run := ⟨{ e' with world := w }, c.installDiagnostics.effects.postReads⟩
    have hreads : installReads (.site s) c.installDiagnostics = .ok () f := by
      refine installReads_ok.2 ⟨_, ?_, rfl⟩
      show refileAll s (r.effects.settled sites (.site s)).installed r.effects.pending i.engine = _
      rw [hedges]
      exact hrefile
    have hengine : f.installScratch.engine = { e' with world := w } :=
      installScratch_again (r := f) rfl hproper.scratch
    refine ⟨_, installWith_ok.2 ⟨c, f, hchildren, hreads, rfl⟩, ?_, fun d t => ?_, hkept, rfl⟩
    · rw [hengine]
    · rw [hengine]
      exact hw d t

end Run

theorem Staging.effects_scratch {label : String} {fit : Vertex → Bool}
    {create : Engine → VertexId × Engine} {r r' : Run} {v : VertexId}
    (h : scratch label fit create r = some (v, r')) :
    r'.effects = r.effects.addPrivate label v := by
  cases hre : reusable? r (r.effects.privateKey label) fit with
  | some u =>
    rw [scratch_of_reusable hre] at h
    cases h
    rfl
  | none =>
    rw [scratch_of_not_reusable hre] at h
    cases h
    rfl

theorem Wish.obtains {wish : Wish} {new : Option VertexId} {r r' : Run} {key : ScratchKey}
    {v : VertexId} (h : wish.stage r = some (new, r'))
    (hv : r'.effects.pending.scratch.get? key = some v) :
    r.effects.pending.scratch.get? key = some v ∨ new = some v := by
  have hprivate : ∀ {label : String} {fit : Vertex → Bool} {create : Engine → VertexId × Engine},
      (Staging.scratch label fit create >>= fun u => Pure.pure (some u)) r = some (new, r') →
      r.effects.pending.scratch.get? key = some v ∨ new = some v := by
    intro label fit create h
    change (Staging.scratch label fit create r).bind (fun x => some (some x.1, x.2)) = _ at h
    obtain ⟨⟨u, r1⟩, hscratch, hpure⟩ := Option.bind_eq_some_iff.1 h
    cases hpure
    rw [Staging.effects_scratch hscratch, Effects.get?_addPrivate] at hv
    split at hv
    · exact .inr hv
    · exact .inl hv
  cases wish with
  | edge | site | diagnostic =>
    cases h
    exact .inl hv
  | read d =>
    cases h
    cases d <;> exact .inl hv
  | freshVertex | freshSource => exact hprivate h
  | typeSource label t =>
    change (Staging.typeSource label t >>= fun u => Pure.pure (some u)) r = _ at h
    unfold Staging.typeSource at h
    split at h
    · cases h
      exact .inl hv
    · exact hprivate h

namespace Script

variable {script : Script} {got got' : List VertexId} {r r' : Run}

theorem keeps_stage {R : Engine → Engine → Prop} [Engine.Bears R] (script : Script)
    (got : List VertexId) : Staging.Keeps R (script.stage got) := by
  induction script generalizing got with
  | nil => exact Staging.keeps_pure got
  | cons ask rest ih =>
    refine Staging.keeps_bind ?_ fun new => ih _
    cases ask got with
    | edge | site | diagnostic | read =>
      exact Staging.keeps_bind (Staging.keeps_onEffects _) fun _ => Staging.keeps_pure _
    | freshVertex label =>
      exact Staging.keeps_of_fine (Walk.fine_bind (Walk.fine_freshVertex label) (by simp))
    | freshSource label types =>
      exact Staging.keeps_of_fine (Walk.fine_bind
        (fun _ => (Staging.keeping R).freshSource label fun _ _ => False.elim) (by simp))
    | typeSource label t =>
      exact Staging.keeps_of_fine (Walk.fine_bind
        (fun _ => Walk.holds_typeSource label False.elim) (by simp))

theorem mem_got (h : script.stage got r = some (got', r')) :
    got ⊆ got' ∧ ∀ key v, r'.effects.pending.scratch.get? key = some v →
      r.effects.pending.scratch.get? key = some v ∨ v ∈ got' := by
  induction script generalizing got r with
  | nil =>
    cases h
    exact ⟨fun _ => id, fun _ _ => .inl⟩
  | cons ask rest ih =>
    change ((ask got).stage r).bind (fun x => Script.stage rest (got ++ x.1.toList) x.2) = _ at h
    obtain ⟨⟨new, r1⟩, hfirst, hrest⟩ := Option.bind_eq_some_iff.1 h
    obtain ⟨hgot, hscratch⟩ := ih hrest
    refine ⟨fun v hv => hgot (List.mem_append_left _ hv), fun key v hv => ?_⟩
    rcases hscratch key v hv with hv | hv
    · refine (Wish.obtains hfirst hv).imp_right fun hnew => ?_
      exact hgot (List.mem_append_right _ (by simp [hnew]))
    · exact .inr hv

end Script

theorem Graph.Settled.stands {g g' : Graph} {born born' : VertexId → List Ty} {v : VertexId}
    (h : g.Settled born) (h' : g'.Settled born') (hv : (g.get v).alive = true)
    (hv' : (g'.get v).alive = true) (hborn : born' v = born v)
    (hsource : (g'.get v).source = (g.get v).source)
    (hnone : (g.get v).source = true → (∀ u, (g.get u).owners v = 0) ∧
      ∀ u, (g'.get u).owners v = 0) : (g.get v).Stands (g'.get v) := by
  have hpure : ∀ {g : Graph} {born}, g.Settled born → (g.get v).alive = true →
      (∀ u, (g.get u).owners v = 0) → ∀ t, t ∈ (g.get v).typeList ↔ t ∈ born v :=
    fun {g born} h hv hin t => by
      rw [h.mem_typeList hv]
      refine or_iff_left ?_
      rintro ⟨u, hu, -⟩
      exact absurd (hin u) (Nat.ne_of_gt ((h.tidy u).owned v hu))
  have htypes : (g.get v).source = true → ∀ t, t ∈ (g'.get v).typeList ↔ t ∈ (g.get v).typeList :=
    fun hs t => by
      obtain ⟨hin, hin'⟩ := hnone hs
      rw [hpure h' hv' hin', hpure h hv hin, hborn]
  refine ⟨hv', hsource, fun hs => ?_, fun hs t => ?_⟩
  · rw [← OrderedMap.length_keys, ← OrderedMap.length_keys]
    exact ((List.perm_ext_iff_of_nodup (h'.tidy v).types_nodup (h.tidy v).types_nodup).2
      (htypes hs)).length_eq
  · exact Bool.eq_iff_iff.2 (OrderedMap.contains_iff.trans ((htypes hs t).trans
      OrderedMap.contains_iff.symm))

variable {e : Engine} {had : Installed} {owner : Owner} {script : Script} {got : List VertexId}
  {asked r : Run}

theorem Graph.owners_eq_zero {g : Graph} {u v : VertexId} (h : g.hasEdge u v = false) :
    (g.get u).owners v = 0 := by
  have hnone : (g.get u).next.get? v = none := OrderedMap.get?_eq_none_iff.2 fun hmem => by
    rw [Graph.hasEdge, OrderedMap.contains_iff.2 hmem] at h
    cases h
  rw [Vertex.owners, hnone, Option.getD_none]

theorem Run.stocked_of_install {P : Dependency → Prop} (hfair : asked.Fair P)
    (hsources : ∀ key v, asked.effects.pending.scratch.get? key = some v →
      (asked.engine.vertex v).source = true → ∀ u,
        asked.engine.graph.hasEdge u v = false ∧ (u, v) ∉ asked.effects.pending.edges.toList)
    (hinstall : Engine.install owner asked = .ok () r)
    (hscratch : r.effects.installed.scratch = asked.effects.pending.scratch) :
    asked.Stocked r.engine r.effects.installed where
  scratch key v hv := hscratch ▸ hv
  shared := ((Engine.honours_install (R := Engine.Upholds) owner).ok hinstall).shared
  stands key v hv hlive := by
    obtain ⟨born, hborn⟩ := hfair.settled
    have halive := hfair.alive key v hv
    obtain ⟨born', hborn', hkeep⟩ := (Engine.honours_install
      (R := fun e e' => Graph.Retains v e.graph e'.graph) owner).ok hinstall born hborn
    obtain ⟨-, hsame, hsource⟩ := hkeep (hborn.uses_of_alive halive)
    refine hborn.stands hborn' halive hlive hsame hsource fun hs => ?_
    have hnone : ∀ u, (asked.engine.graph.get u).owners v = 0 := fun u =>
      Graph.owners_eq_zero (hsources key v hv hs u).1
    refine ⟨hnone, ?_⟩
    have hshuns := Engine.related_install (R := fun e e' => Graph.Shuns v e.graph e'.graph) owner
      (r := asked) fun x hx e => by
        rw [show (e.addEdge x.1 x.2).2.graph = (e.graph.addEdge x.1 x.2).2.graph from
          Engine.graph_adoptGraph e _]
        exact .addEdge e.graph fun he => (hsources key v hv hs x.1).2 (he ▸ hx)
    rw [leftBy_of_ok hinstall] at hshuns
    exact hshuns hnone

theorem Run.matches_of_sites_eq {r' : Run} (hb : r.engine.CountsAgree [])
    (hn : r.effects.pending.sites.keys.Nodup)
    (hedges : r.effects.installed.edges = r.effects.pending.edges)
    (hinstall : Engine.install owner r = .ok () r') (hsites : r'.engine.sites = r.engine.sites) :
    ∀ ask ∈ r.effects.pending.sites.entries, ∃ s, r.effects.installed.sites.get? ask.1 = some s ∧
      r.engine.siteMatches s ask.2.1 ask.2.2 = true := by
  intro ask hask
  obtain ⟨r1, r2, hchildren, hreads, rfl⟩ := Run.installWith_ok.1 hinstall
  obtain ⟨e1, e2, sites, hdestroy, hcreate, rfl⟩ := Run.installSites_ok.1 hchildren
  have hengine := Run.installEdges_again hedges
  by_cases hkeep : r.installEdges.keeps ask = true
  · obtain ⟨s, hs, hmatch⟩ := (Option.any_eq_true _ _).1 hkeep
    rw [hengine] at hmatch
    exact ⟨s, hs, hmatch⟩
  · -- the child would be created in a slot that was not in use before, and is in use for good
    have hb1 : e1.CountsAgree [] := (honours_forM (R := Engine.KeepsCounts)
      (fun x : SiteKey × SiteId => Engine.honours_destroySite x.2) _).ok hdestroy []
      (hengine.symm ▸ hb)
    obtain ⟨-, -, -, hnew⟩ := Run.createSites_ok ⟨r.installEdges.keptSites⟩ hb1
      (Run.nodup_kept_missing (r := r.installEdges) hn) hcreate
    obtain ⟨s, -, hunused, hseats⟩ := hnew ask (List.mem_filter.2 ⟨hask, by simpa using hkeep⟩)
    have hbefore : Engine.Houses s r.engine e1 := hengine ▸
      (honours_forM (fun x : SiteKey × SiteId => Engine.honours_destroySite x.2) _).ok hdestroy
    have hafter : Engine.Houses s e2 r2.installScratch.engine := Engine.Houses.trans
      (show Engine.Houses s _ r2.engine from (Run.honours_installReads owner).ok hreads)
      (related_foldl (fun x _ e => Engine.Recedes.destroyVertex e x.2) r2.engine)
    have huses : r.engine.UsesSite s := by
      have huses := hseats.uses.mono hafter
      unfold Engine.UsesSite at huses
      rwa [hsites] at huses
    exact absurd (huses.mono hbefore) hunused

theorem Effects.pending_settled {fx : Effects} (sites : OrderedMap SiteKey SiteId)
    (h : ∀ d, fx.pending.Reads d → ∃ s, owner = .site s) :
    (fx.settled sites owner).pending = {} := by
  cases owner with
  | site s => rfl
  | node n =>
    have hnone : ∀ d, ¬fx.pending.Reads d := fun d hd => by
      obtain ⟨s, hs⟩ := h d hd
      cases hs
    have hempty : ∀ {α : Type} {s : OrderedSet α}, (∀ a, a ∉ s.toList) → s = {} := by
      intro α s hs
      cases s
      exact congrArg OrderedSet.mk (List.eq_nil_iff_forall_not_mem.2 hs)
    simp only [Effects.settled, hempty fun key => hnone (.method key),
      hempty fun key => hnone (.const key), hempty fun m => hnone (.superclass m)]

structure Precedent (script : Script) (owner : Owner) (got : List VertexId) (asked r : Run)
    (sites : OrderedMap SiteKey SiteId) : Prop where
  countsAgree : r.engine.CountsAgree []
  proper : asked.effects.pending.Proper fun _ => True
  effects : r.effects = asked.effects.settled sites owner
  nodup : sites.keys.Nodup
  within : ∀ key ∈ sites.keys, key ∈ asked.effects.pending.sites.keys
  seats : ∀ ask ∈ asked.effects.pending.sites.entries, ∃ s, sites.get? ask.1 = some s ∧
    r.engine.Seats s ask.2.1 ask.2.2
  filed : ∀ s, owner = .site s → ∀ d, asked.effects.pending.Reads d →
    s ∈ r.engine.world.watchers d
  same : asked.Intact r.engine →
    script.stage [] r = some (got, asked.again r.engine r.effects.installed)
  other : ¬asked.Intact r.engine → ∀ b s, script.stage [] r = some (b, s) →
    ∃ v, ¬r.engine.graph.Uses v ∧ s.engine.graph.Uses v

namespace Precedent

variable {sites : OrderedMap SiteKey SiteId} {r' : Run}

theorem installed_edges (h : Precedent script owner got asked r sites) :
    r.effects.installed.edges = asked.effects.pending.edges := by
  rw [h.effects]
  cases owner <;> rfl

theorem installed_sites (h : Precedent script owner got asked r sites) :
    r.effects.installed.sites = sites := by
  rw [h.effects]
  cases owner <;> rfl

theorem intact_iff (h : Precedent script owner got asked r sites) : asked.Intact r.engine ↔
    ∀ v ∈ r.effects.installed.scratch.values, (r.engine.vertex v).alive = true := by
  have hscratch : r.effects.installed.scratch = asked.effects.pending.scratch := by
    rw [h.effects]
    cases owner <;> rfl
  rw [hscratch]
  refine ⟨fun hlive v hv => ?_, fun hlive key v hv => hlive v (OrderedMap.mem_values_of_get? hv)⟩
  obtain ⟨x, hx, rfl⟩ := List.mem_map.1 hv
  exact hlive x.1 x.2 (OrderedMap.get?_of_mem_entries h.proper.scratch hx)

/-- With all in place alive, following the script again touches nothing. -/
theorem untouched (h : Precedent script owner got asked r sites) (hlive : asked.Intact r.engine)
    (hchildren : ∀ s ∈ sites.values, r.engine.isLive s = true) :
    ∃ r', script.perform owner r = .ok got r' ∧ r.Untouched r' := by
  obtain ⟨r', hinstall, huntouched⟩ := Run.install_again h.proper h.effects h.nodup h.within
    (fun ask hask => by
      obtain ⟨s, hs, hseat⟩ := h.seats ask hask
      exact ⟨s, hs, hseat.siteMatches_iff.2 (hchildren s (OrderedMap.mem_values_of_get? hs))⟩)
    h.filed
  exact ⟨r', Script.perform_ok.2 ⟨_, h.same hlive, hinstall⟩, huntouched⟩

/-- A private vertex that is dead is replaced, in a slot that stays in use. -/
theorem intact_of_untouched (h : Precedent script owner got asked r sites)
    (hperform : script.perform owner r = .ok got r') (huntouched : r.Untouched r') :
    asked.Intact r.engine := by
  obtain ⟨asked', hstage, hinstall⟩ := Script.perform_ok.1 hperform
  by_contra hdead
  obtain ⟨v, hunused, hused⟩ := h.other hdead got asked' hstage
  obtain ⟨born, hborn⟩ := (Script.keeps_stage (R := Engine.KeepsCounts) script [] _ _ _ hstage []
    h.countsAgree).graph.settled
  obtain ⟨_, _, hkeep⟩ := (Engine.honours_install
    (R := fun e e' => Graph.Retains v e.graph e'.graph) owner).ok hinstall born hborn
  have huses : r'.engine.graph.Uses v := (hkeep hused).1
  rw [huntouched.engine] at huses
  exact hunused huses

theorem live_of_untouched (h : Precedent script owner got asked r sites)
    (hperform : script.perform owner r = .ok got r') (huntouched : r.Untouched r') :
    ∀ s ∈ sites.values, r.engine.isLive s = true := by
  obtain ⟨asked', hstage, hinstall⟩ := Script.perform_ok.1 hperform
  rw [h.same (h.intact_of_untouched hperform huntouched)] at hstage
  cases hstage
  have hsites : r'.engine.sites = r.engine.sites := by rw [huntouched.engine]
  intro s hs
  obtain ⟨x, hx, rfl⟩ := List.mem_map.1 hs
  obtain ⟨ask, hask, hkey⟩ := List.mem_map.1 (h.within x.1 (List.mem_map_of_mem hx))
  obtain ⟨s, hs, hmatch⟩ := Run.matches_of_sites_eq
    (r := asked.again r.engine r.effects.installed) h.countsAgree h.proper.sites h.installed_edges
    hinstall hsites ask hask
  have hfound : r.effects.installed.sites.get? ask.1 = some x.2 := by
    rw [hkey, h.installed_sites]
    exact OrderedMap.get?_of_mem_entries h.nodup hx
  obtain rfl : x.2 = s := Option.some.inj (hfound.symm.trans hs)
  exact (h.countsAgree.seats_of_matches hmatch).siteMatches_iff.1 hmatch

end Precedent

theorem precedent_of_install (hkeepsCounts : e.CountsAgree [])
    (hallowed : script.Allowed fun d => (∃ s, owner = .site s) ∧ e.world.Knows d.module)
    (hstage : script.stage [] ⟨e, { installed := had }⟩ = some (got, asked))
    (hsources : ∀ v ∈ got, (asked.engine.vertex v).source = true → ∀ u,
      asked.engine.graph.hasEdge u v = false ∧ (u, v) ∉ asked.effects.pending.edges.toList)
    (hinstall : Engine.install owner asked = .ok () r) :
    ∃ sites, Precedent script owner got asked r sites := by
  have hstart : Run.Fair (fun d => (∃ s, owner = .site s) ∧ e.world.Knows d.module)
      ⟨e, { installed := had }⟩ :=
    ⟨hkeepsCounts.graph.settled, .empty, fun _ _ hv => by cases hv⟩
  have hreplays := Script.replays hallowed []
  obtain ⟨hfair, hprecedes⟩ := hreplays.proceeds hstart hstage
  have hproper := hfair.proper
  have hasked : asked.engine.CountsAgree [] := Script.keeps_stage (R := Engine.KeepsCounts) script
    [] _ _ _
    hstage [] hkeepsCounts
  have hworld : asked.engine.world = e.world := by
    obtain ⟨graph, hg⟩ := hprecedes.aside
    rw [hg]
  obtain ⟨sites, heffects, hnodup, hwithin, hseats, hfiled⟩ := Run.install_spec hasked
    hproper.sites (fun d hd => hworld ▸ (hproper.reads d hd).2) hinstall
  have hscratch : r.effects.installed.scratch = asked.effects.pending.scratch := by
    rw [heffects]
    cases owner <;> rfl
  -- nothing is left pending, so the second run starts as the first one did
  have hagain : Run.again ⟨e, { installed := had }⟩ r.engine r.effects.installed = r := by
    have hpending : r.effects.pending = {} := by
      rw [heffects]
      exact Effects.pending_settled sites fun d hd => (hproper.reads d hd).1
    show Run.mk r.engine ⟨r.effects.installed, {}⟩ = r
    rw [← hpending]
  have hcountsAgree : r.engine.CountsAgree [] :=
    (Engine.honours_install (R := Engine.KeepsCounts) owner).ok hinstall [] hasked
  have hstock := Run.stocked_of_install hfair (fun key v hv => by
    refine hsources v (((Script.mem_got hstage).2 key v hv).resolve_left fun hnone => ?_)
    cases hnone) hinstall hscratch
  obtain ⟨hsame, hother⟩ := hreplays.again hstart hstage hstock hcountsAgree.graph.settled
    fun _ _ hv => by cases hv
  rw [hagain] at hsame hother
  exact ⟨sites, hcountsAgree, ⟨hproper.numbered, hproper.scratch, hproper.sites, hproper.once,
    fun _ _ => trivial⟩, heffects, hnodup, hwithin, hseats, hfiled, hsame, hother⟩

/-- A script is followed and what it asks for is installed, in an engine whose books are in order
and with anything in place before. Sites may read known modules, sources are asked for without
repetitions, and no edge that is stored or asked for ends in a source that the script obtains. Then
the same script, followed once more, obtains the same vertices and touches nothing, if and only if
its first installation has left alive every private vertex and every child that it asked for. -/
theorem identical_run_iff (hkeepsCounts : e.CountsAgree [])
    (hallowed : script.Allowed fun d => (∃ s, owner = .site s) ∧ e.world.Knows d.module)
    (hstage : script.stage [] ⟨e, { installed := had }⟩ = some (got, asked))
    (hsources : ∀ v ∈ got, (asked.engine.vertex v).source = true → ∀ u,
      asked.engine.graph.hasEdge u v = false ∧ (u, v) ∉ asked.effects.pending.edges.toList)
    (hinstall : Engine.install owner asked = .ok () r) :
    (∃ r', script.perform owner r = .ok got r' ∧ r.Untouched r') ↔
      (∀ v ∈ r.effects.installed.scratch.values, (r.engine.vertex v).alive = true) ∧
        ∀ s ∈ r.effects.installed.sites.values, r.engine.isLive s = true := by
  obtain ⟨sites, h⟩ := precedent_of_install hkeepsCounts hallowed hstage hsources hinstall
  rw [← h.intact_iff, h.installed_sites]
  constructor
  · rintro ⟨r', hperform, huntouched⟩
    exact ⟨h.intact_of_untouched hperform huntouched, h.live_of_untouched hperform huntouched⟩
  · rintro ⟨hlive, hchildren⟩
    exact h.untouched hlive hchildren

/-- Asks for a vertex and a source that flows into it, for a site that listens there, and notes a
constant, a method and a module. -/
def Script.sample : Script := [
  fun _ => .freshVertex "t",
  fun _ => .freshSource "s" [.nil, .true],
  fun got => .edge ⟨30⟩ (got.getD 0 ⟨0⟩),
  fun got => .edge (got.getD 1 ⟨0⟩) (got.getD 0 ⟨0⟩),
  fun got => .site ⟨"child", 0⟩ ⟨1⟩ (.globalRead ⟨"$x", got.getD 0 ⟨0⟩⟩),
  fun _ => .read (.const ⟨Core.object, "X"⟩),
  fun _ => .read (.method ⟨⟨Core.object, false⟩, "m"⟩),
  fun _ => .typeSource "u" .nil,
  fun _ => .freshVertex "t"]

/-- A vertex of its own, and a site. -/
def ArenaOp.sample : List ArenaOp :=
  [.newVertex "own" none, .createSite ⟨1⟩ (.globalRead ⟨"$y", ⟨30⟩⟩)]

def Run.spares (r : Run) (got : List VertexId) : Bool :=
  got.all fun v => !(r.engine.vertex v).source ||
    (r.engine.graph.vertices.slots.toList.all (fun x => !x.next.contains v) &&
      r.effects.pending.edges.toList.all fun x => decide (x.2 ≠ v))

theorem Run.not_edge_of_spares (h : r.spares got = true) :
    ∀ v ∈ got, (r.engine.vertex v).source = true → ∀ u,
      r.engine.graph.hasEdge u v = false ∧ (u, v) ∉ r.effects.pending.edges.toList := by
  intro v hv hsource u
  have hv := List.all_eq_true.1 h v hv
  rw [hsource, Bool.not_true, Bool.false_or, Bool.and_eq_true] at hv
  refine ⟨?_, fun hmem => ?_⟩
  · by_cases hu : u.index < r.engine.graph.vertices.size
    · have hget := Graph.get?_eq_some hu
      unfold Slots.get? at hget
      rw [← Array.getElem?_toList] at hget
      rw [Graph.hasEdge]
      simpa using List.all_eq_true.1 hv.1 _ (List.mem_of_getElem? hget)
    · rw [Graph.hasEdge, Graph.get_of_size_le (Nat.le_of_not_lt hu)]
      rfl
  · simpa using List.all_eq_true.1 hv.2 _ hmem

def Run.standing (r : Run) : Bool :=
  r.effects.installed.scratch.values.all (fun v => (r.engine.vertex v).alive) &&
    r.effects.installed.sites.values.all r.engine.isLive

theorem EStateM.run'_eq_some {σ α : Type} {m : EStateM Fault σ α} {a : α} {s : σ} :
    m.run' s = some a ↔ ∃ s', m s = .ok a s' := by
  unfold EStateM.run' EStateM.run
  cases m s <;> simp

theorem Script.sample_allowed (e : Engine) (h : e.world.Knows Core.object) :
    Script.sample.Allowed fun d => (∃ s, Owner.site ⟨0⟩ = .site s) ∧ e.world.Knows d.module := by
  intro ask hask got
  simp only [Script.sample, List.mem_cons, List.not_mem_nil, or_false] at hask
  rcases hask with rfl | rfl | rfl | rfl | rfl | rfl | rfl | rfl | rfl
  · exact trivial
  · show List.Nodup [Ty.nil, Ty.true]
    decide
  · exact trivial
  · exact trivial
  · exact trivial
  · exact ⟨⟨⟨0⟩, rfl⟩, h⟩
  · exact ⟨⟨⟨0⟩, rfl⟩, h⟩
  · exact trivial
  · exact trivial

theorem identical_run_sample :
    let e := ArenaOp.sample.foldl Engine.operate (Engine.boot {})
    ∃ asked r r', Script.sample.stage [] ⟨e, {}⟩ = some ([⟨31⟩, ⟨32⟩, ⟨33⟩, ⟨34⟩], asked) ∧
      Engine.install (.site ⟨0⟩) asked = .ok () r ∧
      Script.sample.perform (.site ⟨0⟩) r = .ok [⟨31⟩, ⟨32⟩, ⟨33⟩, ⟨34⟩] r' ∧ r.Untouched r' := by
  intro e
  have hrun : (do
      let got ← Script.sample.perform (.site ⟨0⟩)
      return (got, (← get).standing) : RunM (List VertexId × Bool)).run' ⟨e, {}⟩ =
        some ([⟨31⟩, ⟨32⟩, ⟨33⟩, ⟨34⟩], true) := by
    dsimp only [e]
    rw [Engine.boot_start]
    decide +kernel
  have hspares : ((Script.sample.stage [] ⟨e, {}⟩).map fun x => x.2.spares x.1) = some true := by
    dsimp only [e]
    rw [Engine.boot_start]
    decide +kernel
  have hknows : e.world.Knows Core.object := by
    dsimp only [e]
    rw [Engine.boot_start]
    decide +kernel
  obtain ⟨_, hrun⟩ := EStateM.run'_eq_some.1 hrun
  obtain ⟨got, r, hperform, hrest⟩ := EStateM.bind_ok.1 hrun
  obtain ⟨hgot, hstanding⟩ : got = [⟨31⟩, ⟨32⟩, ⟨33⟩, ⟨34⟩] ∧ r.standing = true := by
    obtain ⟨_, _, hget, hrest⟩ := EStateM.bind_ok.1 hrest
    cases hget
    exact Prod.mk.inj (EStateM.Result.ok.inj hrest).1
  subst hgot
  obtain ⟨asked, hstage, hinstall⟩ := Script.perform_ok.1 hperform
  rw [hstage] at hspares
  obtain ⟨hlive, hchildren⟩ := Bool.and_eq_true_iff.1 hstanding
  obtain ⟨r', hagain, huntouched⟩ := (identical_run_iff (Engine.countsAgree_operations
    {} ArenaOp.sample)
    (Script.sample_allowed e hknows) hstage (Run.not_edge_of_spares (Option.some.inj hspares))
    hinstall).2 ⟨List.all_eq_true.1 hlive, List.all_eq_true.1 hchildren⟩
  exact ⟨asked, r, r', hstage, hinstall, hagain, huntouched⟩

/-- A private vertex was destroyed and its slot freed while an owner listed it. The owner asks for a
vertex under another key and gets that slot, loses it to the old key at once, and gets another one
when it asks again. -/
theorem identical_run_moves :
    ¬ ∀ (e : Engine) (had : Installed) (owner : Owner) (script : Script) (got : List VertexId)
      (asked r : Run), e.CountsAgree [] →
      script.Allowed (fun d => (∃ s, owner = .site s) ∧ e.world.Knows d.module) →
      script.stage [] ⟨e, { installed := had }⟩ = some (got, asked) →
      (∀ v ∈ got, (asked.engine.vertex v).source = true → ∀ u,
        asked.engine.graph.hasEdge u v = false ∧ (u, v) ∉ asked.effects.pending.edges.toList) →
      Engine.install owner asked = .ok () r →
      ∃ r', script.perform owner r = .ok got r' ∧ r.Untouched r' := by
  intro h
  let ops : List ArenaOp := [.newVertex "x" none, .destroyVertex ⟨30⟩, .reclaim]
  let had : Installed := { scratch := ⟨[(("x", 0), ⟨30⟩)]⟩ }
  let script : Script := [fun _ => .freshVertex "y"]
  let e := ops.foldl Engine.operate (Engine.boot {})
  have hrun : (do return (← script.perform (.node ⟨1⟩), ← script.perform (.node ⟨1⟩)) :
      RunM (List VertexId × List VertexId)).run' ⟨e, { installed := had }⟩ =
        some ([⟨30⟩], [⟨31⟩]) := by
    dsimp only [e]
    rw [Engine.boot_start]
    decide +kernel
  have hspares : ((script.stage [] ⟨e, { installed := had }⟩).map fun x => x.2.spares x.1) =
      some true := by
    dsimp only [e]
    rw [Engine.boot_start]
    decide +kernel
  obtain ⟨_, hrun⟩ := EStateM.run'_eq_some.1 hrun
  obtain ⟨first, r, hfirst, hrest⟩ := EStateM.bind_ok.1 hrun
  obtain ⟨second, r', hsecond, hrest⟩ := EStateM.bind_ok.1 hrest
  obtain ⟨rfl, rfl⟩ : first = [⟨30⟩] ∧ second = [⟨31⟩] := by
    cases hrest
    exact ⟨rfl, rfl⟩
  obtain ⟨asked, hstage, hinstall⟩ := Script.perform_ok.1 hfirst
  have hallowed : script.Allowed fun d => (∃ s, Owner.node ⟨1⟩ = .site s) ∧
      e.world.Knows d.module := fun ask hask got => by
    obtain rfl := List.mem_singleton.1 hask
    exact trivial
  rw [hstage] at hspares
  obtain ⟨r'', hagain, -⟩ := h e had (.node ⟨1⟩) script [⟨30⟩] asked r
    (Engine.countsAgree_operations {} ops) hallowed hstage
    (Run.not_edge_of_spares (Option.some.inj hspares)) hinstall
  rw [hsecond] at hagain
  cases hagain

end Repeat

end TypeFlow
