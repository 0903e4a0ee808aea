import TypeFlow.Proofs.Machine

/-!
# Dependencies are filed exactly

The sites filed under a dependency are exactly those whose last run had it, be their effects in the
slot or in a frame. For this, a slot must not be handed out while something is filed for it, and a
site must not be destroyed while it runs. The latter holds because children are entered after their
owners: every site has an age, and work on a site only leads to younger ones.
-/

set_option autoImplicit false

namespace TypeFlow

namespace Installed

variable {x y : Installed} {d d' : Dependency}

structure SameBooks (x y : Installed) : Prop where
  sites : y.sites = x.sites
  methodReads : y.methodReads = x.methodReads
  constReads : y.constReads = x.constReads
  superclassReads : y.superclassReads = x.superclassReads

theorem SameBooks.refl (x : Installed) : SameBooks x x := ⟨rfl, rfl, rfl, rfl⟩

theorem SameBooks.reads (h : SameBooks x y) (d : Dependency) :
    y.Reads d ↔ x.Reads d := by
  cases d with
  | method key => unfold Reads; rw [h.methodReads]
  | const key => unfold Reads; rw [h.constReads]
  | superclass m => unfold Reads; rw [h.superclassReads]

structure ReadsOnce (x : Installed) : Prop where
  methods : x.methodReads.toList.Nodup
  consts : x.constReads.toList.Nodup
  superclasses : x.superclassReads.toList.Nodup

theorem SameBooks.readsOnce (h : SameBooks x y) (hx : x.ReadsOnce) :
    y.ReadsOnce :=
  ⟨h.methodReads ▸ hx.methods, h.constReads ▸ hx.consts, h.superclassReads ▸ hx.superclasses⟩

theorem readsOnce_empty : ({} : Installed).ReadsOnce :=
  ⟨List.nodup_nil, List.nodup_nil, List.nodup_nil⟩

theorem not_reads_empty (d : Dependency) : ¬({} : Installed).Reads d := by
  cases d <;> exact List.not_mem_nil

theorem reads_addRead :
    (x.addRead d).Reads d' ↔ x.Reads d' ∨ d' = d := by
  cases d <;> cases d' <;> simp [addRead, Reads, OrderedSet.mem_insert]

theorem reads_dropRead :
    (x.dropRead d).Reads d' ↔ x.Reads d' ∧ d' ≠ d := by
  cases d <;> cases d' <;> simp [dropRead, Reads, OrderedSet.mem_erase]

theorem ReadsOnce.addRead (h : x.ReadsOnce) (d : Dependency) :
    (x.addRead d).ReadsOnce := by
  obtain ⟨hm, hc, hs⟩ := h
  cases d
  · exact ⟨OrderedSet.nodup_insert _ hm, hc, hs⟩
  · exact ⟨hm, OrderedSet.nodup_insert _ hc, hs⟩
  · exact ⟨hm, hc, OrderedSet.nodup_insert _ hs⟩

theorem ReadsOnce.dropRead (h : x.ReadsOnce) (d : Dependency) :
    (x.dropRead d).ReadsOnce := by
  obtain ⟨hm, hc, hs⟩ := h
  cases d
  · exact ⟨OrderedSet.nodup_erase _ hm, hc, hs⟩
  · exact ⟨hm, OrderedSet.nodup_erase _ hc, hs⟩
  · exact ⟨hm, hc, OrderedSet.nodup_erase _ hs⟩

end Installed

namespace Pending

structure ReadsOnce (x : Pending) : Prop where
  methods : x.methodReads.toList.Nodup
  consts : x.constReads.toList.Nodup
  superclasses : x.superclassReads.toList.Nodup

theorem readsOnce_empty : ({} : Pending).ReadsOnce :=
  ⟨List.nodup_nil, List.nodup_nil, List.nodup_nil⟩

theorem readsOnce_of_not_reads {x : Pending} (h : ∀ d, ¬x.Reads d) : x.ReadsOnce := by
  have hnil : ∀ {α : Type} {l : List α}, (∀ a, a ∉ l) → l.Nodup := fun hl => by
    rw [List.eq_nil_iff_forall_not_mem.2 hl]
    exact List.nodup_nil
  exact ⟨hnil fun key => h (.method key), hnil fun key => h (.const key),
    hnil fun m => h (.superclass m)⟩

end Pending

variable {fx fx' : Effects}

theorem Effects.Alike.readsOnce (h : fx.Alike fx')
    (hx : fx.pending.ReadsOnce) : fx'.pending.ReadsOnce := by
  have hsub : ∀ {α : Type} {s s' : OrderedSet α}, s' = s ∨ s' = {} → s.toList.Nodup →
      s'.toList.Nodup := by
    rintro α s s' (rfl | rfl) hn
    · exact hn
    · exact List.nodup_nil
  exact ⟨hsub h.askedMethods hx.methods, hsub h.askedConsts hx.consts,
    hsub h.askedSuperclasses hx.superclasses⟩

theorem Effects.Alike.sameBooks (h : fx.Alike fx') :
    Installed.SameBooks fx.installed fx'.installed :=
  ⟨h.sites, h.methodReads, h.constReads, h.superclassReads⟩

theorem Effects.readsOnce_read (h : fx.pending.ReadsOnce) (d : Dependency) :
    (fx.read d).pending.ReadsOnce := by
  obtain ⟨hm, hc, hs⟩ := h
  cases d
  · exact ⟨OrderedSet.nodup_insert _ hm, hc, hs⟩
  · exact ⟨hm, OrderedSet.nodup_insert _ hc, hs⟩
  · exact ⟨hm, hc, OrderedSet.nodup_insert _ hs⟩

namespace Machine

structure Aged (age : SiteId → Nat) (m : Machine) : Prop where
  bounded : ∃ n, ∀ s, age s < n
  children : ∀ s, ∀ c ∈ (m.effectsOf s).installed.sites.values, age s < age c
  limbo : ∀ f ∈ m.frames, ∀ s, f.work.site? = some s → ∀ c ∈ f.limbo, age s < age c
  stacked : m.frames.Pairwise fun f g =>
    ∃ s, f.work.site? = some s ∧ ∀ t, g.work.site? = some t → age t < age s

/-- The state of the slot that work on a site finds. -/
def Fits (e : Engine) (f : Frame) : Prop :=
  match f.work with
  | .run s => ∃ x, e.site? s = some x ∧ x.destroyed = false
  | .destroy s => ∃ x, e.site? s = some x ∧ x.destroyed = true
  | .node _ => True

def Unheld (fs : List Frame) (s : SiteId) : Prop := ∀ f ∈ fs, f.work.site? ≠ some s

theorem Unheld.top {f f' : Frame} {fs : List Frame} {s : SiteId} (h : Unheld (f :: fs) s)
    (hwork : f'.work = f.work) : Unheld (f' :: fs) s := by
  obtain ⟨hf, hfs⟩ := List.forall_mem_cons.1 h
  refine List.forall_mem_cons.2 ⟨?_, hfs⟩
  rw [hwork]
  exact hf

structure Orderly (m : Machine) : Prop where
  fits : ∀ f ∈ m.frames, Fits m.engine f
  nodup : (m.engine.sites.released ++ m.engine.sites.free).Nodup
  given_up : ∀ i ∈ m.engine.sites.released ++ m.engine.sites.free,
    (∃ x, m.engine.site? ⟨i⟩ = some x ∧ x.destroyed = true) ∧ Unheld m.frames ⟨i⟩
  aged : ∃ age, Aged age m

structure Exact (m : Machine) : Prop where
  filed : ∀ s d, s ∈ m.engine.world.watchers d ↔ (m.effectsOf s).installed.Reads d
  once : ∀ s, (m.effectsOf s).installed.ReadsOnce
  asked : ∀ f ∈ m.frames, f.effects.pending.ReadsOnce
  idle : ∀ s x, m.engine.site? s = some x → x.destroyed = true → Unheld m.frames s →
    ∀ d, ¬x.effects.installed.Reads d

structure Filed (m : Machine) : Prop extends Orderly m, Exact m

section Effects

variable {e e' : Engine} {f f' : Frame} {fs : List Frame} {hand hand' : List VertexId} {s : SiteId}

theorem effectsOf_top (hs : f.work.site? = some s) :
    (Machine.mk e (f :: fs) hand).effectsOf s = f.effects := if_pos hs

theorem effectsOf_below (hs : f.work.site? ≠ some s) :
    (Machine.mk e (f :: fs) hand).effectsOf s = (Machine.mk e fs hand).effectsOf s := if_neg hs

theorem effectsOf_congr (hs : e'.site? s = e.site? s) (hand : List VertexId) :
    (Machine.mk e' fs hand').effectsOf s = (Machine.mk e fs hand).effectsOf s := by
  unfold effectsOf
  induction fs with
  | nil =>
    unfold effectsIn
    rw [show e'.sites.get? s.index = e.sites.get? s.index from hs]
  | cons f fs ih =>
    unfold effectsIn
    rw [show effectsIn e'.sites s fs = effectsIn e.sites s fs from ih]

theorem effectsOf_unheld (h : Unheld fs s) :
    (Machine.mk e fs hand).effectsOf s = ((e.site? s).map Site.effects).getD {} := by
  induction fs with
  | nil => rfl
  | cons f fs ih =>
    rw [effectsOf_below (h f List.mem_cons_self)]
    exact ih fun g hg => h g (List.mem_cons_of_mem _ hg)

end Effects

section Fits

variable {e e' : Engine} {f : Frame} {s : SiteId}

theorem Fits.mono (h : Fits e f) (hs : ∀ t, f.work.site? = some t → ∀ x, e.site? t = some x →
    ∃ y, e'.site? t = some y ∧ y.destroyed = x.destroyed) : Fits e' f := by
  unfold Fits at h ⊢
  cases hw : f.work with
  | run t | destroy t =>
    rw [hw] at h hs
    obtain ⟨x, hx, hd⟩ := h
    obtain ⟨y, hy, hyx⟩ := hs t rfl x hx
    exact ⟨y, hy, hyx.trans hd⟩
  | node n => trivial

theorem Fits.congr (h : Fits e f)
    (hs : ∀ t, f.work.site? = some t → e'.site? t = e.site? t) : Fits e' f :=
  h.mono fun t ht x hx => ⟨x, (hs t ht).trans hx, rfl⟩

theorem Fits.modifySite {g : Site → Site} (h : Fits e f)
    (hs : f.work.site? = some s → ∀ x, (g x).destroyed = x.destroyed) :
    Fits (e.modifySite s g) f := by
  refine h.mono fun t ht x hx => ?_
  rw [Engine.site?_modifySite]
  split
  · next hst =>
    rw [hx]
    exact ⟨g x, rfl, hs (hst ▸ ht) x⟩
  · exact ⟨x, hx, rfl⟩

end Fits

section Quiet

variable {m m' : Machine}

theorem Orderly.quiet (h : m.Orderly) (hs : m'.engine.sites = m.engine.sites)
    (hf : m'.frames = m.frames) : m'.Orderly := by
  obtain ⟨e, fs, hand⟩ := m
  obtain ⟨e', fs', hand'⟩ := m'
  obtain rfl : fs' = fs := hf
  have hsite : ∀ s, e'.site? s = e.site? s := fun s => congrArg (·.get? s.index) hs
  obtain ⟨age, haged⟩ := h.aged
  refine ⟨fun f hf => (h.fits f hf).congr fun t _ => hsite t, ?_, ?_, age, haged.bounded,
    fun s c hc => ?_, haged.limbo, haged.stacked⟩
  · rw [hs]
    exact h.nodup
  · have hs' : e'.sites = e.sites := hs
    simp only [hs', hsite]
    exact h.given_up
  · rw [effectsOf_congr (hsite s)] at hc
    exact haged.children s c hc

theorem Exact.quiet (h : m.Exact) (hs : m'.engine.sites = m.engine.sites)
    (hf : m'.frames = m.frames)
    (hw : ∀ d, m'.engine.world.watchers d = m.engine.world.watchers d) : m'.Exact := by
  obtain ⟨e, fs, hand⟩ := m
  obtain ⟨e', fs', hand'⟩ := m'
  obtain rfl : fs' = fs := hf
  have hsite : ∀ s, e'.site? s = e.site? s := fun s => congrArg (·.get? s.index) hs
  refine ⟨fun s d => ?_, fun s => ?_, h.asked, fun s x hx => ?_⟩
  · rw [effectsOf_congr (hsite s), hw]
    exact h.filed s d
  · rw [effectsOf_congr (hsite s)]
    exact h.once s
  · exact h.idle s x ((hsite s).symm.trans hx)

end Quiet

section Top

variable {e e' : Engine} {f f' : Frame} {fs : List Frame} {hand hand' : List VertexId}

theorem Orderly.top (h : (Machine.mk e (f :: fs) hand).Orderly) (hs : e'.sites = e.sites)
    (hwork : f'.work = f.work)
    (hsites : ∀ c ∈ f'.effects.installed.sites.values,
      c ∈ f.effects.installed.sites.values ∨ c ∈ f.limbo)
    (hlimbo : ∀ c ∈ f'.limbo, c ∈ f.effects.installed.sites.values ∨ c ∈ f.limbo) :
    (Machine.mk e' (f' :: fs) hand').Orderly := by
  have hsite : ∀ s, e'.site? s = e.site? s := fun s => congrArg (·.get? s.index) hs
  obtain ⟨age, haged⟩ := h.aged
  have hyoung : ∀ s, f.work.site? = some s → ∀ c,
      c ∈ f.effects.installed.sites.values ∨ c ∈ f.limbo → age s < age c := by
    rintro s hw c (hc | hc)
    · exact haged.children s c (by rw [effectsOf_top hw]; exact hc)
    · exact haged.limbo f List.mem_cons_self s hw c hc
  obtain ⟨hfit, hfits⟩ := List.forall_mem_cons.1 h.fits
  refine ⟨List.forall_mem_cons.2 ⟨?_, fun g hg => (hfits g hg).congr fun t _ => hsite t⟩, ?_,
    fun i hi => ?_, age, haged.bounded, fun s c hc => ?_,
    List.forall_mem_cons.2 ⟨fun s hw c hc => ?_, (List.forall_mem_cons.1 haged.limbo).2⟩, ?_⟩
  · have hfit' : Fits e' f := hfit.congr fun t _ => hsite t
    unfold Fits at hfit' ⊢
    rw [hwork]
    exact hfit'
  · rw [hs]
    exact h.nodup
  · simp only [hs] at hi
    obtain ⟨hx, hun⟩ := h.given_up i hi
    exact ⟨by simpa only [hsite] using hx, hun.top hwork⟩
  · by_cases hw : f.work.site? = some s
    · rw [effectsOf_top (hwork ▸ hw)] at hc
      exact hyoung s hw c (hsites c hc)
    · refine haged.children s c ?_
      rw [effectsOf_below (hwork ▸ hw), effectsOf_congr (hsite s)] at hc
      rw [effectsOf_below hw]
      exact hc
  · exact hyoung s (hwork ▸ hw) c (hlimbo c hc)
  · obtain ⟨hfirst, hrest⟩ := List.pairwise_cons.1 haged.stacked
    refine List.pairwise_cons.2 ⟨fun g hg => ?_, hrest⟩
    rw [hwork]
    exact hfirst g hg

theorem Exact.top (h : (Machine.mk e (f :: fs) hand).Exact) (hs : e'.sites = e.sites)
    (hwork : f'.work = f.work)
    (hfiled : ∀ t d, t ∈ e'.world.watchers d ↔
      if f.work.site? = some t then f'.effects.installed.Reads d else t ∈ e.world.watchers d)
    (honce : f.work.site?.isSome = true → f'.effects.installed.ReadsOnce)
    (hasked : f'.effects.pending.ReadsOnce) : (Machine.mk e' (f' :: fs) hand').Exact := by
  have hsite : ∀ s, e'.site? s = e.site? s := fun s => congrArg (·.get? s.index) hs
  have hbelow : ∀ {t}, f.work.site? ≠ some t →
      (Machine.mk e' (f' :: fs) hand').effectsOf t = (Machine.mk e (f :: fs) hand).effectsOf t := by
    intro t ht
    rw [effectsOf_below (hwork ▸ ht), effectsOf_congr (hsite t) hand,
      effectsOf_below ht]
  refine ⟨fun t d => ?_, fun t => ?_,
    List.forall_mem_cons.2 ⟨hasked, (List.forall_mem_cons.1 h.asked).2⟩,
    fun t x hx hdead hun => h.idle t x ((hsite t).symm.trans hx) hdead (hun.top hwork.symm)⟩
  · rw [hfiled]
    by_cases ht : f.work.site? = some t
    · rw [if_pos ht, effectsOf_top (hwork ▸ ht)]
    · rw [if_neg ht, hbelow ht]
      exact h.filed t d
  · by_cases ht : f.work.site? = some t
    · rw [effectsOf_top (hwork ▸ ht)]
      exact honce (by rw [ht]; rfl)
    · rw [hbelow ht]
      exact h.once t

theorem Exact.stage (h : (Machine.mk e (f :: fs) hand).Exact) (hs : e'.sites = e.sites)
    (hw : e'.world = e.world) (hwork : f'.work = f.work)
    (hreads : ∀ d, f'.effects.installed.Reads d ↔ f.effects.installed.Reads d)
    (honce : f.effects.installed.ReadsOnce → f'.effects.installed.ReadsOnce)
    (hasked : f.effects.pending.ReadsOnce → f'.effects.pending.ReadsOnce) :
    (Machine.mk e' (f' :: fs) hand').Exact := by
  refine h.top hs hwork (fun t d => ?_) (fun hsome => honce ?_)
    (hasked (h.asked f List.mem_cons_self))
  · rw [hw]
    by_cases ht : f.work.site? = some t
    · rw [if_pos ht, hreads, h.filed t d, effectsOf_top ht]
    · rw [if_neg ht]
  · obtain ⟨s, hs⟩ := Option.isSome_iff_exists.1 hsome
    have hone := h.once s
    rw [effectsOf_top hs] at hone
    exact hone

variable {s : SiteId} {d : Dependency}

theorem Filed.rebook {g : OrderedSet SiteId → OrderedSet SiteId}
    {k : Installed → Installed} (h : (Machine.mk e (f :: fs) hand).Filed)
    (hs : f.work.site? = some s) (hsites : ∀ x, (k x).sites = x.sites)
    (honce : ∀ x, x.ReadsOnce → (k x).ReadsOnce)
    (hother : ∀ t d', t ≠ s → (t ∈ (e.world.watch d g).watchers d' ↔ t ∈ e.world.watchers d'))
    (hown : ∀ x d', (s ∈ e.world.watchers d' ↔ x.Reads d') →
      (s ∈ (e.world.watch d g).watchers d' ↔ (k x).Reads d')) :
    (Machine.mk (e.modifyWorld (·.watch d g))
      ({ f with effects := f.effects.mapInstalled k } :: fs) hand).Filed := by
  refine ⟨h.toOrderly.top rfl rfl (fun c hc => Or.inl (hsites f.effects.installed ▸ hc))
    fun c => Or.inr, h.toExact.top rfl rfl (fun t d' => ?_) (fun _ => honce _ ?_)
    (h.asked f List.mem_cons_self)⟩
  · by_cases ht : f.work.site? = some t
    · obtain rfl : t = s := Option.some.inj (ht.symm.trans hs)
      have hreads := h.filed t d'
      rw [effectsOf_top ht] at hreads
      rw [if_pos ht]
      exact hown _ d' hreads
    · rw [if_neg ht]
      refine hother t d' ?_
      rintro rfl
      exact ht hs
  · have hone := h.once s
    rwa [effectsOf_top hs] at hone

theorem Filed.note (h : (Machine.mk e (f :: fs) hand).Filed) (hs : f.work.site? = some s)
    (hd : e.world.Files d) :
    (Machine.mk (e.modifyWorld (·.watch d (·.insert s)))
      ({ f with effects := f.effects.mapInstalled (·.addRead d) } :: fs) hand).Filed := by
  refine h.rebook hs (fun x => by cases d <;> rfl) (fun x hx => hx.addRead d)
    (fun t d' ht => ?_) fun x d' hx => ?_
  · simp [World.mem_watchers_insert hd, ht]
  · rw [World.mem_watchers_insert hd, Installed.reads_addRead, hx]
    simp [eq_comm]

theorem Filed.forget (h : (Machine.mk e (f :: fs) hand).Filed) (hs : f.work.site? = some s) :
    (Machine.mk (e.modifyWorld (·.watch d (·.erase s)))
      ({ f with effects := f.effects.mapInstalled (·.dropRead d) } :: fs) hand).Filed := by
  refine h.rebook hs (fun x => by cases d <;> rfl) (fun x hx => hx.dropRead d)
    (fun t d' ht => ?_) fun x d' hx => ?_
  · simp [World.mem_watchers_erase, ht]
  · rw [World.mem_watchers_erase, Installed.reads_dropRead, hx]
    simp [eq_comm]

end Top

section Slots

variable {e e' : Engine} {f : Frame} {fs fs' : List Frame} {hand hand' : List VertexId}
  {s : SiteId} {x : Site}
variable {age : SiteId → Nat} {g : Site → Site} {t : SiteId} {work : Work} {sites : Slots Site}
    {y : Site}

theorem Exact.move (h : (Machine.mk e fs hand).Exact) (hw : e'.world = e.world)
    (hkeepsCounts : ∀ t, Installed.SameBooks ((Machine.mk e fs hand).effectsOf t).installed
      ((Machine.mk e' fs' hand').effectsOf t).installed)
    (hasked : ∀ g ∈ fs', g.effects.pending.ReadsOnce)
    (hidle : ∀ t y, e'.site? t = some y → y.destroyed = true → Unheld fs' t →
      ∀ d, ¬y.effects.installed.Reads d) : (Machine.mk e' fs' hand').Exact := by
  refine ⟨fun t d => ?_, fun t => (hkeepsCounts t).readsOnce (h.once t), hasked, hidle⟩
  rw [(hkeepsCounts t).reads, ← h.filed t d]
  exact iff_of_eq (congrArg (fun w : World => t ∈ w.watchers d) hw)

theorem Aged.move (h : Aged age ⟨e, fs, hand⟩)
    (hkeepsCounts : ∀ t, Installed.SameBooks ((Machine.mk e fs hand).effectsOf t).installed
      ((Machine.mk e' fs' hand').effectsOf t).installed)
    (hlimbo : ∀ g ∈ fs', ∀ t, g.work.site? = some t → ∀ c ∈ g.limbo, age t < age c)
    (hstacked : fs'.Pairwise fun f g =>
      ∃ s, f.work.site? = some s ∧ ∀ t, g.work.site? = some t → age t < age s) :
    Aged age ⟨e', fs', hand'⟩ :=
  ⟨h.bounded, fun t c hc => h.children t c ((hkeepsCounts t).sites ▸ hc), hlimbo, hstacked⟩

theorem Aged.unheld_top (h : Aged age ⟨e, f :: fs, hand⟩)
    (hs : f.work.site? = some s) : Unheld fs s := by
  intro g hg hgs
  obtain ⟨t, ht, hyoung⟩ := (List.pairwise_cons.1 h.stacked).1 g hg
  rw [hs] at ht
  have := hyoung s hgs
  rw [Option.some.inj ht] at this
  exact Nat.lt_irrefl _ this

theorem Aged.younger (h : Aged age ⟨e, fs, hand⟩)
    (hs : ∀ f ∈ fs.head?, s ∈ f.limbo) :
    ∀ g ∈ fs, ∀ t, g.work.site? = some t → age t < age s := by
  cases fs with
  | nil => exact fun g hg => absurd hg List.not_mem_nil
  | cons f fs =>
    have hchild : s ∈ f.limbo := hs f rfl
    refine List.forall_mem_cons.2 ⟨fun t ht => ?_, fun g hg t ht => ?_⟩
    · exact h.limbo f List.mem_cons_self t ht s hchild
    · obtain ⟨u, hu, hyoung⟩ := (List.pairwise_cons.1 h.stacked).1 g hg
      exact Nat.lt_trans (hyoung t ht) (h.limbo f List.mem_cons_self u hu s hchild)

theorem effectsOf_modifySite_of_ne (h : s ≠ t)
    (hand : List VertexId) :
    (Machine.mk (e.modifySite s g) fs hand').effectsOf t = (Machine.mk e fs hand).effectsOf t :=
  effectsOf_congr (by rw [Engine.site?_modifySite, if_neg h]) hand

theorem site?_of_fits (h : Fits e f) (hs : f.work.site? = some s) : ∃ x, e.site? s = some x := by
  unfold Fits at h
  cases hw : f.work with
  | run | destroy =>
    rw [hw] at h hs
    obtain ⟨x, hx, _⟩ := h
    exact ⟨x, Option.some.inj hs ▸ hx⟩
  | node n =>
    rw [hw] at hs
    exact absurd hs.symm (Option.some_ne_none s)

theorem effectsOf_beside (hf : f.work.site? = some s) (ht : s ≠ t) :
    (Machine.mk (e.modifySite s g) (f :: fs) hand').effectsOf t =
      (Machine.mk e fs hand).effectsOf t ∧
    (Machine.mk e (f :: fs) hand).effectsOf t =
      (Machine.mk (e.modifySite s g) fs hand').effectsOf t := by
  have hne : f.work.site? ≠ some t := by
    rw [hf]
    exact fun he => ht (Option.some.inj he)
  rw [effectsOf_below hne, effectsOf_below hne]
  exact ⟨effectsOf_modifySite_of_ne ht hand, (effectsOf_modifySite_of_ne ht hand).symm⟩

theorem sameBooks_hold (hun : Unheld fs s) (hx : e.site? s = some x)
    (hf : f.work.site? = some s) (hfx : f.effects = x.effects.discard) (t : SiteId) :
    Installed.SameBooks ((Machine.mk e fs hand).effectsOf t).installed
      ((Machine.mk (e.modifySite s g) (f :: fs) hand').effectsOf t).installed := by
  by_cases ht : s = t
  · subst ht
    rw [effectsOf_top hf, effectsOf_unheld hun, hx, hfx]
    exact Installed.SameBooks.refl _
  · rw [(effectsOf_beside hf ht).1]
    exact Installed.SameBooks.refl _

theorem sameBooks_release (hun : Unheld fs s) (hx : e.site? s = some x)
    (hf : f.work.site? = some s) (hg : ∀ y, (g y).effects = f.effects) (t : SiteId) :
    Installed.SameBooks ((Machine.mk e (f :: fs) hand).effectsOf t).installed
      ((Machine.mk (e.modifySite s g) fs hand').effectsOf t).installed := by
  by_cases ht : s = t
  · subst ht
    rw [effectsOf_top hf, effectsOf_unheld hun, Engine.site?_modifySite, if_pos rfl, hx]
    show Installed.SameBooks f.effects.installed (g x).effects.installed
    rw [hg]
    exact Installed.SameBooks.refl _
  · rw [(effectsOf_beside hf ht).2]
    exact Installed.SameBooks.refl _

theorem Orderly.not_given_up (h : (Machine.mk e fs hand).Orderly) (hx : e.site? s = some x)
    (hlive : x.destroyed = false) : s.index ∉ e.sites.released ++ e.sites.free := by
  intro hm
  obtain ⟨⟨y, hy, hdead⟩, _⟩ := h.given_up s.index hm
  rw [hx] at hy
  rw [← Option.some.inj hy, hlive] at hdead
  exact Bool.noConfusion hdead

theorem Orderly.hold (h : (Machine.mk e fs hand).Orderly)
    (hx : e.site? s = some x) (hlive : x.destroyed = false)
    (hs : ∀ f ∈ fs.head?, s ∈ f.limbo) (hwork : work.site? = some s)
    (hfits : Fits (e.modifySite s g) ⟨work, x.effects.discard, []⟩) :
    (Machine.mk (e.modifySite s g) (⟨work, x.effects.discard, []⟩ :: fs) hand).Orderly := by
  obtain ⟨age, haged⟩ := h.aged
  have hyounger := haged.younger hs
  have hun : Unheld fs s := fun f hf hfs => Nat.lt_irrefl _ (hyounger f hf s hfs)
  refine ⟨List.forall_mem_cons.2 ⟨hfits, fun f hf => (h.fits f hf).modifySite fun hfs =>
      absurd hfs (hun f hf)⟩, h.nodup, fun i hi => ?_, age,
    haged.move (sameBooks_hold hun hx hwork rfl) (List.forall_mem_cons.2
      ⟨fun _ _ _ hc => absurd hc List.not_mem_nil, haged.limbo⟩)
    (List.pairwise_cons.2 ⟨fun f hf => ⟨s, hwork, hyounger f hf⟩, haged.stacked⟩)⟩
  have hne : s ≠ ⟨i⟩ := by
    rintro rfl
    exact h.not_given_up hx hlive hi
  obtain ⟨hdead, hfree⟩ := h.given_up i hi
  refine ⟨?_, List.forall_mem_cons.2 ⟨?_, hfree⟩⟩
  · rw [Engine.site?_modifySite, if_neg hne]
    exact hdead
  · rw [hwork]
    exact fun he => hne (Option.some.inj he)

theorem Exact.hold (h : (Machine.mk e fs hand).Exact)
    (hun : Unheld fs s) (hx : e.site? s = some x) (hwork : work.site? = some s) :
    (Machine.mk (e.modifySite s g) (⟨work, x.effects.discard, []⟩ :: fs) hand).Exact := by
  refine h.move rfl (sameBooks_hold hun hx hwork rfl)
    (List.forall_mem_cons.2 ⟨Pending.readsOnce_empty, h.asked⟩) fun t y hy hdead hfree => ?_
  have hne : s ≠ t := by
    rintro rfl
    exact hfree _ List.mem_cons_self hwork
  rw [Engine.site?_modifySite, if_neg hne] at hy
  exact h.idle t y hy hdead fun f hf => hfree f (List.mem_cons_of_mem _ hf)

theorem Orderly.giveBack (h : (Machine.mk e (f :: fs) hand).Orderly)
    (hwork : f.work.site? = some s)
    (hg : ∀ y, (g y).effects = f.effects ∧ (g y).destroyed = y.destroyed) :
    (Machine.mk (e.modifySite s g) fs hand).Orderly := by
  obtain ⟨age, haged⟩ := h.aged
  obtain ⟨hfit, hfits⟩ := List.forall_mem_cons.1 h.fits
  obtain ⟨x, hx⟩ := site?_of_fits hfit hwork
  have hun := haged.unheld_top hwork
  refine ⟨fun g' hg' => (hfits g' hg').modifySite fun _ y => (hg y).2, h.nodup, fun i hi => ?_, age,
    haged.move (sameBooks_release hun hx hwork fun y => (hg y).1)
      (fun g' hg' => haged.limbo g' (List.mem_cons_of_mem _ hg'))
      (List.pairwise_cons.1 haged.stacked).2⟩
  obtain ⟨hdead, hfree⟩ := h.given_up i hi
  have hne : s ≠ ⟨i⟩ := by
    rintro rfl
    exact hfree f List.mem_cons_self hwork
  refine ⟨?_, fun g' hg' => hfree g' (List.mem_cons_of_mem _ hg')⟩
  rw [Engine.site?_modifySite, if_neg hne]
  exact hdead

theorem Exact.giveBack (h : (Machine.mk e (f :: fs) hand).Exact)
    (hun : Unheld fs s) (hx : e.site? s = some x) (hwork : f.work.site? = some s)
    (hg : ∀ y, (g y).effects = f.effects)
    (hidle : (g x).destroyed = true → ∀ d, ¬f.effects.installed.Reads d) :
    (Machine.mk (e.modifySite s g) fs hand).Exact := by
  refine h.move rfl (sameBooks_release hun hx hwork hg)
    (fun f' hf' => h.asked f' (List.mem_cons_of_mem _ hf')) fun t y hy hdead hfree => ?_
  rw [Engine.site?_modifySite] at hy
  by_cases ht : s = t
  · subst ht
    rw [if_pos rfl, hx] at hy
    have hyx : g x = y := Option.some.inj hy
    rw [← hyx] at hdead ⊢
    rw [hg]
    exact hidle hdead
  · rw [if_neg ht] at hy
    refine h.idle t y hy hdead (List.forall_mem_cons.2 ⟨?_, hfree⟩)
    rw [hwork]
    exact fun he => ht (Option.some.inj he)

theorem effectsOf_slots (h : ∀ i, sites.get? i = e.sites.get? i)
    (t : SiteId) : (Machine.mk { e with sites } fs hand).effectsOf t =
      (Machine.mk e fs hand).effectsOf t := by
  have hsite : ({ e with sites } : Engine).site? t = e.site? t := h t.index
  exact effectsOf_congr hsite hand

theorem Orderly.release (h : (Machine.mk e fs hand).Orderly) (hx : e.site? s = some x)
    (hdead : x.destroyed = true) (hun : Unheld fs s)
    (hs : s.index ∉ e.sites.released ++ e.sites.free) :
    (Machine.mk { e with sites := e.sites.release s.index } fs hand).Orderly := by
  obtain ⟨age, haged⟩ := h.aged
  refine ⟨h.fits, ?_, fun i hi => ?_, age, haged.bounded, fun t c hc => ?_, haged.limbo,
    haged.stacked⟩
  · show (e.sites.released ++ [s.index] ++ e.sites.free).Nodup
    rw [List.append_assoc, List.singleton_append]
    exact List.nodup_middle.2 (List.nodup_cons.2 ⟨hs, h.nodup⟩)
  · change i ∈ e.sites.released ++ [s.index] ++ e.sites.free at hi
    rw [List.append_assoc, List.singleton_append] at hi
    by_cases his : i = s.index
    · subst his
      exact ⟨⟨x, hx, hdead⟩, hun⟩
    · exact h.given_up i (by simpa [his] using hi)
  · rw [effectsOf_slots (e.sites.get?_release s.index)] at hc
    exact haged.children t c hc

theorem Exact.release (h : (Machine.mk e fs hand).Exact) (i : Nat) :
    (Machine.mk { e with sites := e.sites.release i } fs hand).Exact :=
  h.move rfl (fun t => by
    rw [effectsOf_slots (e.sites.get?_release i)]
    exact Installed.SameBooks.refl _) h.asked h.idle

theorem Orderly.sweep (h : (Machine.mk e fs hand).Orderly) (p : Site → Bool) :
    (Machine.mk { e with sites := (e.sites.sweep p).2 } fs hand).Orderly := by
  obtain ⟨age, haged⟩ := h.aged
  have hperm := e.sites.perm_sweep p
  refine ⟨h.fits, hperm.nodup_iff.2 h.nodup, fun i hi => h.given_up i (hperm.mem_iff.1 hi), age,
    haged.bounded, fun t c hc => ?_, haged.limbo, haged.stacked⟩
  rw [effectsOf_slots (e.sites.get?_sweep p)] at hc
  exact haged.children t c hc

theorem Exact.sweep (h : (Machine.mk e fs hand).Exact) (p : Site → Bool) :
    (Machine.mk { e with sites := (e.sites.sweep p).2 } fs hand).Exact :=
  h.move rfl (fun t => by
    rw [effectsOf_slots (e.sites.get?_sweep p)]
    exact Installed.SameBooks.refl _) h.asked h.idle

theorem Orderly.alloc_spec (h : (Machine.mk e fs hand).Orderly) (y : Site) :
    Unheld fs ⟨(e.sites.alloc y).1⟩ ∧
      (∀ x, e.site? ⟨(e.sites.alloc y).1⟩ = some x → x.destroyed = true) ∧
      ∀ t, ({ e with sites := (e.sites.alloc y).2 } : Engine).site? t =
        if (⟨(e.sites.alloc y).1⟩ : SiteId) = t then some y else e.site? t := by
  have hlt : ∀ i ∈ e.sites.released ++ e.sites.free, i < e.sites.size := fun i hi => by
    obtain ⟨⟨x, hx, _⟩, _⟩ := h.given_up i hi
    exact Slots.lt_size_of_get? hx
  refine ⟨?_, ?_, fun t => ?_⟩
  · rcases e.sites.alloc_index y with hi | hi
    · exact (h.given_up _ (List.mem_append_right _ hi)).2
    · intro f hf hfs
      obtain ⟨x, hx⟩ := site?_of_fits (h.fits f hf) hfs
      have hsize : (e.sites.alloc y).1 < e.sites.size := Slots.lt_size_of_get? hx
      omega
  · intro x hx
    rcases e.sites.alloc_index y with hi | hi
    · obtain ⟨⟨z, hz, hdead⟩, _⟩ := h.given_up _ (List.mem_append_right _ hi)
      have hxz : x = z := Option.some.inj (hx.symm.trans hz)
      rw [hxz]
      exact hdead
    · have hsize : (e.sites.alloc y).1 < e.sites.size := Slots.lt_size_of_get? hx
      omega
  · have hget := Slots.get?_alloc (fun i hi => hlt i (List.mem_append_right _ hi)) y t.index
    refine hget.trans (if_congr ⟨fun he => ?_, fun he => ?_⟩ rfl rfl)
    · rw [he]
    · rw [← he]

theorem effectsOf_enterSite {f' : Frame}
    (ht : ({ e with sites } : Engine).site? t = e.site? t) (hwork : f'.work = f.work)
    (hfx : f'.effects = f.effects) :
    (Machine.mk { e with sites } (f' :: fs) hand).effectsOf t =
      (Machine.mk e (f :: fs) hand).effectsOf t := by
  by_cases hw : f.work.site? = some t
  · rw [effectsOf_top hw, effectsOf_top (hwork ▸ hw), hfx]
  · rw [effectsOf_below hw, effectsOf_below (hwork ▸ hw), effectsOf_congr ht]

theorem Orderly.enterSite (h : (Machine.mk e (f :: fs) hand).Orderly)
    (hy : y.effects = {}) :
    (Machine.mk { e with sites := (e.sites.alloc y).2 }
      ({ f with limbo := ⟨(e.sites.alloc y).1⟩ :: f.limbo } :: fs) hand).Orderly := by
  obtain ⟨hun, _, hsite⟩ := h.alloc_spec y
  obtain ⟨age, ⟨n, hn⟩, hchildren, hlimbo, hstacked⟩ := h.aged
  have hlt : ∀ i ∈ e.sites.released ++ e.sites.free, i < e.sites.size := fun i hi => by
    obtain ⟨⟨x, hx, _⟩, _⟩ := h.given_up i hi
    exact Slots.lt_size_of_get? hx
  obtain ⟨hrel, hfree, _, hne⟩ := Slots.slots_alloc h.nodup hlt y
  have hsub := List.Sublist.append_left (List.tail_sublist e.sites.free) e.sites.released
  generalize hs : (⟨(e.sites.alloc y).1⟩ : SiteId) = s at hun hsite
  have hother : ∀ {t}, t ≠ s → ({ e with sites := (e.sites.alloc y).2 } : Engine).site? t =
      e.site? t := fun ht => by rw [hsite, if_neg ht.symm]
  have hheld : ∀ g ∈ f :: fs, ∀ t, g.work.site? = some t → t ≠ s := by
    rintro g hg t ht rfl
    exact hun g hg ht
  have hage : ∀ t, t ≠ s → Function.update age s n t = age t := fun t ht =>
    Function.update_of_ne ht ..
  have hyoung : ∀ t c, t ≠ s → c = s ∨ age t < age c →
      Function.update age s n t < Function.update age s n c := by
    intro t c ht hc
    rw [hage t ht]
    by_cases hcs : c = s
    · rw [hcs, Function.update_self]
      exact hn t
    · rw [hage c hcs]
      exact hc.resolve_left hcs
  refine ⟨List.forall_mem_cons.2 ⟨?_, fun g hg => ?_⟩, ?_, fun i hi => ?_,
    Function.update age s n, ⟨n + 1, fun t => ?_⟩, fun t c hc => ?_,
    List.forall_mem_cons.2 ⟨fun t ht c hc => ?_, fun g hg t ht c hc => ?_⟩, ?_⟩
  · exact (h.fits f List.mem_cons_self).congr fun t ht =>
      hother (hheld f List.mem_cons_self t ht)
  · exact (h.fits g (List.mem_cons_of_mem _ hg)).congr fun t ht =>
      hother (hheld g (List.mem_cons_of_mem _ hg) t ht)
  · rw [hrel, hfree]
    exact h.nodup.sublist hsub
  · rw [hrel, hfree] at hi
    have hin : (⟨i⟩ : SiteId) ≠ s := by
      rw [← hs]
      exact fun he => hne i hi (congrArg SiteId.index he).symm
    obtain ⟨hdead, hfree'⟩ := h.given_up i (hsub.subset hi)
    exact ⟨by rw [hother hin]; exact hdead, hfree'.top rfl⟩
  · by_cases ht : t = s
    · rw [ht, Function.update_self]
      exact Nat.lt_succ_self n
    · rw [hage t ht]
      exact Nat.lt_succ_of_lt (hn t)
  · by_cases ht : t = s
    · subst ht
      rw [effectsOf_unheld, hsite, if_pos rfl] at hc
      · rw [Option.map_some, hy] at hc
        exact absurd hc List.not_mem_nil
      · exact hun.top rfl
    · rw [effectsOf_enterSite (hother ht) rfl rfl] at hc
      exact hyoung t c ht (Or.inr (hchildren t c hc))
  · rcases List.mem_cons.1 hc with hc | hc
    · exact hyoung t c (hheld f List.mem_cons_self t ht) (Or.inl hc)
    · exact hyoung t c (hheld f List.mem_cons_self t ht)
        (Or.inr (hlimbo f List.mem_cons_self t ht c hc))
  · exact hyoung t c (hheld g (List.mem_cons_of_mem _ hg) t ht)
      (Or.inr (hlimbo g (List.mem_cons_of_mem _ hg) t ht c hc))
  · have hkept : (f :: fs).Pairwise fun f g => ∃ u, f.work.site? = some u ∧
        ∀ t, g.work.site? = some t →
          Function.update age s n t < Function.update age s n u := by
      refine hstacked.imp_of_mem fun {a b} _ hb ⟨u, hu, hlow⟩ => ⟨u, hu, fun t ht => ?_⟩
      exact hyoung t u (hheld b hb t ht) (Or.inr (hlow t ht))
    exact List.pairwise_cons.2 (List.pairwise_cons.1 hkept)

theorem Exact.enterSite (h : (Machine.mk e (f :: fs) hand).Exact)
    (ho : (Machine.mk e (f :: fs) hand).Orderly) (hy : y.effects = {})
    (hlive : y.destroyed = false) :
    (Machine.mk { e with sites := (e.sites.alloc y).2 }
      ({ f with limbo := ⟨(e.sites.alloc y).1⟩ :: f.limbo } :: fs) hand).Exact := by
  obtain ⟨hun, hdead, hsite⟩ := ho.alloc_spec y
  generalize (⟨(e.sites.alloc y).1⟩ : SiteId) = s at hun hdead hsite
  have hother : ∀ {t}, t ≠ s → ({ e with sites := (e.sites.alloc y).2 } : Engine).site? t =
      e.site? t := fun ht => by rw [hsite, if_neg ht.symm]
  have hnew : (Machine.mk { e with sites := (e.sites.alloc y).2 }
      ({ f with limbo := s :: f.limbo } :: fs) hand).effectsOf s = {} := by
    have hun' : Unheld ({ f with limbo := s :: f.limbo } :: fs) s := hun.top rfl
    rw [effectsOf_unheld hun', hsite, if_pos rfl, Option.map_some, hy]
    rfl
  have hold : ∀ d, ¬((Machine.mk e (f :: fs) hand).effectsOf s).installed.Reads d := by
    intro d
    rw [effectsOf_unheld hun]
    cases hx : e.site? s with
    | none => exact Installed.not_reads_empty d
    | some x => exact h.idle s x hx (hdead x hx) hun d
  refine ⟨fun t d => ?_, fun t => ?_, List.forall_mem_cons.2 (List.forall_mem_cons.1 h.asked),
    fun t x hx hd hfree => ?_⟩
  · by_cases ht : t = s
    · subst ht
      rw [hnew]
      exact iff_of_false (fun hm => hold d ((h.filed t d).1 hm)) (Installed.not_reads_empty d)
    · rw [effectsOf_enterSite (hother ht) rfl rfl]
      exact h.filed t d
  · by_cases ht : t = s
    · subst ht
      rw [hnew]
      exact Installed.readsOnce_empty
    · rw [effectsOf_enterSite (hother ht) rfl rfl]
      exact h.once t
  · have ht : t ≠ s := by
      rintro rfl
      rw [hsite, if_pos rfl] at hx
      rw [← Option.some.inj hx, hlive] at hd
      exact Bool.noConfusion hd
    rw [hother ht] at hx
    exact h.idle t x hx hd (hfree.top rfl)

theorem sameBooks_modifySite
    (hg : ∀ y, Installed.SameBooks y.effects.installed (g y).effects.installed) (t : SiteId) :
    Installed.SameBooks ((Machine.mk e fs hand).effectsOf t).installed
      ((Machine.mk (e.modifySite s g) fs hand').effectsOf t).installed := by
  by_cases ht : s = t
  · subst ht
    induction fs with
    | nil =>
      rw [effectsOf_unheld (fun _ hf => absurd hf List.not_mem_nil),
        effectsOf_unheld (fun _ hf => absurd hf List.not_mem_nil), Engine.site?_modifySite,
        if_pos rfl]
      cases e.site? s with
      | none => exact Installed.SameBooks.refl _
      | some x => exact hg x
    | cons f fs ih =>
      by_cases hf : f.work.site? = some s
      · rw [effectsOf_top hf, effectsOf_top hf]
        exact Installed.SameBooks.refl _
      · rw [effectsOf_below hf, effectsOf_below hf]
        exact ih
  · rw [effectsOf_modifySite_of_ne ht hand]
    exact Installed.SameBooks.refl _

theorem Orderly.relabel (h : (Machine.mk e fs hand).Orderly)
    (hg : ∀ y, Installed.SameBooks y.effects.installed (g y).effects.installed)
    (hd : ∀ y, (g y).destroyed = y.destroyed) :
    (Machine.mk (e.modifySite s g) fs hand).Orderly := by
  obtain ⟨age, haged⟩ := h.aged
  refine ⟨fun f hf => (h.fits f hf).modifySite fun _ => hd, h.nodup, fun i hi => ?_, age,
    haged.move (sameBooks_modifySite hg) haged.limbo haged.stacked⟩
  obtain ⟨⟨x, hx, hdead⟩, hun⟩ := h.given_up i hi
  refine ⟨?_, hun⟩
  rw [Engine.site?_modifySite]
  split
  · rw [hx]
    exact ⟨g x, rfl, (hd x).trans hdead⟩
  · exact ⟨x, hx, hdead⟩

theorem Exact.relabel (h : (Machine.mk e fs hand).Exact)
    (hg : ∀ y, Installed.SameBooks y.effects.installed (g y).effects.installed)
    (hd : ∀ y, (g y).destroyed = y.destroyed) :
    (Machine.mk (e.modifySite s g) fs hand).Exact := by
  refine h.move rfl (sameBooks_modifySite hg) h.asked fun t y hy hdead hun => ?_
  rw [Engine.site?_modifySite] at hy
  split at hy
  · obtain ⟨x, hx, rfl⟩ := Option.map_eq_some_iff.1 hy
    intro d hr
    exact h.idle t x hx ((hd x).symm.trans hdead) hun d (((hg x).reads d).1 hr)
  · exact h.idle t y hy hdead hun

theorem effectsOf_node (hf : f.work.site? = none) (t : SiteId) :
    (Machine.mk e (f :: fs) hand).effectsOf t = (Machine.mk e fs hand').effectsOf t :=
  if_neg (by rw [hf]; exact (Option.some_ne_none t).symm)

theorem Unheld.of_node (hf : f.work.site? = none) (h : Unheld fs s) : Unheld (f :: fs) s :=
  List.forall_mem_cons.2 ⟨by rw [hf]; exact (Option.some_ne_none s).symm, h⟩

theorem Orderly.popNode (h : (Machine.mk e (f :: fs) hand).Orderly) (hf : f.work.site? = none) :
    (Machine.mk e fs hand).Orderly := by
  obtain ⟨age, haged⟩ := h.aged
  obtain ⟨_, hfits⟩ := List.forall_mem_cons.1 h.fits
  refine ⟨hfits, h.nodup, fun i hi => ?_, age, haged.bounded, fun t c hc => ?_,
    (List.forall_mem_cons.1 haged.limbo).2, (List.pairwise_cons.1 haged.stacked).2⟩
  · obtain ⟨hdead, hun⟩ := h.given_up i hi
    exact ⟨hdead, (List.forall_mem_cons.1 hun).2⟩
  · refine haged.children t c ?_
    rw [effectsOf_node hf]
    exact hc

theorem Exact.popNode (h : (Machine.mk e (f :: fs) hand).Exact) (hf : f.work.site? = none) :
    (Machine.mk e fs hand).Exact :=
  h.move rfl (fun t => by
    rw [effectsOf_node hf]
    exact Installed.SameBooks.refl _) (List.forall_mem_cons.1 h.asked).2
    fun t y hy hdead hun => h.idle t y hy hdead (hun.of_node hf)

theorem Orderly.pushNode (h : (Machine.mk e [] hand).Orderly) (hf : f.work.site? = none) :
    (Machine.mk e [f] hand).Orderly := by
  obtain ⟨age, haged⟩ := h.aged
  refine ⟨List.forall_mem_cons.2 ⟨?_, h.fits⟩, h.nodup, fun i hi => ?_, age, haged.bounded,
    fun t c hc => ?_, List.forall_mem_cons.2 ⟨fun t ht => ?_, haged.limbo⟩,
    List.pairwise_singleton _ _⟩
  · unfold Fits
    cases hw : f.work with
    | run t | destroy t =>
      rw [hw] at hf
      exact absurd hf (Option.some_ne_none t)
    | node n => trivial
  · obtain ⟨hdead, hun⟩ := h.given_up i hi
    exact ⟨hdead, hun.of_node hf⟩
  · rw [effectsOf_node hf] at hc
    exact haged.children t c hc
  · rw [hf] at ht
    exact absurd ht.symm (Option.some_ne_none t)

theorem Exact.pushNode (h : (Machine.mk e [] hand).Exact) (hf : f.work.site? = none)
    (hasked : f.effects.pending.ReadsOnce) : (Machine.mk e [f] hand).Exact :=
  h.move rfl (fun t => by
    rw [effectsOf_node hf]
    exact Installed.SameBooks.refl _) (List.forall_mem_cons.2 ⟨hasked, h.asked⟩)
    fun t y hy hdead hun => h.idle t y hy hdead (List.forall_mem_cons.1 hun).2

end Slots

section Steps

variable {m m' : Machine}

theorem Filed.quiet (h : m.Filed) (hs : m'.engine.sites = m.engine.sites)
    (hf : m'.frames = m.frames)
    (hw : ∀ d, m'.engine.world.watchers d = m.engine.world.watchers d) : m'.Filed :=
  ⟨h.toOrderly.quiet hs hf, h.toExact.quiet hs hf hw⟩

theorem Filed.step (h : m.Filed) (hs : Step m m') : m'.Filed := by
  cases hs with
  | aside ha => exact h.quiet ha.sites rfl ha.world.watchers
  | newVertex | source | decorate | abandon | beginNode | editNode | ownVertex | ownSource
  | lift | place => exact h.quiet rfl rfl fun _ => rfl
  | @addEdge e _ _ src dst =>
    obtain ⟨q, hq⟩ := e.exists_adoptGraph_eq (e.graph.addEdge src dst).2
    rw [show (e.addEdge src dst).2 = _ from hq]
    exact h.quiet rfl rfl fun _ => rfl
  | @removeEdge e _ _ src dst =>
    obtain ⟨q, hq⟩ := e.exists_adoptGraph_eq (e.graph.removeEdge src dst).2
    rw [show (e.removeEdge src dst).2 = _ from hq]
    exact h.quiet rfl rfl fun _ => rfl
  | @reclaim e hand =>
    unfold Engine.reclaim
    split
    · have hswept :
          (Machine.mk { e with sites := (e.sites.sweep Site.destroyed).2 } [] hand).Filed :=
        ⟨h.toOrderly.sweep _, h.toExact.sweep _⟩
      exact hswept.quiet rfl rfl fun _ => rfl
    · exact h
  | @bury e _ v _ =>
    obtain ⟨q, hq⟩ := e.exists_adoptGraph_eq (e.graph.destroy v)
    rw [show e.destroyVertex v = _ from hq]
    exact h.quiet rfl rfl fun _ => rfl
  | enterSite hr => exact ⟨h.toOrderly.enterSite rfl, h.toExact.enterSite h.toOrderly rfl rfl⟩
  | relabelSite s n rename =>
    have hkeepsCounts : ∀ y : Site, Installed.SameBooks y.effects.installed
        (y.effects.renameNodes rename).installed := fun y => ⟨rfl, rfl, rfl, rfl⟩
    exact ⟨h.toOrderly.relabel hkeepsCounts fun _ => rfl, h.toExact.relabel hkeepsCounts fun _ =>
      rfl⟩
  | @beginRun e _ s x hx hlive =>
    refine ⟨h.toOrderly.hold hx hlive (fun _ hf => absurd hf (Option.not_mem_none _)) rfl ?_,
      h.toExact.hold (fun _ hf => absurd hf List.not_mem_nil) hx rfl⟩
    exact Fits.modifySite (f := ⟨.run s, x.effects.discard, []⟩) ⟨x, hx, hlive⟩ fun _ _ => rfl
  | @endRun e fs _ s fx limbo =>
    obtain ⟨age, haged⟩ := h.aged
    obtain ⟨x, hx, hlive⟩ : ∃ x, e.site? s = some x ∧ x.destroyed = false :=
      h.fits _ List.mem_cons_self
    refine ⟨h.toOrderly.giveBack rfl fun _ => ⟨rfl, rfl⟩,
      h.toExact.giveBack (haged.unheld_top rfl) hx rfl (fun _ => rfl) fun hdead => ?_⟩
    exact absurd (hlive.symm.trans hdead) Bool.false_ne_true
  | @beginDestroy e fs _ s x hx hlive hs =>
    obtain ⟨age, haged⟩ := h.aged
    have hun : Unheld fs s := fun f hf hfs =>
      Nat.lt_irrefl _ (haged.younger hs f hf s hfs)
    refine ⟨h.toOrderly.hold hx hlive hs rfl ?_, h.toExact.hold hun hx rfl⟩
    refine ⟨{ x with destroyed := true, effects := {} }, ?_, rfl⟩
    rw [Engine.site?_modifySite, if_pos rfl, hx]
    rfl
  | @endDestroy e fs hand s fx limbo hr =>
    obtain ⟨age, haged⟩ := h.aged
    have hun : Unheld fs s := haged.unheld_top rfl
    obtain ⟨x, hx, hdead⟩ : ∃ x, e.site? s = some x ∧ x.destroyed = true :=
      h.fits _ List.mem_cons_self
    have hback : (Machine.mk (e.modifySite s fun x => { x with effects := fx }) fs hand).Filed :=
      ⟨h.toOrderly.giveBack rfl fun _ => ⟨rfl, rfl⟩,
        h.toExact.giveBack hun hx rfl (fun _ => rfl) fun _ => hr⟩
    refine ⟨hback.toOrderly.release (x := { x with effects := fx }) ?_ hdead hun ?_,
      hback.toExact.release _⟩
    · rw [Engine.site?_modifySite, if_pos rfl, hx]
      rfl
    · exact fun hm => (h.given_up s.index hm).2 _ List.mem_cons_self rfl
  | openNode n hasked hreads hscratch =>
    exact ⟨h.toOrderly.pushNode rfl,
      h.toExact.pushNode rfl (Pending.readsOnce_of_not_reads hreads)⟩
  | closeNode ret nameSpan =>
    have hpop : Filed _ := ⟨h.toOrderly.popNode rfl, h.toExact.popNode rfl⟩
    exact hpop.quiet rfl rfl fun _ => rfl
  | dropNode => exact ⟨h.toOrderly.popNode rfl, h.toExact.popNode rfl⟩
  | stage ha =>
    exact ⟨h.toOrderly.top rfl rfl (fun c hc => Or.inl (ha.sites ▸ hc)) fun c => Or.inr,
      h.toExact.stage rfl rfl rfl ha.sameBooks.reads ha.sameBooks.readsOnce ha.readsOnce⟩
  | askSite | reuse | freshVertex | freshSource =>
    exact ⟨h.toOrderly.top rfl rfl (fun c => Or.inl) fun c => Or.inr,
      h.toExact.stage rfl rfl rfl (fun _ => Iff.rfl) id fun hx =>
        ⟨hx.methods, hx.consts, hx.superclasses⟩⟩
  | @read _ _ _ _ d hk =>
    exact ⟨h.toOrderly.top rfl rfl (fun c hc => Or.inl (by cases d <;> exact hc)) fun c => Or.inr,
      h.toExact.stage rfl rfl rfl (fun d' => by cases d <;> exact Iff.rfl)
        (fun hx => by cases d <;> exact hx) fun hx => Effects.readsOnce_read hx d⟩
  | detach =>
    refine ⟨h.toOrderly.top rfl rfl (fun c hc => absurd hc List.not_mem_nil) fun c hc =>
      List.mem_append.1 hc, h.toExact.stage rfl rfl rfl (fun d => ?_)
        (fun hx => ⟨hx.methods, hx.consts, hx.superclasses⟩)
        fun hx => ⟨hx.methods, hx.consts, hx.superclasses⟩⟩
    cases d <;> exact Iff.rfl
  | attach hs =>
    refine ⟨h.toOrderly.top rfl rfl (fun c hc => Or.inr (hs c hc)) fun c => Or.inr,
      h.toExact.stage rfl rfl rfl (fun d => ?_)
        (fun hx => ⟨hx.methods, hx.consts, hx.superclasses⟩) id⟩
    cases d <;> exact Iff.rfl
  | note hs hd => exact h.note hs hd
  | forget hs => exact h.forget hs
  | shed =>
    refine ⟨h.toOrderly.top rfl rfl (fun c => Or.inl) fun c => Or.inr,
      h.toExact.stage rfl rfl rfl (fun d => ?_)
        (fun hx => ⟨hx.methods, hx.consts, hx.superclasses⟩)
        fun hx => ⟨hx.methods, hx.consts, hx.superclasses⟩⟩
    cases d <;> exact Iff.rfl

end Steps

end Machine

end TypeFlow
