import TypeFlow.Proofs.Retention
import TypeFlow.Proofs.Upholding

/-!
# Asking twice

A run that asks for the same things as the one before it gets the same private vertices, as long as
each of them is alive. It then changes nothing while it asks; if one of them is dead it gets another
one in its place, in a slot that was not in use. This is a property of parts of a run, and passes
from the parts to the whole.
-/

set_option autoImplicit false

namespace TypeFlow

inductive Wish where
  | edge (src dst : VertexId)
  | site (key : SiteKey) (node : NodeId) (rule : Rule)
  | diagnostic (d : Diagnostic)
  | read (d : Dependency)
  | freshVertex (label : String)
  | freshSource (label : String) (types : List Ty)
  | typeSource (label : String) (t : Ty)

/-- A run as a list of what it asks for. Each wish may depend on the vertices obtained so far. -/
abbrev Script := List (List VertexId → Wish)

namespace Wish

/-- Asks for one thing; returns the vertex that it gets, if it asks for one. -/
def stage : Wish → Staging (Option VertexId)
  | .edge src dst => do Staging.addEdge src dst; return none
  | .site key node rule => do Staging.addSite key node rule; return none
  | .diagnostic d => do Staging.onEffects (·.addDiagnostic d); return none
  | .read d => do Staging.onEffects (·.read d); return none
  | .freshVertex label => do return some (← Staging.freshVertex label)
  | .freshSource label types => do return some (← Staging.freshSource label types)
  | .typeSource label t => do return some (← Staging.typeSource label t)

/-- Only certain dependencies may be read, and a source is asked for without repetitions. -/
def Allowed (P : Dependency → Prop) : Wish → Prop
  | .read d => P d
  | .freshSource _ types => types.Nodup
  | _ => True

end Wish

namespace Script

/-- Asks for one thing after the other; returns the vertices obtained, after those that were
there. -/
def stage : Script → List VertexId → Staging (List VertexId)
  | [], got => return got
  | ask :: rest, got => do
    let new ← (ask got).stage
    stage rest (got ++ new.toList)

/-- Every wish is allowed, whatever was obtained before it. -/
def Allowed (P : Dependency → Prop) (script : Script) : Prop :=
  ∀ ask ∈ script, ∀ got, (ask got).Allowed P

end Script

structure Vertex.Stands (x y : Vertex) : Prop where
  alive : y.alive = true
  source : y.source = x.source
  size : x.source = true → y.types.size = x.types.size
  holds : x.source = true → ∀ t, y.holds t = x.holds t

structure Pending.Proper (P : Dependency → Prop) (p : Pending) : Prop where
  numbered : ∀ key ∈ p.scratch.keys, key.2 < (p.ordinals.get? key.1).getD 0
  scratch : p.scratch.keys.Nodup
  sites : p.sites.keys.Nodup
  once : p.ReadsOnce
  reads : ∀ d, p.Reads d → P d

theorem Pending.Proper.empty {P : Dependency → Prop} : ({} : Pending).Proper P where
  numbered _ h := absurd h List.not_mem_nil
  scratch := List.nodup_nil
  sites := List.nodup_nil
  once := readsOnce_empty
  reads d h := by cases d <;> exact absurd h List.not_mem_nil

namespace Run

structure Fair (P : Dependency → Prop) (r : Run) : Prop where
  settled : ∃ born, r.engine.graph.Settled born
  proper : r.effects.pending.Proper P
  alive : ∀ key v, r.effects.pending.scratch.get? key = some v → (r.engine.vertex v).alive = true

structure Precedes (r r' : Run) : Prop where
  installed : r'.effects.installed = r.effects.installed
  scratch : ∀ key v, r.effects.pending.scratch.get? key = some v →
    r'.effects.pending.scratch.get? key = some v
  shared : ∀ types v, r.engine.graph.shared.get? types = some v →
    r'.engine.graph.shared.get? types = some v
  vertices : ∀ v, (r.engine.vertex v).alive = true → r'.engine.vertex v = r.engine.vertex v
  aside : ∃ graph, r'.engine = { r.engine with graph }

theorem Precedes.refl (r : Run) : r.Precedes r :=
  ⟨rfl, fun _ _ => id, fun _ _ => id, fun _ _ => rfl, r.engine.graph, rfl⟩

theorem Precedes.trans {r r' r'' : Run} (h : r.Precedes r') (h' : r'.Precedes r'') :
    r.Precedes r'' where
  installed := h'.installed.trans h.installed
  scratch key v hv := h'.scratch key v (h.scratch key v hv)
  shared types v hv := h'.shared types v (h.shared types v hv)
  vertices v hv := by
    have hsame := h.vertices v hv
    exact (h'.vertices v (hsame ▸ hv)).trans hsame
  aside := by
    obtain ⟨graph, hg⟩ := h.aside
    obtain ⟨graph', hg'⟩ := h'.aside
    exact ⟨graph', by rw [hg', hg]⟩

structure Stocked (r : Run) (e : Engine) (x : Installed) : Prop where
  scratch : ∀ key v, r.effects.pending.scratch.get? key = some v → x.scratch.get? key = some v
  shared : ∀ types v, r.engine.graph.shared.get? types = some v →
    e.graph.shared.get? types = some v
  stands : ∀ key v, r.effects.pending.scratch.get? key = some v → (e.vertex v).alive = true →
    (r.engine.vertex v).Stands (e.vertex v)

def Intact (r : Run) (e : Engine) : Prop :=
  ∀ key v, r.effects.pending.scratch.get? key = some v → (e.vertex v).alive = true

def again (r : Run) (e : Engine) (x : Installed) : Run := ⟨e, ⟨x, r.effects.pending⟩⟩

variable {P : Dependency → Prop} {r r' : Run} {e : Engine} {x : Installed}

theorem Stocked.before (h : r'.Stocked e x) (hr : r.Fair P) (hp : r.Precedes r') :
    r.Stocked e x where
  scratch key v hv := h.scratch key v (hp.scratch key v hv)
  shared types v hv := h.shared types v (hp.shared types v hv)
  stands key v hv hlive := by
    have hstands := h.stands key v (hp.scratch key v hv) hlive
    rwa [hp.vertices v (hr.alive key v hv)] at hstands

theorem Intact.before (h : r'.Intact e) (hp : r.Precedes r') : r.Intact e := fun key v hv =>
  h key v (hp.scratch key v hv)

end Run

structure Replays (P : Dependency → Prop) {α : Type} (m : Staging α) : Prop where
  retains : ∀ v, Staging.Keeps (fun e e' => Graph.Retains v e.graph e'.graph) m
  proceeds : ∀ {r a r'}, r.Fair P → m r = some (a, r') → r'.Fair P ∧ r.Precedes r'
  again : ∀ {r a r' e x}, r.Fair P → m r = some (a, r') → r'.Stocked e x →
    (∃ born, e.graph.Settled born) → r.Intact e →
    (r'.Intact e → m (r.again e x) = some (a, r'.again e x)) ∧
    (¬r'.Intact e → ∀ b s, m (r.again e x) = some (b, s) →
      ∃ v, ¬e.graph.Uses v ∧ s.engine.graph.Uses v)

namespace Replays

variable {P : Dependency → Prop} {α β : Type}

theorem pure (a : α) : Replays P (pure a) where
  retains v := Staging.keeps_pure a
  proceeds hr h := by
    cases h
    exact ⟨hr, .refl _⟩
  again hr h _ _ hlive := by
    cases h
    exact ⟨fun _ => rfl, fun hdead => absurd hlive hdead⟩

theorem bind {m : Staging α} {k : α → Staging β} (hm : Replays P m) (hk : ∀ a, Replays P (k a)) :
    Replays P (m >>= k) where
  retains v := Staging.keeps_bind (hm.retains v) fun a => (hk a).retains v
  proceeds {r b r'} hr h := by
    change (m r).bind (fun x => k x.1 x.2) = some (b, r') at h
    obtain ⟨⟨a, r1⟩, hfirst, hrest⟩ := Option.bind_eq_some_iff.1 h
    obtain ⟨hr1, hp1⟩ := hm.proceeds hr hfirst
    obtain ⟨hr', hp'⟩ := (hk a).proceeds hr1 hrest
    exact ⟨hr', hp1.trans hp'⟩
  again {r b r' e x} hr h hstock hsettled hlive := by
    change (m r).bind (fun x => k x.1 x.2) = some (b, r') at h
    obtain ⟨⟨a, r1⟩, hfirst, hrest⟩ := Option.bind_eq_some_iff.1 h
    obtain ⟨hr1, hp1⟩ := hm.proceeds hr hfirst
    obtain ⟨-, hp'⟩ := (hk a).proceeds hr1 hrest
    obtain ⟨hsame, hother⟩ :=
      hm.again hr hfirst (hstock.before hr1 hp') hsettled hlive
    refine ⟨fun hall => ?_, fun hdead c s hc => ?_⟩
    · have hlive1 := Run.Intact.before hall hp'
      show (m (r.again e x)).bind (fun x => k x.1 x.2) = _
      rw [hsame hlive1]
      exact ((hk a).again hr1 hrest hstock hsettled hlive1).1 hall
    · change (m (r.again e x)).bind (fun x => k x.1 x.2) = some (c, s) at hc
      obtain ⟨⟨a', s1⟩, hfirst', hrest'⟩ := Option.bind_eq_some_iff.1 hc
      by_cases hlive1 : r1.Intact e
      · rw [hsame hlive1] at hfirst'
        cases hfirst'
        exact ((hk a).again hr1 hrest hstock hsettled hlive1).2 hdead c s hrest'
      · -- the first part has left the old run, and nothing gives its new slot back
        obtain ⟨v, hunused, hused⟩ := hother hlive1 a' s1 hfirst'
        obtain ⟨born, hborn⟩ := hsettled
        obtain ⟨born1, hborn1, -⟩ := hm.retains v _ _ _ hfirst' born hborn
        obtain ⟨_, _, hkeeps⟩ := (hk a').retains v _ _ _ hrest' born1 hborn1
        exact ⟨v, hunused, (hkeeps hused).1⟩

theorem onEffects {f : Pending → Pending} (hscratch : ∀ p, (f p).scratch = p.scratch)
    (hproper : ∀ p, p.Proper P → (f p).Proper P) :
    Replays P (Staging.onEffects fun fx => fx.mapPending f) where
  retains v := fun r _ r' h => by
    cases h
    exact (Graph.recedes_retains v).refl _
  proceeds {r a r'} hr h := by
    cases h
    refine ⟨⟨hr.settled, hproper _ hr.proper, fun key v hv => ?_⟩, rfl, fun key v hv => ?_,
      fun _ _ => id, fun _ _ => rfl, r.engine.graph, rfl⟩
    · exact hr.alive key v (hscratch r.effects.pending ▸ hv)
    · show (f r.effects.pending).scratch.get? key = some v
      rwa [hscratch]
  again {r a r' e x} hr h _ _ hlive := by
    cases h
    refine ⟨fun _ => rfl, fun hdead => absurd (fun key v hv => ?_) hdead⟩
    exact hlive key v (hscratch r.effects.pending ▸ hv)

end Replays

namespace Engine

def alloc (e : Engine) (x : Vertex) : VertexId × Engine :=
  ((e.graph.alloc x).1, { e with graph := (e.graph.alloc x).2 })

variable {e : Engine} {born : VertexId → List Ty}

theorem vertex_alloc (h : e.graph.Settled born) (x : Vertex) :
    (e.alloc x).2.vertex (e.alloc x).1 = x :=
  (Graph.get_alloc h x _).trans (if_pos rfl)

theorem vertex_alloc_of_alive (h : e.graph.Settled born) (x : Vertex) {v : VertexId}
    (hv : (e.vertex v).alive = true) : (e.alloc x).2.vertex v = e.vertex v := by
  have hne : (e.graph.alloc x).1 ≠ v := fun he => by
    have hdead := (Graph.alloc_detached h x).1
    rw [he] at hdead
    exact absurd (hv.symm.trans hdead) (by decide)
  exact (Graph.get_alloc h x v).trans (if_neg hne)

end Engine

namespace Replays

variable {P : Dependency → Prop}

theorem source (types : List Ty) : Replays P (Staging.source types) where
  retains v := Staging.keeps_onEngine fun e => Graph.Retains.source e.graph types
  proceeds {r a r'} hr h := by
    cases h
    obtain ⟨born, hborn⟩ := hr.settled
    have hvertices : ∀ v, (r.engine.vertex v).alive = true →
        (r.engine.source types).2.vertex v = r.engine.vertex v := fun v hv => by
      show (r.engine.graph.source types).2.get v = _
      cases hshared : r.engine.graph.shared.get? types with
      | some u =>
        rw [Graph.source_eq_of_some hshared]
        rfl
      | none =>
        rw [Graph.source_eq_of_none hshared]
        exact Engine.vertex_alloc_of_alive hborn (Vertex.ofTypes types none) hv
    refine ⟨⟨⟨_, hborn.source types⟩, hr.proper, fun key v hv => ?_⟩, rfl, fun _ _ => id,
      fun _ _ => Engine.Upholds.shared_source r.engine.graph types, hvertices, _, rfl⟩
    show ((r.engine.source types).2.vertex v).alive = true
    rw [hvertices v (hr.alive key v hv)]
    exact hr.alive key v hv
  again {r a r' e x} hr h hstock _ hlive := by
    cases h
    refine ⟨fun _ => ?_, fun hdead => absurd hlive hdead⟩
    have hsame := hstock.shared types _ (Graph.get?_shared_source r.engine.graph types)
    show some ((e.graph.source types).1,
      Run.again _ { e with graph := (e.graph.source types).2 } x) = _
    rw [Graph.source_eq_of_some hsame]
    rfl

end Replays

section Private

open Staging

namespace Effects

def privateKey (fx : Effects) (label : String) : ScratchKey := (fx.nextScratchKey label).1

theorem get?_addPrivate (fx : Effects) (label : String) (v : VertexId) (key : ScratchKey) :
    (fx.addPrivate label v).pending.scratch.get? key =
      if fx.privateKey label = key then some v else fx.pending.scratch.get? key :=
  OrderedMap.get?_insert ..

variable {P : Dependency → Prop} {fx : Effects}

def Numbered (fx : Effects) : Prop := ∀ key ∈ fx.pending.scratch.keys,
  key.2 < (fx.pending.ordinals.get? key.1).getD 0

theorem Numbered.not_mem_privateKey (h : fx.Numbered) (label : String) :
    fx.privateKey label ∉ fx.pending.scratch.keys := fun hmem =>
  Nat.lt_irrefl _ (h _ hmem)

theorem Numbered.addPrivate (h : fx.Numbered) (label : String) (v : VertexId) :
    (fx.addPrivate label v).Numbered := by
  intro key hkey
  show key.2 < ((fx.pending.ordinals.insert label _).get? key.1).getD 0
  rw [OrderedMap.get?_insert]
  rcases OrderedMap.mem_keys_insert.1 hkey with rfl | hold
  · rw [if_pos (show label = (fx.nextScratchKey label).1.1 from rfl)]
    exact Nat.lt_succ_self _
  · have hlt := h key hold
    split
    · next hlabel =>
      rw [← hlabel] at hlt
      exact Nat.lt_succ_of_lt hlt
    · exact hlt

theorem proper_addPrivate (h : fx.pending.Proper P) (label : String) (v : VertexId) :
    (fx.addPrivate label v).pending.Proper P where
  numbered := Numbered.addPrivate h.numbered label v
  scratch := OrderedMap.nodup_keys_insert _ _ h.scratch
  sites := h.sites
  once := ⟨h.once.methods, h.once.consts, h.once.superclasses⟩
  reads := h.reads

end Effects

variable {P : Dependency → Prop} {label : String} {fit : Vertex → Bool}
  {create : Engine → VertexId × Engine} {r : Run}

theorem Staging.scratch_of_reusable {v : VertexId}
    (h : reusable? r (r.effects.privateKey label) fit = some v) :
    scratch label fit create r = some (v, ⟨r.engine, r.effects.addPrivate label v⟩) := by
  unfold Effects.privateKey at h
  unfold scratch
  simp only [modifyGet, MonadStateOf.modifyGet, StateT.modifyGet, Pure.pure, h]
  rfl

theorem Staging.scratch_of_not_reusable
    (h : reusable? r (r.effects.privateKey label) fit = none) :
    scratch label fit create r = some ((create r.engine).1,
      ⟨(create r.engine).2, r.effects.addPrivate label (create r.engine).1⟩) := by
  unfold Effects.privateKey at h
  unfold scratch
  simp only [modifyGet, MonadStateOf.modifyGet, StateT.modifyGet, Pure.pure, h]
  rfl

structure Fitting (fit : Vertex → Bool) (create : Engine → VertexId × Engine) : Prop where
  fresh : ∃ x types, fit x = true ∧ (∀ e, create e = e.alloc x) ∧
    ∀ (g : Graph) born, g.Settled born →
      (g.alloc x).2.Settled (Function.update born (g.alloc x).1 types)
  alive : ∀ y, fit y = true → y.alive = true
  stands : ∀ y z, fit y = true → y.Stands z → fit z = true

namespace Fitting

theorem scratch_spec (h : Fitting fit create) (hr : r.Fair P) {v : VertexId} {r' : Run}
    (hrun : scratch label fit create r = some (v, r')) :
    r'.effects = r.effects.addPrivate label v ∧ fit (r'.engine.vertex v) = true ∧
      (∃ born, r'.engine.graph.Settled born) ∧
      (∀ u, (r.engine.vertex u).alive = true → r'.engine.vertex u = r.engine.vertex u) ∧
      r'.engine.graph.shared = r.engine.graph.shared ∧
      ∃ graph, r'.engine = { r.engine with graph } := by
  obtain ⟨born, hborn⟩ := hr.settled
  cases hre : reusable? r (r.effects.privateKey label) fit with
  | some u =>
    rw [scratch_of_reusable hre] at hrun
    cases hrun
    exact ⟨rfl, (Option.filter_eq_some_iff.1 hre).2, hr.settled, fun _ _ => rfl, rfl,
      r.engine.graph, rfl⟩
  | none =>
    obtain ⟨x, types, hfit, hcreate, hsettled⟩ := h.fresh
    rw [scratch_of_not_reusable hre, hcreate] at hrun
    cases hrun
    refine ⟨rfl, ?_, ⟨_, hsettled _ _ hborn⟩, fun u => Engine.vertex_alloc_of_alive hborn x, rfl,
      _, rfl⟩
    show fit ((r.engine.alloc x).2.vertex (r.engine.alloc x).1) = true
    rw [Engine.vertex_alloc hborn]
    exact hfit

theorem retains (h : Fitting fit create) (v : VertexId) :
    Keeps (fun e e' => Graph.Retains v e.graph e'.graph) (scratch label fit create) := by
  obtain ⟨x, types, -, hcreate, hsettled⟩ := h.fresh
  refine keeps_scratch fun e => ?_
  rw [hcreate]
  exact .alloc fun born hb => hsettled e.graph born hb

theorem proceeds (h : Fitting fit create) (hr : r.Fair P) {v : VertexId} {r' : Run}
    (hrun : scratch label fit create r = some (v, r')) : r'.Fair P ∧ r.Precedes r' := by
  obtain ⟨heffects, hfit, hsettled, hvertices, hshared, haside⟩ := h.scratch_spec hr hrun
  refine ⟨⟨hsettled, heffects ▸ Effects.proper_addPrivate hr.proper label v, fun key u hu => ?_⟩,
    by rw [heffects]; rfl, fun key u hu => ?_, fun types u hu => hshared ▸ hu, hvertices, haside⟩
  · rw [heffects, Effects.get?_addPrivate] at hu
    split at hu
    · cases hu
      exact h.alive _ hfit
    · have halive := hr.alive key u hu
      rwa [hvertices u halive]
  · have hne : r.effects.privateKey label ≠ key := fun he =>
      Effects.Numbered.not_mem_privateKey hr.proper.numbered label (he ▸ OrderedMap.mem_keys_of_get?
        hu)
    rw [heffects, Effects.get?_addPrivate, if_neg hne]
    exact hu

/-- A private vertex is found again if it is alive, and another one takes its place if not. -/
theorem replays (h : Fitting fit create) : Replays P (scratch label fit create) where
  retains := h.retains
  proceeds hr hrun := h.proceeds hr hrun
  again {r v r' e x} hr hrun hstock hsettled hlive := by
    obtain ⟨heffects, hfit, -⟩ := h.scratch_spec hr hrun
    have hnew : r'.effects.pending.scratch.get? (r.effects.privateKey label) = some v := by
      rw [heffects, Effects.get?_addPrivate, if_pos rfl]
    have hre : reusable? (r.again e x) ((r.again e x).effects.privateKey label) fit =
        (some v).filter fun v => fit (e.vertex v) :=
      congrArg (Option.filter _) (hstock.scratch _ v hnew)
    refine ⟨fun hall => ?_, fun hdead b s hs => ?_⟩
    · have hstill := h.stands _ _ hfit (hstock.stands _ v hnew (hall _ v hnew))
      rw [Option.filter_some, if_pos hstill] at hre
      rw [scratch_of_reusable hre]
      unfold Run.again
      rw [heffects]
      rfl
    · have hgone : ¬(e.vertex v).alive = true := fun halive => hdead fun key u hu => by
        rw [heffects, Effects.get?_addPrivate] at hu
        split at hu
        · cases hu
          exact halive
        · exact hlive key u hu
      rw [Option.filter_some, if_neg fun hf => hgone (h.alive _ hf)] at hre
      obtain ⟨y, types, -, hcreate, -⟩ := h.fresh
      obtain ⟨born, hborn⟩ := hsettled
      rw [scratch_of_not_reusable hre, hcreate] at hs
      cases hs
      exact ⟨_, hborn.uses_alloc y⟩

end Fitting

end Private

section Wishes

variable {P : Dependency → Prop}

theorem fitting_vertex (label : String) :
    Fitting (fun x => x.alive && !x.source) (·.newVertex label none) where
  fresh := ⟨{ label }, [], rfl, fun _ => rfl, fun _ _ h => h.newVertex label none⟩
  alive y hy := (Bool.and_eq_true_iff.1 hy).1
  stands y z hy hz := by
    rw [hz.alive, hz.source]
    exact (Bool.and_eq_true_iff.1 hy).2

theorem Vertex.size_ofTypes {types : List Ty} (h : types.Nodup) (node : Option NodeId) :
    (Vertex.ofTypes types node).types.size = types.length := by
  have htidy := Vertex.ofTypes_tidy types node
  rw [← OrderedMap.length_keys]
  exact ((List.perm_ext_iff_of_nodup htidy.types_nodup h).2 fun t =>
    Vertex.mem_typeList_ofTypes).length_eq

theorem fitting_source {types : List Ty} (h : types.Nodup) :
    Fitting (fun x => x.alive && x.source && x.types.size == types.length && types.all x.holds)
      (·.newSource types none) where
  fresh := by
    refine ⟨Vertex.ofTypes types none, types, ?_, fun _ => rfl,
      fun _ _ hb => hb.newSource types none⟩
    simp only [Bool.and_eq_true, beq_iff_eq, List.all_eq_true]
    exact ⟨⟨⟨rfl, rfl⟩, Vertex.size_ofTypes h none⟩, fun t ht =>
      OrderedMap.contains_iff.2 (Vertex.mem_typeList_ofTypes.2 ht)⟩
  alive y hy := by
    simp only [Bool.and_eq_true] at hy
    exact hy.1.1.1
  stands y z hy hz := by
    simp only [Bool.and_eq_true, beq_iff_eq, List.all_eq_true] at hy ⊢
    obtain ⟨⟨⟨_, hsource⟩, hsize⟩, hholds⟩ := hy
    exact ⟨⟨⟨hz.alive, hz.source.trans hsource⟩, (hz.size hsource).trans hsize⟩,
      fun t ht => (hz.holds hsource t).trans (hholds t ht)⟩

theorem Pending.Proper.read {fx : Effects} {d : Dependency} (h : fx.pending.Proper P) (hd : P d) :
    (fx.read d).pending.Proper P := by
  have hreads : ∀ d', (fx.read d).pending.Reads d' → P d' := fun d' hd' => by
    rcases Effects.reads_read.1 hd' with hold | rfl
    · exact h.reads d' hold
    · exact hd
  have honce := Effects.readsOnce_read h.once d
  cases d <;> exact ⟨h.numbered, h.scratch, h.sites, honce, hreads⟩

theorem Wish.replays {wish : Wish} (h : wish.Allowed P) : Replays P wish.stage := by
  cases wish with
  | edge | diagnostic =>
    refine .bind (.onEffects (fun _ => rfl) fun p hp => ?_) fun _ => .pure none
    exact ⟨hp.numbered, hp.scratch, hp.sites, ⟨hp.once.methods, hp.once.consts,
      hp.once.superclasses⟩, hp.reads⟩
  | site key node rule =>
    refine .bind (.onEffects (fun _ => rfl) fun p hp => ?_) fun _ => .pure none
    exact ⟨hp.numbered, hp.scratch, OrderedMap.nodup_keys_insert _ _ hp.sites,
      ⟨hp.once.methods, hp.once.consts, hp.once.superclasses⟩, hp.reads⟩
  | read d =>
    have hread : (fun fx : Effects => fx.read d) =
        fun fx => fx.mapPending fun p => (Effects.read ⟨{}, p⟩ d).pending := by
      funext fx
      cases d <;> rfl
    refine .bind ?_ fun _ => .pure none
    rw [hread]
    refine .onEffects (fun p => ?_) fun p hp => Pending.Proper.read hp h
    cases d <;> rfl
  | freshVertex label => exact .bind (fitting_vertex label).replays fun v => .pure (some v)
  | freshSource label types => exact .bind (fitting_source h).replays fun v => .pure (some v)
  | typeSource label t =>
    refine .bind ?_ fun v => .pure (some v)
    unfold Staging.typeSource
    split
    · exact .source [t]
    · exact (fitting_source (List.nodup_singleton t)).replays

/-- A script that is followed again gets the same vertices and leaves the engine as it is, as long
as its private vertices are alive. -/
theorem Script.replays {script : Script} (h : script.Allowed P) (got : List VertexId) :
    Replays P (script.stage got) := by
  induction script generalizing got with
  | nil => exact .pure got
  | cons ask rest ih =>
    exact .bind (Wish.replays (h ask List.mem_cons_self got)) fun new =>
      ih (fun ask' hask => h ask' (List.mem_cons_of_mem ask hask)) _

end Wishes

end TypeFlow
