import TypeFlow.Proofs.Hierarchy
import TypeFlow.Proofs.Updates

/-!
# Sequences of requests

A workspace starts with the built-in classes and serves requests one after the other, each of which
may fail. All of it, from the world of names on, is a number of steps of the machine at rest, and
from the start on it is a number of moves; so the machine is sound after every sequence of
requests, and the records are those of the nodes of the documents.
-/

set_option autoImplicit false

namespace TypeFlow

open Machine State

namespace Boot

theorem stock_boot (config : Config) : Engine.SameStock {} (Engine.boot config) := by
  rw [Engine.boot_start]
  exact ⟨rfl, rfl, rfl, rfl⟩

theorem site?_boot (config : Config) (u : SiteId) : (Engine.boot config).site? u = none := by
  unfold Engine.site?
  rw [(stock_boot config).sites]
  rfl

/-- Nobody watches a definition of the start. -/
theorem startWorld_watchers (d : Dependency) : startWorld.watchers d = [] := by
  have hblank : ∀ i < startWorld.modules.size, (startWorld.get ⟨i⟩).subclassChecks = {} ∧
      (∀ c ∈ (startWorld.get ⟨i⟩).consts.values, c.followers = {}) ∧
      ∀ b, ∀ m ∈ ((startWorld.get ⟨i⟩).methods.get b).values, m.callsites = {} := by
    decide +kernel
  unfold World.watchers
  generalize startWorld = w at hblank
  have hblank : (w.get d.module).subclassChecks = {} ∧
      (∀ c ∈ (w.get d.module).consts.values, c.followers = {}) ∧
      ∀ b, ∀ m ∈ ((w.get d.module).methods.get b).values, m.callsites = {} := by
    by_cases hd : w.Knows d.module
    · exact hblank d.module.index hd
    · rw [World.get_of_not_knows hd]
      decide
  generalize w.get d.module = x at hblank
  obtain ⟨hchecks, hconsts, hmethods⟩ := hblank
  cases d with
  | method key =>
    unfold Module.watchers
    dsimp only
    cases hm : (x.methods.get key.side.singleton).get? key.name with
    | none => rfl
    | some m => exact congrArg OrderedSet.toList (hmethods _ m (OrderedMap.mem_values_of_get? hm))
  | const key =>
    unfold Module.watchers
    dsimp only
    cases hc : x.consts.get? key.name with
    | none => rfl
    | some c => exact congrArg OrderedSet.toList (hconsts c (OrderedMap.mem_values_of_get? hc))
  | superclass m => exact congrArg OrderedSet.toList hchecks

theorem sound_boot (config : Config) : (Machine.mk (Engine.boot config) [] []).Sound := by
  have hclosed := (related_boot config).closed
  rw [Engine.world_boot] at hclosed
  rw [Engine.boot_start]
  have hsite : ∀ s x, (Engine.start config).site? s ≠ some x := fun s x =>
    (Option.some_ne_none x).symm
  have hframe : ∀ f : Frame, f ∉ [] := fun f => List.not_mem_nil
  have htypes : ∀ i < startGraph.vertices.size, ∀ t ∈ (startGraph.get ⟨i⟩).typeList,
      ∃ m < startWorld.modules.size, t = .singletonOf ⟨m⟩ := by
    decide +kernel
  refine ⟨⟨hclosed, fun v t ht => ?_, fun s x hx => absurd hx (hsite s x),
    fun f hf => absurd hf (hframe f), fun r hr => absurd hr List.not_mem_nil⟩,
    ⟨fun f hf => absurd hf (hframe f), List.nodup_nil, fun i hi => absurd hi List.not_mem_nil,
      fun _ => 0, ⟨1, fun _ => Nat.one_pos⟩, fun s c hc => absurd hc List.not_mem_nil,
      fun f hf => absurd hf (hframe f), List.Pairwise.nil⟩,
    fun s d => iff_of_false ?_ (Installed.not_reads_empty d), fun s => Installed.readsOnce_empty,
    fun f hf => absurd hf (hframe f), fun s x hx => absurd hx (hsite s x)⟩
  · obtain ⟨m, hm, rfl⟩ := htypes v.index (Graph.lt_size_of_mem ht) t ht
    exact hm
  · show s ∉ startWorld.watchers d
    rw [startWorld_watchers]
    exact List.not_mem_nil

theorem held_boot (config : Config) (v : VertexId) :
    ((Engine.boot config).rest []).machine.held v = 0 := by
  rw [Engine.boot_start]
  rfl

theorem kept_boot (config : Config) : ((Engine.boot config).rest []).Kept := by
  obtain ⟨born, hborn⟩ := sourced_boot config
  have hsound := sound_boot config
  have hheld := held_boot config
  rw [Engine.boot_start] at hborn hsound hheld ⊢
  have hsite : ∀ s x, (Engine.start config).site? s ≠ some x := fun s x =>
    (Option.some_ne_none x).symm
  have hrecord : ∀ n x, (Engine.start config).record? n ≠ some x := fun n x =>
    (Option.some_ne_none x).symm
  have hnone : ∀ t : Task, t ∉ ((Engine.start config).rest []).tasks := fun _ => List.not_mem_nil
  have hneat : ((Engine.start config).rest []).Neat :=
    ⟨fun t ht => absurd ht (hnone t), fun s x hx => absurd hx (hsite s x),
      fun n r hr => absurd hr (hrecord n r), fun x hx => by cases hx⟩
  refine ⟨⟨hsound, hneat, fun t ht => absurd ht (hnone t)⟩,
    ⟨List.nodup_nil, fun s x hx => absurd hx (hsite s x), fun f hf => absurd hf List.not_mem_nil⟩,
    ⟨born, hborn.settled, hborn.interned, fun v => (hheld v).trans_le (Nat.zero_le _),
      fun ts v _ => hheld v⟩, ?_⟩
  rintro r hr
  obtain rfl : ({} : Roll) = r := Option.some.inj hr
  refine ⟨fun n => ?_, ⟨?_, ?_, fun b n => ?_, List.nodup_nil,
    fun i hi => absurd hi List.not_mem_nil⟩, List.nodup_nil,
    fun o ho => absurd ho List.not_mem_nil, fun x hx => absurd hx.symm (Option.some_ne_none x),
    fun t ht => absurd ht List.not_mem_nil⟩
  · refine iff_of_false (Finset.notMem_empty n) ?_
    rintro ⟨x, hx⟩
    exact hrecord n x hx
  · rintro t n ⟨x, hx, -⟩
    exact absurd hx (hsite t x)
  · rintro n t ⟨x, hx, -⟩
    exact absurd hx (hrecord n x)
  · refine iff_of_false ?_ ?_
    · rintro ⟨x, hx, -⟩
      exact Option.some_ne_none x hx.symm
    · rintro (⟨x, hx, -⟩ | ⟨x, hx, -⟩)
      · exact hrecord n x hx
      · cases hx

end Boot

/-- What a workspace is asked to do. -/
inductive Request where
  | update (path : String) (version : Option Nat) (source : String)
  | remove (path : String)
  deriving DecidableEq, Repr

namespace Request

def handle : Request → WorkspaceM Unit
  | update path version source => Workspace.update path version source
  | remove path => Workspace.remove path

theorem drives_handle (r : Request) (w : Workspace) (log : List Event) :
    Drives Workspace.rest (w.Fails log) r.handle w log (w.Succeeds log) := by
  cases r with
  | update path version source => exact Workspace.drives_update path version source
  | remove path => exact Workspace.drives_remove path

end Request

namespace Workspace

/-- The workspace after a request, whether it succeeded or not. -/
def after (w : Workspace) (r : Request) : Workspace :=
  match r.handle w with
  | .ok _ w' => w'
  | .error _ w' => w'

/-- The workspace after several requests. -/
def serve (config : Config) (rs : List Request) : Workspace := rs.foldl after (ofConfig config)

def resting (w : Workspace) : Machine := ⟨w.engine, [], []⟩

theorem closes_after (w : Workspace) (r : Request) {log : List Event} (hs : (w.rest log).Sound) :
    ∃ log', w.engine.Closes log (w.after r).engine log' ∧
      (w.Fits log → (w.after r).Fits log') := by
  have hdone := r.drives_handle w log hs
  revert hdone
  unfold after
  cases r.handle w with
  | ok _ | error => exact fun ⟨log', _, hdone⟩ => ⟨log', hdone.closes, hdone.fits⟩

theorem moves_foldl_after (rs : List Request) {w : Workspace} {log : List Event}
    (hs : (w.rest log).Sound) : ∃ log', Moves (w.rest log) ((rs.foldl after w).rest log') ∧
      (w.Fits log → (rs.foldl after w).Fits log') := by
  induction rs generalizing w log with
  | nil => exact ⟨log, .refl, id⟩
  | cons r rs ih =>
    obtain ⟨log1, hone, hfits1⟩ := closes_after w r hs
    obtain ⟨log2, hrest, hfits2⟩ := ih (hs.moves hone.moves)
    exact ⟨log2, hone.moves.trans hrest, hfits2 ∘ hfits1⟩

theorem fits_ofConfig (config : Config) : (ofConfig config).Fits [] :=
  ⟨List.nodup_nil, List.nodup_nil, fun _ hi => absurd hi List.not_mem_nil, rfl⟩

theorem moves_serve (config : Config) (rs : List Request) : ∃ log,
    Moves ((Engine.boot config).rest []) ((serve config rs).rest log) ∧
      (serve config rs).Fits log := by
  obtain ⟨log, hmoves, hfits⟩ := moves_foldl_after (w := ofConfig config) rs
    (Boot.kept_boot config).sound
  exact ⟨log, hmoves, hfits (fits_ofConfig config)⟩

theorem Fits.keys_perm {w : Workspace} {log : List Event} (h : w.Fits log)
    (hkept : (w.rest log).Kept) :
    w.engine.nodes.keys.Perm (nodesOf w.documents) := by
  have hhomed := hkept.homed _ h.called
  refine (List.perm_ext_iff_of_nodup hkept.keysDistinct.records h.nodup).2 fun n => ?_
  rw [← List.mem_toFinset (l := nodesOf w.documents)]
  refine Iff.trans ?_ (hhomed.keys n).symm
  rw [← OrderedMap.get?_isSome_iff, Option.isSome_iff_exists]
  rfl

/-- The counter after all requests is above every identifier in use after some of them. -/
theorem index_lt_nextNode (config : Config) {before rs : List Request} (hp : before <+: rs)
    {n : NodeId} (hn : n ∈ (serve config before).engine.nodes.keys) :
    n.index < (serve config rs).engine.nextNode := by
  obtain ⟨more, rfl⟩ := hp
  obtain ⟨log, hstart, hfits⟩ := moves_serve config before
  have hkept := (Boot.kept_boot config).moves hstart
  obtain ⟨log', hmoves, -⟩ := moves_foldl_after more hkept.sound
  have hdated := hfits.dated n ((hfits.keys_perm hkept).subset hn)
  rw [serve, List.foldl_append]
  exact hdated.trans_le (Moves.nextNode_le hmoves)

theorem sound_serve (config : Config) (rs : List Request) : (serve config rs).resting.Sound := by
  obtain ⟨log, hmoves, -⟩ := moves_serve config rs
  exact ((Boot.kept_boot config).sound.moves hmoves).machine

theorem owned_serve (config : Config) (rs : List Request) :
    (serve config rs).resting.KeysDistinct ∧ ∃ born, (serve config rs).resting.Owned born := by
  obtain ⟨log, hmoves, -⟩ := moves_serve config rs
  have hkept := (Boot.kept_boot config).moves hmoves
  exact ⟨hkept.keysDistinct, hkept.owned⟩

theorem steps_serve_append (config : Config) (rs more : List Request) :
    Steps (serve config rs).resting (serve config (rs ++ more)).resting := by
  obtain ⟨log, hstart, -⟩ := moves_serve config rs
  have hs := (Boot.kept_boot config).sound.moves hstart
  obtain ⟨log', hmoves, -⟩ := moves_foldl_after more hs
  have hsteps := hmoves.steps hs
  unfold serve at hsteps ⊢
  rwa [List.foldl_append]

end Workspace

end TypeFlow
