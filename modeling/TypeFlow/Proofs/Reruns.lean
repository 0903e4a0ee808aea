import TypeFlow.Proofs.Hierarchy
import TypeFlow.Proofs.Upholding

/-!
# Runs that find the same again

Some rules only look names up: constants, globals, instance variables and plain declared types. What
such a run finds, it finds again in every later engine in which the names it consulted are defined
as before; it then asks for the same once more and names nothing new.
-/

set_option autoImplicit false

namespace TypeFlow

namespace World

variable {w w' : World}

def constAt? (w : World) (key : ConstKey) : Option VertexId :=
  ((w.const? key).filter ConstEntity.exists?).map ConstEntity.vertex

/-- The vertex of an instance variable, if it is defined. -/
def ivarAt? (w : World) (key : MemberKey) : Option VertexId :=
  ((w.ivar? key).filter IvarEntity.exists?).map IvarEntity.vertex

theorem standing_congr {γ : Type} (defs : γ → List DefOrigin) (vertex : γ → VertexId)
    (o o' : Option γ) (hdefs : (o'.map defs).getD [] = (o.map defs).getD [])
    (hv : ∀ v, o.map vertex = some v → o'.map vertex = some v) :
    (o'.filter fun c => !(defs c).isEmpty).map vertex =
      (o.filter fun c => !(defs c).isEmpty).map vertex := by
  cases o with
  | none =>
    cases o' with
    | none => rfl
    | some c' =>
      have hnone : defs c' = [] := hdefs
      simp [Option.filter, hnone]
  | some c =>
    obtain ⟨c', rfl, hsame⟩ := Option.map_eq_some_iff.1 (hv (vertex c) rfl)
    have hdefs : defs c' = defs c := hdefs
    by_cases hnone : defs c = [] <;> simp [Option.filter, hdefs, hnone, hsame]

theorem Agrees.constAt? (h : Agrees w w') (key : ConstKey) : w'.constAt? key = w.constAt? key :=
  standing_congr (fun c : ConstEntity => c.defs.toList) ConstEntity.vertex (w.const? key)
    (w'.const? key) ((h.akin key.module).origins (.const key))
    ((h.akin key.module).consts key.name)

theorem Agrees.ivarAt? (h : Agrees w w') (key : MemberKey) : w'.ivarAt? key = w.ivarAt? key :=
  standing_congr (fun i : IvarEntity => i.defs.toList) IvarEntity.vertex (w.ivar? key)
    (w'.ivar? key) ((h.akin key.side.module).origins (.ivar key))
    ((h.akin key.side.module).ivars key.side.singleton key.name)

theorem Agrees.closed (h : Agrees w w') (hc : w.Closed) : w'.Closed where
  core := hc.core.trans h.size
  within m := ((hc.within m).of_eq (h.akin m).lineage (h.akin m).includes
    (h.akin m).subclasses).mono fun _ => h.knows

theorem finds_of_path (hsize : w.modules.size ≤ w'.modules.size)
    (hpath : ∀ m, w.Knows m → (w'.get m).path = (w.get m).path) : Finds w w' := by
  intro path m hm
  unfold find? at hm ⊢
  split at hm
  · next h => rw [if_pos h, hm]
  · next h =>
    rw [if_neg h]
    obtain ⟨i, hi, rfl⟩ := Option.map_eq_some_iff.1 hm
    rw [Array.findIdx?_eq_some_iff_getElem] at hi
    obtain ⟨hlt, hfound, hbefore⟩ := hi
    have hget : ∀ j (hj : j < w.modules.size) (hj' : j < w'.modules.size),
        (w'.modules[j]).path = (w.modules[j]).path := fun j hj hj' => by
      have hsame := hpath ⟨j⟩ hj
      unfold get at hsame
      rwa [Array.getElem?_eq_getElem hj, Array.getElem?_eq_getElem hj'] at hsame
    refine Option.map_eq_some_iff.2 ⟨i, ?_, rfl⟩
    rw [Array.findIdx?_eq_some_iff_getElem]
    refine ⟨hlt.trans_le hsize, ?_, fun j hj => ?_⟩
    · rw [hget i hlt]
      exact hfound
    · rw [hget j (hj.trans hlt)]
      exact hbefore j hj

end World

namespace Engine

structure Remembers (e e' : Engine) : Prop where
  size : e.world.modules.size ≤ e'.world.modules.size
  finds : e.world.Finds e'.world
  consts : ∀ m name v, (e.world.get m).constVertex? name = some v →
    (e'.world.get m).constVertex? name = some v
  ivars : ∀ m b name v, (e.world.get m).ivarVertex? b name = some v →
    (e'.world.get m).ivarVertex? b name = some v
  globals : ∀ name v, e.globals.get? name = some v → e'.globals.get? name = some v
  shared : ∀ types v, e.graph.shared.get? types = some v → e'.graph.shared.get? types = some v

variable {e e' e'' : Engine}

theorem Remembers.trans (h : e.Remembers e') (h' : e'.Remembers e'') : e.Remembers e'' :=
  ⟨h.size.trans h'.size, fun path m hm => h'.finds path m (h.finds path m hm),
    fun m name v hv => h'.consts m name v (h.consts m name v hv),
    fun m b name v hv => h'.ivars m b name v (h.ivars m b name v hv),
    fun name v hv => h'.globals name v (h.globals name v hv),
    fun types v hv => h'.shared types v (h.shared types v hv)⟩

theorem Upholds.remembers (h : e.Upholds e') : e.Remembers e' :=
  ⟨h.world.size, World.finds_of_path h.world.size h.world.path,
    fun m => (h.world.akin m).consts, fun m => (h.world.akin m).ivars, h.globals, h.shared⟩

structure Confirms (rule : Rule) (p : Pending) (e e' : Engine) : Prop extends Remembers e e' where
  closed : e'.world.Closed
  constsAt : ∀ key ∈ p.constReads.toList, e'.world.constAt? key = e.world.constAt? key
  lineage : ∀ m ∈ p.superclassReads.toList, (e'.world.get m).lineage = (e.world.get m).lineage
  ivarsAt : ∀ r, rule = .ivarRead r → ∀ m ∈ p.superclassReads.toList,
    e'.world.ivarAt? ⟨⟨m, false⟩, r.key.name⟩ = e.world.ivarAt? ⟨⟨m, false⟩, r.key.name⟩

theorem Upholds.confirms (h : e.Upholds e') (hc : e'.world.Closed) (rule : Rule) (p : Pending) :
    Confirms rule p e e' :=
  ⟨h.remembers, hc, fun key _ => h.world.constAt? key, fun m _ => (h.world.akin m).lineage,
    fun _ _ _ _ => h.world.ivarAt? _⟩

end Engine

structure Pending.Within (p p' : Pending) : Prop where
  consts : ∀ key ∈ p.constReads.toList, key ∈ p'.constReads.toList
  superclasses : ∀ m ∈ p.superclassReads.toList, m ∈ p'.superclassReads.toList
  rest : p' = { p with
    edges := p'.edges
    constReads := p'.constReads
    superclassReads := p'.superclassReads }

theorem Pending.Within.refl (p : Pending) : p.Within p := ⟨fun _ => id, fun _ => id, rfl⟩

theorem Pending.Within.trans {p p' p'' : Pending} (h : p.Within p') (h' : p'.Within p'') :
    p.Within p'' :=
  ⟨fun key hk => h'.consts key (h.consts key hk), fun m hm => h'.superclasses m (h.superclasses m
    hm),
    h'.rest.trans (by rw [h.rest])⟩

theorem Engine.Confirms.before {rule : Rule} {p p' : Pending} {e e1 e' : Engine}
    (h : Confirms rule p' e1 e') (hup : e.Upholds e1) (hp : p.Within p') :
    Confirms rule p e e' where
  toRemembers := hup.remembers.trans h.toRemembers
  closed := h.closed
  constsAt key hk := (h.constsAt key (hp.consts key hk)).trans (hup.world.constAt? key)
  lineage m hm := (h.lineage m (hp.superclasses m hm)).trans (hup.world.akin m).lineage
  ivarsAt r hr m hm := (h.ivarsAt r hr m (hp.superclasses m hm)).trans (hup.world.ivarAt? _)

def Echoes {α : Type} (rule : Rule) (m : Staging α) (r : Run) : Prop :=
  ∀ a r', m r = some (a, r') → r.engine.Upholds r'.engine ∧
    r.effects.pending.Within r'.effects.pending ∧
    ∀ e' installed, Engine.Confirms rule r'.effects.pending r'.engine e' →
      m ⟨e', ⟨installed, r.effects.pending⟩⟩ = some (a, ⟨e', ⟨installed, r'.effects.pending⟩⟩)

namespace Echoes

variable {α β : Type} {rule : Rule} {r : Run}

theorem pure (a : α) : Echoes rule (pure a) r := by
  intro b r' he
  obtain ⟨rfl, rfl⟩ : a = b ∧ r = r' := by
    simpa [Pure.pure, StateT.pure] using he
  exact ⟨.refl _, .refl _, fun _ _ _ => rfl⟩

theorem bind {m : Staging α} {f : α → Staging β} (hm : Echoes rule m r)
    (hf : ∀ a r', m r = some (a, r') → r.engine.Upholds r'.engine → Echoes rule (f a) r') :
    Echoes rule (m >>= f) r := by
  intro b r'' he
  change (m r).bind (fun x => f x.1 x.2) = some (b, r'') at he
  obtain ⟨⟨a, r'⟩, hfirst, hrest⟩ := Option.bind_eq_some_iff.1 he
  obtain ⟨hup, hwithin, hagain⟩ := hm a r' hfirst
  obtain ⟨hup', hwithin', hagain'⟩ := hf a r' hfirst hup b r'' hrest
  refine ⟨hup.trans hup', hwithin.trans hwithin', fun e' installed hc => ?_⟩
  show (m _).bind (fun x => f x.1 x.2) = _
  rw [hagain e' installed (hc.before hup' hwithin'), Option.bind_some]
  exact hagain' e' installed hc

theorem onEngine {f : Engine → α × Engine} (hup : r.engine.Upholds (f r.engine).2)
    (hagain : ∀ e', Engine.Confirms rule r.effects.pending (f r.engine).2 e' →
      f e' = ((f r.engine).1, e')) : Echoes rule (Staging.onEngine f) r := by
  intro a r' he
  obtain ⟨rfl, rfl⟩ : (f r.engine).1 = a ∧ { r with engine := (f r.engine).2 } = r' := by
    simpa [Staging.onEngine, modifyGet, MonadStateOf.modifyGet, StateT.modifyGet, Pure.pure]
      using he
  refine ⟨hup, .refl _, fun e' installed hc => ?_⟩
  simp [Staging.onEngine, modifyGet, MonadStateOf.modifyGet, StateT.modifyGet, Pure.pure,
    hagain e' hc]

theorem onEffects {f : Pending → Pending} (hf : r.effects.pending.Within (f r.effects.pending)) :
    Echoes rule (Staging.onEffects (·.mapPending f)) r := by
  intro a r' he
  obtain rfl : { r with effects := r.effects.mapPending f } = r' := by
    simpa [Staging.onEffects, modify, modifyGet, MonadStateOf.modifyGet, StateT.modifyGet,
      Pure.pure] using he
  exact ⟨.refl _, hf, fun e' installed _ => rfl⟩

theorem addEdge (src dst : VertexId) : Echoes rule (Staging.addEdge src dst) r :=
  onEffects ⟨fun _ => id, fun _ => id, rfl⟩

theorem source (types : List Ty) : Echoes rule (Staging.source types) r := by
  refine onEngine (Engine.Upholds.source _ types) fun e' hc => ?_
  have hfound := hc.shared types _ (Graph.get?_shared_source r.engine.graph types)
  unfold Engine.source Graph.source at hfound ⊢
  rw [hfound]

theorem emptyVertex : Echoes rule Staging.emptyVertex r := source []

theorem resolvePath (path : ConstPath) : Echoes rule (Staging.resolvePath path) r := by
  refine onEngine (Engine.Upholds.setWorld (World.Stays.resolve _ path).agrees) fun e' hc => ?_
  have hfound : e'.world.find? path = some (r.engine.world.resolve path).1 :=
    hc.finds path _ (World.find?_resolve_self r.engine.world path)
  unfold Engine.resolvePath
  rw [World.resolve_of_find? hfound]

theorem globalVertex (name : String) :
    Echoes rule (Staging.onEngine (·.globalVertex name)) r := by
  refine onEngine (Engine.Upholds.globalVertex _ name) fun e' hc => ?_
  have hnamed : (r.engine.globalVertex name).2.globals.get? name =
      some (r.engine.globalVertex name).1 := by
    unfold Engine.globalVertex
    cases hg : r.engine.globals.get? name with
    | some v => exact hg
    | none => exact (OrderedMap.get?_insert ..).trans (if_pos rfl)
  have hfound := hc.globals name _ hnamed
  rw [Engine.globalVertex, hfound]

end Echoes

namespace World

variable {w : World}

theorem closed_places (hc : w.Closed) (m : ModuleId) :
    ∀ x ∈ w.places m, ∀ y, (w.get x).superclass = some y → y ∈ w.places m :=
  fun x _ y hy => (mem_places y).2 (.inr ((hc.within x).superclass y hy))

theorem card_places_le (w : World) (m : ModuleId) : (w.places m).card ≤ w.modules.size + 1 := by
  have hinsert := Finset.card_insert_le m ((Finset.range w.modules.size).image ModuleId.mk)
  have himage := Finset.card_image_le (s := Finset.range w.modules.size) (f := ModuleId.mk)
  rw [Finset.card_range] at himage
  unfold places
  omega

theorem trailFrom_parent? (n : Nat) (seen : List ModuleId) (m : ModuleId) :
    trailFrom w.parent? n (seen.map fun m => ⟨m, false⟩) ⟨m, false⟩ =
      (trailFrom (fun m => (w.get m).superclass) n seen m).map fun m => ⟨m, false⟩ := by
  induction n generalizing seen m with
  | zero => rfl
  | succ n ih =>
    have hseen : (⟨m, false⟩ : Side) ∈ seen.map (fun m => (⟨m, false⟩ : Side)) ↔ m ∈ seen := by simp
    have hparent : w.parent? ⟨m, false⟩ = (w.get m).superclass.map fun p => ⟨p, false⟩ := rfl
    simp only [trailFrom, hseen]
    split
    · rfl
    · rw [hparent]
      cases (w.get m).superclass with
      | none => rfl
      | some p => exact congrArg (⟨m, false⟩ :: ·) (ih (m :: seen) p)

theorem chain_instances (hc : w.Closed) (m : ModuleId) :
    w.chain ⟨m, false⟩ = (w.superclasses m).map fun m => ⟨m, false⟩ := by
  have hcard := w.card_places_le m
  have hm : m ∈ w.places m := (mem_places m).2 (.inl rfl)
  unfold chain trail superclasses
  rw [show ([] : List Side) = ([] : List ModuleId).map fun m => ⟨m, false⟩ from rfl,
    trailFrom_parent?]
  refine congrArg (List.map _) (trailFrom_congr (closed_places hc m) (closed_places hc m) _ _ [] hm
    hm ?_ ?_ fun _ _ => rfl)
  · simpa using hcard
  · simp
    omega

theorem modules_chain (hc : w.Closed) (m : ModuleId) :
    (w.chain ⟨m, false⟩).map Side.module = w.superclasses m := by
  rw [chain_instances hc, List.map_map]
  exact List.map_id _

theorem superclasses_congr {w' : World} (hc : w.Closed) (hc' : w'.Closed) {m : ModuleId}
    (h : ∀ x ∈ w.superclasses m, (w'.get x).superclass = (w.get x).superclass) :
    w'.superclasses m = w.superclasses m :=
  trailFrom_congr (closed_places hc m) (closed_places hc' m) _ _ [] ((mem_places m).2 (.inl rfl))
    ((mem_places m).2 (.inl rfl)) (by simpa using w.card_places_le m)
    (by simpa using w'.card_places_le m) h

theorem Agrees.superclasses {w' : World} (h : Agrees w w') (hc : w.Closed) (m : ModuleId) :
    w'.superclasses m = w.superclasses m :=
  superclasses_congr hc (h.closed hc) fun x _ => congrArg Lineage.superclass (h.akin x).lineage

end World

section ConstantReads

variable {rule : Rule}

theorem Engine.constVertex?_ensureConst (e : Engine) {key : ConstKey}
    (h : e.world.Knows key.module) :
    ((e.ensureConst key).2.world.get key.module).constVertex? key.name =
      some (e.ensureConst key).1.vertex := by
  unfold Engine.ensureConst
  cases hc : e.world.const? key with
  | some c =>
    unfold World.const? at hc
    simp [Module.constVertex?, hc]
  | none =>
    show Module.constVertex? ((e.world.modify key.module _).get key.module) key.name = some _
    rw [World.get_modify, if_pos ⟨rfl, h⟩]
    exact congrArg (Option.map ConstEntity.vertex) ((OrderedMap.get?_insert ..).trans (if_pos rfl))

theorem Engine.Remembers.ensureConst {e e' : Engine} {key : ConstKey}
    (h : (e.ensureConst key).2.Remembers e') (hk : e.world.Knows key.module) :
    (e'.ensureConst key).2 = e' := by
  obtain ⟨entity, hentity, -⟩ := Option.map_eq_some_iff.1
    (h.consts key.module key.name _ (e.constVertex?_ensureConst hk))
  unfold Engine.ensureConst
  rw [show e'.world.const? key = some entity from hentity]

namespace ConstRead

variable (c : ConstRead) {r : Run}

/-- The modules in which the constant is looked for: the enclosing scopes, innermost first, and the
superclasses of the innermost; for a qualified name only those of its scope. -/
def places (w : World) : List ModuleId :=
  match c.scope with
  | some m => w.superclasses m
  | none => c.scopes ++ (c.scopes.head?.map w.superclasses).getD []

def target? (w : World) : Option VertexId :=
  (c.places w).findSome? fun m => w.constAt? ⟨m, c.name⟩

theorem lookIn_eq (m : ModuleId) (r : Run) : c.lookIn m r =
    some (r.engine.world.constAt? ⟨m, c.name⟩,
      ⟨(r.engine.ensureConst ⟨m, c.name⟩).2, r.effects.readConst ⟨m, c.name⟩⟩) := by
  have hanswer : (if (r.engine.ensureConst ⟨m, c.name⟩).1.exists? then
      some (r.engine.ensureConst ⟨m, c.name⟩).1.vertex else none) =
      r.engine.world.constAt? ⟨m, c.name⟩ := by
    unfold Engine.ensureConst World.constAt?
    cases r.engine.world.const? ⟨m, c.name⟩ with
    | some x => cases hx : x.exists? <;> simp [Option.filter, hx]
    | none => rfl
  rw [← hanswer]
  rfl

theorem echoes_lookIn {m : ModuleId} (hm : r.engine.world.Knows m) :
    Echoes rule (c.lookIn m) r := by
  intro x r' he
  rw [lookIn_eq] at he
  cases he
  refine ⟨.ensureConst _ _, ⟨fun _ hk => OrderedSet.mem_insert.2 (.inl hk), fun _ => id, rfl⟩,
    fun e' installed hc => ?_⟩
  have hanswer : e'.world.constAt? ⟨m, c.name⟩ = r.engine.world.constAt? ⟨m, c.name⟩ :=
    (hc.constsAt ⟨m, c.name⟩ (OrderedSet.mem_insert.2 (.inr rfl))).trans
      ((Engine.Upholds.ensureConst r.engine _).world.constAt? _)
  rw [lookIn_eq, hc.toRemembers.ensureConst hm, hanswer]
  rfl

theorem echoes_lookInScopes {ms : List ModuleId} (hms : ∀ m ∈ ms, r.engine.world.Knows m) :
    Echoes rule (c.lookInScopes ms) r := by
  induction ms generalizing r with
  | nil => exact .pure none
  | cons m ms ih =>
    refine .bind (c.echoes_lookIn (hms m List.mem_cons_self)) fun x r' _ hup => ?_
    cases x with
    | some v => exact .pure (some v)
    | none => exact ih fun u hu => hup.world.knows (hms u (List.mem_cons_of_mem _ hu))

def consult (m : ModuleId) (r : Run) : Run :=
  ⟨(r.engine.ensureConst ⟨m, c.name⟩).2, (r.effects.readSuperclass m).readConst ⟨m, c.name⟩⟩

theorem lookInAncestors_cons (m : ModuleId) (ms : List ModuleId) (r : Run) :
    c.lookInAncestors (m :: ms) r =
      match r.engine.world.constAt? ⟨m, c.name⟩ with
      | some v => some (some v, c.consult m r)
      | none => c.lookInAncestors ms (c.consult m r) := by
  rw [lookInAncestors]
  show (c.lookIn m ⟨r.engine, r.effects.readSuperclass m⟩).bind (fun x => (match x.1 with
    | some v => pure (some v)
    | none => c.lookInAncestors ms : Staging (Option VertexId)) x.2) = _
  rw [lookIn_eq, Option.bind_some]
  cases r.engine.world.constAt? ⟨m, c.name⟩ <;> rfl

theorem within_consult (m : ModuleId) (r : Run) :
    r.effects.pending.Within (c.consult m r).effects.pending :=
  ⟨fun _ hk => OrderedSet.mem_insert.2 (.inl hk), fun _ hu => OrderedSet.mem_insert.2 (.inl hu),
    rfl⟩

theorem upholds_consult (m : ModuleId) (r : Run) : r.engine.Upholds (c.consult m r).engine :=
  .ensureConst _ _

theorem consult_again {m : ModuleId} (hm : r.engine.world.Knows m) {e' : Engine}
    (hc : Engine.Confirms rule (c.consult m r).effects.pending (c.consult m r).engine e')
    (installed : Installed) :
    e'.world.constAt? ⟨m, c.name⟩ = r.engine.world.constAt? ⟨m, c.name⟩ ∧
      (e'.world.get m).superclass = (r.engine.world.get m).superclass ∧
      c.consult m ⟨e', ⟨installed, r.effects.pending⟩⟩ =
        ⟨e', ⟨installed, (c.consult m r).effects.pending⟩⟩ := by
  have hup := (c.upholds_consult m r).world
  refine ⟨?_, congrArg Lineage.superclass ?_, ?_⟩
  · exact (hc.constsAt ⟨m, c.name⟩ (OrderedSet.mem_insert.2 (.inr rfl))).trans (hup.constAt? _)
  · exact (hc.lineage m (OrderedSet.mem_insert.2 (.inr rfl))).trans (hup.akin m).lineage
  · unfold consult
    rw [hc.toRemembers.ensureConst hm]
    rfl

def Retraces (rule : Rule) (seen : List ModuleId) (a : ModuleId) (x : Option VertexId)
    (r r' : Run) : Prop :=
  r.engine.Upholds r'.engine ∧ r.effects.pending.Within r'.effects.pending ∧
    ∀ e' installed, Engine.Confirms rule r'.effects.pending r'.engine e' →
      ∀ (n : Nat) (S : Finset ModuleId),
        (∀ x ∈ S, ∀ y, (e'.world.get x).superclass = some y → y ∈ S) → a ∈ S →
        (S \ seen.toFinset).card ≤ n →
        c.lookInAncestors (trailFrom (fun m => (e'.world.get m).superclass) n seen a)
          ⟨e', ⟨installed, r.effects.pending⟩⟩ = some (x, ⟨e', ⟨installed, r'.effects.pending⟩⟩)

variable {w : World} {n : Nat} {seen : List ModuleId} {a : ModuleId} {x : Option VertexId}
    {r' : Run}

theorem retraces_seen (hseen : a ∈ seen)
    (hrun : c.lookInAncestors (trailFrom (fun m => (w.get m).superclass) n seen a) r =
      some (x, r')) : c.Retraces rule seen a x r r' := by
  have hnil : ∀ (w : World) (n : Nat),
      trailFrom (fun m => (w.get m).superclass) n seen a = [] := fun w n => by
    cases n <;> simp [trailFrom, hseen]
  rw [hnil] at hrun
  cases hrun
  refine ⟨.refl _, .refl _, fun e' installed _ n S _ _ _ => ?_⟩
  rw [hnil]
  rfl

theorem retraces_step (hseen : a ∉ seen) (hknown : r.engine.world.Knows a)
    (hup : (c.consult a r).engine.Upholds r'.engine)
    (hwithin : (c.consult a r).effects.pending.Within r'.effects.pending)
    (hrest : ∀ e' installed, Engine.Confirms rule r'.effects.pending r'.engine e' →
      (e'.world.get a).superclass = (r.engine.world.get a).superclass → ∀ (n : Nat)
        (S : Finset ModuleId), (∀ x ∈ S, ∀ y, (e'.world.get x).superclass = some y → y ∈ S) →
        a ∈ S → (S \ (a :: seen).toFinset).card ≤ n →
        (match r.engine.world.constAt? ⟨a, c.name⟩ with
        | some v => some (some v, ⟨e', ⟨installed, (c.consult a r).effects.pending⟩⟩)
        | none => c.lookInAncestors (match (e'.world.get a).superclass with
          | none => []
          | some b => trailFrom (fun m => (e'.world.get m).superclass) n (a :: seen) b)
            ⟨e', ⟨installed, (c.consult a r).effects.pending⟩⟩) =
          some (x, ⟨e', ⟨installed, r'.effects.pending⟩⟩)) : c.Retraces rule seen a x r r' := by
  refine ⟨(c.upholds_consult a r).trans hup, (c.within_consult a r).trans hwithin,
    fun e' installed hc n S hS ha hn => ?_⟩
  obtain ⟨hanswer, hparent, hconsult⟩ :=
    c.consult_again hknown (hc.before hup hwithin) installed
  obtain ⟨k, rfl⟩ : ∃ k, n = k + 1 :=
    Nat.exists_eq_succ_of_ne_zero ((mem_seen_of_steps ha hn).resolve_right hseen)
  have hcard : (S \ insert a seen.toFinset).card + 1 = (S \ seen.toFinset).card :=
    card_sdiff_insert ha (by simpa using hseen)
  have hagain := hrest e' installed hc hparent k S hS ha (by rw [List.toFinset_cons]; omega)
  rw [trailFrom, if_neg hseen, lookInAncestors_cons, hconsult]
  dsimp only
  rw [hanswer]
  cases hv : r.engine.world.constAt? ⟨a, c.name⟩ with
  | some v =>
    rw [hv] at hagain
    exact hagain
  | none =>
    rw [hv] at hagain
    cases hb : (e'.world.get a).superclass <;> rw [hb] at hagain <;> exact hagain

/-- The induction is on the steps of the trail. Each module that is consulted leads to the same one
again, so the trails agree as far as the look-up goes. -/
theorem retraces_trail {S : Finset ModuleId}
    (hS : ∀ x ∈ S, ∀ y, (w.get x).superclass = some y → y ∈ S)
    (hknown : ∀ x ∈ S, r.engine.world.Knows x)
    (hlineage : ∀ m, (r.engine.world.get m).lineage = (w.get m).lineage)
    (ha : a ∈ S) (hn : (S \ seen.toFinset).card ≤ n)
    (hrun : c.lookInAncestors (trailFrom (fun m => (w.get m).superclass) n seen a) r =
      some (x, r')) : c.Retraces rule seen a x r r' := by
  induction n generalizing r seen a with
  | zero => exact c.retraces_seen ((mem_seen_of_steps ha hn).resolve_left (by simp)) hrun
  | succ n ih =>
    by_cases hseen : a ∈ seen
    · exact c.retraces_seen hseen hrun
    rw [trailFrom, if_neg hseen, lookInAncestors_cons] at hrun
    have hparent : (r.engine.world.get a).superclass = (w.get a).superclass :=
      congrArg Lineage.superclass (hlineage a)
    cases hanswer : r.engine.world.constAt? ⟨a, c.name⟩ with
    | some v =>
      rw [hanswer] at hrun
      cases hrun
      refine c.retraces_step hseen (hknown a ha) (.refl _) (.refl _)
        fun e' installed _ _ n S _ _ _ => ?_
      rw [hanswer]
    | none =>
      rw [hanswer] at hrun
      cases hb : (w.get a).superclass with
      | none =>
        rw [hb] at hrun
        cases hrun
        refine c.retraces_step hseen (hknown a ha) (.refl _) (.refl _)
          fun e' installed _ hsame n S _ _ _ => ?_
        rw [hanswer, hsame, hparent, hb]
        rfl
      | some b =>
        rw [hb] at hrun
        have hconsult := (c.upholds_consult a r).world
        have hcard : (S \ insert a seen.toFinset).card + 1 = (S \ seen.toFinset).card :=
          card_sdiff_insert ha (by simpa using hseen)
        obtain ⟨hup, hwithin, hagain⟩ := ih (fun y hy => hconsult.knows (hknown y hy))
          (fun m => (hconsult.akin m).lineage.trans (hlineage m)) (hS a ha b hb)
          (by rw [List.toFinset_cons]; omega) hrun
        refine c.retraces_step hseen (hknown a ha) hup hwithin
          fun e' installed hc hsame n S hclosed ha' hn' => ?_
        rw [hanswer, hsame, hparent, hb]
        exact hagain e' installed hc n S hclosed
          (hclosed a ha' b (hsame.trans (hparent.trans hb))) hn'

theorem ancestors_bind {β : Type} (m : ModuleId) (f : List ModuleId → Staging β) (r : Run)
    (hc : r.engine.world.Closed) :
    (ancestors m >>= f) r = f (r.engine.world.superclasses m) r :=
  congrArg (f · r) (World.modules_chain hc m)

theorem echoes_lookInAncestors {m : ModuleId} (hc : r.engine.world.Closed)
    (hm : r.engine.world.Knows m) : Echoes rule (ancestors m >>= c.lookInAncestors) r := by
  intro x r' he
  rw [ancestors_bind _ _ _ hc] at he
  obtain ⟨hup, hwithin, hagain⟩ : c.Retraces rule [] m x r r' :=
    c.retraces_trail (S := r.engine.world.places m) (World.closed_places hc m)
    (fun u hu => ((World.mem_places u).1 hu).elim (fun h => h ▸ hm) id) (fun _ => rfl)
    ((World.mem_places m).2 (.inl rfl)) (by simpa using World.card_places_le _ m) he
  refine ⟨hup, hwithin, fun e' installed hconfirms => ?_⟩
  rw [ancestors_bind _ _ _ hconfirms.closed]
  exact hagain e' installed hconfirms _ (e'.world.places m)
    (World.closed_places hconfirms.closed m) ((World.mem_places m).2 (.inl rfl))
    (by simpa using World.card_places_le _ m)

theorem echoes_resolve (hc : r.engine.world.Closed)
    (hknown : (∀ m ∈ c.scope, r.engine.world.Knows m) ∧ ∀ m ∈ c.scopes, r.engine.world.Knows m) :
    Echoes rule c.resolve r := by
  unfold resolve
  cases hs : c.scope with
  | some m => exact c.echoes_lookInAncestors hc (hknown.1 m (by simp [hs]))
  | none =>
    refine .bind (c.echoes_lookInScopes hknown.2) fun x r' hrun hup => ?_
    cases x with
    | some v => exact .pure (some v)
    | none =>
      cases hms : c.scopes with
      | nil => exact .pure none
      | cons m ms =>
        have hm := hknown.2 m (by simp [hms])
        exact c.echoes_lookInAncestors (hup.world.closed hc) (hup.world.knows hm)

theorem echoes_run (hc : r.engine.world.Closed)
    (hknown : (∀ m ∈ c.scope, r.engine.world.Knows m) ∧ ∀ m ∈ c.scopes, r.engine.world.Knows m) :
    Echoes rule c.run r := by
  refine .bind (c.echoes_resolve hc hknown) fun x r' _ _ => ?_
  cases x with
  | some v => exact .addEdge v c.ret
  | none => exact .pure ()

def Searches (ms : List ModuleId) (m : Staging (Option VertexId)) (r : Run) : Prop :=
  ∀ x r', m r = some (x, r') → x = ms.findSome? (fun u => r.engine.world.constAt? ⟨u, c.name⟩) ∧
    r.engine.Upholds r'.engine ∧ r'.effects.pending.edges = r.effects.pending.edges

theorem searches_lookInScopes (ms : List ModuleId) (r : Run) :
    c.Searches ms (c.lookInScopes ms) r := by
  induction ms generalizing r with
  | nil =>
    intro x r' he
    cases he
    exact ⟨rfl, .refl _, rfl⟩
  | cons m ms ih =>
    intro x r' he
    have hup := Engine.Upholds.ensureConst r.engine ⟨m, c.name⟩
    change (c.lookIn m r).bind (fun x => (match x.1 with
      | some v => pure (some v)
      | none => c.lookInScopes ms : Staging (Option VertexId)) x.2) = _ at he
    rw [lookIn_eq, Option.bind_some] at he
    rw [List.findSome?_cons]
    cases hm : r.engine.world.constAt? ⟨m, c.name⟩ with
    | some v =>
      rw [hm] at he
      cases he
      exact ⟨rfl, hup, rfl⟩
    | none =>
      rw [hm] at he
      obtain ⟨hx, hrest, hedges⟩ := ih _ x r' he
      simp only [hup.world.constAt?] at hx
      exact ⟨hx, hup.trans hrest, hedges⟩

theorem searches_lookInAncestors (ms : List ModuleId) (r : Run) :
    c.Searches ms (c.lookInAncestors ms) r := by
  induction ms generalizing r with
  | nil =>
    intro x r' he
    cases he
    exact ⟨rfl, .refl _, rfl⟩
  | cons m ms ih =>
    intro x r' he
    have hup := c.upholds_consult m r
    rw [lookInAncestors_cons] at he
    rw [List.findSome?_cons]
    cases hm : r.engine.world.constAt? ⟨m, c.name⟩ with
    | some v =>
      rw [hm] at he
      cases he
      exact ⟨rfl, hup, rfl⟩
    | none =>
      rw [hm] at he
      obtain ⟨hx, hrest, hedges⟩ := ih _ x r' he
      simp only [hup.world.constAt?] at hx
      exact ⟨hx, hup.trans hrest, hedges⟩

theorem searches_resolve (hc : r.engine.world.Closed) :
    c.Searches (c.places r.engine.world) c.resolve r := by
  intro x r' he
  unfold resolve at he
  unfold places
  cases hs : c.scope with
  | some m =>
    rw [hs] at he
    change (ancestors m >>= c.lookInAncestors) r = _ at he
    rw [ancestors_bind _ _ _ hc] at he
    exact c.searches_lookInAncestors _ r x r' he
  | none =>
    rw [hs] at he
    change (c.lookInScopes c.scopes r).bind _ = _ at he
    obtain ⟨⟨y, r1⟩, hfirst, hrest⟩ := Option.bind_eq_some_iff.1 he
    obtain ⟨hy, hup, hedges⟩ := c.searches_lookInScopes _ r y r1 hfirst
    rw [List.findSome?_append, ← hy]
    cases y with
    | some v =>
      cases hrest
      exact ⟨rfl, hup, hedges⟩
    | none =>
      cases hms : c.scopes with
      | nil =>
        rw [hms] at hrest
        cases hrest
        exact ⟨rfl, hup, hedges⟩
      | cons m ms =>
        rw [hms] at hrest
        change (ancestors m >>= c.lookInAncestors) r1 = _ at hrest
        rw [ancestors_bind _ _ _ (hup.world.closed hc), hup.world.superclasses hc] at hrest
        obtain ⟨hx, hup', hedges'⟩ := c.searches_lookInAncestors _ r1 x r' hrest
        simp only [hup.world.constAt?] at hx
        exact ⟨hx, hup.trans hup', hedges'.trans hedges⟩

theorem edges_run (hc : r.engine.world.Closed) {r' : Run} (he : c.run r = some ((), r')) :
    r'.effects.pending.edges = (c.target? r.engine.world).elim r.effects.pending.edges
      fun v => r.effects.pending.edges.insert (v, c.ret) := by
  change (c.resolve r).bind (fun x => (match x.1 with
    | some v => Staging.addEdge v c.ret
    | none => pure () : Staging Unit) x.2) = _ at he
  obtain ⟨⟨x, r1⟩, hfirst, hrest⟩ := Option.bind_eq_some_iff.1 he
  obtain ⟨hx, -, hedges⟩ := c.searches_resolve hc x r1 hfirst
  rw [target?, ← hx, ← hedges]
  cases x <;> cases hrest <;> rfl

end ConstRead

end ConstantReads

section OtherReads

variable {rule : Rule} {r : Run}

theorem Engine.ivarVertex?_ensureIvar (e : Engine) {key : MemberKey}
    (h : e.world.Knows key.side.module) :
    ((e.ensureIvar key).2.world.get key.side.module).ivarVertex? key.side.singleton key.name =
      some (e.ensureIvar key).1.vertex := by
  unfold Engine.ensureIvar
  cases hi : e.world.ivar? key with
  | some i =>
    unfold World.ivar? at hi
    simp [Module.ivarVertex?, hi]
  | none =>
    show Module.ivarVertex? ((e.world.modify key.side.module _).get key.side.module) _ _ = some _
    rw [World.get_modify, if_pos ⟨rfl, h⟩]
    unfold Module.ivarVertex?
    rw [Sided.get_modify, if_pos rfl]
    exact congrArg (Option.map IvarEntity.vertex) ((OrderedMap.get?_insert ..).trans (if_pos rfl))

theorem Engine.Remembers.ensureIvar {e e' : Engine} {key : MemberKey}
    (h : (e.ensureIvar key).2.Remembers e') (hk : e.world.Knows key.side.module) :
    (e'.ensureIvar key).2 = e' ∧ (e'.ensureIvar key).1.vertex = (e.ensureIvar key).1.vertex := by
  obtain ⟨entity, hentity, hv⟩ := Option.map_eq_some_iff.1
    (h.ivars key.side.module _ key.name _ (e.ivarVertex?_ensureIvar hk))
  rw [show e'.ensureIvar key = (entity, e') by
    unfold Engine.ensureIvar
    rw [show e'.world.ivar? key = some entity from hentity]]
  exact ⟨rfl, hv⟩

namespace IvarRead

def ask (i : IvarRead) (ms : List ModuleId) (own : VertexId) (target : Option VertexId)
    (p : Pending) : Pending := { p with
  superclassReads := ms.foldl OrderedSet.insert p.superclassReads
  edges := match target with
    | none => p.edges
    | some v => (if v ≠ own then (p.edges.insert (own, i.proxy)).insert (i.proxy, v)
      else p.edges).insert (v, i.ret) }

theorem within_ask (i : IvarRead) (ms : List ModuleId) (own : VertexId) (target : Option VertexId)
    (p : Pending) : p.Within (i.ask ms own target p) :=
  ⟨fun _ => id, fun _ hm => OrderedSet.mem_foldl_insert.2 (.inl hm), rfl⟩

theorem forM_readSuperclass (sides : List Side) (r : Run) :
    (sides.forM fun s => Staging.readSuperclass s.module) r =
      some ((), ⟨r.engine, r.effects.mapPending fun p => { p with
        superclassReads := (sides.map Side.module).foldl OrderedSet.insert p.superclassReads }⟩) :=
          by
  induction sides generalizing r with
  | nil => rfl
  | cons s sides ih => exact ih ⟨r.engine, r.effects.readSuperclass s.module⟩

theorem run_eq (i : IvarRead) (r : Run) {own : IvarEntity × Engine}
    (hown : r.engine.ensureIvar i.key = own) :
    i.run r = some ((), ⟨own.2, r.effects.mapPending (i.ask
      ((own.2.world.chain i.key.side).map Side.module) own.1.vertex
      (topmost own.2.world i.key.name (own.2.world.chain i.key.side)))⟩) := by
  have hrun : i.run r =
      (((own.2.world.chain i.key.side).forM fun s => Staging.readSuperclass s.module)
        ⟨own.2, r.effects⟩).bind fun x =>
          (match topmost own.2.world i.key.name (own.2.world.chain i.key.side) with
          | some target => do
            if target ≠ own.1.vertex then
              Staging.addEdge own.1.vertex i.proxy
              Staging.addEdge i.proxy target
            Staging.addEdge target i.ret
          | none => pure () : Staging Unit) x.2 := by
    rw [← hown]
    rfl
  rw [hrun, forM_readSuperclass, Option.bind_some]
  unfold ask
  cases topmost own.2.world i.key.name (own.2.world.chain i.key.side) with
  | none => rfl
  | some target => by_cases h : target = own.1.vertex <;> simp [h] <;> rfl

theorem topmost_eq (w : World) (name : String) (sides : List Side) :
    topmost w name sides = (sides.filterMap fun s => w.ivarAt? ⟨s, name⟩).getLast? := by
  unfold topmost World.ivarAt?
  rw [List.filter_filterMap, ← List.getLast?_map, List.map_filterMap]

theorem topmost_congr {w w' : World} {name : String} {sides : List Side}
    (h : ∀ s ∈ sides, w'.ivarAt? ⟨s, name⟩ = w.ivarAt? ⟨s, name⟩) :
    topmost w' name sides = topmost w name sides := by
  rw [topmost_eq, topmost_eq, List.filterMap_congr h]

theorem echoes_run (i : IvarRead) (hi : i.key.side.singleton = false)
    (hc : r.engine.world.Closed) (hk : r.engine.world.Knows i.key.side.module) :
    Echoes (.ivarRead i) i.run r := by
  intro u r' he
  have hup := Engine.Upholds.ensureIvar r.engine i.key
  have hagain := fun e' (h : Engine.Remembers _ e') => h.ensureIvar hk
  generalize hρ : r.engine.ensureIvar i.key = own at hup hagain
  rw [i.run_eq r hρ] at he
  cases he
  refine ⟨hup, i.within_ask .., fun e' installed hconf => ?_⟩
  obtain ⟨hsame, hown⟩ := hagain e' hconf.toRemembers
  have hc1 := hup.world.closed hc
  obtain ⟨⟨⟨m, b⟩, name⟩, proxy, ret⟩ := i
  obtain rfl : b = false := hi
  have hread : ∀ x ∈ own.2.world.superclasses m, x ∈ (((own.2.world.chain ⟨m, false⟩).map
      Side.module).foldl OrderedSet.insert r.effects.pending.superclassReads).toList :=
    fun x hx => OrderedSet.mem_foldl_insert.2 (.inr (World.modules_chain hc1 m ▸ hx))
  have hchain : e'.world.chain ⟨m, false⟩ = own.2.world.chain ⟨m, false⟩ := by
    rw [World.chain_instances hconf.closed, World.chain_instances hc1,
      World.superclasses_congr hc1 hconf.closed fun x hx =>
        congrArg Lineage.superclass (hconf.lineage x (hread x hx))]
  have htop : topmost e'.world name (own.2.world.chain ⟨m, false⟩) =
      topmost own.2.world name (own.2.world.chain ⟨m, false⟩) := by
    refine topmost_congr fun s hs => ?_
    obtain ⟨x, hx, rfl⟩ := List.mem_map.1 (World.chain_instances hc1 m ▸ hs)
    exact hconf.ivarsAt _ rfl x (hread x hx)
  have hensure : e'.ensureIvar ⟨⟨m, false⟩, name⟩ = ((e'.ensureIvar ⟨⟨m, false⟩, name⟩).1, e') :=
    Prod.ext rfl hsame
  rw [run_eq _ ⟨e', _⟩ hensure]
  simp only [hown, hchain, htop]
  rfl

end IvarRead

def SigType.Plain : SigType → Prop
  | .instanceOf _ args => args = []
  | .union _ | .tuple _ | .optional _ => False
  | _ => True

theorem SigType.echoes_vertex {t : SigType} (h : t.Plain) : Echoes rule (t.vertex {}) r := by
  cases t with
  | instanceOf path args =>
    obtain rfl : args = [] := h
    exact .bind (.resolvePath path) fun m r' _ _ => .source _
  | singletonOf path => exact .bind (.resolvePath path) fun m r' _ _ => .source _
  | var | receiver => exact .emptyVertex
  | nil | bool | untyped => exact .source _
  | union | tuple | optional => exact h.elim

theorem TypeRead.echoes_run (t : TypeRead) (h : t.type.Plain) : Echoes rule t.run r :=
  .bind (SigType.echoes_vertex h) fun v _ _ _ => .addEdge v t.ret

theorem GlobalRead.echoes_run (g : GlobalRead) : Echoes rule g.run r :=
  .bind (.globalVertex g.name) fun v _ _ _ => .addEdge v g.ret

end OtherReads

namespace Rule

def Nominal : Rule → Prop
  | .constRead _ | .globalRead _ | .methodDecl _ => True
  | .typeRead t => t.type.Plain
  | .ivarRead i => i.key.side.singleton = false
  | _ => False

/-- A rule that only looks names up finds the same wherever its answers are confirmed. -/
theorem echoes_run {rule : Rule} (h : rule.Nominal) (node : NodeId) {r : Run}
    (hc : r.engine.world.Closed) (hk : rule.Known r.engine.world) :
    Echoes rule (rule.run node) r := by
  cases rule with
  | constRead c => exact c.echoes_run hc hk
  | typeRead t => exact t.echoes_run h
  | methodDecl => exact .pure ()
  | globalRead g => exact g.echoes_run
  | ivarRead i => exact i.echoes_run h hc hk
  | methodDef | returnCheck | call | multiAssign => exact h.elim

end Rule

end TypeFlow
