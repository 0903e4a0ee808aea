import TypeFlow.Proofs.Interning
import TypeFlow.Proofs.Lasting

/-!
# What a run upholds

Whatever a site asks for when it runs, and whatever is installed for it, names stay with what they
were given to, definitions stay in force, and a site in its slot keeps its rule. Definitions come
and go with the nodes that make them, never in a run.
-/

set_option autoImplicit false

namespace TypeFlow.Engine

namespace Upholds

variable {e e' e'' : Engine}

theorem refl (e : Engine) : e.Upholds e := ⟨.refl _, fun _ _ => id, fun _ _ => id⟩

theorem trans (h : e.Upholds e') (h' : e'.Upholds e'') : e.Upholds e'' :=
  ⟨h.world.trans h'.world, fun name v hv => h'.globals name v (h.globals name v hv),
    fun types v hv => h'.shared types v (h.shared types v hv)⟩

theorem of_eq (hw : e'.world = e.world) (hg : e'.globals = e.globals)
    (hs : e'.graph.shared = e.graph.shared) : e.Upholds e' :=
  ⟨hw ▸ .refl _, fun _ _ hv => hg ▸ hv, fun _ _ hv => hs ▸ hv⟩

theorem setWorld {w : World} (h : World.Agrees e.world w) : e.Upholds { e with world := w } :=
  ⟨h, fun _ _ => id, fun _ _ => id⟩

theorem scheduleAll (e : Engine) (ss : List SiteId) : e.Upholds (e.scheduleAll ss) := by
  obtain ⟨queue, hq⟩ := e.exists_scheduleAll_eq ss
  rw [hq]
  exact of_eq rfl rfl rfl

theorem adoptGraph {c : Graph.Changed} (h : c.graph.shared = e.graph.shared) :
    e.Upholds (e.adoptGraph c) := by
  obtain ⟨queue, hq⟩ := e.exists_adoptGraph_eq c
  rw [hq]
  exact of_eq rfl rfl h

theorem shared_source (g : Graph) (types : List Ty) {types' : List Ty} {v : VertexId}
    (hv : g.shared.get? types' = some v) : (g.source types).2.shared.get? types' = some v := by
  unfold Graph.source
  cases hs : g.shared.get? types with
  | some u => exact hv
  | none =>
    have hne : types ≠ types' := fun h => by
      subst h
      exact absurd (hs.symm.trans hv) (by simp)
    exact (OrderedMap.get?_insert ..).trans ((if_neg hne).trans hv)

theorem source (e : Engine) (types : List Ty) : e.Upholds (e.source types).2 :=
  ⟨.refl _, fun _ _ => id, fun _ _ => shared_source e.graph types⟩

theorem ensureConst (e : Engine) (key : ConstKey) : e.Upholds (e.ensureConst key).2 := by
  unfold Engine.ensureConst
  split
  · exact refl e
  · next h => exact ⟨(World.Stays.nameConst h rfl).agrees, fun _ _ => id, fun _ _ => id⟩

theorem ensureIvar (e : Engine) (key : MemberKey) : e.Upholds (e.ensureIvar key).2 := by
  unfold Engine.ensureIvar
  split
  · exact refl e
  · next h => exact ⟨(World.Stays.nameIvar h rfl).agrees, fun _ _ => id, fun _ _ => id⟩

theorem globalVertex (e : Engine) (name : String) : e.Upholds (e.globalVertex name).2 := by
  unfold Engine.globalVertex
  cases hname : e.globals.get? name with
  | some v => exact refl e
  | none =>
    refine ⟨.refl _, fun name' v hv => ?_, fun _ _ => id⟩
    have hne : name ≠ name' := fun h => by
      subst h
      exact absurd (hname.symm.trans hv) (by simp)
    exact (OrderedMap.get?_insert ..).trans ((if_neg hne).trans hv)

theorem modifyMethod (e : Engine) (key : MemberKey) {f : MethodEntity → MethodEntity}
    (hf : ∀ m, (f m).aliases = m.aliases) : e.Upholds (e.modifyWorld (·.modifyMethod key f)) :=
  setWorld (.modifyMethod _ key hf)

theorem changeDecls (e : Engine) (key : MemberKey) (f : OrderedSet SiteId → OrderedSet SiteId) :
    e.Upholds (e.changeDecls key f) := by
  have hworld : e.Upholds (e.modifyWorld (·.modifyMethod key fun m =>
      { m with decls := f m.decls })) := modifyMethod e key fun _ => rfl
  exact (hworld.trans (scheduleAll _ _)).trans (scheduleAll _ _)

theorem changeDefs (e : Engine) (key : MemberKey) (f : OrderedSet SiteId → OrderedSet SiteId) :
    e.Upholds (e.changeDefs key f) := by
  have hworld : e.Upholds (e.modifyWorld (·.modifyMethod key fun m =>
      { m with defs := f m.defs })) := modifyMethod e key fun _ => rfl
  unfold Engine.changeDefs
  dsimp only
  split
  · exact hworld.trans (scheduleAll _ _)
  · exact hworld

theorem changeIvarReads (e : Engine) (m : ModuleId) (f : OrderedSet SiteId → OrderedSet SiteId) :
    e.Upholds (e.modifyWorld (·.modify m fun x => { x with ivarReads := f x.ivarReads })) :=
  setWorld (.modify rfl
    ⟨rfl, rfl, rfl, rfl, fun r => by cases r <;> rfl, fun _ _ => id, fun _ _ _ => id⟩)

theorem shared_modifyListeners (g : Graph) (vs : List VertexId)
    (f : OrderedSet SiteId → OrderedSet SiteId) :
    (vs.foldl (fun g v => g.modify v fun x => { x with listeners := f x.listeners }) g).shared =
      g.shared := by
  induction vs generalizing g with
  | nil => rfl
  | cons v vs ih => exact ih _

instance : Endures Upholds where
  refl := refl
  trans := trans
  newVertex _ _ _ := of_eq rfl rfl rfl
  newSource _ _ _ := of_eq rfl rfl rfl
  source := source
  resolvePath _ path := setWorld (World.Stays.resolve _ path).agrees
  consult e key := modifyMethod e key fun _ => rfl
  ensureConst := ensureConst
  ensureIvar := ensureIvar
  globalVertex := globalVertex
  addEdge e src dst := adoptGraph (Graph.sameLife_addEdge e.graph src dst).shared
  removeEdge e src dst := adoptGraph (Graph.sameLife_removeEdge e.graph src dst).shared
  destroyVertex e v := adoptGraph (Graph.destroy_life e.graph v).1
  schedule e s := scheduleAll e [s]
  watch _ d f := setWorld (World.Stays.watch _ d f).agrees
  changeDecls := changeDecls
  changeDefs := changeDefs
  changeIvarReads := changeIvarReads
  effects _ _ _ := of_eq rfl rfl rfl
  count _ := of_eq rfl rfl rfl
  enterSite e node rule := of_eq rfl rfl
    (shared_modifyListeners e.graph rule.inputs (·.insert (e.enterSite node rule).1))
  destroy e s x e' _ _ h := by
    have hmark : e.Upholds (e.markDestroyed s x) :=
      of_eq rfl rfl (shared_modifyListeners e.graph x.rule.inputs (·.erase s))
    have hreleased : e'.Upholds { e' with
        sites := e'.sites.release s.index
        stats := e'.stats.destroy x.rule.name } := of_eq rfl rfl rfl
    exact hmark.trans (h.trans hreleased)

end Upholds

def Houses (s : SiteId) (e e' : Engine) : Prop :=
  s.index < e.sites.size → s.index ∉ e.sites.free →
    s.index < e'.sites.size ∧ s.index ∉ e'.sites.free ∧
      (e'.site? s).map (fun x => (x.rule, x.node)) = (e.site? s).map fun x => (x.rule, x.node)

namespace Houses

variable {s : SiteId} {e e' e'' : Engine}

theorem trans (h : Houses s e e') (h' : Houses s e' e'') : Houses s e e'' := fun hs hf => by
  obtain ⟨hs', hf', hx⟩ := h hs hf
  obtain ⟨hs'', hf'', hx'⟩ := h' hs' hf'
  exact ⟨hs'', hf'', hx'.trans hx⟩

theorem of_sites (h : e'.sites = e.sites) : Houses s e e' := fun hs hf => by
  unfold site?
  rw [h]
  exact ⟨hs, hf, rfl⟩

theorem adoptGraph (e : Engine) (c : Graph.Changed) : Houses s e (e.adoptGraph c) := by
  obtain ⟨queue, hq⟩ := e.exists_adoptGraph_eq c
  exact hq ▸ of_sites rfl

theorem scheduleAll (e : Engine) (ss : List SiteId) : Houses s e (e.scheduleAll ss) := by
  obtain ⟨queue, hq⟩ := e.exists_scheduleAll_eq ss
  exact hq ▸ of_sites rfl

theorem modifySite (e : Engine) (t : SiteId) {f : Site → Site}
    (hf : ∀ x, (f x).rule = x.rule ∧ (f x).node = x.node) : Houses s e (e.modifySite t f) := by
  refine fun hs hfree => ⟨(Slots.size_modify ..).symm ▸ hs, hfree, ?_⟩
  rw [site?_modifySite]
  split
  · rw [Option.map_map]
    exact congrArg (Option.map · _) (funext fun x => Prod.ext (hf x).1 (hf x).2)
  · rfl

theorem enterSite (e : Engine) (node : NodeId) (rule : Rule) :
    Houses s e (e.enterSite node rule).2 := by
  intro hs hf
  show s.index < (e.sites.alloc { node, rule }).2.size ∧
    s.index ∉ (e.sites.alloc { node, rule }).2.free ∧
    ((e.sites.alloc { node, rule }).2.get? s.index).map (fun x => (x.rule, x.node)) =
      (e.sites.get? s.index).map fun x => (x.rule, x.node)
  unfold Slots.alloc
  split
  · next i rest hfree =>
    rw [hfree, List.mem_cons, not_or] at hf
    refine ⟨(Slots.size_modify ..).symm ▸ hs, hf.2, ?_⟩
    show ((e.sites.modify i _).get? s.index).map _ = _
    rw [Slots.get?_modify, if_neg (Ne.symm hf.1)]
  · refine ⟨?_, hf, ?_⟩
    · show s.index < (e.sites.slots.push _).size
      rw [Array.size_push]
      exact Nat.lt_succ_of_lt hs
    · show ((e.sites.slots.push _)[s.index]?).map _ = _
      rw [Array.getElem?_push, if_neg (by exact Nat.ne_of_lt hs)]
      rfl

instance : Endures (Houses s) where
  refl _ := of_sites rfl
  trans := trans
  newVertex _ _ _ := of_sites rfl
  newSource _ _ _ := of_sites rfl
  source _ _ := of_sites rfl
  resolvePath _ _ := of_sites rfl
  consult _ _ := of_sites rfl
  ensureConst e key := by
    unfold Engine.ensureConst
    split <;> exact of_sites rfl
  ensureIvar e key := by
    unfold Engine.ensureIvar
    split <;> exact of_sites rfl
  globalVertex e name := by
    unfold Engine.globalVertex
    split <;> exact of_sites rfl
  addEdge e src dst := adoptGraph e (e.graph.addEdge src dst).2
  removeEdge e src dst := adoptGraph e (e.graph.removeEdge src dst).2
  destroyVertex e v := adoptGraph e (e.graph.destroy v)
  schedule e s := scheduleAll e [s]
  watch _ _ _ := of_sites rfl
  changeDecls e key f := by
    have hworld : Houses s e (e.modifyWorld (·.modifyMethod key fun m =>
        { m with decls := f m.decls })) := of_sites rfl
    exact (hworld.trans (scheduleAll _ _)).trans (scheduleAll _ _)
  changeDefs e key f := by
    have hworld : Houses s e (e.modifyWorld (·.modifyMethod key fun m =>
        { m with defs := f m.defs })) := of_sites rfl
    unfold Engine.changeDefs
    dsimp only
    split
    · exact hworld.trans (scheduleAll _ _)
    · exact hworld
  changeIvarReads _ _ _ := of_sites rfl
  effects e t _ := modifySite e t fun _ => ⟨rfl, rfl⟩
  count _ := of_sites rfl
  enterSite := enterSite
  destroy e t x e' _ _ h := by
    have hmark : Houses s e (e.modifySite t fun x => { x with destroyed := true }) :=
      modifySite e t fun _ => ⟨rfl, rfl⟩
    have hunlisted : Houses s (e.modifySite t fun x => { x with destroyed := true })
        (e.markDestroyed t x) := of_sites rfl
    have hreleased : Houses s e' { e' with
        sites := e'.sites.release t.index
        stats := e'.stats.destroy x.rule.name } := fun hs hf => ⟨hs, hf, rfl⟩
    exact (hmark.trans hunlisted).trans (h.trans hreleased)

end Houses

end TypeFlow.Engine
