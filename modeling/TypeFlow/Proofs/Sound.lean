import TypeFlow.Proofs.Filing
import TypeFlow.Proofs.Grounded

/-!
# Sound machines

In a sound machine everything named is known and every dependency is filed. Changes of definitions
and the entries they need are steps, so they keep a machine sound.
-/

set_option autoImplicit false

namespace TypeFlow

namespace Machine

structure Sound (m : Machine) : Prop where
  grounded : m.Grounded
  filed : m.Filed

variable {m m' m'' : Machine}

theorem Sound.step (h : m.Sound) (hs : Step m m') : m'.Sound :=
  ⟨h.grounded.step hs, h.filed.step hs⟩

theorem Sound.steps (h : m.Sound) (hs : Steps m m') : m'.Sound := by
  induction hs with
  | refl => exact h
  | tail _ hlast ih => exact ih.step hlast

def Learns (m m' : Machine) : Prop :=
  ∀ u, m.engine.world.Knows u → m'.engine.world.Knows u

theorem Learns.of_step (hs : Step m m') : Learns m m' := by
  have hsame : ∀ {e e' : Engine} {fs fs' : List Frame} {hand hand' : List VertexId},
      e'.world = e.world → Learns ⟨e, fs, hand⟩ ⟨e', fs', hand'⟩ := fun hw u hu => hw.symm ▸ hu
  cases hs with
  | aside ha => exact fun u => ha.world.knows
  | @addEdge e _ _ src dst =>
    obtain ⟨q, hq⟩ := e.exists_adoptGraph_eq (e.graph.addEdge src dst).2
    rw [show (e.addEdge src dst).2 = _ from hq]
    exact hsame rfl
  | @removeEdge e _ _ src dst =>
    obtain ⟨q, hq⟩ := e.exists_adoptGraph_eq (e.graph.removeEdge src dst).2
    rw [show (e.removeEdge src dst).2 = _ from hq]
    exact hsame rfl
  | @bury e _ v _ =>
    obtain ⟨q, hq⟩ := e.exists_adoptGraph_eq (e.graph.destroy v)
    rw [show e.destroyVertex v = _ from hq]
    exact hsame rfl
  | reclaim =>
    unfold Engine.reclaim
    split
    · exact hsame rfl
    · exact hsame rfl
  | note | forget => exact fun u => World.knows_watch.2
  | _ => exact hsame rfl

theorem Learns.of_steps (hs : Steps m m') : Learns m m' := by
  induction hs with
  | refl => exact fun _ => id
  | tail _ hlast ih => exact fun u hu => Learns.of_step hlast u (ih u hu)

end Machine

namespace Engine

open Machine

variable {e e' : Engine} {fs : List Frame} {hand : List VertexId}

theorem Aside.refl (e : Engine) : e.Aside e := ⟨rfl, rfl, rfl, rfl, World.Grows.refl _⟩

theorem Aside.trans {e'' : Engine} (h : e.Aside e') (h' : e'.Aside e'') : e.Aside e'' :=
  ⟨h'.graph.trans h.graph, h'.sites.trans h.sites, h'.nodes.trans h.nodes,
    h'.config.trans h.config, h.world.trans h'.world⟩

theorem Aside.scheduleAll (e : Engine) (ss : List SiteId) : e.Aside (e.scheduleAll ss) := by
  obtain ⟨q, hq⟩ := e.exists_scheduleAll_eq ss
  rw [hq]
  exact ⟨rfl, rfl, rfl, rfl, World.Grows.refl _⟩

theorem Aside.ite {P : Prop} [Decidable P] {e1 e2 : Engine} (h1 : e.Aside e1) (h2 : e.Aside e2) :
    e.Aside (if P then e1 else e2) := by
  split
  · exact h1
  · exact h2

theorem Aside.modifyWorld {f : World → World} (h : World.Grows e.world (f e.world)) :
    e.Aside (e.modifyWorld f) :=
  ⟨rfl, rfl, rfl, rfl, h⟩

theorem Aside.modifyMethod (e : Engine) (key : MemberKey) {f : MethodEntity → MethodEntity}
    (hf : ∀ m, (f m).callsites = m.callsites) : e.Aside (e.modifyWorld (·.modifyMethod key f)) :=
  Aside.modifyWorld (World.Grows.modifyMethod _ key hf)

theorem Aside.modifyConst (e : Engine) (key : ConstKey) {f : ConstEntity → ConstEntity}
    (hf : ∀ c, (f c).followers = c.followers) : e.Aside (e.modifyWorld (·.modifyConst key f)) :=
  Aside.modifyWorld (World.Grows.modifyConst _ key hf)

theorem Aside.modifyIvar (e : Engine) (key : MemberKey) (f : IvarEntity → IvarEntity) :
    e.Aside (e.modifyWorld (·.modifyIvar key f)) :=
  Aside.modifyWorld (World.Grows.aside rfl rfl rfl fun hc => (hc.within _).of_eq rfl rfl rfl)

theorem Aside.nameConst (e : Engine) (key : ConstKey) (c : ConstEntity)
    (h : e.world.const? key = none) (hc : c.followers = {}) :
    e.Aside (e.modifyWorld (·.modify key.module fun x =>
      { x with consts := x.consts.insert key.name c })) :=
  Aside.modifyWorld (World.Grows.nameConst h c hc)

theorem Aside.nameIvar (e : Engine) (key : MemberKey) (i : IvarEntity) :
    e.Aside (e.modifyWorld (·.modify key.side.module fun x =>
      { x with ivars := x.ivars.modify key.side.singleton fun t => t.insert key.name i })) :=
  Aside.modifyWorld (World.Grows.aside rfl rfl rfl fun hc => (hc.within _).of_eq rfl rfl rfl)

theorem Aside.changeDecls (e : Engine) (key : MemberKey)
    (f : OrderedSet SiteId → OrderedSet SiteId) : e.Aside (e.changeDecls key f) :=
  ((Aside.modifyMethod e key (f := fun m => { m with decls := f m.decls }) fun _ => rfl).trans
    (Aside.scheduleAll _ _)).trans (Aside.scheduleAll _ _)

theorem Aside.changeDefs (e : Engine) (key : MemberKey)
    (f : OrderedSet SiteId → OrderedSet SiteId) : e.Aside (e.changeDefs key f) :=
  have hw := Aside.modifyMethod e key (f := fun m => { m with defs := f m.defs }) fun _ => rfl
  .ite (hw.trans (Aside.scheduleAll _ _)) hw

theorem Aside.changeAliases (e : Engine) (key : MemberKey)
    (f : OrderedMap DefOrigin String → OrderedMap DefOrigin String) :
    e.Aside (e.changeAliases key f) :=
  (Aside.modifyMethod e key (f := fun m => { m with aliases := f m.aliases }) fun _ => rfl).trans
    (Aside.scheduleAll _ _)

theorem Aside.addModuleDecl (e : Engine) (m : ModuleId) (origin : DefOrigin) (decl : ModuleDecl) :
    e.Aside (e.addModuleDecl m origin decl) :=
  have hw : e.Aside { e with world := (e.world.declare m origin decl).2 } :=
    ⟨rfl, rfl, rfl, rfl, World.Grows.declare _ m origin decl⟩
  .ite (hw.trans (Aside.scheduleAll _ _)) hw

theorem Aside.removeModuleDecl (e : Engine) (m : ModuleId) (origin : DefOrigin) :
    e.Aside (e.removeModuleDecl m origin) :=
  have hw : e.Aside { e with world := (e.world.withdraw m origin).2 } :=
    ⟨rfl, rfl, rfl, rfl, World.Grows.withdraw _ m origin⟩
  .ite (hw.trans (Aside.scheduleAll _ _)) hw

theorem Aside.changeIncludes (e : Engine) (m : ModuleId)
    {f : OrderedMap (DefOrigin × ModuleId) (List SigType) →
      OrderedMap (DefOrigin × ModuleId) (List SigType)}
    (hf : ∀ x, ∀ k ∈ (f x).keys, k ∈ x.keys ∨ e.world.Knows k.2) :
    e.Aside (e.modifyWorld (·.modify m fun x => { x with includes := f x.includes })) := by
  refine Aside.modifyWorld (World.Grows.aside rfl rfl rfl fun hc => ?_)
  refine ⟨(hc.within m).superclass, fun t hm => ?_, (hc.within m).subclasses⟩
  obtain ⟨k, hk, rfl⟩ := List.mem_map.1 hm
  exact (hf _ k hk).elim (fun hold => (hc.within m).included k.2 (List.mem_map_of_mem hold)) id

theorem Aside.addInclude (e : Engine) (m : ModuleId) (origin : DefOrigin) {target : ModuleId}
    (args : List SigType) (ht : e.world.Knows target) :
    e.Aside (e.addInclude m origin target args) := by
  refine (Aside.changeIncludes e m (f := (·.insert (origin, target) args)) fun x k hk => ?_).trans
    (Aside.scheduleAll _ _)
  rcases OrderedMap.mem_keys_insert.1 hk with rfl | hold
  · exact .inr ht
  · exact .inl hold

theorem Aside.removeInclude (e : Engine) (m : ModuleId) (origin : DefOrigin) (target : ModuleId) :
    e.Aside (e.removeInclude m origin target) :=
  .ite ((Aside.changeIncludes e m (f := (·.erase (origin, target))) fun _ _ hk =>
    .inl (OrderedMap.mem_keys_erase.1 hk).1).trans (Aside.scheduleAll _ _)) (Aside.refl e)

theorem steps_ensureConst (e : Engine) (key : ConstKey) :
    Steps ⟨e, fs, hand⟩ ⟨(e.ensureConst key).2, fs, hand⟩ := by
  unfold Engine.ensureConst
  cases hc : e.world.const? key with
  | some c => exact .refl
  | none =>
    refine (Relation.ReflTransGen.single
      (.newVertex ("const:" ++ e.world.constName key) none)).tail (.aside ?_)
    exact Aside.nameConst _ key _ hc rfl

theorem steps_ensureIvar (e : Engine) (key : MemberKey) :
    Steps ⟨e, fs, hand⟩ ⟨(e.ensureIvar key).2, fs, hand⟩ := by
  unfold Engine.ensureIvar
  cases e.world.ivar? key with
  | some i => exact .refl
  | none =>
    refine (Relation.ReflTransGen.single (.newVertex ("ivar:" ++ key.name) none)).tail (.aside ?_)
    exact Aside.nameIvar _ key _

theorem steps_addConstDef (e : Engine) (key : ConstKey) (origin : DefOrigin) :
    Steps ⟨e, fs, hand⟩ ⟨(e.addConstDef key origin).2, fs, hand⟩ :=
  have hw := Aside.modifyConst (e.ensureConst key).2 key
    (f := fun c => { c with defs := c.defs.insert origin }) fun _ => rfl
  (steps_ensureConst e key).tail (.aside (.ite hw (hw.trans (Aside.scheduleAll _ _))))

theorem steps_removeConstDef (e : Engine) (key : ConstKey) (origin : DefOrigin) :
    Steps ⟨e, fs, hand⟩ ⟨e.removeConstDef key origin, fs, hand⟩ :=
  have hw := Aside.modifyConst (e.ensureConst key).2 key
    (f := fun c => { c with defs := c.defs.erase origin }) fun _ => rfl
  (steps_ensureConst e key).tail (.aside (.ite (hw.trans (Aside.scheduleAll _ _)) hw))

theorem steps_addIvarDef (e : Engine) (key : MemberKey) (origin : DefOrigin) :
    Steps ⟨e, fs, hand⟩ ⟨(e.addIvarDef key origin).2, fs, hand⟩ :=
  have hw := Aside.modifyIvar (e.ensureIvar key).2 key
    fun i => { i with defs := i.defs.insert origin }
  (steps_ensureIvar e key).tail (.aside (.ite hw (hw.trans (Aside.scheduleAll _ _))))

theorem steps_removeIvarDef (e : Engine) (key : MemberKey) (origin : DefOrigin) :
    Steps ⟨e, fs, hand⟩ ⟨e.removeIvarDef key origin, fs, hand⟩ :=
  have hw := Aside.modifyIvar (e.ensureIvar key).2 key
    fun i => { i with defs := i.defs.erase origin }
  (steps_ensureIvar e key).tail (.aside (.ite (hw.trans (Aside.scheduleAll _ _)) hw))

theorem steps_unregister (e : Engine) (origin : DefOrigin) (r : Registration) :
    Steps ⟨e, fs, hand⟩ ⟨e.unregister origin r, fs, hand⟩ := by
  cases r with
  | module m => exact .single (.aside (Aside.removeModuleDecl e m origin))
  | inclusion m target => exact .single (.aside (Aside.removeInclude e m origin target))
  | const key => exact steps_removeConstDef e key origin
  | ivar key => exact steps_removeIvarDef e key origin
  | «alias» key => exact .single (.aside (Aside.changeAliases e key (·.erase origin)))

end Engine

end TypeFlow
