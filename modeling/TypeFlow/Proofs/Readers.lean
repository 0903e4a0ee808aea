import TypeFlow.Proofs.Settled

/-!
# Who is told of an instance variable

Readers of an instance variable look for it along a chain of sides. When a definition makes the
variable start or stop to be there, the readers are sought the other way, from the module of the
variable down to its descendants. Both ways agree as long as the chain stays on one side: below the
singleton sides it goes on with the instances of `Class` or `Module`, and from there nobody goes
back.
-/

set_option autoImplicit false

namespace TypeFlow

open Relation State

namespace World

variable {w : World}

/-- Either all the steps of a chain are steps to a superclass, or it leaves the singleton sides. -/
theorem chain_stays_or_leaves {s t : Side}
    (h : ReflTransGen (fun a b => w.parent? a = some b) s t) :
    t.singleton = s.singleton ∧
        ReflTransGen (fun a b => (w.get a).superclass = some b) s.module t.module ∨
      s.singleton = true ∧ t.singleton = false := by
  induction h with
  | refl => exact .inl ⟨rfl, .refl⟩
  | @tail b c _ hbc ih =>
    unfold parent? at hbc
    rcases ih with ⟨hb, hpath⟩ | ⟨hs, hb⟩
    · cases hside : b.singleton with
      | true =>
        rw [hside, if_pos rfl] at hbc
        split at hbc
        · cases hbc
          exact .inr ⟨hb.symm.trans hside, rfl⟩
        split at hbc
        · obtain ⟨p, hp, rfl⟩ := Option.map_eq_some_iff.1 hbc
          exact .inl ⟨hside.symm.trans hb, hpath.tail hp⟩
        · cases hbc
          exact .inr ⟨hb.symm.trans hside, rfl⟩
      | false =>
        rw [hside] at hbc
        obtain ⟨p, hp, rfl⟩ := Option.map_eq_some_iff.1 hbc
        exact .inl ⟨hside.symm.trans hb, hpath.tail hp⟩
    · rw [hb] at hbc
      obtain ⟨p, -, rfl⟩ := Option.map_eq_some_iff.1 hbc
      exact .inr ⟨hs, rfl⟩

theorem Related.mem_descendants_of_mem_chain (h : w.Related) {s t : Side} (ht : t ∈ w.chain s)
    (hside : s.singleton = t.singleton) : s.module ∈ w.descendants t.module := by
  rw [h.mem_descendants_iff_mem_chain, mem_chain_iff h.closed, reflTransGen_parent?_iff]
  rcases chain_stays_or_leaves ((mem_chain_iff h.closed).1 ht) with ⟨-, hpath⟩ | ⟨hs, hf⟩
  · exact hpath
  · rw [hs, hf] at hside
    cases hside

end World

namespace Engine

variable {e e' : Engine} {key : MemberKey}

/-- The site is alive and looks for an instance variable from a module that descends from `m`. -/
def ReadsBelow (e : Engine) (m : ModuleId) (u : SiteId) : Prop :=
  ∃ x i, e.site? u = some x ∧ x.destroyed = false ∧ x.rule = .ivarRead i ∧
    i.key.side.module ∈ e.world.descendants m

theorem Posted.mem_readers_iff (h : e.Posted) {m : ModuleId} {u : SiteId} :
    (∃ d ∈ e.world.descendants m, u ∈ e.world.posts (.reader d)) ↔ e.ReadsBelow m u := by
  constructor
  · rintro ⟨d, hd, hu⟩
    obtain ⟨x, hx, hlive, hpost⟩ := h.live (.reader d) u hu
    cases hrule : x.rule with
    | ivarRead i =>
      rw [hrule] at hpost
      cases hpost
      exact ⟨x, i, hx, hlive, hrule, hd⟩
    | _ => rw [hrule] at hpost; cases hpost
  · rintro ⟨x, i, hx, hlive, hrule, hd⟩
    exact ⟨i.key.side.module, hd, h.readers u x i hx hlive hrule⟩

theorem modifyIvar_ensureIvar_keeps (e : Engine) (key : MemberKey) (f : IvarEntity → IvarEntity) :
    let world := (e.ensureIvar key).2.world.modifyIvar key f
    (∀ p, world.posts p = e.world.posts p) ∧
      ∀ m, (world.get m).superclass = (e.world.get m).superclass := by
  have hstays := e.stays_ensureIvar key
  constructor
  · intro p
    rw [← hstays.posts p]
    unfold World.posts World.modifyIvar
    rw [World.get_modify]
    split <;> cases p <;> rfl
  · intro m
    refine .trans ?_ (congrArg Lineage.superclass (hstays.same m).lineage)
    unfold World.modifyIvar
    rw [World.get_modify]
    split <;> rfl

theorem mem_queue_ivarReads_iff (hr : e.world.Related) (hp : e.Posted) (f : IvarEntity → IvarEntity)
    (u : SiteId) :
    u ∈ (((e.ensureIvar key).2.modifyWorld (·.modifyIvar key f)).scheduleIvarReads
        key.side.module).queue.toList ↔
      u ∈ e.queue.toList ∨ e.ReadsBelow key.side.module u := by
  let changed := (e.ensureIvar key).2.modifyWorld (·.modifyIvar key f)
  have hensured : (e.ensureIvar key).2.world.Related := hr.agrees (e.stays_ensureIvar key).agrees
  have hrelated : changed.world.Related :=
    hensured.modify ((Aside.modifyIvar (e.ensureIvar key).2 key f).world.closed hensured.closed)
      (fun _ => rfl) (fun _ => rfl) (fun _ => rfl) fun _ => rfl
  obtain ⟨hposts, hsuper⟩ := modifyIvar_ensureIvar_keeps e key f
  have hqueue : changed.queue = e.queue := by
    show (e.ensureIvar key).2.queue = e.queue
    unfold Engine.ensureIvar
    split <;> rfl
  have hlive : changed.isLive u = e.isLive u := isLive_congr (SameStock.ensureIvar e key).sites u
  have hbelow : ∀ d, d ∈ changed.world.descendants key.side.module ↔
      d ∈ e.world.descendants key.side.module := by
    intro d
    have hstep : (fun a b => (changed.world.get a).superclass = some b) =
        fun a b => (e.world.get a).superclass = some b := by
      funext a b
      exact congrArg (· = some b) (hsuper a)
    rw [hrelated.mem_descendants_iff_mem_chain, hr.mem_descendants_iff_mem_chain,
      World.mem_chain_iff hrelated.closed, World.mem_chain_iff hr.closed,
      World.reflTransGen_parent?_iff, World.reflTransGen_parent?_iff, hstep]
  rw [← hp.mem_readers_iff, Engine.scheduleIvarReads, mem_queue_scheduleAll, hqueue, hlive,
    List.mem_flatMap]
  refine or_congr_right ⟨?_, ?_⟩
  · rintro ⟨⟨d, hd, hu⟩, -⟩
    exact ⟨d, (hbelow d).1 hd, hposts (.reader d) ▸ hu⟩
  · rintro ⟨d, hd, hu⟩
    obtain ⟨x, hx, hdead, -⟩ := hp.live (.reader d) u hu
    rw [← hposts] at hu
    exact ⟨⟨d, (hbelow d).2 hd, hu⟩, isLive_of_site? hx hdead⟩

theorem mem_queue_switch_iff (hr : e.world.Related) (hp : e.Posted) {origin : DefOrigin}
    (hchange : e' = (e.addIvarDef key origin).2 ∨ e' = e.removeIvarDef key origin)
    (hswitch : (e'.world.ivarAt? key).isSome ≠ (e.world.ivarAt? key).isSome) (u : SiteId) :
    u ∈ e'.queue.toList ↔ u ∈ e.queue.toList ∨ e.ReadsBelow key.side.module u := by
  have hne : ¬e'.world.ivarAt? key = e.world.ivarAt? key :=
    fun hsame => hswitch (congrArg Option.isSome hsame)
  rcases hchange with rfl | rfl
  · rw [(addIvarDef_kept_or_told origin e key).resolve_left hne]
    exact mem_queue_ivarReads_iff hr hp _ u
  · rw [(removeIvarDef_kept_or_told origin e key).resolve_left hne]
    exact mem_queue_ivarReads_iff hr hp _ u

end Engine

/-- At any moment of the work on requests, a definition by which an instance variable starts or
stops to be there adds to the queue the live sites that look for variables from a descendant of its
module, and no other. So all are told whose chain comes to the variable on the side where it
starts. -/
theorem ivar_readers_told_iff (config : Config) {s : State}
    (h : Moves ((Engine.boot config).rest []) s) {e' : Engine} {key : MemberKey}
    {origin : DefOrigin}
    (hchange : e' = (s.engine.addIvarDef key origin).2 ∨ e' = s.engine.removeIvarDef key origin)
    (hswitch : (e'.world.ivarAt? key).isSome ≠ (s.engine.world.ivarAt? key).isSome) :
    (∀ u, u ∈ e'.queue.toList ↔
      u ∈ s.engine.queue.toList ∨ s.engine.ReadsBelow key.side.module u) ∧
    ∀ u x i, s.engine.site? u = some x → x.destroyed = false → x.rule = .ivarRead i →
      key.side ∈ s.engine.world.chain i.key.side → i.key.side.singleton = key.side.singleton →
        u ∈ e'.queue.toList := by
  have hnamesTracked := (Boot.namesTracked_boot config).moves (Boot.kept_boot config).sound h
  have hall := Engine.mem_queue_switch_iff hnamesTracked.related hnamesTracked.posted hchange
    hswitch
  refine ⟨hall, fun u x i hx hlive hrule hchain hside => (hall u).2 (.inr ?_)⟩
  exact ⟨x, i, hx, hlive, hrule, hnamesTracked.related.mem_descendants_of_mem_chain hchain hside⟩

section Overheard

open Workspace

theorem exists_moves_serve (config : Config) (rs : List Request) :
    ∃ s, Moves ((Engine.boot config).rest []) s ∧ s.engine = (serve config rs).engine :=
  let ⟨log, hmoves, _⟩ := moves_serve config rs
  ⟨(serve config rs).rest log, hmoves, rfl⟩

def readsInSubclass : String :=
  "\x7b\"type\":\"class\",\"cpath\":[\"Foo\"],\"superclass\":null,\"body\":[]\x7d," ++
    "\x7b\"type\":\"class\",\"cpath\":[\"Bar\"],\"superclass\":\x7b\"cpath\":[\"Foo\"]\x7d," ++
    "\"body\":[\x7b\"type\":\"def\",\"name\":\"bar\"," ++
    "\"body\":[\x7b\"type\":\"ivar_read\",\"name\":\"@x\"\x7d]\x7d]\x7d"

/-- The read is told of a definition in `Foo`. -/
theorem ivar_reader_told_below :
    let e := (serve {} [writing "a" readsInSubclass]).engine
    let key : MemberKey := ⟨⟨⟨15⟩, false⟩, "@x"⟩
    let e' := (e.addIvarDef key (.node ⟨99⟩)).2
    e.world.find? ["Foo"] = some key.side.module ∧
      (e'.world.ivarAt? key).isSome ≠ (e.world.ivarAt? key).isSome ∧
      (∀ u, u ∈ e'.queue.toList ↔ u ∈ e.queue.toList ∨ e.ReadsBelow ⟨15⟩ u) ∧
      e'.queue.toList = [⟨0⟩] := by
  obtain ⟨s, hmoves, hs⟩ := exists_moves_serve {} [writing "a" readsInSubclass]
  have hrun : let e := (serve {} [writing "a" readsInSubclass]).engine
      let e' := (e.addIvarDef ⟨⟨⟨15⟩, false⟩, "@x"⟩ (.node ⟨99⟩)).2
      e.world.find? ["Foo"] = some ⟨15⟩ ∧
        (e'.world.ivarAt? ⟨⟨⟨15⟩, false⟩, "@x"⟩).isSome ≠
          (e.world.ivarAt? ⟨⟨⟨15⟩, false⟩, "@x"⟩).isSome ∧ e'.queue.toList = [⟨0⟩] := by
    rw [serve_eq]
    decide +kernel
  generalize (serve {} [writing "a" readsInSubclass]).engine = e at hrun hs ⊢
  subst hs
  obtain ⟨hfind, hswitch, hqueue⟩ := hrun
  exact ⟨hfind, hswitch, (ivar_readers_told_iff {} hmoves (.inl rfl) hswitch).1, hqueue⟩

def readsInSingleton : String :=
  "\x7b\"type\":\"class\",\"cpath\":[\"Foo\"],\"superclass\":null," ++
    "\"body\":[\x7b\"type\":\"def\",\"name\":\"foo\",\"singleton\":true," ++
    "\"body\":[\x7b\"type\":\"ivar_read\",\"name\":\"@x\"\x7d]\x7d]\x7d"

def assignsInClass : String :=
  "\x7b\"type\":\"class\",\"cpath\":[\"Class\"],\"superclass\":null," ++
    "\"body\":[\x7b\"type\":\"def\",\"name\":\"bar\"," ++
    "\"body\":[\x7b\"type\":\"ivar_write\",\"name\":\"@x\"," ++
    "\"value\":\x7b\"type\":\"int\",\"value\":1\x7d\x7d]\x7d]\x7d"

/-- The chain of the reader comes to the instances of `Class`, but the reader is not told that the
variable is there now. What the method returns depends on the order of the documents. -/
theorem ivar_reader_untold :
    let e := (serve {} [writing "a" readsInSingleton]).engine
    let key : MemberKey := ⟨⟨Core.classModule, false⟩, "@x"⟩
    let e' := (e.addIvarDef key (.node ⟨99⟩)).2
    ((e.site? ⟨0⟩).any fun x => !x.destroyed && match x.rule with
        | .ivarRead i => i.key.name == "@x" && decide (key.side ∈ e.world.chain i.key.side)
        | _ => false) = true ∧
      (e.world.ivarAt? key).isSome = false ∧ (e'.world.ivarAt? key).isSome = true ∧
      ⟨0⟩ ∉ e'.queue.toList ∧
      (serve {} [writing "a" readsInSingleton, writing "b" assignsInClass]).methodSignatures
        ["Foo"] true "foo" = ["def foo: -> untyped"] ∧
      (serve {} [writing "b" assignsInClass, writing "a" readsInSingleton]).methodSignatures
        ["Foo"] true "foo" = ["def foo: -> Integer"] := by
  simp only [serve_eq]
  decide +kernel

end Overheard

end TypeFlow
