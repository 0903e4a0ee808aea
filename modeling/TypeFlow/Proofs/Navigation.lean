import TypeFlow.Proofs.Settled

/-!
# From a call to the bodies it reaches

A question for the definitions of a call walks the hierarchy on its own. It passes the same sides
as the look-up of the call, but tries every entry that aliases lead through, and enters only the
modules that a side itself includes. The two walks end at the same entry as long as no alias hides a
body and no module included by an included one answers.
-/

set_option autoImplicit false

namespace TypeFlow

open Relation (TransGen)

section Trails

variable {α : Type} [DecidableEq α] {next : α → Option α}

theorem isSome_next_of_mem_dropLast {n : Nat} {seen : List α} {a x : α}
    (hx : x ∈ (trailFrom next n seen a).dropLast) : (next x).isSome = true := by
  induction n generalizing seen a with
  | zero => cases hx
  | succ n ih =>
    unfold trailFrom at hx
    split at hx
    · cases hx
    · cases ha : next a with
      | none =>
        rw [ha] at hx
        cases hx
      | some b =>
        simp only [ha] at hx
        cases hrest : trailFrom next n (a :: seen) b with
        | nil =>
          rw [hrest] at hx
          cases hx
        | cons c cs =>
          rw [hrest, List.dropLast_cons_of_ne_nil (List.cons_ne_nil c cs), ← hrest] at hx
          rcases List.mem_cons.1 hx with rfl | hx
          · rw [ha]
            rfl
          · exact ih hx

end Trails

namespace Lookup

variable {w : World}
variable {side : Side} {name : String} {m : ModuleId}

theorem aliasTrail_ne_nil (w : World) (side : Side) (name : String) :
    aliasTrail w side name ≠ [] := fun hnil => by
  have hhead : (aliasTrail w side name).head? = some name := head?_trail (Nat.succ_pos _) name
  rw [hnil] at hhead
  cases hhead

def targets (w : World) (side : Side) (name : String) : Finset String :=
  insert name ((((w.get side.module).methods.get side.singleton).values.filterMap
    MethodEntity.aliasTarget).toFinset)

theorem closed_targets (w : World) (side : Side) (name : String) :
    ∀ a ∈ targets w side name, ∀ b, redirect w side a = some b → b ∈ targets w side name := by
  intro a _ b hb
  obtain ⟨m, hm, hb⟩ := Option.bind_eq_some_iff.1 hb
  refine Finset.mem_insert_of_mem (List.mem_toFinset.2 (List.mem_filterMap.2 ⟨m, ?_, hb⟩))
  exact OrderedMap.mem_values_of_get? hm

theorem card_targets_le (w : World) (side : Side) (name : String) : (targets w side name).card ≤
    ((w.get side.module).methods.get side.singleton).size + 2 := by
  unfold targets
  generalize (w.get side.module).methods.get side.singleton = methods
  have hinsert := Finset.card_insert_le name
    (methods.values.filterMap MethodEntity.aliasTarget).toFinset
  have hlist := List.toFinset_card_le (methods.values.filterMap MethodEntity.aliasTarget)
  have hfilter := List.length_filterMap_le MethodEntity.aliasTarget methods.values
  have hvalues : methods.values.length = methods.size := List.length_map _
  omega

/-- Where aliases end in a circle, the name they end at was passed before. -/
theorem mem_aliasTrail_of_redirect {x y : String}
    (hx : x ∈ aliasTrail w side name) (hy : redirect w side x = some y) :
    y ∈ aliasTrail w side name := by
  have htrail := closed_trailFrom (closed_targets w side name) _ [] (Finset.mem_insert_self name _)
    (by simpa using card_targets_le w side name) fun _ h => absurd h List.not_mem_nil
  exact htrail.2 x hx y hy

def Unhidden (w : World) (side : Side) (name : String) : Prop :=
  ∀ n ∈ aliasTrail w side name, (redirect w side n).isSome = true → isDefined w ⟨side, n⟩ = false

/-- Then the first entry with a body among those that aliases lead through is the last one. -/
theorem find?_aliasTrail (h : Unhidden w side name) :
    ((aliasTrail w side name).map (MemberKey.mk side)).find? (isDefined w) =
      if isDefined w ⟨side, finalName w side name⟩ then some ⟨side, finalName w side name⟩
      else none := by
  have hne := aliasTrail_ne_nil w side name
  set last := (aliasTrail w side name).getLast hne with hlast
  have hlast? : (aliasTrail w side name).getLast? = some last := List.getLast?_eq_some_getLast hne
  have hmem : last ∈ aliasTrail w side name := List.getLast_mem hne
  have hsplit : aliasTrail w side name = (aliasTrail w side name).dropLast ++ [last] :=
    (List.dropLast_append_getLast hne).symm
  have hbefore : ∀ n ∈ (aliasTrail w side name).dropLast, isDefined w ⟨side, n⟩ = false :=
    fun n hn => h n (List.dropLast_subset _ hn) (isSome_next_of_mem_dropLast hn)
  have hskip : ((aliasTrail w side name).dropLast.map (MemberKey.mk side)).find? (isDefined w) =
      none := by
    rw [List.find?_eq_none]
    intro key hkey
    obtain ⟨n, hn, rfl⟩ := List.mem_map.1 hkey
    simp [hbefore n hn]
  rw [hsplit, List.map_append, List.find?_append, hskip, Option.none_or]
  cases hred : redirect w side last with
  | none =>
    have hfinal : finalName w side name = last := by
      simp only [finalName, hlast?, hred, Option.getD_some, Option.getD_none]
    rw [hfinal, List.map_singleton, List.find?_singleton]
  | some x =>
    -- The trail ends in a circle: every entry on it is redirected.
    have hx := mem_aliasTrail_of_redirect hmem hred
    have hdefined : isDefined w ⟨side, x⟩ = false := by
      rw [hsplit, List.mem_append, List.mem_singleton] at hx
      rcases hx with hx | rfl
      · exact hbefore x hx
      · exact h _ hmem (by rw [hred]; rfl)
    have hfinal : finalName w side name = x := by
      simp only [finalName, hlast?, hred, Option.getD_some]
    have hlastUndefined := h last hmem (by rw [hred]; rfl)
    rw [hfinal, hdefined, List.map_singleton, List.find?_singleton, hlastUndefined]
    rfl

theorem finalName_of_none (h : redirect w side name = none) :
    finalName w side name = name := by
  unfold finalName aliasTrail trail
  simp [trailFrom, h]

structure Silent (w : World) (m : ModuleId) (name : String) : Prop where
  redirect : redirect w ⟨m, false⟩ name = none
  undefined : isDefined w ⟨⟨m, false⟩, name⟩ = false

def Nested (w : World) : ModuleId → ModuleId → Prop := TransGen fun a b => b ∈ (w.get a).included

theorem fst_mem_included {inc : ModuleId × List SigType}
    (h : inc ∈ inclusions w m) : inc.1 ∈ (w.get m).included := by
  obtain ⟨e, he, rfl⟩ := List.mem_map.1 (List.mem_reverse.1 h)
  exact List.mem_map.2 ⟨e.1, List.mem_map.2 ⟨e, he, rfl⟩, rfl⟩

theorem included_silent (n : Nat) (searched : List ModuleId) {l : Lookup}
    (hl : l.found = none) (h : ∀ y, Nested w m y → Silent w y l.name) :
    (included w n m (searched, l)).2.found = none ∧
      (included w n m (searched, l)).2.name = l.name := by
  induction n generalizing m searched l with
  | zero => exact ⟨hl, rfl⟩
  | succ n ih =>
    unfold included
    split
    · exact ⟨hl, rfl⟩
    · have hincl : ∀ inc ∈ inclusions w m, inc.1 ∈ (w.get m).included := fun _ => fst_mem_included
      generalize m :: searched = searched
      generalize inclusions w m = incs at hincl
      induction incs generalizing searched l with
      | nil => exact ⟨hl, rfl⟩
      | cons inc incs ihi =>
        have hinc : inc.1 ∈ (w.get m).included := hincl inc List.mem_cons_self
        have hsilent := h inc.1 (.single hinc)
        set l' := (l.visit (.enter inc.1 inc.2)).own w ⟨inc.1, false⟩ with hl'
        have hname : l'.name = l.name := finalName_of_none hsilent.redirect
        have hfound : l'.found = none := by
          have hkey : finalName w ⟨inc.1, false⟩ (l.visit (.enter inc.1 inc.2)).name = l.name :=
            hname
          rw [hl', own, hkey, hsilent.undefined]
          rfl
        obtain ⟨hdeep, hdeepName⟩ := ih searched hfound
          fun y hy => hname ▸ h y (TransGen.head hinc hy)
        rw [List.foldl_cons]
        simp only [hl, ← hl', hfound, hdeep, Option.isSome_none, Bool.false_eq_true, if_false]
        obtain ⟨hrest, hrestName⟩ := ihi (l := (included w n inc.1 (searched, l')).2.visit .leave)
          hdeep (fun y hy => by
            have hsame : ((included w n inc.1 (searched, l')).2.visit .leave).name = l.name :=
              hdeepName.trans hname
            exact hsame ▸ h y hy) _ fun x hx => hincl x (List.mem_cons_of_mem _ hx)
        exact ⟨hrest, hrestName.trans (hdeepName.trans hname)⟩

abbrev Stop := Side × Bool

def Open (w : World) : List Stop → String → Prop
  | [], _ => True
  | (side, inner) :: rest, name =>
    Unhidden w side name ∧ (isDefined w ⟨side, finalName w side name⟩ = false →
      (inner = true → ∀ y, Nested w side.module y → Silent w y (finalName w side name)) ∧
        Open w rest (finalName w side name))

def scan (w : World) (stops : List Stop) (name : String) : Option MemberKey :=
  (Workspace.keysAlong w (stops.map Prod.fst) name).find? (isDefined w)

inductive Follows (w : World) (goal : Option MemberKey) (stops : List Stop) (l : Lookup) : Prop
  | ahead (searching : l.found = none) (clear : Open w stops l.name)
      (goal_eq : scan w stops l.name = goal)
  | done (key : MemberKey) (found : l.found = some key) (goal_eq : goal = some key)

def stopsAt (w : World) (side : Side) : List Stop :=
  (side, false) :: if side.singleton then []
    else (w.get side.module).included.reverse.map fun m => (⟨m, false⟩, true)

theorem map_fst_stopsAt (w : World) (side : Side) :
    (stopsAt w side).map Prod.fst = Workspace.withIncluded w side := by
  unfold stopsAt Workspace.withIncluded
  split
  · rfl
  · rw [List.map_cons, List.map_map]
    rfl

namespace Follows

variable {goal : Option MemberKey} {stops : List Stop} {l : Lookup}

theorem found_eq (h : Follows w goal [] l) : l.found = goal := by
  cases h with
  | ahead searching clear goal_eq => rw [searching, ← goal_eq]; rfl
  | done key found goal_eq => rw [found, goal_eq]

theorem visit (h : Follows w goal stops l) (v : Visit) : Follows w goal stops (l.visit v) := by
  cases h with
  | ahead searching clear goal_eq => exact .ahead searching clear goal_eq
  | done key found goal_eq => exact .done key found goal_eq

theorem own {side : Side} {inner : Bool} (h : Follows w goal ((side, inner) :: stops) l)
    (hl : l.found = none) : Follows w goal stops (l.own w side) ∧
      ((l.own w side).found = none → inner = true →
        ∀ y, Nested w side.module y → Silent w y (l.own w side).name) := by
  cases h with
  | done key found goal_eq =>
    rw [hl] at found
    cases found
  | ahead searching clear goal_eq =>
    obtain ⟨hunhidden, hrest⟩ := clear
    have hscan : scan w ((side, inner) :: stops) l.name =
        (if isDefined w ⟨side, finalName w side l.name⟩ then
          some ⟨side, finalName w side l.name⟩ else none).or
        (scan w stops (finalName w side l.name)) := by
      unfold scan
      rw [List.map_cons, Workspace.keysAlong, List.find?_append, find?_aliasTrail hunhidden]
    cases hdefined : isDefined w ⟨side, finalName w side l.name⟩ with
    | true =>
      have hfound : (l.own w side).found = some ⟨side, finalName w side l.name⟩ := by
        rw [Lookup.own, hdefined]
        rfl
      refine ⟨.done _ hfound ?_, fun hnone => ?_⟩
      · rw [← goal_eq, hscan, hdefined]
        rfl
      · rw [hfound] at hnone
        cases hnone
    | false =>
      obtain ⟨hnested, hopen⟩ := hrest hdefined
      have hfound : (l.own w side).found = none := by
        rw [Lookup.own, hdefined]
        rfl
      refine ⟨.ahead hfound hopen ?_, fun _ => hnested⟩
      rw [← goal_eq, hscan, hdefined]
      rfl

theorem included (n : Nat) {m : ModuleId} (h : Follows w goal
      ((w.get m).included.reverse.map (fun x => (⟨x, false⟩, true)) ++ stops) l) :
    Follows w goal stops (Lookup.included w (n + 1) m ([], l)).2 := by
  have hincs : (w.get m).included.reverse = (inclusions w m).map Prod.fst := by
    unfold Module.included inclusions OrderedMap.keys
    rw [← List.map_reverse, ← List.map_reverse, ← List.map_reverse, List.map_map, List.map_map]
    rfl
  rw [hincs, List.map_map] at h
  unfold Lookup.included
  rw [if_neg List.not_mem_nil]
  generalize [m] = searched
  generalize inclusions w m = incs at h
  induction incs generalizing searched l with
  | nil => exact h
  | cons inc incs ih =>
    rw [List.foldl_cons]
    cases hl : l.found with
    | some key =>
      simp only [Option.isSome_some, if_true]
      refine ih searched ?_
      cases h with
      | ahead searching clear goal_eq =>
        rw [hl] at searching
        cases searching
      | done key found goal_eq => exact .done key found goal_eq
    | none =>
      obtain ⟨hown, hsilent⟩ := (h.visit (.enter inc.1 inc.2)).own hl
      set l' := (l.visit (.enter inc.1 inc.2)).own w ⟨inc.1, false⟩ with hl'
      simp only [Option.isSome_none, Bool.false_eq_true, if_false]
      cases hfound : l'.found with
      | some key =>
        simp only [Option.isSome_some, if_true]
        exact ih searched hown
      | none =>
        obtain ⟨hdeep, hname⟩ := included_silent n searched hfound
          (hsilent hfound rfl)
        simp only [hdeep, Option.isSome_none, Bool.false_eq_true, if_false]
        refine ih _ (Follows.visit ?_ .leave)
        cases hown with
        | ahead searching clear goal_eq =>
          exact .ahead hdeep (hname.symm ▸ clear) (hname.symm ▸ goal_eq)
        | done key found goal_eq =>
          rw [hfound] at found
          cases found

theorem atSide {side : Side} (h : Follows w goal (stopsAt w side ++ stops) l)
    (hl : l.found = none) : Follows w goal stops (l.atSide w side) := by
  obtain ⟨hown, -⟩ := Follows.own h hl
  unfold Lookup.atSide
  cases hfound : (l.own w side).found with
  | some key =>
    simp only [hfound, Option.isSome_some, Bool.true_or, if_true]
    cases hown with
    | ahead searching clear goal_eq =>
      rw [hfound] at searching
      cases searching
    | done key found goal_eq => exact .done key found goal_eq
  | none =>
    cases hside : side.singleton with
    | true =>
      simp only [hfound, Option.isSome_none, Bool.or_true, if_true]
      rw [hside] at hown
      exact hown
    | false =>
      rw [hside] at hown
      simp only [hfound, Option.isSome_none, Bool.or_false, Bool.false_eq_true, if_false]
      exact hown.included _

theorem along {sides : List Side} (h : Follows w goal (sides.flatMap (stopsAt w)) l)
    (hl : l.found = none) : (Lookup.along w sides l).found = goal := by
  induction sides generalizing l with
  | nil => exact h.found_eq
  | cons side sides ih =>
    rw [List.flatMap_cons] at h
    have hat := h.atSide hl
    unfold Lookup.along
    cases hfound : (l.atSide w side).found with
    | some key =>
      simp only [hfound, Option.isSome_some, if_true]
      cases hat with
      | ahead searching clear goal_eq =>
        rw [hfound] at searching
        cases searching
      | done key' found goal_eq => rw [goal_eq, ← found, hfound]
    | none =>
      simp only [hfound, Option.isSome_none, Bool.false_eq_true, if_false]
      have hascend : Follows w goal (sides.flatMap (stopsAt w)) ((l.atSide w side).ascend w side) ∧
          ((l.atSide w side).ascend w side).found = none := by
        unfold ascend
        split
        · exact ⟨hat.visit _, hfound⟩
        · exact ⟨hat, hfound⟩
      exact ih hascend.1 hascend.2

end Follows

/-- Where included modules include nothing and no alias has a body, nothing is in the way. -/
theorem Open.of_plain {stops : List Stop}
    (hinner : ∀ stop ∈ stops, stop.2 = true → (w.get stop.1.module).included = [])
    (hplain : ∀ stop ∈ stops, ∀ m ∈ ((w.get stop.1.module).methods.get stop.1.singleton).values,
      m.aliasTarget.isSome = true → m.exists? = false) (name : String) : Open w stops name := by
  induction stops generalizing name with
  | nil => trivial
  | cons stop stops ih =>
    obtain ⟨side, inner⟩ := stop
    refine ⟨fun n _ hn => ?_, fun _ => ⟨fun hinc y hy => ?_, ?_⟩⟩
    · obtain ⟨target, hn⟩ := Option.isSome_iff_exists.1 hn
      obtain ⟨m, hm, hn⟩ := Option.bind_eq_some_iff.1 hn
      have hexists := hplain _ List.mem_cons_self m (OrderedMap.mem_values_of_get? hm)
        (by rw [hn]; rfl)
      rw [isDefined, hm, Option.any_some, hexists]
    · obtain ⟨z, hz, -⟩ := TransGen.head'_iff.1 hy
      rw [hinner _ List.mem_cons_self hinc] at hz
      exact absurd hz List.not_mem_nil
    · exact ih (fun s hs => hinner s (List.mem_cons_of_mem _ hs))
        (fun s hs => hplain s (List.mem_cons_of_mem _ hs)) _

end Lookup

open Lookup

def World.stops (w : World) (side : Side) : List Stop := (w.chain side).flatMap (stopsAt w)

theorem World.found_lookup {w : World} {side : Side} {name : String}
    (h : Open w (w.stops side) name) :
    (w.lookup side name).found = (Workspace.lookupKeys w ⟨side, name⟩).find? (isDefined w) := by
  refine Follows.along (.ahead rfl h ?_) rfl
  unfold scan Workspace.lookupKeys
  rw [List.map_flatMap]
  simp only [map_fst_stopsAt]

namespace OrderedSet

variable {α β : Type} [DecidableEq α] [DecidableEq β]

theorem ofList_append (as bs : List α) : ofList (as ++ bs) = bs.foldl insert (ofList as) :=
  List.foldl_append

theorem foldl_insert_of_subset {s : OrderedSet α} {as : List α} (h : ∀ a ∈ as, a ∈ s.toList) :
    as.foldl insert s = s := by
  induction as with
  | nil => rfl
  | cons a as ih =>
    have hinsert : s.insert a = s := if_pos (h a List.mem_cons_self)
    rw [List.foldl_cons, hinsert]
    exact ih fun x hx => h x (List.mem_cons_of_mem _ hx)

theorem ofList_flatMap_ofList (as : List α) (f : α → List β) :
    ofList ((ofList as).toList.flatMap f) = ofList (as.flatMap f) := by
  induction as using List.reverseRecOn with
  | nil => rfl
  | append_singleton as a ih =>
    rw [List.flatMap_append, List.flatMap_singleton, ofList_append (as.flatMap f), ← ih,
      ofList_append, List.foldl_cons, List.foldl_nil]
    by_cases ha : a ∈ (ofList as).toList
    · have hinsert : (ofList as).insert a = ofList as := if_pos ha
      rw [hinsert]
      refine (foldl_insert_of_subset fun b hb => ?_).symm
      exact mem_ofList.2 (List.mem_flatMap.2 ⟨a, ha, hb⟩)
    · have hinsert : (ofList as).insert a = ⟨(ofList as).toList ++ [a]⟩ := if_neg ha
      rw [hinsert, List.flatMap_append, List.flatMap_singleton, ofList_append]

end OrderedSet

def Engine.location? (e : Engine) (s : SiteId) : Option Location := do
  let site ← e.site? s
  let record ← e.record? site.node
  return { path := record.path, span := record.span }

def Engine.bodies (e : Engine) (key : MemberKey) : List SiteId :=
  ((e.world.method? key).map fun m => m.defs.toList).getD []

def Call.entries (c : Call) (e : Engine) : List MemberKey :=
  (e.typesAt c.recv).filterMap fun t =>
    (Side.ofType? t).bind fun side => (e.world.lookup side.1 c.name).found

namespace Workspace

theorem findSome?_exists (w : World) (keys : List MemberKey) :
    (keys.findSome? fun k => (w.method? k).filter MethodEntity.exists?) =
      (keys.find? (isDefined w)).bind w.method? := by
  induction keys with
  | nil => rfl
  | cons key keys ih =>
    rw [List.findSome?_cons, List.find?_cons, ih]
    unfold isDefined
    cases hm : w.method? key with
    | none => rfl
    | some m => cases hexists : m.exists? <;> simp [Option.filter, hexists, hm]

theorem bodiesOf_eq (e : Engine) (key : MemberKey) :
    bodiesOf e key = ((lookupKeys e.world key).find? (isDefined e.world)).elim []
      fun k => (e.bodies k).filterMap e.location? := by
  unfold bodiesOf
  rw [findSome?_exists]
  cases hk : (lookupKeys e.world key).find? (isDefined e.world) with
  | none => rfl
  | some k =>
    unfold Engine.bodies
    rw [Option.bind_some]
    cases hm : e.world.method? k with
    | none => simp [hm]
    | some m =>
      simp only [Option.elim_some, hm, Option.map_some, Option.getD_some]
      rfl

theorem flatMap_filterMap {α β γ : Type} (l : List α) (f : α → Option β) (g : β → List γ) :
    (l.filterMap f).flatMap g = l.flatMap fun a => (f a).elim [] g := by
  induction l with
  | nil => rfl
  | cons a l ih =>
    rw [List.flatMap_cons, ← ih]
    cases hf : f a with
    | none => rw [List.filterMap_cons_none hf]; rfl
    | some b => rw [List.filterMap_cons_some hf, List.flatMap_cons]; rfl

/-- The walk of the question ends where the look-up of the call does, type by type. -/
theorem definitions_eq {w : Workspace} {path : String} {pos : Pos} {n : Node} {c : Call}
    (hn : w.nodeAt? path pos = some n) (hc : w.call? n.id = some c)
    (hopen : ∀ t ∈ w.engine.typesAt c.recv, ∀ side, Side.ofType? t = some side →
      Open w.engine.world (w.engine.world.stops side.1) c.name) :
    w.definitions path pos = (OrderedSet.ofList ((c.entries w.engine).flatMap fun key =>
      (w.engine.bodies key).filterMap w.engine.location?)).toList := by
  have hkeys : w.receiverKeys n.id = (OrderedSet.ofList ((w.engine.typesAt c.recv).filterMap
      fun t => (Side.ofType? t).map fun s => (⟨s.1, c.name⟩ : MemberKey))).toList := by
    unfold receiverKeys
    rw [hc]
  have hdefs : w.definitions path pos =
      (OrderedSet.ofList ((w.receiverKeys n.id).flatMap (bodiesOf w.engine))).toList := by
    unfold definitions
    rw [hn]
  rw [hdefs, hkeys, OrderedSet.ofList_flatMap_ofList]
  unfold Call.entries
  rw [flatMap_filterMap, flatMap_filterMap]
  refine congrArg (fun l => (OrderedSet.ofList l).toList) (List.flatMap_congr fun t ht => ?_)
  cases hside : Side.ofType? t with
  | none => rfl
  | some side =>
    rw [Option.map_some, Option.bind_some, Option.elim_some, bodiesOf_eq,
      ← World.found_lookup (hopen t ht side hside)]

theorem site_of_call? {w : Workspace} {n : NodeId} {c : Call} (h : w.call? n = some c) :
    ∃ s x, w.engine.site? s = some x ∧ x.destroyed = false ∧ x.node = n ∧ x.rule = .call c := by
  obtain ⟨record, -, hfound⟩ := Option.bind_eq_some_iff.1 h
  obtain ⟨s, -, hs⟩ := List.exists_of_findSome?_eq_some hfound
  obtain ⟨x, hx, hrule⟩ := Option.bind_eq_some_iff.1 hs
  refine ⟨s, x, hx, ?_⟩
  split at hrule
  · next c' hc =>
    obtain ⟨⟨hnode, hlive⟩, hsame⟩ := Option.ite_none_right_eq_some.1 hrule
    cases hsame
    exact ⟨hlive, hnode, hc⟩
  · cases hrule

end Workspace

open Workspace

theorem located_serve (config : Config) (rs : List Request) {key : MemberKey} {s : SiteId}
    (hs : s ∈ (serve config rs).engine.bodies key) :
    let e := (serve config rs).engine
    ∃ x r d, e.site? s = some x ∧ x.destroyed = false ∧ x.rule = .methodDef d ∧ d.key = key ∧
      e.record? x.node = some r ∧ e.location? s = some ⟨r.path, r.span⟩ := by
  intro e
  obtain ⟨log, hmoves, hfits⟩ := moves_serve config rs
  have hkept := (Boot.kept_boot config).moves hmoves
  have hposted := ((Boot.namesTracked_boot config).moves (Boot.kept_boot config).sound
    hmoves).posted
  obtain ⟨x, hx, hlive, hrule⟩ := hposted.live (.body key) s hs
  obtain ⟨r, hr, -⟩ := ((hkept.homed _ hfits.called).homes.sites s x.node
    ⟨x, hx, hlive, rfl⟩).resolve_right fun ⟨_, hlifted, _⟩ => by cases hlifted
  have hlocation : e.location? s = some ⟨r.path, r.span⟩ := by
    unfold Engine.location?
    rw [show e.site? s = some x from hx, Option.bind_eq_bind, Option.bind_some,
      show e.record? x.node = some r from hr]
    rfl
  cases hd : x.rule with
  | methodDef d =>
    rw [hd] at hrule
    cases hrule
    exact ⟨x, r, d, hx, hlive, hd, rfl, hr, hlocation⟩
  | _ =>
    rw [hd] at hrule
    cases hrule

/-- After any requests: an entry lists live sites of bodies, each of which stands in a document, and
a position inside a call leads to the places of the bodies of the entries at which the look-up of
the call ends, each place once. The last part supposes that nothing is in the way of the walk. -/
theorem definitions_follow_dispatch (config : Config) (rs : List Request) :
    let w := serve config rs
    let e := w.engine
    (∀ key, ∀ s ∈ e.bodies key, ∃ x r d, e.site? s = some x ∧ x.destroyed = false ∧
      x.rule = .methodDef d ∧ d.key = key ∧ e.record? x.node = some r ∧
        e.location? s = some ⟨r.path, r.span⟩) ∧
    ∀ path pos n c, w.nodeAt? path pos = some n → w.call? n.id = some c →
      (∃ s x, e.site? s = some x ∧ x.destroyed = false ∧ x.node = n.id ∧ x.rule = .call c) ∧
      ((∀ t ∈ e.typesAt c.recv, ∀ side, Side.ofType? t = some side →
          Open e.world (e.world.stops side.1) c.name) →
        w.definitions path pos = (OrderedSet.ofList ((c.entries e).flatMap fun key =>
          (e.bodies key).filterMap e.location?)).toList) := by
  intro w e
  exact ⟨fun key s => located_serve config rs, fun path pos n c hn hc =>
    ⟨site_of_call? hc, definitions_eq hn hc⟩⟩

section Calls

def defines (name : String) : String :=
  "\x7b\"type\":\"def\",\"name\":\"" ++ name ++ "\",\"body\":[]\x7d"

def declaresModule (name statement : String) : String :=
  "\x7b\"type\":\"module\",\"cpath\":[\"" ++ name ++ "\"],\"body\":[" ++ statement ++ "]\x7d"

def includesModule (name : String) : String :=
  "\x7b\"type\":\"include\",\"cpath\":[\"" ++ name ++ "\"]\x7d"

def redirects (name target : String) : String :=
  "\x7b\"type\":\"alias\",\"new_name\":\"" ++ name ++ "\",\"old_name\":\"" ++ target ++ "\"\x7d"

def callsSelf (name : String) : String :=
  "\x7b\"type\":\"call\",\"recv\":null,\"name\":\"" ++ name ++ "\",\"args\":[],\"span\":\x7b" ++
    "\"start\":\x7b\"line\":0,\"column\":0\x7d,\"end\":\x7b\"line\":0,\"column\":1\x7d\x7d\x7d"

def callsIncluded : List Request :=
  [writing "m" (declaresModule "M" (defines "f")), writing "o" (includesModule "M"),
    writing "a" (redirects "g" "f"), writing "c" (callsSelf "g")]

/-- Both walks come to the body in the module. -/
theorem definitions_included :
    let w := serve {} callsIncluded
    let e := w.engine
    ∃ n c, w.nodeAt? "c" {} = some n ∧ w.call? n.id = some c ∧
      w.definitions "c" {} = (OrderedSet.ofList ((c.entries e).flatMap fun key =>
        (e.bodies key).filterMap e.location?)).toList ∧
      w.definitions "c" {} = [⟨"m", {}⟩] := by
  have hplain : let w := serve {} callsIncluded
      let e := w.engine
      w.definitions "c" {} = [⟨"m", {}⟩] ∧
      ∃ n ∈ w.nodeAt? "c" {}, ∃ c ∈ w.call? n.id, ∀ t ∈ e.typesAt c.recv,
        ∀ side ∈ Side.ofType? t,
        (∀ stop ∈ e.world.stops side.1, stop.2 = true →
          (e.world.get stop.1.module).included = []) ∧
        ∀ stop ∈ e.world.stops side.1,
          ∀ m ∈ ((e.world.get stop.1.module).methods.get stop.1.singleton).values,
            m.aliasTarget.isSome = true → m.exists? = false := by
    rw [serve_eq]
    decide +kernel
  obtain ⟨-, hfollow⟩ := definitions_follow_dispatch {} callsIncluded
  generalize serve {} callsIncluded = w at hplain hfollow ⊢
  obtain ⟨hanswer, n, hn, c, hc, hplain⟩ := hplain
  refine ⟨n, c, hn, hc, (hfollow "c" {} n c hn hc).2 fun t ht side hside => ?_, hanswer⟩
  obtain ⟨hinner, halias⟩ := hplain t ht side hside
  exact .of_plain hinner halias c.name

def callsAstray : List Request :=
  [writing "n" (declaresModule "N" (defines "f")),
    writing "m" (declaresModule "M" (includesModule "N")), writing "o" (includesModule "M"),
    writing "g" (defines "g"), writing "h" (defines "h"), writing "a" (redirects "g" "h"),
    writing "c" (callsSelf "f"), writing "d" (callsSelf "g")]

def Workspace.reached (w : Workspace) (path : String) (pos : Pos) : List Location :=
  (((w.nodeAt? path pos).bind fun n => w.call? n.id).map fun c =>
    (c.entries w.engine).flatMap fun key =>
      (w.engine.bodies key).filterMap w.engine.location?).getD []

/-- The body of `f` is not found, and for `g` the one is that a call never reaches. -/
theorem definitions_astray :
    let w := serve {} callsAstray
    (ofConfig {}).accepts callsAstray = true ∧
      (w.definitions "c" {}, w.reached "c" {}) = ([], [⟨"n", {}⟩]) ∧
      (w.definitions "d" {}, w.reached "d" {}) = ([⟨"g", {}⟩], [⟨"h", {}⟩]) := by
  rw [accepts_eq, ofConfig_eq, serve_eq]
  decide +kernel

end Calls

end TypeFlow
