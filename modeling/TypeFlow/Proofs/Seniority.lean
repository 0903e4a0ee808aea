import TypeFlow.Proofs.Teardown
import TypeFlow.Workspace.Report

/-!
# Seniority among definitions

The oldest declaration decides what a module is, inclusions are searched in the order in which they
were made, and of several aliases the oldest counts. A definition that is handed over to a new
version keeps its place in these lists, and one that is made anew goes to the end. So after an
update the definitions that the new version took over stand before those that it made, whatever
their order in the text.
-/

set_option autoImplicit false

namespace TypeFlow

open State

abbrev Stamp := DefOrigin × Registration

/-- The lists in which older definitions go before younger ones. -/
inductive Rank where
  | declarations (m : ModuleId)
  | inclusions (m : ModuleId)
  | aliases (key : MemberKey)

namespace World

def ranked (w : World) : Rank → List Stamp
  | .declarations m => (w.get m).decls.keys.map fun o => (o, .module m)
  | .inclusions m => (w.get m).includes.keys.map fun k => (k.1, .inclusion m k.2)
  | .aliases key => (w.origins (.alias key)).map fun o => (o, .alias key)

variable {w w' : World} {q : Rank} {x : Stamp}

theorem mem_origins_of_ranked (h : x ∈ w.ranked q) : x.1 ∈ w.origins x.2 := by
  cases q with
  | declarations | aliases =>
    obtain ⟨o, ho, rfl⟩ := List.mem_map.1 h
    exact ho
  | inclusions m =>
    obtain ⟨k, hk, rfl⟩ := List.mem_map.1 h
    exact mem_origins_inclusion.2 hk

theorem Agrees.ranked (h : Agrees w w') (q : Rank) : w'.ranked q = w.ranked q := by
  cases q with
  | declarations m => simp only [World.ranked, (h.akin m).decls]
  | inclusions m => simp only [World.ranked, (h.akin m).includes]
  | aliases key => exact congrArg (List.map _) ((h.akin key.side.module).origins (.alias key))

theorem origins_modifyAliases (w : World) (key : MemberKey)
    (f : OrderedMap DefOrigin String → OrderedMap DefOrigin String) :
    let w' := w.modifyMethod key fun m => { m with aliases := f m.aliases }
    w'.origins (.alias key) = w.origins (.alias key) ∨
      ∃ t : OrderedMap DefOrigin String, w.origins (.alias key) = t.keys ∧
        w'.origins (.alias key) = (f t).keys := by
  intro w'
  by_cases hk : w.Knows key.side.module
  · refine .inr ⟨((w.method? key).getD {}).aliases, ?_, ?_⟩
    · show ((w.method? key).map fun m => m.aliases.keys).getD [] = _
      cases w.method? key <;> rfl
    · show ((World.modify w _ _).get key.side.module).origins (.alias key) = _
      rw [get_modify, if_pos ⟨rfl, hk⟩]
      simp only [Module.origins, Sided.get_modify, OrderedMap.get?_upsert, if_true,
        Option.map_some, Option.getD_some]
      rfl
  · refine .inl ?_
    show ((World.modify w _ _).get key.side.module).origins (.alias key) = _
    rw [get_modify, if_neg fun h => hk h.2]
    rfl

end World

namespace Engine

open World

section Ranked

variable (e : Engine) (q : Rank)

theorem ranked_enter (origin : DefOrigin) (entry : Entry) :
    (e.enter origin entry).world.ranked q = e.world.ranked q ∨
      (e.enter origin entry).world.ranked q =
        e.world.ranked q ++ [(origin, entry.registration)] := by
  cases q with
  | declarations m =>
    simp only [World.ranked]
    rcases decls_enter e origin m entry with hsame | ⟨decl, rfl, hdecls⟩
    · exact .inl (by rw [hsame])
    · rw [hdecls, OrderedMap.keys_insert]
      split
      · exact .inl rfl
      · exact .inr (by rw [List.map_append]; rfl)
  | inclusions m =>
    simp only [World.ranked]
    rcases includes_enter e origin m entry with hsame | ⟨target, args, rfl, hincludes⟩
    · exact .inl (by rw [hsame])
    · rw [hincludes, OrderedMap.keys_insert]
      split
      · exact .inl rfl
      · exact .inr (by rw [List.map_append]; rfl)
  | aliases key =>
    simp only [World.ranked]
    by_cases hr : entry.registration = .alias key
    · cases entry with
      | «alias» key' target =>
        cases hr
        have hworld : (e.enter origin (.alias key target)).world = e.world.modifyMethod key
            fun m => { m with aliases := m.aliases.insert origin target } := by
          show (Engine.scheduleCallsites _ key).world = _
          rw [Engine.scheduleCallsites, world_scheduleAll]
          rfl
        rw [hworld]
        rcases origins_modifyAliases e.world key (·.insert origin target) with hsame | ⟨t, ht, ht'⟩
        · exact .inl (by rw [hsame])
        · rw [ht, ht', OrderedMap.keys_insert]
          split
          · exact .inl rfl
          · exact .inr (by rw [List.map_append]; rfl)
      | _ => cases hr
    · exact .inl (by rw [(revises_enter e origin entry).origins _ (Ne.symm hr)])

theorem ranked_unregister (origin : DefOrigin) (r : Registration) :
    (e.unregister origin r).world.ranked q =
      (e.world.ranked q).filter fun x => decide (x ≠ (origin, r)) := by
  have hsame : (e.unregister origin r).world.ranked q = e.world.ranked q →
      (e.unregister origin r).world.ranked q =
        (e.world.ranked q).filter fun x => decide (x ≠ (origin, r)) := fun h => by
    refine h.trans (List.filter_eq_self.2 fun x hx => ?_).symm
    have hmem := mem_origins_unregister (mem_origins_of_ranked (h ▸ hx))
    exact decide_eq_true fun hx' => hmem.2 ⟨congrArg Prod.fst hx', congrArg Prod.snd hx'⟩
  cases q with
  | declarations m =>
    rcases decls_unregister e origin m r with h | ⟨rfl, h⟩
    · exact hsame (by simp only [World.ranked, h])
    · simp only [World.ranked, h, OrderedMap.keys_erase, List.filter_map]
      congr 1
      exact List.filter_congr fun o _ => by simp
  | inclusions m =>
    rcases includes_unregister e origin m r with h | ⟨target, rfl, h⟩
    · exact hsame (by simp only [World.ranked, h])
    · simp only [World.ranked, h, OrderedMap.keys_erase, List.filter_map]
      congr 1
      exact List.filter_congr fun k _ => by simp [Prod.ext_iff]
  | aliases key =>
    by_cases hr : r = .alias key
    · subst hr
      have hworld : (e.unregister origin (.alias key)).world = e.world.modifyMethod key
          fun m => { m with aliases := m.aliases.erase origin } := by
        show (Engine.scheduleCallsites _ key).world = _
        rw [Engine.scheduleCallsites, world_scheduleAll]
        rfl
      rcases origins_modifyAliases e.world key (·.erase origin) with h | ⟨t, ht, ht'⟩
      · exact hsame (by simp only [World.ranked, hworld, h])
      · simp only [World.ranked, hworld, ht, ht', OrderedMap.keys_erase, List.filter_map]
        congr 1
        exact List.filter_congr fun o _ => by simp
    · exact hsame (by simp only [World.ranked, (revises_unregister e origin r).origins _
        (Ne.symm hr)])

theorem ranked_rekey (old new : DefOrigin) (r : Registration) :
    (e.rekey old new r).world.ranked q =
      (e.world.ranked q).map fun x => if x = (old, r) then (new, r) else x := by
  have hsame : (e.rekey old new r).world.ranked q = e.world.ranked q →
      (e.rekey old new r).world.ranked q =
        (e.world.ranked q).map fun x => if x = (old, r) then (new, r) else x := fun h => by
    refine h.trans ((List.map_congr_left fun x hx => ?_).trans (List.map_id _)).symm
    split
    · next hx' =>
      rcases mem_origins_rekey (mem_origins_of_ranked (h ▸ hx)) with ⟨-, hne⟩ | ⟨ho, -⟩
      · exact absurd ⟨congrArg Prod.fst hx', congrArg Prod.snd hx'⟩ hne
      · exact Prod.ext ho.symm (congrArg Prod.snd hx').symm
    · rfl
  cases q with
  | declarations m =>
    rcases decls_rekey e old m new r with h | ⟨rfl, h⟩
    · exact hsame (by simp only [World.ranked, h])
    · simp only [World.ranked, h, OrderedMap.keys_rekey, List.map_map]
      refine List.map_congr_left fun o _ => ?_
      by_cases ho : o = old <;> simp [ho]
  | inclusions m =>
    rcases includes_rekey e old m new r with h | ⟨target, rfl, h⟩
    · exact hsame (by simp only [World.ranked, h])
    · simp only [World.ranked, h, OrderedMap.keys_rekey, List.map_map]
      refine List.map_congr_left fun k _ => ?_
      by_cases hk : k = (old, target)
      · simp [hk]
      · have hne : ¬(k.1 = old ∧ k.2 = target) := fun h => hk (Prod.ext h.1 h.2)
        simp [hk, hne]
  | aliases key =>
    by_cases hr : r = .alias key
    · subst hr
      rcases origins_modifyAliases e.world key (·.rekey old new) with h | ⟨t, ht, ht'⟩
      · exact hsame (congrArg (List.map _) h)
      · have hworld : (e.rekey old new (.alias key)).world.origins (.alias key) =
            (t.rekey old new).keys := ht'
        simp only [World.ranked, hworld, ht, OrderedMap.keys_rekey, List.map_map]
        refine List.map_congr_left fun o _ => ?_
        by_cases ho : o = old <;> simp [ho]
    · exact hsame (by simp only [World.ranked, (revises_rekey e old new r).origins _ (Ne.symm hr)])

end Ranked

theorem ranked_adoptNode {e : Engine} {old : NodeId} {record : NodeRecord} {new : Node}
    (hr : e.record? old = some record) (hne : old ≠ new.id)
    (hsigned : ∀ r, .node old ∈ e.world.origins r → r ∈ record.registrations) (path : String)
    (rename : NodeId → NodeId) (q : Rank) :
    (e.adoptNode path rename new old).world.ranked q = (e.world.ranked q).map fun x =>
      if x.1 = .node old then (.node new.id, x.2) else x := by
  have hfold : ∀ (regs : List Registration) (e : Engine),
      (regs.foldl (fun e r => e.rekey (.node old) (.node new.id) r) e).world.ranked q =
        (e.world.ranked q).map fun x =>
          if x.1 = .node old ∧ x.2 ∈ regs then (.node new.id, x.2) else x := by
    intro regs
    induction regs with
    | nil => intro e; simp
    | cons reg regs ih =>
      intro e
      rw [List.foldl_cons, ih, ranked_rekey, List.map_map]
      refine List.map_congr_left fun x _ => ?_
      obtain ⟨o, r⟩ := x
      by_cases ho : o = .node old
      · subst ho
        by_cases hreg : r = reg
        · simp [hreg, Ne.symm hne]
        · simp [hreg]
      · simp [ho]
  obtain ⟨e0, hworld, he⟩ := exists_world_adoptNode hr path rename new
  rw [he, hfold, hworld]
  refine List.map_congr_left fun x hx => ?_
  by_cases ho : x.1 = .node old
  · rw [if_pos ⟨ho, hsigned x.2 (ho ▸ mem_origins_of_ranked hx)⟩, if_pos ho]
  · rw [if_neg fun h => ho h.1, if_neg ho]

end Engine

namespace Event

def pass : Event → DefOrigin → DefOrigin
  | .adopt new old, o => if o = .node old then .node new else o
  | _, o => o

def passAll (es : List Event) (x : Stamp) : Stamp :=
  (es.foldl (fun o ev => ev.pass o) x.1, x.2)

theorem passAll_snoc (es : List Event) (ev : Event) (x : Stamp) :
    passAll (es ++ [ev]) x = (ev.pass (passAll es x).1, x.2) := by
  simp [passAll]

end Event

namespace State

open Event

variable {s s' : State} {n : NodeId}

structure Dated (es : List Event) (s : State) : Prop where
  opened : ∀ n, s.progress.Opens n → .start n ∈ es
  lifted : ∀ n r, s.progress.lifted = some (n, r) → .drop n ∈ es

variable {w : World} {q : Rank} {es ev : List Event}

theorem Dated.move (h : s.Dated es) (hm : Move s s') (hlog : s'.progress.log =
    s.progress.log ++ ev) :
    s'.Dated (es ++ ev) where
  opened n hn := by
    rcases hm.opens hn with hold | hnew
    · exact List.mem_append_left _ (h.opened n hold)
    · rw [List.append_cancel_left (hlog.symm.trans hnew)]
      exact List.mem_append_right _ (List.mem_singleton_self _)
  lifted n r hr := by
    rcases hm.lifts hr with ⟨r0, hold, -⟩ | ⟨-, hnew⟩
    · exact List.mem_append_left _ (h.lifted n r0 hold)
    · rw [List.append_cancel_left (hlog.symm.trans hnew)]
      exact List.mem_append_right _ (List.mem_singleton_self _)

end State

namespace World

def Ordered (w : World) (q : Rank) (es : List Event) (w' : World) : Prop :=
  ∃ (gone : Stamp → Bool) (made : List Stamp),
    w'.ranked q = ((w.ranked q).map (Event.passAll es)).filter (fun x => !gone x) ++ made ∧
      (∀ x, gone x = true → ∃ n, x.1 = .node n ∧ .drop n ∈ es) ∧
      ∀ x ∈ made, ∃ n, x.1 = .node n ∧ .start n ∈ es

namespace Ordered

variable {w w1 w2 : World} {q : Rank} {es ev : List Event}

theorem refl (w : World) (q : Rank) : Ordered w q [] w :=
  ⟨fun _ => false, [], by simp [show Event.passAll [] = id from rfl], fun _ h => (by cases h),
    fun _ h => absurd h List.not_mem_nil⟩

theorem extend (h : Ordered w q es w1) (hpass : Event.passAll (es ++ ev) = Event.passAll es)
    {more : List Stamp} (hmore : ∀ x ∈ more, ∃ n, x.1 = .node n ∧ .start n ∈ es)
    (hranked : w2.ranked q = w1.ranked q ++ more) : Ordered w q (es ++ ev) w2 := by
  obtain ⟨gone, made, heq, hgone, hmade⟩ := h
  refine ⟨gone, made ++ more, ?_, fun x hx => ?_, fun x hx => ?_⟩
  · rw [hranked, heq, List.append_assoc, hpass]
  · obtain ⟨n, hn, hdrop⟩ := hgone x hx
    exact ⟨n, hn, List.mem_append_left _ hdrop⟩
  · obtain ⟨n, hn, hstart⟩ := (List.mem_append.1 hx).elim (hmade x) (hmore x)
    exact ⟨n, hn, List.mem_append_left _ hstart⟩

theorem withdraw (h : Ordered w q es w1) {n : NodeId} (hn : .drop n ∈ es) (r : Registration)
    (hranked : w2.ranked q = (w1.ranked q).filter fun x => decide (x ≠ (.node n, r))) :
    Ordered w q es w2 := by
  obtain ⟨gone, made, heq, hgone, hmade⟩ := h
  refine ⟨fun x => gone x || decide (x = (.node n, r)),
    made.filter fun x => decide (x ≠ (.node n, r)), ?_, fun x hx => ?_,
    fun x hx => hmade x (List.mem_of_mem_filter hx)⟩
  · rw [hranked, heq, List.filter_append, List.filter_filter]
    congr 1
    exact List.filter_congr fun x _ => by simp [Bool.and_comm]
  · rcases Bool.or_eq_true_iff.1 hx with hx | hx
    · exact hgone x hx
    · exact ⟨n, congrArg Prod.fst (of_decide_eq_true hx), hn⟩

theorem handOver (h : Ordered w q es w1) {new old : NodeId} (hdrop : ∀ n, .drop n ∉ es)
    (hold : .start old ∉ es)
    (hranked : w2.ranked q = (w1.ranked q).map fun x =>
      if x.1 = .node old then (.node new, x.2) else x) :
    Ordered w q (es ++ [.adopt new old]) w2 := by
  obtain ⟨gone, made, heq, hgone, hmade⟩ := h
  have hnone : ∀ x, gone x = false := fun x => by
    by_contra hx
    obtain ⟨n, -, hn⟩ := hgone x (Bool.eq_true_of_not_eq_false hx)
    exact hdrop n hn
  refine ⟨gone, made, ?_, fun x hx => absurd ((hnone x).symm.trans hx) (by decide), fun x hx => ?_⟩
  · simp only [hnone, Bool.not_false, List.filter_true] at heq ⊢
    rw [hranked, heq, List.map_append, List.map_map]
    congr 1
    · refine List.map_congr_left fun x _ => ?_
      rw [Event.passAll_snoc]
      show (if (Event.passAll es x).1 = .node old then _ else _) =
        (if (Event.passAll es x).1 = .node old then .node new else (Event.passAll es x).1, x.2)
      split <;> rfl
    · refine (List.map_congr_left fun x hx => ?_).trans (List.map_id _)
      obtain ⟨n, hn, hstart⟩ := hmade x hx
      refine if_neg fun hx' => hold ?_
      rw [hn] at hx'
      cases hx'
      exact hstart
  · obtain ⟨n, hn, hstart⟩ := hmade x hx
    exact ⟨n, hn, List.mem_append_left _ hstart⟩

end Ordered

end World

namespace Event

theorem passAll_snoc_of_ne {ev : Event} (h : ∀ new old, ev ≠ .adopt new old) (es : List Event) :
    passAll (es ++ [ev]) = passAll es := by
  funext x
  rw [passAll_snoc]
  cases ev with
  | adopt new old => exact absurd rfl (h new old)
  | start | drop | sweep | spill => rfl

def Orderly (es : List Event) : Prop := ∀ before new old, before ++ [.adopt new old] <+: es →
  (∀ n, .drop n ∉ before) ∧ .start old ∉ before

end Event

namespace State

open World

variable {s s' : State} {w : World} {q : Rank} {es ev : List Event}

theorem ordered_move (h : Ordered w q es s.engine.world) (hd : s.Dated es) (hm : Move s s')
    (hsigned : s.Signed) (hk : s.Kept) (hc : s'.Called)
    (hlog : s'.progress.log = s.progress.log ++ ev) (ho : Event.Orderly (es ++ ev)) :
    Ordered w q (es ++ ev) s'.engine.world := by
  have ha := hm.amends
  rw [hlog] at ha
  generalize s'.engine = e', hnew : s.progress.log ++ ev = log at ha ⊢
  cases ha with
  | upholds hup hstay =>
    have hpass : Event.passAll (es ++ ev) = Event.passAll es := by
      rcases hstay with hsame | ⟨event, hone, hne⟩
      · rw [List.append_right_eq_self.1 (hnew.trans hsame), List.append_nil]
      · rw [List.append_cancel_left (hnew.trans hone), Event.passAll_snoc_of_ne hne]
    exact h.extend hpass  (fun _ hx => absurd hx List.not_mem_nil)
      (by rw [hup.world.ranked, List.append_nil])
  | @define n hn entry =>
    rw [List.append_right_eq_self.1 hnew]
    have hpass : Event.passAll (es ++ []) = Event.passAll es := by rw [List.append_nil]
    rcases Engine.ranked_enter s.engine q (.node n) entry with hsame | hmore
    · exact h.extend hpass  (fun _ hx => absurd hx List.not_mem_nil)
        (hsame.trans (List.append_nil _).symm)
    · refine h.extend hpass (fun x hx => ?_) hmore
      rw [List.mem_singleton.1 hx]
      exact ⟨n, rfl, hd.opened n hn⟩
  | @unregister n record hl r =>
    rw [List.append_right_eq_self.1 hnew, List.append_nil]
    exact h.withdraw (hd.lifted n record hl) r (Engine.ranked_unregister s.engine q (.node n) r)
  | adopt hl path rename new old =>
    obtain rfl := List.append_cancel_left hnew
    obtain ⟨hdrop, hold⟩ := ho es new.id old (List.prefix_refl _)
    refine h.handOver hdrop hold ?_
    obtain ⟨⟨record, hrecord⟩, hfree⟩ := hk.adopt hc hlog
    refine Engine.ranked_adoptNode hrecord (fun he => ?_) (fun r hr => ?_) path rename q
    · cases hrecord.symm.trans (he ▸ hfree)
    obtain ⟨x, hholds, hreg⟩ := hsigned r old hr
    rcases hholds with hx | hlifted
    · rwa [Option.some.inj (hrecord.symm.trans hx)]
    · cases hl.symm.trans hlifted

theorem ordered_moves (hm : Moves s s') (hk : s.Kept) (hsigned : s.Signed) (hd : s.Dated [])
    (hc : s'.Called) (hlog : s'.progress.log = s.progress.log ++ es) (ho : Event.Orderly es)
      (q : Rank) :
    s'.Dated es ∧ Ordered s.engine.world q es s'.engine.world := by
  induction hm generalizing es with
  | refl =>
    rw [List.append_right_eq_self.1 hlog.symm]
    exact ⟨hd, .refl _ q⟩
  | @tail s1 s2 hfirst hlast ih =>
    obtain ⟨es1, hes1⟩ := Moves.log hfirst
    obtain ⟨ev, hev⟩ := hlast.log
    obtain rfl : es = es1 ++ ev := by
      rw [hev, hes1, List.append_assoc] at hlog
      exact (List.append_cancel_left hlog).symm
    have hc1 := hlast.called hc
    obtain ⟨hd1, hordered⟩ := ih hc1 hes1 fun before new old hpre =>
      ho before new old (hpre.trans (List.prefix_append _ _))
    have hsigned1 : s1.Signed :=
      Moves.preserve (fun _ _ hk hc hm h => h.move hm hk hc) hfirst hk hc1 hsigned
    exact ⟨hd1.move hlast hev, ordered_move hordered hd1 hlast hsigned1 (hk.moves hfirst) hc hev ho⟩

end State

namespace Node

variable {reuse : Pairing} {tree : Node} {n : NodeId}

def heir? (reuse : Pairing) (tree : Node) (n : NodeId) : Option NodeId :=
  tree.ids.find? fun i => decide (reuse.old? i = some n)

theorem foldl_pass_of_ne {ids : List NodeId} (h : ∀ i ∈ ids, reuse.old? i ≠ some n) :
    (ids.map (succession reuse)).foldl (fun o ev => ev.pass o) (.node n) = .node n := by
  induction ids with
  | nil => rfl
  | cons i ids ih =>
    have hstay : (succession reuse i).pass (.node n) = .node n := by
      unfold succession
      cases ho : reuse.old? i with
      | none => rfl
      | some old =>
        have hne : n ≠ old := fun he => h i List.mem_cons_self (he ▸ ho)
        exact if_neg fun he => hne (DefOrigin.node.inj he)
    rw [List.map_cons, List.foldl_cons, hstay]
    exact ih fun j hj => h j (List.mem_cons_of_mem _ hj)

theorem foldl_pass_succession {ids : List NodeId}
    (h : ∀ i ∈ ids, ∀ o, reuse.old? i = some o → o ∉ ids) :
    (ids.map (succession reuse)).foldl (fun o ev => ev.pass o) (.node n) =
      .node ((ids.find? fun i => decide (reuse.old? i = some n)).getD n) := by
  induction ids with
  | nil => rfl
  | cons i ids ih =>
    have hrest : ∀ j ∈ ids, ∀ o, reuse.old? j = some o → o ∉ ids := fun j hj o ho hmem =>
      h j (List.mem_cons_of_mem _ hj) o ho (List.mem_cons_of_mem _ hmem)
    rw [List.map_cons, List.foldl_cons]
    by_cases hi : reuse.old? i = some n
    · have hgo : (succession reuse i).pass (.node n) = .node i := by
        unfold succession
        rw [hi]
        exact if_pos rfl
      rw [hgo, List.find?_cons_of_pos (by simpa using hi)]
      exact foldl_pass_of_ne fun j hj hold =>
        h j (List.mem_cons_of_mem _ hj) i hold List.mem_cons_self
    · have hstay : (succession reuse i).pass (.node n) = .node n := by
        have hone : ([i].map (succession reuse)).foldl (fun o ev => ev.pass o) (.node n) =
          .node n :=
          foldl_pass_of_ne fun j hj => List.mem_singleton.1 hj ▸ hi
        exact hone
      rw [hstay, List.find?_cons_of_neg (by simpa using hi)]
      exact ih hrest

theorem succession_ne_drop (i n : NodeId) : succession reuse i ≠ .drop n := by
  unfold succession
  cases reuse.old? i <;> exact Event.noConfusion

theorem heir?_spec {i : NodeId} (h : tree.heir? reuse n = some i) :
    i ∈ tree.ids ∧ reuse.old? i = some n :=
  ⟨List.mem_of_find?_eq_some h, by simpa using List.find?_some h⟩

structure Replaces (reuse : Pairing) (tree : Node) (before : Option Node) : Prop where
  closed : Closed reuse tree
  old : ∀ i o, reuse.old? i = some o → o ∈ idsAll before.toList
  apart : ∀ i ∈ idsAll before.toList, i ∉ tree.ids

namespace Replaces

variable {before : Option Node}

theorem not_mem_rest {ev : Event} (h : ∀ n, ev ≠ .drop n) (hs : ev ≠ .sweep) (before : Option Node)
    :
    ev ∉ before.elim [] drops ++ [.sweep] := by
  cases before with
  | none => simpa using hs
  | some tree =>
    intro hev
    rcases List.mem_append.1 hev with hev | hev
    · obtain ⟨n, -, hn⟩ := List.mem_map.1 hev
      exact h n hn.symm
    · exact hs (List.mem_singleton.1 hev)

theorem mem_of_start (h : Replaces reuse tree before) (hn : .start n ∈ turnover reuse tree before) :
    n ∈ tree.ids ∧ reuse.old? n = none := by
  have hrest : .start n ∉ before.elim [] drops ++ [.sweep] :=
    not_mem_rest (fun _ => Event.noConfusion) Event.noConfusion before
  have hmem := (List.mem_append.1 hn).resolve_right hrest
  rw [events_eq h.closed] at hmem
  obtain ⟨i, hi, hs⟩ := List.mem_map.1 hmem
  unfold succession at hs
  cases ho : reuse.old? i with
  | none =>
    rw [ho] at hs
    cases hs
    exact ⟨hi, ho⟩
  | some old =>
    rw [ho] at hs
    cases hs

theorem mem_of_drop (h : Replaces reuse tree before) (hn : .drop n ∈ turnover reuse tree before) :
    n ∈ idsAll before.toList := by
  rcases List.mem_append.1 hn with hmem | hmem
  · rw [events_eq h.closed] at hmem
    obtain ⟨i, -, hi⟩ := List.mem_map.1 hmem
    exact absurd hi (succession_ne_drop i n)
  · cases before with
    | none => simp at hmem
    | some old => simpa [drops, idsAll] using hmem

theorem orderly (h : Replaces reuse tree before) : Event.Orderly (turnover reuse tree before) := by
  intro front new old hpre
  have hrest : .adopt new old ∉ before.elim [] drops ++ [.sweep] :=
    not_mem_rest (fun _ => Event.noConfusion) Event.noConfusion before
  -- the event is one of the installation, and so are those before it
  have hinstall : front ++ [.adopt new old] <+: tree.events reuse := by
    obtain ⟨behind, hbehind⟩ := hpre
    rcases List.append_eq_append_iff.1 hbehind with ⟨tail, htail, -⟩ | ⟨tail, htail, hin⟩
    · exact ⟨tail, htail.symm⟩
    · cases tail using List.reverseRecOn with
      | nil => exact ⟨[], by rw [htail, List.append_nil, List.append_nil]⟩
      | append_singleton tail last =>
        rw [← List.append_assoc] at htail
        cases (List.append_inj' htail rfl).2
        refine absurd ?_ hrest
        rw [hin]
        exact List.mem_append_left _ (List.mem_append_right _ (List.mem_singleton_self _))
  refine ⟨fun n hn => ?_, fun hstart => ?_⟩
  · have hmem := hinstall.subset (List.mem_append_left _ hn)
    rw [events_eq h.closed] at hmem
    obtain ⟨i, -, hi⟩ := List.mem_map.1 hmem
    exact succession_ne_drop i n hi
  · have hnew := (h.mem_of_start (List.mem_append_left _
      (hinstall.subset (List.mem_append_left _ hstart)))).1
    have hmem := hinstall.subset (List.mem_append_right _ (List.mem_singleton_self _))
    rw [events_eq h.closed] at hmem
    obtain ⟨i, -, hi⟩ := List.mem_map.1 hmem
    unfold succession at hi
    cases ho : reuse.old? i with
    | none =>
      rw [ho] at hi
      cases hi
    | some o =>
      rw [ho] at hi
      cases hi
      exact h.apart old (h.old new old ho) hnew

theorem foldl_pass (h : Replaces reuse tree before) (o : DefOrigin) :
    (turnover reuse tree before).foldl (fun o ev => ev.pass o) o = match o with
      | .builtin => .builtin
      | .node n => .node ((tree.heir? reuse n).getD n) := by
  have hrest : ∀ es : List Event, (∀ ev ∈ es, ∀ new old, ev ≠ .adopt new old) → ∀ o,
      es.foldl (fun o ev => ev.pass o) o = o := by
    intro es
    induction es with
    | nil => exact fun _ _ => rfl
    | cons ev es ih =>
      intro hne o
      have hstay : ev.pass o = o := by
        cases ev with
        | adopt new old => exact absurd rfl (hne _ List.mem_cons_self new old)
        | start | drop | sweep | spill => rfl
      rw [List.foldl_cons, hstay]
      exact ih (fun ev hev => hne ev (List.mem_cons_of_mem _ hev)) o
  have hlast : ∀ ev ∈ before.elim [] drops ++ [.sweep], ∀ new old, ev ≠ .adopt new old := by
    rintro ev hev new old rfl
    exact not_mem_rest (fun _ => Event.noConfusion) Event.noConfusion before hev
  rw [turnover, List.foldl_append, hrest _ hlast, events_eq h.closed]
  cases o with
  | builtin =>
    dsimp only
    induction tree.ids with
    | nil => rfl
    | cons i ids ih =>
      rw [List.map_cons, List.foldl_cons]
      unfold succession at ih ⊢
      cases reuse.old? i <;> exact ih
  | node n => exact foldl_pass_succession fun i _ old ho => h.apart old (h.old i old ho)

end Replaces

end Node

def Stamp.carried (reuse : Node.Pairing) (tree : Node) (before : Option Node) (x : Stamp) :
    Option Stamp :=
  match x.1 with
  | .builtin => some x
  | .node n =>
    if n ∈ Node.idsAll before.toList then (tree.heir? reuse n).map fun i => (.node i,
      x.2) else some x

namespace Node.Replaces

open World

variable {reuse : Pairing} {tree : Node} {before : Option Node} {w w' : World} {q : Rank}

/-- What has the name of an old node in the end had no heir; all else is carried on. -/
theorem carried_eq (h : Replaces reuse tree before) (x : Stamp) :
    ((∃ n ∈ idsAll before.toList, (Event.passAll (turnover reuse tree before) x).1 = .node n) →
      Stamp.carried reuse tree before x = none) ∧
    ((¬∃ n ∈ idsAll before.toList, (Event.passAll (turnover reuse tree before) x).1 = .node n) →
      Stamp.carried reuse tree before x = some (Event.passAll (turnover reuse tree before) x)) := by
  obtain ⟨o, r⟩ := x
  unfold Stamp.carried Event.passAll
  dsimp only
  rw [h.foldl_pass]
  cases o with
  | builtin => simp
  | node n =>
    dsimp only
    rcases hheir : tree.heir? reuse n with _ | i
    · simp +contextual
    · obtain ⟨hi, hold⟩ := heir?_spec hheir
      have hnew : i ∉ idsAll before.toList := fun hmem => h.apart i hmem hi
      simp [h.old i n hold, hnew]

/-- When nothing is left of the tree before, its definitions were handed over or withdrawn. -/
theorem ranked (h : Replaces reuse tree before) (ho : Ordered w q (turnover reuse tree before) w')
    (hleft : ∀ n ∈ idsAll before.toList, ∀ r, .node n ∉ w'.origins r) :
    ∃ made, w'.ranked q = (w.ranked q).filterMap (Stamp.carried reuse tree before) ++ made ∧
      ∀ x ∈ made, ∃ n ∈ tree.ids, reuse.old? n = none ∧ x.1 = .node n := by
  obtain ⟨gone, made, hranked, hgone, hmade⟩ := ho
  -- a definition is withdrawn if and only if its node belongs to the tree before
  have hgone' : ∀ x ∈ (w.ranked q).map (Event.passAll (turnover reuse tree before)),
      (gone x = true ↔ ∃ n ∈ idsAll before.toList, x.1 = .node n) := by
    refine fun x hx => ⟨fun hg => ?_, fun ⟨n, hn, hxn⟩ => by_contra fun hg => ?_⟩
    · obtain ⟨n, hn, hdrop⟩ := hgone x hg
      exact ⟨n, h.mem_of_drop hdrop, hn⟩
    · refine hleft n hn x.2 (hxn ▸ mem_origins_of_ranked (q := q) ?_)
      rw [hranked]
      exact List.mem_append_left _ (List.mem_filter.2 ⟨hx, by simpa using hg⟩)
  refine ⟨made, ?_, fun x hx => ?_⟩
  · rw [hranked]
    congr 1
    rw [List.filter_map, ← List.filterMap_eq_map, ← List.filterMap_eq_filter,
      List.filterMap_filterMap]
    refine List.filterMap_congr fun x hx => ?_
    have hiff := hgone' _ (List.mem_map_of_mem hx)
    by_cases hg : gone (Event.passAll (turnover reuse tree before) x) = true
    · rw [(carried_eq h x).1 (hiff.1 hg)]
      simp [hg]
    · rw [(carried_eq h x).2 (mt hiff.2 hg)]
      simp [hg]
  · obtain ⟨n, hn, hstart⟩ := hmade x hx
    obtain ⟨hmem, hold⟩ := h.mem_of_start hstart
    exact ⟨n, hmem, hold, hn⟩

end Node.Replaces

namespace Workspace

variable {w w' : Workspace} {log log' : List Event} {path : String} {tree : Node}

theorem replaces (h : w.Fits log) (path : String) (tree : Node) :
    Node.Replaces (w.reuse path (w.numberTree tree).1) (w.numberTree tree).1 (w.tree? path) := by
  obtain ⟨-, hfresh⟩ := h.numberTree tree
  have hsteady := steady_reuse w path (w.numberTree tree).1
  refine ⟨hsteady.closed hfresh.nodup, fun i o ho => ?_, fun i hi hmem => hfresh.unused i hmem ?_⟩
  · obtain ⟨x, hx, rfl⟩ := Option.map_eq_some_iff.1 ho
    exact hsteady.old.subset (List.mem_map_of_mem (List.mem_of_find?_eq_some hx))
  · rw [← nodesAt_eq] at hi
    exact (nodesOf_perm h.paths path).mem_iff.2 (List.mem_append_left _ hi)

theorem call_turnover (h : w.Fits log) (path : String) (tree : Node) : ∃ r,
    Roll.call (log ++ (w.numberTree tree).1.turnover (w.reuse path (w.numberTree tree).1)
      (w.tree? path)) = some r ∧ ∀ n ∈ Node.idsAll (w.tree? path).toList, n ∉ r.keys := by
  obtain ⟨hfit, hfresh⟩ := h.numberTree tree
  obtain ⟨taken, Y, -, hcall⟩ := hfit.events hfresh path
  unfold Node.turnover
  rw [← List.append_assoc, ← List.append_assoc]
  cases w.tree? path with
  | none =>
    rw [Option.elim_none, List.append_nil]
    exact ⟨_, Roll.call_sweep hcall, fun n hn => absurd hn List.not_mem_nil⟩
  | some before =>
    refine ⟨_, Roll.call_sweep (Roll.call_drops hcall before), fun n hn hmem => ?_⟩
    exact (Finset.mem_sdiff.1 hmem).2 (List.mem_toFinset.2 (by simpa [Node.idsAll] using hn))

end Workspace

open Workspace

def namingOnce : String :=
  "\x7b\"type\":\"program\",\"body\":[" ++
    "\x7b\"type\":\"alias\",\"new_name\":\"f\",\"old_name\":\"initialize\"\x7d]\x7d"

def namingTwice : String :=
  "\x7b\"type\":\"program\",\"body\":[" ++
    "\x7b\"type\":\"alias\",\"new_name\":\"f\",\"old_name\":\"y\"\x7d," ++
    "\x7b\"type\":\"alias\",\"new_name\":\"f\",\"old_name\":\"initialize\"\x7d," ++
    "\x7b\"type\":\"call\",\"name\":\"f\"\x7d]\x7d"

end TypeFlow
