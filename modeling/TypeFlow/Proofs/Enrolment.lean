import TypeFlow.Proofs.Requests

/-!
# Which nodes have records

A node gets a record when it is started and loses it when it is dropped, and only then, or when
another node takes the record over. Numbering a tree gives its nodes consecutive numbers in the
order of a walk, and installing it starts the same nodes in the same order, so a walk back drops all
of them.
-/

set_option autoImplicit false

namespace TypeFlow

open State

def Event.settle (keys : List NodeId) : Event → List NodeId
  | start n => if n ∈ keys then keys else keys ++ [n]
  | drop n => keys.filter fun m => !decide (m = n)
  | adopt .. | sweep | spill => keys

namespace State

variable {s s' : State}

theorem Move.keys (hm : Move s s') :
    (∃ new old, s'.progress.log = s.progress.log ++ [.adopt new old]) ∨ ∃ es,
      s'.progress.log = s.progress.log ++ es ∧
        s'.engine.nodes.keys = es.foldl Event.settle s.engine.nodes.keys := by
  have hstay : s'.progress.log = s.progress.log → s'.engine.nodes.keys = s.engine.nodes.keys →
      ∃ es, s'.progress.log = s.progress.log ++ es ∧
        s'.engine.nodes.keys = es.foldl Event.settle s.engine.nodes.keys :=
    fun hlog hkeys => ⟨[], hlog.trans (List.append_nil _).symm, hkeys⟩
  cases hm with
  | adopt path rename new old => exact .inl ⟨_, _, rfl⟩
  | start n => exact .inr ⟨[_], rfl, OrderedMap.keys_insert ..⟩
  | lift => exact .inr ⟨[_], rfl, OrderedMap.keys_erase ..⟩
  | @miss e d n h =>
    refine .inr ⟨[_], rfl, (List.filter_eq_self.2 fun m hm => ?_).symm⟩
    have hne : m ≠ n := fun heq => OrderedMap.get?_eq_none_iff.1 h (heq ▸ hm)
    simpa using hne
  | @sweep e d => exact .inr ⟨[_], rfl, by rw [Engine.nodes_reclaim]; rfl⟩
  | breakRun | refuse => exact .inr ⟨[_], rfl, rfl⟩
  | aside h => exact .inr (hstay rfl (by rw [h.nodes]))
  | annotate | ownVertex | ownSource | closeNode =>
    exact .inr (hstay rfl (OrderedMap.keys_modify ..))
  | @define e ts d n entry =>
    refine .inr (hstay rfl ((OrderedMap.keys_modify ..).trans ?_))
    rw [(Engine.SameStock.enter e (.node n) entry).nodes]
  | installBlock =>
    exact .inr (hstay rfl ((OrderedMap.keys_modify ..).trans (OrderedMap.keys_modify ..)))
  | @unregister e d n r regs reg =>
    exact .inr (hstay rfl (by rw [(Engine.SameStock.unregister e (.node n) reg).nodes]))
  | @removeBlock e d n r =>
    exact .inr (hstay rfl (by rw [(Engine.exists_removeBlock_eq e r.block).choose_spec]))
  | @buryLifted e d n r v | @bury e ts d v =>
    exact .inr (hstay rfl (by
      dsimp only
      rw [Engine.destroyVertex, (Engine.SameStock.adoptGraph e (e.graph.destroy v)).nodes]))
  | @installEdges e ts d t =>
    exact .inr (hstay rfl (by
      dsimp only
      rw [(Engine.SameStock.installEdges ⟨e, t.effects⟩).nodes]))
  | @beginDestroy e ts d u x =>
    refine .inr (hstay rfl ?_)
    dsimp only
    rw [Engine.nodes_destroying, OrderedMap.keys_modify]
  | @placeSite e ts d t ask =>
    refine .inr (hstay rfl ?_)
    dsimp only
    rw [Engine.nodes_placeSite, OrderedMap.keys_modify]
  | _ => exact .inr (hstay rfl rfl)

/-- As long as no record is handed over, the events tell which nodes have records. -/
theorem Moves.keys (hm : Moves s s') {es : List Event} (hlog : s'.progress.log =
    s.progress.log ++ es)
    (hes : ∀ new old, .adopt new old ∉ es) :
    s'.engine.nodes.keys = es.foldl Event.settle s.engine.nodes.keys := by
  induction hm generalizing es with
  | refl =>
    rw [List.self_eq_append_right.1 hlog]
    rfl
  | tail hfirst hlast ih =>
    obtain ⟨es1, hes1⟩ := Moves.log hfirst
    rcases hlast.keys with ⟨new, old, hlast⟩ | ⟨es2, hes2, hkeys⟩
    · rw [hes1, hlog, List.append_assoc] at hlast
      exact absurd (List.append_cancel_left hlast ▸ List.mem_append_right _ List.mem_cons_self)
        (hes new old)
    · obtain rfl : es = es1 ++ es2 := by
        rw [hes1, hlog, List.append_assoc] at hes2
        exact List.append_cancel_left hes2
      rw [hkeys, ih hes1 fun new old hmem => hes new old (List.mem_append_left _ hmem),
        List.foldl_append]

end State

namespace Event

theorem foldl_settle_start (ids keys : List NodeId) (hn : ids.Nodup) :
    (ids.map start).foldl settle keys = keys ++ ids.filter fun n => n ∉ keys := by
  induction ids generalizing keys with
  | nil => exact (List.append_nil keys).symm
  | cons n ids ih =>
    obtain ⟨hnot, hn⟩ := List.nodup_cons.1 hn
    rw [List.map_cons, List.foldl_cons, ih _ hn]
    by_cases hmem : n ∈ keys
    · simp [settle, hmem]
    · have hrest : (ids.filter fun m => m ∉ keys ++ [n]) = ids.filter fun m => m ∉ keys :=
        List.filter_congr fun m hm => by
          have hne : m ≠ n := fun heq => hnot (heq ▸ hm)
          simp [hne]
      simp only [settle, if_neg hmem, hrest]
      simp [hmem]

theorem foldl_settle_drop (ids keys : List NodeId) :
    (ids.map drop).foldl settle keys = keys.filter fun n => n ∉ ids := by
  induction ids generalizing keys with
  | nil => simp
  | cons n ids ih =>
    rw [List.map_cons, List.foldl_cons, ih, settle, List.filter_filter]
    refine List.filter_congr fun m _ => ?_
    simp [Bool.and_comm]

end Event

/-- The nodes of a tree are numbered one after the other in the order of a walk. From every state
that moves lead to, installing the tree starts exactly these nodes, in this order and each once, and
uninstalling it, then or later, takes all of their records away and no others. -/
theorem numbered_tree_is_installed_and_uninstalled {config : Config} (path : String) (tree : Node)
    (k : Nat) {e : Engine} {log : List Event}
    (he : Moves ((Engine.boot config).rest []) (e.rest log)) :
    let t := (tree.number k).1
    let ids := (List.range' k tree.walk.length).map NodeId.mk
    t.walk.map Node.id = ids ∧ (tree.number k).2 = k + tree.walk.length ∧
    ∃ v e', Engine.installTree { path } t e = .ok v e' ∧
      Moves (e.rest log) (e'.rest (log ++ ids.map .start)) ∧
      e'.nodes.keys = e.nodes.keys ++ ids.filter (fun n => n ∉ e.nodes.keys) ∧
      e'.nodes.keys.Nodup ∧
      ∀ f log', Moves (e'.rest (log ++ ids.map .start)) (f.rest log') →
        ∃ f', Engine.uninstallTree t f = .ok () f' ∧
          f'.nodes.keys = f.nodes.keys.filter fun n => n ∉ ids := by
  intro t ids
  have hlength : tree.ids.length = tree.walk.length := List.length_map ..
  obtain ⟨hids, hafter⟩ := tree.ids_number k
  rw [hlength] at hids hafter
  have hkept := (Boot.kept_boot config).moves he
  have hevents : t.events [] = ids.map .start := by
    rw [Node.events_eq fun n _ hold => absurd hold (by simp [Node.Pairing.old?]), hids]
    rfl
  obtain ⟨v, e', _, hinstall, hmoves, rfl⟩ := (Engine.drives_installTree path [] t).ok hkept.sound
  rw [hevents] at hmoves
  have hkept' := hkept.moves hmoves
  have hkeys : e'.nodes.keys = _ := Moves.keys hmoves rfl fun new old hmem => by
    simp at hmem
  refine ⟨hids, hafter, v, e', hinstall, hmoves, ?_, hkept'.keysDistinct.records,
    fun f log' hf => ?_⟩
  · rw [hkeys]
    refine Event.foldl_settle_start ids _ ?_
    rw [← show t.ids = ids from hids]
    exact tree.nodup_ids_number k
  · obtain ⟨_, f', _, huninstall, hdrops, rfl⟩ :=
      (Engine.drives_uninstallTree t).ok (hkept'.moves hf).sound
    have hleft : f'.nodes.keys = _ := Moves.keys hdrops rfl fun new old hmem => by
      simp [Node.drops] at hmem
    refine ⟨f', huninstall, ?_⟩
    rw [hleft, Node.drops, show t.ids = ids from hids, Event.foldl_settle_drop]
    simp only [List.mem_reverse]
    rfl

def branchingMethod : Node :=
  let leaf (f : Form) : Node := .mk ⟨0⟩ {} f
  leaf (.methodDef "f" false (.mk [] [.mk "x" (leaf (.int 1))] none [] none)
    [leaf (.cond (leaf (.localRead "x")) [] [leaf .nil])])

theorem branchingMethod_is_installed_and_uninstalled :
    Moves ((Engine.boot {}).rest []) ((Engine.boot {}).rest []) ∧ ∃ v e' f',
      Engine.installTree { path := "a" } (branchingMethod.number 7).1 (Engine.boot {}) = .ok v e' ∧
      e'.nodes.keys = [⟨7⟩, ⟨8⟩, ⟨9⟩, ⟨10⟩, ⟨11⟩] ∧
      Engine.uninstallTree (branchingMethod.number 7).1 e' = .ok () f' ∧ f'.nodes.keys = [] := by
  obtain ⟨-, -, v, e', hinstall, -, hkeys, -, hdrop⟩ :=
    numbered_tree_is_installed_and_uninstalled "a" branchingMethod 7
      (show Moves ((Engine.boot {}).rest []) ((Engine.boot {}).rest []) from .refl)
  obtain ⟨f', huninstall, hleft⟩ := hdrop e' _ .refl
  rw [show (Engine.boot {}).nodes = {} from (Boot.stock_boot {}).nodes] at hkeys
  rw [hkeys] at hleft
  refine ⟨.refl, v, e', f', hinstall, hkeys.trans ?_, huninstall, hleft.trans ?_⟩
  · decide +kernel
  · decide +kernel

end TypeFlow
