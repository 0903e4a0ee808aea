import TypeFlow.Proofs.Succession
import TypeFlow.Workspace.Documents

/-!
# Documents come and go in moves

Tearing a tree down never fails, nor does installing one. A drain of the queue can get stuck, so
installing, replacing and restoring documents can; in every case it is known what became of records.
-/

set_option autoImplicit false

namespace TypeFlow

open State

namespace Progress

def tearing (log : List Event) (n : NodeId) (r : NodeRecord) : Progress :=
  { log, lifted := some (n, r) }

end Progress

namespace Engine

variable {e : Engine} {n : NodeId} {r : NodeRecord} {log : List Event}

section Teardown

theorem drives_dropEffects (hr : r.effects.installed.scratch = {}) :
    Drives idle Never (dropEffects n r.effects) e (.tearing log n r)
      fun _ _ d' => d' = .tearing log n { r with effects := {} } := by
  intro hs
  let d : Progress := .tearing log n { r with effects := {} }
  have hopen : Moves (e.idle (.tearing log n r))
      (Run.under (.node n) none [] d ⟨e, r.effects.discard⟩ {}) := .single (.openLifted rfl hr)
  have hinstall : Drives (Run.under (.node n) none [] d) Never (install (.node n))
      ⟨e, r.effects.discard⟩ {} _ :=
    Run.drives_installWith (w := .node n) (destroys_destroySite _) (Nat.le_refl _) rfl
  replace hinstall := hinstall (hs.moves hopen)
  revert hinstall
  unfold dropEffects
  cases install (.node n) ⟨e, r.effects.discard⟩ with
  | ok _ r' =>
    rintro ⟨b, hmoves, sites, hfx, hout, hnone⟩
    obtain ⟨rfl, -⟩ := hnone rfl
    have hdrop : Move (Run.under (.node n) none [] d r' b) (r'.engine.idle d) := by
      refine .dropNode rfl ?_ ?_ ?_ hout
      · show r'.effects.installed.edges = {}
        rw [hfx]
        rfl
      · show r'.effects.holdings = []
        rw [hfx]
        exact Effects.holdings_eq_nil.2 ⟨rfl, rfl⟩
      · show r'.effects.installed.sites = {}
        rw [hfx]
        rfl
    exact ⟨d, (hopen.trans hmoves).tail hdrop, rfl⟩
  | error f r' => exact fun ⟨_, _, hf⟩ => hf.elim

theorem drives_destroySites (sites : List SiteId) (hr : r.sites = ⟨sites⟩) :
    Drives idle Never (sites.forM destroySite) e (.tearing log n r)
      fun _ _ d' => d' = .tearing log n { r with sites := {} } := by
  induction sites generalizing e r with
  | nil =>
    refine Drives.pure ?_
    rw [← show r = { r with sites := {} } from by rw [← hr]]
  | cons s sites ih =>
    refine Drives.bind (P := fun _ _ d' => d' = .tearing log n { r with sites := ⟨sites⟩ }) ?_
      fun _ e' _ _ h => h ▸ ih rfl
    intro hs
    have hone := destroys_destroySite _ e [] (.tearing log n r) s (fun t ht => by cases ht)
      (Nat.le_refl _) hs
    revert hone
    cases destroySite s e with
    | error f e' => exact fun ⟨_, _, hf⟩ => hf.elim
    | ok _ e' =>
      rintro ⟨_, hmoves, hdead, -⟩
      refine ⟨_, hmoves.tail (.clearSite rfl ?_ hdead), rfl⟩
      rw [hr]

theorem moves_unregister (regs : List Registration) (hr : r.registrations = regs) :
    Moves (e.idle (.tearing log n r))
      ((regs.reverse.foldl (fun e reg => e.unregister (.node n) reg) e).idle
        (.tearing log n { r with registrations := [] })) := by
  induction regs using List.reverseRecOn generalizing e r with
  | nil =>
    rw [← show r = { r with registrations := [] } from by rw [← hr]]
    exact .refl
  | append_singleton regs reg ih =>
    have hone : Move (e.idle (.tearing log n r)) ((e.unregister (.node n) reg).idle
        (.tearing log n { r with registrations := regs })) := .unregister rfl hr
    rw [List.reverse_append, List.reverse_singleton, List.singleton_append, List.foldl_cons]
    exact (Relation.ReflTransGen.single hone).trans (ih rfl)

theorem moves_buryLifted (vs : List VertexId) (hr : r.vertices = vs) :
    Moves (e.idle (.tearing log n r))
      ((vs.foldl destroyVertex e).idle (.tearing log n { r with vertices := [] })) := by
  induction vs generalizing e r with
  | nil =>
    rw [← show r = { r with vertices := [] } from by rw [← hr]]
    exact .refl
  | cons v vs ih =>
    have hone : Move (e.idle (.tearing log n r))
        ((e.destroyVertex v).idle (.tearing log n { r with vertices := vs })) :=
      .buryLifted rfl rfl hr
    exact (Relation.ReflTransGen.single hone).trans (ih rfl)

theorem drives_uninstallNode (n : NodeId) :
    Drives idle Never (uninstallNode n) e { log } fun _ _ d' => d' = { log := log ++ [.drop n] } :=
      by
  refine Drives.withState fun hs => ?_
  cases hr : e.record? n with
  | none => exact fun _ => ⟨_, .single (.miss hr rfl), rfl⟩
  | some r =>
    have hscratch := hs.machine.grounded.records r (OrderedMap.mem_values_of_get? hr)
    let log' := log ++ [.drop n]
    refine Drives.bind (P := fun _ _ d' => d' = .tearing log' n r)
      (Drives.modify _ fun _ => ⟨.single (.lift hr rfl rfl rfl), rfl⟩) fun _ e1 _ _ h1 => ?_
    subst h1
    refine Drives.bind (drives_dropEffects hscratch) fun _ e2 _ _ h2 => ?_
    subst h2
    refine Drives.bind (drives_destroySites _ rfl) fun _ e3 _ _ h3 => ?_
    subst h3
    let r4 : NodeRecord := { r with effects := {}, sites := {}, registrations := [] }
    refine Drives.bind (P := fun _ _ d' => d' = .tearing log' n r4)
      (Drives.modify _ fun _ => ⟨moves_unregister _ rfl, rfl⟩) fun _ e4 _ _ h4 => ?_
    subst h4
    refine Drives.bind (P := fun _ _ d' => d' = .tearing log' n { r4 with block := none })
      (Drives.modify _ fun _ => ⟨.single (.removeBlock (r := r4) rfl), rfl⟩) fun _ e5 _ _ h5 => ?_
    subst h5
    refine Drives.modify _ fun _ => ⟨?_, rfl⟩
    exact (moves_buryLifted (r := { r4 with block := none }) r.vertices rfl).tail (.putDown rfl rfl
      rfl rfl rfl rfl)

end Teardown

variable {E : Fault → Engine → List Event → Prop}

/-- An engine at rest. -/
def rest (e : Engine) (log : List Event) : State := e.idle { log }

theorem drives_rest {α : Type} {m : EngineM α}
    {Q : α → Engine → List Event → Prop}
    (h : Drives idle (fun f e' d' => ∃ log', d' = { log := log' } ∧ E f e' log') m e { log }
      fun a e' d' => ∃ log', d' = { log := log' } ∧ Q a e' log') : Drives rest E m e log Q := by
  intro hs
  have hdone := h hs
  revert hdone
  cases m e with
  | ok a e' =>
    rintro ⟨_, hmoves, log', rfl, hq⟩
    exact ⟨log', hmoves, hq⟩
  | error f e' =>
    rintro ⟨_, hmoves, log', rfl, he⟩
    exact ⟨log', hmoves, he⟩

theorem drives_uninstallTree (tree : Node) :
    Drives rest Never (uninstallTree tree) e log fun _ _ log' => log' = log ++ tree.drops := by
  have hall : ∀ (ns : List NodeId) (e : Engine) (log : List Event),
      Drives idle Never (ns.forM uninstallNode) e { log }
        fun _ _ d' => d' = { log := log ++ ns.map .drop } := by
    intro ns
    induction ns with
    | nil => exact fun e log => Drives.pure (by rw [List.map_nil, List.append_nil])
    | cons n ns ih =>
      intro e log
      refine Drives.bind (drives_uninstallNode n) fun _ e' _ _ h => ?_
      subst h
      have hlog : log ++ (n :: ns).map .drop = (log ++ [.drop n]) ++ ns.map .drop := by simp
      rw [hlog]
      exact ih e' _
  refine drives_rest ((hall _ e log).sure.imp fun _ _ _ _ h => ⟨_, h, ?_⟩)
  unfold Node.drops Node.ids
  rfl

theorem drives_installTree (path : String) (reuse : Node.Pairing) (tree : Node) :
    Drives rest Never (installTree { path, reuse } tree) e log
      fun _ _ log' => log' = log ++ tree.events reuse := by
  intro hs
  have hplace : Place.Known { path, reuse } e.world := fun m hm => by
    rw [List.mem_singleton.1 hm]
    exact hs.machine.grounded.closed.knows_core (by decide)
  obtain ⟨v, i, _, hrun, hmoves, rfl, -⟩ := Drives.ok (Lays.install tree (i := { engine := e })
    (d := { log }) hplace ⟨fun s hmem => absurd hmem List.not_mem_nil, rfl⟩) hs
  unfold installTree
  rw [hrun]
  exact ⟨_, hmoves, rfl⟩

theorem drives_runAllAtRest (e : Engine) (log : List Event) :
    Drives rest (fun f _ => Stuck log f) runAll e log fun _ e' log' => log' = log ∧ e'.queue = .empty :=
  drives_rest ((drives_runAll e rfl).imp fun _ _ _ _ h => ⟨log, h.1, rfl, h.2⟩)

theorem drives_reclaim (hq : e.queue = .empty) :
    Drives rest E (modify fun e => e.reclaim.2) e log
      fun _ e' log' => log' = log ++ [.sweep] ∧ e'.queue = .empty ∧ e' = e.reclaim.2 := by
  refine Drives.modify _ fun _ => ⟨.single (.sweep rfl), rfl, ?_, rfl⟩
  rw [← hq]
  unfold reclaim
  split <;> rfl

def Extends (log log' : List Event) : Prop := ∃ es, log' = log ++ es ∧ Event.sweep ∉ es

section Extends

variable {log' log'' : List Event}

theorem Extends.refl (log : List Event) : Extends log log :=
  ⟨[], (List.append_nil _).symm, List.not_mem_nil⟩

theorem Extends.trans (h : Extends log log') (h' : Extends log' log'') : Extends log log'' := by
  obtain ⟨es, rfl, hes⟩ := h
  obtain ⟨es', rfl, hes'⟩ := h'
  exact ⟨es ++ es', List.append_assoc _ _ _, by simp [hes, hes']⟩

theorem Extends.drops (log : List Event) (tree : Node) : Extends log (log ++ tree.drops) :=
  ⟨_, rfl, fun h => Node.ofRecord_of_mem_drops _ h⟩

theorem Extends.events (log : List Event) (tree : Node) (reuse : Node.Pairing) :
    Extends log (log ++ tree.events reuse) :=
  ⟨_, rfl, fun h => Node.ofRecord_of_mem_events _ h⟩

theorem Stuck.extends {f : Fault} (h : Stuck log f log') : Extends log log' := by
  cases h <;> exact ⟨[.spill], rfl, by simp⟩

end Extends

def Closes (e : Engine) (log : List Event) (e' : Engine) (log' : List Event) : Prop :=
  ∃ e1 log1, Extends log log1 ∧ Moves (e.rest log) (e1.rest log1) ∧
    (e' = e1 ∧ log' = log1 ∨ e' = e1.reclaim.2 ∧ log' = log1 ++ [.sweep])

section Closes

variable {e' : Engine} {log' : List Event}

theorem Closes.stay (h : Extends log log') (hm : Moves (e.rest log) (e'.rest log')) :
    e.Closes log e' log' :=
  ⟨e', log', h, hm, Or.inl ⟨rfl, rfl⟩⟩

theorem Closes.sweep (h : Extends log log') (hm : Moves (e.rest log) (e'.rest log')) :
    e.Closes log e'.reclaim.2 (log' ++ [.sweep]) :=
  ⟨e', log', h, hm, Or.inr ⟨rfl, rfl⟩⟩

theorem Closes.moves (h : e.Closes log e' log') : Moves (e.rest log) (e'.rest log') := by
  obtain ⟨e1, log1, -, hm, ⟨rfl, rfl⟩ | ⟨rfl, rfl⟩⟩ := h
  · exact hm
  · exact hm.tail (.sweep rfl)

theorem Closes.after {e0 : Engine} {log0 : List Event} (h : e.Closes log e' log')
    (hlog : Extends log0 log) (hm : Moves (e0.rest log0) (e.rest log)) :
    e0.Closes log0 e' log' := by
  obtain ⟨e1, log1, hlog1, hm1, hlast⟩ := h
  exact ⟨e1, log1, hlog.trans hlog1, hm.trans hm1, hlast⟩

end Closes

def StuckAt (logs : List (List Event)) (f : Fault) (_ : Engine) (log' : List Event) : Prop :=
  ∃ log ∈ logs, Stuck log f log'

theorem drives_reinstallTree (path : String) (tree : Node) :
    Drives rest (StuckAt [log ++ tree.drops, log ++ tree.drops ++ tree.events []])
      (reinstallTree path tree) e log
      fun _ e' log' => log' = log ++ tree.drops ++ tree.events [] ∧ e'.queue = .empty := by
  refine Drives.bind (drives_uninstallTree tree).sure fun _ e1 _ _ h1 => ?_
  subst h1
  refine Drives.bind ((drives_runAllAtRest e1 _).fault fun f _ _ _ hf => ⟨_, ?_, hf⟩)
    fun _ e2 _ _ h2 => ?_
  · exact List.mem_cons_self
  obtain ⟨rfl, -⟩ := h2
  refine Drives.bind (drives_installTree path [] tree).sure fun _ e3 _ _ h3 => ?_
  subst h3
  refine Drives.bind ((drives_runAllAtRest e3 _).fault fun f _ _ _ hf => ⟨_, ?_, hf⟩)
    fun _ e4 _ _ h4 => Drives.pure h4
  exact List.mem_cons_of_mem _ List.mem_cons_self

theorem drives_restore (path : String) (failed : Node) (before : Option Document) :
    Drives rest (StuckAt ((log ++ failed.drops) :: before.elim [] fun doc =>
        [log ++ failed.drops ++ doc.tree.drops,
          log ++ failed.drops ++ doc.tree.drops ++ doc.tree.events []]))
      (restore path failed before) e log
      fun _ _ log' => log' = before.elim (log ++ failed.drops) fun doc =>
        log ++ failed.drops ++ doc.tree.drops ++ doc.tree.events [] := by
  refine Drives.bind (drives_uninstallTree failed).sure fun _ e1 _ _ h1 => ?_
  subst h1
  refine Drives.bind ((drives_runAllAtRest e1 _).fault fun f _ _ _ hf => ⟨_, ?_, hf⟩)
    fun _ e2 _ _ h2 => ?_
  · exact List.mem_cons_self
  obtain ⟨rfl, -⟩ := h2
  cases before with
  | none => exact Drives.pure rfl
  | some doc =>
    refine ((drives_reinstallTree path doc.tree).imp fun _ _ _ _ h => h.1).fault ?_
    exact fun f _ _ _ ⟨l, hl, hf⟩ => ⟨l, List.mem_cons_of_mem _ hl, hf⟩

def Survives (e e' : Engine) (tree : Node) : Prop :=
  (∃ v ∈ (e.holdings tree).vertices, (e'.vertex v).alive = true) ∨
    ∃ s ∈ (e.holdings tree).sites, e'.isLive s = true

structure Dangles (path : String) (e : Engine) (log : List Event) (tree : Node) (f : Fault)
    (e' : Engine) (log' : List Event) : Prop where
  fault : ∃ vertices sites, f = .danglingReuse path vertices sites
  drops : log' = log ++ tree.drops
  left : e.Survives e' tree

theorem drives_replaceTree (path : String) (before : Node) :
    Drives rest (fun f e' log' => Stuck (log ++ before.drops) f log' ∨
        Dangles path e log before f e' log')
      (replaceTree path before) e log
      fun _ e' log' => log' = log ++ before.drops ∧ e'.queue = .empty := by
  refine Drives.withState fun _ => ?_
  refine Drives.bind (drives_uninstallTree before).sure fun _ e1 _ _ h1 => ?_
  subst h1
  refine Drives.bind ((drives_runAllAtRest e1 _).fault fun _ _ _ _ => Or.inl)
    fun _ e2 _ _ h2 => Drives.withState fun _ => ?_
  obtain ⟨rfl, hq⟩ := h2
  split
  · refine Drives.withState fun _ => ?_
    dsimp only
    split
    · next hleft =>
      refine Drives.throw (Or.inr ⟨⟨_, _, rfl⟩, rfl, hleft.imp ?_ ?_⟩)
      · exact fun h => by simpa using List.countP_pos_iff.1 h
      · exact fun h => by simpa using List.countP_pos_iff.1 h
    · exact Drives.pure ⟨rfl, hq⟩
  · exact Drives.pure ⟨rfl, hq⟩

theorem drives_succeed (path : String) (before : Option Node) (hq : e.queue = .empty) :
    Drives rest (fun f e' log' => ∃ tree, before = some tree ∧
        (Stuck (log ++ tree.drops) f log' ∨ Dangles path e log tree f e' log'))
      (do
        match before with
        | some tree => replaceTree path tree
        | none => pure ()
        modify fun e => e.reclaim.2) e log
      fun _ e' log' => log' = log ++ before.elim [] Node.drops ++ [.sweep] ∧ e'.queue = .empty ∧
        e.Closes log e' log' := by
  have hlast : ∀ (e1 : Engine) (log1 : List Event), Extends log log1 →
      Moves (e.rest log) (e1.rest log1) → e1.queue = .empty →
      Drives rest Never (modify fun e => e.reclaim.2) e1 log1 fun _ e' log' =>
        log' = log1 ++ [.sweep] ∧ e'.queue = .empty ∧ e.Closes log e' log' :=
    fun e1 log1 hlog hm hq => (drives_reclaim hq).imp fun _ _ _ _ ⟨hlog', hq', he⟩ =>
      ⟨hlog', hq', hlog' ▸ he ▸ .sweep hlog hm⟩
  cases before with
  | none =>
    show Drives rest _ (modify fun e => e.reclaim.2) e log _
    simpa using (hlast e log (.refl log) .refl hq).sure
  | some tree =>
    refine Drives.bind ((drives_replaceTree path tree).fault fun _ _ _ _ hf => ⟨tree, rfl, hf⟩)
      fun _ e1 _ hm h1 => ?_
    obtain ⟨rfl, hq1⟩ := h1
    exact (hlast e1 _ (.drops log tree) hm hq1).sure

end Engine

end TypeFlow
