import TypeFlow.Document.Install
import TypeFlow.Proofs.Turns

/-!
# Owners of edges

Several owners ask for sets of edges, in any order, while vertices are created, destroyed and their
slots used again. An edge is stored with the number of its owners, but an owner that asks for an
edge with a dead end is not counted although it keeps the edge among its own. The counts are right
for live vertices as long as no such owner is left when a slot is used again; otherwise that owner,
on giving its edge up, takes the edge of another.
-/

set_option autoImplicit false

namespace TypeFlow

namespace Graph

theorem sameLife_rewire (g : Graph) (new gone : List (VertexId × VertexId)) :
    SameLife g (g.rewire new gone) :=
  rewire_induct (P := SameLife g) (fun g' src dst h => h.trans (sameLife_addEdge g' src dst))
    (fun g' src dst h => h.trans (sameLife_removeEdge g' src dst)) (.refl g) new gone

theorem owners_rewire (g : Graph) {new gone : List (VertexId × VertexId)} (hnew : new.Nodup)
    (hgone : gone.Nodup) (u w : VertexId) :
    ((g.rewire new gone).get u).owners w = ((g.get u).owners w +
      if (u, w) ∈ new ∧ (g.get u).alive = true ∧ (g.get w).alive = true then 1 else 0) -
      if (u, w) ∈ gone then 1 else 0 := by
  have hadds : ∀ (new : List (VertexId × VertexId)) (g : Graph), new.Nodup →
      ((new.foldl (fun g x => (g.addEdge x.1 x.2).2.graph) g).get u).owners w =
        (g.get u).owners w +
          if (u, w) ∈ new ∧ (g.get u).alive = true ∧ (g.get w).alive = true then 1 else 0 := by
    intro new
    induction new with
    | nil => simp
    | cons x new ih =>
      intro g hn
      obtain ⟨hx, hn⟩ := List.nodup_cons.1 hn
      have hlife := sameLife_addEdge g x.1 x.2
      rw [List.foldl_cons, ih _ hn, (addEdge_spec g x.1 x.2).2, hlife.alive, hlife.alive]
      by_cases he : x = (u, w)
      · subst he
        simp [hx]
      · have hne : ¬(x.1 = u ∧ x.2 = w) := fun h => he (Prod.ext h.1 h.2)
        simp [hne, Ne.symm he]
  have hremoves : ∀ (gone : List (VertexId × VertexId)) (g : Graph), gone.Nodup →
      ((gone.foldl (fun g x => (g.removeEdge x.1 x.2).2.graph) g).get u).owners w =
        (g.get u).owners w - if (u, w) ∈ gone then 1 else 0 := by
    intro gone
    induction gone with
    | nil => simp
    | cons x gone ih =>
      intro g hn
      obtain ⟨hx, hn⟩ := List.nodup_cons.1 hn
      rw [List.foldl_cons, ih _ hn, (removeEdge_spec g x.1 x.2).2]
      by_cases he : x = (u, w)
      · subst he
        simp [hx]
      · have hne : ¬(x.1 = u ∧ x.2 = w) := fun h => he (Prod.ext h.1 h.2)
        simp [hne, Ne.symm he]
  unfold rewire
  rw [hremoves gone _ hgone, hadds new g hnew]

theorem Settled.owners_alloc {g : Graph} {born : VertexId → List Ty} (h : g.Settled born)
    (x : Vertex) (u : VertexId) :
    (g.get (g.alloc x).1).owners u = 0 ∧ (g.get u).owners (g.alloc x).1 = 0 := by
  obtain ⟨-, hnext, hin⟩ := alloc_detached h x
  have hno : (g.alloc x).1 ∉ (g.get u).successors := fun hu => by
    have := indegree_pos hu
    rw [← h.incoming, hin] at this
    exact Nat.lt_irrefl 0 this
  constructor
  · unfold Vertex.owners
    rw [OrderedMap.get?_eq_none_iff.2 (by
      show u ∉ (g.get (g.alloc x).1).successors
      rw [hnext]
      exact List.not_mem_nil), Option.getD_none]
  · unfold Vertex.owners
    rw [OrderedMap.get?_eq_none_iff.2 hno, Option.getD_none]

end Graph

namespace Effects

def askEdges (fx : Effects) (edges : List (VertexId × VertexId)) : Effects :=
  edges.foldl (fun fx x => fx.addEdge x.1 x.2) fx

def ofHeld (held : OrderedSet (VertexId × VertexId)) : Effects := { installed := { edges := held } }

theorem askEdges_ofHeld (held : OrderedSet (VertexId × VertexId))
    (edges : List (VertexId × VertexId)) :
    (ofHeld held).askEdges edges =
      { installed := { edges := held }, pending := { edges := .ofList edges } } := by
  have hfold : ∀ (xs : List (VertexId × VertexId)) (asked : OrderedSet (VertexId × VertexId)),
      xs.foldl (fun fx x => fx.addEdge x.1 x.2)
          ({ installed := { edges := held }, pending := { edges := asked } } : Effects) =
        { installed := { edges := held }, pending := { edges := xs.foldl .insert asked } } := by
    intro xs
    induction xs with
    | nil => exact fun _ => rfl
    | cons x xs ih => exact fun asked => ih (asked.insert x)
  exact hfold edges {}

end Effects

theorem Engine.install_askEdges (e : Engine) (owner : Owner)
    (held : OrderedSet (VertexId × VertexId)) (edges : List (VertexId × VertexId)) :
    Engine.install owner ⟨e, (Effects.ofHeld held).askEdges edges⟩ =
      .ok () ⟨(Run.mk e ((Effects.ofHeld held).askEdges edges)).installEdges.engine,
        .ofHeld (.ofList edges)⟩ := by
  rw [Effects.askEdges_ofHeld]
  cases owner <;> rfl

/-- What is done to an engine of which several owners hold edges. -/
inductive PoolOp where
  | newVertex (label : String) (node : Option NodeId)
  | newSource (types : List Ty) (node : Option NodeId)
  | source (types : List Ty)
  | destroyVertex (v : VertexId)
  | reclaim
  /-- One of the owners asks for edges, and for no others. -/
  | install (i : Nat) (owner : Owner) (edges : List (VertexId × VertexId))

structure Pool where
  engine : Engine
  buffers : List Effects

namespace Pool

/-- The start, with `n` owners that hold nothing yet. -/
def boot (config : Config) (n : Nat) : Pool := ⟨Engine.boot config, List.replicate n {}⟩

def step (p : Pool) : PoolOp → Pool
  | .newVertex label node => { p with engine := (p.engine.newVertex label node).2 }
  | .newSource types node => { p with engine := (p.engine.newSource types node).2 }
  | .source types => { p with engine := (p.engine.source types).2 }
  | .destroyVertex v => { p with engine := p.engine.destroyVertex v }
  | .reclaim => { p with engine := p.engine.reclaim.2 }
  | .install i owner edges =>
    match p.buffers[i]? with
    | none => p
    | some fx =>
      match Engine.install owner ⟨p.engine, fx.askEdges edges⟩ with
      | .ok _ r => ⟨r.engine, p.buffers.set i r.effects⟩
      | .error _ r => ⟨r.engine, p.buffers.set i r.effects⟩

def run (p : Pool) (ops : List PoolOp) : Pool := ops.foldl step p

def Alive (p : Pool) (v : VertexId) : Prop := (p.engine.vertex v).alive = true

instance (p : Pool) (v : VertexId) : Decidable (p.Alive v) :=
  inferInstanceAs (Decidable (_ = true))

def count (p : Pool) (s d : VertexId) : Nat := (p.engine.vertex s).owners d

def holders (p : Pool) (s d : VertexId) : Nat :=
  p.buffers.countP fun fx => fx.installed.edges.contains (s, d)

structure Sound (p : Pool) : Prop where
  settled : ∃ born, p.engine.graph.Settled born
  plain : ∀ fx ∈ p.buffers, ∃ held, fx = .ofHeld held ∧ held.toList.Nodup

def Careful (p : Pool) : PoolOp → Prop
  | .install i _ edges => ∀ fx, p.buffers[i]? = some fx → ∀ x ∈ edges,
      x ∉ fx.installed.edges.toList → p.Alive x.1 ∧ p.Alive x.2
  | _ => True

inductive OwnerChange (p : Pool) (op : PoolOp) (s d : VertexId) : Prop where
  | keep (hcount : (p.step op).count s d = p.count s d)
    (hholders : (p.step op).holders s d = p.holders s d)
  | take (hlive : p.Alive s ∧ p.Alive d → (p.step op).count s d = p.count s d + 1)
    (hdead : ¬(p.Alive s ∧ p.Alive d) → (p.step op).count s d = p.count s d)
    (hcareful : p.Careful op → p.Alive s ∧ p.Alive d)
    (hholders : (p.step op).holders s d = p.holders s d + 1)
  | drop (hcount : (p.step op).count s d = p.count s d - 1)
    (hholders : p.holders s d = (p.step op).holders s d + 1)

inductive Change (p : Pool) (op : PoolOp) : Prop where
  | still (hcount : ∀ s d, (p.step op).count s d = p.count s d)
    (hbuffers : (p.step op).buffers = p.buffers)
    (halive : ∀ v, (p.step op).Alive v → p.Alive v)
  | birth (v : VertexId) (hcount : ∀ s d, (p.step op).count s d = p.count s d)
    (hbuffers : (p.step op).buffers = p.buffers)
    (hnone : ∀ u, p.count v u = 0 ∧ p.count u v = 0)
    (halive : ∀ u, (p.step op).Alive u ↔ u = v ∨ p.Alive u)
  | ownerChange (halive : ∀ v, (p.step op).Alive v ↔ p.Alive v) (hownerChange : ∀ s d,
    p.OwnerChange op s d)

variable {p : Pool} {op : PoolOp}

theorem Sound.birth (h : p.Sound) {x : Vertex} (halive : x.alive = true) (hnext : x.next = {})
    (hbuffers : (p.step op).buffers = p.buffers)
    (hget : ∀ u, (p.step op).engine.graph.get u = (p.engine.graph.alloc x).2.get u) :
    p.Change op := by
  obtain ⟨born, hs⟩ := h.settled
  have hnone := hs.owners_alloc x
  have hvertex : ∀ u, (p.step op).engine.vertex u =
      if (p.engine.graph.alloc x).1 = u then x else p.engine.vertex u := fun u =>
    (hget u).trans (Graph.get_alloc hs x u)
  refine .birth (p.engine.graph.alloc x).1 (fun s d => ?_) hbuffers hnone fun u => ?_
  · unfold count
    rw [hvertex]
    split
    · next he =>
      subst he
      refine Eq.trans ?_ (hnone d).1.symm
      unfold Vertex.owners
      rw [hnext]
      rfl
    · rfl
  · unfold Alive
    rw [hvertex]
    split
    · next he => exact iff_of_true halive (.inl he.symm)
    · next he => exact ⟨.inr, fun hu => hu.resolve_left fun hu => he hu.symm⟩

theorem Sound.change_source (h : p.Sound) (types : List Ty) : p.Change (.source types) := by
  cases hshared : p.engine.graph.shared.get? types with
  | some v =>
    have hgraph : (p.step (.source types)).engine.graph = p.engine.graph :=
      congrArg Prod.snd (Graph.source_eq_of_some hshared)
    refine .still (fun s d => ?_) rfl fun v hv => ?_
    · unfold count Engine.vertex
      rw [hgraph]
    · unfold Alive Engine.vertex at hv
      rwa [hgraph] at hv
  | none =>
    have hgraph := congrArg Prod.snd (Graph.source_eq_of_none hshared)
    refine h.birth (x := Vertex.ofTypes types none) rfl rfl rfl fun u => ?_
    show (p.engine.graph.source types).2.get u = _
    rw [hgraph]
    rfl

theorem Sound.change_install (h : p.Sound) (i : Nat) (owner : Owner)
    (edges : List (VertexId × VertexId)) : p.Change (.install i owner edges) := by
  cases hi : p.buffers[i]? with
  | none =>
    have hstill : p.step (.install i owner edges) = p := by simp [step, hi]
    exact .still (fun s d => by rw [hstill]) (by rw [hstill]) fun v hv => by rwa [hstill] at hv
  | some fx =>
    obtain ⟨held, rfl, hheld⟩ := h.plain fx (List.mem_of_getElem? hi)
    have hstep : p.step (.install i owner edges) =
        ⟨(Run.mk p.engine ((Effects.ofHeld held).askEdges edges)).installEdges.engine,
          p.buffers.set i (.ofHeld (.ofList edges))⟩ := by
      simp [step, hi, Engine.install_askEdges]
    have hgraph : (p.step (.install i owner edges)).engine.graph = p.engine.graph.rewire
        ((OrderedSet.ofList edges).toList.filter fun x => !held.contains x)
        (held.toList.filter fun x => !(OrderedSet.ofList edges).contains x) := by
      rw [hstep, Engine.graph_installEdges, Effects.askEdges_ofHeld]
    refine .ownerChange (fun v => ?_) fun s d => ?_
    · unfold Alive Engine.vertex
      rw [hgraph, (Graph.sameLife_rewire ..).alive]
    · have hcount : (p.step (.install i owner edges)).count s d = (p.count s d +
          if ((s, d) ∈ (OrderedSet.ofList edges).toList ∧ (s, d) ∉ held.toList) ∧
            p.Alive s ∧ p.Alive d then 1 else 0) -
          if (s, d) ∈ held.toList ∧ (s, d) ∉ (OrderedSet.ofList edges).toList then 1 else 0 := by
        unfold count Engine.vertex
        rw [hgraph, Graph.owners_rewire _ ((OrderedSet.nodup_ofList edges).filter _)
          (hheld.filter _)]
        refine congrArg₂ (· - ·) (congrArg _ (if_congr (and_congr_left' ?_) rfl rfl))
          (if_congr ?_ rfl rfl)
        · simp [OrderedSet.contains]
        · simp [OrderedSet.contains]
      have hlt : i < p.buffers.length := (List.getElem?_eq_some_iff.1 hi).1
      have hget : p.buffers[i] = .ofHeld held := (List.getElem?_eq_some_iff.1 hi).2
      have hholders : (p.step (.install i owner edges)).holders s d = p.holders s d -
          (if (s, d) ∈ held.toList then 1 else 0) +
          if (s, d) ∈ (OrderedSet.ofList edges).toList then 1 else 0 := by
        unfold holders
        rw [hstep, List.countP_set hlt, hget]
        simp only [Effects.ofHeld, OrderedSet.contains_iff]
      have hpos : (s, d) ∈ held.toList → 0 < p.holders s d := fun hmem =>
        List.countP_pos_iff.2 ⟨_, List.mem_of_getElem? hi, OrderedSet.contains_iff.2 hmem⟩
      by_cases hasked : (s, d) ∈ (OrderedSet.ofList edges).toList <;>
        by_cases hhad : (s, d) ∈ held.toList
      · refine .keep (by simp [hcount, hasked, hhad]) ?_
        have := hpos hhad
        simp only [hholders, hhad, hasked, if_true]
        omega
      · refine .take (fun hlive => ?_) (fun hdead => ?_) (fun hcareful => ?_) ?_
        · simp [hcount, hasked, hhad, hlive.1, hlive.2]
        · simp only [hcount, hdead, hhad, and_false, false_and, if_false, Nat.add_zero,
            Nat.sub_zero]
        · exact hcareful _ hi _ (OrderedSet.mem_ofList.1 hasked) hhad
        · simp [hholders, hasked, hhad]
      · refine .drop (by simp [hcount, hasked, hhad]) ?_
        have := hpos hhad
        simp only [hholders, hhad, hasked, if_true, if_false]
        omega
      · exact .keep (by simp [hcount, hasked, hhad]) (by simp [hholders, hasked, hhad])

theorem Sound.change (h : p.Sound) (op : PoolOp) : p.Change op := by
  cases op with
  | newVertex label node => exact h.birth (x := { label, node }) rfl rfl rfl fun _ => rfl
  | newSource types node => exact h.birth (x := Vertex.ofTypes types node) rfl rfl rfl fun _ => rfl
  | source types => exact h.change_source types
  | destroyVertex v =>
    have hgraph : (p.step (.destroyVertex v)).engine.graph = (p.engine.graph.destroy v).graph :=
      Engine.graph_adoptGraph ..
    refine .still (fun s d => ?_) rfl fun u hu => ?_
    · unfold count Engine.vertex
      rw [hgraph]
      exact (Graph.destroy_spec p.engine.graph v).2.2 s d
    · unfold Alive Engine.vertex at hu ⊢
      rw [hgraph, (Graph.destroy_life p.engine.graph v).2] at hu
      split at hu
      · cases hu
      · exact hu
  | reclaim =>
    have hget : ∀ u, (p.step .reclaim).engine.vertex u = p.engine.vertex u := fun u => by
      show p.engine.reclaim.2.graph.get u = _
      unfold Engine.reclaim
      split <;> rfl
    refine .still (fun s d => ?_) rfl fun u hu => ?_
    · unfold count
      rw [hget]
    · unfold Alive at hu
      rwa [hget] at hu
  | install i owner edges => exact h.change_install i owner edges

theorem Sound.step (h : p.Sound) (op : PoolOp) : (p.step op).Sound := by
  obtain ⟨born, hs⟩ := h.settled
  have hflow : ∀ flow : FlowOp, ∃ born',
    ((Chronicle.mk p.engine born).step flow).engine.graph.Settled
      born' := fun flow => ⟨_, Chronicle.Settled.step (c := ⟨p.engine, born⟩) hs flow⟩
  cases op with
  | newVertex label node => exact ⟨hflow (.newVertex label node), h.plain⟩
  | newSource types node => exact ⟨hflow (.newSource types node), h.plain⟩
  | source types => exact ⟨⟨_, hs.source types⟩, h.plain⟩
  | destroyVertex v => exact ⟨hflow (.destroyVertex v), h.plain⟩
  | reclaim => exact ⟨hflow .reclaim, h.plain⟩
  | install i owner edges =>
    cases hi : p.buffers[i]? with
    | none =>
      have hstill : p.step (.install i owner edges) = p := by simp [Pool.step, hi]
      rwa [hstill]
    | some fx =>
      obtain ⟨held, rfl, hheld⟩ := h.plain fx (List.mem_of_getElem? hi)
      have hstep : p.step (.install i owner edges) =
          ⟨(Run.mk p.engine ((Effects.ofHeld held).askEdges edges)).installEdges.engine,
            p.buffers.set i (.ofHeld (.ofList edges))⟩ := by
        simp [Pool.step, hi, Engine.install_askEdges]
      rw [hstep]
      refine ⟨⟨born, ?_⟩, fun fx hfx => ?_⟩
      · rw [Engine.graph_installEdges]
        exact Graph.rewire_induct (P := fun g => g.Settled born)
          (fun _ src dst h => h.addEdge src dst) (fun _ src dst h => h.removeEdge src dst) hs _ _
      · rcases List.mem_or_eq_of_mem_set hfx with hfx | rfl
        · exact h.plain fx hfx
        · exact ⟨_, rfl, OrderedSet.nodup_ofList edges⟩

theorem sound_boot (config : Config) (n : Nat) : (boot config n).Sound := by
  obtain ⟨born, h⟩ := Boot.sourced_boot config
  refine ⟨⟨born, h.settled⟩, fun fx hfx => ⟨{}, ?_, List.nodup_nil⟩⟩
  exact (List.eq_of_mem_replicate hfx).trans rfl

theorem Sound.run (h : p.Sound) (ops : List PoolOp) : (p.run ops).Sound := by
  induction ops generalizing p with
  | nil => exact h
  | cons op ops ih => exact ih (h.step op)

def Tallies (p : Pool) (base : VertexId → VertexId → Nat) (s d : VertexId) : Prop :=
  p.count s d = p.holders s d + base s d

section Steps

variable {base : VertexId → VertexId → Nat} {s d : VertexId}

theorem holders_congr {p p' : Pool} (h : p'.buffers = p.buffers) (s d : VertexId) :
    p'.holders s d = p.holders s d := by
  unfold holders
  rw [h]

/-- No edge counts more owners than hold it. -/
theorem Change.count_le (h : p.Change op) (hle : p.count s d ≤ p.holders s d + base s d) :
    (p.step op).count s d ≤ (p.step op).holders s d + base s d := by
  cases h with
  | still hcount hbuffers | birth v hcount hbuffers => rwa [hcount, holders_congr hbuffers]
  | ownerChange halive hownerChange =>
    cases hownerChange s d with
    | keep hcount hholders => rwa [hcount, hholders]
    | take hlive hdead hcareful hholders =>
      by_cases hboth : p.Alive s ∧ p.Alive d
      · rw [hlive hboth, hholders]
        omega
      · rw [hdead hboth, hholders]
        omega
    | drop hcount hholders =>
      rw [hcount]
      omega

/-- A right count stays right between live vertices, and at dead ones as long as only live vertices
are joined. -/
theorem Change.tallies (h : p.Change op) (hjoin : p.Careful op ∨ p.Alive s ∧ p.Alive d)
    (ht : p.Tallies base s d) : (p.step op).Tallies base s d := by
  unfold Tallies at ht ⊢
  cases h with
  | still hcount hbuffers | birth v hcount hbuffers => rw [hcount, holders_congr hbuffers, ht]
  | ownerChange halive hownerChange =>
    cases hownerChange s d with
    | keep hcount hholders => rw [hcount, hholders, ht]
    | take hlive hdead hcareful hholders =>
      rw [hlive (hjoin.elim hcareful id), hholders, ht]
      omega
    | drop hcount hholders =>
      rw [hcount]
      omega

theorem Change.count_of_new (h : p.Change op) (hnew : (p.step op).Alive s ∧ (p.step op).Alive d)
    (hold : ¬(p.Alive s ∧ p.Alive d)) :
    (p.step op).count s d = 0 ∧ (p.step op).holders s d = p.holders s d := by
  cases h with
  | still hcount hbuffers halive => exact absurd ⟨halive s hnew.1, halive d hnew.2⟩ hold
  | birth v hcount hbuffers hnone halive =>
    rw [hcount, holders_congr hbuffers]
    refine ⟨?_, rfl⟩
    rcases (halive s).1 hnew.1 with rfl | hs
    · exact (hnone d).1
    · rcases (halive d).1 hnew.2 with rfl | hd
      · exact (hnone s).2
      · exact absurd ⟨hs, hd⟩ hold
  | ownerChange halive hownerChange => exact absurd ⟨(halive s).1 hnew.1, (halive d).1 hnew.2⟩ hold

end Steps

def ofStart (config : Config) (s d : VertexId) : Nat :=
  if d ∈ ((Engine.boot config).vertex s).successors then 1 else 0

theorem tallies_boot (config : Config) (n : Nat) (s d : VertexId) :
    (boot config n).Tallies (ofStart config) s d := by
  have hnone : (boot config n).holders s d = 0 := by
    refine List.countP_eq_zero.2 fun fx hfx => ?_
    rw [List.eq_of_mem_replicate hfx]
    exact Bool.false_ne_true
  unfold Tallies
  rw [hnone, Nat.zero_add]
  exact Boot.owners_boot config s d

theorem run_take_succ (p : Pool) (ops : List PoolOp) (k : Nat) :
    p.run (ops.take (k + 1)) = p.run (ops.take k) ∨
      ∃ op, ops[k]? = some op ∧ p.run (ops.take (k + 1)) = (p.run (ops.take k)).step op := by
  unfold run
  rw [List.take_add_one, List.foldl_append]
  cases ops[k]? with
  | none => exact .inl rfl
  | some op => exact .inr ⟨op, rfl, rfl⟩

theorem run_induct {P : Pool → Prop} {ops : List PoolOp} (hfirst : P p)
    (hstep : ∀ k op, ops[k]? = some op →
      p.run (ops.take (k + 1)) = (p.run (ops.take k)).step op →
      P (p.run (ops.take k)) → P ((p.run (ops.take k)).step op)) (k : Nat) :
    P (p.run (ops.take k)) := by
  induction k with
  | zero => exact hfirst
  | succ k ih =>
    rcases p.run_take_succ ops k with heq | ⟨op, hop, heq⟩
    · rwa [heq]
    · rw [heq]
      exact hstep k op hop heq ih

theorem Tallies.mem_successors {base : VertexId → VertexId → Nat} {s d : VertexId}
    (h : p.Tallies base s d) {fx : Effects} (hfx : fx ∈ p.buffers)
    (hmem : (s, d) ∈ fx.installed.edges.toList) : d ∈ (p.engine.vertex s).successors := by
  have hheld : 0 < p.holders s d := List.countP_pos_iff.2 ⟨fx, hfx, OrderedSet.contains_iff.2 hmem⟩
  by_contra hno
  have hzero : p.count s d = 0 := by
    unfold count Vertex.owners
    rw [OrderedMap.get?_eq_none_iff.2 hno, Option.getD_none]
  unfold Tallies at h
  omega

end Pool

/-- For any owners and any interleaving of what they and others do, an edge never counts more owners
than hold it. The counts between live vertices are right in all states if and only if nobody still
holds an edge between two live vertices of which one is just taking its slot. They are right at all
vertices, so that an edge survives as long as somebody holds it, if only live vertices are joined.
-/
theorem edge_owners_exact_iff (config : Config) (n : Nat) (ops : List PoolOp) :
    let state := fun k => (Pool.boot config n).run (ops.take k)
    let start := Pool.ofStart config
    (∀ k s d, (state k).count s d ≤ (state k).holders s d + start s d) ∧
    ((∀ k s d, (state k).Alive s → (state k).Alive d →
        (state k).count s d = (state k).holders s d + start s d) ↔
      ∀ k s d, (state (k + 1)).Alive s → (state (k + 1)).Alive d →
        ¬((state k).Alive s ∧ (state k).Alive d) → (state k).holders s d + start s d = 0) ∧
    ((∀ k op, ops[k]? = some op → (state k).Careful op) → ∀ k s d,
      (state k).count s d = (state k).holders s d + start s d ∧
      ∀ fx ∈ (state k).buffers, (s, d) ∈ fx.installed.edges.toList →
        d ∈ ((state k).engine.vertex s).successors) := by
  intro state start
  have hchange : ∀ k op, (state k).Change op := fun k op =>
    ((Pool.sound_boot config n).run (ops.take k)).change op
  refine ⟨fun k s d => ?_, ⟨fun hexact k s d hs hd hold => ?_, fun hclear k s d => ?_⟩,
    fun hcareful k s d => ?_⟩
  · refine Pool.run_induct (P := fun p => p.count s d ≤ p.holders s d + start s d) ?_
      (fun k op _ _ ih => (hchange k op).count_le ih) k
    exact Nat.le_of_eq (Pool.tallies_boot config n s d)
  · have hnext := hexact (k + 1) s d hs hd
    have hsucc : state (k + 1) = state k ∨ ∃ op, ops[k]? = some op ∧ state (k + 1) =
      (state k).step op :=
      (Pool.boot config n).run_take_succ ops k
    rcases hsucc with heq | ⟨op, -, heq⟩
    · rw [heq] at hs hd
      exact absurd ⟨hs, hd⟩ hold
    · rw [heq] at hs hd hnext
      obtain ⟨hcount, hholders⟩ := (hchange k op).count_of_new ⟨hs, hd⟩ hold
      rw [hcount, hholders] at hnext
      exact hnext.symm
  · refine Pool.run_induct (P := fun p => p.Alive s → p.Alive d → p.Tallies start s d)
      (fun _ _ => Pool.tallies_boot config n s d) (fun k op _ heq ih hs hd => ?_) k
    by_cases hold : (state k).Alive s ∧ (state k).Alive d
    · exact (hchange k op).tallies (.inr hold) (ih hold.1 hold.2)
    · -- nobody holds an edge to the vertex that was just created, and none is stored
      obtain ⟨hcount, hholders⟩ := (hchange k op).count_of_new ⟨hs, hd⟩ hold
      have hnone := hclear k s d
        (by dsimp only [state]; rwa [heq]) (by dsimp only [state]; rwa [heq])
        hold
      unfold Pool.Tallies
      rw [hcount, hholders, hnone]
  · have htallies : (state k).Tallies start s d := by
      refine Pool.run_induct (P := fun p => p.Tallies start s d)
        (Pool.tallies_boot config n s d) (fun k op hop _ ih => ?_) k
      exact (hchange k op).tallies (.inl (hcareful k op hop)) ih
    exact ⟨htallies, fun fx hfx hmem => htallies.mem_successors hfx hmem⟩

def stealingEdge : List PoolOp :=
  [.newVertex "s" none, .newVertex "d" none, .destroyVertex ⟨31⟩,
    .install 0 (.node ⟨1⟩) [(⟨30⟩, ⟨31⟩)], .reclaim, .newVertex "e" none,
    .install 1 (.node ⟨2⟩) [(⟨30⟩, ⟨31⟩)], .install 0 (.node ⟨1⟩) []]

/-- The second owner still holds the edge, which is gone. -/
theorem edge_stolen :
    let p := (Pool.boot {} 2).run stealingEdge
    p.Alive ⟨30⟩ ∧ p.Alive ⟨31⟩ ∧ p.holders ⟨30⟩ ⟨31⟩ = 1 ∧
      Pool.ofStart {} ⟨30⟩ ⟨31⟩ = 0 ∧ p.count ⟨30⟩ ⟨31⟩ = 0 ∧
      ⟨31⟩ ∉ (p.engine.vertex ⟨30⟩).successors := by
  simp only [Pool.boot, Pool.ofStart, Engine.boot_start]
  decide +kernel

end TypeFlow
