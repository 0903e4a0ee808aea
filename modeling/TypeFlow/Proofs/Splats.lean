import TypeFlow.Proofs.Binding

/-!
# Arguments with splats

A splatted argument stands for any number of values, so a parameter may be reached by several
arguments and an argument may reach several parameters. The parameters before the first splat and
after the last one take the argument at their place; the others take everything between. No argument
is lost on the way. A call is turned down if and only if it cannot fit while every splat gives at
least one value.
-/

set_option autoImplicit false

namespace TypeFlow

namespace Graph

variable {g g' g'' : Graph} {born : VertexId → List Ty}

structure Extended (g g' : Graph) : Prop where
  settled : ∃ born, g'.Settled born
  get : ∀ v, (g.get v).alive = true → g'.get v = g.get v
  shared : ∀ ts v, g.shared.get? ts = some v → g'.shared.get? ts = some v

namespace Extended

theorem refl (h : g.Settled born) : Extended g g := ⟨⟨born, h⟩, fun _ _ => rfl, fun _ _ => id⟩

theorem trans (h : Extended g g') (h' : Extended g' g'') : Extended g g'' where
  settled := h'.settled
  get v hv := by rw [h'.get v (by rwa [h.get v hv]), h.get v hv]
  shared ts v hv := h'.shared ts v (h.shared ts v hv)

theorem alloc (h : g.Settled born) {x : Vertex} (hx : ∃ born, (g.alloc x).2.Settled born) :
    Extended g (g.alloc x).2 where
  settled := hx
  get v hv := by
    rw [get_alloc h, if_neg]
    rintro rfl
    rw [(alloc_detached h _).1] at hv
    exact absurd hv (by decide)
  shared _ _ hv := hv

theorem newVertex (h : g.Settled born) (label : String) (node : Option NodeId) :
    Extended g (g.newVertex label node).2 := alloc h ⟨_, h.newVertex label node⟩

theorem newSource (h : g.Settled born) (types : List Ty) (node : Option NodeId) :
    Extended g (g.newSource types node).2 := alloc h ⟨_, h.newSource types node⟩

theorem source (h : g.Settled born) (types : List Ty) : Extended g (g.source types).2 := by
  cases hg : g.shared.get? types with
  | some v =>
    rw [source_eq_of_some hg]
    exact refl h
  | none =>
    have hnew := newSource h types none
    rw [source_eq_of_none hg]
    refine ⟨⟨_, (h.newSource types none).withShared _⟩, hnew.get, fun ts v hv => ?_⟩
    have hne : types ≠ ts := fun heq => by simp [← heq, hg] at hv
    exact (OrderedMap.get?_insert ..).trans ((if_neg hne).trans hv)

theorem typesAt (h : Extended g g') {v : VertexId} (hv : (g.get v).alive = true) :
    g'.typesAt v = g.typesAt v := congrArg Vertex.typeList (h.get v hv)

end Extended

theorem shared_source_self (g : Graph) (types : List Ty) :
    (g.source types).2.shared.get? types = some (g.source types).1 := by
  cases hg : g.shared.get? types with
  | some v => rw [source_eq_of_some hg, hg]
  | none =>
    rw [source_eq_of_none hg]
    exact (OrderedMap.get?_insert ..).trans (if_pos rfl)

end Graph

namespace Engine

inductive Provides (e : Engine) (t : Ty) (v : VertexId) : Prop
  | shared (static : t.isStatic = true) (found : e.graph.shared.get? [t] = some v)
  | own (dynamic : t.isStatic = false) (alive : (e.vertex v).alive = true)
    (source : (e.vertex v).source = true) (types : e.typesAt v = [t])

inductive Contributes (e : Engine) : Ty → VertexId → Prop
  | elements (members : Option (List VertexId)) (elem : VertexId) :
    Contributes e (.array members elem) elem
  | declared (elem : VertexId) (rest : List VertexId) :
    Contributes e (.instanceOf Core.array (elem :: rest)) elem
  | undeclared {v : VertexId} (found : e.graph.shared.get? [] = some v) :
    Contributes e (.instanceOf Core.array []) v
  | itself {t : Ty} {v : VertexId} (lone : ∀ members elem, t ≠ .array members elem)
    (other : ∀ args, t ≠ .instanceOf Core.array args) (provided : e.Provides t v) :
    Contributes e t v

variable {e e' : Engine} {t : Ty} {v : VertexId}

theorem Provides.extended (h : e.Provides t v) (hext : e.graph.Extended e'.graph) :
    e'.Provides t v := by
  cases h with
  | shared static found => exact .shared static (hext.shared [t] v found)
  | own dynamic alive source types =>
    have hv : e'.vertex v = e.vertex v := hext.get v alive
    exact .own dynamic (hv ▸ alive) (hv ▸ source) ((hext.typesAt alive).trans types)

theorem Contributes.extended (h : e.Contributes t v) (hext : e.graph.Extended e'.graph) :
    e'.Contributes t v := by
  cases h with
  | elements members => exact .elements members v
  | declared _ rest => exact .declared v rest
  | undeclared found => exact .undeclared (hext.shared [] v found)
  | itself lone other provided => exact .itself lone other (provided.extended hext)

end Engine

structure Run.Prepares (r r' : Run) : Prop where
  extended : r.engine.graph.Extended r'.engine.graph
  edges : r'.effects.pending.edges = r.effects.pending.edges
  diagnostics : r'.effects.pending.diagnostics = r.effects.pending.diagnostics

theorem Run.Prepares.refl {r : Run} {born : VertexId → List Ty}
    (h : r.engine.graph.Settled born) : r.Prepares r := ⟨.refl h, rfl, rfl⟩

theorem Run.Prepares.trans {r r' r'' : Run} (h : r.Prepares r') (h' : r'.Prepares r'') :
    r.Prepares r'' where
  extended := h.extended.trans h'.extended
  edges := h'.edges.trans h.edges
  diagnostics := h'.diagnostics.trans h.diagnostics

namespace Arguments

open Staging

variable {born : VertexId → List Ty} {r : Run}

theorem typeSource_spec (h : r.engine.graph.Settled born) (label : String) (t : Ty) :
    ∃ v r', typeSource label t r = some (v, r') ∧ r.Prepares r' ∧ r'.engine.Provides t v := by
  cases hstatic : t.isStatic with
  | true =>
    simp only [typeSource, hstatic, if_true]
    exact ⟨_, _, rfl, ⟨.source h [t], rfl, rfl⟩, .shared hstatic (Graph.shared_source_self _ _)⟩
  | false =>
    simp only [typeSource, hstatic, Bool.false_eq_true, if_false]
    rcases hrun : freshSource label [t] r with _ | ⟨v, r'⟩
    · cases hrun
    refine ⟨v, r', rfl, ?_⟩
    cases hrun
    dsimp only
    split
    · next v hold =>
      refine ⟨⟨.refl h, rfl, rfl⟩, ?_⟩
      obtain ⟨-, hfit⟩ := Option.filter_eq_some_iff.1 hold
      simp only [Bool.and_eq_true, beq_iff_eq, List.length_singleton, List.all_cons, List.all_nil,
        and_true] at hfit
      obtain ⟨⟨⟨halive, hsource⟩, hsize⟩, hholds⟩ := hfit
      rw [← OrderedMap.length_keys] at hsize
      obtain ⟨t', ht'⟩ := List.length_eq_one_iff.1 hsize
      have hmem := OrderedMap.contains_iff.1 hholds
      rw [ht', List.mem_singleton] at hmem
      exact .own hstatic halive hsource (ht'.trans (by rw [hmem]))
    · refine ⟨⟨.newSource h [t] none, rfl, rfl⟩, ?_⟩
      have hget : (r.engine.graph.newSource [t] none).2.get (r.engine.graph.newSource [t] none).1 =
          Vertex.ofTypes [t] none := (Graph.get_alloc h _ _).trans (if_pos rfl)
      exact .own hstatic (congrArg Vertex.alive hget) (congrArg Vertex.source hget)
        ((congrArg Vertex.typeList hget).trans rfl)

theorem spreadType_spec (h : r.engine.graph.Settled born) (t : Ty) :
    ∃ v r', spreadType t r = some (v, r') ∧ r.Prepares r' ∧ r'.engine.Contributes t v := by
  obtain ⟨v, r', hrun, hprep, hsource⟩ := typeSource_spec h "splat" t
  cases t with
  | array members elem => exact ⟨elem, r, rfl, .refl h, .elements members elem⟩
  | instanceOf m args =>
    by_cases hm : m = Core.array
    · subst hm
      cases args with
      | nil =>
        exact ⟨_, _, rfl, ⟨.source h [], rfl, rfl⟩, .undeclared (Graph.shared_source_self _ _)⟩
      | cons elem rest => exact ⟨elem, r, rfl, .refl h, .declared elem rest⟩
    · refine ⟨v, r', ?_, hprep, .itself (by simp) (by simp [hm]) hsource⟩
      simpa [spreadType, Engine.baseType, hm] using hrun
  | _ => exact ⟨v, r', hrun, hprep, .itself (by simp) (by simp) hsource⟩

theorem mapM_spreadType_spec (ts : List Ty) (h : r.engine.graph.Settled born) :
    ∃ vs r', ts.mapM spreadType r = some (vs, r') ∧ r.Prepares r' ∧
      ∀ t ∈ ts, ∃ v ∈ vs, r'.engine.Contributes t v := by
  induction ts generalizing r born with
  | nil => exact ⟨[], r, rfl, .refl h, by simp⟩
  | cons t ts ih =>
    obtain ⟨v, r1, hv, hprep, hcontr⟩ := spreadType_spec h t
    obtain ⟨born1, h1⟩ := hprep.extended.settled
    obtain ⟨vs, r2, hvs, hprep', hall⟩ := ih h1
    refine ⟨v :: vs, r2, ?_, hprep.trans hprep', ?_⟩
    · rw [List.mapM_cons, bind_of_eq_some hv, bind_of_eq_some hvs]
      rfl
    · rintro t' (_ | ⟨_, ht'⟩)
      · exact ⟨v, List.mem_cons_self, hcontr.extended hprep'.extended⟩
      · obtain ⟨v', hv', hcontr'⟩ := hall t' ht'
        exact ⟨v', List.mem_cons_of_mem _ hv', hcontr'⟩

def Stands (types : List Ty) (arg : VertexId) (splat : Bool) (e : Engine) (vs : List VertexId) :
    Prop :=
  if splat then ∀ t ∈ types, ∃ v ∈ vs, e.Contributes t v else arg ∈ vs

theorem Stands.extended {types : List Ty} {arg : VertexId} {splat : Bool} {e e' : Engine}
    {vs ws : List VertexId} (h : Stands types arg splat e vs) (hsub : vs ⊆ ws)
    (hext : e.graph.Extended e'.graph) : Stands types arg splat e' ws := by
  cases splat with
  | false => exact hsub h
  | true =>
    intro t ht
    obtain ⟨v, hv, hcontr⟩ := h t ht
    exact ⟨v, hsub hv, hcontr.extended hext⟩

theorem spread_spec (h : r.engine.graph.Settled born) (arg : VertexId) (splat : Bool) :
    ∃ vs r', spread arg splat r = some (vs, r') ∧ r.Prepares r' ∧
      Stands (r.engine.typesAt arg) arg splat r'.engine vs := by
  cases splat with
  | false => exact ⟨[arg], r, rfl, .refl h, List.mem_singleton_self arg⟩
  | true => exact mapM_spreadType_spec (r.engine.typesAt arg) h

/-- The induction is on the arguments. The types at an argument are read when its turn comes; by
then vertices may have been created, which takes no type away. -/
theorem mapM_spread_spec (xs : List (VertexId × Nat)) (splats : List Bool)
    (h : r.engine.graph.Settled born) :
    ∃ vss r', xs.mapM (fun a => spread a.1 (splats[a.2]?.getD false)) r = some (vss, r') ∧
      r.Prepares r' ∧ ∀ a ∈ xs, Stands (r.engine.typesAt a.1) a.1 (splats[a.2]?.getD false)
        r'.engine vss.flatten := by
  induction xs generalizing r born with
  | nil => exact ⟨[], r, rfl, .refl h, by simp⟩
  | cons a xs ih =>
    obtain ⟨vs, r1, hvs, hprep, hstands⟩ := spread_spec h a.1 (splats[a.2]?.getD false)
    obtain ⟨born1, h1⟩ := hprep.extended.settled
    obtain ⟨vss, r2, hvss, hprep', hall⟩ := ih h1
    refine ⟨vs :: vss, r2, ?_, hprep.trans hprep', ?_⟩
    · rw [List.mapM_cons, bind_of_eq_some hvs, bind_of_eq_some hvss]
      rfl
    · rintro a' (_ | ⟨_, ha'⟩)
      · exact hstands.extended (by simp) hprep'.extended
      · have hlater : Stands (r1.engine.typesAt a'.1) a'.1 (splats[a'.2]?.getD false) r2.engine
            (vs :: vss).flatten :=
          (hall a' ha').extended (by simp) (.refl (hprep'.extended.settled.choose_spec))
        revert hlater
        cases splats[a'.2]?.getD false with
        | false => exact id
        | true =>
          intro hlater t ht
          refine hlater t ?_
          have halive : (r.engine.graph.get a'.1).alive = true := by
            by_contra hdead
            have hnone := h.typeList_of_dead (v := a'.1) (by simpa using hdead)
            exact List.ne_nil_of_mem ht hnone
          show t ∈ r1.engine.graph.typesAt a'.1
          rwa [hprep.extended.typesAt halive]

theorem between_spec (args : List VertexId) (splats : List Bool) (start stop : Nat)
    (h : r.engine.graph.Settled born) :
    ∃ vs r', between args splats start stop r = some (vs, r') ∧ r.Prepares r' ∧
      ∀ i arg, start ≤ i → i < stop → args[i]? = some arg →
        Stands (r.engine.typesAt arg) arg (splats[i]?.getD false) r'.engine vs := by
  obtain ⟨vss, r', hvss, hprep, hall⟩ := mapM_spread_spec
    (args.zipIdx.filter fun a => start ≤ a.2 && a.2 < stop) splats h
  refine ⟨vss.flatten, r', bind_of_eq_some hvss, hprep, fun i arg hstart hstop harg => ?_⟩
  refine hall (arg, i) (List.mem_filter.2 ⟨List.mk_mem_zipIdx_iff_getElem?.2 harg, ?_⟩)
  simp [hstart, hstop]

end Arguments

namespace Quiet

theorem mapM {α β : Type} {f : α → Staging β} (hf : ∀ a, Quiet (f a)) (as : List α) :
    Quiet (as.mapM f) := by
  induction as with
  | nil => exact .pure []
  | cons a as ih =>
    rw [List.mapM_cons]
    exact .bind (hf a) fun b => .bind ih fun bs => .pure (b :: bs)

theorem spreadType (t : Ty) : Quiet (Arguments.spreadType t) := by
  unfold Arguments.spreadType
  split
  · apply Quiet.ite
    · split
      · exact .pure _
      · exact .onEngine _
    · exact .typeSource "splat" t
  · exact .typeSource "splat" t

theorem between (args : List VertexId) (splats : List Bool) (start stop : Nat) :
    Quiet (Arguments.between args splats start stop) := by
  refine .bind (.mapM (fun a => ?_) _) fun _ => .pure _
  exact .ite (.bind (.bind .engine fun e => .pure (e.typesAt a.1)) fun ts => .mapM spreadType ts)
    (.pure [a.1])

end Quiet

namespace Row

variable {α : Type} (row : Row α)

def leading : List α := row.req ++ row.opt

/-- The parameters of a call with splats, in the order in which they are seen to. One before the
first splat or after the last one has the place of its argument, counted from the left or from the
right. The others have none and take everything between. -/
def places (count first last : Nat) : List (α × Option Nat) :=
  let start := min first row.leading.length
  let stop := max (last + 1) (count - row.post.length)
  (row.leading.take start).zipIdx.map (fun x => (x.1, some x.2)) ++
    (row.leading.drop start).map (·, none) ++
    row.post.zipIdx.map (fun x => (x.1,
      if row.post.length ≤ count + x.2 ∧ stop ≤ count + x.2 - row.post.length then
        some (count + x.2 - row.post.length)
      else none)) ++
    row.rest.toList.map (·, none)

def handed (args rest : List VertexId) (places : List (α × Option Nat)) : List (VertexId × α) :=
  places.flatMap fun x =>
    match x.2 with
    | some i => args[i]?.toList.map (·, x.1)
    | none => rest.map (·, x.1)

theorem handed_append (args rest : List VertexId) (ps qs : List (α × Option Nat)) :
    handed args rest (ps ++ qs) = handed args rest ps ++ handed args rest qs := List.flatMap_append

theorem handed_zipIdx (args rest : List VertexId) (names : List α) (k : Nat) :
    handed args rest ((names.zipIdx k).map fun x => (x.1, some x.2)) =
      (args.drop k).zip names := by
  induction names generalizing k with
  | nil => simp [handed]
  | cons name names ih =>
    have hrest := ih (k + 1)
    rw [List.zipIdx_cons, List.map_cons, ← List.singleton_append, handed_append, hrest]
    cases hk : args[k]? with
    | none =>
      have hlen := List.getElem?_eq_none_iff.1 hk
      have hlen' := Nat.le_succ_of_le hlen
      simp [handed, hk, List.drop_of_length_le hlen, List.drop_of_length_le hlen']
    | some arg =>
      obtain ⟨hlt, rfl⟩ := List.getElem?_eq_some_iff.1 hk
      rw [List.drop_eq_getElem_cons hlt, List.zip_cons_cons]
      simp [handed, hk]

theorem handed_none (args rest : List VertexId) (names : List α) :
    handed args rest (names.map (·, none)) = names.flatMap fun name => rest.map (·, name) := by
  rw [handed, List.flatMap_map]

variable {row}

theorem mem_handed_of_place {args rest : List VertexId} {ps : List (α × Option Nat)} {name : α}
    {i : Nat} {arg : VertexId} (hp : (name, some i) ∈ ps) (harg : args[i]? = some arg) :
    (arg, name) ∈ handed args rest ps :=
  List.mem_flatMap.2 ⟨_, hp, by simp [harg]⟩

theorem mem_handed_of_between {args rest : List VertexId} {ps : List (α × Option Nat)} {name : α}
    {v : VertexId} (hp : (name, none) ∈ ps) (hv : v ∈ rest) : (v, name) ∈ handed args rest ps :=
  List.mem_flatMap.2 ⟨_, hp, List.mem_map_of_mem hv⟩

section Covering

variable {count first last : Nat}

theorem place_lt (hfirst : first < count) {name : α} {i : Nat}
    (h : (name, some i) ∈ row.places count first last) : i < count := by
  simp only [places, List.mem_append, List.mem_map, Prod.mk.injEq, reduceCtorEq, and_false,
    exists_false, or_false, Option.some.injEq] at h
  rcases h with ⟨⟨a, j⟩, hmem, -, rfl⟩ | ⟨⟨a, j⟩, hmem, -, hplace⟩
  · have hj := (List.mem_zipIdx' hmem).1
    rw [List.length_take] at hj
    dsimp only
    omega
  · have hj := (List.mem_zipIdx' hmem).1
    split at hplace
    · next hcond =>
      dsimp only at hcond hplace
      cases hplace
      omega
    · exact absurd hplace (by simp)

theorem exists_place_of_lt_start {i : Nat} (hi : i < min first row.leading.length) :
    ∃ name ∈ row.leading, (name, some i) ∈ row.places count first last := by
  have hlt : i < row.leading.length := by omega
  refine ⟨row.leading[i], List.getElem_mem hlt, ?_⟩
  simp only [places, List.mem_append]
  refine .inl (.inl (.inl (List.mem_map.2 ⟨(row.leading[i], i), ?_, rfl⟩)))
  rw [List.mk_mem_zipIdx_iff_getElem?, List.getElem?_take_of_lt hi, List.getElem?_eq_getElem hlt]

theorem exists_place_of_stop_le {i : Nat} (hi : i < count)
    (hstop : max (last + 1) (count - row.post.length) ≤ i) :
    ∃ name ∈ row.post, (name, some i) ∈ row.places count first last := by
  have hlt : i + row.post.length - count < row.post.length := by omega
  refine ⟨row.post[i + row.post.length - count], List.getElem_mem hlt, ?_⟩
  simp only [places, List.mem_append]
  refine .inl (.inr (List.mem_map.2 ⟨(row.post[i + row.post.length - count],
    i + row.post.length - count), List.mk_mem_zipIdx_iff_getElem?.2 (List.getElem?_eq_getElem hlt),
    ?_⟩))
  have hback : count + (i + row.post.length - count) - row.post.length = i := by omega
  dsimp only
  rw [hback, if_pos ⟨by omega, hstop⟩]

/-- With no more arguments than parameters, or with a rest, some parameter takes what is between. If
all leading parameters have a place of their own, the first trailing one does not: its place would
have to come after the last splat. -/
theorem exists_between (hfirst : first < count) (hle : first ≤ last)
    (hupper : row.rest.isSome = true ∨ count ≤ row.leading.length + row.post.length) :
    ∃ name ∈ row.leading ++ row.rest.toList ++ row.post,
      (name, none) ∈ row.places count first last := by
  cases hrest : row.rest with
  | some name =>
    refine ⟨name, by simp, ?_⟩
    simp [places, hrest]
  | none =>
    simp only [hrest, Option.isSome_none, Bool.false_eq_true, false_or] at hupper
    by_cases hstart : first < row.leading.length
    · refine ⟨row.leading[first], by simp, ?_⟩
      simp only [places, List.mem_append]
      refine .inl (.inl (.inr (List.mem_map_of_mem ?_)))
      rw [Nat.min_eq_left hstart.le]
      exact List.mem_iff_getElem.2 ⟨0, by simp; omega, by simp⟩
    · have hpost : 0 < row.post.length := by omega
      refine ⟨row.post[0], by simp, ?_⟩
      simp only [places, List.mem_append]
      refine .inl (.inr (List.mem_map.2 ⟨(row.post[0], 0), ?_, ?_⟩))
      · exact List.mk_mem_zipIdx_iff_getElem?.2 (List.getElem?_eq_getElem hpost)
      · rw [if_neg (by omega)]

end Covering

end Row

theorem mem_positional {f : Formals} {name : String} :
    name ∈ f.positional ↔ name ∈ f.row.leading ++ f.row.rest.toList ++ f.row.post := Iff.rfl

namespace MethodDef

open Staging Arguments

variable (d : MethodDef)
variable {args rest : List VertexId} {r : Run}

theorem edges_handed_flatMap {α : Type} (args rest : List VertexId) (xs : List α)
    (place : α → String × Option Nat) :
    xs.flatMap (fun x => d.edges (Row.handed args rest [place x])) =
      d.edges (Row.handed args rest (xs.map place)) := by
  simp [Row.handed, edges, List.flatMap_map, List.flatMap_assoc]

/-- With splats the parameters are connected in turn to the argument at their place, or to all that
is between. -/
theorem bindSpread_eq {splats : List Bool} {first last : Nat} {r' : Run}
    (h : between args splats (min first d.formals.row.leading.length)
      (max (last + 1) (args.length - d.formals.row.post.length)) r = some (rest, r')) :
    d.bindSpread args splats first last r = some ((), r'.joining
      (d.edges (Row.handed args rest (d.formals.row.places args.length first last)))) := by
  have hall : ∀ (names : List String) (r : Run), (names.forM fun name => d.bindAll rest name) r =
      some ((), r.joining (d.edges (Row.handed args rest (names.map (·, none))))) := by
    intro names r
    refine (forM_joining (fun name r => d.bindAll_eq rest name r) names r).trans ?_
    rw [Row.handed_none, edges, List.flatMap_assoc]
    rfl
  rw [bindSpread]
  refine (bind_of_eq_some h).trans ?_
  rw [bind_of_eq_some (d.bindEach_eq ..), bind_of_eq_some (hall ..)]
  refine (bind_of_eq_some (forM_joining (g := fun place => d.edges (Row.handed args rest [(place.1,
    if d.formals.post.length ≤ args.length + place.2 ∧
      max (last + 1) (args.length - d.formals.post.length) ≤
        args.length + place.2 - d.formals.post.length then
      some (args.length + place.2 - d.formals.post.length)
    else none)])) (fun place r => ?_) _ _)).trans ?_
  · dsimp only
    split
    · cases hat : args[args.length + place.2 - d.formals.post.length]? with
      | some actual => simp [Row.handed, hat, bind_eq]
      | none =>
        simp only [Row.handed, hat, List.flatMap_cons, List.flatMap_nil, Option.toList_none,
          List.map_nil, List.append_nil]
        rfl
    · simp [Row.handed, bindAll_eq]
  simp only [Run.joining_joining, edges_handed_flatMap, ← edges_append]
  have hzip : args.zip ((d.formals.req ++ d.formals.opt).take
      (min first (d.formals.req ++ d.formals.opt).length)) =
      Row.handed args rest (((d.formals.req ++ d.formals.opt).take
        (min first (d.formals.req ++ d.formals.opt).length)).zipIdx.map
          fun x => (x.1, some x.2)) := (Row.handed_zipIdx args rest _ 0).symm
  rw [hzip, ← Row.handed_append, ← Row.handed_append]
  unfold Row.places Row.leading Formals.row
  cases d.formals.rest with
  | some name =>
    simp only [bindAll_eq, Run.joining_joining, ← edges_append, Option.toList_some]
    rw [Row.handed_append _ _ _ ([name].map (·, none)), Row.handed_none, List.flatMap_singleton]
  | none =>
    simp only [Option.toList_none, List.map_nil, List.append_nil, List.append_assoc]
    rfl

def Receives (r : Run) (v : VertexId) : Prop :=
  ∃ name ∈ d.formals.positional, ∃ formal, d.args.get? name = some formal ∧
    (v, formal) ∈ r.effects.pending.edges.toList

variable {d}

theorem receives_of_handed {ps : List (String × Option Nat)}
    {name : String} {v : VertexId} (hname : name ∈ d.formals.positional)
    (hvertex : (d.args.get? name).isSome = true) (h : (v, name) ∈ Row.handed args rest ps) :
    d.Receives (r.joining (d.edges (Row.handed args rest ps))) v := by
  obtain ⟨formal, hformal⟩ := Option.isSome_iff_exists.1 hvertex
  refine ⟨name, hname, formal, hformal, Run.mem_edges_joining.2 (.inr ?_)⟩
  exact List.mem_flatMap.2 ⟨(v, name), h, by simp [hformal]⟩

end MethodDef

theorem findIdx_le_of_set {flags : List Bool} {i : Nat} (h : flags[i]? = some true) :
    flags.findIdx id ≤ i := by
  by_contra hlt
  have hunset := List.not_of_lt_findIdx (not_le.1 hlt)
  obtain ⟨hi, hset⟩ := List.getElem?_eq_some_iff.1 h
  simp [hset] at hunset

theorem findIdx_bounds {flags : List Bool} (h : true ∈ flags) :
    flags.findIdx id ≤ flags.length - 1 - flags.reverse.findIdx id ∧
      flags.findIdx id < flags.length ∧
      ∀ i, flags[i]? = some true → flags.findIdx id ≤ i ∧
        i ≤ flags.length - 1 - flags.reverse.findIdx id := by
  have hfirst : flags.findIdx id < flags.length := List.findIdx_lt_length.2 ⟨true, h, rfl⟩
  have hbounds : ∀ i, flags[i]? = some true → flags.findIdx id ≤ i ∧
      i ≤ flags.length - 1 - flags.reverse.findIdx id := by
    intro i hi
    have hlt := (List.getElem?_eq_some_iff.1 hi).1
    have hmirror : flags.length - 1 - (flags.length - 1 - i) = i := by omega
    have hrev : flags.reverse.findIdx id ≤ flags.length - 1 - i := by
      apply findIdx_le_of_set
      rw [List.getElem?_reverse (by omega), hmirror, hi]
    exact ⟨findIdx_le_of_set hi, by omega⟩
  have hset : flags[flags.findIdx id]? = some true := by
    rw [List.getElem?_eq_getElem hfirst]
    exact congrArg some (List.findIdx_getElem (w := hfirst))
  exact ⟨(hbounds _ hset).2, hfirst, hbounds⟩

namespace MethodDef

open Staging Arguments

theorem upper_all_iff (f : Formals) (n : Nat) : (f.upper.all fun u => decide (n ≤ u)) = true ↔
    f.row.rest.isSome = true ∨ n ≤ f.row.leading.length + f.row.post.length := by
  unfold Formals.upper Formals.lower Formals.row Row.leading
  cases f.rest <;> simp
  omega

/-- A call with splats is accepted if every argument could stand for one value, one without splats
if the number of arguments is right. -/
theorem passPositionals_ends (d : MethodDef) (node : Option NodeId) (args : List VertexId)
    (splats : List Bool) (r : Run) :
    ∃ accepted r', d.passPositionals node args splats r = some (accepted, r') ∧
      (accepted = true ↔ if true ∈ splats then d.formals.row.rest.isSome = true ∨
          args.length ≤ d.formals.row.leading.length + d.formals.row.post.length
        else d.formals.row.shape.Accepts args.length) := by
  by_cases hsplat : true ∈ splats
  · have hfirst := (findIdx_bounds hsplat).2.1
    rw [passPositionals, List.findIdx?_eq_some_iff_findIdx_eq.2 ⟨hfirst, rfl⟩, if_pos hsplat,
      ← upper_all_iff]
    dsimp only
    split
    · next hfits =>
      obtain ⟨rest, r', hbetween, -⟩ := (Quiet.between args splats _ _).ends r
      exact ⟨true, _, bind_of_eq_some (d.bindSpread_eq hbetween), by simp [hfits]⟩
    · next hfits =>
      exact ⟨false, _, bind_of_eq_some (d.reportArity_eq ..), by simp [hfits]⟩
  · have hnone : splats.findIdx? id = none := by
      rw [List.findIdx?_eq_none_iff]
      intro b hb
      cases b with
      | false => rfl
      | true => exact absurd hb hsplat
    rw [passPositionals, hnone, if_neg hsplat, ← acceptsCount_iff]
    dsimp only
    split
    · next hfits => exact ⟨true, _, bind_of_eq_some (d.bindPlain_eq ..), by simp [hfits]⟩
    · next hfits =>
      exact ⟨false, _, bind_of_eq_some (d.reportArity_eq ..), by simp [hfits]⟩

variable {d : MethodDef} {args : List VertexId} {splats : List Bool} {r : Run}
  {born : VertexId → List Ty}

/-- What is between the splats reaches a parameter that takes all of it. What is before or after
reaches the parameter at its place. -/
theorem bindSpread_spec
    (hnames : ∀ name ∈ d.formals.positional, (d.args.get? name).isSome = true) {first last : Nat}
    (hfirst : first < args.length) (hle : first ≤ last)
    (hbounds : ∀ i, splats[i]? = some true → first ≤ i ∧ i ≤ last)
    (hupper : d.formals.row.rest.isSome = true ∨
      args.length ≤ d.formals.row.leading.length + d.formals.row.post.length)
    (hsettled : r.engine.graph.Settled born) :
    ∃ rest r', d.bindSpread args splats first last r = some ((), r') ∧
      r'.effects.pending.edges = (d.edges (Row.handed args rest
        (d.formals.row.places args.length first last))).foldl OrderedSet.insert
          r.effects.pending.edges ∧
      ∀ (i : Nat) (arg : VertexId), args[i]? = some arg →
        (splats[i]? = some false → d.Receives r' arg) ∧
        (splats[i]? = some true → ∀ t ∈ r.engine.typesAt arg,
          ∃ v, r'.engine.Contributes t v ∧ d.Receives r' v) := by
  obtain ⟨rest, r1, hbetween, hprep, hstands⟩ := between_spec args splats
    (min first d.formals.row.leading.length)
    (max (last + 1) (args.length - d.formals.row.post.length)) hsettled
  refine ⟨rest, _, d.bindSpread_eq hbetween, by rw [← hprep.edges]; rfl, fun i arg harg => ?_⟩
  obtain ⟨name, hname, hall⟩ := Row.exists_between hfirst hle hupper
  have hreaches : ∀ v ∈ rest, d.Receives (r1.joining (d.edges (Row.handed args rest
      (d.formals.row.places args.length first last)))) v := fun v hv =>
    receives_of_handed hname (hnames name hname) (Row.mem_handed_of_between hall hv)
  have hi := (List.getElem?_eq_some_iff.1 harg).1
  constructor
  · intro hplain
    by_cases hstart : i < min first d.formals.row.leading.length
    · obtain ⟨name, hname, hplace⟩ : ∃ name ∈ d.formals.row.leading,
          (name, some i) ∈ d.formals.row.places args.length first last :=
        Row.exists_place_of_lt_start hstart
      have hpos : name ∈ d.formals.positional := mem_positional.2 (by simp [hname])
      exact receives_of_handed hpos (hnames name hpos) (Row.mem_handed_of_place hplace harg)
    by_cases hstop : max (last + 1) (args.length - d.formals.row.post.length) ≤ i
    · obtain ⟨name, hname, hplace⟩ : ∃ name ∈ d.formals.row.post,
          (name, some i) ∈ d.formals.row.places args.length first last :=
        Row.exists_place_of_stop_le hi hstop
      have hpos : name ∈ d.formals.positional := mem_positional.2 (by simp [hname])
      exact receives_of_handed hpos (hnames name hpos) (Row.mem_handed_of_place hplace harg)
    · have hstand := hstands i arg (not_lt.1 hstart) (not_le.1 hstop) harg
      rw [hplain] at hstand
      exact hreaches arg hstand
  · intro hset t ht
    obtain ⟨hlow, hhigh⟩ := hbounds i hset
    have hstand := hstands i arg (by omega) (by omega) harg
    rw [hset] at hstand
    obtain ⟨v, hv, hcontr⟩ := hstand t ht
    exact ⟨v, hcontr, hreaches v hv⟩

/-- No argument of a call with splats is lost. Every place that is looked up is in range. If the
call is accepted, every plain argument and what every type of a splatted one contributes gets an
edge to a parameter; else there is nothing but the diagnostic. -/
theorem splatted_arguments_all_bound (d : MethodDef)
    (hnames : ∀ name ∈ d.formals.positional, (d.args.get? name).isSome = true)
    (node : Option NodeId) (args : List VertexId) (splats : List Bool)
    (hlen : splats.length = args.length) (hsplat : true ∈ splats) (r : Run)
    (born : VertexId → List Ty) (hsettled : r.engine.graph.Settled born) :
    let places := d.formals.row.places args.length (splats.findIdx id)
      (splats.length - 1 - splats.reverse.findIdx id)
    (∀ name i, (name, some i) ∈ places → i < args.length) ∧
    ∃ accepted r', d.passPositionals node args splats r = some (accepted, r') ∧
      (accepted = true →
        (∃ rest, r'.effects.pending.edges =
          (d.edges (Row.handed args rest places)).foldl OrderedSet.insert r.effects.pending.edges) ∧
        ∀ (i : Nat) (arg : VertexId), args[i]? = some arg →
          (splats[i]? = some false → d.Receives r' arg) ∧
          (splats[i]? = some true → ∀ t ∈ r.engine.typesAt arg,
            ∃ v, r'.engine.Contributes t v ∧ d.Receives r' v)) ∧
      (accepted = false → r' = r.reporting (d.complaint node args.length)) := by
  intro places
  obtain ⟨hle, hfirst, hbounds⟩ := findIdx_bounds hsplat
  refine ⟨fun name i => Row.place_lt (hlen ▸ hfirst), ?_⟩
  rw [passPositionals, List.findIdx?_eq_some_iff_findIdx_eq.2 ⟨hfirst, rfl⟩]
  dsimp only
  split
  · next hfits =>
    obtain ⟨rest, r', hrun, hedges, hall⟩ := bindSpread_spec hnames (hlen ▸ hfirst) hle hbounds
      ((upper_all_iff _ _).1 hfits) hsettled
    exact ⟨true, r', bind_of_eq_some hrun, fun _ => ⟨⟨rest, hedges⟩, hall⟩, by simp⟩
  · exact ⟨false, _, bind_of_eq_some (d.reportArity_eq ..), by simp, fun _ => rfl⟩

/-- The two middle arguments go to the rest, the others to the parameters at the ends. -/
theorem splatted_arguments_all_bound_between :
    let d : MethodDef :=
      { key := ⟨⟨Core.object, false⟩, "f"⟩
        formals := { req := ["a"], rest := some "b", post := ["c"] }
        args := ⟨[("a", ⟨1⟩), ("b", ⟨2⟩), ("c", ⟨3⟩)]⟩, block := none, ret := ⟨4⟩ }
    let r : Run := ⟨Engine.boot {}, {}⟩
    ∃ r', d.passPositionals none [⟨5⟩, ⟨6⟩, ⟨7⟩, ⟨8⟩] [false, true, false, false] r =
        some (true, r') ∧
      d.Receives r' ⟨5⟩ ∧ d.Receives r' ⟨7⟩ ∧ d.Receives r' ⟨8⟩ ∧
      ∀ t ∈ r.engine.typesAt ⟨6⟩, ∃ v, r'.engine.Contributes t v ∧ d.Receives r' v := by
  intro d r
  obtain ⟨born, hsourced⟩ := Boot.sourced_boot {}
  obtain ⟨-, accepted, r', hrun, hyes, hno⟩ := splatted_arguments_all_bound d (by decide) none
    [⟨5⟩, ⟨6⟩, ⟨7⟩, ⟨8⟩] [false, true, false, false] rfl (by decide) r born hsourced.settled
  cases accepted with
  | true =>
    have hall := (hyes rfl).2
    exact ⟨r', hrun, (hall 0 _ rfl).1 rfl, (hall 2 _ rfl).1 rfl, (hall 3 _ rfl).1 rfl,
      (hall 1 _ rfl).2 rfl⟩
  | false =>
    obtain ⟨accepted', r'', hrun', haccepted⟩ := d.passPositionals_ends none
      [⟨5⟩, ⟨6⟩, ⟨7⟩, ⟨8⟩] [false, true, false, false] r
    obtain ⟨rfl, -⟩ := Prod.mk.inj (Option.some.inj (hrun.symm.trans hrun'))
    exact absurd (haccepted.2 (by decide)) (by decide)

end MethodDef

def Expansion (least : Nat) (splats : List Bool) (sizes : List Nat) : Prop :=
  List.Forall₂ (fun splat n => if splat = true then least ≤ n else n = 1) splats sizes

def Shape.Admits (s : Shape) (least : Nat) (splats : List Bool) : Prop :=
  ∃ sizes, Expansion least splats sizes ∧ s.Accepts sizes.sum

/-- A single splat makes every greater number of values possible. -/
theorem exists_expansion_iff (least : Nat) (splats : List Bool) (n : Nat) :
    (∃ sizes, Expansion least splats sizes ∧ sizes.sum = n) ↔
      if true ∈ splats then splats.count false + least * splats.count true ≤ n
      else n = splats.length := by
  induction splats generalizing n with
  | nil => simp [Expansion, eq_comm]
  | cons splat splats ih =>
    have hcons : (∃ sizes, Expansion least (splat :: splats) sizes ∧ sizes.sum = n) ↔
        ∃ k m, (if splat = true then least ≤ k else k = 1) ∧
          (∃ sizes, Expansion least splats sizes ∧ sizes.sum = m) ∧ k + m = n := by
      constructor
      · rintro ⟨_, _ | ⟨hk, hrest⟩, hsum⟩
        exact ⟨_, _, hk, ⟨_, hrest, rfl⟩, by simpa using hsum⟩
      · rintro ⟨k, m, hk, ⟨sizes, hrest, rfl⟩, hsum⟩
        exact ⟨k :: sizes, .cons hk hrest, by simpa using hsum⟩
    rw [hcons]
    simp only [ih]
    by_cases hmem : true ∈ splats
    · cases splat with
      | false =>
        simp only [hmem, List.mem_cons, or_true, if_true, Bool.false_eq_true, if_false,
          List.count_cons_self, List.count_cons_of_ne (show false ≠ true by decide)]
        constructor
        · rintro ⟨k, m, rfl, hm, rfl⟩
          omega
        · intro hn
          exact ⟨1, n - 1, rfl, by omega, by omega⟩
      | true =>
        simp only [hmem, List.mem_cons, or_true, if_true, List.count_cons_self,
          List.count_cons_of_ne (show true ≠ false by decide), Nat.mul_succ]
        constructor
        · rintro ⟨k, m, hk, hm, rfl⟩
          omega
        · intro hn
          exact ⟨least, n - least, le_refl _, by omega, by omega⟩
    · have hplain : splats.count true = 0 := List.count_eq_zero_of_not_mem hmem
      have hlength : splats.count false = splats.length := by
        have hboth := List.count_true_add_count_false splats
        omega
      cases splat with
      | false =>
        simp only [hmem, List.mem_cons, Bool.true_eq_false, or_false, if_false, Bool.false_eq_true,
          List.length_cons]
        constructor
        · rintro ⟨k, m, rfl, rfl, rfl⟩
          omega
        · rintro rfl
          exact ⟨1, _, rfl, rfl, by omega⟩
      | true =>
        simp only [hmem, List.mem_cons, true_or, if_true, if_false, List.count_cons_self,
          List.count_cons_of_ne (show true ≠ false by decide), hplain, hlength]
        constructor
        · rintro ⟨k, m, hk, rfl, rfl⟩
          omega
        · intro hn
          exact ⟨n - splats.length, _, by omega, rfl, by omega⟩

theorem Shape.admits_iff (s : Shape) (least : Nat) (splats : List Bool) :
    s.Admits least splats ↔
      if true ∈ splats then s.rest = true ∨
        splats.count false + least * splats.count true ≤ s.req + s.opt + s.post
      else s.Accepts splats.length := by
  have hsum : s.Admits least splats ↔
      ∃ n, (∃ sizes, Expansion least splats sizes ∧ sizes.sum = n) ∧ s.Accepts n := by
    constructor
    · rintro ⟨sizes, hsizes, hn⟩
      exact ⟨_, ⟨sizes, hsizes, rfl⟩, hn⟩
    · rintro ⟨_, ⟨sizes, hsizes, rfl⟩, hn⟩
      exact ⟨sizes, hsizes, hn⟩
  rw [hsum]
  simp only [exists_expansion_iff, Accepts]
  split
  · constructor
    · rintro ⟨n, hn, -, hrest | hn'⟩
      · exact .inl hrest
      · exact .inr (hn.trans hn')
    · rintro (hrest | hn)
      · exact ⟨_, le_max_left _ (s.req + s.post), le_max_right _ _, .inl hrest⟩
      · exact ⟨_, le_max_left _ (s.req + s.post), le_max_right _ _, .inr (by omega)⟩
  · simp

namespace MethodDef

open Staging Arguments

/-- A call is turned down if and only if it cannot fit while every splatted argument stands for at
least one value. It could fit with an empty splat all the same if and only if there is no rest, the
plain arguments alone are not too many, and all arguments together are. -/
theorem rejected_iff_not_admitted (d : MethodDef) (node : Option NodeId) (args : List VertexId)
    (splats : List Bool) (hlen : splats.length = args.length) (r : Run) :
    let shape := d.formals.row.shape
    (∃ accepted r', d.passPositionals node args splats r = some (accepted, r') ∧
      (accepted = false ↔ ¬shape.Admits 1 splats)) ∧
    (shape.Admits 0 splats ∧ ¬shape.Admits 1 splats ↔
      true ∈ splats ∧ shape.rest = false ∧
        splats.count false ≤ shape.req + shape.opt + shape.post ∧
        shape.req + shape.opt + shape.post < args.length) := by
  intro shape
  have hcount : splats.count false + 1 * splats.count true = args.length := by
    have hboth := List.count_true_add_count_false splats
    omega
  have hleading : d.formals.row.leading.length = shape.req + shape.opt := List.length_append
  constructor
  · obtain ⟨accepted, r', hrun, haccepted⟩ := d.passPositionals_ends node args splats r
    refine ⟨accepted, r', hrun, ?_⟩
    rw [← Bool.not_eq_true, haccepted, Shape.admits_iff, hcount, hleading, hlen]
    rfl
  · rw [Shape.admits_iff, Shape.admits_iff, hcount]
    cases hrest : shape.rest <;> by_cases hsplat : true ∈ splats <;> simp [hsplat]

/-- An argument and an empty splat fit a single parameter, and the call is turned down. -/
theorem single_parameter_rejects_empty_splat :
    let d : MethodDef :=
      { key := ⟨⟨Core.object, false⟩, "f"⟩, formals := { req := ["a"] }, args := ⟨[("a", ⟨1⟩)]⟩
        block := none, ret := ⟨2⟩ }
    ¬∀ (node : Option NodeId) (args : List VertexId) (splats : List Bool) (r : Run),
      splats.length = args.length →
        ((∃ r', d.passPositionals node args splats r = some (false, r')) ↔
          ¬d.formals.row.shape.Admits 0 splats) := by
  intro d h
  have hreject := (h none [⟨3⟩, ⟨4⟩] [false, true] ⟨Engine.boot {}, {}⟩ rfl).1 ⟨_, rfl⟩
  exact hreject ⟨[1, 0], .cons rfl (.cons (Nat.zero_le 0) .nil), by decide⟩

theorem rejected_iff_not_admitted_empty_splat :
    let d : MethodDef :=
      { key := ⟨⟨Core.object, false⟩, "f"⟩, formals := { req := ["a"] }, args := ⟨[("a", ⟨1⟩)]⟩
        block := none, ret := ⟨2⟩ }
    d.formals.row.shape.Admits 0 [false, true] ∧ ¬d.formals.row.shape.Admits 1 [false, true] := by
  intro d
  exact (rejected_iff_not_admitted d none [⟨3⟩, ⟨4⟩] [false, true] rfl ⟨Engine.boot {}, {}⟩).2.2
    (by decide)

end MethodDef

end TypeFlow
