import TypeFlow.Proofs.Comparing
import TypeFlow.Proofs.Families

/-!
# Texts depend on sets of types

The text of a vertex is made from the texts of the vertices that its types refer to. A vertex inside
its own types ends the recursion, so it needs no bound on its depth, and the text is the same in
whatever order the types have arrived. The one text that shows this order is that of a call: it
names the methods that the call asks its receiver for, type by type.
-/

set_option autoImplicit false

namespace TypeFlow

/-- The vertices hold the same types, in any order. -/
def Graph.Reordered (g g' : Graph) : Prop := ∀ v, (g'.typesAt v).Perm (g.typesAt v)

namespace Render

theorem sorted_eq_of_perm {as bs : List String} (h : as.Perm bs) : sorted as = sorted bs := by
  have hpairwise : ∀ l : List String, (sorted l).Pairwise (· ≤ ·) := fun l => by
    refine (List.pairwise_mergeSort ?_ ?_ l).imp fun h => of_decide_eq_true h
    · exact fun a b c hab hbc => decide_eq_true
        (String.le_trans (of_decide_eq_true hab) (of_decide_eq_true hbc))
    · exact fun a b => by simpa using String.le_total a b
  refine List.Perm.eq_of_pairwise (fun a b _ _ => String.le_antisymm) (hpairwise as)
    (hpairwise bs) ?_
  exact ((List.mergeSort_perm as _).trans h).trans (List.mergeSort_perm bs _).symm

theorem perm_ofList {α : Type} [DecidableEq α] {as bs : List α} (h : as.Perm bs) :
    (OrderedSet.ofList as).toList.Perm (OrderedSet.ofList bs).toList := by
  refine (List.perm_ext_iff_of_nodup (OrderedSet.nodup_ofList as) (OrderedSet.nodup_ofList bs)).2
    fun a => ?_
  rw [OrderedSet.mem_ofList, OrderedSet.mem_ofList, h.mem_iff]

theorem union_eq_of_perm {types types' : List Ty} {named named' : List String}
    (ht : types.Perm types') (hn : named.Perm named') : union types named = union types' named' :=
      by
  have hany : ∀ p : Ty → Bool, types.any p = types'.any p := fun p => ht.any_eq
  unfold union
  simp only [hany]
  rw [sorted_eq_of_perm ((perm_ofList hn).append_right _)]

def refs (e : Engine) : Ty → List VertexId
  | .instanceOf _ args => args
  | .array (some elems) _ => elems
  | .array none elem => [elem]
  | .proc b => (e.block? b).elim [] fun x => x.ret :: x.params
  | _ => []

theorem type_congr {e : Engine} {t : Ty} {f g : VertexId → String} (h : ∀ u ∈ refs e t, g u = f u) :
    type e g t = type e f t := by
  cases t with
  | instanceOf m args =>
    have hargs : args.map g = args.map f := List.map_congr_left h
    simp only [type, hargs]
  | array elems elem =>
    cases elems with
    | none => simp only [type, h elem (List.mem_singleton_self elem)]
    | some elems =>
      have helems : elems.map g = elems.map f := List.map_congr_left h
      simp only [type, helems]
  | proc b =>
    simp only [type]
    cases hx : e.block? b with
    | none => rfl
    | some x =>
      simp only [refs, hx, Option.elim_some, List.mem_cons] at h
      have hparams : x.params.map g = x.params.map f :=
        List.map_congr_left fun u hu => h u (.inr hu)
      simp only [h x.ret (.inl rfl), hparams]
  | singletonOf | bot | nil | true | false | untyped | var => rfl

inductive Shows (e : Engine) : List VertexId → VertexId → String → Prop where
  | again {visiting : List VertexId} {v : VertexId} (hv : v ∈ visiting) :
    Shows e visiting v "untyped"
  | union {visiting : List VertexId} {v : VertexId} (hv : v ∉ visiting) (text : VertexId → String)
    (hrefs : ∀ t ∈ namedTypes (e.typesAt v), ∀ u ∈ refs e t, Shows e (v :: visiting) u (text u)) :
    Shows e visiting v (Render.union (e.typesAt v) ((namedTypes (e.typesAt v)).map (type e text)))

/-- The induction is on the depth left. There is a level for each vertex that is not being shown
yet, and what is no vertex has no types to go into. -/
theorem shows_vertexWithin {e : Engine} {n : Nat} {visiting : List VertexId} (hn : visiting.Nodup)
    (hin : ∀ u ∈ visiting, u.index < e.graph.vertices.size)
    (hdepth : e.graph.vertices.size < n + visiting.length) (v : VertexId) :
    Shows e visiting v (vertexWithin e n visiting v) := by
  induction n generalizing visiting v with
  | zero =>
    have hsub : visiting ⊆ (List.range e.graph.vertices.size).map VertexId.mk := fun u hu =>
      List.mem_map.2 ⟨u.index, List.mem_range.2 (hin u hu), rfl⟩
    have hlength := (List.subperm_of_subset hn hsub).length_le
    simp only [List.length_map, List.length_range] at hlength
    omega
  | succ n ih =>
    unfold vertexWithin
    split
    · next hv => exact .again hv
    · next hv =>
      refine .union hv _ fun t ht u hu => ?_
      by_cases hsize : v.index < e.graph.vertices.size
      · refine ih (List.nodup_cons.2 ⟨hv, hn⟩) (List.forall_mem_cons.2 ⟨hsize, hin⟩) ?_ u
        rw [List.length_cons]
        omega
      · have hnone : e.typesAt v = [] := by
          show (e.graph.get v).typeList = []
          rw [Graph.get_of_size_le (Nat.le_of_not_lt hsize)]
          rfl
        rw [hnone] at ht
        exact absurd ht List.not_mem_nil

theorem shows_showVertex (e : Engine) (v : VertexId) : Shows e [] v (e.showVertex v) :=
  shows_vertexWithin List.nodup_nil (fun _ hu => absurd hu List.not_mem_nil) (Nat.lt_succ_self _) v

variable {e : Engine} {g : Graph}

theorem Shows.agree (ht : e.graph.Reordered g) {visiting : List VertexId}
    {v : VertexId} {s s' : String} (h : Shows e visiting v s)
    (h' : Shows { e with graph := g } visiting v s') : s' = s := by
  induction h generalizing s' with
  | again hv =>
    cases h' with
    | again => rfl
    | union hnot => exact absurd hv hnot
  | @union visiting v hv text _ ih =>
    cases h' with
    | again hmem => exact absurd hmem hv
    | union _ text' hrefs =>
      have hnamed : (namedTypes (g.typesAt v)).Perm (namedTypes (e.typesAt v)) := (ht v).filter _
      refine union_eq_of_perm (ht v) ((hnamed.map _).trans (.of_eq ?_))
      refine List.map_congr_left fun t hmem => type_congr fun u hu => ?_
      exact ih t hmem u hu (hrefs t (hnamed.mem_iff.2 hmem) u hu)

theorem showVertex_eq (ht : e.graph.Reordered g) (v : VertexId) :
    { e with graph := g }.showVertex v = e.showVertex v :=
  (shows_showVertex e v).agree ht (shows_showVertex _ v)

theorem showType_eq (ht : e.graph.Reordered g) (t : Ty) :
    { e with graph := g }.showType t = e.showType t :=
  type_congr (e := e) fun u _ => showVertex_eq ht u

end Render

open Render

variable {w : Workspace} {g : Graph}

namespace MethodDef

theorem showBlocks_eq {e : Engine} (ht : e.graph.Reordered g) (d : MethodDef) :
    d.showBlocks { e with graph := g } = d.showBlocks e := by
  unfold showBlocks
  simp only [showVertex_eq ht]
  refine sorted_eq_of_perm (perm_ofList (List.Perm.map _ (List.Perm.filterMap _ ?_)))
  cases d.block with
  | none => exact .refl _
  | some v => exact ht v

theorem signature_eq {e : Engine} (ht : e.graph.Reordered g) (d : MethodDef) :
    d.signature { e with graph := g } = d.signature e := by
  have hparam : d.showParam { e with graph := g } = d.showParam e := funext fun name => by
    unfold showParam
    simp only [showVertex_eq ht]
  unfold signature
  rw [hparam, showBlocks_eq ht, showVertex_eq ht]

end MethodDef

namespace Workspace

/-- The same workspace with other types at its vertices. -/
def withGraph (w : Workspace) (g : Graph) : Workspace :=
  { w with engine := { w.engine with graph := g } }

theorem showVertex_withGraph (ht : w.engine.graph.Reordered g) :
    (w.withGraph g).engine.showVertex = w.engine.showVertex :=
  funext (showVertex_eq ht)

theorem perm_receiverKeys (ht : w.engine.graph.Reordered g) (n : NodeId) :
    ((w.withGraph g).receiverKeys n).Perm (w.receiverKeys n) := by
  unfold receiverKeys
  rw [show (w.withGraph g).call? n = w.call? n from rfl]
  cases w.call? n with
  | none => exact .refl _
  | some c => exact perm_ofList (List.Perm.filterMap _ (ht c.recv))

def namedKeys (w : Workspace) (n : Node) : List MemberKey :=
  match n.form with
  | .call .. => w.receiverKeys n.id
  | _ => []

theorem perm_namedKeys (ht : w.engine.graph.Reordered g) (n : Node) :
    ((w.withGraph g).namedKeys n).Perm (w.namedKeys n) := by
  unfold namedKeys
  split
  · exact perm_receiverKeys ht n.id
  · exact .refl _

theorem hover?_eq {path : String} {pos : Pos} {n : Node} (hn : w.nodeAt? path pos = some n) :
    w.hover? path pos = if (w.namedKeys n).isEmpty then
      ((w.engine.record? n.id).bind NodeRecord.ret).map w.engine.showVertex
    else some (String.intercalate "\n" ((w.namedKeys n).map w.engine.world.methodName)) := by
  unfold hover?
  rw [hn]
  change (if (w.namedKeys n).isEmpty then _ else _) = _
  split
  · cases w.engine.record? n.id with
    | none => rfl
    | some x => cases hx : x.ret <;> simp [hx]
  · rfl

theorem hover?_withGraph (ht : w.engine.graph.Reordered g) (path : String)
    (pos : Pos) : (w.withGraph g).hover? path pos = w.hover? path pos ∨
      ∃ keys keys' : List MemberKey, 2 ≤ keys.length ∧ keys'.Perm keys ∧
        w.hover? path pos = some (String.intercalate "\n" (keys.map w.engine.world.methodName)) ∧
        (w.withGraph g).hover? path pos =
          some (String.intercalate "\n" (keys'.map w.engine.world.methodName)) := by
  cases hn : w.nodeAt? path pos with
  | none =>
    refine .inl ?_
    unfold hover?
    rw [show (w.withGraph g).nodeAt? path pos = none from hn, hn]
    rfl
  | some n =>
    have hperm := perm_namedKeys ht n
    rw [hover?_eq (w := w.withGraph g) hn, hover?_eq hn, showVertex_withGraph ht]
    cases hk : w.namedKeys n with
    | nil =>
      rw [hk, List.perm_nil] at hperm
      exact .inl (by rw [hperm]; rfl)
    | cons k ks =>
      rw [hk] at hperm
      have hsome : ((w.withGraph g).namedKeys n).isEmpty = false := by
        rw [List.isEmpty_eq_false_iff]
        exact fun hnil => List.cons_ne_nil k ks (List.nil_perm.1 (hnil ▸ hperm))
      rw [hsome]
      cases ks with
      | nil => exact .inl (by rw [List.perm_singleton.1 hperm]; rfl)
      | cons k' ks =>
        exact .inr ⟨_, _, by simp, hperm, rfl, rfl⟩

theorem methodSignatures_eq (ht : w.engine.graph.Reordered g) (path : ConstPath)
    (singleton : Bool) (name : String) : (w.withGraph g).methodSignatures path singleton name =
      w.methodSignatures path singleton name := by
  have hsignature : ∀ d : MethodDef, d.signature (w.withGraph g).engine = d.signature w.engine :=
    MethodDef.signature_eq ht
  unfold methodSignatures
  simp only [hsignature]
  rfl

theorem constantType?_eq (ht : w.engine.graph.Reordered g) (path : ConstPath) :
    (w.withGraph g).constantType? path = w.constantType? path := by
  unfold constantType?
  rw [showVertex_withGraph ht]
  rfl

end Workspace

open Workspace

def Engine.mismatch (e : Engine) (c : ReturnCheck) (v : VertexId) : String :=
  "expected: " ++ e.showVertex c.formal ++ "; actual: " ++ e.showVertex v

theorem ReturnCheck.checkNode_eq (c : ReturnCheck) {r : Run} {n : NodeId} {v : VertexId}
    (hv : (r.engine.record? n).bind NodeRecord.ret = some v) : c.checkNode n r =
      (Matching.fits v c.formal r).map fun x => ((), if x.1 then x.2 else { x.2 with
        effects := x.2.effects.addDiagnostic ⟨n, .returnTypeMismatch, r.engine.mismatch c v⟩ }) :=
          by
  have hanswers := Matching.answers_compareWithin r.engine
    (r.engine.graph.vertices.size * r.engine.graph.vertices.size + 1) v c.formal r rfl
  have hread : ∀ f : Engine → Staging Unit, (Staging.engine >>= f) r = f r.engine r := fun _ => rfl
  unfold ReturnCheck.checkNode
  rw [hread, hv]
  change (Matching.fits v c.formal r).bind (fun x => (if !x.1 then _ else pure () : Staging Unit)
    x.2) = _
  cases hfits : Matching.fits v c.formal r with
  | none => rfl
  | some x =>
    rw [show Matching.compareWithin _ v c.formal r = some x from hfits] at hanswers
    obtain ⟨b, -, hx⟩ := Option.map_eq_some_iff.1 hanswers.symm
    obtain ⟨rfl, hengine⟩ := Prod.mk.inj hx
    cases hb : x.1 with
    | true => simp [hb]; rfl
    | false =>
      rw [Engine.mismatch, hengine]
      simp [hb]
      rfl

/-- The text of a vertex is that of a recursion which ends without a bound on its depth. Where the
vertices have the same types in another order, they have the same texts; so have constants and
signatures, a check of a return complains in the same words, and so does the text at a position that
names no method or one. If there are two methods or more to be named, their order may be another. -/
theorem rendering_by_type_sets (ht : w.engine.graph.Reordered g) :
    let e := w.engine
    let w' := w.withGraph g
    (∀ v s, Shows e [] v s ↔ s = e.showVertex v) ∧
    (∀ v, w'.engine.showVertex v = e.showVertex v) ∧
    (∀ t, w'.engine.showType t = e.showType t) ∧
    (∀ path, w'.constantType? path = w.constantType? path) ∧
    (∀ path singleton name, w'.methodSignatures path singleton name =
      w.methodSignatures path singleton name) ∧
    (∀ (c : ReturnCheck) n v fx, (e.record? n).bind NodeRecord.ret = some v →
      c.checkNode n ⟨w'.engine, fx⟩ = (Matching.fits v c.formal ⟨w'.engine, fx⟩).map fun x =>
        ((), if x.1 then x.2 else { x.2 with
          effects := x.2.effects.addDiagnostic ⟨n, .returnTypeMismatch, e.mismatch c v⟩ })) ∧
    ∀ path pos, w'.hover? path pos = w.hover? path pos ∨
      ∃ keys keys' : List MemberKey, 2 ≤ keys.length ∧ keys'.Perm keys ∧
        w.hover? path pos = some (String.intercalate "\n" (keys.map e.world.methodName)) ∧
        w'.hover? path pos = some (String.intercalate "\n" (keys'.map e.world.methodName)) := by
  intro e w'
  refine ⟨fun v s => ⟨fun h => ?_, fun h => h ▸ shows_showVertex e v⟩, showVertex_eq ht,
    showType_eq ht, constantType?_eq ht, methodSignatures_eq ht, fun c n v fx hv => ?_,
    hover?_withGraph ht⟩
  · exact (shows_showVertex e v).agree (fun _ => .refl _) h
  · have hmismatch : w'.engine.mismatch c v = e.mismatch c v := by
      unfold Engine.mismatch
      rw [showVertex_withGraph ht]
    rw [ReturnCheck.checkNode_eq c (r := ⟨w'.engine, fx⟩) hv, ← hmismatch]

theorem Graph.reordered_of_slots {g g' : Graph} (hsize : g'.vertices.size = g.vertices.size)
    (h : ∀ i < g.vertices.size, (g'.typesAt ⟨i⟩).Perm (g.typesAt ⟨i⟩)) : g.Reordered g' := by
  rintro ⟨i⟩
  by_cases hi : i < g.vertices.size
  · exact h i hi
  · have hbeyond : g.vertices.size ≤ i := Nat.le_of_not_lt hi
    rw [typesAt, typesAt, get_of_size_le hbeyond, get_of_size_le (hsize.trans_le hbeyond)]

section Arrivals

open Workspace

def assigns (value : String) : String :=
  "\x7b\"type\":\"gvar_write\",\"name\":\"$x\",\"value\":\x7b" ++ value ++ "\x7d\x7d"

def callsGlobal : String :=
  "\x7b\"type\":\"call\",\"recv\":\x7b\"type\":\"gvar_read\",\"name\":\"$x\"\x7d," ++
    "\"name\":\"f\",\"args\":[],\"span\":\x7b\"start\":\x7b\"line\":0,\"column\":0\x7d," ++
    "\"end\":\x7b\"line\":0,\"column\":1\x7d\x7d\x7d"

/-- A number comes to the receiver of a call, then a string. -/
def assigningTwo : List Request :=
  [writing "c" callsGlobal, writing "i" (assigns "\"type\":\"int\",\"value\":1"),
    writing "s" (assigns "\"type\":\"str\",\"value\":\"s\"")]

/-- The number goes and comes back, after the string. -/
def assigningAgain : List Request :=
  assigningTwo ++ [.remove "i", writing "i" (assigns "\"type\":\"int\",\"value\":1")]

theorem reordered_assigningAgain :
    (serve {} assigningTwo).engine.graph.Reordered (serve {} assigningAgain).engine.graph := by
  simp only [serve_eq]
  refine Graph.reordered_of_slots ?_ ?_
  · decide +kernel
  · decide +kernel

/-- The two assignments have one text in both orders. -/
theorem rendering_by_type_sets_two :
    let w := serve {} assigningTwo
    let g := (serve {} assigningAgain).engine.graph
    w.engine.graph.Reordered g ∧
      ∀ v, (w.withGraph g).engine.showVertex v = w.engine.showVertex v :=
  ⟨reordered_assigningAgain, (rendering_by_type_sets reordered_assigningAgain).2.1⟩

/-- The call is shown by the methods that it asks for, in the order in which the types arrived. -/
theorem hover_shows_arrivals :
    let w := serve {} assigningTwo
    let w' := serve {} assigningAgain
    w.engine.graph.Reordered w'.engine.graph ∧
      w.hover? "c" {} = some "Integer#f\nString#f" ∧
      w'.hover? "c" {} = some "String#f\nInteger#f" := by
  refine ⟨reordered_assigningAgain, ?_⟩
  simp only [serve_eq]
  decide +kernel

end Arrivals

end TypeFlow
