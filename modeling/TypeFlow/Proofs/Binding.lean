import TypeFlow.Proofs.Resolution

/-!
# One assignment for two binders

A call of a body connects arguments to parameters, a call of a signature compares them with declared
types. Each works from both ends with indices of its own. Without splats both follow one assignment:
arguments are listed against the parameters that they go to, and the binders see to each parameter
once, with all that goes to it. They accept the same numbers of arguments.
-/

set_option autoImplicit false

namespace TypeFlow

structure Shape where
  req : Nat
  opt : Nat
  rest : Bool
  post : Nat
  deriving DecidableEq

def Shape.Accepts (s : Shape) (n : Nat) : Prop :=
  s.req + s.post ≤ n ∧ (s.rest = true ∨ n ≤ s.req + s.opt + s.post)

instance (s : Shape) (n : Nat) : Decidable (s.Accepts n) := inferInstanceAs (Decidable (_ ∧ _))

structure Row (α : Type) where
  req : List α
  opt : List α
  rest : Option α
  post : List α

namespace Row

variable {α : Type} (row : Row α) (args : List VertexId)

def shape : Shape := ⟨row.req.length, row.opt.length, row.rest.isSome, row.post.length⟩

def slots (n : Nat) : List α :=
  row.req ++ row.opt.take (n - row.req.length - row.post.length) ++
    row.rest.toList.flatMap (.replicate (n - row.req.length - row.opt.length - row.post.length)) ++
    row.post

def assign : List (VertexId × α) := args.zip (row.slots args.length)

def middle : List VertexId := (args.take (args.length - row.post.length)).drop row.req.length

def seen : List (α × List VertexId) :=
  (args.zip row.req ++ (args.drop (args.length - row.post.length)).zip row.post ++
    (row.middle args).zip row.opt).map (fun x => (x.2, [x.1])) ++
  if (row.middle args).drop row.opt.length = [] then []
  else row.rest.toList.map fun p => (p, (row.middle args).drop row.opt.length)

def dealt : List (VertexId × α) := (row.seen args).flatMap fun x => x.2.map (·, x.1)

theorem dealt_eq : row.dealt args =
    args.zip row.req ++ ((args.drop (args.length - row.post.length)).zip row.post ++
      ((row.middle args).zip row.opt ++
        row.rest.toList.flatMap fun p => ((row.middle args).drop row.opt.length).map (·, p))) := by
  have hone : ∀ xs : List (VertexId × α),
      (xs.map fun x => (x.2, [x.1])).flatMap (fun x => x.2.map (·, x.1)) = xs := by
    simp [List.flatMap_map]
  rw [dealt, seen, List.flatMap_append, hone]
  split
  · next hnone => simp [hnone]
  · simp [List.flatMap_map]

theorem zip_take_take {β : Type} (as : List VertexId) (bs : List β) :
    (as.take bs.length).zip (bs.take as.length) = as.zip bs := by
  induction as generalizing bs with
  | nil => simp
  | cons a as ih =>
    cases bs with
    | nil => rfl
    | cons b bs => simp [ih bs]

variable {row args}

theorem length_slots (h : row.shape.Accepts args.length) :
    (row.slots args.length).length = args.length := by
  obtain ⟨hlower, hupper⟩ := h
  simp only [shape] at hlower hupper
  cases hrest : row.rest with
  | none =>
    simp [hrest] at hupper
    simp [slots, hrest]
    omega
  | some p =>
    simp [slots, hrest]
    omega

theorem assign_eq (h : row.shape.Accepts args.length) : row.assign args =
    args.zip row.req ++ ((row.middle args).zip row.opt ++
      ((row.rest.toList.flatMap fun p => ((row.middle args).drop row.opt.length).map (·, p)) ++
        (args.drop (args.length - row.post.length)).zip row.post)) := by
  have hslots := length_slots h
  obtain ⟨hlower, -⟩ := h
  simp only [shape] at hlower
  have hmiddle : (row.middle args).length = args.length - row.req.length - row.post.length := by
    simp only [middle, List.length_drop, List.length_take]
    omega
  have hargs : args = args.take row.req.length ++ ((row.middle args).take row.opt.length ++
      ((row.middle args).drop row.opt.length ++ args.drop (args.length - row.post.length))) := by
    have htake : args.take row.req.length =
        (args.take (args.length - row.post.length)).take row.req.length := by
      rw [List.take_take, Nat.min_eq_left (by omega)]
    rw [← List.append_assoc ((row.middle args).take _), List.take_append_drop, htake, middle,
      ← List.append_assoc, List.take_append_drop, List.take_append_drop]
  simp only [slots, List.length_append, List.length_take] at hslots
  have hreq : (args.take row.req.length).zip row.req = args.zip row.req := by
    rw [← zip_take_take args, List.take_of_length_le (l := row.req) (by omega)]
  have hrest : ((row.middle args).drop row.opt.length).zip (row.rest.toList.flatMap
      (List.replicate (args.length - row.req.length - row.opt.length - row.post.length))) =
      row.rest.toList.flatMap fun p => ((row.middle args).drop row.opt.length).map (·, p) := by
    cases row.rest with
    | none => simp
    | some p =>
      simp only [Option.toList_some, List.flatMap_cons, List.flatMap_nil, List.append_nil]
      rw [List.map_prod_left_eq_zip, List.map_const', List.length_drop, hmiddle]
      congr 2
      omega
  rw [assign]
  conv_lhs => arg 1; rw [hargs]
  rw [slots, List.append_assoc, List.append_assoc,
    List.zip_append (by rw [List.length_take]; omega), hreq,
    List.zip_append (by simp only [List.length_take, hmiddle]; omega), ← hmiddle, zip_take_take,
    List.zip_append, hrest]
  simp only [List.length_drop, hmiddle]
  omega

theorem perm_dealt (h : row.shape.Accepts args.length) :
    (row.dealt args).Perm (row.assign args) := by
  rw [dealt_eq, assign_eq h]
  refine List.Perm.append_left _ (List.perm_append_comm.trans ?_)
  rw [List.append_assoc]

end Row

namespace Run

def joining (r : Run) (es : List (VertexId × VertexId)) : Run :=
  { r with effects := r.effects.mapPending fun p =>
    { p with edges := es.foldl OrderedSet.insert p.edges } }

def reporting (r : Run) (ds : List Diagnostic) : Run :=
  { r with effects := r.effects.mapPending fun p =>
    { p with diagnostics := p.diagnostics ++ ds } }

theorem joining_joining (r : Run) (es es' : List (VertexId × VertexId)) :
    (r.joining es).joining es' = r.joining (es ++ es') := by
  simp [joining, Effects.mapPending, List.foldl_append]

theorem mem_edges_joining {r : Run} {es : List (VertexId × VertexId)} {x : VertexId × VertexId} :
    x ∈ (r.joining es).effects.pending.edges.toList ↔
      x ∈ r.effects.pending.edges.toList ∨ x ∈ es :=
  OrderedSet.mem_foldl_insert

end Run

theorem Staging.bind_of_eq_some {α β : Type} {m : Staging α} {k : α → Staging β} {r r' : Run}
    {a : α} (h : m r = some (a, r')) : (m >>= k) r = k a r' := by
  show (m r).bind _ = _
  rw [h]
  rfl

theorem Staging.forM_joining {α : Type} {f : α → Staging Unit}
    {g : α → List (VertexId × VertexId)} (hf : ∀ a r, f a r = some ((), r.joining (g a)))
    (as : List α) (r : Run) : as.forM f r = some ((), r.joining (as.flatMap g)) := by
  induction as generalizing r with
  | nil => rfl
  | cons a as ih =>
    refine (bind_of_eq_some (hf a r)).trans ((ih _).trans ?_)
    rw [Run.joining_joining]
    rfl

/-- The parameters of a body, by name. -/
def Formals.row (f : Formals) : Row String := ⟨f.req, f.opt, f.rest, f.post⟩

/-- The parameters of a signature, by type. -/
def MethodType.row (mt : MethodType) : Row SigType := ⟨mt.req, mt.opt, mt.rest, mt.post⟩

namespace MethodDef

open Staging Arguments

variable (d : MethodDef)

def edges (xs : List (VertexId × String)) : List (VertexId × VertexId) :=
  xs.flatMap fun x => (d.args.get? x.2).toList.map (x.1, ·)

def complaint (node : Option NodeId) (count : Nat) : List Diagnostic :=
  node.toList.map fun node =>
    { node, kind := .wrongArity, message := arityMessage count d.formals.lower d.formals.upper }

theorem edges_append (xs ys : List (VertexId × String)) :
    d.edges (xs ++ ys) = d.edges xs ++ d.edges ys :=
  List.flatMap_append

theorem bind_eq (actual : VertexId) (name : String) (r : Run) :
    d.bind actual name r = some ((), r.joining (d.edges [(actual, name)])) := by
  unfold bind edges
  cases hname : d.args.get? name <;> simp [hname] <;> rfl

theorem bindEach_eq (actuals : List VertexId) (names : List String) (r : Run) :
    d.bindEach actuals names r = some ((), r.joining (d.edges (actuals.zip names))) := by
  induction actuals generalizing names r with
  | nil => rfl
  | cons actual actuals ih =>
    cases names with
    | nil => rfl
    | cons name names =>
      rw [bindEach, bind_of_eq_some (d.bind_eq ..), ih, Run.joining_joining, ← edges_append]
      rfl

theorem bindAll_eq (actuals : List VertexId) (name : String) (r : Run) :
    d.bindAll actuals name r = some ((), r.joining (d.edges (actuals.map (·, name)))) := by
  refine (forM_joining (fun a r => d.bind_eq a name r) actuals r).trans ?_
  simp only [edges, List.flatMap_map, List.flatMap_singleton]

theorem reportArity_eq (node : Option NodeId) (count : Nat) (r : Run) :
    d.reportArity node count r = some ((), r.reporting (d.complaint node count)) := by
  cases node with
  | none => simp [reportArity, complaint, Run.reporting, Effects.mapPending]; rfl
  | some node => rfl

theorem acceptsCount_iff (f : Formals) (n : Nat) :
    acceptsCount f n = true ↔ f.row.shape.Accepts n := by
  unfold acceptsCount Formals.upper Formals.lower Formals.row Row.shape Shape.Accepts
  cases f.rest <;> simp
  omega

theorem bindPlain_eq (args : List VertexId) (r : Run) :
    d.bindPlain args r = some ((), r.joining (d.edges (d.formals.row.dealt args))) := by
  rw [bindPlain, bind_of_eq_some (d.bindEach_eq ..), bind_of_eq_some (d.bindEach_eq ..),
    bind_of_eq_some (d.bindEach_eq ..), Row.dealt_eq]
  simp only [Run.joining_joining, edges_append, ← List.append_assoc]
  unfold Row.middle Formals.row
  cases d.formals.rest with
  | some name => simp [bindAll_eq, Run.joining_joining]
  | none => simp [edges]; rfl

end MethodDef

theorem allM_append {m : Type → Type} [Monad m] [LawfulMonad m] {α : Type} (p : α → m Bool)
    (xs ys : List α) :
    (xs ++ ys).allM p = (do if ← xs.allM p then ys.allM p else pure false) := by
  induction xs with
  | nil => simp [List.allM]
  | cons x xs ih =>
    simp only [List.cons_append, List.allM, bind_assoc, ih]
    refine bind_congr fun b => ?_
    cases b <;> simp

theorem filter_zipIdx_range (as : List VertexId) (k start stop : Nat) :
    ((as.zipIdx k).filter fun a => start ≤ a.2 && a.2 < stop).map Prod.fst =
      (as.take (stop - k)).drop (start - k) := by
  induction as generalizing k with
  | nil => simp
  | cons a as ih =>
    rw [List.zipIdx_cons]
    have hk := ih (k + 1)
    by_cases hstop : k < stop
    · obtain ⟨n, hn⟩ : ∃ n, stop - k = n + 1 := ⟨stop - k - 1, by omega⟩
      rw [hn, List.take_succ_cons]
      rw [show stop - (k + 1) = n by omega] at hk
      by_cases hstart : start ≤ k
      · rw [List.filter_cons_of_pos (by simp [hstart, hstop]), List.map_cons, hk]
        simp [Nat.sub_eq_zero_of_le hstart, Nat.sub_eq_zero_of_le (Nat.le_succ_of_le hstart)]
      · rw [List.filter_cons_of_neg (by simp [hstart]), hk]
        obtain ⟨i, hi⟩ : ∃ i, start - k = i + 1 := ⟨start - k - 1, by omega⟩
        rw [hi, List.drop_succ_cons, show start - (k + 1) = i by omega]
    · have hnone : stop - k = 0 := by omega
      have hnone' : stop - (k + 1) = 0 := by omega
      rw [List.filter_cons_of_neg (by simp [hstop]), hk, hnone, hnone']
      simp

theorem getD_of_not_mem {splats : List Bool} (h : true ∉ splats) (i : Nat) :
    splats[i]?.getD false = false := by
  cases hi : splats[i]? with
  | none => rfl
  | some b =>
    cases b with
    | false => rfl
    | true => exact absurd (List.mem_of_getElem? hi) h

theorem Arguments.between_plain {splats : List Bool} (h : true ∉ splats) (args : List VertexId)
    (start stop : Nat) :
    between args splats start stop = pure ((args.take stop).drop start) := by
  unfold between
  simp only [getD_of_not_mem h, spread, Bool.false_eq_true, if_false, List.mapM_pure, pure_bind]
  have hrange := filter_zipIdx_range args 0 start stop
  rw [Nat.sub_zero, Nat.sub_zero] at hrange
  rw [← hrange, ← List.flatMap_def, ← List.map_eq_flatMap]

structure Check where
  actual : VertexId
  type : SigType
  formal : VertexId
  run : Run

def Check.Holds (c : Check) : Prop := ∃ r, Matching.fits c.actual c.formal c.run = some (true, r)

def Check.next (c : Check) : Run :=
  ((Matching.fits c.actual c.formal c.run).map Prod.snd).getD c.run

namespace MethodType

open Staging

variable (map : ParamMap)

def checksOf (t : SigType) (formal : VertexId) : List VertexId → Run → List Check × Run
  | [], r => ([], r)
  | actual :: actuals, r =>
    let c : Check := ⟨actual, t, formal, r⟩
    let rest := checksOf t formal actuals c.next
    (c :: rest.1, rest.2)

/-- The comparisons to make when vertices are made for the types in turn, each with the arguments
that go to it. -/
def checks : List (SigType × List VertexId) → Run → List Check
  | [], _ => []
  | (t, actuals) :: rest, r =>
    match t.vertex map r with
    | some (formal, r) =>
      let cs := checksOf t formal actuals r
      cs.1 ++ checks rest cs.2
    | none => []

theorem map_checksOf (t : SigType) (formal : VertexId) (actuals : List VertexId) (r : Run) :
    ((checksOf t formal actuals r).1.map fun c => (c.actual, c.type)) = actuals.map (·, t) := by
  induction actuals generalizing r with
  | nil => rfl
  | cons actual actuals ih => exact congrArg (List.cons _) (ih _)

theorem map_checks (xs : List (SigType × List VertexId)) (r : Run) :
    ((checks map xs r).map fun c => (c.actual, c.type)) = xs.flatMap fun x => x.2.map (·, x.1) := by
  induction xs generalizing r with
  | nil => rfl
  | cons x xs ih =>
    obtain ⟨t, actuals⟩ := x
    obtain ⟨formal, r', hr', -⟩ := (Quiet.vertex map t).ends r
    simp [checks, hr', map_checksOf, ih]

theorem allM_fits {t : SigType} {formal : VertexId} {actuals : List VertexId} {r s : Run} :
    actuals.allM (fun actual => Matching.fits actual formal) r = some (true, s) ↔
      (∀ c ∈ (checksOf t formal actuals r).1, c.Holds) ∧ (checksOf t formal actuals r).2 = s := by
  induction actuals generalizing r with
  | nil =>
    show some (true, r) = _ ↔ _
    simp [checksOf]
  | cons actual actuals ih =>
    rw [checksOf, List.forall_mem_cons]
    show Option.bind (Matching.fits actual formal r) _ = _ ↔ ((∃ r', _ = _) ∧ _) ∧ _
    unfold Check.next
    cases Matching.fits actual formal r with
    | none => simp
    | some x =>
      obtain ⟨b, r'⟩ := x
      cases b with
      | false => simp [pure, StateT.pure]
      | true => simpa using ih

/-- Seeing to the parameters in turn succeeds if and only if every comparison does. -/
theorem allM_matchAll (xs : List (SigType × List VertexId)) (r : Run) :
    (∃ s, xs.allM (fun x => matchAll map x.2 x.1) r = some (true, s)) ↔
      ∀ c ∈ checks map xs r, c.Holds := by
  induction xs generalizing r with
  | nil => simpa [checks] using ⟨r, rfl⟩
  | cons x xs ih =>
    obtain ⟨t, actuals⟩ := x
    obtain ⟨formal, r', hr', -⟩ := (Quiet.vertex map t).ends r
    have hall : matchAll map actuals t r =
        actuals.allM (fun actual => Matching.fits actual formal) r' := bind_of_eq_some hr'
    simp only [checks, hr', List.forall_mem_append, ← ih]
    constructor
    · rintro ⟨s', h⟩
      obtain ⟨⟨b, s⟩, hs, h⟩ := Option.bind_eq_some_iff.1 h
      cases b with
      | false => cases h
      | true =>
        obtain ⟨hfirst, rfl⟩ := (allM_fits (t := t)).1 (hall.symm.trans hs)
        exact ⟨hfirst, s', h⟩
    · rintro ⟨hfirst, s', hrest⟩
      exact ⟨s', (bind_of_eq_some (hall.trans (allM_fits.2 ⟨hfirst, rfl⟩))).trans hrest⟩

theorem matchEach_eq (actuals : List VertexId) (ts : List SigType) :
    matchEach map actuals ts =
      ((actuals.zip ts).map fun x => (x.2, [x.1])).allM (fun x => matchAll map x.2 x.1) := by
  induction actuals generalizing ts with
  | nil => rfl
  | cons actual actuals ih =>
    cases ts with
    | nil => rfl
    | cons t ts =>
      simp only [matchEach, List.zip_cons_cons, List.map_cons, List.allM, matchAll, bind_assoc, ih]
      refine bind_congr fun formal => bind_congr fun b => ?_
      cases b <;> simp

variable (mt : MethodType)

theorem acceptsShape_iff {splats : List Bool} (h : true ∉ splats) (n : Nat) :
    mt.acceptsShape n splats = true ↔ mt.row.shape.Accepts n := by
  have hany : splats.any id = false := by simpa using h
  unfold acceptsShape
  rw [if_neg (by simp [hany])]
  simp only [row, Row.shape, Shape.Accepts, Bool.and_eq_true, Bool.or_eq_true, decide_eq_true_eq,
    Nat.add_right_comm _ mt.opt.length]

theorem beforeSplat_plain {splats : List Bool} (h : true ∉ splats) (args : List VertexId)
    (start : Nat) : beforeSplat args splats start = args := by
  unfold beforeSplat
  rw [List.takeWhile_eq_self_iff.2 fun a _ => by simp [getD_of_not_mem h], List.zipIdx_map_fst]

theorem matchArguments_eq {splats : List Bool} (hs : true ∉ splats) {args : List VertexId}
    (h : mt.row.shape.Accepts args.length) : mt.matchArguments map args splats =
      (mt.row.seen args).allM fun x => matchAll map x.2 x.1 := by
  have hshape : mt.acceptsShape args.length splats = true := (mt.acceptsShape_iff hs _).2 h
  obtain ⟨hlower, hupper⟩ := h
  simp only [row, Row.shape] at hlower hupper
  have hmiddle : (mt.row.middle args).length = args.length - mt.post.length - mt.req.length := by
    simp only [Row.middle, row, List.length_drop, List.length_take]
    omega
  have hopt : ((mt.row.middle args).take mt.opt.length).zip mt.opt =
      (mt.row.middle args).zip mt.opt := by
    rw [← Row.zip_take_take, ← Row.zip_take_take (mt.row.middle args), List.take_take, Nat.min_self]
    congr 1
    rw [List.take_eq_take_iff, List.length_take]
    omega
  have hbind : ∀ {m : Staging Bool} {f g : Staging Bool}, f = g →
      (m >>= fun b => if (!b) = true then pure false else f) =
        (m >>= fun b => if b = true then g else pure false) := by
    rintro m f _ rfl
    refine bind_congr fun b => ?_
    cases b <;> rfl
  unfold matchArguments
  rw [if_neg (by simp [hshape]), Row.seen, List.map_append, List.map_append, List.append_assoc,
    List.append_assoc, allM_append, allM_append, allM_append, ← matchEach_eq, ← matchEach_eq,
    ← matchEach_eq]
  refine hbind ?_
  rw [if_neg (by omega), if_neg (by omega)]
  refine hbind ?_
  dsimp only
  rw [beforeSplat_plain hs, show (args.take (args.length - mt.post.length)).drop mt.req.length =
    mt.row.middle args from rfl, matchEach_eq, hopt, ← matchEach_eq]
  refine hbind ?_
  rw [List.length_take, hmiddle]
  by_cases hsurplus : mt.opt.length < (mt.row.middle args).length
  · obtain ⟨t, ht⟩ := Option.isSome_iff_exists.1 (hupper.resolve_right (by omega))
    have hrest : (args.take (args.length - mt.post.length)).drop (mt.req.length + mt.opt.length) =
        (mt.row.middle args).drop mt.opt.length := List.drop_drop.symm
    rw [Nat.min_eq_left (by omega), if_pos (by omega), Arguments.between_plain hs, hrest,
      List.drop_length, if_neg (by simpa [row] using hsurplus)]
    simp only [pure_bind, List.allM, row, ht]
    refine (bind_pure _).symm.trans (bind_congr fun b => ?_)
    cases b <;> rfl
  · rw [if_neg (by omega), if_pos (by simpa [row] using hsurplus)]
    rfl

end MethodType

namespace MethodDef

/-- Calls without splats are bound by one assignment, whether the method has a body or a signature
of the same shape. Both accept the same numbers of arguments. Then every argument has one parameter:
the body connects it to the vertex of that parameter, and the signature fits if and only if every
argument, compared with the vertex made for the type of its parameter, does. Else nothing is bound.
-/
theorem plain_arguments_bound_alike (d : MethodDef) (mt : MethodType)
    (hshape : d.formals.row.shape = mt.row.shape) (map : ParamMap) (node : Option NodeId)
    (args : List VertexId) (splats : List Bool) (hplain : true ∉ splats) (r : Run) :
    let checks := MethodType.checks map (mt.row.seen args) r
    (mt.acceptsShape args.length splats = true ↔ mt.row.shape.Accepts args.length) ∧
    (mt.row.shape.Accepts args.length →
      (d.formals.row.slots args.length).length = args.length ∧
      (mt.row.slots args.length).length = args.length ∧
      (∃ es, es.Perm (d.edges (d.formals.row.assign args)) ∧
        d.passPositionals node args splats r = some (true, r.joining es)) ∧
      (checks.map fun c => (c.actual, c.type)).Perm (mt.row.assign args) ∧
      ((∃ r', mt.matchArguments map args splats r = some (true, r')) ↔ ∀ c ∈ checks, c.Holds)) ∧
    (¬mt.row.shape.Accepts args.length →
      d.passPositionals node args splats r =
        some (false, r.reporting (d.complaint node args.length)) ∧
      mt.matchArguments map args splats r = some (false, r)) := by
  intro checks
  have hfind : splats.findIdx? id = none := by
    rw [List.findIdx?_eq_none_iff]
    intro b hb
    cases b with
    | false => rfl
    | true => exact absurd hb hplain
  have hcount := acceptsCount_iff d.formals args.length
  have haccepts := mt.acceptsShape_iff hplain args.length
  unfold passPositionals
  rw [hfind]
  refine ⟨haccepts, fun h => ?_, fun h => ⟨?_, ?_⟩⟩
  · have h' : d.formals.row.shape.Accepts args.length := hshape ▸ h
    refine ⟨Row.length_slots h', Row.length_slots h, ⟨_, (Row.perm_dealt h').flatMap_right _, ?_⟩,
      ?_, ?_⟩
    · dsimp only
      rw [if_pos (hcount.2 h'), Staging.bind_of_eq_some (d.bindPlain_eq args r)]
      rfl
    · rw [MethodType.map_checks]
      exact Row.perm_dealt h
    · rw [mt.matchArguments_eq map hplain h]
      exact MethodType.allM_matchAll map _ r
  · dsimp only
    rw [if_neg fun ha => h (hshape ▸ hcount.1 ha), Staging.bind_of_eq_some (d.reportArity_eq ..)]
    rfl
  · unfold MethodType.matchArguments
    rw [if_pos (by simpa using fun ha => h (haccepts.1 ha))]
    rfl

/-- Two of five arguments go to the rest. -/
theorem plain_arguments_bound_alike_five :
    let d : MethodDef :=
      { key := ⟨⟨Core.object, false⟩, "f"⟩
        formals := { req := ["a"], opt := ["b"], rest := some "c", post := ["d"] }
        args := ⟨[("a", ⟨1⟩), ("b", ⟨2⟩), ("c", ⟨3⟩), ("d", ⟨4⟩)]⟩, block := none, ret := ⟨5⟩ }
    let mt : MethodType :=
      { req := [.untyped], opt := [.bool], rest := some .nil, post := [.untyped], ret := .nil }
    let args : List VertexId := [⟨11⟩, ⟨12⟩, ⟨13⟩, ⟨14⟩, ⟨15⟩]
    let r : Run := ⟨Engine.boot {}, {}⟩
    (∃ es, es.Perm [(⟨11⟩, ⟨1⟩), (⟨12⟩, ⟨2⟩), (⟨13⟩, ⟨3⟩), (⟨14⟩, ⟨3⟩), (⟨15⟩, ⟨4⟩)] ∧
      d.passPositionals none args [false, false, false] r = some (true, r.joining es)) ∧
    ((MethodType.checks {} (mt.row.seen args) r).map fun c => (c.actual, c.type)).Perm
      [(⟨11⟩, .untyped), (⟨12⟩, .bool), (⟨13⟩, .nil), (⟨14⟩, .nil), (⟨15⟩, .untyped)] := by
  intro d mt args r
  obtain ⟨-, -, hedges, hchecks, -⟩ := (plain_arguments_bound_alike d mt rfl {} none args
    [false, false, false] (by decide) r).2.1 (by decide)
  exact ⟨hedges, hchecks⟩

end MethodDef

end TypeFlow
