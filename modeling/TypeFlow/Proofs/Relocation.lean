import TypeFlow.Proofs.Matches

/-!
# Trees that move

A tree that moves through the text keeps its forms; what changes are the places of its nodes and of
the method names in its calls. The place of a node plays no part in equality. The place of a method
name is a field of the form of a call like others, so a tree is equal to what it was before it moved
if and only if its method names stayed where they were. An edit that moves a definition takes it
over only then.
-/

set_option autoImplicit false

namespace TypeFlow.Node

section Unplaced

mutual

def unplaced : Node → Node
  | .mk _ _ form => .mk ⟨0⟩ {} (unplacedForm form)

def unplacedForm : Form → Form
  | .program body => .program (unplacedList body)
  | .moduleDef path typeParams body => .moduleDef path typeParams (unplacedList body)
  | .classDef path superclass typeParams body =>
    .classDef path superclass typeParams (unplacedList body)
  | .methodDef name singleton params body =>
    .methodDef name singleton (unplacedParams params) (unplacedList body)
  | .ret value => .ret (unplacedOption value)
  | .next value => .next (unplacedOption value)
  | .call recv name _ args keywords block subclasses =>
    .call (unplacedOption recv) name none (unplacedArgs args) (unplacedOption keywords)
      (unplacedOption block) subclasses
  | .block params body => .block params (unplacedList body)
  | .yield args => .yield (unplacedArgs args)
  | .constWrite name value => .constWrite name (unplaced value)
  | .localWrite name value => .localWrite name (unplaced value)
  | .ivarWrite name value => .ivarWrite name (unplaced value)
  | .gvarWrite name value => .gvarWrite name (unplaced value)
  | .multiAssign targets value => .multiAssign targets (unplaced value)
  | .cond test thenBody elseBody =>
    .cond (unplaced test) (unplacedList thenBody) (unplacedList elseBody)
  | .array elems => .array (unplacedList elems)
  | form => form

def unplacedList : List Node → List Node
  | [] => []
  | n :: ns => unplaced n :: unplacedList ns

def unplacedOption : Option Node → Option Node
  | none => none
  | some n => some (unplaced n)

def unplacedArgs : List Arg → List Arg
  | [] => []
  | .mk value splat :: args => .mk (unplaced value) splat :: unplacedArgs args

def unplacedParams : Params → Params
  | .mk req opt rest post block => .mk req (unplacedOpts opt) rest post block

def unplacedOpts : List OptParam → List OptParam
  | [] => []
  | .mk name value :: opts => .mk name (unplaced value) :: unplacedOpts opts

end

/-- The two trees differ in numbers and places only. -/
def Moved (t t' : Node) : Prop := t.unplaced = t'.unplaced

theorem unplacedList_eq (ns : List Node) : unplacedList ns = ns.map unplaced := by
  induction ns with
  | nil => rfl
  | cons n ns ih => rw [unplacedList, ih, List.map_cons]

theorem unplacedOption_toList (o : Option Node) :
    (unplacedOption o).toList = o.toList.map unplaced := by
  cases o <;> rfl

theorem unplacedArgs_values (args : List Arg) :
    (unplacedArgs args).map Arg.value = (args.map Arg.value).map unplaced := by
  induction args with
  | nil => rfl
  | cons a args ih =>
    obtain ⟨value, splat⟩ := a
    simp only [unplacedArgs, List.map_cons, ih, Arg.value]

theorem unplacedOpts_values (opts : List OptParam) :
    (unplacedOpts opts).map OptParam.value = (opts.map OptParam.value).map unplaced := by
  induction opts with
  | nil => rfl
  | cons o opts ih =>
    obtain ⟨name, value⟩ := o
    simp only [unplacedOpts, List.map_cons, ih, OptParam.value]

theorem children_unplaced (n : Node) : n.unplaced.children = n.children.map unplaced := by
  obtain ⟨i, s, f⟩ := n
  cases f with
  | program | moduleDef | classDef | block | array => exact unplacedList_eq _
  | methodDef name singleton params body =>
    obtain ⟨req, opt, rest, post, block⟩ := params
    simp only [unplaced, unplacedForm, unplacedParams, children, form, Form.children, Params.opt,
      List.map_append, unplacedList_eq, unplacedOpts_values]
  | ret | next => exact unplacedOption_toList _
  | call recv name nameSpan args keywords block subclasses =>
    simp only [unplaced, unplacedForm, children, form, Form.children, List.map_append,
      unplacedOption_toList, unplacedArgs_values]
  | yield => exact unplacedArgs_values _
  | cond test thenBody elseBody =>
    simp only [unplaced, unplacedForm, children, form, Form.children, List.map_append,
      List.map_cons, unplacedList_eq]
  | _ => rfl

variable {t t' : Node}

theorem Moved.children (h : Moved t t') : List.Forall₂ Moved t.children t'.children := by
  have hmap := congrArg Node.children h
  rw [children_unplaced, children_unplaced] at hmap
  rw [← List.forall₂_eq_eq_eq, List.forall₂_map_left_iff, List.forall₂_map_right_iff] at hmap
  exact hmap

end Unplaced

section Names

/-- The places of the method names of a tree, in the order of a walk. -/
def nameSpans (t : Node) : List (Option Span) := t.walk.map nameSpan

theorem nameSpans_eq (t : Node) : t.nameSpans = t.nameSpan :: t.children.flatMap nameSpans := by
  unfold nameSpans
  rw [walk_eq, List.map_cons, List.map_flatMap]

variable {t t' : Node}

theorem nameSpan_of_alike (h : alike t t' = true) : t.nameSpan = t'.nameSpan := by
  obtain ⟨i, s, f⟩ := t
  obtain ⟨j, s', g⟩ := t'
  rw [alike, alikeForm.eq_def] at h
  split at h
  case h_7 =>
    simp only [Bool.and_eq_true, beq_iff_eq] at h
    exact h.1.1.1.1.2
  case h_34 => cases h
  all_goals rfl

theorem nameSpans_of_alike (h : alike t t' = true) : t.nameSpans = t'.nameSpans := by
  unfold nameSpans
  rw [← List.forall₂_eq_eq_eq, List.forall₂_map_left_iff, List.forall₂_map_right_iff]
  exact (alikes_walk t t' h).imp fun _ _ => nameSpan_of_alike

theorem Moved.length_nameSpans (t : Node) :
    ∀ t', Moved t t' → t.nameSpans.length = t'.nameSpans.length := by
  induction t using induct with
  | h t ih =>
    intro t' h
    rw [nameSpans_eq t, nameSpans_eq t', List.length_cons, List.length_cons]
    congr 1
    have hchildren := h.children
    generalize t'.children = bs at hchildren
    generalize t.children = as at ih hchildren
    induction hchildren with
    | nil => rfl
    | cons hab _ ihs =>
      rw [List.flatMap_cons, List.flatMap_cons, List.length_append, List.length_append,
        ih _ List.mem_cons_self _ hab, ihs fun c hc => ih c (List.mem_cons_of_mem _ hc)]

end Names

section Forms

variable {R : Node → Node → Prop}

theorem forall₂_append_inv {α β : Type} {R : α → β → Prop} {as as' : List α} {bs bs' : List β}
    (hlength : as.length = bs.length) (h : List.Forall₂ R (as ++ as') (bs ++ bs')) :
    List.Forall₂ R as bs ∧ List.Forall₂ R as' bs' := by
  have htake := List.forall₂_take_append _ _ _ h
  have hdrop := List.forall₂_drop_append _ _ _ h
  rw [← hlength, List.take_left] at htake
  rw [← hlength, List.drop_left] at hdrop
  exact ⟨htake, hdrop⟩

theorem alikeList_of_alikes {as bs : List Node} (h : Alikes as bs) : alikeList as bs = true := by
  induction h with
  | nil => rw [alikeList]
  | cons hab _ ih => rw [alikeList, hab, ih]; rfl

theorem alikeOption_of_alikes {a b : Option Node} (h : Alikes a.toList b.toList) :
    alikeOption a b = true := by
  cases a <;> cases b <;> simp_all [alikeOption, Alikes]

theorem alikeArgs_of_alikes {as bs : List Arg} (hu : unplacedArgs as = unplacedArgs bs)
    (h : Alikes (as.map Arg.value) (bs.map Arg.value)) : alikeArgs as bs = true := by
  induction as generalizing bs with
  | nil =>
    cases bs with
    | nil => rw [alikeArgs]
    | cons b bs => cases b; cases hu
  | cons a as ih =>
    obtain ⟨value, splat⟩ := a
    cases bs with
    | nil => cases hu
    | cons b bs =>
      obtain ⟨value', splat'⟩ := b
      simp only [unplacedArgs, List.cons.injEq, Arg.mk.injEq] at hu
      cases h with
      | cons hvalue hrest =>
        simp only [alikeArgs, ih hu.2 hrest, hu.1.2, beq_self_eq_true, Bool.and_true]
        exact hvalue

theorem alikeOpts_of_alikes {as bs : List OptParam} (hu : unplacedOpts as = unplacedOpts bs)
    (h : Alikes (as.map OptParam.value) (bs.map OptParam.value)) : alikeOpts as bs = true := by
  induction as generalizing bs with
  | nil =>
    cases bs with
    | nil => rw [alikeOpts]
    | cons b bs => cases b; cases hu
  | cons a as ih =>
    obtain ⟨name, value⟩ := a
    cases bs with
    | nil => cases hu
    | cons b bs =>
      obtain ⟨name', value'⟩ := b
      simp only [unplacedOpts, List.cons.injEq, OptParam.mk.injEq] at hu
      cases h with
      | cons hvalue hrest =>
        simp only [alikeOpts, ih hu.2 hrest, hu.1.1, beq_self_eq_true, Bool.and_true, Bool.true_and]
        exact hvalue

/-- Forms that differ in places only, and have their method names at the same place, are equal if
their children are. -/
theorem alikeForm_of_alikes {i j : NodeId} {s s' : Span} {f g : Form}
    (hu : unplacedForm f = unplacedForm g) (hname : (Node.mk i s f).nameSpan =
      (Node.mk j s' g).nameSpan)
    (h : Alikes f.children g.children) : alikeForm f g = true := by
  cases f <;> cases g <;> simp only [unplacedForm, reduceCtorEq] at hu
  case program.program | array.array =>
    rw [alikeForm]
    exact alikeList_of_alikes h
  case moduleDef.moduleDef | classDef.classDef | block.block =>
    simp only [Form.moduleDef.injEq, Form.classDef.injEq, Form.block.injEq] at hu
    simp only [alikeForm, hu, beq_self_eq_true, Bool.true_and]
    exact alikeList_of_alikes h
  case methodDef.methodDef params body _ _ params' body' =>
    obtain ⟨req, opt, rest, post, block⟩ := params
    obtain ⟨req', opt', rest', post', block'⟩ := params'
    simp only [Form.methodDef.injEq, unplacedParams, Params.mk.injEq] at hu
    obtain ⟨rfl, rfl, ⟨rfl, hopt, rfl, rfl, rfl⟩, -⟩ := hu
    have hlength := congrArg (fun os => (os.map OptParam.value).length) hopt
    simp only [unplacedOpts_values, List.length_map] at hlength
    simp only [Form.children, Params.opt] at h
    obtain ⟨hopts, hbody⟩ := forall₂_append_inv (by simpa using hlength) h
    simp only [alikeForm, alikeParams, beq_self_eq_true, Bool.and_true,
      alikeOpts_of_alikes hopt hopts,
      alikeList_of_alikes hbody]
  case ret.ret | next.next =>
    rw [alikeForm]
    exact alikeOption_of_alikes h
  case call.call recv _ _ args keywords block _ recv' _ _ args' keywords' block' _ =>
    simp only [Form.call.injEq] at hu
    obtain ⟨hrecv, rfl, -, hargs, hkeywords, hblock, rfl⟩ := hu
    have hrecv := congrArg (fun o => o.toList.length) hrecv
    have hkeywords := congrArg (fun o => o.toList.length) hkeywords
    have hlength := congrArg (fun as => (as.map Arg.value).length) hargs
    simp only [unplacedOption_toList, unplacedArgs_values, List.length_map]
      at hrecv hkeywords hlength
    simp only [Form.children, List.append_assoc] at h
    obtain ⟨h1, h⟩ := forall₂_append_inv hrecv h
    obtain ⟨h2, h⟩ := forall₂_append_inv (by simpa using hlength) h
    obtain ⟨h3, h4⟩ := forall₂_append_inv hkeywords h
    simp only [nameSpan, form] at hname
    simp only [alikeForm, hname, beq_self_eq_true, Bool.and_true, alikeOption_of_alikes h1,
      alikeArgs_of_alikes hargs h2, alikeOption_of_alikes h3, alikeOption_of_alikes h4]
  case yield.yield =>
    rw [alikeForm]
    exact alikeArgs_of_alikes (Form.yield.inj hu) h
  case constWrite.constWrite | localWrite.localWrite | ivarWrite.ivarWrite | gvarWrite.gvarWrite
    | multiAssign.multiAssign =>
    simp only [Form.constWrite.injEq, Form.localWrite.injEq, Form.ivarWrite.injEq,
      Form.gvarWrite.injEq, Form.multiAssign.injEq] at hu
    cases h with
    | cons hvalue _ => simp only [alikeForm, hu, beq_self_eq_true, hvalue, Bool.and_true]
  case cond.cond =>
    simp only [Form.cond.injEq, unplacedList_eq] at hu
    have hlength := congrArg List.length hu.2.1
    rw [List.length_map, List.length_map] at hlength
    cases h with
    | cons htest h =>
      obtain ⟨hthen, helse⟩ := forall₂_append_inv hlength h
      simp only [alikeForm, htest, alikeList_of_alikes hthen, alikeList_of_alikes helse,
        Bool.and_true]
  case float.float =>
    cases hu
    simp only [alikeForm, Double.sameValue_refl]
  all_goals
    cases hu
    simp only [alikeForm, beq_self_eq_true, Bool.and_true]

end Forms

theorem alikes_of_nameSpans {as bs : List Node} (h : List.Forall₂ Moved as bs)
    (halike : ∀ a ∈ as, ∀ b, Moved a b → a.nameSpans = b.nameSpans → alike a b = true)
    (hnames : as.flatMap nameSpans = bs.flatMap nameSpans) : Alikes as bs := by
  induction h with
  | nil => exact .nil
  | @cons a b as bs hab _ ih =>
    rw [List.flatMap_cons, List.flatMap_cons] at hnames
    obtain ⟨hhead, htail⟩ := List.append_inj hnames (Moved.length_nameSpans a b hab)
    exact .cons (halike a List.mem_cons_self b hab hhead)
      (ih (fun c hc => halike c (List.mem_cons_of_mem _ hc)) htail)

theorem alike_of_nameSpans (t : Node) :
    ∀ t', Moved t t' → t.nameSpans = t'.nameSpans → alike t t' = true := by
  induction t using induct with
  | h t ih =>
    intro t' h hnames
    rw [nameSpans_eq t, nameSpans_eq t'] at hnames
    obtain ⟨hname, hnames⟩ := List.cons.inj hnames
    have hchildren := alikes_of_nameSpans h.children ih hnames
    obtain ⟨i, s, f⟩ := t
    obtain ⟨j, s', g⟩ := t'
    rw [alike]
    exact alikeForm_of_alikes (congrArg Node.form h) hname hchildren

theorem Moved.alike_iff {t t' : Node} (h : Moved t t') :
    alike t t' = true ↔ t.nameSpans = t'.nameSpans :=
  ⟨nameSpans_of_alike, alike_of_nameSpans t t' h⟩

section Kinds

variable {t t' : Node}

theorem isReusable_unplaced (n : Node) : n.unplaced.isReusable = n.isReusable := by
  obtain ⟨i, s, f⟩ := n
  cases f <;> rfl

theorem containerBody?_unplaced (n : Node) :
    n.unplaced.containerBody? = n.containerBody?.map (List.map unplaced) := by
  obtain ⟨i, s, f⟩ := n
  cases f with
  | program | moduleDef | classDef => exact congrArg some (unplacedList_eq _)
  | _ => rfl

theorem sameHeader_unplaced (n m : Node) : sameHeader n.unplaced m.unplaced = sameHeader n m := by
  obtain ⟨i, s, f⟩ := n
  obtain ⟨j, s', g⟩ := m
  cases f with
  | program | moduleDef | classDef => cases g <;> rfl
  | _ => rfl

theorem sameHeader_self (n : Node) : sameHeader n n = n.containerBody?.isSome := by
  obtain ⟨i, s, f⟩ := n
  cases f with
  | moduleDef | classDef => simp [sameHeader, containerBody?, form]
  | _ => rfl

theorem Moved.sameHeader_eq (h : Moved t t') :
    sameHeader t' t = t'.containerBody?.isSome ∧ sameHeader t' t = t.containerBody?.isSome := by
  have hself := sameHeader_self t'.unplaced
  have hself' := sameHeader_self t.unplaced
  rw [containerBody?_unplaced, Option.isSome_map] at hself hself'
  rw [← sameHeader_unplaced]
  exact ⟨(congrArg _ h).trans hself, (congrArg (sameHeader · _) h.symm).trans hself'⟩

theorem Moved.isReusable_eq (h : Moved t t') : t'.isReusable = t.isReusable := by
  rw [← isReusable_unplaced t', ← isReusable_unplaced t, h]

theorem Moved.recognized (h : Moved t t') (hequal : t'.isReusable = true → alike t t' = true) :
    Recognized t t' :=
  ⟨h.isReusable_eq, h.sameHeader_eq.1.symm, h.sameHeader_eq.2.symm, hequal⟩

end Kinds

section Opposite

/-- Two statements at the same place in the bodies of containers, which are at the same place in the
two trees. -/
inductive Opposite : Node → Node → Node → Node → Prop where
  | within {t t' stmt stmt' : Node} (hbody : t.containerBody?.isSome = true)
    (hstmt : (stmt', stmt) ∈ t'.children.zip t.children) : Opposite t t' stmt stmt'
  | nested {t t' c c' stmt stmt' : Node} (hbody : t.containerBody?.isSome = true)
    (hc : (c', c) ∈ t'.children.zip t.children) (h : Opposite c c' stmt stmt') :
    Opposite t t' stmt stmt'

variable {t t' stmt stmt' : Node}

theorem Moved.of_mem_zip (h : Moved t t') {c c' : Node} (hc : (c', c) ∈ t'.children.zip t.children)
    :
    Moved c c' :=
  ((List.forall₂_iff_zip.1 (Moved.children h.symm)).2 hc).symm

theorem Opposite.moved (h : Opposite t t' stmt stmt') (hmoved : Moved t t') : Moved stmt stmt' := by
  induction h with
  | within _ hstmt => exact hmoved.of_mem_zip hstmt
  | nested _ hc _ ih => exact ih (hmoved.of_mem_zip hc)

theorem Opposite.mem_walk (h : Opposite t t' stmt stmt') :
    stmt ∈ t.walk ∧ stmt' ∈ t'.walk := by
  have hself : ∀ n : Node, n ∈ n.walk := fun n => by
    rw [walk_eq]
    exact List.mem_cons_self
  induction h with
  | within _ hstmt =>
    obtain ⟨hnew, hold⟩ := List.of_mem_zip hstmt
    exact ⟨walk_subset_of_mem_children hold (hself _), walk_subset_of_mem_children hnew (hself _)⟩
  | nested _ hc _ ih =>
    obtain ⟨hnew, hold⟩ := List.of_mem_zip hc
    exact ⟨walk_subset_of_mem_children hold ih.1, walk_subset_of_mem_children hnew ih.2⟩

theorem Opposite.isSome_body (h : Opposite t t' stmt stmt') : t.containerBody?.isSome = true := by
  cases h with
  | within hbody | nested hbody => exact hbody

theorem Opposite.alike_of_alike (h : Opposite t t' stmt stmt') (hequal : alike t t' = true) :
    alike stmt stmt' = true := by
  induction h with
  | within _ hstmt => exact (List.forall₂_iff_zip.1 (alikes_children hequal).flip).2 hstmt
  | nested _ hc _ ih => exact ih ((List.forall₂_iff_zip.1 (alikes_children hequal).flip).2 hc)

theorem alike_of_mem_pairing {new old a b : Node} (hnew : new.ids.Nodup) (hold : old.ids.Nodup)
    (ha : a ∈ new.walk) (hb : b ∈ old.walk) (h : (a.id, b.id) ∈ pairing new old) :
    alike b a = true := by
  obtain ⟨ms, hms, hmatches⟩ := exists_matches new old
  rw [hms] at h
  obtain ⟨m, hm, hmem⟩ := List.mem_flatMap.1 h
  obtain ⟨cs, ds, hcs, hds, -⟩ := (hmatches m hm).headers
  obtain ⟨a', ha', b', hb', hia, hib, hequal⟩ := equal_of_mem_pairAll (hmatches m hm).equal hmem
  rw [List.inj_on_of_nodup_map hnew (hcs.walk_subset ha') ha hia,
    List.inj_on_of_nodup_map hold (hds.walk_subset hb') hb hib] at hequal
  exact hequal

theorem Opposite.pairAll_subset (h : Opposite t t' stmt stmt') (hmoved : Moved t t')
    (hequal : ∀ o s, Opposite t t' o s → s.isReusable = true → alike o s = true)
    (hreusable : stmt'.isReusable = true) : pairAll stmt' stmt ⊆ pairing t' t := by
  have hpairing : ∀ {t t' : Node}, Moved t t' → t.containerBody?.isSome = true →
      (∀ o s, Opposite t t' o s → s.isReusable = true → alike o s = true) →
      pairing t' t = (t'.children.zip t.children).flatMap takeover := by
    intro t t' hmoved hbody hequal
    refine pairing_recognized (hmoved.sameHeader_eq.2.trans hbody) (List.Forall₂.flip ?_)
    refine List.forall₂_iff_zip.2 ⟨hmoved.children.length_eq.symm, fun {s o} hmem => ?_⟩
    exact (hmoved.of_mem_zip hmem).recognized (hequal o s (.within hbody hmem))
  induction h with
  | within hbody hstmt =>
    rw [hpairing hmoved hbody hequal]
    intro x hx
    refine List.mem_flatMap.2 ⟨_, hstmt, ?_⟩
    rw [takeover, if_pos hreusable]
    exact hx
  | @nested t t' c c' stmt stmt' hbody hc h ih =>
    rw [hpairing hmoved hbody hequal]
    intro x hx
    refine List.mem_flatMap.2 ⟨_, hc, ?_⟩
    have hcontainer : ¬c'.isReusable = true := fun hreusable' => by
      have hbody' := h.isSome_body
      rw [(hmoved.of_mem_zip hc).isReusable_eq] at hreusable'
      rw [containerBody?_of_isReusable hreusable'] at hbody'
      cases hbody'
    rw [takeover, if_neg hcontainer]
    exact ih (hmoved.of_mem_zip hc) (fun o s hos => hequal o s (.nested hbody hc hos)) hreusable hx

end Opposite

/-- A tree that moved is equal to what it was before if and only if its method names stayed where
they were. The definitions of a tree that moved are all taken over from their own originals if and
only if the method names in them stayed. -/
theorem moved_definitions_taken_over_iff {t t' : Node} (h : Moved t t') (hids : t.ids.Nodup)
    (hids' : t'.ids.Nodup) :
    (alike t t' = true ↔ t.nameSpans = t'.nameSpans) ∧
    ((∀ stmt stmt', Opposite t t' stmt stmt' → stmt'.isReusable = true →
        stmt'.ids.map (pairing t' t).old? = stmt.ids.map some) ↔
      ∀ stmt stmt', Opposite t t' stmt stmt' → stmt'.isReusable = true →
        stmt.nameSpans = stmt'.nameSpans) := by
  have hfst := hids'.sublist (sublist_fst_pairing t' t)
  refine ⟨h.alike_iff, fun htaken stmt stmt' hopp hreusable => ?_,
    fun hnames stmt stmt' hopp hreusable => ?_⟩
  · have hfirst := htaken stmt stmt' hopp hreusable
    rw [ids_eq stmt, ids_eq stmt', List.map_cons, List.map_cons] at hfirst
    have hmem := (old?_eq_some_iff hfst).1 (List.cons.inj hfirst).1
    obtain ⟨hstmt, hstmt'⟩ := hopp.mem_walk
    exact nameSpans_of_alike (alike_of_mem_pairing hids' hids hstmt' hstmt hmem)
  · have hequal : ∀ o s, Opposite t t' o s → s.isReusable = true → alike o s = true :=
      fun o s hos hs => (hos.moved h).alike_iff.2 (hnames o s hos hs)
    exact map_old?_ids hfst (hequal stmt stmt' hopp hreusable)
      (hopp.pairAll_subset h hequal hreusable)

def caller (line : Nat) (name : Option Span) : Node :=
  (Node.ofForm (.methodDef "m" false .none
    [(Node.ofForm (.call none "foo" name [] none none none)).onLine line 2 5])).onLine line 0 9

/-- Without places for method names, a class that moves with its method takes it over. -/
theorem moved_definitions_taken_over_nameless :
    let tree (line : Nat) : Node :=
      .ofForm (.program [(classAt "A" none [caller (line + 1) none]).onLine line 0 1])
    let old : Node := (Node.number 0 (tree 1)).1
    let new : Node := (Node.number 20 (tree 7)).1
    Moved old new ∧ alike old new = true ∧
      ∀ stmt stmt', Opposite old new stmt stmt' → stmt'.isReusable = true →
        stmt'.ids.map (pairing new old).old? = stmt.ids.map some := by
  intro tree old new
  have hmoved : Moved old new := rfl
  obtain ⟨hequal, htaken⟩ := moved_definitions_taken_over_iff hmoved (nodup_ids_number (tree 1) 0)
    (nodup_ids_number (tree 7) 20)
  have hsame : alike old new = true := hequal.2 (by decide +kernel)
  exact ⟨hmoved, hsame, htaken.2 fun _ _ hopp _ => nameSpans_of_alike (hopp.alike_of_alike hsame)⟩

/-- A method name that moves with its call makes the method another one: nothing is taken over. -/
theorem moved_call_unlike :
    let tree (line : Nat) : Node :=
      .ofForm (.program [caller line (some ⟨⟨line, 2⟩, ⟨line, 5⟩⟩)])
    let old : Node := (Node.number 0 (tree 1)).1
    let new : Node := (Node.number 20 (tree 2)).1
    Moved old new ∧ alike old new = false ∧ pairing new old = [] := by
  intro tree old new
  exact ⟨rfl, by decide +kernel, by decide +kernel⟩

end TypeFlow.Node
