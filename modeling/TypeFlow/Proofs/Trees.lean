import Mathlib.Data.List.Forall2
import Mathlib.Data.List.Nodup
import TypeFlow.Tree.Numbering
import TypeFlow.Tree.Pairing

/-!
# Trees

Facts about the nodes of a tree: what holds of a node whenever it holds of its children holds of
every node.
-/

set_option autoImplicit false

namespace TypeFlow.Node

section Induction

variable {c : Node}

theorem sizeOf_lt_args {as : List Arg} (h : c ∈ as.map Arg.value) : sizeOf c < sizeOf as := by
  obtain ⟨⟨v, b⟩, ha, rfl⟩ := List.mem_map.1 h
  have := List.sizeOf_lt_of_mem ha
  simp [Arg.value] at this ⊢
  omega

theorem sizeOf_lt_opts {os : List OptParam} (h : c ∈ os.map OptParam.value) :
    sizeOf c < sizeOf os := by
  obtain ⟨⟨name, v⟩, ho, rfl⟩ := List.mem_map.1 h
  have := List.sizeOf_lt_of_mem ho
  simp [OptParam.value] at this ⊢
  omega

theorem sizeOf_lt_option {o : Option Node} (h : c ∈ o.toList) : sizeOf c < sizeOf o := by
  cases o with
  | none => exact absurd h List.not_mem_nil
  | some n =>
    rw [List.mem_singleton.1 h]
    simp

theorem sizeOf_lt_form {f : Form} (h : c ∈ f.children) : sizeOf c < sizeOf f := by
  cases f with
  | program body | moduleDef _ _ body | classDef _ _ _ body | block _ body | array body =>
    have := List.sizeOf_lt_of_mem (show c ∈ body from h)
    simp
    omega
  | methodDef name singleton params body =>
    obtain ⟨req, opt, rest, post, block⟩ := params
    simp only [Form.children, List.mem_append] at h
    rcases h with h | h
    · have := sizeOf_lt_opts h
      simp [Params.opt] at this ⊢
      omega
    · have := List.sizeOf_lt_of_mem h
      simp
      omega
  | ret value | next value =>
    have := sizeOf_lt_option (show c ∈ value.toList from h)
    simp
    omega
  | call recv name nameSpan args keywords block subclasses =>
    simp only [Form.children, List.mem_append] at h
    rcases h with ((h | h) | h) | h
    · have := sizeOf_lt_option h
      simp
      omega
    · have := sizeOf_lt_args h
      simp
      omega
    · have := sizeOf_lt_option h
      simp
      omega
    · have := sizeOf_lt_option h
      simp
      omega
  | yield args =>
    have := sizeOf_lt_args (show c ∈ args.map Arg.value from h)
    simp
    omega
  | constWrite _ value | localWrite _ value | ivarWrite _ value | gvarWrite _ value
  | multiAssign _ value =>
    rw [List.mem_singleton.1 (show c ∈ [value] from h)]
    simp only [Form.constWrite.sizeOf_spec, Form.localWrite.sizeOf_spec,
      Form.ivarWrite.sizeOf_spec, Form.gvarWrite.sizeOf_spec, Form.multiAssign.sizeOf_spec]
    omega
  | cond test thenBody elseBody =>
    simp only [Form.children, List.cons_append, List.mem_cons, List.mem_append] at h
    rcases h with rfl | h | h
    · simp
      omega
    · have := List.sizeOf_lt_of_mem h
      simp
      omega
    · have := List.sizeOf_lt_of_mem h
      simp
      omega
  | _ => exact absurd h List.not_mem_nil

theorem sizeOf_lt_of_mem_children {n : Node} (h : c ∈ n.children) : sizeOf c < sizeOf n := by
  obtain ⟨i, s, f⟩ := n
  have := sizeOf_lt_form (show c ∈ f.children from h)
  simp
  omega

theorem induct {P : Node → Prop} (h : ∀ n, (∀ c ∈ n.children, P c) → P n) (n : Node) : P n :=
  h n fun c _ => induct h c
termination_by sizeOf n
decreasing_by exact sizeOf_lt_of_mem_children ‹_›

end Induction

/-- The identities of the nodes of a tree, parents first. -/
def ids (n : Node) : List NodeId := n.walk.map Node.id

def idsAll (ns : List Node) : List NodeId := ns.flatMap ids

theorem ids_eq (n : Node) : n.ids = n.id :: idsAll n.children := by
  unfold ids idsAll
  rw [walk_eq, List.map_cons, List.map_flatMap]
  rfl

theorem idsAll_cons (n : Node) (ns : List Node) : idsAll (n :: ns) = n.ids ++ idsAll ns :=
  List.flatMap_cons

theorem idsAll_append (ns ms : List Node) : idsAll (ns ++ ms) = idsAll ns ++ idsAll ms :=
  List.flatMap_append

section Numbering

theorem numberList_append (next : Nat) (ns ms : List Node) :
    numberList next (ns ++ ms) =
      ((numberList next ns).1 ++ (numberList (numberList next ns).2 ms).1,
        (numberList (numberList next ns).2 ms).2) := by
  induction ns generalizing next with
  | nil => rfl
  | cons n ns ih => simp [numberList, ih]

theorem numberOption_toList (next : Nat) (o : Option Node) :
    ((numberOption next o).1.toList, (numberOption next o).2) = numberList next o.toList := by
  cases o <;> rfl

theorem numberArgs_values (next : Nat) (args : List Arg) :
    ((numberArgs next args).1.map Arg.value, (numberArgs next args).2) =
      numberList next (args.map Arg.value) := by
  induction args generalizing next with
  | nil => rfl
  | cons a args ih =>
    obtain ⟨value, splat⟩ := a
    simp [numberArgs, numberList, Arg.value, ← ih]

theorem numberOpts_values (next : Nat) (opts : List OptParam) :
    ((numberOpts next opts).1.map OptParam.value, (numberOpts next opts).2) =
      numberList next (opts.map OptParam.value) := by
  induction opts generalizing next with
  | nil => rfl
  | cons o opts ih =>
    obtain ⟨name, value⟩ := o
    simp [numberOpts, numberList, OptParam.value, ← ih]

theorem numberForm_children (next : Nat) (f : Form) :
    ((numberForm next f).1.children, (numberForm next f).2) = numberList next f.children := by
  cases f with
  | methodDef name singleton params body =>
    obtain ⟨req, opt, rest, post, block⟩ := params
    simp [numberForm, numberParams, Form.children, numberList_append, Params.opt,
      ← numberOpts_values]
  | ret value | next value => exact numberOption_toList next value
  | call recv name nameSpan args keywords block subclasses =>
    simp [numberForm, Form.children, numberList_append, ← numberOption_toList, ← numberArgs_values]
  | yield args => exact numberArgs_values next args
  | cond test thenBody elseBody =>
    simp [numberForm, Form.children, numberList, numberList_append]
  | _ => rfl

/-- Numbering gives consecutive numbers in the order of a walk. -/
theorem ids_number (n : Node) : ∀ next, (n.number next).1.ids =
      (List.range' next n.ids.length).map NodeId.mk ∧
    (n.number next).2 = next + n.ids.length := by
  induction n using induct with
  | h n ih =>
    have hlist : ∀ (ns : List Node), (∀ c ∈ ns, c ∈ n.children) → ∀ next,
        idsAll (numberList next ns).1 = (List.range' next (idsAll ns).length).map NodeId.mk ∧
          (numberList next ns).2 = next + (idsAll ns).length := by
      intro ns
      induction ns with
      | nil => exact fun _ next => ⟨rfl, rfl⟩
      | cons m ms ihs =>
        intro hsub next
        obtain ⟨hids, hnext⟩ := ih m (hsub m List.mem_cons_self) next
        obtain ⟨hids', hnext'⟩ :=
          ihs (fun c hc => hsub c (List.mem_cons_of_mem _ hc)) (m.number next).2
        have hcons : numberList next (m :: ms) = ((m.number next).1 ::
            (numberList (m.number next).2 ms).1, (numberList (m.number next).2 ms).2) := rfl
        rw [hcons, idsAll_cons, idsAll_cons, List.length_append]
        dsimp only
        rw [hids, hids', hnext', hnext, ← List.map_append, List.range'_append_1]
        exact ⟨rfl, Nat.add_assoc _ _ _⟩
    intro next
    obtain ⟨hids, hnext⟩ := hlist n.children (fun _ h => h) (next + 1)
    obtain ⟨i, s, f⟩ := n
    have hform := numberForm_children (next + 1) f
    have hroot : number next (.mk i s f) =
        (.mk ⟨next⟩ s (numberForm (next + 1) f).1, (numberForm (next + 1) f).2) := by
      simp [number]
    have hkids : (numberForm (next + 1) f).1.children = (numberList (next + 1) f.children).1 :=
      congrArg Prod.fst hform
    have hafter : (numberForm (next + 1) f).2 = (numberList (next + 1) f.children).2 :=
      congrArg Prod.snd hform
    rw [hroot, ids_eq, ids_eq (.mk i s f), List.length_cons]
    dsimp only [children, form, id] at hids hnext ⊢
    rw [hkids, hafter, hids, hnext, List.range'_succ, List.map_cons]
    exact ⟨rfl, by omega⟩

theorem nodup_ids_number (n : Node) (next : Nat) : (n.number next).1.ids.Nodup := by
  rw [(ids_number n next).1]
  exact List.Nodup.map (fun a b h => NodeId.mk.inj h) (List.nodup_range' 1)

theorem mem_ids_number {n : Node} {next : Nat} {i : NodeId} (h : i ∈ (n.number next).1.ids) :
    next ≤ i.index ∧ i.index < (n.number next).2 := by
  rw [(ids_number n next).1, List.mem_map] at h
  obtain ⟨k, hk, rfl⟩ := h
  rw [(ids_number n next).2]
  exact List.mem_range'_1.1 hk

end Numbering

section Pairing

abbrev Alikes : List Node → List Node → Prop := List.Forall₂ fun a b => alike a b = true

theorem alikes_of_alikeList {as bs : List Node} (h : alikeList as bs = true) : Alikes as bs := by
  induction as generalizing bs with
  | nil =>
    cases bs with
    | nil => exact .nil
    | cons => simp [alikeList] at h
  | cons a as ih =>
    cases bs with
    | nil => simp [alikeList] at h
    | cons b bs =>
      rw [alikeList, Bool.and_eq_true] at h
      exact .cons h.1 (ih h.2)

theorem alikes_of_alikeOption {a b : Option Node} (h : alikeOption a b = true) :
    Alikes a.toList b.toList := by
  cases a <;> cases b <;> simp_all [alikeOption, Alikes]

theorem alikes_of_alikeArgs {as bs : List Arg} (h : alikeArgs as bs = true) :
    Alikes (as.map Arg.value) (bs.map Arg.value) := by
  induction as generalizing bs with
  | nil =>
    cases bs with
    | nil => exact .nil
    | cons => simp [alikeArgs] at h
  | cons a as ih =>
    cases bs with
    | nil => simp [alikeArgs] at h
    | cons b bs =>
      obtain ⟨v, s⟩ := a
      obtain ⟨w, t⟩ := b
      simp only [alikeArgs, Bool.and_eq_true] at h
      exact .cons h.1.1 (ih h.2)

theorem alikes_of_alikeOpts {as bs : List OptParam} (h : alikeOpts as bs = true) :
    Alikes (as.map OptParam.value) (bs.map OptParam.value) := by
  induction as generalizing bs with
  | nil =>
    cases bs with
    | nil => exact .nil
    | cons => simp [alikeOpts] at h
  | cons a as ih =>
    cases bs with
    | nil => simp [alikeOpts] at h
    | cons b bs =>
      obtain ⟨n, v⟩ := a
      obtain ⟨m, w⟩ := b
      simp only [alikeOpts, Bool.and_eq_true] at h
      exact .cons h.1.2 (ih h.2)

theorem alikes_of_alikeForm {f g : Form} (h : alikeForm f g = true) :
    Alikes f.children g.children := by
  rw [alikeForm.eq_def] at h
  split at h
  case h_1 | h_28 => exact alikes_of_alikeList h
  case h_2 | h_3 | h_8 => exact alikes_of_alikeList (Bool.and_eq_true_iff.1 h).2
  case h_4 p a _ _ q b =>
    obtain ⟨req, opt, rest, post, block⟩ := p
    obtain ⟨req', opt', rest', post', block'⟩ := q
    simp only [alikeParams, Bool.and_eq_true] at h
    exact List.rel_append (alikes_of_alikeOpts h.1.2.1.1.1.2) (alikes_of_alikeList h.2)
  case h_5 | h_6 => exact alikes_of_alikeOption h
  case h_7 =>
    simp only [Bool.and_eq_true] at h
    obtain ⟨⟨⟨⟨⟨⟨hrecv, -⟩, -⟩, hargs⟩, hkeywords⟩, hblock⟩, -⟩ := h
    exact List.rel_append (List.rel_append (List.rel_append (alikes_of_alikeOption hrecv)
      (alikes_of_alikeArgs hargs)) (alikes_of_alikeOption hkeywords)) (alikes_of_alikeOption hblock)
  case h_9 => exact alikes_of_alikeArgs h
  case h_11 | h_13 | h_15 | h_17 | h_18 =>
    exact .cons (Bool.and_eq_true_iff.1 h).2 .nil
  case h_19 c t _ c' t' _ =>
    simp only [Bool.and_eq_true] at h
    have htest : Alikes (c :: t) (c' :: t') := .cons h.1.1 (alikes_of_alikeList h.1.2)
    exact List.rel_append htest (alikes_of_alikeList h.2)
  case h_34 => cases h
  all_goals exact .nil

theorem length_idsAll_of_alikes {as bs : List Node} (h : Alikes as bs)
    (hlen : ∀ a ∈ as, ∀ b, alike a b = true → a.ids.length = b.ids.length) :
    (idsAll as).length = (idsAll bs).length := by
  induction h with
  | nil => rfl
  | cons hab _ ih =>
    rw [idsAll_cons, idsAll_cons, List.length_append, List.length_append,
      hlen _ List.mem_cons_self _ hab, ih fun a ha => hlen a (List.mem_cons_of_mem _ ha)]

theorem length_ids_of_alike (a : Node) : ∀ b, alike a b = true → a.ids.length = b.ids.length := by
  induction a using induct with
  | h a ih =>
    intro b h
    rw [ids_eq, ids_eq b, List.length_cons, List.length_cons]
    refine congrArg (· + 1) (length_idsAll_of_alikes ?_ ih)
    obtain ⟨i, s, f⟩ := a
    obtain ⟨j, t, g⟩ := b
    rw [alike] at h
    exact alikes_of_alikeForm h

theorem pairAll_spec {new old : Node} (h : alike old new = true) :
    (pairAll new old).map Prod.fst = new.ids ∧ (pairAll new old).map Prod.snd = old.ids := by
  have hlen := length_ids_of_alike old new h
  unfold pairAll
  exact ⟨List.map_fst_zip (Nat.le_of_eq hlen.symm), List.map_snd_zip (Nat.le_of_eq hlen)⟩

theorem seek_spec {p : Node → Bool} {ns behind : List Node} {o : Node}
    (h : seek p ns = some (o, behind)) : p o = true ∧ ∃ before, ns = before ++ o :: behind := by
  induction ns with
  | nil => cases h
  | cons n ns ih =>
    unfold seek at h
    split at h
    · next hp =>
      cases h
      exact ⟨hp, [], rfl⟩
    · obtain ⟨hp, before, hns⟩ := ih h
      exact ⟨hp, n :: before, by rw [hns]; rfl⟩

structure Steady (pairing : Pairing) (news olds : List Node) : Prop where
  old : (pairing.map Prod.snd).Sublist (idsAll olds)
  new : ∃ stmts : List Node, pairing.map Prod.fst = idsAll stmts ∧
    (stmts.flatMap walk).Sublist (news.flatMap walk)

namespace Steady

variable {p q : Pairing} {news news' olds olds' : List Node}

theorem nil (news olds : List Node) : Steady [] news olds :=
  ⟨List.nil_sublist _, [], rfl, List.nil_sublist _⟩

theorem append (h : Steady p news olds) (h' : Steady q news' olds') :
    Steady (p ++ q) (news ++ news') (olds ++ olds') := by
  obtain ⟨stmts, hfst, hsub⟩ := h.new
  obtain ⟨stmts', hfst', hsub'⟩ := h'.new
  refine ⟨?_, stmts ++ stmts', ?_, ?_⟩
  · rw [List.map_append, idsAll_append]
    exact h.old.append h'.old
  · rw [List.map_append, idsAll_append, hfst, hfst']
  · rw [List.flatMap_append, List.flatMap_append]
    exact hsub.append hsub'

theorem mono (h : Steady p news olds) (hn : (news.flatMap walk).Sublist (news'.flatMap walk))
    (ho : (idsAll olds).Sublist (idsAll olds')) : Steady p news' olds' := by
  obtain ⟨stmts, hfst, hsub⟩ := h.new
  exact ⟨h.old.trans ho, stmts, hfst, hsub.trans hn⟩

theorem skip (h : Steady p news olds) (before : List Node) : Steady p news (before ++ olds) := by
  refine h.mono (List.Sublist.refl _) ?_
  rw [idsAll_append]
  exact List.sublist_append_right _ _

theorem leave (h : Steady p news olds) (n : Node) : Steady p (n :: news) olds := by
  refine h.mono ?_ (List.Sublist.refl _)
  rw [List.flatMap_cons]
  exact List.sublist_append_right _ _

end Steady

theorem steady_pairBody {stmts : List Node}
    (h : ∀ s ∈ stmts, ∀ old, Steady (pairing s old) [s] [old]) (olds : List Node) :
    Steady (pairBody stmts olds) stmts olds := by
  induction stmts generalizing olds with
  | nil =>
    rw [pairBody]
    exact .nil _ _
  | cons stmt rest ih =>
    have ih := ih fun s hs => h s (List.mem_cons_of_mem _ hs)
    rw [pairBody]
    split
    · split
      · next o behind hseek =>
        obtain ⟨halike, before, rfl⟩ := seek_spec hseek
        obtain ⟨hfst, hsnd⟩ := pairAll_spec halike
        have hpair : Steady (pairAll stmt o) [stmt] [o] := by
          refine ⟨?_, [stmt], ?_, List.Sublist.refl _⟩
          · rw [hsnd, idsAll, List.flatMap_singleton]
          · rw [hfst, idsAll, List.flatMap_singleton]
        exact (hpair.append (ih behind)).skip before
      · exact (ih olds).leave stmt
    · split
      · split
        · next o behind hseek =>
          obtain ⟨-, before, rfl⟩ := seek_spec hseek
          exact ((h stmt List.mem_cons_self o).append (ih behind)).skip before
        · exact (ih olds).leave stmt
      · exact (ih olds).leave stmt

theorem steady_pairing (new : Node) : ∀ old, Steady (pairing new old) [new] [old] := by
  induction new using induct with
  | h new ih =>
    intro old
    have hold : (idsAll (old.containerBody?.getD [])).Sublist (idsAll [old]) := by
      rw [idsAll, idsAll, List.flatMap_singleton, ids_eq old]
      refine List.Sublist.cons _ ?_
      unfold containerBody? children
      split <;> simp_all [Form.children, idsAll]
    have hbody : ∀ body, body = new.children →
        Steady (pairBody body (old.containerBody?.getD [])) [new] [old] := by
      rintro body rfl
      refine (steady_pairBody ih _).mono ?_ hold
      rw [List.flatMap_singleton, walk_eq new]
      exact List.sublist_cons_self _ _
    obtain ⟨i, s, f⟩ := new
    rw [pairing]
    split
    · rw [pairForm.eq_def]
      split
      · exact hbody _ rfl
      · exact hbody _ rfl
      · exact hbody _ rfl
      · exact .nil _ _
    · exact .nil _ _

end Pairing

end TypeFlow.Node
