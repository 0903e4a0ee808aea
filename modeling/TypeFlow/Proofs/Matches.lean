import Mathlib.Data.List.Pairwise
import TypeFlow.Proofs.Trees
import TypeFlow.Tree.Shorthand

/-!
# What an edited tree takes over

A pairing consists of matches: equal definitions, one in each tree, in containers whose headers are
equal up to the root. It goes forward through both trees. Between two equal trees every definition
is matched with its own original, however often equal ones are repeated: a search starts behind the
last match, and what is left between there and the original can be matched by nothing.
-/

set_option autoImplicit false

namespace TypeFlow.Node

variable {n new old : Node} {body : List Node}

/-- A statement lies directly in the body of the last of several containers, each of which lies in
the body of the one before; the first one is the root. -/
inductive Enclosed : Node → List Node → Node → Prop where
  | within {c stmt : Node} {body : List Node} (hbody : c.containerBody? = some body)
    (hstmt : stmt ∈ body) : Enclosed c [c] stmt
  | nested {c d stmt : Node} {body cs : List Node} (hbody : c.containerBody? = some body)
    (hd : d ∈ body) (h : Enclosed d cs stmt) : Enclosed c (c :: cs) stmt

/-- Containers with equal headers, one by one. -/
abbrev SameHeaders : List Node → List Node → Prop := List.Forall₂ fun c d => sameHeader c d = true

theorem children_of_containerBody?
    (h : n.containerBody? = some body) : n.children = body := by
  unfold containerBody? at h
  unfold children
  split at h
  · next hf => cases h; rw [hf]; rfl
  · next hf => cases h; rw [hf]; rfl
  · next hf => cases h; rw [hf]; rfl
  · cases h

theorem walk_subset_of_mem_children {c : Node} (h : c ∈ n.children) : c.walk ⊆ n.walk := by
  intro a ha
  rw [walk_eq n]
  exact List.mem_cons_of_mem _ (List.mem_flatMap.2 ⟨c, h, ha⟩)

theorem Enclosed.walk_subset {root stmt : Node} {cs : List Node} (h : Enclosed root cs stmt) :
    stmt.walk ⊆ root.walk := by
  induction h with
  | within hbody hstmt =>
    exact walk_subset_of_mem_children (children_of_containerBody? hbody ▸ hstmt)
  | nested hbody hd _ ih =>
    exact List.Subset.trans ih
      (walk_subset_of_mem_children (children_of_containerBody? hbody ▸ hd))

theorem bodies_of_sameHeader {a b : Node} (h : sameHeader a b = true) :
    ∃ body body', a.containerBody? = some body ∧ b.containerBody? = some body' := by
  unfold sameHeader at h
  unfold containerBody?
  split at h
  · next hf hg => exact ⟨_, _, by rw [hf], by rw [hg]⟩
  · next hf hg => exact ⟨_, _, by rw [hf], by rw [hg]⟩
  · next hf hg => exact ⟨_, _, by rw [hf], by rw [hg]⟩
  · cases h

theorem pairing_of_sameHeader {body' : List Node}
    (h : sameHeader new old = true) (hnew : new.containerBody? = some body)
    (hold : old.containerBody? = some body') : pairing new old = pairBody body body' := by
  obtain ⟨i, s, f⟩ := new
  rw [pairing, if_pos h]
  cases f with
  | program | moduleDef | classDef =>
    obtain rfl := Option.some.inj hnew
    rw [pairForm, hold, Option.getD_some]
  | _ => cases hnew

theorem pairing_of_not_sameHeader (h : sameHeader new old = false) :
    pairing new old = [] := by
  obtain ⟨i, s, f⟩ := new
  rw [pairing, h]
  rfl

section Matching

structure Match (new old : Node) (m : Node × Node) : Prop where
  reusable : m.1.isReusable = true
  equal : alike m.2 m.1 = true
  headers : ∃ cs ds, Enclosed new cs m.1 ∧ Enclosed old ds m.2 ∧ SameHeaders cs ds

def spread (ms : List (Node × Node)) : Pairing := ms.flatMap fun m => pairAll m.1 m.2

theorem spread_cons (m : Node × Node) (ms : List (Node × Node)) :
    spread (m :: ms) = pairAll m.1 m.2 ++ spread ms := List.flatMap_cons

theorem spread_append (ms ms' : List (Node × Node)) :
    spread (ms ++ ms') = spread ms ++ spread ms' := List.flatMap_append

def BodyMatch (news olds : List Node) (m : Node × Node) : Prop :=
  (m.1 ∈ news ∧ m.2 ∈ olds ∧ m.1.isReusable = true ∧ alike m.2 m.1 = true) ∨
    ∃ s ∈ news, ∃ o ∈ olds, sameHeader s o = true ∧ Match s o m

theorem BodyMatch.mono {news news' olds olds' : List Node} {m : Node × Node}
    (h : BodyMatch news olds m) (hn : news ⊆ news') (ho : olds ⊆ olds') :
    BodyMatch news' olds' m := by
  rcases h with ⟨hnew, hold, hm⟩ | ⟨s, hs, o, hso, hm⟩
  · exact .inl ⟨hn hnew, ho hold, hm⟩
  · exact .inr ⟨s, hn hs, o, ho hso, hm⟩

theorem BodyMatch.wrap {new old : Node} {body body' : List Node} {m : Node × Node}
    (h : BodyMatch body body' m) (hheader : sameHeader new old = true)
    (hnew : new.containerBody? = some body) (hold : old.containerBody? = some body') :
    Match new old m := by
  rcases h with ⟨hn, ho, hreusable, hequal⟩ | ⟨s, hs, o, ho, hsame, hm⟩
  · exact ⟨hreusable, hequal, [new], [old], .within hnew hn, .within hold ho, .cons hheader .nil⟩
  · obtain ⟨cs, ds, hcs, hds, hheaders⟩ := hm.headers
    exact ⟨hm.reusable, hm.equal, new :: cs, old :: ds, .nested hnew hs hcs, .nested hold ho hds,
      .cons hheader hheaders⟩

theorem exists_bodyMatches {stmts : List Node}
    (h : ∀ s ∈ stmts, ∀ old, ∃ ms, pairing s old = spread ms ∧ ∀ m ∈ ms, Match s old m)
    (olds : List Node) :
    ∃ ms, pairBody stmts olds = spread ms ∧ ∀ m ∈ ms, BodyMatch stmts olds m := by
  induction stmts generalizing olds with
  | nil => exact ⟨[], by rw [pairBody]; rfl, fun _ hm => absurd hm List.not_mem_nil⟩
  | cons stmt rest ih =>
    have ih := ih fun s hs => h s (List.mem_cons_of_mem _ hs)
    have hrest : ∃ ms, pairBody rest olds = spread ms ∧ ∀ m ∈ ms, BodyMatch (stmt :: rest) olds m :=
      by
      obtain ⟨ms, hms, hmatch⟩ := ih olds
      exact ⟨ms, hms, fun m hm => (hmatch m hm).mono (List.subset_cons_self _ _) (List.Subset.refl
        _)⟩
    rw [pairBody]
    split
    · next hreusable =>
      split
      · next o behind hseek =>
        obtain ⟨hequal, before, rfl⟩ := seek_spec hseek
        obtain ⟨ms, hms, hmatch⟩ := ih behind
        refine ⟨(stmt, o) :: ms, by rw [hms, spread_cons], fun m hm => ?_⟩
        rcases List.mem_cons.1 hm with rfl | hm
        · exact .inl ⟨List.mem_cons_self, by simp, hreusable, hequal⟩
        · exact (hmatch m hm).mono (List.subset_cons_self _ _) (by simp)
      · exact hrest
    · split
      · split
        · next o behind hseek =>
          obtain ⟨hheader, before, rfl⟩ := seek_spec hseek
          obtain ⟨ms, hms, hmatch⟩ := h stmt List.mem_cons_self o
          obtain ⟨ms', hms', hmatch'⟩ := ih behind
          refine ⟨ms ++ ms', by rw [hms, hms', spread_append], fun m hm => ?_⟩
          rcases List.mem_append.1 hm with hm | hm
          · exact .inr ⟨stmt, List.mem_cons_self, o, by simp, hheader, hmatch m hm⟩
          · exact (hmatch' m hm).mono (List.subset_cons_self _ _) (by simp)
        · exact hrest
      · exact hrest

theorem exists_matches (new : Node) :
    ∀ old, ∃ ms, pairing new old = spread ms ∧ ∀ m ∈ ms, Match new old m := by
  induction new using induct with
  | h new ih =>
    intro old
    cases hheader : sameHeader new old with
    | false =>
      rw [pairing_of_not_sameHeader hheader]
      exact ⟨[], rfl, fun _ hm => absurd hm List.not_mem_nil⟩
    | true =>
      obtain ⟨body, body', hnew, hold⟩ := bodies_of_sameHeader hheader
      rw [pairing_of_sameHeader hheader hnew hold]
      obtain ⟨ms, hms, hmatch⟩ :=
        exists_bodyMatches (children_of_containerBody? hnew ▸ ih) body'
      exact ⟨ms, hms, fun m hm => (hmatch m hm).wrap hheader hnew hold⟩

end Matching

section Order

variable {α β : Type} [DecidableEq α] [DecidableEq β]

theorem pairwise_idxOf {l : List α} (h : l.Nodup) :
    l.Pairwise fun a b => l.idxOf a < l.idxOf b := by
  rw [List.pairwise_iff_getElem]
  intro i j hi hj hij
  rw [h.idxOf_getElem i hi, h.idxOf_getElem j hj]
  exact hij

/-- Pairs that go forward on both sides are in the same order on both. -/
theorem idxOf_lt_iff {p : List (α × β)} {l : List α} {l' : List β} (hl : l.Nodup) (hl' : l'.Nodup)
    (hfst : (p.map Prod.fst).Sublist l) (hsnd : (p.map Prod.snd).Sublist l') {x y : α × β}
    (hx : x ∈ p) (hy : y ∈ p) :
    l.idxOf x.1 < l.idxOf y.1 ↔ l'.idxOf x.2 < l'.idxOf y.2 := by
  let Agree : α × β → α × β → Prop := fun x y =>
    (l.idxOf x.1 < l.idxOf y.1 ↔ l'.idxOf x.2 < l'.idxOf y.2) ∧
      (l.idxOf y.1 < l.idxOf x.1 ↔ l'.idxOf y.2 < l'.idxOf x.2)
  have hforward := (pairwise_idxOf hl).sublist hfst
  have hforward' := (pairwise_idxOf hl').sublist hsnd
  rw [List.pairwise_map] at hforward hforward'
  have hagree : p.Pairwise Agree := by
    apply (hforward.and hforward').imp
    intro x y h
    exact ⟨iff_of_true h.1 h.2, by omega⟩
  have : Std.Symm Agree := ⟨fun x y h => ⟨h.2, h.1⟩⟩
  have hself : ∀ x ∈ p, Agree x x := fun x _ => ⟨by simp, by simp⟩
  exact (List.Pairwise.forall_of_forall hself hagree hx hy).1

end Order

section Taking

variable {p : Pairing} {n o : NodeId}

theorem old?_eq_some_iff (h : (p.map Prod.fst).Nodup) : p.old? n = some o ↔ (n, o) ∈ p := by
  unfold Pairing.old?
  rw [Option.map_eq_some_iff]
  constructor
  · rintro ⟨⟨n', o'⟩, hfind, rfl⟩
    obtain rfl : n' = n := by simpa using List.find?_some hfind
    exact List.mem_of_find?_eq_some hfind
  · intro hmem
    cases hfind : p.find? fun e => e.1 = n with
    | none =>
      have hnone := List.find?_eq_none.1 hfind (n, o) hmem
      simp at hnone
    | some e =>
      have he : e.1 = n := by simpa using List.find?_some hfind
      have hsame : e = (n, o) :=
        List.inj_on_of_nodup_map h (List.mem_of_find?_eq_some hfind) hmem he
      exact ⟨e, rfl, by rw [hsame]⟩

theorem alikes_children {a b : Node} (h : alike a b = true) : Alikes a.children b.children := by
  obtain ⟨i, s, f⟩ := a
  obtain ⟨j, t, g⟩ := b
  rw [alike] at h
  exact alikes_of_alikeForm h

theorem alikes_flatMap_walk {as bs : List Node} (h : Alikes as bs)
    (hwalk : ∀ a ∈ as, ∀ b, alike a b = true → Alikes a.walk b.walk) :
    Alikes (as.flatMap walk) (bs.flatMap walk) := by
  induction h with
  | nil => exact .nil
  | cons hab _ ih =>
    rw [List.flatMap_cons, List.flatMap_cons]
    exact List.rel_append (hwalk _ List.mem_cons_self _ hab)
      (ih fun c hc => hwalk c (List.mem_cons_of_mem _ hc))

theorem alikes_walk (a : Node) : ∀ b, alike a b = true → Alikes a.walk b.walk := by
  induction a using induct with
  | h a ih =>
    intro b h
    rw [walk_eq a, walk_eq b]
    exact .cons h (alikes_flatMap_walk (alikes_children h) ih)

theorem equal_of_mem_pairAll {new old : Node} (h : alike old new = true)
    (hmem : (n, o) ∈ pairAll new old) :
    ∃ a ∈ new.walk, ∃ b ∈ old.walk, a.id = n ∧ b.id = o ∧ alike b a = true := by
  have hpair : ∀ {as bs : List Node}, Alikes bs as →
      (n, o) ∈ (as.map id).zip (bs.map id) →
      ∃ a ∈ as, ∃ b ∈ bs, a.id = n ∧ b.id = o ∧ alike b a = true := by
    intro as bs h
    induction h with
    | nil => exact fun hmem => absurd hmem List.not_mem_nil
    | @cons b a _ _ hba _ ih =>
      intro hmem
      rw [List.map_cons, List.map_cons, List.zip_cons_cons] at hmem
      rcases List.mem_cons.1 hmem with hhead | htail
      · cases hhead
        exact ⟨a, List.mem_cons_self, b, List.mem_cons_self, rfl, rfl, hba⟩
      · obtain ⟨a', ha', b', hb', hrest⟩ := ih htail
        exact ⟨a', List.mem_cons_of_mem _ ha', b', List.mem_cons_of_mem _ hb', hrest⟩
  exact hpair (alikes_walk old new h) hmem

theorem map_old?_ids {new old : Node} (h : (p.map Prod.fst).Nodup) (hequal : alike old new = true)
    (hsub : pairAll new old ⊆ p) : new.ids.map p.old? = old.ids.map some := by
  obtain ⟨hfst, hsnd⟩ := pairAll_spec hequal
  rw [← hfst, ← hsnd, List.map_map, List.map_map]
  exact List.map_congr_left fun x hx => (old?_eq_some_iff h).2 (hsub hx)

end Taking

section Forward

variable (new old : Node)

theorem sublist_fst_pairing : ((pairing new old).map Prod.fst).Sublist new.ids := by
  obtain ⟨stmts, hfst, hsub⟩ := (steady_pairing new old).new
  rw [List.flatMap_singleton] at hsub
  have hids := hsub.map Node.id
  rw [List.map_flatMap] at hids
  rw [hfst]
  exact hids

theorem sublist_snd_pairing : ((pairing new old).map Prod.snd).Sublist old.ids := by
  have hsub := (steady_pairing new old).old
  rwa [idsAll, List.flatMap_singleton] at hsub

end Forward

/-- A pairing takes over no node twice, keeps the order of a walk and pairs equal trees. What it
takes over are whole definitions, and the containers around them have equal headers up to the roots.
-/
theorem pairing_matches_in_order {new old : Node} (hnew : new.ids.Nodup) (hold : old.ids.Nodup) :
    (∀ n n' o, (pairing new old).old? n = some o → (pairing new old).old? n' = some o → n = n') ∧
    (∀ n n' o o', (pairing new old).old? n = some o → (pairing new old).old? n' = some o' →
      (new.ids.idxOf n < new.ids.idxOf n' ↔ old.ids.idxOf o < old.ids.idxOf o')) ∧
    (∀ n o, (pairing new old).old? n = some o →
      ∃ a ∈ new.walk, ∃ b ∈ old.walk, a.id = n ∧ b.id = o ∧ alike b a = true) ∧
    ∀ n o, (pairing new old).old? n = some o →
      ∃ stmt stmt' cs ds, stmt.isReusable = true ∧ alike stmt' stmt = true ∧
        Enclosed new cs stmt ∧ Enclosed old ds stmt' ∧ SameHeaders cs ds ∧
        n ∈ stmt.ids ∧ o ∈ stmt'.ids ∧
        stmt.ids.map (pairing new old).old? = stmt'.ids.map some := by
  have hfst := sublist_fst_pairing new old
  have hsnd := sublist_snd_pairing new old
  have hmem {n o : NodeId} : (pairing new old).old? n = some o ↔ (n, o) ∈ pairing new old :=
    old?_eq_some_iff (hnew.sublist hfst)
  have hmatch {n o : NodeId} (h : (n, o) ∈ pairing new old) :
      ∃ m, Match new old m ∧ (n, o) ∈ pairAll m.1 m.2 ∧ pairAll m.1 m.2 ⊆ pairing new old := by
    obtain ⟨ms, hms, hmatches⟩ := exists_matches new old
    rw [hms] at h ⊢
    obtain ⟨m, hm, hno⟩ := List.mem_flatMap.1 h
    exact ⟨m, hmatches m hm, hno, fun x hx => List.mem_flatMap.2 ⟨m, hm, hx⟩⟩
  refine ⟨fun n n' o h h' => ?_, fun n n' o o' h h' => ?_, fun n o h => ?_, fun n o h => ?_⟩
  · have hsame := List.inj_on_of_nodup_map (hold.sublist hsnd) (hmem.1 h) (hmem.1 h') rfl
    exact congrArg Prod.fst hsame
  · exact idxOf_lt_iff hnew hold hfst hsnd (hmem.1 h) (hmem.1 h')
  · obtain ⟨m, hm, hno, -⟩ := hmatch (hmem.1 h)
    obtain ⟨cs, ds, hcs, hds, -⟩ := hm.headers
    obtain ⟨a, ha, b, hb, hab⟩ := equal_of_mem_pairAll hm.equal hno
    exact ⟨a, hcs.walk_subset ha, b, hds.walk_subset hb, hab⟩
  · obtain ⟨m, hm, hno, hsub⟩ := hmatch (hmem.1 h)
    obtain ⟨cs, ds, hcs, hds, hheaders⟩ := hm.headers
    obtain ⟨hn, ho⟩ := List.of_mem_zip hno
    exact ⟨m.1, m.2, cs, ds, hm.reusable, hm.equal, hcs, hds, hheaders, hn, ho,
      map_old?_ids (hnew.sublist hfst) hm.equal hsub⟩

/-- Two openings of a class that exchange their methods: each takes over the one that moved to its
front, from the opening at the same position. -/
theorem exchanged_definitions_matched :
    let method (value : Int) : Node := .ofForm (.methodDef "m" false .none [.ofForm (.int value)])
    let tree (first second : List Int) : Node := .ofForm (.program
      [classAt "A" none (first.map method), classAt "A" none (second.map method)])
    let old : Node := (Node.number 0 (tree [1, 2] [2, 1])).1
    let new : Node := (Node.number 20 (tree [2, 1] [1, 2])).1
    (pairing new old).old? ⟨23⟩ = some ⟨5⟩ ∧ (pairing new old).old? ⟨27⟩ = some ⟨9⟩ ∧
      (new.ids.idxOf ⟨23⟩ < new.ids.idxOf ⟨27⟩ ↔ old.ids.idxOf ⟨5⟩ < old.ids.idxOf ⟨9⟩) ∧
      ∃ stmt stmt' cs ds, stmt.isReusable = true ∧ alike stmt' stmt = true ∧
        Enclosed new cs stmt ∧ Enclosed old ds stmt' ∧ SameHeaders cs ds ∧
        ⟨27⟩ ∈ stmt.ids ∧ ⟨9⟩ ∈ stmt'.ids ∧
        stmt.ids.map (pairing new old).old? = stmt'.ids.map some := by
  intro method tree old new
  obtain ⟨-, horder, -, hwhole⟩ :=
    pairing_matches_in_order (nodup_ids_number (tree [2, 1] [1, 2]) 20)
      (nodup_ids_number (tree [1, 2] [2, 1]) 0)
  have hlate : (pairing new old).old? ⟨23⟩ = some ⟨5⟩ := by decide +kernel
  have hearly : (pairing new old).old? ⟨27⟩ = some ⟨9⟩ := by decide +kernel
  exact ⟨hlate, hearly, horder _ _ _ _ hlate hearly, hwhole _ _ hearly⟩

section Copies

variable {new o old stmt : Node} {n : NodeId} {cs news olds : List Node}

theorem kind_of_alike (h : alike old new = true) :
    new.isReusable = old.isReusable ∧ new.containerBody?.isSome = sameHeader new old ∧
      old.containerBody?.isSome = sameHeader new old := by
  obtain ⟨i, s, f⟩ := old
  obtain ⟨j, t, g⟩ := new
  rw [alike, alikeForm.eq_def] at h
  split at h
  case h_1 => exact ⟨rfl, rfl, rfl⟩
  case h_2 | h_3 => simp_all [isReusable, containerBody?, sameHeader, form]
  case h_34 => cases h
  all_goals exact ⟨rfl, rfl, rfl⟩

theorem containerBody?_of_isReusable {n : Node} (h : n.isReusable = true) :
    n.containerBody? = none := by
  obtain ⟨i, s, f⟩ := n
  cases f <;> first | rfl | cases h

def takeover (m : Node × Node) : Pairing :=
  if m.1.isReusable then pairAll m.1 m.2 else pairing m.1 m.2

theorem seek_append {p : Node → Bool} {before behind : List Node}
    (hbefore : ∀ b ∈ before, p b = false) (ho : p o = true) :
    seek p (before ++ o :: behind) = some (o, behind) := by
  induction before with
  | nil => rw [List.nil_append, seek, if_pos ho]
  | cons b before ih =>
    rw [List.cons_append, seek, hbefore b List.mem_cons_self]
    exact ih fun c hc => hbefore c (List.mem_cons_of_mem _ hc)

def Inert (n : Node) : Prop := n.isReusable = false ∧ n.containerBody? = none

theorem Inert.not_alike (h : Inert o) (hstmt : stmt.isReusable = true) :
    alike o stmt = false := by
  by_contra hne
  have hkind := (kind_of_alike (eq_true_of_ne_false hne)).1
  rw [hstmt, h.1] at hkind
  cases hkind

theorem Inert.not_sameHeader (h : Inert o) (stmt : Node) :
    sameHeader stmt o = false := by
  by_contra hne
  obtain ⟨_, _, -, hbody⟩ := bodies_of_sameHeader (eq_true_of_ne_false hne)
  rw [h.2] at hbody
  cases hbody

structure Recognized (old new : Node) : Prop where
  reusable : new.isReusable = old.isReusable
  header : new.containerBody?.isSome = sameHeader new old
  header' : old.containerBody?.isSome = sameHeader new old
  equal : new.isReusable = true → alike old new = true

theorem recognized_of_alike (h : alike old new = true) : Recognized old new :=
  have ⟨hreusable, hheader, hheader'⟩ := kind_of_alike h
  ⟨hreusable, hheader, hheader', fun _ => h⟩

/-- Statements that are recognized are matched with their originals, one by one: between the last
match and the original of a statement stand only inert ones. -/
theorem pairBody_recognized (h : List.Forall₂ Recognized olds news) :
    ∀ before, (∀ o ∈ before, Inert o) →
      pairBody news (before ++ olds) = (news.zip olds).flatMap takeover := by
  induction h with
  | nil =>
    intro before _
    rw [pairBody]
    rfl
  | @cons old new olds news hknown _ ih =>
    intro before hbefore
    have hnext : pairBody news olds = (news.zip olds).flatMap takeover :=
      ih [] fun _ ho => absurd ho List.not_mem_nil
    rw [pairBody, List.zip_cons_cons, List.flatMap_cons, takeover]
    cases hreusable : new.isReusable with
    | true =>
      have hseek : seek (fun o => alike o new) (before ++ old :: olds) = some (old, olds) :=
        seek_append (fun o ho => (hbefore o ho).not_alike hreusable) (hknown.equal hreusable)
      rw [if_pos rfl, if_pos rfl, hseek, ← hnext]
    | false =>
      rw [if_neg Bool.false_ne_true, if_neg Bool.false_ne_true]
      cases hheader : sameHeader new old with
      | true =>
        have hseek : seek (fun o => sameHeader new o) (before ++ old :: olds) = some (old, olds) :=
          seek_append (fun o ho => (hbefore o ho).not_sameHeader new) hheader
        rw [hknown.header, hheader, if_pos rfl, hseek, ← hnext]
      | false =>
        have hinert : Inert old := by
          refine ⟨hknown.reusable ▸ hreusable, ?_⟩
          have hbody := hknown.header'
          rwa [hheader, Option.isSome_eq_false_iff, Option.isNone_iff_eq_none] at hbody
        have hskip := ih (before ++ [old]) fun o ho => by
          rcases List.mem_append.1 ho with ho | ho
          · exact hbefore o ho
          · exact List.mem_singleton.1 ho ▸ hinert
        rw [List.append_assoc, List.singleton_append] at hskip
        rw [hknown.header, hheader, if_neg Bool.false_ne_true, pairing_of_not_sameHeader hheader,
          hskip, List.nil_append]

theorem pairing_recognized (hheader : sameHeader new old = true)
    (h : List.Forall₂ Recognized old.children new.children) :
    pairing new old = (new.children.zip old.children).flatMap takeover := by
  obtain ⟨body, body', hbody, hbody'⟩ := bodies_of_sameHeader hheader
  rw [pairing_of_sameHeader hheader hbody hbody', ← children_of_containerBody? hbody,
    ← children_of_containerBody? hbody']
  exact pairBody_recognized h [] fun _ ho => absurd ho List.not_mem_nil

theorem pairing_copy {body : List Node} (h : alike old new = true)
    (hbody : new.containerBody? = some body) :
    pairing new old = (new.children.zip old.children).flatMap takeover := by
  have hheader : sameHeader new old = true := by
    rw [← (kind_of_alike h).2.1, hbody]
    rfl
  exact pairing_recognized hheader ((alikes_children h).imp fun _ _ => recognized_of_alike)

theorem flatMap_takeover_sublist (h : Alikes olds news)
    (htake : ∀ s ∈ news, ∀ o, alike o s = true → (pairing s o).Sublist (s.ids.zip o.ids)) :
    ((news.zip olds).flatMap takeover).Sublist ((idsAll news).zip (idsAll olds)) := by
  induction h with
  | nil => exact List.Sublist.refl _
  | @cons old new olds news hcopy _ ih =>
    have hhead : (takeover (new, old)).Sublist (new.ids.zip old.ids) := by
      unfold takeover
      split
      · exact List.Sublist.refl _
      · exact htake new List.mem_cons_self old hcopy
    rw [List.zip_cons_cons, List.flatMap_cons, idsAll_cons, idsAll_cons,
      List.zip_append (length_ids_of_alike old new hcopy).symm]
    exact hhead.append (ih fun s hs => htake s (List.mem_cons_of_mem _ hs))

theorem pairing_sublist_zip (new : Node) :
    ∀ old, alike old new = true → (pairing new old).Sublist (new.ids.zip old.ids) := by
  induction new using induct with
  | h new ih =>
    intro old h
    cases hbody : new.containerBody? with
    | none =>
      have hheader : sameHeader new old = false := by
        rw [← (kind_of_alike h).2.1, hbody]
        rfl
      rw [pairing_of_not_sameHeader hheader]
      exact List.nil_sublist _
    | some body =>
      rw [pairing_copy h hbody, ids_eq new, ids_eq old, List.zip_cons_cons]
      exact (flatMap_takeover_sublist (alikes_children h) ih).cons _

theorem Enclosed.containerBody?_isSome {root : Node}
    (h : Enclosed root cs stmt) : ∃ body, root.containerBody? = some body := by
  cases h with
  | within hbody _ | nested hbody _ _ => exact ⟨_, hbody⟩

theorem exists_original (h : Alikes olds news) {s : Node} (hs : s ∈ news) :
    ∃ o, (s, o) ∈ news.zip olds ∧ alike o s = true := by
  induction h with
  | nil => exact absurd hs List.not_mem_nil
  | @cons old new olds news hcopy _ ih =>
    rcases List.mem_cons.1 hs with rfl | hs
    · exact ⟨old, List.mem_cons_self, hcopy⟩
    · obtain ⟨o, ho, hos⟩ := ih hs
      exact ⟨o, List.mem_cons_of_mem _ ho, hos⟩

theorem Enclosed.mem_pairing (h : Enclosed new cs stmt)
    (hreusable : stmt.isReusable = true) (hn : n ∈ stmt.ids) :
    ∀ old, alike old new = true → n ∈ (pairing new old).map Prod.fst := by
  have hbelow : ∀ {new old s o : Node} {body : List Node}, alike old new = true →
      new.containerBody? = some body → (s, o) ∈ new.children.zip old.children →
      n ∈ (takeover (s, o)).map Prod.fst → n ∈ (pairing new old).map Prod.fst := by
    intro new old s o body hcopy hbody hso hn
    rw [pairing_copy hcopy hbody, List.map_flatMap]
    exact List.mem_flatMap.2 ⟨(s, o), hso, hn⟩
  induction h with
  | within hbody hstmt =>
    intro old hcopy
    rw [← children_of_containerBody? hbody] at hstmt
    obtain ⟨o, hso, hos⟩ := exists_original (alikes_children hcopy) hstmt
    refine hbelow hcopy hbody hso ?_
    rw [takeover, if_pos hreusable, (pairAll_spec hos).1]
    exact hn
  | nested hbody hd henclosed ih =>
    intro old hcopy
    rw [← children_of_containerBody? hbody] at hd
    obtain ⟨o, hso, hos⟩ := exists_original (alikes_children hcopy) hd
    refine hbelow hcopy hbody hso ?_
    have hcontainer : ¬ _ = true := fun hreusable' => by
      obtain ⟨_, hbody'⟩ := henclosed.containerBody?_isSome
      rw [containerBody?_of_isReusable hreusable'] at hbody'
      cases hbody'
    rw [takeover, if_neg hcontainer]
    exact ih hreusable hn o hos

theorem mem_zip_iff {ns os : List NodeId} {o : NodeId} :
    (n, o) ∈ ns.zip os ↔ ∃ i : Nat, ns[i]? = some n ∧ os[i]? = some o := by
  rw [List.mem_iff_getElem?]
  simp only [List.getElem?_zip_eq_some]

end Copies

section Renumbering

variable {k : Nat}

theorem alikeList_number {ns : List Node} (h : ∀ c ∈ ns, ∀ k, alike c (c.number k).1 = true) :
    alikeList ns (numberList k ns).1 = true := by
  induction ns generalizing k with
  | nil => rw [numberList, alikeList]
  | cons n ns ih =>
    rw [numberList, alikeList, h n List.mem_cons_self, Bool.true_and]
    exact ih fun c hc => h c (List.mem_cons_of_mem _ hc)

theorem alikeOption_number {o : Option Node}
    (h : ∀ c ∈ o.toList, ∀ k, alike c (c.number k).1 = true) :
    alikeOption o (numberOption k o).1 = true := by
  cases o with
  | none => rw [numberOption, alikeOption]
  | some n =>
    rw [numberOption, alikeOption]
    exact h n (List.mem_singleton.2 rfl) k

theorem alikeArgs_number {as : List Arg}
    (h : ∀ c ∈ as.map Arg.value, ∀ k, alike c (c.number k).1 = true) :
    alikeArgs as (numberArgs k as).1 = true := by
  induction as generalizing k with
  | nil => rw [numberArgs, alikeArgs]
  | cons a as ih =>
    obtain ⟨value, splat⟩ := a
    rw [numberArgs, alikeArgs, h value List.mem_cons_self, beq_self_eq_true]
    exact ih fun c hc => h c (List.mem_cons_of_mem _ hc)

theorem alikeOpts_number {os : List OptParam}
    (h : ∀ c ∈ os.map OptParam.value, ∀ k, alike c (c.number k).1 = true) :
    alikeOpts os (numberOpts k os).1 = true := by
  induction os generalizing k with
  | nil => rw [numberOpts, alikeOpts]
  | cons o os ih =>
    obtain ⟨name, value⟩ := o
    rw [numberOpts, alikeOpts, h value List.mem_cons_self, beq_self_eq_true]
    exact ih fun c hc => h c (List.mem_cons_of_mem _ hc)

theorem alikeForm_number {f : Form} (h : ∀ c ∈ f.children, ∀ k, alike c (c.number k).1 = true) :
    alikeForm f (numberForm k f).1 = true := by
  cases f with
  | program | array | moduleDef | classDef | block =>
    simp only [numberForm, alikeForm, beq_self_eq_true, Bool.true_and]
    exact alikeList_number h
  | methodDef name singleton params body =>
    obtain ⟨req, opt, rest, post, block⟩ := params
    simp only [Form.children, Params.opt, List.mem_append] at h
    simp only [numberForm, numberParams, alikeForm, alikeParams, beq_self_eq_true, Bool.and_true,
      alikeOpts_number fun c hc => h c (.inl hc),
      alikeList_number fun c hc => h c (.inr hc)]
  | ret | next =>
    rw [numberForm, alikeForm]
    exact alikeOption_number h
  | call recv name nameSpan args keywords block subclasses =>
    simp only [Form.children, List.mem_append] at h
    simp only [numberForm, alikeForm, beq_self_eq_true, Bool.and_true,
      alikeOption_number fun c hc => h c (.inl (.inl (.inl hc))),
      alikeArgs_number fun c hc => h c (.inl (.inl (.inr hc))),
      alikeOption_number fun c hc => h c (.inl (.inr hc)),
      alikeOption_number fun c hc => h c (.inr hc)]
  | yield =>
    rw [numberForm, alikeForm]
    exact alikeArgs_number h
  | constWrite _ value | localWrite _ value | ivarWrite _ value | gvarWrite _ value
  | multiAssign _ value =>
    simp only [numberForm, alikeForm, beq_self_eq_true, Bool.true_and]
    exact h value (List.mem_singleton.2 rfl) _
  | cond test thenBody elseBody =>
    simp only [Form.children, List.cons_append, List.mem_cons, List.mem_append] at h
    simp only [numberForm, alikeForm, h test (.inl rfl),
      alikeList_number fun c hc => h c (.inr (.inl hc)),
      alikeList_number fun c hc => h c (.inr (.inr hc)), Bool.and_true]
  | float value => simp only [numberForm, alikeForm, value.sameValue_refl]
  | _ => simp only [numberForm, alikeForm, beq_self_eq_true, Bool.and_true]

theorem alike_number (n : Node) : ∀ k, alike n (n.number k).1 = true := by
  induction n using induct with
  | h n ih =>
    intro k
    obtain ⟨i, s, f⟩ := n
    rw [number, alike]
    exact alikeForm_number ih

end Renumbering

/-- A copy of a tree takes over each node of a definition that is reached through bodies of
containers only, from its own original at the same position, and nothing else. -/
theorem copy_takes_over_definitions {t t' : Node} (hcopy : alike t t' = true) (hids : t'.ids.Nodup)
    (n o : NodeId) :
    (pairing t' t).old? n = some o ↔
      (∃ cs stmt, Enclosed t' cs stmt ∧ stmt.isReusable = true ∧ n ∈ stmt.ids) ∧
        ∃ i : Nat, t'.ids[i]? = some n ∧ t.ids[i]? = some o := by
  have hfst := hids.sublist (sublist_fst_pairing t' t)
  have horiginal := (pairing_sublist_zip t' t hcopy).subset
  rw [old?_eq_some_iff hfst]
  constructor
  · intro hmem
    refine ⟨?_, mem_zip_iff.1 (horiginal hmem)⟩
    obtain ⟨ms, hms, hmatches⟩ := exists_matches t' t
    rw [hms] at hmem
    obtain ⟨m, hm, hno⟩ := List.mem_flatMap.1 hmem
    obtain ⟨cs, ds, hcs, -⟩ := (hmatches m hm).headers
    exact ⟨cs, m.1, hcs, (hmatches m hm).reusable, (List.of_mem_zip hno).1⟩
  · rintro ⟨⟨cs, stmt, henclosed, hreusable, hn⟩, i, hi, hi'⟩
    obtain ⟨⟨n', o'⟩, hmem, rfl⟩ := List.mem_map.1 (henclosed.mem_pairing hreusable hn t hcopy)
    obtain ⟨j, hj, hj'⟩ := mem_zip_iff.1 (horiginal hmem)
    -- the node stands once in the copy, so both positions are one
    have hij : i = j :=
      (List.getElem?_inj (List.getElem?_eq_some_iff.1 hi).1 hids).1 (hi.trans hj.symm)
    rw [← hij, hi'] at hj'
    cases hj'
    exact hmem

/-- Equal methods, equal classes and statements in between that nothing matches: the second method
of the second class takes over its own original. -/
theorem repeated_definitions_take_over :
    let method : Node := .ofForm (.methodDef "m" false .none [.ofForm .selfRef])
    let opening : Node := classAt "A" none [method, sendTo none "m" [], method]
    let t : Node := (Node.number 0 (.ofForm (.program [opening, .ofForm .nil, opening]))).1
    let t' : Node := (t.number 20).1
    (pairing t' t).old? ⟨32⟩ = some ⟨12⟩ ∧
      (∃ cs stmt, Enclosed t' cs stmt ∧ stmt.isReusable = true ∧ ⟨32⟩ ∈ stmt.ids) ∧
        ∃ i : Nat, t'.ids[i]? = some ⟨32⟩ ∧ t.ids[i]? = some ⟨12⟩ := by
  intro method opening t t'
  have hold : (pairing t' t).old? ⟨32⟩ = some ⟨12⟩ := by decide +kernel
  exact ⟨hold, (copy_takes_over_definitions (alike_number t 20) (nodup_ids_number t 20) _ _).1 hold⟩

end TypeFlow.Node
