import TypeFlow.Proofs.Trees
import TypeFlow.Tree.Decode
import TypeFlow.Tree.Encode

/-!
# Trees are read back as they were written

Every field of a node is written, so reading it back finds the same form at the same place; only the
number of a node is not written. Positions and whole numbers must have the size that the format
gives them, and everything that was read has it.
-/

set_option autoImplicit false

namespace TypeFlow

open Json (Fields Reads)

namespace Json

section Values

variable {α β : Type} {read : Reads β} {write : α → Json} {f : α → β}

theorem Reads.list_map {as : List α} (h : ∀ a ∈ as, read (write a) = some (f a)) :
    Reads.list read (.array (as.map write)) = some (as.map f) := by
  show (as.map write).mapM read = some (as.map f)
  induction as with
  | nil => rfl
  | cons a as ih =>
    rw [List.map_cons, List.mapM_cons, h a List.mem_cons_self,
      ih fun b hb => h b (List.mem_cons_of_mem a hb)]
    rfl

theorem Reads.list_ofList {read : Reads α} (as : List α) (h : ∀ a, read (write a) = some a) :
    Reads.list read (ofList write as) = some as := by
  refine (Reads.list_map (f := id) fun a _ => h a).trans ?_
  rw [List.map_id]

@[simp] theorem Reads.texts_ofTexts (ss : List String) : Reads.texts (ofTexts ss) = some ss :=
  Reads.list_ofList ss fun _ => rfl

theorem Reads.nullable_map {o : Option α} (hnull : ∀ a, write a ≠ .null)
    (h : ∀ a ∈ o, read (write a) = some (f a)) :
    Reads.nullable read (ofOption write o) = some (o.map f) := by
  cases o with
  | none => rfl
  | some a =>
    show Reads.nullable read (write a) = some (some (f a))
    unfold Reads.nullable
    split
    · next hj => exact absurd hj (hnull a)
    · rw [h a rfl]
      rfl

theorem Reads.nullable_ofOption {read : Reads α} (o : Option α) (hnull : ∀ a, write a ≠ .null)
    (h : ∀ a, read (write a) = some a) :
    Reads.nullable read (ofOption write o) = some o := by
  refine (Reads.nullable_map (f := id) hnull fun a _ => h a).trans ?_
  rw [Option.map_id]
  rfl

theorem Reads.exists_of_mem_list {j : Json} {bs : List β} (h : Reads.list read j = some bs) {b : β}
    (hb : b ∈ bs) : ∃ i, read i = some b := by
  cases j with
  | array items =>
    replace h : items.mapM read = some bs := h
    induction items generalizing bs with
    | nil =>
      cases h
      cases hb
    | cons i items ih =>
      rw [List.mapM_cons] at h
      simp only [Option.bind_eq_bind, Option.bind_eq_some_iff] at h
      obtain ⟨c, hc, cs, hcs, heq⟩ := h
      cases heq
      cases hb with
      | head => exact ⟨i, hc⟩
      | tail _ hb => exact ih hb hcs
  | _ => cases h

theorem Reads.exists_of_mem_nullable {j : Json} {o : Option β} (h : Reads.nullable read j = some o)
    {b : β} (hb : b ∈ o) : ∃ i, read i = some b := by
  unfold Reads.nullable at h
  split at h
  · cases h
    cases hb
  · obtain ⟨c, hc, rfl⟩ := Option.map_eq_some_iff.1 h
    cases hb
    exact ⟨j, hc⟩

end Values

namespace Fields

variable {α : Type} {fs : Fields} {name : String} {read : Reads α}

theorem single?_cons (f : String × Json) (fs : Fields) (name : String) :
    single? (f :: fs) name =
      if f.1 = name then (if fs.any fun g => g.1 == name then none else some (some f.2))
      else single? fs name := by
  unfold single?
  by_cases h : f.1 = name
  · by_cases hany : (fs.any fun g => g.1 == name) = true
    · obtain ⟨g, hg, hname⟩ := List.any_eq_true.1 hany
      have hmem : g ∈ fs.filter fun g => g.1 == name := List.mem_filter.2 ⟨hg, hname⟩
      obtain ⟨x, xs, hxs⟩ := List.exists_cons_of_ne_nil (List.ne_nil_of_mem hmem)
      simp [h, hany, hxs]
    · have hnil : (fs.filter fun g => g.1 == name) = [] := by
        refine List.filter_eq_nil_iff.2 fun g hg hname => hany ?_
        exact List.any_eq_true.2 ⟨g, hg, hname⟩
      simp [h, hany, hnil]
  · simp [h]

theorem exists_of_required {a : α} (h : required fs name read = some a) : ∃ j, read j = some a := by
  unfold required at h
  split at h
  · next j _ => exact ⟨j, h⟩
  · cases h

theorem exists_of_withDefault {a d : α} (h : withDefault fs name read d = some a) :
    a = d ∨ ∃ j, read j = some a := by
  unfold withDefault at h
  split at h
  · next j _ => exact .inr ⟨j, h⟩
  · exact .inl (Option.some.inj h).symm
  · cases h

theorem exists_of_mem_optional {o : Option α} (h : optional fs name read = some o) {a : α}
    (ha : a ∈ o) : ∃ j, read j = some a := by
  rcases exists_of_withDefault h with rfl | ⟨j, hj⟩
  · cases ha
  · exact Reads.exists_of_mem_nullable hj ha

end Fields

end Json


namespace SigType

mutual

theorem decodeWithin_encode : (t : SigType) → (n : Nat) → t.encode.depth ≤ n →
    decodeWithin n t.encode = some t
  | t, 0, h => by cases t <;> simp [encode, Json.depth] at h
  | .instanceOf path args, n + 1, h => by
    simp only [encode, Json.depth, Json.fieldsDepth] at h
    have hargs := list_decodeWithin args n (by omega)
    simp [encode, decodeWithin, Fields.required, Fields.withDefault, Fields.single?_cons,
      Reads.text, hargs]
  | .singletonOf path, n + 1, _ => by
    simp [encode, decodeWithin, Fields.required, Fields.single?_cons, Reads.text]
  | .var name, n + 1, _ => by
    simp [encode, decodeWithin, Fields.required, Fields.single?_cons, Reads.text]
  | .union members, n + 1, h => by
    simp only [encode, Json.depth, Json.fieldsDepth] at h
    have hmembers := list_decodeWithin members n (by omega)
    simp [encode, decodeWithin, Fields.required, Fields.single?_cons, Reads.text, hmembers]
  | .tuple members, n + 1, h => by
    simp only [encode, Json.depth, Json.fieldsDepth] at h
    have hmembers := list_decodeWithin members n (by omega)
    simp [encode, decodeWithin, Fields.required, Fields.single?_cons, Reads.text, hmembers]
  | .optional inner, n + 1, h => by
    simp only [encode, Json.depth, Json.fieldsDepth] at h
    have hinner := decodeWithin_encode inner n (by omega)
    simp [encode, decodeWithin, Fields.required, Fields.single?_cons, Reads.text, hinner]
  | .nil, n + 1, _ => by
    simp [encode, decodeWithin, Fields.required, Fields.single?_cons, Reads.text]
  | .bool, n + 1, _ => by
    simp [encode, decodeWithin, Fields.required, Fields.single?_cons, Reads.text]
  | .untyped, n + 1, _ => by
    simp [encode, decodeWithin, Fields.required, Fields.single?_cons, Reads.text]
  | .receiver, n + 1, _ => by
    simp [encode, decodeWithin, Fields.required, Fields.single?_cons, Reads.text]

theorem list_decodeWithin : (ts : List SigType) → (n : Nat) →
    Json.itemsDepth (encodeList ts) ≤ n →
    Reads.list (decodeWithin n) (.array (encodeList ts)) = some ts
  | [], _, _ => rfl
  | t :: ts, n, h => by
    simp only [encodeList, Json.itemsDepth] at h
    have ht := decodeWithin_encode t n (by omega)
    have hts := list_decodeWithin ts n (by omega)
    simp only [Reads.list] at hts
    simp [encodeList, Reads.list, ht, hts]

end

@[simp] theorem decode_encode (t : SigType) : decode t.encode = some t :=
  decodeWithin_encode t _ Nat.le.refl

theorem encodeList_eq (ts : List SigType) : encodeList ts = ts.map encode := by
  induction ts with
  | nil => rfl
  | cons t ts ih => rw [encodeList, ih, List.map_cons]

@[simp] theorem list_decode_encodeAll (ts : List SigType) :
    Reads.list decode (encodeAll ts) = some ts := by
  unfold encodeAll
  rw [encodeList_eq]
  exact Reads.list_ofList ts decode_encode

theorem encode_ne_null (t : SigType) : t.encode ≠ .null := by
  cases t <;> simp [encode]

end SigType

variable {p : Pos} {s : Span} {j : Json}

@[simp] theorem BlockType.decode_encode (b : BlockType) : BlockType.decode b.encode = some b := by
  simp [BlockType.decode, BlockType.encode, Fields.required, Fields.withDefault,
    Fields.single?_cons]

@[simp] theorem MethodType.decode_encode (m : MethodType) :
    MethodType.decode m.encode = some m := by
  have hrest := Reads.nullable_ofOption m.rest SigType.encode_ne_null SigType.decode_encode
  have hblock := Reads.nullable_ofOption m.block (fun b => by simp [BlockType.encode])
    BlockType.decode_encode
  simp [MethodType.decode, MethodType.encode, Fields.required, Fields.withDefault,
    Fields.optional, Fields.single?_cons, hrest, hblock]

@[simp] theorem SuperclassRef.decode_encode (s : SuperclassRef) :
    SuperclassRef.decode s.encode = some s := by
  simp [SuperclassRef.decode, SuperclassRef.encode, Fields.required, Fields.withDefault,
    Fields.single?_cons]

@[simp] theorem Target.decode_encode (t : Target) : Target.decode t.encode = some t := by
  cases t <;>
    simp [Target.decode, Target.encode, Fields.required, Fields.single?_cons, Reads.text]

/-- Lines and columns are numbers of 32 bits. -/
def Pos.Fits (p : Pos) : Prop := p.line < Nat.pow 2 32 ∧ p.column < Nat.pow 2 32

instance (p : Pos) : Decidable p.Fits := inferInstanceAs (Decidable (_ ∧ _))

def Span.Fits (s : Span) : Prop := s.start.Fits ∧ s.stop.Fits

instance (s : Span) : Decidable s.Fits := inferInstanceAs (Decidable (_ ∧ _))

/-- Whole numbers in a program have 64 bits, with a sign. -/
def Form.Fits : Form → Prop
  | .call _ _ nameSpan _ _ _ _ => ∀ s ∈ nameSpan, s.Fits
  | .int value => -(Nat.pow 2 63 : Int) ≤ value ∧ value < (Nat.pow 2 63 : Int)
  | _ => True

/-- Everything in a tree has the size that the format provides for it. -/
def Node.Fits (t : Node) : Prop := ∀ n ∈ t.walk, n.span.Fits ∧ n.form.Fits

theorem Span.fits_default : ({} : Span).Fits := by decide

theorem Pos.decode_encode (h : p.Fits) : Pos.decode p.encode = some p := by
  have hread : ∀ n : Nat, n < Nat.pow 2 32 → Pos.coordinate (.int n) = some n := by
    intro n hn
    simp only [Pos.coordinate, Reads.below]
    rw [if_pos ⟨Int.natCast_nonneg n, by exact_mod_cast hn⟩, Int.toNat_natCast]
  simp [Pos.decode, Pos.encode, Fields.required, Fields.single?_cons, hread _ h.1, hread _ h.2]

theorem Span.decode_encode (h : s.Fits) : Span.decode s.encode = some s := by
  simp [Span.decode, Span.encode, Fields.required, Fields.single?_cons, Pos.decode_encode h.1,
    Pos.decode_encode h.2]

theorem Pos.fits_of_decode (h : Pos.decode j = some p) : p.Fits := by
  have hbelow : ∀ {j n}, Pos.coordinate j = some n → n < Nat.pow 2 32 := by
    intro j n hn
    cases j with
    | int i =>
      obtain ⟨hi, heq⟩ := Option.ite_none_right_eq_some.1 hn
      cases heq
      exact (Int.toNat_lt hi.1).2 hi.2
    | _ => cases hn
  cases j with
  | object fs =>
    simp only [Pos.decode, Option.bind_eq_bind, Option.bind_eq_some_iff, Option.pure_def,
      Option.some.injEq] at h
    obtain ⟨line, hline, column, hcolumn, rfl⟩ := h
    obtain ⟨_, hl⟩ := Fields.exists_of_required hline
    obtain ⟨_, hc⟩ := Fields.exists_of_required hcolumn
    exact ⟨hbelow hl, hbelow hc⟩
  | _ => cases h

theorem Span.fits_of_decode (h : Span.decode j = some s) : s.Fits := by
  cases j with
  | object fs =>
    simp only [Span.decode, Option.bind_eq_bind, Option.bind_eq_some_iff, Option.pure_def,
      Option.some.injEq] at h
    obtain ⟨start, hstart, stop, hstop, rfl⟩ := h
    obtain ⟨_, hs⟩ := Fields.exists_of_required hstart
    obtain ⟨_, he⟩ := Fields.exists_of_required hstop
    exact ⟨Pos.fits_of_decode hs, Pos.fits_of_decode he⟩
  | _ => cases h


namespace Node

mutual

/-- The tree without the numbers of its nodes. -/
def unnumbered : Node → Node
  | .mk _ span form => .mk ⟨0⟩ span (unnumberedForm form)

def unnumberedForm : Form → Form
  | .program body => .program (unnumberedList body)
  | .moduleDef path typeParams body => .moduleDef path typeParams (unnumberedList body)
  | .classDef path superclass typeParams body =>
    .classDef path superclass typeParams (unnumberedList body)
  | .methodDef name singleton params body =>
    .methodDef name singleton (unnumberedParams params) (unnumberedList body)
  | .ret value => .ret (unnumberedOption value)
  | .next value => .next (unnumberedOption value)
  | .call recv name nameSpan args keywords block subclasses =>
    .call (unnumberedOption recv) name nameSpan (unnumberedArgs args) (unnumberedOption keywords)
      (unnumberedOption block) subclasses
  | .block params body => .block params (unnumberedList body)
  | .yield args => .yield (unnumberedArgs args)
  | .constWrite name value => .constWrite name (unnumbered value)
  | .localWrite name value => .localWrite name (unnumbered value)
  | .ivarWrite name value => .ivarWrite name (unnumbered value)
  | .gvarWrite name value => .gvarWrite name (unnumbered value)
  | .multiAssign targets value => .multiAssign targets (unnumbered value)
  | .cond test thenBody elseBody =>
    .cond (unnumbered test) (unnumberedList thenBody) (unnumberedList elseBody)
  | .array elems => .array (unnumberedList elems)
  | form => form

def unnumberedList : List Node → List Node
  | [] => []
  | n :: ns => unnumbered n :: unnumberedList ns

def unnumberedOption : Option Node → Option Node
  | none => none
  | some n => some (unnumbered n)

def unnumberedArgs : List Arg → List Arg
  | [] => []
  | .mk value splat :: args => .mk (unnumbered value) splat :: unnumberedArgs args

def unnumberedParams : Params → Params
  | .mk req opt rest post block => .mk req (unnumberedOpts opt) rest post block

def unnumberedOpts : List OptParam → List OptParam
  | [] => []
  | .mk name value :: opts => .mk name (unnumbered value) :: unnumberedOpts opts

end

section Written

variable {c : Node}

/-- The fields of a form are not mistaken for those that every node has. -/
theorem encodeForm_any {name : String} (hname : name = "span" ∨ name = "type") (f : Form) :
    (encodeForm f).any (fun g => g.1 == name) = false := by
  rcases hname with rfl | rfl <;> cases f <;> simp [encodeForm]

theorem encode_ne_null (n : Node) : n.encode ≠ .null := by
  obtain ⟨i, s, f⟩ := n
  simp [encode]

theorem depth_encodeList {ns : List Node} (h : c ∈ ns) :
    c.encode.depth ≤ Json.itemsDepth (encodeList ns) := by
  induction ns with
  | nil => cases h
  | cons n ns ih =>
    simp only [encodeList, Json.itemsDepth]
    cases h with
    | head => exact Nat.le_max_left ..
    | tail _ h => exact Nat.le_trans (ih h) (Nat.le_max_right ..)

theorem depth_encodeOption {o : Option Node} (h : c ∈ o.toList) :
    c.encode.depth ≤ (encodeOption o).depth := by
  cases o with
  | none => cases h
  | some n =>
    rw [List.mem_singleton.1 h]
    exact Nat.le.refl

theorem depth_encodeArgs {args : List Arg} (h : c ∈ args.map Arg.value) :
    c.encode.depth ≤ Json.itemsDepth (encodeArgs args) := by
  induction args with
  | nil => cases h
  | cons a args ih =>
    obtain ⟨value, splat⟩ := a
    simp only [encodeArgs, Json.itemsDepth, Json.depth, Json.fieldsDepth]
    simp only [List.map_cons, List.mem_cons] at h
    rcases h with rfl | h
    · omega
    · have := ih h
      omega

theorem depth_encodeOpts {opts : List OptParam} (h : c ∈ opts.map OptParam.value) :
    c.encode.depth ≤ Json.itemsDepth (encodeOpts opts) := by
  induction opts with
  | nil => cases h
  | cons o opts ih =>
    obtain ⟨name, value⟩ := o
    simp only [encodeOpts, Json.itemsDepth, Json.depth, Json.fieldsDepth]
    simp only [List.map_cons, List.mem_cons] at h
    rcases h with rfl | h
    · omega
    · have := ih h
      omega

theorem depth_encodeForm {f : Form} (h : c ∈ f.children) :
    c.encode.depth ≤ Json.fieldsDepth (encodeForm f) := by
  cases f with
  | program body | moduleDef _ _ body | classDef _ _ _ body | block _ body | array body =>
    have := depth_encodeList (show c ∈ body from h)
    simp only [encodeForm, Json.fieldsDepth, Json.depth]
    omega
  | methodDef name singleton params body =>
    obtain ⟨req, opt, rest, post, block⟩ := params
    simp only [encodeForm, encodeParams, Json.fieldsDepth, Json.depth]
    rcases List.mem_append.1 h with h | h
    · have := depth_encodeOpts (show c ∈ opt.map OptParam.value from h)
      omega
    · have := depth_encodeList h
      omega
  | ret value | next value =>
    have := depth_encodeOption (show c ∈ value.toList from h)
    simp only [encodeForm, Json.fieldsDepth]
    omega
  | call recv name nameSpan args keywords block subclasses =>
    simp only [Form.children, List.mem_append] at h
    simp only [encodeForm, Json.fieldsDepth, Json.depth]
    rcases h with ((h | h) | h) | h
    · have := depth_encodeOption h
      omega
    · have := depth_encodeArgs h
      omega
    · have := depth_encodeOption h
      omega
    · have := depth_encodeOption h
      omega
  | yield args =>
    have := depth_encodeArgs (show c ∈ args.map Arg.value from h)
    simp only [encodeForm, Json.fieldsDepth, Json.depth]
    omega
  | constWrite _ value | localWrite _ value | ivarWrite _ value | gvarWrite _ value
  | multiAssign _ value =>
    rw [List.mem_singleton.1 (show c ∈ [value] from h)]
    simp only [encodeForm, Json.fieldsDepth]
    omega
  | cond test thenBody elseBody =>
    simp only [Form.children, List.cons_append, List.mem_cons, List.mem_append] at h
    simp only [encodeForm, Json.fieldsDepth, Json.depth]
    rcases h with rfl | h | h
    · omega
    · have := depth_encodeList h
      omega
    · have := depth_encodeList h
      omega
  | _ => cases h

theorem depth_lt_of_mem_children {n : Node} (h : c ∈ n.children) :
    c.encode.depth < n.encode.depth := by
  obtain ⟨i, s, f⟩ := n
  have := depth_encodeForm (show c ∈ f.children from h)
  simp only [encode, Json.depth, Json.fieldsDepth]
  omega

end Written

section ReadBack

variable {node : Reads Node}

theorem list_encodeList {ns : List Node} (h : ∀ c ∈ ns, node c.encode = some c.unnumbered) :
    Reads.list node (.array (encodeList ns)) = some (unnumberedList ns) := by
  induction ns with
  | nil => rfl
  | cons n ns ih =>
    have hns := ih fun c hc => h c (List.mem_cons_of_mem n hc)
    simp only [Reads.list] at hns
    simp [encodeList, unnumberedList, Reads.list, h n, hns]

theorem nullable_encodeOption {o : Option Node}
    (h : ∀ c ∈ o.toList, node c.encode = some c.unnumbered) :
    Reads.nullable node (encodeOption o) = some (unnumberedOption o) := by
  cases o with
  | none => rfl
  | some n =>
    exact Reads.nullable_map (o := some n) encode_ne_null fun c hc => h c (Option.mem_toList.2 hc)

theorem list_encodeArgs {args : List Arg}
    (h : ∀ c ∈ args.map Arg.value, node c.encode = some c.unnumbered) :
    Reads.list (decodeArg node) (.array (encodeArgs args)) = some (unnumberedArgs args) := by
  induction args with
  | nil => rfl
  | cons a args ih =>
    obtain ⟨value, splat⟩ := a
    have hvalue := h value List.mem_cons_self
    have hargs := ih fun c hc => h c (List.mem_cons_of_mem _ hc)
    simp only [Reads.list] at hargs
    simp [encodeArgs, unnumberedArgs, Reads.list, decodeArg, Fields.required, Fields.withDefault,
      Fields.single?_cons, Reads.flag, hvalue, hargs]

theorem list_encodeOpts {opts : List OptParam}
    (h : ∀ c ∈ opts.map OptParam.value, node c.encode = some c.unnumbered) :
    Reads.list (decodeOptParam node) (.array (encodeOpts opts)) = some (unnumberedOpts opts) := by
  induction opts with
  | nil => rfl
  | cons o opts ih =>
    obtain ⟨name, value⟩ := o
    have hvalue := h value List.mem_cons_self
    have hopts := ih fun c hc => h c (List.mem_cons_of_mem _ hc)
    simp only [Reads.list] at hopts
    simp [encodeOpts, unnumberedOpts, Reads.list, decodeOptParam, Fields.required,
      Fields.single?_cons, Reads.text, hvalue, hopts]

theorem nullable_text (o : Option String) :
    Reads.nullable Reads.text (Json.ofOption Json.string o) = some o :=
  Reads.nullable_ofOption o (by simp) fun _ => rfl

theorem decodeParams_encodeParams {p : Params}
    (h : ∀ c ∈ p.opt.map OptParam.value, node c.encode = some c.unnumbered) :
    decodeParams node (encodeParams p) = some (unnumberedParams p) := by
  obtain ⟨req, opt, rest, post, block⟩ := p
  have hopt := list_encodeOpts (show ∀ c ∈ opt.map OptParam.value, _ from h)
  simp [decodeParams, encodeParams, unnumberedParams, Fields.withDefault, Fields.optional,
    Fields.single?_cons, nullable_text, hopt]

theorem decodeForm_encodeForm (span : Json) {f : Form} (hf : f.Fits)
    (h : ∀ c ∈ f.children, node c.encode = some c.unnumbered) :
    decodeForm node (("span", span) :: ("type", .string f.tag) :: encodeForm f) f.tag =
      some (unnumberedForm f) := by
  cases f
  case' program body | moduleDef _ _ body | block _ body | array body =>
    have hbody := list_encodeList (show ∀ c ∈ body, _ from h)
  case' classDef path superclass typeParams body =>
    have hbody := list_encodeList (show ∀ c ∈ body, _ from h)
    have hsuper := Reads.nullable_ofOption superclass (fun s => by simp [SuperclassRef.encode])
      SuperclassRef.decode_encode
  case' methodDef name singleton params body =>
    have hparams := decodeParams_encodeParams fun c hc => h c (List.mem_append_left _ hc)
    have hbody := list_encodeList fun c hc => h c (List.mem_append_right _ hc)
  case' ret value | next value =>
    have hvalue := nullable_encodeOption (show ∀ c ∈ value.toList, _ from h)
  case' call recv name nameSpan args keywords block subclasses =>
    simp only [Form.children, List.mem_append, or_imp, forall_and] at h
    have hrecv := nullable_encodeOption h.1.1.1
    have hargs := list_encodeArgs h.1.1.2
    have hkeywords := nullable_encodeOption h.1.2
    have hblock := nullable_encodeOption h.2
    have hspan : Reads.nullable Span.decode (Json.ofOption Span.encode nameSpan) =
        some (nameSpan.map fun s => s) :=
      Reads.nullable_map (fun s => by simp [Span.encode]) fun s hs => Span.decode_encode (hf s hs)
    have hsub : Reads.nullable Reads.flag (Json.ofOption Json.bool subclasses) = some subclasses :=
      Reads.nullable_ofOption subclasses (by simp) fun _ => rfl
  case' yield args =>
    have hargs := list_encodeArgs (show ∀ c ∈ args.map Arg.value, _ from h)
  case' const name scope =>
    have hscope := Reads.nullable_ofOption scope (fun p => by simp [Json.ofTexts])
      Reads.texts_ofTexts
  case' constWrite _ value | localWrite _ value | ivarWrite _ value | gvarWrite _ value =>
    have hvalue := h value (List.mem_singleton_self value)
  case' multiAssign targets value =>
    have hvalue := h value (List.mem_singleton_self value)
    have htargets := Reads.list_ofList targets Target.decode_encode
  case' cond test thenBody elseBody =>
    simp only [Form.children, List.cons_append, List.mem_cons, List.mem_append, or_imp,
      forall_and, forall_eq] at h
    have htest := h.1
    have hthen := list_encodeList h.2.1
    have helse := list_encodeList h.2.2
  case' int value =>
    have hint : Reads.int64 (.int value) = some value := if_pos hf
  case' sigDef name singleton overloads overloading =>
    have hoverloads := Reads.list_ofList overloads MethodType.decode_encode
  -- What each field holds is read back; what is left is to look the fields up.
  all_goals
    clear h hf
    simp [Form.tag, decodeForm, encodeForm, unnumberedForm, bodyOf, pathOf, typeParamsOf, argsOf,
      nameOf, valueOf, singletonOf, Fields.required, Fields.withDefault, Fields.optional,
      Fields.single?_cons, Reads.text, Reads.flag, Reads.double, *]

end ReadBack

/-- A nesting that is deep enough for what was written is deep enough to read it back. -/
theorem decodeWithin_encode (t : Node) : t.Fits → ∀ n, t.encode.depth ≤ n →
    decodeWithin n t.encode = some t.unnumbered := by
  induction t using Node.induct with
  | h t ih =>
    intro hfits n hn
    obtain ⟨i, span, form⟩ := t
    obtain ⟨hspan, hform⟩ : span.Fits ∧ form.Fits := hfits (.mk i span form)
      (by rw [walk_eq]; exact List.mem_cons_self)
    obtain ⟨n, rfl⟩ : ∃ k, n = k + 1 := ⟨n - 1, by simp only [encode, Json.depth] at hn; omega⟩
    have hread := decodeForm_encodeForm span.encode (f := form) hform fun c hc =>
      ih c hc (fun m hm => hfits m (by
        rw [walk_eq]
        exact List.mem_cons_of_mem _ (List.mem_flatMap.2 ⟨c, hc, hm⟩))) n (by
          have := depth_lt_of_mem_children (n := .mk i span form) hc
          omega)
    simp [decodeWithin, encode, unnumbered, Fields.required, Fields.withDefault, Reads.text,
      Fields.single?_cons, encodeForm_any, Span.decode_encode hspan, hread]

section Numbers

theorem unnumberedList_eq {ns : List Node} (h : ∀ c ∈ ns, c.unnumbered = c) :
    unnumberedList ns = ns := by
  induction ns with
  | nil => rfl
  | cons n ns ih =>
    rw [unnumberedList, h n List.mem_cons_self, ih fun c hc => h c (List.mem_cons_of_mem n hc)]

theorem unnumberedOption_eq {o : Option Node} (h : ∀ c ∈ o.toList, c.unnumbered = c) :
    unnumberedOption o = o := by
  cases o with
  | none => rfl
  | some n => rw [unnumberedOption, h n (List.mem_singleton_self n)]

theorem unnumberedArgs_eq {args : List Arg} (h : ∀ c ∈ args.map Arg.value, c.unnumbered = c) :
    unnumberedArgs args = args := by
  induction args with
  | nil => rfl
  | cons a args ih =>
    obtain ⟨value, splat⟩ := a
    have hvalue : value.unnumbered = value := h value List.mem_cons_self
    rw [unnumberedArgs, hvalue, ih fun c hc => h c (List.mem_cons_of_mem _ hc)]

theorem unnumberedOpts_eq {opts : List OptParam}
    (h : ∀ c ∈ opts.map OptParam.value, c.unnumbered = c) : unnumberedOpts opts = opts := by
  induction opts with
  | nil => rfl
  | cons o opts ih =>
    obtain ⟨name, value⟩ := o
    have hvalue : value.unnumbered = value := h value List.mem_cons_self
    rw [unnumberedOpts, hvalue, ih fun c hc => h c (List.mem_cons_of_mem _ hc)]

theorem unnumberedForm_eq {f : Form} (h : ∀ c ∈ f.children, c.unnumbered = c) :
    unnumberedForm f = f := by
  cases f with
  | program body | moduleDef _ _ body | classDef _ _ _ body | block _ body | array body =>
    rw [unnumberedForm, unnumberedList_eq (show ∀ c ∈ body, _ from h)]
  | methodDef name singleton params body =>
    obtain ⟨req, opt, rest, post, block⟩ := params
    have hopt : unnumberedOpts opt = opt :=
      unnumberedOpts_eq fun c hc => h c (List.mem_append_left _ hc)
    rw [unnumberedForm, unnumberedParams, hopt,
      unnumberedList_eq fun c hc => h c (List.mem_append_right _ hc)]
  | ret value | next value => rw [unnumberedForm, unnumberedOption_eq h]
  | call recv name nameSpan args keywords block subclasses =>
    simp only [Form.children, List.mem_append, or_imp, forall_and] at h
    rw [unnumberedForm, unnumberedOption_eq h.1.1.1, unnumberedArgs_eq h.1.1.2,
      unnumberedOption_eq h.1.2, unnumberedOption_eq h.2]
  | yield args => rw [unnumberedForm, unnumberedArgs_eq h]
  | constWrite _ value | localWrite _ value | ivarWrite _ value | gvarWrite _ value
  | multiAssign _ value => rw [unnumberedForm, h value (List.mem_singleton_self value)]
  | cond test thenBody elseBody =>
    simp only [Form.children, List.cons_append, List.mem_cons, List.mem_append, or_imp,
      forall_and, forall_eq] at h
    rw [unnumberedForm, h.1, unnumberedList_eq h.2.1, unnumberedList_eq h.2.2]
  | _ => rfl

theorem unnumbered_eq (t : Node) : (∀ n ∈ t.walk, n.id = ⟨0⟩) → t.unnumbered = t := by
  induction t using Node.induct with
  | h t ih =>
    intro hids
    obtain ⟨i, span, form⟩ := t
    have hi : i = ⟨0⟩ := hids (.mk i span form) (by rw [walk_eq]; exact List.mem_cons_self)
    have hform : unnumberedForm form = form := unnumberedForm_eq fun c hc =>
      ih c hc fun n hn => hids n (by
        rw [walk_eq]
        exact List.mem_cons_of_mem _ (List.mem_flatMap.2 ⟨c, hc, hn⟩))
    rw [unnumbered, hform, hi]

end Numbers

section Read

variable {node : Reads Node} {fs : Fields} {tag : String} {f : Form} {c : Node}
variable {j : Json} {args : List Arg} {name : String}

theorem fits_of_int64 {value : Int} (h : Reads.int64 j = some value) :
    (Form.int value).Fits := by
  cases j with
  | int n =>
    obtain ⟨hn, heq⟩ := Option.ite_none_right_eq_some.1 h
    cases heq
    exact hn
  | _ => cases h

theorem exists_of_mem_args
    (h : Reads.list (decodeArg node) j = some args) (hc : c ∈ args.map Arg.value) :
    ∃ i, node i = some c := by
  obtain ⟨a, ha, rfl⟩ := List.mem_map.1 hc
  obtain ⟨i, hi⟩ := Reads.exists_of_mem_list h ha
  cases i with
  | object fs =>
    simp only [decodeArg, Option.bind_eq_bind, Option.bind_eq_some_iff] at hi
    obtain ⟨value, hvalue, splat, -, heq⟩ := hi
    cases heq
    exact Fields.exists_of_required hvalue
  | _ => cases hi

theorem exists_of_mem_params {params : Params}
    (h : decodeParams node j = some params) (hc : c ∈ params.opt.map OptParam.value) :
    ∃ i, node i = some c := by
  cases j with
  | object fs =>
    simp only [decodeParams, Option.bind_eq_bind, Option.bind_eq_some_iff] at h
    obtain ⟨req, -, opt, hopt, rest, -, post, -, block, -, heq⟩ := h
    cases heq
    obtain ⟨o, ho, rfl⟩ := List.mem_map.1 hc
    rcases Fields.exists_of_withDefault hopt with rfl | ⟨i, hi⟩
    · cases ho
    · obtain ⟨i, hi⟩ := Reads.exists_of_mem_list hi ho
      cases i with
      | object fs =>
        simp only [decodeOptParam, Option.bind_eq_bind, Option.bind_eq_some_iff] at hi
        obtain ⟨name, -, value, hvalue, heq⟩ := hi
        cases heq
        exact Fields.exists_of_required hvalue
      | _ => cases hi
  | _ => cases h

theorem exists_of_mem_body {body : List Node}
    (h : Fields.required fs name (Reads.list node) = some body) (hc : c ∈ body) :
    ∃ i, node i = some c := by
  obtain ⟨j, hj⟩ := Fields.exists_of_required h
  exact Reads.exists_of_mem_list hj hc

theorem exists_of_mem_argsOf (h : argsOf node fs = some args)
    (hc : c ∈ args.map Arg.value) : ∃ i, node i = some c := by
  rcases Fields.exists_of_withDefault h with rfl | ⟨j, hj⟩
  · cases hc
  · exact exists_of_mem_args hj hc

theorem exists_of_mem_value {value : Option Node}
    (h : Fields.optional fs name node = some value) (hc : c ∈ value.toList) :
    ∃ i, node i = some c :=
  Fields.exists_of_mem_optional h (Option.mem_toList.1 hc)

/-- The children of a form that was read were read themselves, and it has the right size. -/
theorem exists_of_mem_children (h : decodeForm node fs tag = some f) :
    (∀ c ∈ f.children, ∃ i, node i = some c) ∧ f.Fits := by
  unfold decodeForm at h
  split at h
  all_goals
    simp only [Option.bind_eq_bind, Option.bind_eq_some_iff, Option.pure_def, Option.some.injEq,
      reduceCtorEq] at h
  case h_1 | h_28 =>
    obtain ⟨body, hbody, rfl⟩ := h
    exact ⟨fun c hc => exists_of_mem_body hbody hc, trivial⟩
  case h_2 =>
    obtain ⟨path, -, typeParams, -, body, hbody, rfl⟩ := h
    exact ⟨fun c hc => exists_of_mem_body hbody hc, trivial⟩
  case h_3 =>
    obtain ⟨path, -, superclass, -, typeParams, -, body, hbody, rfl⟩ := h
    exact ⟨fun c hc => exists_of_mem_body hbody hc, trivial⟩
  case h_4 =>
    obtain ⟨name, -, singleton, -, params, hparams, body, hbody, rfl⟩ := h
    refine ⟨fun c hc => ?_, trivial⟩
    rcases List.mem_append.1 hc with hc | hc
    · rcases Fields.exists_of_withDefault hparams with rfl | ⟨j, hj⟩
      · cases hc
      · exact exists_of_mem_params hj hc
    · exact exists_of_mem_body hbody hc
  case h_5 | h_6 =>
    obtain ⟨value, hvalue, rfl⟩ := h
    exact ⟨fun c hc => exists_of_mem_value hvalue hc, trivial⟩
  case h_7 =>
    obtain ⟨recv, hrecv, name, -, nameSpan, hspan, args, hargs, keywords, hkeywords, block, hblock,
      subclasses, -, rfl⟩ := h
    refine ⟨fun c hc => ?_, fun s hs => ?_⟩
    · simp only [Form.children, List.mem_append] at hc
      rcases hc with ((hc | hc) | hc) | hc
      · exact exists_of_mem_value hrecv hc
      · exact exists_of_mem_argsOf hargs hc
      · exact exists_of_mem_value hkeywords hc
      · exact exists_of_mem_value hblock hc
    · obtain ⟨j, hj⟩ := Fields.exists_of_mem_optional hspan hs
      exact Span.fits_of_decode hj
  case h_8 =>
    obtain ⟨params, -, body, hbody, rfl⟩ := h
    exact ⟨fun c hc => exists_of_mem_body hbody hc, trivial⟩
  case h_9 =>
    obtain ⟨args, hargs, rfl⟩ := h
    exact ⟨fun c hc => exists_of_mem_argsOf hargs hc, trivial⟩
  case h_11 | h_13 | h_15 | h_17 | h_18 =>
    obtain ⟨name, -, value, hvalue, rfl⟩ := h
    exact ⟨fun c hc => List.mem_singleton.1 hc ▸ Fields.exists_of_required hvalue, trivial⟩
  case h_19 =>
    obtain ⟨test, htest, thenBody, hthen, elseBody, helse, rfl⟩ := h
    refine ⟨fun c hc => ?_, trivial⟩
    simp only [Form.children, List.cons_append, List.mem_cons, List.mem_append] at hc
    rcases hc with rfl | hc | hc
    · exact Fields.exists_of_required htest
    · exact exists_of_mem_body hthen hc
    · rcases Fields.exists_of_withDefault helse with rfl | ⟨j, hj⟩
      · cases hc
      · exact Reads.exists_of_mem_list hj hc
  case h_24 =>
    obtain ⟨value, hvalue, rfl⟩ := h
    obtain ⟨j, hj⟩ := Fields.exists_of_required hvalue
    exact ⟨List.forall_mem_nil _, fits_of_int64 hj⟩
  -- The other forms have no children.
  case h_20 | h_21 | h_22 | h_23 =>
    subst h
    exact ⟨List.forall_mem_nil _, trivial⟩
  case h_12 | h_14 | h_16 | h_25 | h_26 | h_27 =>
    obtain ⟨_, -, rfl⟩ := h
    exact ⟨List.forall_mem_nil _, trivial⟩
  case h_10 | h_29 | h_30 | h_32 | h_33 =>
    obtain ⟨_, -, _, -, rfl⟩ := h
    exact ⟨List.forall_mem_nil _, trivial⟩
  case h_31 =>
    obtain ⟨_, -, _, -, _, -, _, -, rfl⟩ := h
    exact ⟨List.forall_mem_nil _, trivial⟩

theorem fits_of_decodeWithin {n : Nat} {t : Node} (h : decodeWithin n j = some t) :
    ∀ m ∈ t.walk, m.id = ⟨0⟩ ∧ m.span.Fits ∧ m.form.Fits := by
  induction n generalizing j t with
  | zero => cases h
  | succ n ih =>
    cases j with
    | object fs =>
      simp only [decodeWithin, Option.bind_eq_bind, Option.bind_eq_some_iff, Option.pure_def,
        Option.some.injEq] at h
      obtain ⟨span, hspan, tag, -, form, hform, rfl⟩ := h
      obtain ⟨hchildren, hfits⟩ := exists_of_mem_children hform
      intro m hm
      rw [walk_eq] at hm
      rcases List.mem_cons.1 hm with rfl | hm
      · refine ⟨rfl, ?_, hfits⟩
        rcases Fields.exists_of_withDefault hspan with rfl | ⟨i, hi⟩
        · exact Span.fits_default
        · exact Span.fits_of_decode hi
      · obtain ⟨c, hc, hm⟩ := List.mem_flatMap.1 hm
        obtain ⟨i, hi⟩ := hchildren c hc
        exact ih hi m hm
    | _ => cases h

end Read

end Node

/-- A tree of the right size is read back as it was written, with each form, field and place where
it was, and only the numbers of its nodes lost; whatever was read is, once it is written again, read
back unchanged. -/
theorem tree_read_back :
    (∀ t : Node, t.Fits → Node.decode t.encode = some t.unnumbered) ∧
      ∀ (j : Json) (t : Node), Node.decode j = some t → Node.decode t.encode = some t := by
  have hwritten : ∀ t : Node, t.Fits → Node.decode t.encode = some t.unnumbered :=
    fun t ht => t.decodeWithin_encode ht _ Nat.le.refl
  refine ⟨hwritten, fun j t h => ?_⟩
  have hread := Node.fits_of_decodeWithin h
  rw [hwritten t fun m hm => (hread m hm).2, t.unnumbered_eq fun m hm => (hread m hm).1]

/-- A class with a type argument for its superclass, and a method with a default value. -/
def Node.sample : Node :=
  .mk ⟨1⟩ {} (.program [
    .mk ⟨2⟩ ⟨⟨0, 0⟩, ⟨4, 3⟩⟩ (.classDef ["M", "A"]
      (some { path := ["B"], args := [.optional (.tuple [.nil, .var "T"])] }) ["T"] [
        .mk ⟨3⟩ ⟨⟨1, 2⟩, ⟨3, 5⟩⟩ (.methodDef "f" false
          (.mk ["x"] [.mk "y" (.mk ⟨4⟩ {} (.int (-0x8000000000000000)))] (some "r") [] none)
          [.mk ⟨5⟩ {} (.call none "g" (some ⟨⟨2, 4⟩, ⟨2, 0xffffffff⟩⟩)
            [.mk (.mk ⟨6⟩ {} (.float { negative := true })) true] none none (some false))])])])

theorem tree_read_back_sample :
    Node.sample.Fits ∧ Node.decode Node.sample.encode = some Node.sample.unnumbered := by
  have hfits : Node.sample.Fits := by
    simp only [Node.Fits, Node.sample, Node.walk, Node.walkForm, Node.walkList, Node.walkParams,
      Node.walkOpts, Node.walkOption, Node.walkArgs, List.append_nil, List.cons_append,
      List.nil_append, List.forall_mem_cons]
    simp [Node.span, Node.form, Form.Fits]
    decide
  exact ⟨hfits, tree_read_back.1 Node.sample hfits⟩

end TypeFlow
