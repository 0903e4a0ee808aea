import TypeFlow.Proofs.Parts

/-!
# What a run asks for

Whatever the rule of a site asks for in a sound state, it asks for in moves.
-/

set_option autoImplicit false

namespace TypeFlow

open State

/-- The state in which a site of node `own` is running. -/
def Run.state (own : NodeId) (s : SiteId × Progress) (r : Run) : State :=
  ⟨r.engine, [{ work := .run s.1, effects := r.effects, home := some own }], s.2⟩

def Staged {α : Type} (own : NodeId) (m : Staging α) (r : Run) (Q : α → Run → Prop) : Prop :=
  ∀ s, (r.state own s).Sound → ∀ a r', m r = some (a, r') →
    Moves (r.state own s) (r'.state own s) ∧ r.Learns True r' ∧ Q a r'

abbrev Fine {α : Type} (own : NodeId) (m : Staging α) (r : Run) : Prop :=
  Staged own m r fun _ _ => True

namespace Staged

variable {α β : Type} {own : NodeId} {r : Run} {m : Staging α} {P Q : α → Run → Prop}

theorem pure {a : α} (h : Q a r) : Staged own (pure a) r Q := by
  intro s hs b r' he
  obtain ⟨rfl, rfl⟩ : a = b ∧ r = r' := by
    simpa [Pure.pure, StateT.pure] using he
  exact ⟨.refl, .refl r, h⟩

theorem bind {f : α → Staging β} {R : β → Run → Prop} (hm : Staged own m r P)
    (hf : ∀ a r', r.Learns True r' → P a r' → Staged own (f a) r' R) :
    Staged own (m >>= f) r R := by
  intro s hs b r'' he
  change (m r).bind (fun x => f x.1 x.2) = some (b, r'') at he
  obtain ⟨⟨a, r'⟩, hfirst, hrest⟩ := Option.bind_eq_some_iff.1 he
  obtain ⟨hmoves, hlearns, hp⟩ := hm s hs a r' hfirst
  obtain ⟨hmoves', hlearns', hq⟩ := hf a r' hlearns hp s (hs.moves hmoves) b r'' hrest
  exact ⟨hmoves.trans hmoves', hlearns.trans hlearns', hq⟩

theorem onEngine {f : Engine → α × Engine} (hblocks : (f r.engine).2.blocks = r.engine.blocks)
    (hmoves : ∀ s, Moves (r.state own s) (Run.state own s { r with engine := (f r.engine).2 }))
    (hq : r.Founded → Q (f r.engine).1 { r with engine := (f r.engine).2 }) :
    Staged own (Staging.onEngine f) r Q := by
  intro s hs a r' he
  obtain ⟨rfl, rfl⟩ : (f r.engine).1 = a ∧ { r with engine := (f r.engine).2 } = r' := by
    simpa [Staging.onEngine, modifyGet, MonadStateOf.modifyGet, StateT.modifyGet, Pure.pure]
      using he
  exact ⟨hmoves s, ⟨fun _ => (hmoves s).learns hs, fun _ => hblocks⟩,
    hq ⟨hs.machine.grounded.closed, hs.machine.grounded.types⟩⟩

theorem onEffects {f : Effects → Effects}
    (hmove : ∀ s, Move (r.state own s) (Run.state own s { r with effects := f r.effects })) :
    Fine own (Staging.onEffects f) r := by
  intro s hs a r' he
  obtain rfl : { r with effects := f r.effects } = r' := by
    simpa [Staging.onEffects, modify, modifyGet, MonadStateOf.modifyGet, StateT.modifyGet,
      Pure.pure] using he
  exact ⟨.single (hmove s), ⟨fun _ _ => id, fun _ => rfl⟩, trivial⟩

theorem scratch {label : String} {fit : Vertex → Bool} {create : Engine → VertexId × Engine}
    (hblocks : (create r.engine).2.blocks = r.engine.blocks)
    (hcreate : ∀ s, Move (r.state own s) (Run.state own s ⟨(create r.engine).2,
      r.effects.addPrivate label (create r.engine).1⟩)) :
    Fine own (Staging.scratch label fit create) r := by
  intro s hs v r' he
  unfold Staging.scratch at he
  simp only [modifyGet, MonadStateOf.modifyGet, StateT.modifyGet, Pure.pure, Option.some.injEq,
    Prod.mk.injEq] at he
  obtain ⟨-, rfl⟩ := he
  cases hr : Staging.reusable? r (r.effects.nextScratchKey label).1 fit with
  | none =>
    have hmove := hcreate s
    exact ⟨.single hmove, ⟨fun _ => Moves.learns (.single hmove) hs, fun _ => hblocks⟩, trivial⟩
  | some v =>
    refine ⟨.single (.reuse ?_), ⟨fun _ _ => id, fun _ => rfl⟩, trivial⟩
    exact (Option.filter_eq_some_iff.1 hr).1

end Staged

def staging (own : NodeId) : FullWalk where
  own := own
  strict := True
  Holds := Staged own
  intro h s hs := h (fun _ => ⟨hs.machine.grounded.closed, hs.machine.grounded.types⟩) s hs
  pure := Staged.pure
  bind := Staged.bind
  endless _ := fun _ _ _ _ he => absurd he (Option.some_ne_none _).symm
  look _ h := h
  addEdge src dst _ := Staged.onEffects fun _ => .askEdge src dst
  addSite key _ _ _ hn h hc := Staged.onEffects fun _ => .askSite key (Option.some_ne_none _)
    ((hn trivial).imp (fun he => congrArg some he.symm) id) h hc
  addDiagnostic _ _ _ _ := Staged.onEffects fun _ => .jot
    ⟨⟨rfl, rfl, rfl, rfl, rfl, rfl, Or.inl rfl, Or.inl rfl, Or.inl rfl, rfl⟩, rfl, rfl, rfl⟩
  readSuperclass {m _} h := Staged.onEffects fun _ => .read (.superclass m) (h trivial)
  readConst {key _} h := Staged.onEffects fun _ => .read (.const key) (h trivial)
  readMethod {key _} h := by
    refine Staged.bind (P := fun _ _ => True) ?_ fun _ r' hr _ => ?_
    · exact Staged.onEngine rfl (fun _ => .single (.aside (Engine.Quiet.consult _ key)))
        fun _ => trivial
    · exact Staged.onEffects fun _ => .read (.method key) (hr.knows h trivial)
  source h := Staged.onEngine rfl (fun _ => .single (.source fun t ht => h t ht trivial))
    fun _ => trivial
  resolvePath path _ :=
    Staged.onEngine rfl (fun _ => .single (.aside (Engine.Quiet.resolvePath _ path))) fun hr _ =>
      World.knows_resolve ((World.Grows.resolve _ path).closed hr.closed)
  freshVertex label _ := Staged.scratch rfl fun _ => .freshVertex rfl label
  freshSource label _ _ h :=
    Staged.scratch rfl fun _ => .freshSource rfl label fun t ht => h t ht trivial
  ensureConst key r := Staged.onEngine (by simp) (fun _ => Engine.moves_ensureConst _ _)
    fun _ => trivial
  ensureIvar key r := Staged.onEngine (by simp) (fun _ => Engine.moves_ensureIvar _ _)
    fun _ => trivial
  globalVertex name r := Staged.onEngine (by simp) (fun _ => Engine.moves_globalVertex _ _)
    fun _ => trivial

theorem Rule.fine_run {own : NodeId} {rule : Rule} {r : Run} (h : rule.Known r.engine.world) :
    Fine own (rule.run own) r :=
  Rule.holds_run (F := staging own) fun _ => h

end TypeFlow
