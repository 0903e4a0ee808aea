import TypeFlow.Proofs.Moves

/-!
# Work that can fail

Work on part of a state proceeds in moves too, whether it ends well or in a fault.
The rest of the state is carried along beside it.
-/

set_option autoImplicit false

namespace TypeFlow

open State

def Drives {σ γ α : Type} (put : σ → γ → State) (E : Fault → σ → γ → Prop) (m : EStateM Fault σ α)
    (st : σ) (g : γ) (Q : α → σ → γ → Prop) : Prop :=
  (put st g).Sound →
    match m st with
    | .ok a st' => ∃ g', Moves (put st g) (put st' g') ∧ Q a st' g'
    | .error f st' => ∃ g', Moves (put st g) (put st' g') ∧ E f st' g'

def Never {σ γ : Type} (_ : Fault) (_ : σ) (_ : γ) : Prop := False

namespace Drives

variable {σ γ α β : Type} {put : σ → γ → State} {E E' : Fault → σ → γ → Prop}
  {m : EStateM Fault σ α} {st : σ} {g : γ} {P Q : α → σ → γ → Prop}

theorem intro (h : (put st g).Sound → Drives put E m st g Q) : Drives put E m st g Q :=
  fun hs => h hs hs

theorem imp (h : Drives put E m st g P)
    (hq : ∀ a st' g', Moves (put st g) (put st' g') → P a st' g' → Q a st' g') :
    Drives put E m st g Q := by
  intro hs
  have h' := h hs
  revert h'
  cases m st with
  | ok a st' => exact fun ⟨g', hmoves, hp⟩ => ⟨g', hmoves, hq a st' g' hmoves hp⟩
  | error f st' => exact id

theorem fault (h : Drives put E m st g Q)
    (he : ∀ f st' g', Moves (put st g) (put st' g') → E f st' g' → E' f st' g') :
    Drives put E' m st g Q := by
  intro hs
  have h' := h hs
  revert h'
  cases m st with
  | ok a st' => exact id
  | error f st' => exact fun ⟨g', hmoves, hf⟩ => ⟨g', hmoves, he f st' g' hmoves hf⟩

theorem sure (h : Drives put Never m st g Q) : Drives put E m st g Q :=
  h.fault fun _ _ _ _ hf => hf.elim

theorem ok (h : Drives put Never m st g Q) (hs : (put st g).Sound) :
    ∃ a st' g', m st = .ok a st' ∧ Moves (put st g) (put st' g') ∧ Q a st' g' := by
  have hdone := h hs
  revert hdone
  cases m st with
  | ok a st' =>
    rintro ⟨g', hmoves, hq⟩
    exact ⟨a, st', g', rfl, hmoves, hq⟩
  | error f st' =>
    rintro ⟨_, _, hf⟩
    exact hf.elim

theorem congr {m' : EStateM Fault σ α} (h : Drives put E m st g Q) (hm : m' st = m st) :
    Drives put E m' st g Q := by
  unfold Drives at h ⊢
  rw [hm]
  exact h

theorem result (h : Drives put E m st g Q) :
    Drives put E m st g fun a st' g' => Q a st' g' ∧ m st = .ok a st' := by
  intro hs
  have hdone := h hs
  revert hdone
  cases hm : m st with
  | ok a st' => exact fun ⟨g', hmoves, hq⟩ => ⟨g', hmoves, hq, rfl⟩
  | error f st' => exact id

theorem after {u : σ} {c : γ} (hmoves : Moves (put st g) (put u c))
    (h : Drives put E m u c Q) : Drives put E (fun _ => m u) st g Q := by
  intro hs
  have h' := h (hs.moves hmoves)
  revert h'
  dsimp only
  cases m u with
  | ok a st'' => exact fun ⟨g'', hrest, hq⟩ => ⟨g'', hmoves.trans hrest, hq⟩
  | error f st'' => exact fun ⟨g'', hrest, hf⟩ => ⟨g'', hmoves.trans hrest, hf⟩

theorem pure {a : α} (h : Q a st g) : Drives put E (pure a) st g Q :=
  fun _ => ⟨g, .refl, h⟩

theorem throw {f : Fault} (h : E f st g) : Drives put E (throw f : EStateM Fault σ α) st g Q :=
  fun _ => ⟨g, .refl, h⟩

theorem bind {k : α → EStateM Fault σ β} {R : β → σ → γ → Prop} (hm : Drives put E m st g P)
    (hk : ∀ a st' g', Moves (put st g) (put st' g') → P a st' g' →
      Drives put E (k a) st' g' R) : Drives put E (m >>= k) st g R := by
  intro hs
  have hm' := hm hs
  change match EStateM.bind m k st with
    | .ok b st' => ∃ g', Moves (put st g) (put st' g') ∧ R b st' g'
    | .error f st' => ∃ g', Moves (put st g) (put st' g') ∧ E f st' g'
  unfold EStateM.bind
  revert hm'
  cases m st with
  | error f st' => exact id
  | ok a st' =>
    rintro ⟨g', hmoves, hp⟩
    have hk' := hk a st' g' hmoves hp (hs.moves hmoves)
    revert hk'
    dsimp only
    cases k a st' with
    | ok b st'' => exact fun ⟨g'', hmoves', hr⟩ => ⟨g'', hmoves.trans hmoves', hr⟩
    | error f st'' => exact fun ⟨g'', hmoves', hf⟩ => ⟨g'', hmoves.trans hmoves', hf⟩

theorem withState {k : σ → EStateM Fault σ β} {R : β → σ → γ → Prop}
    (h : (put st g).Sound → Drives put E (k st) st g R) : Drives put E (get >>= k) st g R :=
  fun hs => h hs hs

theorem modifyGet {f : σ → α × σ} (g' : γ)
    (h : (put st g).Sound → Moves (put st g) (put (f st).2 g') ∧ Q (f st).1 (f st).2 g') :
    Drives put E (modifyGet f) st g Q :=
  fun hs => ⟨g', h hs⟩

theorem modify {f : σ → σ} {Q : PUnit → σ → γ → Prop} (g' : γ)
    (h : (put st g).Sound → Moves (put st g) (put (f st) g') ∧ Q ⟨⟩ (f st) g') :
    Drives put E (modify f) st g Q :=
  fun hs => ⟨g', h hs⟩

end Drives

end TypeFlow
