import TypeFlow.Proofs.Worlds

/-!
# Look-ups in a closed world

A look-up that starts at a known module consults known modules only: along superclasses, down to
subclasses, through inclusions and for methods, where all three are mixed with aliases.
-/

set_option autoImplicit false

namespace TypeFlow

namespace World

variable {w : World}
variable {s : Side} {m : ModuleId}

theorem Closed.knows_parent (hc : w.Closed) {p : Side} (hp : w.parent? s = some p) :
    w.Knows p.module := by
  have hcore : ∀ {m : ModuleId}, m.index < Core.names.length → ∀ {b : Bool},
      some (Side.mk m b) = some p → w.Knows p.module := fun hm _ he =>
    Option.some.inj he ▸ hc.knows_core hm
  have hsuper : ∀ b, (w.get s.module).superclass.map (fun q => Side.mk q b) = some p →
      w.Knows p.module := fun b he => by
    obtain ⟨q, hq, rfl⟩ := Option.map_eq_some_iff.1 he
    exact (hc.within s.module).superclass q hq
  unfold parent? at hp
  split at hp
  · split at hp
    · exact hcore (by decide) hp
    · split at hp
      · exact hsuper _ hp
      · exact hcore (by decide) hp
  · exact hsuper _ hp

theorem Closed.knows_chain (hc : w.Closed) (hs : w.Knows s.module) :
    ∀ x ∈ w.chain s, w.Knows x.module :=
  forall_mem_trailFrom (P := fun x : Side => w.Knows x.module)
    (fun _ _ _ hp => hc.knows_parent hp) _ [] hs

theorem Closed.knows_superclasses (hc : w.Closed) (hm : w.Knows m) :
    ∀ x ∈ w.superclasses m, w.Knows x :=
  forall_mem_trailFrom (fun a b _ hb => (hc.within a).superclass b hb) _ [] hm

theorem Closed.knows_descendants (hc : w.Closed) (hm : w.Knows m) :
    ∀ x ∈ w.descendants m, w.Knows x :=
  forall_mem_reachFrom (fun a _ => (hc.within a).subclasses) _
    (fun _ hx => absurd hx List.not_mem_nil) fun _ hx => List.mem_singleton.1 hx ▸ hm

theorem mem_of_mem_throughFirst {p : ModuleId → Bool} {ms : List ModuleId} {x : ModuleId}
    (hx : x ∈ throughFirst p ms) : x ∈ ms := by
  induction ms with
  | nil => exact hx
  | cons m ms ih =>
    unfold throughFirst at hx
    split at hx
    · exact List.mem_singleton.1 hx ▸ List.mem_cons_self
    · rcases List.mem_cons.1 hx with rfl | hx
      · exact List.mem_cons_self
      · exact List.mem_cons_of_mem _ (ih hx)

theorem Closed.knows_isSubclass (hc : w.Closed) (hm : w.Knows m)
    (target : ModuleId) : ∀ x ∈ (w.isSubclass m target).2, w.Knows x := fun x hx =>
  hc.knows_superclasses hm x (mem_of_mem_throughFirst hx)

theorem Closed.knows_overrides (hc : w.Closed) (hs : w.Knows s.module) (name : String) :
    ∀ key ∈ w.overrides s name, w.Knows key.side.module := by
  intro key hk
  obtain ⟨d, hd, rfl⟩ := List.mem_map.1 hk
  exact hc.knows_descendants hs d (List.mem_of_mem_drop hd)

end World

namespace Lookup

variable {w : World}
variable {l : Lookup} {s : Side}

def Known (w : World) (l : Lookup) : Prop := ∀ key ∈ l.consulted, w.Knows key.side.module

theorem Known.own (h : l.Known w) (hs : w.Knows s.module) :
    (l.own w s).Known w := by
  intro key hk
  rcases List.mem_append.1 hk with hk | hk
  · exact h key hk
  · obtain ⟨name, _, rfl⟩ := List.mem_map.1 hk
    exact hs

theorem Known.included (hc : w.Closed) (n : Nat) {m : ModuleId} {searched : List ModuleId}
    (h : l.Known w) : (included w n m (searched, l)).2.Known w := by
  induction n generalizing m searched l with
  | zero => exact h
  | succ n ih =>
    unfold Lookup.included
    split
    · exact h
    · have hincl : ∀ inc ∈ inclusions w m, w.Knows inc.1 := by
        intro inc hi
        obtain ⟨e, he, rfl⟩ := List.mem_map.1 (List.mem_reverse.1 hi)
        refine (hc.within m).included e.1.2 ?_
        exact List.mem_map.2 ⟨e.1, List.mem_map.2 ⟨e, he, rfl⟩, rfl⟩
      generalize m :: searched = searched
      generalize inclusions w m = incs at hincl
      induction incs generalizing searched l with
      | nil => exact h
      | cons inc incs ihi =>
        have hrest : ∀ x ∈ incs, w.Knows x.1 := fun x hx => hincl x (List.mem_cons_of_mem _ hx)
        have hown : ((l.visit (.enter inc.1 inc.2)).own w ⟨inc.1, false⟩).Known w :=
          Known.own (l := l.visit (.enter inc.1 inc.2)) h (hincl inc List.mem_cons_self)
        rw [List.foldl_cons]
        dsimp only
        split
        · exact ihi h _ hrest
        · split
          · exact ihi hown _ hrest
          · have hdeep : (Lookup.included w n inc.1
                (searched, (l.visit (.enter inc.1 inc.2)).own w ⟨inc.1, false⟩)).2.Known w :=
              ih hown
            split
            · exact ihi hdeep _ hrest
            · exact ihi (l := Lookup.visit .leave _) hdeep _ hrest

theorem Known.atSide (hc : w.Closed) (h : l.Known w)
    (hs : w.Knows s.module) : (l.atSide w s).Known w := by
  unfold Lookup.atSide
  dsimp only
  split
  · exact h.own hs
  · exact (h.own hs).included hc _

theorem Known.ascend (h : l.Known w) (s : Side) : (l.ascend w s).Known w := by
  unfold Lookup.ascend
  split <;> exact h

theorem Known.along (hc : w.Closed) {sides : List Side} (hs : ∀ s ∈ sides, w.Knows s.module)
    (h : l.Known w) : (along w sides l).Known w := by
  induction sides generalizing l with
  | nil => exact h
  | cons s sides ih =>
    have hat := h.atSide hc (hs s List.mem_cons_self)
    unfold Lookup.along
    dsimp only
    split
    · exact hat
    · exact ih (fun x hx => hs x (List.mem_cons_of_mem _ hx)) (hat.ascend s)

end Lookup

theorem World.Closed.known_lookup {w : World} (hc : w.Closed) {s : Side} (hs : w.Knows s.module)
    (name : String) : (w.lookup s name).Known w :=
  Lookup.Known.along hc (hc.knows_chain hs) fun _ hk => absurd hk List.not_mem_nil

end TypeFlow
