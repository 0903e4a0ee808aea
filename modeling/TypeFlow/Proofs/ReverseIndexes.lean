import TypeFlow.Proofs.Requests

/-!
# Reverse indexes are exact

Entities list the sites whose last run consulted them. After any requests these lists and the
installed dependencies of live sites say the same, and destroyed sites are in no list. So a site is
always found where it is to be taken off, and no request fails for want of it.
-/

set_option autoImplicit false

namespace TypeFlow

open Machine

namespace World

variable {w : World} {s : SiteId}

theorem mem_listed_iff {α : Type} {o : Option α} {f : α → OrderedSet SiteId} :
    s ∈ (o.map fun x => (f x).toList).getD [] ↔ ∃ x, o = some x ∧ s ∈ (f x).toList := by
  cases o with
  | none | some => simp

theorem mem_watchers_method {key : MemberKey} : s ∈ w.watchers (.method key) ↔
    ∃ m, w.method? key = some m ∧ s ∈ m.callsites.toList :=
  mem_listed_iff

theorem mem_watchers_const {key : ConstKey} : s ∈ w.watchers (.const key) ↔
    ∃ c, w.const? key = some c ∧ s ∈ c.followers.toList :=
  mem_listed_iff

end World

namespace Machine

variable {e : Engine} {hand : List VertexId} {s : SiteId}

theorem Exact.mem_watchers_iff (h : (Machine.mk e [] hand).Exact) {x : Site}
    (hx : e.site? s = some x) (d : Dependency) :
    s ∈ e.world.watchers d ↔ x.effects.installed.Reads d := by
  have hfx : (Machine.mk e [] hand).effectsOf s = x.effects := by
    rw [effectsOf_unheld fun f hf => absurd hf List.not_mem_nil, hx]
    rfl
  rw [h.filed s d, hfx]

theorem Exact.not_mem_watchers (h : (Machine.mk e [] hand).Exact) (hs : e.isLive s = false)
    (d : Dependency) : s ∉ e.world.watchers d := by
  cases hx : e.site? s with
  | none =>
    have hfx : (Machine.mk e [] hand).effectsOf s = {} := by
      rw [effectsOf_unheld fun f hf => absurd hf List.not_mem_nil, hx]
      rfl
    rw [h.filed s d, hfx]
    exact Installed.not_reads_empty d
  | some x =>
    rw [h.mem_watchers_iff hx d]
    refine h.idle s x hx ?_ (fun f hf => absurd hf List.not_mem_nil) d
    simpa [Engine.isLive, hx] using hs

end Machine

/-- After every sequence of requests, failed or not, the indexes of methods, constants and modules
list exactly the live sites that consulted them, and no request ends in a missing entry. -/
theorem reverse_indexes_exact (config : Config) (rs : List Request) :
    let w := Workspace.serve config rs
    (∀ s x, w.engine.site? s = some x → x.destroyed = false →
      (∀ key, key ∈ x.effects.installed.methodReads.toList ↔
        ∃ m, w.engine.world.method? key = some m ∧ s ∈ m.callsites.toList) ∧
      (∀ key, key ∈ x.effects.installed.constReads.toList ↔
        ∃ c, w.engine.world.const? key = some c ∧ s ∈ c.followers.toList) ∧
      ∀ m, m ∈ x.effects.installed.superclassReads.toList ↔
        s ∈ (w.engine.module m).subclassChecks.toList) ∧
    (∀ s, w.engine.isLive s = false →
      (∀ key m, w.engine.world.method? key = some m → s ∉ m.callsites.toList) ∧
      (∀ key c, w.engine.world.const? key = some c → s ∉ c.followers.toList) ∧
      ∀ m, s ∉ (w.engine.module m).subclassChecks.toList) ∧
    ∀ (r : Request) s entity w', r.handle w ≠ .error (.missingReverseIndex s entity) w' := by
  intro w
  have hs := Workspace.sound_serve config rs
  have hexact := hs.filed.toExact
  refine ⟨fun s x hx _ => ?_, fun s hdead => ?_, fun r s entity w' hfault => ?_⟩
  · have hfile := hexact.mem_watchers_iff hx
    exact ⟨fun key => (hfile (.method key)).symm.trans World.mem_watchers_method,
      fun key => (hfile (.const key)).symm.trans World.mem_watchers_const,
      fun m => (hfile (.superclass m)).symm⟩
  · have hfile := hexact.not_mem_watchers hdead
    exact ⟨fun key m hm hmem => hfile (.method key) (World.mem_watchers_method.2 ⟨m, hm, hmem⟩),
      fun key c hc hmem => hfile (.const key) (World.mem_watchers_const.2 ⟨c, hc, hmem⟩),
      fun m hmem => hfile (.superclass m) hmem⟩
  · obtain ⟨log, hmoves, -⟩ := Workspace.moves_serve config rs
    have hdone := r.drives_handle w log ((Boot.kept_boot config).sound.moves hmoves)
    rw [hfault] at hdone
    obtain ⟨_, _, hfails⟩ := hdone
    exact hfails.honest s entity rfl

end TypeFlow
