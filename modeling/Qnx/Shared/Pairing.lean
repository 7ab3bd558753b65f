import Mathlib.Logic.Function.Basic

/-!
# Back-pointers

Two partial functions that are inverse to each other, the first where `live` holds.
-/

namespace Qnx.Pairing

open Function

variable {α : Type}

/-- `server` and `client` point back at each other; `server t` counts while `t` is live. -/
def Paired (live : α → Prop) (server client : α → Option α) : Prop :=
  ∀ t s, live t ∧ server t = some s ↔ client s = some t

namespace Paired

variable {live live' : α → Prop} {server client : α → Option α} {s t : α}

section

variable (h : Paired live server client)
include h

theorem server_eq (hc : client s = some t) : server t = some s := ((h t s).mpr hc).2

theorem free_of_not_live (ht : ¬ live t) (s : α) : client s ≠ some t := by
  intro hc
  exact ht ((h t s).mpr hc).1

theorem change (hother : ∀ u, u ≠ t → (live' u ↔ live u))
    (hfree : ∀ v, client v ≠ some t) (hnew : live' t → server t = none) :
    Paired live' server client := by
  intro u v
  by_cases hu : u = t
  · subst hu
    constructor
    · rintro ⟨hl, hv⟩
      rw [hnew hl] at hv
      cases hv
    · intro hv
      exact absurd hv (hfree v)
  · rw [hother u hu]
    exact h u v

end

variable [DecidableEq α]

section

variable (h : Paired live server client)
include h

theorem part (hc : client s = some t) :
    Paired live (update server t none) (update client s none) := by
  intro u v
  have hst := h.server_eq hc
  by_cases hu : u = t
  · subst hu
    rw [update_self]
    constructor
    · rintro ⟨-, h0⟩
      cases h0
    · intro hv
      by_cases hvs : v = s
      · rw [hvs, update_self] at hv
        cases hv
      rw [update_of_ne hvs] at hv
      have := h.server_eq hv
      rw [hst] at this
      cases this
      exact absurd rfl hvs
  rw [update_of_ne hu]
  by_cases hvs : v = s
  · subst hvs
    rw [update_self]
    constructor
    · intro huv
      have := (h u v).mp huv
      rw [hc] at this
      cases this
      exact absurd rfl hu
    · intro h0
      cases h0
  · rw [update_of_ne hvs]
    exact h u v

theorem join (hother : ∀ u, u ≠ t → (live' u ↔ live u))
    (hlive : live' t) (hfree : ∀ v, client v ≠ some t) (hs : client s = none) :
    Paired live' (update server t (some s)) (update client s (some t)) := by
  intro u v
  by_cases hu : u = t
  · subst hu
    rw [update_self]
    by_cases hvs : v = s
    · subst hvs
      rw [update_self]
      exact ⟨fun _ => rfl, fun _ => ⟨hlive, rfl⟩⟩
    rw [update_of_ne hvs]
    constructor
    · rintro ⟨-, hsv⟩
      cases hsv
      exact absurd rfl hvs
    · intro hv
      exact absurd hv (hfree v)
  rw [update_of_ne hu, hother u hu]
  by_cases hvs : v = s
  · subst hvs
    rw [update_self]
    constructor
    · intro huv
      have := (h u v).mp huv
      rw [hs] at this
      cases this
    · intro htu
      cases htu
      exact absurd rfl hu
  · rw [update_of_ne hvs]
    exact h u v

theorem overwrite (ht : ¬ live t) (x : Option α) : Paired live (update server t x) client := by
  intro u v
  by_cases hu : u = t
  · subst hu
    constructor
    · rintro ⟨hl, -⟩
      exact absurd hl ht
    · intro hv
      exact absurd hv (h.free_of_not_live ht v)
  · rw [update_of_ne hu]
    exact h u v

end

end Paired

end Qnx.Pairing
