import Mathlib.Data.List.Perm.Basic
import Mathlib.Data.List.Nodup

/-!
# Lists whose entries are told apart by a key

Looking an entry up, replacing it and taking it off, up to the order of the list.
-/

namespace Qnx.Keyed

open List

variable {α κ : Type*} [DecidableEq κ] (key : α → κ) {L : List α} {x y : α} {k : κ}

theorem find_eq (h : (L.map key).Nodup) (hx : x ∈ L) (hk : key x = k) :
    L.find? (fun y => key y = k) = some x := by
  obtain ⟨y, hy⟩ := Option.isSome_iff_exists.mp
    (find?_isSome.mpr ⟨x, hx, decide_eq_true hk⟩ : (L.find? fun y => key y = k).isSome)
  have hyk : key y = k := by simpa using find?_some hy
  rw [hy, inj_on_of_nodup_map h (mem_of_find?_eq_some hy) hx (hyk.trans hk.symm)]

theorem drop_of_not_mem (h : k ∉ L.map key) : (L.filter fun y => key y ≠ k) = L :=
  filter_eq_self.mpr fun _ hy => decide_eq_true fun hc => h (hc ▸ mem_map_of_mem hy)

theorem set_of_not_mem (h : key x ∉ L.map key) :
    (L.map fun y => if key y = key x then x else y) = L := by
  refine (map_congr_left fun y hy => if_neg fun hc => ?_).trans (map_id L)
  exact h (hc ▸ mem_map_of_mem hy)

variable [DecidableEq α]

theorem perm_drop (h : (L.map key).Nodup) (hx : x ∈ L) (hk : key x = k) :
    L ~ x :: L.filter fun y => key y ≠ k := by
  have hp := perm_cons_erase hx
  have hn : key x ∉ (L.erase x).map key := by
    have := (hp.map key).nodup_iff.mp h
    exact (nodup_cons.mp this).1
  have hrest : ((L.erase x).filter fun y => key y ≠ k) = L.erase x := drop_of_not_mem key (hk ▸ hn)
  have hf := hp.filter fun y => decide (key y ≠ k)
  rw [filter_cons_of_neg (by simp [hk]), hrest] at hf
  exact hp.trans (hf.symm.cons x)

theorem set_perm (h : (L.map key).Nodup) (hy : y ∈ L) (hk : key y = key x) :
    (L.map fun z => if key z = key x then x else z) ~ x :: L.filter fun z => key z ≠ key x := by
  have hrest : ((L.filter fun z => key z ≠ key x).map fun z => if key z = key x then x else z) =
      L.filter fun z => key z ≠ key x := set_of_not_mem key (by simp)
  have hp := (perm_drop key h hy hk).map fun z => if key z = key x then x else z
  rw [map_cons, if_pos hk, hrest] at hp
  exact hp

end Qnx.Keyed
