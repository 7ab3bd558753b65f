import Qnx.Alloc.Aligned

/-!
# Cores

The regions the library has from the system: those in the cache and those in use, `X`. They are
whole pages and do not overlap, and the hole the next `mmap` may use is none of them.
-/

namespace Qnx.Alloc

open Extents List

structure Region (e : Extent) : Prop where
  start_dvd : psiz ∣ e.1
  size_dvd : psiz ∣ e.2
  start_pos : 0 < e.1
  size_pos : 0 < e.2
  le_word : e.1 + e.2 ≤ word
  size_lt : e.2 < 2 ^ 31

structure Mapped (c : Core) (X : List Extent) : Prop where
  apart : Apart (c.cache ++ X)
  region : ∀ e ∈ c.cache ++ X, Region e
  hole : ∀ h ∈ c.hole, psiz ∣ h.1 ∧ 0 < h.1 ∧ h.1 + h.2 ≤ word ∧ h.2 < 2 ^ 31 ∧
    ∀ e ∈ c.cache ++ X, Off h e

variable {cfg : Config} {c c' : Core} {X Y : List Extent} {e : Extent}

section

variable (h : Mapped c X)
include h

theorem Mapped.perm (hh : c'.hole = c.hole) (hp : c'.cache ++ Y ~ c.cache ++ X) : Mapped c' Y where
  apart := h.apart.perm hp.symm
  region e he := h.region e (hp.subset he)
  hole r hr := by
    obtain ⟨h1, h2, h3, h4, h5⟩ := h.hole r (hh ▸ hr)
    exact ⟨h1, h2, h3, h4, fun e he => h5 e (hp.subset he)⟩

theorem Mapped.permX (hp : Y ~ X) : Mapped c Y := h.perm rfl (hp.append_left _)

theorem Mapped.mem (he : e ∈ X) : Region e := h.region e (mem_append_right _ he)

theorem Mapped.grow {a room n : Nat} (hh : c.hole = some (a, room))
    (hn : psiz ∣ n) (h0 : 0 < n) (hle : n ≤ room) :
    Mapped { c with hole := none } ((a, n) :: X) := by
  obtain ⟨h1, h2, h3, h4, h5⟩ := h.hole (a, room) hh
  have hreg : Region (a, n) := ⟨h1, hn, h2, h0, by omega, by omega⟩
  have hoff : ∀ e ∈ c.cache ++ X, Off (a, n) e := fun e he =>
    (h5 e he).within ⟨le_rfl, by omega⟩
  refine ⟨?_, fun e he => ?_, by simp⟩
  · refine Apart.perm ?_ perm_middle.symm
    exact apart_cons.mpr ⟨hoff, h.apart⟩
  · rcases mem_cons.mp (perm_middle.subset he) with rfl | he
    · exact hreg
    · exact h.region e he

theorem Mapped.morecore {n : Nat} (hn : psiz ∣ n) (h0 : 0 < n)
    (hm : c.morecore n = (some e, c')) : Mapped c' (e :: X) ∧ n ≤ e.2 := by
  unfold Core.morecore at hm
  cases hf : c.cache.find? fun e => decide (n ≤ e.2) with
  | some f =>
    simp only [hf] at hm
    obtain ⟨rfl, rfl⟩ := hm
    refine ⟨h.perm rfl ?_, by simpa using find?_some hf⟩
    refine perm_middle.trans ?_
    exact (perm_cons_erase (mem_of_find?_eq_some hf)).symm.append_right X
  | none =>
    simp only [hf, Core.getmem] at hm
    cases hh : c.hole with
    | none => simp [hh] at hm
    | some r =>
      obtain ⟨a, room⟩ := r
      by_cases hle : n ≤ room
      · simp only [hh, hle] at hm
        obtain ⟨rfl, rfl⟩ := hm
        exact ⟨h.grow hh hn h0 hle, le_rfl⟩
      · simp [hh, hle] at hm

end

theorem morecore_none {n : Nat} (hm : c.morecore n = (none, c')) : c' = c := by
  unfold Core.morecore at hm
  cases hf : c.cache.find? fun e => decide (n ≤ e.2) with
  | some f => simp [hf] at hm
  | none =>
    simp only [hf, Core.getmem] at hm
    cases hh : c.hole with
    | none =>
      simp only [hh, Prod.mk.injEq, true_and] at hm
      exact hm.symm
    | some r =>
      by_cases hle : n ≤ r.2
      · simp [hh, hle] at hm
      · simp only [hh, hle, if_false, Prod.mk.injEq, true_and] at hm
        exact hm.symm

theorem Mapped.drop (h : Mapped c (e :: X)) : Mapped c X where
  apart := (apart_cons.mp (h.apart.perm perm_middle)).2
  region f hf := h.region f (perm_middle.symm.subset (mem_cons_of_mem e hf))
  hole r hr := by
    obtain ⟨h1, h2, h3, h4, h5⟩ := h.hole r hr
    exact ⟨h1, h2, h3, h4, fun f hf =>
      h5 f (perm_middle.symm.subset (mem_cons_of_mem e hf))⟩

theorem Mapped.donecore (h : Mapped c (e :: X)) : Mapped (c.donecore cfg e) X := by
  unfold Core.donecore
  split
  · exact h.drop
  · exact h.perm rfl perm_middle.symm

/-! ### Roundings -/

theorem roundUp_spec {n m : Nat} (hm : 0 < m) (h : n + m ≤ word) :
    m ∣ roundUp n m ∧ n ≤ roundUp n m ∧ roundUp n m < n + m := by
  have h1 : (n + (m - 1)) % word = n + (m - 1) := Nat.mod_eq_of_lt (by omega)
  have h2 : m * ((n + (m - 1)) / m) ≤ n + (m - 1) := Nat.mul_div_le _ _
  have h3 : n + (m - 1) < m * ((n + (m - 1)) / m) + m := by
    have := Nat.lt_mul_div_succ (n + (m - 1)) hm
    rwa [Nat.mul_add, Nat.mul_one] at this
  unfold roundUp
  rw [h1, Nat.mod_eq_of_lt (by omega)]
  exact ⟨Nat.dvd_mul_right _ _, by omega⟩

theorem unitSize_spec {n : Nat} (hn : n < 2 ^ 31) :
    8 ∣ unitSize n ∧ n + 8 ≤ unitSize n ∧ unitSize n < n + 16 := by
  obtain ⟨h1, h2, h3⟩ := roundUp_spec (n := n + 8) (m := 8) (by decide) (by unfold word; omega)
  unfold unitSize
  exact ⟨h1, h2, by omega⟩

end Qnx.Alloc
