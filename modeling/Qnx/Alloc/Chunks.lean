import Qnx.Alloc.Cores

/-!
# Chunks

The chunks of the arenas, free and busy, do not overlap and lie inside the arenas; every operation
of the list allocator splits or joins some of them. Which bin a free chunk is on does not matter.
-/

namespace Qnx.Alloc

open Extents List

def interior (e : Extent) : Extent := (e.1 + 20, e.2 - arenaOverhead)

structure Shaped (c : Extent) : Prop where
  size : minFsize ≤ c.2
  size_dvd : 8 ∣ c.2
  start : 8 ∣ c.1 + 4

structure Laid (A C : List Extent) : Prop where
  apart : Apart C
  shaped : ∀ c ∈ C, Shaped c
  inside : ∀ c ∈ C, ∃ e ∈ A, Within c (interior e)

namespace Laid
variable {A C C' : List Extent} {c d : Extent}

theorem pos (h : Laid A C) (hc : c ∈ C) : 0 < c.2 := lt_of_lt_of_le (by decide) (h.shaped c hc).size

theorem perm (h : Laid A C) (hp : C ~ C') : Laid A C' where
  apart := h.apart.perm hp
  shaped c hc := h.shaped c (hp.symm.subset hc)
  inside c hc := h.inside c (hp.symm.subset hc)

theorem tail (h : Laid A (c :: C)) : Laid A C where
  apart := (apart_cons.mp h.apart).2
  shaped d hd := h.shaped d (mem_cons_of_mem c hd)
  inside d hd := h.inside d (mem_cons_of_mem c hd)

theorem split (a m b n : Nat) (h : Laid A (c :: C)) (ha : minFsize ≤ m ∧ 8 ∣ m ∧ 8 ∣ a + 4)
    (hb : minFsize ≤ n ∧ 8 ∣ n ∧ 8 ∣ b + 4) (hoff : a + m ≤ b ∨ b + n ≤ a)
    (hin : c.1 ≤ a ∧ a + m ≤ c.1 + c.2 ∧ c.1 ≤ b ∧ b + n ≤ c.1 + c.2) :
    Laid A ((a, m) :: (b, n) :: C) := by
  have hw : ∀ d ∈ [(a, m), (b, n)], Within d c := by
    simpa [Within, and_assoc] using hin
  obtain ⟨e, he, hwe⟩ := h.inside c mem_cons_self
  refine ⟨h.apart.replace (M := [(a, m), (b, n)]) (by simpa [Apart, Off] using hoff) hw, ?_, ?_⟩
  · obtain ⟨a1, a2, a3⟩ := ha
    obtain ⟨b1, b2, b3⟩ := hb
    exact forall_mem_cons.mpr ⟨⟨a1, a2, a3⟩, forall_mem_cons.mpr ⟨⟨b1, b2, b3⟩, h.tail.shaped⟩⟩
  · have hin := fun d hd => (⟨e, he, (hw d hd).trans hwe⟩ : ∃ e ∈ A, Within d (interior e))
    exact forall_mem_append.mpr ⟨hin, h.tail.inside⟩

theorem merge (h : Laid A (c :: d :: C)) (hA : Apart A) (hcd : c.1 + c.2 = d.1) :
    Laid A ((c.1, c.2 + d.2) :: C) := by
  have hpc := h.pos (c := c) (by simp)
  refine ⟨h.apart.merge hcd fun g hg => h.pos (by simp [hg]),
    forall_mem_cons.mpr ⟨?_, h.tail.tail.shaped⟩, forall_mem_cons.mpr ⟨?_, h.tail.tail.inside⟩⟩
  · obtain ⟨h1, h2, h3⟩ := h.shaped c (by simp)
    obtain ⟨h4, h5, -⟩ := h.shaped d (by simp)
    exact ⟨by omega, by omega, h3⟩
  · obtain ⟨e, he, hwe⟩ := h.inside c (by simp)
    obtain ⟨f, hf, hwf⟩ := h.inside d (by simp)
    obtain rfl : e = f := by
      by_contra hne
      have hoff : Off e f := Pairwise.forall hA he hf hne
      unfold Within interior arenaOverhead at hwe hwf
      unfold Off at hoff
      omega
    refine ⟨e, he, hwe.1, ?_⟩
    have := hwf.2
    omega

theorem eraseArena (h : Laid A (c :: C)) {e : Extent} (he : interior e = c) :
    Laid (A.erase e) C where
  apart := h.tail.apart
  shaped := h.tail.shaped
  inside d hd := by
    obtain ⟨f, hf, hw⟩ := h.inside d (mem_cons_of_mem c hd)
    refine ⟨f, (mem_erase_of_ne ?_).mpr hf, hw⟩
    rintro rfl
    have hoff := (apart_cons.mp h.apart).1 d hd
    have hpos := h.pos (mem_cons_of_mem c hd)
    rw [he] at hw
    unfold Off at hoff
    unfold Within at hw
    omega

end Laid

/-! ### Bins -/

section Bins
variable {cfg : Config} {bins : List (List Extent)}

theorem findNbin_lt (cfg : Config) (size : Nat) : cfg.findNbin size < 9 := by
  unfold Config.findNbin
  omega

theorem flatten_modify {α : Type} {f : List α → List α} {c : α} (hf : ∀ b, f b ~ c :: b)
    {l : List (List α)} {i : Nat} (hi : i < l.length) :
    (l.modify i f).flatten ~ c :: l.flatten := by
  induction l generalizing i with
  | nil => cases hi
  | cons b l ih =>
    cases i with
    | zero =>
      exact (hf b).append_right _
    | succ i =>
      exact ((ih (Nat.lt_of_succ_lt_succ hi)).append_left b).trans perm_middle

@[simp] theorem enqueueBin_length (c : Extent) : (enqueueBin cfg c bins).length = bins.length := by
  simp [enqueueBin]

theorem enqueueBin_flatten (cfg : Config) (hb : bins.length = 9) (c : Extent) :
    (enqueueBin cfg c bins).flatten ~ c :: bins.flatten := by
  refine flatten_modify (fun b => ?_) (hb ▸ findNbin_lt cfg c.2)
  cases cfg.lifo with
  | true => exact .refl _
  | false => exact perm_append_singleton c b

theorem dequeueBin_flatten (a : Nat) :
    (dequeueBin a bins).flatten = bins.flatten.filter fun c => c.1 ≠ a := by
  unfold dequeueBin
  rw [filter_flatten]

@[simp] theorem dequeueBin_length (a : Nat) : (dequeueBin a bins).length = bins.length := by
  simp [dequeueBin]

@[simp] theorem setSize_length (a z : Nat) : (setSize a z bins).length = bins.length := by
  simp [setSize]

theorem perm_filter {L : List Extent} {c : Extent} (h : Apart L) (hpos : ∀ f ∈ L, 0 < f.2)
    (hc : c ∈ L) : L ~ c :: L.filter fun d => d.1 ≠ c.1 := by
  have hp := perm_cons_erase hc
  have hpos' : ∀ f ∈ c :: L.erase c, 0 < f.2 := fun f hf => hpos f (hp.symm.subset hf)
  have hf := (h.perm hp).filter_ne hpos'
  have hp' := hp.filter fun d => decide (d.1 ≠ c.1)
  rw [filter_cons_of_neg (by simp), hf] at hp'
  exact hp.trans (hp'.symm.cons c)

theorem setSize_flatten {c : Extent} (h : Apart bins.flatten) (hpos : ∀ f ∈ bins.flatten, 0 < f.2)
    (hc : c ∈ bins.flatten) (z : Nat) :
    (setSize c.1 z bins).flatten ~ (c.1, z) :: bins.flatten.filter fun d => d.1 ≠ c.1 := by
  have hp := perm_filter h hpos hc
  unfold setSize
  rw [← map_flatten]
  refine (hp.map _).trans ?_
  rw [map_cons, if_pos rfl]
  refine Perm.cons _ (.of_eq ?_)
  refine (map_congr_left fun d hd => ?_).trans (map_id _)
  have : d.1 ≠ c.1 := by simpa using (mem_filter.mp hd).2
  exact if_neg this

end Bins

end Qnx.Alloc
