import Mathlib.Data.List.Chain
import Mathlib.Data.List.Nodup

/-!
# Circular doubly linked lists

Nodes point both ways and each list is closed by a sentinel of its own. `Circles` says that the
pointers hold a family of disjoint lists; linking a node in and taking one out change a
single member of the family.
-/

namespace Qnx.Circular

open List Function

structure Ptrs (ν : Type) where
  next : ν → ν
  prev : ν → ν

section Ptrs
variable {ν : Type} [DecidableEq ν]

namespace Ptrs

def link (p : Ptrs ν) (a x b : ν) : Ptrs ν where
  next := update (update p.next x b) a x
  prev := update (update p.prev x a) b x

def unlink (p : Ptrs ν) (x : ν) : Ptrs ν where
  next := update p.next (p.prev x) (p.next x)
  prev := update p.prev (p.next x) (p.prev x)

end Ptrs

def Joined (p : Ptrs ν) (a b : ν) : Prop := p.next a = b ∧ p.prev b = a

/-- The list `l` with its sentinel `s`. -/
def Circle (p : Ptrs ν) (s : ν) (l : List ν) : Prop := List.IsChain (Joined p) (s :: (l ++ [s]))

/-- The node before the end of `l₁`, when `l₁` follows the sentinel. -/
def lastOf (s : ν) (l : List ν) : ν := l.getLast?.getD s

/-- The node at the start of `l₂`, when the sentinel follows `l₂`. -/
def firstOf (s : ν) (l : List ν) : ν := l.head?.getD s

end Ptrs

section Chain
variable {ν : Type} {p p' : Ptrs ν}

theorem lastOf_concat (s x : ν) (l : List ν) : lastOf s (l ++ [x]) = x := by
  simp [lastOf]

theorem firstOf_cons (s x : ν) (l : List ν) : firstOf s (x :: l) = x := rfl

theorem chain_frame {m : List ν} (h : List.IsChain (Joined p) m)
    (hn : ∀ x ∈ m.dropLast, p'.next x = p.next x) (hp : ∀ x ∈ m.tail, p'.prev x = p.prev x) :
    List.IsChain (Joined p') m := by
  induction m with
  | nil => exact .nil
  | cons a m ih =>
    cases m with
    | nil => exact .singleton a
    | cons b m =>
      rw [isChain_cons_cons] at h ⊢
      refine ⟨⟨?_, ?_⟩, ih h.2 (fun x hx => hn x ?_) fun x hx => hp x ?_⟩
      · exact (hn a (by simp)).trans h.1.1
      · exact (hp b (by simp)).trans h.1.2
      · exact mem_cons_of_mem a hx
      · exact mem_cons_of_mem b hx

theorem cons_eq_concat (s : ν) (l : List ν) : ∃ m, s :: l = m ++ [lastOf s l] := by
  rcases eq_nil_or_concat' l with rfl | ⟨l', x, rfl⟩
  · exact ⟨[], rfl⟩
  · exact ⟨s :: l', by simp [lastOf]⟩

theorem concat_eq_cons (s : ν) (l : List ν) : ∃ m, l ++ [s] = firstOf s l :: m := by
  cases l with
  | nil => exact ⟨[], rfl⟩
  | cons x l => exact ⟨l ++ [s], by simp [firstOf]⟩

theorem lastOf_mem (s : ν) (l : List ν) : lastOf s l ∈ s :: l := by
  obtain ⟨m, hm⟩ := cons_eq_concat s l
  simp [hm]

theorem firstOf_mem (s : ν) (l : List ν) : firstOf s l ∈ s :: l := by
  cases l <;> simp [firstOf]

variable {s x : ν} {l₁ l₂ : List ν}

theorem Circle.frame {l : List ν} (h : Circle p s l)
    (hn : ∀ x ∈ s :: l, p'.next x = p.next x) (hp : ∀ x ∈ s :: l, p'.prev x = p.prev x) :
    Circle p' s l := by
  refine chain_frame h (fun x hx => hn x ?_) fun x hx => hp x ?_
  · rw [← cons_append, dropLast_concat] at hx
    exact hx
  · simpa [or_comm] using hx

theorem circle_append_iff : Circle p s (l₁ ++ l₂) ↔ List.IsChain (Joined p) (s :: l₁) ∧
      Joined p (lastOf s l₁) (firstOf s l₂) ∧ List.IsChain (Joined p) (l₂ ++ [s]) := by
  obtain ⟨m1, h1⟩ := cons_eq_concat s l₁
  obtain ⟨m2, h2⟩ := concat_eq_cons s l₂
  rw [Circle, append_assoc, ← cons_append, h1, h2, append_assoc]
  exact isChain_append_cons_cons

theorem Circle.next_last (h : Circle p s (l₁ ++ l₂)) : p.next (lastOf s l₁) = firstOf s l₂ :=
  (circle_append_iff.mp h).2.1.1

theorem Circle.prev_first (h : Circle p s (l₁ ++ l₂)) : p.prev (firstOf s l₂) = lastOf s l₁ :=
  (circle_append_iff.mp h).2.1.2

theorem Circle.next_mem (h : Circle p s (l₁ ++ x :: l₂)) : p.next x = firstOf s l₂ := by
  have h' : Circle p s ((l₁ ++ [x]) ++ l₂) := by simpa using h
  simpa [lastOf] using h'.next_last

theorem Circle.prev_mem (h : Circle p s (l₁ ++ x :: l₂)) : p.prev x = lastOf s l₁ := by
  simpa [firstOf] using h.prev_first

theorem circle_nil_iff : Circle p s [] ↔ p.next s = s ∧ p.prev s = s := by
  simp [Circle, Joined]

end Chain

section Edit
variable {ν : Type} {p p' : Ptrs ν}

variable {s x : ν} {l₁ l₂ : List ν}

theorem chain_frame_left (h : List.IsChain (Joined p) (s :: l₁))
    (hnd : (s :: l₁).Nodup) (hn : ∀ y ∈ s :: l₁, y ≠ lastOf s l₁ → p'.next y = p.next y)
    (hp : ∀ y ∈ l₁, p'.prev y = p.prev y) : List.IsChain (Joined p') (s :: l₁) := by
  obtain ⟨m, hm⟩ := cons_eq_concat s l₁
  refine chain_frame h (fun y hy => ?_) hp
  refine hn y (dropLast_subset _ hy) ?_
  rintro rfl
  rw [hm] at hnd hy
  rw [dropLast_concat] at hy
  exact (nodup_append.mp hnd).2.2 _ hy _ (by simp) rfl

theorem chain_frame_right (h : List.IsChain (Joined p) (l₂ ++ [s]))
    (hnd : (s :: l₂).Nodup) (hn : ∀ y ∈ l₂, p'.next y = p.next y)
    (hp : ∀ y ∈ s :: l₂, y ≠ firstOf s l₂ → p'.prev y = p.prev y) :
    List.IsChain (Joined p') (l₂ ++ [s]) := by
  obtain ⟨m, hm⟩ := concat_eq_cons s l₂
  refine chain_frame h (fun y hy => hn y (by rwa [dropLast_concat] at hy)) fun y hy => ?_
  refine hp y (by simpa [or_comm] using mem_of_mem_tail hy) ?_
  rintro rfl
  have hnd' : (l₂ ++ [s]).Nodup := nodup_append_comm.mp hnd
  rw [hm] at hnd' hy
  exact (nodup_cons.mp hnd').1 hy

theorem cut_disjoint (hnd : (s :: (l₁ ++ l₂)).Nodup) : lastOf s l₁ ∉ l₂ ∧ firstOf s l₂ ∉ l₁ := by
  have hs := (nodup_cons.mp hnd).1
  have hdis := (nodup_append.mp (nodup_cons.mp hnd).2).2.2
  constructor
  · intro h
    rcases mem_cons.mp (lastOf_mem s l₁) with e | h'
    · exact hs (by simp [e ▸ h])
    · exact hdis _ h' _ h rfl
  · intro h
    rcases mem_cons.mp (firstOf_mem s l₂) with e | h'
    · exact hs (by simp [e ▸ h])
    · exact hdis _ h _ h' rfl

variable [DecidableEq ν]

theorem Circle.link (h : Circle p s (l₁ ++ l₂))
    (hnd : (s :: (l₁ ++ l₂)).Nodup) (hx : x ∉ s :: (l₁ ++ l₂)) :
    Circle (p.link (lastOf s l₁) x (firstOf s l₂)) s (l₁ ++ x :: l₂) := by
  obtain ⟨h1, -, h2⟩ := circle_append_iff.mp h
  obtain ⟨hal, hbl⟩ := cut_disjoint hnd
  have hx1 : x ∉ s :: l₁ := fun hm => hx (cons_subset_cons s (by simp) hm)
  have hx2 : x ∉ s :: l₂ := fun hm => hx (cons_subset_cons s (by simp) hm)
  have hax : x ≠ lastOf s l₁ := fun e => hx1 (e ▸ lastOf_mem s l₁)
  have hbx : x ≠ firstOf s l₂ := fun e => hx2 (e ▸ firstOf_mem s l₂)
  refine circle_append_iff.mpr ⟨?_, ?_, ?_⟩
  · refine chain_frame_left h1 (hnd.sublist (by simp)) (fun y hy hya => ?_) fun y hy => ?_
    · have hyx : y ≠ x := fun e => hx1 (e ▸ hy)
      simp [Ptrs.link, hya, hyx]
    · have hyx : y ≠ x := fun e => hx1 (e ▸ mem_cons_of_mem s hy)
      have hyb : y ≠ firstOf s l₂ := fun e => hbl (e ▸ hy)
      simp [Ptrs.link, hyb, hyx]
  · have hfirst : firstOf s (x :: l₂) = x := rfl
    rw [hfirst]
    simp [Joined, Ptrs.link, hbx]
  · rw [cons_append, isChain_cons]
    refine ⟨fun y hy => ?_, ?_⟩
    · obtain rfl : y = firstOf s l₂ := by
        cases l₂ <;> simp_all [firstOf]
      simp [Joined, Ptrs.link, hax]
    · refine chain_frame_right h2 (hnd.sublist (by simp)) (fun y hy => ?_) fun y hy hyb => ?_
      · have hyx : y ≠ x := fun e => hx2 (e ▸ mem_cons_of_mem s hy)
        have hya : y ≠ lastOf s l₁ := fun e => hal (e ▸ hy)
        simp [Ptrs.link, hya, hyx]
      · have hyx : y ≠ x := fun e => hx2 (e ▸ hy)
        simp [Ptrs.link, hyb, hyx]

theorem Circle.unlink (h : Circle p s (l₁ ++ x :: l₂))
    (hnd : (s :: (l₁ ++ x :: l₂)).Nodup) : Circle (p.unlink x) s (l₁ ++ l₂) := by
  have ha := h.prev_mem
  have hb := h.next_mem
  obtain ⟨h1, -, h2⟩ := circle_append_iff.mp h
  rw [cons_append, isChain_cons] at h2
  have hnd' : (s :: (l₁ ++ l₂)).Nodup := hnd.sublist (by simp)
  obtain ⟨hal, hbl⟩ := cut_disjoint hnd'
  refine circle_append_iff.mpr ⟨?_, ?_, ?_⟩
  · refine chain_frame_left h1 (hnd'.sublist (by simp)) (fun y hy hya => ?_) fun y hy => ?_
    · simp [Ptrs.unlink, ha, hya]
    · have hyb : y ≠ firstOf s l₂ := fun e => hbl (e ▸ hy)
      simp [Ptrs.unlink, hb, hyb]
  · simp [Joined, Ptrs.unlink, ha, hb]
  · refine chain_frame_right h2.2 (hnd'.sublist (by simp)) (fun y hy => ?_) fun y hy hyb => ?_
    · have hya : y ≠ lastOf s l₁ := fun e => hal (e ▸ hy)
      simp [Ptrs.unlink, ha, hya]
    · simp [Ptrs.unlink, hb, hyb]

end Edit

theorem update_sublist {κ α : Type} [DecidableEq κ] {L : κ → List α} {k : κ} {l : List α}
    (h : l.Sublist (L k)) (j : κ) : (update L k l j).Sublist (L j) := by
  by_cases hj : j = k
  · subst hj
    rwa [update_self]
  · rw [update_of_ne hj]

/-- The pointers hold the lists `L k` for `k` in `D`, list `k` closed by the sentinel `σ k`. -/
structure Circles {ν κ : Type} (p : Ptrs ν) (D : κ → Prop) (σ : κ → ν) (L : κ → List ν) : Prop where
  circle : ∀ {k}, D k → Circle p (σ k) (L k)
  nodup : ∀ k, (σ k :: L k).Nodup
  disjoint : ∀ {j k x}, x ∈ σ j :: L j → x ∈ σ k :: L k → j = k

namespace Circles
variable {ν κ : Type} [DecidableEq ν] [DecidableEq κ] {p : Ptrs ν} {D : κ → Prop} {σ : κ → ν}
  {L : κ → List ν}

variable {k : κ} {x : ν} {l₁ l₂ : List ν}

theorem link (h : Circles p D σ L) (hk : L k = l₁ ++ l₂) (hx : ∀ j, x ∉ σ j :: L j) :
    Circles (p.link (lastOf (σ k) l₁) x (firstOf (σ k) l₂)) D σ (update L k (l₁ ++ x :: l₂)) := by
  have ha : lastOf (σ k) l₁ ∈ σ k :: L k := hk ▸ cons_subset_cons _ (by simp) (lastOf_mem (σ k) l₁)
  have hb : firstOf (σ k) l₂ ∈ σ k :: L k :=
    hk ▸ cons_subset_cons _ (by simp) (firstOf_mem (σ k) l₂)
  have hmem : ∀ {j y}, y ∈ σ j :: update L k (l₁ ++ x :: l₂) j →
      (j = k ∧ y = x) ∨ y ∈ σ j :: L j := by
    intro j y hy
    by_cases hj : j = k
    · subst hj
      simp only [update_self, mem_cons, mem_append] at hy
      simp only [hk, mem_cons, mem_append]
      tauto
    · exact .inr (by simpa [hj] using hy)
  refine ⟨fun {j} hD => ?_, fun j => ?_, fun {i j y} hi hj => ?_⟩
  · by_cases hj : j = k
    · subst hj
      rw [update_self]
      exact Circle.link (hk ▸ h.circle hD) (hk ▸ h.nodup j) (hk ▸ hx j)
    rw [update_of_ne hj]
    refine (h.circle hD).frame (fun y hy => ?_) fun y hy => ?_
    · have hyx : y ≠ x := fun e => hx j (e ▸ hy)
      have hya : y ≠ lastOf (σ k) l₁ := fun e => hj (h.disjoint (e ▸ hy) ha)
      simp [Ptrs.link, hyx, hya]
    · have hyx : y ≠ x := fun e => hx j (e ▸ hy)
      have hyb : y ≠ firstOf (σ k) l₂ := fun e => hj (h.disjoint (e ▸ hy) hb)
      simp [Ptrs.link, hyx, hyb]
  · by_cases hj : j = k
    · subst hj
      rw [update_self]
      have hxj := hk ▸ hx j
      have hnd := hk ▸ h.nodup j
      have hperm : (σ j :: (l₁ ++ x :: l₂)).Perm (x :: σ j :: (l₁ ++ l₂)) :=
        (perm_middle.cons (σ j)).trans (Perm.swap x (σ j) _)
      exact hperm.nodup_iff.mpr (nodup_cons.mpr ⟨hxj, hnd⟩)
    · rw [update_of_ne hj]
      exact h.nodup j
  · rcases hmem hi with ⟨rfl, rfl⟩ | hi'
    · rcases hmem hj with ⟨rfl, _⟩ | hj'
      · rfl
      · exact absurd hj' (hx j)
    rcases hmem hj with ⟨rfl, rfl⟩ | hj'
    · exact absurd hi' (hx i)
    · exact h.disjoint hi' hj'

theorem unlink (h : Circles p D σ L) (hD : D k) (hk : L k = l₁ ++ x :: l₂) :
    Circles (p.unlink x) D σ (update L k (l₁ ++ l₂)) := by
  have hc := hk ▸ h.circle hD
  have hsub := update_sublist (L := L) (k := k) (l := l₁ ++ l₂) (by simp [hk])
  have ha : p.prev x ∈ σ k :: L k := by
    rw [hc.prev_mem, hk]
    exact cons_subset_cons _ (by simp) (lastOf_mem (σ k) l₁)
  have hb : p.next x ∈ σ k :: L k := by
    rw [hc.next_mem, hk]
    exact cons_subset_cons _ (fun y hy => by simp [hy]) (firstOf_mem (σ k) l₂)
  refine ⟨fun {j} hDj => ?_, fun j => (h.nodup j).sublist ((hsub j).cons_cons _), fun hi hj =>
    h.disjoint (cons_subset_cons _ (hsub _).subset hi) (cons_subset_cons _ (hsub _).subset hj)⟩
  by_cases hj : j = k
  · subst hj
    rw [update_self]
    exact hc.unlink (hk ▸ h.nodup j)
  rw [update_of_ne hj]
  refine (h.circle hDj).frame (fun y hy => ?_) fun y hy => ?_
  · have hya : y ≠ p.prev x := fun e => hj (h.disjoint (e ▸ hy) ha)
    simp [Ptrs.unlink, hya]
  · have hyb : y ≠ p.next x := fun e => hj (h.disjoint (e ▸ hy) hb)
    simp [Ptrs.unlink, hyb]

end Circles

end Qnx.Circular
