import Mathlib.Data.List.Nodup
import Mathlib.Algebra.GroupWithZero.Nat
import Mathlib.Algebra.BigOperators.Group.List.Basic

/-!
# Extents

An extent `(a, n)` is the interval of `n` positions from `a`. A list of extents is spread when they
ascend with a gap between any two.
-/

namespace Qnx.Extents

open List

abbrev Extent := Nat × Nat

def In (e : Extent) (x : Nat) : Prop := e.1 ≤ x ∧ x < e.1 + e.2

def Covers (L : List Extent) (x : Nat) : Prop := ∃ e ∈ L, In e x

def total (L : List Extent) : Nat := (L.map Prod.snd).sum

def Spread (L : List Extent) : Prop := L.Pairwise fun e f => e.1 + e.2 < f.1

/-- A non-empty extent after 0 and before `top`, in units of `k`. -/
structure Ok (k top : Nat) (e : Extent) : Prop where
  start_pos : 0 < e.1
  start_dvd : k ∣ e.1
  len_pos : 0 < e.2
  len_dvd : k ∣ e.2
  lt_top : e.1 + e.2 < top

variable {k top n x : Nat} {e f : Extent} {L l r : List Extent}

instance (e : Extent) (x : Nat) : Decidable (In e x) := inferInstanceAs (Decidable (_ ∧ _))

@[simp] theorem covers_nil : ¬ Covers [] x := by simp [Covers]

@[simp] theorem covers_cons : Covers (e :: L) x ↔ In e x ∨ Covers L x := by simp [Covers]

@[simp] theorem covers_append : Covers (l ++ r) x ↔ Covers l x ∨ Covers r x := by
  simp only [Covers, mem_append]
  constructor
  · rintro ⟨e, he | he, hx⟩
    · exact .inl ⟨e, he, hx⟩
    · exact .inr ⟨e, he, hx⟩
  · rintro (⟨e, he, hx⟩ | ⟨e, he, hx⟩)
    · exact ⟨e, .inl he, hx⟩
    · exact ⟨e, .inr he, hx⟩

theorem covers_perm {M : List Extent} (h : L.Perm M) : Covers L x ↔ Covers M x := by
  simp only [Covers, h.mem_iff]

@[simp] theorem total_nil : total [] = 0 := rfl

@[simp] theorem total_cons : total (e :: L) = e.2 + total L := rfl

@[simp] theorem total_append : total (l ++ r) = total l + total r := by simp [total]

theorem total_perm {M : List Extent} (h : L.Perm M) : total L = total M := (h.map Prod.snd).sum_eq

/-! ### Cutting off the front -/

def cut (e : Extent) (n : Nat) : List Extent := if e.2 = n then [] else [(e.1 + n, e.2 - n)]

theorem spread_cut (h : Spread (l ++ e :: r)) (hn : n ≤ e.2) : Spread (l ++ (cut e n ++ r)) := by
  unfold Spread cut at *
  rw [pairwise_append, pairwise_cons] at h
  obtain ⟨hl, ⟨her, hr⟩, hlr⟩ := h
  split
  · rw [pairwise_append]
    exact ⟨hl, hr, fun a ha b hb => hlr a ha b (mem_cons_of_mem _ hb)⟩
  rw [singleton_append, pairwise_append, pairwise_cons]
  refine ⟨hl, ⟨?_, hr⟩, ?_⟩
  · intro b hb
    have := her b hb
    omega
  · intro a ha b hb
    obtain rfl | hb := mem_cons.mp hb
    · have := hlr a ha e mem_cons_self
      omega
    · exact hlr a ha b (mem_cons_of_mem _ hb)

theorem covers_cut (hn : n ≤ e.2) : In e x ↔ In (e.1, n) x ∨ Covers (cut e n) x := by
  unfold cut
  split
  · simp only [In, covers_nil, or_false]
    omega
  · simp only [covers_cons, covers_nil, or_false, In]
    omega

theorem not_covers_cut (h : In (e.1, n) x) : ¬ Covers (cut e n) x := by
  unfold cut
  split
  · exact covers_nil
  · simp only [covers_cons, covers_nil, or_false, In] at h ⊢
    omega

theorem total_cut (hn : n ≤ e.2) : total (cut e n) + n = e.2 := by
  unfold cut
  split
  · simp only [total_nil]
    omega
  · simp only [total_cons, total_nil]
    omega

theorem ok_cut (h : Ok k top e) (hk : k ∣ n) (hn : n ≤ e.2) : ∀ f ∈ cut e n, Ok k top f := by
  unfold cut
  split
  · simp
  intro f hf
  rw [mem_singleton] at hf
  subst hf
  have := h.lt_top
  have := h.start_pos
  refine ⟨?_, Nat.dvd_add h.start_dvd hk, ?_, Nat.dvd_sub h.len_dvd hk, ?_⟩
  · omega
  · omega
  · omega

/-! ### Joining what follows -/

/-- `e` before `r`, in one piece with the first of them if they touch. -/
def join (e : Extent) : List Extent → List Extent
  | [] => [e]
  | f :: r => if e.1 + e.2 = f.1 then (e.1, e.2 + f.2) :: r else e :: f :: r

theorem spread_join (h : Spread (l ++ r)) (hl : ∀ f ∈ l, f.1 + f.2 < e.1)
    (hr : ∀ f ∈ r, e.1 + e.2 ≤ f.1) : Spread (l ++ join e r) := by
  unfold Spread at *
  rw [pairwise_append] at h
  obtain ⟨hpl, hpr, hlr⟩ := h
  cases r with
  | nil =>
    rw [join, pairwise_append]
    refine ⟨hpl, pairwise_singleton _ _, ?_⟩
    intro a ha b hb
    rw [mem_singleton] at hb
    subst hb
    exact hl a ha
  | cons f r =>
    obtain ⟨hfr, hpr⟩ := pairwise_cons.mp hpr
    have hf := hr f mem_cons_self
    rw [join]
    split
    · rw [pairwise_append, pairwise_cons]
      refine ⟨hpl, ⟨?_, hpr⟩, ?_⟩
      · intro b hb
        have := hfr b hb
        omega
      · intro a ha
        exact forall_mem_cons.mpr ⟨hl a ha, fun b hb => hlr a ha b (mem_cons_of_mem _ hb)⟩
    rw [pairwise_append, pairwise_cons, pairwise_cons]
    refine ⟨hpl, ⟨?_, hfr, hpr⟩, ?_⟩
    · intro b hb
      obtain rfl | hb := mem_cons.mp hb
      · omega
      · have := hfr b hb
        omega
    · intro a ha
      exact forall_mem_cons.mpr ⟨hl a ha, hlr a ha⟩

theorem covers_join : Covers (join e r) x ↔ In e x ∨ Covers r x := by
  cases r with
  | nil => simp [join]
  | cons f r =>
    rw [join]
    split
    · simp only [covers_cons, In, ← or_assoc]
      apply or_congr_left
      omega
    · simp only [covers_cons]

theorem total_join : total (join e r) = e.2 + total r := by
  cases r with
  | nil => rfl
  | cons f r =>
    rw [join]
    split
    · simp only [total_cons]
      omega
    · rfl

theorem ok_join (he : Ok k top e) (hr : ∀ f ∈ r, Ok k top f) : ∀ f ∈ join e r, Ok k top f := by
  cases r with
  | nil =>
    intro f hf
    rw [join, mem_singleton] at hf
    subst hf
    exact he
  | cons g r =>
    rw [join]
    have hg := hr g mem_cons_self
    split
    · refine forall_mem_cons.mpr ⟨?_, (forall_mem_cons.mp hr).2⟩
      have := hg.lt_top
      refine ⟨he.start_pos, he.start_dvd, ?_, Nat.dvd_add he.len_dvd hg.len_dvd, ?_⟩
      · exact Nat.add_pos_left he.len_pos _
      · omega
    · exact forall_mem_cons.mpr ⟨he, hr⟩

theorem length_mul_le (hs : Spread L) (ho : ∀ f ∈ L, Ok k top f) (a : Nat)
    (ha : ∀ f ∈ L, a ≤ f.1) (ht : a ≤ top) : a + L.length * k ≤ top := by
  induction L generalizing a with
  | nil => simpa using ht
  | cons e L ih =>
    obtain ⟨heL, hs⟩ := pairwise_cons.mp hs
    have he := ho e mem_cons_self
    have hk : k ≤ e.2 := Nat.le_of_dvd he.len_pos he.len_dvd
    have hae := ha e mem_cons_self
    have := he.lt_top
    have hrec := ih hs (forall_mem_cons.mp ho).2 (a + k)
      (fun f hf => by have := heL f hf; omega) (by omega)
    rw [length_cons, Nat.succ_mul]
    omega

/-! ### What is free, what is out, and where it came from -/

/-- The spread list `L` and the extents `B` that are out are all of `R`, without overlap. -/
structure Owns (k top : Nat) (L B R : List Extent) : Prop where
  spread : Spread L
  ok : ∀ e ∈ L ++ B, Ok k top e
  apart : B.Pairwise fun e f => ∀ x, In e x → ¬ In f x
  out : ∀ x, Covers L x → ¬ Covers B x
  covers : ∀ x, Covers R x ↔ Covers L x ∨ Covers B x
  total : total L + total B = total R

namespace Owns

variable {B R L' : List Extent}

theorem nil : Owns k top [] [] [] where
  spread := .nil
  ok := by simp
  apart := .nil
  out := by simp
  covers := by simp
  total := rfl

section

variable (h : Owns k top L B R)
include h

theorem perm {B' : List Extent} (hp : B.Perm B') : Owns k top L B' R where
  spread := h.spread
  ok := by
    intro e he
    apply h.ok
    rw [mem_append] at he ⊢
    rwa [hp.mem_iff]
  apart := by
    refine (hp.pairwise_iff ?_).mp h.apart
    intro e f hef x hf he
    exact hef x he hf
  out := by
    intro x hx
    rw [← covers_perm hp]
    exact h.out x hx
  covers := by
    intro x
    rw [← covers_perm hp]
    exact h.covers x
  total := by
    rw [← total_perm hp]
    exact h.total

theorem take (he : Ok k top e) (hs : Spread L')
    (ho : ∀ f ∈ L', Ok k top f) (hc : ∀ x, Covers L x ↔ In e x ∨ Covers L' x)
    (hd : ∀ x, In e x → ¬ Covers L' x) (ht : Extents.total L' + e.2 = Extents.total L) :
    Owns k top L' (e :: B) R := by
  constructor
  case spread => exact hs
  case ok =>
    refine forall_mem_append.mpr ⟨ho, ?_⟩
    exact forall_mem_cons.mpr ⟨he, fun f hf => h.ok f (by simp [hf])⟩
  case apart =>
    refine pairwise_cons.mpr ⟨?_, h.apart⟩
    intro f hf x hx hfx
    exact h.out x ((hc x).mpr (.inl hx)) ⟨f, hf, hfx⟩
  case out =>
    intro x hx hB
    obtain hB | hB := covers_cons.mp hB
    · exact hd x hB hx
    · exact h.out x ((hc x).mpr (.inr hx)) hB
  case covers =>
    intro x
    rw [h.covers, hc, covers_cons]
    tauto
  case total =>
    have := h.total
    rw [total_cons]
    omega

theorem gain (he : Ok k top e) (hn : ∀ x, In e x → ¬ Covers R x) :
    Owns k top L (e :: B) (e :: R) := by
  constructor
  case spread => exact h.spread
  case ok =>
    intro f hf
    obtain hf | hf := mem_append.mp hf
    · exact h.ok f (by simp [hf])
    obtain rfl | hf := mem_cons.mp hf
    · exact he
    · exact h.ok f (by simp [hf])
  case apart =>
    refine pairwise_cons.mpr ⟨?_, h.apart⟩
    intro f hf x hx hfx
    exact hn x hx ((h.covers x).mpr (.inr ⟨f, hf, hfx⟩))
  case out =>
    intro x hx hB
    obtain hB | hB := covers_cons.mp hB
    · exact hn x hB ((h.covers x).mpr (.inl hx))
    · exact h.out x hx hB
  case covers =>
    intro x
    rw [covers_cons, h.covers, covers_cons]
    tauto
  case total =>
    have := h.total
    rw [total_cons, total_cons]
    omega

end

theorem giveBack (h : Owns k top L (e :: B) R) (hs : Spread L') (ho : ∀ f ∈ L', Ok k top f)
    (hc : ∀ x, Covers L' x ↔ Covers L x ∨ In e x) (ht : Extents.total L' = Extents.total L + e.2) :
    Owns k top L' B R := by
  obtain ⟨heB, hB⟩ := pairwise_cons.mp h.apart
  constructor
  case spread => exact hs
  case ok =>
    exact forall_mem_append.mpr ⟨ho, fun f hf => h.ok f (by simp [hf])⟩
  case apart => exact hB
  case out =>
    intro x hx hB
    obtain hx | hx := (hc x).mp hx
    · exact h.out x hx (covers_cons.mpr (.inr hB))
    · obtain ⟨f, hf, hfx⟩ := hB
      exact heB f hf x hx hfx
  case covers =>
    intro x
    rw [h.covers, hc, covers_cons, or_assoc]
  case total =>
    have := h.total
    rw [total_cons] at this
    omega

theorem split (h : Owns k top L (e :: B) R) (hk : k ∣ n) (h0 : 0 < n) (hn : n < e.2) :
    Owns k top L ((e.1, n) :: (e.1 + n, e.2 - n) :: B) R := by
  have he := h.ok e (by simp)
  obtain ⟨heB, hB⟩ := pairwise_cons.mp h.apart
  have hin : ∀ x, In e x ↔ In (e.1, n) x ∨ In (e.1 + n, e.2 - n) x := by
    simp only [In]
    omega
  constructor
  case spread => exact h.spread
  case ok =>
    have := he.lt_top
    intro f hf
    simp only [mem_append, mem_cons] at hf
    obtain hf | rfl | rfl | hf := hf
    · exact h.ok f (by simp [hf])
    · exact ⟨he.start_pos, he.start_dvd, h0, hk, by omega⟩
    · refine ⟨?_, Nat.dvd_add he.start_dvd hk, ?_, Nat.dvd_sub he.len_dvd hk, ?_⟩
      · exact Nat.add_pos_left he.start_pos _
      · omega
      · omega
    · exact h.ok f (by simp [hf])
  case apart =>
    refine pairwise_cons.mpr ⟨?_, pairwise_cons.mpr ⟨?_, hB⟩⟩
    · intro f hf x hx
      obtain rfl | hf := mem_cons.mp hf
      · simp only [In] at hx ⊢
        omega
      · exact heB f hf x ((hin x).mpr (.inl hx))
    · intro f hf x hx
      exact heB f hf x ((hin x).mpr (.inr hx))
  case out =>
    intro x hx hB'
    apply h.out x hx
    rw [covers_cons, covers_cons] at hB'
    rw [covers_cons, hin]
    tauto
  case covers =>
    intro x
    rw [h.covers, covers_cons, covers_cons, covers_cons, hin]
    tauto
  case total =>
    have := h.total
    simp only [total_cons] at this ⊢
    omega

theorem merge {a m : Nat} (h : Owns k top L ((a, m) :: (a + m, n) :: B) R) :
    Owns k top L ((a, m + n) :: B) R := by
  have he := h.ok (a, m) (by simp)
  have hf := h.ok (a + m, n) (by simp)
  obtain ⟨heB, hB⟩ := pairwise_cons.mp h.apart
  obtain ⟨hfB, hB⟩ := pairwise_cons.mp hB
  have hin : ∀ x, In (a, m + n) x ↔ In (a, m) x ∨ In (a + m, n) x := by
    simp only [In]
    omega
  constructor
  case spread => exact h.spread
  case ok =>
    intro g hg
    simp only [mem_append, mem_cons] at hg
    obtain hg | rfl | hg := hg
    · exact h.ok g (by simp [hg])
    · have := hf.lt_top
      refine ⟨he.start_pos, he.start_dvd, Nat.add_pos_left he.len_pos _,
        Nat.dvd_add he.len_dvd hf.len_dvd, ?_⟩
      omega
    · exact h.ok g (by simp [hg])
  case apart =>
    refine pairwise_cons.mpr ⟨?_, hB⟩
    intro g hg x hx
    obtain hx | hx := (hin x).mp hx
    · exact heB g (mem_cons_of_mem _ hg) x hx
    · exact hfB g hg x hx
  case out =>
    intro x hx hB'
    apply h.out x hx
    rw [covers_cons, hin] at hB'
    rw [covers_cons, covers_cons]
    tauto
  case covers =>
    intro x
    rw [h.covers, covers_cons, covers_cons, covers_cons, hin]
    tauto
  case total =>
    have := h.total
    simp only [total_cons] at this ⊢
    omega

end Owns

end Qnx.Extents
