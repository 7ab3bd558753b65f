import Qnx.Ker.HeapRep

/-!
# Walks over the free list

Where the loops of `_sreallocfunc` stop, and what taking an entry does to the place found for the
old block.
-/

namespace Qnx.Ker

open Extents List

def ApartFrom (L : List Extent) (e : Extent) : Prop := ∀ f ∈ L, f.1 + f.2 ≤ e.1 ∨ e.1 + e.2 ≤ f.1

theorem apartFrom_of_out {L : List Extent} {e : Extent} (hL : ∀ f ∈ L, Fit8 f) (he : Fit8 e)
    (h : ∀ x, Covers L x → ¬ In e x) : ApartFrom L e := by
  intro f hf
  have h1 := (hL f hf).len_pos
  have h2 := he.len_pos
  by_contra hc
  -- The later of the two starts is a byte of both.
  apply h (max f.1 e.1) ⟨f, hf, ?_⟩
  · unfold In
    omega
  · unfold In
    omega

theorem spread_length {L : List Extent} (hs : Spread L) (hok : ∀ f ∈ L, Fit8 f) :
    L.length < heapFuel := by
  have h := length_mul_le hs hok 1 (fun f hf => (hok f hf).start_pos) (by decide)
  unfold heapFuel
  omega

namespace HeapSt

variable {st : HeapSt} {L l r : List Extent} {e f : Extent} {newSize : Nat}

theorem lastEntry_concat (l : List Extent) (e : Extent) : lastEntry (l ++ [e]) = e.1 := by
  simp [lastEntry]

theorem scan_from (newSize : Nat) (h : Rep st (l ++ r)) (hok : ∀ f ∈ r, Fit8 f) (he : Fit8 e)
    (hap : ApartFrom r e) (hs : Spread r) {fuel : Nat} (hf : r.length < fuel)
    (fit : Option (Option Nat)) :
    ∃ l' r' fit', r = l' ++ r' ∧ st.scan newSize e.1 fuel (cell l) (lastEntry l) fit =
        some ⟨cell (l ++ l'), lastEntry (l ++ l'), first r', fit'⟩ ∧
      (∀ g ∈ l', g.1 + g.2 ≤ e.1) ∧ (∀ g ∈ r', e.1 + e.2 ≤ g.1) ∧
      ∀ c, fit' = some c → fit = some c ∨ ∃ l1 r1, l ++ r = l1 ++ r1 ∧ c = cell l1 := by
  induction r generalizing l fuel fit with
  | nil =>
    obtain ⟨fuel, rfl⟩ : ∃ n, fuel = n + 1 := ⟨fuel - 1, by omega⟩
    refine ⟨[], [], fit, rfl, ?_, by simp, by simp, fun c hc => .inl hc⟩
    have hg := h.get_cell
    simp only [scan, hg, first, if_true, append_nil]
  | cons g r ih =>
    obtain ⟨fuel, rfl⟩ : ∃ n, fuel = n + 1 := ⟨fuel - 1, by omega⟩
    have hg := hok g mem_cons_self
    have hget : st.get (cell l) = g.1 := h.get_cell
    have hsz := h.sizes g (by simp)
    have hg0 : g.1 ≠ 0 := Nat.ne_of_gt hg.start_pos
    have he0 : e.1 ≠ 0 := Nat.ne_of_gt he.start_pos
    have helen := he.len_pos
    obtain ⟨hgr, hsr⟩ := pairwise_cons.mp hs
    have hnot : ¬ (e.1 ≠ 0 ∧ g.1 ≤ e.1 ∧ e.1 < g.1 + g.2) := by
      have := hap g mem_cons_self
      omega
    -- The link of an entry that fits is one of the list.
    have hfit : ∀ c, (if newSize ≠ 0 ∧ (g.2 = newSize ∨ fit = none ∧
        add32 newSize entrySize ≤ g.2) then some (cell l) else fit) = some c →
        fit = some c ∨ ∃ l1 r1, l ++ g :: r = l1 ++ r1 ∧ c = cell l1 := by
      intro c hc
      split at hc
      · cases hc
        exact .inr ⟨l, g :: r, rfl, rfl⟩
      · exact .inl hc
    simp only [scan, hget, if_neg hg0, hsz, add32_of_lt hg.lt_top, if_neg hnot]
    by_cases hlt : e.1 ≠ 0 ∧ e.1 < g.1
    · refine ⟨[], g :: r, _, rfl, ?_, by simp, ?_, hfit⟩
      · rw [if_pos hlt, append_nil]
        rfl
      · intro k hk
        have := hap g mem_cons_self
        obtain rfl | hk := mem_cons.mp hk
        · omega
        · have := hgr k hk
          omega
    rw [if_neg hlt]
    have h' : Rep st ((l ++ [g]) ++ r) := by simpa using h
    obtain ⟨l', r', fit', rfl, hscan, hbefore, hafter, hfit'⟩ := ih h' (forall_mem_cons.mp hok).2
      (forall_mem_cons.mp hap).2 hsr
      (Nat.lt_of_succ_lt_succ hf)
      (if newSize ≠ 0 ∧ (g.2 = newSize ∨ fit = none ∧ add32 newSize entrySize ≤ g.2) then
        some (cell l) else fit)
    refine ⟨g :: l', r', fit', rfl, ?_, ?_, hafter, ?_⟩
    · rw [cell_concat, lastEntry_concat] at hscan
      rw [hscan]
      simp
    · refine forall_mem_cons.mpr ⟨?_, hbefore⟩
      omega
    · intro c hc
      obtain hc | ⟨l1, r1, heq, hc⟩ := hfit' c hc
      · exact hfit c hc
      · exact .inr ⟨l1, r1, by rw [← heq]; simp, hc⟩

theorem scan_place (h : Rep st L) (hs : Spread L) (hok : ∀ f ∈ L, Fit8 f) (he : Fit8 e)
    (hap : ApartFrom L e) (newSize : Nat) :
    ∃ pl l r, st.scan newSize e.1 heapFuel none 0 none = some pl ∧ At L pl.pp pl.prev e l r ∧
      pl.prev = lastEntry l ∧ pl.p = first r ∧
      ∃ l1 r1, L = l1 ++ r1 ∧ pl.fit.getD pl.pp = cell l1 := by
  obtain ⟨l, r, fit, rfl, hscan, hbefore, hafter, hfit⟩ := scan_from (l := []) newSize h
    hok he hap hs (spread_length hs hok) none
  refine ⟨_, l, r, hscan, ⟨rfl, rfl, hbefore, hafter, .inl rfl⟩, rfl, rfl, ?_⟩
  cases hc : fit with
  | none => exact ⟨l, r, rfl, rfl⟩
  | some c =>
    obtain h' | ⟨l1, r1, heq, rfl⟩ := hfit c hc
    · cases h'
    · exact ⟨l1, r1, heq, rfl⟩

theorem search_from (h : Rep st (l ++ r)) (hok : ∀ f ∈ r, Fit8 f) (hn : newSize + 8 < 2 ^ 32)
    {fuel : Nat} (hf : r.length < fuel) :
    st.search newSize fuel (cell l) = some none ∨ ∃ l' g r', r = l' ++ g :: r' ∧
        st.search newSize fuel (cell l) = some (some (cell (l ++ l'), g.1)) ∧
        (g.2 = newSize ∨ newSize + 8 ≤ g.2) := by
  induction r generalizing l fuel with
  | nil =>
    obtain ⟨fuel, rfl⟩ : ∃ n, fuel = n + 1 := ⟨fuel - 1, by omega⟩
    left
    simp only [search, h.get_cell, first, if_true]
  | cons g r ih =>
    obtain ⟨fuel, rfl⟩ : ∃ n, fuel = n + 1 := ⟨fuel - 1, by omega⟩
    have hget : st.get (cell l) = g.1 := h.get_cell
    have hsz := h.sizes g (by simp)
    have hg0 : g.1 ≠ 0 := Nat.ne_of_gt (hok g mem_cons_self).start_pos
    simp only [search, hget, if_neg hg0, hsz, entrySize, add32_of_lt hn]
    by_cases hfit : g.2 = newSize ∨ newSize + 8 ≤ g.2
    · right
      refine ⟨[], g, r, rfl, ?_, hfit⟩
      rw [if_pos hfit, append_nil]
    rw [if_neg hfit]
    have h' : Rep st ((l ++ [g]) ++ r) := by simpa using h
    obtain hnone | ⟨l', k, r', rfl, hsome, hk⟩ := ih h'
      (forall_mem_cons.mp hok).2 (Nat.lt_of_succ_lt_succ hf)
    · left
      rwa [cell_concat] at hnone
    · right
      refine ⟨g :: l', k, r', rfl, ?_, hk⟩
      rw [cell_concat] at hsome
      rw [hsome]
      simp

theorem take_fst (st : HeapSt) (fit : Option Nat) (new n : Nat) (pp : Option Nat) (prev : Nat) :
    (st.take fit new n pp prev).1 = if st.size new = n then st.set fit (st.next new)
      else st.replace fit (add32 new n) (sub32 (st.size new) n) (st.next new) := by
  unfold take
  split
  · split <;> rfl
  · split <;> rfl

theorem take_rep {n : Nat} (pp : Option Nat) (prev : Nat) (h : Rep st (l ++ f :: r))
    (hs : Spread (l ++ f :: r)) (hok : ∀ g ∈ l ++ f :: r, Fit8 g) (hn : n ≤ f.2) (h8 : 8 ∣ n) :
    Rep (st.take (cell l) f.1 n pp prev).1 (l ++ (cut f n ++ r)) ∧
      ∀ x, ¬ Covers (l ++ (cut f n ++ r)) x →
        (st.take (cell l) f.1 n pp prev).1.bytes x = st.bytes x := by
  have hsz := h.sizes f (by simp)
  have hf := hok f (by simp)
  have hlt := hf.lt_top
  have hl : ∀ g ∈ l, Fit8 g := fun g hg => hok g (by simp [hg])
  by_cases heq : f.2 = n
  · rw [take_fst, if_pos (hsz.trans heq), cut, if_pos heq]
    refine ⟨h.unlink hs, ?_⟩
    intro x hx
    exact bytes_set hl (fun hc => hx (covers_append.mpr (.inl hc)))
  rw [take_fst, if_neg (fun h' => heq (hsz.symm.trans h')), hsz, add32_of_lt (by omega),
    sub32_of_le ⟨hn, by omega⟩, cut, if_neg heq]
  refine ⟨h.replace hs (by omega), ?_⟩
  intro x hx
  exact bytes_replace hl (ok_cut hf h8 hn _ (by rw [cut, if_neg heq]; simp)) hx

theorem lastEntry_ne {a : Nat} (hl : ∀ g ∈ l, g.1 ≠ a) (ha : 0 < a) : lastEntry l ≠ a := by
  unfold lastEntry
  cases hc : cell l with
  | none => exact Nat.ne_of_lt ha
  | some b =>
    obtain ⟨g, hg, rfl⟩ := cell_mem hc
    exact hl g hg

theorem take_at {n : Nat} {pp : Option Nat} {prev : Nat} {l1 r1 : List Extent}
    (h : Rep st (l ++ f :: r)) (hs : Spread (l ++ f :: r)) (hok : ∀ g ∈ l ++ f :: r, Fit8 g)
    (hn : n ≤ f.2) (hat : At (l ++ f :: r) pp prev e l1 r1) (hprev : prev = lastEntry l1) :
    ∃ l2 r2, At (l ++ (cut f n ++ r)) (st.take (cell l) f.1 n pp prev).2.1
      (st.take (cell l) f.1 n pp prev).2.2 e l2 r2 := by
  have hsz := h.sizes f (by simp)
  have hf := hok f (by simp)
  have hlt := hf.lt_top
  have hcut : ∀ g ∈ cut f n, f.1 ≤ g.1 ∧ g.1 + g.2 = f.1 + f.2 := by
    unfold cut
    split
    · simp
    intro g hg
    rw [mem_singleton] at hg
    subst hg
    omega
  obtain ⟨heq, hpp, hbefore, hafter, -⟩ := hat
  have hl : ∀ g ∈ l, g.1 ≠ f.1 := by
    intro g hg
    have := (pairwise_append.mp hs).2.2 g hg f mem_cons_self
    omega
  -- Unless the entry is the one before the block, nothing moves.
  have hsame : prev ≠ f.1 → (st.take (cell l) f.1 n pp prev).2 = (pp, prev) := by
    intro hne
    unfold take
    by_cases hx : st.size f.1 = n
    · simp [hx, hne]
    · simp [hx, hne]
  rcases append_eq_append_iff.mp heq with ⟨m, rfl, hm⟩ | ⟨m, rfl, rfl⟩
  · cases m with
    | nil =>
      rw [append_nil] at hpp hbefore hprev
      subst hm
      rw [hsame (by rw [hprev]; exact lastEntry_ne hl hf.start_pos)]
      refine ⟨l, cut f n ++ r, rfl, hpp, hbefore, ?_, .inl hprev⟩
      intro g hg
      obtain hg | hg := mem_append.mp hg
      · have := hafter f mem_cons_self
        have := (hcut g hg).1
        omega
      · exact hafter g (mem_cons_of_mem _ hg)
    | cons k m =>
      obtain ⟨rfl, rfl⟩ := cons_eq_cons.mp hm
      rcases eq_nil_or_concat m with rfl | ⟨m, q, rfl⟩
      · -- The entry is the one before the block.
        have hpf : prev = f.1 := by rw [hprev, lastEntry_concat]
        have hbf := hbefore f (by simp)
        have hstrict : ∀ g ∈ l, g.1 + g.2 < e.1 := by
          intro g hg
          have := (pairwise_append.mp hs).2.2 g hg f mem_cons_self
          omega
        unfold take
        by_cases hx : f.2 = n
        · rw [if_pos (hsz.trans hx), if_pos hpf, cut, if_pos hx]
          exact ⟨l, r1, rfl, rfl, fun g hg => Nat.le_of_lt (hstrict g hg), hafter,
            .inr ⟨rfl, hstrict⟩⟩
        rw [if_neg (fun h' => hx (hsz.symm.trans h')), if_pos hpf, cut, if_neg hx, add32_of_lt (by omega)]
        refine ⟨l ++ [(f.1 + n, f.2 - n)], r1, by simp, by simp, ?_, hafter, ?_⟩
        · intro g hg
          obtain hg | hg := mem_append.mp hg
          · exact Nat.le_of_lt (hstrict g hg)
          rw [mem_singleton] at hg
          subst hg
          omega
        · left
          rw [lastEntry_concat]
      · have hlast : lastEntry (l ++ f :: (m ++ [q])) = q.1 := by
          rw [← cons_append, ← append_assoc, lastEntry_concat]
        rw [concat_eq_append] at *
        have hne : prev ≠ f.1 := by
          have hp := (pairwise_append.mp hs).2.1
          have := (pairwise_cons.mp hp).1 q (by simp)
          omega
        rw [hsame hne]
        have h1 : l ++ (cut f n ++ (m ++ [q])) = (l ++ (cut f n ++ m)) ++ [q] := by simp
        refine ⟨l ++ (cut f n ++ (m ++ [q])), r1, by simp, ?_, ?_, hafter, ?_⟩
        · have h2 : l ++ f :: (m ++ [q]) = (l ++ f :: m) ++ [q] := by simp
          rw [hpp, h1, h2, cell_concat, cell_concat]
        · intro g hg
          simp only [mem_append] at hg
          obtain hg | hg | hg := hg
          · exact hbefore g (by simp [hg])
          · have := hbefore f (by simp)
            have := (hcut g hg).2
            omega
          have hgl : g ∈ l ++ f :: (m ++ [q]) := by
            rw [mem_append, mem_cons, mem_append]
            exact .inr (.inr hg)
          exact hbefore g hgl
        · left
          rw [hprev, hlast, h1, lastEntry_concat]
  · -- The entry lies behind the block.
    rw [hsame (by rw [hprev]; exact lastEntry_ne (forall_mem_append.mp hl).1 hf.start_pos)]
    refine ⟨l1, m ++ (cut f n ++ r), by simp, hpp, hbefore, ?_, .inl hprev⟩
    intro g hg
    simp only [mem_append] at hg
    obtain hg | hg | hg := hg
    · exact hafter g (by simp [hg])
    · have := hafter f (by simp)
      have := (hcut g hg).1
      omega
    · exact hafter g (by simp [hg])

end HeapSt

end Qnx.Ker
