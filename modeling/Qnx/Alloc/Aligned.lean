import Mathlib.Algebra.Order.Ring.Nat
import Mathlib.Data.Nat.Prime.Basic
import Qnx.Alloc.Bands

/-!
# Aligned allocation

A band is searched for an aligned node, and a free chunk is taken only where an aligned block fits.
A fresh arena starts 24 bytes before its first block, which is then aligned to 8 and no more: the
block is moved to the end of the arena if enough is left in front of it, and else handed out as it
is.
-/

namespace Qnx.Alloc

open List Option Except
open Extents (Extent)

theorem trunc_dvd (n m : Nat) : m ∣ trunc n m := ⟨n / m, rfl⟩

theorem trunc_eq_iff (n m : Nat) : trunc n m = n ↔ m ∣ n :=
  ⟨fun h => h ▸ trunc_dvd n m, Nat.mul_div_cancel'⟩

theorem trunc_le (n m : Nat) : trunc n m ≤ n := Nat.mul_div_le n m

/-! ### Free chunks -/

variable {cfg : Config} {al size k n p x i : Nat} {bins : List (List Extent)} {fit : Fit}
  {c c' : Core} {l l' : Lists} {b : Block} {m m' : Small} {s s' : AllocSt}

theorem fitIn_aligned {cur : Extent} {q : Nat × Nat} (h : fitIn cfg al size cur = some q) :
    al ∣ q.1 + 4 ∧ (q.2 = 0 → q.1 = cur.1) := by
  unfold fitIn at h
  split at h
  · split at h
    · dsimp only at h
      split at h
      · have hmin : 0 < minFsize := by decide
        cases h
        constructor
        · rw [Nat.sub_add_cancel (by omega)]
          exact trunc_dvd _ _
        · omega
      · cases h
    split at h
    · rename_i ht
      cases h
      exact ⟨(trunc_eq_iff _ _).mp ht, fun _ => rfl⟩
    · cases h
  · cases h

theorem firstFit_spec (h : firstFit cfg bins al size = some fit) :
    fitIn cfg al size fit.entry = some (fit.pos, fit.spare) ∧ fit.entry ∈ bins.getD fit.bin [] := by
  obtain ⟨p, hp, hq⟩ := exists_of_findSome?_eq_some h
  obtain ⟨q, hfit, rfl⟩ := map_eq_some_iff.mp hq
  obtain ⟨i, -, hc⟩ := mem_flatMap.mp hp
  obtain ⟨c, hm, rfl⟩ := mem_map.mp hc
  exact ⟨hfit, hm⟩

theorem takeFit_aligned (h : firstFit cfg bins al size = some fit) (bins' : List (List Extent)) :
    al ∣ (takeFit cfg fit bins').1.1 + 4 := by
  obtain ⟨ha, h0⟩ := fitIn_aligned (firstFit_spec h).1
  unfold takeFit
  split
  · rename_i hover
    rw [← h0 hover]
    exact ha
  · exact ha

/-! ### Carving -/

theorem word_dvd (hal : al = 2 ^ k) (hw : al < word) : al ∣ word := by
  subst hal
  exact Nat.pow_dvd_pow 2 (Nat.pow_lt_pow_iff_right (by decide) |>.mp hw).le

theorem dvd_mod_word (hal : al = 2 ^ k) (hw : al < word) (n : Nat) :
    al ∣ n % word ↔ al ∣ n := (Nat.dvd_mod_iff (word_dvd hal hw))

theorem sub_add_cancel_word (k : Nat) (hn : n < word) : (sub n k + k) % word = n := by
  unfold sub
  unfold word at *
  omega

theorem carve_aligned_iff (cfg : Config) (hal : al = 2 ^ k) (hw : al < word)
    (h8 : al ≠ 8) (nbytes : Nat) (d : Extent) (bins : List (List Extent)) :
    al ∣ ((carve cfg al nbytes d bins).1.1 + 4) % word ↔
      al ∣ d.1 + 4 ∨ cfg.minFree + minFsize ≤ sub d.2 nbytes := by
  unfold carve
  by_cases ha : trunc (d.1 + 4) al = d.1 + 4
  · have hd := (trunc_eq_iff _ _).mp ha
    rw [if_pos (.inr ha)]
    refine iff_of_true ?_ (.inl hd)
    split <;> exact (dvd_mod_word hal hw _).mpr hd
  have hd : ¬al ∣ d.1 + 4 := fun hd => ha ((trunc_eq_iff _ _).mpr hd)
  rw [if_neg (fun hor => hor.elim h8 ha)]
  by_cases hover : cfg.minFree + minFsize ≤ sub d.2 nbytes
  · rw [if_pos hover]
    refine iff_of_true ?_ (.inr hover)
    have hlt : trunc ((d.1 + sub d.2 nbytes + 4) % word) al < word :=
      (trunc_le _ _).trans_lt (Nat.mod_lt _ (by decide))
    rw [sub_add_cancel_word 4 hlt]
    exact trunc_dvd _ _
  rw [if_neg hover]
  refine iff_of_false ?_ (fun hor => hor.elim hd hover)
  rwa [dvd_mod_word hal hw]

theorem carve_dvd_eight (cfg : Config) (nbytes : Nat) (d : Extent) (bins : List (List Extent))
    (hd : 8 ∣ d.1 + 4) : 8 ∣ ((carve cfg 8 nbytes d bins).1.1 + 4) % word := by
  have h8 : (8 : Nat) ∣ word := by decide
  unfold carve
  rw [if_pos (.inl rfl), Nat.dvd_mod_iff h8]
  split <;> exact hd

/-! ### Fresh arenas -/

def Core.Paged (c : Core) : Prop := (∀ e ∈ c.cache, psiz ∣ e.1) ∧ ∀ e ∈ c.hole, psiz ∣ e.1

theorem Core.Paged.morecore (h : c.Paged) {e : Extent}
    (hm : c.morecore n = (some e, c')) : psiz ∣ e.1 ∧ c'.Paged := by
  unfold Core.morecore at hm
  split at hm
  · rename_i e' hf
    cases hm
    exact ⟨h.1 e (mem_of_find?_eq_some hf), fun x hx => h.1 x (mem_of_mem_erase hx), h.2⟩
  unfold Core.getmem at hm
  cases hh : c.hole with
  | none => simp [hh] at hm
  | some r =>
    obtain ⟨a, room⟩ := r
    simp only [hh] at hm
    split at hm
    · rename_i hif
      split at hif
      · cases hif
        cases hm
        exact ⟨h.2 (a, room) hh, h.1, by simp⟩
      · cases hif
    · cases hm

theorem Core.Paged.morecore_none (h : c.Paged) (hm : c.morecore n = (none, c')) : c'.Paged := by
  unfold Core.morecore at hm
  split at hm
  · cases hm
  unfold Core.getmem at hm
  split at hm
  · cases hm
  rename_i hif
  split at hif
  · split at hif
    · cases hif
    cases hif
    cases hm
    exact h
  cases hif
  cases hm
  exact h

theorem arena_dvd_iff {a : Nat} (hal : al = 2 ^ k) (h8 : 8 ≤ al) (ha : psiz ∣ a) :
    al ∣ a + 24 ↔ al = 8 := by
  obtain ⟨j, rfl⟩ : ∃ j, k = j + 3 := by
    refine ⟨k - 3, ?_⟩
    by_contra hk
    have : 2 ^ k < 2 ^ 3 := Nat.pow_lt_pow_right (by decide) (by omega)
    omega
  constructor
  · intro hd
    by_contra hne
    cases j with
    | zero => exact hne hal
    | succ j =>
      have h16 : 16 ∣ al := by
        rw [hal, show j + 1 + 3 = j + 4 from rfl, Nat.pow_add]
        exact Nat.dvd_mul_left _ _
      have h1 : 16 ∣ a + 24 := h16.trans hd
      have h2 : 16 ∣ a := (by decide : 16 ∣ psiz).trans ha
      omega
  · rintro rfl
    have h2 : 8 ∣ a := (by decide : 8 ∣ psiz).trans ha
    omega

def arenaBytes (cfg : Config) (al n : Nat) : Nat :=
  roundUp ((alignUnitSize al n + arenaOverhead) % word)
    (if n < cfg.binSize 8 then cfg.amblksiz else psiz)

/-- `_list_memalign` hands out the start of a fresh arena: the block is too large for the bins, or no
free chunk fits and the arena leaves too little. -/
def Unaligned (cfg : Config) (c : Core) (l : Lists) (al n : Nat) : Prop :=
  al ≠ 8 ∧ (cfg.binSize 8 ≤ n ∨ firstFit cfg l.bins al (unitSize n) = none ∧
    ∀ e ∈ (c.morecore (arenaBytes cfg al n)).1,
      sub (e.2 - arenaOverhead) (unitSize n) < cfg.minFree + minFsize)

theorem addmem_some {d : Extent}
    (h : addmem cfg c l (alignUnitSize al n) (!decide (n < cfg.binSize 8)) = (some d, c', l')) :
    ∃ e, c.morecore (arenaBytes cfg al n) = (some e, c') ∧
      d = (e.1 + 20, e.2 - arenaOverhead) ∧ l' = { l with arenas := l.arenas ++ [e] } := by
  have hn : roundUp ((alignUnitSize al n + arenaOverhead) % word)
      (if (!decide (n < cfg.binSize 8)) = true then psiz else cfg.amblksiz) =
        arenaBytes cfg al n := by
    unfold arenaBytes
    by_cases hs : n < cfg.binSize 8 <;> simp [hs]
  unfold addmem at h
  rw [hn] at h
  cases hm : c.morecore (arenaBytes cfg al n) with
  | mk o c1 =>
    cases o with
    | none => simp [hm] at h
    | some e =>
      simp only [hm] at h
      obtain ⟨rfl, rfl, rfl⟩ := h
      exact ⟨e, rfl, rfl, rfl⟩

theorem listMemalign_aligned_iff (hal : al = 2 ^ k) (h8 : 8 ≤ al) (hw : al < word) (hc : c.Paged)
    (h : listMemalign cfg c l al n = (some p, c', l')) :
    al ∣ p ↔ ¬Unaligned cfg c l al n := by
  unfold listMemalign at h
  dsimp only at h
  split at h
  · cases h
  cases hfit : (if n < cfg.binSize 8 then firstFit cfg l.bins al (unitSize n) else none) with
  | some fit =>
    obtain ⟨hs, hfit'⟩ := ite_none_right_eq_some.mp hfit
    simp only [hfit] at h
    obtain ⟨rfl, -, -⟩ := h
    have ha := takeFit_aligned hfit' l.bins
    refine iff_of_true ?_ ?_
    · by_cases he : al = 8
      · subst he
        exact carve_dvd_eight cfg _ _ _ ha
      · exact (carve_aligned_iff cfg hal hw he _ _ _).mpr (.inl ha)
    · rintro ⟨-, hn | ⟨hno, -⟩⟩
      · omega
      · rw [hfit'] at hno
        cases hno
  | none =>
    simp only [hfit] at h
    cases hadd : addmem cfg c l (alignUnitSize al n) (!decide (n < cfg.binSize 8)) with
    | mk o r =>
      cases o with
      | none => simp [hadd] at h
      | some d =>
        simp only [hadd] at h
        obtain ⟨rfl, rfl, -⟩ := h
        obtain ⟨e, hm, rfl, -⟩ := addmem_some hadd
        have ha := arena_dvd_iff hal h8 (hc.morecore hm).1
        unfold Unaligned
        rw [hm]
        by_cases he : al = 8
        · subst he
          refine iff_of_true ?_ (fun hu => hu.1 rfl)
          split
          · exact carve_dvd_eight cfg _ _ _ (ha.mpr rfl)
          · exact (dvd_mod_word hal hw _).mpr (ha.mpr rfl)
        by_cases hs : n < cfg.binSize 8
        · have hno : firstFit cfg l.bins al (unitSize n) = none := by
            rw [if_pos hs] at hfit
            exact hfit
          rw [if_pos hs, carve_aligned_iff cfg hal hw he]
          simp only [ha, he, hno, false_or, ne_eq, not_false_eq_true, true_and,
            mem_def, some.injEq, forall_eq', not_le.mpr hs, not_lt]
        · rw [if_neg hs, dvd_mod_word hal hw]
          exact iff_of_false (fun hd => he (ha.mp hd)) fun hn => hn ⟨he, .inl (not_lt.mp hs)⟩

/-! ### Bands -/

/-- The nodes are where blocks of whole pages have them. -/
structure Small.Placed (m : Small) : Prop where
  nodes : ∀ b ∈ m.alist, ∀ x ∈ b.head, x % 8 = 4
  arenas : ∀ a ∈ m.head, psiz ∣ a.addr ∧ ∀ e ∈ a.ahead, psiz ∣ e

theorem bandFind_spec {l : List Block} (h : bandFind al l = .ok (some (b, x))) :
    b ∈ l ∧ x ∈ b.head ∧ (al ≠ 8 → al ∣ x + 4) := by
  unfold bandFind at h
  split at h
  · simp only [ok.injEq] at h
    obtain ⟨b', hb, hx⟩ := exists_of_findSome?_eq_some h
    obtain ⟨y, hy, heq⟩ := map_eq_some_iff.mp hx
    cases heq
    have := find?_some hy
    exact ⟨hb, mem_of_find?_eq_some hy, fun _ => (trunc_eq_iff _ _).mp (by simpa using this)⟩
  rename_i h8
  simp only [not_not] at h8
  cases l with
  | nil => cases h
  | cons b' rest =>
    cases hh : b'.head with
    | nil => simp [hh] at h
    | cons y ys =>
      simp only [hh] at h
      obtain ⟨rfl, rfl⟩ := h
      exact ⟨mem_cons_self, by simp [hh], absurd h8⟩

theorem bandFind_aligned (hm : m.Placed)
    (h : bandFind al (m.alist.filter fun b => b.band = i) = .ok (some (b, x))) : al ∣ x + 4 := by
  obtain ⟨hb, hx, ha⟩ := bandFind_spec h
  by_cases h8 : al = 8
  · have := hm.nodes b (mem_filter.mp hb).1 x hx
    rw [h8]
    omega
  · exact ha h8

theorem bandRem_eight (h : 8 ∣ n) : 8 ∣ bandRem n := by
  have he : 8 ∣ esize n := (Nat.dvd_add_right h).mpr (by decide)
  have h1 : 8 ∣ roundUp 32 (esize n) := by
    unfold roundUp
    rw [Nat.dvd_mod_iff (by decide)]
    exact he.mul_right _
  unfold bandRem
  omega

theorem nodesOf_mod {e : Nat} (hn : n ∈ cfg.bands) (he : psiz ∣ e)
    (hx : x ∈ nodesOf cfg n (blockAddr n e)) : x % 8 = 4 := by
  obtain ⟨i, -, rfl⟩ := mem_map.mp hx
  have h1 := (cfg.bands_ok n hn).1
  have h4 := bandRem_eight h1
  have h5 : 8 ∣ i * esize n := ((Nat.dvd_add_right h1).mpr (by decide : 8 ∣ 8)).mul_left i
  have h6 : 8 ∣ e := (by decide : 8 ∣ psiz).trans he
  unfold blockAddr
  omega

theorem takeElem_paged {a : BandArena} (ha : psiz ∣ a.addr) (hh : ∀ e ∈ a.ahead, psiz ∣ e) :
    psiz ∣ (takeElem cfg a).1 ∧ psiz ∣ (takeElem cfg a).2.addr ∧
      ∀ e ∈ (takeElem cfg a).2.ahead, psiz ∣ e := by
  unfold takeElem
  cases hd : a.ahead with
  | nil => exact ⟨(Nat.dvd_add_right ha).mpr (cfg.elem_ok.1.mul_left _), ha, by simp⟩
  | cons e ahead =>
    rw [hd] at hh
    exact ⟨hh e (by simp), ha, fun x hx => hh x (by simp [hx])⟩

theorem getBarena_paged {o : Option (Nat × Nat)}
    (hc : c.Paged) (hm : m.Placed) (h : getBarena cfg c m = (o, c', m')) :
    (∀ r ∈ o, psiz ∣ r.1) ∧ m'.Placed ∧ c'.Paged := by
  -- the arena the element is taken from goes on one of the two lists
  have htake : ∀ (a : BandArena) (rest : List BandArena), psiz ∣ a.addr →
      (∀ e ∈ a.ahead, psiz ∣ e) → (∀ x ∈ rest, x ∈ m.head) →
      psiz ∣ (takeElem cfg a).1 ∧ Small.Placed
        (if (takeElem cfg a).2.nused = (takeElem cfg a).2.ntotal then
          { m with head := rest, dhead := (takeElem cfg a).2 :: m.dhead }
        else { m with head := (takeElem cfg a).2 :: rest }) := by
    intro a rest ha hh hr
    obtain ⟨h1, h2, h3⟩ := takeElem_paged ha hh
    refine ⟨h1, ?_⟩
    split
    · exact ⟨hm.nodes, fun x hx => hm.arenas x (hr x hx)⟩
    refine ⟨hm.nodes, fun x hx => ?_⟩
    rcases mem_cons.mp hx with rfl | hx
    · exact ⟨h2, h3⟩
    · exact hm.arenas x (hr x hx)
  unfold getBarena at h
  cases hh : m.head with
  | cons a rest =>
    have ha := hm.arenas a (by simp [hh])
    obtain ⟨h1, h2⟩ := htake a rest ha.1 ha.2 (by simp +contextual [hh])
    simp only [hh] at h
    obtain ⟨rfl, rfl, rfl⟩ := h
    exact ⟨by simpa using h1, h2, hc⟩
  | nil =>
    simp only [hh] at h
    cases hmc : c.morecore cfg.amblksiz with
    | mk r c1 =>
      cases r with
      | none =>
        simp only [hmc] at h
        obtain ⟨rfl, rfl, rfl⟩ := h
        exact ⟨by simp, hm, hc.morecore_none hmc⟩
      | some e =>
        obtain ⟨h1, h2⟩ := htake ⟨e.1, e.2, 0, e.2 / cfg.elemSize, []⟩ [] (hc.morecore hmc).1
          (by simp) (by simp)
        simp only [hmc] at h
        obtain ⟨rfl, rfl, rfl⟩ := h
        exact ⟨by simpa using h1, h2, (hc.morecore hmc).2⟩

theorem bandAddblk_placed {b : Bool} (hc : c.Paged) (hm : m.Placed) (hn : n ∈ cfg.bands)
    (h : bandAddblk cfg c m i n = (b, c', m')) : m'.Placed ∧ c'.Paged := by
  unfold bandAddblk at h
  cases hg : getBarena cfg c m with
  | mk o r =>
    obtain ⟨h1, h2, h3⟩ := getBarena_paged hc hm hg
    cases o with
    | none =>
      simp only [hg] at h
      obtain ⟨-, rfl, rfl⟩ := h
      exact ⟨h2, h3⟩
    | some q =>
      simp only [hg] at h
      obtain ⟨-, rfl, rfl⟩ := h
      refine ⟨⟨fun b hb x hx => ?_, h2.arenas⟩, h3⟩
      rcases mem_cons.mp hb with rfl | hb
      · exact nodesOf_mod hn (h1 _ rfl) hx
      · exact h2.nodes b hb x hx

theorem bandGetAligned_aligned {fuel q : Nat} (hc : c.Paged) (hm : m.Placed) (hn : n ∈ cfg.bands)
    (h : bandGetAligned cfg i n al fuel c m = .ok (some q, c', m')) : al ∣ q := by
  induction fuel generalizing c m with
  | zero =>
    unfold bandGetAligned at h
    dsimp only at h
    split at h
    · cases h
    · rename_i hf _
      cases h
      exact bandFind_aligned hm hf
    · cases h
  | succ fuel ih =>
    unfold bandGetAligned at h
    dsimp only at h
    split at h
    · cases h
    · rename_i hf _
      cases h
      exact bandFind_aligned hm hf
    cases hb : bandAddblk cfg c m i n with
    | mk b r =>
      obtain ⟨h1, h2⟩ := bandAddblk_placed hc hm hn hb
      cases b with
      | false => simp [hb] at h
      | true =>
        simp only [hb] at h
        exact ih h2 h1 h

/-! ### The calls -/

structure AllocSt.Placed (s : AllocSt) : Prop where
  core : s.core.Paged
  small : s.small.Placed

theorem fromBand_aligned (hs : s.Placed)
    (hi : i < cfg.bands.length) (h : s.fromBand cfg i al = .ok (some p, s')) : al ∣ p := by
  unfold AllocSt.fromBand at h
  have hn : cfg.bands.getD i 0 ∈ cfg.bands := by
    rw [getD_eq_getElem?_getD, getElem?_eq_getElem hi]
    exact getElem_mem hi
  cases hb : bandGetAligned cfg i (cfg.bands.getD i 0) al 1 s.core s.small with
  | error f =>
    rw [hb] at h
    cases h
  | ok r =>
    obtain ⟨o, c, m⟩ := r
    rw [hb] at h
    cases h
    exact bandGetAligned_aligned hs.core hs.small hn hb

theorem fromList_aligned_iff (hal : al = 2 ^ k) (h8 : 8 ≤ al) (hw : al < word) (hs : s.Placed)
    (h : s.fromList cfg al n = (some p, s')) :
    al ∣ p ↔ ¬Unaligned cfg s.core s.lists al n := by
  unfold AllocSt.fromList at h
  generalize hr : listMemalign cfg s.core s.lists al n = r at h
  obtain ⟨o, c, l⟩ := r
  cases h
  exact listMemalign_aligned_iff hal h8 hw hs.core hr

theorem malloc_aligned (hs : s.Placed) (h : s.malloc cfg n = .ok (some p, s')) : 8 ∣ p := by
  unfold AllocSt.malloc at h
  split at h
  · cases h
  split at h
  · rename_i i hi
    exact fromBand_aligned hs (findIdx?_eq_some_iff_getElem.mp hi).1 h
  simp only [ok.injEq] at h
  refine (fromList_aligned_iff (k := 3) (by decide) le_rfl (by decide) hs h).mpr ?_
  exact fun hu => hu.1 rfl

/-- What `memalign` or `posix_memalign` returns is a multiple of the alignment, unless it is the
start of a fresh arena. -/
theorem memalign_aligned_iff {cfg : Config} {s s' : AllocSt} {al k n p : Nat} (hal : al = 2 ^ k)
    (h8 : 8 ≤ al) (hw : al < word) (hs : s.Placed)
    (h : s.memalign cfg al n = .ok (some p, s') ∨ s.posixMemalign cfg al n = .ok (some p, s')) :
    al ∣ p ↔ ¬(selectBand cfg al n = none ∧ Unaligned cfg s.core s.lists al n) := by
  replace h : s.memalign cfg al n = .ok (some p, s') := by
    rcases h with h | h
    · exact h
    unfold AllocSt.posixMemalign at h
    split at h
    · cases h
    · exact h
  unfold AllocSt.memalign at h
  split at h
  · cases h
  split at h
  · cases h
  split at h
  · obtain rfl : al = 8 := by omega
    exact iff_of_true (malloc_aligned hs h) fun hu => hu.2.1 rfl
  cases hb : selectBand cfg al n with
  | some i =>
    simp only [hb] at h
    have hi := (findIdx?_eq_some_iff_getElem.mp hb).1
    exact iff_of_true (fromBand_aligned hs hi h) fun hu => nomatch hu.1
  | none =>
    simp only [hb, ok.injEq] at h
    rw [fromList_aligned_iff hal h8 hw hs h]
    simp

def atStart : AllocSt where
  core := ⟨[], some (4096, 65536)⟩
  lists := ⟨[], replicate 9 [], []⟩
  small := ⟨[], [], [], [], []⟩

theorem atStart_placed : atStart.Placed where
  core := ⟨by simp [atStart], by simp [atStart, psiz]⟩
  small := ⟨by simp [atStart], by simp [atStart]⟩

theorem memalign_aligned_iff_page : ∃ p s',
    atStart.memalign Config.standard 4096 20000 = .ok (some p, s') ∧ 4096 ∣ p := by
  have hm : ∃ p s', atStart.memalign Config.standard 4096 20000 = .ok (some p, s') := ⟨_, _, rfl⟩
  obtain ⟨p, s', h⟩ := hm
  refine ⟨p, s', h, (memalign_aligned_iff (k := 12) (by decide) (by decide) (by decide)
    atStart_placed (.inl h)).mpr ?_⟩
  rintro ⟨-, -, hu | ⟨-, hu⟩⟩
  · exact absurd hu (by decide)
  · exact absurd (hu (4096, 32768) (by decide)) (by decide)

/-- `32720` bytes aligned to `16` leave 16 bytes of the arena. -/
theorem memalign_arena_start :
    ∃ s', atStart.memalign Config.standard 16 32720 = .ok (some 4120, s') ∧ ¬16 ∣ 4120 :=
  ⟨_, rfl, by decide⟩

end Qnx.Alloc
