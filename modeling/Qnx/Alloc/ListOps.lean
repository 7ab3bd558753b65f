import Qnx.Alloc.Chunks

/-!
# What the list allocator keeps

Allocation, release and resizing keep the chunks apart and in their arenas, and what is handed out
has room for the request.
-/

namespace Qnx.Alloc

open Extents List

structure ListsOk (l : Lists) : Prop where
  nbins : l.bins.length = 9
  laid : Laid l.arenas (l.bins.flatten ++ l.busy)

section Parts
variable {cfg : Config} {al N : Nat} {A B : List Extent} {bins : List (List Extent)}

theorem sub_eq {a b : Nat} (h : b ≤ a) (ha : a < word) : sub a b = a - b := by
  unfold sub
  unfold word at *
  omega

theorem fitIn_spec {cur : Extent} {pos spare : Nat} (h8 : 8 ≤ N)
    (h : fitIn cfg al N cur = some (pos, spare)) :
    (spare = 0 ∧ N ≤ cur.2) ∨
    (minFsize ≤ spare ∧ pos = cur.1 + spare ∧ al ∣ pos + 4 ∧ spare + N ≤ cur.2) := by
  have ha := (fitIn_aligned h).1
  unfold fitIn at h
  split at h
  · split at h
    · dsimp only at h
      split at h
      · have ht := trunc_le (cur.1 + cur.2 - 4 - (N - 8)) al
        obtain ⟨rfl, rfl⟩ := h
        exact .inr ⟨by omega, by omega, ha, by omega⟩
      · cases h
    split at h
    · cases h
      exact .inl ⟨rfl, by assumption⟩
    · cases h
  · cases h

theorem takeFit_laid {fit : Fit} (hal : 8 ∣ al) (h8 : minFsize ≤ N) (hb : bins.length = 9)
    (h : Laid A (bins.flatten ++ B)) (hm : fit.entry ∈ bins.flatten)
    (hfit : fitIn cfg al N fit.entry = some (fit.pos, fit.spare)) :
    let r := takeFit cfg fit bins
    Laid A (r.1 :: (r.2.flatten ++ B)) ∧ N ≤ r.1.2 ∧ r.2.length = 9 := by
  have hap : Apart bins.flatten := (apart_append.mp h.apart).1
  have hpos : ∀ c ∈ bins.flatten, 0 < c.2 := fun c hc => h.pos (mem_append_left _ hc)
  have hperm := perm_filter hap hpos hm
  have hl : Laid A (fit.entry :: ((dequeueBin fit.entry.1 bins).flatten ++ B)) := by
    rw [dequeueBin_flatten]
    exact h.perm (hperm.append_right B)
  have hmin : minFsize = 16 := rfl
  unfold takeFit
  rcases fitIn_spec (by omega) hfit with ⟨h0, hN⟩ | ⟨hov, hp, ha, hN⟩
  · rw [if_pos h0]
    exact ⟨hl, hN, by simpa using hb⟩
  rw [if_neg (by omega)]
  dsimp only
  obtain ⟨s1, s2, s3⟩ := h.shaped fit.entry (mem_append_left _ hm)
  have ha8 : 8 ∣ fit.pos + 4 := hal.trans ha
  -- the chunk in two parts, the rest of it still free
  have hsplit : Laid A ((fit.pos, fit.entry.2 - fit.spare) ::
      ((fit.entry.1, fit.spare) :: (dequeueBin fit.entry.1 bins).flatten ++ B)) := by
    exact hl.split _ _ _ _ (by omega) (by omega) (by omega) (by omega)
  refine ⟨?_, by omega, ?_⟩
  · refine hsplit.perm (Perm.cons _ ?_)
    refine Perm.append_right B ?_
    split
    · rw [dequeueBin_flatten]
      exact (setSize_flatten hap hpos hm _).symm
    · exact (enqueueBin_flatten cfg (by simpa using hb) _).symm
  · split <;> simpa using hb

theorem carve_laid (cfg : Config) {d : Extent} (hal : 8 ∣ al) (hN : N ≤ d.2) (h8 : 8 ∣ N)
    (h16 : minFsize ≤ N)
    (hw : d.1 + d.2 ≤ word) (hb : bins.length = 9) (h : Laid A (d :: (bins.flatten ++ B)))
    (hfront : ¬(al = 8 ∨ trunc (d.1 + 4) al = d.1 + 4) → cfg.minFree + minFsize ≤ d.2 - N →
      d.1 + 4 + minFsize ≤ trunc (d.1 + (d.2 - N) + 4) al) :
    let r := carve cfg al N d bins
    Laid A (r.1 :: (r.2.flatten ++ B)) ∧ N ≤ r.1.2 ∧ r.2.length = 9 := by
  obtain ⟨s1, s2, s3⟩ := h.shaped d mem_cons_self
  have hmin : minFsize = 16 := rfl
  have hsub : sub d.2 N = d.2 - N := sub_eq hN (by omega)
  unfold carve
  dsimp only
  rw [hsub]
  by_cases ha : al = 8 ∨ trunc (d.1 + 4) al = d.1 + 4
  · rw [if_pos ha]
    by_cases hover : cfg.minFree + minFsize ≤ d.2 - N
    · rw [if_pos hover]
      refine ⟨?_, le_rfl, by simpa using hb⟩
      refine (h.split d.1 N (d.1 + N) (d.2 - N) (by omega) (by omega) (by omega) (by omega)).perm ?_
      exact Perm.cons _ ((enqueueBin_flatten cfg hb _).symm.append_right B)
    · rw [if_neg hover]
      exact ⟨h, hN, hb⟩
  rw [if_neg ha]
  by_cases hover : cfg.minFree + minFsize ≤ d.2 - N
  · rw [if_pos hover]
    have hv : (d.1 + (d.2 - N) + 4) % word = d.1 + (d.2 - N) + 4 := Nat.mod_eq_of_lt (by omega)
    have ht := trunc_le (d.1 + (d.2 - N) + 4) al
    have ht8 : 8 ∣ trunc (d.1 + (d.2 - N) + 4) al := hal.trans (trunc_dvd _ _)
    rw [hv]
    generalize trunc (d.1 + (d.2 - N) + 4) al = caddr at *
    rw [sub_eq (a := caddr) (b := 4) (by omega) (by omega),
      sub_eq (a := d.2 - N) (by omega) (by omega)]
    refine ⟨?_, by dsimp only; omega, by simpa using hb⟩
    refine (h.split (caddr - 4) (N + (d.1 + (d.2 - N) + 4 - caddr)) d.1
      (d.2 - N - (d.1 + (d.2 - N) + 4 - caddr)) (by omega) (by omega) (by omega)
      (by omega)).perm ?_
    exact Perm.cons _ ((enqueueBin_flatten cfg hb _).symm.append_right B)
  · rw [if_neg hover]
    exact ⟨h, hN, hb⟩

end Parts

/-! ### Fresh arenas -/

section Fresh
variable {cfg : Config} {al k n : Nat}

theorem minFree_ge (cfg : Config) : 17 ≤ cfg.minFree := by
  have hm : cfg.maxBandSize ∈ cfg.bands := getLast_mem cfg.bands_ne
  obtain ⟨h1, h2, h3⟩ := cfg.bands_ok _ hm
  have hu := (unitSize_spec (n := cfg.maxBandSize + 1) (by omega)).2.1
  unfold Config.minFree
  omega

theorem eight_dvd (hal : al = 2 ^ k) (h8 : 8 ≤ al) : 8 ∣ al := by
  have hk : 3 ≤ k := by
    by_contra hk
    have : 2 ^ k < 2 ^ 3 := Nat.pow_lt_pow_right (by decide) (by omega)
    omega
  rw [hal]
  exact Nat.pow_dvd_pow 2 hk

theorem alignUnitSize_spec (hal : al = 2 ^ k) (h8 : 8 ≤ al) (hle : al ≤ 2 ^ 30) (hn : n < 2 ^ 31) :
    unitSize n + al ≤ alignUnitSize al n + 8 ∧ alignUnitSize al n ≤ 2 ^ 31 + 2 ^ 30 := by
  have hd8 := eight_dvd hal h8
  obtain ⟨r1, r2, r3⟩ := roundUp_spec (n := n) (m := al) (by omega) (by unfold word; omega)
  obtain ⟨q1, q2, q3⟩ := roundUp_spec (n := 8) (m := al) (by omega) (by unfold word; omega)
  have hq : roundUp 8 al = al := by
    obtain ⟨j, hj⟩ := q1
    have hj1 : j = 1 := by
      have h1 : al * j < al * 2 := by omega
      have h2 : 0 < al * j := by omega
      have h3 := Nat.lt_of_mul_lt_mul_left h1
      have h4 := Nat.pos_of_mul_pos_left h2
      omega
    rw [hj, hj1, Nat.mul_one]
  have h31 : al ∣ 2 ^ 31 := by
    subst hal
    exact Nat.pow_dvd_pow 2 (Nat.pow_le_pow_iff_right (by decide) |>.mp (hle.trans (by decide)))
  have hr : roundUp n al ≤ 2 ^ 31 := by
    obtain ⟨i, hi⟩ := r1
    obtain ⟨j, hj⟩ := h31
    rw [hi, hj]
    refine Nat.mul_le_mul_left al ?_
    by_contra hij
    have : al * (j + 1) ≤ al * i := Nat.mul_le_mul_left al (by omega)
    rw [Nat.mul_add] at this
    omega
  obtain ⟨u1, u2, u3⟩ := unitSize_spec hn
  have hr8 : 8 ∣ roundUp n al := hd8.trans r1
  unfold alignUnitSize
  rw [Nat.mod_eq_of_lt (by unfold word; omega)]
  omega

theorem arenaBytes_spec (cfg : Config) (hal : al = 2 ^ k) (h8 : 8 ≤ al) (hle : al ≤ 2 ^ 30)
    (hn : n < 2 ^ 31) :
    psiz ∣ arenaBytes cfg al n ∧ alignUnitSize al n + arenaOverhead ≤ arenaBytes cfg al n := by
  obtain ⟨h1, h2⟩ := alignUnitSize_spec (n := n) hal h8 hle hn
  have hq : ∀ q, psiz ∣ q → 0 < q → q ≤ 2 ^ 18 →
      psiz ∣ roundUp ((alignUnitSize al n + arenaOverhead) % word) q ∧
      alignUnitSize al n + arenaOverhead ≤
        roundUp ((alignUnitSize al n + arenaOverhead) % word) q := by
    intro q hq h0 hq18
    have hw : (alignUnitSize al n + arenaOverhead) % word = alignUnitSize al n + arenaOverhead :=
      Nat.mod_eq_of_lt (by unfold word arenaOverhead; omega)
    rw [hw]
    obtain ⟨r1, r2, -⟩ := roundUp_spec (n := alignUnitSize al n + arenaOverhead) (m := q) h0
      (by unfold word arenaOverhead; omega)
    exact ⟨hq.trans r1, r2⟩
  have hamb : 0 < cfg.amblksiz := by
    obtain ⟨m, hm⟩ := exists_mem_of_ne_nil _ cfg.bands_ne
    have := cfg.bands_fit m hm
    have := cfg.elem_ok.2
    omega
  unfold arenaBytes
  split
  · exact hq _ cfg.amblksiz_ok.1 hamb cfg.amblksiz_ok.2
  · exact hq _ dvd_rfl (by decide) (by decide)

theorem Laid.addArena {A C Y : List Extent} {c : Core} {e : Extent} (h : Laid A C)
    (hm : Mapped c (e :: (A ++ Y))) (hsize : arenaOverhead + minFsize ≤ e.2) :
    Laid (A ++ [e]) (interior e :: C) := by
  obtain ⟨e1, e2, e3, e4, e5, e6⟩ := hm.mem mem_cons_self
  have hoff : ∀ f ∈ A, Off e f := fun f hf => by
    have := (apart_cons.mp (apart_append.mp hm.apart).2.1).1 f (mem_append_left _ hf)
    exact this
  have d1 : 8 ∣ e.1 := (by decide : 8 ∣ psiz).trans e1
  have d2 : 8 ∣ e.2 := (by decide : 8 ∣ psiz).trans e2
  have hov : arenaOverhead = 24 := rfl
  constructor
  case apart =>
    refine apart_cons.mpr ⟨fun c hc => ?_, h.apart⟩
    obtain ⟨f, hf, hw⟩ := h.inside c hc
    have := hoff f hf
    unfold Within at hw
    unfold Off interior at *
    omega
  case shaped =>
    intro c hc
    rcases mem_cons.mp hc with rfl | hc
    · exact ⟨by unfold interior; omega, by unfold interior; omega, by unfold interior; omega⟩
    · exact h.shaped c hc
  case inside =>
    intro c hc
    rcases mem_cons.mp hc with rfl | hc
    · exact ⟨e, by simp, .refl _⟩
    · obtain ⟨f, hf, hw⟩ := h.inside c hc
      exact ⟨f, mem_append_left _ hf, hw⟩

theorem arena_front (hal : al = 2 ^ k) (h8 : 8 ≤ al) {N : Nat} {e : Extent} (he : psiz ∣ e.1)
    (he2 : 8 ∣ e.2) (hN : 8 ∣ N) (hroom : N + al + 16 ≤ e.2) (hne : al ≠ 8)
    (hover : cfg.minFree + minFsize ≤ e.2 - arenaOverhead - N) :
    e.1 + 20 + 4 + minFsize ≤ trunc (e.1 + 20 + (e.2 - arenaOverhead - N) + 4) al := by
  have hmf := minFree_ge cfg
  have hd := trunc_dvd (e.1 + 20 + (e.2 - arenaOverhead - N) + 4) al
  have hlt : e.1 + 20 + (e.2 - arenaOverhead - N) + 4 <
      trunc (e.1 + 20 + (e.2 - arenaOverhead - N) + 4) al + al := by
    have := Nat.lt_mul_div_succ (e.1 + 20 + (e.2 - arenaOverhead - N) + 4) (b := al) (by omega)
    rwa [Nat.mul_add, Nat.mul_one] at this
  have h64 : 64 ∣ e.1 := (by decide : 64 ∣ psiz).trans he
  have hmin : minFsize = 16 := rfl
  have hov : arenaOverhead = 24 := rfl
  by_cases hk : 6 ≤ k
  · have hal64 : 64 ∣ al := by
      rw [hal]
      exact Nat.pow_dvd_pow 2 hk
    have h1 := hal64.trans hd
    omega
  -- 16 or 32, and at least 40 bytes are left
  have hk' : k = 4 ∨ k = 5 := by
    have h3 : k ≠ 3 := fun h => hne (hal.trans (by rw [h]; decide))
    have h2 : 3 ≤ k := by
      by_contra hk3
      have : 2 ^ k < 2 ^ 3 := Nat.pow_lt_pow_right (by decide) (by omega)
      omega
    omega
  rcases hk' with rfl | rfl
  · omega
  · obtain rfl : al = 32 := hal.trans (by decide)
    omega

end Fresh

/-! ### The operations -/

structure Allocated (l : Lists) (n p : Nat) (l' : Lists) (d : Extent) : Prop where
  busy : l'.busy = d :: l.busy
  ptr : p = d.1 + 4
  room : n + 8 ≤ d.2

section Ops
variable {cfg : Config} {c c' : Core} {l l' : Lists} {Y : List Extent}

theorem ListsOk.lt_word (hl : ListsOk l) (hc : Mapped c (l.arenas ++ Y)) {d : Extent}
    (hd : d ∈ l.bins.flatten ++ l.busy) : d.1 + d.2 + 4 ≤ word := by
  obtain ⟨e, he, hw⟩ := hl.laid.inside d hd
  have he5 := (hc.mem (mem_append_left _ he)).le_word
  have hp := hl.laid.pos hd
  unfold Within interior arenaOverhead at hw
  omega

theorem addmem_none {al n : Nat} {b : Bool}
    (h : addmem cfg c l (alignUnitSize al n) b = (none, c', l')) :
    c' = c ∧ l' = l := by
  unfold addmem at h
  generalize roundUp ((alignUnitSize al n + arenaOverhead) % word)
    (if b = true then psiz else cfg.amblksiz) = x at h
  cases hm : c.morecore x with
  | mk o c1 =>
    cases o with
    | some e => simp [hm] at h
    | none =>
      simp only [hm] at h
      obtain ⟨rfl, rfl⟩ := h
      exact ⟨morecore_none hm, rfl⟩

theorem listMemalign_ok {al k n : Nat} {o : Option Nat} (hal : al = 2 ^ k) (h8 : 8 ≤ al)
    (hle : al ≤ 2 ^ 30) (hn0 : 0 < n) (hn : n < 2 ^ 31) (hl : ListsOk l)
    (hc : Mapped c (l.arenas ++ Y)) (h : listMemalign cfg c l al n = (o, c', l')) :
    ListsOk l' ∧ Mapped c' (l'.arenas ++ Y) ∧
      (o = none → l' = l) ∧ ∀ p ∈ o, ∃ d, Allocated l n p l' d := by
  obtain ⟨u1, u2, u3⟩ := unitSize_spec hn
  have hd8 := eight_dvd hal h8
  have h16 : minFsize ≤ unitSize n := by
    unfold minFsize
    omega
  -- the last step is the same for a free chunk and a fresh one
  have hfinish : ∀ (l1 : Lists) (c1 : Core) (r : Extent × List (List Extent)),
      Mapped c1 (l1.arenas ++ Y) → l1.busy = l.busy → Laid l1.arenas (r.1 :: (r.2.flatten ++ l1.busy)) →
      unitSize n ≤ r.1.2 → r.2.length = 9 →
      ListsOk { l1 with bins := r.2, busy := r.1 :: l1.busy } ∧
        Mapped c1 ({ l1 with bins := r.2, busy := r.1 :: l1.busy }.arenas ++ Y) ∧
        Allocated l n ((r.1.1 + 4) % word) { l1 with bins := r.2, busy := r.1 :: l1.busy } r.1 := by
    intro l1 c1 r hc1 hb hlaid hN hlen
    have hok : ListsOk { l1 with bins := r.2, busy := r.1 :: l1.busy } :=
      ⟨hlen, hlaid.perm perm_middle.symm⟩
    have hlt := hok.lt_word hc1 (d := r.1) (by simp)
    refine ⟨hok, hc1, by rw [hb], Nat.mod_eq_of_lt (by omega), by omega⟩
  unfold listMemalign at h
  dsimp only at h
  split at h
  · cases h
    exact ⟨hl, hc, fun _ => rfl, by simp⟩
  cases hfit : (if n < cfg.binSize 8 then firstFit cfg l.bins al (unitSize n) else none) with
  | some fit =>
    obtain ⟨hs, hfit'⟩ := Option.ite_none_right_eq_some.mp hfit
    obtain ⟨f1, f2⟩ := firstFit_spec hfit'
    have hm : fit.entry ∈ l.bins.flatten := by
      rw [getD_eq_getElem?_getD] at f2
      cases hb : l.bins[fit.bin]? with
      | none => simp [hb] at f2
      | some b =>
        rw [hb] at f2
        exact mem_flatten.mpr ⟨b, mem_of_getElem? hb, f2⟩
    obtain ⟨t1, t2, t3⟩ := takeFit_laid hd8 h16 hl.nbins hl.laid hm f1
    have ha := takeFit_aligned hfit' l.bins
    simp only [hfit] at h
    obtain ⟨rfl, rfl, rfl⟩ := h
    have hlt : (takeFit cfg fit l.bins).1.1 + (takeFit cfg fit l.bins).1.2 ≤ word := by
      obtain ⟨e, he, hw⟩ := t1.inside _ mem_cons_self
      have he5 := (hc.mem (mem_append_left _ he)).le_word
      unfold Within interior arenaOverhead at hw
      omega
    obtain ⟨v1, v2, v3⟩ := carve_laid cfg hd8 t2 u1 h16 hlt t3 t1 fun hno =>
      absurd (.inr ((trunc_eq_iff _ _).mpr ha)) hno
    obtain ⟨w1, w2, w3⟩ := hfinish l c _ hc rfl v1 v2 v3
    exact ⟨w1, w2, by simp, by simpa using ⟨_, _, w3⟩⟩
  | none =>
    simp only [hfit] at h
    cases hadd : addmem cfg c l (alignUnitSize al n) (!decide (n < cfg.binSize 8)) with
    | mk o1 r =>
      obtain ⟨c1, l1⟩ := r
      cases o1 with
      | none =>
        obtain ⟨rfl, rfl⟩ := addmem_none hadd
        simp only [hadd] at h
        obtain ⟨rfl, rfl, rfl⟩ := h
        exact ⟨hl, hc, fun _ => rfl, by simp⟩
      | some d =>
        obtain ⟨e, hm, rfl, rfl⟩ := addmem_some hadd
        obtain ⟨b1, b2⟩ := arenaBytes_spec cfg hal h8 hle hn
        have hamt := (alignUnitSize_spec hal h8 hle hn).1
        have hov : arenaOverhead = 24 := rfl
        obtain ⟨hmap, hsize⟩ := hc.morecore b1 (by omega) hm
        have hc1 : Mapped c1 ((l.arenas ++ [e]) ++ Y) := hmap.permX (by simp)
        have hreg := hmap.mem mem_cons_self
        have hlaid := hl.laid.addArena hmap (by omega)
        simp only [hadd, Prod.mk.injEq] at h
        obtain ⟨rfl, rfl, rfl⟩ := h
        have hN : unitSize n ≤ (interior e).2 := by
          unfold interior
          omega
        by_cases hs : n < cfg.binSize 8
        · have hw : (interior e).1 + (interior e).2 ≤ word := by
            have := hreg.le_word
            unfold interior
            omega
          have he8 : 8 ∣ e.2 := (by decide : 8 ∣ psiz).trans hreg.size_dvd
          obtain ⟨v1, v2, v3⟩ := carve_laid cfg hd8 hN u1 h16 hw hl.nbins hlaid
            fun hno hover => arena_front hal h8 hreg.start_dvd he8 u1 (by omega)
              (fun he => hno (.inl he)) hover
          obtain ⟨w1, w2, w3⟩ := hfinish { l with arenas := l.arenas ++ [e] } c1 _ hc1 rfl v1 v2 v3
          rw [if_pos hs]
          exact ⟨w1, w2, by simp, by simpa using ⟨_, _, w3⟩⟩
        obtain ⟨w1, w2, w3⟩ := hfinish { l with arenas := l.arenas ++ [e] } c1
          (interior e, l.bins) hc1 rfl hlaid hN hl.nbins
        rw [if_neg hs]
        exact ⟨w1, w2, by simp, by simpa using ⟨_, _, w3⟩⟩

theorem joinNext_laid {A B : List Extent} (l : Lists) (this : Extent) (hA : Apart A)
    (h : Laid A (this :: ((l.bins.flatten.filter fun c => c.1 ≠ this.1) ++ B))) :
    let r := joinNext l this
    r.1.1 = this.1 ∧ this.2 ≤ r.1.2 ∧ r.2.length = l.bins.length ∧
    (∃ p : Extent → Bool, r.2.flatten = l.bins.flatten.filter p ∧ ∀ c, c.1 = this.1 → p c = true) ∧
    Laid A (r.1 :: ((r.2.flatten.filter fun c => c.1 ≠ this.1) ++ B)) := by
  unfold joinNext
  cases hf : l.freeAt (this.1 + this.2) with
  | none => exact ⟨rfl, le_rfl, rfl, ⟨fun _ => true, (filter_eq_self.mpr fun _ _ => rfl).symm,
      fun _ _ => rfl⟩, h⟩
  | some next =>
    have hm := mem_of_find?_eq_some hf
    have hs : next.1 = this.1 + this.2 := by simpa using find?_some hf
    have hpos := h.pos mem_cons_self
    have hmf : next ∈ l.bins.flatten.filter fun c => decide (c.1 ≠ this.1) :=
      mem_filter.mpr ⟨hm, by simp only [decide_eq_true_eq]; omega⟩
    -- bring the next chunk to the front
    have hapF := (apart_append.mp h.tail.apart).1
    have hposF : ∀ f ∈ l.bins.flatten.filter fun c => decide (c.1 ≠ this.1), 0 < f.2 :=
      fun f hf => h.pos (mem_cons_of_mem _ (mem_append_left _ hf))
    have hp := perm_filter hapF hposF hmf
    have hl2 := h.perm (Perm.cons this (hp.append_right B))
    have hcomm : (dequeueBin next.1 l.bins).flatten.filter (fun c => decide (c.1 ≠ this.1)) =
        (l.bins.flatten.filter fun c => decide (c.1 ≠ this.1)).filter
          fun d => decide (d.1 ≠ next.1) := by
      rw [dequeueBin_flatten, filter_filter, filter_filter]
      exact filter_congr fun c _ => Bool.and_comm _ _
    refine ⟨rfl, Nat.le_add_right _ _, by simp, ⟨_, dequeueBin_flatten _, fun c hc => ?_⟩, ?_⟩
    · simp only [decide_eq_true_eq]
      omega
    · rw [hcomm]
      exact hl2.merge hA hs.symm

theorem wholeArena_spec {this e : Extent} (h : l.wholeArena this = some e) :
    e ∈ l.arenas ∧ interior e = this := by
  have hp := find?_some h
  simp only [decide_eq_true_eq] at hp
  refine ⟨mem_of_find?_eq_some h, Prod.ext hp.1 ?_⟩
  unfold interior arenaOverhead
  omega

theorem putBack_ok (cfg : Config) {this : Extent} {bins : List (List Extent)} (hb : bins.length = 9)
    (hc : Mapped c (l.arenas ++ Y)) (h : Laid l.arenas (this :: (bins.flatten ++ l.busy))) :
    match l.wholeArena this with
    | some e => ListsOk (delmem cfg c { l with bins := bins } e).2 ∧
        Mapped (delmem cfg c { l with bins := bins } e).1
          ((delmem cfg c { l with bins := bins } e).2.arenas ++ Y)
    | none => ∀ bins', bins'.length = 9 → bins'.flatten ~ this :: bins.flatten →
        ListsOk { l with bins := bins' } := by
  cases hw : l.wholeArena this with
  | some e =>
    obtain ⟨he, hi⟩ := wholeArena_spec hw
    refine ⟨⟨hb, h.eraseArena hi⟩, ?_⟩
    exact (hc.permX ((perm_cons_erase he).symm.append_right Y)).donecore
  | none => exact fun bins' hb' hp => ⟨hb', h.perm ((hp.symm.append_right _))⟩

theorem ListsOk.laid_busy {d : Extent} (hl : ListsOk l) (hc : Mapped c (l.arenas ++ Y))
    (hd : d ∈ l.busy) :
    Apart l.arenas ∧ Laid l.arenas (d :: (l.bins.flatten ++ l.busy.erase d)) :=
  ⟨(apart_append.mp (apart_append.mp hc.apart).2.1).1,
    hl.laid.perm (((perm_cons_erase hd).append_left _).trans perm_middle)⟩

theorem filter_of_busy {A B : List Extent} {d : Extent} (h : Laid A (d :: (l.bins.flatten ++ B))) :
    l.bins.flatten.filter (fun c => decide (c.1 ≠ d.1)) = l.bins.flatten := by
  refine Apart.filter_ne (e := d) ?_ fun f hf => ?_
  · exact (apart_append.mp (show Apart (d :: l.bins.flatten ++ B) from h.apart)).1
  · exact h.pos (mem_cons.mpr ((mem_cons.mp hf).imp_right fun hf => mem_append_left _ hf))

theorem filter_of_join {bins : List (List Extent)} {q : Extent → Bool} {a : Nat}
    (hno : l.bins.flatten.filter (fun c => decide (c.1 ≠ a)) = l.bins.flatten)
    (hq : bins.flatten = l.bins.flatten.filter q) :
    bins.flatten.filter (fun c => decide (c.1 ≠ a)) = bins.flatten := by
  rw [hq, filter_filter]
  refine filter_congr fun c hc => ?_
  rw [← hno] at hc
  rw [(mem_filter.mp hc).2, Bool.true_and]

theorem listRelease_ok (cfg : Config) {d : Extent} (hl : ListsOk l) (hc : Mapped c (l.arenas ++ Y))
    (hd : d ∈ l.busy) :
    let r := listRelease cfg c l d
    ListsOk r.2 ∧ Mapped r.1 (r.2.arenas ++ Y) ∧ r.2.busy = l.busy.erase d := by
  obtain ⟨hA, hlaid⟩ := hl.laid_busy hc hd
  have hapB := (apart_append.mp hlaid.tail.apart).1
  have hposB : ∀ f ∈ l.bins.flatten, 0 < f.2 := fun f hf =>
    hlaid.pos (mem_cons_of_mem _ (mem_append_left _ hf))
  unfold listRelease
  generalize hl0 : ({ l with busy := l.busy.erase d } : Lists) = l0
  have e1 : l0.bins = l.bins := by rw [← hl0]
  have e2 : l0.busy = l.busy.erase d := by rw [← hl0]
  have e3 : l0.arenas = l.arenas := by rw [← hl0]
  dsimp only
  rw [← e1, ← e2, ← e3] at hlaid
  rw [← e1] at hapB hposB
  rw [← e3] at hA hc
  have hnb : l0.bins.length = 9 := e1 ▸ hl.nbins
  rw [← e2]
  cases hbf : l0.freeBefore d.1 with
  | some prev =>
    have hm := mem_of_find?_eq_some hbf
    have hs : prev.1 + prev.2 = d.1 := by simpa using find?_some hbf
    have hp := perm_filter hapB hposB hm
    have hmerge := (hlaid.perm ((hp.append_right l0.busy).cons d |>.trans (.swap ..))).merge hA hs
    obtain ⟨j1, j2, j3, ⟨q, j4, j5⟩, j6⟩ := joinNext_laid l0 _ hA hmerge
    dsimp only
    generalize joinNext l0 (prev.1, prev.2 + d.2) = r at *
    obtain ⟨this, bins⟩ := r
    rw [← j1, ← dequeueBin_flatten] at j6
    have hput := putBack_ok cfg (by simpa using j3.trans hnb) hc j6
    cases hw : l0.wholeArena this with
    | some e =>
      simp only [hw] at hput
      exact ⟨hput.1, hput.2, rfl⟩
    | none =>
      simp only [hw] at hput ⊢
      split
      · refine ⟨hput _ (by simpa using j3.trans hnb) ?_, hc, rfl⟩
        have hpb : prev ∈ bins.flatten := by
          rw [j4]
          exact mem_filter.mpr ⟨hm, j5 prev rfl⟩
        have hap : Apart bins.flatten := j4 ▸ Pairwise.filter q hapB
        have hpos : ∀ f ∈ bins.flatten, 0 < f.2 := fun f hf =>
          hposB f (mem_filter.mp (j4 ▸ hf)).1
        have := setSize_flatten hap hpos hpb this.2
        rw [← j1] at this
        rw [dequeueBin_flatten]
        exact this
      · exact ⟨hput _ (by simpa using j3.trans hnb)
          (enqueueBin_flatten cfg (by simpa using j3.trans hnb) _), hc, rfl⟩
  | none =>
    have hno := filter_of_busy hlaid
    obtain ⟨j1, j2, j3, ⟨q, j4, j5⟩, j6⟩ := joinNext_laid (B := l0.busy) l0 d hA
      (by rw [hno]; exact hlaid)
    generalize joinNext l0 d = r at *
    obtain ⟨this, bins⟩ := r
    rw [filter_of_join hno j4] at j6
    have hput := putBack_ok cfg (j3.trans hnb) hc j6
    cases hw : l0.wholeArena this with
    | some e =>
      simp only [hw] at hput
      exact ⟨hput.1, hput.2, rfl⟩
    | none =>
      simp only [hw] at hput
      exact ⟨hput _ (by simpa using j3.trans hnb) (enqueueBin_flatten cfg (j3.trans hnb) _), hc, rfl⟩

theorem listResize_ok {d : Extent} {n : Nat} (hn0 : 0 < n) (hl : ListsOk l)
    (hc : Mapped c (l.arenas ++ Y)) (hd : d ∈ l.busy) (h : listResize cfg l d n = some l') :
    ListsOk l' ∧ l'.arenas = l.arenas ∧
      ∃ d', l'.busy = d' :: l.busy.erase d ∧ d'.1 = d.1 ∧ n + 8 ≤ d'.2 := by
  obtain ⟨hA, hlaid⟩ := hl.laid_busy hc hd
  have hno := filter_of_busy hlaid
  obtain ⟨j1, j2, j3, ⟨q, j4, j5⟩, j6⟩ := joinNext_laid l d hA (by rw [hno]; exact hlaid)
  unfold listResize at h
  dsimp only at h
  split at h
  · cases h
  obtain ⟨u1, u2, u3⟩ := unitSize_spec (n := n) (by omega)
  generalize joinNext l d = r at *
  obtain ⟨grown, bins⟩ := r
  dsimp only at j1 j6 h
  rw [filter_of_join hno j4] at j6
  have hbins : bins.length = 9 := j3.trans hl.nbins
  split at h
  · cases h
  obtain ⟨s1, s2, s3⟩ := j6.shaped grown mem_cons_self
  have hmin : minFsize = 16 := rfl
  have hmf := minFree_ge cfg
  split at h
  · cases h
    refine ⟨⟨by simpa using hbins, ?_⟩, rfl, (d.1, unitSize n), rfl, rfl, u2⟩
    refine (j6.split d.1 (unitSize n) (d.1 + unitSize n) (grown.2 - unitSize n) (by omega) (by omega)
      (by omega) (by omega)).perm ?_
    refine (Perm.cons _ ((enqueueBin_flatten cfg hbins _).symm.append_right _)).trans ?_
    exact perm_middle.symm
  · cases h
    exact ⟨⟨hbins, j6.perm perm_middle.symm⟩, rfl, grown, rfl, j1, by omega⟩

end Ops

end Qnx.Alloc
