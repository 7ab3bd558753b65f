import Qnx.Alloc.BandOps

/-!
# Aligned elements of a new block

`_band_get_aligned` adds a block and starts again when no free element has the alignment. What a
block hands out lies at multiples of `esize` behind the header of its arena element, so an element
of a new block has the alignment, a multiple of `esize`, only where that header ends at one.
-/

namespace Qnx.Alloc

open Extents List Option

variable {cfg : Config} {c : Core} {m : Small} {i n al e : Nat}

theorem esize_dvd_rem (hn : n < 2 ^ 15) : esize n ∣ 32 + bandRem n := by
  obtain ⟨h1, h2, -⟩ := roundUp_spec (n := 32) (m := esize n) (by unfold esize; omega)
    (by unfold esize word; omega)
  unfold bandRem
  rwa [Nat.add_sub_cancel' h2]

theorem exists_dvd_add {q : Nat} (hq : 0 < q) (t : Nat) : ∃ j < q, q ∣ t + j := by
  have hmod := Nat.mod_lt t hq
  refine ⟨(q - t % q) % q, Nat.mod_lt _ hq, Nat.dvd_of_mod_eq_zero ?_⟩
  rw [Nat.add_mod_mod, Nat.add_mod]
  by_cases h0 : t % q = 0
  · rw [h0, Nat.sub_zero, Nat.mod_self, Nat.zero_mod]
  · rw [Nat.mod_eq_of_lt (by omega : q - t % q < q), Nat.add_sub_cancel' hmod.le, Nat.mod_self]

theorem exists_aligned_iff (hn : n < 2 ^ 15) (hal : 0 < al) (hd : esize n ∣ al)
    (hq : al / esize n ≤ cfg.nalloc n) :
    (∃ x ∈ nodesOf cfg n (blockAddr n e), al ∣ x + 4) ↔ esize n ∣ e + 32 := by
  have hrem := esize_dvd_rem hn
  have haddr : ∀ j, blockAddr n e + 28 + j * esize n + 4 = e + 32 + (32 + bandRem n) +
      esize n * j := by
    intro j
    unfold blockAddr
    rw [Nat.mul_comm]
    omega
  constructor
  · rintro ⟨x, hx, ha⟩
    obtain ⟨j, -, rfl⟩ := mem_nodesOf.mp hx
    have h := hd.trans ha
    rw [haddr, Nat.dvd_add_left (Nat.dvd_mul_right _ j), Nat.dvd_add_left hrem] at h
    exact h
  · intro h
    obtain ⟨t, ht⟩ := Nat.dvd_add h hrem
    obtain ⟨q, rfl⟩ := hd
    rw [Nat.mul_div_cancel_left q (Nat.pos_of_mul_pos_right hal)] at hq
    -- `q` nodes further the address is aligned again
    obtain ⟨j, hj, hdvd⟩ := exists_dvd_add (Nat.pos_of_mul_pos_left hal) t
    refine ⟨_, mem_nodesOf.mpr ⟨j, hj.trans_le hq, rfl⟩, ?_⟩
    rw [haddr, ht, ← Nat.mul_add]
    exact Nat.mul_dvd_mul_left _ hdvd

theorem bandFind_newBlock (i arena : Nat) (blocks : List Block) (hpos : 0 < cfg.nalloc n)
    (h : al = 8 ∨ ∃ x ∈ nodesOf cfg n (blockAddr n e), al ∣ x + 4) :
    ∃ r, bandFind al (newBlock cfg i n e arena :: blocks) = .ok (some r) := by
  have hhead : (newBlock cfg i n e arena).head = nodesOf cfg n (blockAddr n e) := rfl
  unfold bandFind
  split
  · rename_i h8
    obtain ⟨x, hx, ha⟩ := h.resolve_left h8
    obtain ⟨y, hy⟩ := isSome_iff_exists.mp (find?_isSome.mpr
      ⟨x, hx, decide_eq_true ((trunc_eq_iff (x + 4) al).mpr ha)⟩ : ((nodesOf cfg n
        (blockAddr n e)).find? fun x => trunc (x + 4) al = x + 4).isSome)
    rw [findSome?_cons, hhead, hy]
    exact ⟨_, rfl⟩
  dsimp only
  rw [← nodesOf_length cfg n (blockAddr n e)] at hpos
  rw [hhead]
  cases hl : nodesOf cfg n (blockAddr n e) with
  | nil =>
    rw [hl] at hpos
    cases hpos
  | cons x xs => exact ⟨_, rfl⟩

/-- The alignments for which `_band_get_aligned` does not return `EINVAL`. -/
def Accepted (cfg : Config) (n al : Nat) : Prop :=
  al = 8 ∨ 0 < al ∧ al / esize n ≤ cfg.nalloc n ∧ al / esize n * esize n = al

theorem newBlock_found_iff (arena : Nat) {blocks : List Block} (hn : n < 2 ^ 15)
    (hpos : 0 < cfg.nalloc n) (hal : Accepted cfg n al) (h : bandFind al blocks = .ok none) :
    (∃ r, bandFind al (newBlock cfg i n e arena :: blocks) = .ok (some r)) ↔
      al = 8 ∨ esize n ∣ e + 32 := by
  by_cases h8 : al = 8
  · exact iff_of_true (bandFind_newBlock i arena blocks hpos (.inl h8)) (.inl h8)
  obtain ⟨h0, hq, hmul⟩ := hal.resolve_left h8
  rw [or_iff_right h8, ← exists_aligned_iff hn h0 (hmul ▸ Nat.dvd_mul_left _ _) hq]
  constructor
  · rintro ⟨⟨b, x⟩, hr⟩
    obtain ⟨-, hx, ha⟩ := bandFind_spec hr
    obtain rfl : b = _ := bandFind_cons h hr
    exact ⟨x, hx, ha h8⟩
  · intro hx
    exact bandFind_newBlock i arena blocks hpos (.inr hx)

theorem getBarena_alist (cfg : Config) (c : Core) (m : Small) :
    (getBarena cfg c m).2.2.alist = m.alist := by
  unfold getBarena
  dsimp only
  split
  · split <;> rfl
  split
  · rfl
  · split <;> rfl

theorem bandGetAligned_one (hm : ∀ b ∈ m.alist, b.head ≠ []) :
    (∃ r, bandGetAligned cfg i n al 1 c m = .ok r) ↔
      bandFind al (m.alist.filter fun b => b.band = i) ≠ .ok none ∨
        ∀ x ∈ (getBarena cfg c m).1, ∃ r, bandFind al
          (newBlock cfg i n x.1 x.2 :: m.alist.filter fun b => b.band = i) = .ok (some r) := by
  obtain ⟨r, hr⟩ : ∃ r, bandFind al (m.alist.filter fun b => b.band = i) = .ok r :=
    bandFind_ok fun b hb => hm b (mem_of_mem_filter hb)
  unfold bandGetAligned
  dsimp only
  rw [hr]
  cases r with
  | some r =>
    obtain ⟨b, hb⟩ : ∃ b, (m.alist.filter fun b => b.band = i).head? = some b := by
      refine ne_none_iff_exists'.mp fun h => ?_
      have := (bandFind_spec hr).1
      rw [head?_eq_none_iff.mp h] at this
      cases this
    rw [hb]
    exact iff_of_true ⟨_, rfl⟩ (.inl (by simp))
  | none =>
    unfold bandAddblk
    have halist := getBarena_alist cfg c m
    generalize getBarena cfg c m = g at halist
    obtain ⟨o, c1, m1⟩ := g
    cases o with
    | none => exact iff_of_true ⟨_, rfl⟩ (.inr (by simp))
    | some x =>
      obtain ⟨e, arena⟩ := x
      have hfil : ((newBlock cfg i n e arena :: m1.alist).filter fun b => b.band = i) =
          newBlock cfg i n e arena :: m.alist.filter fun b => b.band = i := by
        rw [filter_cons_of_pos (by simp [newBlock]), show m1.alist = m.alist from halist]
      unfold bandGetAligned
      dsimp only
      rw [hfil]
      constructor
      · rintro ⟨r, h⟩
        refine .inr ?_
        rintro x ⟨⟩
        split at h
        · cases h
        · exact ⟨_, ‹_›⟩
        · cases h
      · intro h
        obtain ⟨r, hr'⟩ := h.resolve_left (by simp) _ rfl
        rw [hr']
        exact ⟨_, rfl⟩

theorem one_block_enough_iff (hn : n < 2 ^ 15) (hfit : 64 + bandRem n + esize n ≤ cfg.elemSize)
    (hal : Accepted cfg n al) (hm : ∀ b ∈ m.alist, b.head ≠ []) :
    (∃ r, bandGetAligned cfg i n al 1 c m = .ok r) ↔
      al = 8 ∨ bandFind al (m.alist.filter fun b => b.band = i) ≠ .ok none ∨
        ∀ x ∈ (getBarena cfg c m).1, esize n ∣ x.1 + 32 := by
  have hpos : 0 < cfg.nalloc n := Nat.div_pos (by omega) (by unfold esize; omega)
  rw [bandGetAligned_one hm]
  by_cases hr : bandFind al (m.alist.filter fun b => b.band = i) = .ok none
  · simp only [newBlock_found_iff _ hn hpos hal hr]
    by_cases h8 : al = 8 <;> simp [h8]
  · exact iff_of_true (.inl hr) (.inr (.inl hr))

theorem one_block_enough_iff_first :
    ∃ r, bandGetAligned Config.standard 1 24 32 1 ⟨[], some (8192, 2 ^ 20)⟩ ⟨[], [], [], [], []⟩ =
      .ok r :=
  (one_block_enough_iff (by decide) (by decide) (.inr (by decide)) (by simp)).mpr
    (.inr (.inr (by decide)))

theorem new_block_misses : Accepted Config.standard 16 24 ∧
    bandGetAligned Config.standard 0 16 24 1 ⟨[], some (8192, 2 ^ 20)⟩ ⟨[], [], [], [], []⟩ =
      .error .fuel :=
  ⟨.inr (by decide), by decide +kernel⟩

/-! ### One new block is enough -/

variable {Y : List Extent} {k : Nat}

theorem esize_of_dvd (hn : n ∈ cfg.bands) (hal : al = 2 ^ k) (hd : esize n ∣ al) :
    esize n ∣ 32 := by
  obtain ⟨j, -, hj⟩ := (Nat.dvd_prime_pow Nat.prime_two).mp (hal ▸ hd)
  obtain ⟨h8, hpos, -⟩ := cfg.bands_ok n hn
  have hle : esize n ≤ 32 := by
    refine (cfg.bands_power n hn).resolve_right fun hne => hne ?_
    rw [hj, Nat.log2_two_pow]
  have hcases : n = 8 ∨ n = 16 ∨ n = 24 := by
    unfold esize at hle
    omega
  rcases hcases with rfl | rfl | rfl
  · decide
  · have h3 : 3 ∣ 2 ^ j := hj ▸ (by decide : 3 ∣ esize 16)
    exact absurd (Nat.prime_three.dvd_of_dvd_pow h3) (by decide)
  · decide

def Fits (cfg : Config) (n al : Nat) : Prop :=
  al = 8 ∨ ∃ k, al = 2 ^ k ∧ esize n ∣ al ∧ al / esize n ≤ cfg.nalloc n

theorem Fits.exists_aligned {e : Nat} (hf : Fits cfg n al) (hn : n ∈ cfg.bands) (he : psiz ∣ e) :
    al = 8 ∨ ∃ x ∈ nodesOf cfg n (blockAddr n e), al ∣ x + 4 := by
  refine hf.imp_right ?_
  rintro ⟨k, hal, hd, hq⟩
  have h32 := esize_of_dvd hn hal hd
  refine (exists_aligned_iff (cfg.bands_ok n hn).2.2 (hal ▸ Nat.two_pow_pos k) hd hq).mpr ?_
  exact (Nat.dvd_add_right ((h32.trans (by decide : 32 ∣ psiz)).trans he)).mpr h32

theorem bandGetAligned_returns (h : SmallOk cfg [] m) (hc : Mapped c (m.arenas ++ Y))
    (hi : cfg.bands[i]? = some n) (hf : Fits cfg n al) :
    ∃ r, bandGetAligned cfg i n al 1 c m = .ok r := by
  refine (bandGetAligned_one fun b hb => (h.alist b hb).1).mpr (.inr ?_)
  rintro ⟨e, arena⟩ hx
  cases hb : bandAddblk cfg c m i n with
  | mk b q =>
    obtain ⟨c1, m1⟩ := q
    have hadd := hb
    unfold bandAddblk at hadd
    generalize getBarena cfg c m = g at hx hadd
    obtain ⟨o, c2, m2⟩ := g
    cases hx
    obtain ⟨rfl, rfl, rfl⟩ := hadd
    obtain ⟨a1, a2, -⟩ := bandAddblk_ok h hc hi hb
    have hn := mem_of_getElem? hi
    -- elements are whole pages of a region of whole pages
    have he : psiz ∣ e := by
      obtain ⟨a, har, -, j, -, hj⟩ := a1.place.arena _ mem_cons_self
      have hreg := (a2.mem (mem_append_left _ (mem_map_of_mem
        (f := fun a : BandArena => (a.addr, a.size)) har))).start_dvd
      have hnb : nbpeOf cfg (newBlock cfg i n e arena) = n := by
        unfold nbpeOf newBlock
        rw [getD_eq_getElem?_getD, hi, getD_some]
      unfold elemOf at hj
      rw [hnb, elem_blockAddr] at hj
      rw [hj]
      exact (Nat.dvd_add_right hreg).mpr (cfg.elem_ok.1.mul_left j)
    exact bandFind_newBlock i arena _ (nalloc_spec hn).1 (hf.exists_aligned hn he)

end Qnx.Alloc
