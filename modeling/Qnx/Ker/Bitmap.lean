import Mathlib.Data.BitVec

/-!
# The three-level priority bitmap

`hi`, `mid[]` and `lo[][]` of `DISPATCH`, for `NUM_PRI = 256`, with the macros
`DISPATCH_SET`, `DISPATCH_CLR`, `DISPATCH_ISSET` and `DISPATCH_HIGHEST_PRI`.
-/

namespace Qnx.Ker

open Function

structure Bitmap where
  hi : BitVec 8
  mid : Nat → BitVec 8
  lo : Nat → Nat → BitVec 8

/-- The table `byte_log2`: index of the highest bit, with `byte_log2[0] = 0`. -/
def byteLog2 (b : BitVec 8) : Nat := b.toNat.log2

def setBit (b : BitVec 8) (i : Nat) : BitVec 8 := b ||| (1#8 <<< i)

def clrBit (b : BitVec 8) (i : Nat) : BitVec 8 := b &&& ~~~(1#8 <<< i)

namespace Bitmap

def highestPri (b : Bitmap) : Nat :=
  let hi := byteLog2 b.hi
  let mid := byteLog2 (b.mid hi)
  let lo := byteLog2 (b.lo hi mid)
  (hi <<< 6) ||| (mid <<< 3) ||| lo

def isSet (b : Bitmap) (p : Nat) : Bool :=
  (b.lo (p >>> 6) ((p >>> 3) &&& 7)).getLsbD (p &&& 7)

def setLo (b : Bitmap) (hi mid : Nat) (v : BitVec 8) : Bitmap :=
  { b with lo := update b.lo hi (update (b.lo hi) mid v) }

def setMid (b : Bitmap) (hi : Nat) (v : BitVec 8) : Bitmap :=
  { b with mid := update b.mid hi v }

def set (b : Bitmap) (p : Nat) : Bitmap :=
  let hi := p >>> 6
  let mid := (p >>> 3) &&& 7
  let b := { b with hi := setBit b.hi hi }
  let b := b.setMid hi (setBit (b.mid hi) mid)
  b.setLo hi mid (setBit (b.lo hi mid) (p &&& 7))

/-- `DISPATCH_CLR`: a summary bit goes only with the last bit below it. -/
def clr (b : Bitmap) (p : Nat) : Bitmap :=
  let hi := p >>> 6
  let mid := (p >>> 3) &&& 7
  let lo := clrBit (b.lo hi mid) (p &&& 7)
  let b := b.setLo hi mid lo
  if lo = 0#8 then
    let md := clrBit (b.mid hi) mid
    let b := b.setMid hi md
    if md = 0#8 then { b with hi := clrBit b.hi hi } else b
  else b

structure Summary (b : Bitmap) : Prop where
  mid : ∀ h m, (b.mid h).getLsbD m = true ↔ b.lo h m ≠ 0#8
  hi : ∀ h, b.hi.getLsbD h = true ↔ b.mid h ≠ 0#8

def zero : Bitmap := ⟨0, fun _ => 0, fun _ _ => 0⟩

theorem summary_zero : zero.Summary := ⟨fun _ _ => by simp [zero], fun _ => by simp [zero]⟩

@[simp] theorem isSet_zero (p : Nat) : zero.isSet p = false := by simp [zero, isSet]

theorem ne_zero_iff_getLsbD (v : BitVec 8) : v ≠ 0#8 ↔ ∃ i, v.getLsbD i = true := by
  constructor
  · intro h
    by_contra hn
    push Not at hn
    exact h (BitVec.eq_of_getLsbD_eq fun i _ => by simpa using hn i)
  · rintro ⟨i, hi⟩ rfl
    simp at hi

theorem getLsbD_setBit (v : BitVec 8) {i : Nat} (hi : i < 8) (j : Nat) :
    (setBit v i).getLsbD j = true ↔ j = i ∨ v.getLsbD j = true := by
  simp only [setBit, BitVec.getLsbD_or, BitVec.getLsbD_shiftLeft, BitVec.getLsbD_one, Bool.or_eq_true,
    Bool.and_eq_true, Bool.not_eq_true', decide_eq_false_iff_not, decide_eq_true_eq]
  constructor
  · rintro (h | h)
    · exact .inr h
    · exact .inl (by omega)
  · rintro (rfl | h)
    · exact .inr (by omega)
    · exact .inl h

theorem getLsbD_clrBit (v : BitVec 8) (i j : Nat) :
    (clrBit v i).getLsbD j = true ↔ j ≠ i ∧ v.getLsbD j = true := by
  simp only [clrBit, BitVec.getLsbD_and, BitVec.getLsbD_not, Bool.and_eq_true, decide_eq_true_eq]
  constructor
  · rintro ⟨h, hj, h'⟩
    exact ⟨by simp at h'; omega, h⟩
  · rintro ⟨hj, h⟩
    have := BitVec.lt_of_getLsbD h
    exact ⟨h, this, by simp; omega⟩

theorem byteLog2_spec {b : BitVec 8} {i : Nat} (h : b.getLsbD i = true) :
    b.getLsbD (byteLog2 b) = true ∧ i ≤ byteLog2 b ∧ byteLog2 b < 8 := by
  have hne : b.toNat ≠ 0 := by
    intro h0
    rw [BitVec.eq_of_toNat_eq (x := b) (y := 0#8) (by simpa using h0)] at h
    simp at h
  have hge := Nat.ge_two_pow_of_testBit (i := i) h
  exact ⟨Nat.testBit_log2 hne, (Nat.le_log2 hne).mpr hge, (Nat.log2_lt hne).mpr b.isLt⟩

theorem and_seven (n : Nat) : n &&& 7 = n % 8 := Nat.and_two_pow_sub_one_eq_mod n 3

section

variable (b : Bitmap)
include b

theorem isSet_iff (p : Nat) : b.isSet p = (b.lo (p / 64) (p / 8 % 8)).getLsbD (p % 8) := by
  simp only [isSet, Nat.shiftRight_eq_div_pow, and_seven]

theorem set_eq (p : Nat) : b.set p =
    { hi := setBit b.hi (p / 64),
      mid := update b.mid (p / 64) (setBit (b.mid (p / 64)) (p / 8 % 8)),
      lo := update b.lo (p / 64) (update (b.lo (p / 64)) (p / 8 % 8)
        (setBit (b.lo (p / 64) (p / 8 % 8)) (p % 8))) } := by
  simp only [set, setMid, setLo, Nat.shiftRight_eq_div_pow, and_seven]

theorem lo_set (p h m i : Nat) : ((b.set p).lo h m).getLsbD i = true ↔
      (h = p / 64 ∧ m = p / 8 % 8 ∧ i = p % 8) ∨ (b.lo h m).getLsbD i = true := by
  rw [set_eq]
  by_cases hh : h = p / 64
  · subst hh
    by_cases hm : m = p / 8 % 8
    · subst hm
      simp [getLsbD_setBit _ (Nat.mod_lt p (by omega : 0 < 8))]
    · simp [hm]
  · simp [hh]

theorem isSet_set (p q : Nat) : (b.set p).isSet q = true ↔ q = p ∨ b.isSet q = true := by
  rw [isSet_iff, isSet_iff, lo_set]
  constructor
  · rintro (⟨h, m, i⟩ | h)
    · exact .inl (by omega)
    · exact .inr h
  · rintro (rfl | h)
    · exact .inl ⟨rfl, rfl, rfl⟩
    · exact .inr h

theorem lo_clr (p h m i : Nat) : ((b.clr p).lo h m).getLsbD i = true ↔
      ¬ (h = p / 64 ∧ m = p / 8 % 8 ∧ i = p % 8) ∧ (b.lo h m).getLsbD i = true := by
  have hlo : (b.clr p).lo = update b.lo (p / 64) (update (b.lo (p / 64))
      (p / 8 % 8) (clrBit (b.lo (p / 64) (p / 8 % 8)) (p % 8))) := by
    simp only [clr, Nat.shiftRight_eq_div_pow, and_seven]
    split <;> [split; skip] <;> rfl
  rw [hlo]
  by_cases hh : h = p / 64
  · subst hh
    by_cases hm : m = p / 8 % 8
    · subst hm
      simp [getLsbD_clrBit]
    · simp [hm]
  · simp [hh]

theorem isSet_clr (p q : Nat) : (b.clr p).isSet q = true ↔ q ≠ p ∧ b.isSet q = true := by
  rw [isSet_iff, isSet_iff, lo_clr]
  refine and_congr_left fun _ => not_congr ⟨?_, ?_⟩
  · omega
  · rintro rfl
    exact ⟨rfl, rfl, rfl⟩

theorem mid_clr (p h m : Nat) : ((b.clr p).mid h).getLsbD m = true ↔
      ¬ (h = p / 64 ∧ m = p / 8 % 8 ∧ (b.clr p).lo h m = 0#8) ∧ (b.mid h).getLsbD m = true := by
  simp only [clr, setMid, setLo, Nat.shiftRight_eq_div_pow, and_seven]
  by_cases hh : h = p / 64
  · subst hh
    by_cases hlo : clrBit (b.lo (p / 64) (p / 8 % 8)) (p % 8) = 0#8
    · simp only [hlo, if_true]
      by_cases hm : m = p / 8 % 8
      · subst hm
        split <;> simp [getLsbD_clrBit]
      · split <;> simp [getLsbD_clrBit, hm]
    simp only [hlo]
    by_cases hm : m = p / 8 % 8
    · subst hm
      simp [hlo]
    · simp [hm]
  by_cases hlo : clrBit (b.lo (p / 64) (p / 8 % 8)) (p % 8) = 0#8
  · simp only [hlo, if_true]
    split <;> simp [hh]
  · simp [hlo, hh]

theorem hi_clr (p h : Nat) : (b.clr p).hi.getLsbD h = true ↔
      ¬ (h = p / 64 ∧ (b.clr p).lo h (p / 8 % 8) = 0#8 ∧ (b.clr p).mid h = 0#8) ∧
        b.hi.getLsbD h = true := by
  simp only [clr, setMid, setLo, Nat.shiftRight_eq_div_pow, and_seven]
  by_cases hlo : clrBit (b.lo (p / 64) (p / 8 % 8)) (p % 8) = 0#8
  · simp only [hlo]
    by_cases hmd : clrBit (b.mid (p / 64)) (p / 8 % 8) = 0#8
    · simp only [hmd, if_true, getLsbD_clrBit]
      by_cases hh : h = p / 64
      · subst hh
        simp
      · simp [hh]
    simp only [hmd]
    by_cases hh : h = p / 64
    · subst hh
      simp [hmd]
    · simp [hh]
  simp only [hlo]
  by_cases hh : h = p / 64
  · subst hh
    simp [hlo]
  · simp [hh]

end

theorem Summary.set {b : Bitmap} (hb : b.Summary) {p : Nat} (hp : p < 512) : (b.set p).Summary := by
  constructor
  · intro h m
    rw [ne_zero_iff_getLsbD]
    simp only [lo_set, exists_or]
    rw [← ne_zero_iff_getLsbD, ← hb.mid, set_eq]
    by_cases hh : h = p / 64
    · subst hh
      simp [getLsbD_setBit _ (Nat.mod_lt _ (by omega : 0 < 8))]
    · simp [hh]
  · intro h
    have hm : (b.set p).mid h ≠ 0#8 ↔ h = p / 64 ∨ b.mid h ≠ 0#8 := by
      rw [set_eq]
      by_cases hh : h = p / 64
      · subst hh
        simp only [update_self, true_or, iff_true]
        rw [ne_zero_iff_getLsbD]
        exact ⟨p / 8 % 8, (getLsbD_setBit _ (by omega) _).mpr (.inl rfl)⟩
      · simp [hh]
    rw [hm, ← hb.hi, set_eq]
    exact getLsbD_setBit _ (by omega) h

theorem Summary.clr {b : Bitmap} (hb : b.Summary) (p : Nat) : (b.clr p).Summary := by
  have lo_ne : ∀ h m, ¬ (h = p / 64 ∧ m = p / 8 % 8) → (b.clr p).lo h m = b.lo h m := by
    intro h m hne
    apply BitVec.eq_of_getLsbD_eq
    intro i _
    rw [Bool.eq_iff_iff, lo_clr]
    tauto
  have lo_le : ∀ h m, (b.clr p).lo h m ≠ 0#8 → b.lo h m ≠ 0#8 := by
    intro h m
    rw [ne_zero_iff_getLsbD, ne_zero_iff_getLsbD]
    rintro ⟨i, hi⟩
    exact ⟨i, ((lo_clr b p h m i).mp hi).2⟩
  constructor
  · intro h m
    rw [mid_clr, hb.mid]
    constructor
    · rintro ⟨hn, hl⟩ h0
      by_cases hc : h = p / 64 ∧ m = p / 8 % 8
      · exact hn ⟨hc.1, hc.2, h0⟩
      · exact hl ((lo_ne h m hc).symm.trans h0)
    · intro hl
      exact ⟨fun hc => hl hc.2.2, lo_le h m hl⟩
  · intro h
    rw [hi_clr, hb.hi]
    constructor
    · rintro ⟨hn, hm⟩ h0
      have hmid : (b.clr p).mid h = b.mid h ∨ h = p / 64 ∧ (b.clr p).lo h (p / 8 % 8) = 0#8 := by
        by_contra hcon
        push Not at hcon
        apply hcon.1
        apply BitVec.eq_of_getLsbD_eq
        intro m _
        rw [Bool.eq_iff_iff, mid_clr]
        constructor
        · exact fun hx => hx.2
        · rintro hx
          refine ⟨?_, hx⟩
          rintro ⟨h1, rfl, h3⟩
          exact hcon.2 h1 h3
      rcases hmid with he | ⟨h1, h2⟩
      · exact hm (he.symm.trans h0)
      · exact hn ⟨h1, h2, h0⟩
    · intro hm
      refine ⟨fun hc => hm hc.2.2, ?_⟩
      rw [ne_zero_iff_getLsbD] at hm ⊢
      obtain ⟨m, hm⟩ := hm
      exact ⟨m, ((mid_clr b p h m).mp hm).2⟩

theorem highestPri_spec {b : Bitmap} (hb : b.Summary) {p : Nat} (hp : b.isSet p = true) :
    b.isSet b.highestPri = true ∧ p ≤ b.highestPri := by
  rw [isSet_iff] at hp
  have hlo := (ne_zero_iff_getLsbD _).mpr ⟨_, hp⟩
  have hmid := (hb.mid _ _).mpr hlo
  have hhi := (hb.hi (p / 64)).mpr ((ne_zero_iff_getLsbD _).mpr ⟨_, hmid⟩)
  obtain ⟨hh, hle, hlt⟩ := byteLog2_spec hhi
  obtain ⟨m, hm⟩ := (ne_zero_iff_getLsbD _).mp ((hb.hi _).mp hh)
  obtain ⟨hm', _, mlt⟩ := byteLog2_spec hm
  obtain ⟨l, hl⟩ := (ne_zero_iff_getLsbD _).mp ((hb.mid _ _).mp hm')
  obtain ⟨hl', _, llt⟩ := byteLog2_spec hl
  have hval : b.highestPri = byteLog2 b.hi * 64 + byteLog2 (b.mid (byteLog2 b.hi)) * 8 +
      byteLog2 (b.lo (byteLog2 b.hi) (byteLog2 (b.mid (byteLog2 b.hi)))) := by
    have e : ∀ a m l : Nat, m < 8 → l < 8 → (a <<< 6) ||| (m <<< 3) ||| l = a * 64 + m * 8 + l := by
      intro a m l hm hl
      have h1 : a <<< 6 ||| m <<< 3 = (a * 8 + m) <<< 3 := by
        rw [show a <<< 6 = (a <<< 3) <<< 3 from by rw [← Nat.shiftLeft_add], ← Nat.shiftLeft_or_distrib,
          ← Nat.shiftLeft_add_eq_or_of_lt (by simpa using hm)]
        simp [Nat.shiftLeft_eq]
      rw [h1, ← Nat.shiftLeft_add_eq_or_of_lt (by simpa using hl)]
      omega
    exact e _ _ _ mlt llt
  set H := byteLog2 b.hi with hH
  set M := byteLog2 (b.mid H) with hM
  set W := byteLog2 (b.lo H M) with hW
  have e1 : b.highestPri / 64 = H := by omega
  have e2 : b.highestPri / 8 % 8 = M := by omega
  have e3 : b.highestPri % 8 = W := by omega
  refine ⟨by rw [isSet_iff, e1, e2, e3]; exact hl', ?_⟩
  by_cases hH' : p / 64 = H
  · have hmp : p / 8 % 8 ≤ M := by
      rw [hH'] at hmid
      exact (byteLog2_spec hmid).2.1
    by_cases hM' : p / 8 % 8 = M
    · have hlp : p % 8 ≤ W := by
        rw [hH', hM'] at hp
        exact (byteLog2_spec hp).2.1
      omega
    · omega
  · omega

end Bitmap

end Qnx.Ker
