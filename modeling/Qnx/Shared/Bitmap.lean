import Mathlib.Data.List.Basic

/-!
# Bitmaps

Bytes of eight bits each, that grow with zeros.
-/

namespace Qnx.Bitmap

open List Bool

abbrev Byte := BitVec 8

def isSet (bits : List Byte) (m : Nat) : Bool := (bits[m / 8]?.getD 0).getLsbD (m % 8)

def mask (m : Nat) : Byte := 1#8 <<< (m % 8)

def set (bits : List Byte) (m : Nat) : List Byte := bits.modify (m / 8) (· ||| mask m)

def clear (bits : List Byte) (m : Nat) : List Byte := bits.modify (m / 8) (· &&& ~~~mask m)

def grow (bits : List Byte) (n : Nat) : List Byte := bits ++ replicate (n - bits.length) 0

/-- The first zero of a byte, looked for from bit `k` on. -/
def firstZero (b : Byte) : Nat → Nat → Nat
  | 0, k => k
  | fuel + 1, k => if b &&& (1#8 <<< k) ≠ 0 then firstZero b fuel (k + 1) else k

def firstFree : List Byte → Nat
  | [] => 0
  | b :: rest => if b ≠ 0xff#8 then firstZero b 8 0 else 8 + firstFree rest

variable {bits : List Byte} {b : Byte} {m k n : Nat}

theorem getLsbD_mask (m k : Nat) : (mask m).getLsbD k = decide (k = m % 8) := by
  unfold mask
  rw [BitVec.getLsbD_shiftLeft, BitVec.getLsbD_one]
  rw [Bool.eq_iff_iff]
  simp only [and_eq_true, decide_eq_true_eq, not_eq_true', decide_eq_false_iff_not]
  omega

theorem and_mask_ne_zero : b &&& mask m ≠ 0 ↔ b.getLsbD (m % 8) = true := by
  constructor
  · intro h
    by_contra hb
    refine h (BitVec.eq_of_getLsbD_eq fun i _ => ?_)
    rw [BitVec.getLsbD_and, getLsbD_mask]
    by_cases hi : i = m % 8
    · rw [hi, eq_false_iff.mpr hb]
      exact BitVec.getLsbD_zero.symm
    · rw [decide_eq_false hi, Bool.and_false]
      exact BitVec.getLsbD_zero.symm
  · intro hb h
    have := congrArg (BitVec.getLsbD · (m % 8)) h
    simp [getLsbD_mask, hb] at this

theorem isSet_modify (f : Byte → Byte) (hm : m / 8 < bits.length) :
    isSet (bits.modify (m / 8) f) k =
      if k / 8 = m / 8 then (f (bits.get ⟨m / 8, hm⟩)).getLsbD (k % 8) else isSet bits k := by
  unfold isSet
  rw [getElem?_modify]
  by_cases h : k / 8 = m / 8
  · rw [h, getElem?_eq_getElem hm]
    simp
  · simp [h, Ne.symm h]

section

variable (hm : m / 8 < bits.length)
include hm

theorem isSet_at (hk : k / 8 = m / 8) : isSet bits k = (bits.get ⟨m / 8, hm⟩).getLsbD (k % 8) := by
  unfold isSet
  rw [hk, getElem?_eq_getElem hm]
  rfl

theorem isSet_set : isSet (set bits m) k = (isSet bits k || decide (k = m)) := by
  unfold set
  rw [isSet_modify _ hm]
  split
  · rename_i hk
    rw [BitVec.getLsbD_or, getLsbD_mask, isSet_at hm hk]
    congr 1
    rw [decide_eq_decide]
    omega
  · rename_i hk
    rw [decide_eq_false (by rintro rfl; exact hk rfl), Bool.or_false]

theorem isSet_clear : isSet (clear bits m) k = (isSet bits k && decide (k ≠ m)) := by
  unfold clear
  rw [isSet_modify _ hm]
  split
  · rename_i hk
    rw [BitVec.getLsbD_and, BitVec.getLsbD_not, getLsbD_mask, isSet_at hm hk,
      decide_eq_true (Nat.mod_lt k (by decide)), Bool.true_and, ← decide_not]
    congr 1
    rw [decide_eq_decide]
    omega
  · rename_i hk
    rw [decide_eq_true (by rintro rfl; exact hk rfl), Bool.and_true]

end

theorem isSet_of_ge (hk : bits.length ≤ k / 8) : isSet bits k = false := by
  unfold isSet
  rw [getElem?_eq_none hk]
  exact BitVec.getLsbD_zero

theorem isSet_grow : isSet (grow bits n) k = isSet bits k := by
  by_cases hk : k / 8 < bits.length
  · unfold isSet grow
    rw [getElem?_append_left hk]
  rw [isSet_of_ge (Nat.not_lt.mp hk)]
  unfold isSet grow
  rw [getElem?_append_right (Nat.not_lt.mp hk), getElem?_replicate]
  split
  · exact BitVec.getLsbD_zero
  · exact BitVec.getLsbD_zero

theorem length_grow (h : bits.length ≤ n) : (grow bits n).length = n := by
  unfold grow
  rw [length_append, length_replicate, Nat.add_sub_cancel' h]

theorem isSet_of_zero (h : ∀ b ∈ bits, b = 0) : isSet bits k = false := by
  by_cases hk : k / 8 < bits.length
  · rw [isSet_at hk rfl, h _ (get_mem _ _)]
    exact BitVec.getLsbD_zero
  · exact isSet_of_ge (Nat.not_lt.mp hk)

/-! ### The first free bit -/

theorem firstZero_spec (fuel : Nat) (hk : k + fuel = 8) :
    k ≤ firstZero b fuel k ∧ (∀ i, k ≤ i → i < firstZero b fuel k → b.getLsbD i = true) ∧
      (firstZero b fuel k < 8 → b.getLsbD (firstZero b fuel k) = false) ∧ firstZero b fuel k ≤ 8 := by
  induction fuel generalizing k with
  | zero => exact ⟨Nat.le_refl _, fun i h1 h2 => absurd h2 (Nat.not_lt.mpr h1), fun h => by
      unfold firstZero at h
      omega, by unfold firstZero; omega⟩
  | succ fuel ih =>
    have hmask : (1#8 <<< k : Byte) = mask k := by
      unfold mask
      rw [Nat.mod_eq_of_lt (by omega)]
    unfold firstZero
    rw [hmask]
    split
    · rename_i hone
      rw [and_mask_ne_zero, Nat.mod_eq_of_lt (by omega)] at hone
      obtain ⟨h1, h2, h3, h4⟩ := ih (k := k + 1) (by omega)
      refine ⟨by omega, fun i hi hlt => ?_, h3, h4⟩
      rcases Nat.eq_or_lt_of_le hi with rfl | hi
      · exact hone
      · exact h2 i hi hlt
    rename_i hzero
    rw [and_mask_ne_zero, Nat.mod_eq_of_lt (by omega)] at hzero
    exact ⟨Nat.le_refl _, fun i h1 h2 => absurd h2 (Nat.not_lt.mpr h1),
      fun _ => eq_false_iff.mpr hzero, by omega⟩

theorem firstZero_lt (h : b ≠ 0xff#8) : firstZero b 8 0 < 8 := by
  obtain ⟨-, hones, -, hle⟩ := firstZero_spec (b := b) 8 rfl
  refine Nat.lt_of_le_of_ne hle fun he => h (BitVec.eq_of_getLsbD_eq fun i hi => ?_)
  rw [hones i (Nat.zero_le _) (he.symm ▸ hi)]
  have hff : ∀ i < 8, (0xff#8).getLsbD i = true := by decide
  exact (hff i hi).symm

theorem isSet_cons_of_lt (hk : k < 8) : isSet (b :: bits) k = b.getLsbD k := by
  unfold isSet
  rw [Nat.div_eq_of_lt hk, Nat.mod_eq_of_lt hk]
  rfl

theorem isSet_cons_add : isSet (b :: bits) (8 + k) = isSet bits k := by
  unfold isSet
  rw [Nat.add_div_left _ (by decide), Nat.add_mod_left]
  rfl

theorem isSet_firstFree : isSet bits (firstFree bits) = false := by
  induction bits with
  | nil => rfl
  | cons b rest ih =>
    unfold firstFree
    split
    · rename_i hb
      have hlt := firstZero_lt hb
      rw [isSet_cons_of_lt hlt]
      exact (firstZero_spec 8 rfl).2.2.1 hlt
    · rw [isSet_cons_add, ih]

theorem isSet_of_lt_firstFree (h : k < firstFree bits) : isSet bits k = true := by
  induction bits generalizing k with
  | nil => exact absurd h (Nat.not_lt_zero k)
  | cons b rest ih =>
    unfold firstFree at h
    split at h
    · rename_i hb
      have hlt := firstZero_lt hb
      rw [isSet_cons_of_lt (by omega)]
      exact (firstZero_spec 8 rfl).2.1 k (Nat.zero_le _) h
    rename_i hb
    have hb : b = 0xff#8 := by simpa using hb
    by_cases hk : k < 8
    · have hff : ∀ i < 8, (0xff#8).getLsbD i = true := by decide
      rw [isSet_cons_of_lt hk, hb]
      exact hff k hk
    obtain ⟨j, rfl⟩ := Nat.exists_eq_add_of_le (Nat.not_lt.mp hk)
    rw [isSet_cons_add]
    exact ih (by omega)

end Qnx.Bitmap
