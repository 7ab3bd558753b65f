import Mathlib.Data.List.Basic

/-!
# Vectors of slots

A vector is the list of its slots; a slot beyond its end is free. `put` grows the vector as far as
the slot it fills.
-/

namespace Qnx.Slots

open List

variable {α : Type} {l : List (Option α)} {i j : Nat} {a : α}

def at? (l : List (Option α)) (i : Nat) : Option α := (l[i]?).getD none

def put (l : List (Option α)) (i : Nat) (a : α) : List (Option α) :=
  (l ++ replicate (i + 1 - l.length) none).set i (some a)

def clear (l : List (Option α)) (i : Nat) : List (Option α) := l.set i none

def refs [DecidableEq α] (a : α) (l : List (Option α)) : Nat := l.count (some a)

@[simp] theorem at?_nil : at? ([] : List (Option α)) i = none := by simp [at?]

theorem at?_pad (l : List (Option α)) (n : Nat) : at? (l ++ replicate n none) i = at? l i := by
  unfold at?
  by_cases h : i < l.length
  · rw [getElem?_append_left h]
  rw [getElem?_append_right (Nat.le_of_not_lt h), getElem?_eq_none (Nat.le_of_not_lt h)]
  by_cases h' : i - l.length < n
  · simp [h']
  · simp [h']

theorem at?_set {v : Option α} (hi : i < l.length) :
    at? (l.set i v) j = if j = i then v else at? l j := by
  unfold at?
  by_cases h : j = i
  · subst h
    simp [hi]
  · rw [getElem?_set_ne (fun heq => h heq.symm), if_neg h]

theorem at?_put : at? (put l i a) j = if j = i then some a else at? l j := by
  have hi : i < (l ++ replicate (i + 1 - l.length) none).length := by
    simp only [length_append, length_replicate]
    omega
  rw [put, at?_set hi, at?_pad]

theorem at?_clear : at? (clear l i) j = if j = i then none else at? l j := by
  unfold clear
  by_cases hi : i < l.length
  · exact at?_set hi
  rw [set_eq_of_length_le (Nat.le_of_not_lt hi)]
  split
  · rename_i h
    subst h
    simp [at?, getElem?_eq_none (Nat.le_of_not_lt hi)]
  · rfl

theorem clear_comm (l : List (Option α)) (i j : Nat) :
    clear (clear l i) j = clear (clear l j) i := by
  unfold clear
  by_cases h : i = j
  · rw [h]
  · rw [set_comm _ _ h]

section Count

variable [DecidableEq α]

theorem count_set {v : Option α} (w : Option α) (hi : i < l.length) :
    (l.set i v).count w + (if at? l i = w then 1 else 0) = l.count w + if v = w then 1 else 0 := by
  induction l generalizing i with
  | nil => simp at hi
  | cons b l ih =>
    cases i with
    | zero =>
      have hat : at? (b :: l) 0 = b := by simp [at?]
      rw [hat]
      by_cases hb : b = w <;> by_cases hv : v = w <;> simp [hb, hv]
    | succ i =>
      have hat : at? (b :: l) (i + 1) = at? l i := by simp [at?]
      have := ih (i := i) (by simpa using hi)
      rw [hat, set_cons_succ, count_cons, count_cons]
      omega

theorem refs_pad (l : List (Option α)) (n : Nat) : refs a (l ++ replicate n none) = refs a l := by
  simp [refs, count_replicate]

theorem refs_put {b : α} (hfree : at? l i = none) :
    refs b (put l i a) = refs b l + if a = b then 1 else 0 := by
  have hi : i < (l ++ replicate (i + 1 - l.length) none).length := by
    simp only [length_append, length_replicate]
    omega
  have h := count_set (v := some a) (some b) hi
  rw [at?_pad, hfree] at h
  have hpad : (l ++ replicate (i + 1 - l.length) none).count (some b) = refs b l := refs_pad l _
  simp only [Option.some.injEq, hpad] at h
  exact h

theorem refs_clear {b : α} : refs b (clear l i) + (if at? l i = some b then 1 else 0) = refs b l := by
  unfold refs clear
  by_cases hi : i < l.length
  · have h := count_set (v := none) (some b) hi
    simpa using h
  · rw [set_eq_of_length_le (Nat.le_of_not_lt hi)]
    simp [at?, getElem?_eq_none (Nat.le_of_not_lt hi)]

theorem refs_pos : 0 < refs a l ↔ ∃ i, at? l i = some a := by
  unfold refs
  rw [count_pos_iff, mem_iff_getElem?]
  constructor
  · rintro ⟨i, hi⟩
    exact ⟨i, by simp [at?, hi]⟩
  · rintro ⟨i, hi⟩
    refine ⟨i, ?_⟩
    unfold at? at hi
    cases h : l[i]? with
    | none => simp [h] at hi
    | some v =>
      rw [h] at hi
      exact congrArg some hi

end Count

end Qnx.Slots
