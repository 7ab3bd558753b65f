import Mathlib.Data.List.Basic

/-!
# Ring buffers

Cells `0 … B - 1`; a window starts at a cell and runs round the end. Storing and fetching are done
in one part, or in two where the window wraps.
-/

namespace Qnx.Ring

open List

variable {α : Type}

def window (B : Nat) (buf : Nat → α) (rd n : Nat) : List α :=
  (range n).map fun i => buf ((rd + i) % B)

def part (buf : Nat → α) (s n : Nat) : List α := (range n).map fun i => buf (s + i)

def store (buf : Nat → α) (s : Nat) (l : List α) (k : Nat) : α :=
  if s ≤ k then (l[k - s]?).getD (buf k) else buf k

/-- What lies in the `n` cells from `rd` on, fetched as one part or two. -/
def fetch (B : Nat) (buf : Nat → α) (rd n : Nat) : List α :=
  if n ≤ B - rd then part buf rd n else part buf rd (B - rd) ++ part buf 0 (n - (B - rd))

def put (B : Nat) (buf : Nat → α) (wr : Nat) (l : List α) : Nat → α :=
  if l.length ≤ B - wr then store buf wr l
  else store (store buf wr (l.take (B - wr))) 0 (l.drop (B - wr))

variable {B rd wr n m : Nat} {buf : Nat → α} {l : List α}

@[simp] theorem window_length : (window B buf rd n).length = n := by simp [window]

theorem window_head (hn : 0 < n) : (window B buf rd n).head? = some (buf (rd % B)) := by
  obtain ⟨k, rfl⟩ := Nat.exists_eq_add_of_le' hn
  rw [window, range_succ_eq_map]
  rfl

theorem mod_cell {x : Nat} (h : x < 2 * B) : x % B = if x < B then x else x - B := by
  split
  · rename_i hx
    exact Nat.mod_eq_of_lt hx
  · rw [Nat.mod_eq_sub_mod (by omega), Nat.mod_eq_of_lt (by omega)]

theorem part_eq_window (h : rd + n ≤ B) : part buf rd n = window B buf rd n := by
  refine map_congr_left fun i hi => ?_
  rw [Nat.mod_eq_of_lt (by have := mem_range.mp hi; omega)]

theorem window_add (a b : Nat) :
    window B buf rd (a + b) = window B buf rd a ++ window B buf ((rd + a) % B) b := by
  unfold window
  rw [range_add, map_append, map_map]
  congr 1
  refine map_congr_left fun i _ => ?_
  simp only [Function.comp_apply]
  rw [Nat.mod_add_mod, Nat.add_assoc]

theorem fetch_eq_window (hrd : rd < B) (hn : n ≤ B) : fetch B buf rd n = window B buf rd n := by
  unfold fetch
  split
  · exact part_eq_window (by omega)
  have hsum : n = (B - rd) + (n - (B - rd)) := by omega
  conv_rhs => rw [hsum, window_add]
  rw [part_eq_window (B := B) (by omega), part_eq_window (B := B) (by omega),
    Nat.add_sub_cancel' (Nat.le_of_lt hrd), Nat.mod_self]

theorem window_take (h : m ≤ n) : (window B buf rd n).take m = window B buf rd m := by
  obtain ⟨k, rfl⟩ := Nat.exists_eq_add_of_le h
  rw [window_add, take_left' window_length]

theorem window_drop (h : m ≤ n) :
    (window B buf rd n).drop m = window B buf ((rd + m) % B) (n - m) := by
  obtain ⟨k, rfl⟩ := Nat.exists_eq_add_of_le h
  rw [window_add, drop_left' window_length, Nat.add_sub_cancel_left]

theorem put_cell (hwr : wr < B) (hl : l.length ≤ B) {j : Nat} (hj : j < B) :
    put B buf wr l ((wr + j) % B) = (l[j]?).getD (buf ((wr + j) % B)) := by
  rw [mod_cell (by omega)]
  unfold put store
  split
  · dsimp only
    split
    · rw [if_pos (by omega), Nat.add_sub_cancel_left]
    · rw [if_neg (by omega), getElem?_eq_none (by omega : l.length ≤ j)]
      rfl
  dsimp only
  rw [if_pos (Nat.zero_le _), Nat.sub_zero]
  split
  · have hd : (l.drop (B - wr))[wr + j]? = none := by
      rw [getElem?_eq_none]
      rw [length_drop]
      omega
    rw [hd, Option.getD_none, if_pos (by omega), Nat.add_sub_cancel_left,
      getElem?_take_of_lt (by omega)]
  rw [getElem?_drop, if_neg (by omega)]
  congr 2
  omega

theorem window_put (hrd : rd < B) (hn : n + l.length ≤ B) :
    window B (put B buf ((rd + n) % B) l) rd (n + l.length) = window B buf rd n ++ l := by
  have hB : 0 < B := by omega
  have hwr := Nat.mod_lt (rd + n) hB
  rw [window_add]
  congr 1
  · refine map_congr_left fun i hi => ?_
    have hi := mem_range.mp hi
    -- the cells of the window lie behind those that are put
    have hcell : (rd + i) % B = ((rd + n) % B + (B - n + i)) % B := by
      rw [Nat.mod_add_mod, show rd + n + (B - n + i) = rd + i + B by omega, Nat.add_mod_right]
    rw [hcell, put_cell hwr (by omega) (by omega), getElem?_eq_none (by omega)]
    rfl
  · refine ext_getElem (by simp) fun j h1 h2 => ?_
    simp only [window, getElem_map, getElem_range]
    rw [put_cell hwr (by omega) (by omega), getElem?_eq_getElem h2, Option.getD_some]

end Qnx.Ring
