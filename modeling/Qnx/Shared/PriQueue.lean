import Mathlib.Data.List.Sort

/-!
# Queues kept in order of a priority

`insertGE` puts a new entry behind every entry of at least its priority, so that equal
priorities are served in the order of arrival.
-/

namespace Qnx.PriQueue

open List

variable {α : Type} {key : α → Nat} {a : α} {l : List α}

def Ordered (key : α → Nat) (l : List α) : Prop := l.Pairwise fun x y => key y ≤ key x

/-- Walk past the entries of key at least that of `a`, and put `a` there. -/
def insertGE (key : α → Nat) (a : α) (l : List α) : List α :=
  l.orderedInsert (fun x y => key y < key x) a

theorem insertGE_cons (key : α → Nat) (a b : α) (l : List α) :
    insertGE key a (b :: l) = if key b < key a then a :: b :: l else b :: insertGE key a l := rfl

theorem perm_insertGE (key : α → Nat) (a : α) (l : List α) : (insertGE key a l).Perm (a :: l) :=
  perm_orderedInsert _ a l

@[simp] theorem mem_insertGE {b : α} : b ∈ insertGE key a l ↔ b = a ∨ b ∈ l := by
  rw [(perm_insertGE key a l).mem_iff, mem_cons]

theorem Ordered.insertGE (h : Ordered key l) (a : α) : Ordered key (insertGE key a l) := by
  induction l with
  | nil => exact pairwise_singleton _ _
  | cons b l ih =>
    obtain ⟨hb, hl⟩ := pairwise_cons.mp h
    rw [insertGE_cons]
    split
    · refine pairwise_cons.mpr ⟨?_, h⟩
      intro c hc
      rcases mem_cons.mp hc with rfl | hc
      · omega
      · have := hb c hc
        omega
    refine pairwise_cons.mpr ⟨?_, ih hl⟩
    intro c hc
    rcases mem_insertGE.mp hc with rfl | hc
    · omega
    · exact hb c hc

theorem insertGE_append_left {r : List α} (hl : ∀ b ∈ l, key a ≤ key b) :
    insertGE key a (l ++ r) = l ++ insertGE key a r := by
  induction l with
  | nil => rfl
  | cons b l ih =>
    have hb := hl b mem_cons_self
    rw [cons_append, insertGE_cons, if_neg (by omega), ih (forall_mem_cons.mp hl).2, cons_append]

theorem insertGE_head (h : ∀ b ∈ l, key b < key a) : insertGE key a l = a :: l := by
  cases l with
  | nil => rfl
  | cons b l => rw [insertGE_cons, if_pos (h b mem_cons_self)]

theorem insertGE_append {r : List α} (hl : ∀ b ∈ l, key a ≤ key b) (hr : ∀ b ∈ r, key b < key a) :
    insertGE key a (l ++ r) = l ++ a :: r := by
  rw [insertGE_append_left hl, insertGE_head hr]

section

variable (h : Ordered key l)
include h

theorem Ordered.takeWhile_dropWhile (n : Nat) :
    (∀ b ∈ l.takeWhile (n ≤ key ·), n ≤ key b) ∧ ∀ b ∈ l.dropWhile (n ≤ key ·), key b < n := by
  induction l with
  | nil => simp
  | cons c l ih =>
    obtain ⟨hc, hl⟩ := pairwise_cons.mp h
    by_cases hn : n ≤ key c
    · simp only [takeWhile_cons, dropWhile_cons, hn]
      refine ⟨?_, (ih hl).2⟩
      exact forall_mem_cons.mpr ⟨hn, (ih hl).1⟩
    simp only [takeWhile_cons, dropWhile_cons, hn]
    refine ⟨by simp, ?_⟩
    intro b hb
    rcases mem_cons.mp hb with rfl | hb
    · omega
    · have := hc b hb
      omega

theorem Ordered.sublist {l' : List α} (hs : l'.Sublist l) : Ordered key l' := Pairwise.sublist hs h

theorem Ordered.congr {l' : List α} (hk : l'.map key = l.map key) : Ordered key l' := by
  have hmap : (l.map key).Pairwise (fun m n => n ≤ m) := pairwise_map.mpr h
  rw [← hk] at hmap
  exact pairwise_map.mp hmap

theorem Ordered.congr_key {key' : α → Nat} (hk : ∀ b ∈ l, key' b = key b) : Ordered key' l := by
  refine Pairwise.imp_of_mem ?_ h
  intro b c hb hc hle
  rw [hk b hb, hk c hc]
  exact hle

theorem Ordered.requeue [DecidableEq α] {key' : α → Nat} (hnd : l.Nodup)
    (hk : ∀ b ∈ l, b ≠ a → key' b = key b) :
    Ordered key' (PriQueue.insertGE key' a (l.erase a)) := by
  apply Ordered.insertGE
  apply (h.sublist erase_sublist).congr_key
  intro b hb
  rw [hnd.mem_erase_iff] at hb
  exact hk b hb.2 hb.1

end

theorem Ordered.head_le (h : Ordered key (a :: l)) {b : α} (hb : b ∈ l) : key b ≤ key a :=
  (pairwise_cons.mp h).1 b hb

/-- In order of `key`, and of `seq` where the keys are equal. -/
def Stable (key seq : α → Nat) (l : List α) : Prop :=
  l.Pairwise fun x y => key y < key x ∨ key y = key x ∧ seq x < seq y

variable {seq : α → Nat}

section

variable (h : Stable key seq l)
include h

theorem Stable.ordered : Ordered key l := by
  refine Pairwise.imp ?_ h
  omega

theorem Stable.congr {key' seq' : α → Nat}
    (hc : ∀ b ∈ l, key' b = key b ∧ seq' b = seq b) : Stable key' seq' l := by
  refine Pairwise.imp_of_mem ?_ h
  intro b c hb hcm hbc
  rw [(hc b hb).1, (hc b hb).2, (hc c hcm).1, (hc c hcm).2]
  exact hbc

theorem Stable.insertGE (ha : ∀ b ∈ l, seq b < seq a) : Stable key seq (insertGE key a l) := by
  induction l with
  | nil => exact pairwise_singleton _ _
  | cons b l ih =>
    obtain ⟨hb, hl⟩ := pairwise_cons.mp h
    have hab := ha b mem_cons_self
    rw [insertGE_cons]
    split
    · rename_i hlt
      refine pairwise_cons.mpr ⟨?_, h⟩
      intro c hc
      rcases mem_cons.mp hc with rfl | hc
      · exact .inl hlt
      · have := hb c hc
        omega
    refine pairwise_cons.mpr ⟨?_, ih hl (forall_mem_cons.mp ha).2⟩
    intro c hc
    rcases mem_insertGE.mp hc with rfl | hc
    · omega
    · exact hb c hc

end

end Qnx.PriQueue
