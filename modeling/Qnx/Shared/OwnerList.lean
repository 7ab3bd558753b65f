import Mathlib.Data.List.Nodup

/-!
# Lists linked through the cells that point at their nodes

A node carries `next` and `owner`, where `owner` is the address of the pointer that
points at the node: a list head, or the `next` field of the node before it. Unlinking
and inserting therefore never look at the list itself. `Linked` is the only bridge to
ordinary lists; `Reps` is the same statement for a whole family of heads.
-/

namespace Qnx.OwnerList

open List Function

variable {κ α : Type}

inductive Cell (κ α : Type) where
  | head (k : κ)
  | next (a : α)
  deriving DecidableEq, Repr

structure Links (κ α : Type) where
  head : κ → Option α
  next : α → Option α
  owner : α → Option (Cell κ α)

namespace Links

def read (h : Links κ α) : Cell κ α → Option α
  | .head k => h.head k
  | .next a => h.next a

theorem ext_read {h h' : Links κ α} (hr : ∀ c, h.read c = h'.read c)
    (ho : ∀ a, h.owner a = h'.owner a) : h = h' := by
  obtain ⟨head, next, owner⟩ := h
  obtain ⟨head', next', owner'⟩ := h'
  obtain rfl : head = head' := funext fun k => hr (.head k)
  obtain rfl : next = next' := funext fun a => hr (.next a)
  obtain rfl : owner = owner' := funext ho
  rfl

variable [DecidableEq κ] [DecidableEq α]

def write (h : Links κ α) (c : Cell κ α) (v : Option α) : Links κ α :=
  match c with
  | .head k => { h with head := update h.head k v }
  | .next a => { h with next := update h.next a v }

def setOwner (h : Links κ α) (a : α) (c : Option (Cell κ α)) : Links κ α :=
  { h with owner := update h.owner a c }

/-- Make `a` the node that `c` points at, in front of what `c` pointed at. -/
def insertAt (h : Links κ α) (c : Cell κ α) (a : α) : Links κ α :=
  let old := h.read c
  let h := h.write (.next a) old
  let h := match old with
    | some b => h.setOwner b (some (.next a))
    | none => h
  (h.setOwner a (some c)).write c (some a)

/-- Redirect the owner of `a` to its successor. A null owner is left alone. -/
def unlink (h : Links κ α) (a : α) : Links κ α :=
  match h.owner a with
  | none => h
  | some c =>
    let next := h.next a
    let h := h.write c next
    match next with
    | some b => h.setOwner b (some c)
    | none => h

theorem read_write (h : Links κ α) (c d : Cell κ α) (v : Option α) :
    (h.write c v).read d = if d = c then v else h.read d := by
  cases c <;> cases d <;> simp [write, read, update_apply]

variable {c : Cell κ α} {a : α}

section

variable (h : Links κ α)
include h

theorem read_write_ne {d : Cell κ α} (hd : d ≠ c) (v : Option α) :
    (h.write c v).read d = h.read d := by simp [read_write, hd]

@[simp] theorem owner_write (c : Cell κ α) (v : Option α) :
    (h.write c v).owner = h.owner := by cases c <;> rfl

omit [DecidableEq κ] in
@[simp] theorem read_setOwner (a : α) (o : Option (Cell κ α)) (c : Cell κ α) :
    (h.setOwner a o).read c = h.read c := by cases c <;> rfl

omit [DecidableEq κ] in
theorem owner_setOwner (a b : α) (o : Option (Cell κ α)) :
    (h.setOwner a o).owner b = if b = a then o else h.owner b := by
  simp [setOwner, update_apply]

theorem read_insertAt (c : Cell κ α) (a : α) (d : Cell κ α) : (h.insertAt c a).read d =
      if d = c then some a else if d = .next a then h.read c else h.read d := by
  unfold insertAt
  cases h.read c <;> simp only [read_write, read_setOwner]

theorem owner_insertAt (c : Cell κ α) (a b : α) : (h.insertAt c a).owner b =
      if b = a then some c else if h.read c = some b then some (.next a) else h.owner b := by
  unfold insertAt
  cases hr : h.read c with
  | none => simp [owner_setOwner]
  | some x =>
    simp only [owner_write, owner_setOwner, Option.some.injEq]
    · simp only [eq_comm]

theorem read_unlink (ho : h.owner a = some c) (d : Cell κ α) :
    (h.unlink a).read d = if d = c then h.next a else h.read d := by
  unfold unlink
  simp only [ho]
  cases hn : h.next a <;> simp only [read_write, read_setOwner]

theorem owner_unlink (ho : h.owner a = some c) (b : α) :
    (h.unlink a).owner b = if h.next a = some b then some c else h.owner b := by
  unfold unlink
  simp only [ho]
  cases hn : h.next a with
  | none => simp
  | some x =>
    simp only [owner_setOwner, owner_write, Option.some.injEq]
    simp only [eq_comm]

end

end Links

/-- The cell after walking `l` from `c`: where the terminating null is stored. -/
def lastCell (c : Cell κ α) : List α → Cell κ α
  | [] => c
  | a :: l => lastCell (.next a) l

@[simp] theorem lastCell_append_singleton (c : Cell κ α) (l : List α) (a : α) :
    lastCell c (l ++ [a]) = .next a := by
  induction l generalizing c with
  | nil => rfl
  | cons b l ih => exact ih (.next b)

theorem lastCell_append_of_ne (c d : Cell κ α) (l : List α) {m : List α} (hm : m ≠ []) :
    lastCell c (l ++ m) = lastCell d m := by
  obtain ⟨m', a, rfl⟩ := (eq_nil_or_concat m).resolve_left hm
  rw [concat_eq_append, ← append_assoc, lastCell_append_singleton, lastCell_append_singleton]

variable {c d : Cell κ α} {l l1 l2 : List α} {a : α} {h : Links κ α}

theorem lastCell_eq_of_getLast? (h : l.getLast? = some a) : lastCell c l = .next a := by
  obtain ⟨l', rfl⟩ := getLast?_eq_some_iff.mp h
  simp

/-- From cell `c` the pointers spell out exactly `l`, every node knowing the cell
that points at it, and the last cell is null. -/
def Linked (h : Links κ α) (c : Cell κ α) : List α → Prop
  | [] => h.read c = none
  | a :: l => h.read c = some a ∧ h.owner a = some c ∧ Linked h (.next a) l

theorem Linked.read_eq_head? (hl : Linked h c l) : h.read c = l.head? := by
  cases l with
  | nil => exact hl
  | cons a l => exact hl.1

theorem Linked.frame {h' : Links κ α} (hl : Linked h c l)
    (hc : h'.read c = h.read c) (hn : ∀ a ∈ l, h'.read (.next a) = h.read (.next a))
    (ho : ∀ a ∈ l, h'.owner a = h.owner a) : Linked h' c l := by
  induction l generalizing c with
  | nil => exact hc.trans hl
  | cons a l ih =>
    refine ⟨hc.trans hl.1, (ho a mem_cons_self).trans hl.2.1, ?_⟩
    exact ih hl.2.2 (hn a mem_cons_self) (forall_mem_cons.mp hn).2 (forall_mem_cons.mp ho).2

/-- The cells a list from `c` writes through are distinct: `c` is not inside the list. -/
def Outside (c : Cell κ α) (l : List α) : Prop := ∀ a ∈ l, c ≠ .next a

theorem Outside.cons_iff : Outside c (a :: l) ↔ c ≠ .next a ∧ Outside c l := by
  simp [Outside]

theorem outside_next (h : a ∉ l) : Outside (.next a : Cell κ α) l := by
  intro b hb he
  cases he
  exact h hb

theorem lastCell_cases (c : Cell κ α) (l : List α) :
    lastCell c l = c ∨ ∃ a ∈ l, lastCell c l = .next a := by
  induction l generalizing c with
  | nil => exact .inl rfl
  | cons b l ih =>
    rcases ih (.next b) with h | ⟨a, ha, h⟩
    · exact .inr ⟨b, mem_cons_self, h⟩
    · exact .inr ⟨a, mem_cons_of_mem b ha, h⟩

theorem lastCell_ne (hc : d ≠ c) (hd : Outside d l) : d ≠ lastCell c l := by
  rcases lastCell_cases c l with h | ⟨a, ha, h⟩
  · rwa [h]
  · rw [h]
    exact hd a ha

theorem outside_head (k : κ) (l : List α) : Outside (.head k : Cell κ α) l := by
  intro a _ h
  cases h

section

variable (hl : Linked h c (l1 ++ a :: l2))
include hl

theorem Linked.owner_mem : h.owner a = some (lastCell c l1) := by
  induction l1 generalizing c with
  | nil => exact hl.2.1
  | cons b l1 ih => exact ih hl.2.2

theorem Linked.next_mem : h.next a = l2.head? := by
  induction l1 generalizing c with
  | nil => exact hl.2.2.read_eq_head?
  | cons b l1 ih => exact ih hl.2.2

end

theorem Linked.read_lastCell (hl : Linked h c (l1 ++ l2)) : h.read (lastCell c l1) = l2.head? := by
  induction l1 generalizing c with
  | nil => exact hl.read_eq_head?
  | cons b l1 ih => exact ih hl.2.2

variable [DecidableEq κ] [DecidableEq α]

theorem Linked.insertAt_frame (hl : Linked h d l) (hdc : d ≠ c) (hda : d ≠ .next a) (hal : a ∉ l)
    (hc : ∀ x ∈ l, c ≠ .next x ∧ h.read c ≠ some x) : Linked (h.insertAt c a) d l := by
  apply hl.frame
  · simp [Links.read_insertAt, hdc, hda]
  · intro x hx
    have hxa : x ≠ a := fun e => hal (e ▸ hx)
    simp [Links.read_insertAt, (hc x hx).1.symm, hxa]
  · intro x hx
    have hxa : x ≠ a := fun e => hal (e ▸ hx)
    simp [Links.owner_insertAt, hxa, (hc x hx).2]

theorem Linked.unlink_frame (hl : Linked h d l) (ho : h.owner a = some c) (hdc : d ≠ c)
    (hc : ∀ x ∈ l, c ≠ .next x ∧ h.next a ≠ some x) : Linked (h.unlink a) d l := by
  apply hl.frame
  · simp [Links.read_unlink h ho, hdc]
  · intro x hx
    simp [Links.read_unlink h ho, (hc x hx).1.symm]
  · intro x hx
    simp [Links.owner_unlink h ho, (hc x hx).2]

theorem Linked.unlink (hl : Linked h c (l1 ++ a :: l2)) (hnd : (l1 ++ a :: l2).Nodup)
    (hc : Outside c (l1 ++ a :: l2)) : Linked (h.unlink a) c (l1 ++ l2) := by
  induction l1 generalizing c with
  | nil =>
    obtain ⟨_, ho, hl⟩ := hl
    obtain ⟨_, hc⟩ := Outside.cons_iff.mp hc
    have hn : h.next a = l2.head? := hl.read_eq_head?
    cases l2 with
    | nil => simp [Linked, Links.read_unlink h ho, hn]
    | cons b l =>
      obtain ⟨_, _, hl⟩ := hl
      have hbl : b ∉ l := (nodup_cons.mp (nodup_cons.mp hnd).2).1
      refine ⟨by simp [Links.read_unlink h ho, hn], by simp [Links.owner_unlink h ho, hn], ?_⟩
      obtain ⟨hcb, hc⟩ := Outside.cons_iff.mp hc
      refine hl.unlink_frame ho hcb.symm fun x hx => ⟨hc x hx, fun e => ?_⟩
      exact hbl (Option.some.inj (hn.symm.trans e) ▸ hx)
  | cons b l1 ih =>
    obtain ⟨hr, ho, hl⟩ := hl
    obtain ⟨hb, hnd⟩ := nodup_cons.mp hnd
    obtain ⟨hcb, hc⟩ := Outside.cons_iff.mp hc
    have hoa := hl.owner_mem
    have hna := hl.next_mem
    have hlast : c ≠ lastCell (.next b) l1 :=
      lastCell_ne hcb (fun x hx => hc x (mem_append_left _ hx))
    have hnb : h.next a ≠ some b := by
      rw [hna]
      intro e
      exact hb (mem_append_right l1 (mem_cons_of_mem a (mem_of_mem_head? e)))
    refine ⟨by simp [Links.read_unlink h hoa, hlast, hr],
      by simp [Links.owner_unlink h hoa, hnb, ho], ?_⟩
    exact ih hl hnd (outside_next hb)

theorem Linked.insertAt (hl : Linked h c (l1 ++ l2)) (hnd : (l1 ++ l2).Nodup) (ha : a ∉ l1 ++ l2)
    (hca : c ≠ .next a) (hc : Outside c (l1 ++ l2)) :
    Linked (h.insertAt (lastCell c l1) a) c (l1 ++ a :: l2) := by
  induction l1 generalizing c with
  | nil =>
    simp only [lastCell] at *
    refine ⟨by simp [Links.read_insertAt], by simp [Links.owner_insertAt], ?_⟩
    cases l2 with
    | nil =>
      have hr : h.read c = none := hl
      simp [Linked, Links.read_insertAt, hca.symm, hr]
    | cons b l =>
      obtain ⟨hr, _, hl⟩ := hl
      have hba : b ≠ a := fun e => ha (e ▸ mem_cons_self)
      have hal : a ∉ l := fun hm => ha (mem_cons_of_mem b hm)
      have hbl : b ∉ l := (nodup_cons.mp hnd).1
      refine ⟨by simp [Links.read_insertAt, hca.symm, hr],
        by simp [Links.owner_insertAt, hr, hba], ?_⟩
      obtain ⟨hcb, hc⟩ := Outside.cons_iff.mp hc
      refine hl.insertAt_frame hcb.symm (by simpa using hba) hal fun x hx => ⟨hc x hx, fun e => ?_⟩
      exact hbl (Option.some.inj (hr.symm.trans e) ▸ hx)
  | cons b l1 ih =>
    obtain ⟨hr, ho, hl⟩ := hl
    obtain ⟨hb, hnd⟩ := nodup_cons.mp hnd
    obtain ⟨hcb, hc⟩ := Outside.cons_iff.mp hc
    have hba : b ≠ a := fun e => ha (e ▸ mem_cons_self)
    have ha' : a ∉ l1 ++ l2 := fun hm => ha (mem_cons_of_mem b hm)
    have hlast : c ≠ lastCell (.next b) l1 :=
      lastCell_ne hcb (fun x hx => hc x (mem_append_left l2 hx))
    have hread : h.read (lastCell (.next b) l1) ≠ some b := by
      rw [hl.read_lastCell]
      intro e
      exact hb (mem_append_right l1 (mem_of_mem_head? e))
    refine ⟨?_, ?_, ?_⟩
    · simp [lastCell, Links.read_insertAt, hlast, hca, hr]
    · simp [lastCell, Links.owner_insertAt, hba, hread, ho]
    · exact ih hl hnd ha' (by simpa using hba) (outside_next hb)

theorem Linked.scribble (hl : Linked h c l)
    (hca : c ≠ .next a) (ha : a ∉ l) (v : Option α) (o : Option (Cell κ α)) :
    Linked ((h.write (.next a) v).setOwner a o) c l := by
  apply hl.frame
  · rw [Links.read_setOwner, Links.read_write_ne h hca]
  · intro x hx
    have hxa : x ≠ a := fun e => ha (e ▸ hx)
    rw [Links.read_setOwner, Links.read_write_ne h (by simpa using hxa)]
  · intro x hx
    have hxa : x ≠ a := fun e => ha (e ▸ hx)
    rw [Links.owner_setOwner, if_neg hxa, Links.owner_write]

/-- The heads of `h` hold the lists `L`, which share no node. -/
structure Reps (h : Links κ α) (L : κ → List α) : Prop where
  linked : ∀ k, Linked h (.head k) (L k)
  nodup : ∀ k, (L k).Nodup
  disjoint : ∀ {j k a}, a ∈ L j → a ∈ L k → j = k

namespace Reps
variable {h : Links κ α} {L : κ → List α}

omit [DecidableEq κ] [DecidableEq α] in
theorem head_eq (hr : Reps h L) (k : κ) : h.head k = (L k).head? := (hr.linked k).read_eq_head?

variable {k : κ} {l1 l2 : List α} {a : α}

theorem insertAt (hr : Reps h L) (hk : L k = l1 ++ l2) (ha : ∀ j, a ∉ L j) :
    Reps (h.insertAt (lastCell (.head k) l1) a) (update L k (l1 ++ a :: l2)) := by
  have hlk := hr.linked k
  have hnd := hr.nodup k
  have hak := ha k
  rw [hk] at hlk hnd hak
  refine ⟨?_, ?_, ?_⟩
  · intro j
    by_cases hj : j = k
    · subst hj
      simpa using hlk.insertAt hnd hak (by simp) (outside_head _ _)
    rw [update_of_ne hj]
    apply (hr.linked j).insertAt_frame
    · apply lastCell_ne _ (outside_head _ _)
      simpa using hj
    · simp
    · exact ha j
    · intro x hx
      have hxk : x ∉ l1 ++ l2 := fun hm => hj (hr.disjoint hx (hk ▸ hm))
      constructor
      · exact (lastCell_ne (by simp) (outside_next fun hm => hxk (mem_append_left _ hm))).symm
      · rw [hlk.read_lastCell]
        exact fun e => hxk (mem_append_right _ (mem_of_mem_head? e))
  · intro j
    by_cases hj : j = k
    · subst hj
      rw [update_self, nodup_middle]
      exact nodup_cons.mpr ⟨hak, hnd⟩
    · rw [update_of_ne hj]
      exact hr.nodup j
  · intro i j x hi hj
    have mem : ∀ m, x ∈ update L k (l1 ++ a :: l2) m → x ∈ L m ∨ (x = a ∧ m = k) := by
      intro m hm
      by_cases hmk : m = k
      · subst hmk
        rw [update_self] at hm
        rw [hk]
        simp only [mem_append, mem_cons] at hm ⊢
        tauto
      · rw [update_of_ne hmk] at hm
        exact .inl hm
    rcases mem i hi with hxi | ⟨hx, hik⟩ <;> rcases mem j hj with hxj | ⟨hx', hjk⟩
    · exact hr.disjoint hxi hxj
    · exact absurd (hx' ▸ hxi) (ha i)
    · exact absurd (hx ▸ hxj) (ha j)
    · exact hik.trans hjk.symm

theorem unlink (hr : Reps h L) (hk : L k = l1 ++ a :: l2) :
    Reps (h.unlink a) (update L k (l1 ++ l2)) := by
  have hlk := hr.linked k
  have hnd := hr.nodup k
  rw [hk] at hlk hnd
  have hsub : ∀ j, (update L k (l1 ++ l2) j).Sublist (L j) := by
    intro j
    by_cases hj : j = k
    · subst hj
      rw [update_self, hk]
      exact Sublist.append_left (sublist_cons_self a l2) l1
    · rw [update_of_ne hj]
  refine ⟨?_, ?_, ?_⟩
  · intro j
    by_cases hj : j = k
    · subst hj
      simpa using hlk.unlink hnd (outside_head _ _)
    rw [update_of_ne hj]
    apply (hr.linked j).unlink_frame hlk.owner_mem
    · apply lastCell_ne _ (outside_head _ _)
      simpa using hj
    · intro x hx
      have hxk : x ∉ l1 ++ a :: l2 := fun hm => hj (hr.disjoint hx (hk ▸ hm))
      constructor
      · exact (lastCell_ne (by simp) (outside_next fun hm => hxk (mem_append_left _ hm))).symm
      · rw [hlk.next_mem]
        exact fun e => hxk (mem_append_right _ (mem_cons_of_mem a (mem_of_mem_head? e)))
  · intro j
    exact (hr.nodup j).sublist (hsub j)
  · intro i j x hi hj
    exact hr.disjoint ((hsub i).subset hi) ((hsub j).subset hj)

end Reps

end Qnx.OwnerList
