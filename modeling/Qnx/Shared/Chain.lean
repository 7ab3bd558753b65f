import Mathlib.Data.List.Nodup

/-!
# Singly linked chains

A cell is the head (`none`) or the link field of a node (`some i`). `P c o` says that cell `c`
holds a link to `o`, with `none` for the end of the chain. What a link looks like is left to
the user of the library.
-/

namespace Qnx.Chain

open List

variable {ι : Type}

/-- From cell `c` the chain visits `l` and ends. -/
def Visits (P : Option ι → Option ι → Prop) : Option ι → List ι → Prop
  | c, [] => P c none
  | c, i :: l => P c (some i) ∧ Visits P (some i) l

/-- From cell `c` the chain visits `l` first. -/
def Starts (P : Option ι → Option ι → Prop) : Option ι → List ι → Prop
  | _, [] => True
  | c, i :: l => P c (some i) ∧ Starts P (some i) l

def endCell : Option ι → List ι → Option ι
  | c, [] => c
  | _, i :: l => endCell (some i) l

variable {P Q : Option ι → Option ι → Prop} {c d : Option ι} {i : ι} {l r : List ι}

@[simp] theorem visits_nil : Visits P c [] ↔ P c none := Iff.rfl

@[simp] theorem visits_cons : Visits P c (i :: l) ↔ P c (some i) ∧ Visits P (some i) l := Iff.rfl

@[simp] theorem starts_nil : Starts P c [] := trivial

@[simp] theorem starts_cons : Starts P c (i :: l) ↔ P c (some i) ∧ Starts P (some i) l := Iff.rfl

@[simp] theorem endCell_nil : endCell c ([] : List ι) = c := rfl

@[simp] theorem endCell_cons : endCell c (i :: l) = endCell (some i) l := rfl

theorem visits_append : Visits P c (l ++ r) ↔ Starts P c l ∧ Visits P (endCell c l) r := by
  induction l generalizing c with
  | nil => simp
  | cons i l ih => simp [ih, and_assoc]

theorem endCell_mem (c : Option ι) (l : List ι) : endCell c l ∈ c :: l.map some := by
  induction l generalizing c with
  | nil => simp
  | cons i l ih =>
    tauto

theorem mem_of_endCell (h : endCell none l = some i) : i ∈ l := by
  have hm := endCell_mem none l
  rw [h] at hm
  simpa using hm

theorem endCell_append (c : Option ι) (l r : List ι) :
    endCell c (l ++ r) = endCell (endCell c l) r := by
  induction l generalizing c with
  | nil => rfl
  | cons i l ih => exact ih (some i)

theorem Starts.congr (h : Starts P c l) (hd : (c :: l.map some).Nodup)
    (hpq : ∀ d ∈ c :: l.map some, d ≠ endCell c l → ∀ i, P d (some i) → Q d (some i)) :
    Starts Q c l := by
  induction l generalizing c with
  | nil => trivial
  | cons i l ih =>
    obtain ⟨hnot, hd⟩ := nodup_cons.mp hd
    refine ⟨hpq c mem_cons_self ?_ i h.1, ih h.2 hd ?_⟩
    · intro hc
      apply hnot
      rw [hc]
      exact endCell_mem _ _
    · intro d hm
      exact hpq d (mem_cons_of_mem _ hm)

theorem Visits.rehead (h : Visits P c l) (hc : ∀ o, P c o → Q d o)
    (hl : ∀ i ∈ l, ∀ o, P (some i) o → Q (some i) o) : Visits Q d l := by
  induction l generalizing c d with
  | nil => exact hc _ h
  | cons i l ih =>
    refine ⟨hc _ h.1, ih h.2 (hl i mem_cons_self) ?_⟩
    intro j hj
    exact hl j (mem_cons_of_mem _ hj)

theorem Visits.mem (h : Visits P c l) (hi : i ∈ l) : ∃ d, P d (some i) := by
  induction l generalizing c with
  | nil => cases hi
  | cons j l ih =>
    rcases mem_cons.mp hi with rfl | hi
    · exact ⟨c, h.1⟩
    · exact ih h.2 hi

theorem Visits.splice (h : Visits P none (l ++ r)) (hd : l.Nodup) {r' : List ι}
    (hpq : ∀ d, d ≠ endCell none l → (∀ i, d = some i → i ∈ l) → ∀ o, P d o → Q d o)
    (hr : Visits Q (endCell none l) r') : Visits Q none (l ++ r') := by
  refine visits_append.mpr ⟨(visits_append.mp h).1.congr ?_ ?_, hr⟩
  · refine nodup_cons.mpr ⟨by simp, ?_⟩
    exact Nodup.map (fun _ _ => Option.some.inj) hd
  · intro d hm hne i
    refine hpq d hne ?_ _
    rintro j rfl
    simpa using hm

end Qnx.Chain
