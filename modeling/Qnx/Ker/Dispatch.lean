import Qnx.Shared.OwnerList
import Qnx.Ker.Bitmap

/-!
# The dispatch table

`DISPATCH` of the uniprocessor scheduler: the ready lists threaded through the threads'
own `next` and `prev` fields (`LINK3_*`), and the bitmap that names the non-empty ones.
A thread's links live here, next to the list headers, because the scheduler reads them
only through these macros. Nothing in this module looks at a thread's state or priority.
-/

namespace Qnx.Ker

open OwnerList List Function

abbrev Thp := Nat

/-- `links.head` is `ready[].head`; `links.next` and `links.owner` are `next` and `prev`. -/
structure Dispatch where
  links : Links Nat Thp
  tail : Nat → Option Thp
  bits : Bitmap

namespace Dispatch

def setTail (d : Dispatch) (p : Nat) (v : Option Thp) : Dispatch :=
  { d with tail := update d.tail p v }

def link3Beg (d : Dispatch) (p : Nat) (t : Thp) : Dispatch :=
  let d' := { d with links := d.links.insertAt (.head p) t }
  match d.links.head p with
  | some _ => d'
  | none => d'.setTail p (some t)

def link3End (d : Dispatch) (p : Nat) (t : Thp) : Dispatch :=
  let links := match d.tail p with
    | some x => (d.links.setOwner t (some (.next x))).write (.next x) (some t)
    | none => (d.links.setOwner t (some (.head p))).write (.head p) (some t)
  let d' := ({ d with links := links } : Dispatch).setTail p (some t)
  { d' with links := d'.links.write (.next t) none }

/-- `LINK3_REM`. When the tail goes and the list is not empty, `prev` is the address of
the previous node, its `next` being its first field. -/
def link3Rem (d : Dispatch) (p : Nat) (t : Thp) : Dispatch :=
  let d' := { d with links := d.links.unlink t }
  if d'.tail p = some t then
    if d'.links.head p = none then d'.setTail p none
    else match d'.links.owner t with
      | some (.next x) => d'.setTail p (some x)
      | _ => d'.setTail p none
  else d'

def set (d : Dispatch) (p : Nat) : Dispatch := { d with bits := d.bits.set p }

def clr (d : Dispatch) (p : Nat) : Dispatch := { d with bits := d.bits.clr p }

/-- `LINK3_REM` followed by `DISPATCH_CLR` when the list is left empty. -/
def remClr (d : Dispatch) (p : Nat) (t : Thp) : Dispatch :=
  let d := d.link3Rem p t
  if d.links.head p = none then d.clr p else d

def clearLinks (d : Dispatch) (t : Thp) : Dispatch :=
  { d with links := (d.links.write (.next t) none).setOwner t none }

/-- The list headers spell out `L`, without regard to the bitmap. -/
structure Lists (d : Dispatch) (L : Nat → List Thp) : Prop where
  reps : Reps d.links L
  tail : ∀ p, d.tail p = (L p).getLast?

structure Bits (d : Dispatch) (S : Nat → Prop) : Prop where
  summary : d.bits.Summary
  isSet : ∀ p, d.bits.isSet p = true ↔ S p

structure Queues (d : Dispatch) (L : Nat → List Thp) : Prop where
  lists : d.Lists L
  bits : d.Bits fun p => L p ≠ []

@[simp] theorem link3Beg_bits (d : Dispatch) (p : Nat) (t : Thp) :
    (d.link3Beg p t).bits = d.bits := by
  unfold link3Beg
  cases d.links.head p <;> rfl

@[simp] theorem link3End_bits (d : Dispatch) (p : Nat) (t : Thp) :
    (d.link3End p t).bits = d.bits := rfl

@[simp] theorem link3Rem_bits (d : Dispatch) (p : Nat) (t : Thp) :
    (d.link3Rem p t).bits = d.bits := by
  unfold link3Rem
  simp only
  split <;> [split <;> [rfl; split <;> rfl]; rfl]

def zero : Dispatch := ⟨⟨fun _ => none, fun _ => none, fun _ => none⟩, fun _ => none, Bitmap.zero⟩

variable {d : Dispatch} {L : Nat → List Thp}

theorem queues_zero : zero.Queues fun _ => [] := by
  refine ⟨⟨⟨fun _ => rfl, fun _ => nodup_nil, fun h => by cases h⟩, fun _ => rfl⟩, ?_⟩
  exact ⟨Bitmap.summary_zero, fun p => by simp [zero]⟩

variable {d' : Dispatch} {S : Nat → Prop} {p : Nat} {t a : Thp} {l1 l2 : List Thp}

theorem Lists.of_eq (h : d.Lists L) (hl : d'.links = d.links)
    (ht : d'.tail = d.tail) : d'.Lists L :=
  ⟨hl ▸ h.reps, ht ▸ h.tail⟩

theorem Bits.of_eq (h : d.Bits S) (hb : d'.bits = d.bits) : d'.Bits S :=
  ⟨hb ▸ h.summary, hb ▸ h.isSet⟩

theorem Bits.congr {T : Nat → Prop} (h : d.Bits S) (hst : ∀ p, S p ↔ T p) : d.Bits T :=
  ⟨h.summary, fun p => (h.isSet p).trans (hst p)⟩

theorem Bits.set (h : d.Bits S) (hp : p < 256) : (d.set p).Bits fun q => q = p ∨ S q :=
  ⟨h.summary.set (by omega), fun q => by
    rw [← h.isSet q]
    exact Bitmap.isSet_set d.bits p q⟩

theorem Bits.clr (h : d.Bits S) (p : Nat) : (d.clr p).Bits fun q => q ≠ p ∧ S q :=
  ⟨h.summary.clr p, fun q => by
    rw [← h.isSet q]
    exact Bitmap.isSet_clr d.bits p q⟩

section

variable (h : d.Lists L)
include h

theorem Lists.edited {d' : Dispatch} {l : List Thp}
    (hr : Reps d'.links (update L p l)) (hp : d'.tail p = l.getLast?)
    (hq : ∀ q, q ≠ p → d'.tail q = d.tail q) : d'.Lists (update L p l) := by
  refine ⟨hr, fun q => ?_⟩
  obtain rfl | hne := eq_or_ne q p
  · rw [hp, update_self]
  · rw [hq q hne, update_of_ne hne, h.tail q]

theorem Lists.link3Beg (p : Nat) (ht : ∀ q, t ∉ L q) :
    (d.link3Beg p t).Lists (update L p (t :: L p)) := by
  have hr := h.reps.insertAt (show L p = [] ++ L p from rfl) ht
  have hh := h.reps.head_eq p
  unfold Dispatch.link3Beg
  cases hL : L p with
  | nil =>
    rw [hL] at hh hr
    simp only [hh]
    exact h.edited hr (by simp [setTail]) fun q hq => by simp [setTail, hq]
  | cons a l =>
    rw [hL] at hh hr
    simp only [hh]
    exact h.edited hr (by simp [h.tail p, hL]) fun _ _ => rfl

theorem link3End_eq (p : Nat) (ht : t ∉ L p) :
    d.link3End p t = ({ d with links := d.links.insertAt (lastCell (.head p) (L p)) t } :
      Dispatch).setTail p (some t) := by
  have hl := h.reps.linked p
  have hread : d.links.read (lastCell (.head p) (L p)) = none := by
    have := Linked.read_lastCell (show Linked _ _ (L p ++ []) by simpa using hl)
    simpa using this
  have hcell : (match d.tail p with | some x => Cell.next x | none => Cell.head p)
      = lastCell (.head p) (L p) := by
    rw [h.tail p]
    cases hL : (L p).getLast? with
    | none => rw [getLast?_eq_none_iff.mp hL]; rfl
    | some x => exact (lastCell_eq_of_getLast? hL).symm
  have hne : lastCell (.head p) (L p) ≠ Cell.next t :=
    (lastCell_ne (by simp) (outside_next ht)).symm
  have hform : d.link3End p t = ({ d with links :=
      ((d.links.setOwner t (some (lastCell (.head p) (L p)))).write
        (lastCell (.head p) (L p)) (some t)).write (.next t) none } : Dispatch).setTail p (some t) := by
    rw [← hcell]
    unfold link3End
    cases d.tail p <;> rfl
  rw [hform]
  simp only [Links.insertAt, hread]
  cases hc : lastCell (.head p) (L p) with
  | head k => rfl
  | next a =>
    have hat : a ≠ t := fun e => hne (by rw [hc, e])
    simp only [Links.write, Links.setOwner]
    rw [update_comm hat]

theorem Lists.link3End (p : Nat) (ht : ∀ q, t ∉ L q) :
    (d.link3End p t).Lists (update L p (L p ++ [t])) := by
  have hr := h.reps.insertAt (show L p = L p ++ [] by simp) ht
  rw [link3End_eq h p (ht p)]
  exact h.edited hr (by simp [setTail]) fun q hq => by simp [setTail, hq]

theorem owner_unlink_self (hL : L p = l1 ++ t :: l2) :
    (d.links.unlink t).owner t = some (lastCell (.head p) l1) := by
  have hl := hL ▸ h.reps.linked p
  have hnd := hL ▸ h.reps.nodup p
  have hne : d.links.next t ≠ some t := by
    rw [hl.next_mem]
    intro e
    have := (nodup_cons.mp (nodup_append.mp hnd).2.1).1
    exact this (mem_of_mem_head? e)
  rw [Links.owner_unlink _ hl.owner_mem, if_neg hne]
  exact hl.owner_mem

theorem Lists.link3Rem (hL : L p = l1 ++ t :: l2) :
    (d.link3Rem p t).Lists (update L p (l1 ++ l2)) := by
  have hr := h.reps.unlink hL
  have hh : (d.links.unlink t).head p = (l1 ++ l2).head? := by simpa using hr.head_eq p
  have hnd := hL ▸ h.reps.nodup p
  have htail : d.tail p = (l1 ++ t :: l2).getLast? := hL ▸ h.tail p
  unfold Dispatch.link3Rem
  rcases eq_nil_or_concat' l2 with rfl | ⟨l2', x, rfl⟩
  · -- the node is the tail
    rw [if_pos (by simp [htail])]
    rcases eq_nil_or_concat' l1 with rfl | ⟨l1', y, rfl⟩
    · rw [if_pos (by simpa using hh)]
      exact h.edited hr (by simp [setTail]) fun q hq => by simp [setTail, hq]
    have ho : (d.links.unlink t).owner t = some (.next y) := by
      rw [owner_unlink_self h hL]
      simp
    rw [if_neg (by simp [hh]), ho]
    exact h.edited hr (by simp [setTail]) fun q hq => by simp [setTail, hq]
  have hx : d.tail p = some x := by
    rw [htail, ← cons_append, ← append_assoc, getLast?_concat]
  have hxt : x ≠ t := by
    rintro rfl
    have := (nodup_cons.mp (nodup_append.mp hnd).2.1).1
    simp at this
  rw [if_neg (by simpa [hx] using hxt)]
  exact h.edited hr (by simp [hx]) fun _ _ => rfl

end

section

variable (h : d.Queues L)
include h

theorem Queues.of_lists {l : List Thp}
    (hl : d'.Lists (update L p l)) (hb : d'.bits = d.bits) (hp : L p ≠ [])
    (hne : l ≠ []) : d'.Queues (update L p l) := by
  refine ⟨hl, (h.bits.of_eq hb).congr fun q => ?_⟩
  by_cases hq : q = p
  · subst hq
    simp [hp, hne]
  · simp [hq]

section

variable (hL : L p = l1 ++ t :: l2)
include hL

theorem Queues.remClr : (d.remClr p t).Queues (update L p (l1 ++ l2)) := by
  have hl := h.lists.link3Rem hL
  have hb := h.bits.of_eq (link3Rem_bits d p t)
  have hh : (d.link3Rem p t).links.head p = (l1 ++ l2).head? := by
    simpa using hl.reps.head_eq p
  unfold Dispatch.remClr
  simp only
  split
  · rename_i he
    have hnil : l1 ++ l2 = [] := head?_eq_none_iff.mp (hh.symm.trans he)
    refine ⟨hl.of_eq rfl rfl, (hb.clr p).congr fun q => ?_⟩
    by_cases hq : q = p
    · subst hq
      simp [hnil]
    · simp [hq]
  rename_i he
  have hne : l1 ++ l2 ≠ [] := fun e => he (hh.trans (by rw [e]; rfl))
  refine ⟨hl, hb.congr fun q => ?_⟩
  by_cases hq : q = p
  · subst hq
    simpa [hL] using hne
  · simp [hq]

theorem Queues.relinkEnd (ha : ∀ q, a ∉ update L p (l1 ++ l2) q) :
    ((d.link3Rem p t).link3End p a).Queues (update L p (l1 ++ l2 ++ [a])) := by
  have hl := (h.lists.link3Rem hL).link3End p ha
  simp only [update_self, update_idem] at hl
  exact h.of_lists hl (by simp) (by simp [hL]) (by simp)

theorem Queues.relinkBeg (ha : ∀ q, a ∉ update L p (l1 ++ l2) q) :
    ((d.link3Rem p t).link3Beg p a).Queues (update L p (a :: (l1 ++ l2))) := by
  have hl := (h.lists.link3Rem hL).link3Beg p ha
  simp only [update_self, update_idem] at hl
  exact h.of_lists hl (by simp) (by simp [hL]) (by simp)

end

theorem Queues.link3Beg_set (hp : p < 256) (ht : ∀ q, t ∉ L q) :
    ((d.link3Beg p t).set p).Queues (update L p (t :: L p)) := by
  refine ⟨(h.lists.link3Beg p ht).of_eq rfl rfl, ?_⟩
  refine ((h.bits.of_eq (link3Beg_bits d p t)).set hp).congr fun q => ?_
  by_cases hq : q = p
  · subst hq
    simp
  · simp [hq]

theorem Queues.link3End_set (hp : p < 256) (ht : ∀ q, t ∉ L q) :
    ((d.link3End p t).set p).Queues (update L p (L p ++ [t])) := by
  refine ⟨(h.lists.link3End p ht).of_eq rfl rfl, ?_⟩
  refine ((h.bits.of_eq (link3End_bits d p t)).set hp).congr fun q => ?_
  by_cases hq : q = p
  · subst hq
    simp
  · simp [hq]

theorem Queues.clearLinks (ht : ∀ q, t ∉ L q) : (d.clearLinks t).Queues L := by
  refine ⟨⟨⟨fun k => ?_, h.lists.reps.nodup, h.lists.reps.disjoint⟩, h.lists.tail⟩,
    h.bits.of_eq rfl⟩
  refine (h.lists.reps.linked k).frame ?_ ?_ ?_
  · simp [Dispatch.clearLinks, Links.read_write_ne]
  · intro a ha
    have hat : a ≠ t := fun e => ht k (e ▸ ha)
    simp [Dispatch.clearLinks, Links.read_write_ne, hat]
  · intro a ha
    have hat : a ≠ t := fun e => ht k (e ▸ ha)
    simp [Dispatch.clearLinks, Links.owner_setOwner, hat]

theorem Queues.highestPri (hp : L p ≠ []) : L d.bits.highestPri ≠ [] ∧ p ≤ d.bits.highestPri := by
  obtain ⟨h1, h2⟩ := Bitmap.highestPri_spec h.bits.summary ((h.bits.isSet p).mpr hp)
  exact ⟨(h.bits.isSet _).mp h1, h2⟩

end

end Dispatch

end Qnx.Ker
