import Mathlib.Data.List.Pairwise
import Qnx.Shared.Extents

/-!
# Extents that do not overlap

Lists of extents in any order, for stores that split and join them where they lie.
-/

namespace Qnx.Extents

open List

def Off (e f : Extent) : Prop := e.1 + e.2 ≤ f.1 ∨ f.1 + f.2 ≤ e.1

def Within (e f : Extent) : Prop := f.1 ≤ e.1 ∧ e.1 + e.2 ≤ f.1 + f.2

def Apart (L : List Extent) : Prop := L.Pairwise Off

instance (e f : Extent) : Decidable (Off e f) := inferInstanceAs (Decidable (_ ∨ _))

instance (e f : Extent) : Decidable (Within e f) := inferInstanceAs (Decidable (_ ∧ _))

variable {e f g : Extent} {L M : List Extent}

theorem Off.symm (h : Off e f) : Off f e := Or.symm h

instance : Std.Symm Off := ⟨fun _ _ h => h.symm⟩

theorem Within.refl (e : Extent) : Within e e := ⟨Nat.le_refl _, Nat.le_refl _⟩

theorem Within.trans (h : Within e f) (h' : Within f g) : Within e g :=
  ⟨Nat.le_trans h'.1 h.1, Nat.le_trans h.2 h'.2⟩

theorem Off.within (h : Off f g) (hw : Within e f) : Off e g := by
  unfold Off Within at *
  omega

theorem Off.ne (h : Off e f) (he : 0 < e.2) (hf : 0 < f.2) : e.1 ≠ f.1 := by
  unfold Off at h
  omega

theorem apart_cons : Apart (e :: L) ↔ (∀ f ∈ L, Off e f) ∧ Apart L := pairwise_cons

theorem apart_append : Apart (L ++ M) ↔ Apart L ∧ Apart M ∧ ∀ e ∈ L, ∀ f ∈ M, Off e f :=
  pairwise_append

theorem Apart.perm (h : Apart L) (hp : L.Perm M) : Apart M := (hp.pairwise_iff fun h => h.symm).mp h

theorem Apart.replace (h : Apart (e :: L)) (hM : Apart M) (hw : ∀ f ∈ M, Within f e) :
    Apart (M ++ L) := by
  obtain ⟨he, hL⟩ := apart_cons.mp h
  exact apart_append.mpr ⟨hM, hL, fun f hf g hg => (he g hg).within (hw f hf)⟩

theorem Apart.merge (h : Apart (e :: f :: L)) (hef : e.1 + e.2 = f.1)
    (hpos : ∀ g ∈ L, 0 < g.2) : Apart ((e.1, e.2 + f.2) :: L) := by
  obtain ⟨he, h⟩ := apart_cons.mp h
  obtain ⟨hf, hL⟩ := apart_cons.mp h
  refine apart_cons.mpr ⟨fun g hg => ?_, hL⟩
  have h1 := he g (mem_cons_of_mem _ hg)
  have h2 := hf g hg
  have h3 := hpos g hg
  unfold Off at *
  omega

theorem Apart.filter_ne (h : Apart (e :: L)) (hpos : ∀ f ∈ e :: L, 0 < f.2) :
    L.filter (fun f => f.1 ≠ e.1) = L := by
  refine filter_eq_self.mpr fun f hf => ?_
  have hne := ((apart_cons.mp h).1 f hf).ne (hpos e (by simp)) (hpos f (by simp [hf]))
  simpa using hne.symm

end Qnx.Extents
