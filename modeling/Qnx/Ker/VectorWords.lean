import Qnx.Ker.VectorOps

/-!
# The words of a vector

What the users of a vector see of it: the words of the slots in use, with their flag bits.
`vector_add` and `vector_rem` change one of them and leave a vector that can be used again.
-/

namespace Qnx.Ker

open Chain List Function Option

namespace Vec

variable {v v' : Vec} {F L R : List Nat} {objs : Nat → Option Nat} {i index object : Nat}

def used (v : Vec) (i : Nat) : Option Nat :=
  if i < v.nentries ∧ v.slots i % 2 = 0 then some (v.slots i) else none

def Sound (v : Vec) : Prop := ∃ F objs, v.Rep F objs

theorem Rep.used_eq (h : Rep v F objs) (i : Nat) :
    v.used i = if i < v.nentries ∧ i ∉ F then some (v.slots i) else none := by
  unfold used
  by_cases hi : i < v.nentries
  · have := h.tagged i hi
    by_cases hF : i ∈ F
    · rw [if_neg (by have := this.mpr hF; omega), if_neg (by tauto)]
    · rw [if_pos ⟨hi, by have := mt this.mp hF; omega⟩, if_pos ⟨hi, hF⟩]
  · rw [if_neg (by omega), if_neg (by omega)]

theorem used_congr {F' : List Nat} {objs' : Nat → Option Nat} (h : Rep v F objs)
    (h' : Rep v' F' objs')
    (hF : i < v'.nentries ∧ i ∉ F' ↔ i < v.nentries ∧ i ∉ F)
    (hs : i < v.nentries → i ∉ F → v'.slots i = v.slots i) : v'.used i = v.used i := by
  rw [h.used_eq, h'.used_eq]
  by_cases hc : i < v.nentries ∧ i ∉ F
  · rw [if_pos hc, if_pos (hF.mpr hc), hs hc.1 hc.2]
  · rw [if_neg hc, if_neg (mt hF.mp hc)]

theorem Rep.take_used (h : Rep v (L ++ i :: R) objs) (ho : object % 4 = 0) (hlt : object < 2 ^ 32) :
    (v.taken L i object).used = update v.used i (some object) := by
  have h' := h.take ho hlt
  generalize hv' : v.taken L i object = v' at h'
  unfold taken at hv'
  have hn : v'.nentries = v.nentries := by rw [← hv']; simp
  have hi : i < v.nentries := h.lt (by simp)
  have hnd := h.nodup
  have hiLR : i ∉ L ++ R := by
    intro hm
    rcases mem_append.mp hm with hm | hm
    · exact disjoint_of_nodup_append hnd hm mem_cons_self
    · exact (nodup_cons.mp (nodup_append.mp hnd).2.1).1 hm
  funext j
  by_cases hj : j = i
  · subst hj
    have hs : v'.slots j = object := by
      rw [← read_some, ← hv', read_with_nfree, write_read_self]
    rw [update_self, h'.used_eq, if_pos ⟨by omega, hiLR⟩, hs]
  rw [update_of_ne hj]
  refine used_congr h h' ?_ fun _ hF => ?_
  · simp [hn, hj]
  · have hne : some j ≠ endCell none L := fun e => by
      have := mem_of_endCell e.symm
      simp [this] at hF
    have hji : some j ≠ some i := fun e => hj (some.inj e)
    rw [← hv', ← read_some, read_with_nfree, write_read_of_ne hji, write_read_of_ne hne, read_some]

theorem Rep.grow_used (h : Rep v F objs) {n : Nat} (hn : v.nentries < n) (hmax : n ≤ vectorMax)
    (hg : Grown v v' F n) : v'.used = v.used := by
  funext j
  refine used_congr h (h.grow hn hmax hg) ?_ (hg.frame j)
  rw [mem_append, mem_range'_1, hg.nentries]
  constructor
  · rintro ⟨h1, h2⟩
    obtain ⟨h2, h3⟩ := not_or.mp h2
    exact ⟨by omega, h2⟩
  · rintro ⟨h1, h2⟩
    exact ⟨by omega, not_or.mpr ⟨h2, by omega⟩⟩

/-- `_scalloc` returns null or an aligned block in memory. -/
def Scalloc (alloc : Option Nat) : Prop :=
  ∀ ptr ∈ alloc, ptr % 4 = 0 ∧ 0 < ptr ∧ ptr + 4 * vectorMax ≤ 2 ^ 32

structure Holdable (object : Nat) : Prop where
  aligned : object % 4 = 0
  pos : 0 < object
  lt : object < 2 ^ 32

theorem Rep.used_between (h : Rep v (L ++ i :: R) objs) (hL : ∀ j ∈ L, j < index) {j : Nat}
    (hj : index ≤ j) (hji : j < i) : v.used j ≠ none := by
  have hi : i < v.nentries := h.lt (by simp)
  rw [h.used_eq, if_pos]
  · exact some_ne_none _
  refine ⟨by omega, fun hm => ?_⟩
  rcases mem_append.mp hm with hm | hm
  · have := hL j hm
    omega
  rcases mem_cons.mp hm with rfl | hm
  · exact lt_irrefl _ hji
  · have := (pairwise_cons.mp (pairwise_append.mp h.sorted).2.1).1 j hm
    omega

theorem Sound.vectorAdd (h : v.Sound) {alloc : Option Nat} (ho : Holdable object)
    (hidx : index + 1 < 2 ^ 32) (halloc : Scalloc alloc) :
    ∃ v', v'.Sound ∧ ((vectorAdd 2 v object index alloc = some (v', none) ∧ v'.used = v.used) ∨
      ∃ i, vectorAdd 2 v object index alloc = some (v', some i) ∧ v.used i = none ∧
        v'.used = update v.used i (some object) ∧ index ≤ i ∧
        ∀ j, index ≤ j → j < i → v.used j ≠ none) := by
  obtain ⟨F, objs, h⟩ := h
  have hle : v.growTo index ≤ vectorMax := Nat.min_le_left _ _
  obtain ⟨v1, F1, hr, hg, he⟩ := h.vectorAdd_ends ho.aligned ho.pos hidx (by
    intro ptr hp
    obtain ⟨h1, h2, h3⟩ := halloc ptr hp
    exact ⟨h1, h2, by omega⟩)
  have hw : v1.used = v.used := by
    rcases hg with rfl | ⟨n, hn, hmax, hg⟩
    · rfl
    · exact h.grow_used hn hmax hg
  rcases he with he | ⟨L, i, R, rfl, hi, hL, he⟩
  · exact ⟨v1, ⟨_, _, hr⟩, .inl ⟨he, hw⟩⟩
  refine ⟨_, ⟨_, _, hr.take ho.aligned ho.lt⟩, .inr ⟨i, he, ?_, ?_, hi, ?_⟩⟩
  · rw [← hw, hr.used_eq]
    simp
  · rw [hr.take_used ho.aligned ho.lt, hw]
  · intro j hj hji
    rw [← hw]
    exact hr.used_between hL hj hji

/-- An object goes to the lowest free slot from `index` on, and no other word in use changes; where
the call fails none does. -/
theorem vectorAdd_lowest (h : v.Sound) {alloc : Option Nat} (ho : Holdable object)
    (hidx : index < vectorMax) (halloc : Scalloc alloc) :
    ∃ v' r, vectorAdd 2 v object index alloc = some (v', r) ∧ v'.Sound ∧
      match r with
      | some i => index ≤ i ∧ v.used i = none ∧ (∀ j, index ≤ j → j < i → v.used j ≠ none) ∧
          v'.used = update v.used i (some object)
      | none => v'.used = v.used := by
  have hmax : index + 1 < 2 ^ 32 := by
    unfold vectorMax at hidx
    omega
  obtain ⟨v', hs, ⟨he, hw⟩ | ⟨i, he, hi, hw, hle, hlow⟩⟩ := h.vectorAdd ho hmax halloc
  · exact ⟨v', none, he, hs, hw⟩
  · exact ⟨v', some i, he, hs, hle, hi, hlow, hw⟩

/-- Slots 3 and 4 are taken already. -/
theorem vectorAdd_lowest_third : ∃ v v', v.used 3 = some 16 ∧ v.used 4 = some 20 ∧
    vectorAdd 2 v 24 3 (some 0x2000) = some (v', some 5) ∧ v'.Sound ∧
    v'.used = update v.used 5 (some 24) := by
  have ha (ptr : Nat) (h : ptr % 4 = 0 ∧ 0 < ptr ∧ ptr + 4 * vectorMax ≤ 2 ^ 32) :
      Scalloc (some ptr) := by
    rintro _ ⟨⟩
    exact h
  have hall : ((vectorAdd 2 zeroed 16 3 (some 0x1000)).bind fun a =>
      (vectorAdd 2 a.1 20 3 (some 0x1800)).bind fun b =>
      (vectorAdd 2 b.1 24 3 (some 0x2000)).map fun c => (b.1.used 3, b.1.used 4, c.2)) =
        some (some 16, some 20, some 5) := by decide +kernel
  obtain ⟨v1, r1, h1, hs1, -⟩ := vectorAdd_lowest ⟨_, _, Rep.zeroed⟩
    (⟨by decide, by decide, by decide⟩ : Holdable 16) (by decide : 3 < vectorMax) (ha 0x1000 (by decide))
  obtain ⟨v2, r2, h2, hs2, -⟩ := vectorAdd_lowest hs1
    (⟨by decide, by decide, by decide⟩ : Holdable 20) (by decide : 3 < vectorMax) (ha 0x1800 (by decide))
  obtain ⟨v3, r3, h3, hs3, hr⟩ := vectorAdd_lowest hs2
    (⟨by decide, by decide, by decide⟩ : Holdable 24) (by decide : 3 < vectorMax) (ha 0x2000 (by decide))
  simp only [h1, h2, h3, Option.bind_some, Option.map_some, Option.some.injEq, Prod.mk.injEq] at hall
  obtain ⟨h4, h5, rfl⟩ := hall
  exact ⟨v2, v3, h4, h5, h3, hs3, hr.2.2.2⟩

theorem Rep.put_used (h : Rep v (L ++ R) objs) (hi : index < v.nentries)
    (hL : ∀ j ∈ L, j < index) (hR : ∀ j ∈ R, index < j) :
    (v.given L index).used = update v.used index none := by
  have h' := h.put hi hL hR
  generalize hv' : v.given L index = v' at h'
  unfold given at hv'
  have hn : v'.nentries = v.nentries := by rw [← hv']; simp
  funext j
  by_cases hj : j = index
  · subst hj
    rw [h'.used_eq]
    simp
  rw [update_of_ne hj]
  refine used_congr h h' ?_ fun _ hF => ?_
  · simp [hn, hj]
  · have hne : some j ≠ endCell none L := fun e =>
      hF (mem_append_left _ (mem_of_endCell e.symm))
    have hji : some j ≠ some index := fun e => hj (some.inj e)
    rw [← hv', ← read_some, read_with_nfree, write_read_of_ne hne, write_read_of_ne hji, read_some]

theorem Sound.vectorRem (h : v.Sound) (index : Nat) :
    ∃ v' o, v.vectorRem index = some (v', o) ∧ v'.Sound ∧ v'.used = update v.used index none := by
  obtain ⟨F, objs, h⟩ := h
  by_cases hc : index < v.nentries ∧ index ∉ F
  · obtain ⟨L, R, rfl, hL, hR, he⟩ := h.remCell_eq hc.1 hc.2
    refine ⟨_, some (vecptr (v.slots index)), ?_, ⟨_, _, h.put hc.1 hL hR⟩, h.put_used hc.1 hL hR⟩
    rw [Vec.vectorRem, if_neg (mt h.free_iff.mp (not_not.mpr hc)), he]
    simp [given]
  have hnone : v.used index = none := by rw [h.used_eq, if_neg hc]
  refine ⟨v, none, by rw [Vec.vectorRem, if_pos (h.free_iff.mpr hc)], ⟨F, objs, h⟩, ?_⟩
  rw [← hnone, update_eq_self]

end Vec

end Qnx.Ker
