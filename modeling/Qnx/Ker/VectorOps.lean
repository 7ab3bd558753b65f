import Qnx.Ker.VectorRep

/-!
# The vector operations keep the representation

Whole runs of `vector_add`, `vector_rem`, `vector_flag` and `vector_free` from the zeroed vector.
-/

namespace Qnx.Ker

open Chain Run List Function

namespace Vec

variable {v : Vec} {F L R : List Nat} {objs : Nat → Option Nat} {i index : Nat}

theorem points_of_read {v v' : Vec} {c d : Option Nat} (hn : v.nentries ≤ v'.nentries)
    (hv : v'.vector = v.vector) (hr : v'.read d = v.read c) (o : Option Nat)
    (h : v.Points c o) : v'.Points d o := by
  cases o with
  | none => exact (congrArg vecptr hr).trans h
  | some i => exact ⟨by have := h.1; omega, by rw [hr, h.2, addr, addr, hv]⟩

def taken (v : Vec) (L : List Nat) (i object : Nat) : Vec :=
  { (v.write (endCell none L) (v.slots i)).write (some i) object with
    nfree := (v.nfree + 0xffff) % 2 ^ 16 }

def given (v : Vec) (L : List Nat) (i : Nat) : Vec :=
  { (v.write (some i) (v.read (endCell none L))).write (endCell none L) (vecor (v.addr i) 1) with
    nfree := (v.nfree + 1) % 2 ^ 16 }

/-- Only the slot of `i` and the cell at the end of `L` are written. -/
structure Edits (v v' : Vec) (L : List Nat) (i : Nat) : Prop where
  nentries : v'.nentries = v.nentries
  vector : v'.vector = v.vector
  read : ∀ d, d ≠ endCell none L → d ≠ some i → v'.read d = v.read d

theorem Edits.kept {v' : Vec} (h : Edits v v' L i) (hL : ∀ j ∈ R, j ∉ L) (hR : i ∉ R) :
    ∀ j ∈ R, ∀ o, v.Points (some j) o → v'.Points (some j) o := by
  intro j hj
  refine points_of_read h.nentries.ge h.vector (h.read _ ?_ ?_)
  · exact fun e => hL j hj (mem_of_endCell e.symm)
  · rintro ⟨⟩
    exact hR hj

namespace Rep

theorem edit {v' : Vec} {A B : List Nat} (h : Rep v (L ++ A) objs) (he : Edits v v' L i)
    (hi : i < v.nentries) (hiL : i ∉ L) (hmem : ∀ j, j ≠ i → (j ∈ A ↔ j ∈ B))
    (hchain : Visits v'.Points (endCell none L) B) (hsorted : (L ++ B).Pairwise (· < ·))
    (hodd : v'.read (endCell none L) % 2 = 1) (htag : v'.read (some i) % 2 = 1 ↔ i ∈ B)
    (hnfree : v'.nfree = (L ++ B).length) (hword : ∀ d, v'.read d < 2 ^ 32) :
    Rep v' (L ++ B) (update objs i (if i ∈ B then none else some (vecptr (v'.read (some i))))) := by
  refine ⟨h.chain.splice (nodup_append.mp h.nodup).1 ?_ hchain, hsorted, ?_, hnfree,
    he.nentries ▸ h.small, ?_, hword, ?_, ?_⟩
  · intro d h1 h2
    refine points_of_read he.nentries.ge he.vector (he.read d h1 ?_)
    rintro rfl
    exact hiL (h2 i rfl)
  · intro j hj
    rw [he.nentries] at hj
    rw [mem_append, ← read_some]
    by_cases hje : some j = endCell none L
    · rw [hje]
      exact iff_of_true hodd (.inl (mem_of_endCell hje.symm))
    by_cases hji : j = i
    · subst hji
      simpa [hiL] using htag
    · rw [he.read _ hje (by simpa using hji), read_some, h.tagged j hj, mem_append, hmem j hji]
  · intro j
    rw [he.nentries]
    by_cases hji : j = i
    · subst hji
      simp [hi, hiL]
    rw [update_of_ne hji, h.objects j]
    simp only [mem_append, hmem j hji]
    split
    · rename_i hc
      rw [← read_some, ← read_some, he.read _ (fun e => hc.2 (.inl (mem_of_endCell e.symm)))
        (by simpa using hji)]
    · rfl
  · intro hpos
    obtain ⟨h1, h2, h3⟩ := h.placed (he.nentries ▸ hpos)
    rw [← he.vector] at h1 h2 h3
    exact ⟨h1, h2, he.nentries ▸ h3⟩
  · intro hpos
    rw [← read_none]
    by_cases hc : none = endCell none L
    · rw [hc]
      exact hodd
    · rw [he.read _ hc nofun]
      exact h.head (he.nentries ▸ hpos)

theorem take (h : Rep v (L ++ i :: R) objs) {object : Nat} (ho : object % 4 = 0)
    (hlt : object < 2 ^ 32) :
    Rep (v.taken L i object) (L ++ R) (update objs i (some object)) := by
  have hnd := h.nodup
  have hi : i < v.nentries := h.lt (by simp)
  have hiL : i ∉ L := fun hm => disjoint_of_nodup_append hnd hm mem_cons_self
  have hiR : i ∉ R := (nodup_cons.mp (nodup_append.mp hnd).2.1).1
  have hLR : ∀ j ∈ R, j ∉ L := fun j hj hm =>
    disjoint_of_nodup_append hnd hm (mem_cons_of_mem _ hj)
  have he : Edits v (v.taken L i object) L i := by
    refine ⟨by simp [taken], by simp [taken], fun d h1 h2 => ?_⟩
    rw [taken, read_with_nfree, write_read_of_ne h2, write_read_of_ne h1]
  have hself : (v.taken L i object).read (some i) = object := by
    rw [taken, read_with_nfree, write_read_self]
  have hcell : (v.taken L i object).read (endCell none L) = v.slots i := by
    rw [taken, read_with_nfree, write_read_of_ne, write_read_self]
    intro e
    exact hiL (mem_of_endCell e)
  have hr := h.edit he hi hiL (B := R) ?_ ?_ ?_ ?_ ?_ ?_ ?_
  · rwa [if_neg hiR, hself, vecptr_eq hlt, show object / 4 * 4 = object by omega] at hr
  · intro j hj
    simp [hj]
  · exact (visits_append.mp h.chain).2.2.rehead (points_of_read he.nentries.ge he.vector hcell)
      (he.kept hLR hiR)
  · have := h.sorted
    rw [pairwise_append] at this ⊢
    exact ⟨this.1, (pairwise_cons.mp this.2.1).2,
      fun a ha b hb => this.2.2 a ha b (mem_cons_of_mem _ hb)⟩
  · rw [hcell]
    exact (h.tagged i hi).mpr (by simp)
  · rw [hself]
    exact iff_of_false (by omega) hiR
  · have hlen := h.length_le
    have hs := h.small
    have hnf := h.nfree
    simp only [taken, length_append, length_cons] at hlen hnf ⊢
    unfold vectorMax at hs
    omega
  · intro d
    rw [taken, read_with_nfree]
    exact write_word (write_word h.word (h.word (some i))) hlt d

theorem put (h : Rep v (L ++ R) objs) (hi : index < v.nentries) (hL : ∀ j ∈ L, j < index)
    (hR : ∀ j ∈ R, index < j) :
    Rep (v.given L index) (L ++ index :: R) (update objs index none) := by
  obtain ⟨hpa, hpp, hpf⟩ := h.placed (by omega)
  have hiL : index ∉ L := fun hm => lt_irrefl _ (hL _ hm)
  have hiR : index ∉ R := fun hm => lt_irrefl _ (hR _ hm)
  have hRL : ∀ j ∈ R, j ∉ L := fun j hj hm => lt_asymm (hL j hm) (hR j hj)
  have he : Edits v (v.given L index) L index := by
    refine ⟨by simp [given], by simp [given], fun d h1 h2 => ?_⟩
    rw [given, read_with_nfree, write_read_of_ne h1, write_read_of_ne h2]
  have hlink : vecor (v.addr index) 1 = v.addr index + 1 := vecor_one (by rw [addr]; omega)
  have hlt : vecor (v.addr index) 1 < 2 ^ 32 := by
    rw [hlink, addr]
    omega
  have hcell : (v.given L index).read (endCell none L) = v.addr index + 1 := by
    rw [given, read_with_nfree, write_read_self, hlink]
  have hself : (v.given L index).read (some index) = v.read (endCell none L) := by
    rw [given, read_with_nfree, write_read_of_ne, write_read_self]
    exact fun e => hiL (mem_of_endCell e.symm)
  have hr := h.edit he hi hiL (B := index :: R) ?_ ⟨⟨by rwa [he.nentries], ?_⟩, ?_⟩ ?_ ?_ ?_ ?_ ?_
  · rwa [if_pos mem_cons_self] at hr
  · intro j hj
    simp [hj]
  · rw [hcell, vecptr_eq (hlink ▸ hlt), addr, addr, he.vector]
    omega
  · exact (visits_append.mp h.chain).2.rehead (points_of_read he.nentries.ge he.vector hself)
      (he.kept hRL hiR)
  · have hs := pairwise_append.mp h.sorted
    refine pairwise_append.mpr ⟨hs.1, pairwise_cons.mpr ⟨hR, hs.2.1⟩, ?_⟩
    intro a ha
    exact forall_mem_cons.mpr ⟨hL a ha, hs.2.2 a ha⟩
  · rw [hcell, addr]
    omega
  · rw [hself]
    simp [h.odd (by omega)]
  · have hlen := h.length_le
    have hs := h.small
    have hnf := h.nfree
    simp only [given, length_append, length_cons] at hlen hnf ⊢
    unfold vectorMax at hs
    omega
  · exact write_word (write_word h.word (h.word _)) hlt

section

variable (h : Rep v F objs)
include h

theorem scanBack_eq {i k : Nat} (hi : i < v.nentries) (hk : k ∈ F)
    (hki : k ≤ i) : ∃ j ∈ F, j ≤ i ∧ (∀ m ∈ F, m ≤ i → m ≤ j) ∧ v.scanBack i = some j := by
  induction i with
  | zero =>
    obtain rfl : k = 0 := by omega
    refine ⟨0, hk, hki, fun _ _ hm => hm, ?_⟩
    rw [scanBack, vecand_one, if_neg]
    have := (h.tagged 0 hi).mpr hk
    omega
  | succ i ih =>
    by_cases hm : i + 1 ∈ F
    · refine ⟨i + 1, hm, le_rfl, fun _ _ hle => hle, ?_⟩
      rw [scanBack, vecand_one, if_neg]
      have := (h.tagged (i + 1) hi).mpr hm
      omega
    have hki' : k ≤ i := by
      rcases Nat.lt_or_ge k (i + 1) with hlt | hge
      · omega
      · obtain rfl : k = i + 1 := by omega
        exact absurd hk hm
    obtain ⟨j, hj, hji, hmax, he⟩ := ih (by omega) hki'
    refine ⟨j, hj, by omega, ?_, ?_⟩
    · intro m hmF hle
      refine hmax m hmF ?_
      rcases Nat.lt_or_ge m (i + 1) with hlt | hge
      · omega
      · obtain rfl : m = i + 1 := by omega
        exact absurd hmF hm
    · rw [scanBack, vecand_one, if_pos, he]
      have := mt (h.tagged (i + 1) hi).mp hm
      omega

theorem remCell_eq (hi : index < v.nentries) (hnot : index ∉ F) :
    ∃ L R, F = L ++ R ∧ (∀ j ∈ L, j < index) ∧ (∀ j ∈ R, index < j) ∧
      v.remCell index = some (endCell none L) := by
  have hplaced := h.placed (by omega)
  cases F with
  | nil =>
    refine ⟨[], [], rfl, by simp, by simp, ?_⟩
    rw [remCell, if_pos (.inl h.chain)]
    rfl
  | cons f F =>
    obtain ⟨hfn, hptr⟩ := h.chain.1
    rw [read_none] at hptr
    have hsorted := pairwise_cons.mp h.sorted
    have hpos := hplaced.pos
    have hne : vecptr v.free ≠ 0 := by
      rw [hptr, addr]
      omega
    by_cases hlt : index < f
    · refine ⟨[], f :: F, rfl, by simp, ?_, ?_⟩
      · exact forall_mem_cons.mpr ⟨hlt, fun j hj => hlt.trans (hsorted.1 j hj)⟩
      · rw [remCell, if_pos]
        · rfl
        · rw [hptr, addr, addr]
          omega
    have hfi : f < index := by
      rcases Nat.lt_or_ge f index with hc | hc
      · exact hc
      · obtain rfl : f = index := by omega
        exact absurd mem_cons_self hnot
    obtain ⟨j, hj, hji, hmax, he⟩ := h.scanBack_eq (i := index - 1) (k := f) (by omega)
      mem_cons_self (by omega)
    obtain ⟨L, R, hF⟩ := append_of_mem hj
    have hs := pairwise_append.mp (hF ▸ h.sorted)
    refine ⟨L ++ [j], R, by simpa using hF, ?_, ?_, ?_⟩
    · intro m hm
      rcases mem_append.mp hm with hm | hm
      · have := hs.2.2 m hm j mem_cons_self
        omega
      · obtain rfl := mem_singleton.mp hm
        omega
    · intro m hm
      have hjm := (pairwise_cons.mp hs.2.1).1 m hm
      have hmF : m ∈ f :: F := by
        rw [hF]
        simp [hm]
      rcases Nat.lt_trichotomy m index with hc | rfl | hc
      · have := hmax m hmF (by omega)
        omega
      · exact absurd hmF hnot
      · exact hc
    · rw [remCell, if_neg, if_neg (by omega), he, endCell_append]
      · rfl
      · rintro (hc | hc)
        · exact hne hc
        · rw [hptr, addr, addr] at hc
          omega

theorem free_iff {i : Nat} :
    v.nentries ≤ i ∨ vecand (v.slots i) 1 ≠ 0 ↔ ¬(i < v.nentries ∧ i ∉ F) := by
  rw [vecand_one]
  by_cases hi : i < v.nentries
  · have htag := h.tagged i hi
    rw [← htag]
    omega
  · omega

theorem vectorRem (index : Nat) : ∃ v' F', v.vectorRem index = some (v', objs index) ∧
      Rep v' F' (update objs index none) := by
  have hobj := h.objects index
  by_cases hc : index < v.nentries ∧ index ∉ F
  · obtain ⟨L, R, rfl, hL, hR, he⟩ := h.remCell_eq hc.1 hc.2
    refine ⟨_, _, ?_, h.put hc.1 hL hR⟩
    rw [Vec.vectorRem, if_neg (mt h.free_iff.mp (not_not.mpr hc)), he, hobj, if_pos hc]
    simp [given]
  rw [if_neg hc] at hobj
  refine ⟨v, F, by rw [Vec.vectorRem, if_pos (h.free_iff.mpr hc), hobj], ?_⟩
  rw [show update objs index none = objs from update_eq_self_iff.mpr hobj.symm]
  exact h

theorem vectorFlag (index : Nat) (flag : Bool) : Rep (v.vectorFlag index flag).1 F objs := by
  unfold Vec.vectorFlag
  by_cases hc : v.nentries ≤ index ∨ vecand (v.slots index) 1 ≠ 0
  · rw [if_pos hc]
    exact h
  rw [if_neg hc]
  rw [vecand_one] at hc
  have hi : index < v.nentries := by omega
  have heven : v.slots index % 2 = 0 := by omega
  have hnot : index ∉ F := by
    intro hm
    have := (h.tagged index hi).mpr hm
    omega
  have hlt := h.word (some index)
  rw [read_some] at hlt
  obtain ⟨w, hw⟩ : ∃ w, w = if flag then vecor (v.slots index) 2
    else vecand (v.slots index) 0xfffffffd := ⟨_, rfl⟩
  have hww : w % 2 = 0 ∧ w < 2 ^ 32 ∧ vecptr w = vecptr (v.slots index) := by
    have hle : w / 4 = v.slots index / 4 ∧ w % 2 = 0 := by
      cases flag with
      | true =>
        rw [hw, if_pos rfl, vecor_two heven]
        omega
      | false =>
        rw [hw, if_neg Bool.false_ne_true, vecand_not_two heven hlt]
        omega
    refine ⟨hle.2, by omega, ?_⟩
    rw [vecptr_eq (by omega), vecptr_eq hlt, hle.1]
  dsimp only
  rw [← hw]
  have hread : ∀ d, d ≠ some index → (v.write (some index) w).read d = v.read d :=
    fun d hd => write_read_of_ne hd
  have hslots : ∀ j, j ≠ index → (v.write (some index) w).slots j = v.slots j :=
    fun j hj => hread (some j) (by simpa using hj)
  refine ⟨?_, h.sorted, ?_, by simpa using h.nfree, by simpa using h.small, ?_,
    write_word h.word hww.2.1, ?_, ?_⟩
  · refine h.chain.rehead (points_of_read (by simp) (by simp) (hread _ (by simp))) ?_
    intro j hj
    refine points_of_read (by simp) (by simp) (hread _ ?_)
    rintro ⟨⟩
    exact hnot hj
  · intro j hj
    by_cases hji : j = index
    · subst hji
      rw [← read_some, write_read_self]
      simp only [hnot, iff_false]
      omega
    · rw [hslots j hji]
      exact h.tagged j hj
  · intro j
    rw [h.objects j, write_nentries]
    by_cases hji : j = index
    · subst hji
      rw [← read_some, ← read_some, write_read_self, hww.2.2]
      rfl
    · rw [hslots j hji]
  · intro hpos
    have hp := h.placed (by omega)
    exact ⟨by simpa using hp.aligned, by simpa using hp.pos, by simpa using hp.fits⟩
  · intro hpos
    exact h.head (by omega)

end

end Rep

structure Grown (v v' : Vec) (F : List Nat) (n : Nat) : Prop where
  nentries : v'.nentries = n
  nfree : v'.nfree = (v.nfree + (n - v.nentries)) % 2 ^ 16
  chain : Visits v'.Points none (F ++ range' v.nentries (n - v.nentries))
  frame : ∀ i < v.nentries, i ∉ F → v'.slots i = v.slots i
  tagged : ∀ i, i ∈ F ∨ v.nentries ≤ i ∧ i < n → v'.slots i % 2 = 1
  head : v'.free % 2 = 1
  word : ∀ c, v'.read c < 2 ^ 32
  placed : v'.Placed

def moved (v : Vec) (ptr n : Nat) : Vec :=
  { v with
    nentries := n
    vector := ptr
    slots := fun i => if i < v.nentries then v.slots i else 0 }

theorem moved_read (v : Vec) (ptr n : Nat) {d : Option Nat}
    (hd : ∀ i, d = some i → i < v.nentries) : (v.moved ptr n).read d = v.read d := by
  cases d with
  | none => rfl
  | some i => exact if_pos (hd i rfl)

theorem moved_word (hw : ∀ c, v.read c < 2 ^ 32) (ptr n : Nat) (d : Option Nat) :
    (v.moved ptr n).read d < 2 ^ 32 := by
  cases d with
  | none => exact hw none
  | some i =>
    show (if i < v.nentries then v.slots i else 0) < 2 ^ 32
    split
    · exact hw (some i)
    · decide

namespace Rep

section

variable (h : Rep v F objs)
include h

theorem cells_nodup : (none :: F.map some).Nodup :=
  nodup_cons.mpr ⟨by simp, List.Nodup.map (fun _ _ => Option.some.inj) h.nodup⟩

theorem relocate_moved {ptr n : Nat} (hn : v.nentries < n) (hp : (v.moved ptr n).Placed) :
    ∃ v', relocate ((ptr + 2 ^ 32 - v.vector) % 2 ^ 32) (n + 1) (v.moved ptr n) none =
        some (v', endCell none F) ∧ Relocated (v.moved ptr n) v' none F := by
  have hlt : ∀ i ∈ F, ∀ j, some i = some j → j < v.nentries := by
    rintro i hi j ⟨⟩
    exact h.lt hi
  refine relocate_visits _ _ v.vector v.nentries _ hp (hn.le) (moved_word h.word ptr n)
    ?_ ?_ h.cells_nodup ?_
  · intro hF
    obtain ⟨f, hf⟩ := exists_mem_of_ne_nil F hF
    have hold := h.placed (Nat.zero_lt_of_lt (h.lt hf))
    have h1 := hold.aligned
    have h2 := hold.pos
    have h3 := hold.fits
    exact ⟨h1, h2, h3, by show _ = ptr % 2 ^ 32; omega⟩
  · refine h.chain.rehead ?_ ?_
    · intro o ho
      have hr := moved_read v ptr n (d := none) (by simp)
      simpa only [PointsFrom, Points, addr, hr] using ho
    · intro i hi o ho
      have hr := moved_read v ptr n (hlt i hi)
      simpa only [PointsFrom, Points, addr, hr] using ho
  · have := h.length_le
    omega

theorem grow_eq {ptr n : Nat} (hn : v.nentries < n)
    (hptr : ptr % 4 = 0 ∧ 0 < ptr ∧ ptr + 4 * n ≤ 2 ^ 32) :
    ∃ v', v.grow ptr n = some v' ∧ Grown v v' F n := by
  obtain ⟨v2, hreloc, hr⟩ := h.relocate_moved hn ⟨hptr.1, hptr.2.1, hptr.2.2⟩
  have hn2 : v2.nentries = n := hr.nentries
  have hp2 : v2.vector = ptr := hr.vector
  obtain ⟨x, hx⟩ : ∃ x, x = vecor (v2.addr v.nentries) 1 := ⟨_, rfl⟩
  have hxeq : x = ptr + 4 * v.nentries + 1 := by
    rw [hx, addr, hp2, vecor_one (by omega)]
  have hxlt : x < 2 ^ 32 := by omega
  obtain ⟨k, hk⟩ : ∃ k, n - v.nentries = k + 1 := ⟨n - v.nentries - 1, by omega⟩
  obtain ⟨v3, hlink, hl⟩ := linkNew_visits (v2.write (endCell none F) x) v.nentries k
    ⟨by simpa [hp2] using hptr.1, by simpa [hp2] using hptr.2.1,
      by simpa [hp2, hn2] using hptr.2.2⟩ (by rw [write_nentries]; omega)
  have hn3 : v3.nentries = n := by simp [hl.nentries, hn2]
  have hp3 : v3.vector = ptr := by simp [hl.vector, hp2]
  have hcell : v3.read (endCell none F) = x := by
    rw [hl.frame _ fun i hi => h.lt (mem_of_endCell hi), write_read_self]
  have hframe : ∀ d, d ≠ endCell none F → (∀ i, d = some i → i < v.nentries) →
      v3.read d = v2.read d := by
    intro d h1 h2
    rw [hl.frame d h2, write_read_of_ne h1]
  -- a cell of the free list keeps its tag bit, or is the last one and gets a new link
  have hodd : ∀ d, (∀ i, d = some i → i < v.nentries) → v.read d % 2 = 1 → v3.read d % 2 = 1 := by
    intro d hd ho
    by_cases he : d = endCell none F
    · rw [he]
      omega
    rw [hframe d he hd]
    have := hr.tag d
    rw [moved_read v ptr n hd] at this
    omega
  refine ⟨{ v3 with nfree := (v3.nfree + (n - v.nentries)) % 2 ^ 16 }, ?_, hn3, ?_, ?_, ?_, ?_, ?_,
    ?_, ⟨?_, ?_, ?_⟩⟩
  · rw [Vec.grow, if_neg (by omega)]
    show Option.bind (relocate _ _ (v.moved ptr n) none) _ = _
    rw [hreloc, Option.bind_some]
    dsimp only
    rw [← hx, hk, hlink, Option.map_some]
  · rw [hl.nfree, write_nfree, hr.nfree]
    rfl
  · have hpoints : ∀ c o, v3.Points c o →
        ({ v3 with nfree := (v3.nfree + (n - v.nentries)) % 2 ^ 16 } : Vec).Points c o :=
      fun c => points_of_read (le_rfl) rfl (read_with_nfree _)
    rw [hk]
    have hfirst : v3.Points (endCell none F) (some v.nentries) := by
      refine ⟨by omega, ?_⟩
      rw [hcell, vecptr_eq hxlt, addr]
      omega
    refine visits_append.mpr ⟨?_, hpoints _ _ hfirst,
      hl.chain.rehead (hpoints _) fun i _ => hpoints _⟩
    refine hr.starts.congr h.cells_nodup ?_
    intro d hm hne i hi
    refine hpoints _ _ (points_of_read (by omega) (by omega) (hframe d hne ?_) _ hi)
    rintro j rfl
    exact h.lt (by simpa using hm)
  · intro i him hiF
    have hd : ∀ j, some i = some j → j < v.nentries := by
      rintro j ⟨⟩
      exact him
    have hne : some i ≠ endCell none F := fun e => hiF (mem_of_endCell e.symm)
    show v3.read (some i) = v.read (some i)
    rw [hframe _ hne hd, hr.frame _ (by simpa using hiF), moved_read v ptr n hd]
  · rintro i (hi | hi)
    · refine hodd (some i) ?_ ((h.tagged i (h.lt hi)).mpr hi)
      rintro j ⟨⟩
      exact h.lt hi
    · exact hl.tagged i hi.1 (by omega)
  · by_cases he : none = endCell none F
    · show v3.read none % 2 = 1
      rw [he]
      omega
    refine hodd none (by simp) (h.head ?_)
    cases hF : F with
    | nil => exact absurd (by rw [hF]; rfl) he
    | cons f F' => exact Nat.zero_lt_of_lt (h.lt (by rw [hF]; exact mem_cons_self))
  · exact hl.word (write_word hr.word hxlt)
  · show v3.vector % 4 = 0
    omega
  · show 0 < v3.vector
    omega
  · show v3.vector + 4 * v3.nentries ≤ 2 ^ 32
    omega

theorem grow {v' : Vec} {n : Nat} (hn : v.nentries < n) (hmax : n ≤ vectorMax)
    (hg : Grown v v' F n) : Rep v' (F ++ range' v.nentries (n - v.nentries)) objs := by
  have hnew : ∀ i, i ∈ range' v.nentries (n - v.nentries) ↔ v.nentries ≤ i ∧ i < n := by
    intro i
    rw [mem_range'_1]
    omega
  refine ⟨hg.chain, ?_, ?_, ?_, ?_, ?_, hg.word, fun _ => hg.placed, fun _ => hg.head⟩
  · refine pairwise_append.mpr ⟨h.sorted, pairwise_lt_range', ?_⟩
    intro a ha b hb
    have := h.lt ha
    have := ((hnew b).mp hb).1
    omega
  · intro i hi
    rw [hg.nentries] at hi
    rw [mem_append, hnew]
    refine ⟨?_, hg.tagged i ∘ Or.imp_right id⟩
    intro ht
    · by_contra hiF
      have hiF := (not_or.mp hiF).1
      rw [hg.frame i (by omega) hiF] at ht
      exact hiF ((h.tagged i (by omega)).mp ht)
  · have hlen := h.length_le
    have hnf := h.nfree
    rw [hg.nfree, length_append, length_range']
    unfold vectorMax at hmax
    omega
  · rw [hg.nentries]
    exact hmax
  · intro i
    rw [h.objects i, hg.nentries]
    simp only [mem_append, hnew]
    by_cases hc : i < v.nentries ∧ i ∉ F
    · rw [if_pos hc, if_pos ⟨by omega, by rintro (hm | hm); exacts [hc.2 hm, by omega]⟩,
        hg.frame i hc.1 hc.2]
    rw [if_neg hc, if_neg]
    rintro ⟨h1, h2⟩
    obtain ⟨h2, h3⟩ := not_or.mp h2
    exact hc ⟨by omega, h2⟩

theorem lt_growTo (hne : v.nentries ≠ vectorMax) (hidx : index + 1 < 2 ^ 32) :
    v.nentries < v.growTo index ∧ v.growTo index ≤ vectorMax ∧
      (index < v.growTo index ∨ v.growTo index = vectorMax) := by
  have hs := h.small
  unfold growTo at *
  split <;> omega

theorem vectorAdd_cases {object : Nat} (alloc : Option Nat)
    (ho : object % 4 = 0) (index fuel : Nat) :
    (∃ L i R, F = L ++ i :: R ∧ index ≤ i ∧ (∀ j ∈ L, j < index) ∧
      vectorAdd (fuel + 1) v object index alloc = some (v.taken L i object, some i)) ∨
    ((∀ i ∈ F, i < index) ∧ vectorAdd (fuel + 1) v object index alloc =
      if v.nentries = vectorMax then some (v, none)
      else match alloc with
        | none => some (v, none)
        | some ptr => (v.grow ptr (v.growTo index)).bind fun v =>
          if object ≠ 0 then vectorAdd fuel v object index alloc else some (v, some index)) := by
  have haligned : ¬ vecand object 3 ≠ 0 := by
    rw [vecand_three]
    omega
  have hlen := h.length_le
  rcases findFree_visits (fun hn => h.placed (Nat.pos_of_ne_zero hn)) h.chain
    (Nat.lt_succ_of_le hlen) with ⟨L, i, R, hF, hi, hL, he⟩ | ⟨hall, he⟩
  · refine .inl ⟨L, i, R, hF, hi, hL, ?_⟩
    rw [Vec.vectorAdd.eq_def]
    dsimp only
    rw [if_neg haligned, he, Option.bind_some]
    simp only [taken, write_nfree]
  · refine .inr ⟨hall, ?_⟩
    rw [Vec.vectorAdd.eq_def]
    dsimp only
    rw [if_neg haligned, he]
    rfl

end

section Add

variable {object : Nat} {alloc : Option Nat}

section

variable (h : Rep v F objs) (ho : object % 4 = 0) (hpos : 0 < object) (hidx : index + 1 < 2 ^ 32)
  (halloc : ∀ ptr ∈ alloc, ptr % 4 = 0 ∧ 0 < ptr ∧ ptr + 4 * v.growTo index ≤ 2 ^ 32)
include h ho hpos hidx halloc

/-- The call fails in `v1`, which is `v` or has grown out of it, or takes the first free slot. -/
theorem vectorAdd_ends :
    ∃ v1 F1, Rep v1 F1 objs ∧ (v1 = v ∨ ∃ n, v.nentries < n ∧ n ≤ vectorMax ∧ Grown v v1 F n) ∧
      (vectorAdd 2 v object index alloc = some (v1, none) ∨
        ∃ L i R, F1 = L ++ i :: R ∧ index ≤ i ∧ (∀ j ∈ L, j < index) ∧
          vectorAdd 2 v object index alloc = some (v1.taken L i object, some i)) := by
  rcases h.vectorAdd_cases alloc ho index 1 with hc | ⟨hall, he⟩
  · exact ⟨v, F, h, .inl rfl, .inr hc⟩
  by_cases hmax : v.nentries = vectorMax
  · exact ⟨v, F, h, .inl rfl, .inl (by rw [he, if_pos hmax])⟩
  rw [if_neg hmax] at he
  cases alloc with
  | none => exact ⟨v, F, h, .inl rfl, .inl he⟩
  | some ptr =>
    obtain ⟨hgt, hle, hroom⟩ := h.lt_growTo hmax hidx
    obtain ⟨v', hge, hg⟩ := h.grow_eq hgt (halloc ptr rfl)
    have hr := h.grow hgt hle hg
    simp only [hge, if_pos (hpos.ne')] at he
    refine ⟨v', _, hr, .inr ⟨_, hgt, hle, hg⟩, ?_⟩
    rw [he]
    -- the new slots reach past `index`, or the vector is at its limit
    rcases hr.vectorAdd_cases (some ptr) ho index 0 with hc | ⟨hall', he'⟩
    · exact .inr hc
    have hlast : v.growTo index - 1 < index := by
      refine hall' _ (mem_append_right _ (mem_range'_1.mpr ?_))
      omega
    rw [hg.nentries, if_pos (by omega)] at he'
    exact .inl he'

theorem vectorAdd (hlt : object < 2 ^ 32) :
    ∃ v' F', (vectorAdd 2 v object index alloc = some (v', none) ∧ Rep v' F' objs) ∨
      ∃ i, index ≤ i ∧ objs i = none ∧ vectorAdd 2 v object index alloc = some (v', some i) ∧
        Rep v' F' (update objs i (some object)) := by
  obtain ⟨v1, F1, hr, -, he | ⟨L, i, R, rfl, hi, -, he⟩⟩ := h.vectorAdd_ends ho hpos hidx halloc
  · exact ⟨v1, F1, .inl ⟨he, hr⟩⟩
  refine ⟨_, _, .inr ⟨i, hi, ?_, he, hr.take ho hlt⟩⟩
  rw [hr.objects i]
  simp

end

end Add

theorem vectorFree (h : Rep v F objs) (hf : v.nfree = 0) : Rep v.vectorFree [] fun _ => none := by
  have hF : F = [] := eq_nil_of_length_eq_zero (h.nfree ▸ hf)
  refine ⟨?_, Pairwise.nil, ?_, rfl, Nat.zero_le _, ?_, h.word, ?_, ?_⟩
  · exact (hF ▸ h.chain : Visits v.Points none [])
  · intro i hi
    exact absurd hi (Nat.not_lt_zero i)
  · intro i
    rw [if_neg]
    rintro ⟨hi, -⟩
    exact absurd hi (Nat.not_lt_zero i)
  · intro hn
    exact absurd hn (lt_irrefl 0)
  · intro hn
    exact absurd hn (lt_irrefl 0)

end Rep

end Vec

/-- A vector with the objects added to it and not removed since, by slot. -/
structure VecRun where
  vec : Vec
  objs : Nat → Option Nat

namespace VecRun

inductive Op where
  | add (object index : Nat) (alloc : Option Nat)
  | rem (index : Nat)
  | flag (index : Nat) (flag : Bool)
  | free
  deriving DecidableEq, Repr

def step (r : VecRun) : Op → Option VecRun
  | .add object index alloc =>
    (r.vec.vectorAdd 2 object index alloc).map fun
      | (v, some i) => ⟨v, update r.objs i (some object)⟩
      | (v, none) => ⟨v, r.objs⟩
  | .rem index =>
    (r.vec.vectorRem index).map fun
      | (v, some _) => ⟨v, update r.objs index none⟩
      | (v, none) => ⟨v, r.objs⟩
  | .flag index flag => some ⟨(r.vec.vectorFlag index flag).1, r.objs⟩
  | .free => some ⟨r.vec.vectorFree, fun _ => none⟩

def Init (r : VecRun) : Prop := r = ⟨Vec.zeroed, fun _ => none⟩

/-- Objects are aligned and not null; `_scalloc` returns null or an aligned block in memory. -/
def Entry (r : VecRun) : Op → Prop
  | .add object index alloc => object % 4 = 0 ∧ 0 < object ∧ object < 2 ^ 32 ∧ index < 2 ^ 32 ∧
    ∀ ptr ∈ alloc, ptr % 4 = 0 ∧ 0 < ptr ∧ ptr + 4 * r.vec.growTo index ≤ 2 ^ 32
  | .rem index => index < 2 ^ 32
  | .flag index _ => index < 2 ^ 32
  | .free => True

/-- `index + 1` does not wrap, and a vector is freed with no slot on its free list. -/
def Keeps (r : VecRun) : Op → Prop
  | .add _ index _ => index ≠ 0xffffffff
  | .free => r.vec.nfree = 0
  | _ => True

instance (r : VecRun) (o : Op) : Decidable (r.Entry o) := by
  cases o <;> unfold Entry <;> infer_instance

instance (r : VecRun) (o : Op) : Decidable (r.Keeps o) := by
  cases o <;> unfold Keeps <;> infer_instance

variable {r : VecRun}

theorem rep_step {F : List Nat} {o : Op} (h : r.vec.Rep F r.objs) (he : r.Entry o)
    (hk : r.Keeps o) : ∃ r' F', r.step o = some r' ∧ r'.vec.Rep F' r'.objs := by
  cases o with
  | add object index alloc =>
    obtain ⟨h1, h2, h3, h4, h5⟩ := he
    obtain ⟨v', F', ⟨heq, hr⟩ | ⟨i, -, -, heq, hr⟩⟩ :=
      h.vectorAdd h1 h2 (by have : index ≠ 0xffffffff := hk; omega) h5 h3
    · exact ⟨⟨v', r.objs⟩, F', by simp [step, heq], hr⟩
    · exact ⟨⟨v', _⟩, F', by rw [step, heq]; rfl, hr⟩
  | rem index =>
    obtain ⟨v', F', heq, hr⟩ := h.vectorRem index
    cases ho : r.objs index with
    | none =>
      rw [ho] at heq
      rw [update_eq_self_iff.mpr ho.symm] at hr
      exact ⟨⟨v', r.objs⟩, F', by simp [step, heq], hr⟩
    | some object =>
      rw [ho] at heq
      exact ⟨⟨v', _⟩, F', by rw [step, heq]; rfl, hr⟩
  | flag index flag => exact ⟨_, F, rfl, h.vectorFlag index flag⟩
  | free => exact ⟨_, [], rfl, h.vectorFree hk⟩

/-- In every run whose indices do not wrap and whose vectors are freed full, the vector is
represented after every operation, and no operation faults. -/
theorem vector_represented (h : Reach Init (fun r o => r.Entry o ∧ r.Keeps o) step r) :
    (∃ F, r.vec.Rep F r.objs) ∧ ∀ o, r.Entry o → r.Keeps o → (r.step o).isSome := by
  have hrep : ∃ F, r.vec.Rep F r.objs := by
    refine h.invariant_of_total (P := fun r => ∃ F, r.vec.Rep F r.objs) ?_ ?_
    · rintro s rfl
      exact ⟨[], Vec.Rep.zeroed⟩
    · rintro s o ⟨F, hF⟩ ho
      obtain ⟨r', F', he, hr⟩ := rep_step hF ho.1 ho.2
      exact ⟨r', he, F', hr⟩
  refine ⟨hrep, ?_⟩
  intro o he hk
  obtain ⟨F, hF⟩ := hrep
  obtain ⟨r', F', hs, -⟩ := rep_step hF he hk
  rw [hs]
  rfl

theorem vector_represented_run : ∃ r, Reach Init (fun r o => r.Entry o ∧ r.Keeps o) step r ∧
      (r.vec.nentries = 11 ∧ r.vec.nfree = 9 ∧ r.objs 5 = some 64 ∧ r.objs 10 = some 72) ∧
      (∃ F, r.vec.Rep F r.objs) ∧ ∀ o, r.Entry o → r.Keeps o → (r.step o).isSome := by
  have h0 : Reach Init (fun r o => r.Entry o ∧ r.Keeps o) step ⟨Vec.zeroed, fun _ => none⟩ :=
    .init rfl
  obtain ⟨r, h, hq⟩ := h0.replay_any
    [.add 64 5 (some 4096), .add 68 2 none, .flag 5 true, .add 72 10 (some 8192), .rem 2, .rem 3]
    (fun r => r.vec.nentries = 11 ∧ r.vec.nfree = 9 ∧ r.objs 5 = some 64 ∧ r.objs 10 = some 72)
    (by decide +kernel)
  exact ⟨r, h, of_decide_eq_true hq, vector_represented h⟩

/-- After `vector_free` the free list still leads into the old array; and an index of -1 makes
`vector_add` write outside the new one. -/
theorem vector_not_represented : (∃ r, Reach Init Entry step r ∧ ¬ ∃ F, r.vec.Rep F r.objs) ∧
    ∃ r, Reach Init Entry step r ∧ ∃ o, r.Entry o ∧ r.step o = none := by
  have h0 : Reach Init Entry step ⟨Vec.zeroed, fun _ => none⟩ := .init rfl
  constructor
  · obtain ⟨r, h, hq⟩ := h0.replay_any [.add 64 0 (some 4096), .free]
      (fun r => r.vec.nentries = 0 ∧ vecptr r.vec.free ≠ 0) (by decide +kernel)
    have hq := of_decide_eq_true hq
    refine ⟨r, h, ?_⟩
    rintro ⟨F, hF⟩
    cases F with
    | nil => exact hq.2 hF.chain
    | cons i F =>
      have := hF.lt mem_cons_self
      omega
  · exact ⟨_, h0, .add 64 0xffffffff (some 4096), by decide, by decide +kernel⟩

end VecRun

end Qnx.Ker
