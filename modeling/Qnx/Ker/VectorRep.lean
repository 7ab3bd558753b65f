import Mathlib.Data.List.Perm.Subperm
import Qnx.Ker.Vector

/-!
# What a vector represents

`Rep v F objs`: the free list of `v` visits `F`, and `objs` are the objects in the other slots.
Every operation of `nano_vector.c` carries it to the operation's result.
-/

namespace Qnx.Ker

open Chain List

theorem land_high {x b : Nat} (hx : x < 2 ^ 32) (hb : b < 4) :
    x &&& (4 * (2 ^ 30 - 1) + b) = x / 4 * 4 + (x % 4 &&& b) := by
  have hdiv : (x &&& (4 * (2 ^ 30 - 1) + b)) / 2 ^ 2 = x / 4 := by
    rw [Nat.and_div_two_pow, show (4 * (2 ^ 30 - 1) + b) / 2 ^ 2 = 2 ^ 30 - 1 by omega,
      Nat.and_two_pow_sub_one_of_lt_two_pow (by omega)]
  have hmod : (x &&& (4 * (2 ^ 30 - 1) + b)) % 2 ^ 2 = x % 4 &&& b := by
    rw [Nat.and_mod_two_pow, show (4 * (2 ^ 30 - 1) + b) % 2 ^ 2 = b by omega]
  omega

theorem vecptr_eq {w : Nat} (h : w < 2 ^ 32) : vecptr w = w / 4 * 4 := by
  have := land_high (b := 0) h (by omega)
  simpa [vecptr, vecand] using this

theorem vecand_one (w : Nat) : vecand w 1 = w % 2 := Nat.and_one_is_mod w

theorem vecand_three (w : Nat) : vecand w 3 = w % 4 := Nat.and_two_pow_sub_one_eq_mod w 2

theorem vecor_one {a : Nat} (h : a % 4 = 0) : vecor a 1 = a + 1 := by
  have := Nat.two_pow_add_eq_or_of_lt (i := 2) (b := 1) (by omega) (a / 4)
  rw [show 2 ^ 2 * (a / 4) = a by omega] at this
  exact this.symm

theorem vecor_two {w : Nat} (h : w % 2 = 0) : vecor w 2 = w / 4 * 4 + 2 := by
  have hw := Nat.two_pow_add_eq_or_of_lt (i := 2) (b := w % 4) (by omega) (w / 4)
  have h2 := Nat.two_pow_add_eq_or_of_lt (i := 2) (b := 2) (by omega) (w / 4)
  have hr : w % 4 ||| 2 = 2 := by
    rcases (by omega : w % 4 = 0 ∨ w % 4 = 2) with e | e <;> rw [e] <;> rfl
  rw [vecor, show w = 2 ^ 2 * (w / 4) + w % 4 by omega, hw, Nat.or_assoc, hr]
  omega

theorem vecand_not_two {w : Nat} (h : w % 2 = 0) (hw : w < 2 ^ 32) :
    vecand w 0xfffffffd = w / 4 * 4 := by
  have := land_high (b := 1) hw (by omega)
  rw [Nat.and_one_is_mod, show w % 4 % 2 = 0 by omega] at this
  exact this

namespace Vec

variable {v : Vec} {c d : Option Nat} {w i : Nat}

@[simp] theorem write_read_self : (v.write c w).read c = w := by
  cases c <;> simp [write, read]

theorem write_read_of_ne (h : d ≠ c) : (v.write c w).read d = v.read d := by
  cases c <;> cases d <;> simp_all [write, read]

theorem write_word (hv : ∀ d, v.read d < 2 ^ 32) (hw : w < 2 ^ 32) (d : Option Nat) :
    (v.write c w).read d < 2 ^ 32 := by
  by_cases hd : d = c
  · subst hd
    rwa [write_read_self]
  · rw [write_read_of_ne hd]
    exact hv d

@[simp] theorem write_nentries : (v.write c w).nentries = v.nentries := by cases c <;> rfl

@[simp] theorem write_nfree : (v.write c w).nfree = v.nfree := by cases c <;> rfl

@[simp] theorem write_vector : (v.write c w).vector = v.vector := by cases c <;> rfl

@[simp] theorem write_addr : (v.write c w).addr i = v.addr i := by cases c <;> rfl

@[simp] theorem read_some : v.read (some i) = v.slots i := rfl

@[simp] theorem read_none : v.read none = v.free := rfl

@[simp] theorem read_with_nfree (n : Nat) : ({ v with nfree := n } : Vec).read d = v.read d := by
  cases d <;> rfl

structure Placed (v : Vec) : Prop where
  aligned : v.vector % 4 = 0
  pos : 0 < v.vector
  fits : v.vector + 4 * v.nentries ≤ 2 ^ 32

theorem slotAt_addr (h : i < v.nentries) : v.slotAt (v.addr i) = some i := by
  unfold slotAt addr
  rw [if_pos (by omega)]
  congr 1
  omega

/-- Cell `c` links to slot `o`, whatever its tag bits. -/
def Points (v : Vec) (c : Option Nat) : Option Nat → Prop
  | none => vecptr (v.read c) = 0
  | some i => i < v.nentries ∧ vecptr (v.read c) = v.addr i

/-- The free list of `v` visits `F`, and `objs` are the objects held. -/
structure Rep (v : Vec) (F : List Nat) (objs : Nat → Option Nat) : Prop where
  chain : Visits v.Points none F
  sorted : F.Pairwise (· < ·)
  tagged : ∀ i < v.nentries, (v.slots i % 2 = 1 ↔ i ∈ F)
  nfree : v.nfree = F.length
  small : v.nentries ≤ vectorMax
  objects : ∀ i, objs i = if i < v.nentries ∧ i ∉ F then some (vecptr (v.slots i)) else none
  word : ∀ c, v.read c < 2 ^ 32
  placed : 0 < v.nentries → v.Placed
  head : 0 < v.nentries → v.free % 2 = 1

variable {F : List Nat} {objs : Nat → Option Nat}

namespace Rep

theorem zeroed : Rep zeroed [] (fun _ => none) := by
  refine ⟨rfl, Pairwise.nil, ?_, rfl, by decide, ?_, ?_, ?_, ?_⟩
  · intro i hi
    exact absurd hi (Nat.not_lt_zero i)
  · simp [Vec.zeroed]
  · intro c
    cases c <;> simp [Vec.zeroed]
  · intro h
    exact absurd h (lt_irrefl 0)
  · intro h
    exact absurd h (lt_irrefl 0)

theorem nodup (h : Rep v F objs) : F.Nodup := h.sorted.imp Nat.ne_of_lt

theorem lt (h : Rep v F objs) {i : Nat} (hi : i ∈ F) : i < v.nentries := by
  obtain ⟨d, hd⟩ := h.chain.mem hi
  exact hd.1

theorem length_le (h : Rep v F objs) : F.length ≤ v.nentries := by
  have hsub : F ⊆ range v.nentries := fun i hi => mem_range.mpr (h.lt hi)
  simpa using (subperm_of_subset h.nodup hsub).length_le

theorem odd {L R : List Nat} (h : Rep v (L ++ R) objs) (hn : 0 < v.nentries) :
    v.read (endCell none L) % 2 = 1 := by
  cases he : endCell none L with
  | none => exact h.head hn
  | some j =>
    have hj : j ∈ L ++ R := mem_append_left R (mem_of_endCell he)
    exact (h.tagged j (h.lt hj)).mpr hj

end Rep

theorem findFree_visits (hp : v.nentries ≠ 0 → v.Placed) {index fuel : Nat} {l : List Nat}
    (hl : Visits v.Points c l) (hf : l.length < fuel) :
    (∃ L i R, l = L ++ i :: R ∧ index ≤ i ∧ (∀ j ∈ L, j < index) ∧
      v.findFree index fuel c = some (some (endCell c L, i))) ∨
    ((∀ i ∈ l, i < index) ∧ v.findFree index fuel c = some none) := by
  induction l generalizing c fuel with
  | nil =>
    obtain ⟨fuel, rfl⟩ : ∃ k, fuel = k + 1 := ⟨fuel - 1, by omega⟩
    have hz : vecptr (v.read c) = 0 := hl
    refine .inr ⟨by simp, ?_⟩
    rw [findFree, if_pos hz]
  | cons i l ih =>
    obtain ⟨fuel, rfl⟩ : ∃ k, fuel = k + 1 := ⟨fuel - 1, by omega⟩
    obtain ⟨⟨hi, hptr⟩, hl⟩ := hl
    have hplaced := hp (by omega)
    have hne : vecptr (v.read c) ≠ 0 := by
      have := hplaced.pos
      rw [hptr, addr]
      omega
    rw [findFree, if_neg hne, hptr, slotAt_addr hi, Option.bind_some]
    by_cases hix : index ≤ i
    · rw [if_pos hix]
      exact .inl ⟨[], i, l, rfl, hix, nofun, rfl⟩
    rw [if_neg hix]
    have hi' : ∀ {l : List Nat}, (∀ j ∈ l, j < index) → ∀ j ∈ i :: l, j < index := by
      intro l hl
      exact forall_mem_cons.mpr ⟨by omega, hl⟩
    rcases ih hl (by simpa using hf) with ⟨L, j, R, rfl, hj, hL, he⟩ | ⟨hall, he⟩
    · exact .inl ⟨i :: L, j, R, rfl, hj, hi' hL, he⟩
    · exact .inr ⟨hi' hall, he⟩

/-- The links into an array at `base` of `m` slots, read in `v` before they are adjusted. -/
def PointsFrom (v : Vec) (base m : Nat) (c : Option Nat) : Option Nat → Prop
  | none => vecptr (v.read c) = 0
  | some i => i < m ∧ vecptr (v.read c) = base + 4 * i

structure Relocated (v v' : Vec) (c : Option Nat) (l : List Nat) : Prop where
  nentries : v'.nentries = v.nentries
  nfree : v'.nfree = v.nfree
  vector : v'.vector = v.vector
  starts : Starts v'.Points c l
  last : v'.read (endCell c l) = v.read (endCell c l)
  frame : ∀ d, d ∉ c :: l.map some → v'.read d = v.read d
  tag : ∀ d, v'.read d % 4 = v.read d % 4
  word : ∀ d, v'.read d < 2 ^ 32

theorem relocate_visits (v : Vec) (c : Option Nat) (base m fuel : Nat) {adjust : Nat}
    {l : List Nat} (hv : v.Placed)
    (hm : m ≤ v.nentries) (hw : ∀ d, v.read d < 2 ^ 32)
    (hbase : l ≠ [] → base % 4 = 0 ∧ 0 < base ∧ base + 4 * m ≤ 2 ^ 32 ∧
      (base + adjust) % 2 ^ 32 = v.vector % 2 ^ 32)
    (hl : Visits (v.PointsFrom base m) c l) (hd : (c :: l.map some).Nodup)
    (hf : l.length < fuel) :
    ∃ v', relocate adjust fuel v c = some (v', endCell c l) ∧ Relocated v v' c l := by
  induction l generalizing v c fuel with
  | nil =>
    obtain ⟨fuel, rfl⟩ : ∃ k, fuel = k + 1 := ⟨fuel - 1, by omega⟩
    have hz : vecptr (v.read c) = 0 := hl
    refine ⟨v, ?_, rfl, rfl, rfl, trivial, rfl, fun _ _ => rfl, fun _ => rfl, hw⟩
    rw [relocate, if_pos hz]
    rfl
  | cons i l ih =>
    obtain ⟨fuel, rfl⟩ : ∃ k, fuel = k + 1 := ⟨fuel - 1, by omega⟩
    obtain ⟨⟨him, hptr⟩, hl⟩ := hl
    obtain ⟨hnot, hd⟩ := nodup_cons.mp hd
    have hb := hbase (cons_ne_nil _ _)
    have hwc := hw c
    have hvp := hv.pos
    have hva := hv.aligned
    have hvf := hv.fits
    have hdiv : v.read c / 4 * 4 = base + 4 * i := by rw [← vecptr_eq hwc, hptr]
    obtain ⟨x, hx⟩ : ∃ x, x = (v.read c + adjust) % 2 ^ 32 := ⟨_, rfl⟩
    have hxlt : x < 2 ^ 32 := by omega
    have hne : vecptr (v.read c) ≠ 0 := by omega
    have hread : ∀ d, d ≠ c → (v.write c x).read d = v.read d := fun d h => write_read_of_ne h
    have hxptr : vecptr x = (v.write c x).addr i := by
      rw [vecptr_eq hxlt, write_addr, addr]
      omega
    have hw' : ∀ d, (v.write c x).read d < 2 ^ 32 := write_word hw hxlt
    have hnc : ∀ j, j ∈ i :: l → some j ≠ c := by
      rintro j hj rfl
      exact hnot (mem_map_of_mem hj)
    obtain ⟨v', he, hr⟩ := ih (v.write c x) (some i) fuel
      ⟨by simpa using hva, by simpa using hvp, by simpa using hvf⟩ (by simpa using hm)
      hw' (fun _ => by simpa using hb)
      (hl.rehead (by
          intro o ho
          simpa [PointsFrom, hread _ (hnc i mem_cons_self)] using ho)
        (by
          intro j hj o ho
          have := hnc j (mem_cons_of_mem _ hj)
          simpa [PointsFrom, hread _ this] using ho))
      hd (by simpa using hf)
    refine ⟨v', ?_, ?_⟩
    · rw [relocate, if_neg hne]
      dsimp only
      rw [← hx, write_read_self, hxptr, slotAt_addr (by simpa using by omega), Option.bind_some, he]
      rfl
    · have hcread : v'.read c = x := by
        rw [hr.frame c hnot, write_read_self]
      refine ⟨by simp [hr.nentries], by simp [hr.nfree], by simp [hr.vector],
        ⟨⟨?_, ?_⟩, hr.starts⟩, ?_, ?_, ?_, hr.word⟩
      · rw [hr.nentries, write_nentries]
        omega
      · rw [hcread, hxptr, addr, addr, hr.vector]
      · have hlast : endCell c (i :: l) ≠ c := by
          intro e
          apply hnot
          rw [← e]
          exact endCell_mem (some i) l
        rw [endCell_cons] at hlast ⊢
        rw [hr.last, hread _ hlast]
      · intro d hd'
        obtain ⟨h1, h2⟩ := not_or.mp (mt mem_cons.mpr hd')
        rw [hr.frame d h2, hread d h1]
      · intro d
        by_cases hdc : d = c
        · subst hdc
          omega
        · rw [hr.tag, hread d hdc]

structure LinkedNew (v v' : Vec) (cur n : Nat) : Prop where
  nentries : v'.nentries = v.nentries
  nfree : v'.nfree = v.nfree
  vector : v'.vector = v.vector
  chain : Visits v'.Points (some cur) (range' (cur + 1) n)
  frame : ∀ d, (∀ i, d = some i → i < cur) → v'.read d = v.read d
  tagged : ∀ i, cur ≤ i → i ≤ cur + n → v'.slots i % 2 = 1
  word : (∀ d, v.read d < 2 ^ 32) → ∀ d, v'.read d < 2 ^ 32

theorem linkNew_visits (v : Vec) (cur n : Nat) (hv : v.Placed) (hn : cur + n < v.nentries) :
    ∃ v', v.linkNew cur (n + 1) = some v' ∧ LinkedNew v v' cur n := by
  have hframe : ∀ x d, (∀ i, d = some i → i < cur) → (v.write (some cur) x).read d = v.read d := by
    intro x d hd
    refine write_read_of_ne ?_
    rintro rfl
    exact lt_irrefl _ (hd cur rfl)
  induction n generalizing v cur with
  | zero =>
    refine ⟨_, rfl, by simp, by simp, by simp, ?_, hframe _, ?_,
      fun hw => write_word hw (by decide)⟩
    · show vecptr _ = 0
      rw [write_read_self]
      rfl
    · intro i h1 h2
      obtain rfl : i = cur := by omega
      rw [← read_some, write_read_self]
      rfl
  | succ n ih =>
    have hva := hv.aligned
    have hvf := hv.fits
    have hmod : v.addr (cur + 1) % 4 = 0 := by
      rw [addr]
      omega
    obtain ⟨x, hx⟩ : ∃ x, x = vecor (v.addr (cur + 1)) 1 := ⟨_, rfl⟩
    have hxeq : x = v.addr (cur + 1) + 1 := by rw [hx, vecor_one hmod]
    have hxlt : x < 2 ^ 32 := by
      rw [hxeq, addr]
      omega
    obtain ⟨v', he, hl⟩ := ih (v.write (some cur) x) (cur + 1)
      ⟨by simpa using hva, by simpa using hv.pos, by simpa using hvf⟩
      (by rw [write_nentries]; omega) (fun y d hd => write_read_of_ne (by
        rintro rfl
        exact lt_irrefl _ (hd (cur + 1) rfl)))
    have hcur : v'.read (some cur) = x := by
      rw [hl.frame, write_read_self]
      rintro i ⟨⟩
      omega
    refine ⟨v', ?_, by simp [hl.nentries], by simp [hl.nfree], by simp [hl.vector], ?_, ?_, ?_,
      fun hw => hl.word (write_word hw hxlt)⟩
    · rw [linkNew, ← hx, he]
    · refine ⟨⟨?_, ?_⟩, hl.chain⟩
      · rw [hl.nentries, write_nentries]
        omega
      · rw [hcur, vecptr_eq hxlt, hxeq, addr, addr, hl.vector, write_vector]
        omega
    · intro d hd
      rw [hl.frame d (fun i hi => Nat.lt_succ_of_lt (hd i hi)), hframe x d hd]
    · intro i h1 h2
      by_cases hi : i = cur
      · subst hi
        rw [← read_some]
        omega
      · exact hl.tagged i (by omega) (by omega)

end Vec

end Qnx.Ker
