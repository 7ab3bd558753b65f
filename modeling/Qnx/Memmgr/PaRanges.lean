import Mathlib.Algebra.Group.Int.Defs
import Qnx.Memmgr.PaOps

/-!
# Freeing a range by its address

`pa_free_paddr` frees a range a run at a time. How far it gets in one turn is read from the `run`
of a quantum, which tells the length of the run at its first quantum only. Addresses are numbers of
quanta, and `paddr_t` has 32 bits.
-/

namespace Qnx.Memmgr

open Tiling Run List

/-- The blocks, each with its first quantum, `mem_reserved_size` and `mem_free_size`. -/
structure Ram where
  blocks : List (Nat × Block)
  reservedSize : BitVec 32
  freeSize : BitVec 32

def Block.UsedRun (b : Block) (q n : Nat) : Prop :=
  q < b.numQuanta ∧ b.inuse q = true ∧ 0 < n ∧ b.run q = n

def holds (p : Nat) (e : Nat × Block) : Bool := e.1 ≤ p && p < e.1 + e.2.numQuanta

namespace Ram

def paddrToQuantum (m : Ram) (p : Nat) : Option (Nat × Block) := m.blocks.find? (holds p)

def setBlock (m : Ram) (p : Nat) (b : Block) : Ram :=
  { m with blocks := m.blocks.map fun e => if holds p e then (e.1, b) else e }

/-- `NQUANTUM_TO_LEN` -/
def lenOf (num : Nat) : BitVec 32 := BitVec.ofNat 32 (num * 2 ^ quantumBits)

def paFree (m : Ram) (p num : Nat) (resv : BitVec 32) : Option Ram :=
  if num = 0 then some m
  else
    (m.paddrToQuantum p).bind fun e => (e.2.paFree (p - e.1) num).map fun b =>
      { m.setBlock p b with
        reservedSize := m.reservedSize + resv
        freeSize := m.freeSize + (lenOf num - resv) }

/-- The loop of `pa_free_paddr`; `none` when it faults or has not ended after `fuel` turns. -/
def freeLoop : Nat → Ram → Nat → Int → BitVec 32 → Option Ram
  | 0, _, _, _, _ => none
  | fuel + 1, m, p, num, resv =>
    if num ≤ 0 then some m
    else
      (m.paddrToQuantum p).bind fun e =>
        let numToFree := (min (e.2.run (p - e.1)) num % 2 ^ 32).toNat
        let size := lenOf numToFree
        (m.paFree p numToFree (if resv ≤ size then resv else size)).bind fun m =>
          freeLoop fuel m ((p + numToFree) % 2 ^ 20) (num - numToFree)
            (if size ≤ resv then resv - size else resv)

def paFreePaddr (fuel : Nat) (m : Ram) (p s : Nat) (resv : BitVec 32) : Option Ram :=
  freeLoop fuel m p (lenToRun s) resv

def InUse (m : Ram) (q : Nat) : Prop := ∃ e ∈ m.blocks, e.1 ≤ q ∧ e.2.InUse (q - e.1) 1

def UsedRun (m : Ram) (p n : Nat) : Prop := ∃ e ∈ m.blocks, e.1 ≤ p ∧ e.2.UsedRun (p - e.1) n

/-- Every block was built by the allocator, and no two have a quantum in common. -/
structure Good (m : Ram) : Prop where
  built : ∀ e ∈ m.blocks, Reach Block.Init Block.Entry Block.step e.2
  apart : ∀ d ∈ m.blocks, ∀ e ∈ m.blocks, ∀ p, holds p d = true → holds p e = true → d = e
  small : ∀ e ∈ m.blocks, e.1 + e.2.numQuanta ≤ 2 ^ 20

end Ram

section Runs
variable {b : Block} {rs L R : Runs} {F : List Nat} {p q t n k : Nat}

theorem mem_usedRuns :
    (q, n) ∈ usedRuns p rs ↔ ∃ L R, rs = L ++ (n, false) :: R ∧ q = p + span L := by
  induction rs generalizing p with
  | nil => simp [usedRuns]
  | cons r rs ih =>
    obtain ⟨m, free⟩ := r
    rw [usedRuns, mem_append, ih]
    constructor
    · rintro (hm | ⟨L, R, rfl, rfl⟩)
      · cases free with
        | true => cases hm
        | false =>
          obtain ⟨rfl, rfl⟩ := Prod.mk.inj (mem_singleton.mp hm)
          exact ⟨[], rs, rfl, rfl⟩
      · exact ⟨(m, free) :: L, R, rfl, by rw [span_cons, Nat.add_assoc]⟩
    · rintro ⟨L, R, he, rfl⟩
      cases L with
      | nil =>
        cases he
        exact .inl mem_cons_self
      | cons l L =>
        cases he
        exact .inr ⟨L, R, rfl, by rw [span_cons, Nat.add_assoc]⟩

section

variable (h : Rep b rs F)
include h

theorem Rep.usedRun_iff : b.UsedRun q n ↔ (q, n) ∈ usedRuns 0 rs := by
  rw [mem_usedRuns]
  constructor
  · rintro ⟨hq, hu, hn, hrun⟩
    obtain ⟨L, m, free, R, rfl, hi⟩ := h.locate hq
    obtain rfl := h.used_of_inuse hu hi.1 hi.2
    obtain ⟨hseg, -⟩ := h.tile
    obtain rfl : q = span L := by
      rcases Block.run_cases hseg hi with hc | hc | hc <;> omega
    obtain rfl : m = n := by
      rw [hseg.head] at hrun
      omega
    exact ⟨L, R, rfl, (Nat.zero_add _).symm⟩
  · rintro ⟨L, R, rfl, rfl⟩
    obtain ⟨hseg, hf⟩ := h.tile
    have hs := h.span
    have hpos := hseg.pos
    rw [span_append, span_cons] at hs
    rw [Nat.zero_add]
    exact ⟨by omega, hf, hpos, hseg.head⟩

theorem Rep.seg_of_usedRun (ht : b.UsedRun t n) : Seg b.run t n ∧ t + n ≤ b.numQuanta := by
  obtain ⟨L, R, rfl, rfl⟩ := mem_usedRuns.mp (h.usedRun_iff.mp ht)
  have hs := h.span
  rw [span_append, span_cons] at hs
  rw [Nat.zero_add]
  exact ⟨h.tile.1, by omega⟩

theorem Rep.inUse_of_usedRun (ht : b.UsedRun t k) (h1 : t ≤ q) (h2 : q < t + k)
    (hn : q + n ≤ t + k) : b.InUse q n := by
  obtain ⟨hseg, hle⟩ := h.seg_of_usedRun ht
  refine ⟨by omega, t, Block.paGetrunhead_seg hseg ⟨h1, h2⟩, ht.2.1, ?_⟩
  rw [ht.2.2.2]
  omega

theorem Rep.usedRun_of_inUse (hq : b.InUse q 1) : ∃ t k, b.UsedRun t k ∧ t ≤ q ∧ q < t + k := by
  obtain ⟨L, a, c, R, rfl, rfl⟩ := h.inUse hq
  refine ⟨span L, a + 1 + c, h.usedRun_iff.mpr (mem_usedRuns.mpr ⟨L, R, rfl, ?_⟩), ?_, ?_⟩
  · rw [Nat.zero_add]
  · omega
  · omega

end

section

variable (h : Reach Block.Init Block.Entry Block.step b)
include h

theorem free_usedRun (hu : b.UsedRun q k) (hn : n ≠ 0) (hk : n ≤ k) : ∃ b', b.paFree q n = some b' ∧
      Reach Block.Init Block.Entry Block.step b' ∧ b'.numQuanta = b.numQuanta ∧
      ∀ t j, b'.UsedRun t j ↔ b.UsedRun t j ∧ t ≠ q ∨ t = q + n ∧ j = k - n ∧ n < k := by
  obtain ⟨rs, F, hr⟩ := reach_rep h
  have hin : b.InUse q n := hr.inUse_of_usedRun hu (Nat.le_refl q) (by omega) (by omega)
  obtain ⟨L, R, rfl, hq⟩ := mem_usedRuns.mp (hr.usedRun_iff.mp hu)
  obtain ⟨c, rfl⟩ := Nat.exists_eq_add_of_le hk
  rw [Nat.zero_add] at hq
  have hr' : Rep b (L ++ (0 + n + c, false) :: R) F := by rwa [Nat.zero_add]
  obtain ⟨b', rs', F', he, hrep, hnum, hused⟩ := hr'.paFree hq.symm hn
  rw [Nat.add_zero] at hused
  refine ⟨b', he, .step h (o := .free q n) (.inr hin) he, hnum, fun t j => ?_⟩
  have hL : (t, j) ∈ usedRuns 0 L → t ≠ q := by
    intro hm
    obtain ⟨L1, L2, rfl, rfl⟩ := mem_usedRuns.mp hm
    have hpos := hr.pos (j, false) (by simp)
    rw [hq, span_append, span_cons]
    omega
  have hR : (t, j) ∈ usedRuns (q + (n + c)) R → t ≠ q := by
    intro hm
    obtain ⟨R1, R2, -, rfl⟩ := mem_usedRuns.mp hm
    omega
  have hpiece : (t, j) ∈ piece (q + n) c ↔ t = q + n ∧ j = n + c - n ∧ n < n + c := by
    unfold piece
    · simp
      omega
  have hnone : piece q 0 = [] := rfl
  rw [hrep.usedRun_iff, hr.usedRun_iff, hused, usedRuns_append, usedRuns, ← hq, hnone]
  simp only [append_nil, mem_append, hpiece, Bool.false_eq_true, if_false,
    mem_singleton, Prod.mk.injEq, Nat.zero_add]
  constructor
  · rintro (hm | hm | hm)
    · exact .inl ⟨.inl hm, hL hm⟩
    · exact .inr hm
    · exact .inl ⟨.inr (.inr hm), hR hm⟩
  · rintro (⟨hm | ⟨ht, -⟩ | hm, hne⟩ | hm)
    · exact .inl hm
    · exact absurd ht hne
    · exact .inr (.inr hm)
    · exact .inr (.inl hm)

theorem paFree_beyond (hu : b.UsedRun t k)
    (h1 : t < q) (h2 : q < t + k) (hn : t + k < q + n) : b.paFree q n = none := by
  obtain ⟨rs, F, hr⟩ := reach_rep h
  have hseg : Seg (b.clearFlags q n).run t k := (hr.seg_of_usedRun hu).1
  have hrun : ¬0 < (b.clearFlags q n).run q := by
    rcases Block.run_cases hseg ⟨h1.le, h2⟩ with hc | hc | hc <;> omega
  rw [Block.paFree, if_neg (by omega), Block.freeStart, if_neg hrun,
    Block.paGetrunhead_seg hseg ⟨h1.le, h2⟩, Option.map_some, Option.bind_some]
  dsimp only
  rw [Block.freeEnd, hseg.head, if_neg (by omega), if_pos (by omega)]
  rfl

end

end Runs

namespace Ram

variable {m : Ram} {e : Nat × Block} {p q t n k : Nat} {resv : BitVec 32}

theorem holds_iff : holds p e = true ↔ e.1 ≤ p ∧ p < e.1 + e.2.numQuanta := by
  simp [holds]

namespace Good

section

variable (h : Good m)
include h

theorem find (he : e ∈ m.blocks) (hp : holds p e = true) : m.paddrToQuantum p = some e := by
  cases hf : m.blocks.find? (holds p) with
  | none => exact absurd hp (find?_eq_none.mp hf e he)
  | some d =>
    rw [paddrToQuantum, hf, h.apart d (mem_of_find?_eq_some hf) e he p (find?_some hf) hp]

theorem usedRun_at (he : e ∈ m.blocks) (ht : holds t e = true) (j : Nat) :
    m.UsedRun t j ↔ e.2.UsedRun (t - e.1) j := by
  constructor
  · rintro ⟨x, hx, hxt, hu⟩
    have hxe := h.apart x hx e he t (holds_iff.mpr ⟨hxt, by have := hu.1; omega⟩) ht
    exact hxe ▸ hu
  · intro hu
    exact ⟨e, he, (holds_iff.mp ht).1, hu⟩

theorem setBlock (he : e ∈ m.blocks) (hp : holds p e = true) {b : Block}
    (hb : Reach Block.Init Block.Entry Block.step b) (hn : b.numQuanta = e.2.numQuanta) :
    Good (m.setBlock p b) ∧
      (∀ t j, holds t e = true → ((m.setBlock p b).UsedRun t j ↔ b.UsedRun (t - e.1) j)) ∧
      ∀ t j, holds t e = false → ((m.setBlock p b).UsedRun t j ↔ m.UsedRun t j) := by
  have hmem : ∀ x, x ∈ (m.setBlock p b).blocks ↔ x = (e.1, b) ∨ x ∈ m.blocks ∧ x ≠ e := by
    intro x
    rw [Ram.setBlock, mem_map]
    constructor
    · rintro ⟨y, hy, rfl⟩
      split
      · rename_i hyp
        exact .inl (by rw [h.apart y hy e he p hyp hp])
      · rename_i hyp
        exact .inr ⟨hy, fun heq => hyp (heq ▸ hp)⟩
    · rintro (rfl | ⟨hx, hne⟩)
      · exact ⟨e, he, if_pos hp⟩
      · exact ⟨x, hx, if_neg fun hxp => hne (h.apart x hx e he p hxp hp)⟩
  have hholds : ∀ q, holds q (e.1, b) = holds q e := fun q => by rw [holds, holds, hn]
  have hgood : Good (m.setBlock p b) := by
    refine ⟨fun x hx => ?_, fun x hx y hy q hxq hyq => ?_, fun x hx => ?_⟩
    · rcases (hmem x).mp hx with rfl | ⟨hx, -⟩
      · exact hb
      · exact h.built x hx
    · rcases (hmem x).mp hx with rfl | ⟨hx, hxe⟩
      · rcases (hmem y).mp hy with rfl | ⟨hy, hye⟩
        · rfl
        · rw [hholds] at hxq
          exact absurd (h.apart y hy e he q hyq hxq) hye
      rcases (hmem y).mp hy with rfl | ⟨hy, -⟩
      · rw [hholds] at hyq
        exact absurd (h.apart x hx e he q hxq hyq) hxe
      · exact h.apart x hx y hy q hxq hyq
    · rcases (hmem x).mp hx with rfl | ⟨hx, -⟩
      · rw [hn]
        exact h.small e he
      · exact h.small x hx
  refine ⟨hgood, fun t j ht => ?_, fun t j ht => ⟨?_, ?_⟩⟩
  · exact hgood.usedRun_at ((hmem _).mpr (.inl rfl)) ((hholds t).trans ht) j
  · rintro ⟨x, hx, hxt, hu⟩
    rcases (hmem x).mp hx with rfl | ⟨hx, -⟩
    · rw [← hholds, ← Bool.not_eq_true, holds_iff] at ht
      exact absurd ⟨hxt, by have := hu.1; omega⟩ ht
    · exact ⟨x, hx, hxt, hu⟩
  · rintro ⟨x, hx, hxt, hu⟩
    refine ⟨x, (hmem x).mpr (.inr ⟨hx, ?_⟩), hxt, hu⟩
    rintro rfl
    rw [← Bool.not_eq_true, holds_iff] at ht
    exact ht ⟨hxt, by have := hu.1; omega⟩

theorem inUse_iff : m.InUse q ↔ ∃ t n, m.UsedRun t n ∧ t ≤ q ∧ q < t + n := by
  constructor
  · rintro ⟨e, he, hq, hu⟩
    obtain ⟨rs, F, hr⟩ := reach_rep (h.built e he)
    obtain ⟨t, n, ht, h1, h2⟩ := hr.usedRun_of_inUse hu
    exact ⟨e.1 + t, n, ⟨e, he, by omega, by rwa [Nat.add_sub_cancel_left]⟩, by omega⟩
  · rintro ⟨t, n, ⟨e, he, ht, hu⟩, h1, h2⟩
    obtain ⟨rs, F, hr⟩ := reach_rep (h.built e he)
    exact ⟨e, he, by omega, hr.inUse_of_usedRun hu (by omega) (by omega) (by omega)⟩

theorem usedRun_unique {j : Nat} (ht : m.UsedRun t n) (hp : m.UsedRun p j)
    (h1 : t ≤ q) (h2 : q < t + n) (h3 : p ≤ q) (h4 : q < p + j) : t = p := by
  obtain ⟨e, he, hte, hu⟩ := ht
  obtain ⟨d, hd, hpd, hv⟩ := hp
  obtain ⟨rs, F, hr⟩ := reach_rep (h.built e he)
  obtain ⟨rs', F', hr'⟩ := reach_rep (h.built d hd)
  have hse := hr.seg_of_usedRun hu
  have hsd := hr'.seg_of_usedRun hv
  obtain rfl : e = d := h.apart e he d hd q (holds_iff.mpr (by omega)) (holds_iff.mpr (by omega))
  have hh := Block.paGetrunhead_seg hse.1 (i := q - e.1) (by omega)
  rw [Block.paGetrunhead_seg hsd.1 (by omega)] at hh
  have := Option.some.inj hh
  omega

theorem run_eq (hu : m.UsedRun p k) : ∃ e, m.paddrToQuantum p = some e ∧ e.2.run (p - e.1) = k := by
  obtain ⟨e, he, hpe, hue⟩ := hu
  exact ⟨e, h.find he (holds_iff.mpr ⟨hpe, by have := hue.1; omega⟩), hue.2.2.2⟩

theorem length_unique {j : Nat} (hj : m.UsedRun p j) (hk : m.UsedRun p k) : j = k := by
  obtain ⟨e, he, hj⟩ := h.run_eq hj
  obtain ⟨d, hd, hk⟩ := h.run_eq hk
  cases he.symm.trans hd
  omega

theorem usedRun_lt (hu : m.UsedRun p k) : p < 2 ^ 20 := by
  obtain ⟨e, he, hpe, hue⟩ := hu
  have hsmall := h.small e he
  have hlt := hue.1
  omega

end

theorem paFree (resv : BitVec 32) (h : Good m) (hu : m.UsedRun p k) (hn : n ≠ 0) (hk : n ≤ k) :
    ∃ m', m.paFree p n resv = some m' ∧ Good m' ∧
      (∀ t j, m'.UsedRun t j ↔ m.UsedRun t j ∧ t ≠ p ∨ t = p + n ∧ j = k - n ∧ n < k) ∧
      m'.reservedSize = m.reservedSize + resv ∧
      m'.freeSize = m.freeSize + (lenOf n - resv) := by
  obtain ⟨e, he, hpe, hue⟩ := hu
  have hhold : holds p e = true := holds_iff.mpr ⟨hpe, by have := hue.1; omega⟩
  obtain ⟨b', hb', hreach, hnum, hruns⟩ := free_usedRun (h.built e he) hue hn hk
  obtain ⟨hgood, hat, hoff⟩ := h.setBlock he hhold hreach hnum
  refine ⟨{ m.setBlock p b' with
      reservedSize := m.reservedSize + resv, freeSize := m.freeSize + (lenOf n - resv) },
    ?_, ⟨hgood.built, hgood.apart, hgood.small⟩, fun t j => ?_, rfl, rfl⟩
  · rw [Ram.paFree, if_neg hn, h.find he hhold, Option.bind_some, hb']
    rfl
  obtain ⟨rs, F, hr⟩ := reach_rep (h.built e he)
  have hend := (hr.seg_of_usedRun hue).2
  cases ht : holds t e with
  | true =>
    refine (hat t j ht).trans ?_
    rw [hruns, h.usedRun_at he ht]
    have hte := (holds_iff.mp ht).1
    refine or_congr (and_congr_right fun _ => ?_) (and_congr_left fun _ => ?_)
    · omega
    · omega
  | false =>
    refine (hoff t j ht).trans ?_
    rw [← Bool.not_eq_true, holds_iff] at ht
    constructor
    · intro hu
      exact .inl ⟨hu, by omega⟩
    · rintro (⟨hu, -⟩ | hu)
      · exact hu
      · omega

theorem inUse_freed (h : Good m) {m' : Ram} (h' : Good m') (hu : m.UsedRun p k) (hk : n ≤ k)
    (hruns : ∀ t j, m'.UsedRun t j ↔ m.UsedRun t j ∧ t ≠ p ∨ t = p + n ∧ j = k - n ∧ n < k) :
    m'.InUse q ↔ m.InUse q ∧ ¬(p ≤ q ∧ q < p + n) := by
  rw [h'.inUse_iff, h.inUse_iff]
  constructor
  · rintro ⟨t, j, ht, h1, h2⟩
    rcases (hruns t j).mp ht with ⟨ht, hne⟩ | ⟨rfl, rfl, hlt⟩
    · refine ⟨⟨t, j, ht, h1, h2⟩, fun hq => hne ?_⟩
      exact h.usedRun_unique ht hu h1 h2 hq.1 (by omega)
    · exact ⟨⟨p, k, hu, by omega⟩, by omega⟩
  · rintro ⟨⟨t, j, ht, h1, h2⟩, hq⟩
    by_cases hne : t = p
    · subst hne
      obtain rfl : j = k := h.length_unique ht hu
      exact ⟨t + n, j - n, (hruns _ _).mpr (.inr ⟨rfl, rfl, by omega⟩), by omega⟩
    · exact ⟨t, j, (hruns t j).mpr (.inl ⟨ht, hne⟩), h1, h2⟩

theorem freeLoop (num : Nat) : ∀ {m : Ram} {p : Nat} (fuel : Nat) (resv : BitVec 32), Good m →
    num < fuel → num ≤ 2 ^ 20 → (∀ q, p ≤ q → q < p + num → m.InUse q) → (num = 0 ∨ ∃ k, m.UsedRun p k) →
    ∃ m', freeLoop fuel m p num resv = some m' ∧
      ∀ q, m'.InUse q ↔ m.InUse q ∧ ¬(p ≤ q ∧ q < p + num) := by
  induction num using Nat.strong_induction_on with
  | _ num ih =>
    intro m p fuel resv h hf hnum huse hhead
    obtain ⟨fuel, rfl⟩ : ∃ f, fuel = f + 1 := ⟨fuel - 1, by omega⟩
    by_cases hz : num = 0
    · subst hz
      exact ⟨m, rfl, fun q => ⟨fun hq => ⟨hq, by omega⟩, fun hq => hq.1⟩⟩
    obtain ⟨k, hu⟩ := hhead.resolve_left hz
    obtain ⟨n, hn⟩ : ∃ n, n = min k num := ⟨_, rfl⟩
    have hk : 0 < k := by
      obtain ⟨e, -, -, hue⟩ := hu
      exact hue.2.2.1
    obtain ⟨e, hfind, hrun⟩ := h.run_eq hu
    have hmin : (min (e.2.run (p - e.1)) num % 2 ^ 32).toNat = n := by
      omega
    obtain ⟨m', he, h', hruns, -, -⟩ :=
      Good.paFree (n := n) (if resv ≤ lenOf n then resv else lenOf n) h hu (by omega) (by omega)
    have hin := fun q => h.inUse_freed h' hu (n := n) (q := q) (by omega) hruns
    have hnext : num - n = 0 ∨ p + n < 2 ^ 20 ∧ ∃ j, m'.UsedRun (p + n) j := by
      by_cases hlt : num - n = 0
      · exact .inl hlt
      have huse' : m'.InUse (p + n) := (hin _).mpr ⟨huse _ (by omega) (by omega), by omega⟩
      obtain ⟨t, j, ht, h1, h2⟩ := h'.inUse_iff.mp huse'
      have hlast : ¬m'.InUse (p + n - 1) := fun hc => ((hin _).mp hc).2 (by omega)
      obtain rfl : t = p + n := by
        by_contra hne
        exact hlast (h'.inUse_iff.mpr ⟨t, j, ht, by omega⟩)
      exact .inr ⟨h'.usedRun_lt ht, j, ht⟩
    have hrest : ∀ q, (p + n) % 2 ^ 20 ≤ q → q < (p + n) % 2 ^ 20 + (num - n) → m'.InUse q := by
      intro q h1 h2
      exact (hin q).mpr ⟨huse q (by omega) (by omega), by omega⟩
    have hhead' : num - n = 0 ∨ ∃ j, m'.UsedRun ((p + n) % 2 ^ 20) j := by
      refine hnext.imp_right ?_
      rintro ⟨hlt, hj⟩
      rwa [Nat.mod_eq_of_lt hlt]
    obtain ⟨m'', he'', hin''⟩ := ih (num - n) (by omega) fuel
      (if lenOf n ≤ resv then resv - lenOf n else resv) h' (by omega) (by omega) hrest hhead'
    refine ⟨m'', ?_, fun q => ?_⟩
    · rw [Ram.freeLoop, if_neg (by omega), hfind, Option.bind_some]
      dsimp only
      rw [hmin, he, ← Int.ofNat_sub (by omega)]
      exact he''
    · rw [hin'', hin, and_assoc]
      refine and_congr_right fun _ => ?_
      · omega

theorem freeLoop_inside (h : Good m) (hu : m.UsedRun t k) (h1 : t < p) (h2 : p < t + k) {num : Nat}
    (hnum : 0 < num) (fuel : Nat) : Ram.freeLoop fuel m p num resv = none := by
  induction fuel generalizing resv with
  | zero => rfl
  | succ fuel ih =>
    obtain ⟨e, he, hte, hue⟩ := hu
    obtain ⟨rs, F, hr⟩ := reach_rep (h.built e he)
    obtain ⟨hseg, hle⟩ := hr.seg_of_usedRun hue
    have hsmall := h.small e he
    have hfind := h.find (p := p) he (holds_iff.mpr (by omega))
    rw [Ram.freeLoop, if_neg (by omega), hfind, Option.bind_some]
    dsimp only
    rcases Block.run_cases hseg (i := p - e.1) (by omega) with hc | ⟨hc, -, hrun⟩ | hc
    · omega
    · have htail := hseg.tail (by omega)
      rw [← hc] at htail
      rw [Ram.paFree, if_neg (by omega), hfind, Option.bind_some,
        paFree_beyond (h.built e he) hue (by omega) (by omega) (by omega)]
      rfl
    have hz : (min (e.2.run (p - e.1)) num % 2 ^ 32).toNat = 0 := by
      omega
    rw [hz, Ram.paFree, Nat.mod_eq_of_lt (by omega)]
    simpa using ih

end Good

/-- For a range in use `pa_free_paddr` returns with exactly its quanta freed if and only if the
range starts where a run does (and its size does not wrap when it is rounded up). -/
theorem paFreePaddr_frees_iff (h : Good m) {s : Nat} (hs : s < 2 ^ 32)
    (hu : ∀ q, p ≤ q → q * 4096 < p * 4096 + s → m.InUse q) :
    (∃ fuel m', m.paFreePaddr fuel p s resv = some m' ∧
      ∀ q, m'.InUse q ↔ m.InUse q ∧ ¬(p ≤ q ∧ q * 4096 < p * 4096 + s)) ↔
    s = 0 ∨ s + 4095 < 2 ^ 32 ∧ ∃ n, m.UsedRun p n := by
  by_cases hz : s = 0
  · subst hz
    refine ⟨fun _ => .inl rfl, fun _ => ⟨1, m, rfl, fun q => ⟨fun hq => ⟨hq, by omega⟩, And.left⟩⟩⟩
  have hp : m.InUse p := hu p (Nat.le_refl p) (by omega)
  by_cases hwrap : s + 4095 < 2 ^ 32
  · have hlen : lenToRun s = (s + 4095) / 4096 := by
      rw [lenToRun, quantumBits]
      omega
    have hrange : ∀ q, q * 4096 < p * 4096 + s ↔ q < p + lenToRun s := by
      omega
    simp only [hrange] at hu ⊢
    constructor
    · rintro ⟨fuel, m', he, -⟩
      obtain ⟨t, k, ht, h₁, h₂⟩ := h.inUse_iff.mp hp
      by_cases htp : t = p
      · exact .inr ⟨hwrap, k, htp ▸ ht⟩
      · rw [paFreePaddr, h.freeLoop_inside ht (by omega) h₂ (by omega)] at he
        cases he
    · intro hhead
      obtain ⟨-, n, hn⟩ := hhead.resolve_left hz
      obtain ⟨m', he, hin⟩ := Good.freeLoop (lenToRun s) _ resv h (Nat.lt_succ_self _)
        (by omega) hu (.inr ⟨n, hn⟩)
      exact ⟨_, m', he, hin⟩
  · -- the rounded size wraps to nothing
    have hlen : lenToRun s = 0 := by
      rw [lenToRun, quantumBits]
      omega
    constructor
    · rintro ⟨fuel, m', he, hin⟩
      cases fuel with
      | zero => cases he
      | succ fuel =>
        rw [paFreePaddr, hlen] at he
        cases he
        exact absurd ⟨Nat.le_refl p, by omega⟩ ((hin p).mp hp).2
    · rintro (hc | ⟨hc, -⟩)
      · exact absurd hc hz
      · exact absurd hc hwrap

theorem good_single {b : Block} (hb : Reach Block.Init Block.Entry Block.step b)
    (hn : n + b.numQuanta ≤ 2 ^ 20) (r f : BitVec 32) : Good ⟨[(n, b)], r, f⟩ := by
  refine ⟨fun e he => ?_, fun d hd e he _ _ _ => ?_, fun e he => ?_⟩
  · rw [mem_singleton.mp he]
    exact hb
  · rw [mem_singleton.mp hd, mem_singleton.mp he]
  · rw [mem_singleton.mp he]
    exact hn

theorem two_runs : ∃ b : Block, Reach Block.Init Block.Entry Block.step b ∧ b.numQuanta = 8 ∧
    b.UsedRun 0 3 ∧ ∀ i < 4, b.InUse i 1 := by
  have h0 : Reach Block.Init Block.Entry Block.step (Block.initBlock 8) := .init ⟨8, by decide, rfl⟩
  obtain ⟨b, hb, hq⟩ := h0.replay_any [.carve 0 0 12288, .carve 3 3 4096]
    (fun b => b.numQuanta == 8 && b.inuse 0 && b.run 0 == 3 &&
      (List.range 4).all fun i => decide (b.InUse i 1))
    (by decide +kernel)
  simp only [Bool.and_eq_true, beq_iff_eq, all_eq_true, mem_range, decide_eq_true_eq] at hq
  obtain ⟨⟨⟨hn, hu⟩, hr⟩, hi⟩ := hq
  exact ⟨b, hb, hn, ⟨by omega, hu, by decide, hr⟩, hi⟩

theorem paFreePaddr_frees_two_runs : ∃ m : Ram, Good m ∧ m.UsedRun 16 3 ∧
    ∃ fuel m', m.paFreePaddr fuel 16 16384 0 = some m' ∧
      ∀ q, m'.InUse q ↔ m.InUse q ∧ ¬(16 ≤ q ∧ q * 4096 < 16 * 4096 + 16384) := by
  obtain ⟨b, hb, hn, hr, hi⟩ := two_runs
  have hg : Good ⟨[(16, b)], 0, 0⟩ := good_single hb (by omega) 0 0
  have hu : UsedRun ⟨[(16, b)], 0, 0⟩ 16 3 := ⟨(16, b), mem_cons_self, Nat.le_refl 16, hr⟩
  refine ⟨_, hg, hu, (paFreePaddr_frees_iff hg (by decide) fun q h₁ h₂ => ?_).mpr
    (.inr ⟨by decide, 3, hu⟩)⟩
  exact ⟨(16, b), mem_cons_self, h₁, hi (q - 16) (by omega)⟩

/-- Asked for the second quantum of a run, `pa_free_paddr` does not return. -/
theorem paFreePaddr_inside : ∃ m : Ram, Good m ∧
    (∀ q, 17 ≤ q → q * 4096 < 17 * 4096 + 4096 → m.InUse q) ∧
    ∀ fuel, m.paFreePaddr fuel 17 4096 0 = none := by
  obtain ⟨b, hb, hn, hr, hi⟩ := two_runs
  have hg : Good ⟨[(16, b)], 0, 0⟩ := good_single hb (by omega) 0 0
  refine ⟨_, hg, fun q h₁ h₂ => ?_, fun fuel => ?_⟩
  · exact ⟨(16, b), mem_cons_self, by omega, hi (q - 16) (by omega)⟩
  · exact hg.freeLoop_inside ⟨(16, b), mem_cons_self, Nat.le_refl 16, hr⟩ (by decide)
      (by decide) (by decide) fuel

end Ram

end Qnx.Memmgr
