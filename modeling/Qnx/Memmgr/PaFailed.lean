import Mathlib.Data.BitVec
import Mathlib.Tactic.Ring
import Qnx.Memmgr.PaRanges

/-!
# Undoing a failed allocation

`kerext_pa_alloc` carves run after run and pays for them out of the reservation as long as it
lasts. When it runs out of memory, `_pa_alloc` gives the runs back with `pa_free_list`, which
credits every one of them with the whole reservation. What the search carves is left open: any
pieces of free runs.
-/

namespace Qnx.Memmgr.Ram

open Run List Option
open BitVec (ofNat ofNat_add toNat_ofNat ofNat_toNat setWidth_eq le_def)

/-- A turn of the search that carves `size` bytes at `start` out of the free run at `head`. -/
structure Carve where
  head : Nat
  start : Nat
  size : Nat

/-- The memory with `curr_resv_size` and `kap->alloc`. -/
structure Alloc where
  ram : Ram
  resv : BitVec 32
  alloc : List Nat

def paCarve (m : Ram) (c : Carve) : Option Ram :=
  (m.paddrToQuantum c.head).bind fun e =>
    (e.2.paCarve (c.head - e.1) (c.start - e.1) c.size).map (m.setBlock c.head)

def Alloc.carve (a : Alloc) (c : Carve) : Option Alloc :=
  (a.ram.paCarve c).map fun m =>
    let size := ofNat 32 c.size
    if size ≤ a.resv then
      ⟨{ m with reservedSize := m.reservedSize - size }, a.resv - size, a.alloc ++ [c.start]⟩
    else
      ⟨{ m with
          reservedSize := m.reservedSize - a.resv
          freeSize := m.freeSize - (size - a.resv) }, 0, a.alloc ++ [c.start]⟩

def paFreeList (resv : BitVec 32) : Ram → List Nat → Option Ram
  | m, [] => some m
  | m, q :: l =>
    (m.paddrToQuantum q).bind fun e =>
      (m.paFree q (e.2.run (q - e.1)).toNat resv).bind fun m => paFreeList resv m l

/-- `_pa_alloc`, where the search has carved `cs` and finds no more. -/
def paAllocFails (m : Ram) (resv : BitVec 32) (cs : List Carve) : Option Ram :=
  (cs.foldlM Alloc.carve ⟨m, resv, []⟩).bind fun a => paFreeList resv a.ram a.alloc

def Fits (m : Ram) (c : Carve) : Prop :=
  c.head ≤ c.start ∧ c.size % 4096 = 0 ∧ c.size < 2 ^ 32 ∧ ∃ e ∈ m.blocks, e.1 ≤ c.head ∧
    e.2.Entry (.carve (c.head - e.1) (c.start - e.1) c.size)

def Search : Alloc → List Carve → Prop
  | _, [] => True
  | a, c :: cs => a.ram.Fits c ∧ ∀ a' ∈ a.carve c, Search a' cs

instance (m : Ram) (c : Carve) : Decidable (m.Fits c) :=
  inferInstanceAs (Decidable (_ ∧ _ ∧ _ ∧ ∃ e ∈ m.blocks, _ ∧ _))

instance decidableSearch : ∀ a cs, Decidable (Search a cs)
  | _, [] => isTrue trivial
  | a, c :: cs =>
    have : ∀ a', Decidable (Search a' cs) := fun a' => decidableSearch a' cs
    inferInstanceAs (Decidable (_ ∧ ∀ a' ∈ a.carve c, Search a' cs))

variable {m m₀ : Ram} {a : Alloc} {c : Carve} {cs done : List Carve} {resv : BitVec 32}

theorem carve_usedRun {b : Block} {head start len : Nat}
    (h : Reach Block.Init Block.Entry Block.step b) (ho : b.Entry (.carve head start len)) :
    ∃ b', b.paCarve head start len = some b' ∧ Reach Block.Init Block.Entry Block.step b' ∧
      b'.numQuanta = b.numQuanta ∧ b.inuse start = false ∧
      ∀ t j, b'.UsedRun t j ↔ t = start ∧ j = lenToRun len ∨ b.UsedRun t j := by
  obtain ⟨rs, F, hr⟩ := reach_rep h
  obtain ⟨b', rs', F', he, hr', hnum, hfree, hperm⟩ := hr.carve ho
  refine ⟨b', he, .step h (o := .carve head start len) ho he, hnum, hfree, fun t j => ?_⟩
  rw [hr'.usedRun_iff, hr.usedRun_iff, hperm.mem_iff, mem_cons, Prod.mk.injEq]

theorem Good.paCarve (h : Good m) (hc : m.Fits c) : ∃ m', m.paCarve c = some m' ∧ Good m' ∧
    (∀ j, ¬m.UsedRun c.start j) ∧
    (∀ t j, m'.UsedRun t j ↔ t = c.start ∧ j = lenToRun c.size ∨ m.UsedRun t j) ∧
    m'.reservedSize = m.reservedSize ∧ m'.freeSize = m.freeSize := by
  obtain ⟨hle, -, -, e, he, hhe, ho⟩ := hc
  have hhold : holds c.head e = true := holds_iff.mpr ⟨hhe, by have := ho.1; omega⟩
  obtain ⟨b', hb', hreach, hnum, hfree, hruns⟩ := carve_usedRun (h.built e he) ho
  obtain ⟨hgood, hat, hoff⟩ := h.setBlock he hhold hreach hnum
  have hnew := (hruns (c.start - e.1) (lenToRun c.size)).mpr (.inl ⟨rfl, rfl⟩)
  have hstart : holds c.start e = true := holds_iff.mpr ⟨by omega, by have := hnew.1; omega⟩
  refine ⟨m.setBlock c.head b', ?_, hgood, fun j hj => ?_, fun t j => ?_, rfl, rfl⟩
  · rw [Ram.paCarve, h.find he hhold, bind_some, hb']
    rfl
  · rw [h.usedRun_at he hstart] at hj
    cases hfree.symm.trans hj.2.1
  cases ht : holds t e with
  | true =>
    rw [hat t j ht, hruns, h.usedRun_at he ht]
    have hte := (holds_iff.mp ht).1
    refine or_congr_left (and_congr_left fun _ => ?_)
    omega
  | false =>
    rw [hoff t j ht]
    refine ⟨.inr, ?_⟩
    rintro (⟨rfl, -⟩ | hu)
    · cases ht.symm.trans hstart
    · exact hu

/-- The carves `done` of an allocation that started from `m₀`, and what they were paid with. -/
structure Carved (m₀ : Ram) (resv : BitVec 32) (done : List Carve) (a : Alloc) : Prop where
  good : Good a.ram
  alloc : a.alloc = done.map Carve.start
  nodup : (done.map Carve.start).Nodup
  fresh : ∀ c ∈ done, ∀ j, ¬m₀.UsedRun c.start j
  whole : ∀ c ∈ done, lenToRun c.size ≠ 0 ∧ lenOf (lenToRun c.size) = ofNat 32 c.size
  runs : ∀ t j, a.ram.UsedRun t j ↔ (∃ c ∈ done, t = c.start ∧ j = lenToRun c.size) ∨ m₀.UsedRun t j
  left : a.resv.toNat = resv.toNat - (done.map Carve.size).sum
  reserved : a.ram.reservedSize =
    m₀.reservedSize - ofNat 32 (min resv.toNat (done.map Carve.size).sum)
  free : a.ram.freeSize = m₀.freeSize - ofNat 32 ((done.map Carve.size).sum - resv.toNat)

theorem Fits.whole (h : m.Fits c) :
    lenToRun c.size ≠ 0 ∧ lenOf (lenToRun c.size) = ofNat 32 c.size := by
  obtain ⟨-, hmod, hlt, e, -, -, -, -, -, -, hpos, -⟩ := h
  refine ⟨by omega, ?_⟩
  rw [lenOf, lenToRun, quantumBits]
  congr 1
  omega

theorem ofNat_sub {x y : Nat} (h : x ≤ y) : ofNat 32 (y - x) = ofNat 32 y - ofNat 32 x := by
  rw [eq_sub_iff_add_eq, ← ofNat_add, Nat.sub_add_cancel h]

theorem Carved.step (h : Carved m₀ resv done a) (hc : a.ram.Fits c) :
    ∃ a', a.carve c = some a' ∧ Carved m₀ resv (done ++ [c]) a' := by
  obtain ⟨m', he, hgood, hnew, hruns, hres, hfree⟩ := h.good.paCarve hc
  have hleft := h.left
  have hnodup : ((done ++ [c]).map Carve.start).Nodup := by
    rw [map_append, nodup_append]
    refine ⟨h.nodup, nodup_singleton _, fun x hx y hy hxy => ?_⟩
    obtain ⟨d, hd, rfl⟩ := mem_map.mp hx
    obtain rfl := mem_singleton.mp hy
    exact hnew _ ((h.runs _ _).mpr (.inl ⟨d, hd, hxy.symm, rfl⟩))
  have hfresh : ∀ d ∈ done ++ [c], ∀ j, ¬m₀.UsedRun d.start j := by
    intro d hd j hj
    rcases mem_append.mp hd with hd | hd
    · exact h.fresh d hd j hj
    · rw [mem_singleton.mp hd] at hj
      exact hnew j ((h.runs _ _).mpr (.inr hj))
  have hwhole : ∀ d ∈ done ++ [c],
      lenToRun d.size ≠ 0 ∧ lenOf (lenToRun d.size) = ofNat 32 d.size := by
    refine forall_mem_append.mpr ⟨h.whole, ?_⟩
    intro d hd
    rw [mem_singleton.mp hd]
    exact hc.whole
  have hall : ∀ t j, m'.UsedRun t j ↔
      (∃ d ∈ done ++ [c], t = d.start ∧ j = lenToRun d.size) ∨ m₀.UsedRun t j := by
    intro t j
    rw [hruns, h.runs]
    simp only [mem_append, mem_singleton, or_and_right, exists_or, exists_eq_left]
    exact or_left_comm.trans or_assoc.symm
  have hsize : (ofNat 32 c.size).toNat = c.size := by
    rw [toNat_ofNat, Nat.mod_eq_of_lt hc.2.2.1]
  have hresv : a.resv = ofNat 32 (resv.toNat - (done.map Carve.size).sum) := by
    rw [← hleft, ofNat_toNat, setWidth_eq]
  have hsum : ((done ++ [c]).map Carve.size).sum = (done.map Carve.size).sum + c.size := by simp
  have hmap : (done ++ [c]).map Carve.start = done.map Carve.start ++ [c.start] := by simp
  rw [Alloc.carve, he]
  dsimp only
  refine ⟨_, rfl, ?_⟩
  split
  · rename_i hle
    rw [le_def, hsize, hleft] at hle
    refine ⟨⟨hgood.built, hgood.apart, hgood.small⟩, by rw [h.alloc, hmap], hnodup, hfresh, hwhole, hall,
      ?_, ?_, ?_⟩
    · rw [BitVec.toNat_sub_of_le (by rwa [le_def, hsize, hleft]), hsize, hleft]
      omega
    · dsimp only
      rw [hres, h.reserved, sub_sub, ← ofNat_add]
      congr 2
      omega
    · rw [hfree, h.free]
      congr 2
      omega
  rename_i hlt
  rw [le_def] at hlt
  refine ⟨⟨hgood.built, hgood.apart, hgood.small⟩, by rw [h.alloc, hmap], hnodup, hfresh, hwhole, hall,
    ?_, ?_, ?_⟩
  · show 0 = _
    omega
  · dsimp only
    rw [hres, h.reserved, hresv, sub_sub, ← ofNat_add]
    congr 2
    omega
  · dsimp only
    rw [hfree, h.free, hresv, ← ofNat_sub (by omega), sub_sub, ← ofNat_add]
    congr 2
    omega

theorem Carved.search (h : Carved m₀ resv done a) (hs : Search a cs) :
    ∃ a', cs.foldlM Alloc.carve a = some a' ∧ Carved m₀ resv (done ++ cs) a' := by
  induction cs generalizing a done with
  | nil => exact ⟨a, rfl, by rwa [append_nil]⟩
  | cons c cs ih =>
    obtain ⟨a1, he1, h1⟩ := h.step hs.1
    obtain ⟨a', he', h'⟩ := ih h1 (hs.2 a1 he1)
    refine ⟨a', ?_, by rwa [append_assoc] at h'⟩
    rw [foldlM_cons, he1]
    exact he'

theorem freeList_spec (resv : BitVec 32) (hgood : Good m) (hnd : (cs.map Carve.start).Nodup)
    (hfresh : ∀ c ∈ cs, ∀ j, ¬m₀.UsedRun c.start j)
    (hwhole : ∀ c ∈ cs, lenToRun c.size ≠ 0 ∧ lenOf (lenToRun c.size) = ofNat 32 c.size)
    (hruns : ∀ t j, m.UsedRun t j ↔
      (∃ c ∈ cs, t = c.start ∧ j = lenToRun c.size) ∨ m₀.UsedRun t j) :
    ∃ m', paFreeList resv m (cs.map Carve.start) = some m' ∧ Good m' ∧
      (∀ t j, m'.UsedRun t j ↔ m₀.UsedRun t j) ∧
      m'.reservedSize = m.reservedSize + ofNat 32 (cs.length * resv.toNat) ∧
      m'.freeSize = m.freeSize + (ofNat 32 (cs.map Carve.size).sum -
        ofNat 32 (cs.length * resv.toNat)) := by
  induction cs generalizing m with
  | nil => exact ⟨m, rfl, hgood, fun t j => by simp [hruns], by simp, by simp⟩
  | cons c cs ih =>
    obtain ⟨hne, hlen⟩ := hwhole c mem_cons_self
    obtain ⟨hc, hnd⟩ := nodup_cons.mp hnd
    have hu := (hruns _ _).mpr (.inl ⟨c, mem_cons_self, rfl, rfl⟩)
    obtain ⟨e, hfind, hrun⟩ := hgood.run_eq hu
    obtain ⟨m1, he1, hgood1, hruns1, hres1, hfree1⟩ := Good.paFree resv hgood hu hne (le_rfl)
    obtain ⟨m', he', hgood', hruns', hres', hfree'⟩ := ih hgood1 hnd (forall_mem_cons.mp hfresh).2
      (forall_mem_cons.mp hwhole).2 fun t j => by
        rw [hruns1, hruns]
        constructor
        · rintro (⟨⟨d, hd, rfl, rfl⟩ | hm, hne⟩ | ⟨-, -, hlt⟩)
          · rcases mem_cons.mp hd with rfl | hd
            · exact absurd rfl hne
            · exact .inl ⟨d, hd, rfl, rfl⟩
          · exact .inr hm
          · omega
        · rintro (⟨d, hd, rfl, rfl⟩ | hm)
          · refine .inl ⟨.inl ⟨d, mem_cons_of_mem c hd, rfl, rfl⟩, fun hdc => hc ?_⟩
            exact hdc ▸ mem_map_of_mem hd
          · refine .inl ⟨.inr hm, ?_⟩
            rintro rfl
            exact hfresh c mem_cons_self j hm
    have hmul : ofNat 32 ((cs.length + 1) * resv.toNat) =
        ofNat 32 (cs.length * resv.toNat) + resv := by
      rw [Nat.succ_mul, ofNat_add, ofNat_toNat, setWidth_eq]
    refine ⟨m', ?_, hgood', hruns', ?_, ?_⟩
    · rw [map_cons, paFreeList, hfind, bind_some, hrun, Int.toNat_natCast, he1]
      exact he'
    · rw [hres', hres1, length_cons, hmul, add_assoc, add_comm resv]
    · rw [hfree', hfree1, hlen, length_cons, hmul, map_cons, sum_cons, ofNat_add]
      ring

/-- A failed allocation restores the counters and the free quanta if and only if the reservation,
once for every run carved, comes to what the runs had taken of it. -/
theorem failed_alloc_restores_iff (h : Good m) (hs : Search ⟨m, resv, []⟩ cs) :
    ∃ m', m.paAllocFails resv cs = some m' ∧
      (m'.reservedSize = m.reservedSize ∧ m'.freeSize = m.freeSize ∧ (∀ q, m'.InUse q ↔ m.InUse q) ↔
        cs.length * resv.toNat % 2 ^ 32 = min resv.toNat (cs.map Carve.size).sum) := by
  have h0 : Carved m resv [] ⟨m, resv, []⟩ :=
    ⟨h, rfl, nodup_nil, nofun, nofun, by simp, by simp, by simp, by simp⟩
  obtain ⟨a, he, ha⟩ := h0.search hs
  rw [nil_append] at ha
  obtain ⟨m', he', hgood', hruns, hres, hfree⟩ :=
    freeList_spec resv ha.good ha.nodup ha.fresh ha.whole ha.runs
  refine ⟨m', ?_, ?_⟩
  · rw [paAllocFails, he, bind_some, ha.alloc]
    exact he'
  have huse : ∀ q, m'.InUse q ↔ m.InUse q := by
    intro q
    rw [hgood'.inUse_iff, h.inUse_iff]
    simp only [hruns]
  have hsum : ofNat 32 (cs.map Carve.size).sum = ofNat 32 (min resv.toNat (cs.map Carve.size).sum) +
        ofNat 32 ((cs.map Carve.size).sum - resv.toNat) := by
    rw [← ofNat_add]
    congr 1
    omega
  have hmod : ofNat 32 (min resv.toNat (cs.map Carve.size).sum) =
      ofNat 32 (cs.length * resv.toNat) ↔
      cs.length * resv.toNat % 2 ^ 32 = min resv.toNat (cs.map Carve.size).sum := by
    rw [← BitVec.toNat_inj, toNat_ofNat, toNat_ofNat, Nat.mod_eq_of_lt (by omega), eq_comm]
  rw [← hmod, hres, hfree, ha.reserved, ha.free, hsum]
  constructor
  · rintro ⟨hr, -, -⟩
    rwa [sub_add, sub_eq_self, sub_eq_zero] at hr
  · intro heq
    rw [← heq]
    exact ⟨by ring, by ring, huse⟩

/-- That is so when nothing is reserved. It is so for a contiguous request too, which carves all of
`size` or nothing, and for one quantum: a search that fails has carved nothing then. -/
theorem credits_of_request {size : Nat} (hs : Search ⟨m, resv, []⟩ cs)
    (hfail : (cs.map Carve.size).sum < size)
    (h : resv = 0 ∨ (∀ c ∈ cs, size ≤ c.size) ∨ size ≤ 4096) :
    cs.length * resv.toNat % 2 ^ 32 = min resv.toNat (cs.map Carve.size).sum := by
  rcases h with rfl | h
  · simp
  cases cs with
  | nil => simp
  | cons c cs =>
    obtain ⟨-, hmod, -, e, -, -, -, -, -, -, hpos, -⟩ := hs.1
    rw [lenToRun, quantumBits] at hpos
    rw [map_cons, sum_cons] at hfail
    rcases h with h | h
    · have := h c mem_cons_self
      omega
    · omega

theorem search_alone : ∃ m : Ram, Good m ∧ m.reservedSize = 4096 ∧ m.freeSize = 8192 ∧
    Search ⟨m, 4096, []⟩ [⟨16, 16, 4096⟩, ⟨18, 18, 4096⟩] ∧
    ∃ m', m.paAllocFails 4096 [⟨16, 16, 4096⟩, ⟨18, 18, 4096⟩] = some m' ∧
      m'.reservedSize = 8192 ∧ m'.freeSize = 4096 := by
  have h0 : Reach Block.Init Block.Entry Block.step (Block.initBlock 6) := .init ⟨6, by decide, rfl⟩
  obtain ⟨b, hb, hq⟩ := h0.replay_any [.carve 0 1 4096, .carve 2 3 4096, .carve 4 5 4096]
    (fun b => b.numQuanta == 6 &&
      decide (Search ⟨⟨[(16, b)], 4096, 8192⟩, 4096, []⟩ [⟨16, 16, 4096⟩, ⟨18, 18, 4096⟩]) &&
      (paAllocFails ⟨[(16, b)], 4096, 8192⟩ 4096 [⟨16, 16, 4096⟩, ⟨18, 18, 4096⟩]).any
        fun m => m.reservedSize == 8192 && m.freeSize == 4096)
    (by decide +kernel)
  simp only [Bool.and_eq_true, beq_iff_eq, decide_eq_true_eq, Option.any_eq_true] at hq
  obtain ⟨⟨hn, hs⟩, m', hm'⟩ := hq
  exact ⟨_, good_single hb (by omega) _ _, rfl, rfl, hs, m', hm'⟩

theorem failed_alloc_restores_one_run : ∃ m : Ram, Good m ∧
    ∃ m', m.paAllocFails 4096 [⟨16, 16, 4096⟩] = some m' ∧ m'.reservedSize = m.reservedSize ∧
      m'.freeSize = m.freeSize ∧ ∀ q, m'.InUse q ↔ m.InUse q := by
  obtain ⟨m, h, -, -, hs, -⟩ := search_alone
  have hs : Search ⟨m, 4096, []⟩ [⟨16, 16, 4096⟩] := ⟨hs.1, fun _ _ => trivial⟩
  obtain ⟨m', he, hiff⟩ := failed_alloc_restores_iff h hs
  exact ⟨m, h, m', he, hiff.mpr (by decide)⟩

/-- Two runs are carved before the search runs out, one of them paid out of the reservation of 4096
bytes: 8192 bytes are reserved afterwards. -/
theorem failed_alloc_overcredits : ∃ m : Ram, Good m ∧
    Search ⟨m, 4096, []⟩ [⟨16, 16, 4096⟩, ⟨18, 18, 4096⟩] ∧ m.reservedSize = 4096 ∧
    m.freeSize = 8192 ∧ ∃ m', m.paAllocFails 4096 [⟨16, 16, 4096⟩, ⟨18, 18, 4096⟩] = some m' ∧
      m'.reservedSize = 8192 ∧ m'.freeSize = 4096 := by
  obtain ⟨m, h, hr, hf, hs, hm'⟩ := search_alone
  exact ⟨m, h, hs, hr, hf, hm'⟩

end Qnx.Memmgr.Ram
