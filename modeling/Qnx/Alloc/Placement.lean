import Qnx.Alloc.Cores

/-!
# Blocks in band arenas

Where the blocks of the bands and the elements put aside lie in the band arenas, and which of a
block's nodes are out. None of it depends on the order of the lists.
-/

namespace Qnx.Alloc

open Extents List

def nbpeOf (cfg : Config) (b : Block) : Nat := cfg.bands.getD b.band 0

def elemOf (cfg : Config) (b : Block) : Nat := b.elem (nbpeOf cfg b)

def outOf (N : List (Nat × Nat)) (a : Nat) : List Nat :=
  (N.filter fun x => x.2 = a).map Prod.fst

/-- `e` is an element of arena `a` that was handed out before. -/
def Holds (cfg : Config) (a : BandArena) (e : Nat) : Prop :=
  ∃ i < a.nused + a.ahead.length, e = a.addr + i * cfg.elemSize

def slots (cfg : Config) (B : List Block) (R : List BandArena) : List Extent :=
  (B.map (elemOf cfg) ++ R.flatMap BandArena.ahead).map fun e => (e, cfg.elemSize)

structure Placement (cfg : Config) (B : List Block) (N : List (Nat × Nat))
    (R : List BandArena) : Prop where
  band : ∀ b ∈ B, b.band < cfg.bands.length
  addr : ∀ b ∈ B, b.addr = blockAddr (nbpeOf cfg b) (elemOf cfg b)
  nodes : ∀ b ∈ B, b.head ++ outOf N b.addr ~ nodesOf cfg (nbpeOf cfg b) b.addr
  owner : ∀ x ∈ N, ∃ b ∈ B, b.addr = x.2
  apart : Apart (slots cfg B R)
  arena : ∀ b ∈ B, ∃ a ∈ R, a.addr = b.arena ∧ Holds cfg a (elemOf cfg b)
  ahead : ∀ a ∈ R, ∀ e ∈ a.ahead, Holds cfg a e
  count : ∀ a ∈ R, a.nused = B.countP fun b => b.arena = a.addr
  room : ∀ a ∈ R, a.nused + a.ahead.length ≤ a.ntotal ∧ a.ntotal * cfg.elemSize ≤ a.size
  addrs : (R.map BandArena.addr).Nodup

/-! ### Sizes -/

section Sizes
variable {cfg : Config} {b : Block} {n x : Nat}

theorem Config.elemSize_pos (cfg : Config) : 0 < cfg.elemSize := by
  obtain ⟨m, hm⟩ := exists_mem_of_ne_nil _ cfg.bands_ne
  have := cfg.bands_fit m hm
  omega

theorem nbpeOf_mem (h : b.band < cfg.bands.length) : nbpeOf cfg b ∈ cfg.bands := by
  unfold nbpeOf
  rw [getD_eq_getElem?_getD, List.getElem?_eq_getElem h]
  exact getElem_mem h

theorem nalloc_spec (hn : n ∈ cfg.bands) :
    0 < cfg.nalloc n ∧ cfg.nalloc n * esize n + 64 + bandRem n ≤ cfg.elemSize := by
  have hfit := cfg.bands_fit n hn
  have he : 0 < esize n := by
    unfold esize
    omega
  unfold Config.nalloc
  constructor
  · exact Nat.div_pos (by omega) he
  · have := Nat.div_mul_le_self (cfg.elemSize - (64 + bandRem n)) (esize n)
    omega

variable {a : Nat}

theorem mem_nodesOf : x ∈ nodesOf cfg n a ↔ ∃ i < cfg.nalloc n, x = a + 28 + i * esize n := by
  simp only [nodesOf, mem_map, mem_range]
  exact ⟨fun ⟨i, hi, h⟩ => ⟨i, hi, h.symm⟩, fun ⟨i, hi, h⟩ => ⟨i, hi, h.symm⟩⟩

theorem nodesOf_bounds (h : x ∈ nodesOf cfg n a) :
    a + 28 ≤ x ∧ x + esize n ≤ a + 28 + cfg.nalloc n * esize n := by
  obtain ⟨i, hi, rfl⟩ := mem_nodesOf.mp h
  have : (i + 1) * esize n ≤ cfg.nalloc n * esize n := Nat.mul_le_mul_right _ hi
  rw [Nat.add_mul] at this
  omega

theorem nodesOf_apart {y : Nat} (hx : x ∈ nodesOf cfg n a) (hy : y ∈ nodesOf cfg n a)
    (hne : x ≠ y) : x + esize n ≤ y ∨ y + esize n ≤ x := by
  obtain ⟨i, -, rfl⟩ := mem_nodesOf.mp hx
  obtain ⟨j, -, rfl⟩ := mem_nodesOf.mp hy
  rcases Nat.lt_trichotomy i j with h | rfl | h
  · have : (i + 1) * esize n ≤ j * esize n := Nat.mul_le_mul_right _ h
    rw [Nat.add_mul] at this
    omega
  · exact absurd rfl hne
  have : (j + 1) * esize n ≤ i * esize n := Nat.mul_le_mul_right _ h
  rw [Nat.add_mul] at this
  omega

theorem nodesOf_nodup (a : Nat) : (nodesOf cfg n a).Nodup := by
  refine Nodup.map_on (fun i _ j _ h => ?_) nodup_range
  have he : 0 < esize n := by
    unfold esize
    omega
  exact Nat.eq_of_mul_eq_mul_right he (by omega)

theorem elem_blockAddr (i nbpe e arena : Nat) : (newBlock cfg i nbpe e arena).elem nbpe = e := by
  unfold newBlock Block.elem blockAddr
  dsimp only
  omega

end Sizes

namespace Placement
variable {cfg : Config} {B B' : List Block} {N N' : List (Nat × Nat)} {R R' : List BandArena}

theorem slots_perm (hB : B ~ B') (hR : R ~ R') : slots cfg B R ~ slots cfg B' R' :=
  ((hB.map _).append (hR.flatMap_right _)).map _

theorem perm (h : Placement cfg B N R) (hB : B ~ B') (hR : R ~ R') : Placement cfg B' N R' where
  band b hb := h.band b (hB.symm.subset hb)
  addr b hb := h.addr b (hB.symm.subset hb)
  nodes b hb := h.nodes b (hB.symm.subset hb)
  owner x hx := by
    obtain ⟨b, hb, he⟩ := h.owner x hx
    exact ⟨b, hB.subset hb, he⟩
  apart := h.apart.perm (slots_perm hB hR)
  arena b hb := by
    obtain ⟨a, ha, he⟩ := h.arena b (hB.symm.subset hb)
    exact ⟨a, hR.subset ha, he⟩
  ahead a ha := h.ahead a (hR.symm.subset ha)
  count a ha := (h.count a (hR.symm.subset ha)).trans (hB.countP_eq _)
  room a ha := h.room a (hR.symm.subset ha)
  addrs := (hR.map _).nodup_iff.mp h.addrs

variable {b : Block} {a : BandArena} {e : Nat}

theorem within (h : Placement cfg B N R) (hb : b ∈ B) :
    elemOf cfg b + 32 + bandRem (nbpeOf cfg b) = b.addr ∧
    b.addr + 32 + cfg.nalloc (nbpeOf cfg b) * esize (nbpeOf cfg b) ≤
      elemOf cfg b + cfg.elemSize := by
  have h1 := h.addr b hb
  have h2 := (nalloc_spec (nbpeOf_mem (h.band b hb))).2
  unfold blockAddr at h1
  omega

theorem mem_slots (hb : b ∈ B) : (elemOf cfg b, cfg.elemSize) ∈ slots cfg B R :=
  mem_map_of_mem (mem_append_left _ (mem_map_of_mem hb))

theorem addr_nodup (h : Placement cfg B N R) : (B.map Block.addr).Nodup := by
  refine pairwise_map.mpr (pairwise_iff_forall_sublist.mpr fun {b d} hs => ?_)
  obtain ⟨w1, w2⟩ := h.within (b := b) (hs.subset (by simp))
  obtain ⟨w3, w4⟩ := h.within (b := d) (hs.subset (by simp))
  have hoff : Off (elemOf cfg b, cfg.elemSize) (elemOf cfg d, cfg.elemSize) := by
    have hsub : [(elemOf cfg b, cfg.elemSize), (elemOf cfg d, cfg.elemSize)] <+ slots cfg B R :=
      ((hs.map (elemOf cfg)).trans (sublist_append_left _ _)).map fun e => (e, cfg.elemSize)
    exact pairwise_iff_forall_sublist.mp h.apart hsub
  unfold Off at hoff
  omega

theorem setNodes {b' : Block} (h : Placement cfg (b :: B) N R) (ha : b'.addr = b.addr)
    (hb : b'.band = b.band) (hr : b'.arena = b.arena)
    (hnodes : b'.head ++ outOf N' b.addr ~ nodesOf cfg (nbpeOf cfg b) b.addr)
    (hother : ∀ a, a ≠ b.addr → outOf N' a ~ outOf N a)
    (howner : ∀ x ∈ N', x.2 = b.addr ∨ x ∈ N) : Placement cfg (b' :: B) N' R := by
  have hn : nbpeOf cfg b' = nbpeOf cfg b := by rw [nbpeOf, nbpeOf, hb]
  have he : elemOf cfg b' = elemOf cfg b := by rw [elemOf, elemOf, hn, Block.elem, Block.elem, ha]
  constructor
  case band =>
    refine forall_mem_cons.mpr ⟨?_, fun d hd => h.band d (by simp [hd])⟩
    rw [hb]
    exact h.band b (by simp)
  case addr =>
    refine forall_mem_cons.mpr ⟨?_, fun d hd => h.addr d (by simp [hd])⟩
    rw [ha, hn, he]
    exact h.addr b (by simp)
  case nodes =>
    intro d hd
    rcases mem_cons.mp hd with rfl | hd
    · rw [ha, hn]
      exact hnodes
    have hne := (nodup_cons.mp h.addr_nodup).1
    have ho := hother d.addr fun hc => hne (hc ▸ mem_map_of_mem hd)
    exact (ho.append_left _).trans (h.nodes d (by simp [hd]))
  case owner =>
    intro x hx
    rcases howner x hx with hx | hx
    · exact ⟨b', by simp, ha.trans hx.symm⟩
    obtain ⟨d, hd, hdx⟩ := h.owner x hx
    rcases mem_cons.mp hd with rfl | hd
    · exact ⟨b', by simp, ha.trans hdx⟩
    · exact ⟨d, by simp [hd], hdx⟩
  case apart =>
    have : slots cfg (b' :: B) R = slots cfg (b :: B) R := by
      unfold slots
      rw [map_cons, map_cons, he]
    rw [this]
    exact h.apart
  case arena =>
    refine forall_mem_cons.mpr ⟨?_, fun d hd => h.arena d (by simp [hd])⟩
    rw [hr, he]
    exact h.arena b (by simp)
  case ahead => exact h.ahead
  case count =>
    intro a har
    rw [h.count a har, countP_cons, countP_cons, hr]
  case room => exact h.room
  case addrs => exact h.addrs

/-! ### Elements come and go -/

theorem holds_within (h : Holds cfg a e)
    (hr : a.nused + a.ahead.length ≤ a.ntotal ∧ a.ntotal * cfg.elemSize ≤ a.size) :
    Within (e, cfg.elemSize) (a.addr, a.size) := by
  obtain ⟨i, hi, rfl⟩ := h
  have : (i + 1) * cfg.elemSize ≤ a.ntotal * cfg.elemSize := Nat.mul_le_mul_right _ (by omega)
  rw [Nat.add_mul] at this
  exact ⟨Nat.le_add_right _ _, by omega⟩

theorem Holds.mono {a' : BandArena} (h : Holds cfg a e) (ha : a'.addr = a.addr)
    (hle : a.nused + a.ahead.length ≤ a'.nused + a'.ahead.length) : Holds cfg a' e := by
  obtain ⟨i, hi, rfl⟩ := h
  exact ⟨i, hi.trans_le hle, by rw [ha]⟩

theorem newArena (h : Placement cfg B N R) (h0 : a.nused = 0)
    (hh : a.ahead = []) (hs : a.ntotal * cfg.elemSize ≤ a.size)
    (hnew : a.addr ∉ R.map BandArena.addr) : Placement cfg B N (a :: R) where
  band := h.band
  addr := h.addr
  nodes := h.nodes
  owner := h.owner
  apart := by
    have : slots cfg B (a :: R) = slots cfg B R := by
      unfold slots
      rw [flatMap_cons, hh, nil_append]
    rw [this]
    exact h.apart
  arena b hb := by
    obtain ⟨d, hd, he⟩ := h.arena b hb
    exact ⟨d, mem_cons_of_mem a hd, he⟩
  ahead d hd := by
    rcases mem_cons.mp hd with rfl | hd
    · simp [hh]
    · exact h.ahead d hd
  count d hd := by
    rcases mem_cons.mp hd with rfl | hd
    · rw [h0]
      refine (countP_eq_zero.mpr fun b hb => ?_).symm
      obtain ⟨f, hf, he, -⟩ := h.arena b hb
      simp only [decide_eq_true_eq]
      exact fun hc => hnew (mem_map.mpr ⟨f, hf, he.trans hc⟩)
    · exact h.count d hd
  room := forall_mem_cons.mpr ⟨⟨by simp [h0, hh], hs⟩, h.room⟩
  addrs := nodup_cons.mpr ⟨hnew, h.addrs⟩

theorem takeElem_spec (cfg : Config) (a : BandArena) :
    let r := takeElem cfg a
    r.2.addr = a.addr ∧ r.2.size = a.size ∧ r.2.ntotal = a.ntotal ∧ r.2.nused = a.nused + 1 ∧
      (a.ahead = r.1 :: r.2.ahead ∨
        a.ahead = [] ∧ r.2.ahead = [] ∧ r.1 = a.addr + a.nused * cfg.elemSize) := by
  unfold takeElem
  cases hh : a.ahead with
  | nil => exact ⟨rfl, rfl, rfl, rfl, .inr ⟨rfl, rfl, rfl⟩⟩
  | cons e ahead => exact ⟨rfl, rfl, rfl, rfl, .inl rfl⟩

section

variable (h : Placement cfg B N (a :: R)) (hreg : Apart ((a :: R).map fun a => (a.addr, a.size)))
  (hlt : a.nused < a.ntotal)
include h hreg hlt

theorem slots_take :
    Apart (((takeElem cfg a).1, cfg.elemSize) :: slots cfg B ((takeElem cfg a).2 :: R)) := by
  obtain ⟨-, -, -, -, hcase⟩ := takeElem_spec cfg a
  rcases hcase with hc | ⟨h0, h1, he⟩
  · refine h.apart.perm ?_
    unfold slots
    rw [flatMap_cons, hc, ← map_cons (f := fun e => (e, cfg.elemSize))]
    refine Perm.map _ ?_
    exact perm_middle
  · have hsame : slots cfg B ((takeElem cfg a).2 :: R) = slots cfg B (a :: R) := by
      unfold slots
      rw [flatMap_cons, flatMap_cons, h0, h1]
    rw [hsame, he]
    refine apart_cons.mpr ⟨fun f hf => ?_, h.apart⟩
    obtain ⟨hroom1, hroom2⟩ := h.room a (by simp)
    have hmine : Within (a.addr + a.nused * cfg.elemSize, cfg.elemSize) (a.addr, a.size) := by
      have : (a.nused + 1) * cfg.elemSize ≤ a.ntotal * cfg.elemSize := Nat.mul_le_mul_right _ hlt
      rw [Nat.add_mul] at this
      exact ⟨Nat.le_add_right _ _, by omega⟩
    -- an element of another arena lies in that arena, one of the same arena was taken before
    obtain ⟨e, hm, rfl⟩ := mem_map.mp hf
    obtain ⟨d, hd, hh⟩ : ∃ d ∈ a :: R, Holds cfg d e := by
      rcases mem_append.mp hm with hm | hm
      · obtain ⟨b, hb, rfl⟩ := mem_map.mp hm
        obtain ⟨d, hd, -, hh⟩ := h.arena b hb
        exact ⟨d, hd, hh⟩
      · obtain ⟨d, hd, hm⟩ := mem_flatMap.mp hm
        exact ⟨d, hd, h.ahead d hd e hm⟩
    rcases mem_cons.mp hd with rfl | hd
    · obtain ⟨i, hi, hfi⟩ := hh
      rw [h0] at hi
      have : (i + 1) * cfg.elemSize ≤ d.nused * cfg.elemSize := Nat.mul_le_mul_right _ hi
      rw [Nat.add_mul] at this
      unfold Off
      omega
    have hoff : Off (a.addr, a.size) (d.addr, d.size) := by
      exact (apart_cons.mp hreg).1 _ (mem_map_of_mem hd)
    have hw := holds_within hh (h.room d (mem_cons_of_mem _ hd))
    exact ((hoff.within hmine).symm.within hw).symm

theorem addBlock {i n : Nat} (hi : cfg.bands[i]? = some n) :
    Placement cfg (newBlock cfg i n (takeElem cfg a).1 a.addr :: B) N
      ((takeElem cfg a).2 :: R) := by
  have hap := slots_take h hreg hlt
  obtain ⟨t1, t2, t3, t4, hcase⟩ := takeElem_spec cfg a
  obtain ⟨hil, hin⟩ := List.getElem?_eq_some_iff.mp hi
  have hn : nbpeOf cfg (newBlock cfg i n (takeElem cfg a).1 a.addr) = n := by
    unfold nbpeOf newBlock
    rw [getD_eq_getElem?_getD, hi]
    rfl
  have he : elemOf cfg (newBlock cfg i n (takeElem cfg a).1 a.addr) = (takeElem cfg a).1 := by
    unfold elemOf
    rw [hn]
    exact elem_blockAddr _ _ _ _
  obtain ⟨hs1, hs2, hs3⟩ : a.nused + a.ahead.length ≤
      (takeElem cfg a).2.nused + (takeElem cfg a).2.ahead.length ∧
      (takeElem cfg a).2.nused + (takeElem cfg a).2.ahead.length ≤ a.ntotal ∧
      Holds cfg (takeElem cfg a).2 (takeElem cfg a).1 := by
    have hroom := (h.room a (by simp)).1
    rcases hcase with hc | ⟨h0, h1, h2⟩
    · have hl : a.ahead.length = (takeElem cfg a).2.ahead.length + 1 := by rw [hc]; rfl
      refine ⟨by omega, by omega, ?_⟩
      exact Holds.mono (h.ahead a (by simp) _ (by rw [hc]; simp)) t1 (by omega)
    · rw [h0, h1, length_nil]
      refine ⟨by omega, by omega, a.nused, by omega, ?_⟩
      rw [h2, t1]
  have hmem : ∀ d, d ∈ (takeElem cfg a).2 :: R → d = (takeElem cfg a).2 ∨ d ∈ R :=
    fun d hd => mem_cons.mp hd
  constructor
  case band =>
    exact forall_mem_cons.mpr ⟨hil, h.band⟩
  case addr =>
    refine forall_mem_cons.mpr ⟨?_, h.addr⟩
    rw [hn, he]
    rfl
  case nodes =>
    refine forall_mem_cons.mpr ⟨?_, h.nodes⟩
    rw [hn]
    -- no node that is out leads to the new block
    have hout : outOf N (newBlock cfg i n (takeElem cfg a).1 a.addr).addr = [] := by
      unfold outOf
      rw [map_eq_nil_iff, filter_eq_nil_iff]
      intro x hx
      obtain ⟨b, hb, hbx⟩ := h.owner x hx
      obtain ⟨w1, w2⟩ := h.within hb
      have hoff := (apart_cons.mp hap).1 (elemOf cfg b, cfg.elemSize) (mem_slots hb)
      have hfit := cfg.bands_fit n (hin ▸ getElem_mem hil)
      have ha : (newBlock cfg i n (takeElem cfg a).1 a.addr).addr =
        (takeElem cfg a).1 + 32 + bandRem n := rfl
      simp only [decide_eq_true_eq]
      unfold Off at hoff
      omega
    rw [hout, append_nil]
    exact .refl _
  case owner =>
    intro x hx
    obtain ⟨b, hb, hbx⟩ := h.owner x hx
    exact ⟨b, mem_cons_of_mem _ hb, hbx⟩
  case apart =>
    have : slots cfg (newBlock cfg i n (takeElem cfg a).1 a.addr :: B) ((takeElem cfg a).2 :: R) =
        ((takeElem cfg a).1, cfg.elemSize) :: slots cfg B ((takeElem cfg a).2 :: R) := by
      unfold slots
      rw [map_cons, cons_append, map_cons, he]
    rw [this]
    exact hap
  case arena =>
    refine forall_mem_cons.mpr ⟨⟨_, mem_cons_self, t1, by rw [he]; exact hs3⟩, ?_⟩
    intro d hd
    obtain ⟨f, hf, hfe, hh⟩ := h.arena d hd
    rcases mem_cons.mp hf with rfl | hf
    · exact ⟨_, mem_cons_self, t1.trans hfe, Holds.mono hh t1 hs1⟩
    · exact ⟨f, mem_cons_of_mem _ hf, hfe, hh⟩
  case ahead =>
    intro d hd e hm
    rcases hmem d hd with rfl | hd
    · refine Holds.mono (h.ahead a (by simp) e ?_) t1 hs1
      rcases hcase with hc | ⟨-, h1, -⟩
      · rw [hc]
        exact mem_cons_of_mem _ hm
      · rw [h1] at hm
        cases hm
    · exact h.ahead d (mem_cons_of_mem _ hd) e hm
  case count =>
    intro d hd
    rw [countP_cons]
    rcases hmem d hd with rfl | hd
    · rw [t4, t1, h.count a (by simp), if_pos (by simp [newBlock])]
    have hne : a.addr ≠ d.addr := by
      have := (nodup_cons.mp h.addrs).1
      exact fun hc => this (hc ▸ mem_map_of_mem hd)
    have hno : ¬decide ((newBlock cfg i n (takeElem cfg a).1 a.addr).arena = d.addr) = true :=
      fun hc => hne (of_decide_eq_true hc)
    rw [h.count d (mem_cons_of_mem _ hd), if_neg hno, Nat.add_zero]
  case room =>
    intro d hd
    rcases hmem d hd with rfl | hd
    · rw [t3, t2]
      exact ⟨hs2, (h.room a (by simp)).2⟩
    · exact h.room d (mem_cons_of_mem _ hd)
  case addrs =>
    rw [map_cons, t1]
    exact h.addrs

end

theorem dropBlock_count (h : Placement cfg (b :: B) N R) (ha : a ∈ R) (hne : a.addr ≠ b.arena) :
    a.nused = B.countP fun d => d.arena = a.addr := by
  rw [h.count a ha, countP_cons, if_neg (fun hc => hne (of_decide_eq_true hc).symm), Nat.add_zero]

theorem dropBlock_owner (h : Placement cfg (b :: B) N R)
    (hout : outOf N b.addr = []) : ∀ x ∈ N, ∃ d ∈ B, d.addr = x.2 := by
  intro x hx
  obtain ⟨d, hd, hdx⟩ := h.owner x hx
  rcases mem_cons.mp hd with rfl | hd
  · have hm : x.1 ∈ outOf N d.addr := mem_map_of_mem (mem_filter.mpr ⟨hx, decide_eq_true hdx.symm⟩)
    rw [hout] at hm
    cases hm
  · exact ⟨d, hd, hdx⟩

theorem returnArena (h : Placement cfg (b :: B) N (a :: R))
    (ha : a.addr = b.arena) (hout : outOf N b.addr = []) (h1 : a.nused = 1) :
    Placement cfg B N R where
  band d hd := h.band d (mem_cons_of_mem b hd)
  addr d hd := h.addr d (mem_cons_of_mem b hd)
  nodes d hd := h.nodes d (mem_cons_of_mem b hd)
  owner := dropBlock_owner h hout
  apart := by
    refine h.apart.sublist (Sublist.map _ (Sublist.append ?_ ?_))
    · exact sublist_cons_self _ _
    · exact sublist_append_right _ _
  arena d hd := by
    obtain ⟨f, hf, hfe, hh⟩ := h.arena d (mem_cons_of_mem b hd)
    rcases mem_cons.mp hf with rfl | hf
    · -- the count of the arena would be two
      have hc := h.count f (by simp)
      have hpos : 0 < B.countP fun d => d.arena = f.addr :=
        countP_pos_iff.mpr ⟨d, hd, decide_eq_true hfe.symm⟩
      rw [countP_cons, if_pos (decide_eq_true ha.symm)] at hc
      omega
    · exact ⟨f, hf, hfe, hh⟩
  ahead d hd := h.ahead d (mem_cons_of_mem a hd)
  count d hd := by
    refine dropBlock_count h (mem_cons_of_mem a hd) fun hc => ?_
    exact (nodup_cons.mp h.addrs).1 (ha.trans hc.symm ▸ mem_map_of_mem hd)
  room d hd := h.room d (mem_cons_of_mem a hd)
  addrs := (nodup_cons.mp h.addrs).2

theorem returnElem (h : Placement cfg (b :: B) N (a :: R))
    (ha : a.addr = b.arena) (hout : outOf N b.addr = []) :
    Placement cfg B N ({ a with nused := a.nused - 1, ahead := elemOf cfg b :: a.ahead } :: R) := by
  have hc := h.count a (by simp)
  rw [countP_cons, if_pos (decide_eq_true ha.symm)] at hc
  have hle : a.nused + a.ahead.length ≤ a.nused - 1 + (elemOf cfg b :: a.ahead).length := by
    rw [length_cons]
    omega
  have hhold : Holds cfg a (elemOf cfg b) := by
    obtain ⟨f, hf, hfe, hh⟩ := h.arena b (by simp)
    rcases mem_cons.mp hf with rfl | hf
    · exact hh
    · exact absurd (ha.trans hfe.symm ▸ mem_map_of_mem hf) (nodup_cons.mp h.addrs).1
  constructor
  case band => exact (forall_mem_cons.mp h.band).2
  case addr => exact (forall_mem_cons.mp h.addr).2
  case nodes => exact (forall_mem_cons.mp h.nodes).2
  case owner => exact dropBlock_owner h hout
  case apart =>
    refine h.apart.perm ?_
    exact Perm.map _ perm_middle.symm
  case arena =>
    intro d hd
    obtain ⟨f, hf, hfe, hh⟩ := h.arena d (mem_cons_of_mem b hd)
    rcases mem_cons.mp hf with rfl | hf
    · exact ⟨_, mem_cons_self, hfe, Holds.mono hh rfl hle⟩
    · exact ⟨f, mem_cons_of_mem _ hf, hfe, hh⟩
  case ahead =>
    intro d hd e he
    rcases mem_cons.mp hd with rfl | hd
    · rcases mem_cons.mp he with rfl | he
      · exact Holds.mono hhold rfl hle
      · exact Holds.mono (h.ahead a (by simp) e he) rfl hle
    · exact h.ahead d (mem_cons_of_mem a hd) e he
  case count =>
    intro d hd
    rcases mem_cons.mp hd with rfl | hd
    · dsimp only
      omega
    · refine dropBlock_count h (mem_cons_of_mem a hd) fun hc => ?_
      exact (nodup_cons.mp h.addrs).1 (ha.trans hc.symm ▸ mem_map_of_mem hd)
  case room =>
    refine forall_mem_cons.mpr ⟨?_, (forall_mem_cons.mp h.room).2⟩
    obtain ⟨r1, r2⟩ := h.room a (by simp)
    dsimp only
    rw [length_cons]
    omega
  case addrs => exact h.addrs

end Placement

end Qnx.Alloc
