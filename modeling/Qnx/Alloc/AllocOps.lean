import Qnx.Alloc.BandRun
import Qnx.Alloc.ListOps
import Qnx.Alloc.NewBlock

/-!
# Calls of the C library

Bands and lists together: what a call leaves of the blocks in use, and the room of the block it
returns.
-/

namespace Qnx.Alloc

open Extents List

namespace AllocSt

structure Sound (cfg : Config) (s : AllocSt) : Prop where
  small : SmallOk cfg [] s.small
  lists : ListsOk s.lists
  mapped : Mapped s.core (s.lists.arenas ++ s.small.arenas)

/-- The block at `e.1` is in use and has room for `e.2` bytes. -/
def Serves (cfg : Config) (s : AllocSt) (e : Extent) : Prop :=
  (∃ d ∈ s.lists.busy, e.1 = d.1 + 4 ∧ e.2 + 8 ≤ d.2) ∨
  ∃ x ∈ s.small.nodes, e.1 = x.1 + 4 ∧ ∃ i, s.small.Has x.2 i ∧ e.2 ≤ cfg.bands.getD i 0

def headers (s : AllocSt) : List Nat := s.lists.busy.map Prod.fst ++ s.small.nodes.map Prod.fst

variable {cfg : Config} {s s' : AllocSt} {e : Extent} {n p : Nat}

theorem Serves.header (h : s.Serves cfg e) : ∃ x ∈ s.headers, e.1 = x + 4 := by
  rcases h with ⟨d, hd, he, -⟩ | ⟨x, hx, he, -⟩
  · exact ⟨d.1, mem_append_left _ (mem_map_of_mem hd), he⟩
  · exact ⟨x.1, mem_append_right _ (mem_map_of_mem hx), he⟩

theorem Serves.mono {n : Nat} (h : s.Serves cfg e) (hn : n ≤ e.2) : s.Serves cfg (e.1, n) := by
  rcases h with ⟨d, hd, he, hr⟩ | ⟨x, hx, he, i, hi, hr⟩
  · exact .inl ⟨d, hd, he, by omega⟩
  · exact .inr ⟨x, hx, he, i, hi, hn.trans hr⟩

/-! ### No two blocks in use share a header -/

section

variable (h : s.Sound cfg)
include h

section

variable {b d : Block} (hb : b ∈ s.small.alist ++ s.small.dlist)
include hb

theorem outOf_nodup : (outOf s.small.nodes b.addr).Nodup := by
  have hn := (h.small.place.nodes b hb).nodup_iff.mpr (nodesOf_nodup b.addr)
  exact (nodup_append.mp hn).2.1

theorem Sound.slot_within : ∃ r ∈ s.small.arenas, Within (elemOf cfg b, cfg.elemSize) r := by
  obtain ⟨a, ha, -, hh⟩ := h.small.place.arena b hb
  exact ⟨(a.addr, a.size), mem_map_of_mem (f := fun a : BandArena => (a.addr, a.size)) ha,
    Placement.holds_within hh (h.small.place.room a ha)⟩

theorem Sound.node_within {x : Nat} (hx : x ∈ nodesOf cfg (nbpeOf cfg b) b.addr) :
    elemOf cfg b + 60 + bandRem (nbpeOf cfg b) ≤ x ∧
      x + esize (nbpeOf cfg b) ≤ elemOf cfg b + cfg.elemSize := by
  obtain ⟨h1, h2⟩ := nodesOf_bounds hx
  obtain ⟨h3, h4⟩ := h.small.place.within hb
  omega

theorem Sound.slots_off (hd : d ∈ s.small.alist ++ s.small.dlist) (hne : b.addr ≠ d.addr) :
    Off (elemOf cfg b, cfg.elemSize) (elemOf cfg d, cfg.elemSize) := by
  have hap := h.small.place.apart
  unfold slots at hap
  rw [map_append, map_map] at hap
  replace hap := (apart_append.mp hap).1
  have hpw := pairwise_map.mp hap
  exact Pairwise.forall (R := fun b d : Block =>
    Off (elemOf cfg b, cfg.elemSize) (elemOf cfg d, cfg.elemSize)) hpw hb hd
    fun hc => hne (congrArg Block.addr hc)

theorem Sound.nodes_apart {x y : Nat} (hd : d ∈ s.small.alist ++ s.small.dlist)
    (hx : x ∈ nodesOf cfg (nbpeOf cfg b) b.addr) (hy : y ∈ nodesOf cfg (nbpeOf cfg d) d.addr)
    (hne : b.addr ≠ d.addr ∨ x ≠ y) : Off (x, esize (nbpeOf cfg b)) (y, esize (nbpeOf cfg d)) := by
  by_cases ha : b.addr = d.addr
  · obtain rfl : b = d := inj_on_of_nodup_map h.small.place.addr_nodup hb hd ha
    exact nodesOf_apart hx hy (hne.resolve_left fun hc => hc rfl)
  have hoff := h.slots_off hb hd ha
  obtain ⟨h1, h2⟩ := h.node_within hb hx
  obtain ⟨h3, h4⟩ := h.node_within hd hy
  unfold Off at hoff ⊢
  omega

end

theorem Sound.nodes_nodup : (s.small.nodes.map Prod.fst).Nodup := by
  refine pairwise_map.mpr (pairwise_iff_forall_sublist.mpr fun {x y} hs => ?_)
  obtain ⟨b, hb, hbx⟩ := h.small.place.owner x (hs.subset (by simp))
  obtain ⟨d, hd, hdy⟩ := h.small.place.owner y (hs.subset (by simp))
  have hx := h.small.node_mem hb (x := x.1) (by rw [hbx]; exact hs.subset (by simp))
  have hy := h.small.node_mem hd (x := y.1) (by rw [hdy]; exact hs.subset (by simp))
  by_cases ha : b.addr = d.addr
  · -- both are of one block, whose nodes are out once
    have hsub : [x.1, y.1] <+ outOf s.small.nodes b.addr := by
      have := (hs.filter fun z => decide (z.2 = b.addr)).map Prod.fst
      rwa [filter_cons_of_pos (by simp [hbx]), filter_cons_of_pos (by simp [ha, hdy])] at this
    have hn := (outOf_nodup h hb).sublist hsub
    simpa using hn
  · have hoff := h.nodes_apart hb hd hx hy (.inl ha)
    exact hoff.ne (by unfold esize; omega) (by unfold esize; omega)

theorem Sound.regions_off {r q : Extent} (hr : r ∈ s.lists.arenas)
    (hq : q ∈ s.small.arenas) : Off r q :=
  (apart_append.mp (apart_append.mp h.mapped.apart).2.1).2.2 r hr q hq

theorem Sound.chunk_within {d : Extent} (hd : d ∈ s.lists.bins.flatten ++ s.lists.busy) :
    ∃ r ∈ s.lists.arenas, r.1 + 20 ≤ d.1 ∧ d.1 + d.2 + 4 ≤ r.1 + r.2 := by
  obtain ⟨r, hr, hw⟩ := h.lists.laid.inside d hd
  have hp := h.lists.laid.pos hd
  unfold Within interior arenaOverhead at hw
  exact ⟨r, hr, by omega⟩

theorem Sound.headers_nodup : s.headers.Nodup := by
  refine nodup_append.mpr ⟨?_, h.nodes_nodup, ?_⟩
  · have hap := (apart_append.mp h.lists.laid.apart).2.1
    have hpos : ∀ d ∈ s.lists.busy, 0 < d.2 := fun d hd =>
      h.lists.laid.pos (mem_append_right _ hd)
    refine pairwise_map.mpr (pairwise_iff_forall_sublist.mpr fun {d f} hs => ?_)
    exact (pairwise_iff_forall_sublist.mp hap hs).ne (hpos d (hs.subset (by simp)))
      (hpos f (hs.subset (by simp)))
  · intro a ha c hc
    obtain ⟨d, hd, rfl⟩ := mem_map.mp ha
    obtain ⟨x, hx, rfl⟩ := mem_map.mp hc
    obtain ⟨r, hr, h1, h2⟩ := h.chunk_within (mem_append_right _ hd)
    obtain ⟨b, hb, hbx⟩ := h.small.place.owner x hx
    obtain ⟨q, hq, h3, h4⟩ := h.slot_within hb
    obtain ⟨h5, h6⟩ := h.node_within hb (h.small.node_mem hb (x := x.1) (by rw [hbx]; exact hx))
    have hoff := h.regions_off hr hq
    unfold Off at *
    omega

end

/-! ### Allocations -/

/-- A call for `n` bytes left everything in use and returned `o`. -/
structure Alloced (cfg : Config) (s : AllocSt) (n : Nat) (o : Option Nat) (s' : AllocSt) : Prop where
  sound : s'.Sound cfg
  kept : ∀ e, s.Serves cfg e → s'.Serves cfg e
  some : ∀ p, o = some p → s'.Serves cfg (p, n) ∧ ∃ x ∉ s.headers, p = x + 4

theorem Alloced.refl (h : s.Sound cfg) : Alloced cfg s n none s := ⟨h, fun _ he => he, nofun⟩

theorem Sound.serves {x : Nat} (h : s.Sound cfg) (hx : x ∈ s.headers) :
    s.Serves cfg (x + 4, 0) := by
  rcases mem_append.mp hx with hx | hx
  · obtain ⟨d, hd, rfl⟩ := mem_map.mp hx
    have := (h.lists.laid.shaped d (mem_append_right _ hd)).size
    unfold minFsize at this
    exact .inl ⟨d, hd, rfl, by omega⟩
  obtain ⟨y, hy, rfl⟩ := mem_map.mp hx
  obtain ⟨b, hb, hby⟩ := h.small.place.owner y hy
  exact .inr ⟨y, hy, rfl, b.band, ⟨b, hb, hby, rfl⟩, Nat.zero_le _⟩

variable {o : Option Nat} {i al k : Nat}

theorem Alloced.header {x : Nat} (ha : Alloced cfg s n o s') (h : s.Sound cfg)
    (hx : x ∈ s.headers) : x ∈ s'.headers := by
  obtain ⟨y, hy, he⟩ := (ha.kept _ (h.serves hx)).header
  exact Nat.add_right_cancel he ▸ hy

theorem fromBand_ok (h : s.Sound cfg) (hi : i < cfg.bands.length) (hd : Direct al s.small i)
    (hf : Fits cfg (cfg.bands.getD i 0) al) (hn : n ≤ cfg.bands.getD i 0) :
    ∃ o s', s.fromBand cfg i al = .ok (o, s') ∧ Alloced cfg s n o s' := by
  have hm := h.mapped.permX perm_append_comm
  obtain ⟨⟨o, c, m⟩, hb⟩ := bandGetAligned_returns h.small hm (getD_band hi) hf
  obtain ⟨g, hc⟩ := bandGetAligned_ok h.small hm (getD_band hi) hd hb
  have hsub : ∀ x ∈ s.small.nodes, x ∈ m.nodes := by
    intro x hx
    cases o with
    | none => exact g.none rfl ▸ hx
    | some p =>
      obtain ⟨y, b, -, hy, -⟩ := g.some p rfl
      rw [hy]
      exact mem_cons_of_mem _ hx
  have hs : Sound cfg { s with core := c, small := m } :=
    ⟨g.ok, h.lists, hc.permX perm_append_comm⟩
  refine ⟨o, _, by rw [fromBand, hb]; rfl, hs, fun e he => ?_, fun p hp => ?_⟩
  · rcases he with hl | ⟨x, hx, he, j, hj, hr⟩
    · exact .inl hl
    · exact .inr ⟨x, hsub x hx, he, j, g.kept _ _ hj, hr⟩
  · obtain ⟨x, b, hx, hy, hh⟩ := g.some p hp
    refine ⟨.inr ⟨(x, b), by rw [hy]; exact mem_cons_self, hx, i, hh, hn⟩, x, ?_, hx⟩
    have hnd := hs.headers_nodup
    unfold headers at hnd
    rw [hy] at hnd
    exact (nodup_cons.mp (perm_middle.nodup_iff.mp hnd)).1

theorem fromList_ok (hal : al = 2 ^ k) (h8 : 8 ≤ al) (hle : al ≤ 2 ^ 30) (hn0 : 0 < n)
    (hn : n < 2 ^ 31) (h : s.Sound cfg) (hr : s.fromList cfg al n = (o, s')) :
    Alloced cfg s n o s' := by
  unfold fromList at hr
  generalize hb : listMemalign cfg s.core s.lists al n = r at hr
  obtain ⟨o', c, l⟩ := r
  cases hr
  obtain ⟨h1, h2, h3, h4⟩ := listMemalign_ok hal h8 hle hn0 hn h.lists h.mapped hb
  have hs : Sound cfg { s with core := c, lists := l } := ⟨h.small, h1, h2⟩
  have hsub : ∀ d ∈ s.lists.busy, d ∈ l.busy := by
    intro d hd
    cases o' with
    | none => exact h3 rfl ▸ hd
    | some p =>
      obtain ⟨f, hf⟩ := h4 p rfl
      rw [hf.busy]
      exact mem_cons_of_mem _ hd
  refine ⟨hs, fun e he => ?_, fun p hp => ?_⟩
  · rcases he with ⟨d, hd, he⟩ | hx
    · exact .inl ⟨d, hsub d hd, he⟩
    · exact .inr hx
  · obtain ⟨d, hd⟩ := h4 p hp
    refine ⟨.inl ⟨d, by rw [hd.busy]; exact mem_cons_self, hd.ptr, hd.room⟩, d.1, ?_, hd.ptr⟩
    have hnd := hs.headers_nodup
    unfold headers at hnd
    rw [hd.busy] at hnd
    exact (nodup_cons.mp hnd).1

theorem direct_eight (m : Small) (i : Nat) : Direct 8 m i := by
  intro r hr
  unfold bandFind at hr
  cases hl : m.alist.filter fun b => b.band = i with
  | nil =>
    rw [hl] at hr
    cases hr
  | cons b rest =>
    rw [hl] at hr
    dsimp only at hr
    cases hb : b.head with
    | nil =>
      rw [hb] at hr
      cases hr
    | cons x xs =>
      rw [hb] at hr
      cases hr
      rfl

theorem newSelBand_some (h : newSelBand cfg n = some i) :
    i < cfg.bands.length ∧ n ≤ cfg.bands.getD i 0 := by
  obtain ⟨hi, hp, -⟩ := findIdx?_eq_some_iff_getElem.mp h
  refine ⟨hi, ?_⟩
  rw [getD_eq_getElem?_getD, getElem?_eq_getElem hi]
  exact of_decide_eq_true hp

theorem newSelBand_none (h : newSelBand cfg n = none) : 0 < n := by
  obtain ⟨m, hm⟩ := exists_mem_of_ne_nil _ cfg.bands_ne
  have := findIdx?_eq_none_iff.mp h m hm
  simp only [decide_eq_false_iff_not] at this
  omega

theorem malloc_ok (h : s.Sound cfg) (n : Nat) :
    ∃ o s', s.malloc cfg n = .ok (o, s') ∧ Alloced cfg s n o s' := by
  unfold malloc
  split
  · exact ⟨_, _, rfl, .refl h⟩
  split
  · rename_i i hb
    obtain ⟨h1, h2⟩ := newSelBand_some hb
    exact fromBand_ok h h1 (direct_eight s.small i) (.inl rfl) h2
  · rename_i hb
    exact ⟨_, _, rfl, fromList_ok (k := 3) rfl (by decide) (by decide) (newSelBand_none hb)
      (by omega) h rfl⟩

def AlignOk (cfg : Config) (s : AllocSt) (al n : Nat) : Prop :=
  al % 8 ≠ 0 ∨ al = 0 ∨ al = 8 ∨ 2 ^ Nat.log2 al = al ∧ al ≤ 2 ^ 30 ∧
    (selectBand cfg al n = none → 0 < n) ∧ ∀ i ∈ selectBand cfg al n, Direct al s.small i

theorem memalign_ok (h : s.Sound cfg) (ha : s.AlignOk cfg al n) :
    ∃ o s', s.memalign cfg al n = .ok (o, s') ∧ Alloced cfg s n o s' := by
  unfold memalign
  split
  · exact ⟨_, _, rfl, .refl h⟩
  split
  · exact ⟨_, _, rfl, .refl h⟩
  rename_i hmod
  split
  · exact malloc_ok h n
  rename_i h8
  rcases ha with ha | ha | ha | ⟨hpow, hle, hpos, hdirect⟩
  · exact absurd ha hmod
  · exact absurd (.inl ha) h8
  · exact absurd (.inr ha) h8
  split
  · rename_i i hb
    obtain ⟨hi, hp, -⟩ := findIdx?_eq_some_iff_getElem.mp hb
    obtain ⟨hp0, hp1, hp2⟩ := of_decide_eq_true hp
    have hi' : cfg.bands.getD i 0 = cfg.bands[i] := by
      rw [getD_eq_getElem?_getD, getElem?_eq_getElem hi, Option.getD_some]
    refine fromBand_ok h hi (hdirect i hb) (.inr ⟨_, hpow.symm, ?_⟩) (hi' ▸ hp0)
    rw [hi']
    exact ⟨⟨_, by rw [Nat.mul_comm]; exact hp2.symm⟩, hp1⟩
  · rename_i hb
    exact ⟨_, _, rfl, fromList_ok hpow.symm (by omega) hle (hpos hb) (by omega) h rfl⟩

/-! ### Releases -/

structure Freed (cfg : Config) (s : AllocSt) (p : Nat) (s' : AllocSt) : Prop where
  sound : s'.Sound cfg
  kept : ∀ e, s.Serves cfg e → e.1 ≠ p → s'.Serves cfg e

theorem free_ok {x : Nat} (h : s.Sound cfg) (hx : x ∈ s.headers) :
    ∃ s', s.free cfg (x + 4) = .ok s' ∧ Freed cfg s (x + 4) s' := by
  unfold free
  rw [Nat.add_sub_cancel]
  obtain ⟨hn1, hn2, hn3⟩ := nodup_append.mp h.headers_nodup
  rcases mem_append.mp hx with hx | hx
  · obtain ⟨d, hd, rfl⟩ := mem_map.mp hx
    have hno : s.small.nodes.find? (fun y => y.1 = d.1) = none := by
      refine find?_eq_none.mpr fun y hy => ?_
      simpa using (hn3 _ hx _ (mem_map_of_mem hy)).symm
    have hf := Keyed.find_eq Prod.fst hn1 hd rfl
    rw [hno, hf]
    obtain ⟨h1, h2, h3⟩ := listRelease_ok cfg h.lists h.mapped hd
    refine ⟨_, rfl, ⟨h.small, h1, h2⟩, fun e he hne => ?_⟩
    rcases he with ⟨f, hf, he, hr⟩ | hx
    · refine .inl ⟨f, ?_, he, hr⟩
      rw [h3]
      refine (mem_erase_of_ne fun hc => hne ?_).mpr hf
      rw [he, hc]
    · exact .inr hx
  obtain ⟨⟨x, a⟩, hy, rfl⟩ := mem_map.mp hx
  have hf := Keyed.find_eq Prod.fst hn2 hy rfl
  obtain ⟨b, hb, rfl⟩ := h.small.place.owner (x, a) hy
  have hlt : ¬x < b.addr := by
    have := (nodesOf_bounds (h.small.node_mem hb hy)).1
    omega
  obtain ⟨c, m, hr, hrel, hc⟩ := bandRlse_ok h.small (h.mapped.permX perm_append_comm) hy
  rw [hf]
  dsimp only
  rw [if_neg hlt, hr]
  refine ⟨_, rfl, ⟨hrel.ok, h.lists, hc.permX perm_append_comm⟩, fun e he hne => ?_⟩
  rcases he with hl | ⟨y, hy, he, j, hj, hr⟩
  · exact .inl hl
  have hmem : y ∈ s.small.nodes.erase (x, b.addr) := by
    refine (mem_erase_of_ne fun hc => hne ?_).mpr hy
    rw [he, hc]
  exact .inr ⟨y, hrel.nodes ▸ hmem, he, j, hrel.kept y hmem j hj, hr⟩

/-! ### `realloc` -/

structure Realloced (cfg : Config) (s : AllocSt) (p n : Nat) (o : Option Nat) (s' : AllocSt) :
    Prop where
  sound : s'.Sound cfg
  kept : ∀ e, s.Serves cfg e → e.1 ≠ p → s'.Serves cfg e
  none : o = none → 0 < n → ∀ e, s.Serves cfg e → s'.Serves cfg e
  some : ∀ q, o = some q → s'.Serves cfg (q, n) ∧ (q = p ∨ ∃ x ∉ s.headers, q = x + 4)

/-- What a caller of `realloc` owes: within a band it only shrinks. -/
def GrowOk (cfg : Config) (s : AllocSt) (p n : Nat) : Prop :=
  ∀ m ∈ s.msize cfg p, newSelBand cfg m = newSelBand cfg n → newSelBand cfg n ≠ none → n ≤ m

theorem newSelBand_nbpe {b : Block} (hb : b.band < cfg.bands.length) :
    newSelBand cfg (nbpeOf cfg b) ≠ none := by
  intro hc
  have := findIdx?_eq_none_iff.mp hc _ (nbpeOf_mem hb)
  simp at this

theorem growth_ge (cfg : Config) (monotonic : Bool) (osize size : Nat) :
    size ≤ growth cfg monotonic osize size := by
  unfold growth
  split <;> omega

section

variable (h : s.Sound cfg)
include h

theorem move_ok {x m : Nat} (hx : x ∈ s.headers) (hm : n ≤ m) :
    ∃ o s', s.move cfg (x + 4) m = .ok (o, s') ∧ Realloced cfg s (x + 4) n o s' := by
  obtain ⟨o, s1, hb, ha⟩ := malloc_ok h m
  unfold move
  rw [hb]
  cases o with
  | none =>
    exact ⟨_, _, rfl, ha.sound, fun e he _ => ha.kept e he, fun _ _ => ha.kept, nofun⟩
  | some p =>
    obtain ⟨hp, y, hy, hpy⟩ := ha.some p rfl
    obtain ⟨s2, hf, hfree⟩ := free_ok ha.sound (ha.header h hx)
    dsimp only
    rw [hf]
    refine ⟨_, _, rfl, hfree.sound, fun e he => hfree.kept e (ha.kept e he), nofun, ?_⟩
    intro q hq
    cases hq
    refine ⟨hfree.kept _ (hp.mono hm) ?_, .inr ⟨y, hy, hpy⟩⟩
    rintro rfl
    exact hy (Nat.add_right_cancel hpy ▸ hx)

theorem msize_of_node {x a : Nat} (hx : (x, a) ∈ s.small.nodes) :
    ∃ b ∈ s.small.alist ++ s.small.dlist, b.addr = a ∧
      s.msize cfg (x + 4) = some (nbpeOf cfg b) := by
  obtain ⟨b, hb, rfl⟩ := h.small.place.owner (x, a) hx
  refine ⟨b, hb, rfl, ?_⟩
  have hf := Keyed.find_eq Prod.fst h.nodes_nodup hx rfl
  have hlt : ¬x < b.addr := by
    have := (nodesOf_bounds (h.small.node_mem hb hx)).1
    omega
  have hfind : s.small.findBlock b.addr = some b :=
    Keyed.find_eq Block.addr h.small.place.addr_nodup hb rfl
  unfold msize
  rw [Nat.add_sub_cancel, hf]
  dsimp only
  rw [if_neg hlt, hfind]
  exact getD_band (h.small.place.band b hb)

theorem msize_of_chunk {d : Extent} (hd : d ∈ s.lists.busy) :
    s.msize cfg (d.1 + 4) = some (d.2 - 8) ∧ s.lists.busy.find? (fun y => y.1 = d.1) = some d := by
  obtain ⟨hn1, hn2, hn3⟩ := nodup_append.mp h.headers_nodup
  have hno : s.small.nodes.find? (fun y => y.1 = d.1) = none := by
    refine find?_eq_none.mpr fun y hy => ?_
    simpa using (hn3 _ (mem_map_of_mem hd) _ (mem_map_of_mem hy)).symm
  have hf := Keyed.find_eq Prod.fst hn1 hd rfl
  refine ⟨?_, hf⟩
  unfold msize
  rw [Nat.add_sub_cancel, hno, hf]
  rfl

theorem resize_ok {d : Extent} {l : Lists} (hd : d ∈ s.lists.busy) (hn : 0 < n)
    (hr : listResize cfg s.lists d n = some l) :
    Realloced cfg s (d.1 + 4) n (some (d.1 + 4)) { s with lists := l } := by
  obtain ⟨h1, h2, d', h3, h4, h5⟩ := listResize_ok hn h.lists h.mapped hd hr
  refine ⟨⟨h.small, h1, h2 ▸ h.mapped⟩, fun e he hne => ?_, nofun, fun q hq => ?_⟩
  · rcases he with ⟨f, hf, he, hr⟩ | hx
    · refine .inl ⟨f, ?_, he, hr⟩
      rw [h3]
      refine mem_cons_of_mem _ ((mem_erase_of_ne fun hc => hne ?_).mpr hf)
      rw [he, hc]
    · exact .inr hx
  · cases hq
    refine ⟨.inl ⟨d', ?_, by rw [h4], h5⟩, .inl rfl⟩
    rw [h3]
    exact mem_cons_self

theorem realloc_ok {x : Nat} {monotonic : Bool} (hx : x ∈ s.headers)
    (hg : s.GrowOk cfg (x + 4) n) : ∃ o s', s.realloc cfg monotonic (x + 4) n = .ok (o, s') ∧
      Realloced cfg s (x + 4) n o s' := by
  unfold realloc
  rw [if_neg (by omega)]
  split
  · obtain ⟨s1, hf, hfree⟩ := free_ok h hx
    rw [hf]
    exact ⟨_, _, rfl, hfree.sound, hfree.kept, fun _ hpos => absurd hpos (by omega), nofun⟩
  split
  · exact ⟨_, _, rfl, h, fun _ he _ => he, fun _ _ _ he => he, nofun⟩
  obtain ⟨m, hm, hserves, hchunk⟩ : ∃ m, s.msize cfg (x + 4) = some m ∧ s.Serves cfg (x + 4, m) ∧
      (newSelBand cfg m = none → ∃ d ∈ s.lists.busy, d.1 = x ∧
        s.lists.busy.find? (fun e => e.1 = x) = some d) := by
    rcases mem_append.mp hx with hx | hx
    · obtain ⟨d, hd, rfl⟩ := mem_map.mp hx
      obtain ⟨hm, hf⟩ := msize_of_chunk h hd
      refine ⟨_, hm, .inl ⟨d, hd, rfl, ?_⟩, fun _ => ⟨d, hd, rfl, hf⟩⟩
      have := (h.lists.laid.shaped d (mem_append_right _ hd)).size
      unfold minFsize at this
      omega
    obtain ⟨⟨x, a⟩, hy, rfl⟩ := mem_map.mp hx
    obtain ⟨b, hb, rfl, hm⟩ := msize_of_node h hy
    exact ⟨_, hm, .inr ⟨(x, b.addr), hy, rfl, b.band, ⟨b, hb, rfl, rfl⟩, le_rfl⟩,
      fun ho => absurd ho (newSelBand_nbpe (h.small.place.band b hb))⟩
  rw [hm]
  dsimp only
  cases hw : newSelBand cfg n with
  | some j =>
    dsimp only
    split
    · -- where both sizes select one band the block is large enough
      rename_i heq
      refine ⟨_, _, rfl, h, fun _ he _ => he, nofun, fun q hq => ?_⟩
      cases hq
      exact ⟨hserves.mono (hg m hm (heq.trans hw.symm) (by rw [hw]; nofun)), .inl rfl⟩
    · exact move_ok h hx le_rfl
  | none =>
    cases ho : newSelBand cfg m with
    | some j => exact move_ok h hx le_rfl
    | none =>
      obtain ⟨d, hd, rfl, hf⟩ := hchunk ho
      rw [Nat.add_sub_cancel, hf]
      dsimp only
      cases hl : listResize cfg s.lists d n with
      | some l => exact ⟨_, _, rfl, resize_ok h hd (by omega) hl⟩
      | none => exact move_ok h hx (growth_ge cfg monotonic _ n)

end

end AllocSt

end Qnx.Alloc
