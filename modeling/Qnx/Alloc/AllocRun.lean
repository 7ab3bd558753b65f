import Qnx.Alloc.AllocOps

/-!
# Runs of the C library's allocator

Any sequence of calls. The bytes a caller asked for are its own: they are mapped, no other block in
use has them, and the allocator keeps nothing there.
-/

namespace Qnx.Alloc

open Extents List Prod
open Run

/-! ### What the allocator keeps in its memory -/

def listBook (l : Lists) : List Extent :=
  l.arenas.flatMap (fun r => [(r.1, 20), (r.1 + r.2 - 4, 4)]) ++
    (l.bins.flatten ++ l.busy.flatMap fun d => [(d.1, 4), (d.1 + d.2 - 4, 4)])

def bandBook (cfg : Config) (m : Small) : List Extent :=
  (m.head ++ m.dhead).flatMap (fun a => a.ahead.map fun e => (e, cfg.elemSize)) ++
    ((m.alist ++ m.dlist).flatMap (fun b => (elemOf cfg b, 60 + bandRem (nbpeOf cfg b)) ::
      b.head.map fun x => (x, esize (nbpeOf cfg b))) ++
    m.nodes.map fun x => (x.1, 4))

def AllocSt.bookkeeping (cfg : Config) (s : AllocSt) : List Extent :=
  s.core.cache ++ (listBook s.lists ++ bandBook cfg s.small)

def InChunk (s : AllocSt) (e : Extent) : Prop := ∃ d ∈ s.lists.busy, Within e (d.1 + 4, d.2 - 8)

structure InNode (cfg : Config) (s : AllocSt) (x : Nat) (b : Block) (e : Extent) : Prop where
  out : (x, b.addr) ∈ s.small.nodes
  block : b ∈ s.small.alist ++ s.small.dlist
  within : Within e (x + 4, nbpeOf cfg b)

namespace AllocSt
variable {cfg : Config} {s : AllocSt} {e f : Extent} {x : Nat} {b : Block}

theorem Serves.room (h : s.Serves cfg e) :
    (∃ d ∈ s.lists.busy, e.1 = d.1 + 4 ∧ Within e (d.1 + 4, d.2 - 8)) ∨
    ∃ x b, e.1 = x + 4 ∧ InNode cfg s x b e := by
  rcases h with ⟨d, hd, he, hr⟩ | ⟨x, hx, he, i, ⟨b, hb, hbx, rfl⟩, hr⟩
  · exact .inl ⟨d, hd, he, by unfold Within; omega⟩
  refine .inr ⟨x.1, b, he, by rw [hbx]; exact hx, hb, ?_⟩
  have : e.2 ≤ nbpeOf cfg b := hr
  unfold Within
  omega

section

variable (h : s.Sound cfg)
include h

theorem Sound.node_region (he : InNode cfg s x b e) : ∃ q ∈ s.small.arenas, Within e q := by
  obtain ⟨q, hq, hw⟩ := h.slot_within he.block
  obtain ⟨h1, h2⟩ := h.node_within he.block (h.small.node_mem he.block he.out)
  refine ⟨q, hq, Within.trans ?_ hw⟩
  have := he.within
  unfold Within esize at *
  omega

theorem Sound.chunk_region (he : InChunk s e) : ∃ r ∈ s.lists.arenas, Within e r := by
  obtain ⟨d, hd, hw⟩ := he
  obtain ⟨r, hr, h1, h2⟩ := h.chunk_within (mem_append_right _ hd)
  refine ⟨r, hr, ?_⟩
  unfold Within at *
  omega

theorem Sound.listBook_region (hf : f ∈ listBook s.lists) : ∃ r ∈ s.lists.arenas, Within f r := by
  have hchunk : ∀ d ∈ s.lists.bins.flatten ++ s.lists.busy, ∀ g, Within g d →
      ∃ r ∈ s.lists.arenas, Within g r := by
    intro d hd g hg
    obtain ⟨r, hr, h1, h2⟩ := h.chunk_within hd
    exact ⟨r, hr, hg.trans ⟨by omega, by omega⟩⟩
  rcases mem_append.mp hf with hf | hf
  · obtain ⟨r, hr, hf⟩ := mem_flatMap.mp hf
    have hreg := h.mapped.mem (mem_append_left _ hr)
    have hsz := Nat.le_of_dvd hreg.size_pos hreg.size_dvd
    unfold psiz at hsz
    refine ⟨r, hr, ?_⟩
    rcases mem_pair.mp hf with rfl | rfl
    · exact ⟨le_rfl, by omega⟩
    · exact ⟨by omega, by omega⟩
  rcases mem_append.mp hf with hf | hf
  · exact hchunk f (mem_append_left _ hf) f (.refl f)
  obtain ⟨d, hd, hf⟩ := mem_flatMap.mp hf
  have hsz := (h.lists.laid.shaped d (mem_append_right _ hd)).size
  unfold minFsize at hsz
  refine hchunk d (mem_append_right _ hd) f ?_
  rcases mem_pair.mp hf with rfl | rfl
  · exact ⟨le_rfl, by omega⟩
  · exact ⟨by omega, by omega⟩

theorem Sound.mem_bandBook (hf : f ∈ bandBook cfg s.small) :
    (∃ a ∈ s.small.head ++ s.small.dhead, ∃ e ∈ a.ahead, f = (e, cfg.elemSize)) ∨
    ∃ b ∈ s.small.alist ++ s.small.dlist, f = (elemOf cfg b, 60 + bandRem (nbpeOf cfg b)) ∨
      ∃ x ∈ nodesOf cfg (nbpeOf cfg b) b.addr,
        x ∈ b.head ∧ f = (x, esize (nbpeOf cfg b)) ∨ (x, b.addr) ∈ s.small.nodes ∧ f = (x, 4) := by
  rcases mem_append.mp hf with hf | hf
  · obtain ⟨a, ha, hf⟩ := mem_flatMap.mp hf
    obtain ⟨e, he, rfl⟩ := mem_map.mp hf
    exact .inl ⟨a, ha, e, he, rfl⟩
  rcases mem_append.mp hf with hf | hf
  · obtain ⟨b, hb, hf⟩ := mem_flatMap.mp hf
    refine .inr ⟨b, hb, ?_⟩
    rcases mem_cons.mp hf with rfl | hf
    · exact .inl rfl
    obtain ⟨x, hx, rfl⟩ := mem_map.mp hf
    have hm := (h.small.place.nodes b hb).subset (mem_append_left _ hx)
    exact .inr ⟨x, hm, .inl ⟨hx, rfl⟩⟩
  obtain ⟨⟨x, a⟩, hx, rfl⟩ := mem_map.mp hf
  obtain ⟨b, hb, rfl⟩ := h.small.place.owner (x, a) hx
  exact .inr ⟨b, hb, .inr ⟨x, h.small.node_mem hb hx, .inr ⟨hx, rfl⟩⟩⟩

theorem Sound.within_slot (hb : b ∈ s.small.alist ++ s.small.dlist)
    (hf : f = (elemOf cfg b, 60 + bandRem (nbpeOf cfg b)) ∨ ∃ x ∈ nodesOf cfg (nbpeOf cfg b) b.addr,
        x ∈ b.head ∧ f = (x, esize (nbpeOf cfg b)) ∨ (x, b.addr) ∈ s.small.nodes ∧ f = (x, 4)) :
    Within f (elemOf cfg b, cfg.elemSize) := by
  rcases hf with rfl | ⟨x, hx, hf⟩
  · have hn := nbpeOf_mem (h.small.place.band b hb)
    obtain ⟨-, h2⟩ := nalloc_spec hn
    exact ⟨le_rfl, by omega⟩
  obtain ⟨h1, h2⟩ := h.node_within hb hx
  unfold Within esize at *
  rcases hf with ⟨-, rfl⟩ | ⟨-, rfl⟩ <;> omega

theorem Sound.bandBook_region (hf : f ∈ bandBook cfg s.small) :
    ∃ q ∈ s.small.arenas, Within f q := by
  rcases h.mem_bandBook hf with ⟨a, ha, e, he, rfl⟩ | ⟨b, hb, hf⟩
  · exact ⟨(a.addr, a.size), mem_map_of_mem (f := fun a : BandArena => (a.addr, a.size)) ha,
      Placement.holds_within (h.small.place.ahead a ha e he) (h.small.place.room a ha)⟩
  obtain ⟨q, hq, hw⟩ := h.slot_within hb
  exact ⟨q, hq, (h.within_slot hb hf).trans hw⟩

end

/-! ### Bytes in use -/

section

variable (h : s.Sound cfg)
include h

theorem Sound.chunk_off (he : InChunk s e) (hf : f ∈ listBook s.lists) : Off e f := by
  obtain ⟨d, hd, hw⟩ := he
  have hdm : d ∈ s.lists.bins.flatten ++ s.lists.busy := mem_append_right _ hd
  obtain ⟨r, hr, h1, h2⟩ := h.chunk_within hdm
  have hdsz := (h.lists.laid.shaped d hdm).size
  unfold minFsize at hdsz
  rcases mem_append.mp hf with hf | hf
  · obtain ⟨q, hq, hf⟩ := mem_flatMap.mp hf
    by_cases hqr : q = r
    · subst hqr
      unfold Within Off at *
      rcases mem_pair.mp hf with rfl | rfl <;> omega
    have hap := (apart_append.mp (apart_append.mp h.mapped.apart).2.1).1
    have hoff : Off r q := Pairwise.forall hap hr hq fun hc => hqr hc.symm
    unfold Within Off at *
    rcases mem_pair.mp hf with rfl | rfl <;> omega
  have hother : ∀ g ∈ s.lists.bins.flatten ++ s.lists.busy, d ≠ g → Off d g := fun g hg hne =>
    Pairwise.forall h.lists.laid.apart hdm hg hne
  rcases mem_append.mp hf with hf | hf
  · -- a free chunk is not one in use
    have hne : d ≠ f := by
      rintro rfl
      have := (apart_append.mp h.lists.laid.apart).2.2 d hf d hd
      unfold Off at this
      omega
    have := hother f (mem_append_left _ hf) hne
    unfold Within Off at *
    omega
  obtain ⟨g, hg, hf⟩ := mem_flatMap.mp hf
  by_cases hdg : d = g
  · subst hdg
    unfold Within Off at *
    rcases mem_pair.mp hf with rfl | rfl <;> omega
  have := hother g (mem_append_right _ hg) hdg
  unfold Within Off at *
  rcases mem_pair.mp hf with rfl | rfl <;> omega

theorem Sound.node_off (he : InNode cfg s x b e) (hf : f ∈ bandBook cfg s.small) : Off e f := by
  have hx := h.small.node_mem he.block he.out
  have hw := he.within
  obtain ⟨h1, h2⟩ := h.node_within he.block hx
  have hslot : Within e (elemOf cfg b, cfg.elemSize) := by
    unfold Within esize at *
    omega
  rcases h.mem_bandBook hf with ⟨a, ha, g, hg, rfl⟩ | ⟨d, hd, hf⟩
  · have hap := h.small.place.apart
    unfold slots at hap
    rw [map_append] at hap
    refine ((apart_append.mp hap).2.2 _ ?_ _ ?_).within hslot
    · exact mem_map_of_mem (f := fun e => (e, cfg.elemSize)) (mem_map_of_mem he.block)
    · exact mem_map_of_mem (mem_flatMap.mpr ⟨a, ha, hg⟩)
  by_cases hbd : b.addr = d.addr
  · obtain rfl : b = d := inj_on_of_nodup_map h.small.place.addr_nodup he.block hd hbd
    rcases hf with rfl | ⟨y, hy, hf⟩
    · unfold Within Off at *
      omega
    rcases hf with ⟨hyh, rfl⟩ | ⟨-, rfl⟩
    · -- a free node is not out
      have hn := (h.small.place.nodes b hd).nodup_iff.mpr (nodesOf_nodup b.addr)
      have hne : x ≠ y := ((nodup_append.mp hn).2.2 y hyh x (mem_outOf he.out)).symm
      have := h.nodes_apart hd hd hx hy (.inr hne)
      unfold Within Off esize at *
      omega
    by_cases hxy : x = y
    · subst hxy
      exact .inr hw.1
    have := h.nodes_apart hd hd hx hy (.inr hxy)
    unfold Within Off esize at *
    omega
  · have hoff := (h.slots_off he.block hd hbd).within hslot
    exact (hoff.symm.within (h.within_slot hd hf)).symm

theorem Sound.serves_region (he : s.Serves cfg e) :
    ∃ r ∈ s.lists.arenas ++ s.small.arenas, Within e r := by
  rcases he.room with ⟨d, hd, -, hw⟩ | ⟨x, b, -, hn⟩
  · obtain ⟨r, hr, hw⟩ := h.chunk_region ⟨d, hd, hw⟩
    exact ⟨r, mem_append_left _ hr, hw⟩
  · obtain ⟨r, hr, hw⟩ := h.node_region hn
    exact ⟨r, mem_append_right _ hr, hw⟩

theorem Sound.off_of_regions (he : ∃ r ∈ s.lists.arenas, Within e r)
    (hf : ∃ q ∈ s.small.arenas, Within f q) : Off e f := by
  obtain ⟨r, hr, hw⟩ := he
  obtain ⟨q, hq, hw'⟩ := hf
  exact (((h.regions_off hr hq).within hw).symm.within hw').symm

theorem Sound.off_bookkeeping (he : s.Serves cfg e) (hf : f ∈ s.bookkeeping cfg) : Off e f := by
  rcases mem_append.mp hf with hf | hf
  · obtain ⟨r, hr, hw⟩ := h.serves_region he
    exact ((apart_append.mp h.mapped.apart).2.2 f hf r hr).symm.within hw
  rcases he.room with ⟨d, hd, -, hw⟩ | ⟨x, b, -, hn⟩
  · rcases mem_append.mp hf with hf | hf
    · exact h.chunk_off ⟨d, hd, hw⟩ hf
    · exact h.off_of_regions (h.chunk_region ⟨d, hd, hw⟩) (h.bandBook_region hf)
  rcases mem_append.mp hf with hf | hf
  · exact (h.off_of_regions (h.listBook_region hf) (h.node_region hn)).symm
  · exact h.node_off hn hf

theorem Sound.serves_apart (he : s.Serves cfg e) (hf : s.Serves cfg f)
    (hne : e.1 ≠ f.1) : Off e f := by
  rcases he.room with ⟨d, hd, hde, hw⟩ | ⟨x, b, hxe, hn⟩ <;>
    rcases hf.room with ⟨g, hg, hgf, hw'⟩ | ⟨y, c, hyf, hn'⟩
  · have hap := (apart_append.mp h.lists.laid.apart).2.1
    have hoff : Off d g := Pairwise.forall hap hd hg fun hc => hne (by rw [hde, hgf, hc])
    unfold Within Off at *
    omega
  · exact h.off_of_regions (h.chunk_region ⟨d, hd, hw⟩) (h.node_region hn')
  · exact (h.off_of_regions (h.chunk_region ⟨g, hg, hw'⟩) (h.node_region hn)).symm
  · have hoff := h.nodes_apart hn.block hn'.block (h.small.node_mem hn.block hn.out)
      (h.small.node_mem hn'.block hn'.out) (.inr fun hc => hne (by rw [hxe, hyf, hc]))
    have hw := hn.within
    have hw' := hn'.within
    unfold Within Off esize at *
    omega

end

end AllocSt

/-! ### Runs -/

/-- The allocator and the blocks in use, each with the number of bytes asked for. -/
structure HeapSt where
  heap : AllocSt
  live : List Extent
  deriving DecidableEq, Repr

inductive Call where
  | malloc (n : Nat)
  | calloc (n size : Nat)
  | memalign (al n : Nat)
  | realloc (p n : Nat)
  | free (p : Nat)
  deriving DecidableEq, Repr

def grant (live : List Extent) (n : Nat) : Option Nat → List Extent
  | some p => (p, n) :: live
  | none => live

def retire (live : List Extent) (p : Nat) : List Extent := live.filter fun e => e.1 ≠ p

namespace HeapSt

def answer (live : List Extent) (n : Nat) : Except Fault (Option Nat × AllocSt) → Option HeapSt
  | .ok (o, h) => some ⟨h, grant live n o⟩
  | .error _ => none

/-- A call, with the hole its `mmap` may use. -/
def step (cfg : Config) (monotonic : Bool) (s : HeapSt) (o : Call × Option Extent) :
    Option HeapSt :=
  let h : AllocSt := { s.heap with core := { s.heap.core with hole := o.2 } }
  match o.1 with
  | .malloc n => answer s.live n (h.malloc cfg n)
  | .calloc n size => answer s.live (n * size) (h.calloc cfg n size)
  | .memalign al n => answer s.live n (h.memalign cfg al n)
  | .realloc p n =>
    match h.realloc cfg monotonic p n with
    | .ok (some q, h) => some ⟨h, (q, n) :: retire s.live p⟩
    | .ok (none, h) => some ⟨h, if n = 0 then retire s.live p else s.live⟩
    | .error _ => none
  | .free p =>
    if p = 0 then some s
    else match h.free cfg p with
      | .ok h => some ⟨h, retire s.live p⟩
      | .error _ => none

/-- Pointers are null or of a block in use, and a mapping is none of the allocator's regions. -/
def Served (s : HeapSt) (o : Call × Option Extent) : Prop :=
  Fresh s.heap.core (s.heap.lists.arenas ++ s.heap.small.arenas) o.2 ∧
  match o.1 with
  | .calloc n size => n < word ∧ size < word
  | .realloc p _ => p = 0 ∨ p ∈ s.live.map fst
  | .free p => p = 0 ∨ p ∈ s.live.map fst
  | _ => True

def Clean (cfg : Config) (s : HeapSt) (o : Call × Option Extent) : Prop :=
  s.Served o ∧
  match o.1 with
  | .calloc n size => n * size < word
  | .memalign al n => s.heap.AlignOk cfg al n
  | .realloc p n => p = 0 ∨ s.heap.GrowOk cfg p n
  | _ => True

def Start (s : HeapSt) : Prop :=
  s = ⟨⟨⟨[], none⟩, ⟨[], replicate 9 [], []⟩, ⟨[], [], [], [], []⟩⟩, []⟩

/-- The bytes in use are mapped, used once, and hold nothing of the allocator. -/
structure Usable (cfg : Config) (s : HeapSt) : Prop where
  mapped : ∀ e ∈ s.live, ∃ r ∈ s.heap.lists.arenas ++ s.heap.small.arenas, Within e r
  apart : Apart s.live
  own : ∀ e ∈ s.live, ∀ f ∈ s.heap.bookkeeping cfg, Off e f

structure Sound (cfg : Config) (s : HeapSt) : Prop where
  heap : s.heap.Sound cfg
  serves : ∀ e ∈ s.live, s.heap.Serves cfg e
  nodup : (s.live.map fst).Nodup

variable {cfg : Config} {monotonic : Bool} {s s' : HeapSt} {o : Call × Option Extent}

theorem Sound.usable (h : s.Sound cfg) : s.Usable cfg where
  mapped e he := h.heap.serves_region (h.serves e he)
  apart := by
    refine pairwise_iff_forall_sublist.mpr fun {e f} hs => ?_
    have hne : e.1 ≠ f.1 := by
      have := h.nodup.sublist (hs.map fst)
      simpa using this
    exact h.heap.serves_apart (h.serves e (hs.subset (by simp))) (h.serves f (hs.subset (by simp)))
      hne
  own e he f hf := h.heap.off_bookkeeping (h.serves e he) hf

theorem Start.sound (h : s.Start) : s.Sound cfg := by
  obtain rfl := h
  refine ⟨⟨smallOk_nil cfg, ⟨rfl, ⟨?_, ?_, ?_⟩⟩, ?_⟩, nofun, nodup_nil⟩
  · exact Pairwise.nil
  · simp
  · simp
  · exact ⟨Pairwise.nil, nofun, nofun⟩

section

variable (h : s.Sound cfg)
include h

theorem Sound.withHole {hole : Option Extent}
    (hf : Fresh s.heap.core (s.heap.lists.arenas ++ s.heap.small.arenas) hole) :
    ({ s with heap := { s.heap with core := { s.heap.core with hole := hole } } } :
      HeapSt).Sound cfg :=
  ⟨⟨h.heap.small, h.heap.lists, h.heap.mapped.withHole hf⟩, h.serves, h.nodup⟩

theorem Sound.header {p : Nat} (hp : p ∈ s.live.map fst) : ∃ x ∈ s.heap.headers, p = x + 4 := by
  obtain ⟨e, he, rfl⟩ := mem_map.mp hp
  exact (h.serves e he).header

theorem Sound.fresh {x : Nat} (hx : x ∉ s.heap.headers) : x + 4 ∉ s.live.map fst := by
  intro hc
  obtain ⟨y, hy, he⟩ := h.header hc
  exact hx (Nat.add_right_cancel he ▸ hy)

theorem Sound.answer {n : Nat} {r : Except Fault (Option Nat × AllocSt)}
    (ha : ∃ o h', r = .ok (o, h') ∧ AllocSt.Alloced cfg s.heap n o h') :
    ∃ s', HeapSt.answer s.live n r = some s' ∧ s'.Sound cfg := by
  obtain ⟨o, h', rfl, ha⟩ := ha
  refine ⟨_, rfl, ?_⟩
  cases o with
  | none => exact ⟨ha.sound, fun e he => ha.kept e (h.serves e he), h.nodup⟩
  | some p =>
    obtain ⟨hp, x, hx, rfl⟩ := ha.some p rfl
    refine ⟨ha.sound, ?_, ?_⟩
    · exact forall_mem_cons.mpr ⟨hp, fun e he => ha.kept e (h.serves e he)⟩
    · exact nodup_cons.mpr ⟨h.fresh hx, h.nodup⟩

theorem Sound.realloced {p n : Nat} {q : Option Nat} {h' : AllocSt}
    (ha : AllocSt.Realloced cfg s.heap p n q h') :
    (match q with
      | some q => (⟨h', (q, n) :: retire s.live p⟩ : HeapSt)
      | none => ⟨h', if n = 0 then retire s.live p else s.live⟩).Sound cfg := by
  have hkept : ∀ e ∈ retire s.live p, h'.Serves cfg e := fun e he =>
    ha.kept e (h.serves e (mem_of_mem_filter he)) (of_decide_eq_true (mem_filter.mp he).2)
  have hnd : ((retire s.live p).map fst).Nodup := h.nodup.sublist (filter_sublist.map fst)
  cases q with
  | none =>
    dsimp only
    split
    · exact ⟨ha.sound, hkept, hnd⟩
    · exact ⟨ha.sound, fun e he => ha.none rfl (by omega) e (h.serves e he), h.nodup⟩
  | some q =>
    obtain ⟨hq, hor⟩ := ha.some q rfl
    refine ⟨ha.sound, ?_, nodup_cons.mpr ⟨fun hc => ?_, hnd⟩⟩
    · exact forall_mem_cons.mpr ⟨hq, hkept⟩
    · obtain ⟨e, he, hqe⟩ := mem_map.mp hc
      obtain ⟨hel, hep⟩ := mem_filter.mp he
      dsimp only at hqe
      rcases hor with rfl | ⟨x, hx, rfl⟩
      · exact of_decide_eq_true hep hqe
      · exact h.fresh hx (hqe ▸ mem_map_of_mem hel)

end

theorem Sound.alloced_as_realloced {n : Nat} {q : Option Nat} {h' : AllocSt}
    (ha : AllocSt.Alloced cfg s.heap n q h') : AllocSt.Realloced cfg s.heap 0 n q h' where
  sound := ha.sound
  kept e he _ := ha.kept e he
  none _ _ := ha.kept
  some p hp := ⟨(ha.some p hp).1, .inr (ha.some p hp).2⟩

theorem Sound.step (h : s.Sound cfg) (hok : s.Clean cfg o) :
    ∃ s', s.step cfg monotonic o = some s' ∧ s'.Sound cfg := by
  obtain ⟨call, hole⟩ := o
  obtain ⟨⟨hfresh, hserved⟩, hclean⟩ := hok
  have h1 := h.withHole hfresh
  cases call with
  | malloc n => exact h1.answer (AllocSt.malloc_ok h1.heap n)
  | calloc n size =>
    refine h1.answer (n := n * size) ?_
    unfold AllocSt.calloc
    rw [Nat.mod_eq_of_lt hclean]
    exact AllocSt.malloc_ok h1.heap _
  | memalign al n => exact h1.answer (AllocSt.memalign_ok h1.heap hclean)
  | realloc p n =>
    obtain ⟨q, h', hr, ha⟩ : ∃ q h', AllocSt.realloc cfg monotonic
        { s.heap with core := { s.heap.core with hole := hole } } p n = .ok (q, h') ∧
        AllocSt.Realloced cfg { s.heap with core := { s.heap.core with hole := hole } } p n q h' := by
      by_cases hp : p = 0
      · subst hp
        obtain ⟨q, h', hr, ha⟩ := AllocSt.malloc_ok h1.heap n
        exact ⟨q, h', hr, Sound.alloced_as_realloced (s := ⟨_, s.live⟩) ha⟩
      · obtain ⟨x, hx, rfl⟩ := h1.header (hserved.resolve_left hp)
        exact AllocSt.realloc_ok h1.heap hx (hclean.resolve_left hp)
    simp only [HeapSt.step, hr]
    cases q <;> exact ⟨_, rfl, h1.realloced ha⟩
  | free p =>
    simp only [HeapSt.step]
    split
    · exact ⟨_, rfl, h⟩
    rename_i hp
    obtain ⟨x, hx, rfl⟩ := h1.header (hserved.resolve_left hp)
    obtain ⟨h', hf, hfree⟩ := AllocSt.free_ok h1.heap hx
    rw [hf]
    refine ⟨_, rfl, hfree.sound, fun e he => ?_, h.nodup.sublist (filter_sublist.map fst)⟩
    exact hfree.kept e (h1.serves e (mem_of_mem_filter he)) (of_decide_eq_true (mem_filter.mp he).2)

end HeapSt

/-- In a run of clean calls every block has the bytes asked for, and every further clean call
returns. -/
theorem blocks_usable {cfg : Config} {monotonic : Bool} {s : HeapSt}
    (h : Reach HeapSt.Start (HeapSt.Clean cfg) (HeapSt.step cfg monotonic) s) :
    s.Usable cfg ∧ ∀ o, s.Clean cfg o → ∃ s', s.step cfg monotonic o = some s' := by
  have hs : s.Sound cfg := h.invariant_of_total (fun _ hs => hs.sound) fun _ _ hs hok => hs.step hok
  exact ⟨hs.usable, fun o ho => (hs.step ho).imp fun _ => And.left⟩

namespace HeapSt

instance (s : HeapSt) (o : Call × Option Extent) : Decidable (s.Served o) :=
  match o with
  | (.malloc _, _) => inferInstanceAs (Decidable (_ ∧ True))
  | (.calloc _ _, _) => inferInstanceAs (Decidable (_ ∧ _ ∧ _))
  | (.memalign _ _, _) => inferInstanceAs (Decidable (_ ∧ True))
  | (.realloc _ _, _) => inferInstanceAs (Decidable (_ ∧ (_ ∨ _)))
  | (.free _, _) => inferInstanceAs (Decidable (_ ∧ (_ ∨ _)))

instance (cfg : Config) (s : AllocSt) (al n : Nat) : Decidable (s.AlignOk cfg al n) :=
  inferInstanceAs (Decidable (_ ∨ _))

instance (cfg : Config) (s : AllocSt) (p n : Nat) : Decidable (s.GrowOk cfg p n) :=
  inferInstanceAs (Decidable (∀ _ ∈ _, _))

instance (cfg : Config) (s : HeapSt) (o : Call × Option Extent) : Decidable (s.Clean cfg o) :=
  match o with
  | (.malloc _, _) => inferInstanceAs (Decidable (s.Served _ ∧ True))
  | (.calloc n size, _) => inferInstanceAs (Decidable (s.Served _ ∧ n * size < word))
  | (.memalign al n, _) => inferInstanceAs (Decidable (s.Served _ ∧ s.heap.AlignOk cfg al n))
  | (.realloc p n, _) => inferInstanceAs (Decidable (s.Served _ ∧ (p = 0 ∨ s.heap.GrowOk cfg p n)))
  | (.free _, _) => inferInstanceAs (Decidable (s.Served _ ∧ True))

def empty : HeapSt :=
  ⟨⟨⟨[], none⟩, ⟨[], replicate 9 [], []⟩, ⟨[], [], [], [], []⟩⟩, []⟩

end HeapSt

theorem blocks_usable_run : ∃ s, Reach HeapSt.Start (HeapSt.Clean Config.standard)
    (HeapSt.step Config.standard false) s ∧ s.live.length = 3 ∧ s.Usable Config.standard := by
  refine exists_reach (s := HeapSt.empty) rfl
    [(.malloc 20, some (4096, 65536)), (.calloc 3 10, none), (.memalign 64 100, some (131072, 65536)),
      (.realloc 8264 2000, none), (.malloc 7, none), (.free 4160, none)]
    (by decide +kernel) fun s hr (hq : s.live.length = 3) => ?_
  exact ⟨hq, (blocks_usable hr).1⟩

/-- `calloc` of `2 ^ 16` elements of `2 ^ 16` bytes. -/
theorem calloc_wraps : ∃ s, Reach HeapSt.Start HeapSt.Served
    (HeapSt.step Config.standard false) s ∧ ¬s.Usable Config.standard := by
  refine exists_reach (s := HeapSt.empty) rfl [(.calloc 65536 65536, some (4096, 65536))]
    (by decide +kernel) fun s hr
      (hq : s.live = [(4176, 2 ^ 32)] ∧ s.heap.small.arenas = [(4096, 32768)] ∧
      s.heap.lists.arenas = []) => ?_
  obtain ⟨hl, hs, ha⟩ := hq
  intro h
  obtain ⟨r, hr, hw⟩ := h.mapped (4176, 2 ^ 32) (by rw [hl]; exact mem_cons_self)
  rw [hs, ha] at hr
  obtain rfl := mem_singleton.mp hr
  exact absurd hw (by decide)

end Qnx.Alloc
