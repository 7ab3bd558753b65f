import Qnx.Shared.Run
import Qnx.Alloc.BandOps

/-!
# Runs of the band allocator

Nodes are taken with any alignment and given back in any order. A mapping the system makes is none
of the regions the allocator has.
-/

namespace Qnx.Alloc

open Extents List
open Run

def Fresh (c : Core) (X : List Extent) (hole : Option Extent) : Prop :=
  ∀ h ∈ hole, psiz ∣ h.1 ∧ 0 < h.1 ∧ h.1 + h.2 ≤ word ∧ h.2 < 2 ^ 31 ∧ ∀ e ∈ c.cache ++ X, Off h e

instance (c : Core) (X : List Extent) (hole : Option Extent) : Decidable (Fresh c X hole) :=
  inferInstanceAs (Decidable (∀ _ ∈ _, _))

theorem Mapped.withHole {c : Core} {X : List Extent} {hole : Option Extent} (h : Mapped c X)
    (hf : Fresh c X hole) : Mapped { c with hole := hole } X where
  apart := h.apart
  region := h.region
  hole := hf

instance (al : Nat) (m : Small) (i : Nat) : Decidable (Direct al m i) :=
  decidable_of_iff (∀ r ∈ (bandFind al (m.alist.filter fun b => b.band = i)).toOption.join,
      (m.alist.filter fun b => b.band = i).head? = some r.1) (by
    unfold Direct
    cases bandFind al (m.alist.filter fun b => b.band = i) <;> simp [Except.toOption])

structure BandSt where
  core : Core
  small : Small
  deriving DecidableEq, Repr

/-- `_band_get_aligned` with its check of the alignment, which `select_band` has made before. -/
def bandGetChecked (cfg : Config) (i nbpe al fuel : Nat) (c : Core) (m : Small) :
    Except Fault (Option Nat × Core × Small) :=
  if al ≠ 8 ∧ (cfg.nalloc nbpe < al / esize nbpe ∨ al / esize nbpe * esize nbpe ≠ al) then
    .ok (none, c, m)
  else bandGetAligned cfg i nbpe al fuel c m

/-- `_band_get_aligned` of band `i`, which may add `fuel` blocks and map memory at `hole`, and
`_band_rlse`. -/
inductive BandOp where
  | get (i al fuel : Nat) (hole : Option Extent)
  | rlse (x : Nat)
  deriving DecidableEq, Repr

def BandSt.step (cfg : Config) (s : BandSt) : BandOp → Option BandSt
  | .get i al fuel hole =>
    match bandGetChecked cfg i (cfg.bands.getD i 0) al fuel { s.core with hole := hole } s.small with
    | .ok (_, c, m) => some ⟨c, m⟩
    | .error _ => none
  | .rlse x =>
    match s.small.nodes.find? fun y => y.1 = x with
    | none => none
    | some (x, b) =>
      match bandRlse cfg s.core s.small x b with
      | .ok (c, m) => some ⟨c, m⟩
      | .error _ => none

def BandSt.Served (cfg : Config) (s : BandSt) : BandOp → Prop
  | .get i al _ hole => i < cfg.bands.length ∧ 8 ≤ al ∧ Fresh s.core s.small.arenas hole
  | .rlse x => x ∈ s.small.nodes.map Prod.fst

def BandSt.Clean (cfg : Config) (s : BandSt) (o : BandOp) : Prop :=
  s.Served cfg o ∧ ∀ i al fuel hole, o = .get i al fuel hole → Direct al s.small i

def BandSt.Start (s : BandSt) : Prop := s.core = ⟨[], none⟩ ∧ s.small = ⟨[], [], [], [], []⟩

instance (cfg : Config) (s : BandSt) (o : BandOp) : Decidable (s.Served cfg o) :=
  match o with
  | .get _ _ _ _ => inferInstanceAs (Decidable (_ ∧ _))
  | .rlse _ => inferInstanceAs (Decidable (_ ∈ _))

/-- Every block counts its own free nodes and is on the list it belongs on, and a node that is out
leads back to the block it lies in. -/
structure BandOk (cfg : Config) (m : Small) : Prop where
  count : ∀ b ∈ m.alist ++ m.dlist, b.navail = b.head.length
  alist : ∀ b ∈ m.alist, 0 < b.navail
  dlist : ∀ b ∈ m.dlist, b.navail = 0
  leads : ∀ x ∈ m.nodes, ∃ b ∈ m.alist ++ m.dlist, b.addr = x.2 ∧
    x.1 ∈ nodesOf cfg (nbpeOf cfg b) b.addr

variable {cfg : Config} {s s' : BandSt}

theorem SmallOk.bandOk {m : Small} (h : SmallOk cfg [] m) : BandOk cfg m where
  count b hb := by
    rcases mem_append.mp hb with hb | hb
    · exact (h.alist b hb).2
    · rw [(h.dlist b hb).1, (h.dlist b hb).2]
      rfl
  alist b hb := by
    obtain ⟨h1, h2⟩ := h.alist b hb
    rw [h2]
    exact length_pos_iff.mpr h1
  dlist b hb := (h.dlist b hb).2
  leads x hx := by
    obtain ⟨b, hb, hbx⟩ := h.place.owner x hx
    refine ⟨b, hb, hbx, h.node_mem hb ?_⟩
    rw [hbx]
    exact hx

theorem smallOk_nil (cfg : Config) : SmallOk cfg [] ⟨[], [], [], [], []⟩ where
  place := by constructor <;> simp [slots, Apart]
  alist := nofun
  dlist := nofun
  head := nofun
  dhead := nofun

structure BandSt.Sound (cfg : Config) (s : BandSt) : Prop where
  small : SmallOk cfg [] s.small
  mapped : Mapped s.core (s.small.arenas ++ [])

theorem BandSt.Start.sound (h : s.Start) : s.Sound cfg := by
  obtain ⟨c, m⟩ := s
  obtain ⟨rfl, rfl⟩ := h
  exact ⟨smallOk_nil cfg, ⟨Pairwise.nil, nofun, nofun⟩⟩

theorem getD_band {i : Nat} (hi : i < cfg.bands.length) :
    cfg.bands[i]? = some (cfg.bands.getD i 0) := by
  rw [getD_eq_getElem?_getD, List.getElem?_eq_getElem hi, Option.getD_some]

theorem BandSt.Sound.step {o : BandOp} (h : s.Sound cfg) (hok : s.Clean cfg o)
    (hs : s.step cfg o = some s') : s'.Sound cfg := by
  obtain ⟨hserved, hdirect⟩ := hok
  cases o with
  | get i al fuel hole =>
    obtain ⟨hi, -, hfresh⟩ := hserved
    rw [← append_nil s.small.arenas] at hfresh
    simp only [BandSt.step] at hs
    split at hs
    · rename_i o c m hr
      cases hs
      have hc := h.mapped.withHole hfresh
      unfold bandGetChecked at hr
      split at hr
      · cases hr
        exact ⟨h.small, hc⟩
      obtain ⟨hg, hc⟩ := bandGetAligned_ok h.small hc (getD_band hi)
        (hdirect i al fuel hole rfl) hr
      exact ⟨hg.ok, hc⟩
    · cases hs
  | rlse x =>
    simp only [BandSt.step] at hs
    split at hs
    · cases hs
    rename_i x b hf
    obtain ⟨c, m, hr, hrel, hc⟩ := bandRlse_ok h.small h.mapped (mem_of_find?_eq_some hf)
    rw [hr] at hs
    cases hs
    exact ⟨hrel.ok, hc⟩

/-- As long as an aligned node is only taken from the first block of its band, blocks and nodes
agree. -/
theorem bands_consistent (h : Reach BandSt.Start (BandSt.Clean cfg) (BandSt.step cfg) s) :
    BandOk cfg s.small := by
  have hs : s.Sound cfg :=
    h.invariant (fun _ hs => hs.sound) fun _ _ _ hs hok hstep => hs.step hok hstep
  exact hs.small.bandOk

def noBands : BandSt := ⟨⟨[], none⟩, ⟨[], [], [], [], []⟩⟩

def twoBlocks : List BandOp :=
  [.get 1 8 1 (some (4096, 65536)), .get 1 2048 1 none, .get 1 2048 1 none, .rlse 6140]

instance (cfg : Config) (s : BandSt) (o : BandOp) : Decidable (s.Clean cfg o) :=
  match o with
  | .get i al fuel hole => decidable_of_iff (s.Served cfg (.get i al fuel hole) ∧ Direct al s.small i)
      ⟨fun h => ⟨h.1, fun _ _ _ _ he => by cases he; exact h.2⟩, fun h => ⟨h.1, h.2 _ _ _ _ rfl⟩⟩
  | .rlse x => decidable_of_iff (s.Served cfg (.rlse x)) ⟨fun h => ⟨h, nofun⟩, fun h => h.1⟩

theorem bands_consistent_twoBlocks : ∃ s, Reach BandSt.Start (BandSt.Clean Config.standard)
    (BandSt.step Config.standard) s ∧ s.small.alist.length = 2 ∧ BandOk Config.standard s.small := by
  refine exists_reach (s := noBands) ⟨rfl, rfl⟩ twoBlocks
    (by decide +kernel) fun s hr (hq : s.small.alist.length = 2) => ?_
  exact ⟨hq, bands_consistent hr⟩

/-- The node is taken again, from the second block of the list, and counted against the first. -/
theorem bands_miscounted : ∃ s, Reach BandSt.Start (BandSt.Served Config.standard)
    (BandSt.step Config.standard) s ∧ ¬BandOk Config.standard s.small := by
  refine exists_reach (s := noBands) ⟨rfl, rfl⟩ (twoBlocks ++ [.get 1 2048 1 none])
    (by decide +kernel) fun s hr (hq : s.small.alist.any fun b => b.navail ≠ b.head.length) => ?_
  intro h
  obtain ⟨b, hb, hne⟩ := any_eq_true.mp hq
  exact of_decide_eq_true hne (h.count b (mem_append_left _ hb))

end Qnx.Alloc
