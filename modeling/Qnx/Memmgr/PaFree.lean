import Qnx.Memmgr.PaCarve

/-!
# Freeing part of a run in use

`_pa_free` first makes the freed quanta a free run, or part of the free run before them, and
leaves what follows for a second step: `Gap` is the block between the two.
-/

namespace Qnx.Memmgr

open Tiling List Option
open Block (tiles_congr mark_of_ne mark_seg inuse_clearFlags)

/-- The runs in use from quantum `p` on, each with its first quantum. -/
def usedRuns : Nat → Runs → List (Nat × Nat)
  | _, [] => []
  | p, (n, free) :: rs => (if free then [] else [(p, n)]) ++ usedRuns (p + n) rs

theorem usedRuns_append (p : Nat) (l m : Runs) :
    usedRuns p (l ++ m) = usedRuns p l ++ usedRuns (p + span l) m := by
  induction l generalizing p with
  | nil => rfl
  | cons t l ih =>
    rw [cons_append, usedRuns, usedRuns, ih, append_assoc, span_cons, Nat.add_assoc]

theorem usedRuns_freeRun (p n : Nat) : usedRuns p (freeRun n) = [] := by
  unfold freeRun
  split <;> rfl

theorem usedRuns_carved (p a n c : Nat) : usedRuns p (carved a n c) = [(p + a, n)] := by
  rw [carved, usedRuns_append, usedRuns_freeRun, span_freeRun, usedRuns, usedRuns_freeRun]
  rfl

/-- What is left in use before or behind the quanta freed: `n` quanta from `p` on. -/
def piece (p n : Nat) : List (Nat × Nat) := if n = 0 then [] else [(p, n)]

/-- The runs `A`, a free run of `r` quanta, `c` quanta without a head, and the runs `R`. -/
structure Gap (b : Block) (A : Runs) (r c : Nat) (R : Runs) : Prop where
  total : span A + r + c + span R = b.numQuanta
  before : Tiles b.Tile 0 A
  apart : Apart (A ++ [(r, true)])
  free : b.Tile (span A) r true
  rest : ∀ i, span A + r < i → i < span A + r + c - 1 → b.run i = 0
  after : Tiles b.Tile (span A + r + c) R
  apart' : Apart R
  outside : ∀ i, b.numQuanta ≤ i → b.run i = 0 ∧ b.inuse i = false

namespace Rep

variable {b b' : Block} {L R : Runs} {F : List Nat} {p a n c m : Nat}

theorem around (h : Rep b (L ++ (n, false) :: R) F) (hp : span L = p) :
    p + n + span R = b.numQuanta ∧ Tiles b.Tile 0 L ∧ Tiles b.Tile (p + n) R := by
  have hs := h.span
  obtain ⟨h1, h2⟩ := tiles_append.mp h.tiles
  rw [Nat.zero_add, hp] at h2
  simp only [span_append, span_cons] at hs
  exact ⟨by omega, h1, h2.2⟩

theorem inuse_freed {b1 : Block} (hf : b1.flags = (b.clearFlags p n).flags) (hn : 0 < n) (i : Nat) :
    (b1.makeFree p n false).inuse i = (!decide (p ≤ i ∧ i < p + n) && b.inuse i) := by
  have h1 : b1.inuse i = (!decide (p ≤ i ∧ i < p + n) && b.inuse i) := by
    rw [← inuse_clearFlags, Block.inuse, hf]
    rfl
  have h2 := Block.inuse_and (m := preserveBits) (by decide) (b1.mark p n) p i
  have h3 : (b1.mark p n).inuse i = b1.inuse i := rfl
  rw [h3, h1] at h2
  refine h2.trans ?_
  by_cases hi : i = p
  · have : p ≤ i ∧ i < p + n := by omega
    simp [this]
  · simp [hi]

structure Started (b : Block) (L R : Runs) (F : List Nat) (p a n c : Nat) (b₁ : Block)
    (left : Bool) (A : Runs) (r : Nat) : Prop where
  eq : (b.clearFlags (p + a) n).freeStart (p + a) n =
    some (b₁, span A, ((p + (a + n + c) : Nat) : Int), left)
  gap : Gap (b₁.makeFree (p + a) n left) A r c R
  ends : span A + r = p + a + n
  links : b₁.links = b.links
  freeOwner : b₁.freeOwner = b.freeOwner
  place : left = false → span A = p + a
  heads : F.Perm (Tiling.heads id 0 A ++ ((if left then [span A] else []) ++
    Tiling.heads id (p + (a + n + c)) R))
  used : usedRuns 0 A = usedRuns 0 L ++ piece p a

section

variable (h : Rep b (L ++ (a + n + c, false) :: R) F)
include h

theorem gap_of (hp : span L = p) {A : Runs}
    {r : Nat} (hnum : b'.numQuanta = b.numQuanta) (hr : span A + r = p + a + n)
    (hA : Tiles b'.Tile 0 A) (hap : Apart (A ++ [(r, true)]))
    (hfree : b'.Tile (span A) r true)
    (hout : ∀ i, p + a + n ≤ i → b'.run i = b.run i ∧ b'.inuse i = b.inuse i) :
    Gap b' A r c R := by
  have hseg := hp ▸ h.tile.1
  obtain ⟨htot, -, hR⟩ := h.around hp
  have hapR : Apart R := (apart_cons.mp (apart_append.mp h.apart).2.1).2
  refine ⟨by omega, hA, hap, hfree, ?_, ?_, hapR, ?_⟩
  · intro i h1 h2
    rw [(hout i (by omega)).1]
    exact hseg.inner i (by omega) (by omega)
  · have he : span A + r + c = p + (a + n + c) := by omega
    rw [he]
    exact tiles_congr hR fun i hi _ => hout i (by omega)
  · intro i hi
    rw [hnum] at hi
    rw [(hout i (by omega)).1, (hout i (by omega)).2]
    exact h.outside i hi

theorem gap_middle (hp : span L = p) (ha : 0 < a) (hn : 0 < n) :
    Gap (((b.clearFlags (p + a) n).mark p a).makeFree (p + a) n false) (L ++ [(a, false)]) n c
      R := by
  obtain ⟨hseg, hu⟩ := h.tile
  rw [hp] at hseg hu
  obtain ⟨-, hL, -⟩ := h.around hp
  obtain ⟨b1, hb1⟩ : ∃ b1, b1 = ((b.clearFlags (p + a) n).mark p a).makeFree (p + a) n false :=
    ⟨_, rfl⟩
  rw [← hb1]
  have hrun : b1.run = (((b.clearFlags (p + a) n).mark p a).mark (p + a) n).run := hb1 ▸ rfl
  have hin : ∀ i, b1.inuse i = (!decide (p + a ≤ i ∧ i < p + a + n) && b.inuse i) :=
    hb1 ▸ inuse_freed rfl hn
  have hsp : span (L ++ [(a, false)]) = p + a := by simp [hp]
  have hfst := mark_seg ha fun i h1 h2 => hseg.inner i h1 (by omega)
  have hsnd : Seg b1.run (p + a) n := by
    rw [hrun]
    refine mark_seg hn fun i h1 h2 => ?_
    rw [mark_of_ne (by omega)]
    exact hseg.inner i (by omega) (by omega)
  have hsame : ∀ i, i < p ∨ p + a + n ≤ i → b1.run i = b.run i ∧ b1.inuse i = b.inuse i := by
    intro i hi
    rw [hrun, hin, mark_of_ne (by omega), mark_of_ne (by omega), decide_eq_false (by omega)]
    exact ⟨rfl, rfl⟩
  have hap := apart_append.mp h.apart
  refine h.gap_of hp (hb1 ▸ rfl) (by rw [hsp]) ?_ ?_ ?_ fun i hi => hsame i (.inr hi)
  · refine tiles_append.mpr ⟨tiles_congr hL fun i _ hi => hsame i (.inl (by omega)), ?_, trivial⟩
    rw [Nat.zero_add, hp]
    refine ⟨hrun ▸ hfst.congr fun i h1 h2 => mark_of_ne (by omega), ?_⟩
    rw [hin, decide_eq_false (by omega)]
    exact hu
  · rw [append_assoc, apart_append]
    refine ⟨hap.1, by simp [Apart], fun x hx y hy _ => ?_⟩
    cases hy
    rfl
  · rw [hsp]
    refine ⟨hsnd, ?_⟩
    intro i h1 h2
    rw [hin, decide_eq_true ⟨h1, h2⟩]
    rfl

theorem started_middle (hp : span L = p) (ha : 0 < a) (hn : 0 < n) : Started b L R F p a n c
      ((b.clearFlags (p + a) n).mark p a) false (L ++ [(a, false)]) n := by
  have hseg : Seg (b.clearFlags (p + a) n).run p (a + n + c) := hp ▸ h.tile.1
  have hrun : (b.clearFlags (p + a) n).run (p + a) ≤ 0 := by
    rcases Block.run_cases hseg (i := p + a) (by omega) with h1 | h1 | h1 <;> omega
  have hsp : span (L ++ [(a, false)]) = p + a := by simp [hp]
  have hsub : ((p + a : Nat) : Int) - p = a := by omega
  have hheads := h.heads
  rw [heads_append, hp] at hheads
  refine ⟨?_, h.gap_middle hp ha hn, by rw [hsp], rfl, rfl, fun _ => hsp, ?_, ?_⟩
  · rw [Block.freeStart, if_neg (by omega),
      Block.paGetrunhead_seg hseg (i := p + a) (by omega), map_some, hseg.head,
      hsub, hsp, Int.natCast_add p]
  · rw [heads_append]
    simpa [Tiling.heads] using hheads
  · rw [usedRuns_append, Nat.zero_add, hp, piece, if_neg (by omega)]
    rfl

end

theorem gap_head (h : Rep b (L ++ (0 + n + c, false) :: R) F) (hp : span L = p)
    (hn : 0 < n) (hL : ∀ x ∈ L.getLast?, x.2 = false) :
    Gap ((b.clearFlags p n).makeFree p n false) L n c R := by
  have hseg := hp ▸ h.tile.1
  obtain ⟨-, htL, -⟩ := h.around hp
  obtain ⟨b1, hb1⟩ : ∃ b1, b1 = (b.clearFlags p n).makeFree p n false := ⟨_, rfl⟩
  rw [← hb1]
  have hrun : b1.run = ((b.clearFlags p n).mark p n).run := hb1 ▸ rfl
  have hin : ∀ i, b1.inuse i = (!decide (p ≤ i ∧ i < p + n) && b.inuse i) :=
    hb1 ▸ inuse_freed rfl hn
  have hsame : ∀ i, i < p ∨ p + n ≤ i → b1.run i = b.run i ∧ b1.inuse i = b.inuse i := by
    intro i hi
    rw [hrun, hin, mark_of_ne (by omega), decide_eq_false (by omega)]
    exact ⟨rfl, rfl⟩
  refine h.gap_of hp (hb1 ▸ rfl) (by omega) ?_ ?_ ?_ fun i hi => hsame i (.inr (by omega))
  · exact tiles_congr htL fun i _ hi => hsame i (.inl (by omega))
  · exact apart_free_iff.mpr ⟨(apart_append.mp h.apart).1, by simp [Apart], hL, by simp⟩
  · rw [hp]
    constructor
    · rw [hrun]
      exact mark_seg hn fun i h1 h2 => hseg.inner i h1 (by omega)
    · intro i h1 h2
      rw [hin, decide_eq_true ⟨h1, h2⟩]
      rfl

section

variable (h : Rep b (L ++ (m, true) :: (0 + n + c, false) :: R) F)
include h

theorem gap_left (hp : span L = p) (hn : 0 < n) :
    Gap ((((b.clearFlags (p + m) n).setTail p 0).setRun (p + m) 0).mark p (m + n : Nat)) L (m + n) c
      R := by
  obtain ⟨hprev, hfree⟩ := h.tile
  rw [hp] at hprev hfree
  have h' : Rep b ((L ++ [(m, true)]) ++ (0 + n + c, false) :: R) F := by simpa using h
  have hp' : span (L ++ [(m, true)]) = p + m := by simp [hp]
  have hseg := hp' ▸ h'.tile.1
  obtain ⟨-, htL, -⟩ := h'.around hp'
  obtain ⟨b0, hb0⟩ : ∃ b0, b0 = ((b.clearFlags (p + m) n).setTail p 0).setRun (p + m) 0 := ⟨_, rfl⟩
  rw [← hb0]
  have hrun0 : ∀ i, b0.run i =
      if i = p + m ∨ (1 < m ∧ i = p + m - 1) then 0 else b.run i := by
    intro i
    have hh : (b.clearFlags (p + m) n).run p = m := hprev.head
    rw [hb0, Block.setRun_run, Block.setTail_run, hh]
    show (if i = p + m then 0 else if 1 < (m : Int) ∧ i = p + m - 1 then 0 else b.run i) = _
    omega
  have hin : ∀ i, (b0.mark p (m + n : Nat)).inuse i =
      (!decide (p + m ≤ i ∧ i < p + m + n) && b.inuse i) := by
    intro i
    rw [← inuse_clearFlags, hb0]
    rfl
  have hsame : ∀ i, i < p ∨ p + m + n ≤ i → (b0.mark p (m + n : Nat)).run i = b.run i ∧
        (b0.mark p (m + n : Nat)).inuse i = b.inuse i := by
    intro i hi
    rw [hin, mark_of_ne (by omega), hrun0, if_neg (by omega), decide_eq_false (by omega)]
    exact ⟨rfl, rfl⟩
  obtain ⟨hapL, -, hlast, -⟩ := apart_free_iff.mp h.apart
  refine h'.gap_of hp' (hb0 ▸ rfl) (by omega) ?_ ?_ ?_ fun i hi => hsame i (.inr (by omega))
  · exact tiles_congr (tiles_append.mp htL).1 fun i _ hi => hsame i (.inl (by omega))
  · exact apart_free_iff.mpr ⟨hapL, by simp [Apart], hlast, by simp⟩
  · rw [hp]
    constructor
    · refine mark_seg (by omega) fun i h1 h2 => ?_
      rw [hrun0]
      split_ifs with hi
      · rfl
      · by_cases hlt : i < p + m
        · exact hprev.inner i h1 (by omega)
        · exact hseg.inner i (by omega) (by omega)
    · intro i h1 h2
      rw [hin]
      by_cases hi : p + m ≤ i ∧ i < p + m + n
      · rw [decide_eq_true hi]
        rfl
      · rw [hfree i h1 (by omega), Bool.and_false]

theorem started_left (hp : span L = p) (hn : 0 < n) : Started b (L ++ [(m, true)]) R F (p + m) 0 n c
      ((((b.clearFlags (p + m) n).setTail p 0).setRun (p + m) 0).mark p (m + n : Nat)) true L
      (m + n) := by
  obtain ⟨hprev, hfree⟩ := h.tile
  rw [hp] at hprev
  have hmpos := hprev.pos
  have h' : Rep b ((L ++ [(m, true)]) ++ (0 + n + c, false) :: R) F := by simpa using h
  have hp' : span (L ++ [(m, true)]) = p + m := by simp [hp]
  have hseg : Seg (b.clearFlags (p + m) n).run (p + m) (0 + n + c) := hp' ▸ h'.tile.1
  have hprev' : Seg (b.clearFlags (p + m) n).run p m := hprev
  have hheads := h'.heads
  rw [heads_append] at hheads
  have hpos : 0 < (b.clearFlags (p + m) n).run (p + m) := by
    rw [hseg.head]
    omega
  have hu : (b.clearFlags (p + m) n).inuse p = false := by
    rw [inuse_clearFlags, hfree p (by omega) (by omega), Bool.and_false]
  refine ⟨?_, h.gap_left hp hn, by omega, rfl, rfl, nofun, ?_, ?_⟩
  · have hrun : (((b.clearFlags (p + m) n).setTail p 0).setRun (p + m) 0).run p = m := by
      rw [Block.setRun_run, Block.setTail_run, hprev'.head, if_neg (by omega), if_neg (by omega)]
    rw [Nat.add_zero, Block.freeStart, if_pos hpos, hseg.head, hp, Int.natCast_add (p + m)]
    dsimp only
    rw [if_pos (by omega), Block.paGetrunhead_seg hprev' (by omega), map_some, hu,
      if_neg (by simp), hrun, Int.natCast_add m]
  · rw [heads_append] at hheads
    simpa [Tiling.heads, hp] using hheads
  · rw [usedRuns_append]
    simp [usedRuns, piece]

end

theorem started_head (h : Rep b (L ++ (0 + n + c, false) :: R) F) (hp : span L = p)
    (hn : 0 < n) (hL : ∀ x ∈ L.getLast?, x.2 = false) :
    Started b L R F p 0 n c (b.clearFlags p n) false L n := by
  have hseg : Seg (b.clearFlags p n).run p (0 + n + c) := hp ▸ h.tile.1
  have hheads := h.heads
  rw [heads_append, hp] at hheads
  have hpos : 0 < (b.clearFlags p n).run p := by
    rw [hseg.head]
    omega
  refine ⟨?_, h.gap_head hp hn hL, by omega, rfl, rfl, fun _ => hp,
    by simpa [Tiling.heads] using hheads, (append_nil _).symm⟩
  rw [Nat.add_zero, Block.freeStart, if_pos hpos, hseg.head, hp, Int.natCast_add p]
  by_cases hp0 : 0 < p
  · rw [if_pos hp0]
    obtain ⟨L', ⟨m, t⟩, rfl⟩ := (eq_nil_or_concat L).resolve_left fun e => by
      rw [e] at hp
      exact absurd hp (by simp; omega)
    obtain rfl : t = false := hL (m, t) (by simp)
    have hL' : Rep b (L' ++ (m, false) :: (0 + n + c, false) :: R) F := by simpa using h
    obtain ⟨hseg', hu⟩ := hL'.tile
    have hsp : span L' + m = p := by simpa using hp
    have hmpos := hseg'.pos
    have hseg'' : Seg (b.clearFlags p n).run (span L') m := hseg'
    have hu' : (b.clearFlags p n).inuse (span L') = true := by
      rw [inuse_clearFlags, decide_eq_false (by omega)]
      exact hu
    rw [Block.paGetrunhead_seg hseg'' (by omega), map_some, if_pos hu']
  · rw [if_neg hp0]

theorem started (h : Rep b (L ++ (a + n + c, false) :: R) F) (hp : span L = p)
    (hn : 0 < n) : ∃ b1 left A r, Started b L R F p a n c b1 left A r := by
  by_cases ha : a = 0
  · subst ha
    rcases eq_nil_or_concat L with rfl | ⟨L', ⟨m, t⟩, rfl⟩
    · exact ⟨_, _, _, _, h.started_head hp hn (by simp)⟩
    rw [concat_eq_append] at *
    cases t with
    | false => exact ⟨_, _, _, _, h.started_head hp hn (by simp)⟩
    | true =>
      have hL' : Rep b (L' ++ (m, true) :: (0 + n + c, false) :: R) F := by simpa using h
      have hp' : span L' + m = p := by simpa using hp
      exact ⟨_, _, _, _, hp' ▸ hL'.started_left rfl hn⟩
  · exact ⟨_, _, _, _, h.started_middle hp (by omega) hn⟩

end Rep

namespace Gap

variable {b : Block} {A R : Runs} {F X : List Nat} {r c k : Nat}

theorem splitEnd (h : Gap b A r c R) (hc : 0 < c) :
    Laid (b.splitEnd (span A + r) (span A + r + c : Nat)) (A ++ (r, true) :: (c, false) :: R) := by
  obtain ⟨s, hs⟩ : ∃ s, s = span A + r := ⟨_, rfl⟩
  have hsub : ((s + c : Nat) : Int) - s = c := by omega
  have htot := h.total
  have hrest := h.rest
  have hafter := h.after
  rw [← hs] at hrest hafter ⊢
  have hb : b.splitEnd s (s + c : Nat) = (b.mark s c).modFlags s (· ||| flagInuse) := by
    rw [Block.splitEnd, hsub]
  have hin : ∀ i, (b.splitEnd s (s + c : Nat)).inuse i = (decide (i = s) || b.inuse i) := by
    exact Block.inuse_or _ _
  have hsame : ∀ i, i < s ∨ s + c ≤ i → (b.splitEnd s (s + c : Nat)).run i = b.run i ∧
        (b.splitEnd s (s + c : Nat)).inuse i = b.inuse i := by
    intro i hi
    refine ⟨?_, by rw [hin, decide_eq_false (by omega)]; rfl⟩
    rw [hb]
    exact mark_of_ne (by omega)
  obtain ⟨hA, -, hlast, -⟩ := apart_free_iff.mp h.apart
  have hsp : span A + span [(r, true), (c, false)] = s + c := by
    simp only [span_cons, span_nil]
    omega
  suffices hl : Laid (b.splitEnd s (s + c : Nat)) (A ++ [(r, true), (c, false)] ++ R) by simpa using hl
  refine laid_of (by omega) h.before (hsp ▸ hafter) h.outside rfl (fun i hi => hsame i (by omega))
    ⟨h.free.congr fun i _ hi => hsame i (.inl (by omega)), ⟨?_, ?_⟩, trivial⟩ ?_
  · rw [← hs, hb]
    exact mark_seg hc hrest
  · rw [← hs, hin]
    simp
  · rw [append_assoc]
    exact apart_free_iff.mpr ⟨hA, apart_cons.mpr ⟨nofun, h.apart'⟩, hlast, by simp⟩

theorem close (h : Gap b A r 0 R) (hR : ∀ y ∈ R.head?, y.2 = false) :
    Laid b (A ++ (r, true) :: R) := by
  obtain ⟨hA, -, hlast, -⟩ := apart_free_iff.mp h.apart
  have htot := h.total
  refine ⟨?_, ?_, apart_free_iff.mpr ⟨hA, h.apart', hlast, hR⟩, h.outside⟩
  · simp only [span_append, span_cons]
    omega
  · refine tiles_append.mpr ⟨h.before, ?_, ?_⟩
    · rw [Nat.zero_add]
      exact h.free
    · rw [Nat.zero_add]
      exact h.after

end Gap

namespace Block

variable {b : Block} {s r k : Nat}

theorem absorb_run (hr : b.run s = r) (hk : b.run (s + r) = k) (hr0 : 0 < r) (hk0 : 0 < k)
    (i : Nat) : (b.absorb s (s + r)).run i =
      if i = s + (r + k) - 1 then -(((r + k : Nat) : Int) - 1) else if i = s then ((r + k : Nat) : Int)
      else if i = s + r ∨ (1 < r ∧ i = s + r - 1) then 0 else b.run i := by
  have h1 : ∀ j, (b.setTail s 0).run j = if 1 < r ∧ j = s + r - 1 then 0 else b.run j := by
    intro j
    have hc : 1 < (r : Int) ↔ 1 < r := by omega
    simp only [setTail_run, hr, Int.toNat_natCast, hc]
  have hs : (b.setTail s 0).run s = r := by
    rw [h1, if_neg (by omega), hr]
  have hn : (b.setTail s 0).run (s + r) = k := by
    rw [h1, if_neg (by omega), hk]
  have h2 : ∀ j, ((b.setTail s 0).setRun s (r + k)).run j =
      if j = s then (r : Int) + k else (b.setTail s 0).run j := setRun_run _ _ _
  have hn2 : ((b.setTail s 0).setRun s (r + k)).run (s + r) = k := by
    rw [h2, if_neg (by omega), hn]
  unfold absorb
  dsimp only
  rw [hs, hn, hn2]
  by_cases hk1 : 1 < (k : Int)
  · rw [if_pos hk1]
    have h3 : ∀ j, ((((b.setTail s 0).setRun s (r + k)).setRun (s + r) 0).modFlags (s + r)
        (· &&& ~~~flagInuse)).run j =
        if j = s + r then 0 else ((b.setTail s 0).setRun s (r + k)).run j := setRun_run _ _ _
    have hs3 : ((((b.setTail s 0).setRun s (r + k)).setRun (s + r) 0).modFlags (s + r)
        (· &&& ~~~flagInuse)).run s = r + k := by
      rw [h3, if_neg (by omega), h2, if_pos rfl]
    rw [setTail_run, hs3, h3, h2, h1, tailCalc]
    split_ifs <;> omega
  have hs2 : ((b.setTail s 0).setRun s (r + k)).run s = r + k := by
    rw [h2, if_pos rfl]
  rw [if_neg hk1, setTail_run, hs2, h2, h1, tailCalc]
  split_ifs <;> omega

theorem absorb_same (b : Block) (s q : Nat) : (b.absorb s q).numQuanta = b.numQuanta ∧
    (b.absorb s q).links = b.links ∧ (b.absorb s q).freeOwner = b.freeOwner := by
  unfold absorb
  dsimp only
  split <;> exact ⟨rfl, rfl, rfl⟩

theorem absorb_inuse (hu : b.inuse (s + r) = false) (i : Nat) :
    (b.absorb s (s + r)).inuse i = b.inuse i := by
  unfold absorb
  dsimp only
  split
  · refine (inuse_and (m := ~~~flagInuse) (by decide) b (s + r) i).trans ?_
    by_cases hi : i = s + r
    · rw [hi, hu, Bool.and_false]
    · rw [decide_eq_false hi]
      rfl
  · rfl

end Block

namespace Gap

variable {b : Block} {A R : Runs} {F X : List Nat} {r c k : Nat}

theorem absorb (h : Gap b A r 0 ((k, true) :: R)) :
    Laid (b.absorb (span A) (span A + r)) (A ++ (r + k, true) :: R) := by
  obtain ⟨hseg, hfree⟩ := h.free
  obtain ⟨⟨hseg', hfree'⟩, hafter⟩ := h.after
  have htot := h.total
  rw [span_cons] at htot
  have hr0 := hseg.pos
  have hk0 := hseg'.pos
  have hrun := Block.absorb_run hseg.head hseg'.head hr0 hk0
  have hin := Block.absorb_inuse (hfree' (span A + r) (by omega) (by omega))
  obtain ⟨hA, -, hlast, -⟩ := apart_free_iff.mp h.apart
  obtain ⟨hhead, hR⟩ := apart_cons.mp h.apart'
  have hsp : span A + span [(r + k, true)] = span A + r + 0 + k := by
    simp only [span_cons, span_nil]
    omega
  have hl := laid_of (M := [(r + k, true)]) (by omega) h.before (hsp ▸ hafter) h.outside
    (b.absorb_same _ _).1 (fun i hi => ⟨?_, hin i⟩)
    ⟨⟨⟨by omega, ?_, fun _ => ?_, fun i h1 h2 => ?_⟩, fun i h1 h2 => ?_⟩, trivial⟩ ?_
  · simpa using hl
  · rw [hrun, if_neg (by omega), if_neg (by omega), if_neg (by omega)]
  · rw [hrun, if_neg (by omega), if_pos rfl]
  · rw [hrun, if_pos rfl]
  · rw [hrun, if_neg (by omega), if_neg (by omega)]
    split_ifs with hi
    · rfl
    · by_cases hlt : i < span A + r
      · exact hseg.inner i h1 (by omega)
      · exact hseg'.inner i (by omega) (by omega)
  · rw [hin]
    by_cases hlt : i < span A + r
    · exact hfree i h1 hlt
    · exact hfree' i (by omega) (by omega)
  · simpa using apart_free_iff.mpr ⟨hA, hR, hlast, fun y hy => hhead y hy rfl⟩

theorem freeEnd (h : Gap b A r c R) (hl : FreeList b.links b.freeOwner F)
    (hF : F.Perm (heads id 0 A ++ (X ++ heads id (span A + r + c) R))) :
    ∃ b' r' R' F', b.freeEnd (span A + r) (span A) (span A + r + c : Nat) = some b' ∧
      Laid b' (A ++ (r', true) :: R') ∧ FreeList b'.links b'.freeOwner F' ∧
      F'.Perm (heads id 0 A ++ (X ++ heads id (span A + r') R')) ∧
      r' + span R' = r + c + span R ∧
      usedRuns (span A + r') R' = piece (span A + r) c ++ usedRuns (span A + r + c) R := by
  by_cases hc : 0 < c
  · refine ⟨_, r, (c, false) :: R, F, ?_, h.splitEnd hc, hl, ?_, ?_, ?_⟩
    · rw [Block.freeEnd, if_pos (by omega)]
    · simpa [heads] using hF
    · rw [span_cons, Nat.add_assoc]
    · rw [piece, if_neg (by omega)]
      rfl
  obtain rfl : c = 0 := by omega
  have hnext : ¬((span A + r : Nat) : Int) < (span A + r + 0 : Nat) := by omega
  have hnext' : ¬((span A + r : Nat) : Int) > (span A + r + 0 : Nat) := by omega
  have htot := h.total
  have hdone : ¬(((span A + r + 0 : Nat) : Int) < b.numQuanta ∧ ¬b.inuse (span A + r) = true) →
      b.freeEnd (span A + r) (span A) (span A + r + 0 : Nat) = some b := by
    intro hn
    rw [Block.freeEnd, if_neg hnext, if_neg hnext', if_neg hn]
  cases R with
  | nil =>
    refine ⟨b, r, [], F, hdone ?_, h.close (by simp), hl, hF, rfl, rfl⟩
    rw [span_nil] at htot
    omega
  | cons t R =>
    obtain ⟨k, free⟩ := t
    obtain ⟨⟨hseg, hu⟩, -⟩ := h.after
    cases free with
    | false =>
      refine ⟨b, r, (k, false) :: R, F, hdone ?_, h.close (by simp), hl, hF, rfl, rfl⟩
      intro hn
      exact hn.2 hu
    | true =>
      have hk0 := hseg.pos
      have hu' : b.inuse (span A + r) = false := hu _ (by omega) (by omega)
      have hmem : span A + r ∈ F := by
        rw [hF.mem_iff]
        simp [heads]
      obtain ⟨l1, l2, rfl⟩ := append_of_mem hmem
      obtain ⟨ln, fo, he, hl'⟩ := hl.unlinkFree
      have h' : Gap { b with links := ln, freeOwner := fo } A r 0 ((k, true) :: R) :=
        ⟨h.total, h.before, h.apart, h.free, h.rest, h.after, h.apart', h.outside⟩
      refine ⟨_, r + k, R, l1 ++ l2, ?_, h'.absorb, ?_, ?_, ?_, ?_⟩
      · rw [Block.freeEnd, if_neg hnext, if_neg hnext', if_pos, he]
        · rfl
        · rw [hu']
          rw [span_cons] at htot
          exact ⟨by omega, by simp⟩
      · rw [(Block.absorb_same _ _ _).2.1, (Block.absorb_same _ _ _).2.2]
        exact hl'
      · have hperm := perm_middle.symm.trans hF
        have hcat : heads id 0 A ++ (X ++ heads id (span A + r + 0) ((k, true) :: R)) =
            (heads id 0 A ++ X) ++ (span A + r) :: heads id (span A + (r + k)) R := by
          simp [heads, Nat.add_assoc]
        rw [hcat] at hperm
        rw [← append_assoc]
        exact (hperm.trans perm_middle).cons_inv
      · rw [span_cons, Nat.add_assoc, Nat.add_zero]
      · rw [← Nat.add_assoc]
        rfl

end Gap

theorem Rep.paFree {b : Block} {L R : Runs} {F : List Nat} {p a n c : Nat}
    (h : Rep b (L ++ (a + n + c, false) :: R) F) (hp : span L = p) (hn : n ≠ 0) :
    ∃ b' rs' F', b.paFree (p + a) n = some b' ∧ Rep b' rs' F' ∧ b'.numQuanta = b.numQuanta ∧
      usedRuns 0 rs' =
        usedRuns 0 L ++ piece p a ++ (piece (p + a + n) c ++ usedRuns (p + (a + n + c)) R) := by
  obtain ⟨b1, left, A, r, hst⟩ := h.started hp (Nat.pos_of_ne_zero hn)
  have hends := hst.ends
  have hlinks : (b1.makeFree (p + a) n left).links = b.links := by
    rw [← hst.links]
    cases left <;> rfl
  have howner : (b1.makeFree (p + a) n left).freeOwner = b.freeOwner := by
    rw [← hst.freeOwner]
    cases left <;> rfl
  have hlist : FreeList (b1.makeFree (p + a) n left).links (b1.makeFree (p + a) n left).freeOwner
      F := by
    rw [hlinks, howner]
    exact h.list
  have hnext : p + (a + n + c) = span A + r + c := by omega
  have hheads := hst.heads
  rw [hnext] at hheads
  obtain ⟨b2, r', R', F', he, hlaid, hl, hF, hlen, hq⟩ := hst.gap.freeEnd hlist hheads
  have hused : usedRuns 0 (A ++ (r', true) :: R') = usedRuns 0 L ++ piece p a ++
      (piece (p + a + n) c ++ usedRuns (p + (a + n + c)) R) := by
    rw [usedRuns_append, hst.used, Nat.zero_add, usedRuns, hq, hnext, hends]
    rfl
  have heq : b.paFree (p + a) n = some (if left then b2 else b2.addTail (p + a)) := by
    rw [Block.paFree, if_neg hn, hst.eq, bind_some]
    dsimp only
    rw [hnext, ← hends, he]
    rfl
  have hnum : b2.numQuanta = b.numQuanta := by
    have htot := (h.around hp).1
    rw [← hlaid.span, span_append, span_cons]
    omega
  cases left with
  | true =>
    refine ⟨b2, _, F', heq, ⟨hlaid, hl, ?_⟩, hnum, hused⟩
    rw [heads_append, Nat.zero_add]
    exact hF
  | false =>
    have hplace := hst.place rfl
    have hpos := hlaid.tiles.forall_mem fun _ _ ht => ht.1.pos
    have hr' := hpos (r', true) (by simp)
    have hnot : p + a ∉ F' := by
      intro hm
      rw [hF.mem_iff] at hm
      rcases mem_append.mp hm with hm | hm
      · have := (heads_bounds (fun t ht => hpos t (by simp [ht])) hm).2
        omega
      have hm' : p + a ∈ Tiling.heads id (span A + r') R' := by simpa using hm
      have := (heads_bounds (fun t ht => hpos t (by simp [ht])) hm').1
      omega
    obtain ⟨ln, fo, ha, hl'⟩ := hl.addTail hnot
    refine ⟨{ b2 with links := ln, freeOwner := fo }, _, F' ++ [p + a], by rw [heq, ← ha]; rfl,
      ⟨⟨hlaid.span, hlaid.tiles, hlaid.apart, hlaid.outside⟩, hl', ?_⟩, hnum, hused⟩
    rw [heads_append, Nat.zero_add, ← hplace]
    refine (perm_append_singleton _ _).trans ?_
    exact (hF.cons _).trans perm_middle.symm

end Qnx.Memmgr
