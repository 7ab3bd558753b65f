import Qnx.Memmgr.PaRuns

/-!
# Carving a run out of a free run

Whatever its branch, `pa_carve` leaves at most two free pieces and the carved run between them.
-/

namespace Qnx.Memmgr

open Tiling List
open Block (mark_seg carveHead mark_of_ne inuse_and setRun_run setTail_run mark_run)

def freeRun (n : Nat) : Runs := if n = 0 then [] else [(n, true)]

def carved (a n c : Nat) : Runs := freeRun a ++ (n, false) :: freeRun c

theorem span_freeRun (n : Nat) : span (freeRun n) = n := by
  unfold freeRun
  split
  · rename_i h
    rw [h]
    rfl
  · rfl

theorem span_carved (a n c : Nat) : span (carved a n c) = a + n + c := by
  simp only [carved, span_append, span_cons, span_freeRun]
  omega

theorem heads_freeRun (p n : Nat) : heads id p (freeRun n) = if n = 0 then [] else [p] := by
  unfold freeRun
  split <;> rfl

theorem heads_carved (p a n c : Nat) : heads id p (carved a n c) =
    (if a = 0 then [] else [p]) ++ if c = 0 then [] else [p + a + n] := by
  rw [carved, heads_append, span_freeRun, heads]
  simp only [id, Bool.false_eq_true, if_false, heads_freeRun]

theorem apart_carved (a n c : Nat) : Apart (carved a n c) := by
  unfold carved freeRun Apart
  split <;> split <;> simp

theorem tiles_carved {b : Block} {p a n c : Nat} (hs : b.Tile (p + a) n false)
    (ha : 0 < a → b.Tile p a true) (hc : 0 < c → b.Tile (p + a + n) c true) :
    Tiles b.Tile p (carved a n c) := by
  have hfree : ∀ q m, (0 < m → b.Tile q m true) → Tiles b.Tile q (freeRun m) := by
    intro q m hm
    unfold freeRun
    split
    · trivial
    · exact ⟨hm (by omega), trivial⟩
  rw [carved, tiles_append, span_freeRun]
  exact ⟨hfree p a ha, hs, hfree _ c hc⟩

namespace Rep

variable {b b1 : Block} {L R : Runs} {F F' : List Nat} {p a n c : Nat}

theorem markCarved (h : Rep b (L ++ (a + n + c, true) :: R) F) (hp : span L = p)
    (hnum : b1.numQuanta = b.numQuanta) (hs : Seg b1.run (p + a) n)
    (ha : 0 < a → Seg b1.run p a) (hc : 0 < c → Seg b1.run (p + a + n) c)
    (hout : ∀ i, i < p ∨ p + (a + n + c) ≤ i → b1.run i = b.run i ∧ b1.inuse i = b.inuse i)
    (hin : ∀ i, p ≤ i → i < p + (a + n + c) → b1.inuse i = false)
    (hl : FreeList b1.links b1.freeOwner F')
    (hF : F'.Perm (Tiling.heads id 0 (L ++ carved a n c ++ R))) :
    Rep (b1.markCarved (p + a)) (L ++ carved a n c ++ R) F' := by
  have hnpos := hs.pos
  have hu : ∀ i, (b1.markCarved (p + a)).inuse i = (decide (i = p + a) || b1.inuse i) :=
    Block.inuse_or _ _
  have hnot : p + a ∉ F' := by
    intro hm
    rw [hF.mem_iff, heads_append, heads_append, heads_carved, span_append, span_carved] at hm
    have hpos := h.pos
    simp only [mem_append] at hm
    rcases hm with (hm | hm | hm) | hm
    · have := (heads_bounds (fun t ht => hpos t (by simp [ht])) hm).2
      omega
    · split at hm <;> simp at hm
      omega
    · split at hm <;> simp at hm
      omega
    · have := (heads_bounds (fun t ht => hpos t (by simp [ht])) hm).1
      omega
  have h' : Rep b (L ++ [(a + n + c, true)] ++ R) F := by simpa using h
  have hfree : ∀ q m, p ≤ q → q + m ≤ p + (a + n + c) → (q + m ≤ p + a ∨ p + a < q) →
      Seg b1.run q m → (b1.markCarved (p + a)).Tile q m true := by
    intro q m h1 h2 h3 hseg
    refine ⟨hseg, ?_⟩
    intro i hi hi'
    rw [hu, hin i (by omega) (by omega), Bool.or_false, decide_eq_false_iff_not]
    omega
  refine h'.splice hnum (by rw [span_carved]; simp) ?_ ?_ ?_ (hl.scribble hnot none none) hF
  · intro i hi
    have hi' : i < p ∨ p + (a + n + c) ≤ i := by simpa [hp] using hi
    rw [hu, decide_eq_false (by omega)]
    exact hout i hi'
  · rw [hp]
    refine tiles_carved ⟨hs, ?_⟩ (fun h0 => hfree p a (by omega) (by omega) (by omega) (ha h0))
      fun h0 => hfree _ c (by omega) (by omega) (by omega) (hc h0)
    rw [hu]
    simp
  · exact h.apart.replace (apart_carved a n c)

theorem perm_carved {l : List Nat} (hp : span L = p)
    (hl : l.Perm (Tiling.heads id 0 L ++ ((if a = 0 then [] else [p]) ++
      (if c = 0 then [] else [p + a + n]) ++ Tiling.heads id (p + (a + n + c)) R))) :
    l.Perm (Tiling.heads id 0 (L ++ carved a n c ++ R)) := by
  rw [heads_append, heads_append, heads_carved, Nat.zero_add, Nat.zero_add, span_append,
    span_carved, hp, append_assoc]
  exact hl

theorem carveHead (h : Rep b (L ++ (n + c, true) :: R) F) (hp : span L = p) (hn : 0 < n) :
    ∃ b1 F', b.carveHead p n (n + c : Nat) = some b1 ∧
      Rep (b1.markCarved p) (L ++ carved 0 n c ++ R) F' := by
  obtain ⟨hseg, hfree⟩ := h.tile
  rw [hp] at hseg hfree
  have hzero : ∀ i, p < i → i < p + (n + c) - 1 → b.run i = 0 := hseg.inner
  have hmark : Seg (b.mark p n).run p n := mark_seg hn fun i h1 h2 => hzero i h1 (by omega)
  obtain ⟨l1, l2, rfl, hperm⟩ := h.free_split
  rw [hp] at hperm
  have hlist : FreeList (b.mark p n).links (b.mark p n).freeOwner (l1 ++ p :: l2) := hp ▸ h.list
  have h0 : Rep b (L ++ (0 + n + c, true) :: R) (l1 ++ span L :: l2) := by
    rwa [Nat.zero_add]
  by_cases hc : c = 0
  · subst hc
    obtain ⟨ln, fo, he, hl⟩ := hlist.unlinkFree
    refine ⟨{ b.mark p n with links := ln, freeOwner := fo }, l1 ++ l2, by simp [carveHead, he], ?_⟩
    refine h0.markCarved hp rfl hmark (by omega) (by omega) ?_ ?_ hl
      (perm_carved hp (by simpa using hperm))
    · intro i hi
      exact ⟨mark_of_ne (by omega), rfl⟩
    · intro i h1 h2
      exact hfree i h1 (by omega)
  have hsub : ((n + c : Nat) : Int) - n = c := by omega
  have hne : ¬((n + c : Nat) : Int) = n := by omega
  have hnot : p + n ∉ l1 ++ p :: l2 := hp ▸ h.not_mem (by omega) (by omega) (by omega)
  have hmark' : Seg ((b.mark p n).mark (p + n) c).run (p + n) c :=
    mark_seg (by omega) fun i h1 h2 => by
      rw [mark_of_ne (by omega)]
      exact hzero i (by omega) (by omega)
  obtain ⟨b2, hb2⟩ : ∃ b2, b2 = ((b.mark p n).mark (p + n) c).modFlags (p + n)
    (· &&& ~~~flagInuse) := ⟨_, rfl⟩
  have hlist' : FreeList b2.links b2.freeOwner (l1 ++ p :: l2) := hb2 ▸ hlist
  have hrun : b2.run = ((b.mark p n).mark (p + n) c).run := hb2 ▸ rfl
  obtain ⟨ln, fo, he, hl⟩ := hlist'.relink hnot
  refine ⟨{ b2 with links := ln, freeOwner := fo }, l1 ++ (p + n) :: l2, ?_, ?_⟩
  · simp only [carveHead, if_neg hne, hsub, ← hb2]
    exact he
  · refine h0.markCarved hp (hb2 ▸ rfl) ?_ (by omega) (fun _ => hrun ▸ hmark') ?_ ?_ hl
      (perm_carved hp ?_)
    · rw [hrun]
      exact hmark.congr fun i h1 h2 => mark_of_ne (by omega)
    · intro i hi
      have hfl : b2.inuse i = b.inuse i := by
        rw [hb2, inuse_and (by decide), decide_eq_false (by omega)]
        rfl
      rw [hrun, mark_of_ne (by omega), mark_of_ne (by omega)]
      exact ⟨rfl, hfl⟩
    · intro i h1 h2
      have hu := inuse_and (m := ~~~flagInuse) (by decide) ((b.mark p n).mark (p + n) c) (p + n) i
      have hb : ((b.mark p n).mark (p + n) c).inuse i = false := hfree i h1 (by omega)
      rw [hb, Bool.and_false, ← hb2] at hu
      exact hu
    · rw [if_neg hc]
      simpa using perm_middle.trans ((hperm.cons _).trans perm_middle.symm)

theorem carveEnd_run (hseg : b.run p = (a + n : Nat)) (ha : 0 < a) :
    (b.carveEnd p (p + a) n).run = ((b.mark p a).mark (p + a) n).run := by
  have hsub : b.run p - n = a := by omega
  have h1 : ((b.setRun p a).setRun (p + a) n).run (p + a) = n := by simp [setRun_run]
  have h2 : (((b.setRun p a).setRun (p + a) n).setTail (p + a) (tailCalc n)).run p = a := by
    rw [setTail_run, h1, setRun_run, setRun_run]
    omega
  funext i
  simp only [Block.carveEnd, hsub, h1]
  rw [setTail_run, h2, setTail_run, h1, setRun_run, setRun_run, mark_run, mark_run]
  simp only [tailCalc, Int.toNat_natCast]
  split_ifs <;> omega

theorem carveEnd (h : Rep b (L ++ (a + n, true) :: R) F) (hp : span L = p) (ha : 0 < a)
    (hn : 0 < n) :
    Rep ((b.carveEnd p (p + a) n).markCarved (p + a)) (L ++ carved a n 0 ++ R) F := by
  obtain ⟨hseg, hfree⟩ := h.tile
  rw [hp] at hseg hfree
  have hrun := carveEnd_run hseg.head ha
  have hmark : Seg (b.mark p a).run p a := mark_seg ha fun i h1 h2 => hseg.inner i h1 (by omega)
  have h0 : Rep b (L ++ (a + n + 0, true) :: R) F := h
  have hheads := h.heads
  refine h0.markCarved hp rfl ?_ (fun _ => ?_) (by omega) ?_ ?_ h.list (perm_carved hp ?_)
  · rw [hrun]
    refine mark_seg hn fun i h1 h2 => ?_
    rw [mark_of_ne (by omega)]
    exact hseg.inner i (by omega) (by omega)
  · rw [hrun]
    exact hmark.congr fun i h1 h2 => mark_of_ne (by omega)
  · intro i hi
    rw [hrun, mark_of_ne (by omega), mark_of_ne (by omega)]
    exact ⟨rfl, rfl⟩
  · intro i h1 h2
    exact hfree i h1 (by omega)
  · rw [heads_append, hp] at hheads
    rw [if_neg (by omega)]
    simpa [Tiling.heads] using hheads

theorem carveMiddle (h : Rep b (L ++ (a + n + c, true) :: R) F) (hp : span L = p)
    (ha : 0 < a) (hn : 0 < n) (hc : 0 < c) :
    ∃ F', Rep ((b.carveMiddle p (p + a) n (a + n + c : Nat)).markCarved (p + a))
      (L ++ carved a n c ++ R) F' := by
  obtain ⟨hseg, hfree⟩ := h.tile
  rw [hp] at hseg hfree
  obtain ⟨l1, l2, rfl, hperm⟩ := h.free_split
  rw [hp] at hperm
  have hsub : ((p + a : Nat) : Int) - p = a := by omega
  have hhead : ((b.mark p a).mark (p + a) n).run p = a := by
    rw [mark_of_ne (by omega)]
    exact (mark_seg ha fun i h1 h2 => hseg.inner i h1 (by omega)).head
  have hrest : ((a + n + c : Nat) : Int) - ((a : Int) + n) = c := by omega
  obtain ⟨b3, hb3⟩ : ∃ b3, b3 = ((b.mark p a).mark (p + a) n).mark (p + a + n) c := ⟨_, rfl⟩
  have hlist : FreeList b3.links b3.freeOwner (l1 ++ p :: l2) := by
    rw [hb3, ← hp]
    exact h.list
  have hnot : p + a + n ∉ l1 ++ p :: l2 := hp ▸ h.not_mem (by omega) (by omega) (by omega)
  obtain ⟨ln, fo, he, hl⟩ := hlist.linkAfter hnot
  have heq : b.carveMiddle p (p + a) n (a + n + c : Nat) =
      { b3 with links := ln, freeOwner := fo } := by
    simp only [Block.carveMiddle, hsub, hhead, hrest, ← hb3]
    exact he
  refine ⟨l1 ++ p :: (p + a + n) :: l2, ?_⟩
  rw [heq]
  refine h.markCarved hp (hb3 ▸ rfl) ?_ (fun _ => ?_) (fun _ => ?_) ?_ ?_ hl (perm_carved hp ?_)
  · rw [hb3]
    refine (mark_seg hn fun i h1 h2 => ?_ : Seg ((b.mark p a).mark (p + a) n).run (p + a) n)
      |>.congr fun i h1 h2 => mark_of_ne (by omega)
    rw [mark_of_ne (by omega)]
    exact hseg.inner i (by omega) (by omega)
  · rw [hb3]
    refine (mark_seg ha fun i h1 h2 => hseg.inner i h1 (by omega) :
      Seg (b.mark p a).run p a) |>.congr fun i h1 h2 => ?_
    rw [mark_of_ne (by omega), mark_of_ne (by omega)]
  · rw [hb3]
    refine mark_seg hc fun i h1 h2 => ?_
    rw [mark_of_ne (by omega), mark_of_ne (by omega)]
    exact hseg.inner i (by omega) (by omega)
  · intro i hi
    refine ⟨?_, hb3 ▸ rfl⟩
    rw [hb3, mark_of_ne (by omega), mark_of_ne (by omega), mark_of_ne (by omega)]
  · intro i h1 h2
    have hu : b3.inuse i = b.inuse i := hb3 ▸ rfl
    exact hu.trans (hfree i h1 (by omega))
  · rw [if_neg (by omega), if_neg (by omega)]
    have htwo : ∀ l m : List Nat,
        (l ++ p :: (p + a + n) :: m).Perm (p :: (p + a + n) :: (l ++ m)) := fun l m =>
      perm_middle.trans (perm_middle.cons p)
    exact (htwo l1 l2).trans (((hperm.cons _).cons _).trans (htwo _ _).symm)

theorem paCarve {start len : Nat} (h : Rep b (L ++ (a + n + c, true) :: R) F)
    (hp : span L = p) (hs : start = p + a) (hlen : lenToRun len = n) (hn : 0 < n) :
    ∃ b' F', b.paCarve p start len = some b' ∧ Rep b' (L ++ carved a n c ++ R) F' := by
  obtain ⟨hseg, hfree⟩ := h.tile
  rw [hp] at hseg
  have hu : b.inuse p = false := hfree p (by omega) (by omega)
  subst hs
  simp only [Block.paCarve, hu, Bool.false_eq_true, if_false, hlen, hseg.head]
  by_cases ha : a = 0
  · subst ha
    have h0 : Rep b (L ++ (n + c, true) :: R) F := by simpa using h
    obtain ⟨b1, F', he, h'⟩ := h0.carveHead hp hn
    refine ⟨b1.markCarved p, F', ?_, h'⟩
    rw [Nat.add_zero, hseg.head, if_pos (by omega), Nat.zero_add, he]
    rfl
  have hrun : b.run (p + a) ≤ 0 := by
    rcases Block.run_cases hseg (i := p + a) (by omega) with h1 | h1 | h1 <;> omega
  rw [if_neg (by omega)]
  by_cases hc : c = 0
  · subst hc
    rw [if_pos (by omega)]
    exact ⟨_, F, rfl, carveEnd h hp (by omega) hn⟩
  rw [if_neg (by omega)]
  obtain ⟨F', h'⟩ := h.carveMiddle hp (by omega) hn (by omega)
  exact ⟨_, F', rfl, h'⟩

end Rep

end Qnx.Memmgr
