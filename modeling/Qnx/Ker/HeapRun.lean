import Qnx.Ker.HeapCalls

/-!
# Runs of the heap

Every sequence of `_smalloc`, `_scalloc`, `_srealloc` and `_sfree` on the kernel's list, as long as
the sizes asked for leave room for the roundings.
-/

namespace Qnx.Ker

open Extents Run HeapSt List

/-- The largest size whose rounding and header still fit in a word. -/
def heapLimit : Nat := 2 ^ 32 - 16

theorem roundNew_spec {n : Nat} (h0 : n ≠ 0) (hn : n ≤ heapLimit) :
    n ≤ roundNew n ∧ 0 < roundNew n ∧ 8 ∣ roundNew n ∧ roundNew n + 8 < 2 ^ 32 := by
  unfold heapLimit at hn
  unfold roundNew entrySize alignSize
  rw [if_neg h0]
  split
  · omega
  · rw [add32_of_lt (by omega)]
    omega

theorem roundNew_zero : roundNew 0 = 0 := rfl

theorem le_roundOld {n : Nat} (hn : n < 2 ^ 32) (h0 : 0 < roundOld n) : n ≤ roundOld n := by
  unfold roundOld at *
  split
  · omega
  rename_i h8
  rw [if_neg h8] at h0
  unfold alignSize add32 at *
  omega

namespace HeapRun

/-- The blocks that are out and the free list share out what `alloc` returned. -/
def Sound (s : HeapRun) : Prop := ∃ L, Rep s.heap L ∧ HeapOwns L s.blocks s.regions

/-- `data` is `NULL`, or a block that is out with a size that rounds to its own. -/
def Held (s : HeapRun) (data old : Nat) : Prop :=
  old < 2 ^ 32 ∧ (data = 0 ∨ old ≠ 0 ∧ (data, roundOld old) ∈ s.blocks)

/-- The callback fails or returns a new aligned region of at least the size it is asked for. -/
def Fresh (s : HeapRun) (n : Nat) (alloc : Option Extent) : Prop :=
  ∀ region ∈ alloc, (0 < region.1 ∧ region.1 % 8 = 0 ∧ 0 < region.2 ∧ region.2 % 8 = 0 ∧
    region.1 + region.2 < 2 ^ 32) ∧ add32 (roundNew n) entrySize ≤ region.2 ∧
    ∀ f ∈ s.regions, f.1 + f.2 ≤ region.1 ∨ region.1 + region.2 ≤ f.1

def Legal (s : HeapRun) : HeapOp → Prop
  | .smalloc n alloc => n < 2 ^ 32 ∧ s.Fresh n alloc
  | .scalloc n alloc => n < 2 ^ 32 ∧ s.Fresh n alloc
  | .srealloc data old n alloc => n < 2 ^ 32 ∧ s.Held data old ∧ s.Fresh n alloc
  | .sfree data old => s.Held data old
  | .write a _ => ∃ b ∈ s.blocks, b.1 ≤ a ∧ a < b.1 + b.2

def Modest : HeapOp → Prop
  | .smalloc n _ => n ≤ heapLimit
  | .scalloc n _ => n ≤ heapLimit
  | .srealloc _ _ n _ => n ≤ heapLimit
  | _ => True

instance (s : HeapRun) (data old : Nat) : Decidable (s.Held data old) :=
  inferInstanceAs (Decidable (_ ∧ (_ ∨ _)))

instance (s : HeapRun) (n : Nat) (alloc : Option Extent) : Decidable (s.Fresh n alloc) :=
  inferInstanceAs (Decidable (∀ region ∈ alloc, _))

instance (s : HeapRun) (o : HeapOp) : Decidable (s.Legal o) :=
  match o with
  | .smalloc _ _ => inferInstanceAs (Decidable (_ ∧ _))
  | .scalloc _ _ => inferInstanceAs (Decidable (_ ∧ _))
  | .srealloc _ _ _ _ => inferInstanceAs (Decidable (_ ∧ _ ∧ _))
  | .sfree _ _ => inferInstanceAs (Decidable (Held _ _ _))
  | .write _ _ => inferInstanceAs (Decidable (∃ b ∈ _, _))

instance (o : HeapOp) : Decidable (Modest o) :=
  match o with
  | .smalloc _ _ => inferInstanceAs (Decidable (_ ≤ _))
  | .scalloc _ _ => inferInstanceAs (Decidable (_ ≤ _))
  | .srealloc _ _ _ _ => inferInstanceAs (Decidable (_ ≤ _))
  | .sfree _ _ => inferInstanceAs (Decidable True)
  | .write _ _ => inferInstanceAs (Decidable True)

structure Served (s : HeapRun) (data old n : Nat) (r : SResult) : Prop where
  sound : (s.account r data old n).Sound
  copied : r.ptr ≠ 0 → data ≠ 0 → ∀ i < min old n,
    r.heap.bytes (r.ptr + i) = s.heap.bytes (data + i)
  failed : r.ptr = 0 → n ≠ 0 → r.heap = s.heap ∧ (s.account r data old n).blocks = s.blocks

variable {s : HeapRun} {data old n : Nat} {alloc : Option Extent} {L B D : List Extent}

theorem Fresh.region (h : s.Fresh n alloc) (hn : roundNew n + 8 < 2 ^ 32) :
    ∀ region ∈ alloc, Fit8 region ∧ roundNew n + 8 ≤ region.2 ∧
      ∀ x, In region x → ¬ Covers s.regions x := by
  intro region hr
  obtain ⟨⟨h0, h8, hl, hl8, hlt⟩, hsz, hap⟩ := h region hr
  rw [entrySize, add32_of_lt hn] at hsz
  refine ⟨⟨h0, Nat.dvd_of_mod_eq_zero h8, hl, Nat.dvd_of_mod_eq_zero hl8, hlt⟩, hsz, ?_⟩
  rintro x hx ⟨f, hf, hfx⟩
  have := hap f hf
  unfold In at hx hfx
  omega

theorem Held.cases (h : s.Held data old) (ho : HeapOwns L s.blocks s.regions) :
    (data = 0 ∧ s.blocks.erase (data, roundOld old) = s.blocks) ∨ (data ≠ 0 ∧ old ≠ 0 ∧
        HeapOwns L ((data, roundOld old) :: s.blocks.erase (data, roundOld old)) s.regions) := by
  obtain ⟨-, rfl | ⟨h0, hm⟩⟩ := h
  · refine .inl ⟨rfl, erase_of_not_mem ?_⟩
    intro hm
    exact absurd (owns_ok_out ho _ hm).start_pos (Nat.lt_irrefl 0)
  · refine .inr ⟨?_, h0, ho.perm (perm_cons_erase hm)⟩
    exact Nat.ne_of_gt (owns_ok_out ho _ hm).start_pos

theorem Served.of_enlarged {r : SResult} (h0 : n ≠ 0) (hn : n ≤ heapLimit) (hs : s.Sound)
    (h : Enlarged s.heap (s.blocks.erase (data, roundOld old)) s.regions D data (roundOld old)
      (roundNew n) alloc r)
    (hD : data ≠ 0 → D = [(data, roundOld old)] ∧ old ≤ roundOld old) : s.Served data old n r := by
  obtain ⟨hptr, hheap, hreg⟩ | ⟨hptr, -, ⟨L, hrep, hown⟩, -, hcopy⟩ := h
  · have hacc : s.account r data old n = s := by
      unfold account
      rw [hheap, hreg, if_neg (by omega), if_neg h0]
      rfl
    refine ⟨?_, absurd hptr, fun _ _ => ⟨hheap, ?_⟩⟩
    · rw [hacc]
      exact hs
    · rw [hacc]
  refine ⟨⟨L, hrep, ?_⟩, ?_, fun h => absurd h hptr⟩
  · unfold account
    rw [if_pos hptr]
    exact hown
  · intro _ hd i hi
    obtain ⟨hDeq, hle⟩ := hD hd
    have := (roundNew_spec h0 hn).1
    exact hcopy hDeq i (by omega)

theorem enlarged_nil {st : HeapSt} {R : List Extent} {r : SResult} (old' : Nat)
    (h : Enlarged st B R [] data old n alloc r) : Enlarged st B R [] data old' n alloc r := by
  refine h.imp_right ?_
  rintro ⟨hptr, hreg, hex, hbytes, -⟩
  refine ⟨hptr, hreg, hex, hbytes, ?_⟩
  intro h
  cases h

section

variable (hs : s.Sound) (hfresh : s.Fresh n alloc) (hn : n ≤ heapLimit)
include hs hfresh hn

theorem served_new (hold : s.Held 0 old) :
    ∃ r, s.heap.sreallocfunc 0 old n alloc = some r ∧ s.Served 0 old n r := by
  obtain ⟨L, hrep, hown⟩ := hs
  obtain ⟨-, herase⟩ | ⟨h, -⟩ := hold.cases hown
  · unfold sreallocfunc
    by_cases h0 : n = 0
    · subst h0
      refine ⟨⟨s.heap, 0, none⟩, ?_, ⟨L, hrep, ?_⟩, absurd rfl, fun _ h => absurd rfl h⟩
      · rw [if_neg (by decide), if_neg (by simp), if_pos roundNew_zero, if_neg (by simp)]
      · unfold account
        rw [herase]
        exact hown
    obtain ⟨hle, hpos, h8, hlt⟩ := roundNew_spec h0 hn
    have hown' : HeapOwns L ([] ++ s.blocks.erase (0, roundOld old)) s.regions := by
      rw [herase]
      exact hown
    have hp : Found L ⟨none, 0, 0, some none⟩ 0 old [] := .inl ⟨rfl, rfl⟩
    obtain ⟨r, hr, hE⟩ := enlarge_spec hrep hown' hp ⟨[], L, rfl, rfl⟩ hpos h8 hlt (by simp)
      (hfresh.region hlt)
    refine ⟨r, ?_, .of_enlarged h0 hn ⟨L, hrep, hown⟩ (enlarged_nil _ hE) (absurd rfl)⟩
    rw [if_neg (by simp), if_neg (Nat.ne_of_gt hpos)]
    exact hr
  · exact absurd rfl h

theorem served_old (hold : s.Held data old) (hd : data ≠ 0) :
    ∃ r, s.heap.sreallocfunc data old n alloc = some r ∧ s.Served data old n r := by
  obtain ⟨L, hrep, hown⟩ := hs
  obtain ⟨h, -⟩ | ⟨-, hold0, hown1⟩ := hold.cases hown
  · exact absurd h hd
  have hok := owns_ok_out hown1 _ mem_cons_self
  have hlt := hok.lt_top
  have hle := le_roundOld hold.1 hok.len_pos
  have halign : data % 8 = 0 := Nat.mod_eq_zero_of_dvd hok.start_dvd
  unfold sreallocfunc
  rw [if_neg (by omega), if_pos ⟨hd, hold0⟩]
  by_cases heq : roundNew n = roundOld old
  · rw [if_pos heq]
    refine ⟨_, rfl, ⟨L, hrep, ?_⟩, fun _ _ i _ => rfl, fun h => absurd h hd⟩
    unfold account
    rw [if_pos hd, heq]
    exact hown1
  rw [if_neg heq]
  by_cases h0 : n = 0
  · subst h0
    obtain ⟨st', L', hrel, hrep', hown', -⟩ := release_owns hrep hown1
    rw [hrel]
    refine ⟨_, rfl, ⟨L', hrep', ?_⟩, absurd rfl, fun _ h => absurd rfl h⟩
    exact hown'
  obtain ⟨hnle, hpos, h8, hnlt⟩ := roundNew_spec h0 hn
  rw [if_neg (Nat.ne_of_gt hpos), entrySize, add32_of_lt hnlt]
  by_cases hshrink : roundNew n + 8 ≤ roundOld old
  · rw [if_pos hshrink, add32_of_lt (by omega), sub32_of_le (by omega)]
    have hsplit := hown1.split h8 hpos (by omega)
    obtain ⟨st', L', hrel, hrep', hown', hbytes⟩ := release_owns hrep (hsplit.perm (.swap _ _ _))
    rw [hrel]
    refine ⟨_, rfl, ⟨L', hrep', ?_⟩, ?_, fun h => absurd h hd⟩
    · unfold account
      rw [if_pos hd]
      exact hown'
    · intro _ _ i hi
      exact hbytes _ (covers_cons.mpr (.inl (by unfold In; dsimp only; omega)))
  rw [if_neg hshrink]
  have hgrow : roundOld old < roundNew n := by
    have hmod' := Nat.mod_eq_zero_of_dvd hok.len_dvd
    omega
  obtain ⟨pl, l, r, hscan, hat, hprev, hp, hfit⟩ := scan_place hrep hown1.spread
    (owns_ok_free hown1) hok (apartFrom_out hown1) (roundNew n)
  rw [hscan]
  obtain ⟨res, hr, hE⟩ := enlarge_spec (D := [(data, roundOld old)]) hrep hown1
    (.inr ⟨rfl, l, r, hat, hprev, hp⟩) hfit hpos h8 hnlt (fun _ => hgrow) (hfresh.region hnlt)
  exact ⟨res, hr, .of_enlarged h0 hn ⟨L, hrep, hown⟩ hE (fun _ => ⟨rfl, hle⟩)⟩

theorem served (hold : s.Held data old) :
    ∃ r, s.heap.sreallocfunc data old n alloc = some r ∧ s.Served data old n r := by
  by_cases hd : data = 0
  · subst hd
    exact served_new hs hfresh hn hold
  · exact served_old hs hfresh hn hold hd

end

theorem held_null : s.Held 0 0 := ⟨by decide, .inl rfl⟩

theorem Sound.of_bytes {t : HeapRun} (h : s.Sound) (hhead : t.heap.head = s.heap.head)
    (hnext : t.heap.next = s.heap.next) (hsize : t.heap.size = s.heap.size)
    (hb : t.blocks = s.blocks) (hr : t.regions = s.regions) : t.Sound := by
  obtain ⟨L, hrep, hown⟩ := h
  refine ⟨L, hrep.congr ?_ ?_, by rw [hb, hr]; exact hown⟩
  · intro c
    cases c with
    | none => exact hhead
    | some e => exact congrFun hnext e
  · intro f _
    rw [hsize]

theorem step_sound {o : HeapOp} (hs : s.Sound) (hl : s.Legal o) (hm : Modest o) :
    ∃ s', heapStep s o = some s' ∧ s'.Sound := by
  cases o with
  | smalloc n alloc =>
    obtain ⟨r, hr, hserved⟩ := served hs hl.2 hm held_null
    exact ⟨_, by rw [heapStep, hr]; rfl, hserved.sound⟩
  | scalloc n alloc =>
    obtain ⟨r, hr, hserved⟩ := served hs hl.2 hm held_null
    rw [heapStep, hr]
    refine ⟨_, rfl, hserved.sound.of_bytes ?_ ?_ ?_ rfl rfl⟩
    · dsimp only
      split <;> rfl
    · dsimp only
      split <;> rfl
    · dsimp only
      split <;> rfl
  | srealloc data old n alloc =>
    obtain ⟨r, hr, hserved⟩ := served hs hl.2.2 hm hl.2.1
    exact ⟨_, by rw [heapStep, hr]; rfl, hserved.sound⟩
  | sfree data old =>
    have hfresh : s.Fresh 0 none := by
      intro _ h
      cases h
    obtain ⟨r, hr, hserved⟩ := served hs hfresh (Nat.zero_le _) hl
    exact ⟨_, by rw [heapStep, hr]; rfl, hserved.sound⟩
  | write a v => exact ⟨_, rfl, hs.of_bytes rfl rfl rfl rfl rfl⟩

def Empty (s : HeapRun) : Prop := s.heap.head = 0 ∧ s.blocks = [] ∧ s.regions = []

abbrev Reached : HeapRun → Prop := Reach Empty (fun s o => s.Legal o ∧ Modest o) heapStep

theorem sound_of_empty (h : s.Empty) : s.Sound := by
  obtain ⟨hh, hb, hr⟩ := h
  refine ⟨[], ⟨hh, by simp⟩, ?_⟩
  rw [hb, hr]
  exact Owns.nil

theorem sound_of_reached (h : Reached s) : s.Sound :=
  h.invariant_of_total (fun _ => sound_of_empty) fun _ _ hs ho => step_sound hs ho.1 ho.2

/-- In every state reached the free list ascends without adjacent entries, its entries are aligned
and disjoint from the blocks that are out, and both together are what the callback returned; every
call returns, and `_srealloc` keeps the contents or, if it fails, everything. -/
theorem heap_kept (h : Reached s) : (∃ L, Rep s.heap L ∧ (L.Pairwise fun e f => e.1 + e.2 < f.1) ∧
      (∀ e ∈ L, e.1 % 8 = 0 ∧ 0 < e.2 ∧ e.2 % 8 = 0) ∧
      (∀ e ∈ L, ∀ b ∈ s.blocks, e.1 + e.2 ≤ b.1 ∨ b.1 + b.2 ≤ e.1) ∧
      total L + total s.blocks = total s.regions) ∧
    (∀ o, s.Legal o → Modest o → (heapStep s o).isSome) ∧
    ∀ data old n alloc, s.Legal (.srealloc data old n alloc) → n ≤ heapLimit →
      ∃ r, s.heap.sreallocfunc data old n alloc = some r ∧ (r.ptr ≠ 0 → data ≠ 0 → ∀ i < min old n,
          r.heap.bytes (r.ptr + i) = s.heap.bytes (data + i)) ∧
        (r.ptr = 0 → n ≠ 0 → r.heap = s.heap ∧ (s.account r data old n).blocks = s.blocks) := by
  have hs := sound_of_reached h
  refine ⟨?_, ?_, ?_⟩
  · obtain ⟨L, hrep, hown⟩ := hs
    refine ⟨L, hrep, hown.spread, ?_, ?_, hown.total⟩
    · intro e he
      have hok := owns_ok_free hown e he
      exact ⟨Nat.mod_eq_zero_of_dvd hok.start_dvd, hok.len_pos, Nat.mod_eq_zero_of_dvd hok.len_dvd⟩
    · intro e he b hb
      refine apartFrom_of_out (owns_ok_free hown) (owns_ok_out hown b hb) ?_ e he
      intro x hx hin
      exact hown.out x hx ⟨b, hb, hin⟩
  · intro o hl hm
    obtain ⟨s', hs', -⟩ := step_sound hs hl hm
    rw [hs']
    rfl
  · intro data old n alloc hl hn
    obtain ⟨r, hr, hserved⟩ := served hs hl.2.2 hn hl.2.1
    exact ⟨r, hr, hserved.copied, hserved.failed⟩

def empty : HeapRun := ⟨⟨0, fun _ => 0, fun _ => 0, fun _ => 0⟩, [], []⟩

theorem heap_kept_three_calls : ∃ s : HeapRun, Reached s ∧ s.blocks = [(0x1008, 24)] ∧
      ∃ L, Rep s.heap L ∧ total L + total s.blocks = 4096 := by
  refine exists_reach (s := empty) ⟨rfl, rfl, rfl⟩
    [.smalloc 8 (some (0x1000, 4096)), .smalloc 5 none, .sfree 0x1000 8, .srealloc 0x1008 5 20 none]
    (by decide +kernel) fun s hs
      (hq : s.blocks = [(0x1008, 24)] ∧ s.regions = [(0x1000, 4096)]) => ?_
  obtain ⟨hb, hr⟩ := hq
  obtain ⟨⟨L, hrep, -, -, -, htotal⟩, -, -⟩ := heap_kept hs
  refine ⟨hb, L, hrep, ?_⟩
  rw [htotal, hr]
  rfl

/-- A size whose header does not fit in a word: an entry of the list overlaps a block. -/
theorem smalloc_overlaps : ∃ s : HeapRun,
    Reach Empty Legal heapStep s ∧ (0x1000, 8) ∈ s.blocks ∧ s.heap.head = 0x1000 ∧
      s.heap.size 0x1000 = 4096 := by
  exact exists_reach (s := empty) ⟨rfl, rfl, rfl⟩
    [.smalloc 8 (some (0x1000, 4096)), .smalloc 0xFFFFFFF8 none]
    (by decide +kernel) fun _ _ hq => hq

end HeapRun

end Qnx.Ker
