import Mathlib.Algebra.Order.Group.Nat
import Qnx.Rsrc.Search

/-!
# Where the search for a range ends

Inside a block `rsrc_find_range` goes on from where `find_next_priority` says. A turn that moves the
start up, or the end down, is not repeated. Near the last address the next multiple of the
alignment, or the end of the place that begins there, comes out below the start, and the search may
go round.
-/

namespace Qnx.Rsrc.Db

open List
open Handler (Block)

/-! ### The next multiple -/

def alignUp (a x : Nat) : Nat := if x % a = 0 then x else x + (a - x % a)

section

variable {a x u : Nat} (ha : 0 < a)
include ha

theorem alignUp_spec (x : Nat) : a ∣ alignUp a x ∧ x ≤ alignUp a x ∧ alignUp a x < x + a := by
  have hlt := Nat.mod_lt x ha
  unfold alignUp
  split
  · exact ⟨Nat.dvd_of_mod_eq_zero ‹_›, Nat.le_refl x, by omega⟩
  · refine ⟨?_, by omega, by omega⟩
    have hd := Nat.dvd_add (Nat.dvd_sub_mod (n := a) x) (Nat.dvd_refl a)
    have := Nat.mod_le x a
    rwa [show x - x % a + a = x + (a - x % a) by omega] at hd

theorem alignUp_eq (hu : a ∣ u) (hx : x ≤ u) (hlt : u < x + a) : alignUp a x = u := by
  obtain ⟨hd, hle, hlt'⟩ := alignUp_spec ha x
  have h1 := Nat.eq_zero_of_dvd_of_lt (Nat.dvd_sub hd hu) (by omega)
  have h2 := Nat.eq_zero_of_dvd_of_lt (Nat.dvd_sub hu hd) (by omega)
  omega

end

/-! ### Requests and blocks -/

/-- Words of 64 bits, and an alignment of at least 1. -/
structure Find.Ok (r : Find) : Prop where
  length : r.length < 2 ^ 64
  pos : 0 < r.alignment
  alignment : r.alignment < 2 ^ 64

/-- An empty range takes a point too. -/
def Find.size (r : Find) : Nat := max r.length 1

/-- Between `lo` and `hi` a turn from `ts` wraps. Upwards the place that `ts` is moved to begins or
ends beyond the last address, and the next multiple after it, or the place itself, does not come out
below `lo`. Downwards this befalls only an empty range in a block of all addresses. -/
def Find.Wraps (r : Find) (lo hi ts : Nat) : Prop :=
  if r.topdown then r.length = 0 ∧ r.alignment ≠ 1 ∧ lo = 0 ∧ hi = ullMax
  else 2 ^ 64 < alignUp r.alignment ts + r.size ∧
    lo ≤ if alignUp r.alignment ts < 2 ^ 64 then r.alignment else alignUp r.alignment ts - 2 ^ 64

/-- Starts that the alignment moves to a place below `lo`. -/
def Find.Low (r : Find) (lo ts : Nat) : Prop := 0 < ts ∧ ts < r.alignment ∧ r.alignment < lo

variable {created : List Create} {r : Find} {ls le lo hi ts te s e v w fuel T : Nat} {b : Block}
  {saved : Option Match}

theorem size_eq (r : Find) : r.length = r.size ∨ r.length = 0 ∧ r.size = 1 := by
  unfold Find.size
  omega

theorem size_pos (r : Find) : 0 < r.size := Nat.le_max_right _ 1

/-! ### Priorities -/

/-- The next start is never below the place; one that ends before it begins only meets ranges that
lie over its start. -/
theorem nextLoop_up (cur s e : Nat) {l : List Create} (hl : ∀ c ∈ l, c.end_ < 2 ^ 64) (p v : Nat) :
    v ≤ nextLoop cur s e false l p v ∧
      (e < s → nextLoop cur s e false l p v = v ∨ s < nextLoop cur s e false l p v) := by
  induction l generalizing p v with
  | nil => exact ⟨Nat.le_refl v, fun _ => .inl rfl⟩
  | cons c l ih =>
    obtain ⟨hc, hl⟩ := forall_mem_cons.mp hl
    unfold nextLoop
    split
    · exact ⟨Nat.le_refl v, fun _ => .inl rfl⟩
    split
    swap
    · exact ih hl p v
    rename_i hm
    simp only [Create.meets, Bool.or_eq_true, Bool.and_eq_true, decide_eq_true_eq] at hm
    dsimp only
    split
    swap
    · exact ih hl _ v
    rw [if_neg (by decide)]
    obtain ⟨h1, h2⟩ := ih hl (max c.priority p) (max v (succ64 c.end_))
    refine ⟨by omega, fun hes => ?_⟩
    have hend : succ64 c.end_ = 0 ∨ s < succ64 c.end_ := by
      unfold succ64
      omega
    have := h2 hes
    omega

theorem nextLoop_down (cur s e : Nat) (l : List Create) (p v : Nat) :
    nextLoop cur s e true l p v ≤ v := by
  induction l generalizing p v with
  | nil => exact Nat.le_refl _
  | cons c l ih =>
    unfold nextLoop
    split
    · exact Nat.le_refl _
    split
    · refine Nat.le_trans (ih _ _) ?_
      split
      · rw [if_pos rfl]
        exact Nat.min_le_left _ _
      · exact Nat.le_refl _
    · exact ih _ _

theorem findNextPriority_up (hl : ∀ c ∈ created, c.end_ < 2 ^ 64)
    (h : findNextPriority created s e false = (v, true)) :
    v ≠ s ∧ (if e = ullMax then ullMax else e + 1) ≤ v ∧
      (e < s → v = (if e = ullMax then ullMax else e + 1) ∨ s < v) := by
  simp only [findNextPriority, Bool.false_eq_true, if_false, Prod.mk.injEq, decide_eq_true_eq] at h
  generalize (if e = ullMax then ullMax else e + 1) = v0 at h ⊢
  obtain ⟨rfl, h⟩ := h
  refine ⟨h, ?_⟩
  split
  · exact ⟨Nat.le_refl _, fun _ => .inl rfl⟩
  · exact nextLoop_up _ _ _ hl _ _

theorem findNextPriority_down (h : findNextPriority created s e true = (v, true)) :
    v ≠ e ∧ v ≤ (if s = 0 then 0 else s - 1) := by
  simp only [findNextPriority, if_true, Prod.mk.injEq, decide_eq_true_eq] at h
  obtain ⟨rfl, h⟩ := h
  refine ⟨h, ?_⟩
  split
  · exact Nat.le_refl _
  · exact nextLoop_down _ _ _ _ _ _

/-! ### Turns -/

theorem candidate_up (ht : r.topdown = false) (hts : ts < 2 ^ 64) (te : Nat) :
    candidate r ts te = (alignUp r.alignment ts % 2 ^ 64,
      (alignUp r.alignment ts % 2 ^ 64 + sub64 r.length 1) % 2 ^ 64) := by
  have hs : (if ts % r.alignment = 0 then ts
      else (ts + (r.alignment - ts % r.alignment)) % 2 ^ 64) = alignUp r.alignment ts % 2 ^ 64 := by
    unfold alignUp
    split
    · exact (Nat.mod_eq_of_lt hts).symm
    · rfl
  simp only [candidate, ht, Bool.false_eq_true, if_false, hs]

theorem place_end {len : Nat} (h : s + len ≤ 2 ^ 64) (hs : s < 2 ^ 64) :
    (s + sub64 len 1) % 2 ^ 64 = if s + len = 0 then ullMax else s + len - 1 := by
  unfold sub64 ullMax
  split <;> omega

/-- A turn from `ts` and `te` looks at the place from `s` to `e` and goes on with `v`. -/
structure Turn (created : List Create) (r : Find) (lo hi ts te s e v : Nat) : Prop where
  ord : ts ≤ te
  fit : r.length ≤ succ64 (te - ts)
  place : candidate r ts te = (s, e)
  low : lo ≤ s
  high : e ≤ hi
  prio : findRangePriority s e created 0 ≠ 0
  next : findNextPriority created s e r.topdown = (v, true)

/-- The search comes to `ts` and `te`. -/
inductive ComesTo (created : List Create) (r : Find) (lo hi : Nat) : Nat → Nat → Prop where
  | first : ComesTo created r lo hi lo hi
  | again {ts te s e v : Nat} : ComesTo created r lo hi ts te →
      Turn created r lo hi ts te s e v →
      ComesTo created r lo hi (if r.topdown then lo else v) (if r.topdown then v else hi)

/-- No turn that the search makes between `lo` and `hi` wraps. -/
def Straight (created : List Create) (r : Find) (lo hi : Nat) : Prop :=
  ∀ ts te s e v, ComesTo created r lo hi ts te → Turn created r lo hi ts te s e v →
    ¬r.Wraps lo hi ts

theorem Turn.goes (hmay : compatible r b = true)
    (h : Turn created r (max b.start ls) (min b.end_ le) ts te s e v) (fuel : Nat)
    (saved : Option Match) : ∃ saved', tryBlock created r ls le b (fuel + 1) ts te saved =
      tryBlock created r ls le b fuel (if r.topdown then max b.start ls else v)
        (if r.topdown then v else min b.end_ le) saved' := by
  obtain ⟨h1, h2, h3, h4, h5, h6, h7⟩ := h
  simp only [tryBlock, if_pos (show _ ∧ _ ∧ _ from ⟨hmay, h1, h2⟩), h3,
    if_neg (show ¬(s < max b.start ls ∨ min b.end_ le < e) by omega), if_neg h6, h7, if_true]
  exact ⟨_, by split <;> rfl⟩

theorem tryBlock_cases (fuel ts te : Nat) (saved : Option Match) :
    tryBlock created r ls le b (fuel + 1) ts te saved ≠ none ∨ compatible r b = true ∧
      ∃ s e v, Turn created r (max b.start ls) (min b.end_ le) ts te s e v := by
  unfold tryBlock
  split
  swap
  · exact .inl nofun
  rename_i hfit
  generalize hcand : candidate r ts te = p
  obtain ⟨s, e⟩ := p
  dsimp only
  split
  · exact .inl nofun
  rename_i hin
  split
  · exact .inl nofun
  rename_i hprio
  generalize hnext : findNextPriority created s e r.topdown = p
  obtain ⟨v, again⟩ := p
  cases again with
  | false => exact .inl nofun
  | true =>
    exact .inr ⟨hfit.1, s, e, v, hfit.2.1, hfit.2.2, hcand, by omega, by omega, hprio, hnext⟩

/-- A search whose turns all lower a bound ends. -/
theorem tryBlock_ends_of {I : Nat → Nat → Prop} {B : Nat → Nat → Nat}
    (h : compatible r b = true → ∀ {ts te s e v}, I ts te →
      Turn created r (max b.start ls) (min b.end_ le) ts te s e v →
      I (if r.topdown then max b.start ls else v) (if r.topdown then v else min b.end_ le) ∧
        B (if r.topdown then max b.start ls else v) (if r.topdown then v else min b.end_ le) <
          B ts te)
    (hI : I ts te) (fuel : Nat) (hf : B ts te < fuel) :
    tryBlock created r ls le b fuel ts te saved ≠ none := by
  induction fuel generalizing ts te saved with
  | zero => omega
  | succ fuel ih =>
    rcases tryBlock_cases fuel ts te saved with hm | ⟨hmay, s, e, v, hturn⟩
    · exact hm
    obtain ⟨saved', hgo⟩ := hturn.goes hmay fuel saved
    obtain ⟨hI, hlt⟩ := h hmay hI hturn
    rw [hgo]
    exact ih hI (by omega)

/-- One whose turns all lead to another one does not. -/
theorem tryBlock_rounds {I : Nat → Nat → Prop} (hmay : compatible r b = true)
    (h : ∀ {ts te}, I ts te → ∃ s e v,
      Turn created r (max b.start ls) (min b.end_ le) ts te s e v ∧
      I (if r.topdown then max b.start ls else v) (if r.topdown then v else min b.end_ le))
    (hI : I ts te) (fuel : Nat) : tryBlock created r ls le b fuel ts te saved = none := by
  induction fuel generalizing ts te saved with
  | zero => rfl
  | succ fuel ih =>
    obtain ⟨s, e, v, hturn, hI⟩ := h hI
    obtain ⟨saved', hgo⟩ := hturn.goes hmay fuel saved
    rw [hgo]
    exact ih hI

/-! ### Turns that do not wrap -/

section

variable (hhi : hi < 2 ^ 64) (h : Turn created r lo hi ts hi s e v) (ht : r.topdown = false)
include hhi h ht

theorem Turn.place_up : alignUp r.alignment ts % 2 ^ 64 = s ∧ (s + sub64 r.length 1) % 2 ^ 64 = e ∧
    ts + r.size ≤ hi + 1 := by
  have hp := h.place
  rw [candidate_up ht (Nat.lt_of_le_of_lt h.ord hhi), Prod.mk.injEq] at hp
  obtain ⟨rfl, he⟩ := hp
  refine ⟨rfl, he, ?_⟩
  have := h.ord
  have := h.fit
  have := size_eq r
  unfold succ64 at *
  omega

variable (hr : r.Ok)
include hr

theorem Turn.not_low : ¬r.Low lo ts := by
  rintro ⟨h0, hlt, hlo⟩
  obtain ⟨hs, -, -⟩ := h.place_up hhi ht
  rw [alignUp_eq hr.pos (Nat.dvd_refl _) (Nat.le_of_lt hlt) (by omega),
    Nat.mod_eq_of_lt hr.alignment] at hs
  have := h.low
  omega

variable (hl : ∀ c ∈ created, c.end_ < 2 ^ 64)
include hl

/-- The search goes up, or beyond the last address to a start from which it finds nothing. -/
theorem Turn.up (hc : ¬r.Wraps lo hi ts) : ts < v ∨ r.Low lo v := by
  rw [Find.Wraps, ht, if_neg Bool.false_ne_true, not_and_or, Nat.not_lt, Nat.not_le] at hc
  obtain ⟨hs, he, hfit⟩ := h.place_up hhi ht
  have hn := h.next
  rw [ht] at hn
  obtain ⟨hne, hv, hv'⟩ := findNextPriority_up hl hn
  obtain ⟨-, hge, hlt⟩ := alignUp_spec hr.pos ts
  have hsize := size_eq r
  have hpos := size_pos r
  by_cases hroom : alignUp r.alignment ts + r.size ≤ 2 ^ 64
  · left
    rw [Nat.mod_eq_of_lt (by omega)] at hs
    rw [place_end (by omega) (by omega)] at he
    unfold ullMax at *
    split at he <;> split at hv <;> omega
  have hlow := hc.resolve_left hroom
  have hlo := h.low
  have hlen := hr.length
  split at hlow
  · rw [Nat.mod_eq_of_lt ‹_›] at hs
    obtain ⟨w, hw⟩ : ∃ w, s + r.length = w + 2 ^ 64 := ⟨s + r.length - 2 ^ 64, by omega⟩
    have he : e = w - 1 := by
      unfold sub64 at he
      omega
    have hv' := hv' (by omega)
    rw [if_neg (by unfold ullMax; omega)] at hv'
    unfold Find.Low
    omega
  · omega

end

theorem Turn.down (hhi : hi < 2 ^ 64) (h : Turn created r lo hi lo te s e v)
    (ht : r.topdown = true) (hr : r.Ok) (hte : te ≤ hi) (hc : ¬r.Wraps lo hi lo) : v < te := by
  obtain ⟨hle, hfit, hs, hlo, he, -, hv⟩ := h
  rw [ht] at hv
  obtain ⟨h1, h2⟩ := findNextPriority_down hv
  simp only [candidate, ht, if_true, Prod.mk.injEq] at hs
  obtain ⟨hs, rfl⟩ := hs
  have hmod := Nat.mod_lt (sub64 te (sub64 r.length 1)) hr.pos
  have hdn : s ≤ sub64 te (sub64 r.length 1) ∧
      (s = sub64 te (sub64 r.length 1) ∨ r.alignment ≠ 1) := by
    rw [← hs]
    split <;> omega
  have hlen := hr.length
  rw [hs] at he h1
  unfold succ64 at hfit
  unfold sub64 at hdn he h1
  rw [Find.Wraps, if_pos ht] at hc
  unfold ullMax at hc
  split at h2 <;> omega

theorem tryBlock_ends (hr : r.Ok) (hb : b.end_ < 2 ^ 64) (hl : ∀ c ∈ created, c.end_ < 2 ^ 64)
    (hc : compatible r b = true → Straight created r (max b.start ls) (min b.end_ le)) :
    tryBlock created r ls le b (2 ^ 64 + 2) (max b.start ls) (min b.end_ le) saved ≠ none := by
  have hhi : min b.end_ le < 2 ^ 64 := by omega
  let come := ComesTo created r (max b.start ls) (min b.end_ le)
  cases ht : r.topdown with
  | true =>
    refine tryBlock_ends_of
      (I := fun ts te => come ts te ∧ ts = max b.start ls ∧ te ≤ min b.end_ le)
      (B := fun _ te => te) ?_ ⟨.first, rfl, Nat.le_refl _⟩ _ (by omega)
    rintro hmay _ te s e v ⟨hcome, rfl, hte⟩ h
    have := h.down hhi ht hr hte (hc hmay _ te s e v hcome h)
    refine ⟨⟨hcome.again h, ?_⟩, ?_⟩
    all_goals simp only [ht, if_true, true_and]; omega
  | false =>
    refine tryBlock_ends_of (I := fun ts te => come ts te ∧ te = min b.end_ le ∧
        (max b.start ls ≤ ts ∨ r.Low (max b.start ls) ts))
      (B := fun ts _ => if max b.start ls ≤ ts then 2 ^ 64 + 1 - ts else 0) ?_
      ⟨.first, rfl, .inl (Nat.le_refl _)⟩ _ (by split <;> omega)
    rintro hmay ts _ s e v ⟨hcome, rfl, hI⟩ h
    have hlo := hI.resolve_right (h.not_low hhi ht hr)
    have hup := h.up hhi ht hr hl (hc hmay ts _ s e v hcome h)
    have := h.ord
    refine ⟨⟨hcome.again h, ?_⟩, ?_⟩
    · simp only [ht, Bool.false_eq_true, if_false, true_and]
      exact hup.imp_left fun _ => by omega
    simp only [ht, Bool.false_eq_true, if_false, if_pos hlo]
    unfold Find.Low at hup
    split <;> omega

theorem tryBlocks_ends {l : List Block} (h : ∀ b ∈ l, b.start ≤ le → ∀ saved,
      tryBlock created r ls le b fuel (max b.start ls) (min b.end_ le) saved ≠ none)
    (saved : Option Match) : ∃ res, tryBlocks created r ls le fuel l saved = some res := by
  induction l generalizing saved with
  | nil => exact ⟨_, rfl⟩
  | cons b l ih =>
    obtain ⟨hb, hl⟩ := forall_mem_cons.mp h
    unfold tryBlocks
    split
    · exact ⟨_, rfl⟩
    split
    · exact absurd ‹_› (hb (by omega) saved)
    · exact ⟨_, rfl⟩
    · exact ih hl _

/-! ### Going round -/

/-- Everywhere and up to `T` a range is created, each with a priority. -/
def twice (T : Nat) : List Create := [⟨0, T, ⟨1, 1⟩, 0, 0⟩, ⟨0, ullMax, ⟨1, 1⟩, 0, 0⟩]

theorem priority_one (T : Nat) : Create.priority ⟨0, T, ⟨1, 1⟩, 0, 0⟩ = 1 := by
  simp [Create.priority]

theorem meets_from_zero (T s e : Nat) :
    Create.meets ⟨0, T, ⟨1, 1⟩, 0, 0⟩ s e = decide (s ≤ T) := by
  simp only [Create.meets]
  grind

theorem twice_priority (T e : Nat) (hs : s ≤ ullMax) : findRangePriority s e (twice T) 0 = 1 := by
  simp only [findRangePriority, twice, priority_one, meets_from_zero, hs, decide_true,
    decide_eq_true_eq, Nat.not_lt_zero, if_false, if_true]
  split <;> rfl

theorem twice_next (hT : T < ullMax) (he : e ≠ ullMax) (hs : s ≤ ullMax) :
    findNextPriority (twice T) s e false =
      (max (e + 1) (if s ≤ T then T + 1 else 0),
        decide (max (e + 1) (if s ≤ T then T + 1 else 0) ≠ s)) := by
  have hu : succ64 T = T + 1 := Nat.mod_eq_of_lt (by unfold ullMax at hT; omega)
  have hz : succ64 ullMax = 0 := by decide
  rw [findNextPriority, twice_priority T e hs]
  simp only [twice, nextLoop, meets_from_zero, priority_one, hu, hz, hs]
  by_cases hsT : s ≤ T <;> simp [hsT, he]

/-- The starts of a search that goes round: near the first address, or after `T`. -/
def Find.Round (r : Find) (lo T ts : Nat) : Prop :=
  ts ≤ r.alignment ∧ (ts = 0 → lo = 0) ∨ ts = T + 1

section

variable (ht : r.topdown = false) (hlen : r.length ≠ 0) (hhi : hi < 2 ^ 64)
  (hsize : r.alignment + r.length ≤ T + 1) (hT : T + r.length ≤ hi)
  (hfirst : lo = 0 → hi ≠ ullMax)
include ht hlen hhi hsize hT hfirst

theorem twice_turn {n : Nat} (hts : r.Round lo T ts) (hs : alignUp r.alignment ts % 2 ^ 64 = s)
    (hlo : lo ≤ s) (hn : (s + r.length) % 2 ^ 64 = n) (hpos : 0 < n) (hnhi : n ≤ hi)
    (hv : max n (if s ≤ T then T + 1 else 0) = v) (hne : v ≠ s) :
    Turn (twice T) r lo hi ts hi s (n - 1) v := by
  have hs64 : s ≤ ullMax := by
    rw [← hs]
    exact Nat.le_sub_one_of_lt (Nat.mod_lt _ (by decide))
  have hfit : ts + r.length ≤ hi + 1 ∧ (ts = 0 → hi ≠ ullMax) := by
    rcases hts with ⟨h1, h2⟩ | rfl
    · exact ⟨by omega, fun h => hfirst (h2 h)⟩
    · exact ⟨by omega, nofun⟩
  clear hts hfirst
  unfold ullMax at hfit
  refine ⟨by omega, by unfold succ64; omega, ?_, hlo, by omega, ?_, ?_⟩
  · rw [candidate_up ht (by omega), hs, Prod.mk.injEq]
    refine ⟨rfl, ?_⟩
    unfold sub64
    omega
  · rw [twice_priority T _ hs64]
    nofun
  · rw [ht, twice_next (by unfold ullMax; omega) (by unfold ullMax; omega) hs64,
      Nat.sub_add_cancel hpos, hv]
    simp [hne]

/-- From a place near the first address the search goes beyond `T`. -/
theorem twice_turn_low (hts : r.Round lo T ts) (hs : alignUp r.alignment ts % 2 ^ 64 = s)
    (hlo : lo ≤ s) (hsa : s ≤ r.alignment) :
    ∃ s e v, Turn (twice T) r lo hi ts hi s e v ∧ r.Round lo T v := by
  refine ⟨s, _, T + 1, twice_turn ht hlen hhi hsize hT hfirst hts hs hlo (Nat.mod_eq_of_lt ?_)
    ?_ ?_ ?_ ?_, .inr rfl⟩
  all_goals try omega
  rw [if_pos (by omega)]
  omega

theorem round_turn (hr : r.Ok) (hd : r.alignment ∣ T + r.alignment) (hlo : lo ≤ r.alignment)
    (hlo' : 2 ^ 64 ≤ T + r.alignment → lo + 2 ^ 64 ≤ T + r.alignment)
    (hu : 2 ^ 64 < T + r.alignment + r.length) (hts : r.Round lo T ts) :
    ∃ s e v, Turn (twice T) r lo hi ts hi s e v ∧ r.Round lo T v := by
  have low {s : Nat} := twice_turn_low (s := s) ht hlen hhi hsize hT hfirst hts
  rcases id hts with ⟨hle, h0⟩ | rfl
  · by_cases hz : ts = 0
    · exact low (s := 0) (by simp [alignUp, hz]) (by omega) (Nat.zero_le _)
    · rw [alignUp_eq hr.pos (Nat.dvd_refl _) hle (by omega), Nat.mod_eq_of_lt hr.alignment] at low
      exact low rfl hlo (Nat.le_refl _)
  have hup : alignUp r.alignment (T + 1) = T + r.alignment := alignUp_eq hr.pos hd
    (Nat.add_le_add_left hr.pos T) (by omega)
  by_cases hu64 : T + r.alignment < 2 ^ 64
  · obtain ⟨w, hw⟩ : ∃ w, T + r.alignment + r.length = w + 2 ^ 64 :=
      ⟨T + r.alignment + r.length - 2 ^ 64, by omega⟩
    refine ⟨_, _, w, twice_turn (n := w) ht hlen hhi hsize hT hfirst hts
      (hup ▸ Nat.mod_eq_of_lt hu64) ?_ ?_ ?_ ?_ ?_ ?_, .inl ⟨by omega, by omega⟩⟩
    · omega
    · rw [hup, hw, Nat.add_mod_right]
      exact Nat.mod_eq_of_lt (by omega)
    · omega
    · omega
    · rw [if_neg (by omega), Nat.max_zero]
    · omega
  · obtain ⟨s, hs⟩ : ∃ s, T + r.alignment = s + 2 ^ 64 := ⟨T + r.alignment - 2 ^ 64, by omega⟩
    exact low (s := s) (by omega) (by omega) (by omega)

end

theorem twice_rounds (hmay : compatible r b = true) (hr : r.Ok) (hlen : r.length ≠ 0)
    (hsize : r.alignment + r.length ≤ 2 ^ 63 + 1) (hb : b.end_ < 2 ^ 64)
    (hfit : ts + r.length ≤ min b.end_ le + 1)
    (hw : r.Wraps (max b.start ls) (min b.end_ le) ts)
    (hfirst : max b.start ls = 0 → min b.end_ le ≠ ullMax) : ∃ T < 2 ^ 64, ∀ fuel saved,
      tryBlock (twice T) r ls le b fuel (max b.start ls) (min b.end_ le) saved = none := by
  have ht : r.topdown = false := by
    by_contra ht
    simp [Find.Wraps, ht, hlen] at hw
  have hm : r.size = r.length := (size_eq r).elim Eq.symm fun h => absurd h.1 hlen
  rw [Find.Wraps, ht, if_neg Bool.false_ne_true, hm] at hw
  obtain ⟨hu, hlow⟩ := hw
  obtain ⟨hd, hge, hlt⟩ := alignUp_spec hr.pos ts
  generalize alignUp r.alignment ts = u at *
  obtain ⟨T, rfl⟩ : ∃ T, u = T + r.alignment := ⟨u - r.alignment, by omega⟩
  have hlow : max b.start ls ≤ r.alignment ∧
      (2 ^ 64 ≤ T + r.alignment → max b.start ls + 2 ^ 64 ≤ T + r.alignment) := by
    split at hlow <;> omega
  refine ⟨T, by omega, fun fuel saved => tryBlock_rounds (I := fun ts te => te = min b.end_ le ∧
    r.Round (max b.start ls) T ts) hmay ?_ ⟨rfl, .inl ⟨hlow.1, id⟩⟩ fuel⟩
  rintro ts _ ⟨rfl, hts⟩
  simp only [ht, Bool.false_eq_true, if_false, true_and]
  exact round_turn ht hlen (by omega) (by omega) (by omega) hfirst hr hd hlow.1 hlow.2 hu hts

/-- The search ends if none of its turns wraps. Where a start with room for the range wraps, its
restarts do not end for some created ranges, but in a block of all addresses, where the first turn
is the last; this for ranges that are not empty, with an alignment that is not beyond `2 ^ 63`. -/
theorem find_range_ends_iff (active : List Block) (r : Find) (ls le : Nat)
    (hb : ∀ b ∈ active, b.end_ < 2 ^ 64) (hr : r.Ok) :
    (∀ created : List Create, (∀ c ∈ created, c.end_ < 2 ^ 64) →
      (∀ b ∈ active, b.start ≤ le → compatible r b = true →
        Straight created r (max b.start ls) (min b.end_ le)) →
      ∃ fuel res, findRange created active r ls le fuel = some res) ∧
    (r.length ≠ 0 → r.alignment + r.length ≤ 2 ^ 63 + 1 → ∀ b ∈ active, compatible r b = true →
      (max b.start ls = 0 → min b.end_ le ≠ ullMax) → ∀ ts, ts + r.length ≤ min b.end_ le + 1 →
      r.Wraps (max b.start ls) (min b.end_ le) ts →
      ∃ created : List Create, (∀ c ∈ created, c.end_ < 2 ^ 64) ∧ ∀ fuel saved,
        tryBlock created r ls le b fuel (max b.start ls) (min b.end_ le) saved = none) := by
  constructor
  · intro created hl hc
    have hend : ∀ b ∈ active, b.start ≤ le → ∀ saved, tryBlock created r ls le b (2 ^ 64 + 2)
        (max b.start ls) (min b.end_ le) saved ≠ none := fun b hbl hle saved =>
      tryBlock_ends hr (hb b hbl) hl (hc b hbl hle)
    refine ⟨2 ^ 64 + 2, ?_⟩
    unfold findRange
    split
    · refine tryBlocks_ends (fun b hbl => hend b ?_) none
      exact ( takeWhile_prefix _).subset (mem_reverse.mp hbl)
    · exact tryBlocks_ends (fun b hbl => hend b ((dropWhile_suffix _).subset hbl)) none
  · intro hlen hsize b hbl hmay hfirst ts hfit hw
    obtain ⟨T, hT, hround⟩ := twice_rounds hmay hr hlen hsize (hb b hbl) hfit hw hfirst
    exact ⟨twice T, by simpa [twice, ullMax] using hT, hround⟩

/-- Upwards no turn wraps where no start with room for the range does. -/
theorem straight_of_room (hhi : hi < 2 ^ 64) (ht : r.topdown = false)
    (h : ∀ ts, ts + r.size ≤ hi + 1 → ¬r.Wraps lo hi ts) : Straight created r lo hi := by
  intro ts te s e v hcome hturn
  obtain rfl : te = hi := by
    cases hcome with
    | first => rfl
    | again _ _ => rw [ht, if_neg Bool.false_ne_true]
  exact h ts (hturn.place_up hhi ht).2.2

abbrev everywhere : List Create := [⟨0, 2 ^ 64 - 1, ⟨1, 1⟩, 0, 0⟩]

theorem find_range_ends_iff_pages : ∃ fuel res,
    findRange everywhere [⟨0, 2 ^ 64 - 1, 0, 0⟩] ⟨4096, 4096, 0, 0x200⟩ 0 (2 ^ 64 - 2) fuel =
      some res := by
  refine (find_range_ends_iff _ _ 0 _ (by decide) ⟨by decide, by decide, by decide⟩).1 everywhere
    (by decide)
    (forall_mem_singleton.mpr fun _ _ => straight_of_room (by decide) rfl fun ts h hw => ?_)
  have hw := hw.1
  dsimp only [Find.size, alignUp] at h hw
  split at hw <;> omega

abbrev halfway : Find := ⟨1, 2 ^ 63, 0, 0x200⟩

theorem halfway_rounds (fuel : Nat) (saved : Option Match) :
    let go := tryBlock everywhere halfway 0 (2 ^ 64 - 2) ⟨0, 2 ^ 64 - 1, 0, 0⟩ fuel
    go 0 (2 ^ 64 - 2) saved = none ∧ go 1 (2 ^ 64 - 2) saved = none ∧
      go (2 ^ 63 + 1) (2 ^ 64 - 2) saved = none := by
  induction fuel generalizing saved with
  | zero => exact ⟨rfl, rfl, rfl⟩
  | succ fuel ih => exact ⟨(ih _).2.1, (ih _).2.2, (ih _).2.1⟩

theorem find_range_never_ends : ¬∃ fuel res,
    findRange everywhere [⟨0, 2 ^ 64 - 1, 0, 0⟩] halfway 0 (2 ^ 64 - 2) fuel = some res := by
  rintro ⟨fuel, res, hres⟩
  rw [findRange, if_neg (by decide), dropWhile_cons_of_neg (by decide), tryBlocks,
    if_neg (by decide)] at hres
  split at hres
  · cases hres
  all_goals
    rename_i heq
    cases heq.symm.trans (halfway_rounds fuel none).1

end Qnx.Rsrc.Db
