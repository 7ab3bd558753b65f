import Qnx.Ker.TimerExpiry

/-!
# The next timer

`timer_next` looks at the first eligible timer of each slot. The lists are sorted by trigger time,
but what it compares are trigger times in TOD, and the sum with `nsec_tod_adjust` wraps.
-/

namespace Qnx.Ker

open Circular Run List Bool

namespace Wheel

def eligible (w : Wheel) (t : Tip) : Bool := !(w.timer t).softtime && !(w.timer t).pending

/-- The trigger time in TOD. -/
def inTod (w : Wheel) (t : Tip) : Nat :=
  if (w.timer t).todBased then (w.timer t).nsec else wrap64 ((w.timer t).nsec + w.nsecTodAdjust)

/-- The innermost loop of `timer_next`, from node `n`; `none` if it leaves the slot or takes
`fuel` rounds. -/
def firstEligible (w : Wheel) (first : Node) : Nat → Node → Option (Option Tip)
  | 0, _ => none
  | fuel + 1, n =>
    let n := w.links.next n
    if n = first then some none
    else match n with
      | .slot _ _ => none
      | .timer t => if w.eligible t then some (some t) else firstEligible w first fuel n

def nextInSlot (w : Wheel) (q : Qid) (tspec i : Nat) : Option Nat :=
  (w.firstEligible (.slot q i) ((w.queue q).numActive + 1) (.slot q i)).map fun
    | none => tspec
    | some t => if w.inTod t < tspec then w.inTod t else tspec

def nextInQueue (w : Wheel) (tspec : Nat) (q : Qid) : Option Nat :=
  if (w.queue q).numActive ≠ 0 then
    (List.range ((w.queue q).mask + 1)).foldlM (w.nextInSlot q) tspec
  else some tspec

def timerNext (w : Wheel) : Option Nat := w.queueHead.foldlM w.nextInQueue (2 ^ 64 - 1)

def Due (w : Wheel) (t : Tip) : Prop := (w.timer t).active = true ∧ w.eligible t = true

/-- `u` is due and stands before `t` in its slot, but comes later in TOD. -/
def Hides (w : Wheel) (u t : Tip) : Prop :=
  w.Due u ∧
    (∃ q, (w.timer u).queue = some q ∧ (w.timer t).queue = some q ∧ w.home q u = w.home q t) ∧
    (w.timer u).nsec < (w.timer t).nsec ∧ w.inTod t < w.inTod u

/-- From `m` down to `m'`, the trigger time of one of the timers `S` unless it is still `m`, and as
low as any of them. -/
structure Lowers (w : Wheel) (S : Tip → Prop) (m m' : Nat) : Prop where
  le : m' ≤ m
  least : ∀ t, S t → m' ≤ w.inTod t
  mem : m' = m ∨ ∃ t, S t ∧ w.inTod t = m'

variable {w : Wheel} {L : Lists}

theorem Lowers.trans {S T : Tip → Prop} {m m1 m2 : Nat} (h : w.Lowers S m m1)
    (h' : w.Lowers T m1 m2) : w.Lowers (fun t => S t ∨ T t) m m2 where
  le := h'.le.trans h.le
  least t ht := by
    rcases ht with ht | ht
    · exact h'.le.trans (h.least t ht)
    · exact h'.least t ht
  mem := by
    rcases h'.mem with rfl | ⟨t, ht, he⟩
    · exact h.mem.imp_right fun ⟨t, ht, he⟩ => ⟨t, .inl ht, he⟩
    · exact .inr ⟨t, .inr ht, he⟩

theorem lowers_foldlM {α : Type} {f : Nat → α → Option Nat} {S : α → Tip → Prop} {l : List α}
    (hf : ∀ x ∈ l, ∀ m, ∃ m', f m x = some m' ∧ w.Lowers (S x) m m') (m : Nat) :
    ∃ m', l.foldlM f m = some m' ∧ w.Lowers (fun t => ∃ x ∈ l, S x t) m m' := by
  induction l generalizing m with
  | nil => exact ⟨m, rfl, le_rfl, by simp, .inl rfl⟩
  | cons x l ih =>
    obtain ⟨m1, h1, hl1⟩ := hf x mem_cons_self m
    obtain ⟨m2, h2, hl2⟩ := ih (forall_mem_cons.mp hf).2 m1
    refine ⟨m2, by rw [foldlM_cons, h1]; exact h2, ?_⟩
    simpa using hl1.trans hl2

theorem firstEligible_eq {q : Qid} {i fuel : Nat} {l₁ l₂ : List Tip}
    (h : Circle w.links (.slot q i) ((l₁ ++ l₂).map .timer)) (hf : l₂.length < fuel) :
    w.firstEligible (.slot q i) fuel (lastOf (.slot q i) (l₁.map .timer)) =
      some (l₂.find? w.eligible) := by
  induction l₂ generalizing l₁ fuel with
  | nil =>
    obtain ⟨fuel, rfl⟩ := Nat.exists_eq_succ_of_ne_zero (hf.ne')
    rw [map_append] at h
    simp [firstEligible, h.next_last, firstOf]
  | cons x l ih =>
    obtain ⟨fuel, rfl⟩ := Nat.exists_eq_succ_of_ne_zero (Nat.ne_zero_of_lt hf)
    have h' : Circle w.links (.slot q i) (((l₁ ++ [x]) ++ l).map .timer) := by simpa using h
    have hrest := ih h' (Nat.lt_of_succ_lt_succ hf)
    rw [map_append, map_singleton, lastOf_concat] at hrest
    rw [map_append] at h
    cases hx : w.eligible x <;> simp [firstEligible, h.next_last, firstOf, hx, hrest]

/-- The first of its slot that is due. -/
def First (w : Wheel) (L : Lists) (k : Qid × Nat) (t : Tip) : Prop :=
  (L k).find? w.eligible = some t

/-- `timer_next` looks at `t`. -/
def Seen (w : Wheel) (L : Lists) (t : Tip) : Prop :=
  ∃ q ∈ w.queueHead, ∃ i ∈ range ((w.queue q).mask + 1), w.First L (q, i) t

theorem lowers_nextInSlot (g : Good w L w.pendingHead) {q : Qid} {i : Nat} (hq : q ∈ w.queueHead)
    (hi : i ≤ (w.queue q).mask) (m : Nat) :
    ∃ m', w.nextInSlot q m i = some m' ∧ w.Lowers (w.First L (q, i)) m m' := by
  have hok := g.queuesOk
  have hlen : (L (q, i)).length < (w.queue q).numActive + 1 := by
    rw [hok.count q hq]
    exact Nat.lt_succ_of_le (Finset.single_le_sum (f := fun i => (L (q, i)).length)
      (fun _ _ => Nat.zero_le _) (Finset.mem_range.mpr (Nat.lt_succ_of_le hi)))
  have hfirst : w.firstEligible (.slot q i) _ (.slot q i) = _ :=
    @firstEligible_eq w q i _ [] _ (hok.linked q i (g.rep.fresh q hq) hi) hlen
  unfold nextInSlot First
  rw [hfirst]
  cases (L (q, i)).find? w.eligible with
  | none => exact ⟨m, rfl, le_rfl, nofun, .inl rfl⟩
  | some f =>
    refine ⟨_, rfl, ?_⟩
    dsimp only
    split
    · rename_i hlt
      exact ⟨hlt.le, fun t ht => by cases ht; exact le_rfl, .inr ⟨f, rfl, rfl⟩⟩
    · rename_i hge
      exact ⟨le_rfl, fun t ht => by cases ht; exact not_lt.mp hge, .inl rfl⟩

theorem lowers_nextInQueue (g : Good w L w.pendingHead) {q : Qid} (hq : q ∈ w.queueHead) (m : Nat) :
    ∃ m', w.nextInQueue m q = some m' ∧
      w.Lowers (fun t => ∃ i ∈ range ((w.queue q).mask + 1), w.First L (q, i) t) m m' := by
  unfold nextInQueue
  split
  · refine lowers_foldlM (fun i hi m => ?_) m
    exact lowers_nextInSlot g hq (Nat.le_of_lt_succ (mem_range.mp hi)) m
  rename_i h0
  refine ⟨m, rfl, le_rfl, ?_, .inl rfl⟩
  rintro t ⟨i, hi, ht⟩
  have hc := g.queuesOk.count q hq
  rw [not_not.mp h0] at hc
  have := (Finset.sum_eq_zero_iff.mp hc.symm) i (Finset.mem_range.mpr (mem_range.mp hi))
  rw [First, length_eq_zero_iff.mp this] at ht
  cases ht

section First

variable (g : Good w L w.pendingHead)
include g

theorem lowers_timerNext : ∃ m, w.timerNext = some m ∧ w.Lowers (w.Seen L) (2 ^ 64 - 1) m :=
  lowers_foldlM (f := w.nextInQueue) (fun _ hq m => lowers_nextInQueue g hq m) _

theorem First.due {k : Qid × Nat} {t : Tip} (h : w.First L k t) : w.Due t :=
  ⟨(g.rep.active_of_mem (mem_of_find?_eq_some h)).1, find?_some h⟩

/-- Nothing due stands before the first. -/
theorem First.nsec_le {k : Qid × Nat} {f t : Tip} (h : w.First L k f) (ht : t ∈ L k)
    (hd : w.Due t) : (w.timer f).nsec ≤ (w.timer t).nsec := by
  obtain ⟨-, l₁, l₂, hl, hbefore⟩ := find?_eq_some_iff_append.mp h
  have hsort := g.rep.sorted k
  rw [hl] at ht hsort
  rcases mem_append.mp ht with h1 | h1
  · simpa [hd.2] using hbefore t h1
  rcases mem_cons.mp h1 with rfl | h2
  · exact le_rfl
  · exact (pairwise_cons.mp (pairwise_append.mp hsort).2.1).1 t h2

theorem First.not_hides {k : Qid × Nat} {f : Tip} (h : w.First L k f) (u : Tip) :
    ¬w.Hides u f := by
  rintro ⟨hd, ⟨q, hu, hf, he⟩, hlt, -⟩
  obtain ⟨-, -, hq, hk⟩ := (g.rep.mem_iff f k).mp (mem_of_find?_eq_some h)
  obtain rfl : k.1 = q := Option.some.inj (hq.symm.trans hf)
  have hmem : u ∈ L k := (g.rep.mem_iff u k).mpr ⟨by simp, hd.1, hu, hk.trans he.symm⟩
  exact absurd (h.nsec_le g hmem hd) (not_le.mpr hlt)

/-- The slot of a timer that is due has a first one, which comes no later or hides it. -/
theorem exists_first {t : Tip} (hd : w.Due t) : ∃ f, w.Seen L f ∧
    (w.inTod f ≤ w.inTod t ∨ w.Hides f t ∧ w.inTod f < 2 ^ 64) := by
  obtain ⟨q, hq, hqt, hk⟩ := g.queuesOk.place t hd.1
  have hmem : t ∈ L (w.home q t) := (hk _).mpr rfl
  obtain ⟨f, hf⟩ := Option.isSome_iff_exists.mp (find?_isSome.mpr ⟨t, hmem, hd.2⟩)
  have hfirst : w.First L (w.home q t) f := hf
  obtain ⟨-, ha, hqf, hkf⟩ := (g.rep.mem_iff f _).mp (mem_of_find?_eq_some hf)
  refine ⟨f, ⟨q, hq, _, mem_range.mpr (Nat.lt_succ_of_le Nat.and_le_right), hf⟩, ?_⟩
  have hle := hfirst.nsec_le g hmem hd
  obtain ⟨q', -, hq', hb'⟩ := g.rep.owned f (by simp) ha
  obtain ⟨q'', -, hq'', hb''⟩ := g.rep.owned t (by simp) hd.1
  cases hqf.symm.trans hq'
  cases hqt.symm.trans hq''
  have htod : (w.timer f).todBased = (w.timer t).todBased := hb'.symm.trans hb''
  by_cases h : w.inTod f ≤ w.inTod t
  · exact .inl h
  refine .inr ⟨⟨hfirst.due g, ⟨q, hqf, hqt, hkf.symm⟩, ?_, not_le.mp h⟩, ?_⟩
  · refine lt_of_le_of_ne hle fun he => h ?_
    rw [inTod, inTod, htod, he]
  · unfold inTod at h ⊢
    rw [htod] at h ⊢
    split
    · rename_i hb
      rw [if_pos hb, if_pos hb] at h
      exact absurd hle h
    · exact Nat.mod_lt _ (by decide)

end First

/-- `timer_next` is the least trigger time if and only if some timer that is not hidden has it. -/
theorem timer_next_least_iff {w : Wheel} (h : Reach Init Entry step w) :
    ∃ m, w.timerNext = some m ∧
      (((∀ t, w.Due t → m ≤ w.inTod t) ∧ (m = 2 ^ 64 - 1 ∨ ∃ t, w.Due t ∧ w.inTod t = m)) ↔
        ∀ t, w.Due t → ∃ u, w.Due u ∧ w.inTod u ≤ w.inTod t ∧ ∀ v, ¬w.Hides v u) := by
  obtain ⟨L, g⟩ := reach_good h
  obtain ⟨m, hm, hl⟩ := lowers_timerNext g
  refine ⟨m, hm, fun ⟨hle, _⟩ t hd => ?_, fun hu => ⟨fun t hd => ?_, ?_⟩⟩
  · rcases hl.mem with rfl | ⟨f, ⟨q, -, i, -, hf⟩, rfl⟩
    · obtain ⟨f, ⟨q, -, i, -, hf⟩, hft⟩ := exists_first g hd
      have := hle t hd
      exact ⟨f, hf.due g, by omega, hf.not_hides g⟩
    · exact ⟨f, hf.due g, hle t hd, hf.not_hides g⟩
  · obtain ⟨u, hud, hut, hun⟩ := hu t hd
    obtain ⟨f, hf, hfu⟩ := exists_first g hud
    exact ((hl.least f hf).trans (hfu.resolve_right fun h => hun f h.1)).trans hut
  · exact hl.mem.imp_right fun ⟨f, ⟨q, _, i, _, hf⟩, he⟩ => ⟨f, hf.due g, he⟩

/-- TOD is set to 0 after the time of the first timer, and the two others share a slot. -/
theorem timer_next_least_iff_three : ∃ w, Reach Init Entry step w ∧ w.linkedTimers = [1, 3, 2] ∧
    w.inTod 1 = 2 ^ 64 - 2 ∧ w.home 1 2 = w.home 1 3 ∧ ∃ m, w.timerNext = some m ∧
      (∀ t, w.Due t → m ≤ w.inTod t) ∧ (m = 2 ^ 64 - 1 ∨ ∃ t, w.Due t ∧ w.inTod t = m) := by
  refine exists_reach (s := bare.timerInit) (Q := fun w => (w.linkedTimers = [1, 3, 2] ∧
      w.inTod 1 = 2 ^ 64 - 2 ∧ w.home 1 2 = w.home 1 3) ∧
      ((w.timer 3).active = true ∧ w.eligible 3 = true ∧ (w.timer 3).queue = some 1) ∧
      ∀ t ∈ [1, 3, 2], w.inTod 3 ≤ w.inTod t ∧
        ((w.timer t).nsec < (w.timer 3).nsec → w.home 1 t ≠ w.home 1 3))
    init_bare
    [.setTimer 1 (relative 4 0), .setTimer 2 (relative 13 0), .setTimer 3 (relative 9 0),
      .activate 1, .activate 2, .activate 3, .clock 6 (2 ^ 64 - 6)] (by decide +kernel) ?_
  rintro w h ⟨⟨hl, hs⟩, ⟨ha, he, hq⟩, hall⟩
  obtain ⟨L, g⟩ := reach_good h
  have hmem : ∀ t, w.Due t → t ∈ [1, 3, 2] := fun t hd =>
    have ⟨_, hk⟩ := g.rep.mem_of_active hd.1
    hl ▸ mem_linkedTimers g.rep hk
  obtain ⟨m, hm, hiff⟩ := timer_next_least_iff h
  refine ⟨hl, hs.1, hs.2, m, hm, hiff.mpr fun t hd => ⟨3, ⟨ha, he⟩, (hall t (hmem t hd)).1, ?_⟩⟩
  rintro v ⟨hv, ⟨q, -, hq3, hh⟩, hlt, -⟩
  cases hq.symm.trans hq3
  exact (hall v (hmem v hv)).2 hlt hh

/-- TOD is set to 0 while a timer is overdue: its trigger time wraps, and hides the one behind. -/
theorem timer_next_not_least : ∃ w, Reach Init Entry step w ∧
    w.timerNext = some (2 ^ 64 - 2) ∧ w.Due 2 ∧ w.inTod 2 = 2 := by
  obtain ⟨w, h, hq⟩ := reach_bare.replay_any
    [.setTimer 1 (relative 4 0), .setTimer 2 (relative 8 0), .activate 1, .activate 2,
      .clock 6 (2 ^ 64 - 6)]
    (fun w => w.timerNext == some (2 ^ 64 - 2) && (w.timer 2).active && w.eligible 2 &&
      w.inTod 2 == 2) (by decide +kernel)
  simp only [and_eq_true, beq_iff_eq] at hq
  exact ⟨w, h, hq.1.1.1, ⟨hq.1.1.2, hq.1.2⟩, hq.2⟩

end Wheel

end Qnx.Ker
