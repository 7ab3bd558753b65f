import Qnx.Ker.TimerSweep
import Qnx.Ker.TimerRun

/-!
# A whole call of `timer_expiry`

The outer loop over the queues. A call that neither of its limits stops, and in which the round
over each queue begins early enough, leaves no timer behind that was due.
-/

namespace Qnx.Ker

open Circular List

namespace Wheel

def slotTimers (w : Wheel) : Nat → Node → List Tip
  | fuel + 1, .timer t => t :: slotTimers w fuel (w.links.next (.timer t))
  | _, _ => []

def linkedTimers (w : Wheel) : List Tip :=
  w.queueHead.flatMap fun q => (range ((w.queue q).mask + 1)).flatMap fun i =>
    w.slotTimers (w.queue q).numActive (w.links.next (.slot q i))

section Linked
variable {w : Wheel} {L : Lists}

theorem slotTimers_eq {s : Qid × Nat} (fuel : Nat) : ∀ {l1 l2 : List Tip},
    Circle w.links (slotNode s) ((l1 ++ l2).map .timer) → l2.length ≤ fuel →
    w.slotTimers fuel (firstOf (slotNode s) (l2.map .timer)) = l2 := by
  induction fuel with
  | zero =>
    intro l1 l2 _ hlen
    rw [eq_nil_of_length_eq_zero (Nat.le_zero.mp hlen)]
    rfl
  | succ fuel ih =>
    intro l1 l2 hc hlen
    cases l2 with
    | nil => rfl
    | cons t l2 =>
      have hc' : Circle w.links (slotNode s) (((l1 ++ [t]) ++ l2).map .timer) := by simpa using hc
      have hnext := hc
      rw [map_append] at hnext
      show t :: w.slotTimers fuel (w.links.next (.timer t)) = t :: l2
      rw [hnext.next_mem, ih hc' (by simpa using hlen)]

section

variable (h : Rep w L none)
include h

theorem slotTimers_slot {q : Qid} {i : Nat} (hs : w.Slot (q, i)) :
    w.slotTimers (w.queue q).numActive (w.links.next (.slot q i)) = L (q, i) := by
  have hc := h.circles.circle hs
  have hc0 : Circle w.links (slotNode (q, i)) ([] ++ (L (q, i)).map .timer) := hc
  have hn : w.links.next (.slot q i) = firstOf (slotNode (q, i)) ((L (q, i)).map .timer) :=
    hc0.next_last
  rw [hn]
  have hc1 : Circle w.links (slotNode (q, i)) (([] ++ L (q, i)).map .timer) := hc
  exact slotTimers_eq _ hc1 (h.length_le hs)

theorem Rep.exists_mem {q : Qid} (hq : q < w.nqueues)
    (hz : (w.queue q).numActive ≠ 0) : ∃ i t, t ∈ L (q, i) := by
  rw [h.count q hq] at hz
  obtain ⟨i, -, hi⟩ := Finset.exists_ne_zero_of_sum_ne_zero hz
  exact ⟨i, exists_mem_of_length_pos (Nat.pos_of_ne_zero hi)⟩

theorem mem_linkedTimers {k : Qid × Nat} {t : Tip} (hk : t ∈ L k) : t ∈ w.linkedTimers := by
  obtain ⟨ha, hq⟩ := h.active_of_mem hk
  obtain ⟨q, hqm, hq', -⟩ := h.owned t (by simp) ha
  obtain rfl : q = k.1 := Option.some.inj (hq'.symm.trans hq)
  have hs := h.slot_of_mem hk
  refine mem_flatMap.mpr ⟨k.1, hqm, mem_flatMap.mpr ⟨k.2, ?_, ?_⟩⟩
  · exact mem_range.mpr (Nat.lt_succ_of_le hs.2)
  · rw [slotTimers_slot h hs]
    exact hk

theorem nodup_linkedTimers (hs : Shape w) : w.linkedTimers.Nodup := by
  have hslot : ∀ q ∈ w.queueHead, ∀ i ∈ range ((w.queue q).mask + 1), w.Slot (q, i) :=
    fun q hq i hi => ⟨h.fresh q hq, Nat.le_of_lt_succ (mem_range.mp hi)⟩
  refine nodup_flatMap.mpr ⟨fun q hq => nodup_flatMap.mpr ⟨fun i hi => ?_, ?_⟩, ?_⟩
  · rw [slotTimers_slot h (hslot q hq i hi)]
    exact h.nodup _
  · refine Pairwise.imp_of_mem (fun {i j} hi hj hij t hti htj => ?_)
      (nodup_range : (range ((w.queue q).mask + 1)).Nodup)
    dsimp only at hti htj
    rw [slotTimers_slot h (hslot q hq i hi)] at hti
    rw [slotTimers_slot h (hslot q hq j hj)] at htj
    exact hij (congrArg Prod.snd (h.eq_of_mem hti htj))
  · refine Pairwise.imp_of_mem (fun {q r} hq hr hqr t htq htr => ?_) hs.nodup
    obtain ⟨i, hi, hti⟩ := mem_flatMap.mp htq
    obtain ⟨j, hj, htj⟩ := mem_flatMap.mp htr
    rw [slotTimers_slot h (hslot q hq i hi)] at hti
    rw [slotTimers_slot h (hslot r hr j hj)] at htj
    exact hqr (congrArg Prod.fst (h.eq_of_mem hti htj))

end

end Linked

/-- The round over `q` will begin at the slot of the time `last` or before it. -/
def Covers (w : Wheel) (last : Nat) (q : Qid) : Prop :=
  slotsLeft (w.queue q).mask (getQueueIdx (w.queue q) last)
      (getQueueIdx (w.queue q) (w.snapTime (w.queue q).tod)) ≤
    slotsLeft (w.queue q).mask
      (firstIdx (w.queue q) (getQueueIdx (w.queue q) (w.snapTime (w.queue q).tod)))
      (getQueueIdx (w.queue q) (w.snapTime (w.queue q).tod))

instance (w : Wheel) (last : Nat) (q : Qid) : Decidable (w.Covers last q) :=
  inferInstanceAs (Decidable (_ ≤ _))

section Expiry
variable {last : Bool → Nat} {K : Bool → Prop} {ctx : Ctx} {w v : Wheel} {L : Lists}
  {S : List Tip} {qs : List Qid} {q : Qid} {M : Lists} {tod nf : Nat} {adjusted : Bool}

/-- `v` comes after `w` in a call that has the queues `qs` still to do. -/
structure Since (w : Wheel) (qs : List Qid) (v : Wheel) : Prop where
  queue : ∀ r, (v.queue r).downshift = (w.queue r).downshift ∧
    (v.queue r).mask = (w.queue r).mask ∧ (v.queue r).tod = (w.queue r).tod
  idx : ∀ r ∈ qs, (v.queue r).fireIdx = (w.queue r).fireIdx ∧
    (v.queue r).lastTickIdx = (w.queue r).lastTickIdx
  head : ∀ b, v.head b = w.head b
  nsec : v.nsec = w.nsec
  nsecTodAdjust : v.nsecTodAdjust = w.nsecTodAdjust

theorem Since.turn {v' : Wheel} (h : Since w (q :: qs) v) (ht : Turn q v v') (hq : q ∉ qs) :
    Since w qs v' := by
  refine ⟨fun r => ?_, fun r hr => ?_, fun b => ?_, ht.nsec.trans h.nsec,
    ht.nsecTodAdjust.trans h.nsecTodAdjust⟩
  · rw [ht.queue]
    exact h.queue r
  · have hrq : r ≠ q := fun e => hq (e ▸ hr)
    obtain ⟨h1, h2⟩ := ht.others r hrq
    rw [h1, h2]
    exact h.idx r (mem_cons_of_mem q hr)
  · rw [← h.head b]
    cases b
    · exact ht.monTimers
    · exact ht.todTimers

theorem firstIdx_congr {tq tq' : TimerQueue} (hm : tq'.mask = tq.mask)
    (hf : tq'.fireIdx = tq.fireIdx) (hl : tq'.lastTickIdx = tq.lastTickIdx) (curr : Nat) :
    firstIdx tq' curr = firstIdx tq curr := by
  unfold firstIdx
  rw [hm, hf, hl]

theorem Since.covers (h : Since w qs v) (hq : q ∈ qs) (l : Nat) : v.Covers l q ↔ w.Covers l q := by
  obtain ⟨h1, h2, h3⟩ := h.queue q
  obtain ⟨h4, h5⟩ := h.idx q hq
  simp only [Covers, getQueueIdx_congr h1 h2, firstIdx_congr h2 h4 h5, h2, h3,
    snapTime_congr h.nsec h.nsecTodAdjust]

structure Ordered (w : Wheel) (qs : List Qid) : Prop where
  pairwise : qs.Pairwise fun a r =>
    w.head (w.queue r).tod ≠ a ∧ ((w.queue a).tod = true → (w.queue r).tod = true)
  heads : ∀ r ∈ qs, w.head (w.queue r).tod ∈ qs

theorem Ordered.tail (h : Ordered w (q :: qs)) : Ordered w qs := by
  obtain ⟨h1, h2⟩ := pairwise_cons.mp h.pairwise
  refine ⟨h2, fun r hr => ?_⟩
  exact (mem_cons.mp (h.heads r (mem_cons_of_mem q hr))).resolve_left (h1 r hr).1

theorem Shape.ordered (hs : Shape w) : Ordered w w.queueHead := by
  refine ⟨?_, fun r _ => hs.head_mem _⟩
  obtain ⟨ms, ts, he, hms, hts⟩ := hs.order
  have hnd := hs.nodup
  have htod : (w.queue w.todTimers).tod = true := hs.tod true
  rw [he] at hnd ⊢
  obtain ⟨-, hnd2, hdis⟩ := nodup_append.mp hnd
  obtain ⟨hnotMon, hnd3⟩ := nodup_cons.mp hnd2
  obtain ⟨-, -, hdis'⟩ := nodup_append.mp hnd3
  have hlate : ∀ r ∈ ts ++ [w.todTimers], (w.queue r).tod = true := by
    intro r hr
    rcases mem_append.mp hr with hr | hr
    · exact hts r hr
    · rw [mem_singleton.mp hr, htod]
  -- A queue of the list is never the one that takes the new timers of a queue after it.
  have hbefore : ∀ a ∈ ms, ∀ r, w.head (w.queue r).tod ≠ a := by
    intro a ha r e
    cases hb : (w.queue r).tod
    · rw [hb] at e
      exact hdis a ha w.monTimers (by simp) e.symm
    · rw [hb] at e
      exact hdis a ha w.todTimers (by simp) e.symm
  refine pairwise_append.mpr ⟨?_, pairwise_cons.mpr ⟨fun r hr => ?_,
    pairwise_append.mpr ⟨?_, pairwise_singleton _ _, fun a ha r hr => ?_⟩⟩,
    fun a ha r _ => ?_⟩
  · refine pairwise_of_forall_mem_list fun a ha r _ => ⟨hbefore a ha r, fun h => ?_⟩
    rw [hms a ha] at h
    cases h
  · have hrt := hlate r hr
    refine ⟨fun e => hnotMon ?_, fun _ => hrt⟩
    rw [hrt] at e
    exact e ▸ mem_append_right ts (mem_singleton_self w.todTimers)
  · refine pairwise_of_forall_mem_list fun a ha r hr => ⟨fun e => ?_, fun _ => hts r hr⟩
    rw [hts r hr] at e
    exact hdis' a ha w.todTimers (by simp) e.symm
  · obtain rfl := mem_singleton.mp hr
    refine ⟨fun e => ?_, fun _ => htod⟩
    rw [htod] at e
    exact hdis' a ha w.todTimers (by simp) e.symm
  · refine ⟨hbefore a ha r, fun h => ?_⟩
    rw [hms a ha] at h
    cases h

structure Progress (last : Bool → Nat) (K : Bool → Prop) (w : Wheel) (qs : List Qid) (v : Wheel)
    (M : Lists) (tod : Nat) (adjusted : Bool) (nf : Nat) : Prop where
  nodup : qs.Nodup
  sub : ∀ q ∈ qs, q ∈ w.queueHead
  since : Since w qs v
  ordered : Ordered w qs
  clock : tod = w.snapTime adjusted
  adjusted : adjusted = true → ∀ r ∈ qs, (w.queue r).tod = true
  sweep : ∃ S, Sweep last K v M nf (fun k _ => k.1 ∈ qs) S

section

variable {c : Nat × Bool} (h : Progress last K w (q :: qs) v M tod adjusted nf)
include h

theorem Progress.clockFor :
    v.clockFor q tod adjusted = (w.snapTime (w.queue q).tod, (w.queue q).tod) := by
  have htod := (h.since.queue q).2.2
  have hc := h.clock
  have ha := h.adjusted
  cases hb : (w.queue q).tod <;> cases adjusted <;>
    simp_all [Wheel.clockFor, snapTime, h.since.nsecTodAdjust]

theorem Progress.next {M' : Lists} {v' : Wheel} {nf' : Nat} (hc : v.clockFor q tod adjusted = c)
    (ht : Turn q v v')
    (hs : ∃ S, Sweep last K v' M' nf' (fun k _ => k.1 ∈ qs) S) :
    Progress last K w qs v' M' c.1 c.2 nf' := by
  obtain ⟨hnot, hnd⟩ := nodup_cons.mp h.nodup
  rw [← hc, h.clockFor]
  exact ⟨hnd, (forall_mem_cons.mp h.sub).2, h.since.turn ht hnot, h.ordered.tail,
    rfl, fun hb r hr => ((pairwise_cons.mp h.ordered.pairwise).1 r hr).2 hb, hs⟩

theorem Progress.skip (hg : Rep v M none) (hz : (v.queue q).numActive = 0) :
    ∃ S, Sweep last K v M nf (fun k _ => k.1 ∈ qs) S := by
  obtain ⟨S, hs⟩ := h.sweep
  refine ⟨S, hs.mono (fun k t _ hk => mem_cons_of_mem q hk) fun k t hk _ _ hm => ?_⟩
  refine (mem_cons.mp hm).resolve_left fun e => ?_
  have hlen := hg.length_le (hg.slot_of_mem hk)
  rw [e, hz] at hlen
  rw [eq_nil_of_length_eq_zero (Nat.le_zero.mp hlen)] at hk
  cases hk

/-- Every timer in a slot that is not pending is for a time after `last`. -/
def Later (last : Bool → Nat) (w : Wheel) (L : Lists) : Prop :=
  ∀ k t, t ∈ L k → (w.timer t).pending = false → last (w.timer t).todBased < (w.timer t).nsec

theorem Progress.round (hctx : ctx ≠ .task) (hr : Ready ctx v M) (hq : q ∈ v.queueHead)
    (hc : v.clockFor q tod adjusted = c) (hz : (v.queue q).numActive ≠ 0)
    (hadv : w.snapTime (w.queue q).tod ≤ last (w.queue q).tod + 2 ^ (w.queue q).downshift)
    (hcover : K (w.queue q).tod → w.Covers (last (w.queue q).tod) q) :
    ∃ v' M' nf', v.expiryQueue ctx q c.1 (getQueueIdx (v.queue q) c.1) nf = some (v', nf', false) ∧
      Ready ctx v' M' ∧ Turn q v v' ∧ v'.queueHead = v.queueHead ∧
      ∃ S, Sweep last K v' M' nf' (fun k _ => k.1 ∈ qs) S := by
  obtain ⟨S, hs⟩ := h.sweep
  obtain ⟨hdown, -, htod⟩ := h.since.queue q
  have hsnap := snapTime_congr h.since.nsec h.since.nsecTodAdjust
  have hK : K (w.queue q).tod := by
    obtain ⟨i, t, hk⟩ := hr.good.rep.exists_mem (hr.good.rep.fresh q hq) hz
    exact htod ▸ hs.kinds (q, i) t hk
  have hcov := (h.since.covers mem_cons_self _).mpr (hcover hK)
  have hhead : v.head (w.queue q).tod = q ∨ v.head (w.queue q).tod ∈ qs := by
    rw [h.since.head]
    exact mem_cons.mp (h.ordered.heads q mem_cons_self)
  unfold Covers at hcov
  rw [htod] at hcov
  rw [← hc, h.clockFor]
  simp only [← hsnap] at hadv ⊢
  obtain ⟨v', M', nf', S', he, hr', ht, hh, hs'⟩ := expiryQueue_sweep hctx hr hq
    htod (hdown ▸ hadv) hcov (nodup_cons.mp h.nodup).1 hhead
    (hs.mono (fun k t _ hk => mem_cons.mpr hk) fun k t _ _ _ hk => mem_cons.mp hk)
  exact ⟨v', M', nf', he, hr', ht, hh, S', hs'⟩

end

theorem Sweep.setIdx {Todo : Qid × Nat → Tip → Prop}
    (h : Sweep last K v M nf Todo S) (q : Qid) (fire tick : Nat) :
    Sweep last K (v.setIdx q fire tick) M nf Todo S := by
  refine h.env rfl rfl rfl rfl rfl rfl fun r => ?_
  have ht : Turn q v (v.setIdx q fire tick) := turn_setIdx v q (fun _ => fire) fun _ => tick
  rw [ht.queue]

theorem timerExpiry_sweep (hctx : ctx ≠ .task) (hr : Ready ctx w L) (hadv : ∀ q ∈ w.queueHead,
      w.snapTime (w.queue q).tod ≤ last (w.queue q).tod + 2 ^ (w.queue q).downshift)
    (hcover : ∀ q ∈ w.queueHead, K (w.queue q).tod → w.Covers (last (w.queue q).tod) q)
    (hs : Sweep last K w L 0 (fun k _ => k.1 ∈ w.queueHead) S) :
    ∃ w' L', w.timerExpiry ctx = some w' ∧ Good w' L' w'.pendingHead ∧ Later w.snapTime w' L' := by
  obtain ⟨w', L', he, hr', hsnap, hlater⟩ := expiryLoop_rule
    (P := fun qs v M tod adjusted nf => Progress last K w qs v M tod adjusted nf)
    (R := fun v M => v.snapTime = w.snapTime ∧ Later v.snapTime v M)
    (fun {v M tod adjusted nf} hP => by
      obtain ⟨S', hs'⟩ := hP.sweep
      refine ⟨funext (snapTime_congr hP.since.nsec hP.since.nsecTodAdjust), fun k t hk hp => ?_⟩
      exact Nat.lt_of_not_le fun hle => not_mem_nil (hs'.due k t hk hp hle))
    (fun {q _ _ _ _ _ _ _} hrv hq hP hc hz => by
      have hqw := hP.sub q mem_cons_self
      obtain ⟨v', M', nf', he, hr', ht, hh, S', hs'⟩ :=
        hP.round hctx hrv hq hc hz (hadv q hqw) (hcover q hqw)
      refine ⟨v', M', nf', false, he, hr', ht, hh, nofun, fun _ => ?_⟩
      exact hP.next hc (ht.trans (turn_setIdx ..)) ⟨S', hs'.setIdx ..⟩)
    (fun {q qs v M tod adjusted nf c} hrv hP hc hz => by
      obtain ⟨S', hs'⟩ := hP.skip hrv.good.rep hz
      have hb : Sweep last K (v.bury q) M nf (fun k _ => k.1 ∈ qs) S' :=
        hs'.env rfl rfl rfl rfl rfl rfl fun _ => rfl
      have ht : Turn q v (v.bury q) :=
        ⟨fun _ => rfl, fun _ _ => ⟨rfl, rfl⟩, rfl, rfl, rfl, rfl, rfl, rfl, rfl⟩
      exact ⟨hP.next hc (ht.trans (turn_setIdx ..)) ⟨S', hb.setIdx ..⟩,
        hP.next hc (turn_setIdx ..) ⟨S', hs'.setIdx ..⟩⟩)
    w.queueHead w.nsec false 0 hr (fun _ h => h) hr.good.shape.nodup
    ⟨hr.good.shape.nodup, fun _ h => h, ⟨fun _ => ⟨rfl, rfl, rfl⟩, fun _ _ => ⟨rfl, rfl⟩,
      fun _ => rfl, rfl, rfl⟩, hr.good.shape.ordered, rfl, nofun, S, hs⟩
  rw [hsnap] at hlater
  simp only [timerExpiry, he, Option.map_some]
  split
  · exact ⟨_, L', rfl, hr'.good.env rfl rfl rfl rfl rfl rfl rfl, hlater⟩
  · exact ⟨w', L', rfl, hr'.good, hlater⟩

end Expiry

end Wheel

end Qnx.Ker
