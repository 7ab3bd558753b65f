import Qnx.Ker.Timer
import Mathlib.Algebra.Order.BigOperators.Group.Finset

/-!
# The representation of the timer queues

`Rep w L off` says that the slots of the wheel hold the lists `L`. A timer that is being moved is
`off` the lists for a moment. `Shape` is about the queues themselves and `Pend` about the pending
list. The rest of the module says what the elementary changes of the wheel do to `L`.
-/

namespace Qnx.Ker

open Circular List Function Option

def slotNode (k : Qid × Nat) : Node := .slot k.1 k.2

abbrev Lists := Qid × Nat → List Tip

namespace Wheel

def Slot (w : Wheel) (k : Qid × Nat) : Prop := k.1 < w.nqueues ∧ k.2 ≤ (w.queue k.1).mask

def linkedIn (w : Wheel) (L : Lists) (q : Qid) : Nat :=
  ∑ i ∈ Finset.range ((w.queue q).mask + 1), (L (q, i)).length

def home (w : Wheel) (q : Qid) (tip : Tip) : Qid × Nat :=
  (q, getQueueIdx (w.queue q) (w.timer tip).nsec)

structure Rep (w : Wheel) (L : Lists) (off : Option Tip) : Prop where
  circles : Circles w.links w.Slot slotNode fun k => (L k).map .timer
  fresh : ∀ q ∈ w.queueHead, q < w.nqueues
  mem_iff : ∀ t k, t ∈ L k ↔
    some t ≠ off ∧ (w.timer t).active = true ∧ (w.timer t).queue = some k.1 ∧ k = w.home k.1 t
  owned : ∀ t, some t ≠ off → (w.timer t).active = true → ∃ q ∈ w.queueHead,
    (w.timer t).queue = some q ∧ (w.queue q).tod = (w.timer t).todBased
  idle : ∀ t, some t ≠ off → (w.timer t).active = false → (w.timer t).queue = none
  sorted : ∀ k, (L k).Pairwise fun a b => (w.timer a).nsec ≤ (w.timer b).nsec
  count : ∀ q < w.nqueues, (w.queue q).numActive = w.linkedIn L q

structure Shape (w : Wheel) : Prop where
  order : ∃ ms ts, w.queueHead = ms ++ w.monTimers :: (ts ++ [w.todTimers]) ∧
    (∀ q ∈ ms, (w.queue q).tod = false) ∧ ∀ q ∈ ts, (w.queue q).tod = true
  tod : ∀ b, (w.queue (w.head b)).tod = b
  old : ∀ b, (w.queue (w.head b)).old = false
  nodup : w.queueHead.Nodup
  mask : ∀ q < w.nqueues, ∃ e ≤ 7, (w.queue q).mask + 1 = 2 ^ e
  fireIdx_le : ∀ q < w.nqueues, (w.queue q).fireIdx ≤ (w.queue q).mask
  lastTickIdx_le : ∀ q < w.nqueues, (w.queue q).lastTickIdx ≤ (w.queue q).mask

/-- `tips` are the timers on the pending list, all still linked in their slots. -/
structure Pend (w : Wheel) (tips : List Tip) : Prop where
  iff : ∀ t, (w.timer t).pending = true ↔ t ∈ tips
  nodup : tips.Nodup
  active : ∀ t ∈ tips, (w.timer t).active = true

/-- What inserting and re-arming a timer leave alone. -/
structure Apart (w w' : Wheel) : Prop where
  pendingHead : w'.pendingHead = w.pendingHead
  nsec : w'.nsec = w.nsec
  nsecTodAdjust : w'.nsecTodAdjust = w.nsecTodAdjust
  nsecInc : w'.nsecInc = w.nsecInc
  queuedIntrevents : w'.queuedIntrevents = w.queuedIntrevents
  growIntrevents : w'.growIntrevents = w.growIntrevents
  event : w'.event = w.event

structure Steady (w w' : Wheel) : Prop where
  queue : ∀ q, w'.queue q = { w.queue q with numActive := (w'.queue q).numActive }
  nqueues : w'.nqueues = w.nqueues
  queueHead : w'.queueHead = w.queueHead
  monTimers : w'.monTimers = w.monTimers
  todTimers : w'.todTimers = w.todTimers

theorem Apart.refl (w : Wheel) : Apart w w := ⟨rfl, rfl, rfl, rfl, rfl, rfl, rfl⟩

theorem Apart.trans {a b c : Wheel} (h : Apart a b) (h' : Apart b c) : Apart a c :=
  ⟨h'.1.trans h.1, h'.2.trans h.2, h'.3.trans h.3, h'.4.trans h.4, h'.5.trans h.5,
    h'.6.trans h.6, h'.7.trans h.7⟩

theorem snapTime_congr {w w' : Wheel} (hn : w'.nsec = w.nsec)
    (ha : w'.nsecTodAdjust = w.nsecTodAdjust) (b : Bool) : w'.snapTime b = w.snapTime b := by
  rw [snapTime, snapTime, hn, ha]

theorem Steady.refl (w : Wheel) : Steady w w := ⟨fun _ => rfl, rfl, rfl, rfl, rfl⟩

theorem Steady.trans {a b c : Wheel} (h : Steady a b) (h' : Steady b c) : Steady a c :=
  ⟨fun q => by rw [h'.1 q, h.1 q], h'.2.trans h.2, h'.3.trans h.3, h'.4.trans h.4, h'.5.trans h.5⟩

theorem Steady.head {w w' : Wheel} (h : Steady w w') (b : Bool) : w'.head b = w.head b := by
  cases b
  · exact h.monTimers
  · exact h.todTimers

theorem Steady.shape {w w' : Wheel} (h : Steady w w') (hs : Shape w) : Shape w' := by
  refine ⟨?_, fun b => ?_, fun b => ?_, h.queueHead ▸ hs.nodup, ?_, ?_, ?_⟩
  · obtain ⟨ms, ts, he, hms, hts⟩ := hs.order
    refine ⟨ms, ts, by rw [h.queueHead, h.monTimers, h.todTimers, he], fun q hq => ?_,
      fun q hq => ?_⟩
    · rw [h.queue, hms q hq]
    · rw [h.queue, hts q hq]
  · rw [h.head, h.queue]
    exact hs.tod b
  · rw [h.head, h.queue]
    exact hs.old b
  all_goals
    rw [h.nqueues]
    intro q hq
    rw [h.queue]
  · exact hs.mask q hq
  · exact hs.fireIdx_le q hq
  · exact hs.lastTickIdx_le q hq

section Fields
variable (w : Wheel) (t u : Tip) (q r : Qid) (f : Timer → Timer) (g : TimerQueue → TimerQueue)

@[simp] theorem modTimer_queue : (w.modTimer t f).queue = w.queue := rfl
@[simp] theorem modTimer_self : (w.modTimer t f).timer t = f (w.timer t) := by simp [modTimer]

theorem modTimer_steady : Steady w (w.modTimer t f) := ⟨fun _ => rfl, rfl, rfl, rfl, rfl⟩

theorem modTimer_apart : Apart w (w.modTimer t f) := ⟨rfl, rfl, rfl, rfl, rfl, rfl, rfl⟩

theorem modTimer_of_ne {t u : Tip} (h : u ≠ t) : (w.modTimer t f).timer u = w.timer u := by
  simp [modTimer, h]

@[simp] theorem modQueue_timer : (w.modQueue q g).timer = w.timer := rfl
@[simp] theorem modQueue_self : (w.modQueue q g).queue q = g (w.queue q) := by simp [modQueue]

theorem modQueue_of_ne {q r : Qid} (h : r ≠ q) : (w.modQueue q g).queue r = w.queue r := by
  simp [modQueue, h]

end Fields

theorem getQueueIdx_le (q : TimerQueue) (t : Nat) : getQueueIdx q t ≤ q.mask := Nat.and_le_right

theorem getQueueIdx_congr {q r : TimerQueue} (hd : r.downshift = q.downshift)
    (hm : r.mask = q.mask) (t : Nat) : getQueueIdx r t = getQueueIdx q t := by
  simp [getQueueIdx, hd, hm]

def relink (w : Wheel) (q : Qid) (p : Ptrs Node) (f : Nat → Nat) : Wheel :=
  { w with links := p }.modQueue q fun q => { q with numActive := f q.numActive }

section Relink
variable (w : Wheel) (q r : Qid) (p : Ptrs Node) (f : Nat → Nat)

theorem relink_queue : (w.relink q p f).queue r = { w.queue r with
      numActive := if r = q then f (w.queue r).numActive else (w.queue r).numActive } := by
  by_cases hr : r = q
  · subst hr
    simp [relink]
  · simp [relink, modQueue, hr]

@[simp] theorem relink_links : (w.relink q p f).links = p := rfl
@[simp] theorem relink_timer : (w.relink q p f).timer = w.timer := rfl
@[simp] theorem relink_nqueues : (w.relink q p f).nqueues = w.nqueues := rfl
@[simp] theorem relink_queueHead : (w.relink q p f).queueHead = w.queueHead := rfl

@[simp] theorem relink_home (t : Tip) : (w.relink q p f).home r t = w.home r t := by
  simp [home, getQueueIdx, relink_queue]

@[simp] theorem relink_slot : (w.relink q p f).Slot = w.Slot := by
  funext k
  simp [Slot, relink_queue]

@[simp] theorem relink_linkedIn (L : Lists) : (w.relink q p f).linkedIn L r = w.linkedIn L r := by
  simp [linkedIn, relink_queue]

theorem relink_steady : Steady w (w.relink q p f) :=
  ⟨fun r => by rw [relink_queue], rfl, rfl, rfl, rfl⟩

theorem relink_apart : Apart w (w.relink q p f) := ⟨rfl, rfl, rfl, rfl, rfl, rfl, rfl⟩

end Relink

theorem unlinkFrom_eq (w : Wheel) (q : Qid) (t : Tip) :
    w.unlinkFrom q t = w.relink q (w.links.unlink (.timer t)) (· - 1) := rfl

theorem unlinkFrom_steady (w : Wheel) (q : Qid) (t : Tip) : Steady w (w.unlinkFrom q t) := by
  rw [unlinkFrom_eq]
  exact relink_steady ..

theorem unlinkFrom_apart (w : Wheel) (q : Qid) (t : Tip) : Apart w (w.unlinkFrom q t) := by
  rw [unlinkFrom_eq]
  exact relink_apart ..

theorem linkIn_eq (w : Wheel) (q : Qid) (a : Node) (t : Tip) (b : Node) :
    w.linkIn q a t b = w.relink q (w.links.link a (.timer t) b) (· + 1) := rfl

theorem linkedIn_update {w : Wheel} {L : Lists} {k : Qid × Nat} (hk : k.2 ≤ (w.queue k.1).mask)
    (l : List Tip) :
    w.linkedIn (update L k l) k.1 + (L k).length = w.linkedIn L k.1 + l.length := by
  have hmem : k.2 ∈ Finset.range ((w.queue k.1).mask + 1) :=
    Finset.mem_range.mpr (Nat.lt_succ_of_le hk)
  have hrest : ∀ i ∈ (Finset.range ((w.queue k.1).mask + 1)).erase k.2,
      (update L k l (k.1, i)).length = (L (k.1, i)).length := by
    intro i hi
    rw [update_of_ne]
    exact fun e => (Finset.mem_erase.mp hi).1 (congrArg Prod.snd e)
  rw [linkedIn, linkedIn, ← Finset.sum_erase_add _ _ hmem, ← Finset.sum_erase_add _ _ hmem,
    Finset.sum_congr rfl hrest]
  simp only [Prod.mk.eta, update_self]
  omega

theorem linkedIn_update_of_ne {w : Wheel} {L : Lists} {k : Qid × Nat} {q : Qid} (hq : q ≠ k.1)
    (l : List Tip) : w.linkedIn (update L k l) q = w.linkedIn L q := by
  refine Finset.sum_congr rfl fun i _ => ?_
  rw [update_of_ne]
  rintro rfl
  exact hq rfl

theorem linkedIn_congr {w w' : Wheel} {q : Qid} (hm : (w'.queue q).mask = (w.queue q).mask)
    (L : Lists) : w'.linkedIn L q = w.linkedIn L q := by
  rw [linkedIn, linkedIn, hm]

namespace Rep
variable {w w' : Wheel} {L : Lists} {off : Option Tip} {t : Tip} {q : Qid} {k : Qid × Nat}
  {l1 l2 : List Tip}

section

variable (h : Rep w L off)
include h

theorem nodup (k : Qid × Nat) : (L k).Nodup := (nodup_cons.mp (h.circles.nodup k)).2.of_map

theorem slot_of_mem (hk : t ∈ L k) : w.Slot k := by
  obtain ⟨hne, ha, hq, hhome⟩ := (h.mem_iff t k).mp hk
  obtain ⟨q, hqm, hqt, -⟩ := h.owned t hne ha
  obtain rfl : q = k.1 := some.inj (hqt.symm.trans hq)
  refine ⟨h.fresh _ hqm, ?_⟩
  rw [hhome]
  exact getQueueIdx_le _ _

theorem length_le (hk : w.Slot k) : (L k).length ≤ (w.queue k.1).numActive := by
  rw [h.count _ hk.1]
  exact Finset.single_le_sum (f := fun i => (L (k.1, i)).length) (fun i _ => Nat.zero_le _)
    (Finset.mem_range.mpr (Nat.lt_succ_of_le hk.2))

theorem eq_of_mem {j k : Qid × Nat} (hj : t ∈ L j) (hk : t ∈ L k) : j = k := by
  refine h.circles.disjoint (x := .timer t) ?_ ?_
  · exact mem_cons_of_mem _ (mem_map_of_mem hj)
  · exact mem_cons_of_mem _ (mem_map_of_mem hk)

end

theorem not_mem_off (h : Rep w L (some t)) (k : Qid × Nat) : t ∉ L k :=
  fun hk => ((h.mem_iff t k).mp hk).1 rfl

section

variable (h : Rep w L off)
include h

theorem congr (hl : w'.links = w.links) (hn : w'.nqueues = w.nqueues)
    (hd : ∀ q, (w'.queue q).downshift = (w.queue q).downshift)
    (hm : ∀ q, (w'.queue q).mask = (w.queue q).mask)
    (hc : ∀ q, (w'.queue q).numActive = (w.queue q).numActive)
    (ht : ∀ q, (w'.queue q).tod = (w.queue q).tod)
    (hq : w'.queueHead.Sublist w.queueHead)
    (hq' : ∀ q ∈ w.queueHead, (w.queue q).numActive ≠ 0 → q ∈ w'.queueHead)
    (htm : ∀ t, some t ≠ off → (w'.timer t).active = (w.timer t).active ∧
      (w'.timer t).queue = (w.timer t).queue ∧ (w'.timer t).nsec = (w.timer t).nsec ∧
      (w'.timer t).todBased = (w.timer t).todBased) : Rep w' L off := by
  have hhome : ∀ q t, some t ≠ off → w'.home q t = w.home q t := by
    intro q t hne
    rw [home, home, (htm t hne).2.2.1, getQueueIdx_congr (hd q) (hm q)]
  have hslot : w'.Slot = w.Slot := by
    funext k
    rw [Slot, Slot, hn, hm]
  refine ⟨by rw [hl, hslot]; exact h.circles, fun q hqm => hn ▸ h.fresh q (hq.subset hqm),
    fun t k => ?_, fun t hne ha => ?_, fun t hne ha => ?_, fun k => ?_, fun q hlt => ?_⟩
  · rw [h.mem_iff]
    refine and_congr_right fun hne => ?_
    rw [(htm t hne).1, (htm t hne).2.1, hhome _ _ hne]
  · rw [(htm t hne).1] at ha
    obtain ⟨q, hqm, hqt, htod⟩ := h.owned t hne ha
    have hmem : t ∈ L (w.home q t) := (h.mem_iff t _).mpr ⟨hne, ha, hqt, rfl⟩
    have hpos := (length_pos_of_mem hmem).trans_le (h.length_le (h.slot_of_mem hmem))
    exact ⟨q, hq' q hqm hpos.ne', by rw [(htm t hne).2.1, hqt], by rw [ht, htod, (htm t hne).2.2.2]⟩
  · rw [(htm t hne).2.1, h.idle t hne ((htm t hne).1 ▸ ha)]
  · refine (h.sorted k).imp_of_mem fun {a b} ha hb hab => ?_
    rw [(htm a ((h.mem_iff a k).mp ha).1).2.2.1, (htm b ((h.mem_iff b k).mp hb).1).2.2.1]
    exact hab
  · rw [linkedIn_congr (hm q), hc]
    exact h.count q (hn ▸ hlt)

theorem env (hl : w'.links = w.links) (hq : w'.queue = w.queue)
    (hn : w'.nqueues = w.nqueues) (hh : w'.queueHead = w.queueHead) (ht : w'.timer = w.timer) :
    Rep w' L off :=
  h.congr hl hn (fun q => by rw [hq]) (fun q => by rw [hq]) (fun q => by rw [hq])
    (fun q => by rw [hq]) (hh ▸ .refl _) (fun q hm _ => hh ▸ hm)
    fun t _ => by simp [ht]

theorem modTimer (t : Tip) (f : Timer → Timer)
    (hf : some t ≠ off → (f (w.timer t)).active = (w.timer t).active ∧
      (f (w.timer t)).queue = (w.timer t).queue ∧ (f (w.timer t)).nsec = (w.timer t).nsec ∧
      (f (w.timer t)).todBased = (w.timer t).todBased) : Rep (w.modTimer t f) L off := by
  refine h.congr rfl rfl (fun _ => rfl) (fun _ => rfl) (fun _ => rfl) (fun _ => rfl)
    (.refl _) (fun _ h _ => h) fun u hu => ?_
  by_cases hut : u = t
  · subst hut
    simpa using hf hu
  · simp [modTimer_of_ne w f hut]

theorem modQueue (q : Qid) (g : TimerQueue → TimerQueue)
    (hd : (g (w.queue q)).downshift = (w.queue q).downshift)
    (hm : (g (w.queue q)).mask = (w.queue q).mask)
    (hc : (g (w.queue q)).numActive = (w.queue q).numActive)
    (ht : (g (w.queue q)).tod = (w.queue q).tod) : Rep (w.modQueue q g) L off := by
  have key : ∀ r, r = q ∨ (w.modQueue q g).queue r = w.queue r := fun r => by
    by_cases hr : r = q
    · exact .inl hr
    · exact .inr (modQueue_of_ne w g hr)
  refine h.congr rfl rfl (fun r => ?_) (fun r => ?_) (fun r => ?_) (fun r => ?_)
    (.refl _) (fun _ h _ => h) fun _ _ => ⟨rfl, rfl, rfl, rfl⟩ <;>
  rcases key r with rfl | e
  all_goals first | simpa | rw [e]

end

theorem retire (h : Rep w L (some t)) (ha : (w.timer t).active = false)
    (hq : (w.timer t).queue = none) : Rep w L none := by
  have hne : ∀ {u}, u ≠ t → some u ≠ some t := fun hu e => hu (some.inj e)
  refine ⟨h.circles, h.fresh, fun u k => ?_, fun u _ hu => ?_, fun u _ hu => ?_, h.sorted, h.count⟩
  · by_cases hut : u = t
    · subst hut
      simp [h.not_mem_off k, ha]
    · simp [h.mem_iff, hut]
  · by_cases hut : u = t
    · subst hut
      simp [ha] at hu
    · exact h.owned u (hne hut) hu
  · by_cases hut : u = t
    · exact hut ▸ hq
    · exact h.idle u (hne hut) hu

theorem map_update (L : Lists) (k : Qid × Nat) (l : List Tip) :
    (fun j => (update L k l j).map Node.timer) =
      update (fun j => (L j).map Node.timer) k (l.map Node.timer) := by
  funext j
  by_cases hj : j = k
  · subst hj
    simp
  · simp [hj]

theorem unlinkFrom (h : Rep w L none) (hk : L k = l1 ++ t :: l2) :
    Rep (w.unlinkFrom k.1 t) (update L k (l1 ++ l2)) (some t) := by
  have htk : t ∈ L k := hk ▸ by simp
  have hslot := h.slot_of_mem htk
  have hto : t ∉ l1 ++ l2 := (nodup_cons.mp (nodup_middle.mp (hk ▸ h.nodup k))).1
  have hmem : ∀ {u j}, u ∈ update L k (l1 ++ l2) j ↔ u ≠ t ∧ u ∈ L j := by
    intro u j
    by_cases hj : j = k
    · subst hj
      rw [update_self, hk]
      simp only [mem_append, mem_cons] at hto ⊢
      exact ⟨fun hu => ⟨fun e => hto (e ▸ hu), by tauto⟩, by tauto⟩
    rw [update_of_ne hj]
    refine ⟨fun hu => ⟨?_, hu⟩, And.right⟩
    rintro rfl
    exact hj (h.eq_of_mem hu htk)
  rw [unlinkFrom_eq]
  refine ⟨?_, h.fresh, fun u j => ?_, fun u _ ha => ?_, fun u _ ha => h.idle u (by simp) ha,
    fun j => ?_, fun q hq => ?_⟩
  · rw [relink_slot, map_update, map_append]
    exact h.circles.unlink hslot (by simp [hk])
  · rw [hmem, h.mem_iff]
    simp
  · obtain ⟨q, hqm, hqt, htod⟩ := h.owned u (by simp) ha
    exact ⟨q, hqm, hqt, by rw [relink_queue]; exact htod⟩
  · by_cases hj : j = k
    · subst hj
      exact (hk ▸ h.sorted j).sublist (by simp)
    · rw [update_of_ne hj]
      exact h.sorted j
  · rw [relink_linkedIn, relink_queue]
    have hcount := h.count q hq
    by_cases e : q = k.1
    · subst e
      have hupd := linkedIn_update (L := L) hslot.2 (l1 ++ l2)
      simp only [hk, length_append, length_cons] at hupd
      simp only [if_true]
      omega
    · rw [linkedIn_update_of_ne e, ← hcount]
      simp [e]

theorem linkIn (h : Rep w L (some t)) (hk : L k = l1 ++ l2) (hq : k.1 ∈ w.queueHead)
    (hhome : k = w.home k.1 t) (ha : (w.timer t).active = true)
    (hqt : (w.timer t).queue = some k.1) (htod : (w.queue k.1).tod = (w.timer t).todBased)
    (h1 : ∀ u ∈ l1, (w.timer u).nsec ≤ (w.timer t).nsec)
    (h2 : ∀ u ∈ l2, (w.timer t).nsec ≤ (w.timer u).nsec) :
    Rep (w.linkIn k.1 (lastOf (slotNode k) (l1.map .timer)) t
      (firstOf (slotNode k) (l2.map .timer))) (update L k (l1 ++ t :: l2)) none := by
  have hmask : k.2 ≤ (w.queue k.1).mask := by
    rw [hhome]
    exact getQueueIdx_le _ _
  have hto : ∀ j, t ∉ L j := h.not_mem_off
  have hmem : ∀ {u j}, u ∈ update L k (l1 ++ t :: l2) j ↔ (u = t ∧ j = k) ∨ u ∈ L j := by
    intro u j
    by_cases hj : j = k
    · subst hj
      rw [update_self, hk]
      simp only [mem_append, mem_cons]
      tauto
    · simp [hj]
  rw [linkIn_eq]
  refine ⟨?_, h.fresh, fun u j => ?_, fun u _ hu => ?_, fun u _ hu => ?_, fun j => ?_,
    fun q hlt => ?_⟩
  · rw [relink_slot, map_update, map_append]
    refine h.circles.link (by simp [hk]) fun j => ?_
    simpa [slotNode] using hto j
  · rw [hmem]
    by_cases hut : u = t
    · subst hut
      simp only [hto j, true_and, or_false, relink_timer, relink_home, ha, hqt, some.injEq]
      constructor
      · rintro rfl
        exact ⟨by simp, rfl, hhome⟩
      · rintro ⟨-, e, hj⟩
        rw [hj, ← e]
        exact hhome.symm
    · simp [hut, h.mem_iff]
  · by_cases hut : u = t
    · subst hut
      exact ⟨k.1, hq, hqt, by rw [relink_queue]; exact htod⟩
    · obtain ⟨q, hqm, hqu, hqtod⟩ := h.owned u (by simpa using hut) hu
      exact ⟨q, hqm, hqu, by rw [relink_queue]; exact hqtod⟩
  · by_cases hut : u = t
    · subst hut
      simp [ha] at hu
    · exact h.idle u (by simpa using hut) hu
  · by_cases hj : j = k
    · subst hj
      rw [update_self]
      have hs := h.sorted j
      rw [hk, pairwise_append] at hs
      rw [pairwise_append, pairwise_cons]
      refine ⟨hs.1, ⟨h2, hs.2.1⟩, fun a haa b hb => ?_⟩
      rcases mem_cons.mp hb with rfl | hb
      · exact h1 a haa
      · exact hs.2.2 a haa b hb
    · rw [update_of_ne hj]
      exact h.sorted j
  · rw [relink_linkedIn, relink_queue]
    have hcount := h.count q hlt
    by_cases e : q = k.1
    · subst e
      have hupd := linkedIn_update (L := L) hmask (l1 ++ t :: l2)
      simp only [hk, length_append, length_cons] at hupd
      simp only [if_true]
      omega
    · rw [linkedIn_update_of_ne e, ← hcount]
      simp [e]

end Rep

end Wheel

end Qnx.Ker
