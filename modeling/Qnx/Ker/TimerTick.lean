import Qnx.Ker.TimerWalk

/-!
# The loops of `timer_expiry`

One rule for each of the two inner loops: what every look at a timer keeps is kept by the walk
over a slot, and what every walk over a slot keeps is kept by the round over the slots of a queue.
With nothing to keep they say that the loops end and that the queues stay well formed.
-/

namespace Qnx.Ker

open List Option

namespace Wheel

section Slot
variable {ctx : Ctx} {T : Nat} {k : Qid × Nat}

structure Ready (ctx : Ctx) (w : Wheel) (L : Lists) : Prop where
  good : Good w L w.pendingHead
  user : ctx = .user → w.pendingHead = []

theorem Fired.ready {w w' : Wheel} {L L' : Lists} {t : Tip} {l1 l2 g l1' l2' : List Tip} {n : Node}
    (h : Fired w L ctx T k t l1 l2 n w' L' g l1' l2') (hr : Ready ctx w L) : Ready ctx w' L' := by
  refine ⟨h.good, fun hu => ?_⟩
  rcases h.pending with he | he
  · rw [he, hr.user hu]
  · simp [hu] at he

structure Tick (w w' : Wheel) : Prop where
  steady : Steady w w'
  nsec : w'.nsec = w.nsec
  nsecTodAdjust : w'.nsecTodAdjust = w.nsecTodAdjust
  nsecInc : w'.nsecInc = w.nsecInc
  growIntrevents : w'.growIntrevents = w.growIntrevents

theorem Tick.refl (w : Wheel) : Tick w w := ⟨Steady.refl w, rfl, rfl, rfl, rfl⟩

theorem Tick.trans {a b c : Wheel} (h : Tick a b) (h' : Tick b c) : Tick a c :=
  ⟨h.1.trans h'.1, h'.2.trans h.2, h'.3.trans h.3, h'.4.trans h.4, h'.5.trans h.5⟩

theorem Fired.tick {w w' : Wheel} {L L' : Lists} {t : Tip} {l1 l2 g l1' l2' : List Tip} {n : Node}
    (h : Fired w L ctx T k t l1 l2 n w' L' g l1' l2') : Tick w w' :=
  ⟨h.steady, h.apart.nsec, h.apart.nsecTodAdjust, h.apart.nsecInc, h.apart.growIntrevents⟩

/-- The walk over a slot. `J` is kept by looking at a timer that is on no list any more and by
looking at one that is. At the end the timers still ahead are not due, or the limit was hit. -/
theorem fireSlot_rule (hctx : ctx ≠ .task)
    {J : Wheel → Lists → List Tip → List Tip → List Tip → Nat → Prop}
    (hgone : ∀ {w L n t g l1 l2 nf}, Ready ctx w L → Trail w L T k n (t :: g) l1 l2 →
      J w L (t :: g) l1 l2 nf → (w.timer t).nsec ≤ T → J w L g l1 l2 (nf + 1))
    (hlive : ∀ {w L t l1 l2 nf n w' L' g l1' l2'}, Ready ctx w L → L k = l1 ++ t :: l2 →
      J w L [] l1 (t :: l2) nf → (w.timer t).nsec ≤ T →
      Fired w L ctx T k t l1 l2 n w' L' g l1' l2' → J w' L' g l1' l2' (nf + 1)) (fuel : Nat) :
    ∀ {w : Wheel} {L : Lists} {n : Node} {g l1 l2 : List Tip} {nf : Nat}, Ready ctx w L →
      Trail w L T k n g l1 l2 → J w L g l1 l2 nf → 0 < fuel → 52 ≤ fuel + nf →
      ∃ w' L' nf' stop g' l1' l2', fireSlot T ctx (slotNode k) fuel w n nf = some (w', nf', stop) ∧
        Ready ctx w' L' ∧ Tick w w' ∧ L' k = l1' ++ l2' ∧ J w' L' g' l1' l2' nf' ∧
        (stop = false → ∀ u ∈ l2', T < (w'.timer u).nsec) ∧
        (stop = true → 50 < nf' ∨ w'.growIntrevents < w'.queuedIntrevents) := by
  induction fuel with
  | zero => omega
  | succ fuel ih =>
    intro w L n g l1 l2 nf hr tr hJ _ hfuel
    cases g with
    | nil =>
      cases l2 with
      | nil =>
        -- back at the sentinel
        have hn : n = slotNode k := tr.leads
        exact ⟨w, L, nf, false, [], l1, [], by simp [fireSlot, hn], hr, Tick.refl w, tr.cut, hJ,
          by simp, by simp⟩
      | cons t l2 =>
        have hn : n = .timer t := tr.leads
        have hne : Node.timer t ≠ slotNode k := by simp [slotNode]
        by_cases hT : T < (w.timer t).nsec
        · refine ⟨w, L, nf, false, [], l1, t :: l2, by simp [fireSlot, hn, hT], hr,
            Tick.refl w, tr.cut, hJ, fun _ u hu => ?_, by simp⟩
          have hs := hr.good.rep.sorted k
          rw [tr.cut, pairwise_append, pairwise_cons] at hs
          rcases mem_cons.mp hu with rfl | hu
          · exact hT
          · exact hT.trans_le (hs.2.1.1 u hu)
        obtain ⟨n', w', L', g', l1', l2', he, hf⟩ := timerFire_spec hr.good hctx hr.user tr.cut T
        have hJ' := hlive hr tr.cut hJ (Nat.le_of_not_lt hT) hf
        by_cases hstop : nf + 1 > 50 ∨ w'.queuedIntrevents > w'.growIntrevents
        · refine ⟨w', L', nf + 1, true, g', l1', l2', ?_, hf.ready hr, hf.tick, hf.trail.cut, hJ',
            by simp, fun _ => hstop⟩
          simp only [fireSlot, hn, hne, hT, he, if_false, bind_some, hstop, if_true]
        obtain ⟨w'', L'', nf', stop, g'', a, b, he', hr', ht', hcut, hJ'', hend⟩ :=
          ih (hf.ready hr) hf.trail hJ' (by omega) (by omega)
        refine ⟨w'', L'', nf', stop, g'', a, b, ?_, hr', hf.tick.trans ht', hcut, hJ'', hend⟩
        simp only [fireSlot, hn, hne, hT, he, if_false, bind_some, hstop, he']
    | cons t g =>
      obtain ⟨hn, hq, hl⟩ := tr.leads
      have hne : Node.timer t ≠ slotNode k := by simp [slotNode]
      by_cases hT : T < (w.timer t).nsec
      · exact ⟨w, L, nf, false, t :: g, l1, l2, by simp [fireSlot, hn, hT], hr, Tick.refl w,
          tr.cut, hJ, fun _ => tr.late t (by simp) hT, by simp⟩
      have he : w.timerFire t ctx = some (w.links.next (.timer t), w) := by simp [timerFire, hq]
      have hJ' := hgone hr tr hJ (Nat.le_of_not_lt hT)
      by_cases hstop : nf + 1 > 50 ∨ w.queuedIntrevents > w.growIntrevents
      · refine ⟨w, L, nf + 1, true, g, l1, l2, ?_, hr, Tick.refl w, tr.cut, hJ', by simp,
          fun _ => hstop⟩
        simp only [fireSlot, hn, hne, hT, he, if_false, bind_some, hstop, if_true]
      have tr' : Trail w L T k (w.links.next (.timer t)) g l1 l2 :=
        ⟨tr.slot, tr.cut, hl, (nodup_cons.mp tr.nodup).2, fun x hx => tr.late x (by simp [hx])⟩
      obtain ⟨w', L', nf', stop, g', a, b, he', hr', ht', hcut, hJ'', hend⟩ :=
        ih hr tr' hJ' (by omega) (by omega)
      refine ⟨w', L', nf', stop, g', a, b, ?_, hr', ht', hcut, hJ'', hend⟩
      simp only [fireSlot, hn, hne, hT, he, if_false, bind_some, hstop, he']

end Slot

section Round
variable {ctx : Ctx} {T : Nat} {q : Qid} {w : Wheel} {L : Lists} {tips : List Tip}

theorem Good.setIdx (gd : Good w L tips) (fire last : TimerQueue → Nat)
    (hf : q < w.nqueues → fire (w.queue q) ≤ (w.queue q).mask)
    (hl : q < w.nqueues → last (w.queue q) ≤ (w.queue q).mask) :
    Good (w.modQueue q fun t => { t with fireIdx := fire t, lastTickIdx := last t }) L tips :=
  ⟨gd.rep.modQueue q _ rfl rfl rfl rfl, gd.shape.modQueue rfl rfl rfl hf hl,
    gd.pend.congr (fun _ => rfl) fun _ _ => rfl⟩

/-- The round over the slots of `q` moves the indices of `q` only. -/
structure Turn (q : Qid) (w w' : Wheel) : Prop where
  queue : ∀ r, w'.queue r = { w.queue r with
    numActive := (w'.queue r).numActive
    fireIdx := (w'.queue r).fireIdx
    lastTickIdx := (w'.queue r).lastTickIdx }
  others : ∀ r ≠ q, (w'.queue r).fireIdx = (w.queue r).fireIdx ∧
    (w'.queue r).lastTickIdx = (w.queue r).lastTickIdx
  nqueues : w'.nqueues = w.nqueues
  monTimers : w'.monTimers = w.monTimers
  todTimers : w'.todTimers = w.todTimers
  nsec : w'.nsec = w.nsec
  nsecTodAdjust : w'.nsecTodAdjust = w.nsecTodAdjust
  nsecInc : w'.nsecInc = w.nsecInc
  growIntrevents : w'.growIntrevents = w.growIntrevents

theorem Turn.trans {a b c : Wheel} (h : Turn q a b) (h' : Turn q b c) : Turn q a c :=
  ⟨fun r => by rw [h'.queue r, h.queue r], fun r hr => ⟨(h'.others r hr).1.trans (h.others r hr).1,
    (h'.others r hr).2.trans (h.others r hr).2⟩, h'.3.trans h.3, h'.4.trans h.4, h'.5.trans h.5,
    h'.6.trans h.6, h'.7.trans h.7, h'.8.trans h.8, h'.9.trans h.9⟩

theorem Tick.turn {w' : Wheel} (h : Tick w w') (q : Qid) : Turn q w w' :=
  ⟨fun r => by rw [h.steady.queue r], fun r _ => by rw [h.steady.queue r]; exact ⟨rfl, rfl⟩,
    h.steady.nqueues, h.steady.monTimers, h.steady.todTimers, h.nsec, h.nsecTodAdjust, h.nsecInc,
    h.growIntrevents⟩

theorem turn_setIdx (w : Wheel) (q : Qid) (fire last : TimerQueue → Nat) :
    Turn q w (w.modQueue q fun t => { t with fireIdx := fire t, lastTickIdx := last t }) := by
  refine ⟨fun r => ?_, fun r hr => ?_, rfl, rfl, rfl, rfl, rfl, rfl, rfl⟩
  · by_cases hr : r = q
    · subst hr
      simp
    · rw [modQueue_of_ne w _ hr]
  · rw [modQueue_of_ne w _ hr]
    exact ⟨rfl, rfl⟩

def slotsLeft (mask i curr : Nat) : Nat := (curr + (mask + 1) - i) % (mask + 1)

theorem and_mask {mask e : Nat} (he : mask + 1 = 2 ^ e) (x : Nat) :
    x &&& mask = x % (mask + 1) := by
  have : mask = 2 ^ e - 1 := by omega
  rw [he, this, Nat.and_two_pow_sub_one_eq_mod]

theorem slotsLeft_eq {mask i curr : Nat} (hi : i ≤ mask) (hc : curr ≤ mask) :
    slotsLeft mask i curr = if i ≤ curr then curr - i else curr + (mask + 1) - i := by
  rw [slotsLeft]
  split
  · rw [show curr + (mask + 1) - i = curr - i + (mask + 1) by omega, Nat.add_mod_right]
    exact Nat.mod_eq_of_lt (by omega)
  · exact Nat.mod_eq_of_lt (by omega)

theorem slotsLeft_next {mask e i curr : Nat} (he : mask + 1 = 2 ^ e) (hi : i ≤ mask)
    (hc : curr ≤ mask) (hne : i ≠ curr) :
    (i + 1) &&& mask ≤ mask ∧
      slotsLeft mask ((i + 1) &&& mask) curr + 1 = slotsLeft mask i curr := by
  rw [and_mask he]
  rw [slotsLeft_eq hi hc]
  by_cases hm : i = mask
  · rw [hm, Nat.mod_self, slotsLeft_eq (Nat.zero_le _) hc]
    split <;> split <;> omega
  · rw [Nat.mod_eq_of_lt (by omega), slotsLeft_eq (i := i + 1) (by omega) hc]
    split <;> split <;> omega

theorem fireQueue_rule {curr mask : Nat} {P : Nat → Wheel → Lists → Nat → Bool → Prop}
    {R : Wheel → Lists → Nat → Bool → Prop}
    (hstep : ∀ {i w L nf done}, Ready ctx w L → w.Slot (q, i) → P i w L nf done →
      ∃ w' L' nf' stop, fireSlot T ctx (.slot q i) 52 w (w.links.next (.slot q i)) nf =
          some (w', nf', stop) ∧ Ready ctx w' L' ∧ Tick w w' ∧
        (i = curr → R w' L' nf' (done || stop)) ∧
        (i ≠ curr → P ((i + 1) &&& mask) (w'.modQueue q fun t =>
          { t with fireIdx := (t.fireIdx + 1) &&& t.mask }) L' nf' (done || stop)))
    {e : Nat} (he : mask + 1 = 2 ^ e) (hcurr : curr ≤ mask) (fuel : Nat) :
    ∀ {w : Wheel} {L : Lists} (nf : Nat) (done : Bool), Ready ctx w L → q < w.nqueues →
      (w.queue q).mask = mask → slotsLeft mask (w.queue q).fireIdx curr < fuel →
      P (w.queue q).fireIdx w L nf done →
      ∃ w' L' nf' done', fireQueue T ctx q curr fuel w nf done = some (w', nf', done') ∧
        Ready ctx w' L' ∧ Turn q w w' ∧ w'.queueHead = w.queueHead ∧ R w' L' nf' done' := by
  induction fuel with
  | zero => omega
  | succ fuel ih =>
    intro w L nf done hr hq hm hfuel hP
    have hle : (w.queue q).fireIdx ≤ mask := hm ▸ hr.good.shape.fireIdx_le q hq
    obtain ⟨w1, L1, nf1, stop, hf, hr1, ht, hR, hP1⟩ := hstep hr ⟨hq, hm ▸ hle⟩ hP
    have hfire : (w1.queue q).fireIdx = (w.queue q).fireIdx := by rw [ht.steady.queue]
    have hmask : (w1.queue q).mask = mask := by rw [ht.steady.queue, ← hm]
    by_cases hc : (w.queue q).fireIdx = curr
    · refine ⟨w1, L1, nf1, done || stop, ?_, hr1, ht.turn q, ht.steady.queueHead, hR hc⟩
      simp only [fireQueue, hf, bind_some]
      rw [if_pos (hfire.trans hc)]
    obtain ⟨hle', hleft⟩ := slotsLeft_next he hle hcurr hc
    have hq1 : q < w1.nqueues := ht.steady.nqueues ▸ hq
    have hr2 : Ready ctx (w1.modQueue q fun t =>
        { t with fireIdx := (t.fireIdx + 1) &&& t.mask }) L1 := by
      refine ⟨hr1.good.setIdx (fun t => (t.fireIdx + 1) &&& t.mask) (fun t => t.lastTickIdx)
        (fun _ => Nat.and_le_right) fun _ => hr1.good.shape.lastTickIdx_le q hq1, hr1.user⟩
    have hidx : ((w1.modQueue q fun t =>
        { t with fireIdx := (t.fireIdx + 1) &&& t.mask }).queue q).fireIdx =
        ((w.queue q).fireIdx + 1) &&& mask := by
      rw [modQueue_self, ← hmask, ← hfire]
    obtain ⟨w', L', nf', done', he', hr', ht', hh', hR'⟩ := ih nf1 (done || stop) hr2 hq1
      (by rw [modQueue_self]; exact hmask) (by rw [hidx]; omega) (by rw [hidx]; exact hP1 hc)
    refine ⟨w', L', nf', done', ?_, hr', ((ht.turn q).trans (turn_setIdx w1 q
      (fun t => (t.fireIdx + 1) &&& t.mask) fun t => t.lastTickIdx)).trans ht',
      hh'.trans ht.steady.queueHead, hR'⟩
    simp only [fireQueue, hf, bind_some]
    rw [if_neg (hfire ▸ hc), he']

end Round

section Queues
variable {ctx : Ctx} {q : Qid} {w : Wheel} {L : Lists} {tips : List Tip}

def firstIdx (tq : TimerQueue) (curr : Nat) : Nat :=
  if idxSub tq.lastTickIdx tq.fireIdx tq.mask + idxSub curr tq.lastTickIdx tq.mask > tq.mask then
    (curr + 1) &&& tq.mask
  else tq.fireIdx

def setIdx (w : Wheel) (q : Qid) (fire last : Nat) : Wheel :=
  w.modQueue q fun t => { t with fireIdx := fire, lastTickIdx := last }

theorem expiryQueue_eq (w : Wheel) (ctx : Ctx) (q : Qid) (tod curr nf : Nat) :
    w.expiryQueue ctx q tod curr nf = fireQueue tod ctx q curr ((w.queue q).mask + 1)
        (w.setIdx q (firstIdx (w.queue q) curr) (w.queue q).lastTickIdx) nf false := by
  simp only [expiryQueue, firstIdx]
  by_cases h : idxSub (w.queue q).lastTickIdx (w.queue q).fireIdx (w.queue q).mask +
      idxSub curr (w.queue q).lastTickIdx (w.queue q).mask > (w.queue q).mask
  · rw [if_pos h, if_pos h]
    rfl
  · rw [if_neg h, if_neg h]
    simp [setIdx, modQueue]

theorem Ready.setIdx (hr : Ready ctx w L) {fire last : Nat} (hf : fire ≤ (w.queue q).mask)
    (hl : last ≤ (w.queue q).mask) : Ready ctx (w.setIdx q fire last) L :=
  ⟨hr.good.setIdx (fun _ => fire) (fun _ => last) (fun _ => hf) fun _ => hl, hr.user⟩

theorem firstIdx_le (hs : Shape w) (hq : q < w.nqueues) (curr : Nat) :
    firstIdx (w.queue q) curr ≤ (w.queue q).mask := by
  unfold firstIdx
  split
  · exact Nat.and_le_right
  · exact hs.fireIdx_le q hq

def bury (w : Wheel) (q : Qid) : Wheel :=
  { w with queueHead := w.queueHead.erase q, queueDead := q :: w.queueDead }

theorem Shape.bury (hs : Shape w) (ho : (w.queue q).old = true) : Shape (w.bury q) := by
  have hne : ∀ b, w.head b ≠ q := fun b e => by
    have := hs.old b
    rw [e, ho] at this
    simp at this
  refine ⟨?_, hs.tod, hs.old, hs.nodup.erase q, hs.mask, hs.fireIdx_le, hs.lastTickIdx_le⟩
  obtain ⟨ms, ts, he, hms, hts⟩ := hs.order
  have hmon : w.monTimers ≠ q := hne false
  have htod : w.todTimers ≠ q := hne true
  show ∃ ms ts, w.queueHead.erase q = _ ∧ _
  rw [he]
  by_cases hq : q ∈ ms
  · exact ⟨ms.erase q, ts, erase_append_left _ hq, fun r hr => hms r (mem_of_mem_erase hr), hts⟩
  refine ⟨ms, ts.erase q, ?_, hms, fun r hr => hts r (mem_of_mem_erase hr)⟩
  rw [erase_append_right _ hq, erase_cons_tail (by simpa using hmon)]
  congr 2
  by_cases hq' : q ∈ ts
  · exact erase_append_left _ hq'
  · rw [erase_append_right _ hq', erase_of_not_mem hq', erase_of_not_mem (by simpa using htod.symm)]
    rfl

theorem Good.bury (gd : Good w L tips) (hz : (w.queue q).numActive = 0)
    (ho : (w.queue q).old = true) : Good (w.bury q) L tips := by
  refine ⟨gd.rep.congr rfl rfl (fun _ => rfl) (fun _ => rfl) (fun _ => rfl) (fun _ => rfl)
    erase_sublist (fun r hr hn => ?_) fun _ _ => ⟨rfl, rfl, rfl, rfl⟩, gd.shape.bury ho,
    gd.pend.congr (fun _ => rfl) fun _ _ => rfl⟩
  have hrq : r ≠ q := fun e => hn (e ▸ hz)
  exact (mem_erase_of_ne hrq).mpr hr

def clockFor (w : Wheel) (q : Qid) (tod : Nat) (adjusted : Bool) : Nat × Bool :=
  (if !adjusted && (w.queue q).tod then wrap64 (tod + w.nsecTodAdjust) else tod,
    adjusted || (!adjusted && (w.queue q).tod))

theorem expiryLoop_cons (ctx : Ctx) (q : Qid) (qs : List Qid) (w : Wheel) (tod : Nat)
    (adjusted : Bool) (nf : Nat) : expiryLoop ctx (q :: qs) w tod adjusted nf =
      let c := w.clockFor q tod adjusted
      let curr := getQueueIdx (w.queue q) c.1
      if (w.queue q).numActive ≠ 0 then
        (w.expiryQueue ctx q c.1 curr nf).bind fun r =>
          if r.2.2 then some (r.1.setIdx q (r.1.queue q).fireIdx curr)
          else expiryLoop ctx qs (r.1.setIdx q (r.1.queue q).fireIdx curr) c.1 c.2 r.2.1
      else if (w.queue q).old ∧ ctx ≠ .kerop then
        expiryLoop ctx qs ((w.bury q).setIdx q (w.queue q).fireIdx curr) c.1 c.2 nf
      else expiryLoop ctx qs (w.setIdx q curr curr) c.1 c.2 nf := by
  have hlast : ∀ (v : Wheel) (curr : Nat),
      (v.modQueue q fun t => { t with lastTickIdx := curr }) = v.setIdx q (v.queue q).fireIdx curr :=
    fun v curr => rfl
  have hboth : ∀ curr, (w.modQueue q fun t => { t with fireIdx := curr }).setIdx q
      ((w.modQueue q fun t => { t with fireIdx := curr }).queue q).fireIdx curr =
      w.setIdx q curr curr := fun curr => by
    simp [setIdx, modQueue]
  simp only [expiryLoop, hlast, hboth]
  rfl

theorem expiryLoop_rule {P : List Qid → Wheel → Lists → Nat → Bool → Nat → Prop}
    {R : Wheel → Lists → Prop}
    (hnil : ∀ {w L tod adjusted nf}, P [] w L tod adjusted nf → R w L)
    (hround : ∀ {q qs w L tod adjusted nf c}, Ready ctx w L → q ∈ w.queueHead →
      P (q :: qs) w L tod adjusted nf → w.clockFor q tod adjusted = c → (w.queue q).numActive ≠ 0 →
      ∃ w' L' nf' done,
        w.expiryQueue ctx q c.1 (getQueueIdx (w.queue q) c.1) nf = some (w', nf', done) ∧
        Ready ctx w' L' ∧ Turn q w w' ∧ w'.queueHead = w.queueHead ∧
        (done = true → R (w'.setIdx q (w'.queue q).fireIdx (getQueueIdx (w.queue q) c.1)) L') ∧
        (done = false → P qs (w'.setIdx q (w'.queue q).fireIdx (getQueueIdx (w.queue q) c.1)) L'
          c.1 c.2 nf'))
    (hskip : ∀ {q qs w L tod adjusted nf c}, Ready ctx w L → P (q :: qs) w L tod adjusted nf →
      w.clockFor q tod adjusted = c → (w.queue q).numActive = 0 →
      P qs ((w.bury q).setIdx q (w.queue q).fireIdx (getQueueIdx (w.queue q) c.1)) L c.1 c.2 nf ∧
      P qs (w.setIdx q (getQueueIdx (w.queue q) c.1) (getQueueIdx (w.queue q) c.1)) L c.1 c.2 nf)
    (qs : List Qid) :
    ∀ {w : Wheel} {L : Lists} (tod : Nat) (adjusted : Bool) (nf : Nat), Ready ctx w L →
      (∀ q ∈ qs, q ∈ w.queueHead) → qs.Nodup → P qs w L tod adjusted nf →
      ∃ w' L', expiryLoop ctx qs w tod adjusted nf = some w' ∧ Ready ctx w' L' ∧ R w' L' := by
  induction qs with
  | nil =>
    intro w L tod adjusted nf hr _ _ hP
    exact ⟨w, L, rfl, hr, hnil hP⟩
  | cons q qs ih =>
    intro w L tod adjusted nf hr hmem hnd hP
    have hq := hmem q (by simp)
    have hlt := hr.good.rep.fresh q hq
    have hqs : ∀ r ∈ qs, r ∈ w.queueHead := fun r hrm => hmem r (by simp [hrm])
    obtain ⟨hnot, hnd'⟩ := nodup_cons.mp hnd
    rw [expiryLoop_cons]
    generalize hc : w.clockFor q tod adjusted = c
    have hcurr : getQueueIdx (w.queue q) c.1 ≤ (w.queue q).mask := getQueueIdx_le _ _
    by_cases hz : (w.queue q).numActive = 0
    · rw [if_neg (by simpa using hz)]
      obtain ⟨hb, hs⟩ := hskip hr hP hc hz
      by_cases ho : (w.queue q).old = true ∧ ctx ≠ .kerop
      · rw [if_pos ho]
        have hr' : Ready ctx (w.bury q) L := ⟨hr.good.bury hz ho.1, hr.user⟩
        refine ih _ _ _ (hr'.setIdx (hr.good.shape.fireIdx_le q hlt) hcurr) (fun r hrm => ?_) hnd' hb
        have hrq : r ≠ q := fun e => hnot (e ▸ hrm)
        exact (mem_erase_of_ne hrq).mpr (hqs r hrm)
      rw [if_neg ho]
      exact ih _ _ _ (hr.setIdx hcurr hcurr) hqs hnd' hs
    rw [if_pos (by simpa using hz)]
    obtain ⟨w', L', nf', done, he, hr', ht, hh, hR, hP'⟩ := hround hr hq hP hc hz
    have hmask : (w'.queue q).mask = (w.queue q).mask := by rw [ht.queue]
    have hr'' : Ready ctx (w'.setIdx q (w'.queue q).fireIdx (getQueueIdx (w.queue q) c.1)) L' :=
      hr'.setIdx (hr'.good.shape.fireIdx_le q (ht.nqueues ▸ hlt)) (hmask ▸ hcurr)
    simp only [he]
    cases done with
    | true => exact ⟨_, L', rfl, hr'', hR rfl⟩
    | false => exact ih _ _ _ hr'' (fun r hrm => hh ▸ hqs r hrm) hnd' (hP' rfl)

end Queues

end Wheel

end Qnx.Ker
