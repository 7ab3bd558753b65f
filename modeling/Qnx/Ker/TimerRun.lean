import Qnx.Shared.Run
import Qnx.Ker.TimerTick

/-!
# Runs of the timer queues

The calls of the rest of the kernel and the clock interrupt, what each of them finds, and the
state `timer_init` leaves. In every state of every run the slots hold exactly the active timers,
each in its place, and no call of `timer_insert` loses its way.
-/

namespace Qnx.Ker

open Circular Run List Option

namespace Wheel

def Overdue (w : Wheel) (t : Tip) : Prop :=
  (w.timer t).absolute = true ∧ (w.timer t).nsec ≤ w.snapTime (w.timer t).todBased

instance (w : Wheel) (t : Tip) : Decidable (w.Overdue t) := inferInstanceAs (Decidable (_ ∧ _))

section Activate
variable {w : Wheel} {L : Lists} {t : Tip}

theorem Rep.off (h : Rep w L none) (ha : (w.timer t).active = false) : Rep w L (some t) := by
  refine ⟨h.circles, h.fresh, fun x k => ?_, fun x _ => h.owned x (by simp),
    fun x _ => h.idle x (by simp), h.sorted, h.count⟩
  rw [h.mem_iff]
  refine ⟨fun hx => ⟨fun e => ?_, hx.2⟩, fun hx => ⟨by simp, hx.2⟩⟩
  rw [some.inj e, ha] at hx
  simp at hx

section

variable (g : Good w L w.pendingHead)
include g

theorem timerEvent_task (hp : t ∉ w.pendingHead) :
    ∃ w' L', w.timerEvent t .task = some w' ∧ Served w w' L' ∧ (∀ x ≠ t, Touched w w' x) ∧
      ((w'.timer t).active = false ∨ w'.timer t = w.timer t ∨
        w'.timer t = { w.timer t with intervalNsec := 0 }) := by
  by_cases hth : (w.timer t).hasThread = true
  · obtain ⟨w', L', he, hv, htm⟩ := foldlM_timerDeactivate ((w.event t).getD []) g
    refine ⟨w', L', by simp [timerEvent, hth, he], hv, fun x _ => htm x, ?_⟩
    rcases htm t with h | h | ⟨h, -⟩
    · exact .inr (.inl h)
    · exact .inl h
    · exact absurd h hp
  exact ⟨w.modTimer t fun x => { x with intervalNsec := 0 }, L, by simp [timerEvent, hth],
    (modTimer_apart ..).served (g.clearInterval t), fun x hx => .inl (modTimer_of_ne w _ hx),
    .inr (.inr (modTimer_self ..))⟩

theorem timerFire_task (ha : (w.timer t).active = true)
    (hp : t ∉ w.pendingHead) : ∃ n w' L', w.timerFire t .task = some (n, w') ∧
      Served w w' L' ∧ (∀ x ≠ t, Touched w w' x) ∧
      ((w'.timer t).active = false ∨ (w.timer t).intervalNsec ≠ 0 ∧
        ∃ q, w'.timer t = { w.timer t with nsec := w.nextNsec t, queue := q }) := by
  have hp' : (w.timer t).pending = false := by
    rw [← Bool.not_eq_true, g.pend.iff]
    exact hp
  have hq : (w.timer t).queue ≠ none := fun h => by
    rw [g.rep.queue_eq_none, ha] at h
    simp at h
  obtain ⟨w1, L1, he, hv, htm, hself⟩ := timerEvent_task g hp
  have g1 := hv.good
  have hap := hv.apart
  have hp1 : t ∉ w1.pendingHead := fun h => hp (hv.pending t h)
  have hp1' : (w1.timer t).pending = false := by
    rw [← Bool.not_eq_true, g1.pend.iff]
    exact hp1
  have hfire := timerFire_eq hp' hq (by simp) he
  by_cases ha1 : (w1.timer t).active = true
  · obtain ⟨k, hk⟩ := g1.rep.mem_of_active ha1
    obtain ⟨l1, l2, hl⟩ := append_of_mem hk
    obtain ⟨w', L', he', g', -, hr, hother, hap', -, -⟩ := timerRearm_spec g1 hl hp1 false
    have hq1 : (w1.timer t).queue ≠ none := by
      rw [(g1.rep.active_of_mem hk).2]
      simp
    have hisr : Ctx.task.isr = false := by simp [Ctx.isr]
    refine ⟨_, w', L', by rw [hfire, if_pos ⟨by simp [hp1'], hq1⟩, hisr, he', map_some],
      hv.trans (hap'.served (hap'.pendingHead ▸ g')), fun x hx => ?_, ?_⟩
    · rw [Touched, hother x hx, hap'.pendingHead]
      exact htm x hx
    · by_cases hi : (w1.timer t).intervalNsec = 0
      · refine .inl ?_
        rw [hr, rearmed, if_pos hi]
      have hsame : w1.timer t = w.timer t := by
        rcases hself with h | h | h
        · simp [h] at ha1
        · exact h
        · rw [h] at hi
          exact absurd rfl hi
      refine .inr ⟨hsame ▸ hi, some (w'.head (w1.timer t).todBased), ?_⟩
      rw [hr, rearmed, if_neg hi, nextNsec_congr hsame hap.nsecInc hap.nsec hap.nsecTodAdjust,
        hsame]
  · rw [Bool.not_eq_true] at ha1
    have hq1 := g1.rep.idle t (by simp) ha1
    exact ⟨_, w1, L1, by rw [hfire, if_neg (by simp [hq1])], hv, htm, .inl ha1⟩

theorem timerActivate_spec (ha : (w.timer t).active = false) :
    ∃ w' L', w.timerActivate t = some w' ∧ Served w w' L' ∧
      (∀ x ≠ t, w'.timer x = w.timer x ∨ (w'.timer x).active = false ∨
        w.Overdue t ∧ x ∈ w.pendingHead ∧
          ∃ q, w'.timer x = { w.rearmed x q with pending := false }) ∧
      ((w'.timer t).active = false ∨
        (∃ q, w'.timer t = { w.timer t with active := true, queue := q }) ∨
        w.Overdue t ∧ (w.timer t).intervalNsec ≠ 0 ∧ ∃ q, w'.timer t =
            { w.timer t with active := true, nsec := w.nextNsec t, queue := q }) := by
  have hp : t ∉ w.pendingHead := fun h => by
    have := g.pend.active t h
    simp [ha] at this
  obtain ⟨w1, hw1⟩ : ∃ w1, w1 = w.modTimer t fun x => { x with active := true } := ⟨_, rfl⟩
  have hself1 : w1.timer t = { w.timer t with active := true } := hw1 ▸ modTimer_self ..
  have hother1 : ∀ x ≠ t, w1.timer x = w.timer x := fun x hx => hw1 ▸ modTimer_of_ne w _ hx
  have hrep1 : Rep w1 L (some t) := hw1 ▸ (g.rep.off ha).modTimer t _ fun e => absurd rfl e
  have hst1 : Steady w w1 := hw1 ▸ modTimer_steady ..
  have hap1 : Apart w w1 := hw1 ▸ modTimer_apart ..
  obtain ⟨w2, k, u, v, he, hins, -⟩ := timerInsert_spec hrep1 (hst1.shape g.shape)
    (by rw [hself1]) false
  have hap2 := hap1.trans hins.apart
  have hself2 : w2.timer t = { w.timer t with active := true, queue := some k.1 } := by
    rw [hins.self, hself1]
  have hother2 : ∀ x ≠ t, w2.timer x = w.timer x := fun x hx => by
    rw [hins.others x hx, hother1 x hx]
  have g2 : Good w2 (Function.update L k (u ++ t :: v)) w2.pendingHead := by
    refine ⟨hins.rep, hins.shape, hap2.pendingHead ▸ g.pend.congr (fun x => ?_) fun x hx => ?_⟩
    · by_cases hx : x = t
      · rw [hx, hself2]
      · rw [hother2 x hx]
    · rw [hother2 x fun e => hp (e ▸ hx)]
  by_cases hf : (w2.timer t).absolute = true ∧ (w2.timer t).nsec ≤ w2.snapTime (w2.timer t).todBased
  · obtain ⟨n, w', L', he', hv, htm, hself⟩ := timerFire_task g2 (t := t)
      (by rw [hself2]) (by rw [hap2.pendingHead]; exact hp)
    have hover : w.Overdue t := by
      rwa [hself2, snapTime_congr hap2.nsec hap2.nsecTodAdjust] at hf
    refine ⟨w', L', ?_, (hap2.served g2).trans hv, fun x hx => ?_, ?_⟩
    · simp only [timerActivate, ← hw1, he, bind_some, hf, and_self, if_true, he', map_some]
    · rcases htm x hx with h | h | ⟨h, -, q, hq⟩
      · exact .inl (h.trans (hother2 x hx))
      · exact .inr (.inl h)
      · refine .inr (.inr ⟨hover, hap2.pendingHead ▸ h, q, ?_⟩)
        rw [hq, rearmed_congr hap2 (hother2 x hx)]
    · rcases hself with h | ⟨hi, q, hq⟩
      · exact .inl h
      have hn : w2.nextNsec t = w.nextNsec t := by
        unfold nextNsec stepOf snapTime
        rw [hself2, hap2.nsecInc, hap2.nsec, hap2.nsecTodAdjust]
      refine .inr (.inr ⟨hover, ?_, q, ?_⟩)
      · rwa [hself2] at hi
      · rw [hq, hn, hself2]
  · refine ⟨w2, _, ?_, hap2.served g2, fun x hx => .inl (hother2 x hx),
      .inr (.inl ⟨_, hself2⟩)⟩
    simp only [timerActivate, ← hw1, he, bind_some, hf, if_false]

end

end Activate

section Expiry
variable {w : Wheel} {L : Lists} {ctx : Ctx}

theorem fireSlot_ready (hctx : ctx ≠ .task) (hr : Ready ctx w L) {k : Qid × Nat} (hk : w.Slot k)
    (T nf : Nat) : ∃ w' L' nf' stop, fireSlot T ctx (slotNode k) 52 w
      (w.links.next (slotNode k)) nf = some (w', nf', stop) ∧ Ready ctx w' L' ∧ Tick w w' := by
  have hc := hr.good.rep.circles.circle hk
  have hc' : Circle w.links (slotNode k) ([] ++ (L k).map .timer) := hc
  have tr : Trail w L T k (w.links.next (slotNode k)) [] [] (L k) :=
    ⟨hk, rfl, hc'.next_last, nodup_nil, by simp⟩
  obtain ⟨w', L', nf', stop, -, -, -, he, hr', ht, -⟩ := fireSlot_rule (T := T) (k := k)
    (J := fun _ _ _ _ _ _ => True) hctx (fun _ _ _ _ => trivial) (fun _ _ _ _ _ => trivial) 52 hr tr
    trivial (by omega) (Nat.le_add_right 52 nf)
  exact ⟨w', L', nf', stop, he, hr', ht⟩

theorem expiryQueue_ready (hctx : ctx ≠ .task) (hr : Ready ctx w L) {q : Qid}
    (hq : q < w.nqueues) {curr : Nat} (hc : curr ≤ (w.queue q).mask) (T nf : Nat) :
    ∃ w' L' nf' done, w.expiryQueue ctx q T curr nf = some (w', nf', done) ∧ Ready ctx w' L' ∧
      Turn q w w' ∧ w'.queueHead = w.queueHead := by
  obtain ⟨e, -, he⟩ := hr.good.shape.mask q hq
  have hr1 := hr.setIdx (firstIdx_le hr.good.shape hq curr) (hr.good.shape.lastTickIdx_le q hq)
  obtain ⟨w', L', nf', done, hf, hr', ht, hh, -⟩ := fireQueue_rule (T := T) (q := q)
    (P := fun _ _ _ _ _ => True) (R := fun _ _ _ _ => True) (fun {i w L nf done} hr hs _ => by
      obtain ⟨w', L', nf', stop, he, hr', ht⟩ := fireSlot_ready hctx hr hs T nf
      exact ⟨w', L', nf', stop, he, hr', ht, fun _ => trivial, fun _ => trivial⟩)
    he hc ((w.queue q).mask + 1) nf false hr1 hq
    (by simp [setIdx]) (Nat.mod_lt _ (Nat.succ_pos _)) trivial
  refine ⟨w', L', nf', done, by rw [expiryQueue_eq, hf], hr', ?_, hh⟩
  exact (turn_setIdx w q (fun _ => firstIdx (w.queue q) curr)
    fun _ => (w.queue q).lastTickIdx).trans ht

theorem timerExpiry_ready (hctx : ctx ≠ .task) (hr : Ready ctx w L) :
    ∃ w' L', w.timerExpiry ctx = some w' ∧ Good w' L' w'.pendingHead := by
  obtain ⟨w', L', he, hr', -⟩ := expiryLoop_rule
    (P := fun _ _ _ _ _ _ => True) (R := fun _ _ => True) (fun _ => trivial)
    (fun {q qs w L tod adjusted nf c} hr hq _ _ _ => by
      obtain ⟨w', L', nf', done, he, hr', ht, hh⟩ := expiryQueue_ready hctx hr
        (hr.good.rep.fresh q hq) (getQueueIdx_le (w.queue q) c.1) _ nf
      exact ⟨w', L', nf', done, he, hr', ht, hh, fun _ => trivial, fun _ => trivial⟩)
    (fun _ _ _ _ => ⟨trivial, trivial⟩) w.queueHead w.nsec false 0 hr (fun _ h => h) hr.good.shape.nodup trivial
  simp only [timerExpiry, he, map_some]
  split
  · exact ⟨_, L', rfl, hr'.good.env rfl rfl rfl rfl rfl rfl rfl⟩
  · exact ⟨w', L', rfl, hr'.good⟩

end Expiry

/-- `clock`, `setTimer`, `setThread` and `world` are changes made by the rest of the kernel: the
time, a timer that is set up, its thread, and what memory and events will do. -/
inductive Op where
  | activate (tip : Tip)
  | deactivate (tip : Tip)
  | expiry (ctx : Ctx)
  | pending
  | rearm (tip : Tip) (isr : Bool)
  | period (nsecInc : Nat)
  | clock (nsec nsecTodAdjust : Nat)
  | setTimer (tip : Tip) (timer : Timer)
  | setThread (tip : Tip) (hasThread : Bool)
  | world (allocs : List Bool) (event : Tip → Option (List Tip)) (queued grow : Nat)

def step (w : Wheel) : Op → Option Wheel
  | .activate tip => w.timerActivate tip
  | .deactivate tip => w.timerDeactivate tip
  | .expiry ctx => w.timerExpiry ctx
  | .pending => w.timerPending
  | .rearm tip isr => w.timerRearm tip isr
  | .period inc => some { w with nsecInc := inc }.timerPeriod
  | .clock nsec adjust => some { w with nsec := nsec, nsecTodAdjust := adjust }
  | .setTimer tip timer => some (w.modTimer tip fun _ => timer)
  | .setThread tip b => some (w.modTimer tip fun t => { t with hasThread := b })
  | .world allocs event queued grow =>
    some { w with
      allocs := allocs, event := event, queuedIntrevents := queued, growIntrevents := grow }

def Idle (t : Timer) : Prop := t.active = false ∧ t.pending = false ∧ t.queue = none

instance (t : Timer) : Decidable (Idle t) := inferInstanceAs (Decidable (_ ∧ _))

/-- What the callers promise. An interrupt over user code finds no timer pending, because the
pending list is worked off before the kernel is left. -/
def Entry (w : Wheel) : Op → Prop
  | .activate tip => (w.timer tip).active = false
  | .expiry ctx => ctx ≠ .task ∧ (ctx = .user → w.pendingHead = [])
  | .rearm tip _ => (w.timer tip).active = true ∧ (w.timer tip).pending = false
  | .setTimer tip timer => (w.timer tip).active = false ∧ Idle timer
  | _ => True

instance (w : Wheel) : ∀ o, Decidable (w.Entry o)
  | .activate tip => inferInstanceAs (Decidable ((w.timer tip).active = false))
  | .expiry _ => inferInstanceAs (Decidable (_ ∧ _))
  | .rearm _ _ => inferInstanceAs (Decidable (_ ∧ _))
  | .setTimer _ _ => inferInstanceAs (Decidable (_ ∧ _))
  | .deactivate _ | .pending | .period _ | .clock _ _ | .setThread _ _ | .world _ _ _ _ =>
    inferInstanceAs (Decidable True)

/-- As `timer_init` leaves it, with nothing active. -/
def Init (w : Wheel) : Prop :=
  ∃ w₀ : Wheel, w₀.nqueues = 0 ∧ w₀.pendingHead = [] ∧ (∀ t, Idle (w₀.timer t)) ∧ w = w₀.timerInit

theorem Init.good {w : Wheel} (h : Init w) : Good w (fun _ => []) w.pendingHead := by
  obtain ⟨w0, hn, hp, hidle, rfl⟩ := h
  have htwo : ∀ q : Qid, q < 2 → q = 0 ∨ q = 1 := fun q hq =>
    Nat.le_one_iff_eq_zero_or_eq_one.mp (Nat.le_of_lt_succ hq)
  have hqueue : ∀ q < 2, (w0.timerInit.queue q) = ⟨0, 3, 0, decide (q = 0), false, 0, 0⟩ := by
    intro q hq
    simp only [timerInit, newQueue, modQueue, hn]
    rcases htwo q hq with rfl | rfl <;> simp
  have hnq : w0.timerInit.nqueues = 2 := by simp [timerInit, newQueue, modQueue, hn]
  have hhead : w0.timerInit.queueHead = [1, 0] := by simp [timerInit, newQueue, modQueue, hn]
  have hlinks : ∀ q < 2, ∀ i < 4, w0.timerInit.links.next (.slot q i) = .slot q i ∧
      w0.timerInit.links.prev (.slot q i) = .slot q i := by
    intro q hq i hi
    simp only [timerInit, newQueue, modQueue, hn, initSlots]
    rcases htwo q hq with rfl | rfl <;> simp [hi]
  have hpend : w0.timerInit.pendingHead = [] := hp
  have htimer : w0.timerInit.timer = w0.timer := rfl
  have hhd : ∀ b, w0.timerInit.queue (w0.timerInit.head b) = ⟨0, 3, 0, b, false, 0, 0⟩ := by
    intro b
    have hb : w0.timerInit.head b = if b then 0 else 1 := by
      cases b <;> simp [timerInit, newQueue, modQueue, hn, head]
    rw [hb, hqueue _ (by cases b <;> decide)]
    cases b <;> rfl
  refine ⟨⟨⟨fun {k} hk => ?_, by simp, fun {j k x} hj hk => ?_⟩, ?_, fun t k => ?_, fun t _ ha => ?_,
    fun t _ _ => (hidle t).2.2, by simp, fun q hq => ?_⟩, ⟨⟨[], [], ?_, by simp, by simp⟩,
    fun b => ?_, fun b => ?_, ?_, fun q hq => ?_, fun q hq => ?_, fun q hq => ?_⟩,
    ⟨fun t => ?_, ?_, ?_⟩⟩
  · obtain ⟨h1, h2⟩ := hk
    rw [hnq] at h1
    rw [hqueue _ h1] at h2
    exact circle_nil_iff.mpr (hlinks _ h1 _ (Nat.lt_succ_of_le h2))
  · have hj' : x = slotNode j := by simpa using hj
    have hk' : x = slotNode k := by simpa using hk
    rw [hj'] at hk'
    simp only [slotNode, Node.slot.injEq] at hk'
    exact Prod.ext hk'.1 hk'.2
  · rw [hhead, hnq]
    simp
  · simp [htimer, (hidle t).1]
  · simp [htimer, (hidle t).1] at ha
  · rw [hnq] at hq
    simp [hqueue q hq, linkedIn]
  · rw [hhead]
    simp [timerInit, newQueue, modQueue, hn]
  · rw [hhd]
  · rw [hhd]
  · rw [hhead]
    simp
  all_goals first | rw [hnq] at hq; rw [hqueue q hq] | skip
  · exact ⟨2, by omega, rfl⟩
  · simp
  · simp
  · rw [hpend, htimer, (hidle t).2.1]
    simp
  · rw [hpend]
    exact nodup_nil
  · rw [hpend]
    simp

theorem good_step {w : Wheel} {L : Lists} (g : Good w L w.pendingHead) {o : Op} (ho : w.Entry o) :
    ∃ w' L', w.step o = some w' ∧ Good w' L' w'.pendingHead := by
  cases o with
  | activate tip =>
    obtain ⟨w', L', he, hv, -⟩ := timerActivate_spec g ho
    exact ⟨w', L', he, hv.good⟩
  | deactivate tip =>
    obtain ⟨w', L', he, hv, -⟩ := timerDeactivate_spec g tip
    exact ⟨w', L', he, hv.good⟩
  | expiry ctx => exact timerExpiry_ready ho.1 ⟨g, ho.2⟩
  | pending =>
    obtain ⟨w', L', he, g', hap, -⟩ := timerPending_spec g
    have hnil : w'.pendingHead = [] := hap.pendingHead
    exact ⟨w', L', he, hnil ▸ g'⟩
  | rearm tip isr =>
    obtain ⟨k, hk⟩ := g.rep.mem_of_active ho.1
    obtain ⟨l1, l2, hl⟩ := append_of_mem hk
    have hp : tip ∉ w.pendingHead := by
      rw [← g.pend.iff, ho.2]
      simp
    obtain ⟨w', L', he, g', -, -, -, hap, -⟩ := timerRearm_spec g hl hp isr
    exact ⟨w', L', he, hap.pendingHead ▸ g'⟩
  | period inc =>
    have g1 : Good { w with nsecInc := inc } L w.pendingHead := g.env rfl rfl rfl rfl rfl rfl rfl
    obtain ⟨g2, hap, -⟩ := timerPeriod_spec g1
    refine ⟨_, L, rfl, ?_⟩
    rw [hap.pendingHead]
    exact g2
  | clock nsec adjust => exact ⟨_, L, rfl, g.env rfl rfl rfl rfl rfl rfl rfl⟩
  | setTimer tip timer =>
    obtain ⟨ha, hi⟩ := ho
    have hp : tip ∉ w.pendingHead := fun h => by
      have := g.pend.active tip h
      simp [ha] at this
    refine ⟨_, L, rfl, ?_, (modTimer_steady ..).shape g.shape, ?_⟩
    · refine ((g.rep.off ha).modTimer tip _ fun e => absurd rfl e).retire ?_ ?_
      · rw [modTimer_self]
        exact hi.1
      · rw [modTimer_self]
        exact hi.2.2
    · refine g.pend.congr (fun x => ?_) fun x hx => ?_
      · by_cases hx : x = tip
        · have := (g.pend.iff tip).not.mpr hp
          rw [hx, modTimer_self, hi.2.1]
          simpa using this
        · rw [modTimer_of_ne w _ hx]
      · have hxt : x ≠ tip := fun e => hp (e ▸ hx)
        rw [modTimer_of_ne w _ hxt]
  | setThread tip b =>
    refine ⟨_, L, rfl, g.modTimer tip _ ⟨rfl, rfl, rfl, rfl⟩ (g.pend.congr (fun x => ?_)
      fun x _ => ?_)⟩
    all_goals
      by_cases hx : x = tip
      · rw [hx, modTimer_self]
      · rw [modTimer_of_ne w _ hx]
  | world allocs event queued grow => exact ⟨_, L, rfl, g.env rfl rfl rfl rfl rfl rfl rfl⟩

theorem reach_good {w : Wheel} (h : Reach Init Entry step w) : ∃ L, Good w L w.pendingHead := by
  refine h.invariant_of_total (P := fun w => ∃ L, Good w L w.pendingHead)
    (fun w hi => ⟨_, hi.good⟩) fun w o ⟨L, g⟩ ho => ?_
  obtain ⟨w', L', he, g'⟩ := good_step g ho
  exact ⟨w', he, L', g'⟩

/-- The timer queues of `w`, spelled out with the lists `L` their slots hold. -/
structure QueuesOk (w : Wheel) (L : Lists) : Prop where
  linked : ∀ q i, q < w.nqueues → i ≤ (w.queue q).mask →
    Circle w.links (.slot q i) ((L (q, i)).map .timer)
  place : ∀ t, (w.timer t).active = true → ∃ q ∈ w.queueHead, (w.timer t).queue = some q ∧
    ∀ k, t ∈ L k ↔ k = (q, getQueueIdx (w.queue q) (w.timer t).nsec)
  once : ∀ k, (L k).Nodup
  active : ∀ t k, t ∈ L k → (w.timer t).active = true
  sorted : ∀ k, (L k).Pairwise fun a b => (w.timer a).nsec ≤ (w.timer b).nsec
  count : ∀ q ∈ w.queueHead, (w.queue q).numActive =
    ∑ i ∈ Finset.range ((w.queue q).mask + 1), (L (q, i)).length
  search : ∀ t isr, ∀ q ∈ w.queueHead, ∃ p allocs, w.findPlace t q isr = some (p, allocs) ∧
    (L (q, getQueueIdx (w.queue q) (w.timer t).nsec) ≠ [] → p = .grow ∨
      ∃ x ∈ L (q, getQueueIdx (w.queue q) (w.timer t).nsec),
        p = .after (.timer x) ∨ p = .before (.timer x))

theorem lastOf_mem_of_ne {s : Node} {l : List Tip} (h : l ≠ []) :
    ∃ x ∈ l, lastOf s (l.map .timer) = .timer x := by
  obtain ⟨m, x, rfl⟩ := (eq_nil_or_concat' l).resolve_left h
  exact ⟨x, by simp, by rw [map_append]; exact lastOf_concat _ _ _⟩

theorem firstOf_mem_of_ne {s : Node} {l : List Tip} (h : l ≠ []) :
    ∃ x ∈ l, firstOf s (l.map .timer) = .timer x := by
  obtain ⟨x, m, rfl⟩ := exists_cons_of_ne_nil h
  exact ⟨x, by simp, rfl⟩

theorem Good.queuesOk {w : Wheel} {L : Lists} {tips : List Tip} (g : Good w L tips) :
    w.QueuesOk L where
  linked q i hq hi := g.rep.circles.circle (k := (q, i)) ⟨hq, hi⟩
  place t ha := by
    obtain ⟨q, hq, hqt, -⟩ := g.rep.owned t (by simp) ha
    refine ⟨q, hq, hqt, fun k => ?_⟩
    have hmem : t ∈ L (w.home q t) := (g.rep.mem_iff t _).mpr ⟨by simp, ha, hqt, rfl⟩
    exact ⟨fun hk => g.rep.eq_of_mem hk hmem, fun hk => hk ▸ hmem⟩
  once := g.rep.nodup
  active t k hk := (g.rep.active_of_mem hk).1
  sorted := g.rep.sorted
  count q hq := g.rep.count q (g.rep.fresh q hq)
  search t isr q hq := by
    obtain ⟨p, allocs, he, hp⟩ := findPlace_spec g.rep hq t isr
    refine ⟨p, allocs, he, fun hne => ?_⟩
    rcases hp with ⟨hp, -⟩ | ⟨u, v, hcut, ⟨hnil, -⟩ | ⟨hu, hp⟩ | ⟨hv, hp⟩⟩
    · exact .inl hp
    · exact absurd hnil hne
    · obtain ⟨x, hx, hl⟩ := lastOf_mem_of_ne (s := slotNode (w.home q t)) hu
      exact .inr ⟨x, hcut.eq ▸ mem_append_left v hx, .inl (hl ▸ hp)⟩
    · obtain ⟨x, hx, hl⟩ := firstOf_mem_of_ne (s := slotNode (w.home q t)) hv
      exact .inr ⟨x, hcut.eq ▸ mem_append_right u hx, .inr (hl ▸ hp)⟩

/-- In every reachable state the slots represent the active timers, and whatever may be called
next comes to its end. -/
theorem timer_queues_represent {w : Wheel} (h : Reach Init Entry step w) :
    (∃ L, w.QueuesOk L) ∧ ∀ o, w.Entry o → (w.step o).isSome := by
  obtain ⟨L, g⟩ := reach_good h
  refine ⟨⟨L, g.queuesOk⟩, fun o ho => ?_⟩
  obtain ⟨w', -, he, -⟩ := good_step g ho
  rw [he]
  rfl

def relative (nsec interval : Nat) : Timer where
  nsec := nsec
  intervalNsec := interval
  todBased := false
  absolute := false
  softtime := false
  active := false
  pending := false
  hasThread := true
  queue := none

def bare : Wheel where
  links := ⟨id, id⟩
  timer := fun _ => relative 0 0
  queue := fun _ => ⟨0, 0, 0, false, false, 0, 0⟩
  nqueues := 0
  queueHead := []
  queueDead := []
  monTimers := 0
  todTimers := 0
  pendingHead := []
  timerOpsDelayed := false
  nsec := 0
  nsecTodAdjust := 0
  nsecInc := 1
  queuedIntrevents := 0
  growIntrevents := 100
  allocs := []
  event := fun _ => none

theorem init_bare : Init bare.timerInit := ⟨bare, rfl, rfl, fun _ => ⟨rfl, rfl, rfl⟩, rfl⟩

theorem reach_bare : Reach Init Entry step bare.timerInit := .init init_bare

theorem timer_queues_represent_run : ∃ w, Reach Init Entry step w ∧
    (w.timer 1).active = true ∧ (w.timer 1).nsec = 12 ∧
    ((∃ L, w.QueuesOk L) ∧ ∀ o, w.Entry o → (w.step o).isSome) := by
  obtain ⟨w, h, hq⟩ := reach_bare.replay_any
    [.setTimer 1 (relative 4 8), .setTimer 2 (relative 4 0), .setTimer 3 (relative 20 0),
      .activate 1, .activate 2, .activate 3, .period 8, .clock 8 0, .expiry .kerop, .pending,
      .deactivate 3]
    (fun w => (w.timer 1).active && (w.timer 1).nsec == 12) (by decide +kernel)
  simp only [Bool.and_eq_true, beq_iff_eq] at hq
  exact ⟨w, h, hq.1, hq.2, timer_queues_represent h⟩

end Wheel

end Qnx.Ker
