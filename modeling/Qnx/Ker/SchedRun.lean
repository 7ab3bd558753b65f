import Qnx.Shared.Run
import Qnx.Ker.SchedStep

/-!
# Runs of the scheduler

The operations the rest of the kernel makes on the scheduler, what it owes on entry, and the
state `init_objects` leaves. In every state of every run the dispatch table lists exactly the
ready threads.
-/

namespace Qnx.Ker

open OwnerList Qnx.Ker.Core Run

namespace Sched

/-- `block` and `block_and_ready` come with the state their caller has just given the active
thread. `update` and `setFlags` are writes of other kernel code. -/
inductive Op where
  | ready (thp : Thp)
  | block (st : State)
  | blockAndReady (st : State) (thp : Thp)
  | unready (thp : Thp) (st : State)
  | yield
  | resched
  | adjustPriority (thp : Thp) (prio : Prio)
  | schedThread (thp : Thp) (policy : PolicyArg) (param : SchedParam) (alloc : Bool)
  | schedSsUpdate (thp : Thp) (drop : Bool)
  | schedSsAdjust
  | msgCurrent (rcvid : Rcvid)
  | setRunmask (thp : Thp) (runmask : BitVec 32)
  | tick (inc : Nat)
  | clock (now : Nat)
  | setFlags (thp : Thp) (toBeStopped killself waaa : Bool)
  | update (thp : Thp) (th : Thread)

def step (s : Sched) : Op → Option Sched
  | .ready thp => some (s.ready thp)
  | .block st => (s.setState s.actives st).block
  | .blockAndReady st thp => (s.setState s.actives st).blockAndReady thp
  | .unready thp st => s.unready thp st
  | .yield => some s.yield
  | .resched => some s.resched
  | .adjustPriority thp prio => some (s.adjustPriority thp prio)
  | .schedThread thp policy param alloc => some (s.schedThread thp policy param alloc).2
  | .schedSsUpdate thp drop => some (s.schedSsUpdate thp drop)
  | .schedSsAdjust => some s.schedSsAdjust.1
  | .msgCurrent rcvid => some (s.kerMsgCurrent rcvid).2
  | .setRunmask thp runmask => some (s.setRunmask thp runmask).2
  | .tick inc => some (s.tick inc)
  | .clock now => some { s with clock := now }
  | .setFlags thp stop kill waaa => some (s.modThread thp fun th =>
      { th with toBeStopped := stop, killself := kill, waaa := waaa })
  | .update thp th => some (s.modThread thp fun _ => th)

def Entry (s : Sched) : Op → Prop
  | .ready thp => (s.thread thp).state ≠ .ready ∧ thp ≠ s.actives
  | .block st => st.Blocked
  | .blockAndReady st thp => st.Blocked ∧ (s.thread thp).state ≠ .ready ∧ thp ≠ s.actives
  | .unready _ st => st.Blocked
  | .schedSsUpdate thp _ => (s.thread thp).policy = .sporadic
  | .update thp th => thp ≠ s.actives ∧ (s.thread thp).state.Blocked ∧ th.state.Blocked
  | _ => True

instance (s : Sched) : ∀ o, Decidable (s.Entry o)
  | .ready _ => inferInstanceAs (Decidable (_ ∧ _))
  | .block st => inferInstanceAs (Decidable st.Blocked)
  | .blockAndReady _ _ => inferInstanceAs (Decidable (_ ∧ _))
  | .unready _ st => inferInstanceAs (Decidable st.Blocked)
  | .schedSsUpdate thp _ => inferInstanceAs (Decidable ((s.thread thp).policy = .sporadic))
  | .update _ _ => inferInstanceAs (Decidable (_ ∧ _))
  | .yield | .resched | .adjustPriority _ _ | .schedThread _ _ _ _ | .schedSsAdjust
  | .msgCurrent _ | .setRunmask _ _ | .tick _ | .clock _ | .setFlags _ _ _ _ =>
    inferInstanceAs (Decidable True)

/-- As `init_objects` leaves it: the idle thread runs, at the top priority for now, and the
dispatch table is zero. -/
structure Init (s : Sched) : Prop where
  running : (s.thread s.actives).state = .running
  policy : (s.thread s.actives).policy = .rr
  priority : (s.thread s.actives).priority = 255
  blocked : ∀ t, t ≠ s.actives → (s.thread t).state.Blocked
  dpp : s.dpp = Dispatch.zero
  replenish : s.ssReplenishList = []

theorem Init.queued {s : Sched} (h : Init s) : s.core.Queued := by
  refine ⟨fun _ => [], by rw [core_dpp, h.dpp]; exact Dispatch.queues_zero, fun t p => ?_⟩
  by_cases ht : t = s.actives
  · simp [ht, h.running]
  · simp [(h.blocked t ht).1]

theorem Init.ordered {s : Sched} (h : Init s) : s.core.Ordered := by
  refine ⟨h.queued, h.running, fun t ht => ?_⟩
  have : t = s.actives := by
    by_contra hne
    exact (h.blocked t hne).1 ht
  rw [this]
  rfl

theorem stable_step {P : Core → Prop} (hP : Stable P) {s s' : Sched} {o : Op}
    (hbr : ∀ st thp, o = .blockAndReady st thp → P s'.core)
    (hmc : ∀ rcvid, o = .msgCurrent rcvid → P s'.core)
    (h : P s.core) (ho : s.Entry o) (hs : s.step o = some s') : P s'.core := by
  have hsound := (hP.closed 0).sound h
  cases o with
  | ready thp =>
    cases hs
    exact stable_ready hP ho.1 ho.2 h
  | block st =>
    refine hP.ordered (ordered_block ?_ hs)
    rw [core_setState]
    exact hsound.queued.setState hsound.idle ho.1
  | blockAndReady st thp => exact hbr st thp rfl
  | unready thp st => exact stable_unready hP ho.1 h hs
  | yield =>
    cases hs
    exact closed_yield (hP.closed _) rfl h
  | resched =>
    cases hs
    exact stable_resched hP h
  | adjustPriority thp p =>
    cases hs
    exact closed_adjustPriority (hP.closed _) p h
  | schedThread thp policy param alloc =>
    cases hs
    exact stable_schedThread hP thp policy param alloc h
  | schedSsUpdate thp drop =>
    cases hs
    exact closed_schedSsUpdate (hP.closed _) drop h
  | schedSsAdjust =>
    cases hs
    exact stable_schedSsAdjust hP h
  | msgCurrent rcvid => exact hmc rcvid rfl
  | setRunmask thp m =>
    cases hs
    rwa [core_setRunmask]
  | tick inc =>
    cases hs
    rwa [core_tick]
  | clock now =>
    cases hs
    exact h
  | setFlags thp a b c =>
    cases hs
    rw [core_modThread_of _ _ rfl rfl]
    exact h
  | update thp th =>
    cases hs
    rw [core_modThread]
    exact hP.update h ho.1 ho.2.1.1 ho.2.2.1

theorem blockAndReady_entry {s : Sched} {st : State} {t : Thp} (h : s.core.Sound)
    (ho : s.Entry (.blockAndReady st t)) :
    Aside t (s.thread t).state (s.prio t) ((s.setState s.actives st).clearLinks t).core := by
  obtain ⟨hst, ht, hne⟩ := ho
  have hs : (s.core.setState s.actives st).Sound :=
    ⟨h.queued.setState h.idle hst.1, by simpa using hst.1⟩
  have hr : (s.core.setState s.actives st).state t ≠ .ready := by simpa [hne] using ht
  rw [clearLinks, core_modDpp, core_setState]
  exact ⟨⟨hs.queued.clearLinks hr, hs.idle⟩, hne, by simp [hne], rfl⟩

theorem sound_blockAndReady {s s' : Sched} {st : State} {t : Thp} (h : s.core.Sound)
    (ho : s.Entry (.blockAndReady st t)) (hs : s.step (.blockAndReady st t) = some s') :
    s'.core.Sound := by
  have hA := blockAndReady_entry h ho
  have ht : (s.thread t).state ≠ .ready := ho.2.1
  simp only [step, blockAndReady] at hs
  generalize (s.setState s.actives st).clearLinks t = s1 at hA hs
  split at hs
  · refine (ordered_block ?_ hs).sound
    rw [core_setState]
    exact hA.sound.queued.setState (hA.state ▸ ht) (by simp)
  have hA2 := closed_stopActive (t := t) (closed_aside ht (Ne.symm hA.ne)) hA
  have hp : s1.prio t = (s1.stopActive t).prio t := hA.prio.trans hA2.prio.symm
  rw [hp] at hs
  exact sound_runOrQueue ht ⟨hA2.sound, hA2.ne, hA2.state, rfl⟩ hs

theorem sound_step {s s' : Sched} {o : Op} (h : s.core.Sound) (ho : s.Entry o)
    (hs : s.step o = some s') : s'.core.Sound := by
  refine stable_step stable_sound ?_ ?_ h ho hs
  · rintro st t rfl
    exact sound_blockAndReady h ho hs
  · rintro rcvid rfl
    cases hs
    rcases s.core_kerMsgCurrent rcvid with he | ⟨thp, _, s1, hc, he⟩
    · rwa [he]
    rw [he]
    refine closed_adjustPriority (closed_sound _) _ ?_
    rw [hc]
    exact ⟨h.queued.setPriority h.idle _, h.idle⟩

theorem reach_sound {s : Sched} (h : Reach Init Entry step s) : s.core.Sound :=
  h.invariant (fun _ hi => hi.ordered.sound) fun _ _ _ hp ho hs => sound_step hp ho hs

/-- The dispatch table of `s`, spelled out with the lists `L` it holds. -/
structure TableOk (s : Sched) (L : Nat → List Thp) : Prop where
  ready : ∀ t p, t ∈ L p ↔ (s.thread t).state = .ready ∧ s.prio t = p
  once : ∀ p, (L p).Nodup
  linked : ∀ p, Linked s.dpp.links (.head p) (L p)
  tail : ∀ p, s.dpp.tail p = (L p).getLast?
  empty : ∀ p, s.dpp.tail p = none ↔ s.dpp.links.head p = none
  bit : ∀ p, s.dpp.bits.isSet p = true ↔ L p ≠ []
  summary : s.dpp.bits.Summary
  highest : ∀ p, L p ≠ [] → L s.dpp.bits.highestPri ≠ [] ∧ p ≤ s.dpp.bits.highestPri

theorem Core.Rep.tableOk {s : Sched} {L : Nat → List Thp} (h : s.core.Rep L) : s.TableOk L where
  ready := h.mem
  once := h.queues.lists.reps.nodup
  linked := h.queues.lists.reps.linked
  tail := h.queues.lists.tail
  empty p := by
    rw [← core_dpp, h.queues.lists.tail, h.queues.lists.reps.head_eq, List.getLast?_eq_none_iff,
      List.head?_eq_none_iff]
  bit := h.queues.bits.isSet
  summary := h.queues.bits.summary
  highest _ hp := h.queues.highestPri hp

/-- In every reachable state the dispatch table represents the ready threads. -/
theorem dispatch_represents_ready {s : Sched} (h : Reach Init Entry step s) : ∃ L, s.TableOk L := by
  obtain ⟨L, hL⟩ := (reach_sound h).queued
  exact ⟨L, Core.Rep.tableOk hL⟩

def stoppedAt (p : Prio) : Thread where
  priority := p
  realPriority := p
  policy := .fifo
  state := .stopped
  rrTicks := 0
  ss := SSInfo.zero
  runmask := ⟨0, by decide⟩
  toBeStopped := false
  killself := false
  waaa := false
  specretPending := false
  process := 1
  ring0 := false
  euid0 := true
  client := none
  server := none
  blockedOn := 0

def boot : Sched where
  actives := 0
  thread := fun t =>
    if t = 0 then { stoppedAt 255 with state := .running, policy := .rr } else stoppedAt 10
  dpp := Dispatch.zero
  ssReplenishList := []
  ssReplenishTime := 0
  clock := 0
  runningTime := fun _ => 0
  maxCpuTime := fun _ => 2 ^ 64 - 1
  connect := fun _ => ⟨false, 0, false⟩
  rrMaxticks := 8
  privPrio := 64

theorem init_boot : Init boot where
  running := rfl
  policy := rfl
  priority := rfl
  blocked t ht := by
    have h0 : t ≠ 0 := ht
    simp [boot, h0, stoppedAt, State.Blocked]
  dpp := rfl
  replenish := rfl

theorem reach_boot : Reach Init Entry step boot := .init init_boot

theorem dispatch_represents_ready_run : ∃ s, Reach Init Entry step s ∧
    (s.thread 1).state = .ready ∧ (s.thread 2).state = .ready ∧ ∃ L, s.TableOk L := by
  obtain ⟨s, h, hq⟩ := reach_boot.replay_any [.ready 1, .ready 2, .tick 5, .resched]
    (fun s => (s.thread 1).state = .ready && (s.thread 2).state = .ready)
    (by decide +kernel)
  simp only [Bool.and_eq_true, decide_eq_true_eq] at hq
  exact ⟨s, h, hq.1, hq.2, dispatch_represents_ready h⟩

/-- `adjust_priority` is entered again once at the most, through `yield` and `sched_ss_update`. -/
theorem adjustPriority_depth {s : Sched} (h : Reach Init Entry step s) (n : Nat) (t : Thp)
    (p : Prio) : adjustN (n + 2) s t p = s.adjustPriority t p := by
  have hs := reach_sound h
  by_cases hy : (s.thread t).priority = p ∧ t = s.actives
  · have he : ∀ adj, adjustPriorityWith adj s t p = yieldWith adj s := by
      simp [adjustPriorityWith, hy.1, ← hy.2]
    simp only [adjustPriority, adjustN, he]
    refine yieldWith_congr fun s' u q hs' hh => ?_
    refine adjustPriorityWith_congr fun hq => hs.idle ?_
    have hu : s'.actives = u := congrArg Core.actives hs'
    rw [show s.core.actives = u from hq.2.trans hu]
    exact (hs.queued.head_some hh).1
  · exact adjustPriorityWith_congr hy

/-- A sporadic thread yields and drops: the call made on the way lowers its priority. -/
theorem adjustPriority_depth_drop : ∃ s, Reach Init Entry step s ∧ s.actives = 1 ∧
    ((adjustN 1 s 1 10).thread 1).priority = 10 ∧
    ((s.adjustPriority 1 10).thread 1).priority = 5 ∧
    adjustN 9 s 1 10 = s.adjustPriority 1 10 := by
  refine exists_reach init_boot
    [.adjustPriority 0 0, .schedThread 1 (.policy .sporadic) ⟨10, 5, 1, 100, 20⟩ true, .ready 1,
      .ready 2, .clock 7] (by decide +kernel) fun s h
      (hq : s.actives = 1 ∧ ((adjustN 1 s 1 10).thread 1).priority = 10 ∧
        ((s.adjustPriority 1 10).thread 1).priority = 5) => ?_
  exact ⟨hq.1, hq.2.1, hq.2.2, adjustPriority_depth h 7 1 10⟩

end Sched

end Qnx.Ker
