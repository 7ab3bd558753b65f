import Qnx.Ker.SporadicThread

/-!
# Runs of the sporadic server

The scheduler's operations with the hooks `sched_ss_block` and `sched_ss_queue` as operations
of their own, and the priorities that `sched_thread` was asked for as a ghost.
-/

namespace Qnx.Ker

open Run

namespace Sched

variable {s s' : Sched} {req : Thp → Prio} {t : Thp}

section

variable (h : s.Mode req)
include h

theorem Mode.modSS (t : Thp)
    {f : SSInfo → SSInfo} (hlow : ∀ ss, (f ss).lowPriority = ss.lowPriority)
    (horg : ∀ ss, (f ss).orgPriority = ss.orgPriority) (ha : ∀ ss, (f ss).amount = ss.amount) :
    (s.modSS t f).Mode req := by
  have hc := (CalmOff.refl t s).modSS f
  refine h.off_self hc (h.listed.off hc h.listed.once ?_ ?_) ?_
  · rw [modSS_self, ha]
    exact h.listed.mem t
  · rw [modSS_self, ha, horg]
    exact h.listed.dropped t
  · rw [modSS_self]
    refine ⟨(h.prios t).pos, fun hp ho => (h.prios t).normal hp (horg _ ▸ ho), fun hp ho => ?_⟩
    rw [hlow, horg]
    exact (h.prios t).dropped hp (horg _ ▸ ho)

section

variable (hw : (s.thread s.actives).NoWrap)
include hw

theorem mode_block (hs : s.block = some s') : s'.Mode req := by
  unfold block at hs
  split at hs
  · cases hs
  rename_i act s1 hsel
  have hc1 := calm_selectThread hsel
  cases hs
  generalize hs2 : (if (s1.thread s.actives).isSchedRR ∧
    (s.actives = act ∨ s1.prio s.actives < s1.prio act) then
      s1.rrAddPreemptTick s.actives else s1) = s2
  have hc2 : Calm s1 s2 := by
    rw [← hs2]
    split
    · exact s1.calm_rrAddTick _ _
    · exact .refl s1
  have hc := (hc1.trans hc2).trans (calm_markRunning s2 act)
  split
  · exact mode_ssStopRunningWith 2 _ (h.calm hc) ((hc.thread _).noWrap hw)
  · exact h.calm hc

theorem mode_resched : s.resched.Mode req := by
  unfold resched
  simp only
  have h1 := mode_ssCheckExpiry h hw
  generalize s.ssCheckExpiry s.actives = s1 at h1
  have h2 : (if s1.ssReplenishList = [] then (s1, 0) else s1.schedSsAdjust).1.Mode req := by
    split
    · exact h1
    · exact mode_schedSsAdjust h1
  generalize (if s1.ssReplenishList = [] then (s1, 0) else s1.schedSsAdjust) = r at h2
  split
  · exact h2
  · exact h2.calm (calm_timeslice _)

theorem mode_blockAndReady (hs : s.blockAndReady t = some s') : s'.Mode req := by
  have hc : Calm s (s.clearLinks t) := s.calm_modDpp _
  unfold blockAndReady at hs
  simp only at hs
  split at hs
  · have hc2 := hc.trans (calm_setState _ t .stopped)
    exact mode_block (h.calm hc2) ((hc2.thread s.actives).noWrap hw) hs
  refine Mode.calm ?_ (calm_runOrQueue hs)
  exact (mode_ssStopRunningWith 2 _ (h.calm hc) ((hc.thread s.actives).noWrap hw)).calm
    (calm_ssMarkActivation _ _)

theorem mode_unready {st : State} (hs : s.unready t st = some s') : s'.Mode req := by
  unfold unready at hs
  split at hs
  · split at hs
    · cases hs
    · have hc := s.calm_setState t st
      exact mode_block (h.calm hc) ((hc.thread s.actives).noWrap hw) hs
  cases hs
  refine h.calm (Calm.trans ?_ (calm_setState _ _ _))
  split
  · exact s.calm_modDpp _
  · exact .refl s

end

end

theorem calm_setRunmask (s : Sched) (t : Thp) (m : BitVec 32) : Calm s (s.setRunmask t m).2 := by
  unfold setRunmask
  split
  · exact s.calm_modThread t (f := fun th => { th with runmask := _ })
      ⟨rfl, rfl, rfl, rfl, rfl, le_rfl⟩
  · exact .refl s

theorem mode_tick (inc : Nat) (h : s.Mode req) : (s.tick inc).Mode req := by
  unfold tick
  simp only
  split
  · exact h
  generalize hs1 : rrAddFulltick _ _ = s1
  have hc : Calm s s1 := by
    rw [← hs1]
    have h0 (f : Nat → Nat) : Calm s { s with runningTime := f } := ⟨rfl, fun _ => .refl _⟩
    exact (h0 _).trans (calm_rrAddTick _ _ 2)
  split
  · exact (h.calm hc).modSS _ (fun _ => rfl) (fun _ => rfl) fun _ => rfl
  · exact h.calm hc

theorem mode_ready (t : Thp) (h : s.Mode req)
    (hw : (s.thread s.actives).NoWrap) : (s.ready t).Mode req := by
  unfold ready
  simp only
  split
  · exact h.calm (s.calm_setState _ _)
  have hc0 : Calm s (s.clearLinks t) := s.calm_modDpp _
  have h1 := mode_ssCheckExpiry (t := s.actives) (h.calm hc0) hw
  refine h1.calm ?_
  generalize hs1 : (s.clearLinks t).ssCheckExpiry s.actives = s1
  have hs1' : (s.clearLinks t).ssCheckExpiry (s.clearLinks t).actives = s1 := hs1
  rw [hs1']
  refine (calm_ssMarkActivation s1 t).trans ?_
  split
  · unfold ssStopRunning
    rw [ssStopRunningWith_preempted]
    exact ((((calm_markRunning _ _).trans (calm_rrAddTick _ _ _)).trans
      (calm_setState _ _ _)).trans (calm_modDpp _ _)).trans (calm_modDpp _ _)
  · exact (((calm_setState _ _ _).trans (calm_rrResetTick _ _)).trans (calm_modDpp _ _)).trans
      (calm_modDpp _ _)

end Sched

/-- A scheduler with the priorities that `sched_thread` was last asked for. -/
structure SsRun where
  sched : Sched
  requested : Thp → Prio

inductive SsOp where
  | sched (o : Sched.Op)
  | ssStopRunning (thp : Thp) (preempted : Bool)
  | ssMarkActivation (thp : Thp)

namespace SsRun

def asked (r : SsRun) : Sched.Op → Thp → Prio
  | .schedThread thp policy param alloc => r.sched.request r.requested thp policy param alloc
  | _ => r.requested

def step (r : SsRun) : SsOp → Option SsRun
  | .sched o => (r.sched.step o).map fun s => ⟨s, r.asked o⟩
  | .ssStopRunning thp preempted => some ⟨r.sched.ssStopRunning thp preempted, r.requested⟩
  | .ssMarkActivation thp => some ⟨r.sched.ssMarkActivation thp, r.requested⟩

/-- `ker_msg_current` and the writes of other kernel code change `real_priority` on their own
account. -/
def writesReal : Sched.Op → Bool
  | .msgCurrent _ | .update _ _ => true
  | _ => false

def Call (r : SsRun) : SsOp → Prop
  | .sched o => writesReal o = false ∧ r.sched.Entry o
  | .ssStopRunning _ _ | .ssMarkActivation _ => True

instance (r : SsRun) : ∀ o, Decidable (r.Call o)
  | .sched _ => inferInstanceAs (Decidable (_ ∧ _))
  | .ssStopRunning _ _ | .ssMarkActivation _ => inferInstanceAs (Decidable True)

/-- The account of the thread does not wrap, and `sched_thread` keeps clear of a dropped
thread. -/
def ClearOp (s : Sched) : Sched.Op → Prop
  | .schedSsUpdate thp _ => (s.thread thp).NoWrap
  | .schedThread thp policy param _ => s.Undisturbed thp policy param
  | _ => True

instance (s : Sched) : ∀ o, Decidable (ClearOp s o)
  | .schedSsUpdate thp _ => inferInstanceAs (Decidable (s.thread thp).NoWrap)
  | .schedThread thp policy param _ => inferInstanceAs (Decidable (s.Undisturbed thp policy param))
  | .ready _ | .block _ | .blockAndReady _ _ | .unready _ _ | .yield | .resched
  | .adjustPriority _ _ | .schedSsAdjust | .msgCurrent _ | .setRunmask _ _ | .tick _ | .clock _
  | .setFlags _ _ _ _ | .update _ _ => inferInstanceAs (Decidable True)

def Clear (r : SsRun) : SsOp → Prop
  | .sched o => (r.sched.thread r.sched.actives).NoWrap ∧ ClearOp r.sched o
  | .ssStopRunning thp _ => (r.sched.thread thp).NoWrap
  | .ssMarkActivation _ => True

instance (r : SsRun) : ∀ o, Decidable (r.Clear o)
  | .sched _ => inferInstanceAs (Decidable (_ ∧ _))
  | .ssStopRunning thp _ => inferInstanceAs (Decidable (r.sched.thread thp).NoWrap)
  | .ssMarkActivation _ => inferInstanceAs (Decidable True)

/-- The scheduler starts with no thread on the replenishment list and none dropped. -/
structure Start (r : SsRun) : Prop where
  init : r.sched.Init
  normal : ∀ t, (r.sched.thread t).policy = .sporadic →
    (r.sched.thread t).ss.orgPriority = 0 ∧ (r.sched.thread t).ss.amount = 0 ∧
    (r.sched.thread t).realPriority = r.requested t ∧ r.requested t ≠ 0

def Mode (r : SsRun) : Prop := r.sched.Mode r.requested

variable {r : SsRun}

theorem Start.mode (h : Start r) : r.Mode where
  listed :=
    { once := by simp [h.init.replenish]
      mem := fun t => by
        rw [h.init.replenish]
        exact iff_of_false List.not_mem_nil fun hx => hx.2 (h.normal t hx.1).2.1
      dropped := fun t hp ho => absurd (h.normal t hp).1 ho }
  prios t := ⟨fun hp => (h.normal t hp).2.2.2, fun hp _ => (h.normal t hp).2.2.1,
    fun hp ho => absurd (h.normal t hp).1 ho⟩

theorem mode_step {r' : SsRun} {o : SsOp} (h : r.Mode) (hcall : r.Call o) (hc : r.Clear o)
    (hs : r.step o = some r') : r'.Mode := by
  cases o with
  | ssStopRunning thp preempted =>
    cases hs
    exact Sched.mode_ssStopRunningWith 2 preempted h hc
  | ssMarkActivation thp =>
    cases hs
    exact h.calm (Sched.calm_ssMarkActivation _ _)
  | sched o =>
    obtain ⟨hw, hc⟩ := hc
    obtain ⟨hreal, hentry⟩ := hcall
    obtain ⟨s', hs', rfl⟩ := Option.map_eq_some_iff.mp hs
    cases o with
    | ready thp =>
      cases hs'
      exact Sched.mode_ready thp h hw
    | block st =>
      have hcalm := r.sched.calm_setState r.sched.actives st
      exact Sched.mode_block (h.calm hcalm) ((hcalm.thread _).noWrap hw) hs'
    | blockAndReady st thp =>
      have hcalm := r.sched.calm_setState r.sched.actives st
      exact Sched.mode_blockAndReady (h.calm hcalm) ((hcalm.thread _).noWrap hw) hs'
    | unready thp st => exact Sched.mode_unready h hw hs'
    | yield =>
      cases hs'
      exact Sched.mode_yieldWith 2 h hw
    | resched =>
      cases hs'
      exact Sched.mode_resched h hw
    | adjustPriority thp prio =>
      cases hs'
      exact Sched.mode_adjustPriority prio h hw
    | schedThread thp policy param alloc =>
      cases hs'
      exact Sched.mode_schedThread alloc h hc hw
    | schedSsUpdate thp drop =>
      cases hs'
      exact Sched.mode_schedSsUpdateWith 2 drop h hentry hc
    | schedSsAdjust =>
      cases hs'
      exact Sched.mode_schedSsAdjust h
    | msgCurrent rcvid => cases hreal
    | setRunmask thp mask =>
      cases hs'
      exact h.calm (r.sched.calm_setRunmask thp mask)
    | tick inc =>
      cases hs'
      exact Sched.mode_tick inc h
    | clock now =>
      cases hs'
      exact h.calm ⟨rfl, fun _ => .refl _⟩
    | setFlags thp a b c =>
      cases hs'
      have hsame : (r.sched.thread thp).Same { r.sched.thread thp with
          toBeStopped := a, killself := b, waaa := c } := ⟨rfl, rfl, rfl, rfl, rfl, le_rfl⟩
      exact Sched.Mode.calm h (r.sched.calm_modThread thp (f := fun th =>
        { th with toBeStopped := a, killself := b, waaa := c }) hsame)
    | update thp th => cases hreal

/-- A step of the kernel that keeps clear of dropped threads. -/
def CalledClear (r : SsRun) (o : SsOp) : Prop := r.Call o ∧ r.Clear o

theorem reach_mode (h : Reach Start CalledClear step r) : r.Mode :=
  h.invariant (fun _ hi => hi.mode) fun _ _ _ hm ho hs => mode_step hm ho.1 ho.2 hs

/-- Along runs whose steps are all clear a dropped thread has its low priority and a pending
replenishment, and a replenishment that fires brings back the priority last requested. -/
theorem dropped_until_replenished {r : SsRun} (h : Reach Start CalledClear step r) :
    (∀ t, (r.sched.thread t).policy = .sporadic → (r.sched.thread t).ss.orgPriority ≠ 0 →
      (r.sched.thread t).realPriority = (r.sched.thread t).ss.lowPriority ∧
      t ∈ r.sched.ssReplenishList) ∧
    ∀ t ∈ r.sched.ssReplenishList, t ∉ r.sched.schedSsAdjust.1.ssReplenishList →
      (r.sched.schedSsAdjust.1.thread t).realPriority = r.requested t := by
  have hm := reach_mode h
  refine ⟨fun t hp ho => ⟨((hm.prios t).dropped hp ho).1, ?_⟩, fun t ht ht' => ?_⟩
  · exact (hm.listed.mem t).mpr ⟨hp, hm.listed.dropped t hp ho⟩
  · exact Sched.schedSsAdjust_fired hm ht ht'

def bootAsked : SsRun := ⟨Sched.boot, fun _ => 10⟩

theorem start_bootAsked : Start bootAsked where
  init := Sched.init_boot
  normal t hp := by
    by_cases h0 : t = 0 <;> simp [bootAsked, Sched.boot, Sched.stoppedAt, h0] at hp

instance (r : SsRun) (o : SsOp) : Decidable (r.CalledClear o) :=
  inferInstanceAs (Decidable (_ ∧ _))

def served : SchedParam := ⟨20, 5, 1, 50, 4⟩

def spent : List SsOp :=
  [.sched (.adjustPriority 0 0), .sched (.schedThread 1 (.policy .sporadic) served true),
    .sched (.ready 1), .sched (.tick 4), .sched .resched]

theorem dropped_until_replenished_spent : ∃ r, Reach Start CalledClear step r ∧
    (r.sched.thread 1).ss.orgPriority = 20 ∧
    ((r.sched.thread 1).realPriority = (r.sched.thread 1).ss.lowPriority ∧
      1 ∈ r.sched.ssReplenishList) ∧
    (r.sched.schedSsAdjust.1.thread 1).realPriority = r.requested 1 := by
  refine exists_reach start_bootAsked (spent ++ [.sched (.clock 50)]) (by decide +kernel) fun r hr
      (hq : (r.sched.thread 1).policy = .sporadic ∧ (r.sched.thread 1).ss.orgPriority = 20 ∧
      1 ∈ r.sched.ssReplenishList ∧ 1 ∉ r.sched.schedSsAdjust.1.ssReplenishList) => ?_
  obtain ⟨hp, ho, hm, hm'⟩ := hq
  obtain ⟨h1, h2⟩ := dropped_until_replenished hr
  exact ⟨ho, h1 1 hp (by rw [ho]; decide), h2 1 hm hm'⟩

/-- Asked once more for the attributes it has, the dropped thread runs at its full priority
with the replenishment still to come. -/
theorem dropped_at_full_priority : ∃ r, Reach Start Call step r ∧
    (r.sched.thread 1).policy = .sporadic ∧ (r.sched.thread 1).ss.orgPriority ≠ 0 ∧
    (r.sched.thread 1).realPriority = 20 ∧ (r.sched.thread 1).ss.lowPriority = 5 := by
  exact exists_reach start_bootAsked (spent ++ [.sched (.schedThread 1 .nochange served true)])
    (by decide +kernel) fun _ _ hq => hq

end SsRun

end Qnx.Ker
