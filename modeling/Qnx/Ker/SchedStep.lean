import Qnx.Ker.SchedCore
import Qnx.Ker.SchedInv

/-!
# The scheduler functions keep a stable invariant

One lemma per function of `nano_sched.c`, for any invariant of the core that is `Closed` or
`Stable`. `block_and_ready` and `ker_msg_current` change the core in ways of their own; here
they are only reduced to the calls they make.
-/

namespace Qnx.Ker

open Qnx.Ker.Core

namespace Sched

variable {P : Core → Prop} {a : Thp} {s : Sched}

section Closed
variable {adj : Sched → Thp → Prio → Sched}

theorem closed_ssStopRunningWith (hadj : ∀ s p, P s.core → P (adj s a p).core) (h : P s.core)
    (preempted : Bool) : P (ssStopRunningWith adj s a preempted).core := by
  rcases core_ssStopRunningWith adj s a preempted with he | ⟨_, s', h1, _, h2⟩
  · exact he ▸ h
  · exact h2 ▸ hadj _ _ (h1 ▸ h)

variable (hP : Closed P a)
include hP

section

variable (hadj : ∀ s p, P s.core → P (adj s a p).core)
include hadj

theorem closed_yieldWith (ha : s.actives = a) (h : P s.core) : P (yieldWith adj s).core := by
  cases hh : s.dpp.links.head (s.prio s.actives) with
  | none => rwa [yieldWith_none hh]
  | some t =>
    have hsw : P (s.core.swap t) := hP.swap h hh
    rcases core_yieldWith_some adj hh with he | ⟨s', h1, h2⟩
    · exact he ▸ hsw
    · rw [ha] at h2
      exact h2 ▸ hadj _ _ (h1 ▸ hsw)

theorem closed_adjustPriorityWith (p : Prio)
    (h : P s.core) : P (adjustPriorityWith adj s a p).core := by
  by_cases hy : (s.thread a).priority = p ∧ a = s.actives
  · have he : adjustPriorityWith adj s a p = yieldWith adj s := by
      simp [adjustPriorityWith, hy.1, ← hy.2]
    rw [he]
    exact closed_yieldWith hP hadj hy.2.symm h
  · rw [core_adjustPriorityWith (hP.sound h).idle fun hp ha => hy ⟨hp, ha⟩]
    exact hP.adjust h

end

theorem closed_adjustN (n : Nat) (p : Prio) (h : P s.core) : P (adjustN n s a p).core := by
  induction n generalizing s p with
  | zero => exact h
  | succ n ih => exact closed_adjustPriorityWith hP (fun _ q hs => ih q hs) p h

theorem closed_adjustPriority (p : Prio) (h : P s.core) : P (s.adjustPriority a p).core :=
  closed_adjustN hP 2 p h

theorem closed_schedSsUpdate (drop : Bool) (h : P s.core) : P (s.schedSsUpdate a drop).core := by
  rcases core_schedSsUpdateWith adjustPriority s a drop with he | ⟨_, s', h1, _, h2⟩
  · exact he.symm ▸ h
  · exact h2.symm ▸ closed_adjustPriority hP _ (h1 ▸ h)

theorem closed_ssStopRunning (preempted : Bool) (h : P s.core) :
    P (s.ssStopRunning a preempted).core :=
  closed_ssStopRunningWith (fun _ p => closed_adjustPriority hP p) h preempted

theorem closed_ssCheckExpiry (h : P s.core) : P (s.ssCheckExpiry a).core := by
  unfold ssCheckExpiry
  simp only
  split
  · exact closed_schedSsUpdate hP true h
  · exact h

theorem closed_yield (ha : s.actives = a) (h : P s.core) : P s.yield.core :=
  closed_yieldWith hP (fun _ p => closed_adjustPriority hP p) ha h

theorem closed_ssReplenish (bound : Nat) (h : P s.core) : P (s.ssReplenish bound a).1.core := by
  unfold ssReplenish
  simp only
  split
  · simp only [core_modSS, core_setRealPriority]
    split
    · exact closed_adjustPriority hP _ (by simpa using h)
    · simpa using h
  · simpa using h

end Closed

section Stable
variable (hP : Stable P)
include hP

theorem stable_schedSsAdjustLoop (bound n adjusted : Nat) (h : P s.core) :
    P (schedSsAdjustLoop bound n s adjusted).1.core := by
  induction n generalizing s adjusted with
  | zero => exact h
  | succ n ih =>
    unfold schedSsAdjustLoop
    split
    · exact h
    simp only
    split
    · split
      · exact ih _ (closed_ssReplenish (hP.closed _) bound h)
      · exact ih _ h
    · exact h

theorem stable_schedSsAdjust (h : P s.core) : P s.schedSsAdjust.1.core :=
  stable_schedSsAdjustLoop hP _ _ 0 h

theorem stable_adjTo (t : Thp) (head : Bool) (h : P s.core) : P (s.adjTo t head).2.core := by
  unfold adjTo
  split
  · exact h
  rename_i hr
  have hr : s.core.state t = .ready := by simpa using hr
  cases head with
  | true => exact hP.relinkBeg h hr
  | false =>
    simp only [Bool.false_eq_true, if_false, core_modDpp, core_rrResetTick]
    exact hP.relinkEnd h hr

theorem stable_adjustHead (t : Thp) (p : Prio) (h : P s.core) : P (s.adjustHead t p).core := by
  have hq : P (s.adjustPriority t p).core := closed_adjustPriority (hP.closed t) _ h
  unfold adjustHead
  simp only
  split
  · split
    · rename_i hr
      exact hP.relinkBeg hq hr.2
    · exact hq
  · exact h

theorem stable_setprio (t : Thp) (param : SchedParam) (h : P s.core) :
    P (s.setprio t param).2.core := by
  have hq := stable_adjustHead hP t (toPrio param.schedPriority) h
  unfold setprio
  split
  · exact h
  split
  · exact h
  simp only [core_setRealPriority]
  split
  · simpa using hq
  · exact hq

theorem stable_schedPolicy (t : Thp) (policy : Policy) (param : SchedParam) (alloc : Bool)
    (h : P s.core) : P (s.schedPolicy t policy param alloc).2.core := by
  unfold schedPolicy
  split
  · rw [core_modThread_of _ _ rfl rfl]
    exact h
  simp only [core_setRealPriority]
  refine closed_adjustPriority (hP.closed t) _ ?_
  rw [core_modThread_of _ _ rfl rfl]
  split
  · simpa using h
  · simpa using h

theorem stable_schedThread (t : Thp) (policy : PolicyArg) (param : SchedParam) (alloc : Bool)
    (h : P s.core) : P (s.schedThread t policy param alloc).2.core := by
  unfold schedThread
  cases policy with
  | adjtohead => exact stable_adjTo hP t true h
  | adjtotail => exact stable_adjTo hP t false h
  | setprio => exact stable_setprio hP t param h
  | nochange =>
    simp only
    split
    · exact stable_schedPolicy hP t _ param alloc h
    · exact h
  | policy q =>
    simp only
    split
    · exact stable_schedPolicy hP t q param alloc h
    · exact h
  | unknown => exact h

end Stable

variable {s' : Sched} {act t : Thp} {adj adj' : Sched → Thp → Prio → Sched}

theorem ordered_block (h : s.core.Queued) (hb : s.block = some s') : s'.core.Ordered := by
  unfold block at hb
  cases hh : s.dpp.links.head s.dpp.bits.highestPri with
  | none => simp [selectThread_none hh] at hb
  | some t =>
    simp only [selectThread_some hh (p := -1) (by omega), Option.some.injEq] at hb
    subst hb
    have ho : ((s.core.take t .running).run t).Ordered := h.findHighest (by simp [findHighest, hh])
    generalize hs1 : Sched.markRunning _ t = s1
    have h1 : s1.core.Ordered := by
      rw [← hs1, core_markRunning]
      split
      · rw [core_rrAddPreemptTick, ← core_markRunning, core_run_found]
        exact ho
      · rw [← core_markRunning, core_run_found]
        exact ho
    split
    · exact closed_ssStopRunning (closed_ordered _) _ h1
    · exact h1

section Stable
variable (hP : Stable P)
include hP

variable {t : Thp}

theorem stable_ready (ht : (s.thread t).state ≠ .ready) (hne : t ≠ s.actives)
    (h : P s.core) : P (s.ready t).core := by
  unfold ready
  simp only
  split
  · rw [core_setState]
    exact hP.setState h hne ht (by simp)
  have hc : P (s.clearLinks t).core := hP.clearLinks h ht
  have hA : Aside t (s.thread t).state (s.prio t) (s.clearLinks t).core :=
    ⟨((hP.closed t).sound hc), hne, rfl, rfl⟩
  obtain ⟨h2, hA2⟩ := closed_ssCheckExpiry ((hP.closed (s.clearLinks t).actives).and
    (closed_aside ht (Ne.symm hne))) ⟨hc, hA⟩
  generalize (s.clearLinks t).ssCheckExpiry (s.clearLinks t).actives = s2 at h2 hA2
  have hne2 : t ≠ s2.actives := hA2.ne
  have hp2 := hA2.prio
  have ht2 : s2.core.state t ≠ .ready := hA2.state ▸ ht
  simp only [prio_ssMarkActivation, prio_modDpp, prio_setState, prio_markRunning,
    prio_rrAddPreemptTick, prio_rrResetTick, ssStopRunning, ssStopRunningWith_preempted,
    ← hp2]
  split
  · rename_i hgt
    simp only [core_modDpp, core_setState, core_rrAddPreemptTick, core_markRunning,
      core_ssMarkActivation]
    exact hP.preempt h2 ht2 hne2 hgt
  rename_i hgt
  simp only [core_modDpp, core_setState, core_rrResetTick, core_ssMarkActivation]
  exact hP.putTail h2 ht2 hne2 (Nat.le_of_not_lt hgt)

theorem stable_unready {st : State} {s' : Sched} (hst : st ≠ .ready) (h : P s.core)
    (hu : s.unready t st = some s') : P s'.core := by
  unfold unready at hu
  split at hu
  · rename_i hact
    split at hu
    · cases hu
    have hs := (hP.closed t).sound h
    refine hP.ordered (ordered_block ?_ hu)
    rw [core_setState, hact]
    exact hs.queued.setState hs.idle hst
  rename_i hne
  cases hu
  rw [core_setState]
  split
  · rename_i hr
    exact hP.take h hr hst
  · rename_i hr
    exact hP.setState h hne hr hst

theorem stable_timeslice (h : P s.core) : P s.timeslice.core := by
  have hm : (s.thread s.actives).runmask.1.getLsbD 0 = false := (s.thread s.actives).runmask.2
  unfold timeslice
  simp only [hm]
  split
  · exact h
  cases hh : s.dpp.links.head s.dpp.bits.highestPri with
  | none => simpa [selectThread_none hh] using h
  | some t =>
    by_cases hp : s.prio s.actives ≤ s.dpp.bits.highestPri
    · rw [selectThread_some hh (by exact_mod_cast hp)]
      simp only [core_markRunning, core_setState]
      split
      · simp only [core_modDpp, core_rrResetTick, core_rrAddPreemptTick, prio_modDpp,
          prio_rrResetTick, prio_rrAddPreemptTick]
        exact s.core.slice_eq t true ▸ hP.slice h hh hp
      · simp only [core_modDpp, core_rrAddPreemptTick, prio_modDpp, prio_rrAddPreemptTick]
        exact s.core.slice_eq t false ▸ hP.slice h hh hp
    · simpa [selectThread_lt (s := s) (p := (s.prio s.actives : Int)) (by omega)] using h

theorem stable_resched (h : P s.core) : P s.resched.core := by
  have h1 := closed_ssCheckExpiry (hP.closed s.actives) h
  have h2 := stable_schedSsAdjust hP h1
  unfold resched
  by_cases hl : (s.ssCheckExpiry s.actives).ssReplenishList = []
  · simp only [hl, if_true]
    split
    · exact h1
    · exact stable_timeslice hP h1
  simp only [hl, if_false]
  split
  · exact h2
  · exact stable_timeslice hP h2

end Stable

theorem core_runOrQueue (h : s.runOrQueue act t (s.prio t) = some s') :
    (s.prio t > s.prio act ∨ s.prio t > s.dpp.bits.highestPri) ∧ s'.core = s.core.run t ∨
    (s.core.putHead t).findHighest = some s'.core := by
  unfold runOrQueue at h
  split at h
  · rename_i hc
    cases h
    exact .inl ⟨hc, s.core_markRunning t⟩
  simp only at h
  generalize hs1 : Sched.setState _ t .ready = s1 at h
  have hc : s1.core = s.core.putHead t := by
    rw [← hs1, core_setState]
    rfl
  cases hh : s1.dpp.links.head s1.dpp.bits.highestPri with
  | none => simp [selectThread_none hh] at h
  | some b =>
    simp only [selectThread_some hh (p := -1) (by omega), Option.some.injEq] at h
    subst h
    rw [core_run_found, hc]
    have hh' : s1.core.dpp.links.head s1.core.dpp.bits.highestPri = some b := hh
    rw [hc] at hh'
    simp [findHighest, hh']

theorem closed_stopActive (hP : Closed P s.actives) (h : P s.core) : P (s.stopActive t).core := by
  unfold stopActive
  rw [core_ssMarkActivation]
  exact closed_ssStopRunning hP _ h

theorem sound_runOrQueue {st : State} (hst : st ≠ .ready)
    (hA : Aside t st (s.prio t) s.core) (h : s.runOrQueue act t (s.prio t) = some s') :
    s'.core.Sound := by
  have ht : s.core.state t ≠ .ready := hA.state ▸ hst
  rcases core_runOrQueue h with ⟨_, he⟩ | hf
  · rw [he]
    exact ⟨hA.sound.queued.run ht, by simp⟩
  · exact ((hA.sound.queued.putHead ht).findHighest hf).sound

theorem currentCop_dropClient (s : Sched) (act : Thp) (cop : Nat) (thp : Thp) :
    (s.dropClient act).currentCop cop thp = s.currentCop cop thp := by
  unfold dropClient
  split
  · rfl
  rename_i c _
  have h : ∀ u, (((s.setServer c none).setClient act none).thread u).state = (s.thread u).state ∧
      (((s.setServer c none).setClient act none).thread u).specretPending =
        (s.thread u).specretPending ∧
      (((s.setServer c none).setClient act none).thread u).blockedOn = (s.thread u).blockedOn := by
    intro u
    simp only [setClient, setServer, modThread, Function.update_apply]
    split
    · split <;> simp_all
    · split <;> simp_all
  simp only [currentCop, (h thp).1, (h thp).2.1, (h thp).2.2]
  rfl

theorem serve_connect (s : Sched) (act thp : Thp) : (s.serve act thp).connect = s.connect := by
  unfold serve
  split <;> rfl

theorem dropClient_connect (s : Sched) (act : Thp) : (s.dropClient act).connect = s.connect := by
  unfold dropClient
  split <;> rfl

/-- What `ker_msg_current` does to the core: nothing, or the priority of the client is
written over that of the active thread before `adjust_priority` is called. -/
theorem core_kerMsgCurrent (s : Sched) (rcvid : Rcvid) : (s.kerMsgCurrent rcvid).2.core = s.core ∨
    ∃ thp, s.inherits rcvid = some thp ∧
      ∃ s' : Sched, s'.core = s.core.setPriority s.actives (s.thread thp).priority ∧
        (s.kerMsgCurrent rcvid).2 = s'.adjustPriority s.actives (s.thread thp).priority := by
  cases rcvid with
  | zero => exact .inl (s.core_dropClient _)
  | bad => exact .inl (s.core_dropClient _)
  | found cop thp =>
    unfold kerMsgCurrent
    simp only [currentCop_dropClient]
    cases hcop : s.currentCop cop thp with
    | none => exact .inl (s.core_dropClient _)
    | some cop' =>
      have hcore : ((s.dropClient s.actives).serve s.actives thp).core = s.core := by simp
      have hprio : (((s.dropClient s.actives).serve s.actives thp).thread thp).priority =
          (s.thread thp).priority := congrArg (fun c => c.priority thp) hcore
      simp only [serve_connect, dropClient_connect, hprio]
      by_cases hf : (s.connect cop').fixedPriority
      · left
        simp only [hf]
        exact hcore
      right
      refine ⟨thp, by simp [inherits, hcop, hf], _, ?_, by simp only [hf]; rfl⟩
      rw [core_setRealPriority, core_setPriority, hcore]

/-! ### The depth of the recursion -/

theorem adjustPriorityWith_congr {p : Prio} (h : ¬((s.thread t).priority = p ∧ t = s.actives)) :
    adjustPriorityWith adj s t p = adjustPriorityWith adj' s t p := by
  unfold adjustPriorityWith
  simp only [ssStopRunningWith_preempted]
  by_cases hp : (s.thread t).priority = p
  · have ha : t ≠ s.actives := fun ha => h ⟨hp, ha⟩
    simp [ha]
  · simp only [hp, if_false]

theorem schedSsUpdateWith_congr (drop : Bool)
    (h : ∀ s' p, s'.core = s.core → adj s' t p = adj' s' t p) :
    schedSsUpdateWith adj s t drop = schedSsUpdateWith adj' s t drop := by
  unfold schedSsUpdateWith
  simp only
  rw [h _ _ (by simp)]

theorem yieldWith_congr
    (h : ∀ s' t p, s'.core = s.core.swap t → s.dpp.links.head (s.prio s.actives) = some t →
      adj s' s.actives p = adj' s' s.actives p) : yieldWith adj s = yieldWith adj' s := by
  cases hh : s.dpp.links.head (s.prio s.actives) with
  | none => rw [yieldWith_none hh, yieldWith_none hh]
  | some t =>
    unfold yieldWith
    simp only [hh]
    generalize hs1 : Sched.markRunning _ t = s1
    have hc : s1.core = s.core.swap t := by
      rw [← hs1]
      simp [Core.swap]
    unfold ssStopRunningWith schedSsBlockWith
    simp only
    rw [schedSsUpdateWith_congr _ fun s' p hs' => h s' t p (hs'.trans hc) hh]

end Sched

end Qnx.Ker
