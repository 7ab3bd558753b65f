import Qnx.Ker.Sched
import Qnx.Ker.ReadyQueue

/-!
# What each scheduler function does to the core

Ticks, budgets, replenishments and client links leave the core alone. The other functions
are shown equal, on the core, to a short sequence of the moves of `ReadyQueue`.
-/

namespace Qnx.Ker

open Function

namespace Sched

def core (s : Sched) : Core :=
  ⟨s.actives, fun t => (s.thread t).state, fun t => (s.thread t).priority, s.dpp⟩

section

variable (s : Sched)
include s

@[simp] theorem core_actives : s.core.actives = s.actives := rfl

@[simp] theorem core_dpp : s.core.dpp = s.dpp := rfl

section

variable (t : Thp)
include t

@[simp] theorem core_prio : s.core.prio t = s.prio t := rfl

@[simp] theorem core_state : s.core.state t = (s.thread t).state := rfl

@[simp] theorem core_priority : s.core.priority t = (s.thread t).priority := rfl

theorem core_modThread (f : Thread → Thread) : (s.modThread t f).core = { s.core with
        state := update s.core.state t (f (s.thread t)).state
        priority := update s.core.priority t (f (s.thread t)).priority } := by
  ext1
  · rfl
  · funext u
    by_cases hu : u = t
    · subst hu
      simp [modThread]
    · simp [modThread, hu]
  · funext u
    by_cases hu : u = t
    · subst hu
      simp [modThread]
    · simp [modThread, hu]
  · rfl

theorem core_modThread_of {f : Thread → Thread} (hs : (f (s.thread t)).state = (s.thread t).state)
    (hp : (f (s.thread t)).priority = (s.thread t).priority) : (s.modThread t f).core = s.core := by
  rw [core_modThread, hs, hp]
  ext1 <;> simp

@[simp] theorem core_modSS (f : SSInfo → SSInfo) : (s.modSS t f).core = s.core :=
  s.core_modThread_of t rfl rfl

@[simp] theorem core_setRealPriority (p : Prio) : (s.setRealPriority t p).core = s.core :=
  s.core_modThread_of t rfl rfl

@[simp] theorem core_setClient (o : Option Thp) : (s.setClient t o).core = s.core :=
  s.core_modThread_of t rfl rfl

@[simp] theorem core_setServer (o : Option Thp) : (s.setServer t o).core = s.core :=
  s.core_modThread_of t rfl rfl

@[simp] theorem core_rrResetTick : (s.rrResetTick t).core = s.core := by
  unfold rrResetTick
  split
  · exact s.core_modThread_of t rfl rfl
  · rfl

@[simp] theorem core_rrAddTick (n : Nat) : (s.rrAddTick t n).core = s.core := by
  unfold rrAddTick
  split
  · exact s.core_modThread_of t rfl rfl
  · rfl

@[simp] theorem core_rrAddPreemptTick : (s.rrAddPreemptTick t).core = s.core := s.core_rrAddTick t 1

@[simp] theorem core_setState (st : State) : (s.setState t st).core = s.core.setState t st := by
  rw [setState, core_modThread]
  simp [Core.setState]

@[simp] theorem core_setPriority (p : Prio) :
    (s.setPriority t p).core = s.core.setPriority t p := by
  rw [setPriority, core_modThread]
  simp [Core.setPriority]

end

@[simp] theorem core_modDpp (f : Dispatch → Dispatch) : (s.modDpp f).core = s.core.modDpp f := rfl

section

variable (t : Thp)
include t

@[simp] theorem core_markRunning : (s.markRunning t).core = s.core.run t := by
  have h : (({ s with actives := t } : Sched).setState t .running).core = s.core.run t := by
    rw [core_setState]
    rfl
  unfold markRunning
  simp only
  split
  · exact h
  · exact h

@[simp] theorem core_ssInsert : (s.ssInsert t).core = s.core := rfl

@[simp] theorem core_ssAccount : (s.ssAccount t).core = s.core := by
  unfold ssAccount
  split <;> simp

@[simp] theorem core_schedSsQueue : (s.schedSsQueue t).core = s.core := by
  unfold schedSsQueue
  split
  · rfl
  split
  · rfl
  · rfl
  · exact s.core_modSS t _

@[simp] theorem core_ssMarkActivation : (s.ssMarkActivation t).core = s.core := by
  unfold ssMarkActivation
  split
  · exact s.core_schedSsQueue t
  · rfl

@[simp] theorem core_ssEnter (param : SchedParam) : (s.ssEnter t param).core = s.core := by
  unfold ssEnter
  simp only
  split
  · split
    · exact (core_modSS _ _ _).trans (s.core_modThread_of t rfl rfl)
    · exact s.core_modThread_of t rfl rfl
  split
  · exact s.core_modSS t _
  · rfl

@[simp] theorem core_ssAttributes (param : SchedParam) :
    (s.ssAttributes t param).1.core = s.core := by
  unfold ssAttributes
  simp only
  split
  · rfl
  · split <;> simp

@[simp] theorem core_schedSsCleanup : (s.schedSsCleanup t).core = s.core :=
  core_modThread_of _ t rfl rfl

@[simp] theorem core_unsetSporadic : (s.unsetSporadic t).core = s.core := by
  unfold unsetSporadic
  simp only [core_rrResetTick]
  split
  · exact (core_schedSsCleanup _ t).trans (s.core_modThread_of t rfl rfl)
  · rfl

end

@[simp] theorem core_tick (inc : Nat) : (s.tick inc).core = s.core := by
  unfold tick
  simp only
  split
  · rfl
  split
  · rw [core_modSS, rrAddFulltick, core_rrAddTick]
    rfl
  · rw [rrAddFulltick, core_rrAddTick]
    rfl

@[simp] theorem core_setRunmask (t : Thp) (m : BitVec 32) : (s.setRunmask t m).2.core = s.core := by
  unfold setRunmask
  split
  · exact s.core_modThread_of t rfl rfl
  · rfl

@[simp] theorem core_dropClient (t : Thp) : (s.dropClient t).core = s.core := by
  unfold dropClient
  split <;> simp

@[simp] theorem core_serve (t u : Thp) : (s.serve t u).core = s.core := by
  unfold serve
  split <;> simp

end

theorem prio_of_core {s s' : Sched} (h : s'.core = s.core) (t : Thp) : s'.prio t = s.prio t :=
  congrArg (fun c => c.prio t) h

section

variable (s : Sched)
include s

@[simp] theorem prio_modDpp (f : Dispatch → Dispatch) (t : Thp) :
    (s.modDpp f).prio t = s.prio t := rfl

@[simp] theorem prio_setState (u : Thp) (st : State) (t : Thp) :
    (s.setState u st).prio t = s.prio t :=
  congrArg (fun c => c.prio t) (s.core_setState u st)

@[simp] theorem prio_markRunning (u t : Thp) : (s.markRunning u).prio t = s.prio t :=
  congrArg (fun c => c.prio t) (s.core_markRunning u)

@[simp] theorem prio_rrResetTick (u t : Thp) : (s.rrResetTick u).prio t = s.prio t :=
  prio_of_core (s.core_rrResetTick u) t

@[simp] theorem prio_rrAddPreemptTick (u t : Thp) : (s.rrAddPreemptTick u).prio t = s.prio t :=
  prio_of_core (s.core_rrAddPreemptTick u) t

@[simp] theorem prio_ssMarkActivation (u t : Thp) : (s.ssMarkActivation u).prio t = s.prio t :=
  prio_of_core (s.core_ssMarkActivation u) t

@[simp] theorem prio_setPriority_self (t : Thp) (p : Prio) : (s.setPriority t p).prio t = p := by
  simp [setPriority, modThread, prio]

theorem prio_setPriority_ne {t u : Thp} (h : u ≠ t) (p : Prio) :
    (s.setPriority t p).prio u = s.prio u := by
  simp [setPriority, modThread, prio, h]

end

/-! ### Sporadic hooks -/

section

variable (s : Sched)
include s

theorem ssAccount_realPriority (t : Thp) :
    ((s.ssAccount t).thread t).realPriority = (s.thread t).realPriority := by
  unfold ssAccount
  split <;> simp [modSS, modThread, ssInsert]

theorem ssAccount_lowPriority (t : Thp) :
    ((s.ssAccount t).thread t).ss.lowPriority = (s.thread t).ss.lowPriority := by
  unfold ssAccount
  split <;> simp [modSS, modThread, ssInsert]

theorem ssAccount_priority (t : Thp) :
    ((s.ssAccount t).thread t).priority = (s.thread t).priority :=
  congrArg (fun c => c.priority t) (s.core_ssAccount t)

theorem modThread_ss (t u : Thp) {f : Thread → Thread} (h : (f (s.thread t)).ss = (s.thread t).ss) :
    ((s.modThread t f).thread u).ss = (s.thread u).ss := by
  by_cases hu : u = t
  · subst hu
    simpa [modThread] using h
  · simp [modThread, hu]

theorem rrResetTick_ss (t u : Thp) : ((s.rrResetTick t).thread u).ss = (s.thread u).ss := by
  unfold rrResetTick
  split
  · exact s.modThread_ss t u rfl
  · rfl

theorem markRunning_ss (t u : Thp) : ((s.markRunning t).thread u).ss = (s.thread u).ss := by
  have h : ((({ s with actives := t } : Sched).setState t .running).thread u).ss =
      (s.thread u).ss := modThread_ss _ t u rfl
  unfold markRunning
  simp only
  split
  · exact h
  · exact h

end

variable {adj : Sched → Thp → Prio → Sched}

theorem core_schedSsUpdateWith (adj : Sched → Thp → Prio → Sched) (s : Sched) (t : Thp)
    (drop : Bool) :
    (schedSsUpdateWith adj s t drop).core = s.core ∨
    (drop = true ∧ (s.thread t).ss.orgPriority = 0 ∧
      (s.thread t).priority ≤ (s.thread t).realPriority) ∧
    ∃ s', s'.core = s.core ∧ (s'.thread t).ss.lowPriority = (s.thread t).ss.lowPriority ∧
      (schedSsUpdateWith adj s t drop).core = (adj s' t (s.thread t).ss.lowPriority).core := by
  unfold schedSsUpdateWith
  by_cases horg : (s.thread t).ss.orgPriority = 0
  swap
  · left
    rw [if_pos horg]
  rw [if_neg (by simpa using horg)]
  cases drop with
  | false =>
    simp
  | true =>
    simp only [if_true, core_setRealPriority]
    by_cases hp : (s.thread t).priority ≤ (s.thread t).realPriority
    · right
      refine ⟨⟨trivial, horg, hp⟩, (s.ssAccount t).modSS t fun ss =>
        { ss with orgPriority := ((s.ssAccount t).thread t).realPriority }, by simp, ?_, ?_⟩
      · simp [modSS, modThread, ssAccount_lowPriority]
      · rw [if_pos (by rwa [ssAccount_priority, ssAccount_realPriority]), ssAccount_lowPriority]
    · rw [if_neg (by rwa [ssAccount_priority, ssAccount_realPriority])]
      simp

@[simp] theorem ssStopRunningWith_preempted (s : Sched) (t : Thp) :
    ssStopRunningWith adj s t true = s := by
  simp [ssStopRunningWith, schedSsBlockWith]

theorem core_ssStopRunningWith (adj : Sched → Thp → Prio → Sched) (s : Sched) (t : Thp)
    (preempted : Bool) :
    (ssStopRunningWith adj s t preempted).core = s.core ∨
    (s.thread t).drops ∧
    ∃ s', s'.core = s.core ∧ (s'.thread t).ss.lowPriority = (s.thread t).ss.lowPriority ∧
      (ssStopRunningWith adj s t preempted).core = (adj s' t (s.thread t).ss.lowPriority).core := by
  cases preempted with
  | true => simp
  | false =>
    unfold ssStopRunningWith schedSsBlockWith
    by_cases hss : (s.thread t).isSchedSS
    swap
    · left
      rw [if_neg hss]
    by_cases horg : (s.thread t).ss.orgPriority = 0
    swap
    · simp [horg]
    have h := core_schedSsUpdateWith adj s t
      (decide ((s.thread t).ss.replCount + 1 ≥ (s.thread t).ss.maxRepl))
    simp only [hss, horg]
    refine h.imp_right ?_
    rintro ⟨⟨hd, _, hp⟩, s', h1, h2, h3⟩
    exact ⟨⟨by simpa [Thread.isSchedSS] using hss, horg, by simpa using hd, hp⟩, s', h1, h2, h3⟩

/-! ### `yield` and `adjust_priority` -/

theorem yieldWith_none {s : Sched} (h : s.dpp.links.head (s.prio s.actives) = none) :
    yieldWith adj s = s := by
  simp [yieldWith, h]

theorem core_yieldWith_some (adj : Sched → Thp → Prio → Sched) {s : Sched} {t : Thp}
    (h : s.dpp.links.head (s.prio s.actives) = some t) :
    (yieldWith adj s).core = s.core.swap t ∨
    ∃ s', s'.core = s.core.swap t ∧ (yieldWith adj s).core =
        (adj s' s.actives (s.thread s.actives).ss.lowPriority).core := by
  unfold yieldWith
  simp only [h, core_ssMarkActivation]
  generalize hs1 : Sched.markRunning _ t = s1
  have hc : s1.core = s.core.swap t := by
    rw [← hs1]
    simp [Core.swap]
  have hl : (s1.thread s.actives).ss.lowPriority = (s.thread s.actives).ss.lowPriority := by
    rw [← hs1, markRunning_ss, setState, modThread_ss _ _ _ rfl, rrResetTick_ss]
    rfl
  rcases core_ssStopRunningWith adj s1 s.actives false with he | ⟨_, s', h1, _, h3⟩
  · exact .inl (he.trans hc)
  · exact .inr ⟨s', h1.trans hc, hl ▸ h3⟩

theorem core_run_found (s : Sched) (t : Thp) :
    ((s.modDpp fun d => d.remClr (s.prio t) t).markRunning t).core =
      (s.core.take t .running).run t := by
  simp [Core.take, Core.run, Core.setState]

theorem selectThread_none {s : Sched} (h : s.dpp.links.head s.dpp.bits.highestPri = none)
    (p : Int) : s.selectThread p = (none, s) := by
  simp [selectThread, h]

theorem selectThread_lt {s : Sched} {p : Int} (h : (s.dpp.bits.highestPri : Int) < p) :
    s.selectThread p = (none, s) := by
  simp [selectThread, h]

theorem selectThread_some {s : Sched} {t : Thp} {p : Int}
    (h : s.dpp.links.head s.dpp.bits.highestPri = some t) (hp : p ≤ s.dpp.bits.highestPri) :
    s.selectThread p = (some t, s.modDpp fun d => d.remClr (s.prio t) t) := by
  simp [selectThread, h, hp]

theorem core_lower (s : Sched) (p : Prio) :
    (((s.setPriority s.actives p).setState s.actives .ready).rrResetTick s.actives).core.modDpp
        (fun d => (d.link3End p s.actives).set p) =
      (s.core.setPriority s.actives p).putTail s.actives := by
  simp [Core.putTail, Core.prio, Core.setPriority, Core.setState, Core.modDpp]

theorem core_adjustPriorityWith {s : Sched} {t : Thp} {p : Prio}
    (ha : s.core.state s.actives ≠ .ready)
    (h : (s.thread t).priority = p → t ≠ s.actives) :
    (adjustPriorityWith adj s t p).core = s.core.adjust t p := by
  unfold adjustPriorityWith Core.adjust
  by_cases hp : (s.thread t).priority = p
  · simp [hp, h hp]
  simp only [hp, if_false, core_priority, core_state]
  cases hst : (s.thread t).state
  case ready =>
    have hne : s.actives ≠ t := by
      rintro rfl
      exact ha hst
    simp only [prio_setPriority_self, prio_setPriority_ne _ hne, prio_modDpp,
      ssStopRunningWith_preempted, core_prio, core_actives]
    by_cases hgt : (p : Nat) > s.prio s.actives
    · simp only [hgt, if_true, core_modDpp, core_markRunning, core_rrAddPreemptTick,
        core_setState, core_setPriority, prio_markRunning, prio_rrAddPreemptTick, prio_setState,
        prio_setPriority_ne _ hne]
      refine Core.ext rfl ?_ rfl ?_
      · funext u
        by_cases hu : u = t
        · simp [hu, Ne.symm hne]
        · simp [hu]
      · have hpr : (((s.core.take t .stopped).setPriority t p).run t).prio s.actives =
            s.prio s.actives := by simp [hne]
        simp only [Core.preempt, Core.putHead, Core.actives_setPriority, Core.actives_take,
          core_actives, hpr]
        rfl
    simp only [hgt, if_false, core_modDpp, core_rrResetTick, prio_rrResetTick,
      core_setPriority, prio_setPriority_self]
    refine Core.ext rfl ?_ rfl ?_
    · funext u
      by_cases hu : u = t
      · simp [hu, hst]
      · simp [hu]
    · have hpr : ((s.core.take t .stopped).setPriority t p).prio t = p := by simp
      simp only [Core.putTail, hpr]
      rfl
  case running =>
    simp only [core_prio, core_actives, core_dpp]
    by_cases hc : (p : Nat) < s.prio s.actives ∧ (p : Nat) ≤ s.dpp.bits.highestPri
    · simp only [hc, prio_rrResetTick, prio_setState, prio_setPriority_self,
        ssStopRunningWith_preempted]
      generalize hs1 : Sched.modDpp _ _ = s1
      have hcore : s1.core = (s.core.setPriority s.actives p).putTail s.actives := by
        rw [← hs1, core_modDpp, core_lower]
      have hdpp : s1.dpp = s1.core.dpp := rfl
      rw [Core.findHighest, ← hcore, hdpp]
      cases s1.core.dpp.links.head s1.core.dpp.bits.highestPri with
      | none => rfl
      | some b => exact s1.core_run_found b
    · simp only [hc, if_false, core_setPriority]
  all_goals simp

end Sched

end Qnx.Ker
