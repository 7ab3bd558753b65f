import Qnx.Ker.SchedRun

/-!
# What the sporadic server remembers

Most of the scheduler never touches the priorities and the pending replenishment that
`SSINFO` holds. This module says which functions leave them alone, and what
`sched_ss_update` makes of them.
-/

namespace Qnx.Ker

/-- `b` is `a` as far as the sporadic server goes; at most the activation was taken anew. -/
structure Thread.Same (a b : Thread) : Prop where
  policy : b.policy = a.policy
  real : b.realPriority = a.realPriority
  low : b.ss.lowPriority = a.ss.lowPriority
  org : b.ss.orgPriority = a.ss.orgPriority
  amount : b.ss.amount = a.ss.amount
  consumed : b.ss.consumed ≤ a.ss.consumed

theorem Thread.Same.refl (a : Thread) : a.Same a := ⟨rfl, rfl, rfl, rfl, rfl, le_rfl⟩

variable {a b : Thread}

theorem Thread.Same.trans {c : Thread} (h : a.Same b) (h' : b.Same c) : a.Same c where
  policy := h'.policy.trans h.policy
  real := h'.real.trans h.real
  low := h'.low.trans h.low
  org := h'.org.trans h.org
  amount := h'.amount.trans h.amount
  consumed := h'.consumed.trans h.consumed

def Thread.Settled (th : Thread) : Prop := th.policy ≠ .sporadic ∨ th.ss.orgPriority ≠ 0

theorem Thread.Same.settled (h : a.Same b) (ha : a.Settled) : b.Settled := by
  unfold Thread.Settled
  rwa [h.policy, h.org]

def Thread.NoWrap (th : Thread) : Prop := th.ss.amount + th.ss.consumed < 2 ^ 64

instance (th : Thread) : Decidable th.NoWrap := inferInstanceAs (Decidable (_ < _))

theorem Thread.Same.noWrap (h : a.Same b) (ha : a.NoWrap) : b.NoWrap := by
  have hc := h.consumed
  unfold Thread.NoWrap at ha ⊢
  rw [h.amount]
  omega

namespace Sched

structure Calm (s s' : Sched) : Prop where
  list : s'.ssReplenishList = s.ssReplenishList
  thread : ∀ t, (s.thread t).Same (s'.thread t)

structure CalmOff (t : Thp) (s s' : Sched) : Prop where
  mem : ∀ u, u ≠ t → (u ∈ s'.ssReplenishList ↔ u ∈ s.ssReplenishList)
  thread : ∀ u, u ≠ t → (s.thread u).Same (s'.thread u)

theorem Calm.refl (s : Sched) : Calm s s := ⟨rfl, fun _ => .refl _⟩

variable {s s1 s2 s' : Sched} {t : Thp}

theorem Calm.trans (h : Calm s s1) (h' : Calm s1 s2) : Calm s s2 :=
  ⟨h'.list.trans h.list, fun t => (h.thread t).trans (h'.thread t)⟩

theorem Calm.off (h : Calm s s') (t : Thp) : CalmOff t s s' :=
  ⟨fun _ _ => by rw [h.list], fun u _ => h.thread u⟩

theorem CalmOff.refl (t : Thp) (s : Sched) : CalmOff t s s := (Calm.refl s).off t

theorem CalmOff.trans (h : CalmOff t s s1) (h' : CalmOff t s1 s2) : CalmOff t s s2 :=
  ⟨fun u hu => (h'.mem u hu).trans (h.mem u hu), fun u hu => (h.thread u hu).trans (h'.thread u hu)⟩

@[simp] theorem modThread_self (s : Sched) (t : Thp) (f : Thread → Thread) :
    (s.modThread t f).thread t = f (s.thread t) := by
  simp [modThread]

theorem modThread_ne (s : Sched) {u : Thp} (h : u ≠ t) (f : Thread → Thread) :
    (s.modThread t f).thread u = s.thread u := by
  simp [modThread, h]

@[simp] theorem modSS_self (s : Sched) (t : Thp) (f : SSInfo → SSInfo) :
    (s.modSS t f).thread t = { s.thread t with ss := f (s.thread t).ss } :=
  s.modThread_self t _

@[simp] theorem setRealPriority_self (s : Sched) (t : Thp) (p : Prio) :
    (s.setRealPriority t p).thread t = { s.thread t with realPriority := p } :=
  s.modThread_self t _

@[simp] theorem list_modThread (s : Sched) (t : Thp) (f : Thread → Thread) :
    (s.modThread t f).ssReplenishList = s.ssReplenishList := rfl

@[simp] theorem list_modSS (s : Sched) (t : Thp) (f : SSInfo → SSInfo) :
    (s.modSS t f).ssReplenishList = s.ssReplenishList := rfl

@[simp] theorem list_setRealPriority (s : Sched) (t : Thp) (p : Prio) :
    (s.setRealPriority t p).ssReplenishList = s.ssReplenishList := rfl

theorem CalmOff.modThread (h : CalmOff t s s1) (f : Thread → Thread) :
    CalmOff t s (s1.modThread t f) := by
  refine h.trans ⟨fun _ _ => Iff.rfl, fun u hu => ?_⟩
  rw [s1.modThread_ne hu]
  exact .refl _

theorem CalmOff.modSS (h : CalmOff t s s1) (f : SSInfo → SSInfo) : CalmOff t s (s1.modSS t f) :=
  h.modThread _

theorem calm_modThread (s : Sched) (t : Thp) {f : Thread → Thread}
    (h : (s.thread t).Same (f (s.thread t))) : Calm s (s.modThread t f) := by
  refine ⟨rfl, fun u => ?_⟩
  by_cases hu : u = t
  · subst hu
    rwa [modThread_self]
  · rw [s.modThread_ne hu]
    exact .refl _

theorem calm_modDpp (s : Sched) (f : Dispatch → Dispatch) : Calm s (s.modDpp f) :=
  ⟨rfl, fun _ => .refl _⟩

section

variable (s : Sched) (t : Thp)

theorem calm_setState (st : State) : Calm s (s.setState t st) :=
  s.calm_modThread t ⟨rfl, rfl, rfl, rfl, rfl, le_rfl⟩

theorem calm_setPriority (p : Prio) : Calm s (s.setPriority t p) :=
  s.calm_modThread t ⟨rfl, rfl, rfl, rfl, rfl, le_rfl⟩

theorem calm_rrResetTick : Calm s (s.rrResetTick t) := by
  unfold rrResetTick
  split
  · exact s.calm_modThread t ⟨rfl, rfl, rfl, rfl, rfl, le_rfl⟩
  · exact .refl s

theorem calm_rrAddTick (n : Nat) : Calm s (s.rrAddTick t n) := by
  unfold rrAddTick
  split
  · exact s.calm_modThread t ⟨rfl, rfl, rfl, rfl, rfl, le_rfl⟩
  · exact .refl s

theorem calm_markRunning : Calm s (s.markRunning t) := by
  have h0 : Calm s ({ s with actives := t } : Sched) := ⟨rfl, fun _ => .refl _⟩
  have h := h0.trans (calm_setState _ t .running)
  unfold markRunning
  simp only
  split
  · exact ⟨h.list, h.thread⟩
  · exact h

theorem calm_schedSsQueue : Calm s (s.schedSsQueue t) := by
  unfold schedSsQueue
  split
  · exact .refl s
  split
  · exact .refl s
  · exact .refl s
  · exact s.calm_modThread t ⟨rfl, rfl, rfl, rfl, rfl, Nat.zero_le _⟩

theorem calm_ssMarkActivation : Calm s (s.ssMarkActivation t) := by
  unfold ssMarkActivation
  split
  · exact s.calm_schedSsQueue t
  · exact .refl s

end

theorem calm_selectThread {p : Int} {o : Option Thp}
    (h : s.selectThread p = (o, s')) : Calm s s' := by
  obtain rfl : s' = (s.selectThread p).2 := by rw [h]
  unfold selectThread
  simp only
  split
  · exact .refl s
  split
  · exact .refl s
  · exact calm_modDpp s fun d => d.remClr (s.prio _) _

section Bodies
variable {adj : Sched → Thp → Prio → Sched}

variable {s : Sched} {t : Thp}

theorem ssStopRunningWith_settled (h : (s.thread t).Settled) (b : Bool) :
    ssStopRunningWith adj s t b = s := by
  unfold ssStopRunningWith schedSsBlockWith
  rcases h with h | h
  · rw [if_neg (by simpa [Thread.isSchedSS] using h)]
  · simp [h]

def switched (s : Sched) (thp : Thp) : Sched :=
  let act := s.actives
  let s := s.modDpp fun d => (d.link3Rem (s.prio act) thp).link3End (s.prio act) act
  ((s.rrResetTick act).setState act .ready).markRunning thp

theorem calm_switched (s : Sched) (thp : Thp) : Calm s (s.switched thp) :=
  (((s.calm_modDpp _).trans (calm_rrResetTick _ _)).trans (calm_setState _ _ _)).trans
    (calm_markRunning _ _)

theorem yieldWith_some {thp : Thp} (h : s.dpp.links.head (s.prio s.actives) = some thp) :
    yieldWith adj s =
      (ssStopRunningWith adj (s.switched thp) s.actives false).ssMarkActivation s.actives := by
  unfold yieldWith
  simp only [h]
  rfl

theorem calm_yieldWith (h : (s.thread s.actives).Settled) : Calm s (yieldWith adj s) := by
  cases hh : s.dpp.links.head (s.prio s.actives) with
  | none =>
    rw [yieldWith_none hh]
    exact .refl s
  | some thp =>
    have hc := s.calm_switched thp
    rw [yieldWith_some hh, ssStopRunningWith_settled ((hc.thread _).settled h)]
    exact hc.trans (calm_ssMarkActivation _ _)

theorem calm_adjustPriorityWith (s : Sched) (t : Thp) (p : Prio)
    (h : (s.thread t).priority = p → t ≠ s.actives) : Calm s (adjustPriorityWith adj s t p) := by
  unfold adjustPriorityWith
  by_cases hp : (s.thread t).priority = p
  · simp only [hp, h hp]
    exact .refl s
  simp only [hp, if_false]
  split
  · have h1 : Calm s ((s.modDpp fun d => d.remClr (s.prio t) t).setPriority t p) :=
      (s.calm_modDpp _).trans (calm_setPriority _ _ _)
    refine h1.trans ?_
    split
    · rw [ssStopRunningWith_preempted]
      exact ((((calm_setState _ _ _).trans (calm_rrAddTick _ _ _)).trans
        (calm_markRunning _ _)).trans (calm_modDpp _ _)).trans (calm_modDpp _ _)
    · exact ((calm_rrResetTick _ _).trans (calm_modDpp _ _)).trans (calm_modDpp _ _)
  · split
    · generalize hs1 : modDpp (rrResetTick _ _) _ = s1
      have h1 : Calm s s1 := by
        rw [← hs1]
        exact (((s.calm_setPriority _ _).trans (calm_setState _ _ _)).trans
          (calm_rrResetTick _ _)).trans (calm_modDpp _ _)
      refine h1.trans ?_
      split
      · exact .refl _
      · rw [ssStopRunningWith_preempted]
        exact (calm_modDpp _ _).trans (calm_markRunning _ _)
    · exact s.calm_setPriority _ _
  · exact s.calm_setPriority _ _

theorem adjustPriorityWith_yield (ht : t = s.actives) :
    adjustPriorityWith adj s t (s.thread t).priority = yieldWith adj s := by
  simp [adjustPriorityWith, ht]

theorem calm_adjustN_settled (h : (s.thread t).Settled) (n : Nat) (p : Prio) :
    Calm s (adjustN n s t p) := by
  cases n with
  | zero => exact .refl s
  | succ n =>
    show Calm s (adjustPriorityWith (adjustN n) s t p)
    by_cases hy : (s.thread t).priority = p ∧ t = s.actives
    · obtain ⟨rfl, ht⟩ := hy
      rw [adjustPriorityWith_yield ht]
      exact calm_yieldWith (ht ▸ h)
    · exact s.calm_adjustPriorityWith t p fun hp ht => hy ⟨hp, ht⟩

end Bodies

theorem calm_adjustPriority_settled (h : (s.thread t).Settled) (p : Prio) :
    Calm s (s.adjustPriority t p) :=
  calm_adjustN_settled h 2 p

theorem calm_adjustHead (s : Sched) (t : Thp) (p : Prio) : Calm s (s.adjustHead t p) := by
  unfold adjustHead
  simp only
  split
  · rename_i hne
    have h1 : Calm s (s.adjustPriority t p) :=
      s.calm_adjustPriorityWith t p fun hp => absurd hp.symm hne
    split
    · exact h1.trans (calm_modDpp _ _)
    · exact h1
  · exact .refl s

theorem calm_adjTo (s : Sched) (t : Thp) (head : Bool) : Calm s (s.adjTo t head).2 := by
  unfold adjTo
  split
  · exact .refl s
  have h1 := s.calm_modDpp fun d => d.link3Rem (s.prio t) t
  refine h1.trans ?_
  split
  · exact calm_modDpp _ fun d => d.link3Beg (s.prio t) t
  · exact (calm_rrResetTick _ t).trans (calm_modDpp _ fun d => d.link3End (s.prio t) t)

theorem calm_timeslice (s : Sched) : Calm s s.timeslice := by
  unfold timeslice
  simp only
  split
  · exact .refl s
  split
  · rename_i hsel
    exact calm_selectThread hsel
  rename_i hsel
  refine (calm_selectThread hsel).trans ((calm_rrAddTick _ s.actives 1).trans ?_)
  refine (Calm.trans ?_ (calm_modDpp _ _)).trans
    ((calm_setState _ _ _).trans (calm_markRunning _ _))
  split
  · exact (calm_rrResetTick _ _).trans (calm_modDpp _ _)
  · exact calm_modDpp _ _

theorem calm_runOrQueue {act : Thp} {p : Nat} (h : s.runOrQueue act t p = some s') : Calm s s' := by
  unfold runOrQueue at h
  split at h
  · cases h
    exact s.calm_markRunning t
  simp only at h
  split at h
  · cases h
  rename_i hsel
  cases h
  exact ((((s.calm_modDpp _).trans (calm_modDpp _ _)).trans (calm_setState _ _ _)).trans
    (calm_selectThread hsel)).trans (calm_markRunning _ _)

end Sched

end Qnx.Ker
