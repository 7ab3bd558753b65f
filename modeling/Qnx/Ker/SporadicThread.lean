import Qnx.Ker.SporadicMode

/-!
# `sched_thread` on sporadic threads

`sched_thread` writes `real_priority` last, after `adjust_priority`. `Undisturbed` names the
calls for which that is what a dropped thread, or one dropped on the way, can stand.
-/

namespace Qnx.Ker

open Function

namespace Sched

/-- The `yield` inside `adjust_priority` would take the thread down. -/
def yieldDrops (s : Sched) (t : Thp) (p : Prio) : Prop :=
  t = s.actives ∧ (s.thread t).priority = p ∧ s.dpp.links.head (s.prio t) ≠ none ∧
    (s.thread t).ss.replCount + 1 ≥ (s.thread t).ss.maxRepl

theorem switched_ss (s : Sched) (thp u : Thp) :
    ((s.switched thp).thread u).ss = (s.thread u).ss := by
  unfold switched
  rw [markRunning_ss, setState, modThread_ss _ _ _ rfl, rrResetTick_ss]
  rfl

structure Kept (t : Thp) (s s' : Sched) : Prop where
  off : CalmOff t s s'
  listed : s'.Listed
  policy : (s'.thread t).policy = .sporadic
  org : (s'.thread t).ss.orgPriority = 0

variable {t : Thp} {s s1 s2 : Sched} {p : Prio} {n : Int} {param : SchedParam} {req : Thp → Prio}
  {policy : Policy}

theorem Kept.calm (h : Kept t s s1) (hc : Calm s1 s2) : Kept t s s2 where
  off := h.off.trans (hc.off t)
  listed := h.listed.calm hc
  policy := (hc.thread t).policy.trans h.policy
  org := (hc.thread t).org.trans h.org

theorem kept_ssStopRunningWith (n : Nat) (h : Kept t s s1) (hw : (s1.thread t).NoWrap)
    (hr : ¬((s1.thread t).ss.replCount + 1 ≥ (s1.thread t).ss.maxRepl)) :
    Kept t s (ssStopRunningWith (adjustN n) s1 t false) := by
  have hu := schedSsUpdateWith_updated n false h.listed h.policy h.org hw (by simp)
  have he : ssStopRunningWith (adjustN n) s1 t false =
      schedSsUpdateWith (adjustN n) s1 t false := by
    simp [ssStopRunningWith, schedSsBlockWith, Thread.isSchedSS, h.policy, h.org, hr]
  rw [he]
  exact ⟨h.off.trans hu.off, hu.listed, hu.policy.trans h.policy, hu.org⟩

theorem kept_adjustPriority (h : s.Listed)
    (hp : (s.thread t).policy = .sporadic) (ho : (s.thread t).ss.orgPriority = 0)
    (hw : t = s.actives → (s.thread t).NoWrap) (hd : ¬s.yieldDrops t p) :
    Kept t s (s.adjustPriority t p) := by
  have hk : Kept t s s := ⟨.refl t s, h, hp, ho⟩
  by_cases hy : (s.thread t).priority = p ∧ t = s.actives
  · obtain ⟨rfl, ht⟩ := hy
    rw [adjustPriority, adjustN, adjustPriorityWith_yield ht]
    cases hh : s.dpp.links.head (s.prio s.actives) with
    | none => rwa [yieldWith_none hh]
    | some thp =>
      have hc := s.calm_switched thp
      rw [yieldWith_some hh, ← ht]
      refine (kept_ssStopRunningWith 1 (hk.calm hc) ((hc.thread t).noWrap (hw ht)) ?_).calm
        (calm_ssMarkActivation _ _)
      rw [switched_ss]
      exact fun hr => hd ⟨ht, rfl, by rw [ht, hh]; simp, hr⟩
  · exact hk.calm (s.calm_adjustPriorityWith t p fun hp ht => hy ⟨hp, ht⟩)

theorem toPrio_val (h0 : 0 ≤ n) (h : n < 256) : ((toPrio n : Prio) : Int) = n := by
  unfold toPrio
  simp only [Fin.ofNat_eq_cast, Fin.val_natCast]
  omega

theorem toPrio_ne_zero (h0 : 0 < n) (h : n < 256) : toPrio n ≠ 0 := by
  intro hz
  have := toPrio_val h0.le h
  rw [hz] at this
  omega

theorem kerschedok_sporadic {th : Thread} {priv : Nat}
    (h : kerschedok th priv (some .sporadic) param = .eok) :
    param.schedPriority < 256 ∧ 1 ≤ param.ssMaxRepl ∧ param.ssMaxRepl ≤ 65535 ∧
    0 < param.ssLowPriority ∧ param.ssLowPriority ≤ param.schedPriority := by
  unfold kerschedok at h
  split at h
  · cases h
  split at h
  · cases h
  split at h
  · cases h
  simp only at h
  split at h
  · cases h
  split at h
  · cases h
  omega

def sameAttributes (ss : SSInfo) (param : SchedParam) : Prop :=
  (ss.lowPriority : Int) = param.ssLowPriority ∧ (ss.maxRepl : Int) = param.ssMaxRepl ∧
    ss.replPeriod = param.ssReplPeriod ∧ ss.initBudget = param.ssInitBudget

instance (ss : SSInfo) (param : SchedParam) : Decidable (sameAttributes ss param) :=
  inferInstanceAs (Decidable (_ ∧ _))

def down (th : Thread) : Prop := th.policy = .sporadic ∧ th.ss.orgPriority ≠ 0

instance (th : Thread) : Decidable (down th) := inferInstanceAs (Decidable (_ ∧ _))

def usedUp (th : Thread) : Nat := if th.policy = .sporadic then th.ss.replCount else 0

theorem ssEnter_sporadic (h : (s.thread t).policy = .sporadic) :
    s.ssEnter t param = if (s.thread t).waaa then
      s.modSS t fun ss => { ss with activationTime := s.clock, currBudget := param.ssInitBudget }
    else s := by
  simp [ssEnter, h]

theorem ssEnter_newcomer (h : (s.thread t).policy ≠ .sporadic) : s.ssEnter t param =
      (s.modThread t fun th => { th with policy := .fifo, ss := SSInfo.zero }).modSS t fun ss =>
        { ss with activationTime := s.clock, currBudget := param.ssInitBudget } := by
  unfold ssEnter
  rw [if_pos h]
  exact if_pos (.inr (by simp))

theorem ssAttributes_same (h : sameAttributes (s.thread t).ss param) :
    s.ssAttributes t param = (s, toPrio param.schedPriority) :=
  if_pos h

def setAttributes (param : SchedParam) (ss : SSInfo) : SSInfo :=
  { ss with lowPriority := toPrio param.ssLowPriority, maxRepl := u16 param.ssMaxRepl.toNat,
            replPeriod := param.ssReplPeriod, initBudget := param.ssInitBudget }

theorem ssAttributes_normal
    (h : ¬sameAttributes (s.thread t).ss param) (ho : (s.thread t).ss.orgPriority = 0) :
    s.ssAttributes t param = (s.modSS t (setAttributes param), toPrio param.schedPriority) := by
  refine (if_neg h).trans (if_neg ?_)
  simpa using ho

theorem ssAttributes_down
    (h : ¬sameAttributes (s.thread t).ss param) (ho : (s.thread t).ss.orgPriority ≠ 0) :
    s.ssAttributes t param = ((s.modSS t (setAttributes param)).modSS t fun ss =>
        { ss with orgPriority := toPrio param.schedPriority }, toPrio param.ssLowPriority) := by
  refine (if_neg h).trans (if_pos ?_)
  rw [modSS_self]
  exact ho

/-- `s1` is `s` but for thread `t`, and no list has changed. -/
structure Only (t : Thp) (s s1 : Sched) : Prop where
  off : CalmOff t s s1
  list : s1.ssReplenishList = s.ssReplenishList

theorem Only.modThread (h : Only t s s1) (f : Thread → Thread) : Only t s (s1.modThread t f) :=
  ⟨h.off.modThread f, h.list⟩

theorem Only.modSS (h : Only t s s1) (f : SSInfo → SSInfo) : Only t s (s1.modSS t f) :=
  h.modThread _

theorem Only.calm (h : Only t s s1) (hc : Calm s1 s2) : Only t s s2 :=
  ⟨h.off.trans (hc.off t), hc.list.trans h.list⟩

theorem only_ssEnter (s : Sched) (t : Thp) (param : SchedParam) : Only t s (s.ssEnter t param) := by
  have h0 : Only t s s := ⟨.refl t s, rfl⟩
  by_cases hp : (s.thread t).policy = .sporadic
  · rw [ssEnter_sporadic hp]
    split
    · exact h0.modSS _
    · exact h0
  · rw [ssEnter_newcomer hp]
    exact (h0.modThread _).modSS _

theorem ssEnter_ss (s : Sched) (t : Thp) (param : SchedParam) :
    let ss := ((s.ssEnter t param).thread t).ss
    ss.orgPriority = (if (s.thread t).policy = .sporadic then (s.thread t).ss.orgPriority else 0) ∧
    ss.amount = (if (s.thread t).policy = .sporadic then (s.thread t).ss.amount else 0) ∧
    ss.consumed = (if (s.thread t).policy = .sporadic then (s.thread t).ss.consumed else 0) ∧
    ss.replCount = usedUp (s.thread t) := by
  unfold usedUp
  by_cases hp : (s.thread t).policy = .sporadic
  · rw [ssEnter_sporadic hp]
    split <;> simp
  · rw [ssEnter_newcomer hp]
    simp [hp, SSInfo.zero]

theorem Listed.setRealPriority (h : s.Listed) (t : Thp) (p : Prio) :
    (s.setRealPriority t p).Listed := by
  refine h.off ((CalmOff.refl t s).modThread _) h.once ?_ ?_
  · rw [setRealPriority_self]
    exact h.mem t
  · rw [setRealPriority_self]
    exact h.dropped t

/-- The state in which `sched_thread` adjusts the priority of a sporadic thread. -/
def attributed (s : Sched) (t : Thp) (param : SchedParam) : Sched :=
  ((s.ssEnter t param).ssAttributes t param).1.modThread t fun th =>
    { th with policy := .sporadic }

theorem sameAttributes_ssEnter (h : (s.thread t).policy = .sporadic) :
    sameAttributes ((s.ssEnter t param).thread t).ss param ↔
      sameAttributes (s.thread t).ss param := by
  rw [ssEnter_sporadic h]
  split
  · rw [modSS_self]
    exact Iff.rfl
  · exact Iff.rfl

theorem core_attributed (s : Sched) (t : Thp) (param : SchedParam) :
    (s.attributed t param).core = s.core := by
  unfold attributed
  rw [core_modThread_of _ _ rfl rfl, core_ssAttributes, core_ssEnter]

theorem ssAttributes_kept (ho : (s.thread t).ss.orgPriority = 0) (h1 : 1 ≤ param.ssMaxRepl)
    (h2 : param.ssMaxRepl ≤ 65535) :
    ∃ f, s.ssAttributes t param = (s.modSS t f, toPrio param.schedPriority) ∧
      (f (s.thread t).ss).orgPriority = 0 ∧
      (f (s.thread t).ss).amount = (s.thread t).ss.amount ∧
      (f (s.thread t).ss).consumed = (s.thread t).ss.consumed ∧
      (f (s.thread t).ss).replCount = (s.thread t).ss.replCount ∧
      ((f (s.thread t).ss).maxRepl : Int) = param.ssMaxRepl := by
  by_cases hs : sameAttributes (s.thread t).ss param
  · refine ⟨id, ?_, ho, rfl, rfl, rfl, hs.2.1⟩
    rw [ssAttributes_same hs]
    simp [modSS, modThread]
  refine ⟨setAttributes param, ssAttributes_normal hs ho, ho, rfl, rfl, rfl, ?_⟩
  simp only [setAttributes, u16]
  omega

section

variable (h : s.Mode req)
include h

theorem mode_take_down {r : Prio}
    (hd : down (s.thread t)) (ho : Only t s s1) (hp : (s1.thread t).policy = .sporadic)
    (hr : r ≠ 0) (horg : (s1.thread t).ss.orgPriority = r)
    (hlow : (s1.thread t).ss.lowPriority = p)
    (ha : (s1.thread t).ss.amount = (s.thread t).ss.amount) :
    ((s1.adjustPriority t p).setRealPriority t p).Mode (update req t r) := by
  have hc : Calm s1 (s1.adjustPriority t p) := calm_adjustPriority_settled (.inr (horg ▸ hr)) p
  have hamount := h.listed.dropped t hd.1 hd.2
  have hsame := hc.thread t
  have ho2 := ho.calm hc
  have hl : (s1.adjustPriority t p).Listed := by
    refine h.listed.off ho2.off (ho2.list ▸ h.listed.once) ?_ fun _ _ => ?_
    · rw [ho2.list, h.listed.mem t, hsame.policy, hsame.amount, hp, ha, hd.1]
    · rwa [hsame.amount, ha]
  refine h.off (ho2.off.modThread _) (hl.setRealPriority t p) ?_
  rw [setRealPriority_self]
  exact ⟨fun _ => hr, fun _ h0 => absurd (horg ▸ hsame.org ▸ h0) hr,
    fun _ _ => ⟨(hsame.low.trans hlow).symm, hsame.org.trans horg⟩⟩

theorem mode_take_normal (ho : Only t s s1) (hp : (s1.thread t).policy = .sporadic) (hr : p ≠ 0)
    (horg : (s1.thread t).ss.orgPriority = 0)
    (ha : (s1.thread t).ss.amount ≠ 0 ↔ t ∈ s.ssReplenishList)
    (hw : t = s1.actives → (s1.thread t).NoWrap) (hd : ¬s1.yieldDrops t p) :
    ((s1.adjustPriority t p).setRealPriority t p).Mode (update req t p) := by
  have hl : s1.Listed := by
    refine h.listed.off ho.off (ho.list ▸ h.listed.once) ?_ fun _ h0 => absurd horg h0
    rw [ho.list, ← ha]
    exact ⟨fun hx => ⟨hp, hx⟩, fun hx => hx.2⟩
  have hk := kept_adjustPriority hl hp horg hw hd
  refine h.off ((ho.off.trans hk.off).modThread _) (hk.listed.setRealPriority t p) ?_
  rw [setRealPriority_self]
  exact ⟨fun _ => hr, fun _ _ => rfl, fun _ h0 => absurd hk.org h0⟩

theorem mode_sporadic_down (hd : down (s.thread t)) (hlt : param.schedPriority < 256)
    (hlow : 0 < param.ssLowPriority) (hle : param.ssLowPriority ≤ param.schedPriority)
    (hok : ¬sameAttributes (s.thread t).ss param ∨
      ((s.thread t).ss.lowPriority : Int) = param.schedPriority ∧
      ((s.thread t).ss.orgPriority : Int) = param.schedPriority) :
    (((s.attributed t param).adjustPriority t
        ((s.ssEnter t param).ssAttributes t param).2).setRealPriority t
        ((s.ssEnter t param).ssAttributes t param).2).Mode
      (update req t (toPrio param.schedPriority)) := by
  have hpos := toPrio_ne_zero (by omega) hlt
  have hval := toPrio_val (by omega : 0 ≤ param.schedPriority) hlt
  have hE := s.only_ssEnter t param
  obtain ⟨horg, hamount, _, _⟩ := s.ssEnter_ss t param
  rw [if_pos hd.1] at horg hamount
  have hlowE : ((s.ssEnter t param).thread t).ss.lowPriority = (s.thread t).ss.lowPriority := by
    rw [ssEnter_sporadic hd.1]
    split
    · rw [modSS_self]
    · rfl
  unfold attributed
  by_cases hs : sameAttributes (s.thread t).ss param
  · obtain ⟨h1, h2⟩ := hok.resolve_left (not_not_intro hs)
    rw [ssAttributes_same ((sameAttributes_ssEnter hd.1).mpr hs)]
    dsimp only
    refine mode_take_down h hd (hE.modThread _) (by rw [modThread_self]) hpos ?_ ?_ ?_
    · rw [modThread_self]
      refine horg.trans (Fin.ext ?_)
      omega
    · rw [modThread_self]
      refine hlowE.trans (Fin.ext ?_)
      omega
    · rw [modThread_self]
      exact hamount
  have hs' := fun hx => hs ((sameAttributes_ssEnter (t := t) hd.1).mp hx)
  rw [ssAttributes_down hs' (horg ▸ hd.2)]
  dsimp only
  refine mode_take_down h hd (((hE.modSS _).modSS _).modThread _) (by rw [modThread_self])
    hpos ?_ ?_ ?_
  · rw [modThread_self, modSS_self]
  · rw [modThread_self, modSS_self, modSS_self]
    rfl
  · rw [modThread_self, modSS_self, modSS_self]
    exact hamount

theorem mode_sporadic_normal (hd : ¬down (s.thread t)) (hpos : toPrio param.schedPriority ≠ 0)
    (h1 : 1 ≤ param.ssMaxRepl) (h2 : param.ssMaxRepl ≤ 65535)
    (hw : (s.thread s.actives).NoWrap)
    (hok : ¬(t = s.actives ∧ (s.thread t).priority = toPrio param.schedPriority ∧
      s.dpp.links.head (s.prio t) ≠ none ∧ (usedUp (s.thread t) : Int) + 1 ≥ param.ssMaxRepl)) :
    (((s.attributed t param).adjustPriority t
        ((s.ssEnter t param).ssAttributes t param).2).setRealPriority t
        ((s.ssEnter t param).ssAttributes t param).2).Mode
      (update req t (toPrio param.schedPriority)) := by
  have hcore := s.core_attributed t param
  have hE := s.only_ssEnter t param
  obtain ⟨horg, hamount, hcons, hused⟩ := s.ssEnter_ss t param
  have horg0 : ((s.ssEnter t param).thread t).ss.orgPriority = 0 := by
    rw [horg]
    split
    · rename_i hp
      by_contra h0
      exact hd ⟨hp, h0⟩
    · rfl
  obtain ⟨f, he, f1, f2, f3, f4, f5⟩ := ssAttributes_kept horg0 h1 h2
  unfold attributed at hcore ⊢
  rw [he] at hcore ⊢
  refine mode_take_normal h ((hE.modSS _).modThread _) (by rw [modThread_self]) hpos ?_ ?_ ?_ ?_
  · rw [modThread_self, modSS_self]
    exact f1
  · rw [modThread_self, modSS_self, h.listed.mem t]
    rw [f2, hamount]
    split
    · rename_i hp
      simp [hp]
    · rename_i hp
      simp [hp]
  · intro ht
    rw [modThread_self, modSS_self]
    have hact : t = s.actives := ht.trans (congrArg Core.actives hcore)
    rw [← hact] at hw
    unfold Thread.NoWrap
    rw [f2, f3, hamount, hcons]
    split
    · exact hw
    · decide
  · rintro ⟨ht, hp, hhead, hrepl⟩
    rw [modThread_self, modSS_self] at hrepl
    dsimp only at hrepl
    have hprio := congrArg (fun c => c.priority t) hcore
    have hdpp := congrArg Core.dpp hcore
    have hpr := prio_of_core hcore t
    simp only [core_dpp, core_priority] at hdpp hprio
    refine hok ⟨ht.trans (congrArg Core.actives hcore), hprio ▸ hp, ?_, ?_⟩
    · rwa [← hdpp, ← hpr]
    · omega

theorem mode_setprio (hok : down (s.thread t) →
      ((s.thread t).ss.lowPriority : Int) = param.schedPriority) :
    (s.setprio t param).2.Mode (if (s.setprio t param).1 = .eok then
        update req t (toPrio param.schedPriority) else req) := by
  unfold setprio
  split
  · simpa using h
  split
  · simpa using h
  have hpos : toPrio param.schedPriority ≠ 0 := toPrio_ne_zero (by omega) (by omega)
  have hval := toPrio_val (by omega : 0 ≤ param.schedPriority) (by omega)
  simp only
  have hc := s.calm_adjustHead t (toPrio param.schedPriority)
  have h1 := h.calm hc
  have hsame := hc.thread t
  generalize s.adjustHead t (toPrio param.schedPriority) = s1 at hc h1 hsame
  have hoff := CalmOff.refl t s1
  split
  · rename_i hd
    have hp : (s1.thread t).policy = .sporadic := by simpa [Thread.isSchedSS] using hd.1
    have hlow : (s1.thread t).ss.lowPriority = toPrio param.schedPriority := by
      have := hok ⟨hsame.policy ▸ hp, hsame.org ▸ hd.2⟩
      rw [hsame.low]
      exact Fin.ext (by omega)
    have hl : (s1.modSS t fun ss =>
        { ss with orgPriority := toPrio param.schedPriority }).Listed := by
      refine h1.listed.off (hoff.modSS _) h1.listed.once ?_ ?_
      · rw [modSS_self]
        exact h1.listed.mem t
      · rw [modSS_self]
        exact fun hp _ => h1.listed.dropped t hp hd.2
    refine h.off (((hc.off t).modSS _).modThread _) (hl.setRealPriority t _) ?_
    rw [setRealPriority_self, modSS_self]
    exact ⟨fun _ => hpos, fun _ h0 => absurd h0 hpos, fun _ _ => ⟨hlow.symm, rfl⟩⟩
  rename_i hd
  refine h.off ((hc.off t).modThread _) (h1.listed.setRealPriority t _) ?_
  rw [setRealPriority_self]
  refine ⟨fun _ => hpos, fun _ _ => rfl, fun hp h0 => absurd ⟨?_, h0⟩ hd⟩
  simpa [Thread.isSchedSS] using hp

end

theorem mode_take_other (p r : Prio) (h : s.Mode req)
    (ho : CalmOff t s s1) (hl : s1.Listed) (hp : (s1.thread t).policy ≠ .sporadic) :
    ((s1.adjustPriority t p).setRealPriority t p).Mode (update req t r) := by
  have hc := calm_adjustPriority_settled (.inl hp) p
  refine h.off ((ho.trans (hc.off t)).modThread _) ((hl.calm hc).setRealPriority t p) ?_
  apply Thread.prioOk_of_ne
  rw [setRealPriority_self]
  exact (hc.thread t).policy ▸ hp

/-- `sched_thread` asked for `SCHED_SPORADIC`: what must not be so for the request to stand.
A dropped thread must not be given attributes it has; a thread that runs at the priority
asked for must not be dropped by the `yield` on the way. -/
def SporadicOk (s : Sched) (t : Thp) (param : SchedParam) : Prop :=
  if down (s.thread t) then
    ¬sameAttributes (s.thread t).ss param ∨
      ((s.thread t).ss.lowPriority : Int) = param.schedPriority ∧
      ((s.thread t).ss.orgPriority : Int) = param.schedPriority
  else ¬(t = s.actives ∧ (s.thread t).priority = toPrio param.schedPriority ∧
    s.dpp.links.head (s.prio t) ≠ none ∧ (usedUp (s.thread t) : Int) + 1 ≥ param.ssMaxRepl)

instance (s : Sched) (t : Thp) (param : SchedParam) : Decidable (s.SporadicOk t param) :=
  inferInstanceAs (Decidable (ite _ _ _))

theorem calmOff_schedSsCleanup (s : Sched) (t : Thp) : CalmOff t s (s.schedSsCleanup t) := by
  unfold schedSsCleanup
  refine CalmOff.modThread ?_ _
  exact ⟨fun u hu => List.mem_erase_of_ne hu, fun u _ => .refl _⟩

theorem calmOff_unsetSporadic (h : s.Listed) (t : Thp) : CalmOff t s (s.unsetSporadic t) ∧
    (s.unsetSporadic t).ssReplenishList = s.ssReplenishList.erase t := by
  unfold unsetSporadic
  split
  · have hr := calm_rrResetTick
      ((s.modThread t fun th => { th with policy := .fifo }).schedSsCleanup t) t
    exact ⟨(((CalmOff.refl t s).modThread _).trans (calmOff_schedSsCleanup _ t)).trans (hr.off t),
      hr.list⟩
  rename_i hp
  have hr := s.calm_rrResetTick t
  refine ⟨hr.off t, hr.list.trans ?_⟩
  rw [List.erase_of_not_mem fun hm => hp ((h.mem t).mp hm).1]

theorem mode_schedPolicy (alloc : Bool) (h : s.Mode req)
    (hk : kerschedok (s.thread t) s.privPrio (some policy) param = .eok)
    (hok : policy = .sporadic → s.SporadicOk t param) (hw : (s.thread s.actives).NoWrap) :
    (s.schedPolicy t policy param alloc).2.Mode
      (if (s.schedPolicy t policy param alloc).1 = .eok then
        update req t (toPrio param.schedPriority) else req) := by
  unfold schedPolicy
  by_cases hfail : policy = .sporadic ∧ (s.thread t).policy ≠ .sporadic ∧ ¬alloc
  · rw [if_pos hfail]
    have ht : t ∉ s.ssReplenishList := fun hm => hfail.2.1 ((h.listed.mem t).mp hm).1
    have hc := (CalmOff.refl t s).modThread fun th => { th with policy := .fifo, rrTicks := 0 }
    refine h.off_self hc (h.listed.off hc h.listed.once ?_ ?_) (Thread.prioOk_of_ne _ ?_)
    · simp [ht]
    · simp
    · simp
  rw [if_neg hfail]
  by_cases hsp : policy = .sporadic
  · subst hsp
    obtain ⟨hlt, h1, h2, hlow, hle⟩ := kerschedok_sporadic hk
    have hok := hok rfl
    unfold SporadicOk at hok
    simp only
    by_cases hd : down (s.thread t)
    · rw [if_pos hd] at hok
      exact mode_sporadic_down h hd hlt hlow hle hok
    · rw [if_neg hd] at hok
      exact mode_sporadic_normal h hd (toPrio_ne_zero (by omega) hlt) h1 h2 hw hok
  simp only [hsp, if_false]
  have hc := calmOff_unsetSporadic h.listed t
  have hoff := hc.1.modThread fun th => { th with policy := policy }
  refine mode_take_other _ _ h hoff (h.listed.off hoff ?_ ?_ ?_) ?_
  · rw [list_modThread, hc.2]
    exact h.listed.once.erase t
  · rw [list_modThread, hc.2, modThread_self]
    exact iff_of_false (h.listed.once.not_mem_erase) fun hx => hsp hx.1
  · rw [modThread_self]
    exact fun hx => absurd hx hsp
  · rw [modThread_self]
    exact hsp

/-- The calls of `sched_thread` that keep clear of a dropped thread. -/
def Undisturbed (s : Sched) (t : Thp) (policy : PolicyArg) (param : SchedParam) : Prop :=
  match policy with
  | .setprio => down (s.thread t) → ((s.thread t).ss.lowPriority : Int) = param.schedPriority
  | .nochange => (s.thread t).policy = .sporadic → s.SporadicOk t param
  | .policy policy => policy = .sporadic → s.SporadicOk t param
  | _ => True

instance (s : Sched) (t : Thp) (policy : PolicyArg) (param : SchedParam) :
    Decidable (s.Undisturbed t policy param) :=
  match policy with
  | .setprio => inferInstanceAs (Decidable (_ → _))
  | .nochange => inferInstanceAs (Decidable (_ → _))
  | .policy _ => inferInstanceAs (Decidable (_ → _))
  | .adjtohead | .adjtotail | .unknown => inferInstanceAs (Decidable True)

def request (s : Sched) (req : Thp → Prio) (t : Thp) (policy : PolicyArg) (param : SchedParam)
    (alloc : Bool) : Thp → Prio :=
  match policy with
  | .adjtohead | .adjtotail => req
  | _ => if (s.schedThread t policy param alloc).1 = .eok then
      update req t (toPrio param.schedPriority) else req

theorem mode_verified (alloc : Bool) (h : s.Mode req)
    (hok : policy = .sporadic → s.SporadicOk t param) (hw : (s.thread s.actives).NoWrap) :
    let r := match kerschedok (s.thread t) s.privPrio (some policy) param with
      | .eok => s.schedPolicy t policy param alloc
      | verify => (verify, s)
    r.2.Mode (if r.1 = .eok then
      update req t (toPrio param.schedPriority) else req) := by
  cases hk : kerschedok (s.thread t) s.privPrio (some policy) param with
  | eok => exact mode_schedPolicy alloc h hk hok hw
  | einval | eperm | esrch | enoerror => exact h

theorem mode_schedThread {policy : PolicyArg} (alloc : Bool) (h : s.Mode req)
    (hok : s.Undisturbed t policy param) (hw : (s.thread s.actives).NoWrap) :
    (s.schedThread t policy param alloc).2.Mode (s.request req t policy param alloc) := by
  cases policy with
  | adjtohead => exact h.calm (s.calm_adjTo t true)
  | adjtotail => exact h.calm (s.calm_adjTo t false)
  | setprio => exact mode_setprio h hok
  | nochange => exact mode_verified alloc h hok hw
  | policy policy => exact mode_verified alloc h hok hw
  | unknown =>
    have hne : kerschedok (s.thread t) s.privPrio none param ≠ .eok := by
      unfold kerschedok
      split
      · simp
      split
      · simp
      split
      · simp
      simp
    unfold request schedThread
    rw [if_neg hne]
    exact h

end Sched

end Qnx.Ker
