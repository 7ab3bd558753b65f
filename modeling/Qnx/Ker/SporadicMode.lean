import Qnx.Ker.Sporadic

/-!
# Dropped threads and their replenishments

A ghost remembers for each thread the priority `sched_thread` was last asked for. `Mode` says
that a dropped thread sits at its low priority with a replenishment pending that brings the
requested one back; the accounts and the replenishments of the sporadic server keep it.
-/

namespace Qnx.Ker

open List Function

/-- The priorities of a sporadic thread whose requested priority is `r`. -/
structure Thread.PrioOk (th : Thread) (r : Prio) : Prop where
  pos : th.policy = .sporadic → r ≠ 0
  normal : th.policy = .sporadic → th.ss.orgPriority = 0 → th.realPriority = r
  dropped : th.policy = .sporadic → th.ss.orgPriority ≠ 0 →
    th.realPriority = th.ss.lowPriority ∧ th.ss.orgPriority = r

theorem Thread.Same.prioOk {a b : Thread} {r : Prio} (h : a.Same b) (ha : a.PrioOk r) :
    b.PrioOk r where
  pos hp := ha.pos (h.policy ▸ hp)
  normal hp ho := h.real.trans (ha.normal (h.policy ▸ hp) (h.org ▸ ho))
  dropped hp ho := by
    rw [h.real, h.low, h.org]
    exact ha.dropped (h.policy ▸ hp) (h.org ▸ ho)

theorem Thread.prioOk_of_ne {th : Thread} (r : Prio) (h : th.policy ≠ .sporadic) : th.PrioOk r :=
  ⟨fun hp => absurd hp h, fun hp => absurd hp h, fun hp => absurd hp h⟩

namespace Sched

structure Listed (s : Sched) : Prop where
  once : s.ssReplenishList.Nodup
  mem : ∀ t, t ∈ s.ssReplenishList ↔ (s.thread t).policy = .sporadic ∧ (s.thread t).ss.amount ≠ 0
  dropped : ∀ t, (s.thread t).policy = .sporadic → (s.thread t).ss.orgPriority ≠ 0 →
    (s.thread t).ss.amount ≠ 0

structure Mode (s : Sched) (req : Thp → Prio) : Prop where
  listed : s.Listed
  prios : ∀ t, (s.thread t).PrioOk (req t)

variable {s s' s1 : Sched} {req : Thp → Prio} {t : Thp} {r : Prio} {next : List Thp}

theorem Listed.calm (h : s.Listed) (hc : Calm s s') : s'.Listed where
  once := hc.list ▸ h.once
  mem t := by
    rw [hc.list, (hc.thread t).policy, (hc.thread t).amount]
    exact h.mem t
  dropped t hp ho := by
    rw [(hc.thread t).amount]
    exact h.dropped t ((hc.thread t).policy ▸ hp) ((hc.thread t).org ▸ ho)

theorem Mode.calm (h : s.Mode req) (hc : Calm s s') : s'.Mode req :=
  ⟨h.listed.calm hc, fun t => (hc.thread t).prioOk (h.prios t)⟩

theorem Listed.off (h : s.Listed) (hc : CalmOff t s s') (honce : s'.ssReplenishList.Nodup)
    (hmem : t ∈ s'.ssReplenishList ↔ (s'.thread t).policy = .sporadic ∧ (s'.thread t).ss.amount ≠ 0)
    (hdrop : (s'.thread t).policy = .sporadic → (s'.thread t).ss.orgPriority ≠ 0 →
      (s'.thread t).ss.amount ≠ 0) : s'.Listed := by
  refine ⟨honce, fun u => ?_, fun u hp ho => ?_⟩
  · by_cases hu : u = t
    · rwa [hu]
    · rw [hc.mem u hu, (hc.thread u hu).policy, (hc.thread u hu).amount]
      exact h.mem u
  · by_cases hu : u = t
    · rw [hu] at hp ho ⊢
      exact hdrop hp ho
    · rw [(hc.thread u hu).amount]
      exact h.dropped u ((hc.thread u hu).policy ▸ hp) ((hc.thread u hu).org ▸ ho)

theorem Mode.off (h : s.Mode req)
    (hc : CalmOff t s s') (hl : s'.Listed) (ht : (s'.thread t).PrioOk r) :
    s'.Mode (update req t r) := by
  refine ⟨hl, fun u => ?_⟩
  by_cases hu : u = t
  · subst hu
    rwa [update_self]
  · rw [update_of_ne hu]
    exact (hc.thread u hu).prioOk (h.prios u)

theorem Mode.off_self (h : s.Mode req)
    (hc : CalmOff t s s') (hl : s'.Listed) (ht : (s'.thread t).PrioOk (req t)) :
    s'.Mode req := by
  rw [← update_eq_self t req]
  exact h.off hc hl ht

/-! ### `sched_ss_update` -/

@[simp] theorem ssInsert_thread (s : Sched) (t : Thp) : (s.ssInsert t).thread = s.thread := rfl

theorem ssInsert_perm (s : Sched) (t : Thp) :
    (s.ssInsert t).ssReplenishList.Perm (t :: s.ssReplenishList) := by
  refine perm_middle.trans (Perm.cons t ?_)
  rw [takeWhile_append_dropWhile]

theorem ssAccount_thread (s : Sched) (t : Thp) :
    ((s.ssAccount t).thread t).policy = (s.thread t).policy ∧
    ((s.ssAccount t).thread t).ss.orgPriority = (s.thread t).ss.orgPriority ∧
    ((s.thread t).NoWrap → ((s.ssAccount t).thread t).ss.amount ≠ 0) := by
  unfold ssAccount
  by_cases ha : (s.thread t).ss.amount = 0
  · rw [if_pos ha]
    simp only [modSS_self, ssInsert_thread, true_and]
    intro _
    split
    · decide
    · assumption
  rw [if_neg ha]
  simp only [modSS_self, true_and]
  intro hw
  rw [u64, Nat.mod_eq_of_lt hw]
  omega

theorem calmOff_ssAccount (s : Sched) (t : Thp) : CalmOff t s (s.ssAccount t) := by
  unfold ssAccount
  split
  · refine CalmOff.modSS ?_ _
    generalize hs1 : s.modSS t _ = s1
    have h1 : CalmOff t s s1 := by
      rw [← hs1]
      exact (CalmOff.refl t s).modSS _
    refine h1.trans ⟨fun u hu => ?_, fun u _ => .refl _⟩
    rw [(s1.ssInsert_perm t).mem_iff]
    simp [hu]
  · exact ((CalmOff.refl t s).modSS _).modSS _

theorem ssAccount_once (h : s.Listed) : (s.ssAccount t).ssReplenishList.Nodup := by
  unfold ssAccount
  by_cases ha : (s.thread t).ss.amount = 0
  · have ht : t ∉ s.ssReplenishList := fun hm => ((h.mem t).mp hm).2 ha
    rw [if_pos ha, list_modSS, (ssInsert_perm _ t).nodup_iff]
    exact nodup_cons.mpr ⟨ht, h.once⟩
  · rw [if_neg ha]
    exact h.once

theorem ssAccount_mem (h : s.Listed) (hp : (s.thread t).policy = .sporadic) :
    t ∈ (s.ssAccount t).ssReplenishList := by
  unfold ssAccount
  by_cases ha : (s.thread t).ss.amount = 0
  · rw [if_pos ha, list_modSS, (ssInsert_perm _ t).mem_iff]
    exact mem_cons_self
  · rw [if_neg ha]
    exact (h.mem t).mpr ⟨hp, ha⟩

theorem listed_ssAccount (h : s.Listed)
    (hp : (s.thread t).policy = .sporadic) (hw : (s.thread t).NoWrap) :
    (s.ssAccount t).Listed := by
  obtain ⟨h1, _, h3⟩ := s.ssAccount_thread t
  refine h.off (s.calmOff_ssAccount t) (ssAccount_once h) ?_ fun _ _ => h3 hw
  rw [h1]
  exact iff_of_true (ssAccount_mem h hp) ⟨hp, h3 hw⟩

structure Updated (t : Thp) (drop : Bool) (s s' : Sched) : Prop where
  off : CalmOff t s s'
  listed : s'.Listed
  policy : (s'.thread t).policy = (s.thread t).policy
  low : drop = true → (s'.thread t).realPriority = (s'.thread t).ss.lowPriority
  org : (s'.thread t).ss.orgPriority = if drop then (s.thread t).realPriority else 0
  real : drop = false → (s'.thread t).realPriority = (s.thread t).realPriority

theorem schedSsUpdateWith_updated (n : Nat) (drop : Bool) (h : s.Listed)
    (hp : (s.thread t).policy = .sporadic) (ho : (s.thread t).ss.orgPriority = 0)
    (hw : (s.thread t).NoWrap) (hr : drop = true → (s.thread t).realPriority ≠ 0) :
    Updated t drop s (schedSsUpdateWith (adjustN n) s t drop) := by
  have hl := listed_ssAccount h hp hw
  have hc := s.calmOff_ssAccount t
  obtain ⟨h1, h2, h3⟩ := s.ssAccount_thread t
  have hreal := s.ssAccount_realPriority t
  unfold schedSsUpdateWith
  rw [if_neg (by simpa using ho)]
  generalize s.ssAccount t = s1 at hl hc h1 h2 h3 hreal
  cases drop with
  | false => exact ⟨hc, hl, h1, by simp, by simpa using h2.trans ho, fun _ => hreal⟩
  | true =>
    simp only [if_true]
    -- from here on the thread is settled, and no nested hook looks at it again
    generalize hs2 : s1.modSS t _ = s2
    have hth : s2.thread t =
        { s1.thread t with ss := { (s1.thread t).ss with orgPriority := (s1.thread t).realPriority } } := by
      rw [← hs2, modSS_self]
    have hset : (s2.thread t).Settled := by
      right
      rw [hth]
      simpa [hreal] using hr rfl
    have hcalm : Calm s2 (if (s1.thread t).priority ≤ (s1.thread t).realPriority then
        adjustN n s2 t (s1.thread t).ss.lowPriority else s2) := by
      split
      · exact calm_adjustN_settled hset n _
      · exact .refl s2
    generalize (if (s1.thread t).priority ≤ (s1.thread t).realPriority then
        adjustN n s2 t (s1.thread t).ss.lowPriority else s2) = s3 at hcalm
    have hsame := hcalm.thread t
    have hoff : CalmOff t s (s3.setRealPriority t (s3.thread t).ss.lowPriority) := by
      refine (CalmOff.trans ?_ (hcalm.off t)).modThread _
      rw [← hs2]
      exact hc.modSS _
    have hlist : s3.ssReplenishList = s1.ssReplenishList := by
      rw [hcalm.list, ← hs2, list_modSS]
    refine ⟨hoff, h.off hoff ?_ ?_ ?_, ?_, ?_, ?_, by simp⟩
    · rw [list_setRealPriority, hlist]
      exact hl.once
    · rw [list_setRealPriority, hlist, hl.mem t]
      simp only [setRealPriority_self, hsame.policy, hsame.amount, hth]
    · intro _ _
      simp only [setRealPriority_self, hsame.amount, hth]
      exact h3 hw
    · simp only [setRealPriority_self, hsame.policy, hth, h1]
    · simp only [setRealPriority_self, implies_true]
    · simp only [setRealPriority_self, hsame.org, hth, hreal, if_true]

theorem mode_schedSsUpdateWith (n : Nat) (drop : Bool)
    (h : s.Mode req) (hp : (s.thread t).policy = .sporadic) (hw : (s.thread t).NoWrap) :
    (schedSsUpdateWith (adjustN n) s t drop).Mode req := by
  by_cases ho : (s.thread t).ss.orgPriority = 0
  · have hreq := (h.prios t).normal hp ho
    have hpos := (h.prios t).pos hp
    have hu := schedSsUpdateWith_updated n drop h.listed hp ho hw fun _ => by rwa [hreq]
    refine h.off_self hu.off hu.listed ⟨fun _ => hpos, fun _ ho' => ?_, fun _ ho' => ?_⟩
    · cases drop with
      | false => exact (hu.real rfl).trans hreq
      | true =>
        rw [hu.org, hreq] at ho'
        exact absurd ho' hpos
    · cases drop with
      | false =>
        rw [hu.org] at ho'
        exact absurd rfl ho'
      | true => exact ⟨hu.low rfl, by rw [hu.org, if_pos rfl, hreq]⟩
  · unfold schedSsUpdateWith
    rwa [if_pos ho]

theorem mode_ssStopRunningWith (n : Nat) (b : Bool) (h : s.Mode req) (hw : (s.thread t).NoWrap) :
    (ssStopRunningWith (adjustN n) s t b).Mode req := by
  unfold ssStopRunningWith
  split
  · rename_i hss
    unfold schedSsBlockWith
    simp only
    split
    · exact h
    split
    · exact h
    · exact mode_schedSsUpdateWith n _ h (by simpa [Thread.isSchedSS] using hss) hw
  · exact h

theorem mode_yieldWith (n : Nat) (h : s.Mode req)
    (hw : (s.thread s.actives).NoWrap) : (yieldWith (adjustN n) s).Mode req := by
  cases hh : s.dpp.links.head (s.prio s.actives) with
  | none => rwa [yieldWith_none hh]
  | some thp =>
    have hc := s.calm_switched thp
    rw [yieldWith_some hh]
    have h1 := mode_ssStopRunningWith n false (h.calm hc) ((hc.thread s.actives).noWrap hw)
    exact h1.calm (calm_ssMarkActivation _ _)

theorem mode_adjustPriority (p : Prio) (h : s.Mode req)
    (hw : (s.thread s.actives).NoWrap) : (s.adjustPriority t p).Mode req := by
  show (adjustPriorityWith (adjustN 1) s t p).Mode req
  by_cases hy : (s.thread t).priority = p ∧ t = s.actives
  · obtain ⟨rfl, ht⟩ := hy
    rw [adjustPriorityWith_yield ht]
    exact mode_yieldWith 1 h hw
  · exact h.calm (s.calm_adjustPriorityWith t p fun hp ht => hy ⟨hp, ht⟩)

theorem mode_ssCheckExpiry (h : s.Mode req)
    (hw : (s.thread t).NoWrap) : (s.ssCheckExpiry t).Mode req := by
  unfold ssCheckExpiry
  simp only
  split
  · rename_i hc
    exact mode_schedSsUpdateWith 2 true h (by simpa [Thread.isSchedSS] using hc.1) hw
  · exact h

/-! ### `sched_ss_adjust` -/

/-- Thread `t` was taken off the list and is back at the priority `r`. -/
structure Replenished (t : Thp) (next : List Thp) (r : Prio) (s s' : Sched) : Prop where
  off : CalmOff t s s'
  list : s'.ssReplenishList = next
  policy : (s'.thread t).policy = .sporadic
  real : (s'.thread t).realPriority = r
  org : (s'.thread t).ss.orgPriority = 0
  amount : (s'.thread t).ss.amount = 0

theorem ssReplenish_normal (bound : Nat) (hoff : CalmOff t s s1)
    (hp : (s1.thread t).policy = .sporadic) (ho : (s1.thread t).ss.orgPriority = 0) :
    Replenished t s1.ssReplenishList (s1.thread t).realPriority s (s1.ssReplenish bound t).1 := by
  unfold ssReplenish
  simp only
  rw [if_neg (by simpa using ho)]
  dsimp only
  refine ⟨(hoff.modSS _).modSS _, rfl, ?_, ?_, ?_, ?_⟩
  · simpa using hp
  · simp
  · simpa using ho
  · simp

theorem ssReplenish_dropped (bound : Nat) (hoff : CalmOff t s s1)
    (hp : (s1.thread t).policy = .sporadic) (ho : (s1.thread t).ss.orgPriority ≠ 0) :
    Replenished t s1.ssReplenishList (s1.thread t).ss.orgPriority s (s1.ssReplenish bound t).1 := by
  unfold ssReplenish
  simp only
  rw [if_pos (by simpa using ho)]
  dsimp only
  generalize hs2 : (s1.modSS t _).modSS t _ = s2
  have hp2 : (s2.thread t).policy = .sporadic := by simpa [← hs2] using hp
  have ho2 : (s2.thread t).ss.orgPriority = (s1.thread t).ss.orgPriority := by simp [← hs2]
  have hl2 : s2.ssReplenishList = s1.ssReplenishList := by simp [← hs2]
  have hc2 : CalmOff t s s2 := by
    rw [← hs2]
    exact (hoff.modSS _).modSS _
  -- `org_priority` is still there, so `adjust_priority` is calm
  have hset : (s2.thread t).Settled := .inr (ho2 ▸ ho)
  generalize hs3 : ite ((s2.thread t).priority ≤ _) _ s2 = s3
  have hcalm : Calm s2 s3 := by
    rw [← hs3]
    split
    · exact calm_adjustPriority_settled hset _
    · exact .refl s2
  have hsame := hcalm.thread t
  refine ⟨(((hc2.trans (hcalm.off t)).modThread _).modSS _).modSS _, ?_, ?_, ?_, ?_, ?_⟩
  · simpa using hcalm.list.trans hl2
  · simpa using hsame.policy.trans hp2
  · simpa using hsame.org.trans ho2
  · simp
  · simp

theorem ssReplenish_replenished
    (bound time : Nat) (h : s.Mode req) (hlist : s.ssReplenishList = t :: next) :
    Replenished t next (req t) s
      (({ s with ssReplenishTime := time, ssReplenishList := next } : Sched).ssReplenish
        bound t).1 := by
  have hsp := ((h.listed.mem t).mp (hlist ▸ mem_cons_self)).1
  have hoff : CalmOff t s { s with ssReplenishTime := time, ssReplenishList := next } := by
    refine ⟨fun u hu => ?_, fun u _ => .refl _⟩
    rw [hlist]
    simp [hu]
  by_cases ho : (s.thread t).ss.orgPriority = 0
  · have hr := ssReplenish_normal bound hoff hsp ho
    rwa [(h.prios t).normal hsp ho] at hr
  · have hr := ssReplenish_dropped bound hoff hsp ho
    rwa [((h.prios t).dropped hsp ho).2] at hr

theorem Replenished.mode (hr : Replenished t next (req t) s s') (h : s.Mode req)
    (hlist : s.ssReplenishList = t :: next) : s'.Mode req := by
  have hnd : t ∉ next ∧ next.Nodup := nodup_cons.mp (hlist ▸ h.listed.once)
  have hsp := ((h.listed.mem t).mp (hlist ▸ mem_cons_self)).1
  have hno : ∀ {c : Prop}, (s'.thread t).ss.orgPriority ≠ 0 → c := absurd hr.org
  refine h.off_self hr.off (h.listed.off hr.off (hr.list ▸ hnd.2) ?_ fun _ h0 => hno h0)
    ⟨fun _ => (h.prios t).pos hsp, fun _ _ => hr.real, fun _ h0 => hno h0⟩
  rw [hr.list, hr.amount]
  exact iff_of_false hnd.1 fun hx => hx.2 rfl

theorem Replenished.policy_eq
    (hr : Replenished t next r s s') (hsp : (s.thread t).policy = .sporadic) (u : Thp) :
    (s'.thread u).policy = (s.thread u).policy := by
  by_cases hu : u = t
  · rw [hu, hr.policy, hsp]
  · exact (hr.off.thread u hu).policy

theorem schedSsAdjustLoop_spec (bound n : Nat) (k : Nat) (h : s.Mode req) :
    (schedSsAdjustLoop bound n s k).1.Mode req ∧
    ∀ u, ((schedSsAdjustLoop bound n s k).1.thread u).policy = (s.thread u).policy := by
  induction n generalizing s k with
  | zero => exact ⟨h, fun _ => rfl⟩
  | succ n ih =>
    unfold schedSsAdjustLoop
    split
    · exact ⟨h, fun _ => rfl⟩
    rename_i t next hlist
    have hsp := ((h.listed.mem t).mp (hlist ▸ mem_cons_self)).1
    split
    · simp only
      split
      · have hr := fun time => ssReplenish_replenished bound time h hlist
        have hi := fun time k => ih k ((hr time).mode h hlist)
        exact ⟨(hi _ _).1, fun u => ((hi _ _).2 u).trans ((hr _).policy_eq hsp u)⟩
      -- only sporadic threads are on the list
      rename_i hns
      exact absurd (by simp [Thread.isSchedSS, hsp]) hns
    · exact ⟨h, fun _ => rfl⟩

theorem mode_schedSsAdjust (h : s.Mode req) : s.schedSsAdjust.1.Mode req :=
  (schedSsAdjustLoop_spec _ _ 0 h).1

theorem schedSsAdjust_fired (h : s.Mode req)
    (ht : t ∈ s.ssReplenishList) (ht' : t ∉ s.schedSsAdjust.1.ssReplenishList) :
    (s.schedSsAdjust.1.thread t).realPriority = req t := by
  obtain ⟨hm, hp⟩ := schedSsAdjustLoop_spec s.clock s.ssReplenishList.length 0 h
  have hsp := (hp t).trans ((h.listed.mem t).mp ht).1
  have hz : ((s.schedSsAdjust.1).thread t).ss.amount = 0 := by
    by_contra ha
    exact ht' ((hm.listed.mem t).mpr ⟨hsp, ha⟩)
  apply (hm.prios t).normal hsp
  by_contra ho
  exact hm.listed.dropped t hsp ho hz

end Sched

end Qnx.Ker
