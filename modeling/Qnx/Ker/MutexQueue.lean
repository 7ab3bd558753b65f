import Qnx.Ker.Mutex

/-!
# The waiting queue of a mutex

What each call does to the queues, and that the queues stay in order of priority as long as no
call changes the priority of a queued entry where it stands.
-/

namespace Qnx.Ker

open PriQueue List Function Option

namespace MutexSt

variable {cfg : MutexCfg} {s s' : MutexSt}

structure SameQueues (s s' : MutexSt) : Prop where
  priority : s'.priority = s.priority
  realPriority : s'.realPriority = s.realPriority
  state : s'.state = s.state
  waiting : s'.waiting = s.waiting
  ceilPriority : s'.ceilPriority = s.ceilPriority

theorem SameQueues.refl (s : MutexSt) : SameQueues s s := ⟨rfl, rfl, rfl, rfl, rfl⟩

variable {s'' : MutexSt} {thp prio syp t : Nat} {e : MEntry} {rest : List MEntry}

theorem SameQueues.trans (h : SameQueues s s') (h' : SameQueues s' s'') : SameQueues s s'' :=
  ⟨h'.1.trans h.1, h'.2.trans h.2, h'.3.trans h.3, h'.4.trans h.4, h'.5.trans h.5⟩

theorem SameQueues.entryPriority (h : SameQueues s s') (syp : Nat) :
    s'.entryPriority syp = s.entryPriority syp := by
  funext e
  simp [MutexSt.entryPriority, h.priority, h.ceilPriority]

theorem SameQueues.link2Rem (h : SameQueues s s') (syp : Nat) (e : MEntry) :
    SameQueues (s.link2Rem syp e) (s'.link2Rem syp e) := by
  refine ⟨h.1, h.2, h.3, ?_, h.5⟩
  funext syp'
  simp only [link2Rem_waiting, h.waiting]

theorem SameQueues.link2Pri (h : SameQueues s s') (syp : Nat) (e : MEntry) :
    SameQueues (s.link2Pri syp e) (s'.link2Pri syp e) := by
  refine ⟨h.1, h.2, h.3, ?_, h.5⟩
  funext syp'
  simp only [link2Pri_waiting, h.waiting, h.entryPriority]

theorem sameQueues_setHeadOwner (s : MutexSt) (syp : Nat) (o : Option Nat) :
    SameQueues s (s.setHeadOwner syp o) := by
  unfold setHeadOwner
  split <;> exact ⟨rfl, rfl, rfl, rfl, rfl⟩

theorem sameQueues_unhold (s : MutexSt) (syp : Nat) : SameQueues s (s.unhold syp) := by
  unfold unhold
  split <;> exact ⟨rfl, rfl, rfl, rfl, rfl⟩

theorem sameQueues_overtake (s : MutexSt) (thp syp : Nat) :
    SameQueues (s.requeue thp syp) (s.overtake thp syp) := by
  have hset : SameQueues s (((s.unhold syp).setHeadOwner syp none).setMuOwner thp
      (s.headOwner syp)) :=
    ((sameQueues_unhold s syp).trans (sameQueues_setHeadOwner _ syp none)).trans
      ⟨rfl, rfl, rfl, rfl, rfl⟩
  exact (hset.link2Rem syp (.thread thp)).link2Pri syp (.thread thp)

theorem sameQueues_unlinkHead (s : MutexSt) (syp : Nat) : SameQueues s (s.unlinkHead syp) := by
  unfold unlinkHead
  split
  · have hrem : SameQueues s (s.mutexholdlistRem syp) := ⟨rfl, rfl, rfl, rfl, rfl⟩
    exact hrem.trans (sameQueues_setHeadOwner _ syp none)
  · exact .refl s

theorem sameQueues_mutexOutrank (s : MutexSt) (act syp : Nat) :
    SameQueues s (s.mutexOutrank act syp) := by
  unfold mutexOutrank
  split
  · split
    · exact sameQueues_unlinkHead s syp
    · exact .refl s
  · exact .refl s

structure QueueInv (s : MutexSt) : Prop where
  ordered : ∀ syp, Ordered (s.entryPriority syp) (s.waiting syp)
  nodup : ∀ syp, (s.waiting syp).Nodup
  blocked : ∀ syp thp, .thread thp ∈ s.waiting syp ↔ s.state thp = .mutex syp
  pos : ∀ thp, 0 < s.priority thp
  real_pos : ∀ thp, 0 < s.realPriority thp

theorem QueueInv.congr (h : QueueInv s) (hs : SameQueues s s') : QueueInv s' where
  ordered := by
    intro syp
    rw [hs.entryPriority, hs.waiting]
    exact h.ordered syp
  nodup := by rw [hs.waiting]; exact h.nodup
  blocked := by rw [hs.waiting, hs.state]; exact h.blocked
  pos := by rw [hs.priority]; exact h.pos
  real_pos := by rw [hs.realPriority]; exact h.real_pos

theorem entryPriority_adjustPriority (hne : e ≠ .thread thp) :
    (s.adjustPriority thp prio).entryPriority syp e = s.entryPriority syp e := by
  cases e with
  | thread t =>
    have ht : t ≠ thp := by
      rintro rfl
      exact hne rfl
    simp [MutexSt.entryPriority, ht]
  | event p => rfl
  | ceiling => rfl

section

variable (h : QueueInv s)
include h

theorem QueueInv.not_queued (hst : s.state thp ≠ .mutex syp) : .thread thp ∉ s.waiting syp := by
  intro hmem
  exact hst ((h.blocked syp thp).mp hmem)

theorem QueueInv.ordered_adjust (hst : s.state thp ≠ .mutex syp) :
    Ordered ((s.adjustPriority thp prio).entryPriority syp) (s.waiting syp) := by
  apply (h.ordered syp).congr_key
  intro e he
  apply entryPriority_adjustPriority
  rintro rfl
  exact h.not_queued hst he

theorem QueueInv.pos_adjust (hp : 0 < prio) (t : Nat) :
    0 < (s.adjustPriority thp prio).priority t := by
  by_cases ht : t = thp
  · simpa [ht] using hp
  · simpa [ht] using h.pos t

theorem QueueInv.adjustPriority (hp : 0 < prio) (hst : (s.state thp).onMutex = false) :
    QueueInv (s.adjustPriority thp prio) where
  ordered := by
    intro syp
    apply h.ordered_adjust
    intro heq
    rw [heq] at hst
    cases hst
  nodup := h.nodup
  blocked := h.blocked
  pos := h.pos_adjust hp
  real_pos := h.real_pos

theorem QueueInv.raise_head (hp : s.priority thp ≤ prio) (hst : s.state thp = .mutex syp)
    (hhd : (s.waiting syp).head? = some (.thread thp)) :
    QueueInv (s.adjustPriority thp prio) where
  ordered := by
    intro syp'
    by_cases hsyp : syp' = syp
    · subst hsyp
      obtain ⟨rest, hrest⟩ := head?_eq_some_iff.mp hhd
      have hord := h.ordered syp'
      have hnd := h.nodup syp'
      rw [hrest] at hord hnd
      rw [adjustPriority_waiting, hrest]
      have hother : ∀ e ∈ rest, (s.adjustPriority thp prio).entryPriority syp' e =
          s.entryPriority syp' e := by
        intro e he
        apply entryPriority_adjustPriority
        rintro rfl
        exact (nodup_cons.mp hnd).1 he
      obtain ⟨hfst, hrst⟩ := pairwise_cons.mp hord
      refine pairwise_cons.mpr ⟨?_, Ordered.congr_key hrst hother⟩
      intro e he
      rw [hother e he]
      have := hfst e he
      simp only [MutexSt.entryPriority, adjustPriority_priority, update_self] at this ⊢
      omega
    · apply h.ordered_adjust
      rw [hst]
      rintro ⟨⟩
      exact hsyp rfl
  nodup := h.nodup
  blocked := h.blocked
  pos := h.pos_adjust ((h.pos thp).trans_le hp)
  real_pos := h.real_pos

theorem QueueInv.requeue (hp : 0 < prio) (hst : s.state thp = .mutex syp) :
    QueueInv ((s.adjustPriority thp prio).requeue thp syp) where
  ordered := by
    unfold MutexSt.requeue
    intro syp'
    by_cases hsyp : syp' = syp
    · subst hsyp
      have hother : ∀ e ∈ s.waiting syp', e ≠ .thread thp →
          (s.adjustPriority thp prio).entryPriority syp' e = s.entryPriority syp' e :=
        fun e _ hne => entryPriority_adjustPriority hne
      simpa using (h.ordered syp').requeue (h.nodup syp') hother
    have hne : s.state thp ≠ .mutex syp' := by
      rw [hst]
      rintro ⟨⟩
      exact hsyp rfl
    simpa [hsyp] using h.ordered_adjust hne
  nodup := by
    unfold MutexSt.requeue
    intro syp'
    by_cases hsyp : syp' = syp
    · subst hsyp
      simp only [link2Pri_waiting, link2Rem_waiting, update_self]
      refine (perm_insertGE _ _ _).nodup_iff.mpr (nodup_cons.mpr ⟨?_, ?_⟩)
      · exact (h.nodup syp').not_mem_erase
      · exact (h.nodup syp').erase _
    · simpa [hsyp] using h.nodup syp'
  blocked := by
    unfold MutexSt.requeue
    intro syp' t
    by_cases hsyp : syp' = syp
    · subst hsyp
      by_cases ht : t = thp
      · subst ht
        simpa using hst
      · simpa [ht] using h.blocked syp' t
    · simpa [hsyp] using h.blocked syp' t
  pos := h.pos_adjust hp
  real_pos := h.real_pos

theorem QueueInv.ordered_link2Pri (syp syp' : Nat) (e : MEntry) :
    Ordered (s.entryPriority syp') ((s.link2Pri syp e).waiting syp') := by
  by_cases hsyp : syp' = syp
  · subst hsyp
    simpa using (h.ordered syp').insertGE e
  · simpa [hsyp] using h.ordered syp'

theorem QueueInv.nodup_link2Pri (hnew : e ∉ s.waiting syp) (syp' : Nat) :
    ((s.link2Pri syp e).waiting syp').Nodup := by
  by_cases hsyp : syp' = syp
  · subst hsyp
    simp only [link2Pri_waiting, update_self]
    exact (perm_insertGE _ _ _).nodup_iff.mpr (nodup_cons.mpr ⟨hnew, h.nodup syp'⟩)
  · simpa [hsyp] using h.nodup syp'

end

theorem mem_link2Pri {syp' : Nat} {e' : MEntry} :
    e' ∈ (s.link2Pri syp e).waiting syp' ↔ (syp' = syp ∧ e' = e) ∨ e' ∈ s.waiting syp' := by
  by_cases hsyp : syp' = syp
  · subst hsyp
    simp
  · simp [hsyp]

theorem QueueInv.link_event (h : QueueInv s) {p : Nat} (hnew : .event p ∉ s.waiting syp) :
    QueueInv (s.link2Pri syp (.event p)) where
  ordered := by
    intro syp'
    exact h.ordered_link2Pri syp syp' _
  nodup := h.nodup_link2Pri hnew
  blocked := by
    intro syp' t
    rw [mem_link2Pri]
    simpa using h.blocked syp' t
  pos := h.pos
  real_pos := h.real_pos

theorem QueueInv.block (h : QueueInv s) {act : Nat} (hact : (s.state act).onMutex = false)
    (hs : SameQueues (s.mutexUnready act syp) s') :
    QueueInv (s'.link2Pri syp (.thread act)) := by
  have hfree : ∀ syp', .thread act ∉ s.waiting syp' := by
    intro syp' hmem
    rw [(h.blocked syp' act).mp hmem] at hact
    cases hact
  have hback : SameQueues s { s' with state := s.state } :=
    ⟨hs.priority, hs.realPriority, rfl, hs.waiting, hs.ceilPriority⟩
  have hb := h.congr hback
  have hw := hs.waiting
  constructor
  · intro syp'
    have := hb.ordered_link2Pri syp syp' (.thread act)
    exact this
  · intro syp'
    have hnew : .thread act ∉ ({ s' with state := s.state } : MutexSt).waiting syp := by
      rw [hw]
      exact hfree syp
    have := hb.nodup_link2Pri hnew syp'
    exact this
  · intro syp' t
    rw [mem_link2Pri, hw, link2Pri_state, hs.state, mutexUnready_state]
    by_cases ht : t = act
    · subst ht
      simp only [update_self, MState.mutex.injEq]
      tauto
    · simpa [ht] using h.blocked syp' t
  · exact hb.pos
  · exact hb.real_pos

theorem wakeupPick_spec {l : List MEntry} (h : wakeupPick l = some (thp, rest)) :
    l.Perm (.thread thp :: rest) ∧ rest.Sublist l := by
  unfold wakeupPick at h
  split at h
  · cases h
    exact ⟨.refl _, sublist_cons_self _ _⟩
  · cases h
    exact ⟨.swap _ _ _, (sublist_cons_self _ _).cons_cons _⟩
  · cases h

theorem QueueInv.unblock (h : QueueInv s)
    (hperm : (s.waiting syp).Perm (.thread thp :: rest)) (hsub : rest.Sublist (s.waiting syp))
    (hs : SameQueues { s with
      waiting := update s.waiting syp rest
      state := update s.state thp .running } s') : QueueInv s' := by
  have hmem := hperm.mem_iff.mpr mem_cons_self
  have hst := (h.blocked syp thp).mp hmem
  have hout := (nodup_cons.mp (hperm.nodup_iff.mp (h.nodup syp))).1
  refine QueueInv.congr ?_ hs
  constructor
  · intro syp'
    have hord : Ordered (s.entryPriority syp') (update s.waiting syp rest syp') := by
      by_cases hsyp : syp' = syp
      · subst hsyp
        simpa using (h.ordered syp').sublist hsub
      · simpa [hsyp] using h.ordered syp'
    apply hord.congr_key
    intro e _
    rfl
  · intro syp'
    by_cases hsyp : syp' = syp
    · subst hsyp
      simpa using (h.nodup syp').sublist hsub
    · simpa [hsyp] using h.nodup syp'
  · intro syp' t
    by_cases ht : t = thp
    · subst ht
      by_cases hsyp : syp' = syp
      · subst hsyp
        simpa using hout
      have : .thread t ∉ s.waiting syp' := by
        apply h.not_queued
        rw [hst]
        rintro ⟨⟩
        exact hsyp rfl
      simpa [hsyp] using this
    by_cases hsyp : syp' = syp
    · subst hsyp
      have := hperm.mem_iff (a := .thread t)
      rw [h.blocked] at this
      simpa [ht] using this.symm
    · simpa [ht, hsyp] using h.blocked syp' t
  · exact h.pos
  · exact h.real_pos

theorem QueueInv.syncWakeup (h : QueueInv s) (syp : Nat) : QueueInv (s.syncWakeup syp) := by
  unfold MutexSt.syncWakeup
  split
  · rename_i thp rest hpick
    obtain ⟨hperm, hsub⟩ := wakeupPick_spec hpick
    exact h.unblock hperm hsub ⟨rfl, rfl, rfl, rfl, rfl⟩
  · exact h

/-! ## The inheritance chain -/

/-- A thread the chain can reach: a recorded owner, or the server of a blocked client. -/
def Chained (s : MutexSt) (thp : Nat) : Prop :=
  (∃ syp, s.owner syp = .held thp ∨ s.ceilOwner syp = some thp) ∨
  (∃ t, s.muOwner t = some thp) ∨ ∃ t chp, s.state t = .reply chp (some thp)

/-- No server thread that a boost to `prio` reaches through a SEND-blocked thread stands in the
queue of a mutex. -/
def ServersClear (cfg : MutexCfg) (s : MutexSt) (prio : Nat) : Prop :=
  ∀ thp chp i, s.Chained thp → s.state thp = .send chp → cfg.fixedPriority chp = false →
    cfg.process i = cfg.chanProcess chp → s.lastChid i = chp → s.priority i < prio →
    (s.state i).onMutex = false

/-- What the steps of the chain do to the threads: `ServersClear` stays true. -/
structure Narrows (prio : Nat) (s s' : MutexSt) : Prop where
  chained : ∀ thp, s'.Chained thp → s.Chained thp
  send : ∀ thp chp, s'.state thp = .send chp → s.state thp = .send chp
  lastChid : s'.lastChid = s.lastChid
  below : ∀ i, s'.priority i < prio → s.priority i < prio ∧
    ((s.state i).onMutex = false → (s'.state i).onMutex = false)

theorem ServersClear.narrow (h : ServersClear cfg s prio) (hn : Narrows prio s s') :
    ServersClear cfg s' prio := by
  intro thp chp i hch hsend hfix hproc hlast hlt
  obtain ⟨hlt', hoff⟩ := hn.below i hlt
  rw [hn.lastChid] at hlast
  exact hoff (h thp chp i (hn.chained thp hch) (hn.send thp chp hsend) hfix hproc hlast hlt')

theorem Narrows.trans (h : Narrows prio s s') (h' : Narrows prio s' s'') : Narrows prio s s'' where
  chained thp hc := h.chained thp (h'.chained thp hc)
  send thp chp hs := h.send thp chp (h'.send thp chp hs)
  lastChid := h'.lastChid.trans h.lastChid
  below := by
    intro i hi
    obtain ⟨h1, h2⟩ := h'.below i hi
    obtain ⟨h3, h4⟩ := h.below i h1
    exact ⟨h3, fun hoff => h2 (h4 hoff)⟩

theorem narrows_of_records (hst : s'.state = s.state)
    (hlast : s'.lastChid = s.lastChid) (hprio : ∀ i, s'.priority i < prio → s.priority i < prio)
    (howner : s'.owner = s.owner)
    (hceil : ∀ syp thp, s'.ceilOwner syp = some thp → s.Chained thp)
    (hmu : ∀ t thp, s'.muOwner t = some thp → s.Chained thp) : Narrows prio s s' where
  chained := by
    rintro thp (⟨syp, h | h⟩ | ⟨t, h⟩ | ⟨t, chp, h⟩)
    · rw [howner] at h
      exact .inl ⟨syp, .inl h⟩
    · exact hceil syp thp h
    · exact hmu t thp h
    · rw [hst] at h
      exact .inr (.inr ⟨t, chp, h⟩)
  send thp chp h := by rwa [hst] at h
  lastChid := hlast
  below i hi := ⟨hprio i hi, by rw [hst]; exact id⟩

theorem chained_of_muOwner (h : s.muOwner t = some thp) : s.Chained thp := .inr (.inl ⟨t, h⟩)

theorem chained_of_ceilOwner (h : s.ceilOwner syp = some thp) : s.Chained thp := .inl ⟨syp, .inr h⟩

theorem chained_of_headOwner (h : s.headOwner syp = some thp) : s.Chained thp := by
  unfold headOwner at h
  split at h
  · exact chained_of_muOwner h
  · exact chained_of_ceilOwner h
  · cases h

theorem narrows_adjust : Narrows prio s (s.adjustPriority thp prio) := by
  refine narrows_of_records rfl rfl ?_ rfl (fun _ _ => chained_of_ceilOwner)
    (fun _ _ => chained_of_muOwner)
  intro i hi
  by_cases ht : i = thp
  · simp [ht] at hi
  · simpa [ht] using hi

theorem narrows_frame (hst : s'.state = s.state) (hlast : s'.lastChid = s.lastChid)
    (hprio : s'.priority = s.priority) (howner : s'.owner = s.owner)
    (hceil : s'.ceilOwner = s.ceilOwner) (hmu : s'.muOwner = s.muOwner) : Narrows prio s s' := by
  refine narrows_of_records hst hlast ?_ howner ?_ ?_
  · intro i hi
    rwa [hprio] at hi
  · intro syp thp h
    rw [hceil] at h
    exact chained_of_ceilOwner h
  · intro t thp h
    rw [hmu] at h
    exact chained_of_muOwner h

theorem Narrows.setMuOwner {o : Option Nat} (h : Narrows prio s s')
    (ho : ∀ thp, o = some thp → s.Chained thp) : Narrows prio s (s'.setMuOwner t o) where
  chained := by
    rintro thp (⟨syp, hsyp⟩ | ⟨t', ht'⟩ | ⟨t', chp, ht'⟩)
    · exact h.chained thp (.inl ⟨syp, hsyp⟩)
    · by_cases ht : t' = t
      · simp only [ht, setMuOwner_muOwner, update_self] at ht'
        exact ho thp ht'
      · exact h.chained thp (chained_of_muOwner (t := t') (by simpa [ht] using ht'))
    · exact h.chained thp (.inr (.inr ⟨t', chp, ht'⟩))
  send := h.send
  lastChid := h.lastChid
  below := h.below

theorem Narrows.refl (prio : Nat) (s : MutexSt) : Narrows prio s s :=
  narrows_frame rfl rfl rfl rfl rfl rfl

theorem narrows_unhold (s : MutexSt) (syp : Nat) : Narrows prio s (s.unhold syp) := by
  unfold unhold
  split <;> exact narrows_frame rfl rfl rfl rfl rfl rfl

theorem narrows_setHeadOwner (s : MutexSt) (syp : Nat) :
    Narrows prio s (s.setHeadOwner syp none) := by
  unfold setHeadOwner
  split
  · exact (Narrows.refl prio s).setMuOwner (by simp)
  · refine narrows_of_records rfl rfl (fun _ h => h) rfl ?_ ?_
    · intro syp' thp h
      by_cases hs : syp' = syp
      · simp [hs] at h
      · exact chained_of_ceilOwner (by simpa [hs] using h)
    · intro t thp h
      exact chained_of_muOwner (s := s) h
  · exact narrows_frame rfl rfl rfl rfl rfl rfl

theorem narrows_unlinkHead (s : MutexSt) (syp : Nat) : Narrows prio s (s.unlinkHead syp) := by
  unfold unlinkHead
  split
  · have hrem : Narrows prio s (s.mutexholdlistRem syp) := narrows_frame rfl rfl rfl rfl rfl rfl
    exact hrem.trans (narrows_setHeadOwner _ syp)
  · exact .refl prio s

theorem narrows_mutexUnready (s : MutexSt) (act syp : Nat) :
    Narrows (s.priority act) s (s.mutexUnready act syp) where
  chained := by
    rintro thp (hsyp | ht | ⟨t, chp, ht⟩)
    · exact .inl hsyp
    · exact .inr (.inl ht)
    · by_cases hta : t = act
      · simp [hta] at ht
      · exact .inr (.inr ⟨t, chp, by simpa [hta] using ht⟩)
  send := by
    intro thp chp h
    by_cases hta : thp = act
    · simp [hta] at h
    · simpa [hta] using h
  lastChid := rfl
  below := by
    intro i hi
    have hne : i ≠ act := by
      rintro rfl
      exact lt_irrefl _ hi
    exact ⟨hi, by simp [hne]⟩

theorem narrows_mutexOutrank (s : MutexSt) (act syp : Nat) :
    Narrows prio s (s.mutexOutrank act syp) := by
  unfold mutexOutrank
  split
  · split
    · exact narrows_unlinkHead s syp
    · exact .refl prio s
  · exact .refl prio s

theorem narrows_overtake (s : MutexSt) (thp syp : Nat) : Narrows prio s (s.overtake thp syp) := by
  have hset : Narrows prio s (((s.unhold syp).setHeadOwner syp none).setMuOwner thp
      (s.headOwner syp)) := by
    refine ((narrows_unhold s syp).trans (narrows_setHeadOwner _ syp)).setMuOwner ?_
    intro u hu
    exact chained_of_headOwner hu
  exact hset.trans (narrows_frame rfl rfl rfl rfl rfl rfl)

theorem Chained.unhold (h : s.Chained thp) (syp : Nat) : (s.unhold syp).Chained thp := by
  unfold MutexSt.unhold
  split <;> exact h

def ChainOk (cfg : MutexCfg) (prio : Nat) (rest : MutexSt → Nat → Option MutexSt) : Prop :=
  ∀ s thp s', QueueInv s → ServersClear cfg s prio → s.Chained thp → s.priority thp < prio →
    rest (s.adjustPriority thp prio) thp = some s' → QueueInv s'

theorem QueueInv.passOn {thp2 : Nat} {owner : Option Nat}
    {rest : MutexSt → Nat → Option MutexSt} (h : QueueInv s) (hc : ServersClear cfg s prio)
    (hrest : ChainOk cfg prio rest) (ho : ∀ thp, owner = some thp → s.Chained thp)
    (hs : s.passOn rest prio syp owner thp2 = some s') : QueueInv s' := by
  cases owner with
  | none =>
    simp only [MutexSt.passOn, some.injEq] at hs
    exact h.congr (hs ▸ ⟨rfl, rfl, rfl, rfl, rfl⟩)
  | some thp =>
    simp only [MutexSt.passOn] at hs
    have hn : Narrows prio s (s.mutexholdlistPri thp syp) := narrows_frame rfl rfl rfl rfl rfl rfl
    have hq : QueueInv (s.mutexholdlistPri thp syp) := h.congr ⟨rfl, rfl, rfl, rfl, rfl⟩
    split at hs
    · rename_i hlt
      refine hrest _ thp s' hq (hc.narrow hn) ?_ hlt hs
      exact ho thp rfl
    · cases hs
      exact hq

theorem QueueInv.boostServers (h : QueueInv s) {chp : Nat} (hp : 0 < prio)
    (hc : ServersClear cfg s prio) (hch : s.Chained thp) (hst : s.state thp = .send chp)
    (hfix : cfg.fixedPriority chp = false) : QueueInv (s.boostServers cfg prio chp) where
  ordered := by
    intro syp
    apply (h.ordered syp).congr_key
    intro e he
    cases e with
    | thread t =>
      simp only [entryPriority, boostServers_priority]
      split
      · rename_i hb
        have hoff := hc thp chp t hch hst hfix hb.1 hb.2.2 hb.2.1
        rw [(h.blocked syp t).mp he] at hoff
        cases hoff
      · rfl
    | event p => rfl
    | ceiling => rfl
  nodup := h.nodup
  blocked := h.blocked
  pos := by
    intro t
    simp only [boostServers_priority]
    split
    · exact hp
    · exact h.pos t
  real_pos := h.real_pos

/-- What `chkstate:` does with a thread that waits for no mutex. -/
theorem chkstate_cases {fuel : Nat} (hs : chkstate cfg prio (fuel + 1) s thp = some s') :
    (s.state thp).onMutex = false ∧ (s' = s ∨ (∃ chp, s.state thp = .send chp ∧
        cfg.fixedPriority chp = false ∧ s' = s.boostServers cfg prio chp) ∨
      ∃ chp v, s.state thp = .reply chp (some v) ∧ s.priority v < prio ∧
        chkstate cfg prio fuel (s.adjustPriority v prio) v = some s') ∨
    ∃ syp, s.state thp = .mutex syp := by
  cases hst : s.state thp with
  | mutex syp => exact .inr ⟨syp, rfl⟩
  | running =>
    simp only [chkstate, hst, some.injEq] at hs
    exact .inl ⟨rfl, .inl hs.symm⟩
  | other =>
    simp only [chkstate, hst, some.injEq] at hs
    exact .inl ⟨rfl, .inl hs.symm⟩
  | send chp =>
    simp only [chkstate, hst, some.injEq] at hs
    subst hs
    refine .inl ⟨rfl, ?_⟩
    split
    · exact .inl rfl
    · rename_i hfix
      exact .inr (.inl ⟨chp, rfl, by simpa using hfix, rfl⟩)
  | reply chp server =>
    refine .inl ⟨rfl, ?_⟩
    simp only [chkstate, hst] at hs
    split at hs
    · exact .inl (some.inj hs).symm
    cases server with
    | none => exact .inl (some.inj hs).symm
    | some v =>
      dsimp only at hs
      split at hs
      · rename_i hv
        exact .inr (.inr ⟨chp, v, rfl, hv, hs⟩)
      · exact .inl (some.inj hs).symm

theorem chainOk_chkstate (prio fuel : Nat) (hp : 0 < prio) :
    ChainOk cfg prio (chkstate cfg prio fuel) := by
  induction fuel with
  | zero =>
    intro s thp s' _ _ _ _ hs
    cases hs
  | succ fuel ih =>
    intro s thp s' h hc hch hlt hs
    have hc1 : ServersClear cfg (s.adjustPriority thp prio) prio := hc.narrow narrows_adjust
    rcases chkstate_cases hs with ⟨hoff, hs⟩ | ⟨syp, hst⟩
    · have h1 := h.adjustPriority hp hoff
      rcases hs with rfl | ⟨chp, hst, hfix, rfl⟩ | ⟨chp, v, hst, hv, hs⟩
      · exact h1
      · exact h1.boostServers hp hc1 hch hst hfix
      · exact ih _ v s' h1 hc1 (.inr (.inr ⟨thp, chp, hst⟩)) hv hs
    simp only [chkstate, hst] at hs
    split at hs
    · rename_i hhd
      have h1 := h.raise_head (hlt.le) hst hhd
      refine (h1.congr (sameQueues_unhold _ syp)).passOn (hc1.narrow (narrows_unhold _ syp)) ih
        ?_ hs
      intro u hu
      exact (chained_of_headOwner hu).unhold syp
    split at hs
    · have hq := (h.requeue hp hst).congr (sameQueues_overtake _ thp syp)
      refine hq.passOn (hc1.narrow (narrows_overtake _ thp syp)) ih ?_ hs
      intro u hu
      apply chained_of_muOwner (t := thp)
      simpa [MutexSt.overtake, MutexSt.requeue] using hu
    · cases hs
      exact h.requeue hp hst

end MutexSt

end Qnx.Ker
