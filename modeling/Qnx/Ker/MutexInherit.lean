import Qnx.Ker.MutexOrder

/-!
# Priority inheritance

The invariant that ties the waiting queues, the owner recorded in each first waiter and the hold
lists together. Inside a call one mutex is exempt from it: taken off its hold list while its queue
or its owner changes, and put back at the end.
-/

namespace Qnx.Ker

open PriQueue List Function Option

namespace MutexSt

variable {cfg : MutexCfg} {s s' : MutexSt} {x : Option Nat} {lim lim' : Nat → Nat}

/-- With all mutexes of kind `PTHREAD_PRIO_INHERIT`: `x` is the exempt mutex, and `lim thp` is what
the waiters of the mutexes of `thp` stay below. -/
structure Inherits (x : Option Nat) (lim : Nat → Nat) (s : MutexSt) : Prop where
  queues : QueueInv s
  threads : ∀ syp e, e ∈ s.waiting syp → ∃ thp, e = .thread thp
  recorded : ∀ syp thp, x ≠ some syp → (s.waiting syp).head? = some (.thread thp) →
    s.muOwner thp = (s.owner syp).thread?
  linked : ∀ syp thp, syp ∈ s.holdlist thp ↔
    s.owner syp = .held thp ∧ s.waiting syp ≠ [] ∧ x ≠ some syp
  nodup : ∀ thp, (s.holdlist thp).Nodup
  held : ∀ thp, Ordered s.headPriority (s.holdlist thp)
  above : ∀ syp thp, s.owner syp = .held thp → x ≠ some syp → s.headPriority syp ≤ lim thp
  real : ∀ thp, s.realPriority thp ≤ s.priority thp

theorem Inherits.mono (h : Inherits x lim s) (hlim : ∀ thp, lim thp ≤ lim' thp) :
    Inherits x lim' s :=
  { h with above := fun syp thp ho hx => (h.above syp thp ho hx).trans (hlim thp) }

variable {syp thp prio t syp' : Nat} {e : MEntry} {o : Option Nat}

theorem headPriority_of_head (h : (s.waiting syp).head? = some e) :
    s.headPriority syp = s.entryPriority syp e := by
  obtain ⟨rest, hrest⟩ := head?_eq_some_iff.mp h
  rw [headPriority, hrest]

theorem headPriority_of_nil (h : s.waiting syp = []) : s.headPriority syp = 0 := by
  rw [headPriority, h]

theorem Inherits.head (h : Inherits x lim s) (syp : Nat) :
    s.waiting syp = [] ∨ ∃ thp rest, s.waiting syp = .thread thp :: rest := by
  cases hw : s.waiting syp with
  | nil => exact .inl rfl
  | cons e rest =>
    obtain ⟨thp, rfl⟩ := h.threads syp e (by simp [hw])
    exact .inr ⟨thp, rest, rfl⟩

theorem QueueInv.le_head (h : QueueInv s) (hmem : e ∈ s.waiting syp) :
    s.entryPriority syp e ≤ s.headPriority syp := by
  have hord := h.ordered syp
  cases hw : s.waiting syp with
  | nil => simp [hw] at hmem
  | cons e' rest =>
    rw [hw] at hmem hord
    rw [headPriority_of_head (by rw [hw]; rfl)]
    rcases mem_cons.mp hmem with rfl | hmem
    · exact le_rfl
    · exact hord.head_le hmem

theorem headPriority_congr (hw : s'.waiting syp = s.waiting syp)
    (he : ∀ e, (s.waiting syp).head? = some e →
      s'.entryPriority syp e = s.entryPriority syp e) : s'.headPriority syp = s.headPriority syp := by
  unfold headPriority
  rw [hw]
  split
  · rename_i e rest hcons
    exact he e (by rw [hcons]; rfl)
  · rfl

theorem not_held (hun : s.waiting syp = [] ∨ (s.owner syp).thread? = none) (thp : Nat) :
    ¬(s.owner syp = .held thp ∧ s.waiting syp ≠ []) := by
  rintro ⟨ho, hw⟩
  rcases hun with hun | hun
  · exact hw hun
  · simp [ho, MOwner.thread?] at hun

theorem some_ne (hne : syp' ≠ syp) : some syp ≠ some syp' := fun h => hne (some.inj h).symm

section

variable (h : Inherits (some syp) lim s)
include h

theorem Inherits.exempt (hq : QueueInv s') (hthreads : ∀ e ∈ s'.waiting syp, ∃ thp, e = .thread thp)
    (hwaiting : ∀ syp', syp' ≠ syp → s'.waiting syp' = s.waiting syp')
    (howner : ∀ syp', syp' ≠ syp → s'.owner syp' = s.owner syp')
    (hhold : s'.holdlist = s.holdlist)
    (hprio : ∀ syp' thp, syp' ≠ syp → .thread thp ∈ s.waiting syp' →
      s'.priority thp = s.priority thp ∧ s'.muOwner thp = s.muOwner thp)
    (hlim : ∀ thp, lim thp ≤ lim' thp) (hreal : ∀ thp, s'.realPriority thp ≤ s'.priority thp) :
    Inherits (some syp) lim' s' := by
  have hhead : ∀ syp', syp' ≠ syp → s'.headPriority syp' = s.headPriority syp' := by
    intro syp' hne
    refine headPriority_congr (hwaiting syp' hne) ?_
    intro e he
    have hmem := mem_of_mem_head? he
    obtain ⟨thp, rfl⟩ := h.threads syp' e hmem
    exact (hprio syp' thp hne hmem).1
  have hne_of : ∀ {syp'}, some syp ≠ some syp' → syp' ≠ syp := by
    rintro syp' hx rfl
    exact hx rfl
  refine ⟨hq, ?_, ?_, ?_, ?_, ?_, ?_, hreal⟩
  · intro syp' e he
    by_cases hne : syp' = syp
    · subst hne
      exact hthreads e he
    · rw [hwaiting syp' hne] at he
      exact h.threads syp' e he
  · intro syp' thp hx hhd
    have hne := hne_of hx
    rw [hwaiting syp' hne] at hhd
    rw [(hprio syp' thp hne (mem_of_mem_head? hhd)).2, howner syp' hne]
    exact h.recorded syp' thp hx hhd
  · intro syp' thp
    rw [hhold, h.linked]
    by_cases hne : syp' = syp
    · simp [hne]
    · rw [hwaiting syp' hne, howner syp' hne]
  · rw [hhold]
    exact h.nodup
  · intro thp
    rw [hhold]
    apply (h.held thp).congr_key
    intro syp' hmem
    exact hhead syp' (hne_of ((h.linked syp' thp).mp hmem).2.2)
  · intro syp' thp ho hx
    have hne := hne_of hx
    rw [howner syp' hne] at ho
    rw [hhead syp' hne]
    exact (h.above syp' thp ho hx).trans (hlim thp)

theorem Inherits.admit_unheld (hrec : ∀ thp, (s.waiting syp).head? = some (.thread thp) →
      s.muOwner thp = (s.owner syp).thread?)
    (hun : s.waiting syp = [] ∨ (s.owner syp).thread? = none) : Inherits none lim s := by
  refine { h with recorded := ?_, linked := ?_, above := ?_ }
  · intro syp' thp _ hhd
    by_cases hne : syp' = syp
    · subst hne
      exact hrec thp hhd
    · exact h.recorded syp' thp (some_ne hne) hhd
  · intro syp' thp
    rw [h.linked]
    by_cases hne : syp' = syp
    · subst hne
      have := not_held hun thp
      tauto
    · simp [some_ne hne]
  · intro syp' thp ho _
    by_cases hne : syp' = syp
    · subst hne
      have hw := not_held hun thp
      rw [headPriority_of_nil (by tauto)]
      exact Nat.zero_le _
    · exact h.above syp' thp ho (some_ne hne)

theorem Inherits.admit_held
    (hrec : ∀ t, (s.waiting syp).head? = some (.thread t) → s.muOwner t = some thp)
    (ho : s.owner syp = .held thp) (hw : s.waiting syp ≠ [])
    (hle : s.headPriority syp ≤ lim thp) : Inherits none lim (s.mutexholdlistPri thp syp) := by
  have hhead : (s.mutexholdlistPri thp syp).headPriority = s.headPriority := rfl
  have hout : ∀ t, syp ∉ s.holdlist t := by
    intro t hmem
    exact ((h.linked syp t).mp hmem).2.2 rfl
  refine ⟨h.queues.congr ⟨rfl, rfl, rfl, rfl, rfl⟩, h.threads, ?_, ?_, ?_, ?_, ?_, h.real⟩
  · intro syp' t _ hhd
    by_cases hne : syp' = syp
    · subst hne
      rw [mutexholdlistPri_owner, ho]
      exact hrec t hhd
    · exact h.recorded syp' t (some_ne hne) hhd
  · intro syp' t
    by_cases ht : t = thp
    · subst ht
      simp only [mutexholdlistPri_holdlist, update_self, mem_insertGE, h.linked]
      by_cases hne : syp' = syp
      · simp [hne, ho, hw]
      · simp [hne, some_ne hne]
    simp only [mutexholdlistPri_holdlist, update_of_ne ht, h.linked]
    by_cases hne : syp' = syp
    · have : thp ≠ t := fun heq => ht heq.symm
      simp [hne, ho, this]
    · simp [some_ne hne]
  · intro t
    by_cases ht : t = thp
    · subst ht
      simp only [mutexholdlistPri_holdlist, update_self]
      exact (perm_insertGE _ _ _).nodup_iff.mpr (nodup_cons.mpr ⟨hout t, h.nodup t⟩)
    · simpa [ht] using h.nodup t
  · intro t
    rw [hhead]
    by_cases ht : t = thp
    · subst ht
      simpa using (h.held t).insertGE syp
    · simpa [ht] using h.held t
  · intro syp' t ho' _
    by_cases hne : syp' = syp
    · subst hne
      rw [mutexholdlistPri_owner, ho] at ho'
      cases ho'
      exact hle
    · exact h.above syp' t ho' (some_ne hne)

end

section

variable (h : Inherits none lim s)
include h

theorem Inherits.headOwner {rest : List MEntry}
    (hw : s.waiting syp = .thread thp :: rest) : s.headOwner syp = (s.owner syp).thread? := by
  rw [MutexSt.headOwner, hw]
  exact h.recorded syp thp (by simp) (by rw [hw]; rfl)

theorem Inherits.exempt_rem (syp : Nat) : Inherits (some syp) lim (s.mutexholdlistRem syp) := by
  refine ⟨h.queues.congr ⟨rfl, rfl, rfl, rfl, rfl⟩, h.threads, ?_, ?_, ?_, ?_, ?_, h.real⟩
  · intro syp' thp _ hhd
    exact h.recorded syp' thp (by simp) hhd
  · intro syp' thp
    rw [mutexholdlistRem_holdlist, (h.nodup thp).mem_erase_iff, h.linked]
    by_cases hne : syp' = syp
    · simp [hne]
    · simp [hne, some_ne hne]
  · intro thp
    exact (h.nodup thp).erase syp
  · intro thp
    exact (h.held thp).sublist erase_sublist
  · intro syp' thp ho _
    exact h.above syp' thp ho (by simp)

theorem Inherits.exempt_unlinked
    (hout : s.waiting syp = [] ∨ (s.owner syp).thread? = none) : Inherits (some syp) lim s := by
  refine { h with recorded := ?_, linked := ?_, above := ?_ }
  · intro syp' thp _ hhd
    exact h.recorded syp' thp (by simp) hhd
  · intro syp' thp
    rw [h.linked]
    by_cases hne : syp' = syp
    · subst hne
      have := not_held hout thp
      tauto
    · simp [some_ne hne]
  · intro syp' thp ho _
    exact h.above syp' thp ho (by simp)

theorem Inherits.unhold (syp : Nat) : Inherits (some syp) lim (s.unhold syp) := by
  unfold MutexSt.unhold
  split
  · exact h.exempt_rem syp
  rename_i hnone
  apply h.exempt_unlinked
  rcases h.head syp with hw | ⟨thp, rest, hw⟩
  · exact .inl hw
  · rw [h.headOwner hw] at hnone
    exact .inr (by simpa using hnone)

end

/-! ## The chain -/

theorem unhold_adjustPriority (thp prio syp : Nat) :
    (s.adjustPriority thp prio).unhold syp = (s.unhold syp).adjustPriority thp prio := by
  have hown : (s.adjustPriority thp prio).headOwner syp = s.headOwner syp := rfl
  unfold MutexSt.unhold
  rw [hown]
  split <;> rfl

theorem headPriority_adjustPriority (hne : (s.waiting syp).head? ≠ some (.thread thp)) :
    (s.adjustPriority thp prio).headPriority syp = s.headPriority syp := by
  refine headPriority_congr rfl ?_
  intro e he
  apply entryPriority_adjustPriority
  rintro rfl
  exact hne he

theorem real_adjustPriority (h : ∀ t, s.realPriority t ≤ s.priority t)
    (hp : s.realPriority thp ≤ prio) (t : Nat) :
    (s.adjustPriority thp prio).realPriority t ≤ (s.adjustPriority thp prio).priority t := by
  by_cases ht : t = thp
  · simpa [ht] using hp
  · simpa [ht] using h t

section

variable (h : Inherits x (s.adjustPriority thp prio).priority s)
include h

theorem Inherits.set_off {real : Nat → Nat} (hp : 0 < prio)
    (hoff : (s.state thp).onMutex = false) (hpos : ∀ t, 0 < real t)
    (hreal : ∀ t, real t ≤ (s.adjustPriority thp prio).priority t) :
    Inherits x (s.adjustPriority thp prio).priority
      { s.adjustPriority thp prio with realPriority := real } := by
  have hq := h.queues.adjustPriority hp hoff
  have hhead : ({ s.adjustPriority thp prio with realPriority := real } :
      MutexSt).headPriority = s.headPriority := by
    funext syp
    show (s.adjustPriority thp prio).headPriority syp = _
    apply headPriority_adjustPriority
    intro hhd
    have hst := (h.queues.blocked syp thp).mp (mem_of_mem_head? hhd)
    rw [hst] at hoff
    cases hoff
  refine ⟨⟨?_, hq.nodup, hq.blocked, hq.pos, hpos⟩, h.threads, h.recorded, h.linked, h.nodup, ?_,
    ?_, hreal⟩
  · intro syp
    apply (hq.ordered syp).congr_key
    intro e _
    rfl
  · rw [hhead]
    exact h.held
  · rw [hhead]
    exact h.above

theorem Inherits.adjust_off (hp : 0 < prio)
    (hoff : (s.state thp).onMutex = false) (hreal : s.realPriority thp ≤ prio) :
    Inherits x (s.adjustPriority thp prio).priority (s.adjustPriority thp prio) :=
  h.set_off hp hoff h.queues.real_pos (real_adjustPriority h.real hreal)

end

def InheritOk (cfg : MutexCfg) (prio : Nat) (rest : MutexSt → Nat → Option MutexSt) : Prop :=
  ∀ s thp s', Inherits none (s.adjustPriority thp prio).priority s → ServersClear cfg s prio →
    s.Chained thp → s.priority thp < prio → rest (s.adjustPriority thp prio) thp = some s' →
    Inherits none s'.priority s'

theorem Inherits.passOn {thp2 : Nat} {rest : MutexSt → Nat → Option MutexSt}
    (h : Inherits (some syp) s.priority s) (hc : ServersClear cfg s prio)
    (hrest : InheritOk cfg prio rest) (hhd : (s.waiting syp).head? = some (.thread thp2))
    (hprio : s.priority thp2 = prio) (hrec : s.muOwner thp2 = (s.owner syp).thread?)
    (hs : s.passOn rest prio syp (s.owner syp).thread? thp2 = some s') :
    Inherits none s'.priority s' := by
  have hhp := (headPriority_of_head hhd).trans hprio
  have hne : s.waiting syp ≠ [] := by
    intro hw
    simp [hw] at hhd
  have hrec' : ∀ t, (s.waiting syp).head? = some (.thread t) →
      s.muOwner t = (s.owner syp).thread? := by
    intro t ht
    rw [hhd] at ht
    cases ht
    exact hrec
  cases ho : (s.owner syp).thread? with
  | none =>
    rw [ho] at hs hrec
    cases hs
    have hid : s.setMuOwner thp2 none = s := by
      unfold MutexSt.setMuOwner
      rw [← hrec, update_eq_self]
    rw [hid]
    exact h.admit_unheld hrec' (.inr ho)
  | some thp =>
    rw [ho] at hs hrec'
    have hheld := MOwner.thread?_eq_some.mp ho
    simp only [MutexSt.passOn, mutexholdlistPri_priority] at hs
    split at hs
    · rename_i hlt
      refine hrest (s.mutexholdlistPri thp syp) thp s' ?_
        (hc.narrow (narrows_frame rfl rfl rfl rfl rfl rfl)) ?_ hlt hs
      · refine Inherits.admit_held (h.mono ?_) hrec' hheld hne ?_
        · intro t
          by_cases ht : t = thp
          · subst ht
            simpa using hlt.le
          · simp [ht]
        · simp [hhp]
      · exact .inl ⟨syp, .inl hheld⟩
    · cases hs
      exact h.admit_held hrec' hheld hne (by omega)

theorem Inherits.same_heads (h : Inherits none lim s) (hq : QueueInv s')
    (hthreads : ∀ syp e, e ∈ s'.waiting syp → ∃ thp, e = .thread thp)
    (hhd : ∀ syp, (s'.waiting syp).head? = (s.waiting syp).head?)
    (hprio : ∀ syp thp, (s.waiting syp).head? = some (.thread thp) →
      s'.priority thp = s.priority thp ∧ s'.muOwner thp = s.muOwner thp)
    (howner : s'.owner = s.owner) (hhold : s'.holdlist = s.holdlist)
    (hreal : ∀ thp, s'.realPriority thp ≤ s'.priority thp) : Inherits none lim s' := by
  have hhead : s'.headPriority = s.headPriority := by
    funext syp
    rcases h.head syp with hw | ⟨thp, rest, hw⟩
    · have hw' := hhd syp
      rw [hw] at hw'
      rw [headPriority_of_nil hw, headPriority_of_nil (head?_eq_none_iff.mp hw')]
    have hsome : (s.waiting syp).head? = some (.thread thp) := by rw [hw]; rfl
    rw [headPriority_of_head hsome, headPriority_of_head ((hhd syp).trans hsome)]
    exact (hprio syp thp hsome).1
  have hnil : ∀ syp, s'.waiting syp ≠ [] ↔ s.waiting syp ≠ [] := by
    intro syp
    rw [ne_eq, ne_eq, ← head?_eq_none_iff, ← head?_eq_none_iff, hhd]
  refine ⟨hq, hthreads, ?_, ?_, ?_, ?_, ?_, hreal⟩
  · intro syp thp hx hsome
    rw [hhd] at hsome
    rw [(hprio syp thp hsome).2, howner]
    exact h.recorded syp thp hx hsome
  · intro syp thp
    rw [hhold, howner, hnil]
    exact h.linked syp thp
  · rw [hhold]
    exact h.nodup
  · rw [hhold, hhead]
    exact h.held
  · rw [howner, hhead]
    exact h.above

theorem Inherits.boostServers {chp : Nat} (h : Inherits none s.priority s)
    (hp : 0 < prio) (hc : ServersClear cfg s prio) (hch : s.Chained thp)
    (hst : s.state thp = .send chp) (hfix : cfg.fixedPriority chp = false) :
    Inherits none (s.boostServers cfg prio chp).priority (s.boostServers cfg prio chp) := by
  have hup : ∀ t, s.priority t ≤ (s.boostServers cfg prio chp).priority t := by
    intro t
    simp only [boostServers_priority]
    split
    · omega
    · exact le_rfl
  refine (h.mono hup).same_heads (h.queues.boostServers hp hc hch hst hfix) h.threads
    (fun _ => rfl) ?_ rfl rfl ?_
  · intro syp t hhd
    refine ⟨?_, rfl⟩
    simp only [boostServers_priority]
    split
    · rename_i hb
      have hoff := hc thp chp t hch hst hfix hb.1 hb.2.2 hb.2.1
      rw [(h.queues.blocked syp t).mp (mem_of_mem_head? hhd)] at hoff
      cases hoff
    · rfl
  · intro t
    exact (h.real t).trans (hup t)

theorem holdlist_setHeadOwner (s : MutexSt) (syp : Nat) (o : Option Nat) :
    (s.setHeadOwner syp o).holdlist = s.holdlist := by
  unfold setHeadOwner
  split <;> rfl

theorem muOwner_unhold (s : MutexSt) (syp t : Nat) : (s.unhold syp).muOwner t = s.muOwner t := by
  unfold MutexSt.unhold
  split <;> rfl

theorem muOwner_setHeadOwner (hne : (s.waiting syp).head? ≠ some (.thread t)) :
    (s.setHeadOwner syp o).muOwner t = s.muOwner t := by
  unfold setHeadOwner
  split
  · rename_i thp rest hw
    have ht : t ≠ thp := by
      rintro rfl
      exact hne (by rw [hw]; rfl)
    simp [ht]
  · rfl
  · rfl

theorem QueueInv.one_queue (h : QueueInv s) (hmem : .thread t ∈ s.waiting syp)
    (hmem' : .thread t ∈ s.waiting syp') : syp' = syp := by
  have h1 := (h.blocked syp t).mp hmem
  rw [(h.blocked syp' t).mp hmem'] at h1
  exact MState.mutex.inj h1

theorem mem_requeue (h : e ∈ (s.requeue thp syp).waiting syp') :
    e = .thread thp ∨ e ∈ s.waiting syp' := by
  rw [MutexSt.requeue, mem_link2Pri] at h
  rcases h with ⟨-, rfl⟩ | h
  · exact .inl rfl
  by_cases hne : syp' = syp
  · subst hne
    simp only [link2Rem_waiting, update_self] at h
    exact .inr (mem_of_mem_erase h)
  · simp only [link2Rem_waiting, update_of_ne hne] at h
    exact .inr h

theorem requeue_waiting_of_ne (hne : syp' ≠ syp) :
    (s.requeue thp syp).waiting syp' = s.waiting syp' := by
  simp [MutexSt.requeue, hne]

theorem overtake_owner (s : MutexSt) (thp syp : Nat) : (s.overtake thp syp).owner = s.owner := by
  show ((s.unhold syp).setHeadOwner syp none).owner = s.owner
  rw [owner_setHeadOwner, owner_unhold]

theorem overtake_holdlist (s : MutexSt) (thp syp : Nat) :
    (s.overtake thp syp).holdlist = (s.unhold syp).holdlist :=
  holdlist_setHeadOwner _ syp none

theorem overtake_muOwner_of_ne (ht : t ≠ thp) (hhd : (s.waiting syp).head? ≠ some (.thread t)) :
    (s.overtake thp syp).muOwner t = s.muOwner t := by
  simp only [MutexSt.overtake, MutexSt.requeue, link2Pri_muOwner, link2Rem_muOwner,
    setMuOwner_muOwner, update_of_ne ht]
  rw [muOwner_setHeadOwner, muOwner_unhold]
  rw [(sameQueues_unhold s syp).waiting]
  exact hhd

section

variable (h : Inherits none (s.adjustPriority thp prio).priority s)
include h

section

variable (hlt : s.priority thp < prio) (hst : s.state thp = .mutex syp)
include hlt hst

theorem Inherits.raise_head (hhd : (s.waiting syp).head? = some (.thread thp)) :
    Inherits (some syp) (s.adjustPriority thp prio).priority
      ((s.adjustPriority thp prio).unhold syp) := by
  have hsame := sameQueues_unhold s syp
  rw [unhold_adjustPriority]
  refine (h.unhold syp).exempt ?_ ?_ (fun _ _ => rfl) (fun _ _ => rfl) rfl ?_ (fun _ => le_rfl) ?_
  · apply (h.queues.congr hsame).raise_head
    · rw [hsame.priority]
      exact hlt.le
    · rw [hsame.state]
      exact hst
    · rw [hsame.waiting]
      exact hhd
  · exact (h.unhold syp).threads syp
  · intro syp' t hne hmem
    have ht : t ≠ thp := by
      rintro rfl
      rw [hsame.waiting] at hmem
      rw [(h.queues.blocked syp' t).mp hmem] at hst
      cases hst
      exact hne rfl
    simp [ht]
  · apply real_adjustPriority (h.unhold syp).real
    rw [hsame.realPriority]
    exact (h.real thp).trans (hlt.le)

theorem Inherits.overtake :
    Inherits (some syp) (s.adjustPriority thp prio).priority
      ((s.adjustPriority thp prio).overtake thp syp) := by
  have hpos : 0 < prio := (Nat.zero_le _).trans_lt hlt
  have hq := sameQueues_overtake (s.adjustPriority thp prio) thp syp
  have hun := sameQueues_unhold s syp
  have hmem := (h.queues.blocked syp thp).mpr hst
  refine (h.unhold syp).exempt ((h.queues.requeue hpos hst).congr hq) ?_ ?_ ?_ ?_ ?_
    (fun _ => le_rfl) ?_
  · intro e he
    rw [hq.waiting] at he
    rcases mem_requeue he with rfl | he
    · exact ⟨thp, rfl⟩
    · exact h.threads syp e he
  · intro syp' hne
    rw [hq.waiting, hun.waiting, requeue_waiting_of_ne hne]
    rfl
  · intro syp' _
    rw [overtake_owner, owner_unhold]
    rfl
  · rw [overtake_holdlist, unhold_adjustPriority]
    rfl
  · intro syp' t hne hmem'
    rw [hun.waiting] at hmem'
    have hthp : t ≠ thp := by
      rintro rfl
      exact hne (h.queues.one_queue hmem hmem')
    have hnot : (s.waiting syp).head? ≠ some (.thread t) := by
      intro hsome
      exact hne (h.queues.one_queue (mem_of_mem_head? hsome) hmem')
    rw [hq.priority, hun.priority, muOwner_unhold]
    refine ⟨?_, overtake_muOwner_of_ne hthp hnot⟩
    simp [MutexSt.requeue, hthp]
  · intro t
    rw [hq.priority, hq.realPriority]
    refine real_adjustPriority h.real ?_ t
    exact (h.real thp).trans (hlt.le)

theorem Inherits.requeue_inner (hhd : (s.waiting syp).head? ≠ some (.thread thp))
    (hge : prio ≤ s.headPriority syp) :
    Inherits none (s.adjustPriority thp prio).priority
      ((s.adjustPriority thp prio).requeue thp syp) := by
  have hpos : 0 < prio := (Nat.zero_le _).trans_lt hlt
  refine h.same_heads (h.queues.requeue hpos hst) ?_ ?_ ?_ rfl rfl ?_
  · intro syp' e he
    rcases mem_requeue he with rfl | he
    · exact ⟨thp, rfl⟩
    · exact h.threads syp' e he
  · intro syp'
    by_cases hne : syp' = syp
    · subst hne
      simp only [MutexSt.requeue, link2Pri_waiting, update_self, entryPriority_link2Rem,
        link2Rem_waiting, adjustPriority_waiting]
      rcases h.head syp' with hw | ⟨t, rest, hw⟩
      · have hmem := (h.queues.blocked syp' thp).mpr hst
        simp [hw] at hmem
      have ht : MEntry.thread t ≠ .thread thp := by
        intro heq
        exact hhd (by rw [hw, heq]; rfl)
      have hkey : ¬ (s.adjustPriority thp prio).entryPriority syp' (.thread t) <
          (s.adjustPriority thp prio).entryPriority syp' (.thread thp) := by
        rw [entryPriority_adjustPriority ht, ← headPriority_of_head (by rw [hw]; rfl)]
        simpa [entryPriority] using hge
      rw [hw, erase_cons_tail (by simpa using ht), insertGE_cons, if_neg hkey]
      rfl
    · rw [requeue_waiting_of_ne hne]
      rfl
  · intro syp' t hsome
    have ht : t ≠ thp := by
      rintro rfl
      have hmem := (h.queues.blocked syp t).mpr hst
      have heq := h.queues.one_queue hmem (mem_of_mem_head? hsome)
      subst heq
      exact hhd hsome
    simp [MutexSt.requeue, ht]
  · refine real_adjustPriority h.real ?_
    exact (h.real thp).trans (hlt.le)

end

end

theorem muOwner_setHeadOwner_head (hhd : (s.waiting syp).head? = some (.thread t)) :
    (s.setHeadOwner syp o).muOwner t = o := by
  obtain ⟨rest, hw⟩ := head?_eq_some_iff.mp hhd
  simp [setHeadOwner, hw]

theorem QueueInv.requeue_top (h : QueueInv s) (hlt : s.headPriority syp < prio) :
    ((s.adjustPriority thp prio).requeue thp syp).waiting syp =
      .thread thp :: (s.waiting syp).erase (.thread thp) := by
  simp only [MutexSt.requeue, link2Pri_waiting, update_self, entryPriority_link2Rem, link2Rem_waiting,
    adjustPriority_waiting]
  apply insertGE_head
  intro e he
  rw [(h.nodup syp).mem_erase_iff] at he
  rw [entryPriority_adjustPriority he.1]
  simp only [entryPriority, adjustPriority_priority, update_self]
  exact (h.le_head he.2).trans_lt hlt

theorem overtake_muOwner (s : MutexSt) (thp syp : Nat) :
    (s.overtake thp syp).muOwner thp = s.headOwner syp := by
  simp [MutexSt.overtake, MutexSt.requeue]

theorem inheritOk_chkstate (prio fuel : Nat) : InheritOk cfg prio (chkstate cfg prio fuel) := by
  induction fuel with
  | zero =>
    intro s thp s' _ _ _ _ hs
    cases hs
  | succ fuel ih =>
    intro s thp s' h hc hch hlt hs
    have hp : 0 < prio := (Nat.zero_le _).trans_lt hlt
    have hreal := (h.real thp).trans (hlt.le)
    have hc1 : ServersClear cfg (s.adjustPriority thp prio) prio := hc.narrow narrows_adjust
    rcases chkstate_cases hs with ⟨hoff, hs⟩ | ⟨syp, hst⟩
    · have h1 := h.adjust_off hp hoff hreal
      rcases hs with rfl | ⟨chp, hst, hfix, rfl⟩ | ⟨chp, v, hst, hv, hs⟩
      · exact h1
      · exact h1.boostServers hp hc1 hch hst hfix
      refine ih _ v s' (h1.mono ?_) hc1 (.inr (.inr ⟨thp, chp, hst⟩)) hv hs
      intro t
      by_cases ht : t = v
      · subst ht
        simpa using hv.le
      · simp [ht]
    simp only [chkstate, hst] at hs
    have hmem := (h.queues.blocked syp thp).mpr hst
    obtain ⟨w, rest, hw⟩ : ∃ w rest, s.waiting syp = .thread w :: rest := by
      rcases h.head syp with hw | hw
      · simp [hw] at hmem
      · exact hw
    have hown : (s.adjustPriority thp prio).headOwner syp = (s.owner syp).thread? :=
      h.headOwner hw
    rw [hown] at hs
    split at hs
    · rename_i hhd
      have h1 := h.raise_head hlt hst hhd
      have hsame := sameQueues_unhold (s.adjustPriority thp prio) syp
      have ho : ((s.adjustPriority thp prio).unhold syp).owner = s.owner := owner_unhold _ syp
      rw [← hsame.priority] at h1
      rw [← ho] at hs
      refine h1.passOn (hc1.narrow (narrows_unhold _ syp)) ih ?_ ?_ ?_ hs
      · rw [hsame.waiting]
        exact hhd
      · rw [hsame.priority]
        simp
      · rw [ho, unhold_adjustPriority, adjustPriority_muOwner, muOwner_unhold]
        exact h.recorded syp thp (by simp) hhd
    rename_i hhd
    rw [adjustPriority_waiting] at hhd
    split at hs
    · rename_i htop
      rw [headPriority_adjustPriority hhd] at htop
      have h1 := h.overtake hlt hst
      have hsame := sameQueues_overtake (s.adjustPriority thp prio) thp syp
      have hprio : ((s.adjustPriority thp prio).overtake thp syp).priority =
        (s.adjustPriority thp prio).priority := hsame.priority
      have ho : ((s.adjustPriority thp prio).overtake thp syp).owner = s.owner :=
        overtake_owner _ thp syp
      rw [← hprio] at h1
      rw [← ho] at hs
      refine h1.passOn (hc1.narrow (narrows_overtake _ thp syp)) ih ?_ ?_ ?_ hs
      · rw [hsame.waiting, h.queues.requeue_top htop]
        rfl
      · rw [hprio]
        simp
      · rw [ho, overtake_muOwner]
        exact hown
    · rename_i hbehind
      rw [headPriority_adjustPriority hhd] at hbehind
      cases hs
      exact h.requeue_inner hlt hst hhd (by omega)

end MutexSt

end Qnx.Ker
