import Qnx.Ker.MutexInherit
import Mathlib.Order.Bounds.Defs

/-!
# Owners run at the priority of their waiters

The calls one by one on `Inherits`, and runs of them.
-/

namespace Qnx.Ker

open PriQueue List Function

namespace MutexSt

variable {cfg : MutexCfg} {s s' : MutexSt} {x : Option Nat} {lim : Nat → Nat}

/-! ## Lock -/

theorem unlinkHead_holdlist (s : MutexSt) (syp : Nat) :
    (s.unlinkHead syp).holdlist = (s.unhold syp).holdlist := by
  unfold unlinkHead unhold
  split
  · exact holdlist_setHeadOwner _ syp none
  · rfl

variable {syp act w fuel thp : Nat} {imto : Bool}

theorem unlinkHead_muOwner {t : Nat} (hhd : (s.waiting syp).head? ≠ some (.thread t)) :
    (s.unlinkHead syp).muOwner t = s.muOwner t := by
  unfold unlinkHead
  split
  · exact muOwner_setHeadOwner hhd
  · rfl

section

variable (h : Inherits none s.priority s) (hact : (s.state act).onMutex = false)
include h hact

theorem Inherits.block_head
    (hhead : ∀ w, (s.waiting syp).head? = some (.thread w) → s.priority w < s.priority act) :
    Inherits (some syp) s.priority
      ((((s.mutexUnready act syp).mutexOutrank act syp).link2Pri syp (.thread act)).setMuOwner act
        (s.owner syp).thread?) ∧
      (((s.mutexUnready act syp).mutexOutrank act syp).link2Pri syp (.thread act)).waiting syp =
        .thread act :: s.waiting syp := by
  have hsame := sameQueues_mutexOutrank (s.mutexUnready act syp) act syp
  have hq := h.queues.block hact hsame
  have hfree : ∀ syp', .thread act ∉ s.waiting syp' := by
    intro syp' hmem
    rw [(h.queues.blocked syp' act).mp hmem] at hact
    cases hact
  have htop : (((s.mutexUnready act syp).mutexOutrank act syp).link2Pri syp
      (.thread act)).waiting syp = .thread act :: s.waiting syp := by
    simp only [link2Pri_waiting, update_self, hsame.waiting]
    apply insertGE_head
    intro e he
    rw [hsame.entryPriority]
    obtain ⟨t, rfl⟩ := h.threads syp e he
    rcases h.head syp with hw | ⟨w, rest, hw⟩
    · simp [hw] at he
    have hsome : (s.waiting syp).head? = some (.thread w) := by rw [hw]; rfl
    have hle := h.queues.le_head he
    rw [headPriority_of_head hsome] at hle
    exact hle.trans_lt (hhead w hsome)
  have hhold : ((s.mutexUnready act syp).mutexOutrank act syp).holdlist =
      (s.unhold syp).holdlist := by
    unfold MutexSt.mutexOutrank
    rcases h.head syp with hw | ⟨w, rest, hw⟩
    · simp only [mutexUnready_waiting, hw, MutexSt.unhold, MutexSt.headOwner]
      rfl
    have hlt := hhead w (by rw [hw]; rfl)
    simp only [mutexUnready_waiting, hw, mutexUnready_priority, if_pos hlt]
    rw [unlinkHead_holdlist]
    unfold MutexSt.unhold
    have : (s.mutexUnready act syp).headOwner syp = s.headOwner syp := rfl
    rw [this]
    split <;> rfl
  have hun := sameQueues_unhold s syp
  refine ⟨?_, htop⟩
  refine (h.unhold syp).exempt (hq.congr ⟨rfl, rfl, rfl, rfl, rfl⟩) ?_ ?_ ?_ hhold ?_
    (fun _ => le_rfl) ?_
  · intro e he
    rw [setMuOwner_waiting, htop] at he
    rcases mem_cons.mp he with rfl | he
    · exact ⟨act, rfl⟩
    · exact h.threads syp e he
  · intro syp' hne
    rw [setMuOwner_waiting, link2Pri_waiting, update_of_ne hne, hsame.waiting, hun.waiting]
    rfl
  · intro syp' _
    rw [owner_unhold]
    exact congrFun (owner_mutexOutrank (s.mutexUnready act syp) act syp) syp'
  · intro syp' t hne hmem
    rw [hun.waiting] at hmem
    have ht : t ≠ act := by
      rintro rfl
      exact hfree syp' hmem
    have hnot : (s.waiting syp).head? ≠ some (.thread t) := by
      intro hsome
      exact hne (h.queues.one_queue (mem_of_mem_head? hsome) hmem)
    rw [setMuOwner_priority, link2Pri_priority, hsame.priority, hun.priority, muOwner_unhold,
      setMuOwner_muOwner, update_of_ne ht]
    refine ⟨rfl, ?_⟩
    unfold MutexSt.mutexOutrank
    split
    · split
      · exact unlinkHead_muOwner hnot
      · rfl
    · rfl
  · intro t
    rw [setMuOwner_priority, setMuOwner_realPriority, link2Pri_priority, link2Pri_realPriority,
      hsame.priority, hsame.realPriority]
    exact h.real t

theorem Inherits.block_behind
    (hhd : (s.waiting syp).head? = some (.thread w)) (hle : s.priority act ≤ s.priority w) :
    (s.mutexUnready act syp).mutexOutrank act syp = s.mutexUnready act syp ∧
      Inherits none s.priority ((s.mutexUnready act syp).link2Pri syp (.thread act)) ∧
      (((s.mutexUnready act syp).link2Pri syp (.thread act)).waiting syp).head? =
        some (.thread w) := by
  obtain ⟨rest, hw⟩ := head?_eq_some_iff.mp hhd
  have hkey : ¬(s.mutexUnready act syp).entryPriority syp (.thread w) <
      (s.mutexUnready act syp).entryPriority syp (.thread act) := by
    simpa [entryPriority] using hle
  have htop : (((s.mutexUnready act syp).link2Pri syp (.thread act)).waiting syp).head? =
      some (.thread w) := by
    simp only [link2Pri_waiting, update_self, mutexUnready_waiting, hw, insertGE_cons,
      if_neg hkey, head?_cons]
  have hsame : SameQueues (s.mutexUnready act syp) (s.mutexUnready act syp) := .refl _
  refine ⟨?_, ?_, htop⟩
  · simp [MutexSt.mutexOutrank, hw, not_lt.mpr hle]
  · refine h.same_heads (h.queues.block hact hsame) ?_ ?_ (fun _ _ _ => ⟨rfl, rfl⟩) rfl rfl h.real
    · intro syp' e he
      rcases mem_link2Pri.mp he with ⟨-, rfl⟩ | he
      · exact ⟨act, rfl⟩
      · exact h.threads syp' e he
    · intro syp'
      by_cases hne : syp' = syp
      · subst hne
        rw [htop, hhd]
      · simp [hne]

theorem Inherits.mutexBlock (hc : ServersClear cfg s (s.priority act))
    (hpn : cfg.prionone syp = false)
    (hs : s.mutexBlock cfg fuel act syp (s.owner syp).thread? imto = some s') :
    Inherits none s'.priority s' := by
  unfold MutexSt.mutexBlock at hs
  split at hs
  · cases hs
    exact h
  have hsame := sameQueues_mutexOutrank (s.mutexUnready act syp) act syp
  have hown : ((s.mutexUnready act syp).mutexOutrank act syp).owner = s.owner :=
    owner_mutexOutrank _ act syp
  simp only [link2Pri_priority, hsame.priority, hpn] at hs
  by_cases hhead : ∀ w, (s.waiting syp).head? = some (.thread w) → s.priority w < s.priority act
  · obtain ⟨h1, htop⟩ := h.block_head hact hhead
    rw [if_neg (by simp), if_pos (by rw [htop]; rfl)] at hs
    set s1 := (((s.mutexUnready act syp).mutexOutrank act syp).link2Pri syp
      (.thread act)).setMuOwner act (s.owner syp).thread?
    have hn : Narrows (s.priority act) s s1 := by
      refine Narrows.setMuOwner ?_ ?_
      · exact ((narrows_mutexUnready s act syp).trans (narrows_mutexOutrank _ act syp)).trans
          (narrows_frame rfl rfl rfl rfl rfl rfl)
      · intro thp hthp
        exact .inl ⟨syp, .inl (MOwner.thread?_eq_some.mp hthp)⟩
    have hprio : s1.priority = s.priority := hsame.priority
    have ho : s1.owner syp = s.owner syp := congrFun hown syp
    rw [← hprio] at h1
    refine h1.passOn (hc.narrow hn) (inheritOk_chkstate _ fuel) ?_ (congrFun hprio act) ?_ ?_
    · rw [setMuOwner_waiting, htop]
      rfl
    · rw [ho]
      simp [s1]
    · rw [ho]
      exact hs
  · push Not at hhead
    obtain ⟨w, hhd, hle⟩ := hhead
    obtain ⟨hout, h1, htop⟩ := h.block_behind hact hhd hle
    have hne : act ≠ w := by
      rintro rfl
      rw [(h.queues.blocked syp act).mp (mem_of_mem_head? hhd)] at hact
      cases hact
    rw [hout, if_neg (by simp), if_neg (by rw [htop]; simpa using fun heq => hne heq.symm)] at hs
    cases hs
    exact h1

end

theorem firstThread_of_head {l : List MEntry} (h : l.head? = some (.thread w)) :
    firstThread l = some w := by
  obtain ⟨rest, rfl⟩ := head?_eq_some_iff.mp h
  rfl

theorem Inherits.mutexAcquire (h : Inherits none s.priority s)
    (hfree : s.owner syp = .free) (hle : s.headPriority syp ≤ s.priority act) :
    Inherits none (s.mutexAcquire act syp 0).priority (s.mutexAcquire act syp 0) := by
  have hno : (s.owner syp).thread? = none := by rw [hfree]; rfl
  unfold MutexSt.mutexAcquire
  rcases h.head syp with hw | ⟨w, rest, hw⟩
  · rw [hw]
    have h1 : Inherits (some syp) s.priority (s.mutexTake act syp) := by
      refine (h.exempt_unlinked (.inr hno)).exempt (h.queues.congr ⟨rfl, rfl, rfl, rfl, rfl⟩)
        (h.threads syp) (fun _ _ => rfl) ?_ rfl (fun _ _ _ _ => ⟨rfl, rfl⟩)
        (fun _ => le_rfl) h.real
      intro syp' hne
      simp [hne]
    refine h1.admit_unheld ?_ (.inl hw)
    intro t hhd
    rw [mutexTake_waiting, hw] at hhd
    cases hhd
  have hhd : (s.waiting syp).head? = some (.thread w) := by rw [hw]; rfl
  have hmem := mem_of_mem_head? hhd
  have hnone : s.muOwner w = none := (h.recorded syp w (by simp) hhd).trans hno
  rw [firstThread_of_head hhd]
  simp only [mutexRecord, mutexTake_muOwner, hnone]
  have h1 : Inherits (some syp) s.priority
      (((s.mutexTake act syp).setMuOwner w (some act)).setWaitBit syp true) := by
    refine (h.exempt_unlinked (.inr hno)).exempt (h.queues.congr ⟨rfl, rfl, rfl, rfl, rfl⟩)
      (h.threads syp) (fun _ _ => rfl) ?_ rfl ?_ (fun _ => le_rfl) h.real
    · intro syp' hne
      simp [hne]
    · intro syp' t hne hmem'
      have ht : t ≠ w := by
        rintro rfl
        exact hne (h.queues.one_queue hmem hmem')
      simp [ht]
  refine h1.admit_held ?_ ?_ ?_ hle
  · intro t ht
    rw [setWaitBit_waiting, setMuOwner_waiting, mutexTake_waiting, hhd] at ht
    cases ht
    simp
  · simp
  · simp [hw]

section

variable (h : Inherits (some syp) lim s)
include h

theorem Inherits.syncWakeup : Inherits (some syp) lim (s.syncWakeup syp) := by
  have hq := h.queues.syncWakeup syp
  unfold MutexSt.syncWakeup at hq ⊢
  split
  · rename_i thp rest hpick
    obtain ⟨-, hsub⟩ := wakeupPick_spec hpick
    simp only [hpick] at hq
    refine h.exempt hq ?_ ?_ (fun _ _ => rfl) rfl (fun _ _ _ _ => ⟨rfl, rfl⟩)
      (fun _ => le_rfl) h.real
    · intro e he
      simp only [update_self] at he
      exact h.threads syp e (hsub.subset he)
    · intro syp' hne
      simp [hne]
  · exact h

theorem Inherits.setHeadOwner (o : Option Nat) :
    Inherits (some syp) lim (s.setHeadOwner syp o) := by
  have hsame := sameQueues_setHeadOwner s syp o
  refine h.exempt (h.queues.congr hsame) ?_ ?_ ?_ (holdlist_setHeadOwner s syp o) ?_
    (fun _ => le_rfl) ?_
  · rw [hsame.waiting]
    exact h.threads syp
  · intro syp' _
    rw [hsame.waiting]
  · intro syp' _
    rw [owner_setHeadOwner]
  · intro syp' t hne hmem
    refine ⟨by rw [hsame.priority], muOwner_setHeadOwner ?_⟩
    intro hhd
    exact hne (h.queues.one_queue (mem_of_mem_head? hhd) hmem)
  · rw [hsame.priority, hsame.realPriority]
    exact h.real

theorem Inherits.reset_head
    (ho : (s.owner syp).thread? = none) : Inherits none lim (s.setHeadOwner syp none) := by
  have hown := owner_setHeadOwner s syp none
  refine (h.setHeadOwner none).admit_unheld ?_ (.inr (by rw [hown]; exact ho))
  intro t hhd
  rw [(sameQueues_setHeadOwner s syp none).waiting] at hhd
  rw [muOwner_setHeadOwner_head hhd, hown, ho]

theorem Inherits.admit_empty (hw : s.waiting syp = []) : Inherits none lim s := by
  refine h.admit_unheld ?_ (.inl hw)
  intro t hhd
  simp [hw] at hhd

end

theorem Inherits.headLinks (h : Inherits x lim s) (syp : Nat) :
    s.headLinks syp = true ↔ s.waiting syp ≠ [] := by
  rcases h.head syp with hw | ⟨w, rest, hw⟩ <;> simp [MutexSt.headLinks, hw]

theorem Inherits.mutexRewake (h : Inherits none lim s) (hfree : s.owner syp = .free) :
    Inherits none lim (s.mutexRewake syp) := by
  have hno : (s.owner syp).thread? = none := by rw [hfree]; rfl
  unfold MutexSt.mutexRewake
  split
  · rename_i hlinks
    rcases h.head syp with hw | ⟨w, rest, hw⟩
    · exact absurd hw ((h.headLinks syp).mp hlinks)
    have hun : s.unlinkHead syp = s := by
      unfold MutexSt.unlinkHead
      rw [h.headOwner hw, hno]
      rfl
    have h1 := (h.exempt_unlinked (.inr hno)).syncWakeup
    have hno1 : ((s.syncWakeup syp).owner syp).thread? = none := by rw [owner_syncWakeup, hno]
    dsimp only
    rw [hun]
    split
    · exact h1.reset_head hno1
    rename_i hlinks1
    apply h1.admit_empty
    rw [h1.headLinks, not_not] at hlinks1
    exact hlinks1
  · exact h

theorem Inherits.congr (h : Inherits none lim s) (hs : SameQueues s s')
    (howner : s'.owner = s.owner) (hhold : s'.holdlist = s.holdlist)
    (hmu : s'.muOwner = s.muOwner) : Inherits none lim s' := by
  refine h.same_heads (h.queues.congr hs) ?_ ?_ ?_ howner hhold ?_
  · rw [hs.waiting]
    exact h.threads
  · intro syp
    rw [hs.waiting]
  · intro syp thp _
    rw [hs.priority, hmu]
    exact ⟨rfl, rfl⟩
  · rw [hs.priority, hs.realPriority]
    exact h.real

theorem Inherits.outranks (h : Inherits x lim s)
    (ho : s.mutexOutranks act syp = true) : s.headPriority syp ≤ s.priority act := by
  rcases h.head syp with hw | ⟨w, rest, hw⟩
  · rw [headPriority_of_nil hw]
    exact Nat.zero_le _
  have hhd : (s.waiting syp).head? = some (.thread w) := by rw [hw]; rfl
  simp only [mutexOutranks, firstThread_of_head hhd, decide_eq_true_eq] at ho
  rw [headPriority_of_head hhd]
  exact ho.le

theorem Inherits.syncMutexLock {noCeiling : Bool}
    (h : Inherits none s.priority s) (hact : (s.state act).onMutex = false)
    (hc : ServersClear cfg s (s.priority act)) (hpc : cfg.prioceiling syp = false)
    (hpn : cfg.prionone syp = false)
    (hacq : s.acquireMutex act = true → s.owner syp = .free → s.headPriority syp ≤ s.priority act)
    (hs : s.syncMutexLock cfg fuel act syp noCeiling imto = some s') :
    Inherits none s'.priority s' := by
  have hw : Inherits none (s.setWaitBit syp true).priority (s.setWaitBit syp true) :=
    h.congr ⟨rfl, rfl, rfl, rfl, rfl⟩ rfl rfl rfl
  obtain rfl | ⟨hfree, hfirst, rfl⟩ | ⟨-, hs⟩ | ⟨hfree, -, hs⟩ := syncMutexLock_cases hs
  · exact h
  · have hzero : s.lockCeiling cfg syp noCeiling = 0 := by
      simp [lockCeiling, lockProtects, hpc]
    rw [hzero]
    apply hw.mutexAcquire hfree
    rcases hfirst with hfirst | hfirst
    · exact h.outranks hfirst
    · exact hacq hfirst hfree
  · exact hw.mutexBlock hact hc hpn hs
  · obtain ⟨hprio, hst⟩ := eases_mutexRewake (s.setWaitBit syp true) syp
    have hown := owner_mutexRewake (s.setWaitBit syp true) syp
    have hnone : (((s.setWaitBit syp true).mutexRewake syp).owner syp).thread? = none := by
      rw [hown]
      show (s.owner syp).thread? = none
      rw [hfree]
      rfl
    rw [← hnone] at hs
    have h1 := hw.mutexRewake hfree
    rw [← hprio] at h1
    refine h1.mutexBlock (hst act hact) ?_ hpn hs
    rw [hprio]
    exact ServersClear.narrow (s := s.setWaitBit syp true) hc (narrows_mutexRewake _ syp)

/-! ## Unlock -/

theorem Inherits.heldPriority_ge (h : Inherits none lim s)
    (ho : s.owner syp = .held thp) : s.headPriority syp ≤ s.heldPriority thp := by
  by_cases hw : s.waiting syp = []
  · rw [headPriority_of_nil hw]
    exact Nat.zero_le _
  have hmem : syp ∈ s.holdlist thp := (h.linked syp thp).mpr ⟨ho, hw, by simp⟩
  have hord := h.held thp
  unfold heldPriority
  split
  · rename_i m rest hhold
    rw [hhold] at hmem hord
    rcases mem_cons.mp hmem with rfl | hmem
    · exact Nat.le_max_right _ _
    · exact (hord.head_le hmem).trans (Nat.le_max_right _ _)
  rename_i hhold
  rw [hhold] at hmem
  cases hmem

theorem realPriority_le_heldPriority (s : MutexSt) (thp : Nat) :
    s.realPriority thp ≤ s.heldPriority thp := by
  unfold heldPriority
  split
  · exact Nat.le_max_left _ _
  · exact le_rfl

theorem threadNear_of_ne_nil (h : Inherits x lim s) :
    threadNear (s.waiting syp) = true ↔ s.waiting syp ≠ [] := by
  rcases h.head syp with hw | ⟨w, rest, hw⟩ <;> simp [threadNear, hw]

theorem mutexRelease_owner (s : MutexSt) (act syp : Nat) :
    (s.mutexRelease act syp).owner syp = if s.owner syp = .held act then .free
      else s.owner syp := by
  unfold MutexSt.mutexRelease
  split
  · simp
  · rfl

theorem unhold_mutexRelease (s : MutexSt) (act syp : Nat) :
    ((s.mutexRelease act syp).unhold syp).holdlist = (s.unhold syp).holdlist ∧
      ((s.mutexRelease act syp).unhold syp).muOwner = (s.unhold syp).muOwner := by
  have hown : (s.mutexRelease act syp).headOwner syp = s.headOwner syp := by
    unfold MutexSt.mutexRelease
    split <;> rfl
  unfold MutexSt.unhold
  rw [hown]
  unfold MutexSt.mutexRelease
  split
  · split <;> exact ⟨rfl, rfl⟩
  · split <;> exact ⟨rfl, rfl⟩

section

variable (h : Inherits none s.priority s)
include h

theorem Inherits.heldPriority_le (thp : Nat) : s.heldPriority thp ≤ s.priority thp := by
  unfold heldPriority
  split
  · rename_i m rest hhold
    have hmem : m ∈ s.holdlist thp := by rw [hhold]; exact mem_cons_self
    have habove := h.above m thp ((h.linked m thp).mp hmem).1 (by simp)
    exact Nat.max_le.mpr ⟨h.real thp, habove⟩
  · exact h.real thp

theorem Inherits.drop (hoff : (s.state thp).onMutex = false) :
    Inherits none (s.adjustPriority thp (s.heldPriority thp)).priority
      (s.adjustPriority thp (s.heldPriority thp)) := by
  refine Inherits.adjust_off ?_ (heldPriority_pos h.queues thp) hoff
    (realPriority_le_heldPriority s thp)
  refine { h with above := ?_ }
  intro syp t ho hx
  by_cases ht : t = thp
  · subst ht
    simpa using h.heldPriority_ge ho
  · simpa [ht] using h.above syp t ho hx

theorem mutexSettle_eq (act : Nat) :
    s.mutexSettle act = s.adjustPriority act (s.heldPriority act) := by
  have hle := h.heldPriority_le act
  have hreal := realPriority_le_heldPriority s act
  unfold MutexSt.mutexSettle
  split
  · rfl
  have heq : s.heldPriority act = s.priority act := by omega
  rw [heq]
  unfold MutexSt.adjustPriority
  rw [update_eq_self]

theorem Inherits.mutexHandOn
    (hsafe : s.waiting syp = [] ∨ ∀ thp, s.owner syp = .held thp → thp = act) :
    Inherits none s.priority ((s.mutexRelease act syp).mutexHandOn syp) := by
  have hrel := sameQueues_mutexRelease s act syp
  have hun := sameQueues_unhold s syp
  have hun' := sameQueues_unhold (s.mutexRelease act syp) syp
  obtain ⟨hhold, hmu⟩ := unhold_mutexRelease s act syp
  have hother : ∀ syp', syp' ≠ syp → (s.mutexRelease act syp).owner syp' = s.owner syp' := by
    intro syp' hne
    unfold MutexSt.mutexRelease
    split
    · simp [hne]
    · rfl
  have h1 : Inherits (some syp) s.priority ((s.mutexRelease act syp).unhold syp) := by
    refine (h.unhold syp).exempt ((h.queues.congr hrel).congr hun') ?_ ?_ ?_ hhold ?_
      (fun _ => le_rfl) ?_
    · rw [hun'.waiting, hrel.waiting]
      exact h.threads syp
    · intro syp' _
      rw [hun'.waiting, hrel.waiting, hun.waiting]
    · intro syp' hne
      rw [owner_unhold, owner_unhold, hother syp' hne]
    · intro syp' t _ _
      rw [hun'.priority, hrel.priority, hun.priority, hmu]
      exact ⟨rfl, rfl⟩
    · rw [hun'.priority, hun'.realPriority, hrel.priority, hrel.realPriority]
      exact h.real
  unfold MutexSt.mutexHandOn
  split
  · rename_i hlinks
    have hne : s.waiting syp ≠ [] := by
      intro hw
      have hw' : (s.mutexRelease act syp).waiting syp = [] := by rw [hrel.waiting, hw]
      simp [MutexSt.headLinks, hw'] at hlinks
    have hno : ((((s.mutexRelease act syp).unhold syp).syncWakeup syp).owner syp).thread? =
        none := by
      rw [owner_syncWakeup, owner_unhold, mutexRelease_owner]
      split
      · rfl
      rename_i hnot
      cases ho : s.owner syp with
      | held thp =>
        have := (hsafe.resolve_left hne) thp ho
        subst this
        exact absurd ho hnot
      | free => rfl
      | dead => rfl
      | destroyed => rfl
    have h2 := h1.syncWakeup
    dsimp only
    split
    · have h3 : Inherits (some syp) s.priority
          ((((s.mutexRelease act syp).unhold syp).syncWakeup syp).setWaitBit syp true) :=
        h2.exempt (h2.queues.congr ⟨rfl, rfl, rfl, rfl, rfl⟩) (h2.threads syp) (fun _ _ => rfl)
          (fun _ _ => rfl) rfl (fun _ _ _ _ => ⟨rfl, rfl⟩) (fun _ => le_rfl) h2.real
      exact h3.reset_head hno
    rename_i hnear
    rw [threadNear_of_ne_nil h2, not_not] at hnear
    rw [if_neg (by simp [hnear])]
    exact h2.admit_empty hnear
  · rename_i hlinks
    have hw : s.waiting syp = [] := by
      by_contra hne
      rcases h.head syp with hw | ⟨w, rest, hw⟩
      · exact hne hw
      have hw' : (s.mutexRelease act syp).waiting syp = .thread w :: rest := by
        rw [hrel.waiting, hw]
      simp [MutexSt.headLinks, hw'] at hlinks
    have hid : (s.mutexRelease act syp).unhold syp = s.mutexRelease act syp := by
      unfold MutexSt.unhold MutexSt.headOwner
      rw [hrel.waiting, hw]
      rfl
    rw [hid] at h1
    exact h1.admit_empty (by rw [hrel.waiting, hw])

end

end MutexSt

end Qnx.Ker
