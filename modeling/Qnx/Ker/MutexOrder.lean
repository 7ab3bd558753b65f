import Qnx.Ker.MutexQueue

/-!
# Order of the waiting queues over whole runs

The calls one by one on `QueueInv`, and runs of them. Two calls change the priority of a queued
entry where it stands: `mutex_set_prioceiling`, and a boost that goes through a SEND-blocked owner
to a server thread which itself waits on a mutex.
-/

namespace Qnx.Ker

open PriQueue Run List Function

namespace MutexSt

variable {cfg : MutexCfg} {s s' : MutexSt}

variable {fuel act syp prio ceiling : Nat} {owner : Option Nat} {imto noCeiling : Bool}

theorem QueueInv.mutexBlock (h : QueueInv s) (hact : (s.state act).onMutex = false)
    (hc : ServersClear cfg s (s.priority act)) (ho : ∀ thp, owner = some thp → s.Chained thp)
    (hs : s.mutexBlock cfg fuel act syp owner imto = some s') : QueueInv s' := by
  unfold MutexSt.mutexBlock at hs
  split at hs
  · cases hs
    exact h
  have hsame := sameQueues_mutexOutrank (s.mutexUnready act syp) act syp
  have hq := h.block hact hsame
  have hn := (narrows_mutexUnready s act syp).trans (narrows_mutexOutrank _ act syp)
  simp only [link2Pri_priority, hsame.priority] at hs
  split at hs
  · cases hs
    exact hq.congr ⟨rfl, rfl, rfl, rfl, rfl⟩
  split at hs
  · have hq' : QueueInv ((((s.mutexUnready act syp).mutexOutrank act syp).link2Pri syp
        (.thread act)).setMuOwner act owner) := hq.congr ⟨rfl, rfl, rfl, rfl, rfl⟩
    refine hq'.passOn (hc.narrow ?_) (chainOk_chkstate _ fuel (h.pos act)) ?_ hs
    · refine Narrows.setMuOwner ?_ ho
      exact hn.trans (narrows_frame rfl rfl rfl rfl rfl rfl)
    · rintro u rfl
      apply chained_of_muOwner (t := act)
      simp
  · cases hs
    exact hq

theorem QueueInv.mutexRewake (h : QueueInv s) (syp : Nat) : QueueInv (s.mutexRewake syp) := by
  have h1 := (h.congr (sameQueues_unlinkHead s syp)).syncWakeup syp
  unfold MutexSt.mutexRewake
  split
  · dsimp only
    split
    · exact h1.congr (sameQueues_setHeadOwner _ syp none)
    · exact h1
  · exact h

theorem sameQueues_mutexRecord (s : MutexSt) (act syp : Nat) (e : MEntry) :
    SameQueues s (s.mutexRecord act syp e) := by
  unfold mutexRecord
  cases e with
  | thread thp =>
    dsimp only
    split <;> exact ⟨rfl, rfl, rfl, rfl, rfl⟩
  | event p =>
    dsimp only
    split <;> exact ⟨rfl, rfl, rfl, rfl, rfl⟩
  | ceiling =>
    dsimp only
    split <;> exact ⟨rfl, rfl, rfl, rfl, rfl⟩

theorem narrows_syncWakeup (s : MutexSt) (syp : Nat) : Narrows prio s (s.syncWakeup syp) := by
  unfold MutexSt.syncWakeup
  split
  · rename_i thp rest hpick
    constructor
    · rintro t (hsyp | ht | ⟨t', chp, ht⟩)
      · exact .inl hsyp
      · exact .inr (.inl ht)
      · by_cases hne : t' = thp
        · simp [hne] at ht
        · exact .inr (.inr ⟨t', chp, by simpa [hne] using ht⟩)
    · intro t chp ht
      by_cases hne : t = thp
      · simp [hne] at ht
      · simpa [hne] using ht
    · rfl
    · intro i hi
      refine ⟨hi, ?_⟩
      by_cases hne : i = thp
      · simp [hne, MState.onMutex]
      · simp [hne]
  · exact .refl prio s

theorem narrows_mutexRewake (s : MutexSt) (syp : Nat) : Narrows prio s (s.mutexRewake syp) := by
  have hn : Narrows prio s ((s.unlinkHead syp).syncWakeup syp) :=
    (narrows_unlinkHead s syp).trans (narrows_syncWakeup _ syp)
  unfold MutexSt.mutexRewake
  split
  · dsimp only
    split
    · exact hn.trans (narrows_setHeadOwner _ syp)
    · exact hn
  · exact .refl prio s

/-- No priority changes, and no thread starts to wait. -/
def Eases (s s' : MutexSt) : Prop := s'.priority = s.priority ∧
  ∀ t, (s.state t).onMutex = false → (s'.state t).onMutex = false

theorem SameQueues.eases (h : SameQueues s s') : Eases s s' :=
  ⟨h.priority, by rw [h.state]; exact fun _ => id⟩

theorem Eases.trans {s'' : MutexSt} (h : Eases s s') (h' : Eases s' s'') : Eases s s'' :=
  ⟨h'.1.trans h.1, fun t ht => h'.2 t (h.2 t ht)⟩

theorem eases_syncWakeup (s : MutexSt) (syp : Nat) : Eases s (s.syncWakeup syp) := by
  unfold MutexSt.syncWakeup
  split
  · rename_i thp rest hpick
    refine ⟨rfl, ?_⟩
    intro t ht
    by_cases hne : t = thp
    · simp [hne, MState.onMutex]
    · simpa [hne] using ht
  · exact (SameQueues.refl s).eases

theorem eases_mutexRewake (s : MutexSt) (syp : Nat) : Eases s (s.mutexRewake syp) := by
  have h1 := (sameQueues_unlinkHead s syp).eases.trans (eases_syncWakeup _ syp)
  unfold MutexSt.mutexRewake
  split
  · dsimp only
    split
    · exact h1.trans (sameQueues_setHeadOwner _ syp none).eases
    · exact h1
  · exact (SameQueues.refl s).eases

theorem QueueInv.mutexAcquire (h : QueueInv s)
    (hact : (s.state act).onMutex = false) : QueueInv (s.mutexAcquire act syp ceiling) := by
  have htake : QueueInv (s.mutexTake act syp) := h.congr ⟨rfl, rfl, rfl, rfl, rfl⟩
  unfold MutexSt.mutexAcquire
  split
  · apply QueueInv.adjustPriority
    · exact htake.congr (sameQueues_mutexRecord _ act syp _)
    · omega
    · rw [(sameQueues_mutexRecord _ act syp _).state]
      exact hact
  split
  · exact htake.congr (sameQueues_mutexRecord _ act syp _)
  · exact htake

theorem syncMutexLock_cases (hs : s.syncMutexLock cfg fuel act syp noCeiling imto = some s') :
    s' = s ∨
    (s.owner syp = .free ∧ (s.mutexOutranks act syp ∨ s.acquireMutex act) ∧
      s' = (s.setWaitBit syp true).mutexAcquire act syp (s.lockCeiling cfg syp noCeiling)) ∨
    (s.owner syp ≠ .free ∧
      (s.setWaitBit syp true).mutexBlock cfg fuel act syp (s.owner syp).thread? imto = some s') ∨
    (s.owner syp = .free ∧ s.mutexOutranks act syp = false ∧
      ((s.setWaitBit syp true).mutexRewake syp).mutexBlock cfg fuel act syp none imto =
        some s') := by
  unfold MutexSt.syncMutexLock at hs
  split at hs
  · cases hs
    exact .inl rfl
  split at hs
  · cases hs
    exact .inl rfl
  dsimp only at hs
  split at hs
  · rename_i hfirst
    rw [Bool.or_eq_true] at hfirst
    split at hs
    · rename_i hfree
      cases hs
      exact .inr (.inl ⟨hfree, hfirst, rfl⟩)
    · rename_i hfree
      exact .inr (.inr (.inl ⟨hfree, hs⟩))
  rename_i hfirst
  simp only [Bool.or_eq_true, not_or, Bool.not_eq_true] at hfirst
  split at hs
  · rename_i hfree
    exact .inr (.inr (.inr ⟨hfree, hfirst.1, hs⟩))
  · rename_i hfree
    exact .inr (.inr (.inl ⟨hfree, hs⟩))

theorem QueueInv.syncMutexLock (h : QueueInv s)
    (hact : (s.state act).onMutex = false) (hc : ServersClear cfg s (s.priority act))
    (hs : s.syncMutexLock cfg fuel act syp noCeiling imto = some s') : QueueInv s' := by
  have hw : QueueInv (s.setWaitBit syp true) := h.congr ⟨rfl, rfl, rfl, rfl, rfl⟩
  obtain rfl | ⟨-, -, rfl⟩ | ⟨-, hs⟩ | ⟨-, -, hs⟩ := syncMutexLock_cases hs
  · exact h
  · exact hw.mutexAcquire hact
  · refine hw.mutexBlock hact hc ?_ hs
    intro thp hthp
    exact .inl ⟨syp, .inl (MOwner.thread?_eq_some.mp hthp)⟩
  · obtain ⟨hprio, hst⟩ := eases_mutexRewake (s.setWaitBit syp true) syp
    refine (hw.mutexRewake syp).mutexBlock (hst act hact) ?_ (by simp) hs
    rw [hprio]
    exact ServersClear.narrow (s := s.setWaitBit syp true) hc (narrows_mutexRewake _ syp)

theorem QueueInv.mutexHandOn (h : QueueInv s) (syp : Nat) : QueueInv (s.mutexHandOn syp) := by
  have h1 := (h.congr (sameQueues_unhold s syp)).syncWakeup syp
  unfold MutexSt.mutexHandOn
  split
  · dsimp only
    split
    · refine QueueInv.congr ?_ (sameQueues_setHeadOwner _ syp none)
      exact h1.congr ⟨rfl, rfl, rfl, rfl, rfl⟩
    split
    · exact h1.congr (sameQueues_setHeadOwner _ syp none)
    · exact h1
  · exact h

theorem heldPriority_pos (h : QueueInv s) (thp : Nat) : 0 < s.heldPriority thp := by
  have := h.real_pos thp
  unfold heldPriority
  split
  · omega
  · exact this

theorem QueueInv.mutexSettle (h : QueueInv s) (hact : (s.state act).onMutex = false) :
    QueueInv (s.mutexSettle act) := by
  unfold MutexSt.mutexSettle
  split
  · exact h.adjustPriority (heldPriority_pos h act) hact
  · exact h

theorem sameQueues_mutexRelease (s : MutexSt) (act syp : Nat) :
    SameQueues s (s.mutexRelease act syp) := by
  unfold mutexRelease
  split
  · exact ⟨rfl, rfl, rfl, rfl, rfl⟩
  · exact .refl s

theorem eases_mutexHandOn (s : MutexSt) (syp : Nat) : Eases s (s.mutexHandOn syp) := by
  have h1 := (sameQueues_unhold s syp).eases.trans (eases_syncWakeup _ syp)
  unfold mutexHandOn
  split
  · dsimp only
    split
    · exact h1.trans (sameQueues_setHeadOwner (setWaitBit _ syp true) syp none).eases
    split
    · exact h1.trans (sameQueues_setHeadOwner _ syp none).eases
    · exact h1
  · exact (SameQueues.refl s).eases

theorem QueueInv.syncMutexUnlock (h : QueueInv s)
    (hact : (s.state act).onMutex = false) : QueueInv (s.syncMutexUnlock act syp) := by
  have hrel := sameQueues_mutexRelease s act syp
  refine ((h.congr hrel).mutexHandOn syp).mutexSettle ?_
  apply (eases_mutexHandOn _ syp).2
  rw [hrel.state]
  exact hact

def CeilingFits (s : MutexSt) (syp ceiling : Nat) : Prop :=
  ∀ l r, s.waiting syp = l ++ .ceiling :: r →
    (∀ e ∈ l, ceiling ≤ s.entryPriority syp e) ∧ ∀ e ∈ r, s.entryPriority syp e ≤ ceiling

theorem QueueInv.mutexSetPrioceiling (h : QueueInv s)
    (hfit : s.CeilingFits syp ceiling) : QueueInv (s.mutexSetPrioceiling syp ceiling) := by
  unfold MutexSt.mutexSetPrioceiling
  split
  swap
  · exact h
  rename_i hmem
  refine ⟨?_, h.nodup, h.blocked, h.pos, h.real_pos⟩
  intro syp'
  have hother : ∀ e, (syp' = syp → e ≠ .ceiling) →
      ({ s with ceilPriority := update s.ceilPriority syp ceiling } :
        MutexSt).entryPriority syp' e = s.entryPriority syp' e := by
    intro e hne
    cases e with
    | thread t => rfl
    | event p => rfl
    | ceiling =>
      have hsyp : syp' ≠ syp := fun heq => hne heq rfl
      simp [MutexSt.entryPriority, hsyp]
  by_cases hsyp : syp' = syp
  · subst hsyp
    obtain ⟨l, r, hlr⟩ := append_of_mem hmem
    obtain ⟨hl, hr⟩ := hfit l r hlr
    have hord := h.ordered syp'
    have hnd := h.nodup syp'
    rw [hlr] at hord hnd
    obtain ⟨-, hndr, hdis⟩ := nodup_append.mp hnd
    have hlne : ∀ e ∈ l, e ≠ .ceiling := fun e he => hdis e he _ mem_cons_self
    have hrne : ∀ e ∈ r, e ≠ .ceiling := by
      rintro e he rfl
      exact (nodup_cons.mp hndr).1 he
    obtain ⟨hordl, hordr, hcross⟩ := pairwise_append.mp hord
    rw [hlr]
    refine pairwise_append.mpr ⟨?_, pairwise_cons.mpr ⟨?_, ?_⟩, ?_⟩
    · exact Ordered.congr_key hordl fun e he => hother e fun _ => hlne e he
    · intro e he
      rw [hother e fun _ => hrne e he]
      simpa [MutexSt.entryPriority] using hr e he
    · exact Ordered.congr_key (pairwise_cons.mp hordr).2 fun e he => hother e fun _ => hrne e he
    · intro e he e' he'
      rw [hother e fun _ => hlne e he]
      rcases mem_cons.mp he' with rfl | he'
      · simpa [MutexSt.entryPriority] using hl e he
      · rw [hother e' fun _ => hrne e' he']
        exact hcross e he e' (mem_cons_of_mem _ he')
  · exact (h.ordered syp').congr_key fun e _ => hother e fun heq => absurd heq hsyp

theorem QueueInv.unlink_event (h : QueueInv s) (syp p : Nat) :
    QueueInv (s.link2Rem syp (.event p)) where
  ordered := by
    intro syp'
    by_cases hsyp : syp' = syp
    · subst hsyp
      simpa using (h.ordered syp').sublist erase_sublist
    · simpa [hsyp] using h.ordered syp'
  nodup := by
    intro syp'
    by_cases hsyp : syp' = syp
    · subst hsyp
      simpa using (h.nodup syp').erase _
    · simpa [hsyp] using h.nodup syp'
  blocked := by
    intro syp' t
    by_cases hsyp : syp' = syp
    · subst hsyp
      rw [link2Rem_waiting, update_self, mem_erase_of_ne (by simp)]
      exact h.blocked syp' t
    · simpa [hsyp] using h.blocked syp' t
  pos := h.pos
  real_pos := h.real_pos

theorem QueueInv.ctlSetEvent (h : QueueInv s) (p syp : Nat) (event alloc : Bool) :
    QueueInv (s.ctlSetEvent p syp event alloc) := by
  unfold MutexSt.ctlSetEvent
  split
  · split
    · exact h
    · exact h.unlink_event syp p
  rename_i hnew
  split
  · exact h.link_event hnew
  · exact h

theorem sameQueues_mutexAcquire (s : MutexSt) (act syp : Nat) :
    SameQueues s (s.mutexAcquire act syp 0) := by
  have htake : SameQueues s (s.mutexTake act syp) := ⟨rfl, rfl, rfl, rfl, rfl⟩
  unfold mutexAcquire
  rw [if_neg (by simp)]
  split
  · exact htake.trans (sameQueues_mutexRecord _ act syp _)
  · exact htake

/-! ## What a lock leaves alone -/

theorem owner_setHeadOwner (s : MutexSt) (syp : Nat) (o : Option Nat) :
    (s.setHeadOwner syp o).owner = s.owner := by
  unfold setHeadOwner
  split <;> rfl

theorem owner_unhold (s : MutexSt) (syp : Nat) : (s.unhold syp).owner = s.owner := by
  unfold unhold
  split <;> rfl

theorem owner_unlinkHead (s : MutexSt) (syp : Nat) : (s.unlinkHead syp).owner = s.owner := by
  unfold unlinkHead
  split
  · exact owner_setHeadOwner _ syp none
  · rfl

theorem owner_mutexOutrank (s : MutexSt) (act syp : Nat) :
    (s.mutexOutrank act syp).owner = s.owner := by
  unfold mutexOutrank
  split
  · split
    · exact owner_unlinkHead s syp
    · rfl
  · rfl

theorem owner_passOn {thp2 : Nat} {rest : MutexSt → Nat → Option MutexSt}
    (hrest : ∀ s thp s', rest s thp = some s' → s'.owner = s.owner)
    (hs : s.passOn rest prio syp owner thp2 = some s') : s'.owner = s.owner := by
  unfold passOn at hs
  cases owner with
  | none =>
    cases hs
    rfl
  | some thp =>
    dsimp only at hs
    split at hs
    · rw [hrest _ thp s' hs]
      rfl
    · cases hs
      rfl

theorem owner_chkstate (prio fuel : Nat) (s : MutexSt) (thp : Nat) (s' : MutexSt)
    (hs : chkstate cfg prio fuel s thp = some s') : s'.owner = s.owner := by
  induction fuel generalizing s thp s' with
  | zero => cases hs
  | succ fuel ih =>
    rcases chkstate_cases hs with ⟨-, rfl | ⟨chp, -, -, rfl⟩ | ⟨chp, v, -, -, hs⟩⟩ | ⟨syp, hst⟩
    · rfl
    · rfl
    · rw [ih _ _ _ hs]
      rfl
    simp only [chkstate, hst] at hs
    split at hs
    · rw [owner_passOn ih hs, owner_unhold]
    split at hs
    · rw [owner_passOn ih hs]
      exact (owner_setHeadOwner _ _ none).trans (owner_unhold _ _)
    · cases hs
      rfl

theorem owner_mutexBlock
    (hs : s.mutexBlock cfg fuel act syp owner imto = some s') : s'.owner = s.owner := by
  unfold mutexBlock at hs
  split at hs
  · cases hs
    rfl
  dsimp only at hs
  split at hs
  · cases hs
    exact owner_mutexOutrank _ act syp
  split at hs
  · rw [owner_passOn (owner_chkstate _ fuel) hs]
    exact owner_mutexOutrank _ act syp
  · cases hs
    exact owner_mutexOutrank _ act syp

theorem owner_syncWakeup (s : MutexSt) (syp : Nat) : (s.syncWakeup syp).owner = s.owner := by
  unfold syncWakeup
  split <;> rfl

theorem owner_mutexRewake (s : MutexSt) (syp : Nat) : (s.mutexRewake syp).owner = s.owner := by
  have h1 := (owner_syncWakeup _ syp).trans (owner_unlinkHead s syp)
  unfold mutexRewake
  split
  · dsimp only
    split
    · rw [owner_setHeadOwner]
      exact h1
    · exact h1
  · rfl

theorem syncMutexLock_took (hs : s.syncMutexLock cfg fuel act syp noCeiling imto = some s')
    (hbefore : s.owner syp ≠ .held act) (hafter : s'.owner syp = .held act) :
    s' = (s.setWaitBit syp true).mutexAcquire act syp (s.lockCeiling cfg syp noCeiling) := by
  obtain rfl | ⟨-, -, rfl⟩ | ⟨-, hs⟩ | ⟨-, -, hs⟩ := syncMutexLock_cases hs
  · exact absurd hafter hbefore
  · rfl
  · rw [owner_mutexBlock hs] at hafter
    exact absurd hafter hbefore
  · rw [owner_mutexBlock hs, owner_mutexRewake] at hafter
    exact absurd hafter hbefore

theorem QueueInv.ctlSetPrioceiling (h : QueueInv s)
    (hact : (s.state act).onMutex = false) (hc : ServersClear cfg s (s.priority act))
    (hfit : s.CeilingFits syp ceiling)
    (hs : s.ctlSetPrioceiling cfg fuel act syp ceiling imto = some s') : QueueInv s' := by
  unfold MutexSt.ctlSetPrioceiling at hs
  split at hs
  · cases hs
    exact h
  split at hs
  · cases hs
    exact h
  split at hs
  · cases hs
    exact h.mutexSetPrioceiling hfit
  rename_i hbefore
  obtain ⟨s1, hlock, rfl⟩ := Option.map_eq_some_iff.mp hs
  have h1 := h.syncMutexLock hact hc hlock
  split
  · rename_i hafter
    -- a lock without the ceiling protocol leaves queues and priorities as they are
    have htook := syncMutexLock_took hlock hbefore hafter
    have hsame : SameQueues s s1 := by
      have hzero : s.lockCeiling cfg syp true = 0 := by simp [lockCeiling, lockProtects]
      rw [htook, hzero]
      have hbit : SameQueues s (s.setWaitBit syp true) := ⟨rfl, rfl, rfl, rfl, rfl⟩
      exact hbit.trans (sameQueues_mutexAcquire _ act syp)
    have hfit1 : s1.CeilingFits syp ceiling := by
      intro l r hlr
      rw [hsame.waiting] at hlr
      rw [hsame.entryPriority]
      exact hfit l r hlr
    apply (h1.mutexSetPrioceiling hfit1).syncMutexUnlock
    have hst : (s1.mutexSetPrioceiling syp ceiling).state = s1.state := by
      unfold MutexSt.mutexSetPrioceiling
      split <;> rfl
    rw [hst, hsame.state]
    exact hact
  · exact h1.congr ⟨rfl, rfl, rfl, rfl, rfl⟩

end MutexSt

/-! ## Runs -/

def MutexOp.onQueue : MutexOp → Bool
  | .forceReady _ | .schedThread _ _ | .adjustPriority _ _ => false
  | _ => true

open MutexSt in
/-- No queued entry changes its priority where it stands: a new ceiling lies between the
priorities of the neighbours of the ceiling entry, and a boost through a SEND-blocked thread meets
no server thread in a mutex queue. -/
def MutexOp.QueueSafe (cfg : MutexCfg) (s : MutexSt) : MutexOp → Prop
  | .lock act _ _ _ => ServersClear cfg s (s.priority act)
  | .specretAcquire thp _ => ServersClear cfg s (s.priority thp)
  | .setPrioceiling act syp ceiling _ =>
    s.CeilingFits syp ceiling ∧ ServersClear cfg s (s.priority act)
  | .specretCeiling thp => s.CeilingFits (s.muMutex thp) (s.muCeiling thp)
  | _ => True

namespace MutexSt

variable {cfg : MutexCfg} {s s' : MutexSt}

theorem QueueInv.of_fresh (h : s.Fresh cfg) : QueueInv s where
  ordered := by
    intro syp
    rw [h.waiting]
    split
    · exact pairwise_singleton _ _
    · exact Pairwise.nil
  nodup := by
    intro syp
    rw [h.waiting]
    split <;> simp
  blocked := by
    intro syp thp
    have hoff := h.off thp
    rw [h.waiting]
    constructor
    · split <;> simp
    · intro hst
      rw [hst] at hoff
      cases hoff
  pos thp := (h.pos thp).trans_le (h.real thp)
  real_pos := h.pos

variable {thp : Nat}

theorem QueueInv.become (h : QueueInv s) {state : MState}
    (hold : (s.state thp).onMutex = false) (hnew : state.onMutex = false) :
    QueueInv { s with state := update s.state thp state } := by
  refine ⟨?_, h.nodup, ?_, h.pos, h.real_pos⟩
  · intro syp
    apply (h.ordered syp).congr_key
    intro e _
    rfl
  · intro syp t
    by_cases ht : t = thp
    · subst ht
      have h1 : s.state t ≠ .mutex syp := by
        intro heq
        rw [heq] at hold
        cases hold
      have h2 : state ≠ .mutex syp := by
        rintro rfl
        cases hnew
      simpa [h2] using h.not_queued h1
    · simpa [ht] using h.blocked syp t

theorem running_off {thp : Nat} (h : s.state thp = .running) : (s.state thp).onMutex = false := by
  rw [h]
  rfl

theorem QueueInv.step {fuel : Nat} {o : MutexOp} (h : QueueInv s) (hl : o.Legal s)
    (hq : o.onQueue = true) (hsafe : o.QueueSafe cfg s) (hs : mutexStep cfg fuel s o = some s') :
    QueueInv s' := by
  cases o with
  | lock act syp noCeiling imto => exact h.syncMutexLock (running_off hl) hsafe hs
  | unlock act syp =>
    cases hs
    exact h.syncMutexUnlock (running_off hl)
  | setPrioceiling act syp ceiling imto =>
    exact h.ctlSetPrioceiling (running_off hl) hsafe.2 hsafe.1 hs
  | setEvent process syp event alloc =>
    cases hs
    exact h.ctlSetEvent process syp event alloc
  | specretAcquire thp imto =>
    obtain ⟨s1, hlock, rfl⟩ := Option.map_eq_some_iff.mp hs
    exact (h.syncMutexLock (running_off hl.1) hsafe hlock).congr ⟨rfl, rfl, rfl, rfl, rfl⟩
  | specretCeiling thp =>
    cases hs
    apply (h.mutexSetPrioceiling hsafe).syncMutexUnlock
    have hst : (s.mutexSetPrioceiling (s.muMutex thp) (s.muCeiling thp)).state = s.state := by
      unfold MutexSt.mutexSetPrioceiling
      split <;> rfl
    rw [hst]
    exact running_off hl.1
  | forceReady thp => cases hq
  | schedThread thp prio => cases hq
  | adjustPriority thp prio => cases hq
  | become thp state =>
    cases hs
    exact h.become hl.1 hl.2
  | receive thp chid =>
    cases hs
    exact h.congr ⟨rfl, rfl, rfl, rfl, rfl⟩

/-- The queues are in order, and `sync_wakeup(syp, 0)` readies a waiting thread that no waiting
thread outranks. -/
structure QueuesInOrder (s : MutexSt) : Prop where
  ordered : ∀ syp, Ordered (s.entryPriority syp) (s.waiting syp)
  wakes : ∀ syp thp, .thread thp ∈ s.waiting syp →
    ∃ top, .thread top ∈ s.waiting syp ∧ (s.syncWakeup syp).state top = .running ∧
      .thread top ∉ (s.syncWakeup syp).waiting syp ∧
      ∀ t, .thread t ∈ s.waiting syp → s.priority t ≤ s.priority top

theorem QueueInv.wakeupPick_some (h : QueueInv s) {syp : Nat} (hmem : .thread thp ∈ s.waiting syp) :
    ∃ top rest, wakeupPick (s.waiting syp) = some (top, rest) ∧
      ∀ t, .thread t ∈ s.waiting syp → s.priority t ≤ s.priority top := by
  have hord := h.ordered syp
  have hnd := h.nodup syp
  generalize s.waiting syp = l at hmem hord hnd
  -- an event has priority zero: no thread stands behind it
  have hbehind : ∀ p l', Ordered (s.entryPriority syp) (.event p :: l') → .thread thp ∉ l' := by
    intro p l' ho hm
    have hle := ho.head_le hm
    have := h.pos thp
    simp only [MutexSt.entryPriority] at hle
    omega
  cases l with
  | nil => cases hmem
  | cons e l =>
    cases e with
    | thread top =>
      refine ⟨top, l, rfl, ?_⟩
      intro t ht
      rcases mem_cons.mp ht with heq | ht
      · cases heq
        exact le_rfl
      · simpa [MutexSt.entryPriority] using hord.head_le ht
    | event p => exact absurd (by simpa using hmem) (hbehind p l hord)
    | ceiling =>
      have hl : .thread thp ∈ l := by simpa using hmem
      have hordl := (pairwise_cons.mp hord).2
      cases l with
      | nil => cases hl
      | cons e l =>
        cases e with
        | thread top =>
          refine ⟨top, .ceiling :: l, rfl, ?_⟩
          intro t ht
          have ht : MEntry.thread t ∈ MEntry.thread top :: l := by simpa using ht
          rcases mem_cons.mp ht with heq | ht
          · cases heq
            exact le_rfl
          · simpa [MutexSt.entryPriority] using Ordered.head_le hordl ht
        | event p => exact absurd (by simpa using hl) (hbehind p l hordl)
        | ceiling => exact absurd mem_cons_self (nodup_cons.mp hnd).1

theorem QueueInv.inOrder (h : QueueInv s) : QueuesInOrder s where
  ordered := h.ordered
  wakes := by
    intro syp thp hmem
    obtain ⟨top, rest, hpick, htop⟩ := h.wakeupPick_some hmem
    obtain ⟨hperm, -⟩ := wakeupPick_spec hpick
    have hnd := hperm.nodup_iff.mp (h.nodup syp)
    refine ⟨top, hperm.mem_iff.mpr mem_cons_self, ?_, ?_, htop⟩
    · simp [MutexSt.syncWakeup, hpick]
    · simpa [MutexSt.syncWakeup, hpick] using (nodup_cons.mp hnd).1

end MutexSt

namespace MutexRun

open MutexSt

variable {cfg : MutexCfg} {fuel : Nat} {s : MutexSt}

theorem waiting_in_order (h : Reach (Fresh cfg)
      (fun s o => o.Legal s ∧ o.onQueue = true ∧ o.QueueSafe cfg s) (mutexStep cfg fuel) s) :
    s.QueuesInOrder := by
  apply QueueInv.inOrder
  refine h.invariant (fun _ => QueueInv.of_fresh) ?_
  intro s o s' hinv hok hs
  exact hinv.step hok.1 hok.2.1 hok.2.2 hs

def startCfg : MutexCfg where
  prioceiling syp := syp = 0
  prionone _ := false
  fixedPriority _ := false
  chanProcess _ := 0
  process _ := 0
  root _ := true
  privPrio := 64

def start : MutexSt where
  priority thp := if thp = 0 then 5 else if thp = 1 then 8 else 7
  realPriority thp := if thp = 0 then 5 else if thp = 1 then 8 else 7
  state _ := .running
  lastChid _ := 0
  acquireMutex _ := false
  mutexCeiling _ := false
  muOwner _ := none
  muMutex _ := 0
  muCeiling _ := 0
  holdlist _ := []
  waiting syp := if syp = 0 then [.ceiling] else []
  owner _ := .free
  waitBit _ := false
  ceilPriority _ := 10
  ceilOwner _ := none

theorem fresh_start : start.Fresh startCfg where
  waiting syp := by simp [start, startCfg]
  owner _ := rfl
  ceilOwner _ := rfl
  off _ := rfl
  holdlist _ := rfl
  acquire _ := rfl
  pos thp := by
    simp only [start]
    split
    · omega
    · split <;> omega
  real _ := le_rfl

theorem waiting_in_order_run :
    ∃ s, Reach (Fresh startCfg) (fun s o => o.Legal s ∧ o.onQueue = true ∧ o.QueueSafe startCfg s)
      (mutexStep startCfg 4) s ∧ (s.waiting 1 = [.thread 1, .thread 2] ∧ s.priority 0 = 8) ∧
      s.QueuesInOrder := by
  have h0 : Reach (Fresh startCfg)
      (fun s o => o.Legal s ∧ o.onQueue = true ∧ o.QueueSafe startCfg s) (mutexStep startCfg 4)
      start := .init fresh_start
  have h1 := Reach.step (o := MutexOp.lock 0 1 false false) h0
    (show _ ∧ _ ∧ _ from ⟨rfl, rfl, by rintro _ _ _ _ ⟨⟩⟩) rfl
  have h2 := Reach.step (o := MutexOp.lock 2 1 false false) h1
    (show _ ∧ _ ∧ _ from ⟨rfl, rfl, by rintro _ _ _ _ ⟨⟩⟩) rfl
  have h3 := Reach.step (o := MutexOp.lock 1 1 false false) h2 (show _ ∧ _ ∧ _ from ⟨rfl, rfl, by
      intro t chp _ _ hsend
      change update (fun _ => MState.running) 2 (.mutex 1) t = .send chp at hsend
      by_cases ht : t = 2 <;> simp [ht] at hsend⟩) rfl
  exact ⟨_, h3, by decide +kernel, waiting_in_order h3⟩

/-- A ceiling lowered below a waiter: a thread between the two then blocks ahead of that waiter. -/
theorem waiting_out_of_order : ∃ s, Reach (Fresh startCfg) (fun s o => o.Legal s ∧ o.onQueue = true)
      (mutexStep startCfg 4) s ∧ ¬s.QueuesInOrder := by
  have h0 : Reach (Fresh startCfg) (fun s o => o.Legal s ∧ o.onQueue = true)
      (mutexStep startCfg 4) start := .init fresh_start
  obtain ⟨s, hreach, hs⟩ := h0.replay_any
    [.lock 0 0 false false, .lock 1 0 false false, .setPrioceiling 0 0 6 false,
      .setPrioceiling 2 0 6 false]
    (fun s => s.waiting 0 = [.thread 2, .ceiling, .thread 1] ∧ s.priority 2 < s.priority 1)
    (by decide +kernel)
  obtain ⟨hw, hlt⟩ := of_decide_eq_true hs
  refine ⟨s, hreach, ?_⟩
  intro hord
  have h := hord.ordered 0
  rw [hw] at h
  have hle := h.head_le (b := .thread 1) (by simp)
  simp only [entryPriority] at hle
  omega

end MutexRun

end Qnx.Ker
