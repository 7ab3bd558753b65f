import Qnx.Ker.MutexPriority

/-!
# Priority inheritance over whole runs

Unlock, forced wake-up of a waiter and changes of priority, runs of all calls, and the runs on
which an owner falls behind its waiters.
-/

namespace Qnx.Ker

open Run List Function

namespace MutexSt

variable {cfg : MutexCfg} {s s' : MutexSt}

/-- `w` waits on a mutex with priority inheritance that `t` owns. -/
def WaitsFor (cfg : MutexCfg) (s : MutexSt) (w t : Nat) : Prop :=
  ∃ syp, cfg.prionone syp = false ∧ .thread w ∈ s.waiting syp ∧ s.owner syp = .held t

section

variable (h : Inherits none s.priority s)
include h

theorem Inherits.waitsFor_le {w t : Nat}
    (hw : s.WaitsFor cfg w t) : s.priority w ≤ s.priority t := by
  obtain ⟨syp, -, hmem, ho⟩ := hw
  exact (h.queues.le_head hmem).trans (h.above syp t ho (by simp))

theorem Inherits.heldPriority_greatest (hpn : ∀ syp, cfg.prionone syp = false) (thp : Nat) :
    IsGreatest ({s.realPriority thp} ∪ {p | ∃ w, s.WaitsFor cfg w thp ∧ p = s.priority w})
      (s.heldPriority thp) := by
  constructor
  · unfold heldPriority
    split
    · rename_i syp rest hhold
      have hmem : syp ∈ s.holdlist thp := by rw [hhold]; exact mem_cons_self
      obtain ⟨ho, hne, -⟩ := (h.linked syp thp).mp hmem
      rcases h.head syp with hw | ⟨w, rest, hw⟩
      · exact absurd hw hne
      have hhd : (s.waiting syp).head? = some (.thread w) := by rw [hw]; rfl
      rw [headPriority_of_head hhd]
      rcases Nat.le_total (s.realPriority thp) (s.priority w) with hle | hle
      · right
        exact ⟨w, ⟨syp, hpn syp, mem_of_mem_head? hhd, ho⟩, Nat.max_eq_right hle⟩
      · left
        exact Nat.max_eq_left hle
    · exact .inl rfl
  · rintro p (rfl | ⟨w, ⟨syp, -, hmem, ho⟩, rfl⟩)
    · exact realPriority_le_heldPriority s thp
    · exact (h.queues.le_head hmem).trans (h.heldPriority_ge ho)

theorem Inherits.heldPriority_adjust {thp prio : Nat} (hoff : (s.state thp).onMutex = false) :
    (s.adjustPriority thp prio).heldPriority thp = s.heldPriority thp := by
  have hhead : (s.adjustPriority thp prio).headPriority = s.headPriority := by
    funext syp
    apply headPriority_adjustPriority
    intro hhd
    rw [(h.queues.blocked syp thp).mp (mem_of_mem_head? hhd)] at hoff
    cases hoff
  unfold heldPriority
  rw [hhead]
  rfl

theorem Inherits.syncMutexUnlock {act syp : Nat} (hact : (s.state act).onMutex = false)
    (hsafe : s.waiting syp = [] ∨ ∀ thp, s.owner syp = .held thp → thp = act) :
    let s' := s.syncMutexUnlock act syp
    Inherits none s'.priority s' ∧ s'.priority act = s'.heldPriority act := by
  have hrel := sameQueues_mutexRelease s act syp
  obtain ⟨hprio, hst⟩ := eases_mutexHandOn (s.mutexRelease act syp) syp
  rw [hrel.priority] at hprio
  rw [hrel.state] at hst
  have h1 := h.mutexHandOn hsafe
  rw [← hprio] at h1
  have hoff := hst act hact
  unfold MutexSt.syncMutexUnlock
  rw [mutexSettle_eq h1]
  refine ⟨h1.drop hoff, ?_⟩
  rw [h1.heldPriority_adjust hoff]
  simp

end

/-! ## Forced wake-up -/

theorem setHeadOwner_mutexholdlistPri (s : MutexSt) (thp syp : Nat) (o : Option Nat) :
    (s.mutexholdlistPri thp syp).setHeadOwner syp o =
      (s.setHeadOwner syp o).mutexholdlistPri thp syp := by
  unfold setHeadOwner
  rw [mutexholdlistPri_waiting]
  split <;> rfl

theorem Inherits.mutexRelink {syp : Nat} {lim : Nat → Nat} (h : Inherits (some syp) lim s)
    (hle : ∀ thp, s.owner syp = .held thp → s.headPriority syp ≤ lim thp) :
    Inherits none lim (s.mutexRelink syp (s.owner syp).thread?) := by
  unfold MutexSt.mutexRelink
  rcases h.head syp with hw | ⟨w, rest, hw⟩
  · simp only [hw]
    exact h.admit_empty hw
  have hhd : (s.waiting syp).head? = some (.thread w) := by rw [hw]; rfl
  simp only [hhd]
  cases ho : (s.owner syp).thread? with
  | none => exact h.reset_head ho
  | some thp =>
    have hheld := MOwner.thread?_eq_some.mp ho
    have hsame := sameQueues_setHeadOwner s syp (some thp)
    dsimp only
    rw [setHeadOwner_mutexholdlistPri]
    refine (h.setHeadOwner (some thp)).admit_held ?_ (by rw [owner_setHeadOwner, hheld])
      (by simp [hsame.waiting, hw]) ?_
    · intro t ht
      rw [hsame.waiting] at ht
      exact muOwner_setHeadOwner_head ht
    · have hhp : (s.setHeadOwner syp (some thp)).headPriority syp = s.headPriority syp := by
        refine headPriority_congr (by rw [hsame.waiting]) ?_
        intro e _
        rw [hsame.entryPriority]
      rw [hhp]
      exact hle thp hheld

theorem readied_setHeadOwner (s : MutexSt) (thp syp : Nat) (o : Option Nat) :
    (s.setHeadOwner syp o).readied thp = (s.readied thp).setHeadOwner syp o := by
  have hw : (s.readied thp).waiting syp = s.waiting syp := rfl
  unfold MutexSt.setHeadOwner
  rw [hw]
  split <;> rfl

theorem readied_mutexRelink (s : MutexSt) (thp syp : Nat) (o : Option Nat) :
    (s.mutexRelink syp o).readied thp = (s.readied thp).mutexRelink syp o := by
  have hw : (s.readied thp).waiting syp = s.waiting syp := rfl
  unfold MutexSt.mutexRelink
  rw [hw]
  split
  · cases o with
    | none => exact readied_setHeadOwner s thp syp none
    | some u => exact readied_setHeadOwner (s.mutexholdlistPri u syp) thp syp (some u)
  · rfl

theorem priorityChainDrop_off {fuel thp : Nat} (hoff : (s.state thp).onMutex = false)
    (hs : priorityChainDrop fuel s thp = some s') :
    s' = s ∨ s' = s.adjustPriority thp (s.heldPriority thp) := by
  cases fuel with
  | zero => cases hs
  | succ fuel =>
    unfold priorityChainDrop at hs
    split at hs
    · right
      cases hst : s.state thp with
      | mutex syp =>
        rw [hst] at hoff
        cases hoff
      | running => simpa [hst] using hs.symm
      | send chp => simpa [hst] using hs.symm
      | reply chp server => simpa [hst] using hs.symm
      | other => simpa [hst] using hs.symm
    · cases hs
      exact .inl rfl

theorem mutexRelink_threads (s : MutexSt) (syp : Nat) (o : Option Nat) :
    (s.mutexRelink syp o).state = s.state ∧ (s.mutexRelink syp o).priority = s.priority ∧
      (s.mutexRelink syp o).realPriority = s.realPriority := by
  unfold MutexSt.mutexRelink
  split
  · cases o with
    | none =>
      have h := sameQueues_setHeadOwner s syp none
      exact ⟨h.state, h.priority, h.realPriority⟩
    | some u =>
      have h := sameQueues_setHeadOwner (s.mutexholdlistPri u syp) syp (some u)
      exact ⟨h.state, h.priority, h.realPriority⟩
  · exact ⟨rfl, rfl, rfl⟩

section

variable (h : Inherits none s.priority s)
include h

theorem Inherits.leave_inner {thp syp : Nat}
    (hst : s.state thp = .mutex syp) (hhd : (s.waiting syp).head? ≠ some (.thread thp)) :
    Inherits none s.priority ((s.link2Rem syp (.thread thp)).readied thp) := by
  have hmem := (h.queues.blocked syp thp).mpr hst
  refine h.same_heads ?_ ?_ ?_ (fun _ _ _ => ⟨rfl, rfl⟩) rfl rfl h.real
  · exact h.queues.unblock (perm_cons_erase hmem) erase_sublist ⟨rfl, rfl, rfl, rfl, rfl⟩
  · intro syp' e he
    by_cases hne : syp' = syp
    · subst hne
      simp only [readied, link2Rem_waiting, update_self] at he
      exact h.threads syp' e (mem_of_mem_erase he)
    · simp only [readied, link2Rem_waiting, update_of_ne hne] at he
      exact h.threads syp' e he
  · intro syp'
    by_cases hne : syp' = syp
    · subst hne
      simp only [readied, link2Rem_waiting, update_self]
      rcases h.head syp' with hw | ⟨w, rest, hw⟩
      · simp [hw]
      have hw' : MEntry.thread w ≠ .thread thp := by
        intro heq
        exact hhd (by rw [hw, heq]; rfl)
      rw [hw, erase_cons_tail (by simpa using hw')]
      rfl
    · simp [readied, hne]

theorem Inherits.leave_head {thp syp : Nat}
    (hst : s.state thp = .mutex syp) (hhd : (s.waiting syp).head? = some (.thread thp)) :
    Inherits none s.priority
      ((((s.unhold syp).link2Rem syp (.thread thp)).mutexRelink syp (s.muOwner thp)).readied
        thp) := by
  have hmem := (h.queues.blocked syp thp).mpr hst
  have hun := sameQueues_unhold s syp
  obtain ⟨rest, hw⟩ := head?_eq_some_iff.mp hhd
  have hrest : (s.waiting syp).erase (.thread thp) = rest := by rw [hw]; simp
  rw [readied_mutexRelink]
  set s1 := ((s.unhold syp).link2Rem syp (.thread thp)).readied thp with hs1
  have hw' : s1.waiting syp = rest := by
    simp [hs1, readied, hun.waiting, hrest]
  have hown : s1.owner = s.owner := owner_unhold s syp
  have h1 : Inherits (some syp) s.priority s1 := by
    refine (h.unhold syp).exempt ?_ ?_ ?_ (fun _ _ => rfl) rfl (fun _ _ _ _ => ⟨rfl, rfl⟩)
      (fun _ => le_rfl) (h.unhold syp).real
    · have hmem' : .thread thp ∈ (s.unhold syp).waiting syp := by rw [hun.waiting]; exact hmem
      exact (h.queues.congr hun).unblock (perm_cons_erase hmem') erase_sublist
        ⟨rfl, rfl, rfl, rfl, rfl⟩
    · intro e he
      rw [hw'] at he
      exact h.threads syp e (by rw [hw]; exact mem_cons_of_mem _ he)
    · intro syp' hne
      simp [hs1, readied, hne]
  rw [h.recorded syp thp (by simp) hhd, ← hown]
  apply h1.mutexRelink
  intro t ho
  rw [hown] at ho
  refine Nat.le_trans ?_ (h.above syp t ho (by simp))
  -- the next waiter is not above the one that left
  rw [headPriority_of_head hhd]
  have hord := h.queues.ordered syp
  rw [hw] at hord
  cases hr : rest with
  | nil =>
    rw [headPriority_of_nil (by rw [hw', hr])]
    exact Nat.zero_le _
  | cons e rest' =>
    have hsome : (s1.waiting syp).head? = some e := by
      rw [hw', hr]
      rfl
    rw [headPriority_of_head hsome]
    have hle := hord.head_le (b := e) (by rw [hr]; exact mem_cons_self)
    have hent : s1.entryPriority syp e = s.entryPriority syp e := by
      rw [← hun.entryPriority]
      rfl
    rw [hent]
    exact hle

theorem Inherits.forceReady {fuel thp syp : Nat} (hst : s.state thp = .mutex syp)
    (hsafe : ∀ t, (s.waiting syp).head? = some (.thread thp) → s.owner syp = .held t → t ≠ thp →
      s.priority t = s.priority thp → s.realPriority t < s.priority t →
      (s.state t).onMutex = false)
    (hs : s.forceReady fuel thp syp = some s') : Inherits none s'.priority s' := by
  unfold MutexSt.forceReady at hs
  split at hs
  · rename_i hhd
    have h1 := h.leave_head hst hhd
    obtain ⟨hstate, hprio, hreal⟩ :=
      mutexRelink_threads ((s.unhold syp).link2Rem syp (.thread thp)) syp (s.muOwner thp)
    have hun := sameQueues_unhold s syp
    replace hstate := hstate.trans hun.state
    replace hprio := hprio.trans hun.priority
    replace hreal := hreal.trans hun.realPriority
    rw [← hprio] at h1
    dsimp only at hs
    rw [hprio, hreal] at hs
    cases ho : s.muOwner thp with
    | none =>
      rw [ho] at hs h1
      cases hs
      exact h1
    | some t =>
      have hheld : s.owner syp = .held t := by
        rw [← MOwner.thread?_eq_some, ← h.recorded syp thp (by simp) hhd]
        exact ho
      rw [ho] at hs h1 hstate
      dsimp only at hs
      split at hs
      · rename_i hdrop
        obtain ⟨hne, heq, hlt⟩ := hdrop
        have hoff := hsafe t hhd hheld (fun he => hne he.symm) heq.symm hlt
        obtain ⟨s3, hs3, rfl⟩ := Option.map_eq_some_iff.mp hs
        rw [← hstate] at hoff
        rcases priorityChainDrop_off hoff hs3 with rfl | rfl
        · exact h1
        have hoff' : (((((s.unhold syp).link2Rem syp (.thread thp)).mutexRelink syp
            (some t)).readied thp).state t).onMutex = false := by
          simpa [MutexSt.readied, hne.symm] using hoff
        exact Inherits.drop h1 hoff'
      · cases hs
        exact h1
  · rename_i hhd
    cases hs
    exact h.leave_inner hst hhd

end

end MutexSt

/-! ## Runs -/

def MutexOp.onPriority : MutexOp → Bool
  | .setPrioceiling _ _ _ _ | .setEvent _ _ _ _ | .specretCeiling _ => false
  | _ => true

namespace MutexSt

variable {cfg : MutexCfg} {s s' : MutexSt}

/-- A lock that takes a free mutex as a woken waiter does so at or above the other waiters, and a
boost through a SEND-blocked thread meets no server thread in a mutex queue. -/
def LockSafe (cfg : MutexCfg) (s : MutexSt) (act syp : Nat) : Prop :=
  ServersClear cfg s (s.priority act) ∧ (s.acquireMutex act = true → s.owner syp = .free →
      ∀ w, .thread w ∈ s.waiting syp → s.priority w ≤ s.priority act)

def PrioritySafe (s : MutexSt) (thp prio : Nat) : Prop :=
  (s.state thp).onMutex = false ∧
    ∀ syp w, s.owner syp = .held thp → .thread w ∈ s.waiting syp → s.priority w ≤ prio

end MutexSt

open MutexSt in
/-- The calls that keep inheritance: see `LockSafe` and `PrioritySafe`; a mutex is unlocked by its
owner, or has none, or has no waiters; and an owner whose priority drops because its first waiter
is forced out waits on no mutex itself. -/
def MutexOp.InheritSafe (cfg : MutexCfg) (s : MutexSt) : MutexOp → Prop
  | .lock act syp _ _ => LockSafe cfg s act syp
  | .specretAcquire thp _ => LockSafe cfg s thp (s.muMutex thp)
  | .unlock act syp => s.waiting syp = [] ∨ ∀ thp, s.owner syp = .held thp → thp = act
  | .forceReady thp => ∀ syp t, s.state thp = .mutex syp →
      (s.waiting syp).head? = some (.thread thp) → s.owner syp = .held t → t ≠ thp →
      s.priority t = s.priority thp → s.realPriority t < s.priority t →
      (s.state t).onMutex = false
  | .schedThread thp prio => PrioritySafe s thp prio
  | .adjustPriority thp prio => PrioritySafe s thp prio ∧ s.realPriority thp ≤ prio
  | _ => True

namespace MutexSt

variable {cfg : MutexCfg} {s s' : MutexSt}

theorem Inherits.of_fresh (h : s.Fresh cfg) (hpc : ∀ syp, cfg.prioceiling syp = false) :
    Inherits none s.priority s where
  queues := .of_fresh h
  threads syp e he := by simp [h.waiting, hpc] at he
  recorded syp thp _ hhd := by simp [h.waiting, hpc] at hhd
  linked syp thp := by simp [h.waiting, hpc, h.holdlist]
  nodup thp := by simp [h.holdlist]
  held thp := by
    rw [h.holdlist]
    exact Pairwise.nil
  above syp thp ho _ := by simp [h.owner] at ho
  real := h.real

theorem Inherits.headPriority_le {x : Option Nat} {lim : Nat → Nat} (h : Inherits x lim s)
    {syp prio : Nat} (hle : ∀ w, .thread w ∈ s.waiting syp → s.priority w ≤ prio) :
    s.headPriority syp ≤ prio := by
  rcases h.head syp with hw | ⟨w, rest, hw⟩
  · rw [headPriority_of_nil hw]
    exact Nat.zero_le _
  have hhd : (s.waiting syp).head? = some (.thread w) := by rw [hw]; rfl
  rw [headPriority_of_head hhd]
  exact hle w (mem_of_mem_head? hhd)

section

variable (h : Inherits none s.priority s)
include h

theorem Inherits.allow {thp prio : Nat}
    (hsafe : PrioritySafe s thp prio) : Inherits none (s.adjustPriority thp prio).priority s := by
  refine { h with above := ?_ }
  intro syp t ho hx
  by_cases ht : t = thp
  · subst ht
    simpa using h.headPriority_le fun w hw => hsafe.2 syp w ho hw
  · simpa [ht] using h.above syp t ho hx

theorem Inherits.schedThread {thp prio : Nat} (hp : 0 < prio) (hsafe : PrioritySafe s thp prio) :
    Inherits none (s.schedThread thp prio).priority (s.schedThread thp prio) := by
  refine (h.allow hsafe).set_off hp hsafe.1 ?_ ?_
  · intro t
    by_cases ht : t = thp
    · simpa [ht] using hp
    · simpa [ht] using h.queues.real_pos t
  · intro t
    by_cases ht : t = thp
    · simp [ht]
    · simpa [ht] using h.real t

theorem Inherits.step {fuel : Nat} {o : MutexOp}
    (hpc : ∀ syp, cfg.prioceiling syp = false) (hpn : ∀ syp, cfg.prionone syp = false)
    (hl : o.Legal s) (hop : o.onPriority = true) (hsafe : o.InheritSafe cfg s)
    (hs : mutexStep cfg fuel s o = some s') : Inherits none s'.priority s' := by
  cases o with
  | lock act syp noCeiling imto =>
    refine h.syncMutexLock (running_off hl) hsafe.1 (hpc syp) (hpn syp) ?_ hs
    intro hacq hfree
    exact h.headPriority_le (hsafe.2 hacq hfree)
  | unlock act syp =>
    cases hs
    exact (h.syncMutexUnlock (running_off hl) hsafe).1
  | specretAcquire thp imto =>
    obtain ⟨s1, hlock, rfl⟩ := Option.map_eq_some_iff.mp hs
    have h1 := h.syncMutexLock (running_off hl.1) hsafe.1 (hpc _) (hpn _)
      (fun hacq hfree => h.headPriority_le (hsafe.2 hacq hfree)) hlock
    exact h1.congr ⟨rfl, rfl, rfl, rfl, rfl⟩ rfl rfl rfl
  | forceReady thp =>
    simp only [mutexStep] at hs
    split at hs
    · rename_i syp hst
      exact h.forceReady hst (fun t => hsafe syp t hst) hs
    · cases hs
  | schedThread thp prio =>
    cases hs
    exact h.schedThread hl.1 hsafe
  | adjustPriority thp prio =>
    cases hs
    exact (h.allow hsafe.1).adjust_off hl.1 hsafe.1.1 hsafe.2
  | become thp state =>
    cases hs
    exact h.same_heads (h.queues.become hl.1 hl.2) h.threads (fun _ => rfl)
      (fun _ _ _ => ⟨rfl, rfl⟩) rfl rfl h.real
  | receive thp chid =>
    cases hs
    exact h.congr ⟨rfl, rfl, rfl, rfl, rfl⟩ rfl rfl rfl
  | setPrioceiling act syp ceiling imto => cases hop
  | setEvent process syp event alloc => cases hop
  | specretCeiling thp => cases hop

end

end MutexSt

namespace MutexRun

open MutexSt

variable {cfg : MutexCfg} {fuel : Nat} {s : MutexSt}

/-- No thread waits, directly or along a chain of owners, for one of lower priority, and an unlock
leaves the caller at the highest of its own priority and those of its remaining waiters. -/
structure PriorityInherited (cfg : MutexCfg) (s : MutexSt) : Prop where
  above : ∀ w t, Relation.TransGen (s.WaitsFor cfg) w t → s.priority w ≤ s.priority t
  unlock : ∀ act syp, (MutexOp.unlock act syp).Legal s →
    (MutexOp.unlock act syp).InheritSafe cfg s →
    IsGreatest ({(s.syncMutexUnlock act syp).realPriority act} ∪
      {p | ∃ w, (s.syncMutexUnlock act syp).WaitsFor cfg w act ∧
        p = (s.syncMutexUnlock act syp).priority w})
      ((s.syncMutexUnlock act syp).priority act)

theorem owners_inherit (hkind : ∀ syp, cfg.prioceiling syp = false ∧ cfg.prionone syp = false)
    (h : Reach (Fresh cfg) (fun s o => o.Legal s ∧ o.onPriority = true ∧ o.InheritSafe cfg s)
      (mutexStep cfg fuel) s) : PriorityInherited cfg s := by
  have hinv : Inherits none s.priority s := by
    refine h.invariant (P := fun s => Inherits none s.priority s)
      (fun _ hf => .of_fresh hf fun syp => (hkind syp).1) ?_
    intro s o s' hinv hok hs
    exact hinv.step (fun syp => (hkind syp).1) (fun syp => (hkind syp).2) hok.1 hok.2.1 hok.2.2 hs
  constructor
  · intro w t hwt
    induction hwt with
    | single hw => exact hinv.waitsFor_le hw
    | tail _ hw ih => exact ih.trans (hinv.waitsFor_le hw)
  · intro act syp hl hsafe
    have hoff : (s.state act).onMutex = false := by
      rw [show s.state act = .running from hl]
      rfl
    obtain ⟨h1, heq⟩ := hinv.syncMutexUnlock hoff hsafe
    rw [heq]
    exact h1.heldPriority_greatest (fun syp => (hkind syp).2) act

def inheritCfg : MutexCfg := { startCfg with prioceiling := fun _ => false }

def inheritStart : MutexSt :=
  { start with
    priority := fun thp => if thp = 0 then 1 else if thp = 1 then 5 else if thp = 2 then 10 else 20
    realPriority := fun thp =>
      if thp = 0 then 1 else if thp = 1 then 5 else if thp = 2 then 10 else 20
    waiting := fun _ => [] }

theorem fresh_inheritStart : inheritStart.Fresh inheritCfg where
  waiting _ := rfl
  owner _ := rfl
  ceilOwner _ := rfl
  off _ := rfl
  holdlist _ := rfl
  acquire _ := rfl
  pos thp := by
    simp only [inheritStart]
    split
    · omega
    split
    · omega
    · split <;> omega
  real _ := le_rfl

/-- Thread 3 waits for mutex 1 of thread 1, which waits for mutex 2 of thread 0. -/
theorem owners_inherit_chain : ∃ s, Reach (Fresh inheritCfg)
      (fun s o => o.Legal s ∧ o.onPriority = true ∧ o.InheritSafe inheritCfg s)
      (mutexStep inheritCfg 4) s ∧
      (s.waiting 1 = [.thread 3] ∧ s.waiting 2 = [.thread 1] ∧ s.priority 0 = 20) ∧
      PriorityInherited inheritCfg s := by
  have h0 : Reach (Fresh inheritCfg)
      (fun s o => o.Legal s ∧ o.onPriority = true ∧ o.InheritSafe inheritCfg s)
      (mutexStep inheritCfg 4) inheritStart := .init fresh_inheritStart
  have h1 := Reach.step (o := MutexOp.lock 1 1 false false) h0
    (show _ ∧ _ ∧ _ from ⟨rfl, rfl, by rintro _ _ _ _ ⟨⟩, by rintro ⟨⟩⟩) rfl
  have h2 := Reach.step (o := MutexOp.lock 0 2 false false) h1
    (show _ ∧ _ ∧ _ from ⟨rfl, rfl, by rintro _ _ _ _ ⟨⟩, by rintro ⟨⟩⟩) rfl
  have h3 := Reach.step (o := MutexOp.lock 1 2 false false) h2
    (show _ ∧ _ ∧ _ from ⟨rfl, rfl, by rintro _ _ _ _ ⟨⟩, by rintro ⟨⟩⟩) rfl
  have h4 := Reach.step (o := MutexOp.lock 3 1 false false) h3 (show _ ∧ _ ∧ _ from ⟨rfl, rfl, by
      intro t chp _ _ hsend
      change update (fun _ => MState.running) 1 (.mutex 2) t = .send chp at hsend
      by_cases ht : t = 1 <;> simp [ht] at hsend, by rintro ⟨⟩⟩) rfl
  exact ⟨_, h4, by decide +kernel, owners_inherit (fun _ => ⟨rfl, rfl⟩) h4⟩

/-- Thread 1 holds mutex 1 and waits for mutex 2 of thread 0, as thread 2 does. The wait of thread
3 for mutex 1 times out: thread 1 is lowered where it stands, and thread 0 after it. -/
theorem owner_below_waiter :
    ∃ s, Reach (Fresh inheritCfg) (fun s o => o.Legal s ∧ o.onPriority = true)
      (mutexStep inheritCfg 4) s ∧ ¬PriorityInherited inheritCfg s := by
  have h0 : Reach (Fresh inheritCfg) (fun s o => o.Legal s ∧ o.onPriority = true)
      (mutexStep inheritCfg 4) inheritStart := .init fresh_inheritStart
  obtain ⟨s, hreach, hs⟩ := h0.replay_any
    [.lock 1 1 false false, .lock 0 2 false false, .lock 1 2 false false, .lock 2 2 false false,
      .lock 3 1 false false, .forceReady 3]
    (fun s => .thread 2 ∈ s.waiting 2 ∧ s.owner 2 = .held 0 ∧ s.priority 0 < s.priority 2)
    (by decide +kernel)
  obtain ⟨hmem, ho, hlt⟩ := of_decide_eq_true hs
  refine ⟨s, hreach, ?_⟩
  intro hinh
  have hle := hinh.above 2 0 (.single ⟨2, rfl, hmem, ho⟩)
  omega

end MutexRun

end Qnx.Ker
