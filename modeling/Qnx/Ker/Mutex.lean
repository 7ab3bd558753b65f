import Qnx.Shared.PriQueue
import Qnx.Shared.Run

/-!
# Mutexes

`sync_mutex_lock`, `sync_mutex_unlock`, `mutex_set_prioceiling`, `ker_sync_ctl`, the mutex cases
of `specialret` and `force_ready`, and `priority_chain_drop`, on one processor. Threads, sync
objects and channels are numbers. A hold list is the list of its sync objects: the source links
it through `args.mu.next` and `args.mu.prev` of the first waiter of each.
-/

namespace Qnx.Ker

open PriQueue Function

inductive MEntry where
  | thread (thp : Nat)
  | event (process : Nat)
  | ceiling
  deriving DecidableEq, Repr

/-- `sync->__owner` without its `_NTO_SYNC_WAITING` bit. -/
inductive MOwner where
  | free
  | held (thp : Nat)
  | dead
  | destroyed
  deriving DecidableEq, Repr

def MOwner.thread? : MOwner → Option Nat
  | .held thp => some thp
  | _ => none

theorem MOwner.thread?_eq_some {o : MOwner} {thp : Nat} : o.thread? = some thp ↔ o = .held thp := by
  cases o <;> simp [MOwner.thread?]

/-- `thp->state` with `thp->blocked_on` and `args.ms.server`; a ready thread counts as running. -/
inductive MState where
  | running
  | mutex (syp : Nat)
  | send (chp : Nat)
  | reply (chp : Nat) (server : Option Nat)
  | other
  deriving DecidableEq, Repr

def MState.onMutex : MState → Bool
  | .mutex _ => true
  | _ => false

/-- What no call here changes: attributes of sync objects, channels, processes. -/
structure MutexCfg where
  /-- `_NTO_SYNC_PRIOCEILING` and `_NTO_SYNC_PRIONONE` of `sync->__count`. -/
  prioceiling : Nat → Bool
  prionone : Nat → Bool
  fixedPriority : Nat → Bool
  /-- `chp->process`, of what `blocked_on` is taken for -/
  chanProcess : Nat → Nat
  process : Nat → Nat
  /-- `cred->info.euid == 0` -/
  root : Nat → Bool
  privPrio : Nat

structure MutexSt where
  priority : Nat → Nat
  realPriority : Nat → Nat
  state : Nat → MState
  lastChid : Nat → Nat
  acquireMutex : Nat → Bool
  mutexCeiling : Nat → Bool
  muOwner : Nat → Option Nat
  muMutex : Nat → Nat
  muCeiling : Nat → Nat
  holdlist : Nat → List Nat
  waiting : Nat → List MEntry
  owner : Nat → MOwner
  waitBit : Nat → Bool
  /-- `priority` and `args.mu.owner` of the ceiling entry. -/
  ceilPriority : Nat → Nat
  ceilOwner : Nat → Option Nat

def mutexNumPri : Nat := 256

namespace MutexSt

variable (cfg : MutexCfg) (s : MutexSt)

/-- The priority byte of an entry; that of an event is the zero `object_alloc` hands out. -/
def entryPriority (syp : Nat) : MEntry → Nat
  | .thread thp => s.priority thp
  | .event _ => 0
  | .ceiling => s.ceilPriority syp

def headPriority (syp : Nat) : Nat :=
  match s.waiting syp with
  | e :: _ => s.entryPriority syp e
  | [] => 0

@[simps] def setMuOwner (thp : Nat) (o : Option Nat) : MutexSt :=
  { s with muOwner := update s.muOwner thp o }

@[simps] def setWaitBit (syp : Nat) (b : Bool) : MutexSt :=
  { s with waitBit := update s.waitBit syp b }

def headOwner (syp : Nat) : Option Nat :=
  match s.waiting syp with
  | .thread thp :: _ => s.muOwner thp
  | .ceiling :: _ => s.ceilOwner syp
  | _ => none

def setHeadOwner (syp : Nat) (o : Option Nat) : MutexSt :=
  match s.waiting syp with
  | .thread thp :: _ => s.setMuOwner thp o
  | .ceiling :: _ => { s with ceilOwner := update s.ceilOwner syp o }
  | _ => s

def headLinks (syp : Nat) : Bool :=
  match s.waiting syp with
  | .thread _ :: _ | .ceiling :: _ => true
  | _ => false

/-- `adjust_priority` of a thread; where it stands in a mutex queue is not touched. -/
@[simps] def adjustPriority (thp prio : Nat) : MutexSt :=
  { s with priority := update s.priority thp prio }

@[simps] def link2Pri (syp : Nat) (e : MEntry) : MutexSt :=
  { s with
    waiting := update s.waiting syp (insertGE (s.entryPriority syp) e (s.waiting syp)) }

@[simps] def link2Rem (syp : Nat) (e : MEntry) : MutexSt :=
  { s with waiting := update s.waiting syp ((s.waiting syp).erase e) }

@[simp] theorem entryPriority_link2Pri (syp syp' : Nat) (e : MEntry) :
    (s.link2Pri syp e).entryPriority syp' = s.entryPriority syp' := by
  funext e'
  rfl

@[simp] theorem entryPriority_link2Rem (syp syp' : Nat) (e : MEntry) :
    (s.link2Rem syp e).entryPriority syp' = s.entryPriority syp' := by
  funext e'
  rfl

@[simps] def mutexholdlistPri (thp syp : Nat) : MutexSt :=
  { s with
    holdlist := update s.holdlist thp (insertGE s.headPriority syp (s.holdlist thp)) }

@[simps] def mutexholdlistRem (syp : Nat) : MutexSt :=
  { s with holdlist := fun thp => (s.holdlist thp).erase syp }

/-- `if(syp->waiting->args.mu.owner) MUTEXHOLDLIST_REM(syp)` -/
def unhold (syp : Nat) : MutexSt :=
  if (s.headOwner syp).isSome then s.mutexholdlistRem syp else s

/-- `if(thp->args.mu.owner) { MUTEXHOLDLIST_REM(syp); thp->args.mu.owner = 0; }` on the first
waiter. -/
def unlinkHead (syp : Nat) : MutexSt :=
  if (s.headOwner syp).isSome then (s.mutexholdlistRem syp).setHeadOwner syp none else s

/-- The thread `sync_wakeup(syp, 0)` readies, and the queue it leaves. -/
def wakeupPick : List MEntry → Option (Nat × List MEntry)
  | .thread thp :: rest => some (thp, rest)
  | e :: .thread thp :: rest => some (thp, e :: rest)
  | _ => none

def syncWakeup (syp : Nat) : MutexSt :=
  match wakeupPick (s.waiting syp) with
  | some (thp, rest) =>
    { s with
      waiting := update s.waiting syp rest
      state := update s.state thp .running
      acquireMutex := update s.acquireMutex thp true }
  | none => s

def firstThread : List MEntry → Option Nat
  | [] => none
  | .thread thp :: _ => some thp
  | _ :: rest => firstThread rest

/-- `case STATE_SEND` of a boosted thread: `chp` is what its `blocked_on`, a connection, is taken
for. -/
@[simps] def boostServers (prio chp : Nat) : MutexSt :=
  { s with priority := fun i =>
      if cfg.process i = cfg.chanProcess chp ∧ s.priority i < prio ∧ s.lastChid i = chp then prio
      else s.priority i }

/-- `again:` with the owner found: hold `syp`, and raise the owner when it is below. -/
def passOn (chkstate : MutexSt → Nat → Option MutexSt) (prio syp : Nat) (owner : Option Nat)
    (thp2 : Nat) : Option MutexSt :=
  match owner with
  | some thp =>
    let s := s.mutexholdlistPri thp syp
    if s.priority thp < prio then chkstate (s.adjustPriority thp prio) thp else some s
  | none => some (s.setMuOwner thp2 none)

/-- `LINK2_REM(thp); LINK2_PRI(syp->waiting, thp, THREAD);` -/
def requeue (thp syp : Nat) : MutexSt :=
  (s.link2Rem syp (.thread thp)).link2Pri syp (.thread thp)

def overtake (thp syp : Nat) : MutexSt :=
  (((s.unhold syp).setHeadOwner syp none).setMuOwner thp (s.headOwner syp)).requeue thp syp

/-- `chkstate:` on a thread raised to `prio`; `fuel` bounds the length of the chain. -/
def chkstate (prio : Nat) : Nat → MutexSt → Nat → Option MutexSt
  | 0, _, _ => none
  | fuel + 1, s, thp =>
    match s.state thp with
    | .send chp => some (if cfg.fixedPriority chp then s else s.boostServers cfg prio chp)
    | .reply chp server =>
      if cfg.fixedPriority chp then some s
      else
        match server with
        | some thp' =>
          if s.priority thp' < prio then chkstate prio fuel (s.adjustPriority thp' prio) thp'
          else some s
        | none => some s
    | .mutex syp =>
      if (s.waiting syp).head? = some (.thread thp) then
        (s.unhold syp).passOn (chkstate prio fuel) prio syp (s.headOwner syp) thp
      else if s.headPriority syp < prio then
        (s.overtake thp syp).passOn (chkstate prio fuel) prio syp (s.headOwner syp) thp
      else some (s.requeue thp syp)
    | .running | .other => some s

/-- `unready(act, STATE_MUTEX)` with `act->blocked_on` and `act->args.mu.mutex`. -/
@[simps] def mutexUnready (act syp : Nat) : MutexSt :=
  { s with
    state := update s.state act (.mutex syp)
    muMutex := update s.muMutex act syp }

def mutexOutrank (act syp : Nat) : MutexSt :=
  match s.waiting syp with
  | .thread thp :: _ => if s.priority thp < s.priority act then s.unlinkHead syp else s
  | _ => s

/-- From `IMTO` to the end of `sync_mutex_lock`: block behind `owner`. -/
def mutexBlock (fuel : Nat) (act syp : Nat) (owner : Option Nat) (imto : Bool) : Option MutexSt :=
  if imto then some s
  else
    let s := ((s.mutexUnready act syp).mutexOutrank act syp).link2Pri syp (.thread act)
    if cfg.prionone syp then some (s.setMuOwner act none)
    else if (s.waiting syp).head? = some (.thread act) then
      (s.setMuOwner act owner).passOn (chkstate cfg (s.priority act) fuel) (s.priority act) syp
        owner act
    else some s

/-- `*owp = SYNC_OWNER(act)` -/
@[simps] def mutexTake (act syp : Nat) : MutexSt :=
  { s with
    owner := update s.owner syp (.held act)
    waitBit := update s.waitBit syp false }

def mutexRecord (act syp : Nat) (e : MEntry) : MutexSt :=
  let s := match e with
    | .thread thp =>
      (if (s.muOwner thp).isSome then s.mutexholdlistRem syp else s).setMuOwner thp (some act)
    | _ =>
      let s := if (s.ceilOwner syp).isSome then s.mutexholdlistRem syp else s
      { s with ceilOwner := update s.ceilOwner syp (some act) }
  (s.setWaitBit syp true).mutexholdlistPri act syp

/-- The mutex becomes the caller's; `ceiling` is zero when the protocol is not in use. -/
def mutexAcquire (act syp ceiling : Nat) : MutexSt :=
  if ceiling ≠ 0 then
    ((s.mutexTake act syp).mutexRecord act syp .ceiling).adjustPriority act ceiling
  else
    match firstThread (s.waiting syp) with
    | some thp => (s.mutexTake act syp).mutexRecord act syp (.thread thp)
    | none => s.mutexTake act syp

/-- `owner == _NTO_SYNC_WAITING` but the caller is not first in line: wake the one who is. -/
def mutexRewake (syp : Nat) : MutexSt :=
  if s.headLinks syp then
    let s := (s.unlinkHead syp).syncWakeup syp
    if s.headLinks syp then s.setHeadOwner syp none else s
  else s

def mutexOutranks (act syp : Nat) : Bool :=
  match firstThread (s.waiting syp) with
  | some thp => decide (s.priority thp < s.priority act)
  | none => true

def lockProtects (syp : Nat) (noCeiling : Bool) : Bool := cfg.prioceiling syp && !noCeiling

def lockCeiling (syp : Nat) (noCeiling : Bool) : Nat :=
  if lockProtects cfg syp noCeiling ∧ .ceiling ∈ s.waiting syp then s.ceilPriority syp else 0

/-- `sync_mutex_lock`; `imto` is `IMTO(act, STATE_MUTEX)`. The `retry` for a mutex that another
processor has just unlocked does not arise: the waiting bit has been set. -/
def syncMutexLock (fuel : Nat) (act syp : Nat) (noCeiling imto : Bool) : Option MutexSt :=
  if lockProtects cfg syp noCeiling ∧ s.lockCeiling cfg syp noCeiling < s.priority act then some s
  else if s.owner syp = .destroyed then some s
  else
    let s := s.setWaitBit syp true
    if s.mutexOutranks act syp || s.acquireMutex act then
      if s.owner syp = .free then
        some (s.mutexAcquire act syp (s.lockCeiling cfg syp noCeiling))
      else s.mutexBlock cfg fuel act syp (s.owner syp).thread? imto
    else if s.owner syp = .free then
      (s.mutexRewake syp).mutexBlock cfg fuel act syp none imto
    else s.mutexBlock cfg fuel act syp (s.owner syp).thread? imto

def threadNear : List MEntry → Bool
  | .thread _ :: _ | _ :: .thread _ :: _ => true
  | _ => false

/-- The first part of `sync_mutex_unlock`: release the mutex if the caller owns it. -/
def mutexRelease (act syp : Nat) : MutexSt :=
  if s.owner syp = .held act then
    { s with
      owner := update s.owner syp .free
      waitBit := update s.waitBit syp (threadNear (s.waiting syp)) }
  else s

def mutexHandOn (syp : Nat) : MutexSt :=
  if s.headLinks syp then
    let s := (s.unhold syp).syncWakeup syp
    if threadNear (s.waiting syp) then
      (s.setWaitBit syp true).setHeadOwner syp none
    else if (s.waiting syp).head? = some .ceiling then s.setHeadOwner syp none
    else s
  else s

/-- The priority of the first waiter of the first mutex of the hold list, or `real_priority`. -/
def heldPriority (thp : Nat) : Nat :=
  match s.holdlist thp with
  | syp :: _ => max (s.realPriority thp) (s.headPriority syp)
  | [] => s.realPriority thp

def mutexSettle (act : Nat) : MutexSt :=
  if s.realPriority act < s.priority act ∧ s.heldPriority act < s.priority act then
    s.adjustPriority act (s.heldPriority act)
  else s

def syncMutexUnlock (act syp : Nat) : MutexSt :=
  ((s.mutexRelease act syp).mutexHandOn syp).mutexSettle act

def mutexSetPrioceiling (syp ceiling : Nat) : MutexSt :=
  if .ceiling ∈ s.waiting syp then
    { s with ceilPriority := update s.ceilPriority syp ceiling }
  else s

def ctlSetPrioceiling (fuel : Nat) (act syp ceiling : Nat) (imto : Bool) : Option MutexSt :=
  if ceiling < 1 ∨ mutexNumPri ≤ ceiling ∨ (¬cfg.root act ∧ cfg.privPrio ≤ ceiling) then some s
  else if ¬cfg.prioceiling syp then some s
  else if s.owner syp = .held act then some (s.mutexSetPrioceiling syp ceiling)
  else
    (s.syncMutexLock cfg fuel act syp true imto).map fun s =>
      if s.owner syp = .held act then (s.mutexSetPrioceiling syp ceiling).syncMutexUnlock act syp
      else
        { s with
          mutexCeiling := update s.mutexCeiling act true
          muCeiling := update s.muCeiling act ceiling }

/-- `ker_sync_ctl` with `_NTO_SCTL_SETEVENT`; `event` is not `NULL` and not `SIGEV_NONE`,
`alloc` is whether `object_alloc` has a sync event. -/
def ctlSetEvent (process syp : Nat) (event alloc : Bool) : MutexSt :=
  if .event process ∈ s.waiting syp then
    if event then s else s.link2Rem syp (.event process)
  else if event && alloc then s.link2Pri syp (.event process)
  else s

def specretAcquire (fuel : Nat) (thp : Nat) (imto : Bool) : Option MutexSt :=
  (s.syncMutexLock cfg fuel thp (s.muMutex thp) (s.mutexCeiling thp) imto).map fun s =>
    { s with acquireMutex := update s.acquireMutex thp false }

/-- `specialret` with `_NTO_TF_MUTEX_CEILING`; the flag stays set. -/
def specretCeiling (thp : Nat) : MutexSt :=
  (s.mutexSetPrioceiling (s.muMutex thp) (s.muCeiling thp)).syncMutexUnlock thp (s.muMutex thp)

/-- `priority_chain_drop(thp, STATE_MUTEX)`; `fuel` bounds the length of the chain. -/
def priorityChainDrop : Nat → MutexSt → Nat → Option MutexSt
  | 0, _, _ => none
  | fuel + 1, s, thp =>
    if s.heldPriority thp < s.priority thp then
      let s := s.adjustPriority thp (s.heldPriority thp)
      match s.state thp with
      | .mutex syp =>
        if (s.waiting syp).head? = some (.thread thp) then
          match s.muOwner thp with
          | some owner => priorityChainDrop fuel s owner
          | none => some s
        else some s
      | _ => some s
    else some s

def mutexRelink (syp : Nat) (owner : Option Nat) : MutexSt :=
  match (s.waiting syp).head? with
  | some (.thread _) =>
    match owner with
    | some thp2 => (s.mutexholdlistPri thp2 syp).setHeadOwner syp owner
    | none => s.setHeadOwner syp none
  | _ => s

def readied (thp : Nat) : MutexSt :=
  { s with state := update s.state thp .running }

def forceReady (fuel : Nat) (thp syp : Nat) : Option MutexSt :=
  if (s.waiting syp).head? = some (.thread thp) then
    let owner := s.muOwner thp
    let s := ((s.unhold syp).link2Rem syp (.thread thp)).mutexRelink syp owner
    match owner with
    | some thp2 =>
      if thp ≠ thp2 ∧ s.priority thp = s.priority thp2 ∧ s.realPriority thp2 < s.priority thp2 then
        (priorityChainDrop fuel s thp2).map (readied · thp)
      else some (s.readied thp)
    | none => some (s.readied thp)
  else some ((s.link2Rem syp (.thread thp)).readied thp)

def schedThread (thp prio : Nat) : MutexSt :=
  let s := s.adjustPriority thp prio
  { s with realPriority := update s.realPriority thp prio }

end MutexSt

inductive MutexOp where
  | lock (act syp : Nat) (noCeiling imto : Bool)
  | unlock (act syp : Nat)
  | setPrioceiling (act syp ceiling : Nat) (imto : Bool)
  | setEvent (process syp : Nat) (event alloc : Bool)
  | specretAcquire (thp : Nat) (imto : Bool)
  | specretCeiling (thp : Nat)
  | forceReady (thp : Nat)
  | schedThread (thp prio : Nat)
  | adjustPriority (thp prio : Nat)
  /-- Blocks or is readied for a reason other than a mutex. -/
  | become (thp : Nat) (state : MState)
  /-- `thp->last_chid` -/
  | receive (thp chid : Nat)
  deriving DecidableEq, Repr

open MutexSt in
def mutexStep (cfg : MutexCfg) (fuel : Nat) (s : MutexSt) : MutexOp → Option MutexSt
  | .lock act syp noCeiling imto => s.syncMutexLock cfg fuel act syp noCeiling imto
  | .unlock act syp => some (s.syncMutexUnlock act syp)
  | .setPrioceiling act syp ceiling imto => s.ctlSetPrioceiling cfg fuel act syp ceiling imto
  | .setEvent process syp event alloc => some (s.ctlSetEvent process syp event alloc)
  | .specretAcquire thp imto => s.specretAcquire cfg fuel thp imto
  | .specretCeiling thp => some (s.specretCeiling thp)
  | .forceReady thp =>
    match s.state thp with
    | .mutex syp => s.forceReady fuel thp syp
    | _ => none
  | .schedThread thp prio => some (s.schedThread thp prio)
  | .adjustPriority thp prio => some (s.adjustPriority thp prio)
  | .become thp state => some { s with state := update s.state thp state }
  | .receive thp chid => some { s with lastChid := update s.lastChid thp chid }

def MutexOp.Legal (s : MutexSt) : MutexOp → Prop
  | .lock act _ _ _ => s.state act = .running
  | .unlock act _ => s.state act = .running
  | .setPrioceiling act _ _ _ => s.state act = .running
  | .setEvent _ _ _ _ => True
  | .specretAcquire thp _ => s.state thp = .running ∧ s.acquireMutex thp
  | .specretCeiling thp => s.state thp = .running ∧ s.mutexCeiling thp
  | .forceReady thp => (s.state thp).onMutex
  | .schedThread _ prio => 0 < prio ∧ prio < mutexNumPri
  | .adjustPriority _ prio => 0 < prio ∧ prio < mutexNumPri
  | .become thp state => (s.state thp).onMutex = false ∧ state.onMutex = false
  | .receive _ _ => True

instance (s : MutexSt) : DecidablePred (MutexOp.Legal s)
  | .lock _ _ _ _ => inferInstanceAs (Decidable (_ = _))
  | .unlock _ _ => inferInstanceAs (Decidable (_ = _))
  | .setPrioceiling _ _ _ _ => inferInstanceAs (Decidable (_ = _))
  | .setEvent _ _ _ _ => inferInstanceAs (Decidable True)
  | .specretAcquire _ _ => inferInstanceAs (Decidable (_ ∧ _))
  | .specretCeiling _ => inferInstanceAs (Decidable (_ ∧ _))
  | .forceReady _ => inferInstanceAs (Decidable (_ = _))
  | .schedThread _ _ => inferInstanceAs (Decidable (_ ∧ _))
  | .adjustPriority _ _ => inferInstanceAs (Decidable (_ ∧ _))
  | .become _ _ => inferInstanceAs (Decidable (_ ∧ _))
  | .receive _ _ => inferInstanceAs (Decidable True)

/-- Mutexes as `ker_sync_create` leaves them, and threads with no business with them. -/
structure MutexSt.Fresh (cfg : MutexCfg) (s : MutexSt) : Prop where
  waiting : ∀ syp, s.waiting syp = if cfg.prioceiling syp then [.ceiling] else []
  owner : ∀ syp, s.owner syp = .free
  ceilOwner : ∀ syp, s.ceilOwner syp = none
  off : ∀ thp, (s.state thp).onMutex = false
  holdlist : ∀ thp, s.holdlist thp = []
  acquire : ∀ thp, s.acquireMutex thp = false
  pos : ∀ thp, 0 < s.realPriority thp
  real : ∀ thp, s.realPriority thp ≤ s.priority thp

end Qnx.Ker
