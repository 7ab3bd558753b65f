import Qnx.Ker.Thread

/-!
# The uniprocessor scheduler

`nano_sched.c` without `VARIANT_smp`, with the sporadic-server part, and
`ker_msg_current`. All threads share the one `DISPATCH` of the default scheduler.
Timeouts, trace events, `runcpu` and the block time stamps touch nothing that is read here.
`adjust_priority`, `yield` and the sporadic hooks call each other, so the bodies take
the callee `adj` as an argument and the recursion is tied in `adjustN`.
-/

namespace Qnx.Ker

open Function

namespace Sched

/-- `select_thread_default`; `prio` is `-1` in `FIND_HIGHEST`. -/
def selectThread (s : Sched) (prio : Int) : Option Thp × Sched :=
  let hipri := s.dpp.bits.highestPri
  if (hipri : Int) < prio then (none, s)
  else match s.dpp.links.head hipri with
    | none => (none, s)
    | some thp => (some thp, s.modDpp fun d => d.remClr (s.prio thp) thp)

def markRunning (s : Sched) (new : Thp) : Sched :=
  let old := s.actives
  let s := ({ s with actives := new } : Sched).setState new .running
  let th := s.thread old
  if th.isSchedRR ∧ th.rrTicks = 0 then
    { s with runningTime :=
        update s.runningTime th.process (s.runningTime th.process + 1) }
  else s

def ssInsert (s : Sched) (thp : Thp) : Sched :=
  let time := (s.thread thp).ss.replTime
  let before := s.ssReplenishList.takeWhile fun x => (s.thread x).ss.replTime < time
  let after := s.ssReplenishList.dropWhile fun x => (s.thread x).ss.replTime < time
  { s with ssReplenishList := before ++ thp :: after,
           ssReplenishTime := if before = [] then time else s.ssReplenishTime }

/-- The bookkeeping of `sched_ss_update`, before `drop` is looked at. -/
def ssAccount (s : Sched) (thp : Thp) : Sched :=
  let s :=
    if (s.thread thp).ss.amount = 0 then
      (s.modSS thp fun ss => { ss with
        amount := if ss.consumed = 0 then 1 else ss.consumed,
        replTime := u64 (ss.activationTime + ss.replPeriod) }).ssInsert thp
    else s.modSS thp fun ss => { ss with amount := u64 (ss.amount + ss.consumed) }
  s.modSS thp fun ss => { ss with replCount := u16 (ss.replCount + 1) }

def schedSsQueue (s : Sched) (thp : Thp) : Sched :=
  if (s.thread thp).ss.orgPriority ≠ 0 then s
  else match (s.thread thp).state with
    | .running => s
    | .ready => s
    | _ => s.modSS thp fun ss => { ss with activationTime := s.clock, consumed := 0 }

def ssMarkActivation (s : Sched) (thp : Thp) : Sched :=
  if (s.thread thp).isSchedSS then s.schedSsQueue thp else s

section Bodies
variable (adj : Sched → Thp → Prio → Sched)

def schedSsUpdateWith (s : Sched) (thp : Thp) (drop : Bool) : Sched :=
  if (s.thread thp).ss.orgPriority ≠ 0 then s
  else
    let s := s.ssAccount thp
    if drop then
      let th := s.thread thp
      let s := s.modSS thp fun ss => { ss with orgPriority := th.realPriority }
      let s := if th.priority ≤ th.realPriority then adj s thp th.ss.lowPriority else s
      s.setRealPriority thp (s.thread thp).ss.lowPriority
    else s

def schedSsBlockWith (s : Sched) (thp : Thp) (preempted : Bool) : Sched :=
  let ss := (s.thread thp).ss
  if ss.orgPriority ≠ 0 then s
  else if preempted then s
  else schedSsUpdateWith adj s thp (ss.replCount + 1 ≥ ss.maxRepl)

def ssStopRunningWith (s : Sched) (thp : Thp) (preempted : Bool) : Sched :=
  if (s.thread thp).isSchedSS then schedSsBlockWith adj s thp preempted else s

def yieldWith (s : Sched) : Sched :=
  let act := s.actives
  let prio := s.prio act
  match s.dpp.links.head prio with
  | none => s
  | some thp =>
    let s := s.modDpp fun d => (d.link3Rem prio thp).link3End prio act
    let s := (s.rrResetTick act).setState act .ready
    let s := s.markRunning thp
    (ssStopRunningWith adj s act false).ssMarkActivation act

def adjustPriorityWith (s : Sched) (thp : Thp) (prio : Prio) : Sched :=
  let act := s.actives
  if (s.thread thp).priority = prio then
    if thp = act then yieldWith adj s else s
  else match (s.thread thp).state with
  | .ready =>
    let s := s.modDpp fun d => d.remClr (s.prio thp) thp
    let s := s.setPriority thp prio
    if s.prio thp > s.prio act then
      let s := (s.setState act .ready).rrAddPreemptTick act
      let s := s.markRunning thp
      let s := s.modDpp fun d => d.link3Beg (s.prio act) act
      let s := ssStopRunningWith adj s act true
      s.modDpp fun d => d.set (s.prio act)
    else
      let s := s.rrResetTick thp
      let s := s.modDpp fun d => d.link3End (s.prio thp) thp
      s.modDpp fun d => d.set (s.prio thp)
  | .running =>
    -- the source works on `act` here, whatever `thp` is
    if (prio : Nat) < s.prio act ∧ (prio : Nat) ≤ s.dpp.bits.highestPri then
      let oldact := act
      let s := ((s.setPriority act prio).setState act .ready).rrResetTick act
      let s := s.modDpp fun d => (d.link3End (s.prio act) act).set (s.prio act)
      match s.dpp.links.head s.dpp.bits.highestPri with
      | none => s
      | some act =>
        let s := s.modDpp fun d => d.remClr (s.prio act) act
        let s := s.markRunning act
        ssStopRunningWith adj s oldact true
    else s.setPriority act prio
  | _ => s.setPriority thp prio

end Bodies

/-- `adjust_priority` cut off at a nesting of `n` calls. -/
def adjustN : Nat → Sched → Thp → Prio → Sched
  | 0 => fun s _ _ => s
  | n + 1 => adjustPriorityWith (adjustN n)

/-- `adjust_priority_default`. A second level is entered only through `yield`, which puts
the thread that drops on the ready queue; it never reaches a third one. -/
def adjustPriority : Sched → Thp → Prio → Sched := adjustN 2

def yield (s : Sched) : Sched := yieldWith adjustPriority s

def schedSsUpdate (s : Sched) (thp : Thp) (drop : Bool) : Sched :=
  schedSsUpdateWith adjustPriority s thp drop

def ssStopRunning (s : Sched) (thp : Thp) (preempted : Bool) : Sched :=
  ssStopRunningWith adjustPriority s thp preempted

def ssCheckExpiry (s : Sched) (thp : Thp) : Sched :=
  let th := s.thread thp
  if th.isSchedSS ∧ th.ss.currBudget = 0 ∧ th.ss.orgPriority = 0 then s.schedSsUpdate thp true
  else s

/-- One due replenishment of `sched_ss_adjust`, and whether it changed a priority. -/
def ssReplenish (s : Sched) (bound : Nat) (thp : Thp) : Sched × Bool :=
  let s := s.modSS thp fun ss => { ss with currBudget := ss.initBudget, replCount := 0 }
  let org := (s.thread thp).ss.orgPriority
  let r :=
    if org ≠ 0 then
      let s := s.modSS thp fun ss => { ss with activationTime := bound, consumed := 0 }
      let s := if (s.thread thp).priority ≤ org then s.adjustPriority thp org else s
      let s := s.setRealPriority thp (s.thread thp).ss.orgPriority
      (s.modSS thp fun ss => { ss with orgPriority := 0 }, true)
    else (s, false)
  (r.1.modSS thp fun ss => { ss with amount := 0, replTime := 0 }, r.2)

/-- The loop of `sched_ss_adjust`. Each turn takes the head off the list. -/
def schedSsAdjustLoop (bound : Nat) : Nat → Sched → Nat → Sched × Nat
  | 0, s, adjusted => (s, adjusted)
  | n + 1, s, adjusted =>
    match s.ssReplenishList with
    | [] => (s, adjusted)
    | thp :: next =>
      if (s.thread thp).ss.replTime ≤ bound then
        let time := match next with
          | [] => s.ssReplenishTime
          | x :: _ => (s.thread x).ss.replTime
        let s := { s with ssReplenishTime := time, ssReplenishList := next }
        if (s.thread thp).isSchedSS then
          let r := s.ssReplenish bound thp
          schedSsAdjustLoop bound n r.1 (if r.2 then adjusted + 1 else adjusted)
        else schedSsAdjustLoop bound n s adjusted
      else (s, adjusted)

def schedSsAdjust (s : Sched) : Sched × Nat :=
  schedSsAdjustLoop s.clock s.ssReplenishList.length s 0

def schedSsCleanup (s : Sched) (thp : Thp) : Sched :=
  let time := match s.ssReplenishList with
    | x :: y :: _ => if x = thp then (s.thread y).ss.replTime else s.ssReplenishTime
    | _ => s.ssReplenishTime
  let s := { s with ssReplenishTime := time, ssReplenishList := s.ssReplenishList.erase thp }
  s.modThread thp fun th => { th with rrTicks := 0 }

def adjTo (s : Sched) (thp : Thp) (head : Bool) : Errno × Sched :=
  if (s.thread thp).state ≠ .ready then (.einval, s)
  else
    let p := s.prio thp
    let s := s.modDpp fun d => d.link3Rem p thp
    if head then (.eok, s.modDpp fun d => d.link3Beg p thp)
    else (.eok, (s.rrResetTick thp).modDpp fun d => d.link3End p thp)

/-- Take the priority `newPrio`; a lowered thread stays at the head of its list. -/
def adjustHead (s : Sched) (thp : Thp) (newPrio : Prio) : Sched :=
  let old := (s.thread thp).priority
  if newPrio ≠ old then
    let s := s.adjustPriority thp newPrio
    if newPrio < old ∧ (s.thread thp).state = .ready then
      s.modDpp fun d => (d.link3Rem (s.prio thp) thp).link3Beg (s.prio thp) thp
    else s
  else s

def setprio (s : Sched) (thp : Thp) (param : SchedParam) : Errno × Sched :=
  if param.schedPriority ≤ 0 ∨ param.schedPriority ≥ 256 then (.einval, s)
  else if ¬(s.thread thp).euid0 ∧ param.schedPriority ≥ s.privPrio then (.eperm, s)
  else
    let newPrio := toPrio param.schedPriority
    let s := s.adjustHead thp newPrio
    let s :=
      if (s.thread thp).isSchedSS ∧ (s.thread thp).ss.orgPriority ≠ 0 then
        s.modSS thp fun ss => { ss with orgPriority := newPrio }
      else s
    (.eok, s.setRealPriority thp newPrio)

/-- A newcomer to `SCHED_SPORADIC` gets a zeroed `ss_info`, and `SCHED_FIFO` for the time
being. The activation is snapped for newcomers and for threads being created. -/
def ssEnter (s : Sched) (thp : Thp) (param : SchedParam) : Sched :=
  let s :=
    if (s.thread thp).policy ≠ .sporadic then
      s.modThread thp fun th => { th with policy := .fifo, ss := SSInfo.zero }
    else s
  if (s.thread thp).waaa ∨ (s.thread thp).policy ≠ .sporadic then
    s.modSS thp fun ss => { ss with activationTime := s.clock, currBudget := param.ssInitBudget }
  else s

def ssAttributes (s : Sched) (thp : Thp) (param : SchedParam) : Sched × Prio :=
  let ss := (s.thread thp).ss
  if (ss.lowPriority : Int) = param.ssLowPriority ∧ (ss.maxRepl : Int) = param.ssMaxRepl ∧
      ss.replPeriod = param.ssReplPeriod ∧ ss.initBudget = param.ssInitBudget then
    (s, toPrio param.schedPriority)
  else
    let s := s.modSS thp fun ss => { ss with
      lowPriority := toPrio param.ssLowPriority, maxRepl := u16 param.ssMaxRepl.toNat,
      replPeriod := param.ssReplPeriod, initBudget := param.ssInitBudget }
    if (s.thread thp).ss.orgPriority ≠ 0 then
      (s.modSS thp fun ss => { ss with orgPriority := toPrio param.schedPriority },
        toPrio param.ssLowPriority)
    else (s, toPrio param.schedPriority)

def unsetSporadic (s : Sched) (thp : Thp) : Sched :=
  let s :=
    if (s.thread thp).policy = .sporadic then
      (s.modThread thp fun th => { th with policy := .fifo }).schedSsCleanup thp
    else s
  s.rrResetTick thp

/-- The change of policy in `sched_thread`; `alloc` is whether an `ss_info` can be had. -/
def schedPolicy (s : Sched) (thp : Thp) (policy : Policy) (param : SchedParam) (alloc : Bool) :
    Errno × Sched :=
  if policy = .sporadic ∧ (s.thread thp).policy ≠ .sporadic ∧ ¬alloc then
    (.einval, s.modThread thp fun th => { th with policy := .fifo, rrTicks := 0 })
  else
    let r :=
      if policy = .sporadic then (s.ssEnter thp param).ssAttributes thp param
      else (s.unsetSporadic thp, toPrio param.schedPriority)
    let s := r.1.modThread thp fun th => { th with policy := policy }
    (.eok, (s.adjustPriority thp r.2).setRealPriority thp r.2)

def schedThread (s : Sched) (thp : Thp) (policy : PolicyArg) (param : SchedParam)
    (alloc : Bool) : Errno × Sched :=
  match policy with
  | .adjtohead => s.adjTo thp true
  | .adjtotail => s.adjTo thp false
  | .setprio => s.setprio thp param
  | .nochange =>
    let policy := (s.thread thp).policy
    match kerschedok (s.thread thp) s.privPrio (some policy) param with
    | .eok => s.schedPolicy thp policy param alloc
    | verify => (verify, s)
  | .policy policy =>
    match kerschedok (s.thread thp) s.privPrio (some policy) param with
    | .eok => s.schedPolicy thp policy param alloc
    | verify => (verify, s)
  | .unknown => (kerschedok (s.thread thp) s.privPrio none param, s)

def clearLinks (s : Sched) (thp : Thp) : Sched := s.modDpp fun d => d.clearLinks thp

/-- `block`, entered with the state of the active thread already set. `none` is the null
pointer `FIND_HIGHEST` leaves when nothing is ready. -/
def block (s : Sched) : Option Sched :=
  let thp := s.actives
  match s.selectThread (-1) with
  | (none, _) => none
  | (some act, s) =>
    let s :=
      if (s.thread thp).isSchedRR ∧ (thp = act ∨ s.prio thp < s.prio act) then
        s.rrAddPreemptTick thp
      else s
    let s := s.markRunning act
    some (if thp ≠ act then s.ssStopRunning thp (s.prio thp < s.prio act) else s)

def ready (s : Sched) (thp : Thp) : Sched :=
  let prio := s.prio thp
  if (s.thread thp).stopPending then s.setState thp .stopped
  else
    let s := s.clearLinks thp
    let s := s.ssCheckExpiry s.actives
    let act := s.actives
    let s := s.ssMarkActivation thp
    if prio > s.prio act then
      let s := s.markRunning thp
      let s := (s.rrAddPreemptTick act).setState act .ready
      let s := s.modDpp fun d => d.link3Beg (s.prio act) act
      let s := s.ssStopRunning act true
      s.modDpp fun d => d.set (s.prio act)
    else
      let s := (s.setState thp .ready).rrResetTick thp
      let s := s.modDpp fun d => d.link3End prio thp
      s.modDpp fun d => d.set (s.prio thp)

/-- `block_and_ready` up to the choice of the next thread. -/
def stopActive (s : Sched) (thp : Thp) : Sched :=
  let act := s.actives
  let st := (s.thread act).state
  (s.ssStopRunning act (st = .ready ∨ st = .running)).ssMarkActivation thp

/-- The choice of `block_and_ready`; `act` is the thread that was active on entry. -/
def runOrQueue (s : Sched) (act thp : Thp) (prio : Nat) : Option Sched :=
  if prio > s.prio act ∨ prio > s.dpp.bits.highestPri then some (s.markRunning thp)
  else
    let s := s.modDpp fun d => d.link3Beg prio thp
    let s := s.modDpp fun d => d.set (s.prio thp)
    let s := s.setState thp .ready
    match s.selectThread (-1) with
    | (none, _) => none
    | (some act, s) => some (s.markRunning act)

def blockAndReady (s : Sched) (thp : Thp) : Option Sched :=
  let act := s.actives
  let s := s.clearLinks thp
  if (s.thread thp).stopPending then (s.setState thp .stopped).block
  else (s.stopActive thp).runOrQueue act thp (s.prio thp)

/-- `unready`; `none` is the `crash()` on an active thread that is not running. -/
def unready (s : Sched) (thp : Thp) (newstate : State) : Option Sched :=
  if thp = s.actives then
    if (s.thread thp).state ≠ .running then none else (s.setState thp newstate).block
  else
    let s :=
      if (s.thread thp).state = .ready then s.modDpp fun d => d.remClr (s.prio thp) thp else s
    some (s.setState thp newstate)

def timeslice (s : Sched) : Sched :=
  let act := s.actives
  let th := s.thread act
  -- the two `signal_kill_process` calls are entries of their own
  if s.runningTime th.process > s.maxCpuTime th.process ∧ ¬th.killself then s
  else
    let prio : Nat := if th.runmask.1.getLsbD 0 then 0 else s.prio act
    match s.selectThread prio with
    | (none, s) => s
    | (some thp, s) =>
      let s := s.rrAddPreemptTick act
      let s :=
        if (s.thread act).isSchedRR ∧ (s.thread act).rrTicks ≥ s.rrMaxticks then
          (s.rrResetTick act).modDpp fun d => d.link3End (s.prio act) act
        else s.modDpp fun d => d.link3Beg (s.prio act) act
      let s := s.modDpp fun d => d.set (s.prio act)
      (s.setState act .ready).markRunning thp

def resched (s : Sched) : Sched :=
  let act := s.actives
  let s := s.ssCheckExpiry act
  let r := if s.ssReplenishList = [] then (s, 0) else s.schedSsAdjust
  if r.2 ≠ 0 ∨ act ≠ r.1.actives then r.1 else r.1.timeslice

/-- `set_runmask`, where the one legal processor is 0. -/
def setRunmask (s : Sched) (thp : Thp) (runmask : BitVec 32) : Errno × Sched :=
  if h : runmask.getLsbD 0 then
    (.eok, s.modThread thp fun th => { th with runmask := ⟨~~~runmask, by simp [h]⟩ })
  else (.einval, s)

inductive Rcvid where
  | zero | bad | found (cop : Nat) (thp : Thp)
  deriving DecidableEq, Repr

def setClient (s : Sched) (t : Thp) (c : Option Thp) : Sched :=
  s.modThread t fun th => { th with client := c }

def setServer (s : Sched) (t : Thp) (c : Option Thp) : Sched :=
  s.modThread t fun th => { th with server := c }

/-- `if(act->client != 0) ...` -/
def dropClient (s : Sched) (act : Thp) : Sched :=
  match (s.thread act).client with
  | none => s
  | some c => (s.setServer c none).setClient act none

def serve (s : Sched) (act thp : Thp) : Sched :=
  let s := match (s.thread thp).server with
    | none => s
    | some srv => s.setClient srv none
  (s.setServer thp (some act)).setClient act (some thp)

/-- The connection `ker_msg_current` ends up with, after all its refusals. -/
def currentCop (s : Sched) (cop : Nat) (thp : Thp) : Option Nat :=
  let th := s.thread thp
  if th.state ≠ .reply ∧ th.state ≠ .netReply then none
  else if th.specretPending then none
  else if th.blockedOn = cop then some cop
  else if (s.connect th.blockedOn).vconnect ∧ (s.connect th.blockedOn).lclCop = cop then
    some th.blockedOn
  else none

/-- The client whose priority `ker_msg_current` takes over, if it gets that far. -/
def inherits (s : Sched) : Rcvid → Option Thp
  | .found cop thp => (s.currentCop cop thp).bind fun cop =>
    if (s.connect cop).fixedPriority then none else some thp
  | _ => none

def kerMsgCurrent (s : Sched) (rcvid : Rcvid) : Errno × Sched :=
  let act := s.actives
  let s := s.dropClient act
  match rcvid with
  | .zero => (.eok, s)
  | .bad => (.enoerror, s)
  | .found cop thp =>
    match s.currentCop cop thp with
    | none => (.esrch, s)
    | some cop =>
      let s := s.serve act thp
      if (s.connect cop).fixedPriority then (.eok, s)
      else
        let p := (s.thread thp).priority
        let s := (s.setPriority act p).setRealPriority act p
        (.eok, s.adjustPriority act p)

def tick (s : Sched) (inc : Nat) : Sched :=
  let act := s.actives
  let th := s.thread act
  if th.state ≠ .running then s
  else
    let s :=
      { s with runningTime :=
          update s.runningTime th.process (s.runningTime th.process + inc) }
    let s := s.rrAddFulltick act
    if th.isSchedSS ∧ th.ss.orgPriority = 0 then
      s.modSS act fun ss =>
        { ss with consumed := u64 (ss.consumed + inc), currBudget := ss.currBudget - inc }
    else s

end Sched

end Qnx.Ker
