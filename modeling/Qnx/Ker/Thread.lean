import Qnx.Ker.Dispatch

/-!
# Threads as the scheduler sees them

The fields of `THREAD`, `SSINFO` and `CONNECT` that `nano_sched.c` reads, the state they
live in, and the field writes and tick macros its functions are made of.
-/

namespace Qnx.Ker

/-- `uint8_t priority`, below `NUM_PRI`. -/
abbrev Prio := Fin 256

instance neZero_prio : NeZero 256 := ⟨by decide⟩

def u64 (n : Nat) : Nat := n % 2 ^ 64

def u32 (n : Nat) : Nat := n % 2 ^ 32

def u16 (n : Nat) : Nat := n % 2 ^ 16

/-- Store an `int` in a `uint8_t`. -/
def toPrio (n : Int) : Prio := Fin.ofNat 256 (n % 256).toNat

/-- `enum _THREAD_STATE` -/
inductive State where
  | dead | running | ready | stopped | send | receive | reply | stack | waitthread | waitpage
  | sigsuspend | sigwaitinfo | nanosleep | mutex | condvar | join | intr | sem | waitctx
  | netSend | netReply
  deriving DecidableEq, Repr

def State.Blocked (st : State) : Prop := st ≠ .ready ∧ st ≠ .running

instance (st : State) : Decidable st.Blocked := inferInstanceAs (Decidable (_ ∧ _))

inductive Policy where
  | fifo | rr | other | sporadic
  deriving DecidableEq, Repr

inductive PolicyArg where
  | nochange | policy (p : Policy) | adjtohead | adjtotail | setprio | unknown
  deriving DecidableEq, Repr

inductive Errno where
  | eok | einval | eperm | esrch | enoerror
  deriving DecidableEq, Repr

/-- `struct sched_param`, the two timespecs in nanoseconds. -/
structure SchedParam where
  schedPriority : Int
  ssLowPriority : Int
  ssMaxRepl : Int
  ssReplPeriod : Nat
  ssInitBudget : Nat
  deriving DecidableEq, Repr

/-- `struct _ss_schedinfo` with its `replenishment`. -/
structure SSInfo where
  lowPriority : Prio
  orgPriority : Prio
  maxRepl : Nat
  replCount : Nat
  replPeriod : Nat
  initBudget : Nat
  currBudget : Nat
  activationTime : Nat
  consumed : Nat
  amount : Nat
  replTime : Nat
  deriving DecidableEq, Repr

def SSInfo.zero : SSInfo := ⟨0, 0, 0, 0, 0, 0, 0, 0, 0, 0, 0⟩

/-- The inverted processor mask. `set_runmask` refuses a mask without a legal processor,
and processor 0 is the only one. -/
abbrev Runmask := { m : BitVec 32 // m.getLsbD 0 = false }

/-- The fields of `struct thread_entry` the scheduler reads. `rrTicks` and `ss` share the
union `schedinfo`; `ring0` is `(flags & (LOADING | RING0)) == RING0` of the process. -/
structure Thread where
  priority : Prio
  realPriority : Prio
  policy : Policy
  state : State
  rrTicks : Nat
  ss : SSInfo
  runmask : Runmask
  toBeStopped : Bool
  killself : Bool
  waaa : Bool
  specretPending : Bool
  process : Nat
  ring0 : Bool
  euid0 : Bool
  client : Option Thp
  server : Option Thp
  blockedOn : Nat
  deriving DecidableEq, Repr

structure Connect where
  vconnect : Bool
  lclCop : Nat
  fixedPriority : Bool
  deriving DecidableEq, Repr

structure Sched where
  actives : Thp
  thread : Thp → Thread
  dpp : Dispatch
  ssReplenishList : List Thp
  ssReplenishTime : Nat
  clock : Nat
  runningTime : Nat → Nat
  maxCpuTime : Nat → Nat
  connect : Nat → Connect
  rrMaxticks : Nat
  privPrio : Nat

def Thread.isSchedRR (t : Thread) : Bool := t.policy = .rr || t.policy = .other

def Thread.isSchedSS (t : Thread) : Bool := t.policy = .sporadic

def Thread.stopPending (t : Thread) : Bool := t.toBeStopped && !t.killself

def Thread.drops (t : Thread) : Prop :=
  t.policy = .sporadic ∧ t.ss.orgPriority = 0 ∧ t.ss.replCount + 1 ≥ t.ss.maxRepl ∧
    t.priority ≤ t.realPriority

instance (t : Thread) : Decidable t.drops := inferInstanceAs (Decidable (_ ∧ _))

def kerschedok (th : Thread) (privPrio : Nat) (policy : Option Policy) (param : SchedParam) :
    Errno :=
  if param.schedPriority < 0 ∨ param.schedPriority ≥ 256 then .einval
  else if param.schedPriority = 0 ∧ ¬th.ring0 then .einval
  else if ¬th.euid0 ∧ param.schedPriority ≥ privPrio then .eperm
  else match policy with
    | none => .einval
    | some .sporadic =>
      if param.ssMaxRepl < 1 ∨ param.ssMaxRepl > 65535 then .einval
      else if param.ssLowPriority ≤ 0 ∨ param.ssLowPriority > param.schedPriority then .einval
      else if param.ssReplPeriod < param.ssInitBudget then .einval
      else .eok
    | some _ => .eok

namespace Sched

def modThread (s : Sched) (t : Thp) (f : Thread → Thread) : Sched :=
  { s with thread := Function.update s.thread t (f (s.thread t)) }

def modSS (s : Sched) (t : Thp) (f : SSInfo → SSInfo) : Sched :=
  s.modThread t fun th => { th with ss := f th.ss }

def setState (s : Sched) (t : Thp) (st : State) : Sched :=
  s.modThread t fun th => { th with state := st }

def setPriority (s : Sched) (t : Thp) (p : Prio) : Sched :=
  s.modThread t fun th => { th with priority := p }

def setRealPriority (s : Sched) (t : Thp) (p : Prio) : Sched :=
  s.modThread t fun th => { th with realPriority := p }

def modDpp (s : Sched) (f : Dispatch → Dispatch) : Sched := { s with dpp := f s.dpp }

def prio (s : Sched) (t : Thp) : Nat := (s.thread t).priority

def rrResetTick (s : Sched) (t : Thp) : Sched :=
  if (s.thread t).isSchedRR then s.modThread t fun th => { th with rrTicks := 0 } else s

def rrAddTick (s : Sched) (t : Thp) (n : Nat) : Sched :=
  if (s.thread t).isSchedRR then
    s.modThread t fun th =>
      { th with rrTicks :=
          if th.rrTicks ≤ u32 (s.rrMaxticks + 2 ^ 32 - n) then u32 (th.rrTicks + n)
          else s.rrMaxticks }
  else s

def rrAddPreemptTick (s : Sched) (t : Thp) : Sched := s.rrAddTick t 1

def rrAddFulltick (s : Sched) (t : Thp) : Sched := s.rrAddTick t 2

end Sched

end Qnx.Ker
