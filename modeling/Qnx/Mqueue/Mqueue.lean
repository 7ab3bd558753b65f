import Qnx.Shared.Run

/-!
# Message queues and named semaphores

`mqueue`: one device with its counters, the messages linked on `waiting_msg` and the clients blocked
on it. A blocked client's entry holds its request, which `resmgr_msg_again` hands to the handlers
again. The flags of a request say what its environment does: whether there is memory, whether
transfers to and from the client succeed. Notification and file times are left out.
-/

namespace Qnx.Mqueue

def mqPrioMax : Nat := 32

inductive Errno where
  | enosys | einval | emsgsize | eagain | enospc | enomem | eio | ebadf | eintr | efault
  deriving DecidableEq, Repr

/-- `xtype`: the high half of an `_IO_XTYPE_MQUEUE` is the priority of the message. -/
inductive Xtype where
  | none
  | mqueue (priority : Nat)
  | other
  deriving DecidableEq, Repr

structure Msg where
  priority : Nat
  data : List Nat
  deriving DecidableEq, Repr

structure Client where
  rcvid : Nat
  scoid : Nat
  coid : Nat
  priority : Nat
  deriving DecidableEq, Repr

/-- `received` tells whether the message came whole with the request. -/
structure WriteReq where
  client : Client
  xtype : Xtype
  data : List Nat
  nonblock : Bool
  received : Bool
  waitMem : Bool
  msgMem : Bool
  msgRead : Bool
  deriving DecidableEq, Repr

structure ReadReq where
  client : Client
  xtype : Xtype
  nbytes : Nat
  nonblock : Bool
  waitMem : Bool
  replied : Bool
  deriving DecidableEq, Repr

/-- `MQWAIT`; readers are all linked with priority 0. -/
structure Wait (ρ : Type) where
  priority : Nat
  req : ρ
  deriving DecidableEq, Repr

inductive Reply where
  | data (priority : Nat) (bytes : List Nat)
  | ok
  | error (e : Errno)
  deriving DecidableEq, Repr

/-- `MQDEV` with its `mq_attr` -/
structure MqDev where
  maxmsg : Nat
  msgsize : Nat
  curmsgs : Nat
  sendwait : Nat
  recvwait : Nat
  semaphore : Bool
  msgs : List Msg
  readers : List (Wait ReadReq)
  writers : List (Wait WriteReq)
  replies : List (Nat × Reply)
  deriving DecidableEq, Repr

def linkPriClient {ρ : Type} (w : Wait ρ) : List (Wait ρ) → List (Wait ρ)
  | [] => [w]
  | m :: l => if w.priority ≤ m.priority then m :: linkPriClient w l else w :: m :: l

def linkAfter (msg : Msg) : List Msg → List Msg
  | [] => [msg]
  | m :: l => if msg.priority ≤ m.priority then m :: linkAfter msg l else msg :: m :: l

def linkPriMsg (l : List Msg) (msg : Msg) : List Msg :=
  match l with
  | [] => [msg]
  | m :: rest =>
    if m.priority < msg.priority then msg :: m :: rest
    else if msg.priority ≤ ((m :: rest).getLast (List.cons_ne_nil _ _)).priority then
      m :: rest ++ [msg]
    else m :: linkAfter msg rest

namespace MqDev

def reply (d : MqDev) (c : Client) (r : Reply) : MqDev :=
  { d with replies := d.replies ++ [(c.rcvid, r)] }

def fail (d : MqDev) (c : Client) (e : Errno) : Option MqDev := some (d.reply c (.error e))

/-- What `io_write` is to deliver: from a client, or a close message. -/
structure Delivery where
  sender : Option Client
  priority : Nat
  data : List Nat
  received : Bool
  msgMem : Bool
  msgRead : Bool
  deriving DecidableEq, Repr

def refuse (d : MqDev) (m : Delivery) (e : Errno) : MqDev :=
  match m.sender with
  | some c => d.reply c (.error e)
  | none => d

def confirm (d : MqDev) (m : Delivery) : MqDev :=
  match m.sender with
  | some c => d.reply c .ok
  | none => d

def announce (again : MqDev → ReadReq → Option MqDev) (d : MqDev) : Option MqDev :=
  let d := { d with curmsgs := d.curmsgs + 1 }
  match d.readers with
  | w :: rest => again { d with readers := rest, recvwait := d.recvwait - 1 } w.req
  | [] => some d

/-- `io_write` from where the message is known -/
def deliver (again : MqDev → ReadReq → Option MqDev) (d : MqDev) (m : Delivery) : Option MqDev :=
  if d.semaphore then (d.confirm m).announce again
  else
    match d.readers, m.received with
    | w :: rest, true =>
      let d := { d with readers := rest, recvwait := d.recvwait - 1 }
      some ((d.reply w.req.client (.data m.priority m.data)).confirm m)
    | _, _ =>
      if ¬m.msgMem then some (d.refuse m .eagain)
      else if ¬m.received ∧ ¬m.msgRead then some (d.refuse m .eio)
      else
        let d := { d with msgs := linkPriMsg d.msgs ⟨m.priority, m.data⟩ }
        (d.confirm m).announce again

/-- `io_write` -/
def writeWith (again : MqDev → ReadReq → Option MqDev) (d : MqDev) (r : WriteReq) : Option MqDev :=
  let accepted (priority : Nat) : Option MqDev :=
    if d.msgsize < r.data.length then d.fail r.client .emsgsize
    else if d.maxmsg ≤ d.curmsgs then
      if r.nonblock then d.fail r.client .eagain
      else if ¬r.waitMem then d.fail r.client .enospc
      else some { d with
        writers := linkPriClient ⟨r.client.priority, r⟩ d.writers
        sendwait := d.sendwait + 1 }
    else d.deliver again ⟨some r.client, priority, r.data, r.received, r.msgMem, r.msgRead⟩
  match r.xtype with
  | .none => accepted 0
  | .mqueue priority => if mqPrioMax ≤ priority then d.fail r.client .einval else accepted priority
  | .other => d.fail r.client .enosys

/-- The end of `io_read`: a message less, and the first waiting writer tries again. -/
def retire (again : MqDev → WriteReq → Option MqDev) (d : MqDev) : Option MqDev :=
  let d := { d with curmsgs := d.curmsgs - 1 }
  match d.writers with
  | w :: rest => again { d with writers := rest, sendwait := d.sendwait - 1 } w.req
  | [] => some d

/-- `io_read`; `none` where it follows an empty `waiting_msg`. -/
def readWith (again : MqDev → WriteReq → Option MqDev) (d : MqDev) (r : ReadReq) : Option MqDev :=
  if r.xtype = .other then d.fail r.client .enosys
  else if r.nbytes < d.msgsize then d.fail r.client .emsgsize
  else if d.curmsgs = 0 then
    if r.nonblock then d.fail r.client .eagain
    else if ¬r.waitMem then d.fail r.client .enomem
    else some { d with readers := linkPriClient ⟨0, r⟩ d.readers, recvwait := d.recvwait + 1 }
  else if d.semaphore then
    if ¬r.replied then d.fail r.client .efault
    else (d.reply r.client (.data 0 [])).retire again
  else
    match d.msgs with
    | [] => none
    | m :: rest =>
      if ¬r.replied then d.fail r.client .efault
      else ({ d with msgs := rest }.reply r.client (.data m.priority m.data)).retire again

/-- The handlers, which call each other through `resmgr_msg_again`. Each call takes a client off a
list, and only the last can put one back. -/
def handle : Nat → MqDev → ReadReq ⊕ WriteReq → Option MqDev
  | 0, _, _ => none
  | fuel + 1, d, .inl r => d.readWith (fun d w => handle fuel d (.inr w)) r
  | fuel + 1, d, .inr w => d.writeWith (fun d r => handle fuel d (.inl r)) w

def depth (d : MqDev) : Nat := d.readers.length + d.writers.length + 1

def ioRead (d : MqDev) (r : ReadReq) : Option MqDev := d.handle d.depth (.inl r)

def ioWrite (d : MqDev) (w : WriteReq) : Option MqDev := d.handle d.depth (.inr w)

/-- `io_unblock`; `pending` tells whether the client still waits to be unblocked. -/
def ioUnblock (d : MqDev) (c : Client) (pending : Bool) : MqDev :=
  if ¬pending then d
  else if d.readers.any (·.req.client.rcvid = c.rcvid) then
    { d with readers := d.readers.eraseP (·.req.client.rcvid = c.rcvid) }.reply c (.error .eintr)
  else if d.writers.any (·.req.client.rcvid = c.rcvid) then
    { d with writers := d.writers.eraseP (·.req.client.rcvid = c.rcvid) }.reply c (.error .eintr)
  else d

def ofConnection (scoid coid : Nat) (c : Client) : Bool := c.scoid = scoid ∧ c.coid = coid

def unblockAll (d : MqDev) (scoid coid : Nat) : MqDev :=
  let rs := d.readers.filter fun w => ofConnection scoid coid w.req.client
  let ws := d.writers.filter fun w => ofConnection scoid coid w.req.client
  { d with
    readers := d.readers.filter fun w => ! ofConnection scoid coid w.req.client
    writers := d.writers.filter fun w => ! ofConnection scoid coid w.req.client
    replies := d.replies ++ rs.map (fun w => (w.req.client.rcvid, .error .ebadf)) ++
      ws.map (fun w => (w.req.client.rcvid, .error .ebadf)) }

def ioCloseocb (d : MqDev) (scoid coid : Nat) (closemsg : Option (List Nat)) (msgMem : Bool) :
    Option MqDev :=
  let d := d.unblockAll scoid coid
  match closemsg with
  | none => some d
  | some data =>
    d.deliver (fun d r => handle d.depth d (.inl r)) ⟨none, 0, data, true, msgMem, true⟩

end MqDev

/-- What the device is asked. `setattr` gives the `MQ_SEMAPHORE` of the new flags. -/
inductive MqOp where
  | read (r : ReadReq)
  | write (w : WriteReq)
  | unblock (c : Client) (pending : Bool)
  | closedup (scoid coid : Nat)
  | closeocb (scoid coid : Nat) (closemsg : Option (List Nat)) (msgMem : Bool)
  | getattr
  | setattr (semaphore : Bool)
  deriving DecidableEq, Repr

namespace MqDev

def step (d : MqDev) : MqOp → Option MqDev
  | .read r => d.ioRead r
  | .write w => d.ioWrite w
  | .unblock c pending => some (d.ioUnblock c pending)
  | .closedup scoid coid => some (d.unblockAll scoid coid)
  | .closeocb scoid coid closemsg msgMem => d.ioCloseocb scoid coid closemsg msgMem
  | .getattr => some d
  | .setattr semaphore => some { d with semaphore := semaphore }

/-- A device that `io_open` has created: a queue, or a semaphore with a value in range. -/
def Start (d : MqDev) : Prop :=
  0 < d.maxmsg ∧ d.sendwait = 0 ∧ d.recvwait = 0 ∧ d.msgs = [] ∧ d.readers = [] ∧ d.writers = [] ∧
    d.replies = [] ∧ d.curmsgs ≤ d.maxmsg ∧ (d.semaphore = false → d.curmsgs = 0)

end MqDev

end Qnx.Mqueue
