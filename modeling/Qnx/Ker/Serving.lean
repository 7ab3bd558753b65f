import Qnx.Shared.Pairing
import Qnx.Ker.Channel

/-!
# Clients and their servers

`thp->args.ms.server` and `thp->client` through `ker_msg_sendv`, `ker_msg_receivev`,
`ker_msg_replyv`, `ker_msg_error`, `ker_msg_current` and `force_ready`. Which thread or pulse stands
first on a queue and how a transfer ends are inputs, so every order of the queues is covered.
-/

namespace Qnx.Ker

open Function

/-- The states of `ker_fastmsg.c`; `ready` stands for every other one. The states on a global channel
are kept apart, since other code takes threads out of them. -/
inductive MsgState where
  | ready | send | netSend | receive | reply | netReply | stopped | sendGbl | receiveGbl
  deriving DecidableEq, Repr

namespace MsgState

def replying : MsgState → Bool
  | .reply | .netReply => true
  | _ => false

theorem replying_iff (st : MsgState) : st.replying = true ↔ st = .reply ∨ st = .netReply := by
  cases st <;> decide

end MsgState

structure Serve where
  state : Nat → MsgState
  /-- `thp->args.ms.server`; while the thread is not REPLY-blocked the union holds anything. -/
  server : Nat → Option Nat
  client : Nat → Option Nat

/-- What `lookup_rcvid` finds; `refused` for a pending `specialret` or another connection. With
`net` the thread is a vthread and the network manager gets the request as a pulse. -/
structure Rcvid where
  thp : Nat
  refused : Bool
  net : Bool
  deriving DecidableEq, Repr

inductive FirstSend where
  | pulse
  | thread (thp : Nat)
  deriving DecidableEq, Repr

/-- How `ker_msg_replyv` goes: the buffer is out of bounds or the copy to `msbuff` faults, or the
transfer is made. -/
inductive ReplyEnd where
  | early
  | xfer (x : Xfer)
  deriving DecidableEq, Repr

namespace Serve

variable (s : Serve)

def setState (thp : Nat) (st : MsgState) : Serve :=
  { s with state := update s.state thp st }

def wake : Option Nat → Serve
  | some r => s.setState r .ready
  | none => s

/-- `act->client` is left, with the client's `server` field. -/
def dropClient (act : Nat) : Serve :=
  match s.client act with
  | some thp =>
    { s with
      server := update s.server thp none
      client := update s.client act none }
  | none => s

def dropServer (thp : Nat) : Serve :=
  match s.server thp with
  | some srv =>
    { s with
      server := update s.server thp none
      client := update s.client srv none }
  | none => s

def serve (thp act : Nat) : Serve :=
  { s with
    server := update s.server thp (some act)
    client := update s.client act (some thp) }

/-- `ker_msg_sendv` past its checks, of `act`: the calling thread or, on a network connection, a
vthread. `receiver` is the first on the receive queue if it is not a pulse-only one. -/
def kerMsgSendv (act : Nat) (receiver : Option Nat) (env : Chan.SendEnv) : Option Serve :=
  if env.netcon ∧ s.state act ≠ .stopped then none
  else
    match receiver with
    | some thp =>
      if env.imtoReply then some s
      else
        match env.xfer with
        | .srcFault => some s
        | .dstFault => some (s.setState thp .ready)
        | .ok => some (((s.serve act thp).setState act .reply).setState thp .ready)
    | none =>
      if env.imtoSend then some s
      else if !env.netcon ∧ env.dying then some s
      else some (s.setState act .send)

/-- `force_ready` of a thread in `STATE_SEND` or `STATE_NET_SEND`; the last link of the connection
may send a pulse. -/
def readySender (thp : Nat) (woken : Option Nat) : Serve := (s.wake woken).setState thp .ready

def kerMsgReceivev (act : Nat) (first : Option FirstSend) (env : Chan.ReceiveEnv)
    (woken : Option Nat) : Serve :=
  match first with
  | some .pulse => s.dropClient act
  | some (.thread thp) =>
    if env.senderImto then s.readySender thp woken
    else
      match env.xfer with
      | .srcFault => s.readySender thp woken
      | .dstFault => s.dropClient act
      | .ok =>
        ((s.dropClient act).serve thp act).setState thp
          (if s.state thp = .send then .reply else .netReply)
  | none =>
    if env.imto ∨ env.pendcan then s.dropClient act
    else (s.dropClient act).setState act .receive

/-- `net_send2` for a reply or an error: the vthread is done with, and the server waits for the
network manager. The pulse to it may find a receiver, be queued, or fail. -/
def netSend2 (act thp : Nat) (pulse : Option (Option Nat)) : Serve :=
  if s.state thp ≠ .reply then s
  else
    let s1 := (s.dropServer thp).setState thp .stopped
    let s2 := ({ s1 with server := update s1.server act none }).setState act .reply
    match pulse with
    | some woken => s2.wake woken
    | none => s2.setState act .ready

/-- `ker_msg_replyv`. The exits before the transfer leave the pair as it is. -/
def kerMsgReplyv (act : Nat) (id : Option Rcvid) (fin : ReplyEnd) (woken : Option Nat)
    (pulse : Option (Option Nat)) : Serve :=
  match id with
  | none => s
  | some id =>
    if id.net then s.netSend2 act id.thp pulse
    else if !(s.state id.thp).replying ∨ id.refused then s
    else
      match fin with
      | .early => (s.wake woken).setState id.thp .ready
      | .xfer _ => ((s.dropServer id.thp).wake woken).setState id.thp .ready

def kerMsgError (act : Nat) (id : Option Rcvid) (woken : Option Nat)
    (pulse : Option (Option Nat)) : Serve :=
  match id with
  | none => s
  | some id =>
    if id.net then s.netSend2 act id.thp pulse
    else if !(s.state id.thp).replying ∨ id.refused then s
    else ((s.dropServer id.thp).wake woken).setState id.thp .ready

/-- `ker_msg_current`; `net_send2` lets a vthread pass that is in `STATE_REPLY`. -/
def kerMsgCurrent (act : Nat) (id : Option Rcvid) : Serve :=
  let s1 := s.dropClient act
  match id with
  | none => s1
  | some id =>
    if id.net ∧ s1.state id.thp ≠ .reply then s1
    else if !(s1.state id.thp).replying ∨ id.refused then s1
    else
      let s2 := match s1.server id.thp with
        | some srv => { s1 with client := update s1.client srv none }
        | none => s1
      s2.serve id.thp act

/-- `force_ready`. `unblock` is for a channel that wants an unblock pulse: the receiver it wakes, and
whether the thread stays blocked after it. -/
def forceReady (thp : Nat) (unblock : Option (Option Nat × Bool)) (woken : Option Nat) :
    Option Serve :=
  match s.state thp with
  | .reply | .netReply =>
    let (s1, stays) := match s.state thp, unblock with
      | .reply, some (w, stays) => (s.wake w, stays)
      | _, _ => (s, false)
    if stays then some s1
    else
      match s1.server thp with
      | some srv =>
        if s1.client srv = none then none else some ((s1.dropServer thp).readySender thp woken)
      | none => some (s1.readySender thp woken)
  | .send | .netSend | .sendGbl => some (s.readySender thp woken)
  | .receive | .receiveGbl => some (s.setState thp .ready)
  | .ready | .stopped => some s

end Serve

inductive ServeOp where
  | sendv (act : Nat) (receiver : Option Nat) (env : Chan.SendEnv)
  /-- `net_sendmsg` queues its sender in `STATE_NET_SEND`. -/
  | netSend (act : Nat)
  /-- `msgsend_gbl` blocks, or hands its message to a receiver. -/
  | sendGbl (act : Nat) (receiver : Option Nat)
  | receivev (act : Nat) (first : Option FirstSend) (env : Chan.ReceiveEnv) (woken : Option Nat)
  /-- `msgreceive_gbl` takes a message and restarts a sender, or blocks. -/
  | receiveGbl (act : Nat) (sender : Option Nat) (blocks : Bool)
  | replyv (act : Nat) (id : Option Rcvid) (fin : ReplyEnd) (woken : Option Nat)
      (pulse : Option (Option Nat))
  | error (act : Nat) (id : Option Rcvid) (woken : Option Nat) (pulse : Option (Option Nat))
  | current (act : Nat) (id : Option Rcvid)
  | forceReady (thp : Nat) (unblock : Option (Option Nat × Bool)) (woken : Option Nat)
  /-- Any other call of a running thread may use `args`. -/
  | other (act : Nat) (x : Option Nat)
  deriving DecidableEq, Repr

def serveStep (s : Serve) : ServeOp → Option Serve
  | .sendv act receiver env => s.kerMsgSendv act receiver env
  | .netSend act => some (s.setState act .netSend)
  | .sendGbl act receiver =>
    match receiver with
    | some r => some (s.setState r .ready)
    | none => some (s.setState act .sendGbl)
  | .receivev act first env woken => some (s.kerMsgReceivev act first env woken)
  | .receiveGbl act sender blocks =>
    some (if blocks then s.setState act .receiveGbl else s.wake sender)
  | .replyv act id fin woken pulse => some (s.kerMsgReplyv act id fin woken pulse)
  | .error act id woken pulse => some (s.kerMsgError act id woken pulse)
  | .current act id => some (s.kerMsgCurrent act id)
  | .forceReady thp unblock woken => s.forceReady thp unblock woken
  | .other act x => some { s with server := update s.server act x }

namespace Serve

def Wakes (s : Serve) (woken : Option Nat) : Prop := ∀ r ∈ woken, s.state r = .receive

def Sends (s : Serve) : Option FirstSend → Prop
  | some (.thread thp) => s.state thp = .send ∨ s.state thp = .netSend
  | _ => True

/-- The caller runs, and threads are on the queues of their states. On a network connection the
vthread is not in use. -/
def Legal (s : Serve) : ServeOp → Prop
  | .sendv act receiver env =>
    s.state act = (if env.netcon then .stopped else .ready) ∧ s.Wakes receiver
  | .netSend act => s.state act = .ready
  | .sendGbl act receiver => s.state act = .ready ∧ ∀ r ∈ receiver, s.state r = .receiveGbl
  | .receivev act first _ woken =>
    s.state act = .ready ∧ s.Wakes woken ∧ s.Sends first
  | .receiveGbl act sender _ => s.state act = .ready ∧ ∀ thp ∈ sender, s.state thp = .sendGbl
  | .replyv act _ _ woken pulse => s.state act = .ready ∧ s.Wakes woken ∧ ∀ w ∈ pulse, s.Wakes w
  | .error act _ woken pulse => s.state act = .ready ∧ s.Wakes woken ∧ ∀ w ∈ pulse, s.Wakes w
  | .current act _ => s.state act = .ready
  | .forceReady _ unblock woken =>
    s.Wakes woken ∧ ∀ u ∈ unblock, s.Wakes u.1 ∧ ∀ r ∈ woken, u.1 ≠ some r
  | .other act _ => s.state act = .ready

/-- A reply that faults before its transfer answers a client that no thread serves. -/
def Clean (s : Serve) : ServeOp → Prop
  | .replyv _ (some id) .early _ _ => id.net = true ∨ s.server id.thp = none
  | _ => True

instance (s : Serve) (woken : Option Nat) : Decidable (s.Wakes woken) :=
  inferInstanceAs (Decidable (∀ r ∈ woken, _))

instance (s : Serve) (first : Option FirstSend) : Decidable (s.Sends first) :=
  match first with
  | some (.thread _) => inferInstanceAs (Decidable (_ ∨ _))
  | some .pulse => inferInstanceAs (Decidable True)
  | none => inferInstanceAs (Decidable True)

instance (s : Serve) (o : ServeOp) : Decidable (s.Legal o) :=
  match o with
  | .sendv _ _ _ => inferInstanceAs (Decidable (_ ∧ _))
  | .netSend _ => inferInstanceAs (Decidable (_ = _))
  | .sendGbl _ _ => inferInstanceAs (Decidable (_ ∧ ∀ r ∈ _, _))
  | .receivev _ _ _ _ => inferInstanceAs (Decidable (_ ∧ _ ∧ _))
  | .receiveGbl _ _ _ => inferInstanceAs (Decidable (_ ∧ ∀ r ∈ _, _))
  | .replyv _ _ _ _ _ => inferInstanceAs (Decidable (_ ∧ _ ∧ ∀ r ∈ _, _))
  | .error _ _ _ _ => inferInstanceAs (Decidable (_ ∧ _ ∧ ∀ r ∈ _, _))
  | .current _ _ => inferInstanceAs (Decidable (_ = _))
  | .forceReady _ _ _ => inferInstanceAs (Decidable (_ ∧ ∀ r ∈ _, _ ∧ ∀ r ∈ _, _))
  | .other _ _ => inferInstanceAs (Decidable (_ = _))

instance (s : Serve) (o : ServeOp) : Decidable (s.Clean o) :=
  match o with
  | .replyv _ (some _) .early _ _ => inferInstanceAs (Decidable (_ ∨ _))
  | .replyv _ (some _) (.xfer _) _ _ => inferInstanceAs (Decidable True)
  | .replyv _ none _ _ _ => inferInstanceAs (Decidable True)
  | .sendv _ _ _ | .netSend _ | .sendGbl _ _ | .receivev _ _ _ _ | .receiveGbl _ _ _
  | .error _ _ _ _ | .current _ _ | .forceReady _ _ _ | .other _ _ =>
    inferInstanceAs (Decidable True)

end Serve

end Qnx.Ker
