import Qnx.Shared.Slots
import Qnx.Shared.Run

/-!
# Connections

`ker_connect_attach`, `ker_connect_detach`, `connect_detach`, and of `ker_msg_sendv`,
`ker_msg_receivev`, `ker_msg_replyv`, `ker_msg_error`, `msgsend_gbl`, `msgreceive_gbl` and
`force_ready` the exits, with the thread they leave blocked on a connection or take off one.
Processes, channels, connections and threads are numbers.
-/

namespace Qnx.Ker

open Slots Function

/-- A slot of `prp->fdcons` or `prp->chancons` that holds a connection. `server` tells the slot
`scoid` of the server from those of the client; no code reads it. -/
structure CSlot where
  cop : Nat
  server : Bool
  deriving DecidableEq, Repr

/-- `CONNECT`; `un.lcl.cop` counts for a `COF_VCONNECT` connection only. -/
structure CConn where
  links : Nat
  process : Option Nat
  channel : Option Nat
  scoid : Nat
  vconnect : Option Nat
  netcon : Bool
  global : Bool
  nd : Nat
  pid : Nat
  chid : Nat
  deriving DecidableEq, Repr

/-- A thread SEND-blocked (or with `reply` REPLY-blocked) on `cop`, with the `args.ms.coid` of its
process it used. -/
structure CBlocked where
  thp : Nat
  cop : Nat
  process : Nat
  side : Bool
  coid : Nat
  reply : Bool
  deriving DecidableEq, Repr

/-- The channels. A local node and the names of channels on it lead to the channel itself, a remote
node to `net.chp`; a name is looked up the same way whatever the quality of service in `nd`. -/
structure ConnCfg where
  process : Nat → Nat
  disconnect : Nat → Bool
  global : Nat → Bool
  netPrp : Option Nat
  sameNode : Nat → Nat → Bool
  chan : Nat → Nat → Nat → Option Nat
  chan_congr : ∀ nd nd' pid chid, sameNode nd nd' = true → chan nd pid chid = chan nd' pid chid

/-- A slot that holds a channel counts as a free one here; `vector_add` does not return it. -/
structure ConnSt where
  conns : Nat → Option CConn
  next : Nat → List Nat
  /-- `prp->fdcons` (`false`) and `prp->chancons` (`true`). -/
  vec : Nat → Bool → List (Option CSlot)
  blocked : List CBlocked

/-- The arguments of `ker_connect_attach`, with `prps` for the process of `kap->pid` (of the network
manager for a remote node). -/
structure AttachArgs where
  prpc : Nat
  prps : Nat
  noshare : Bool
  netcon : Bool
  side : Bool
  nd : Nat
  pid : Nat
  chid : Nat
  deriving DecidableEq, Repr

/-- What `vector_add`, the descriptor limit and `object_alloc` answer. -/
structure AttachEnv where
  coid : Option Nat
  allowed : Bool
  cop : Option Nat
  scoid : Option Nat
  deriving DecidableEq, Repr

/-- What `ker_msg_sendv` and `msgsend_gbl` find: a cancellation pending, a message out of bounds or
too long, an ordinary receiver, an immediate timeout in REPLY or SEND, a transfer that faults, a
server that is dying, and on a global channel all buffers taken and `_NTO_COF_NONBLOCK`. -/
structure SendEnv where
  pendcan : Bool
  badMsg : Bool
  receiver : Bool
  imtoReply : Bool
  imtoSend : Bool
  xferstat : Bool
  terming : Bool
  full : Bool
  nonblock : Bool
  deriving DecidableEq, Repr

/-- What `ker_msg_receivev` finds of the thread first on the send queue: an immediate timeout in
REPLY, a transfer that faults in the sender or in the receiver. -/
structure ReceiveEnv where
  imto : Bool
  srcFault : Bool
  dstFault : Bool
  deriving DecidableEq, Repr

inductive Scan where
  | share (cop : Nat)
  | fresh (master : Option Nat)
  deriving DecidableEq, Repr

namespace ConnSt

variable (cfg : ConnCfg) (s : ConnSt)

def vectorAdd (prp : Nat) (side : Bool) (i : Nat) (e : CSlot) : ConnSt :=
  { s with vec := fun p b => if p = prp ∧ b = side then put (s.vec p b) i e else s.vec p b }

def vectorRem (prp : Nat) (side : Bool) (i : Nat) : ConnSt :=
  { s with vec := fun p b => if p = prp ∧ b = side then clear (s.vec p b) i else s.vec p b }

/-- `VECP2(cop, vec, i)` -/
def slot (prp : Nat) (side : Bool) (i : Nat) : Option CSlot := at? (s.vec prp side) i

def setConn (c : Nat) (k : Option CConn) : ConnSt :=
  { s with conns := update s.conns c k }

def scanMatches (a : AttachArgs) (k : CConn) : Bool :=
  decide (k.process = some a.prpc) && k.channel.isSome && decide (k.links ≠ 0) && !k.netcon &&
    decide (k.pid = a.pid) && decide (k.chid = a.chid) && cfg.sameNode k.nd a.nd

def scanSlot (a : AttachArgs) : Scan → Option CSlot → Scan
  | .share c, _ => .share c
  | .fresh m, none => .fresh m
  | .fresh m, some e =>
    match s.conns e.cop with
    | some k =>
      if scanMatches cfg a k then
        if k.nd ≠ a.nd then
          match m with
          | none => .fresh (some (k.vconnect.getD e.cop))
          | some m => .fresh (some m)
        else .share e.cop
      else .fresh m
    | none => .fresh m

def scan (a : AttachArgs) : Scan :=
  if a.noshare || a.netcon then .fresh none
  else (s.vec a.prpc false ++ s.vec a.prpc true).foldl (s.scanSlot cfg a) (.fresh none)

def addLink (c : Nat) : ConnSt :=
  match s.conns c with
  | some k => s.setConn c (some { k with links := k.links + 1 })
  | none => s

def newConn (a : AttachArgs) (chp scoid : Nat) (vconnect : Option Nat) : CConn where
  links := 1
  process := some a.prpc
  channel := some chp
  scoid := scoid
  vconnect := vconnect
  netcon := a.netcon
  global := cfg.global chp
  nd := a.nd
  pid := a.pid
  chid := a.chid

def refusesNetcon (a : AttachArgs) : Bool :=
  a.netcon && (decide (cfg.netPrp ≠ some a.prpc) || !a.side)

/-- The end of `ker_connect_attach`. A refused connection of a global channel has no slot in the
server, yet slot 0 is cleared there. -/
def attachFinish (a : AttachArgs) (c coid scoid : Nat) : ConnSt :=
  if refusesNetcon cfg a then
    ((s.vectorRem a.prps true scoid).vectorRem a.prpc a.side coid).setConn c none
  else s

def linkVirtual (m c : Nat) : ConnSt :=
  let s1 := s.addLink m
  { s1 with next := update s1.next m (c :: s1.next m) }

def attachNew (a : AttachArgs) (chp : Nat) (master : Option Nat) (c coid : Nat)
    (scoid : Option Nat) : ConnSt :=
  let s1 := s.vectorAdd a.prpc a.side coid ⟨c, false⟩
  if cfg.global chp then
    (s1.setConn c (some (newConn cfg a chp 0 none))).attachFinish cfg a c coid 0
  else
    match master with
    | some m =>
      let sc := ((s.conns m).map CConn.scoid).getD 0
      ((s1.linkVirtual m c).setConn c (some (newConn cfg a chp sc (some m)))).attachFinish cfg a c
        coid sc
    | none =>
      match scoid with
      | some j =>
        ((s1.vectorAdd a.prps true j ⟨c, true⟩).setConn c
          (some (newConn cfg a chp j none))).attachFinish cfg a c coid j
      | none => s

/-- `ker_connect_attach`; an exit that undoes what it did leaves the state as it was. -/
def connectAttach (a : AttachArgs) (e : AttachEnv) : ConnSt :=
  match cfg.chan a.nd a.pid a.chid, e.coid with
  | some chp, some coid =>
    if e.allowed then
      match s.scan cfg a with
      | .share c => (s.vectorAdd a.prpc a.side coid ⟨c, false⟩).addLink c
      | .fresh master =>
        match e.cop with
        | some c => s.attachNew cfg a chp master c coid e.scoid
        | none => s
    else s
  | _, _ => s

/-- `connect_detach`; `fuel` bounds the walk from a virtual connection to its master. -/
def connectDetach : Nat → ConnSt → Nat → Option ConnSt
  | 0, _, _ => none
  | fuel + 1, s, c =>
    match s.conns c with
    | none => none
    | some k =>
      match k.vconnect with
      | none =>
        match k.channel with
        | some chp =>
          if cfg.disconnect chp then some (s.setConn c (some { k with process := none }))
          else some ((s.vectorRem (cfg.process chp) true k.scoid).setConn c none)
        | none => some (s.setConn c none)
      | some m =>
        match s.conns m with
        | none => none
        | some km =>
          let s1 := { s with next := update s.next m ((s.next m).erase c) }
          let s2 := s1.setConn m (some { km with links := km.links - 1 })
          if km.links = 1 then (connectDetach fuel s2 m).map (setConn · c none)
          else if km.links = 0 then none
          else some (s2.setConn c none)

/-- `if(--cop->links == 0) connect_detach(cop, ...)`; a count that is zero already is a fault. -/
def dropLink (c : Nat) : Option ConnSt :=
  match s.conns c with
  | none => none
  | some k =>
    let s1 := s.setConn c (some { k with links := k.links - 1 })
    if k.links = 0 then none
    else if k.links = 1 then connectDetach cfg 2 s1 c
    else some s1

def block (b : CBlocked) : ConnSt :=
  { s.addLink b.cop with blocked := b :: s.blocked }

/-- `LINK2_REM(thp)` and `if(--cop->links == 0) connect_detach(cop, ...)`. -/
def unblock (b : CBlocked) : Option ConnSt :=
  if b ∈ s.blocked then { s with blocked := s.blocked.erase b }.dropLink cfg b.cop else none

def unblockAll : List CBlocked → ConnSt → Option ConnSt
  | [], s => some s
  | b :: bs, s => (s.unblock cfg b).bind (unblockAll bs)

/-- The threads that `ker_connect_detach` forces out: those SEND-blocked through `coid`, and of the
REPLY-blocked ones through `coid` (of a network connection, on `c`) those `out` that no unblock
pulse holds back. -/
def forcedBy (prp : Nat) (side : Bool) (coid c : Nat) (k : CConn) (out : List Nat) :
    List CBlocked :=
  s.blocked.filter fun b =>
    (decide (b.process = prp) && decide (b.side = side) && decide (b.coid = coid) &&
        (!b.reply || decide (b.thp ∈ out))) ||
      (k.netcon && decide (b.cop = c) && b.reply && decide (b.thp ∈ out))

def detachSlot (prp : Nat) (side : Bool) (coid c : Nat) : Option ConnSt :=
  let s1 := s.vectorRem prp side coid
  match s1.conns c with
  | none => none
  | some k =>
    if k.links = 0 then some (s1.setConn c none)
    else if k.global then
      if k.links = 1 then some (s1.setConn c none)
      else some (s1.setConn c (some { k with links := k.links - 1 }))
    else s1.dropLink cfg c

def detachRefused (prp : Nat) (side : Bool) (coid : Nat) (k : CConn) : Bool :=
  match k.channel with
  | some chp =>
    decide (cfg.process chp = prp) && side && decide (coid = k.scoid) && decide (k.links ≠ 0)
  | none => false

def connectDetachCall (prp : Nat) (side : Bool) (coid : Nat) (out : List Nat) : Option ConnSt :=
  match s.slot prp side coid with
  | none => some s
  | some e =>
    match s.conns e.cop with
    | none => none
    | some k =>
      if detachRefused cfg prp side coid k then some s
      else
        (unblockAll cfg (s.forcedBy prp side coid e.cop k out) s).bind fun s1 =>
          s1.detachSlot cfg prp side coid e.cop

/-! ### The calls of message passing -/

/-- The thread, if it is SEND- or REPLY-blocked. -/
def waiting (thp : Nat) : Option CBlocked := s.blocked.find? fun b => decide (b.thp = thp)

/-- `force_ready`; `held` if an unblock pulse goes to the server first. In any other state a thread
has no link. -/
def forceReady (thp : Nat) (held : Bool) : Option ConnSt :=
  match s.waiting thp with
  | none => some s
  | some b => if b.reply && held then some s else s.unblock cfg b

/-- `msgsend_gbl`. A message that finds a buffer or a receiver is delivered or refused at once. -/
def msgsendGbl (b : CBlocked) (e : SendEnv) : ConnSt :=
  if e.badMsg then s
  else if e.full then if e.nonblock || e.imtoSend then s else s.block b
  else s

/-- `ker_msg_sendv`; `act` is the thread that is to block, of a network connection the `VTHREAD`. A
receiver that faults is readied and the call made again. -/
def kerMsgSendv (act prp : Nat) (side : Bool) (coid : Nat) (e : SendEnv) : Option ConnSt :=
  match s.slot prp side coid with
  | none => some s
  | some ⟨c, _⟩ =>
    match s.conns c with
    | none => none
    | some k =>
      let b : CBlocked := ⟨act, c, prp, side, coid, false⟩
      if k.channel.isNone || e.pendcan then some s
      else if k.global then some (s.msgsendGbl b e)
      else if e.badMsg then some s
      else if e.receiver then
        if e.imtoReply || e.xferstat then some s else some (s.block { b with reply := true })
      else if e.imtoSend || !k.netcon && e.terming then some s
      else some (s.block b)

def receive (b : CBlocked) : ConnSt :=
  { s with blocked := s.blocked.map fun x => if x = b then { x with reply := true } else x }

/-- `ker_msg_receivev` with `head` first on the send queue, up to `goto restart`. A pulse there, or
nobody, leaves the connections as they are. -/
def kerMsgReceivev (head : Option Nat) (e : ReceiveEnv) : Option ConnSt :=
  match head.bind s.waiting with
  | none => some s
  | some b =>
    if e.imto || e.srcFault then s.forceReady cfg b.thp false
    else if e.dstFault then some s
    else some (s.receive b)

/-- The checks that `ker_msg_replyv` and `ker_msg_error` share, for the connection and the thread
`lookup_rcvid` has found, and the end they share. -/
def endReply (cop1 thp : Nat) (specret : Bool) : Option ConnSt :=
  match s.waiting thp with
  | none => some s
  | some b =>
    if !b.reply || specret then some s
    else if decide (b.cop ≠ cop1) && decide ((s.conns b.cop).bind CConn.vconnect ≠ some cop1) then
      some s
    else s.unblock cfg b

/-- `ker_msg_replyv`; after `xfer_err` the link is dropped just the same. -/
def kerMsgReplyv (cop1 thp : Nat) (specret : Bool) : Option ConnSt :=
  s.endReply cfg cop1 thp specret

def kerMsgError (cop1 thp : Nat) (specret : Bool) : Option ConnSt := s.endReply cfg cop1 thp specret

/-- `msgreceive_gbl` with `head` first on the send queue. With a message `taken` the thread is
readied to make its call again, and its link stays. -/
def msgreceiveGbl (taken : Bool) (head : Option Nat) : ConnSt :=
  match head.bind s.waiting with
  | none => s
  | some b => if taken then { s with blocked := s.blocked.erase b } else s

end ConnSt

inductive ConnOp where
  | attach (a : AttachArgs) (e : AttachEnv)
  | detach (prp : Nat) (side : Bool) (coid : Nat) (out : List Nat)
  | send (act prp : Nat) (side : Bool) (coid : Nat) (e : SendEnv)
  | receive (head : Option Nat) (e : ReceiveEnv)
  | reply (cop1 thp : Nat) (specret : Bool)
  | error (cop1 thp : Nat) (specret : Bool)
  | forceReady (thp : Nat) (held : Bool)
  | receiveGbl (taken : Bool) (head : Option Nat)
  deriving DecidableEq, Repr

def connStep (cfg : ConnCfg) (s : ConnSt) : ConnOp → Option ConnSt
  | .attach a e => some (s.connectAttach cfg a e)
  | .detach prp side coid out => s.connectDetachCall cfg prp side coid out
  | .send act prp side coid e => s.kerMsgSendv act prp side coid e
  | .receive head e => s.kerMsgReceivev cfg head e
  | .reply cop1 thp specret => s.kerMsgReplyv cfg cop1 thp specret
  | .error cop1 thp specret => s.kerMsgError cfg cop1 thp specret
  | .forceReady thp held => s.forceReady cfg thp held
  | .receiveGbl taken head => some (s.msgreceiveGbl taken head)

namespace ConnSt

def isGlobal (s : ConnSt) (c : Nat) : Bool := (s.conns c).any CConn.global

/-- What `vector_add` and `object_alloc` return is free, and a channel that is not global belongs to
the process its connections go to. -/
def AttachOk (cfg : ConnCfg) (s : ConnSt) (a : AttachArgs) (e : AttachEnv) : Prop :=
  (∀ i ∈ e.coid, s.slot a.prpc a.side i = none) ∧
  (∀ c ∈ e.cop, s.conns c = none) ∧
  (∀ j ∈ e.scoid, s.slot a.prps true j = none ∧
    ∀ i ∈ e.coid, ¬ (a.prps = a.prpc ∧ a.side = true ∧ j = i)) ∧
  ∀ chp ∈ cfg.chan a.nd a.pid a.chid, cfg.global chp = false → cfg.process chp = a.prps

instance (cfg : ConnCfg) (s : ConnSt) (a : AttachArgs) (e : AttachEnv) :
    Decidable (AttachOk cfg s a e) := by
  unfold AttachOk
  infer_instance

end ConnSt

/-- What the kernel guarantees of a call: a thread that sends is not blocked, and the thread first
on a send queue is SEND-blocked on a connection of that kind of channel. -/
def ConnOp.Legal (cfg : ConnCfg) (s : ConnSt) : ConnOp → Prop
  | .attach a e => s.AttachOk cfg a e
  | .send act _ _ _ _ => ∀ x ∈ s.blocked, x.thp ≠ act
  | .receive head _ => ∀ b ∈ head.bind s.waiting, b.reply = false ∧ s.isGlobal b.cop = false
  | .receiveGbl _ head => ∀ b ∈ head.bind s.waiting, b.reply = false ∧ s.isGlobal b.cop = true
  | _ => True

instance (cfg : ConnCfg) (s : ConnSt) (o : ConnOp) : Decidable (o.Legal cfg s) := by
  cases o <;> unfold ConnOp.Legal <;> infer_instance

/-- No `msgreceive_gbl` takes a message while a thread waits to send, and no process but the
network manager asks for a network connection to a global channel. -/
def ConnOp.Clean (cfg : ConnCfg) : ConnOp → Prop
  | .attach a _ =>
    ∀ chp ∈ cfg.chan a.nd a.pid a.chid, cfg.global chp = true → ConnSt.refusesNetcon cfg a = false
  | .receiveGbl taken head => taken = true → head = none
  | _ => True

instance (cfg : ConnCfg) (o : ConnOp) : Decidable (o.Clean cfg) := by
  cases o <;> unfold ConnOp.Clean <;> infer_instance

def ConnSt.fresh : ConnSt where
  conns := fun _ => none
  next := fun _ => []
  vec := fun _ _ => []
  blocked := []

end Qnx.Ker
