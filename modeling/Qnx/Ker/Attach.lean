import Qnx.Ker.VectorWords

/-!
# `ker_connect_attach` with its exits

The call as `ker_connect.c` has it, on vectors as `nano_vector.c` keeps them, with every error
exit and what each undoes. Kernel objects are known by their addresses, processes by numbers.
-/

namespace Qnx.Ker.Attach

open Vec Function

inductive Errno where
  | einval | emfile | enoremote | esrch | enxio | eagain | enfile | efault
  deriving DecidableEq, Repr

/-- `CONNECT`. `COF_VCONNECT` comes with `un.lcl.cop`, `COF_NETCON` with `un.net.coid`. -/
structure Conn where
  next : Option Nat
  scoid : Nat
  infoscoid : Option Nat
  process : Option Nat
  channel : Option Nat
  links : Nat
  vconnect : Option Nat
  netcon : Option Nat
  global : Bool
  nd : Nat
  pid : Nat
  chid : Nat
  cd : Nat
  sendqSize : Nat
  deriving DecidableEq, Repr

def Conn.zeroed : Conn := ⟨none, 0, none, none, none, 0, none, none, false, 0, 0, 0, 0, 0⟩

/-- The flags of `CHANNEL` the call reads; `cons` is that of a `CHANNELGBL`. -/
structure Chan where
  async : Bool
  global : Bool
  cons : Option Nat
  deriving DecidableEq, Repr

inductive Obj where
  | conn (c : Conn)
  | chan (c : Chan)
  | other
  deriving DecidableEq, Repr

/-- `PROCESS`; `dying` is `flags & (TERMING | ZOMBIE | COREDUMP)`, and `nofile` the soft limit
`RLIMIT_NOFILE`. -/
structure Process where
  pid : Nat
  dying : Bool
  nfds : Nat
  nofile : Nat
  fdcons : Vec
  chancons : Vec

structure Cfg where
  lookupPid : Nat → Option Nat
  /-- `ND_NODE_CMP(nd, nd') == 0`; the local node is 0. -/
  sameNode : Nat → Nat → Bool
  netPrp : Option Nat
  netChp : Option Nat

structure St where
  proc : Nat → Process
  obj : Nat → Option Obj
  chgblVector : Vec
  /-- `connect_souls.used` -/
  used : Nat

/-- `kap->flags`; `other` is any bit the call does not know. -/
structure Flags where
  cloexec : Bool
  dead : Bool
  noshare : Bool
  netcon : Bool
  nonblock : Bool
  async : Bool
  global : Bool
  other : Bool
  deriving DecidableEq, Repr

def Flags.none (f : Flags) : Bool :=
  !(f.cloexec || f.dead || f.noshare || f.netcon || f.nonblock || f.async || f.global || f.other)

structure Kap where
  nd : Nat
  pid : Nat
  chid : Nat
  index : Nat
  flags : Flags
  cd : Nat
  deriving DecidableEq, Repr

/-- `_NTO_SIDE_CHANNEL`, also `_NTO_GLOBAL_CHANNEL`. -/
def sideChannel : Nat := 2 ^ 30

def Kap.side (k : Kap) : Bool := k.index.testBit 30

/-- `kap->index & ~_NTO_SIDE_CHANNEL`, after an index for a side channel was replaced. -/
def Kap.slot (k : Kap) : Nat := if k.side then 0 else k.index

/-- What memory answers: the probe of `kap->cd` and the word read there, `object_alloc`, and
`_scalloc` for the client's vector and for the server's. -/
structure Env where
  probe : Bool
  sendqSize : Nat
  object : Option Nat
  client : Option Nat
  server : Option Nat
  deriving DecidableEq, Repr

namespace St

def vec (s : St) (p : Nat) (side : Bool) : Vec :=
  if side then (s.proc p).chancons else (s.proc p).fdcons

def setVec (s : St) (p : Nat) (side : Bool) (v : Vec) : St :=
  let prp := if side then { s.proc p with chancons := v } else { s.proc p with fdcons := v }
  { s with proc := update s.proc p prp }

def setObj (s : St) (a : Nat) (o : Option Obj) : St :=
  { s with obj := update s.obj a o }

def modConn (s : St) (a : Nat) (f : Conn → Conn) : St :=
  match s.obj a with
  | some (.conn c) => s.setObj a (some (.conn (f c)))
  | _ => s

def add (s : St) (p : Nat) (side : Bool) (a index : Nat) (alloc : Option Nat) :
    Option (St × Option Nat) :=
  (vectorAdd 2 (s.vec p side) a index alloc).map fun r => (s.setVec p side r.1, r.2)

def rem (s : St) (p : Nat) (side : Bool) (i : Nat) : Option St :=
  ((s.vec p side).vectorRem i).map fun r => s.setVec p side r.1

/-- `vector_flag(newvec, coid, 1)` -/
def flag (s : St) (p : Nat) (side : Bool) (i : Nat) : St :=
  s.setVec p side ((s.vec p side).vectorFlag i true).1

def alloc (s : St) (a : Nat) : St :=
  { s.setObj a (some (.conn Conn.zeroed)) with used := s.used + 1 }

def free (s : St) (a : Nat) : St := { s.setObj a none with used := s.used - 1 }

def incFds (s : St) (p : Nat) : St :=
  { s with proc := update s.proc p { s.proc p with nfds := (s.proc p).nfds + 1 } }

end St

def lookup (v : Vec) (id : Nat) : Option Nat :=
  if id < v.nentries ∧ vecand (v.slots id) 3 = 0 ∧ v.slots id ≠ 0 then some (v.slots id) else none

section Call
variable (cfg : Cfg) (s : St) (act : Nat) (k : Kap)

/-- `prpc->pid == PROCMGR_PID && !kap->flags` -/
def special : Bool := decide ((s.proc act).pid = 1) && k.flags.none

/-- The checks before the label `common`, with `prps`, `chp` and the `kap->pid` they leave. -/
def resolve : Except Errno (Nat × Nat × Nat) :=
  if k.flags.other then .error .einval
  else if k.side = false ∧ (s.proc act).nofile ≤ k.index then .error .einval
  else if special s act k = false ∧ (s.proc act).nfds > (s.proc act).nofile then .error .emfile
  else if cfg.sameNode k.nd 0 then
    match (if k.pid ≠ 0 then cfg.lookupPid k.pid else some act) with
    | none => .error .esrch
    | some prps =>
      if (s.proc prps).dying then .error .enxio
      else
        let vec := if k.chid.testBit 30 then s.chgblVector else s.vec prps true
        let chid := if k.chid.testBit 30 then k.chid - sideChannel else k.chid
        match lookup vec chid with
        | none => .error .esrch
        | some chp =>
          match s.obj chp with
          | some (.chan _) => .ok (prps, chp, (s.proc prps).pid)
          | _ => .error .esrch
  else
    match cfg.netPrp, cfg.netChp with
    | some prps, some chp => .ok (prps, chp, k.pid)
    | _, _ => .error .enoremote

inductive Found where
  | same (cop : Nat)
  | master (m : Option Nat)
  deriving DecidableEq, Repr

def scanTest (pid : Nat) (c : Conn) : Bool :=
  decide (c.process = some act) && c.channel.isSome && decide (c.links ≠ 0) &&
    c.netcon.isNone && decide (c.pid = pid) && decide (c.chid = k.chid) && cfg.sameNode c.nd k.nd

def scanSlot (pid : Nat) (v : Vec) : Found → Nat → Found
  | .same c, _ => .same c
  | .master m, i =>
    -- `VECP2`
    if vecand (v.slots i) 1 ≠ 0 ∨ vecptr (v.slots i) = 0 then .master m
    else match s.obj (vecptr (v.slots i)) with
      | some (.conn c) =>
        if scanTest cfg act k pid c then
          if c.nd ≠ k.nd then .master (m.orElse fun _ => some (c.vconnect.getD (vecptr (v.slots i))))
          else .same (vecptr (v.slots i))
        else .master m
      | _ => .master m

def scanVec (pid : Nat) (v : Vec) (f : Found) : Found :=
  (List.range v.nentries).foldl (scanSlot cfg s act k pid v) f

def scan (pid : Nat) : Found :=
  if k.flags.noshare || k.flags.netcon then .master none
  else scanVec cfg s act k pid (s.vec act true) <|
    scanVec cfg s act k pid (s.vec act false) (.master none)

/-- `Check coid is allowed` -/
def beyond (coid : Nat) : Bool :=
  !k.side && !special s act k && decide ((s.proc act).nofile ≤ coid)

def finish (s : St) (coid : Nat) : St × Except Errno Nat :=
  ((if k.flags.cloexec then s.flag act k.side coid else s).incFds act,
    .ok (coid + if k.side then sideChannel else 0))

def attachSame (cop : Nat) (e : Env) : Option (St × Except Errno Nat) :=
  (s.add act k.side cop k.slot e.client).bind fun
    | (s1, none) => some (s1, .error .eagain)
    | (s1, some coid) =>
      if beyond s act k coid then (s1.rem act k.side coid).map fun s2 => (s2, .error .emfile)
      else
        some (finish act k (s1.modConn cop fun c => { c with links := c.links + 1 }) coid)

def fill (pid chp scoid coid : Nat) (c : Conn) : Conn :=
  let c := { c with
    process := some act
    links := 1
    channel := some chp
    scoid := scoid
    infoscoid := if cfg.sameNode k.nd 0 then some scoid else none }
  if k.flags.netcon then { c with netcon := some coid }
  else { c with nd := k.nd, pid := pid, chid := k.chid }

def refused : Bool := k.flags.netcon && (decide (cfg.netPrp ≠ some act) || !k.side)

/-- From `cop->type = TYPE_CONNECTION` on. -/
def attachEnd (prps chp pid cop coid scoid : Nat) (s : St) : Option (St × Except Errno Nat) :=
  if refused cfg act k then
    (s.rem prps true scoid).bind fun s1 =>
      (s1.rem act k.side coid).map fun s2 => (s2.free cop, .error .einval)
  else some (finish act k (s.modConn cop (fill cfg act k pid chp scoid coid)) coid)

/-- The connection enters its channel: the server's vector, the list of the connection it shares
it with, or that of the global channel. -/
def enter (prps chp pid cop coid : Nat) (chan : Chan) (master : Option Nat) (e : Env) (s : St) :
    Option (St × Except Errno Nat) :=
  let async := fun c : Conn =>
    if chan.async then { c with cd := k.cd, sendqSize := e.sendqSize } else c
  if chan.global then
    let s1 := s.setObj chp (some (.chan { chan with cons := some cop }))
    attachEnd cfg act k prps chp pid cop coid 0
      (s1.modConn cop fun c => { c with next := chan.cons, global := true })
  else
    match master with
    | some m =>
      match s.obj m with
      | some (.conn cm) =>
        let s1 := s.setObj m (some (.conn { cm with links := cm.links + 1, next := some cop }))
        attachEnd cfg act k prps chp pid cop coid cm.scoid
          (s1.modConn cop fun c => async { c with vconnect := some m, next := cm.next })
      | _ => none
    | none =>
      (s.add prps true cop 1 e.server).bind fun
        | (s1, none) =>
          (s1.rem act k.side coid).map fun s2 => (s2.free cop, .error .eagain)
        | (s1, some scoid) =>
          attachEnd cfg act k prps chp pid cop coid scoid
            (s1.modConn cop fun c => async { c with next := none })

def attachNew (prps chp pid : Nat) (chan : Chan) (master : Option Nat) (e : Env) :
    Option (St × Except Errno Nat) :=
  if chan.async ∧ e.probe = false then some (s, .error .efault)
  else match e.object with
    | none => some (s, .error .enfile)
    | some cop =>
      ((s.alloc cop).add act k.side cop k.slot e.client).bind fun
        | (s1, none) => some (s1.free cop, .error .eagain)
        | (s1, some coid) =>
          if beyond s act k coid then
            (s1.rem act k.side coid).map fun s2 => (s2.free cop, .error .emfile)
          else enter cfg act k prps chp pid cop coid chan master e s1

/-- `ker_connect_attach`; `none` is a `crash()` or a wild pointer. -/
def kerConnectAttach (e : Env) : Option (St × Except Errno Nat) :=
  match resolve cfg s act k with
  | .error err => some (s, .error err)
  | .ok (prps, chp, pid) =>
    match s.obj chp with
    | some (.chan chan) =>
      match scan cfg s act k pid with
      | .same cop => attachSame s act k cop e
      | .master m => attachNew cfg s act k prps chp pid chan m e
    | _ => none

end Call

end Qnx.Ker.Attach
