import Qnx.Shared.Ring

/-!
# Pipes

`pipe.c`: one pipe with its ring buffer and the clients blocked on it. Notification, file times and
clients blocked in an open are left out. `events` is what clients are sent, `log` what was copied into
the buffer, by write request. A transfer that fails moves no bytes here.
-/

namespace Qnx.Pipe

open Qnx.Ring

/-- `BufferSize` and `AtomicSize`, after `main` has raised the first to the second. -/
structure Config where
  bufferSize : Nat
  atomicSize : Nat
  atomic_pos : 0 < atomicSize
  atomic_le : atomicSize ≤ bufferSize

inductive Errno where
  | eagain | enomem | epipe | eintr | ebadf | esrch | efault | esrvrfault
  deriving DecidableEq, Repr

/-- What a client is sent: bytes of a partial read, a reply, an error, or `SIGPIPE`. -/
inductive Event (α : Type) where
  | data (rcvid offset : Nat) (bytes : List α)
  | reply (rcvid status : Nat) (bytes : List α)
  | error (rcvid : Nat) (e : Errno)
  | sigpipe (rcvid : Nat)
  deriving DecidableEq, Repr

/-- `blocked_t`. `offset` is counted in the bytes of the request, which are `data` for a write; `tag`
tells write requests apart. -/
structure Blocked (α : Type) where
  rcvid : Nat
  scoid : Nat
  coid : Nat
  offset : Nat
  size : Nat
  nbytes : Nat
  tag : Nat
  data : List α
  deriving DecidableEq, Repr

/-- The `_IO_FLAG_RD` and `_IO_FLAG_WR` of an open descriptor. -/
structure Ocb where
  rd : Bool
  wr : Bool
  deriving DecidableEq, Repr

/-- `answers` is how the transfers to come end, with an error or without; any after those end well. -/
structure PipeSt (α : Type) where
  buffer : Nat → α
  rd : Nat
  wr : Nat
  nbytes : Nat
  input : List (Blocked α)
  output : List (Blocked α)
  ocbs : List Ocb
  events : List (Event α)
  log : List (Nat × List α)
  writes : List (Nat × List α)
  answers : List (Option Errno)

namespace PipeSt
variable {α : Type}

def rcount (p : PipeSt α) : Nat := p.ocbs.countP Ocb.rd

def wcount (p : PipeSt α) : Nat := p.ocbs.countP Ocb.wr

def emit (p : PipeSt α) (e : Event α) : PipeSt α := { p with events := p.events ++ [e] }

/-- `MsgReplyv`, `MsgWritev` or `MsgReadv`. -/
def transfer (p : PipeSt α) : Option Errno × PipeSt α :=
  match p.answers with
  | [] => (none, p)
  | a :: rest => (a, { p with answers := rest })

/-- What `read_from_pipe` has done once the transfer went well. -/
def sendOut (cfg : Config) (p : PipeSt α) (rcvid nbytes offset : Nat) : PipeSt α :=
  let avail := min p.nbytes nbytes
  let bytes := fetch cfg.bufferSize p.buffer p.rd avail
  let e := if offset = 0 ∧ avail = nbytes then .reply rcvid nbytes bytes
    else .data rcvid offset bytes
  { p.emit e with
    rd := (p.rd + avail) % cfg.bufferSize
    nbytes := p.nbytes - avail }

def readFromPipe (cfg : Config) (p : PipeSt α) (rcvid nbytes offset : Nat) :
    Except Errno Nat × PipeSt α :=
  match p.transfer with
  | (some e, p) => (.error e, p)
  | (none, p) => (.ok (min p.nbytes nbytes), p.sendOut cfg rcvid nbytes offset)

/-- What `write_to_pipe` has done once the transfer went well. -/
def copyIn (cfg : Config) (p : PipeSt α) (tag : Nat) (data : List α) (nbytes offset : Nat) :
    PipeSt α :=
  let room := min (cfg.bufferSize - p.nbytes) nbytes
  let bytes := (data.drop offset).take room
  { p with
    buffer := put cfg.bufferSize p.buffer p.wr bytes
    wr := (p.wr + room) % cfg.bufferSize
    nbytes := p.nbytes + room
    log := p.log ++ [(tag, bytes)] }

def writeToPipe (cfg : Config) (p : PipeSt α) (tag : Nat) (data : List α) (nbytes offset : Nat) :
    Except Errno Nat × PipeSt α :=
  match p.transfer with
  | (some e, p) => (.error e, p)
  | (none, p) => (.ok (min (cfg.bufferSize - p.nbytes) nbytes), p.copyIn cfg tag data nbytes offset)

def checkReaders (cfg : Config) : List (Blocked α) → PipeSt α → PipeSt α
  | [], p => { p with input := [] }
  | b :: rest, p =>
    if p.nbytes = 0 then { p with input := b :: rest }
    else
      match p.readFromPipe cfg b.rcvid b.size 0 with
      | (.error e, p) => checkReaders cfg rest (p.emit (.error b.rcvid e))
      | (.ok chunk, p) =>
        checkReaders cfg rest (if chunk ≠ b.size then p.emit (.reply b.rcvid chunk []) else p)

/-- The answer for a writer whose transfer fails: what it has written before, if anything. -/
def writeFailed (b : Blocked α) (e : Errno) : Event α :=
  if b.size ≠ b.nbytes then .reply b.rcvid (b.size - b.nbytes) [] else .error b.rcvid e

/-- `check_writers` from the list on: who is still blocked. -/
def checkWriters (cfg : Config) : List (Blocked α) → PipeSt α → List (Blocked α) × PipeSt α
  | [], p => ([], p)
  | b :: rest, p =>
    if cfg.bufferSize - p.nbytes = 0 then (b :: rest, p)
    else if cfg.atomicSize < b.size ∨ b.nbytes ≤ cfg.bufferSize - p.nbytes then
      match p.writeToPipe cfg b.tag b.data b.nbytes b.offset with
      | (.error e, p) => checkWriters cfg rest (p.emit (writeFailed b e))
      | (.ok chunk, p) =>
        if b.nbytes - chunk = 0 then checkWriters cfg rest (p.emit (.reply b.rcvid b.size []))
        else
          let (l, p) := checkWriters cfg rest p
          ({ b with nbytes := b.nbytes - chunk, offset := b.offset + chunk } :: l, p)
    else
      let (l, p) := checkWriters cfg rest p
      (b :: l, p)

def runWriters (cfg : Config) (p : PipeSt α) : PipeSt α :=
  let (l, p) := checkWriters cfg p.output p
  { p with output := l }

def runReaders (cfg : Config) (p : PipeSt α) : PipeSt α := checkReaders cfg p.input p

structure Client where
  rcvid : Nat
  scoid : Nat
  coid : Nat
  nonblock : Bool
  deriving DecidableEq, Repr

/-- The loop of `resmgr_pipe_read`: what was read, the last chunk. A chunk is never empty. -/
def readLoop (cfg : Config) (rcvid nbytes : Nat) :
    Nat → Nat → Except Errno Nat → PipeSt α → Nat × Except Errno Nat × PipeSt α
  | 0, count, chunk, p => (count, chunk, p)
  | fuel + 1, count, chunk, p =>
    if p.nbytes ≠ 0 ∧ count < nbytes then
      match p.readFromPipe cfg rcvid (nbytes - count) count with
      | (.error e, p) => (count, .error e, p)
      | (.ok chunk, p) =>
        readLoop cfg rcvid nbytes fuel (count + chunk) (.ok chunk) (p.runWriters cfg)
    else (count, chunk, p)

/-- `resmgr_pipe_read`; `mem` tells whether there is memory to block the client. The number of an
error is taken not to be `nbytes`, with which the source compares it. -/
def read (cfg : Config) (p : PipeSt α) (c : Client) (nbytes : Nat) (mem : Bool) : PipeSt α :=
  if nbytes = 0 then p.emit (.reply c.rcvid 0 [])
  else
    match readLoop cfg c.rcvid nbytes nbytes 0 (.ok 0) p with
    | (count, .error e, p) =>
      p.emit (if count = 0 then .error c.rcvid e else .reply c.rcvid count [])
    | (count, .ok chunk, p) =>
      if count = 0 then
        if p.wcount = 0 then p.emit (.reply c.rcvid 0 [])
        else if c.nonblock then p.emit (.error c.rcvid .eagain)
        else if ¬mem then p.emit (.error c.rcvid .enomem)
        else { p with input := p.input ++ [⟨c.rcvid, c.scoid, c.coid, 0, nbytes, nbytes, 0, []⟩] }
      else if chunk = nbytes then p
      else p.emit (.reply c.rcvid count [])

/-- The loop of `resmgr_pipe_write` for a large write: what was written, the last chunk. -/
def writeLoop (cfg : Config) (tag : Nat) (data : List α) :
    Nat → Nat → Except Errno Nat → PipeSt α → Nat × Except Errno Nat × PipeSt α
  | 0, count, chunk, p => (count, chunk, p)
  | fuel + 1, count, chunk, p =>
    if count < data.length ∧ p.nbytes ≠ cfg.bufferSize then
      match p.writeToPipe cfg tag data (data.length - count) count with
      | (.error e, p) => (count, .error e, p)
      | (.ok chunk, p) =>
        writeLoop cfg tag data fuel (count + chunk) (.ok chunk) (p.runReaders cfg)
    else (count, chunk, p)

/-- What `resmgr_pipe_write` copies before it looks at the result. -/
def writeNow (cfg : Config) (p : PipeSt α) (tag : Nat) (data : List α) :
    Nat × Except Errno Nat × PipeSt α :=
  if cfg.atomicSize < data.length then writeLoop cfg tag data data.length 0 (.ok 0) p
  else if data.length ≤ cfg.bufferSize - p.nbytes then
    match p.writeToPipe cfg tag data data.length 0 with
    | (.error e, p) => (0, .error e, p)
    | (.ok chunk, p) => (chunk, .ok chunk, p.runReaders cfg)
  else (0, .ok 0, p)

def write (cfg : Config) (p : PipeSt α) (c : Client) (tag : Nat) (data : List α) (mem : Bool) :
    PipeSt α :=
  let p := { p with writes := p.writes ++ [(tag, data)] }
  if p.rcount = 0 then (p.emit (.sigpipe c.rcvid)).emit (.error c.rcvid .epipe)
  else if data.length = 0 then p.emit (.reply c.rcvid 0 [])
  else
    match p.writeNow cfg tag data with
    | (count, .error e, p) =>
      p.emit (if count = 0 then .error c.rcvid e else .reply c.rcvid count [])
    | (count, .ok _, p) =>
      if count = 0 ∧ c.nonblock then p.emit (.error c.rcvid .eagain)
      else if count ≠ data.length ∧ ¬c.nonblock then
        if ¬mem then p.emit (.error c.rcvid .enomem)
        else { p with output := p.output ++
          [⟨c.rcvid, c.scoid, c.coid, count, data.length, data.length - count, tag, data⟩] }
      else p.emit (.reply c.rcvid count [])

def unblocked (sel : Blocked α → Bool) (answer : Blocked α → List (Event α))
    (l : List (Blocked α)) : List (Event α) :=
  (l.filter sel).flatMap answer

def unblockInput (p : PipeSt α) (sel : Blocked α → Bool) (answer : Blocked α → List (Event α)) :
    PipeSt α :=
  { p with input := p.input.filter (! sel ·), events := p.events ++ unblocked sel answer p.input }

def unblockOutput (p : PipeSt α) (sel : Blocked α → Bool) (answer : Blocked α → List (Event α)) :
    PipeSt α :=
  { p with output := p.output.filter (! sel ·), events := p.events ++ unblocked sel answer p.output }

/-- The answers for `error` other than `-EINTR` and `EPIPE`, and for those. -/
def failed (e : Errno) (b : Blocked α) : List (Event α) := [.error b.rcvid e]

def interrupted (b : Blocked α) : List (Event α) :=
  if b.size ≠ b.nbytes then [.reply b.rcvid (b.size - b.nbytes) []] else [.error b.rcvid .eintr]

def broken (b : Blocked α) : List (Event α) := [.sigpipe b.rcvid, .error b.rcvid .epipe]

def finished (b : Blocked α) : List (Event α) := [.reply b.rcvid 0 []]

def unblock (p : PipeSt α) (rcvid : Nat) : PipeSt α :=
  (p.unblockInput (·.rcvid = rcvid) (failed .eintr)).unblockOutput (·.rcvid = rcvid) interrupted

def closedup (p : PipeSt α) (scoid coid : Nat) : PipeSt α :=
  (p.unblockInput (fun b => b.scoid = scoid ∧ b.coid = coid) (failed .ebadf)).unblockOutput
    (fun b => b.scoid = scoid ∧ b.coid = coid) (failed .ebadf)

def closeocb (p : PipeSt α) (o : Ocb) : PipeSt α :=
  let p := { p with ocbs := p.ocbs.erase o }
  let p := if o.rd ∧ p.rcount = 0 then p.unblockOutput (fun _ => true) broken else p
  let p := if o.wr ∧ p.wcount = 0 then p.unblockInput (fun _ => true) finished else p
  if p.ocbs.length = 0 then { p with nbytes := 0, rd := 0, wr := 0 } else p

end PipeSt

inductive PipeOp (α : Type) where
  | read (c : PipeSt.Client) (nbytes : Nat) (mem : Bool)
  | write (c : PipeSt.Client) (tag : Nat) (data : List α) (mem : Bool)
  | unblock (rcvid : Nat)
  | closedup (scoid coid : Nat)
  | closeocb (o : Ocb)
  deriving DecidableEq, Repr

namespace PipeSt
variable {α : Type}

def step (cfg : Config) (p : PipeSt α) : PipeOp α → Option (PipeSt α)
  | .read c nbytes mem => some (p.read cfg c nbytes mem)
  | .write c tag data mem => some (p.write cfg c tag data mem)
  | .unblock rcvid => some (p.unblock rcvid)
  | .closedup scoid coid => some (p.closedup scoid coid)
  | .closeocb o => some (p.closeocb o)

/-- Clients read and write on descriptors that are open for it; a write request is new. -/
def Served (p : PipeSt α) : PipeOp α → Prop
  | .read _ _ _ => 0 < p.rcount
  | .write _ tag _ _ => 0 < p.wcount ∧ tag ∉ p.writes.map Prod.fst
  | .closeocb o => o ∈ p.ocbs
  | _ => True

def Start (p : PipeSt α) : Prop :=
  p.rd = 0 ∧ p.wr = 0 ∧ p.nbytes = 0 ∧ p.input = [] ∧ p.output = [] ∧ p.events = [] ∧ p.log = [] ∧
    p.writes = []

end PipeSt

end Qnx.Pipe
