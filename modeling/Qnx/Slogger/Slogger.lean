import Qnx.Shared.Ring

/-!
# The system logger

`slogger`: events of whole ints in a ring of `NumInts`, the oldest discarded for the new. Readers
keep positions of their own, which are moved along when the event they point at is discarded.
`written`, `lost` and the looks of a reader record the run: all events taken in, how many of them
were discarded, and what each reader was given.
-/

namespace Qnx.Slogger

open Qnx.Ring

abbrev Word := BitVec 32

def hdrInts : Nat := 3

/-- `_SLOG_MAXSIZE` in ints -/
def maxInts : Nat := 0xff + 3 - 1

def getCount (w : Word) : Nat := ((w >>> 16) &&& 0xff#32).toNat

def header (w : Word) (msecs cnt : Nat) : Word :=
  ((w &&& ~~~0x00fffff0#32) ||| (BitVec.ofNat 32 msecs <<< 4)) |||
    (BitVec.ofNat 32 (cnt - hdrInts) <<< 16)

def stamp (data : List Word) (msecs : Nat) (secs : Word) : List Word :=
  (data.set 0 (header (data.headD 0) msecs data.length)).set 2 secs

inductive Errno where
  | einval | eagain | e2big
  deriving DecidableEq, Repr

inductive Reply where
  | data (ints : List Word)
  | count (nbytes : Nat)
  | error (e : Errno)
  deriving DecidableEq, Repr

/-- A read request; `mem` tells whether there is memory to block it. -/
structure Request where
  rcvid : Nat
  ocb : Nat
  priority : Nat
  nbytes : Nat
  nonblock : Bool
  mem : Bool
  deriving DecidableEq, Repr

/-- What a reader with room for `room` ints was given, when `written` events had been taken in and
`lost` of them discarded. -/
structure Look where
  lost : Nat
  written : Nat
  room : Nat
  ints : List Word
  deriving DecidableEq, Repr

/-- An open for reading: `pos` is its `OCBGET`. -/
structure Reader where
  id : Nat
  pos : Option Nat
  looks : List Look
  deriving DecidableEq, Repr

/-- `struct slogdev`; pointers into the buffer count from `beg`. -/
structure SlogSt where
  buf : Nat → Word
  cnt : Nat
  put : Nat
  get : Nat
  readers : List Reader
  waiting : List Request
  replies : List (Nat × Reply)
  written : List (List Word)
  lost : Nat

def advance (N ptr n : Nat) : Nat := if N ≤ ptr + n then ptr + n - N else ptr + n

def copyIn (N : Nat) (buf : Nat → Word) (put : Nat) (ev : List Word) : Nat → Word :=
  if N ≤ put + ev.length then
    store (store buf put (ev.take (N - put))) 0 (ev.drop (N - put))
  else store buf put ev

namespace SlogSt

def reply (s : SlogSt) (rcvid : Nat) (r : Reply) : SlogSt :=
  { s with replies := s.replies ++ [(rcvid, r)] }

def checkOverrun (N : Nat) (s : SlogSt) (ptr n : Nat) : SlogSt :=
  { s with readers := s.readers.map fun r =>
      if r.pos = some ptr ∧ ptr ≠ s.put then { r with pos := some (advance N ptr n) } else r }

def discard (N : Nat) (s : SlogSt) : SlogSt :=
  let n := getCount (s.buf s.get) + hdrInts
  let s := s.checkOverrun N s.get n
  { s with cnt := s.cnt - n, get := advance N s.get n, lost := s.lost + 1 }

def makeRoom (N cnt : Nat) : Nat → SlogSt → SlogSt
  | 0, s => s
  | fuel + 1, s => if N - s.cnt < cnt then makeRoom N cnt fuel (s.discard N) else s

def append (N : Nat) (s : SlogSt) (ev : List Word) : SlogSt :=
  { s with
    buf := copyIn N s.buf s.put ev
    put := if N ≤ s.put + ev.length then ev.length - (N - s.put) else s.put + ev.length
    cnt := s.cnt + ev.length
    written := s.written ++ [ev] }

def unfill (N : Nat) (s : SlogSt) : SlogSt := if s.put = s.get then s.discard N else s

def look (s : SlogSt) (ocb pos room : Nat) (ints : List Word) : SlogSt :=
  { s with readers := s.readers.map fun r =>
      if r.id = ocb then
        ⟨r.id, some pos, r.looks ++ [⟨s.lost, s.written.length, room, ints⟩]⟩
      else r }

def waitAdd (req : Request) : List Request → List Request
  | [] => [req]
  | w :: l => if w.priority ≤ req.priority then req :: w :: l else w :: waitAdd req l

/-- The ints of the whole events from `ptrend` on that are fewer than `n` with the `cnt` before. -/
def scan (N : Nat) (s : SlogSt) (n : Nat) : Nat → Nat → Nat → Nat
  | 0, cnt, _ => cnt
  | fuel + 1, cnt, ptrend =>
    if ptrend = s.put then cnt
    else
      let i := getCount (s.buf ptrend) + hdrInts
      if n ≤ i + cnt then cnt else scan N s n fuel (cnt + i) (advance N ptrend i)

/-- `io_read` of a reader at `ptr` with room for `n` ints -/
def readAt (N : Nat) (s : SlogSt) (req : Request) (n ptr : Nat) : SlogSt :=
  if ptr = s.put then
    let s := s.look req.ocb ptr n []
    if req.nonblock then s.reply req.rcvid (.error .eagain)
    else if ¬req.mem then s.reply req.rcvid (.error .eagain)
    else { s with waiting := waitAdd req s.waiting }
  else
    let cnt := s.scan N n N 0 ptr
    if cnt = 0 then (s.look req.ocb ptr n []).reply req.rcvid (.error .e2big)
    else
      let room := N - ptr
      let ints := fetch N s.buf ptr cnt
      let next := if room < cnt then cnt - room else if room = cnt then 0 else ptr + cnt
      (s.look req.ocb next n ints).reply req.rcvid (.data ints)

def ioRead (N : Nat) (s : SlogSt) (req : Request) : SlogSt :=
  if req.nbytes / 4 < hdrInts then s.reply req.rcvid (.error .einval)
  else if req.nbytes % 4 ≠ 0 then s.reply req.rcvid (.error .einval)
  else match s.readers.find? (·.id = req.ocb) with
    | none => s
    | some r => s.readAt N req (req.nbytes / 4) (r.pos.getD s.get)

def wake (N : Nat) : Nat → SlogSt → Option SlogSt
  | 0, s => match s.waiting with
    | [] => some s
    | _ :: _ => none
  | fuel + 1, s => match s.waiting with
    | [] => some s
    | w :: rest => wake N fuel (({ s with waiting := rest } : SlogSt).ioRead N w)

/-- `io_write` of the ints `data`, at a time; `none` where the readers that wait keep it busy for
ever. -/
def ioWrite (N : Nat) (s : SlogSt) (rcvid : Nat) (data : List Word) (msecs : Fin 1000)
    (secs : Word) : Option SlogSt :=
  if data.length < hdrInts ∨ maxInts < data.length then some (s.reply rcvid (.error .einval))
  else
    let s := s.reply rcvid (.count (data.length * 4))
    let s := ((s.makeRoom N data.length s.cnt).append N (stamp data msecs secs)).unfill N
    s.wake N s.waiting.length

end SlogSt

/-- Opens for reading and closes come with `iofunc_ocb_calloc` and `iofunc_ocb_free`. -/
inductive SlogOp where
  | ocbCalloc (id : Nat)
  | ocbFree (id : Nat)
  | read (req : Request)
  | write (rcvid : Nat) (data : List Word) (msecs : Fin 1000) (secs : Word)
  | unblock (rcvid : Nat)

namespace SlogSt

def step (N : Nat) (s : SlogSt) : SlogOp → Option SlogSt
  | .ocbCalloc id => some { s with readers := ⟨id, none, []⟩ :: s.readers }
  | .ocbFree id => some { s with readers := s.readers.filter (·.id ≠ id) }
  | .read req => some (s.ioRead N req)
  | .write rcvid data msecs secs => s.ioWrite N rcvid data msecs secs
  | .unblock rcvid => some { s with waiting := s.waiting.eraseP (·.rcvid = rcvid) }

/-- `slogger_init`, before anyone has opened the device. -/
def Start (s : SlogSt) : Prop :=
  s.cnt = 0 ∧ s.put = 0 ∧ s.get = 0 ∧ s.readers = [] ∧ s.waiting = [] ∧ s.written = [] ∧ s.lost = 0

def Served (s : SlogSt) : SlogOp → Prop
  | .ocbCalloc id => ∀ r ∈ s.readers, r.id ≠ id
  | _ => True

end SlogSt

def start (w : List (List Word)) (i : Nat) : Nat := (w.take i).flatten.length

namespace SlogSt

def addr (N : Nat) (s : SlogSt) (i : Nat) : Nat := start s.written i % N

/-- A write that leaves no int free finds no reader at the events it takes out, nor at the oldest
that stays. -/
def Clear (N : Nat) (s : SlogSt) : SlogOp → Prop
  | .write _ data _ _ => ∀ j ≤ s.written.length - s.lost,
      (s.written.drop (s.lost + j)).flatten.length + data.length = N →
      ∀ r ∈ s.readers, ∀ i ≤ j, r.pos ≠ some (s.addr N (s.lost + i))
  | _ => True

end SlogSt

end Qnx.Slogger
