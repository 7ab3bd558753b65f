import Mathlib.Data.List.Basic
import Qnx.Shared.Run

/-!
# Record locks of a file

`_iofunc_lock.c`, with `iofunc_lock`, `iofunc_close_dup` and `iofunc_unblock`. The lock list of a
file is a list of entries; an entry is known by the address `malloc` gave it. Offsets are those
`iofunc_lock` lets through, so they are not negative and a range starts no later than it ends.
-/

namespace Qnx.Iofunc

inductive LockType where
  | rd | wr
  deriving DecidableEq, Repr

/-- A request: what `struct _iofunc_lock_blocked` keeps of a client that waits. -/
structure Req where
  rcvid : Nat
  scoid : Nat
  type : LockType
  start : Nat
  last : Nat
  deriving DecidableEq, Repr

/-- `iofunc_lock_list_t` -/
structure Entry where
  id : Nat
  scoid : Nat
  type : LockType
  start : Nat
  last : Nat
  blocked : List Req
  deriving DecidableEq, Repr

/-- What the functions return; `noreply` is `_RESMGR_NOREPLY`. -/
inductive Status where
  | eok | einval | enomem | eagain | edeadlk | eintr | noreply
  deriving DecidableEq, Repr

/-- A null pointer is dereferenced, or the model's fuel is spent. -/
inductive Fault where
  | null | fuel
  deriving DecidableEq, Repr

/-- The answers `malloc` has yet to give, and the address of the next block. -/
structure Heap where
  answers : List Bool
  next : Nat
  deriving DecidableEq, Repr

/-- `malloc`; when the answers are used up it succeeds. -/
def Heap.malloc : Heap → Option Nat × Heap
  | ⟨[], n⟩ => (some n, ⟨[], n + 1⟩)
  | ⟨true :: m, n⟩ => (some n, ⟨m, n + 1⟩)
  | ⟨false :: m, n⟩ => (none, ⟨m, n⟩)

def overlap (s1 e1 s2 e2 : Nat) : Prop := s1 ≤ s2 ∧ s2 ≤ e1 ∨ s2 ≤ s1 ∧ s1 ≤ e2

instance (s1 e1 s2 e2 : Nat) : Decidable (overlap s1 e1 s2 e2) :=
  inferInstanceAs (Decidable (_ ∨ _))

def conflicts (q : Req) (cl : Entry) : Prop :=
  q.scoid ≠ cl.scoid ∧ overlap q.start q.last cl.start cl.last ∧ (cl.type ≠ q.type ∨ q.type ≠ .rd)

instance (q : Req) (cl : Entry) : Decidable (conflicts q cl) := inferInstanceAs (Decidable (_ ∧ _))

def lockFind (l : List Entry) (q : Req) : Option Entry := l.find? fun cl => conflicts q cl

/-- A list after a call has changed it, with the clients taken off its entries. -/
structure Edit where
  list : List Entry
  heap : Heap
  status : Status
  pending : List Req
  deriving DecidableEq, Repr

def lockAdd (pre post : List Entry) (r : Req) (h : Heap) : Edit :=
  match h.malloc with
  | (none, h) => ⟨pre ++ post, h, .enomem, []⟩
  | (some i, h) => ⟨pre ++ ⟨i, r.scoid, r.type, r.start, r.last, []⟩ :: post, h, .eok, []⟩

/-- `locksplit` of entry `cl`, up to the call of `reblock_pending_locks`. A piece that cannot be
had ends it where it is. -/
def locksplit (pre : List Entry) (cl : Entry) (post : List Entry) (r : Req) (h : Heap) : Edit :=
  if ¬overlap cl.start cl.last r.start r.last ∨ r.type = cl.type then
    ⟨pre ++ cl :: post, h, .eok, []⟩
  else
    let pending := cl.blocked
    let cl := { cl with blocked := [] }
    if r.start ≤ cl.start ∧ cl.last ≤ r.last then
      ⟨pre ++ { cl with start := r.start, last := r.last, type := r.type } :: post, h, .eok,
        pending⟩
    else if cl.start < r.start ∧ r.last < cl.last then
      match h.malloc with
      | (none, h) => ⟨pre ++ cl :: post, h, .einval, pending⟩
      | (some i, h) =>
        let mid : Entry := ⟨i, cl.scoid, r.type, r.start, r.last, []⟩
        match h.malloc with
        | (none, h) => ⟨pre ++ cl :: mid :: post, h, .einval, pending⟩
        | (some j, h) =>
          ⟨pre ++ { cl with last := r.start - 1 } :: mid ::
            ⟨j, cl.scoid, cl.type, r.last + 1, cl.last, []⟩ :: post, h, .eok, pending⟩
    else if r.start ≤ cl.start then
      match h.malloc with
      | (none, h) => ⟨pre ++ cl :: post, h, .einval, pending⟩
      | (some i, h) =>
        ⟨pre ++ { cl with type := r.type, start := r.start, last := r.last } ::
          ⟨i, cl.scoid, cl.type, r.last + 1, cl.last, []⟩ :: post, h, .eok, pending⟩
    else
      match h.malloc with
      | (none, h) => ⟨pre ++ cl :: post, h, .einval, pending⟩
      | (some i, h) =>
        ⟨pre ++ { cl with last := r.start - 1 } ::
          ⟨i, cl.scoid, r.type, r.start, r.last, []⟩ :: post, h, .eok, pending⟩

/-- Where the scan of `_iofunc_lock_scoid` stops: at an entry of the client that overlaps, after
the entries `pre`, or with `cl = pl` a null pointer. -/
inductive Place where
  | own (pre : List Entry) (cl : Entry) (post : List Entry)
  | after (pre post : List Entry)
  | null
  deriving DecidableEq, Repr

def scan (r : Req) : List Entry → List Entry → Place
  | pre, [] => .after pre []
  | pre, cl :: post =>
    if cl.scoid = r.scoid ∧ overlap r.start r.last cl.start cl.last then .own pre cl post
    else if cl.start > r.start then
      if pre = [] then .null else .after pre (cl :: post)
    else scan r (pre ++ [cl]) post

/-- The end of `_iofunc_lock_scoid`, where an entry of the client overlaps. -/
def overlay (pre : List Entry) (cl : Entry) (post : List Entry) (r : Req) (h : Heap) : Edit :=
  if cl.type = r.type then
    ⟨pre ++ { cl with last := max cl.last r.last, start := min cl.start r.start } :: post, h,
      .eok, []⟩
  else locksplit pre cl post r h

/-- What `_iofunc_lock_scoid` does to the list before clients are looked at again. -/
def lockEdit (l : List Entry) (r : Req) (h : Heap) : Option Edit :=
  match l with
  | [] => some (lockAdd [] [] r h)
  | cl :: post =>
    if r.last < cl.start then some (lockAdd [] (cl :: post) r h)
    else match scan r [] (cl :: post) with
      | .null => none
      | .after pre post => some (lockAdd pre post r h)
      | .own pre cl post => some (overlay pre cl post r h)

/-- The loop of `_iofunc_unlock_scoid`. When a piece cannot be had it ends at once. -/
def unlockLoop (scoid start last : Nat) : List Entry → Heap → Edit
  | [], h => ⟨[], h, .eok, []⟩
  | cl :: post, h =>
    if cl.scoid ≠ scoid ∨ ¬overlap start last cl.start cl.last then
      let e := unlockLoop scoid start last post h
      { e with list := cl :: e.list }
    else
      let pending := cl.blocked
      let cl := { cl with blocked := [] }
      if start ≤ cl.start ∧ cl.last ≤ last then
        let e := unlockLoop scoid start last post h
        { e with pending := pending ++ e.pending }
      else if cl.start < start ∧ last < cl.last then
        match h.malloc with
        | (none, h) => ⟨cl :: post, h, .einval, pending⟩
        | (some i, h) =>
          let e := unlockLoop scoid start last post h
          { e with
            list := { cl with last := start - 1 } ::
              ⟨i, cl.scoid, cl.type, last + 1, cl.last, []⟩ :: e.list
            pending := pending ++ e.pending }
      else if start ≤ cl.start ∧ last < cl.last then
        let e := unlockLoop scoid start last post h
        { e with list := { cl with start := last + 1 } :: e.list, pending := pending ++ e.pending }
      else
        let e := unlockLoop scoid start last post h
        { e with list := { cl with last := start - 1 } :: e.list, pending := pending ++ e.pending }

/-- A reply to a client that waited, with the lock list at that time. -/
structure Answer where
  req : Req
  status : Status
  list : List Entry
  deriving DecidableEq, Repr

/-- The lock list of a file. `told` are the clients that were told to wait, and `replied` the
replies to them; no code reads either. -/
structure LockSt where
  list : List Entry
  heap : Heap
  told : List Req
  replied : List Answer
  deriving DecidableEq, Repr

def enqueue (q : Req) : List Entry → List Entry
  | [] => []
  | cl :: post =>
    if conflicts q cl then { cl with blocked := cl.blocked ++ [q] } :: post
    else cl :: enqueue q post

namespace LockSt

def answered (s : LockSt) : List (Req × Status) := s.replied.map fun a => (a.req, a.status)

def put (s : LockSt) (e : Edit) : LockSt := { s with list := e.list, heap := e.heap }

def wait (s : LockSt) (q : Req) : LockSt := { s with list := enqueue q s.list }

/-- `MsgError`, or `_iofunc_lock_unblock` for `EOK`. -/
def answer (s : LockSt) (q : Req) (st : Status) : LockSt :=
  { s with replied := s.replied ++ [⟨q, st, s.list⟩] }

end LockSt

/-- `reblock_pending_locks`, with `_iofunc_lock_scoid` as `lock`. -/
def reblockWith (lock : LockSt → Req → Except Fault (LockSt × Status)) :
    List Req → LockSt → Except Fault LockSt
  | [], s => .ok s
  | q :: p, s =>
    match lockFind s.list q with
    | some _ => reblockWith lock p (s.wait q)
    | none =>
      match lock s q with
      | .error f => .error f
      | .ok (s, st) => reblockWith lock p (s.answer q st)

/-- `_iofunc_lock_scoid`, cut off at a nesting of `n` calls. -/
def lockScoidN : Nat → LockSt → Req → Except Fault (LockSt × Status)
  | 0, _, _ => .error .fuel
  | n + 1, s, r =>
    match lockEdit s.list r s.heap with
    | none => .error .null
    | some e =>
      if e.status = .eok then
        match reblockWith (lockScoidN n) e.pending (s.put e) with
        | .error f => .error f
        | .ok s => .ok (s, .eok)
      else .ok (s.put e, e.status)

namespace LockSt

def waiting (s : LockSt) : List Req := s.list.flatMap Entry.blocked

/-- `_iofunc_lock_scoid`. A nested call has one client less on the lists. -/
def lockScoid (s : LockSt) (r : Req) : Except Fault (LockSt × Status) :=
  lockScoidN (s.waiting.length + 1) s r

def unlockScoid (s : LockSt) (scoid start last : Nat) : Except Fault (LockSt × Status) :=
  let e := unlockLoop scoid start last s.list s.heap
  if e.status = .eok then
    match reblockWith (lockScoidN s.waiting.length) e.pending (s.put e) with
    | .error f => .error f
    | .ok s => .ok (s, .eok)
  else .ok (s.put e, e.status)

def block (s : LockSt) (r : Req) : LockSt × Status :=
  match s.heap.malloc with
  | (none, h) => ({ s with heap := h }, .enomem)
  | (some _, h) =>
    match h.malloc with
    | (none, h) => ({ s with heap := h }, .enomem)
    | (some _, h) => ({ s with heap := h, told := s.told ++ [r] }.wait r, .noreply)

/-- `iofunc_lock` with `F_SETLKW` (`wait`) or `F_SETLK`, for a read or a write lock. -/
def iofuncLock (s : LockSt) (r : Req) (wait : Bool) : Except Fault (LockSt × Status) :=
  match lockFind s.list r with
  | none => s.lockScoid r
  | some cl =>
    if wait then
      if r.scoid = cl.scoid then .ok (s, .edeadlk) else .ok (s.block r)
    else .ok (s, .eagain)

/-- `*pp`, for `pp` the address of the head or of the `next` of an entry. -/
def nextOf (s : LockSt) : Option Nat → Option Entry
  | none => s.list.head?
  | some i => ((s.list.dropWhile fun cl => cl.id ≠ i).drop 1).head?

/-- `iofunc_close_dup` after `n` turns of its loop. -/
def closeDup (scoid : Nat) : Nat → LockSt → Option Nat → Except Fault LockSt
  | 0, s, _ => .ok s
  | n + 1, s, pp =>
    match s.nextOf pp with
    | none => .ok s
    | some p =>
      if p.scoid = scoid then
        match s.unlockScoid p.scoid p.start p.last with
        | .error f => .error f
        | .ok (s, _) => closeDup scoid n s pp
      else closeDup scoid n s (some p.id)

def unblockEntry (rcvid : Nat) : List Entry → List Entry × Option Req
  | [] => ([], none)
  | cl :: post =>
    match cl.blocked.find? fun q => q.rcvid = rcvid with
    | some q => ({ cl with blocked := cl.blocked.erase q } :: post, some q)
    | none => let r := unblockEntry rcvid post; (cl :: r.1, r.2)

/-- `iofunc_unblock` for a client whose unblock request is there; it gets `EINTR`. -/
def unblock (s : LockSt) (rcvid : Nat) : LockSt :=
  match unblockEntry rcvid s.list with
  | (_, none) => s
  | (l, some q) => { s with list := l }.answer q .eintr

end LockSt

end Qnx.Iofunc
