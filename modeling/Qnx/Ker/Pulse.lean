import Qnx.Shared.PriQueue
import Qnx.Shared.Run

/-!
# The send queue of a channel

`pulse_add` and the queue side of `ker_msg_receivev`, on a queue shared by pulses and
SEND-blocked threads. Next to it, what the queue is for: a list of single deliveries.
-/

namespace Qnx.Ker

open PriQueue

inductive EntryType where
  | thread (thp : Nat) | pulse | vpulse | signal
  deriving DecidableEq, Repr

/-- An entry of `send_queue` as `pulse_add` reads it, a `PULSE`. In a `THREAD` the same bytes are
`policy` (`code`), the word of `state` to `internal_flags` (`value`), and the two words of
`timestamp_last_block` (`id` and `count`). -/
structure QEntry where
  type : EntryType
  priority : BitVec 8
  code : BitVec 8
  value : BitVec 32
  id : BitVec 32
  count : BitVec 32
  deriving DecidableEq, Repr

def pulseCountHead : BitVec 32 := 0xffffffff

def pulseCountMax : BitVec 32 := 0xfffffffe

structure PulseArgs where
  priority : BitVec 32
  code : BitVec 32
  value : BitVec 32
  id : BitVec 32
  deriving DecidableEq, Repr

namespace PulseArgs

def head (a : PulseArgs) : Bool := a.priority &&& 0x4000 ≠ 0

def prio (a : PulseArgs) : BitVec 8 := a.priority.setWidth 8

def type (a : PulseArgs) : EntryType :=
  if a.priority &&& 0x40000000 ≠ 0 then .vpulse
  else if a.priority &&& 0x20000000 ≠ 0 then .signal
  else .pulse

def entry (a : PulseArgs) : QEntry :=
  { type := a.type
    priority := a.prio
    code := a.code.setWidth 8
    value := a.value
    id := a.id
    count := if a.head then pulseCountHead else 1 }

/-- The entry agrees with the arguments in all that `pulse_add` compares but the count. -/
def Same (a : PulseArgs) (e : QEntry) : Prop :=
  e.code = a.code.setWidth 8 ∧ e.priority = a.prio ∧ e.value = a.value ∧ e.id = a.id

instance (a : PulseArgs) (e : QEntry) : Decidable (a.Same e) :=
  inferInstanceAs (Decidable (_ ∧ _))

end PulseArgs

/-- Cut the queue where `pulse_add` inserts: behind the `HEAD` entries, and for an ordinary pulse
behind those of at least its priority. -/
def insertionPoint (q : List QEntry) (a : PulseArgs) : List QEntry × List QEntry :=
  let heads := q.takeWhile (·.count = pulseCountHead)
  let rest := q.dropWhile (·.count = pulseCountHead)
  if a.head then (heads, rest)
  else (heads ++ rest.takeWhile (a.prio ≤ ·.priority), rest.dropWhile (a.prio ≤ ·.priority))

/-- `pulse_add`; `alloc` is whether `object_alloc` finds a pulse. `none` is a dropped pulse. -/
def pulseAdd (q : List QEntry) (a : PulseArgs) (alloc : Bool) : Option (List QEntry) :=
  let (front, back) := insertionPoint q a
  let fresh := if alloc then some (front ++ a.entry :: back) else none
  match front.getLast? with
  | none => fresh
  | some prev =>
    if a.Same prev ∧ prev.count ≠ pulseCountMax ∧ prev.count ≠ pulseCountHead then
      some (front.dropLast ++ { prev with count := prev.count + 1 } :: back)
    else fresh

/-- `LINK2_PRI(chp->send_queue, act, THREAD)` -/
def link2Pri (q : List QEntry) (e : QEntry) : List QEntry :=
  insertGE (fun e => e.priority.toNat) e q

inductive Item where
  | thread (e : QEntry)
  | pulse (head : Bool) (type : EntryType) (priority code : BitVec 8) (value id : BitVec 32)
  deriving DecidableEq, Repr

def QEntry.isPulse (e : QEntry) : Bool := e.type = .pulse ∨ e.type = .vpulse

def QEntry.isThread (e : QEntry) : Bool :=
  match e.type with
  | .thread _ => true
  | _ => false

def QEntry.item (e : QEntry) : Item :=
  match e.type with
  | .thread _ => .thread e
  | _ => .pulse (e.count = pulseCountHead) e.type e.priority e.code e.value e.id

def QEntry.afterReceive (e : QEntry) : List QEntry :=
  if e.isPulse then
    if e.count = pulseCountHead ∨ e.count - 1 = 0 then [] else [{ e with count := e.count - 1 }]
  else []

/-- `ker_msg_receivev` takes the first entry. A sender that is unblocked on the way, by a timeout
or a fault of its own, is `forceReady` before this. -/
def receive : List QEntry → Option (Item × List QEntry)
  | [] => none
  | e :: q => some (e.item, e.afterReceive ++ q)

def receivePulse : List QEntry → Option (Item × List QEntry)
  | [] => none
  | e :: q =>
    if e.isPulse then some (e.item, e.afterReceive ++ q)
    else (receivePulse q).map fun (i, q) => (i, e :: q)

def unqueue (q : List QEntry) (thp : Nat) : List QEntry := q.eraseP (·.type = .thread thp)

namespace Item

def head : Item → Bool
  | .thread _ => false
  | .pulse head _ _ _ _ _ => head

def priority : Item → BitVec 8
  | .thread e => e.priority
  | .pulse _ _ priority _ _ _ => priority

def isPulse : Item → Bool
  | .thread _ => false
  | .pulse _ _ _ _ _ _ => true

def isThread (thp : Nat) : Item → Bool
  | .thread e => e.type = .thread thp
  | .pulse _ _ _ _ _ _ => false

end Item

def PulseArgs.item (a : PulseArgs) : Item := a.entry.item

def QEntry.items (e : QEntry) : List Item :=
  match e.type with
  | .thread _ => [e.item]
  | _ => if e.count = pulseCountHead then [e.item] else List.replicate e.count.toNat e.item

def items (q : List QEntry) : List Item := q.flatMap QEntry.items

abbrev Stamped := Item × Nat

/-- What a channel should do with a new delivery: `HEAD` ones behind one another in front of all
others, the others by priority and then by time. -/
def enqueue (d : Stamped) (l : List Stamped) : List Stamped :=
  let heads := l.takeWhile (·.1.head)
  let rest := l.dropWhile (·.1.head)
  if d.1.head then heads ++ d :: rest
  else heads ++ insertGE (fun d => d.1.priority.toNat) d rest

def Before (d e : Stamped) : Prop :=
  match d.1.head, e.1.head with
  | true, true => d.2 < e.2
  | true, false => True
  | false, true => False
  | false, false => e.1.priority < d.1.priority ∨ e.1.priority = d.1.priority ∧ d.2 < e.2

structure PulseRun where
  queue : List QEntry
  pending : List Stamped
  clock : Nat
  deriving DecidableEq, Repr

namespace PulseRun

inductive Op where
  | pulseAdd (a : PulseArgs) (alloc : Bool)
  | send (e : QEntry)
  | receive
  | receivePulse
  | forceReady (thp : Nat)
  deriving DecidableEq, Repr

def step (r : PulseRun) : Op → Option PulseRun
  | .pulseAdd a alloc =>
    match Ker.pulseAdd r.queue a alloc with
    | none => some r
    | some q => some ⟨q, enqueue (a.item, r.clock) r.pending, r.clock + 1⟩
  | .send e => some ⟨link2Pri r.queue e, enqueue (e.item, r.clock) r.pending, r.clock + 1⟩
  | .receive =>
    match Ker.receive r.queue with
    | none => some r
    | some (_, q) => some ⟨q, r.pending.tail, r.clock⟩
  | .receivePulse =>
    match Ker.receivePulse r.queue with
    | none => some r
    | some (_, q) => some ⟨q, r.pending.eraseP (·.1.isPulse), r.clock⟩
  | .forceReady thp =>
    some ⟨unqueue r.queue thp, r.pending.eraseP (·.1.isThread thp), r.clock⟩

def Init (r : PulseRun) : Prop := r = ⟨[], [], 0⟩

/-- Signals are queued elsewhere; a sender is a thread that is not queued yet. -/
def Entry (r : PulseRun) : Op → Prop
  | .pulseAdd a _ => a.type ≠ .signal
  | .send e => e.isThread = true ∧ ∀ f ∈ r.queue, f.type ≠ e.type
  | _ => True

/-- A sender is not above a queued `HEAD` pulse and does not look like one; a pulse that looks like
a queued entry is of its type. -/
def Apart (r : PulseRun) : Op → Prop
  | .pulseAdd a _ => a.head = false → ∀ e ∈ r.queue, a.Same e → e.type = a.type
  | .send e =>
    e.count ≠ pulseCountHead ∧ ∀ f ∈ r.queue, f.count = pulseCountHead → e.priority ≤ f.priority
  | _ => True

/-- The queue holds what is pending, in the order in which it is to be received. -/
structure Disciplined (r : PulseRun) : Prop where
  items : items r.queue = r.pending.map Prod.fst
  ordered : r.pending.Pairwise Before

end PulseRun

end Qnx.Ker
