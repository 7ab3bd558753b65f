import Mathlib.Algebra.Group.Nat.Defs
import Qnx.Shared.Circular

/-!
# Timer queues

`nano_timer.c`. A timer queue is a wheel of slots, each a circular list of timers closed by
the slot's own links. The pending list is a list of timers and `tip->pending` its flag; the
queues hang on one list, the monotonic ones before the time-of-day ones. Overruns, the
`EXPIRED` flag and the events themselves are left out: of an event only the timers that its
execution deactivates matter. The `CRASHCHECK`s are left out too.
-/

namespace Qnx.Ker

open Circular Function

abbrev Tip := Nat

abbrev Qid := Nat

inductive Node where
  | timer (tip : Tip)
  | slot (q : Qid) (idx : Nat)
  deriving DecidableEq, Repr

/-- `todBased`, `absolute` and `active` are flags, `softtime` is `clockid == CLOCK_SOFTTIME`,
and `hasThread` says whether a thread to notify is still there. -/
structure Timer where
  nsec : Nat
  intervalNsec : Nat
  todBased : Bool
  absolute : Bool
  softtime : Bool
  active : Bool
  pending : Bool
  hasThread : Bool
  queue : Option Qid
  deriving DecidableEq, Repr

structure TimerQueue where
  downshift : Nat
  mask : Nat
  numActive : Nat
  tod : Bool
  old : Bool
  fireIdx : Nat
  lastTickIdx : Nat
  deriving DecidableEq, Repr

/-- `allocs` says which of the next calls of `new_queue` find memory; `event` gives the timers
that executing a timer's event deactivates, `none` if an interrupt handler must queue it. -/
structure Wheel where
  links : Ptrs Node
  timer : Tip → Timer
  queue : Qid → TimerQueue
  nqueues : Nat
  queueHead : List Qid
  queueDead : List Qid
  monTimers : Qid
  todTimers : Qid
  pendingHead : List Tip
  timerOpsDelayed : Bool
  nsec : Nat
  nsecTodAdjust : Nat
  nsecInc : Nat
  queuedIntrevents : Nat
  growIntrevents : Nat
  allocs : List Bool
  event : Tip → Option (List Tip)

/-- Who runs the code: a kernel call, or the clock interrupt over user code, over other kernel
code, or over a kernel call that has set `timers_kerop`. -/
inductive Ctx where
  | task | user | kernel | kerop
  deriving DecidableEq, Repr

def Ctx.isr (c : Ctx) : Bool := c ≠ .task

def wrap64 (n : Nat) : Nat := n % 2 ^ 64

def getQueueIdx (q : TimerQueue) (t : Nat) : Nat := ((t % 2 ^ 32) >>> q.downshift) &&& q.mask

/-- `(a - b) & mask` on `unsigned`. -/
def idxSub (a b mask : Nat) : Nat := ((a + 2 ^ 32 - b) % 2 ^ 32) &&& mask

def maxSearch : Nat := 100

def maxMask : Nat := 127

inductive Place where
  | after (n : Node)
  | before (n : Node)
  | grow
  deriving DecidableEq, Repr

namespace Wheel

def modTimer (w : Wheel) (tip : Tip) (f : Timer → Timer) : Wheel :=
  { w with timer := update w.timer tip (f (w.timer tip)) }

def modQueue (w : Wheel) (q : Qid) (f : TimerQueue → TimerQueue) : Wheel :=
  { w with queue := update w.queue q (f (w.queue q)) }

def snapTime (w : Wheel) (inclTod : Bool) : Nat :=
  if inclTod then wrap64 (w.nsec + w.nsecTodAdjust) else w.nsec

def head (w : Wheel) (tod : Bool) : Qid := if tod then w.todTimers else w.monTimers

def setHead (w : Wheel) (tod : Bool) (q : Qid) : Wheel :=
  if tod then { w with todTimers := q } else { w with monTimers := q }

def initSlots (p : Ptrs Node) (q : Qid) (entries : Nat) : Ptrs Node where
  next
    | .slot q' i => if q' = q ∧ i < entries then .slot q' i else p.next (.slot q' i)
    | n => p.next n
  prev
    | .slot q' i => if q' = q ∧ i < entries then .slot q' i else p.prev (.slot q' i)
    | n => p.prev n

/-- A successful `new_queue`; its result is the old `nqueues`. -/
def newQueue (w : Wheel) (entries downshift : Nat) : Wheel :=
  { w with
    links := initSlots w.links w.nqueues entries
    queue := update w.queue w.nqueues ⟨downshift, entries - 1, 0, false, false, 0, 0⟩
    nqueues := w.nqueues + 1 }

def addInNewQueue (w : Wheel) (tod : Bool) (old new : Qid) : Wheel :=
  let w := w.modQueue new fun q => { q with tod := (w.queue old).tod, old := (w.queue old).old }
  let w := { w with queueHead := w.queueHead.flatMap fun q => if q = old then [q, new] else [q] }
  (w.setHead tod new).modQueue old fun q => { q with old := true }

def nsecOf (w : Wheel) : Node → Option Nat
  | .timer tip => some (w.timer tip).nsec
  | .slot _ _ => none

/-- The two-ended search. `search` is `max_search`, `none` once it can no longer reach zero.
Comparing with the sentinel, or running on for longer than the queue has timers, gives
`none`. -/
def insertSearch (w : Wheel) (mask nsec : Nat) :
    Nat → Node → Node → Option Nat → List Bool → Option (Place × List Bool)
  | 0, _, _, _, _ => none
  | n + 1, fore, back, search, allocs =>
    let fore := w.links.next fore
    let back := w.links.prev back
    let grow := search = some 1 ∧ mask < maxMask
    if grow ∧ allocs.head? = some true then some (.grow, allocs.tail)
    else
      let allocs := if grow then allocs.tail else allocs
      let search := match search with
        | some (k + 2) => some (k + 1)
        | _ => none
      match w.nsecOf back with
      | none => none
      | some b =>
        if nsec ≥ b then some (.after back, allocs)
        else match w.nsecOf fore with
          | none => none
          | some f =>
            if nsec < f then some (.before fore, allocs)
            else insertSearch w mask nsec n fore back search allocs

def linkIn (w : Wheel) (q : Qid) (a : Node) (tip : Tip) (b : Node) : Wheel :=
  { w with links := w.links.link a (.timer tip) b }.modQueue q
    fun q => { q with numActive := q.numActive + 1 }

/-- The place of `tip` in the queue `q`; an empty slot is not searched. -/
def findPlace (w : Wheel) (tip : Tip) (q : Qid) (isr : Bool) : Option (Place × List Bool) :=
  let tq := w.queue q
  let search :=
    if isr then none
    else if tq.numActive ≥ 2 * maxSearch * (tq.mask + 1) then some 1
    else some maxSearch
  let nsec := (w.timer tip).nsec
  let s := Node.slot q (getQueueIdx tq nsec)
  if w.links.next s = s then some (.after s, w.allocs)
  else w.insertSearch tq.mask nsec (tq.numActive + 1) s s search w.allocs

/-- Link `tip` in at its place, or make a queue of twice the size and say so. -/
def place (w : Wheel) (tip : Tip) (q : Qid) : Place → Wheel × Bool
  | .after back => (w.linkIn q back tip (w.links.next back), false)
  | .before fore => (w.linkIn q (w.links.prev fore) tip fore, false)
  | .grow =>
    ((w.newQueue (((w.queue q).mask + 1) <<< 1) (w.queue q).downshift).addInNewQueue
      (w.timer tip).todBased q w.nqueues, true)

/-- One pass of `timer_insert` over the queue `q`, and whether it ended in a new queue. -/
def insertOnce (w : Wheel) (tip : Tip) (q : Qid) (isr : Bool) : Option (Wheel × Bool) :=
  let w := w.modTimer tip fun t => { t with queue := some q }
  (w.findPlace tip q isr).map fun r => { w with allocs := r.2 }.place tip q r.1

/-- `timer_insert`. The new queue is empty, so there is at most one retry. -/
def timerInsert (w : Wheel) (tip : Tip) (isr : Bool) : Option Wheel :=
  let tod := (w.timer tip).todBased
  match w.insertOnce tip (w.head tod) isr with
  | none => none
  | some (w, false) => some w
  | some (w, true) =>
    match w.insertOnce tip (w.head tod) isr with
    | some (w, false) => some w
    | _ => none

def unlinkFrom (w : Wheel) (q : Qid) (tip : Tip) : Wheel :=
  { w with links := w.links.unlink (.timer tip) }.modQueue q
    fun q => { q with numActive := q.numActive - 1 }

def stepOf (w : Wheel) (tip : Tip) : Nat := max (w.timer tip).intervalNsec w.nsecInc

def nextNsec (w : Wheel) (tip : Tip) : Nat :=
  let t := w.timer tip
  let nsec := wrap64 (t.nsec + w.stepOf tip)
  let tod := w.snapTime t.todBased
  if t.softtime ∧ nsec < tod then wrap64 (tod + w.stepOf tip) else nsec

def timerRearm (w : Wheel) (tip : Tip) (isr : Bool) : Option Wheel :=
  match (w.timer tip).queue with
  | none => none
  | some q =>
    let w := w.unlinkFrom q tip
    if (w.timer tip).intervalNsec = 0 then
      some (w.modTimer tip fun t => { t with active := false, queue := none })
    else
      let nsec := w.nextNsec tip
      (w.modTimer tip fun t => { t with nsec := nsec }).timerInsert tip isr

def rearmPending (w : Wheel) (tip : Tip) : Option Wheel :=
  (w.modTimer tip fun t => { t with pending := false }).timerRearm tip false

def timerPending (w : Wheel) : Option Wheel :=
  let tips := w.pendingHead
  let w := { w with timerOpsDelayed := false, pendingHead := [] }
  (tips.foldlM rearmPending w).map fun w => { w with queueDead := [] }

/-- `timer_deactivate`; `none` also stands for its `crash()`. -/
def timerDeactivate (w : Wheel) (tip : Tip) : Option Wheel :=
  let w := w.modTimer tip fun t => { t with intervalNsec := 0 }
  let queue := (w.timer tip).queue
  let w :=
    if queue.isSome then
      (if (w.timer tip).pending then w.timerPending else some w).map fun w =>
        w.modTimer tip fun t => { t with queue := none }
    else some w
  w.bind fun w =>
    if (w.timer tip).active then
      queue.map fun q => (w.modTimer tip fun t => { t with active := false }).unlinkFrom q tip
    else some w

/-- The timer's event: executed at once, with the timers it deactivates, or queued. Without a
thread to notify, the timer will not be repeated. -/
def timerEvent (w : Wheel) (tip : Tip) (ctx : Ctx) : Option Wheel :=
  if ¬(w.timer tip).hasThread then some (w.modTimer tip fun t => { t with intervalNsec := 0 })
  else
    let queued : Wheel := { w with queuedIntrevents := w.queuedIntrevents + 1 }
    match ctx, w.event tip with
    | .task, tips => (tips.getD []).foldlM timerDeactivate w
    | .user, some tips => tips.foldlM timerDeactivate w
    | _, _ => some queued

def timerFire (w : Wheel) (tip : Tip) (ctx : Ctx) : Option (Node × Wheel) :=
  let next := w.links.next (.timer tip)
  if (w.timer tip).pending ∨ (w.timer tip).queue = none then some (next, w)
  else
    let w :=
      if ctx = .kerop then
        { w.modTimer tip (fun t => { t with pending := true }) with
          pendingHead := tip :: w.pendingHead }
      else w
    (w.timerEvent tip ctx).bind fun w =>
      if ¬(w.timer tip).pending ∧ (w.timer tip).queue ≠ none then
        let prev := w.links.prev (.timer tip)
        (w.timerRearm tip ctx.isr).map fun w =>
          (if w.links.next prev = .timer tip then .timer tip else next, w)
      else some (next, w)

/-- The innermost loop of `timer_expiry`, from node `n`. It has passed 51 timers at the latest,
so the fuel is not what ends it. A slot other than `first` has no `itime`. -/
def fireSlot (tod : Nat) (ctx : Ctx) (first : Node) :
    Nat → Wheel → Node → Nat → Option (Wheel × Nat × Bool)
  | 0, _, _, _ => none
  | fuel + 1, w, n, nfires =>
    if n = first then some (w, nfires, false)
    else match n with
      | .slot _ _ => none
      | .timer tip =>
        if (w.timer tip).nsec > tod then some (w, nfires, false)
        else (w.timerFire tip ctx).bind fun r =>
          if nfires + 1 > 50 ∨ r.2.queuedIntrevents > r.2.growIntrevents then
            some (r.2, nfires + 1, true)
          else fireSlot tod ctx first fuel r.2 r.1 (nfires + 1)

/-- The loop over the slots of `q`; `done` remembers that the limit was hit, which does not
end it. -/
def fireQueue (tod : Nat) (ctx : Ctx) (q : Qid) (currTickIdx : Nat) :
    Nat → Wheel → Nat → Bool → Option (Wheel × Nat × Bool)
  | 0, _, _, _ => none
  | fuel + 1, w, nfires, done =>
    let first := Node.slot q (w.queue q).fireIdx
    (fireSlot tod ctx first 52 w (w.links.next first) nfires).bind fun r =>
      let w := r.1
      if (w.queue q).fireIdx = currTickIdx then some (w, r.2.1, done || r.2.2)
      else
        fireQueue tod ctx q currTickIdx fuel
          (w.modQueue q fun q => { q with fireIdx := (q.fireIdx + 1) &&& q.mask })
          r.2.1 (done || r.2.2)

def expiryQueue (w : Wheel) (ctx : Ctx) (q : Qid) (tod currTickIdx nfires : Nat) :
    Option (Wheel × Nat × Bool) :=
  let tq := w.queue q
  let count := idxSub tq.lastTickIdx tq.fireIdx tq.mask + idxSub currTickIdx tq.lastTickIdx tq.mask
  let w :=
    if count > tq.mask then
      w.modQueue q fun t => { t with fireIdx := (currTickIdx + 1) &&& t.mask }
    else w
  fireQueue tod ctx q currTickIdx (tq.mask + 1) w nfires false

/-- The outer loop. No queue is added while it runs, so it follows the list as it was. -/
def expiryLoop (ctx : Ctx) : List Qid → Wheel → Nat → Bool → Nat → Option Wheel
  | [], w, _, _, _ => some w
  | q :: qs, w, tod, adjusted, nfires =>
    let adjust := !adjusted && (w.queue q).tod
    let tod := if adjust then wrap64 (tod + w.nsecTodAdjust) else tod
    let adjusted := adjusted || adjust
    let curr := getQueueIdx (w.queue q) tod
    let setLast := fun w : Wheel => w.modQueue q fun t => { t with lastTickIdx := curr }
    if (w.queue q).numActive ≠ 0 then
      (w.expiryQueue ctx q tod curr nfires).bind fun r =>
        if r.2.2 then some (setLast r.1)
        else expiryLoop ctx qs (setLast r.1) tod adjusted r.2.1
    else if (w.queue q).old ∧ ctx ≠ .kerop then
      let w := { w with queueHead := w.queueHead.erase q, queueDead := q :: w.queueDead }
      expiryLoop ctx qs (setLast w) tod adjusted nfires
    else
      expiryLoop ctx qs (setLast (w.modQueue q fun t => { t with fireIdx := curr })) tod adjusted
        nfires

def timerExpiry (w : Wheel) (ctx : Ctx) : Option Wheel :=
  (expiryLoop ctx w.queueHead w w.nsec false 0).map fun w =>
    if ¬w.timerOpsDelayed ∧ (w.pendingHead ≠ [] ∨ w.queueDead ≠ []) then
      { w with timerOpsDelayed := true, queuedIntrevents := w.queuedIntrevents + 1 }
    else w

def newPeriod (w : Wheel) (tod : Bool) (downshift : Nat) : Wheel :=
  let old := w.head tod
  let tq := w.queue old
  if tq.downshift = downshift then w
  else if tq.numActive = 0 then w.modQueue old fun q => { q with downshift := downshift }
  else match w.allocs with
    | true :: allocs =>
      ({ w with allocs := allocs }.newQueue (tq.mask + 1) downshift).addInNewQueue tod old w.nqueues
    | _ => { w with allocs := w.allocs.tail }

/-- `timer_period`; the loop counts the bits of `nsec_inc`. -/
def timerPeriod (w : Wheel) : Wheel :=
  let downshift := w.nsecInc.log2 + 1
  (w.newPeriod false downshift).newPeriod true downshift

def timerActivate (w : Wheel) (tip : Tip) : Option Wheel :=
  ((w.modTimer tip fun t => { t with active := true }).timerInsert tip false).bind fun w =>
    if (w.timer tip).absolute ∧ (w.timer tip).nsec ≤ w.snapTime (w.timer tip).todBased then
      (w.timerFire tip .task).map Prod.snd
    else some w

def timerInit (w : Wheel) : Wheel :=
  let tod := w.nqueues
  let w := (w.newQueue 4 0).modQueue tod fun q => { q with tod := true }
  let mon := w.nqueues
  { w.newQueue 4 0 with monTimers := mon, todTimers := tod, queueHead := [mon, tod] }

end Wheel

end Qnx.Ker
