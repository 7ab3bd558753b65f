import Mathlib.Algebra.Group.Nat.Defs
import Qnx.Shared.OwnerList

/-!
# Physical allocator: the quanta of a block

`init_block`, `pa_getrunhead`, `pa_carve`, `pa_alloc_given` and the list work of `_pa_free`, on
one block of quanta. A quantum is its index. `none` is a fault: a null owner is followed, a
search leaves the block, or a check that calls `crash` fails.
-/

namespace Qnx.Memmgr

open OwnerList Function

/-- `struct block_head` with its quanta; `links` are `u.flink` of the quanta and `free.next`. -/
structure Block where
  numQuanta : Nat
  run : Nat → Int
  flags : Nat → BitVec 16
  links : Links Unit Nat
  freeOwner : Cell Unit Nat

def flagInuse : BitVec 16 := 0x1000

/-- `PAQ_FLAG_PRESERVE_BITS`: `PAQ_FLAG_INIT_REQUIRED` and the colour. -/
def preserveBits : BitVec 16 := 0x008f

def colourNone : BitVec 16 := 0x000f

def quantumBits : Nat := 12

/-- `ROUNDUP(len, QUANTUM_SIZE) >> QUANTUM_BITS` on a `size_t`. -/
def lenToRun (len : Nat) : Nat := (len + 4095) % 2 ^ 32 / 2 ^ quantumBits

def tailCalc (runsize : Int) : Int := -(runsize - 1)

namespace Block

def setRun (b : Block) (q : Nat) (v : Int) : Block := { b with run := update b.run q v }

def modFlags (b : Block) (q : Nat) (f : BitVec 16 → BitVec 16) : Block :=
  { b with flags := update b.flags q (f (b.flags q)) }

def setTail (b : Block) (q : Nat) (v : Int) : Block :=
  { b with run :=
      if 1 < b.run q then update b.run (q + (b.run q).toNat - 1) v else b.run }

/-- `q->run = v; SET_TAIL(q, TAIL_CALC(q->run))` -/
def mark (b : Block) (q : Nat) (v : Int) : Block :=
  let b := b.setRun q v
  b.setTail q (tailCalc (b.run q))

def inuse (b : Block) (q : Nat) : Bool := b.flags q &&& flagInuse != 0

def initBlock (num : Nat) : Block :=
  let b : Block :=
    { numQuanta := num
      run := fun _ => 0
      flags := fun _ => colourNone
      links := ⟨fun _ => none, fun _ => none, fun _ => none⟩
      freeOwner := .head () }
  let b := b.mark 0 num
  { b with
    links := (b.links.setOwner 0 (some (.head ()))).write (.head ()) (some 0)
    freeOwner := .next 0 }

/-- Back from `q` to the first quantum whose `run` is not zero. -/
def backup (b : Block) : Nat → Option Nat
  | 0 => none
  | q + 1 => if b.run q = 0 then b.backup q else some q

/-- `curr + curr->run` -/
def jump (b : Block) (q : Nat) : Option Nat := ((q : Int) + b.run q).toNat?

def paGetrunhead (b : Block) (q : Nat) : Option Nat :=
  if b.run q < 0 then b.jump q
  else if b.run q > 0 then some q
  else b.backup q

def unlinkFree (b : Block) (q : Nat) : Option Block :=
  (b.links.owner q).map fun owner =>
    let links := b.links.unlink q
    match b.links.next q with
    | some _ => { b with links := links }
    | none => { b with links := links.write owner none, freeOwner := owner }

/-- `rhs->flink.next->flink.owner = &rhs->flink.next`, or the end of the free list. -/
def ownNext (b : Block) (rhs : Nat) : Block :=
  match b.links.next rhs with
  | some x => { b with links := b.links.setOwner x (some (.next rhs)) }
  | none => { b with freeOwner := .next rhs }

def relink (b : Block) (start rhs : Nat) : Option Block :=
  (b.links.owner start).map fun owner =>
    let links := (b.links.setOwner rhs (some owner)).write owner (some rhs)
    ({ b with links := links.write (.next rhs) (links.next start) } : Block).ownNext rhs

def linkAfter (b : Block) (lhs rhs : Nat) : Block :=
  let links := (b.links.write (.next rhs) (b.links.next lhs)).setOwner rhs (some (.next lhs))
  ({ b with links := links.write (.next lhs) (some rhs) } : Block).ownNext rhs

/-- `carveHead`, `carveEnd` and `carveMiddle` are the branches of `pa_carve`. -/
def carveHead (b : Block) (start nrun : Nat) (total : Int) : Option Block :=
  let b := b.mark start nrun
  if total = nrun then b.unlinkFree start
  else
    let rhs := start + nrun
    let b := (b.mark rhs (total - nrun)).modFlags rhs (· &&& ~~~flagInuse)
    b.relink start rhs

def carveEnd (b : Block) (head start nrun : Nat) : Block :=
  let b := b.setRun head (b.run head - nrun)
  let b := b.setRun start nrun
  let b := b.setTail start (tailCalc (b.run start))
  b.setTail head (tailCalc (b.run head))

/-- The flags of `rhs` are left as they are here. -/
def carveMiddle (b : Block) (head start nrun : Nat) (total : Int) : Block :=
  let rhs := start + nrun
  let b := b.mark head (start - head : Int)
  let b := b.mark start nrun
  let b := b.mark rhs (total - (b.run head + nrun))
  b.linkAfter head rhs

def markCarved (b : Block) (start : Nat) : Block :=
  { b with links := (b.links.write (.next start) none).setOwner start none }.modFlags start
    (· ||| flagInuse)

def paCarve (b : Block) (head start len : Nat) : Option Block :=
  let nrun := lenToRun len
  if b.inuse head then none
  else
    let total := b.run head
    let carved :=
      if 0 < b.run start then b.carveHead start nrun total
      else if (head : Int) + b.run head = start + nrun then some (b.carveEnd head start nrun)
      else some (b.carveMiddle head start nrun total)
    carved.map (·.markCarved start)

/-- The head of the run, found by `pa_alloc_given` itself. -/
def givenStart (b : Block) (pq : Nat) : Option Nat :=
  (if b.run pq = 0 then b.backup pq else some pq).bind fun start =>
    if b.run start < 0 then b.jump start else some start

/-- `false` is `ENXIO`. -/
def paAllocGiven (b : Block) (pq num : Nat) : Option (Block × Bool) :=
  (b.givenStart pq).bind fun start =>
    if b.inuse start then some (b, false)
    else if (pq + num : Int) > start + b.run start then some (b, false)
    else (b.paCarve start pq (num * 2 ^ quantumBits % 2 ^ 32)).map fun b =>
      ({ b with links := b.links.write (.next pq) none }, true)

def clearFlags (b : Block) (paq num : Nat) : Block :=
  { b with flags := fun q =>
      if paq ≤ q ∧ q < paq + num then b.flags q &&& preserveBits else b.flags q }

/-- `freeStart` prepares the run to be freed: its first quantum, the end of the in-use run, and
whether the run before has taken it in. -/
def freeStart (b : Block) (paq num : Nat) : Option (Block × Nat × Int × Bool) :=
  if 0 < b.run paq then
    let next := (paq : Int) + b.run paq
    if 0 < paq then
      (b.paGetrunhead (paq - 1)).map fun prev =>
        if b.inuse prev then (b, paq, next, false)
        else
          let b := (b.setTail prev 0).setRun paq 0
          (b.mark prev (b.run prev + num), prev, next, true)
    else some (b, paq, next, false)
  else
    (b.paGetrunhead paq).map fun (curr : Nat) =>
      let next := (curr : Int) + b.run curr
      (b.mark curr (paq - curr : Int), paq, next, false)

def makeFree (b : Block) (paq num : Nat) (left : Bool) : Block :=
  if left then b
  else (b.mark paq num).modFlags paq (· &&& preserveBits)

def splitEnd (b : Block) (t1 : Nat) (next : Int) : Block :=
  (b.mark t1 (next - t1)).modFlags t1 (· ||| flagInuse)

def absorb (b : Block) (runStart next : Nat) : Block :=
  let b := b.setTail runStart 0
  let b := b.setRun runStart (b.run runStart + b.run next)
  let b := if 1 < b.run next then (b.setRun next 0).modFlags next (· &&& ~~~flagInuse) else b
  b.setTail runStart (tailCalc (b.run runStart))

/-- What follows the quanta freed, which end before `paqEnd`: the rest of their run, a free run
to take in, or neither. -/
def freeEnd (b : Block) (paqEnd runStart : Nat) (next : Int) : Option Block :=
  if paqEnd < next then some (b.splitEnd paqEnd next)
  else if paqEnd > next then none
  else if next < b.numQuanta ∧ ¬b.inuse paqEnd then
    (b.unlinkFree paqEnd).map (·.absorb runStart paqEnd)
  else some b

def addTail (b : Block) (paq : Nat) : Block :=
  { b with
    links := ((b.links.write (.next paq) none).setOwner paq (some b.freeOwner)).write b.freeOwner
      (some paq)
    freeOwner := .next paq }

/-- `_pa_free` in the kernel, without the accounting. -/
def paFree (b : Block) (paq num : Nat) : Option Block :=
  if num = 0 then some b
  else
    ((b.clearFlags paq num).freeStart paq num).bind fun (b, runStart, next, left) =>
      ((b.makeFree paq num left).freeEnd (paq + num) runStart next).map fun b =>
        if left then b else b.addTail paq

end Block

end Qnx.Memmgr
