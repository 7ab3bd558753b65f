import Qnx.Shared.Extents
import Qnx.Shared.Chain
import Qnx.Shared.Run

/-!
# The kernel heap

`_sreallocfunc` on `ker_free_list`, for words of 32 bits. A pointer to a link (`pp`, `fit`) is `none`
for the list head and `some e` for `&e->next`; 0 is `NULL`. The fields of the free entries are kept
apart from the bytes of memory, which writes to them overwrite.
-/

namespace Qnx.Ker

open Extents Function

def add32 (x y : Nat) : Nat := (x + y) % 2 ^ 32

def sub32 (x y : Nat) : Nat := (x + 2 ^ 32 - y) % 2 ^ 32

def entrySize : Nat := 8

/-- `ALIGN`, with `_MALLOC_ALIGN` 8. -/
def alignSize (n : Nat) : Nat := add32 n 7 / 8 * 8

def roundNew (n : Nat) : Nat :=
  if n = 0 then 0 else if n ≤ entrySize then entrySize else alignSize n

def roundOld (n : Nat) : Nat := if n < entrySize then entrySize else alignSize n

structure HeapSt where
  /-- `ker_free_list` -/
  head : Nat
  next : Nat → Nat
  size : Nat → Nat
  bytes : Nat → Nat

structure HeapPlace where
  pp : Option Nat
  prev : Nat
  p : Nat
  fit : Option (Option Nat)
  deriving DecidableEq, Repr

structure SResult where
  heap : HeapSt
  ptr : Nat
  region : Option Extent

/-- More rounds than there are entries of 8 bytes. -/
def heapFuel : Nat := 2 ^ 29

namespace HeapSt

variable (st : HeapSt)

def get : Option Nat → Nat
  | none => st.head
  | some e => st.next e

def poke (bytes : Nat → Nat) (a v : Nat) : Nat → Nat := fun x =>
  if a ≤ x ∧ x < a + 4 then v / 256 ^ (x - a) % 256 else bytes x

def setNext (e v : Nat) : HeapSt :=
  { st with next := update st.next e v, bytes := poke st.bytes e v }

def setSize (e v : Nat) : HeapSt :=
  { st with size := update st.size e v, bytes := poke st.bytes (e + 4) v }

def set : Option Nat → Nat → HeapSt
  | none, v => { st with head := v }
  | some e, v => st.setNext e v

/-- The walk to the place of `data`, which also looks for an entry that fits. A `data` inside an
entry was freed already: `crash`. -/
def scan (newSize data : Nat) : Nat → Option Nat → Nat → Option (Option Nat) → Option HeapPlace
  | 0, _, _, _ => none
  | fuel + 1, pp, prev, fit =>
    let p := st.get pp
    if p = 0 then some ⟨pp, prev, 0, fit⟩
    else
      let fit := if newSize ≠ 0 ∧ (st.size p = newSize ∨
          fit = none ∧ add32 newSize entrySize ≤ st.size p) then some pp else fit
      if data ≠ 0 ∧ p ≤ data ∧ data < add32 p (st.size p) then none
      else if data ≠ 0 ∧ data < p then some ⟨pp, prev, p, fit⟩
      else scan newSize data fuel (some p) p fit

def search (newSize : Nat) : Nat → Option Nat → Option (Option (Option Nat × Nat))
  | 0, _ => none
  | fuel + 1, fit =>
    let new := st.get fit
    if new = 0 then some none
    else if st.size new = newSize ∨ add32 newSize entrySize ≤ st.size new then
      some (some (fit, new))
    else search newSize fuel (some new)

def replace (pp : Option Nat) (e size next : Nat) : HeapSt :=
  ((st.setSize e size).setNext e next).set pp e

/-- The entry `new` or its front is taken; `pp` and `prev` follow if they were at it. -/
def take (fit : Option Nat) (new newSize : Nat) (pp : Option Nat) (prev : Nat) :
    HeapSt × Option Nat × Nat :=
  if st.size new = newSize then
    let st1 := st.set fit (st.next new)
    if prev = new then (st1, fit, 0) else (st1, pp, prev)
  else
    let p := add32 new newSize
    let st1 := st.replace fit p (sub32 (st.size new) newSize) (st.next new)
    if prev = new then (st1, some p, p) else (st1, pp, prev)

def joinPrev (pp : Option Nat) (prev data size : Nat) : HeapSt × Nat :=
  if prev ≠ 0 ∧ add32 prev (st.size prev) = data then
    (st.setSize prev (add32 (st.size prev) size), prev)
  else (((st.setNext data (st.get pp)).setSize data size).set pp data, data)

def joinNext (prev : Nat) : HeapSt :=
  let p := st.next prev
  if add32 prev (st.size prev) = p then
    (st.setNext prev (st.next p)).setSize prev (add32 (st.size prev) (st.size p))
  else st

def freeBlock (pp : Option Nat) (prev data size : Nat) : HeapSt :=
  let (st1, prev) := st.joinPrev pp prev data size
  st1.joinNext prev

def release (data size : Nat) : Option HeapSt :=
  (st.scan 0 data heapFuel none 0 none).map fun pl =>
    if data ≠ 0 then st.freeBlock pl.pp pl.prev data size else st

def memcpy (dst src n : Nat) : HeapSt :=
  { st with
    bytes := fun x => if dst ≤ x ∧ x < dst + n then st.bytes (src + (x - dst)) else st.bytes x }

def move (pp : Option Nat) (prev data old newSize new : Nat) : HeapSt :=
  if data ≠ 0 then (st.memcpy new data (min newSize old)).freeBlock pp prev data old else st

def finish (st : HeapSt) (new : Nat) (region : Option Extent) : Option SResult :=
  if new % 8 ≠ 0 then none else some ⟨st, new, region⟩

/-- The heap grows by what `alloc` returned; what is left behind the block is freed. -/
def grown (pl : HeapPlace) (data old newSize : Nat) (region : Extent) : Option SResult :=
  let size := sub32 region.2 newSize
  let add := add32 region.1 newSize
  if size ≠ 0 then
    let st1 := (st.setSize add size).move pl.pp pl.prev data old newSize region.1
    (st1.release add (roundOld (st1.size add))).bind fun st2 => st2.finish region.1 (some region)
  else (st.move pl.pp pl.prev data old newSize region.1).finish region.1 (some region)

/-- Allocation, with the place of the old block `data` (0 if there is none). -/
def enlarge (pl : HeapPlace) (data old newSize : Nat) (alloc : Option Extent) : Option SResult :=
  if data ≠ 0 ∧ add32 data old = pl.p ∧ newSize = add32 old (st.size pl.p) then
    some ⟨st.set pl.pp (st.next pl.p), data, none⟩
  else if data ≠ 0 ∧ add32 data old = pl.p ∧ add32 newSize entrySize ≤ add32 old (st.size pl.p) then
    some ⟨st.replace pl.pp (add32 data newSize) (sub32 (add32 old (st.size pl.p)) newSize)
      (st.next pl.p), data, none⟩
  else
    (st.search newSize heapFuel (pl.fit.getD pl.pp)).bind fun
      | some (fit, new) =>
        let (st1, pp, prev) := st.take fit new newSize pl.pp pl.prev
        (st1.move pp prev data old newSize new).finish new none
      | none =>
        match alloc with
        | none => some ⟨st, 0, none⟩
        | some region => st.grown pl data old newSize region

/-- `_sreallocfunc`; `alloc` is what the callback answers if it is called. -/
def sreallocfunc (data old new : Nat) (alloc : Option Extent) : Option SResult :=
  let newSize := roundNew new
  if data % 8 ≠ 0 then none
  else if data ≠ 0 ∧ old ≠ 0 then
    let oldSize := roundOld old
    if newSize = oldSize then some ⟨st, data, none⟩
    else if newSize = 0 then (st.release data oldSize).map fun st1 => ⟨st1, 0, none⟩
    else if add32 newSize entrySize ≤ oldSize then
      (st.release (add32 data newSize) (sub32 oldSize newSize)).map fun st1 => ⟨st1, data, none⟩
    else
      (st.scan newSize data heapFuel none 0 none).bind fun pl =>
        st.enlarge pl data oldSize newSize alloc
  else if newSize = 0 then
    some ⟨if data ≠ 0 then st.freeBlock none 0 data old else st, 0, none⟩
  else st.enlarge ⟨none, 0, 0, some none⟩ data old newSize alloc

def zero (a n : Nat) : HeapSt :=
  { st with bytes := fun x => if a ≤ x ∧ x < a + n then 0 else st.bytes x }

end HeapSt

/-- The heap, the blocks that are out with their rounded sizes, and all that `alloc` returned. -/
structure HeapRun where
  heap : HeapSt
  blocks : List Extent
  regions : List Extent

inductive HeapOp where
  | smalloc (n : Nat) (alloc : Option Extent)
  | scalloc (n : Nat) (alloc : Option Extent)
  | srealloc (data old n : Nat) (alloc : Option Extent)
  | sfree (data old : Nat)
  | write (a v : Nat)
  deriving DecidableEq, Repr

namespace HeapRun

/-- What a call obtained, and the block it returned for the one it was given. -/
def account (s : HeapRun) (r : SResult) (data old new : Nat) : HeapRun where
  heap := r.heap
  regions := r.region.toList ++ s.regions
  blocks :=
    if r.ptr ≠ 0 then (r.ptr, roundNew new) :: s.blocks.erase (data, roundOld old)
    else if new = 0 then s.blocks.erase (data, roundOld old)
    else s.blocks

end HeapRun

def heapStep (s : HeapRun) : HeapOp → Option HeapRun
  | .smalloc n alloc => (s.heap.sreallocfunc 0 0 n alloc).map fun r => s.account r 0 0 n
  | .scalloc n alloc => (s.heap.sreallocfunc 0 0 n alloc).map fun r =>
      s.account { r with heap := if r.ptr ≠ 0 then r.heap.zero r.ptr n else r.heap } 0 0 n
  | .srealloc data old n alloc => (s.heap.sreallocfunc data old n alloc).map fun r =>
      s.account r data old n
  | .sfree data old => (s.heap.sreallocfunc data old 0 none).map fun r => s.account r data old 0
  | .write a v => some { s with heap := { s.heap with bytes := update s.heap.bytes a v } }

end Qnx.Ker
