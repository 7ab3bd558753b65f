import Mathlib.Data.Nat.Bitwise
import Qnx.Shared.Chain
import Qnx.Shared.Run

/-!
# Vectors of kernel objects

`nano_vector.c`. A slot holds an object pointer, bit 1 a flag; with bit 0 set it is on the free
list, which runs through the slots. Words are 32 bits. `none` is an access outside the vector
or a call of `crash`.
-/

namespace Qnx.Ker

def vectorMax : Nat := 0xffff - 1

def vecand (ptr bits : Nat) : Nat := ptr &&& bits

def vecor (ptr bits : Nat) : Nat := ptr ||| bits

/-- `VECAND(ptr, ~3)` -/
def vecptr (ptr : Nat) : Nat := vecand ptr 0xfffffffc

/-- `VECTOR`, with the words of the array it points to. -/
structure Vec where
  nentries : Nat
  nfree : Nat
  free : Nat
  vector : Nat
  slots : Nat → Nat

namespace Vec

def zeroed : Vec := ⟨0, 0, 0, 0, fun _ => 0⟩

def addr (v : Vec) (i : Nat) : Nat := v.vector + 4 * i

def slotAt (v : Vec) (a : Nat) : Option Nat :=
  if v.vector ≤ a ∧ (a - v.vector) % 4 = 0 ∧ (a - v.vector) / 4 < v.nentries then
    some ((a - v.vector) / 4)
  else none

/-- `*prev`, for `prev` the address of `vec->free` or of a slot. -/
def read (v : Vec) : Option Nat → Nat
  | none => v.free
  | some i => v.slots i

def write (v : Vec) (c : Option Nat) (w : Nat) : Vec :=
  match c with
  | none => { v with free := w }
  | some i => { v with slots := Function.update v.slots i w }

/-- The search of `vector_add` from cell `prev`: the first free slot at or after `index`, with the
cell that links to it. -/
def findFree (v : Vec) (index : Nat) : Nat → Option Nat → Option (Option (Option Nat × Nat))
  | 0, _ => none
  | fuel + 1, prev =>
    if vecptr (v.read prev) = 0 then some none
    else
      (v.slotAt (vecptr (v.read prev))).bind fun i =>
        if index ≤ i then some (some (prev, i)) else findFree v index fuel (some i)

/-- `*(int *)prev += adjust` along the free list; the last cell is left as it is. -/
def relocate (adjust : Nat) : Nat → Vec → Option Nat → Option (Vec × Option Nat)
  | 0, _, _ => none
  | fuel + 1, v, prev =>
    if vecptr (v.read prev) = 0 then some (v, prev)
    else
      let v := v.write prev ((v.read prev + adjust) % 2 ^ 32)
      (v.slotAt (vecptr (v.read prev))).bind fun i => relocate adjust fuel v (some i)

/-- Link `inc` new slots from slot `cur` on. A zero `inc` wraps, and the loop leaves the array. -/
def linkNew (v : Vec) (cur : Nat) : Nat → Option Vec
  | 0 => none
  | 1 => some (v.write (some cur) (vecor 0 1))
  | inc + 2 => linkNew (v.write (some cur) (vecor (v.addr (cur + 1)) 1)) (cur + 1) (inc + 1)

/-- The size `vector_add` grows to; `index + 1` is computed in an `unsigned`. -/
def growTo (v : Vec) (index : Nat) : Nat :=
  min vectorMax <| max 8 <|
    if v.nentries ≤ index then (index + 1) % 2 ^ 32 else v.nentries + (v.nentries + 4) / 4

/-- Move the vector to `n` zeroed words at `ptr`. The new array is in place before the links are
adjusted: nothing reads `vec->vector` in between. -/
def grow (v : Vec) (ptr n : Nat) : Option Vec :=
  -- the memcpy of the old entries
  if n < v.nentries then none
  else
    let adjust := (ptr + 2 ^ 32 - v.vector) % 2 ^ 32
    let v₁ := { v with
      nentries := n
      vector := ptr
      slots := fun i => if i < v.nentries then v.slots i else 0 }
    (relocate adjust (n + 1) v₁ none).bind fun (v₂, prev) =>
      ((v₂.write prev (vecor (v₂.addr v.nentries) 1)).linkNew v.nentries (n - v.nentries)).map
        fun v₃ => { v₃ with nfree := (v₃.nfree + (n - v.nentries)) % 2 ^ 16 }

/-- `vector_add`; `alloc` is what `_scalloc` returns. The result is the slot, or `none` for -1.
The second call ends without a third: the fuel is the depth of the recursion. -/
def vectorAdd : Nat → Vec → Nat → Nat → Option Nat → Option (Vec × Option Nat)
  | 0, _, _, _, _ => none
  | fuel + 1, v, object, index, alloc =>
    if vecand object 3 ≠ 0 then none
    else
      (v.findFree index (v.nentries + 1) none).bind fun
        | some (prev, i) =>
          let v := (v.write prev (v.slots i)).write (some i) object
          some ({ v with nfree := (v.nfree + 0xffff) % 2 ^ 16 }, some i)
        | none =>
          if v.nentries = vectorMax then some (v, none)
          else
            match alloc with
            | none => some (v, none)
            | some ptr =>
              (v.grow ptr (v.growTo index)).bind fun v =>
                if object ≠ 0 then vectorAdd fuel v object index alloc else some (v, some index)

/-- `while(VECAND(*vecp, 1) == 0) --vecp;` from slot `i`. -/
def scanBack (v : Vec) : Nat → Option Nat
  | 0 => if vecand (v.slots 0) 1 = 0 then none else some 0
  | i + 1 => if vecand (v.slots (i + 1)) 1 = 0 then scanBack v i else some (i + 1)

/-- Where `vector_rem` links slot `index`: in `vec->free`, or in the free slot before it. The test
compares the address of slot `index - 1` with that of the first free slot. -/
def remCell (v : Vec) (index : Nat) : Option (Option Nat) :=
  if vecptr v.free = 0 ∨ v.addr index < vecptr v.free + 4 then some none
  else if index = 0 then none
  else (v.scanBack (index - 1)).map some

def vectorRem (v : Vec) (index : Nat) : Option (Vec × Option Nat) :=
  if v.nentries ≤ index ∨ vecand (v.slots index) 1 ≠ 0 then some (v, none)
  else
    let ptr := vecptr (v.slots index)
    (v.remCell index).map fun vecp =>
      let v := v.write (some index) (v.read vecp)
      let v := v.write vecp (vecor (v.addr index) 1)
      ({ v with nfree := (v.nfree + 1) % 2 ^ 16 }, some ptr)

/-- `vector_flag`, returning whether it found an object. -/
def vectorFlag (v : Vec) (index : Nat) (flag : Bool) : Vec × Bool :=
  if v.nentries ≤ index ∨ vecand (v.slots index) 1 ≠ 0 then (v, false)
  else
    let ptr := v.slots index
    (v.write (some index) (if flag then vecor ptr 2 else vecand ptr 0xfffffffd), true)

/-- `vector_free`; `vec->free` keeps its value. -/
def vectorFree (v : Vec) : Vec := { v with nentries := 0, nfree := 0, vector := 0 }

end Vec

end Qnx.Ker
