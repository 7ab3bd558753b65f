import Qnx.Shared.Bitmap
import Qnx.Shared.Run

/-!
# Device numbers

`_rsrc_minor` on `g_devno_table`: names with their majors, and for each a bitmap of the minors that
are taken. `none` stands for an access outside the bitmap, a shift by more than the width or a use
of memory that was not got. `live` records the attachments.
-/

namespace Qnx.Rsrc

open Bitmap

def maxMinors : Nat := 1024

def maxMajors : Nat := 64

inductive Errno where
  | eok | einval | enomem
  deriving DecidableEq, Repr

/-- `rsrc_devno_t`; the `count` of a bitmap is its length. -/
structure Devno where
  name : Option String
  minors : Option (List Byte)
  deriving DecidableEq, Repr

/-- Which allocations of a request succeed: the name, the first byte, more bytes. -/
structure Memory where
  name : Bool
  first : Bool
  more : Bool
  deriving DecidableEq, Repr

inductive Request where
  | attach (name : String) (minor : Int) (mem : Memory)
  | detach (major : Int) (minor : Int)
  deriving DecidableEq, Repr

/-- The status and, for an attach, the numbers it gives. -/
structure Result where
  status : Errno
  major : Nat
  minor : Nat
  deriving DecidableEq, Repr

abbrev Table := Nat → Devno

def search (t : Table) (hit : Nat → String → Bool) : Nat → Nat × Bool
  | 0 => (maxMajors, false)
  | n + 1 =>
    let (eindex, found) := search t hit n
    match (t n).name with
    | none => (min eindex n, found)
    | some name => if hit n name then (n, true) else (eindex, found)

def setEntry (t : Table) (i : Nat) (d : Devno) : Table := fun k => if k = i then d else t k

def newName (t : Table) (i : Nat) (name : String) (mem : Memory) : Option (Table × List Byte) :=
  let name := if mem.name then some name else none
  match (t i).minors with
  | some bits => some (setEntry t i ⟨name, some bits⟩, bits)
  | none => if mem.first then some (setEntry t i ⟨name, some [0]⟩, [0]) else none

def attachMinor (t : Table) (i : Nat) (bits : List Byte) (minor : Int) (mem : Memory) :
    Result × Table :=
  let m := if minor < 0 then firstFree bits else minor.toNat
  if maxMinors ≤ m then (⟨.einval, i, m⟩, t)
  else if bits.length ≤ m / 8 then
    if mem.more then
      let bits := grow bits (m / 8 + 1)
      (⟨.eok, i, m⟩, setEntry t i ⟨(t i).name, some (set bits m)⟩)
    else (⟨.enomem, i, m⟩, t)
  else if isSet bits m then (⟨.einval, i, m⟩, t)
  else (⟨.eok, i, m⟩, setEntry t i ⟨(t i).name, some (set bits m)⟩)

def detachMinor (t : Table) (i : Nat) (bits : List Byte) (minor : Int) : Option (Result × Table) :=
  if (maxMinors : Int) ≤ minor then some (⟨.einval, i, 0⟩, t)
  else
    -- in 16 and 8 bits
    let index := (minor.tdiv 8 % 65536).toNat
    let bit := (minor.tmod 8 % 256).toNat
    if 8 ≤ bit ∨ bits.length ≤ index then none
    else
      let bits := clear bits (8 * index + bit)
      let name := if bits.any (· ≠ 0) then (t i).name else none
      some (⟨.eok, i, 8 * index + bit⟩, setEntry t i ⟨name, some bits⟩)

def rsrcMinor (t : Table) : Request → Option (Result × Table)
  | .attach name minor mem =>
    let (eindex, found) := search t (fun _ n => n = name) maxMajors
    if found then
      match (t eindex).minors with
      | some bits => some (attachMinor t eindex bits minor mem)
      | none => none
    else if eindex = maxMajors then some (⟨.einval, 0, 0⟩, t)
    else
      match newName t eindex name mem with
      | some (t, bits) => some (attachMinor t eindex bits minor mem)
      | none => none
  | .detach major minor =>
    let (eindex, found) := search t (fun i _ => (i : Int) = major) maxMajors
    if found then
      match (t eindex).minors with
      | some bits => detachMinor t eindex bits minor
      | none => none
    else some (⟨.einval, 0, 0⟩, t)

structure Attachment where
  name : String
  major : Nat
  minor : Nat
  deriving DecidableEq, Repr

structure MinorSt where
  table : Table
  live : List Attachment

def account (live : List Attachment) (res : Result) : Request → List Attachment
  | .attach name _ _ =>
    if res.status = .eok then ⟨name, res.major, res.minor⟩ :: live else live
  | .detach _ _ =>
    if res.status = .eok then
      live.filter fun a => ¬(a.major = res.major ∧ a.minor = res.minor)
    else live

def MinorSt.step (s : MinorSt) (req : Request) : Option MinorSt :=
  (rsrcMinor s.table req).map fun (res, t) => ⟨t, account s.live res req⟩

def MinorSt.Start (s : MinorSt) : Prop := s.table = (fun _ => ⟨none, none⟩) ∧ s.live = []

end Qnx.Rsrc
