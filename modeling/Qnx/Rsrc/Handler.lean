import Mathlib.Algebra.Group.Nat.Defs
import Mathlib.Algebra.Group.Int.Defs
import Qnx.Shared.CString
import Qnx.Shared.Ring

/-!
# Messages to the resource database

`rsrcdbmgr_handler` with what it reads and writes of its receive buffer. Offsets count from the
message; `none` stands for an access outside the `msg_max_size` bytes of the buffer, or through a
`NULL` process pointer. What the database and the memory answer is an `Outcome`. What is written to
an element (its name, its flags, the range found) is not read again as part of another element or of
a name, as the names lie behind the elements; only a query's result is read back, and modelled.
-/

namespace Qnx.Rsrc.Handler

open CString

/-- `sizeof(rsrc_cmd_t)`, where the elements begin. -/
def cmdSize : Nat := 20

def allocSize : Nat := 24

def requestSize : Nat := 48

def minorSize : Nat := 16

/-- `rsrc_block_t` as a query copies it. -/
structure Block where
  start : Nat
  end_ : Nat
  flags : Nat
  owner : Nat
  deriving DecidableEq, Repr

structure Env where
  max : Nat
  fits : cmdSize + minorSize ≤ max
  small : max < 2 ^ 32
  access : Bool
  sender : Nat
  procs : Nat → Bool
  majors : List (Option (List Byte))
  named : ∀ c, some c ∈ majors → ∀ b ∈ c, b ≠ 0
  active : List Byte → Option (List Block)

/-- The header of a message and all that lies in memory from its beginning on. -/
structure Msg where
  subtype : Nat
  pid : Nat
  nbytes : Nat
  count : Nat
  index : Nat
  mem : Nat → Byte

inductive Req where
  | create | destroy | attach | detach | query | count | queryName | other
  deriving DecidableEq, Repr

def Msg.req (m : Msg) : Req :=
  match m.subtype &&& 0xfe00 with
  | 0x200 => .create
  | 0x400 => .destroy
  | 0x600 => .attach
  | 0x800 => .detach
  | 0xa00 => .query
  | 0xc00 => .count
  | 0xe00 => .queryName
  | _ => .other

def Msg.isMinor (m : Msg) : Bool := m.subtype &&& 0xff = 8

inductive Found where
  | ok | einval | other
  deriving DecidableEq, Repr

/-- By element: whether it is created, destroyed or detached; what the search for it finds and at
which priority; whether what was found is removed. For minor numbers: whether there is memory for the
list of the process, and whether the number is in it. -/
structure Outcome where
  done : Nat → Bool
  find : Nat → Found
  pri : Nat → Nat
  remove : Nat → Bool
  list : Bool
  listed : Bool

inductive Answer where
  | eok | eperm | emsgsize | einval | error
  | reply (ret nbytes : Nat)
  deriving DecidableEq, Repr

def word (mem : Nat → Byte) (o : Nat) : Nat :=
  (mem o).toNat + 2 ^ 8 * (mem (o + 1)).toNat + 2 ^ 16 * (mem (o + 2)).toNat +
    2 ^ 24 * (mem (o + 3)).toNat

def rsrcNames : List (List Byte) :=
  [[109, 101, 109, 111, 114, 121], [105, 114, 113], [105, 111], [100, 109, 97],
    [112, 99, 105, 109, 101, 109, 111, 114, 121], [117, 110, 107, 110, 111, 119, 110]]

def id2name (flags : Nat) : List Byte := rsrcNames.getD (min (flags % 256) 5) []

def Msg.names (m : Msg) (size : Nat) : Nat := (cmdSize + size * m.count) % 2 ^ 32

def element (env : Env) (m : Msg) (size i p : Nat) : Option (List Byte × Nat) :=
  if cmdSize + size * (i + 1) ≤ env.max then cstr m.mem (env.max - p) p else none

/-- The loop of `do_create_destroy` and of `do_detach`; undoing goes over elements that are done. -/
def walk (env : Env) (m : Msg) (size : Nat) (ok : Nat → Bool) : Nat → Nat → Nat → Option Answer
  | 0, _, _ => some .eok
  | n + 1, i, p => match element env m size i p with
    | none => none
    | some (_, q) => if ok i then walk env m size ok n (i + 1) q else some .error

/-! ### `do_attach` -/

def Msg.flags (m : Msg) (i : Nat) : Nat := word m.mem (cmdSize + requestSize * i + 32)

/-- `RSRCDBMGR_FLAG_NAME` and `RSRCDBMGR_FLAG_LIST` -/
def Msg.hasName (m : Msg) (i : Nat) : Bool := (m.flags i).testBit 13

def Msg.inList (m : Msg) (i : Nat) : Bool := (m.flags i).testBit 14

structure Best where
  ret : Found
  indx : Option Nat
  pri : Nat

def Best.first (o : Outcome) (i : Nat) : Best :=
  if o.find i = .ok then ⟨.ok, some i, o.pri i⟩ else ⟨o.find i, none, 2 ^ 31 - 1⟩

def Best.next (b : Best) (o : Outcome) (i : Nat) : Best :=
  if o.find i = .ok ∧ o.pri i < b.pri then ⟨.ok, some i, o.pri i⟩ else b

def Best.granted (b : Best) (o : Outcome) : Bool :=
  match b.ret, b.indx with
  | .ok, some i => o.remove i
  | _, _ => false

def rootName (mem : Nat → Byte) : Nat → Nat → Option (List Byte)
  | 0, _ => none
  | n + 1, p => if mem p = 0 ∨ mem p = 47 then some []
    else (rootName mem n (p + 1)).map (mem p :: ·)

def toInt (x : Nat) : Int := if x < 2 ^ 31 then x else x - 2 ^ 32

def matching (pid : Int) (bs : List Block) : List Block :=
  bs.filter fun b => pid = -2 ∨ (b.owner : Int) = pid ∨ pid = -1 ∧ b.owner ≠ 0

def leBytes (k x : Nat) : List Byte := (List.range k).map fun i => BitVec.ofNat 8 (x / 256 ^ i)

def Block.bytes (b : Block) : List Byte :=
  leBytes 8 b.start ++ leBytes 8 b.end_ ++ leBytes 4 b.flags ++ leBytes 4 b.owner

def copyOut (env : Env) (mem : Nat → Byte) (first : Nat) (bs : List Block) : Option (Nat → Byte) :=
  if bs = [] then some mem
  else if cmdSize + allocSize * (first + bs.length) ≤ env.max then
    some (Ring.store mem (cmdSize + allocSize * first) (bs.flatMap Block.bytes))
  else none

def classOf (env : Env) (m : Msg) (mem : Nat → Byte) : Option (List Block) :=
  if m.nbytes ≠ 0 then
    (rootName mem (env.max - cmdSize) cmdSize).map fun name => (env.active name).getD []
  else some ((env.active (id2name m.subtype)).getD [])

/-- `_rsrcdbmgr_query` with an array of `room` elements: how many are returned. -/
def queryList (env : Env) (mem : Nat → Byte) (bs : List Block) (start : Int) (room : Nat) :
    Option (Option Nat × (Nat → Byte)) :=
  let total := bs.length
  if total = 0 then some (some 0, mem)
  else if (total : Int) ≤ start ∨ room = 0 then some (none, mem)
  else
    let n := min (((total : Int) - start) % 2 ^ 32).toNat room
    let out := (bs.drop start.toNat).take ((start + n).toNat - start.toNat)
    (copyOut env mem (-start).toNat out).map fun mem => (some n, mem)

def queryReply (env : Env) (ret n : Nat) : Option Answer :=
  if cmdSize + allocSize * n ≤ env.max then some (.reply ret (allocSize * n)) else none

def Env.room (env : Env) : Nat := (env.max - cmdSize) / allocSize

def queryName (env : Env) (m : Msg) : Option Answer :=
  match classOf env m m.mem with
  | none => none
  | some bs =>
    match queryList env m.mem (matching (toInt m.pid) bs) (toInt m.index)
        (min m.count env.room) with
    | none => none
    | some (none, _) => some .error
    | some (some n, _) => queryReply env n n

/-- `msg->i.pid` is unsigned where it is compared. -/
def Msg.client (env : Env) (m : Msg) : Nat := if 0 < m.pid then m.pid else env.sender

end Qnx.Rsrc.Handler
