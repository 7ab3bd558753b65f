import Qnx.Rsrc.Handler

/-!
# Which messages stay in the buffer

`rsrcdbmgr_handler` checks `nbytes` of the requests that carry elements, and walks by `count`; it
limits the `count` of a query, and then takes it from `nbytes`. How far a walk comes is for the
database to say, which may refuse an element.
-/

namespace Qnx.Rsrc.Handler

open CString List

variable {env : Env} {m : Msg} {size : Nat}

/-! ### Elements and names -/

variable {i p q n k room : Nat} {s name : List Byte} {mem : Nat → Byte} {bs : List Block} {P : Prop}

/-- The strings that end in the buffer, from where the names begin. -/
def Msg.strs (env : Env) (m : Msg) (size : Nat) : List (List Byte) :=
  strings m.mem (env.max - m.names size) (m.names size)

/-- Element `i` is in the buffer, with its name. -/
def Held (env : Env) (m : Msg) (size i : Nat) : Prop :=
  cmdSize + size * (i + 1) ≤ env.max ∧ i < (m.strs env size).length

/-- All elements that are come to are held: the walk goes on from those before, and a break ends it
at the next one. -/
def Reached (env : Env) (m : Msg) (size : Nat) (goes breaks : Nat → Prop) : Prop :=
  ∀ i < m.count, (∀ j < i, goes j) → (∀ j, j + 1 < i → ¬breaks j) → Held env m size i

section

variable {goes breaks : Nat → Prop}

end

/-- All elements up to the first that the database refuses are held. -/
def Walked (env : Env) (m : Msg) (size : Nat) (ok : Nat → Bool) : Prop :=
  Reached env m size (ok · = true) fun _ => False

def Msg.nameOf (env : Env) (m : Msg) (j : Nat) : List Byte :=
  if m.hasName j then (m.strs env requestSize).getD j []
  else id2name (m.flags (if 0 < j ∧ m.inList (j - 1) then j - 1 else j))

/-- The list that element `j` is in goes on with another name. -/
def Breaks (env : Env) (m : Msg) (j : Nat) : Prop :=
  m.inList j = true ∧ m.nameOf env (j + 1) ≠ m.nameOf env j

/-- The best match of the list that element `j` is in, up to it. -/
def bestAt (m : Msg) (o : Outcome) : Nat → Best
  | 0 => .first o 0
  | j + 1 =>
    if m.inList j ∧ (bestAt m o j).ret ≠ .other then (bestAt m o j).next o (j + 1)
    else .first o (j + 1)

/-- After element `j` its list goes on, or what was found for it is granted. -/
def GoesOn (m : Msg) (o : Outcome) (j : Nat) : Prop :=
  (m.inList j = true ∧ (bestAt m o j).ret ≠ .other) ∨ (bestAt m o j).granted o = true

section

variable {o : Outcome}

/-- All elements that `do_attach` comes to are held. -/
def Attached (env : Env) (m : Msg) (o : Outcome) : Prop :=
  Reached env m requestSize (GoesOn m o) (Breaks env m)

end

/-! ### Queries -/

def NameEnds (env : Env) (mem : Nat → Byte) : Prop :=
  ∃ k, cmdSize ≤ k ∧ k < env.max ∧ (mem k = 0 ∨ mem k = 47)

def Msg.found (env : Env) (m : Msg) : List Block :=
  matching (if m.subtype.testBit 8 then -1 else 0) ((classOf env m m.mem).getD [])

/-- How many of them it copies, by its own count of what the client has room for. -/
def Msg.copied (env : Env) (m : Msg) : Nat :=
  min (((m.found env).length - min m.count env.room) % 2 ^ 32) (m.nbytes / allocSize)

def QueryFits (env : Env) (m : Msg) : Prop :=
  (m.nbytes ≠ 0 → NameEnds env m.mem) ∧
    (min m.count env.room < (m.found env).length → m.copied env ≤ env.room ∧
      (m.copied env ≠ 0 → NameEnds env (Ring.store m.mem cmdSize
        ((((m.found env).drop (min m.count env.room)).take (m.copied env)).flatMap Block.bytes))))

def MinorNameFits (env : Env) (m : Msg) (p : Nat) : Prop :=
  (∃ k, p ≤ k ∧ k < env.max ∧ m.mem k = 0) ∨
    none ∉ env.majors ∧ ∀ s, some s ∈ env.majors → ∃ k < env.max - p, s[k]? ≠ some (m.mem (p + k))

def MinorFits (env : Env) (m : Msg) (o : Outcome) : Prop :=
  match m.req with
  | .detach => 64 ≤ toInt (word m.mem cmdSize) ∨ 1024 ≤ toInt (word m.mem (cmdSize + 4)) ∨
      env.procs (m.client env) = true
  | .attach => env.procs (m.client env) = true ∧
      (o.list = true → MinorNameFits env m (cmdSize + minorSize))
  | _ => True

section

variable {o : Outcome}

/-- The names begin behind the elements. A greater count wraps the address of the names around,
which are then read from elements that are written. -/
def Msg.Counted (m : Msg) : Prop :=
  match m.req with
  | .create | .destroy => allocSize * m.count < 2 ^ 32
  | .attach | .detach => requestSize * m.count < 2 ^ 32
  | _ => True

/-- The messages that the handler serves within its buffer. -/
def Fits (env : Env) (m : Msg) (o : Outcome) : Prop :=
  match m.req with
  | .other => True
  | .query => m.isMinor = true ∨ QueryFits env m
  | .count | .queryName => m.isMinor = true ∨ (m.nbytes ≠ 0 → NameEnds env m.mem)
  | .create | .destroy | .attach | .detach =>
    ¬env.access = true ∨ m.nbytes = 0 ∨ env.max - cmdSize ≤ m.nbytes ∨
      if m.isMinor then MinorFits env m o
      else m.Counted ∧ match m.req with
        | .create | .destroy => Walked env m allocSize o.done
        | .detach => Walked env m requestSize o.done
        | _ => Attached env m o

end

end Qnx.Rsrc.Handler
