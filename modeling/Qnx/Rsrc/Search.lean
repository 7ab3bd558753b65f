import Qnx.Rsrc.Blocks

/-!
# Searching the resource database

`rsrc_find_range` and what it calls. It starts again inside a block as long as it may find a lower
priority; with a large alignment it may do so for ever, so the number of turns is bounded and `none`
stands for a search that does not end within it.
-/

namespace Qnx.Rsrc.Db

open Handler (Block)

/-! ### Priorities -/

/-- The addition binds closer than the conditional. -/
def Create.priority (c : Create) : Nat :=
  if c.node.priority + (c.flags &&& 0x4000) ≠ 0 then 1 else 0

def Create.meets (c : Create) (s e : Nat) : Bool :=
  (c.start ≤ s && s ≤ c.end_) || (s ≤ c.start && c.start ≤ e)

def findRangePriority (s e : Nat) : List Create → Nat → Nat
  | [], p => p
  | c :: l, p =>
    if e < c.start then p
    else findRangePriority s e l (if c.meets s e then max c.priority p else p)

def sub64 (x y : Nat) : Nat := (x + (2 ^ 64 - y)) % 2 ^ 64

def nextLoop (cur s e : Nat) (backward : Bool) : List Create → Nat → Nat → Nat
  | [], _, v => v
  | c :: l, p, v =>
    if e < c.start then v
    else if c.meets s e then
      let p' := max c.priority p
      nextLoop cur s e backward l p' <|
        if cur ≤ p' ∧ cur ≤ c.priority then
          if backward then min v (sub64 c.start 1) else max v (succ64 c.end_)
        else v
    else nextLoop cur s e backward l p v

/-- `find_next_priority`: where to go on, and whether to. -/
def findNextPriority (created : List Create) (s e : Nat) (backward : Bool) : Nat × Bool :=
  let cur := findRangePriority s e created 0
  let v := if backward then (if s = 0 then 0 else s - 1) else (if e = ullMax then ullMax else e + 1)
  let v := if cur = 0 then v else nextLoop cur s e backward created 0 v
  (v, if backward then v ≠ e else v ≠ s)

/-! ### `rsrc_find_range` -/

/-- The arguments of `rsrc_find_range` but for the limits. -/
structure Find where
  length : Nat
  alignment : Nat
  owner : Nat
  flags : Nat
  deriving DecidableEq, Repr

def Find.share (r : Find) : Bool := r.flags &&& flagShare ≠ 0

def Find.topdown (r : Find) : Bool := r.flags.testBit 12

/-- `BLOCK_SHARE_COMPATABLE` -/
def compatible (r : Find) (b : Block) : Bool :=
  b.owner = r.owner || (b.owner ≠ 0 && isShared b && r.share)

abbrev Match := Nat × Nat × Nat

def candidate (r : Find) (ts te : Nat) : Nat × Nat :=
  let ts := if r.topdown then sub64 te (sub64 r.length 1) else ts
  let extra := ts % r.alignment
  let ts := if extra = 0 then ts
    else if r.topdown then ts - extra else (ts + (r.alignment - extra)) % 2 ^ 64
  (ts, (ts + sub64 r.length 1) % 2 ^ 64)

/-- From `restart` on: the best match, and whether the search is over. -/
def tryBlock (created : List Create) (r : Find) (ls le : Nat) (b : Block) :
    Nat → Nat → Nat → Option Match → Option (Option Match × Bool)
  | 0, _, _, _ => none
  | fuel + 1, ts, te, saved =>
    if compatible r b ∧ ts ≤ te ∧ r.length ≤ succ64 (te - ts) then
      let (s, e) := candidate r ts te
      if s < max b.start ls ∨ min b.end_ le < e then some (saved, false)
      else
        let prio := findRangePriority s e created 0
        let saved := if prio = 0 ∨ saved.all (prio < ·.2.2) then some (s, e, prio) else saved
        if prio = 0 then some (saved, true)
        else
          let (v, again) := findNextPriority created s e r.topdown
          if again then
            if r.topdown then tryBlock created r ls le b fuel (max b.start ls) v saved
            else tryBlock created r ls le b fuel v (min b.end_ le) saved
          else some (saved, false)
    else some (saved, false)

def tryBlocks (created : List Create) (r : Find) (ls le fuel : Nat) :
    List Block → Option Match → Option (Option Match)
  | [], saved => some saved
  | b :: l, saved =>
    if le < b.start then some saved
    else match tryBlock created r ls le b fuel (max b.start ls) (min b.end_ le) saved with
      | none => none
      | some (saved, true) => some saved
      | some (saved, false) => tryBlocks created r ls le fuel l saved

def findRange (created : List Create) (active : List Block) (r : Find) (ls le fuel : Nat) :
    Option (Option Match) :=
  if r.topdown then
    tryBlocks created r ls le fuel (active.takeWhile (·.start ≤ le)).reverse none
  else
    tryBlocks created r ls le fuel
      (active.dropWhile fun b => ¬((b.start ≤ ls ∧ ls ≤ b.end_) ∨ ls < b.start)) none

end Qnx.Rsrc.Db
