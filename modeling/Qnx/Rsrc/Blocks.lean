import Qnx.Rsrc.Handler

/-!
# Blocks and created ranges of a resource class

Free and owned blocks are in one list. A block without an owner is free. `_rsrc_block_limit_op` hands
the parts of a range that are in created ranges to one callout, and the others to another.
-/

namespace Qnx.Rsrc.Db

open Handler (Block)

def ullMax : Nat := 2 ^ 64 - 1

def succ64 (x : Nat) : Nat := (x + 1) % 2 ^ 64

def flagShare : Nat := 0x800

def overlapE (s1 e1 s2 e2 : Nat) : Bool := (s1 ≤ s2 && s2 ≤ e1) || (s2 ≤ s1 && s1 ≤ e2)

def isShared (b : Block) : Bool := b.flags &&& flagShare ≠ 0

/-- The node of a created range, and its level in the tree. -/
structure NodeRef where
  id : Nat
  priority : Nat
  deriving DecidableEq, Repr

/-- `rsrc_create_t` -/
structure Create where
  start : Nat
  end_ : Nat
  node : NodeRef
  creator : Nat
  flags : Nat
  deriving DecidableEq, Repr

abbrev Callout := Nat → Nat → List Block → List Block

def limitLoop (overlap nonoverlap : Callout) :
    List Create → Option (Nat × Nat) → Nat → Nat → List Block → List Block
  | c :: l, ov, ps, pe, act =>
    if ¬ps ≤ pe then
      match ov with
      | some (os, oe) => overlap os oe act
      | none => act
    else if ¬overlapE c.start c.end_ ps pe then limitLoop overlap nonoverlap l ov ps pe act
    else
      let ps' := if c.end_ ≠ ullMax then c.end_ + 1 else ullMax
      let first := (max c.start ps, min c.end_ pe)
      let (ov', act) := match ov with
        | none => (first, act)
        | some (os, oe) =>
          if overlapE c.start c.end_ os oe then ((os, max oe (min pe c.end_)), act)
          else (first, overlap os oe act)
      let act := if c.start ≤ ps then act else nonoverlap ps (c.start - 1) act
      limitLoop overlap nonoverlap l (some ov') ps' pe act
  | [], ov, ps, pe, act =>
    let act := match ov with
      | some (os, oe) => overlap os oe act
      | none => act
    if ps ≤ pe then nonoverlap ps pe act else act

def limitOp (created : List Create) (overlap nonoverlap : Callout) (s e : Nat) :
    List Block → List Block :=
  limitLoop overlap nonoverlap created none s e

end Qnx.Rsrc.Db
