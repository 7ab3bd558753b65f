import Mathlib.Data.List.Basic
import Mathlib.Algebra.Group.Nat.Defs

/-!
# Typed memory from the resource database

`tymem_rdb_alloc` and `tymem_rdb_free` with the accounting of the memory class and the partition.
Addresses and sizes are in bytes; a subtraction that the code does not guard wraps.
-/

namespace Qnx.Memmgr

/-- `__PAGESIZE`, `QUANTUM_SIZE` -/
def pageSize : Nat := 4096

def lenToNquantum (n : Nat) : Nat := (n + (pageSize - 1)) / pageSize

/-- `NQUANTUM_TO_LEN`, an `unsigned`. -/
def nquantumToLen (q : Nat) : Nat := q * pageSize % 2 ^ 32

/-- `a - b` in words of `w` bits. -/
def wsub (w a b : Nat) : Nat := (a + 2 ^ w - b) % 2 ^ w

/-- `struct pa_restrict` -/
structure Restrict where
  start : Nat
  stop : Nat
  deriving DecidableEq, Repr

structure RsrcBlock where
  start : Nat
  len : Nat
  deriving DecidableEq, Repr

def RsrcBlock.Apart (b c : RsrcBlock) : Prop := b.start + b.len ≤ c.start ∨ c.start + c.len ≤ b.start

instance (b c : RsrcBlock) : Decidable (b.Apart c) := inferInstanceAs (Decidable (_ ∨ _))

/-- `rsrcdbmgr_proc_interface` for `RSRCDBMGR_MEMORY`. An attach gives an aligned free range within
the limits of the request, or fails; what a detach does is left open. -/
structure Rsrcdbmgr where
  attach : List RsrcBlock → Restrict → Nat → Option Nat
  detach : List RsrcBlock → Nat → Nat → Option (List RsrcBlock)
  attach_within : ∀ db r n a, attach db r n = some a → r.start ≤ a ∧ a + n ≤ r.stop + 1
  attach_aligned : ∀ db r n a, attach db r n = some a → pageSize ∣ a
  attach_free : ∀ db r n a, attach db r n = some a → ∀ b ∈ db, RsrcBlock.Apart ⟨a, n⟩ b

structure FakeRun where
  paddr : Nat
  run : Nat
  deriving DecidableEq, Repr

/-- `memclass_sizeinfo_t` -/
structure MemPool where
  free : Nat
  used : Nat
  deriving DecidableEq, Repr

structure SizeInfo where
  reserved : MemPool
  unreserved : MemPool
  deriving DecidableEq, Repr

inductive LockEv where
  | lock
  | unlock
  deriving DecidableEq, Repr

/-- What a call of `tymem_rdb_alloc` finds and does not change. -/
structure TyCfg where
  /-- The widths of `size_t` and `memsize_t`. -/
  sizeBits : Nat
  memBits : Nat
  mgr : Rsrcdbmgr
  restrict : Restrict
  others : List Restrict
  contig : Bool
  installed : Bool
  grants : Bool
  /-- `cur_cfg.attr.size.min` of the partition. -/
  minSize : Nat
  unreserve : Nat → SizeInfo → SizeInfo
  /-- Does the `_scalloc` of the `n`th fake run succeed? -/
  fake : Nat → Bool

structure TySt where
  /-- `e->data.info.size` of the class. -/
  size : SizeInfo
  cur : Nat
  db : List RsrcBlock
  events : List LockEv
  fakes : Nat
  deriving DecidableEq, Repr

def reserveSize (minSize cur req : Nat) : Nat := if cur < minSize then min (minSize - cur) req else 0

def unreserveSize (minSize cur free : Nat) : Nat :=
  if cur ≤ minSize then free
  else if cur - minSize > free then 0
  else free - (cur - minSize)

namespace TySt

variable (cfg : TyCfg) (st : TySt)

def event (e : LockEv) : TySt := { st with events := st.events ++ [e] }

/-- `MEMPART_CHK_and_INCR`: the part that comes from the reservation, or `ENOMEM`. -/
def chkAndIncr (n : Nat) : Option (Nat × TySt) :=
  if !cfg.installed then some (0, st)
  else if cfg.grants then
    some (reserveSize cfg.minSize st.cur n, { st with cur := st.cur + n })
  else none

/-- `MEMPART_UNDO_INCR`; for a reservation `_mempart_undo_incr` takes the lock of the class. -/
def undoIncr (n resv : Nat) : TySt :=
  if cfg.installed && decide (n ≠ 0) then
    let st1 := { st with cur := wsub cfg.memBits st.cur n }
    if resv ≠ 0 then
      let st2 := st1.event .lock
      { st2 with size := cfg.unreserve resv st2.size }.event .unlock
    else st1
  else st

def decr (n : Nat) : Nat × TySt :=
  if cfg.installed && decide (n ≠ 0) then
    (unreserveSize cfg.minSize st.cur n, { st with cur := wsub cfg.memBits st.cur n })
  else (0, st)

def tymemRdbFree (paddr n : Nat) : TySt :=
  match cfg.mgr.detach st.db paddr n with
  | some db =>
    let (resv, st1) := { st with db := db }.decr cfg n
    let st2 := st1.event .lock
    let z := st2.size
    { st2 with
      size :=
        { reserved :=
            { free := z.reserved.free + resv, used := wsub cfg.memBits z.reserved.used resv }
          unreserved :=
            { free := z.unreserved.free + (n - resv)
              used := wsub cfg.memBits z.unreserved.used (n - resv) } } }.event .unlock
  | none => st

def allows (resv n : Nat) : Bool :=
  !(decide (st.size.reserved.free < resv) ||
    decide (st.size.unreserved.free < wsub cfg.memBits n resv))

/-- The walk over the restriction list ends at a request that is attached, at one the class
refuses, or at the end of the list. -/
inductive Walk where
  | attached (a : Nat)
  | refused
  | exhausted
  deriving DecidableEq, Repr

def walk (resv n : Nat) : List Restrict → Walk
  | [] => .exhausted
  | rl :: rls =>
    if st.allows cfg resv n then
      match cfg.mgr.attach st.db rl n with
      | some a => .attached a
      | none => walk resv n rls
    else .refused

def seek (resv : Nat) : Nat → Nat → Option (Nat × Nat)
  | 0, _ => none
  | fuel + 1, n =>
    match st.walk cfg resv n (cfg.restrict :: cfg.others) with
    | .attached a => some (n, a)
    | .refused => none
    | .exhausted => if cfg.contig || decide (n ≤ pageSize) then none else seek resv fuel (n / 2)

def charge (resv n a : Nat) : TySt :=
  let z := st.size
  { st with
    db := ⟨a, n⟩ :: st.db
    fakes := st.fakes + 1
    size :=
      if n ≤ resv then
        { z with reserved := { free := z.reserved.free - n, used := z.reserved.used + n } }
      else
        { reserved := { free := z.reserved.free - resv, used := z.reserved.used + resv }
          unreserved :=
            { free := z.unreserved.free - (n - resv), used := z.unreserved.used + (n - resv) } } }

end TySt

/-- How the loop of `tymem_rdb_alloc` is left; `rest` is its `requested_size`. -/
inductive TyOut where
  | done (chain : List FakeRun) (st : TySt)
  | fail1 (chain : List FakeRun) (rest : Nat) (st : TySt)
  | fail2 (chain : List FakeRun) (a n rest : Nat) (st : TySt)
  deriving DecidableEq, Repr

namespace TySt

variable (cfg : TyCfg)

/-- The loop of `tymem_rdb_alloc`, with the chain so far. -/
def loop (resv : Nat) : Nat → List FakeRun → Nat → Nat → TySt → Option TyOut
  | 0, _, _, _, _ => none
  | fuel + 1, chain, n, rest, st =>
    match st.seek cfg resv (n + 1) n with
    | none => some (.fail1 chain rest st)
    | some (n, a) =>
      if cfg.fake st.fakes then
        let chain := chain ++ [⟨a, lenToNquantum n⟩]
        let rest := wsub cfg.sizeBits rest n
        if rest = 0 then some (.done chain (st.charge resv n a))
        else loop resv fuel chain n rest (st.charge resv n a)
      else some (.fail2 chain a n rest (st.charge resv n a))

/-- The exit `fail1`. -/
def undo (chain : List FakeRun) (rest resv : Nat) (st : TySt) : TySt :=
  let st1 := chain.foldl (fun st q => st.tymemRdbFree cfg q.paddr (nquantumToLen q.run)) st
  (st1.undoIncr cfg rest resv).event .unlock

/-- `tymem_rdb_alloc`; `none` if the loop does not end within `fuel` rounds. -/
def tymemRdbAlloc (fuel : Nat) (st : TySt) (size : Nat) : Option (Option (List FakeRun) × TySt) :=
  match st.chkAndIncr cfg size with
  | none => some (none, st)
  | some (resv, st1) =>
    (loop cfg resv fuel [] size size (st1.event .lock)).map fun
      | .done chain st2 => (some chain, st2.event .unlock)
      | .fail1 chain rest st2 => (none, undo cfg chain rest resv st2)
      | .fail2 chain a n rest st2 =>
        (none, undo cfg chain rest resv ((st2.event .unlock).tymemRdbFree cfg a n))

end TySt

end Qnx.Memmgr
