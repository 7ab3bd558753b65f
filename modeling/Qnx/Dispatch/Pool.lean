import Mathlib.Algebra.Group.Nat.Defs
import Qnx.Shared.Run

/-!
# The counts of a thread pool

What stands under `inline_lock` is one step. The threads themselves are counted by what they do.
-/

namespace Qnx.Dispatch

open Run

/-- `thread_pool_attr_t`, and whether `POOL_FLAG_RESERVE` is set. -/
structure PoolAttr where
  loWater : BitVec 16
  increment : BitVec 16
  hiWater : BitVec 16
  maximum : BitVec 16
  reserve : Bool

/-- `_thread_pool_attr_normalise` -/
def PoolAttr.normalise (a : PoolAttr) : PoolAttr :=
  let a := if a.maximum < a.hiWater then { a with hiWater := a.maximum } else a
  if a.hiWater < a.loWater then { a with loWater := a.hiWater } else a

structure Pool where
  created : BitVec 32
  waiting : BitVec 32
  newthreads : BitVec 32
  /-- counted in `newthreads`: created, or about to be -/
  starting : Nat
  /-- in `block_func` -/
  blocked : Nat
  /-- in `handler_func` -/
  handling : Nat
  deriving DecidableEq

/-- `reserved_threads` -/
def PoolAttr.reserved (a : PoolAttr) : BitVec 32 := if a.reserve then 1 else 0

def PoolAttr.lo (a : PoolAttr) : BitVec 32 := a.loWater.setWidth 32 + a.reserved

def PoolAttr.hi (a : PoolAttr) : BitVec 32 := a.hiWater.setWidth 32 + a.reserved

def PoolAttr.most (a : PoolAttr) : BitVec 32 := a.maximum.setWidth 32 + a.reserved

/-- "but not more than maximum" -/
def PoolAttr.cut (a : PoolAttr) (created add : BitVec 32) : BitVec 32 :=
  if a.most < created + add then a.maximum.setWidth 32 - created else add

/-- How many threads `_thread_pool_update` adds: an `int`, compared as `unsigned` with the rest. -/
def PoolAttr.add (a : PoolAttr) (p : Pool) : BitVec 32 :=
  let realwaiting := p.waiting + p.newthreads
  if realwaiting < a.lo ∧ p.created < a.most then
    a.cut p.created <|
      if p.created < a.lo then a.lo - p.created
      else if a.hi < realwaiting + a.increment.setWidth 32 then a.hi - realwaiting
      else a.increment.setWidth 32
  else 0

/-- The threads that `_thread_pool_update` counts before it creates them. -/
def Pool.grow (a : PoolAttr) (p : Pool) : Pool :=
  let add := a.add p
  if add.toInt ≤ 0 then p
  else { p with
    created := p.created + add, newthreads := p.newthreads + add,
    starting := p.starting + add.toNat }

/-- `_thread_pool_update` -/
def Pool.update (a : PoolAttr) (p : Pool) (wAdj nAdj : BitVec 32) : Pool :=
  { p with waiting := p.waiting + wAdj, newthreads := p.newthreads + nAdj }.grow a

inductive PoolEvent where
  /-- `pthread_create` or `context_alloc` fails -/
  | fails
  | starts
  /-- `block_func` returns -/
  | unblocks
  /-- `handler_func` returns -/
  | handled
  | cancelWaiting
  | cancelHandling
  deriving DecidableEq

/-- `_thread_cleanup`, which does not look at `PCP_FLAG_WAITING` -/
def Pool.cleanup (p : Pool) : Pool :=
  { p with waiting := p.waiting - 1, created := p.created - 1 }

def Pool.step (a : PoolAttr) (p : Pool) : PoolEvent → Option Pool
  | .fails => if p.starting = 0 then none else
    some { p with
      created := p.created - 1, newthreads := p.newthreads - 1, starting := p.starting - 1 }
  | .starts => if p.starting = 0 then none else
    some ({ p with starting := p.starting - 1, blocked := p.blocked + 1 }.update a 1 (-1))
  | .unblocks => if p.blocked = 0 then none else
    some ({ p with blocked := p.blocked - 1, handling := p.handling + 1 }.update a (-1) 0)
  | .handled => if p.handling = 0 then none else
    if a.hi ≤ p.waiting ∧ a.lo ≤ p.waiting then
      some { p with created := p.created - 1, handling := p.handling - 1 }
    else some { p with
      waiting := p.waiting + 1, handling := p.handling - 1, blocked := p.blocked + 1 }
  | .cancelWaiting => if p.blocked = 0 then none else
    some { p.cleanup with blocked := p.blocked - 1 }
  | .cancelHandling => if p.handling = 0 then none else
    some { p.cleanup with handling := p.handling - 1 }

/-- `thread_pool_start` -/
def Pool.start : Pool := ⟨1, 0, 1, 1, 0, 0⟩

/-- The counts of the pool are those of its threads. -/
structure Pool.Counts (a : PoolAttr) (p : Pool) : Prop where
  waiting : p.waiting.toNat = p.blocked
  created : p.created.toNat = p.starting + p.blocked + p.handling
  newthreads : p.newthreads.toNat = p.starting
  most : p.created ≤ a.most

variable {a : PoolAttr} {p p' : Pool}

theorem PoolAttr.toNat_most (a : PoolAttr) :
    a.most.toNat = a.maximum.toNat + a.reserved.toNat ∧ a.most.toNat < 2 ^ 31 := by
  have := a.maximum.isLt
  unfold most reserved
  split <;> simp <;> omega

theorem PoolAttr.cut_le {c x : BitVec 32} (hc : c ≤ a.most) (h : 0 < (a.cut c x).toInt) :
    c.toNat + (a.cut c x).toNat ≤ a.most.toNat := by
  have hm := a.toNat_most
  have hlt : (a.cut c x).toNat < 2 ^ 31 := by
    rw [BitVec.toInt_eq_toNat_cond] at h
    split at h <;> omega
  unfold cut at hlt ⊢
  split
  · simp_all only [if_true, BitVec.le_def, BitVec.toNat_sub, BitVec.toNat_setWidth]
    omega
  · simp_all only [if_false, BitVec.le_def, BitVec.lt_def, BitVec.toNat_add]
    omega

theorem PoolAttr.add_eq (a : PoolAttr) (p : Pool) :
    a.add p = 0 ∨ ∃ x, a.add p = a.cut p.created x := by
  unfold add
  dsimp only
  by_cases h : p.waiting + p.newthreads < a.lo ∧ p.created < a.most
  · exact .inr ⟨_, if_pos h⟩
  · exact .inl (if_neg h)

theorem Pool.Counts.grow (h : p.Counts a) : (p.grow a).Counts a := by
  unfold Pool.grow
  dsimp only
  split
  · exact h
  · rename_i hpos
    rcases a.add_eq p with h0 | ⟨x, hx⟩
    · simp [h0] at hpos
    rw [hx] at hpos ⊢
    have hle := a.cut_le h.most (Int.not_le.mp hpos)
    have hm := a.toNat_most
    have := h.created
    have := h.newthreads
    refine ⟨h.waiting, ?_, ?_, ?_⟩ <;> simp only [BitVec.le_def, BitVec.toNat_add] <;> omega

theorem Pool.Counts.step {e : PoolEvent} (h : p.Counts a) (he : e ≠ .cancelHandling)
    (hs : p.step a e = some p') : p'.Counts a := by
  have hm := a.toNat_most.2
  obtain ⟨h1, h2, h3, h4⟩ := h
  cases e <;> simp only [Pool.step] at hs <;> split at hs
  case cancelHandling.isFalse => exact absurd rfl he
  case handled.isFalse =>
    split at hs <;> cases hs <;> constructor <;> dsimp only <;> bv_omega
  case starts.isFalse =>
    cases hs
    apply Pool.Counts.grow
    constructor <;> dsimp only <;> bv_omega
  case unblocks.isFalse =>
    cases hs
    apply Pool.Counts.grow
    constructor <;> dsimp only <;> bv_omega
  all_goals cases hs
  all_goals constructor <;> dsimp only [Pool.cleanup] <;> bv_omega

theorem start_counts (h : 0 < a.most) : Pool.start.Counts a :=
  ⟨rfl, rfl, rfl, by rw [BitVec.le_def]; exact h⟩

theorem pool_counts (h : 0 < a.most)
    (hr : Reach (· = Pool.start) (fun _ e => e ≠ .cancelHandling) (Pool.step a.normalise) p) :
    p.waiting.toNat = p.blocked ∧ p.created.toNat = p.starting + p.blocked + p.handling ∧
      p.created.toNat ≤ a.maximum.toNat + a.reserved.toNat := by
  have hm : a.normalise.most = a.most := by
    unfold PoolAttr.normalise
    split <;> dsimp only <;> split <;> rfl
  have hc : p.Counts a.normalise := by
    refine hr.invariant ?_ fun s e s' hs he hstep => hs.step he hstep
    rintro _ rfl
    exact start_counts (by rwa [hm])
  have hle := hc.most
  rw [hm, BitVec.le_def, a.toNat_most.1] at hle
  exact ⟨hc.waiting, hc.created, hle⟩

theorem pool_counts_handled : ∃ p, Reach (· = Pool.start) (fun _ e => e ≠ .cancelHandling)
    (Pool.step (PoolAttr.normalise ⟨1, 1, 2, 3, false⟩)) p ∧ p.waiting.toNat = p.blocked :=
  exists_reach rfl [.starts, .unblocks, .handled] (Q := fun p => p.blocked = 1) (by decide)
    fun _ hr _ => (pool_counts (by decide) hr).1

/-- A thread cancelled in `handler_func` is taken off `waiting` once more. -/
theorem cancelled_handler_miscounted : (replay (fun _ _ => True)
    (Pool.step (PoolAttr.normalise ⟨1, 1, 2, 3, false⟩)) .start
    [.starts, .unblocks, .cancelHandling]).map (fun p => (p.waiting.toNat, p.blocked)) =
      some (2 ^ 32 - 1, 0) := by
  decide

end Qnx.Dispatch
