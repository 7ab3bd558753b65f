import Qnx.Shared.PriQueue
import Qnx.Shared.Run

/-!
# Semaphores

`ker_sync_sem_wait`, `ker_sync_sem_post`, `force_ready` of a waiter and `ker_sync_ctl`
(`_NTO_SCTL_SETEVENT`) on one sync object. The waiting queue holds threads and sync events,
and a post looks at its first two entries only.
-/

namespace Qnx.Ker

open PriQueue Run List

/-- An entry of `syp->waiting`, with the `type` and `priority` bytes every entry has. -/
inductive SemEntry where
  | thread (thp : Nat) (prio : Nat)
  | event (process : Nat)
  deriving DecidableEq, Repr

/-- `ker_sync_ctl` leaves the priority byte of an event as `object_alloc` hands it out: zero. -/
def SemEntry.priority : SemEntry → Nat
  | .thread _ prio => prio
  | .event _ => 0

def SemEntry.IsThread : SemEntry → Prop
  | .thread _ _ => True
  | .event _ => False

instance : DecidablePred SemEntry.IsThread
  | .thread _ _ => inferInstanceAs (Decidable True)
  | .event _ => inferInstanceAs (Decidable False)

inductive SemErrno where
  | eok | einval | eagain | etimedout | enoerror
  deriving DecidableEq, Repr

def syncSem : BitVec 32 := 0xfffffffc

/-- The user's `sync_t` and the waiting queue of its `SYNC`. -/
structure Sem where
  count : BitVec 32
  owner : BitVec 32
  waiting : List SemEntry
  deriving DecidableEq, Repr

namespace Sem

variable {s : Sem}

def create (n : BitVec 32) : Sem := ⟨n, syncSem, []⟩

def link2Pri (s : Sem) (e : SemEntry) : Sem :=
  { s with waiting := insertGE SemEntry.priority e s.waiting }

/-- `sync_wakeup(syp, 0)` on the queue: the thread it readies and what stays queued. -/
def syncWakeup : List SemEntry → Option Nat × List SemEntry
  | .thread thp _ :: rest => (some thp, rest)
  | .event p :: .thread thp _ :: rest => (some thp, .event p :: rest)
  | waiting => (none, waiting)

inductive Waited where
  | returns (status : SemErrno)
  | blocks
  deriving DecidableEq, Repr

/-- `ker_sync_sem_wait`; `imto` is `IMTO(act, STATE_SEM)`, `pendcan` is `PENDCAN(tls_flags)`. -/
def kerSyncSemWait (s : Sem) (act prio : Nat) (try_ imto pendcan : Bool) : Sem × Waited :=
  if s.owner ≠ syncSem ∧ s.owner ≠ 0 then (s, .returns .einval)
  else if (0 : BitVec 32).slt s.count then ({ s with count := s.count - 1 }, .returns .eok)
  else if try_ then (s, .returns .eagain)
  else if imto then (s, .returns .etimedout)
  else if pendcan then (s, .returns .enoerror)
  else (s.link2Pri (.thread act prio), .blocks)

def kerSyncSemPost (s : Sem) : Sem × SemErrno × Option Nat :=
  if s.owner ≠ syncSem ∧ s.owner ≠ 0 then (s, .einval, none)
  else if s.waiting ≠ [] then
    ({ s with waiting := (syncWakeup s.waiting).2 }, .eok, (syncWakeup s.waiting).1)
  else ({ s with count := s.count + 1 }, .eok, none)

def isThread (thp : Nat) : SemEntry → Bool
  | .thread t _ => t == thp
  | .event _ => false

/-- `force_ready` of a thread in `STATE_SEM`: it is unlinked and readied with an error. -/
def forceReady (s : Sem) (thp : Nat) : Sem :=
  { s with waiting := s.waiting.eraseP (isThread thp) }

/-- `ker_sync_ctl` with `_NTO_SCTL_SETEVENT` by a thread of `prp`. `event` is false for a null
event or `SIGEV_NONE`; `alloc` is whether `object_alloc` finds a sync event. The bytes of the
event are not kept. -/
def kerSyncCtlSetevent (s : Sem) (prp : Nat) (event alloc : Bool) : Sem × SemErrno :=
  if SemEntry.event prp ∈ s.waiting then
    if event then (s, .eok)
    else ({ s with waiting := s.waiting.erase (.event prp) }, .eok)
  else if !event then (s, .eok)
  else if !alloc then (s, .eagain)
  else (s.link2Pri (.event prp), .eok)

end Sem

/-- A semaphore with the number of posts that succeeded and of waits that did. -/
structure SemRun where
  sem : Sem
  posted : Nat
  acquired : Nat
  deriving DecidableEq, Repr

namespace SemRun

inductive Op where
  | wait (act prio : Nat) (try_ imto pendcan : Bool)
  | post
  | forceReady (thp : Nat)
  | setEvent (prp : Nat) (event alloc : Bool)
  deriving DecidableEq, Repr

def step (r : SemRun) : Op → Option SemRun
  | .wait act prio try_ imto pendcan =>
    let (sem, waited) := r.sem.kerSyncSemWait act prio try_ imto pendcan
    some { r with
      sem := sem
      acquired := r.acquired + if waited = .returns .eok then 1 else 0 }
  | .post =>
    let (sem, status, readied) := r.sem.kerSyncSemPost
    some { r with
      sem := sem
      posted := r.posted + if status = .eok then 1 else 0
      acquired := r.acquired + if readied.isSome then 1 else 0 }
  | .forceReady thp => some { r with sem := r.sem.forceReady thp }
  | .setEvent prp event alloc => some { r with sem := (r.sem.kerSyncCtlSetevent prp event alloc).1 }

/-- A caller is running, so it waits nowhere, and above the idle threads' priority; the thread
forced ready is a waiter. -/
def Entry (r : SemRun) : Op → Prop
  | .wait act prio _ _ _ => 0 < prio ∧ ∀ e ∈ r.sem.waiting, Sem.isThread act e = false
  | .forceReady thp => ∃ e ∈ r.sem.waiting, Sem.isThread thp e = true
  | _ => True

instance (r : SemRun) (o : Op) : Decidable (r.Entry o) := by
  cases o <;> unfold Entry <;> infer_instance

/-- A post finds a thread if it finds anything, and room in the count if it does not. -/
def Delivers (r : SemRun) : Op → Prop
  | .post =>
    if r.sem.waiting = [] then r.sem.count ≠ 0x7fffffff else ∃ e ∈ r.sem.waiting, e.IsThread
  | _ => True

def Init (n : BitVec 32) (r : SemRun) : Prop := r = ⟨Sem.create n, 0, 0⟩

/-- No unit is lost or made, the value is not negative, and no thread waits beside a unit. -/
structure Conserves (n : BitVec 32) (r : SemRun) : Prop where
  units : n.toInt + r.posted = r.sem.count.toInt + r.acquired
  nonneg : 0 ≤ r.sem.count.toInt
  idle : 0 < r.sem.count.toInt → ∀ e ∈ r.sem.waiting, ¬ e.IsThread

structure Inv (n : BitVec 32) (r : SemRun) : Prop extends Conserves n r where
  owner : r.sem.owner = syncSem
  ordered : Ordered SemEntry.priority r.sem.waiting
  above : ∀ e ∈ r.sem.waiting, e.IsThread → 0 < e.priority

variable {n : BitVec 32} {r r' : SemRun}

theorem inv_init (hn : 0 ≤ n.toInt) (h : Init n r) : Inv n r := by
  subst h
  exact ⟨⟨by simp [Sem.create], hn, by simp [Sem.create]⟩, rfl, Pairwise.nil, by simp [Sem.create]⟩

theorem syncWakeup_some {w : List SemEntry} (ho : Ordered SemEntry.priority w)
    (habove : ∀ e ∈ w, e.IsThread → 0 < e.priority) (hw : ∃ e ∈ w, e.IsThread) :
    ∃ thp prio rest, w = .thread thp prio :: rest ∧ Sem.syncWakeup w = (some thp, rest) := by
  obtain ⟨e, he, ht⟩ := hw
  cases w with
  | nil => cases he
  | cons f rest =>
    cases f with
    | thread thp prio => exact ⟨thp, prio, rest, rfl, rfl⟩
    | event p =>
      exfalso
      have hpos := habove e he ht
      rcases mem_cons.mp he with rfl | he
      · exact ht
      have hle := ho.head_le he
      simp only [SemEntry.priority] at hle hpos
      omega

theorem slt_iff {c : BitVec 32} : (0 : BitVec 32).slt c = true ↔ 0 < c.toInt := by
  rw [BitVec.slt_iff_toInt_lt]
  rfl

theorem toInt_sub_one {c : BitVec 32} (h : 0 < c.toInt) : (c - 1).toInt = c.toInt - 1 := by
  have h1 : (1 : BitVec 32).toNat = 1 := rfl
  simp only [BitVec.toInt_eq_toNat_cond, BitVec.toNat_sub] at h ⊢
  omega

theorem toInt_add_one {c : BitVec 32} (h : c ≠ 0x7fffffff) : (c + 1).toInt = c.toInt + 1 := by
  have h1 : (1 : BitVec 32).toNat = 1 := rfl
  have hne : c.toNat ≠ 0x7fffffff := fun e => h (BitVec.eq_of_toNat_eq e)
  simp only [BitVec.toInt_eq_toNat_cond, BitVec.toNat_add]
  omega

theorem kerSyncSemWait_cases {s : Sem} (ho : s.owner = syncSem) (act prio : Nat)
    (try_ imto pendcan : Bool) :
    (0 < s.count.toInt ∧ s.kerSyncSemWait act prio try_ imto pendcan =
      ({ s with count := s.count - 1 }, .returns .eok)) ∨
    (∃ e, e ≠ .eok ∧ s.kerSyncSemWait act prio try_ imto pendcan = (s, .returns e)) ∨
    (s.count.toInt ≤ 0 ∧ s.kerSyncSemWait act prio try_ imto pendcan =
      (s.link2Pri (.thread act prio), .blocks)) := by
  unfold Sem.kerSyncSemWait
  rw [if_neg (fun hne => hne.1 ho)]
  by_cases hc : (0 : BitVec 32).slt s.count = true
  · rw [if_pos hc]
    exact .inl ⟨slt_iff.mp hc, rfl⟩
  have hz : s.count.toInt ≤ 0 := by
    have := mt slt_iff.mpr hc
    omega
  rw [if_neg hc]
  cases try_ with
  | true => exact .inr (.inl ⟨_, by decide, rfl⟩)
  | false =>
    cases imto with
    | true => exact .inr (.inl ⟨_, by decide, rfl⟩)
    | false =>
      cases pendcan with
      | true => exact .inr (.inl ⟨_, by decide, rfl⟩)
      | false => exact .inr (.inr ⟨hz, rfl⟩)

theorem kerSyncSemPost_eq {s : Sem} (ho : s.owner = syncSem) : s.kerSyncSemPost =
      if s.waiting = [] then ({ s with count := s.count + 1 }, .eok, none)
      else ({ s with waiting := (Sem.syncWakeup s.waiting).2 }, .eok,
        (Sem.syncWakeup s.waiting).1) := by
  unfold Sem.kerSyncSemPost
  simp_all

namespace Inv

section

variable (h : Inv n r)
include h

theorem link2Pri {e : SemEntry} (he : e.IsThread → 0 < e.priority ∧ r.sem.count.toInt ≤ 0) :
    Inv n { r with sem := r.sem.link2Pri e } := by
  refine ⟨⟨h.units, h.nonneg, ?_⟩, h.owner, h.ordered.insertGE e, ?_⟩
  · intro hc f hf ht
    rcases mem_insertGE.mp hf with rfl | hf
    · have := (he ht).2
      dsimp only [Sem.link2Pri] at hc
      omega
    · exact h.idle hc f hf ht
  · intro f hf ht
    rcases mem_insertGE.mp hf with rfl | hf
    · exact (he ht).1
    · exact h.above f hf ht

theorem sublist {w : List SemEntry} (hw : w.Sublist r.sem.waiting) :
    Inv n { r with sem := { r.sem with waiting := w } } :=
  ⟨⟨h.units, h.nonneg, fun hc e he => h.idle hc e (hw.subset he)⟩, h.owner, h.ordered.sublist hw,
    fun e he => h.above e (hw.subset he)⟩

theorem wait {act prio : Nat} {try_ imto pendcan : Bool} (hp : 0 < prio)
    (hs : r.step (.wait act prio try_ imto pendcan) = some r') : Inv n r' := by
  simp only [step] at hs
  rcases kerSyncSemWait_cases h.owner act prio try_ imto pendcan with
    ⟨hpos, he⟩ | ⟨e, hne, he⟩ | ⟨hz, he⟩
  · rw [he] at hs
    cases hs
    have hsub := toInt_sub_one hpos
    have hu := h.units
    refine ⟨⟨?_, ?_, ?_⟩, h.owner, h.ordered, h.above⟩
    · simp only [if_true]
      omega
    · simp only
      omega
    · intro _
      exact h.idle hpos
  · rw [he] at hs
    cases hs
    simpa [hne] using h
  · rw [he] at hs
    cases hs
    simpa using h.link2Pri (e := .thread act prio) fun _ => ⟨hp, hz⟩

theorem post (hd : r.Delivers .post) (hs : r.step .post = some r') : Inv n r' := by
  simp only [step, kerSyncSemPost_eq h.owner] at hs
  have hu := h.units
  have hnn := h.nonneg
  simp only [Delivers] at hd
  split at hd
  · rename_i hw
    rw [if_pos hw] at hs
    cases hs
    have hadd := toInt_add_one hd
    refine ⟨⟨?_, ?_, ?_⟩, h.owner, h.ordered, h.above⟩
    · simp only [hadd, Option.isSome_none]
      push_cast
      omega
    · simp only
      omega
    · intro _ e he
      simp [hw] at he
  rename_i hw
  obtain ⟨thp, prio, rest, hq, hwake⟩ := syncWakeup_some h.ordered h.above hd
  rw [if_neg hw, hwake] at hs
  cases hs
  have hrest := h.sublist (w := rest) (by rw [hq]; exact sublist_cons_self _ _)
  refine ⟨⟨?_, hrest.nonneg, hrest.idle⟩, hrest.owner, hrest.ordered, hrest.above⟩
  simp only [Option.isSome_some]
  omega

theorem setEvent {prp : Nat} {event alloc : Bool}
    (hs : r.step (.setEvent prp event alloc) = some r') : Inv n r' := by
  simp only [step, Sem.kerSyncCtlSetevent] at hs
  repeat' split at hs
  all_goals cases hs
  · exact h
  · exact h.sublist erase_sublist
  · exact h
  · exact h
  · exact h.link2Pri (e := .event prp) fun ht => ht.elim

end

end Inv

theorem inv_step {o : Op} (h : Inv n r) (he : r.Entry o) (hd : r.Delivers o)
    (hs : r.step o = some r') : Inv n r' := by
  cases o with
  | wait act prio try_ imto pendcan => exact h.wait he.1 hs
  | post => exact h.post hd hs
  | forceReady thp =>
    cases hs
    exact h.sublist eraseP_sublist
  | setEvent prp event alloc => exact h.setEvent hs

/-- As long as every post finds a thread or an empty queue with room in the count, units are
conserved. -/
theorem sem_conserves (hn : 0 ≤ n.toInt)
    (h : Reach (Init n) (fun r o => r.Entry o ∧ r.Delivers o) step r) : Conserves n r :=
  (h.invariant (fun _ hi => inv_init hn hi)
    fun _ _ _ hi ho hs => inv_step hi ho.1 ho.2 hs).toConserves

instance (r : SemRun) (o : Op) : Decidable (r.Delivers o) := by
  cases o <;> unfold Delivers <;> infer_instance

theorem sem_conserves_run : ∃ r, Reach (Init 1) (fun r o => r.Entry o ∧ r.Delivers o) step r ∧
      (r.posted = 2 ∧ r.acquired = 3 ∧ r.sem.waiting = [.thread 3 10]) ∧ Conserves 1 r := by
  have h0 : Reach (Init 1) (fun r o => r.Entry o ∧ r.Delivers o) step ⟨Sem.create 1, 0, 0⟩ :=
    .init rfl
  obtain ⟨r, h, hq⟩ := h0.replay_any
    [.wait 1 10 false false false, .setEvent 7 true true, .wait 2 20 false false false,
      .wait 3 10 false false false, .wait 4 30 true false false, .post, .setEvent 7 false true,
      .forceReady 3, .post, .wait 2 10 false false false, .wait 3 10 false false false]
    (fun r => r.posted = 2 ∧ r.acquired = 3 ∧ r.sem.waiting = [.thread 3 10]) (by decide +kernel)
  exact ⟨r, h, of_decide_eq_true hq, sem_conserves (by decide) h⟩

theorem reach_posts (k : Nat) :
    Reach (Init 0) Entry step ⟨⟨BitVec.ofNat 32 k, syncSem, []⟩, k, 0⟩ := by
  induction k with
  | zero => exact .init rfl
  | succ k ih =>
    refine .step (o := .post) ih trivial ?_
    simp only [BitVec.ofNat_add]
    rfl

/-- A post that finds only an event wakes nobody and counts nothing; and enough posts make the
value negative. -/
theorem sem_unit_lost :
    (∃ r, Reach (Init 0) Entry step r ∧ (r.posted = 1 ∧ r.acquired = 0 ∧ r.sem.count = 0) ∧
      ¬ Conserves 0 r) ∧
    ∃ r, Reach (Init 0) Entry step r ∧ r.sem.count.toInt < 0 ∧ ¬ Conserves 0 r := by
  constructor
  · have h0 : Reach (Init 0) Entry step ⟨Sem.create 0, 0, 0⟩ := .init rfl
    obtain ⟨r, h, hq⟩ := h0.replay_any [.setEvent 7 true true, .post]
      (fun r => r.posted = 1 ∧ r.acquired = 0 ∧ r.sem.count = 0) (by decide +kernel)
    have hq := of_decide_eq_true hq
    refine ⟨r, h, hq, ?_⟩
    intro hc
    have hu := hc.units
    rw [hq.1, hq.2.1, hq.2.2] at hu
    exact absurd hu (by decide)
  · have hneg : (BitVec.ofNat 32 (2 ^ 31)).toInt < 0 := by decide
    refine ⟨_, reach_posts (2 ^ 31), hneg, ?_⟩
    intro hc
    have := hc.nonneg
    dsimp only at this
    omega

end SemRun

end Qnx.Ker
