import Qnx.Shared.PriQueue
import Qnx.Shared.Run

/-!
# Named semaphores

The handlers of one named semaphore, each of them under `SemaphoreMutex`. `attr.nbytes` is the
value of the semaphore and, below zero, the number of clients on its list.
-/

namespace Qnx.Pathmgr.NamedSem

open PriQueue Run List

inductive Errno where
  | eagain | ebadf | eintr | emsgsize | enomem | enosys
  | verify (error : Nat)
  deriving DecidableEq, Repr

inductive Answer where
  | eok | noreply
  | error (e : Errno)
  deriving DecidableEq, Repr

structure Ctx where
  rcvid : Nat
  scoid : Nat
  coid : Nat
  priority : Nat
  deriving DecidableEq, Repr

/-- A read or write message, with what `iofunc_read_verify` or `iofunc_write_verify` says of it. -/
structure Msg where
  verify : Option Nat
  nonblock : Bool
  /-- of which `_IO_XTYPE_MASK` keeps the low byte -/
  xtype : Nat
  nbytes : Nat
  deriving DecidableEq, Repr

/-- A `blocked_t`, with the number of the call that made it. -/
structure Blocked where
  rcvid : Nat
  scoid : Nat
  coid : Nat
  priority : Nat
  since : Nat
  deriving DecidableEq, Repr

structure Sem where
  nbytes : Int
  blocked : List Blocked
  nlink : Nat
  count : Nat
  deriving DecidableEq, Repr

/-- `SEM_VALUE_MAX`, that is `INT_MAX / 2` -/
def semValueMax : Int := 1073741823

def Msg.refused (msg : Msg) : Option Errno :=
  match msg.verify with
  | some error => some (.verify error)
  | none =>
    if msg.xtype % 256 ≠ 0 then some .enosys else if msg.nbytes ≠ 0 then some .emsgsize else none

def enqueueClient (sem : Sem) (ctp : Ctx) (now : Nat) : Sem :=
  { sem with
    blocked := insertGE Blocked.priority ⟨ctp.rcvid, ctp.scoid, ctp.coid, ctp.priority, now⟩
      sem.blocked
    nbytes := sem.nbytes - 1 }

def dequeueClient (sem : Sem) : Option (Blocked × Sem) :=
  match sem.blocked with
  | [] => none
  | b :: l => some (b, { sem with blocked := l, nbytes := sem.nbytes + 1 })

/-- The loop of `unblock_clients`: the clients that stay, the value and who gets the error. -/
def unblockLoop (hit : Blocked → Bool) : List Blocked → Int → List Blocked × Int × List Nat
  | [], nbytes => ([], nbytes, [])
  | b :: l, nbytes =>
    if hit b then
      let (l', nbytes', sent) := unblockLoop hit l (nbytes + 1)
      (l', nbytes', b.rcvid :: sent)
    else
      let (l', nbytes', sent) := unblockLoop hit l nbytes
      (b :: l', nbytes', sent)

def unblockClients (hit : Blocked → Bool) (sem : Sem) : Sem × List Nat :=
  let (l, nbytes, sent) := unblockLoop hit sem.blocked sem.nbytes
  ({ sem with blocked := l, nbytes := nbytes }, sent)

/-- `resmgr_sem_read`; `mem` says whether there is memory for an entry. -/
def resmgrSemRead (sem : Sem) (ctp : Ctx) (msg : Msg) (mem : Bool) (now : Nat) : Answer × Sem :=
  match msg.refused with
  | some e => (.error e, sem)
  | none =>
    if 0 < sem.nbytes then (.eok, { sem with nbytes := sem.nbytes - 1 })
    else if msg.nonblock then (.error .eagain, sem)
    else if mem then (.noreply, enqueueClient sem ctp now)
    else (.error .enomem, sem)

/-- `resmgr_sem_write`, with those that are sent a reply in it. -/
def resmgrSemWrite (sem : Sem) (ctp : Ctx) (msg : Msg) : Answer × Sem × List Nat :=
  match msg.refused with
  | some e => (.error e, sem, [])
  | none =>
    if semValueMax ≤ sem.nbytes then (.error .eagain, sem, [])
    else match if 0 ≤ sem.nbytes then none else dequeueClient sem with
      | none => (.eok, { sem with nbytes := sem.nbytes + 1 }, [])
      | some (b, sem) =>
        (.noreply, sem,
          if ctp.priority < b.priority then [b.rcvid, ctp.rcvid] else [ctp.rcvid, b.rcvid])

/-- `destroy_sem` without `force`: the semaphore, who gets `EBADF`, and whether it is gone. -/
def destroySem (sem : Sem) : Sem × List Nat × Bool :=
  if sem.nlink = 0 ∧ sem.count = 0 then
    let (sem, sent) := unblockClients (fun _ => true) sem
    (sem, sent, true)
  else (sem, [], false)

def resmgrSemClose (sem : Sem) (ctp : Ctx) : Sem × List Nat × Bool :=
  let (sem, sent) := unblockClients (fun b => b.scoid = ctp.scoid ∧ b.coid = ctp.coid)
    { sem with count := sem.count - 1 }
  let (sem, more, gone) := destroySem sem
  (sem, sent ++ more, gone)

/-- `resmgr_sem_unblock`; the kernel says whether the client still asks for it. -/
def resmgrSemUnblock (sem : Sem) (ctp : Ctx) (requested : Bool) : Sem × List Nat :=
  if requested then unblockClients (fun b => b.rcvid = ctp.rcvid) sem else (sem, [])

/-! ### Runs -/

/-- A semaphore with the number of calls, of posts that succeeded and of waits that completed. -/
structure St where
  sem : Sem
  gone : Bool
  calls : Nat
  posts : Nat
  waits : Nat
  deriving DecidableEq, Repr

/-- `open` and `unlink` are there for the counts that `destroy_sem` looks at. -/
inductive Op where
  | read (ctp : Ctx) (msg : Msg) (mem : Bool)
  | write (ctp : Ctx) (msg : Msg)
  | unblock (ctp : Ctx) (requested : Bool)
  | close (ctp : Ctx)
  | opened
  | unlinked

def Start (initial : Nat) (st : St) : Prop :=
  ∃ count, st = ⟨⟨initial, [], 1, count⟩, false, 0, 0, 0⟩

def step (st : St) (o : Op) : Option St :=
  if st.gone then none
  else some <| match o with
    | .read ctp msg mem =>
      let (a, sem) := resmgrSemRead st.sem ctp msg mem st.calls
      { st with sem := sem, calls := st.calls + 1, waits := st.waits + if a = .eok then 1 else 0 }
    | .write ctp msg =>
      let (a, sem, _) := resmgrSemWrite st.sem ctp msg
      match a with
      | .eok => { st with sem := sem, posts := st.posts + 1 }
      | .noreply => { st with sem := sem, posts := st.posts + 1, waits := st.waits + 1 }
      | .error _ => st
    | .unblock ctp requested => { st with sem := (resmgrSemUnblock st.sem ctp requested).1 }
    | .close ctp =>
      let (sem, _, gone) := resmgrSemClose st.sem ctp
      { st with sem := sem, gone := gone }
    | .opened => { st with sem := { st.sem with count := st.sem.count + 1 } }
    | .unlinked =>
      let (sem, _, gone) := destroySem { st.sem with nlink := 0 }
      { st with sem := sem, gone := gone }

structure Inv (initial : Nat) (st : St) : Prop where
  units : st.sem.nbytes = initial + st.posts - st.waits - st.sem.blocked.length
  blocked : st.sem.blocked = [] ∧ 0 ≤ st.sem.nbytes ∨ st.sem.nbytes = -st.sem.blocked.length
  stable : Stable Blocked.priority Blocked.since st.sem.blocked
  since : ∀ b ∈ st.sem.blocked, b.since < st.calls

variable {initial : Nat} {st st' : St} {sem : Sem}

theorem unblockLoop_eq (hit : Blocked → Bool) (l : List Blocked) (nbytes : Int) :
    (unblockLoop hit l nbytes).1 = l.filter (!hit ·) ∧
      (unblockLoop hit l nbytes).2.1 = nbytes + l.length - (l.filter (!hit ·)).length := by
  induction l generalizing nbytes with
  | nil => simp [unblockLoop]
  | cons b l ih =>
    have h1 := ih (nbytes + 1)
    have h0 := ih nbytes
    unfold unblockLoop
    cases hb : hit b <;> simp [hb, h0, h1] <;> omega

section

variable (h : Inv initial st)
include h

theorem Inv.unblockClients (hit : Blocked → Bool) {gone : Bool} {n c : Nat} : Inv initial { st with
      sem := (unblockClients hit { st.sem with nlink := n, count := c }).1, gone := gone } := by
  obtain ⟨hl, hn⟩ := unblockLoop_eq hit st.sem.blocked st.sem.nbytes
  have hu := h.units
  have hsub := filter_sublist (p := (!hit ·)) (l := st.sem.blocked)
  unfold NamedSem.unblockClients
  generalize unblockLoop hit st.sem.blocked st.sem.nbytes = r at hl hn
  obtain ⟨l, nbytes, sent⟩ := r
  dsimp only at hn
  subst hl
  refine ⟨?_, ?_, Pairwise.sublist hsub h.stable, fun b hb => h.since b (hsub.subset hb)⟩
  · dsimp only
    omega
  · dsimp only
    rcases h.blocked with ⟨hb, h0⟩ | hb
    · simp only [hb, filter_nil] at hn ⊢
      exact .inl ⟨trivial, by omega⟩
    · omega

theorem Inv.congr {gone : Bool} {n c : Nat} :
    Inv initial { st with sem := { st.sem with nlink := n, count := c }, gone := gone } :=
  ⟨h.units, h.blocked, h.stable, h.since⟩

theorem Inv.destroySem {n c : Nat} : Inv initial { st with
    sem := (destroySem { st.sem with nlink := n, count := c }).1,
    gone := (destroySem { st.sem with nlink := n, count := c }).2.2 } := by
  unfold NamedSem.destroySem
  split
  · exact h.unblockClients _
  · exact h.congr

theorem Inv.read (ctp : Ctx) (msg : Msg) (mem : Bool) : Inv initial { st with
      sem := (resmgrSemRead st.sem ctp msg mem st.calls).2
      calls := st.calls + 1
      waits := st.waits + if (resmgrSemRead st.sem ctp msg mem st.calls).1 = .eok then 1 else 0 } := by
  obtain ⟨hu, hb, hs, ht⟩ := h
  have hsame : Inv initial { st with calls := st.calls + 1 } :=
    ⟨hu, hb, hs, fun b hb => Nat.lt_succ_of_lt (ht b hb)⟩
  unfold resmgrSemRead
  split
  · exact hsame
  split
  · have hnil := (hb.resolve_right (by omega)).1
    refine ⟨?_, .inl ⟨hnil, ?_⟩, hs, hsame.since⟩
    · simp
      omega
    · dsimp only
      omega
  split
  · exact hsame
  split
  · refine ⟨?_, .inr ?_, hs.insertGE ht, fun b hb => ?_⟩
    all_goals
      have hlen := (perm_insertGE Blocked.priority
        ⟨ctp.rcvid, ctp.scoid, ctp.coid, ctp.priority, st.calls⟩ st.sem.blocked).length_eq
      simp only [enqueueClient, length_cons] at hlen ⊢
    · simp
      omega
    · rcases hb with hb | hb <;> simp_all
      all_goals omega
    · rcases mem_insertGE.mp hb with rfl | hb
      · exact Nat.lt_succ_self _
      · exact hsame.since b hb
  · exact hsame

theorem Inv.write_blocked {ctp : Ctx} {msg : Msg} (hm : msg.refused = none)
    {b : Blocked} {l : List Blocked} (hl : st.sem.blocked = b :: l) :
    resmgrSemWrite st.sem ctp msg =
      (.noreply, { st.sem with blocked := l, nbytes := st.sem.nbytes + 1 },
        if ctp.priority < b.priority then [b.rcvid, ctp.rcvid] else [ctp.rcvid, b.rcvid]) := by
  have hn : st.sem.nbytes = -(b :: l).length := hl ▸ h.blocked.resolve_left (by simp [hl])
  rw [length_cons] at hn
  unfold resmgrSemWrite semValueMax dequeueClient
  rw [hm, hl, if_neg (by omega), if_neg (by omega)]

theorem Inv.step {o : Op} (hs : step st o = some st') : Inv initial st' := by
  unfold NamedSem.step at hs
  split at hs
  · cases hs
  cases hs
  cases o with
  | read ctp msg mem => exact h.read ctp msg mem
  | write ctp msg =>
    obtain ⟨hu, hb, hst, ht⟩ := h
    dsimp only
    cases hm : msg.refused with
    | some e => simpa [resmgrSemWrite, hm] using ⟨hu, hb, hst, ht⟩
    | none =>
      cases hl : st.sem.blocked with
      | cons b l =>
        rw [Inv.write_blocked ⟨hu, hb, hst, ht⟩ hm hl]
        rw [hl] at hu hb hst ht
        simp only [length_cons, reduceCtorEq, false_and, false_or] at hu hb
        refine ⟨?_, .inr ?_, (pairwise_cons.mp hst).2, fun c hc => ht c (by simp [hc])⟩
        all_goals dsimp only; omega
      | nil =>
        have hd : dequeueClient st.sem = none := by simp [dequeueClient, hl]
        have h0 : 0 ≤ st.sem.nbytes := by
          rw [hl, length_nil] at hb
          omega
        by_cases hmax : semValueMax ≤ st.sem.nbytes
        · simp only [resmgrSemWrite, hm, if_pos hmax]
          exact ⟨hu, hb, hst, ht⟩
        simp only [resmgrSemWrite, hm, hd, ite_self, if_neg hmax]
        refine ⟨?_, .inl ⟨hl, ?_⟩, hst, ht⟩
        · dsimp only
          omega
        · dsimp only
          omega
  | unblock ctp requested =>
    dsimp only
    unfold resmgrSemUnblock
    split
    · exact h.unblockClients _
    · exact h
  | close ctp =>
    have hc : Inv initial { st with sem := (NamedSem.unblockClients
        (fun b => b.scoid = ctp.scoid ∧ b.coid = ctp.coid)
        { st.sem with count := st.sem.count - 1 }).1 } := h.unblockClients _
    exact hc.destroySem
  | opened => exact h.congr
  | unlinked => exact h.destroySem

end

/-- In every run the value is the initial one with the posts and without the waits and the blocked
clients, whose number it is when negative; a post is given to the first of the highest priority. -/
theorem units_conserved (h : Reach (Start initial) (fun _ _ => True) step st) :
    st.sem.nbytes = initial + st.posts - st.waits - st.sem.blocked.length ∧
    (st.sem.blocked ≠ [] ↔ st.sem.nbytes < 0) ∧
    (st.sem.blocked ≠ [] → (st.sem.blocked.length : Int) = -st.sem.nbytes) ∧
    ∀ ctp msg, msg.refused = none → st.sem.blocked ≠ [] → ∃ b l, st.sem.blocked = b :: l ∧
      resmgrSemWrite st.sem ctp msg =
        (.noreply, { st.sem with blocked := l, nbytes := st.sem.nbytes + 1 },
          if ctp.priority < b.priority then [b.rcvid, ctp.rcvid] else [ctp.rcvid, b.rcvid]) ∧
      ∀ c ∈ l, c.priority < b.priority ∨ c.priority = b.priority ∧ b.since < c.since := by
  have hinv : Inv initial st := by
    refine h.invariant (fun s hs => ?_) fun s o s' hi _ hs => hi.step hs
    obtain ⟨count, rfl⟩ := hs
    exact ⟨by simp, .inl ⟨rfl, Int.natCast_nonneg initial⟩, Pairwise.nil, by simp⟩
  refine ⟨hinv.units, ?_, fun hne => ?_, fun ctp msg hm hne => ?_⟩
  · rcases hinv.blocked with ⟨hb, h0⟩ | hb
    · simp [hb, h0]
    · rw [← length_pos_iff]
      omega
  · have := hinv.blocked.resolve_left fun hc => hne hc.1
    omega
  · obtain ⟨b, l, hl⟩ := exists_cons_of_ne_nil hne
    have hst := hinv.stable
    rw [hl] at hst
    exact ⟨b, l, hl, hinv.write_blocked hm hl, (pairwise_cons.mp hst).1⟩

theorem units_conserved_waiting : ∃ st, Reach (Start 1) (fun _ _ => True) step st ∧
    st.sem.blocked ≠ [] ∧ st.posts = 1 ∧
    st.sem.nbytes = 1 + st.posts - st.waits - st.sem.blocked.length := by
  obtain ⟨st, h, hq⟩ := (Reach.init ⟨3, rfl⟩ :
    Reach (Start 1) (fun _ _ => True) step ⟨⟨1, [], 1, 3⟩, false, 0, 0, 0⟩).replay_any
    [.read ⟨1, 1, 1, 10⟩ ⟨none, false, 0, 0⟩ true, .read ⟨2, 2, 1, 10⟩ ⟨none, false, 0, 0⟩ true,
      .read ⟨3, 3, 1, 20⟩ ⟨none, false, 0, 0⟩ true, .read ⟨4, 4, 1, 10⟩ ⟨none, false, 0, 0⟩ true,
      .write ⟨5, 5, 1, 10⟩ ⟨none, false, 0, 0⟩, .unblock ⟨2, 2, 1, 10⟩ true, .close ⟨1, 1, 1, 10⟩]
    (fun st => st.sem.blocked ≠ [] && st.posts = 1) (by decide +kernel)
  simp only [Bool.and_eq_true, decide_eq_true_eq] at hq
  exact ⟨st, h, hq.1, hq.2, (units_conserved h).1⟩

end Qnx.Pathmgr.NamedSem
