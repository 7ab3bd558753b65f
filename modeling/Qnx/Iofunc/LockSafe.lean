import Qnx.Iofunc.LockRun

/-!
# When `_iofunc_lock_scoid` returns

The scan steps back from the first entry that starts behind the request, and before the head there
is no entry to step back to. The same can befall a client that is granted its lock on the way. The
recursion itself always ends: a nested call has one client less on the lists.
-/

namespace Qnx.Iofunc

open List Except
open Run

variable {q r : Req} {p : List Req} {s : LockSt} {e : Edit} {c : Nat} {f : Fault}

/-! ### Calls in the gap before the head -/

/-- While the clients `p` are looked at, `_iofunc_lock_scoid` is called for a request in the gap
before the head of the list as it is then. -/
inductive ComesToGap : Nat → LockSt → List Req → Prop where
  | this {n : Nat} {s : LockSt} {q : Req} {p : List Req} :
      lockFind s.list q = none → Gap s.list q → ComesToGap n s (q :: p)
  | inner {n : Nat} {s : LockSt} {q : Req} {p : List Req} {e : Edit} :
      lockFind s.list q = none → lockEdit s.list q s.heap = some e → e.status = .eok →
      ComesToGap n (s.put e) e.pending → ComesToGap (n + 1) s (q :: p)
  | later {n : Nat} {s s1 : LockSt} {q : Req} {p : List Req} :
      reblockWith (lockScoidN n) [q] s = .ok s1 → ComesToGap n s1 p → ComesToGap n s (q :: p)

theorem reblockWith_cons (lock : LockSt → Req → Except Fault (LockSt × Status)) (s : LockSt)
    (q : Req) (p : List Req) : reblockWith lock (q :: p) s =
      (reblockWith lock [q] s).bind (reblockWith lock p) := by
  simp only [reblockWith]
  split
  · rfl
  · split <;> rfl

theorem error_of_map {x : Except Fault (LockSt × Status)} (h : x.map Prod.fst = .error f) :
    x = .error f := by
  cases x with
  | error g =>
    cases h
    rfl
  | ok p => cases h

section Errors
variable {n : Nat}

theorem of_reblockWith_singleton {lock : LockSt → Req → Except Fault (LockSt × Status)}
    (h : reblockWith lock [q] s = .error f) : lockFind s.list q = none ∧ lock s q = .error f := by
  unfold reblockWith at h
  cases hf : lockFind s.list q with
  | some cl => simp [hf, reblockWith] at h
  | none => cases hl : lock s q <;> simp_all [reblockWith]

variable (hs : Sound s.list)
include hs

theorem reblockWith_of_error (hlock : ∀ s q f, Sound s.list → q.start ≤ q.last →
      lockFind s.list q = none → (waiters s.list).length < n → lockScoidN n s q = .error f →
      f = .null ∧ ∀ p, ComesToGap n s (q :: p))
    (hp : ∀ q ∈ p, q.start ≤ q.last) (hn : (waiters s.list ++ p).length ≤ n)
    (h : reblockWith (lockScoidN n) p s = .error f) : f = .null ∧ ComesToGap n s p := by
  induction p generalizing s with
  | nil => cases h
  | cons q p ih =>
    obtain ⟨hq, hp⟩ := forall_mem_cons.mp hp
    rw [length_append, length_cons] at hn
    rw [reblockWith_cons] at h
    cases h1 : reblockWith (lockScoidN n) [q] s with
    | error g =>
      rw [h1] at h
      cases h
      obtain ⟨hf, hl⟩ := of_reblockWith_singleton h1
      exact (hlock s q f hs hq hf (by omega) hl).imp_right fun hc => hc p
    | ok s1 =>
      rw [h1] at h
      obtain ⟨new, hb⟩ := reblockWith_of_lock (lockScoidN_ok n) hs (forall_mem_singleton.mpr hq) h1
      have hlen := hb.left.length_le
      rw [length_append, length_singleton] at hlen
      exact (ih hb.grants.sound hp (by rw [length_append]; omega) h).imp_right (.later h1)

theorem lockScoidN_of_error (hre : ∀ p s f, Sound s.list → (∀ q ∈ p, q.start ≤ q.last) →
      (waiters s.list ++ p).length ≤ n → reblockWith (lockScoidN n) p s = .error f →
      f = .null ∧ ComesToGap n s p)
    (hq : q.start ≤ q.last) (hf : lockFind s.list q = none)
    (hn : (waiters s.list).length ≤ n) (h : lockScoidN (n + 1) s q = .error f) :
    f = .null ∧ ∀ p, ComesToGap (n + 1) s (q :: p) := by
  unfold lockScoidN at h
  cases he : lockEdit s.list q s.heap with
  | none =>
    simp only [he, error.injEq] at h
    exact ⟨h.symm, fun _ => .this hf ((lockEdit_none hs.wf).mp he)⟩
  | some e =>
    obtain ⟨hed, -, -⟩ := lockEdit_edited hs hq he
    simp only [he] at h
    split at h
    · rename_i hok
      cases hrb : reblockWith (lockScoidN n) e.pending (s.put e) with
      | error g =>
        simp only [hrb, error.injEq] at h
        subst h
        have hc := hre e.pending (s.put e) g (hed.sound hf) (stuck_pending hs hed).1
          (hed.waiters.length_eq.trans_le hn) hrb
        exact hc.imp_right fun hc _ => .inner hf he hok hc
      | ok s1 => simp [hrb] at h
    · cases h

theorem reblockWith_error (hp : ∀ q ∈ p, q.start ≤ q.last) (hn : (waiters s.list ++ p).length ≤ n)
    (h : reblockWith (lockScoidN n) p s = .error f) : f = .null ∧ ComesToGap n s p := by
  induction n generalizing p s f with
  | zero =>
    refine reblockWith_of_error hs (fun s q f _ _ _ hlt _ => ?_) hp hn h
    cases hlt
  | succ n ih =>
    refine reblockWith_of_error hs (fun s q f hs hq hf hlt hl => ?_) hp hn h
    exact lockScoidN_of_error hs (fun _ _ _ hs => ih hs) hq hf (Nat.lt_succ_iff.mp hlt) hl

/-- `_iofunc_lock_scoid` never runs out of fuel. A null pointer is met by a call in the gap. -/
theorem lockScoid_error (hr : r.start ≤ r.last) (hf : lockFind s.list r = none)
    (h : s.lockScoid r = .error f) : f = .null ∧ ComesToGap (s.waiting.length + 1) s [r] :=
  (lockScoidN_of_error hs (fun _ _ _ => reblockWith_error) hr hf le_rfl h).imp_right fun hc => hc []

/-- A call in the gap is the last one. -/
theorem ComesToGap.error (h : ComesToGap n s p) (hp : ∀ q ∈ p, q.start ≤ q.last) :
    ∃ f, reblockWith (lockScoidN n) p s = .error f := by
  induction h with
  | @this n _ _ _ hf hg =>
    simp only [reblockWith, hf]
    cases n with
    | zero => exact ⟨_, rfl⟩
    | succ n => exact ⟨.null, by simp only [lockScoidN, (lockEdit_none hs.wf).mpr hg]⟩
  | inner hf he hok _ ih =>
    obtain ⟨hed, -, -⟩ := lockEdit_edited hs (hp _ mem_cons_self) he
    obtain ⟨f, hre⟩ := ih (hed.sound hf) (stuck_pending hs hed).1
    exact ⟨f, by simp only [reblockWith, hf, lockScoidN, he, hok, if_true, hre]⟩
  | later h1 _ ih =>
    obtain ⟨hq, hp⟩ := forall_mem_cons.mp hp
    obtain ⟨new, hb⟩ := reblockWith_of_lock (lockScoidN_ok _) hs (forall_mem_singleton.mpr hq) h1
    rw [reblockWith_cons, h1]
    exact ih hb.grants.sound hp

theorem unlockScoid_error {start last : Nat} (hse : start ≤ last)
    (h : s.unlockScoid c start last = .error f) : f = .null := by
  obtain ⟨hcut, -⟩ := unlockLoop_cut (c := c) hse s.list s.heap hs.wf
  unfold LockSt.unlockScoid at h
  generalize unlockLoop c start last s.list s.heap = e at hcut h
  dsimp only at h
  split at h
  · cases hrb : reblockWith (lockScoidN s.waiting.length) e.pending (s.put e) with
    | ok s1 => simp [hrb] at h
    | error g =>
      simp only [hrb, error.injEq] at h
      subst h
      have hp : ∀ q ∈ e.pending, q.start ≤ q.last := by
        intro q hq
        obtain ⟨cl, hm, hb, -⟩ := hcut.pending q hq
        exact (hs.blocked cl hm q hb).2
      exact (reblockWith_error (s := s.put e) (hcut.sound hs) hp hcut.waiters.length_eq.le hrb).1
  · cases h

theorem closeDup_error {pp : Option Nat} (h : LockSt.closeDup c n s pp = .error f) : f = .null := by
  induction n generalizing s pp with
  | zero => cases h
  | succ n ih =>
    unfold LockSt.closeDup at h
    cases hn : s.nextOf pp with
    | none => simp [hn] at h
    | some p =>
      simp only [hn] at h
      split at h
      · have hp := hs.wf p (nextOf_mem hn)
        cases hu : s.unlockScoid p.scoid p.start p.last with
        | error g =>
          simp only [hu, error.injEq] at h
          subst h
          exact unlockScoid_error hs hp hu
        | ok r =>
          simp only [hu] at h
          exact ih (unlockScoid_settles hs hp hu).1.1 h
      · exact ih hs h

theorem run_error {op : LockOp} (hr : LockCall.Ranged s ⟨op, s.heap.answers⟩)
    (h : op.run s = .error f) : f = .null := by
  cases op with
  | setlk r w =>
    replace h := error_of_map h
    unfold LockSt.iofuncLock at h
    cases hf : lockFind s.list r with
    | none =>
      simp only [hf] at h
      exact (lockScoid_error hs hr hf h).1
    | some cl =>
      simp only [hf] at h
      split at h
      · split at h <;> cases h
      · cases h
  | unlock c a b => exact unlockScoid_error hs hr (error_of_map h)
  | closeDup c n => exact closeDup_error hs h
  | unblock i => cases h

end Errors

/-- Clients that are looked at again never lead on without end. -/
theorem lock_calls_end {o : LockCall}
    (h : Reach LockCall.Start (fun s o => o.Ranged s) LockCall.step s) (ho : o.Ranged s) :
    o.op.run (s.supply o.answers) ≠ .error .fuel := by
  have hs := reach_sound h
  intro he
  cases run_error (s := s.supply o.answers) hs ho he

/-- Client 2 waits for client 1, and client 3 for client 2: client 1 turns to reading, and both are
looked at, one call inside the other. -/
theorem lock_calls_end_nested : ∃ s : LockSt,
    Reach LockCall.Start (fun s o => o.Ranged s) LockCall.step s ∧
    waiters s.list = [⟨20, 2, .rd, 5, 25⟩, ⟨30, 3, .rd, 20, 25⟩] ∧
    (((LockOp.setlk ⟨10, 1, .rd, 0, 9⟩ false).run (s.supply [])).toOption.map LockSt.answered =
      some [(⟨30, 3, .rd, 20, 25⟩, .eok), (⟨20, 2, .rd, 5, 25⟩, .eok)]) ∧
    (LockOp.setlk ⟨10, 1, .rd, 0, 9⟩ false).run (s.supply []) ≠ .error .fuel := by
  refine exists_reach (s := (⟨[], ⟨[], 0⟩, [], []⟩ : LockSt)) ⟨rfl, rfl, rfl⟩
    [⟨.setlk ⟨10, 1, .wr, 0, 9⟩ false, []⟩, ⟨.setlk ⟨20, 2, .wr, 20, 29⟩ false, []⟩,
      ⟨.setlk ⟨30, 3, .rd, 20, 25⟩ true, []⟩, ⟨.setlk ⟨20, 2, .rd, 5, 25⟩ true, []⟩]
    (by decide +kernel) fun s hs
      (hq : waiters s.list = [⟨20, 2, .rd, 5, 25⟩, ⟨30, 3, .rd, 20, 25⟩] ∧
        ((LockOp.setlk ⟨10, 1, .rd, 0, 9⟩ false).run (s.supply [])).toOption.map LockSt.answered =
          some [(⟨30, 3, .rd, 20, 25⟩, .eok), (⟨20, 2, .rd, 5, 25⟩, .eok)]) => ?_
  exact ⟨hq.1, hq.2, lock_calls_end (o := ⟨.setlk ⟨10, 1, .rd, 0, 9⟩ false, []⟩) hs (Nat.zero_le 9)⟩

end Qnx.Iofunc
