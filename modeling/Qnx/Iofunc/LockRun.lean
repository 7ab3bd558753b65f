import Qnx.Iofunc.LockGrants

/-!
# Runs of lock requests on one file

Each request comes with the answers `malloc` gives while it is served. Entries of different clients
stay apart in every run; the clients that wait are all accounted for as long as no request runs
out of memory with clients of its own entries in hand.
-/

namespace Qnx.Iofunc

open List Prod
open Run
open LockSt (unblockEntry)

/-- The requests; an `iofunc_close_dup` is seen after any number of turns of its loop. -/
inductive LockOp where
  | setlk (r : Req) (wait : Bool)
  | unlock (scoid start last : Nat)
  | closeDup (scoid turns : Nat)
  | unblock (rcvid : Nat)
  deriving DecidableEq, Repr

structure LockCall where
  op : LockOp
  answers : List Bool
  deriving DecidableEq, Repr

def LockOp.run : LockOp → LockSt → Except Fault LockSt
  | .setlk r wait, s => (s.iofuncLock r wait).map fst
  | .unlock c start last, s => (s.unlockScoid c start last).map fst
  | .closeDup c n, s => LockSt.closeDup c n s none
  | .unblock i, s => .ok (s.unblock i)

def LockSt.supply (s : LockSt) (answers : List Bool) : LockSt :=
  { s with heap := ⟨answers, s.heap.next⟩ }

namespace LockCall

def step (s : LockSt) (o : LockCall) : Option LockSt := (o.op.run (s.supply o.answers)).toOption

/-- `iofunc_lock` lets no other range through. -/
def Ranged (_ : LockSt) (o : LockCall) : Prop :=
  match o.op with
  | .setlk r _ => r.start ≤ r.last
  | .unlock _ start last => start ≤ last
  | _ => True

instance (s : LockSt) (o : LockCall) : Decidable (o.Ranged s) :=
  match o with
  | ⟨.setlk _ _, _⟩ => inferInstanceAs (Decidable (_ ≤ _))
  | ⟨.unlock _ _ _, _⟩ => inferInstanceAs (Decidable (_ ≤ _))
  | ⟨.closeDup _ _, _⟩ => inferInstanceAs (Decidable True)
  | ⟨.unblock _, _⟩ => inferInstanceAs (Decidable True)

end LockCall

def Unawaited (l : List Entry) (c : Nat) : Prop := ∀ cl ∈ l, cl.scoid = c → cl.blocked = []

instance (l : List Entry) (c : Nat) : Decidable (Unawaited l c) :=
  inferInstanceAs (Decidable (∀ cl ∈ l, _))

/-- Memory is there, or nobody is taken off a list for client `c`. -/
def Served (c : Nat) (s : LockSt) : Prop := s.heap.Gives ∨ Unawaited s.list c

instance (c : Nat) (s : LockSt) : Decidable (Served c s) :=
  inferInstanceAs (Decidable ((∀ b ∈ s.heap.answers, b = true) ∨ _))

namespace LockCall

/-- No request of client `c` fails for memory while somebody waits for an entry of `c`. A client
that is told to wait takes nobody off a list. -/
def Clean (s : LockSt) (o : LockCall) : Prop :=
  o.Ranged s ∧ match o.op with
    | .setlk r _ => lockFind s.list r ≠ none ∨ Served r.scoid (s.supply o.answers)
    | .unlock c _ _ => Served c (s.supply o.answers)
    | .closeDup c _ => Served c (s.supply o.answers)
    | .unblock _ => True

instance (s : LockSt) (o : LockCall) : Decidable (o.Clean s) :=
  match o with
  | ⟨.setlk _ _, _⟩ => inferInstanceAs (Decidable (_ ∧ (_ ∨ _)))
  | ⟨.unlock _ _ _, _⟩ => inferInstanceAs (Decidable (_ ∧ Served _ _))
  | ⟨.closeDup _ _, _⟩ => inferInstanceAs (Decidable (_ ∧ Served _ _))
  | ⟨.unblock _, _⟩ => inferInstanceAs (Decidable (_ ∧ True))

def Start (s : LockSt) : Prop := s.list = [] ∧ s.told = [] ∧ s.answered = []

end LockCall

/-! ### What becomes of the clients that wait -/

/-- The list stays sound, and a client that is told `EOK` has its lock. -/
def Keeps (s s' : LockSt) : Prop :=
  Sound s'.list ∧ ∀ a ∈ s'.replied, a ∈ s.replied ∨ (a.status = .eok → Holds a.list a.req)

theorem Keeps.refl {s : LockSt} (h : Sound s.list) : Keeps s s := ⟨h, fun _ => .inl⟩

theorem Keeps.trans {s s1 s' : LockSt} (h : Keeps s s1) (h' : Keeps s1 s') : Keeps s s' :=
  ⟨h'.1, fun a ha => (h'.2 a ha).elim (h.2 a) .inr⟩

def Settles (s s' : LockSt) : Prop :=
  s'.told = s.told ∧ ∃ new, s'.answered = s.answered ++ new ∧
    waiters s'.list ++ new.map fst ~ waiters s.list

theorem Settles.refl (s : LockSt) : Settles s s := ⟨rfl, [], by simp, by simp⟩

variable {s s' : LockSt} {l : List Entry} {c i : Nat} {r : Req} {st : Status} {pp : Option Nat}

theorem Settles.trans {s1 s2 : LockSt} (h : Settles s s1) (h' : Settles s1 s2) : Settles s s2 := by
  obtain ⟨ht, n1, ha, hw⟩ := h
  obtain ⟨ht', n2, ha', hw'⟩ := h'
  refine ⟨ht'.trans ht, n1 ++ n2, by rw [ha', ha, append_assoc], ?_⟩
  calc waiters s2.list ++ (n1 ++ n2).map fst
    _ ~ waiters s2.list ++ (n2.map fst ++ n1.map fst) := by
      rw [map_append]
      exact perm_append_comm.append_left _
    _ = waiters s2.list ++ n2.map fst ++ n1.map fst := (append_assoc _ _ _).symm
    _ ~ waiters s1.list ++ n1.map fst := hw'.append_right _
    _ ~ waiters s.list := hw

def Accounted (s : LockSt) : Prop := s.told ~ waiters s.list ++ s.answered.map fst

theorem Accounted.settles (h : Accounted s) (hs : Settles s s') : Accounted s' := by
  obtain ⟨ht, new, ha, hw⟩ := hs
  unfold Accounted
  rw [ht, ha, map_append]
  calc s.told
    _ ~ waiters s.list ++ s.answered.map fst := h
    _ ~ waiters s'.list ++ new.map fst ++ s.answered.map fst := hw.symm.append_right _
    _ = waiters s'.list ++ (new.map fst ++ s.answered.map fst) := append_assoc _ _ _
    _ ~ waiters s'.list ++ (s.answered.map fst ++ new.map fst) :=
      perm_append_comm.append_left _

theorem pending_nil {p : List Req} (h : Unawaited l c)
    (hp : ∀ q ∈ p, ∃ cl ∈ l, q ∈ cl.blocked ∧ cl.scoid = c) : p = [] := by
  refine eq_nil_iff_forall_not_mem.mpr fun q hq => ?_
  obtain ⟨cl, hm, hb, hc⟩ := hp q hq
  rw [h cl hm hc] at hb
  cases hb

theorem settles_put {e : Edit} (hw : waiters e.list ++ e.pending ~ waiters s.list)
    (hp : e.pending = []) : Settles s (s.put e) := by
  refine ⟨rfl, [], (append_nil _).symm, ?_⟩
  rw [hp] at hw
  exact hw

theorem nextOf_mem {p : Entry} (h : s.nextOf pp = some p) : p ∈ s.list := by
  cases pp with
  | none => exact mem_of_mem_head? h
  | some i =>
    have h1 := mem_of_mem_head? (Option.mem_def.mpr h)
    exact (dropWhile_sublist _).mem (mem_of_mem_drop h1)

section

variable (hs : Sound s.list)
include hs

theorem lockScoid_settles
    (hr : r.start ≤ r.last) (hf : lockFind s.list r = none) (h : s.lockScoid r = .ok (s', st)) :
    Keeps s s' ∧ (Served r.scoid s → Settles s s') := by
  obtain ⟨e, new, hl⟩ := lockScoid_locked hs hr hf h
  refine ⟨⟨hl.grants.sound, hl.grants.held⟩, fun hsv => ?_⟩
  rcases hsv with hg | hu
  · exact ⟨hl.grants.told, new, hl.grants.log, hl.tally hg⟩
  have hp : e.pending = [] := pending_nil hu fun q hq => by
    obtain ⟨cl, hm, hb, hc, -⟩ := hl.edited.pending q hq
    exact ⟨cl, hm, hb, hc⟩
  rw [hl.quiet hp]
  exact settles_put hl.edited.waiters hp

theorem unlockScoid_settles {start last : Nat}
    (hse : start ≤ last) (h : s.unlockScoid c start last = .ok (s', st)) :
    Keeps s s' ∧ (Served c s → Settles s s' ∧ Served c s') := by
  obtain ⟨e, new, hu⟩ := unlockScoid_unlocked hs hse h
  refine ⟨⟨hu.grants.sound, hu.grants.held⟩, fun hsv => ?_⟩
  rcases hsv with hg | hn
  · exact ⟨⟨hu.grants.told, new, hu.grants.log, hu.tally hg⟩,
      .inl (hu.grants.later.gives (hu.fair.later.gives hg))⟩
  have hp : e.pending = [] := pending_nil hn hu.cut.pending
  rw [hu.quiet hp]
  refine ⟨settles_put hu.cut.waiters hp, .inr fun cl hm hc => ?_⟩
  by_contra hb
  exact hb (hn cl (hu.cut.blocked cl hm hb) hc)

theorem closeDup_settles {n : Nat}
    (h : LockSt.closeDup c n s pp = .ok s') : Keeps s s' ∧ (Served c s → Settles s s') := by
  induction n generalizing s pp with
  | zero =>
    cases h
    exact ⟨.refl hs, fun _ => .refl _⟩
  | succ n ih =>
    unfold LockSt.closeDup at h
    cases hn : s.nextOf pp with
    | none =>
      simp only [hn] at h
      cases h
      exact ⟨.refl hs, fun _ => .refl _⟩
    | some p =>
      simp only [hn] at h
      by_cases hc : p.scoid = c
      · rw [if_pos hc] at h
        cases hu : s.unlockScoid p.scoid p.start p.last with
        | error f => simp [hu] at h
        | ok r =>
          simp only [hu] at h
          obtain ⟨hs1, h1⟩ := unlockScoid_settles hs (hs.wf p (nextOf_mem hn)) hu
          obtain ⟨hs2, h2⟩ := ih hs1.1 h
          refine ⟨hs1.trans hs2, fun hsv => ?_⟩
          rw [hc] at h1
          exact (h1 hsv).1.trans (h2 (h1 hsv).2)
      · rw [if_neg hc] at h
        exact ih hs h

theorem block_accounted (hr : r.start ≤ r.last) (hf : lockFind s.list r ≠ none) :
    Keeps s (s.block r).1 ∧ (Accounted s → Accounted (s.block r).1) := by
  unfold LockSt.block
  split
  · exact ⟨.refl hs, id⟩
  split
  · exact ⟨.refl hs, id⟩
  refine ⟨⟨hs.enqueue hr, fun _ => .inl⟩, fun ha => ?_⟩
  have hw := enqueue_waiters hf
  calc s.told ++ [r]
    _ ~ r :: s.told := perm_append_comm
    _ ~ r :: (waiters s.list ++ s.answered.map fst) := ha.cons r
    _ ~ waiters (enqueue r s.list) ++ s.answered.map fst := (hw.append_right _).symm

end

theorem unblockEntry_keys (i : Nat) (l : List Entry) :
    (unblockEntry i l).1.map Entry.key = l.map Entry.key := by
  induction l with
  | nil => rfl
  | cons cl l ih =>
    unfold unblockEntry
    split
    · rfl
    · simp [ih]

theorem unblockEntry_blocked (hl : ∀ cl ∈ l, ∀ q ∈ cl.blocked, conflicts q cl ∧ q.start ≤ q.last) :
    ∀ cl ∈ (unblockEntry i l).1, ∀ q ∈ cl.blocked, conflicts q cl ∧ q.start ≤ q.last := by
  induction l with
  | nil => simp [unblockEntry]
  | cons cl l ih =>
    have hcl := hl cl mem_cons_self
    have htl := (forall_mem_cons.mp hl).2
    unfold unblockEntry
    split
    · intro c hc q hq
      rcases mem_cons.mp hc with rfl | hc
      · exact hcl q (mem_of_mem_erase hq)
      · exact htl c hc q hq
    intro c hc q hq
    rcases mem_cons.mp hc with rfl | hc
    · exact hcl q hq
    · exact ih htl c hc q hq

theorem unblockEntry_waiters {q : Req} (h : (unblockEntry i l).2 = some q) :
    waiters (unblockEntry i l).1 ++ [q] ~ waiters l := by
  induction l with
  | nil => simp [unblockEntry] at h
  | cons cl l ih =>
    unfold unblockEntry at h ⊢
    cases hf : cl.blocked.find? fun q => q.rcvid = i with
    | some q' =>
      simp only [hf, Option.some.injEq] at h
      subst h
      have hp := (perm_cons_erase (mem_of_find?_eq_some hf)).symm
      exact perm_append_comm.trans (hp.append_right (waiters l))
    | none =>
      simp only [hf] at h
      simp only [waiters_cons, append_assoc]
      exact (ih h).append_left _

theorem unblock_settles (i : Nat) (hs : Sound s.list) :
    Keeps s (s.unblock i) ∧ Settles s (s.unblock i) := by
  have hk := unblockEntry_keys i s.list
  have hb := unblockEntry_blocked (i := i) hs.blocked
  have hw := fun q => unblockEntry_waiters (i := i) (l := s.list) (q := q)
  unfold LockSt.unblock
  generalize unblockEntry i s.list = u at hk hb hw
  obtain ⟨l, o⟩ := u
  cases o with
  | none => exact ⟨.refl hs, .refl s⟩
  | some q =>
    refine ⟨⟨hs.of_keys hk hb, fun a ha => ?_⟩, rfl, [(q, .eintr)], map_append, hw q rfl⟩
    refine (mem_append.mp ha).imp_right fun ha => ?_
    rw [mem_singleton.mp ha]
    exact nofun

/-! ### Runs -/

theorem run_sound {op : LockOp} (hs : Sound s.list)
    (hr : LockCall.Ranged s ⟨op, s.heap.answers⟩) (h : op.run s = .ok s') :
    Keeps s s' ∧ (LockCall.Clean s ⟨op, s.heap.answers⟩ → Accounted s → Accounted s') := by
  cases op with
  | setlk r w =>
    unfold LockOp.run LockSt.iofuncLock at h
    cases hf : lockFind s.list r with
    | none =>
      simp only [hf] at h
      cases hl : s.lockScoid r with
      | error f =>
        rw [hl] at h
        cases h
      | ok p =>
        rw [hl] at h
        cases h
        obtain ⟨h1, h2⟩ := lockScoid_settles hs hr hf hl
        refine ⟨h1, fun hc ha => ha.settles (h2 ?_)⟩
        exact hc.2.resolve_left (fun hne => hne hf)
    | some cl =>
      simp only [hf] at h
      cases w with
      | false =>
        cases h
        exact ⟨.refl hs, fun _ => id⟩
      | true =>
        simp only [if_true] at h
        split at h
        · cases h
          exact ⟨.refl hs, fun _ => id⟩
        cases h
        obtain ⟨h1, h2⟩ := block_accounted hs hr (by simp [hf])
        exact ⟨h1, fun _ => h2⟩
  | unlock c a b =>
    simp only [LockOp.run] at h
    cases hl : s.unlockScoid c a b with
    | error f =>
      rw [hl] at h
      cases h
    | ok p =>
      rw [hl] at h
      cases h
      obtain ⟨h1, h2⟩ := unlockScoid_settles hs hr hl
      exact ⟨h1, fun hc ha => ha.settles (h2 hc.2).1⟩
  | closeDup c n =>
    obtain ⟨h1, h2⟩ := closeDup_settles hs h
    exact ⟨h1, fun hc ha => ha.settles (h2 hc.2)⟩
  | unblock i =>
    cases h
    obtain ⟨h1, h2⟩ := unblock_settles i hs
    exact ⟨h1, fun _ ha => ha.settles h2⟩

theorem step_sound {o : LockCall} (hs : Sound s.list) (hr : o.Ranged s)
    (h : LockCall.step s o = some s') :
    Keeps s s' ∧ (o.Clean s → Accounted s → Accounted s') := by
  unfold LockCall.step at h
  cases hrun : o.op.run (s.supply o.answers) with
  | error f =>
    rw [hrun] at h
    cases h
  | ok s1 =>
    rw [hrun] at h
    cases h
    exact run_sound (s := s.supply o.answers) hs hr hrun

theorem reach_keeps (h : Reach LockCall.Start (fun s o => o.Ranged s) LockCall.step s) :
    Sound s.list ∧ ∀ a ∈ s.replied, a.status = .eok → Holds a.list a.req := by
  refine h.invariant (P := fun s => Sound s.list ∧ ∀ a ∈ s.replied, a.status = .eok → Holds a.list
    a.req) (fun s h0 => ?_) fun s o s' hs hr hst => ?_
  · obtain ⟨h1, -, h3⟩ := h0
    rw [h1, map_eq_nil_iff.mp h3]
    exact ⟨⟨by simp, by simp, by simp⟩, nofun⟩
  · obtain ⟨h1, h2⟩ := (step_sound hs.1 hr hst).1
    exact ⟨h1, fun a ha => (h2 a ha).elim (hs.2 a) id⟩

theorem reach_sound (h : Reach LockCall.Start (fun s o => o.Ranged s) LockCall.step s) :
    Sound s.list := (reach_keeps h).1

theorem reach_accounted
    (h : Reach LockCall.Start (fun s o => o.Clean s) LockCall.step s) : Accounted s := by
  have hinv : Sound s.list ∧ Accounted s := by
    refine h.invariant (P := fun s => Sound s.list ∧ Accounted s) (fun s h0 => ?_)
      fun s o s' hs hc hst => ?_
    · obtain ⟨h1, h2, h3⟩ := h0
      refine ⟨?_, ?_⟩
      · rw [h1]
        exact ⟨by simp, by simp, by simp⟩
      · simp [Accounted, h1, h2, h3]
    · obtain ⟨h1, h2⟩ := step_sound hs.1 hc.1 hst
      exact ⟨h1.1, h2 hc hs.2⟩
  exact hinv.2

theorem Sound.rd_of_overlap (hl : Sound l) {cl cl' : Entry} (h : cl ∈ l)
    (h' : cl' ∈ l) (hne : cl.scoid ≠ cl'.scoid)
    (ho : overlap cl.start cl.last cl'.start cl'.last) : cl.type = .rd ∧ cl'.type = .rd := by
  have hw := hl.wf cl h
  have hw' := hl.wf cl' h'
  unfold overlap at ho
  refine hl.apart cl.scoid cl'.scoid cl.type cl'.type (max cl.start cl'.start) hne
    ⟨cl, h, rfl, rfl, ?_⟩ ⟨cl', h', rfl, rfl, ?_⟩ <;> omega

/-- Locks of two clients overlap only where both read, and a client that waited and is told `EOK` has
its lock then. In a run whose requests all are clean, every client that was told to wait is on the
list of an entry it conflicts with, or has its answer. -/
theorem waiting_accounted {s : LockSt}
    (h : Reach LockCall.Start (fun s o => o.Ranged s) LockCall.step s) :
    (∀ cl ∈ s.list, ∀ cl' ∈ s.list, cl.scoid ≠ cl'.scoid →
      overlap cl.start cl.last cl'.start cl'.last → cl.type = .rd ∧ cl'.type = .rd) ∧
    (∀ cl ∈ s.list, ∀ q ∈ cl.blocked, conflicts q cl) ∧
    (∀ a ∈ s.replied, a.status = .eok → Holds a.list a.req) ∧
    (Reach LockCall.Start (fun s o => o.Clean s) LockCall.step s →
      s.told ~ waiters s.list ++ s.replied.map Answer.req) := by
  obtain ⟨hs, hheld⟩ := reach_keeps h
  refine ⟨fun cl hm cl' hm' hne ho => hs.rd_of_overlap hm hm' hne ho, ?_, hheld, fun hc => ?_⟩
  · exact fun cl hm q hq => (hs.blocked cl hm q hq).1
  · have ha := reach_accounted hc
    rwa [Accounted, LockSt.answered, List.map_map] at ha

def writerAndWaiter : List LockCall :=
  [⟨.setlk ⟨10, 1, .wr, 0, 9⟩ false, []⟩, ⟨.setlk ⟨20, 2, .wr, 3, 4⟩ true, []⟩]

theorem waiting_accounted_granted : ∃ s : LockSt,
    (s.told = [⟨20, 2, .wr, 3, 4⟩] ∧ s.answered = [(⟨20, 2, .wr, 3, 4⟩, .eok)]) ∧
    (∀ a ∈ s.replied, a.status = .eok → Holds a.list a.req) ∧
    s.told ~ waiters s.list ++ s.replied.map Answer.req := by
  obtain ⟨s, hs, hq⟩ := (Reach.init (s := (⟨[], ⟨[], 0⟩, [], []⟩ : LockSt)) ⟨rfl, rfl, rfl⟩ :
      Reach LockCall.Start (fun s o => o.Clean s) LockCall.step _).replay_any
    (writerAndWaiter ++ [⟨.unlock 1 2 5, [true]⟩])
    (fun s => s.told = [⟨20, 2, .wr, 3, 4⟩] ∧ s.answered = [(⟨20, 2, .wr, 3, 4⟩, .eok)])
    (by decide +kernel)
  have h := waiting_accounted (hs.mono fun _ _ ho => ho.1)
  exact ⟨s, of_decide_eq_true hq, h.2.2.1, h.2.2.2 hs⟩

/-- Client 1 unlocks `2` to `5` and there is no memory for the second piece: client 2 was told to
wait, waits for no entry and has no answer. -/
theorem waiter_dropped : ∃ s : LockSt,
    Reach LockCall.Start (fun s o => o.Ranged s) LockCall.step s ∧
    s.told = [⟨20, 2, .wr, 3, 4⟩] ∧ waiters s.list = [] ∧ s.answered = [] := by
  exact exists_reach (s := (⟨[], ⟨[], 0⟩, [], []⟩ : LockSt)) ⟨rfl, rfl, rfl⟩
    (writerAndWaiter ++ [⟨.unlock 1 2 5, [false]⟩])
    (by decide +kernel) fun _ _ hq => hq

end Qnx.Iofunc
