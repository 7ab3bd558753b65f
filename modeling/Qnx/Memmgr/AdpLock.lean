import Mathlib.Data.List.Count
import Mathlib.Algebra.Group.Nat.Defs
import Qnx.Shared.Run

/-!
# The read/write lock of an address space

`memmgr_support.c`. One word holds the count of readers, the writer bit, the request of a promotion
and the bit that says somebody waits. A thread is where it is in a call; what it does between two
waits on `mm_cond` is one step. The condition is shared by all address spaces, so a sleeping thread
may be woken at any time.
-/

namespace Qnx.Memmgr.AdpLock

open Run List

/-- `_RLOCK_MASK` -/
def readers (w : Nat) : Nat := w % 2 ^ 28

def hasBit (w k : Nat) : Prop := w / 2 ^ k % 2 = 1

instance (w k : Nat) : Decidable (hasBit w k) := inferInstanceAs (Decidable (_ = _))

def setBit (w k : Nat) : Nat := if hasBit w k then w else w + 2 ^ k

def clearBit (w k : Nat) : Nat := if hasBit w k then w - 2 ^ k else w

/-- `_WLOCK_BIT`, `_PROMOTE_REQ` and `_PENDING` -/
def wlock : Nat := 28
def promoteReq : Nat := 29
def pending : Nat := 31

inductive Want where
  | read | write | promote
  deriving DecidableEq, Repr

inductive Phase where
  | idle | reader | writer
  | asleep (w : Want)
  | woken (w : Want)
  deriving DecidableEq, Repr

/-- `pthread_cond_broadcast` -/
def Phase.wake : Phase → Phase
  | .asleep w => .woken w
  | p => p

/-- A call from the test of its loop on, up to the next wait or the end; `none` is `crash`. -/
def attempt (w : Nat) : Want → Option (Nat × Phase)
  | .read =>
    if hasBit w wlock then some (setBit w pending, .asleep .read)
    else
      let w := (w + 1) % 2 ^ 32
      if hasBit w wlock then none else some (w, .reader)
  | .write =>
    if w ≠ 0 then some (setBit w pending, .asleep .write) else some (2 ^ wlock, .writer)
  | .promote =>
    if hasBit w wlock ∨ readers w ≠ 0 then some (setBit w pending, .asleep .promote)
    else some (2 ^ wlock, .writer)

/-- `proc_rlock_promote_adp`; a second promotion is refused. -/
def promote (w : Nat) : Option (Nat × Phase) :=
  if hasBit w promoteReq then some (w, .reader)
  else attempt ((setBit w promoteReq + (2 ^ 32 - 1)) % 2 ^ 32) .promote

/-- `proc_unlock_adp`: the word, and whether it broadcasts. -/
def unlock (w : Nat) : Nat × Bool :=
  let locked :=
    if hasBit w wlock then clearBit w wlock
    else if readers w ≠ 0 then w - readers w + (readers w - 1) else w
  if ¬hasBit locked wlock ∧ readers locked = 0 ∧ hasBit locked pending then
    (clearBit locked pending, true)
  else (locked, false)

structure AdpSt where
  lock : Nat
  threads : List Phase
  deriving DecidableEq, Repr

inductive AdpOp where
  | rlock (i : Nat)
  | wlock (i : Nat)
  | promote (i : Nat)
  | unlock (i : Nat)
  | resume (i : Nat)
  | wake (i : Nat)
  deriving DecidableEq, Repr

namespace AdpSt

def put (s : AdpSt) (i : Nat) (r : Option (Nat × Phase)) : Option AdpSt :=
  r.map fun r => ⟨r.1, s.threads.set i r.2⟩

def step (s : AdpSt) : AdpOp → Option AdpSt
  | .rlock i => s.put i (attempt s.lock .read)
  | .wlock i => s.put i (attempt s.lock .write)
  | .promote i => s.put i (AdpLock.promote s.lock)
  | .unlock i =>
    let threads := s.threads.set i .idle
    match AdpLock.unlock s.lock with
    | (w, true) => some ⟨w, threads.map Phase.wake⟩
    | (w, false) => some ⟨w, threads⟩
  | .resume i =>
    match s.threads[i]? with
    | some (.woken want) => s.put i (attempt s.lock want)
    | _ => none
  | .wake i =>
    match s.threads[i]? with
    | some (.asleep want) => some { s with threads := s.threads.set i (.woken want) }
    | _ => none

/-- Threads unlock and promote what they have. -/
def Served (s : AdpSt) : AdpOp → Prop
  | .rlock i => s.threads[i]? = some .idle
  | .wlock i => s.threads[i]? = some .idle
  | .promote i => s.threads[i]? = some .reader
  | .unlock i => s.threads[i]? = some .reader ∨ s.threads[i]? = some .writer
  | .resume _ => True
  | .wake _ => True

def Promotes (s : AdpSt) : AdpOp → Prop
  | .promote _ => ¬hasBit s.lock promoteReq ∧ readers s.lock = 1
  | .resume i => s.threads[i]? = some (.woken .promote) ∧ readers s.lock = 0
  | _ => False

/-- A promotion ends while nobody sleeps. -/
def Clean (s : AdpSt) (o : AdpOp) : Prop :=
  s.Served o ∧ (s.Promotes o → ∀ w, Phase.asleep w ∉ s.threads)

def Start (s : AdpSt) : Prop := s.lock = 0 ∧ ∀ p ∈ s.threads, p = .idle

def Free (s : AdpSt) : Prop := ¬hasBit s.lock AdpLock.wlock ∧ readers s.lock = 0

/-! ### Counts -/

/-- The lock word, and what it says, in the numbers of threads in each phase: readers, writers,
sleeping readers, writers and promoters, and promoters that are awake. -/
structure Counted (lock r w ar aw ap kp q : Nat) : Prop where
  word : lock = r + 2 ^ 28 * w + 2 ^ 29 * (ap + kp) + 2 ^ 31 * q
  pend : q ≤ 1
  small : r < 2 ^ 28
  one : w ≤ 1
  promoter : ap + kp ≤ 1
  alone : w = 1 → r = 0 ∧ ap + kp = 0
  asleep : 0 < ar + aw + ap → q = 1
  kept : q = 1 → 0 < r + w + ap + kp
  forWriter : 0 < ar → w = 1
  forReaders : 0 < ap → 0 < r
  forAny : 0 < aw → 0 < r + w + kp

namespace Counted
variable {lock r w ar aw ap kp q : Nat}

section

variable (h : Counted lock r w ar aw ap kp q)
include h

theorem hasBit_wlock : hasBit lock AdpLock.wlock ↔ w = 1 := by
  obtain ⟨h1, h2, h3, h4, h5, -⟩ := h
  unfold hasBit AdpLock.wlock
  omega

theorem hasBit_promote : hasBit lock promoteReq ↔ ap + kp = 1 := by
  obtain ⟨h1, h2, h3, h4, h5, -⟩ := h
  unfold hasBit promoteReq
  omega

theorem hasBit_pending : hasBit lock pending ↔ q = 1 := by
  obtain ⟨h1, h2, h3, h4, h5, -⟩ := h
  unfold hasBit pending
  omega

theorem readers_eq : readers lock = r := by
  obtain ⟨h1, h2, h3, h4, h5, -⟩ := h
  unfold readers
  omega

theorem setBit_pending : setBit lock pending = r + 2 ^ 28 * w + 2 ^ 29 * (ap + kp) + 2 ^ 31 := by
  unfold setBit
  simp only [h.hasBit_pending]
  obtain ⟨h1, h2, -⟩ := h
  unfold pending
  split <;> omega

theorem attempt_read {lock' : Nat} {p : Phase} (ha : attempt lock .read = some (lock', p)) :
    p = .asleep .read ∧ Counted lock' r w (ar + 1) aw ap kp 1 ∨
    p = .reader ∧ Counted lock' (r + 1) w ar aw ap kp q := by
  have hp := h.setBit_pending
  simp only [attempt, h.hasBit_wlock] at ha
  obtain ⟨h1, h2, h3, h4, h5, h6, h7, h8, h9, h10, h11⟩ := h
  split at ha
  · cases ha
    left
    exact ⟨rfl, by constructor <;> omega⟩
  split at ha
  · cases ha
  rename_i hc
  cases ha
  -- the count has not run into the writer bit
  have hsmall : r + 1 < 2 ^ 28 := by
    unfold hasBit AdpLock.wlock at hc
    omega
  right
  exact ⟨rfl, by constructor <;> omega⟩

theorem attempt_write {lock' : Nat} {p : Phase} (ha : attempt lock .write = some (lock', p)) :
    p = .asleep .write ∧ Counted lock' r w ar (aw + 1) ap kp 1 ∨
    p = .writer ∧ Counted lock' r (w + 1) ar aw ap kp q := by
  have hp := h.setBit_pending
  obtain ⟨h1, h2, h3, h4, h5, h6, h7, h8, h9, h10, h11⟩ := h
  simp only [attempt] at ha
  split at ha
  · cases ha
    left
    exact ⟨rfl, by constructor <;> omega⟩
  cases ha
  right
  unfold AdpLock.wlock
  exact ⟨rfl, by constructor <;> omega⟩

end

theorem attempt_promote {lock' : Nat} {p : Phase} (h : Counted lock r w ar aw ap (kp + 1) q)
    (ha : attempt lock .promote = some (lock', p)) :
    p = .asleep .promote ∧ Counted lock' r w ar aw (ap + 1) kp 1 ∨
    p = .writer ∧ readers lock = 0 ∧
      (ar + aw + ap = 0 → Counted lock' r (w + 1) ar aw ap kp 0) := by
  have hr := h.readers_eq
  have hp := h.setBit_pending
  simp only [attempt, h.hasBit_wlock] at ha
  obtain ⟨h1, h2, h3, h4, h5, h6, h7, h8, h9, h10, h11⟩ := h
  split at ha
  · cases ha
    left
    exact ⟨rfl, by constructor <;> omega⟩
  cases ha
  right
  refine ⟨rfl, by omega, fun hs => ?_⟩
  unfold AdpLock.wlock
  constructor <;> omega

theorem promote_word (h : Counted lock (r + 1) w ar aw ap kp q) (hp : ¬hasBit lock promoteReq) :
    Counted ((setBit lock promoteReq + (2 ^ 32 - 1)) % 2 ^ 32) r w ar aw ap (kp + 1) q := by
  have hb := h.hasBit_promote
  rw [hb] at hp
  have hset : setBit lock promoteReq = lock + 2 ^ 29 := if_neg (hb.not.mpr hp)
  obtain ⟨h1, h2, h3, h4, h5, h6, h7, h8, h9, h10, h11⟩ := h
  constructor <;> omega

theorem unlock_spec (h : Counted lock r w ar aw ap kp q) (hpos : 0 < r + w) :
    let u := AdpLock.unlock lock
    u.2 = true ∧ r + w = 1 ∧ Counted u.1 0 0 0 0 0 (ap + kp) 0 ∨
      u.2 = false ∧ (r + w = 1 → q = 0) ∧ Counted u.1 (r + w - 1) 0 ar aw ap kp q := by
  have hw := h.hasBit_wlock
  have hr := h.readers_eq
  obtain ⟨h1, h2, h3, h4, h5, h6, h7, h8, h9, h10, h11⟩ := h
  have hlocked : (if hasBit lock AdpLock.wlock then clearBit lock AdpLock.wlock
      else if readers lock ≠ 0 then lock - readers lock + (readers lock - 1) else lock) =
      (r + w - 1) + 2 ^ 29 * (ap + kp) + 2 ^ 31 * q := by
    simp only [clearBit, hw, hr]
    unfold AdpLock.wlock
    split_ifs <;> omega
  unfold AdpLock.unlock
  dsimp only
  rw [hlocked]
  have hrd : readers ((r + w - 1) + 2 ^ 29 * (ap + kp) + 2 ^ 31 * q) = r + w - 1 := by
    unfold readers
    omega
  have hwl : ¬hasBit ((r + w - 1) + 2 ^ 29 * (ap + kp) + 2 ^ 31 * q) AdpLock.wlock := by
    unfold hasBit AdpLock.wlock
    omega
  have hpe : hasBit ((r + w - 1) + 2 ^ 29 * (ap + kp) + 2 ^ 31 * q) pending ↔ q = 1 := by
    unfold hasBit pending
    omega
  split
  · rename_i hb
    obtain ⟨-, hb2, hb3⟩ := hb
    left
    rw [clearBit, if_pos hb3]
    rw [hpe] at hb3
    refine ⟨rfl, by omega, ?_⟩
    unfold pending
    constructor <;> omega
  rename_i hb
  have hq : r + w = 1 → q = 0 := by
    by_contra hne
    exact hb ⟨hwl, by omega, hpe.mpr (by omega)⟩
  right
  refine ⟨rfl, hq, ?_⟩
  constructor <;> omega

end Counted

def Inv (s : AdpSt) : Prop :=
  ∃ q, Counted s.lock (s.threads.count .reader) (s.threads.count .writer)
    (s.threads.count (.asleep .read)) (s.threads.count (.asleep .write))
    (s.threads.count (.asleep .promote)) (s.threads.count (.woken .promote)) q

theorem count_split {l : List Phase} {i : Nat} {x : Phase} (h : l[i]? = some x) :
    ∃ c : Phase → Nat, (∀ p, l.count p = c p + if x = p then 1 else 0) ∧
      ∀ y p, (l.set i y).count p = c p + if y = p then 1 else 0 := by
  obtain ⟨hi, rfl⟩ := List.getElem?_eq_some_iff.mp h
  refine ⟨fun p => (l.take i ++ l.drop (i + 1)).count p, fun p => ?_, fun y p => ?_⟩
  · conv_lhs => rw [← take_append_drop i l, drop_eq_getElem_cons hi]
    dsimp only
    rw [count_append, count_append, count_cons]
    simp only [beq_iff_eq]
    omega
  · dsimp only
    rw [set_eq_take_append_cons_drop, if_pos hi, count_append, count_append, count_cons]
    simp only [beq_iff_eq]
    omega

theorem count_wake (l : List Phase) (p : Phase) : (l.map Phase.wake).count p = match p with
      | .asleep _ => 0
      | .woken w => l.count (.asleep w) + l.count (.woken w)
      | p => l.count p := by
  induction l with
  | nil => cases p <;> rfl
  | cons x l ih =>
    rw [map_cons, count_cons, ih]
    cases p <;> cases x <;> simp [Phase.wake, count_cons] <;> omega

variable {s s' : AdpSt} {o : AdpOp}

theorem count_asleep (h : ∀ w, Phase.asleep w ∉ s.threads) (w : Want) :
    s.threads.count (.asleep w) = 0 := count_eq_zero.mpr (h w)

theorem put_some {i : Nat} {r : Option (Nat × Phase)} (h : s.put i r = some s') :
    ∃ lock' p, r = some (lock', p) ∧ s' = ⟨lock', s.threads.set i p⟩ := by
  obtain ⟨⟨lock', p⟩, hr, he⟩ := Option.map_eq_some_iff.mp h
  exact ⟨lock', p, hr, he.symm⟩

theorem Start.inv (h : s.Start) : s.Inv := by
  obtain ⟨h0, hi⟩ := h
  have hc : ∀ p, p ≠ .idle → s.threads.count p = 0 := fun p hp =>
    count_eq_zero.mpr fun hm => hp (hi p hm)
  refine ⟨0, ?_⟩
  rw [h0, hc .reader nofun, hc .writer nofun, hc (.asleep .read) nofun, hc (.asleep .write) nofun,
    hc (.asleep .promote) nofun, hc (.woken .promote) nofun]
  constructor <;> decide

theorem unlock_counts {i ar aw ap kp q : Nat}
    (h : Counted s.lock (s.threads.count .reader) (s.threads.count .writer) ar aw ap kp q)
    (hi : s.threads[i]? = some .reader ∨ s.threads[i]? = some .writer) :
    ∃ c : Phase → Nat, (∀ p, (s.threads.set i .idle).count p =
        c p + if Phase.idle = p then 1 else 0) ∧ c .writer = 0 ∧
      s.threads.count .reader + s.threads.count .writer = c .reader + 1 ∧
      ∀ p, p ≠ .reader → p ≠ .writer → s.threads.count p = c p := by
  have hone := h.one
  have halone := h.alone
  rcases hi with hm | hm
  · obtain ⟨c, hc, hset⟩ := count_split hm
    have hr : s.threads.count .reader = c .reader + 1 := hc .reader
    have hw : s.threads.count .writer = c .writer := hc .writer
    exact ⟨c, hset .idle, by omega, by omega, fun p h1 _ => by simp [hc, h1.symm]⟩
  obtain ⟨c, hc, hset⟩ := count_split hm
  have hr := hc .reader
  have hw : s.threads.count .writer = c .writer + 1 := hc .writer
  exact ⟨c, hset .idle, by omega, by omega, fun p _ h2 => by simp [hc, h2.symm]⟩

theorem Inv.step (h : s.Inv) (hok : s.Clean o) (hs : s.step o = some s') : s'.Inv := by
  obtain ⟨q, h⟩ := h
  obtain ⟨hserved, hclean⟩ := hok
  cases o with
  | rlock i =>
    obtain ⟨lock', p, ha, rfl⟩ := put_some hs
    obtain ⟨c, hc, hset⟩ := count_split hserved
    simp only [hc] at h
    rcases h.attempt_read ha with ⟨rfl, h'⟩ | ⟨rfl, h'⟩
    · exact ⟨1, by simpa [hset] using h'⟩
    · exact ⟨q, by simpa [hset] using h'⟩
  | wlock i =>
    obtain ⟨lock', p, ha, rfl⟩ := put_some hs
    obtain ⟨c, hc, hset⟩ := count_split hserved
    simp only [hc] at h
    rcases h.attempt_write ha with ⟨rfl, h'⟩ | ⟨rfl, h'⟩
    · exact ⟨1, by simpa [hset] using h'⟩
    · exact ⟨q, by simpa [hset] using h'⟩
  | promote i =>
    obtain ⟨lock', p, ha, rfl⟩ := put_some hs
    obtain ⟨c, hc, hset⟩ := count_split hserved
    have hreaders := h.readers_eq
    have hz := fun hp => count_asleep (hclean hp)
    simp only [hc, if_true] at h hreaders hz
    unfold AdpLock.promote at ha
    split at ha
    · cases ha
      exact ⟨q, by simpa [hset] using h⟩
    rename_i hp
    have h1 := h.promote_word hp
    rcases h1.attempt_promote ha with ⟨rfl, h'⟩ | ⟨rfl, hr, h'⟩
    · exact ⟨1, by simpa [hset] using h'⟩
    have h0 : c .reader = 0 := h1.readers_eq.symm.trans hr
    have hz := hz ⟨hp, by omega⟩
    exact ⟨0, by simpa [hset] using h' (by rw [hz, hz, hz])⟩
  | unlock i =>
    obtain ⟨c, hset, hw, hsum, hother⟩ := unlock_counts h hserved
    have hspec := h.unlock_spec (by omega)
    simp only [AdpSt.step] at hs
    generalize AdpLock.unlock s.lock = r at hs hspec
    obtain ⟨lock', b⟩ := r
    rcases hspec with ⟨hb, h1, h'⟩ | ⟨hb, -, h'⟩
    · subst hb
      cases hs
      have hr : c .reader = 0 := by omega
      rw [hother (.asleep .promote) nofun nofun, hother (.woken .promote) nofun nofun] at h'
      exact ⟨0, by simpa [-map_set, count_wake, hset, hr, hw] using h'⟩
    subst hb
    cases hs
    rw [hsum, hother (.asleep .read) nofun nofun,
      hother (.asleep .write) nofun nofun, hother (.asleep .promote) nofun nofun,
      hother (.woken .promote) nofun nofun] at h'
    exact ⟨q, by simpa [hset, hw] using h'⟩
  | resume i =>
    simp only [AdpSt.step] at hs
    split at hs
    · rename_i want hw
      obtain ⟨lock', p, ha, rfl⟩ := put_some hs
      obtain ⟨c, hc, hset⟩ := count_split hw
      cases want with
      | read =>
        simp only [hc] at h
        rcases h.attempt_read ha with ⟨rfl, h'⟩ | ⟨rfl, h'⟩
        · exact ⟨1, by simpa [hset] using h'⟩
        · exact ⟨q, by simpa [hset] using h'⟩
      | write =>
        simp only [hc] at h
        rcases h.attempt_write ha with ⟨rfl, h'⟩ | ⟨rfl, h'⟩
        · exact ⟨1, by simpa [hset] using h'⟩
        · exact ⟨q, by simpa [hset] using h'⟩
      | promote =>
        have hz := fun hp => count_asleep (hclean hp)
        simp only [hc] at h hz
        rcases h.attempt_promote ha with ⟨rfl, h'⟩ | ⟨rfl, hr, h'⟩
        · exact ⟨1, by simpa [hset] using h'⟩
        · have hz := hz ⟨hw, hr⟩
          exact ⟨0, by simpa [hset] using h' (by rw [hz, hz, hz])⟩
    · cases hs
  | wake i =>
    simp only [AdpSt.step] at hs
    split at hs
    · rename_i want hw
      cases hs
      obtain ⟨c, hc, hset⟩ := count_split hw
      refine ⟨q, ?_⟩
      obtain ⟨h1, h2, h3, h4, h5, h6, h7, h8, h9, h10, h11⟩ := h
      simp [hc] at h1 h3 h4 h5 h6 h7 h8 h9 h10
      simp [hset]
      constructor <;> omega
    · cases hs

/-! ### Wake-ups -/

def Alone (s : AdpSt) : Prop :=
  Phase.writer ∈ s.threads → s.threads.count .writer = 1 ∧ Phase.reader ∉ s.threads

def Quiet (s : AdpSt) : Prop :=
  Phase.reader ∉ s.threads ∧ Phase.writer ∉ s.threads ∧ ∀ w, Phase.woken w ∉ s.threads

def Woken (s s' : AdpSt) : Prop :=
  ∀ (i : Nat) (w : Want), s.threads[i]? = some (.asleep w) → s'.threads[i]? = some (.woken w)

theorem Inv.alone (h : s.Inv) : s.Alone := by
  obtain ⟨q, h⟩ := h
  intro hw
  have hpos := count_pos_iff.mpr hw
  have hone := h.one
  have h1 : s.threads.count .writer = 1 := by omega
  exact ⟨h1, count_eq_zero.mp (h.alone h1).1⟩

theorem Inv.quiet (h : s.Inv) (hq : s.Quiet) (w : Want) : Phase.asleep w ∉ s.threads := by
  obtain ⟨q, h⟩ := h
  have hr := count_eq_zero.mpr hq.1
  have hw := count_eq_zero.mpr hq.2.1
  have hk := count_eq_zero.mpr (hq.2.2 .promote)
  have h1 := h.forWriter
  have h2 := h.forReaders
  have h3 := h.forAny
  refine count_eq_zero.mp ?_
  cases w <;> omega

theorem Inv.free_iff (h : s.Inv) :
    s.Free ↔ s.threads.count .reader = 0 ∧ s.threads.count .writer = 0 := by
  obtain ⟨q, h⟩ := h
  have := h.one
  unfold Free
  rw [h.hasBit_wlock, h.readers_eq]
  omega

theorem Inv.woken (h : s.Inv) (hok : s.Clean o) (hs : s.step o = some s') (hf : ¬s.Free)
    (hf' : s'.Free) : Woken s s' := by
  have h' := h.step hok hs
  rw [h.free_iff] at hf
  rw [h'.free_iff] at hf'
  -- no other step takes a reader or a writer away
  have hput : ∀ i x r, s.threads[i]? = some x → x ≠ .reader → x ≠ .writer →
      s.put i r = some s' → Woken s s' := by
    intro i x r hx h1 h2 hp
    obtain ⟨lock', p, -, rfl⟩ := put_some hp
    obtain ⟨c, hc, hset⟩ := count_split hx
    simp only [hc, hset, if_neg h1, if_neg h2] at hf hf'
    omega
  cases o with
  | rlock i => exact hput i _ _ hok.1 nofun nofun hs
  | wlock i => exact hput i _ _ hok.1 nofun nofun hs
  | promote i =>
    -- the thread stays a reader, becomes the writer, or sleeps until the readers are gone
    obtain ⟨lock', p, ha, rfl⟩ := put_some hs
    obtain ⟨c, hc, hset⟩ := count_split hok.1
    obtain ⟨q', h'⟩ := h'
    have hr := h'.forReaders
    have hp : p = .reader ∨ p = .writer ∨ p = .asleep .promote := by
      simp only [AdpLock.promote, attempt] at ha
      split at ha
      · cases ha
        exact .inl rfl
      split at ha
      · cases ha
        exact .inr (.inr rfl)
      · cases ha
        exact .inr (.inl rfl)
    dsimp only at hf'
    rcases hp with rfl | rfl | rfl
    · have := hset .reader .reader
      simp only [if_true] at this
      omega
    · have := hset .writer .writer
      simp only [if_true] at this
      omega
    have := hset (.asleep .promote) (.asleep .promote)
    simp only [if_true] at this
    dsimp only at hr
    omega
  | unlock i =>
    obtain ⟨q, h⟩ := h
    obtain ⟨c, hset, hw, hsum, hother⟩ := unlock_counts h hok.1
    have hspec := h.unlock_spec (by omega)
    simp only [AdpSt.step] at hs
    generalize AdpLock.unlock s.lock = r at hs hspec
    obtain ⟨lock', b⟩ := r
    intro j w hj
    rcases hspec with ⟨hb, -, -⟩ | ⟨hb, hq, -⟩
    · subst hb
      cases hs
      have hne : i ≠ j := by
        rintro rfl
        rcases hok.1 with hi | hi <;> (rw [hj] at hi; cases hi)
      rw [getElem?_map, getElem?_set_ne hne, hj]
      rfl
    -- without a broadcast nobody slept
    subst hb
    cases hs
    have hc := hset .reader
    dsimp only at hf'
    have hpos := count_pos_iff.mpr (mem_of_getElem? hj)
    have has := h.asleep
    cases w <;> omega
  | resume i =>
    simp only [AdpSt.step] at hs
    split at hs
    · rename_i want hx
      exact hput i _ _ hx nofun nofun hs
    · cases hs
  | wake i =>
    simp only [AdpSt.step] at hs
    split at hs
    · rename_i want hx
      cases hs
      obtain ⟨c, hc, hset⟩ := count_split hx
      simp only [hc, hset] at hf hf'
      exact absurd hf' hf
    · cases hs

end AdpSt

/-- As long as promotions end while nobody sleeps, a writer is alone, a lock that becomes free wakes
everybody, and nobody sleeps while the lock is idle. -/
theorem adp_lock_wakes {s : AdpSt} (h : Reach AdpSt.Start AdpSt.Clean AdpSt.step s) :
    s.Alone ∧ (s.Quiet → ∀ w, Phase.asleep w ∉ s.threads) ∧
    ∀ o s', s.Clean o → s.step o = some s' → ¬s.Free → s'.Free → AdpSt.Woken s s' := by
  have hs : s.Inv := h.invariant (fun _ hs => hs.inv) fun _ _ _ hs hok hstep => hs.step hok hstep
  exact ⟨hs.alone, hs.quiet, fun o s' hok hstep hf hf' => hs.woken hok hstep hf hf'⟩

namespace AdpSt

instance (s : AdpSt) (o : AdpOp) : Decidable (s.Served o) :=
  match o with
  | .rlock _ | .wlock _ | .promote _ => inferInstanceAs (Decidable (_ = _))
  | .unlock _ => inferInstanceAs (Decidable (_ ∨ _))
  | .resume _ | .wake _ => inferInstanceAs (Decidable True)

instance (s : AdpSt) (o : AdpOp) : Decidable (s.Promotes o) :=
  match o with
  | .promote _ | .resume _ => inferInstanceAs (Decidable (_ ∧ _))
  | .rlock _ | .wlock _ | .unlock _ | .wake _ => inferInstanceAs (Decidable False)

instance (l : List Phase) : Decidable (∀ w, Phase.asleep w ∉ l) :=
  decidable_of_iff (Phase.asleep .read ∉ l ∧ Phase.asleep .write ∉ l ∧ Phase.asleep .promote ∉ l)
    ⟨fun h w => by cases w; exacts [h.1, h.2.1, h.2.2], fun h => ⟨h _, h _, h _⟩⟩

instance (s : AdpSt) (o : AdpOp) : Decidable (s.Clean o) :=
  inferInstanceAs (Decidable (_ ∧ (_ → _)))

def idle : AdpSt := ⟨0, [.idle, .idle, .idle]⟩

theorem idle_start : idle.Start := ⟨rfl, by decide⟩

end AdpSt

theorem adp_lock_wakes_promoted : ∃ s, Reach AdpSt.Start AdpSt.Clean AdpSt.step s ∧
    s = ⟨2 ^ 28 + 2 ^ 31, [.writer, .idle, .asleep .read]⟩ ∧ s.Alone := by
  refine exists_reach AdpSt.idle_start
    [.rlock 0, .rlock 1, .promote 0, .unlock 1, .resume 0, .rlock 2]
    (by decide +kernel) fun s hr (hq : s = ⟨2 ^ 28 + 2 ^ 31, [.writer, .idle, .asleep .read]⟩) => ?_
  exact ⟨hq, (adp_lock_wakes hr).1⟩

/-- A writer waits for a reader, the reader is promoted and unlocks: the writer sleeps on. -/
theorem adp_lock_sleeps : ∃ s, Reach AdpSt.Start AdpSt.Served AdpSt.step s ∧ s.Quiet ∧
    Phase.asleep .write ∈ s.threads := by
  refine exists_reach AdpSt.idle_start [.rlock 0, .wlock 1, .promote 0, .unlock 0]
    (by decide +kernel) fun s hr (hq : s = ⟨0, [.idle, .asleep .write, .idle]⟩) => ?_
  obtain rfl := hq
  exact ⟨⟨by decide, by decide, fun w => by simp⟩, by decide⟩

end Qnx.Memmgr.AdpLock
