import Mathlib.Order.Lattice
import Qnx.Iofunc.Lock

/-!
# What one lock or unlock does to the list

A lock replaces at most one entry of its client by up to three, and an unlock cuts the entries of
its client. Both are described by the offsets the list covers before and after.
-/

namespace Qnx.Iofunc

open List Option

def Req.Has (r : Req) (x : Nat) : Prop := r.start ≤ x ∧ x ≤ r.last

instance (r : Req) (x : Nat) : Decidable (r.Has x) := inferInstanceAs (Decidable (_ ∧ _))

def Covers (l : List Entry) (d : Nat) (t : LockType) (x : Nat) : Prop :=
  ∃ cl ∈ l, cl.scoid = d ∧ cl.type = t ∧ cl.start ≤ x ∧ x ≤ cl.last

@[simp] theorem covers_nil (d : Nat) (t : LockType) (x : Nat) : ¬Covers [] d t x := by
  simp [Covers]

@[simp] theorem covers_cons (cl : Entry) (l : List Entry) (d : Nat) (t : LockType) (x : Nat) :
    Covers (cl :: l) d t x ↔
      (cl.scoid = d ∧ cl.type = t ∧ cl.start ≤ x ∧ x ≤ cl.last) ∨ Covers l d t x := by
  simp [Covers]

@[simp] theorem covers_append (l m : List Entry) (d : Nat) (t : LockType) (x : Nat) :
    Covers (l ++ m) d t x ↔ Covers l d t x ∨ Covers m d t x := by
  simp only [Covers, mem_append, or_and_right, exists_or]

variable {l : List Entry} {h h' : Heap} {r : Req} {e : Edit}

theorem covers_of_ne {c d : Nat} (h : ∀ cl ∈ l, cl.scoid = c) (hd : d ≠ c)
    (t : LockType) (x : Nat) : ¬Covers l d t x := by
  rintro ⟨cl, hm, hs, -⟩
  exact hd (hs.symm.trans (h cl hm))

def waiters (l : List Entry) : List Req := l.flatMap Entry.blocked

@[simp] theorem waiters_nil : waiters [] = [] := rfl

@[simp] theorem waiters_cons (cl : Entry) (l : List Entry) :
    waiters (cl :: l) = cl.blocked ++ waiters l := by
  simp [waiters]

@[simp] theorem waiters_append (l m : List Entry) : waiters (l ++ m) = waiters l ++ waiters m := by
  simp [waiters]

/-- The entries are ranges, those of different clients meet only as read locks, and a client waits
where it conflicts. -/
structure Sound (l : List Entry) : Prop where
  wf : ∀ cl ∈ l, cl.start ≤ cl.last
  apart : ∀ d d' t t' x, d ≠ d' → Covers l d t x → Covers l d' t' x → t = .rd ∧ t' = .rd
  blocked : ∀ cl ∈ l, ∀ q ∈ cl.blocked, conflicts q cl ∧ q.start ≤ q.last

/-- The part `old` of a list that request `r` replaces by `new`. -/
structure Swap (r : Req) (old new : List Entry) (e : Edit) : Prop where
  own_old : ∀ cl ∈ old, cl.scoid = r.scoid
  own_new : ∀ cl ∈ new, cl.scoid = r.scoid
  wf : (∀ cl ∈ old, cl.start ≤ cl.last) → ∀ cl ∈ new, cl.start ≤ cl.last
  outside : ∀ t x, ¬r.Has x → (Covers new r.scoid t x ↔ Covers old r.scoid t x)
  inside : ∀ t x, r.Has x → Covers new r.scoid t x → t = r.type ∨ Covers old r.scoid t x
  mono : ∀ t x, Covers old r.scoid t x → ∃ t', Covers new r.scoid t' x
  exact : e.status = .eok → ∀ t x, r.Has x → (Covers new r.scoid t x ↔ t = r.type)
  done : e.status = .eok → ∃ cl ∈ new, cl.type = r.type ∧ cl.start ≤ r.start ∧ r.last ≤ cl.last
  kept : r.type = .rd → ∀ cl ∈ old, cl.type = .rd →
    ∃ cl' ∈ new, cl'.type = .rd ∧ cl'.start ≤ cl.start ∧ cl.last ≤ cl'.last
  blocked : ∀ cl' ∈ new, ∀ q ∈ cl'.blocked, cl'.type = r.type ∧ ∃ cl ∈ old, q ∈ cl.blocked ∧
    cl'.type = cl.type ∧ cl'.start ≤ cl.start ∧ cl.last ≤ cl'.last
  waiters : waiters new ++ e.pending = waiters old
  pending : e.pending ≠ [] → ∃ cl, old = [cl] ∧ cl.type ≠ r.type
  head : ∀ cl ∈ old.head?, ∃ cl' ∈ new.head?, cl'.start ≤ cl.start

def Heap.Later (h h' : Heap) : Prop := h'.answers <:+ h.answers

theorem Heap.Later.refl (h : Heap) : h.Later h := suffix_rfl

theorem Heap.Later.trans {h1 h2 : Heap} (a : h.Later h1) (b : h1.Later h2) : h.Later h2 :=
  List.IsSuffix.trans b a

def Heap.Gives (h : Heap) : Prop := ∀ b ∈ h.answers, b = true

theorem Heap.Later.gives (hl : h.Later h') (hg : h.Gives) : h'.Gives := fun b hb => hg b (hl.mem hb)

theorem Heap.malloc_later (h : Heap) : h.Later h.malloc.2 := by
  obtain ⟨m, n⟩ := h
  cases m with
  | nil => exact suffix_rfl
  | cons b m => cases b <;> exact suffix_cons _ m

theorem Heap.malloc_gives (hm : h.malloc = (none, h')) : ¬h.Gives := by
  intro hg
  obtain ⟨m, n⟩ := h
  cases m with
  | nil => cases hm
  | cons b m =>
    have : b = true := hg b mem_cons_self
    subst this
    cases hm

structure Fair (h : Heap) (e : Edit) : Prop where
  later : h.Later e.heap
  eok : h.Gives → e.status = .eok

section Swaps
variable {pre post : List Entry} {r : Req} {h : Heap} {cl : Entry}

/-- Entry `p` is client `c`'s, of type `t` and range `s` to `e`, and nobody waits there. -/
structure Piece (c : Nat) (t : LockType) (s e : Nat) (p : Entry) : Prop where
  scoid : p.scoid = c
  type : p.type = t
  start : p.start = s
  last : p.last = e
  blocked : p.blocked = []

variable {p : Entry} {e : Edit} {L R : List Entry}

theorem Piece.covers {c s e : Nat} {t : LockType} (hp : Piece c t s e p) (t' : LockType)
    (x : Nat) : Covers [p] c t' x ↔ t' = t ∧ s ≤ x ∧ x ≤ e := by
  simp [hp.scoid, hp.type, hp.start, hp.last, eq_comm]

theorem swap_none (hs : e.status ≠ .eok) (hp : e.pending = []) : Swap r [] [] e := by
  constructor <;> simp [hs, hp]

theorem swap_new (hr : r.start ≤ r.last)
    (hp : Piece r.scoid r.type r.start r.last p) (he : e.pending = []) : Swap r [] [p] e where
  own_old := by simp
  own_new := by simp [hp.scoid]
  wf _ := by simp [hp.start, hp.last, hr]
  outside t x hx := by
    simp only [hp.covers, covers_nil, iff_false]
    exact fun hc => hx hc.2
  inside t x _ hc := .inl ((hp.covers t x).mp hc).1
  mono t x hc := absurd hc (covers_nil _ _ _)
  exact _ t x hx := by
    rw [hp.covers]
    exact and_iff_left hx
  done _ := ⟨p, by simp, hp.type, le_of_eq hp.start, ge_of_eq hp.last⟩
  kept := by simp
  blocked := by simp [hp.blocked]
  waiters := by simp [hp.blocked, he]
  pending := by simp [he]
  head := by simp

theorem swap_merge (hc : cl.scoid = r.scoid)
    (ho : overlap r.start r.last cl.start cl.last) (ht : cl.type = r.type) (he : e.pending = []) :
    Swap r [cl] [{ cl with last := max cl.last r.last, start := min cl.start r.start }] e := by
  have hx : ∀ x, (min cl.start r.start ≤ x ∧ x ≤ max cl.last r.last) ↔
      (cl.start ≤ x ∧ x ≤ cl.last) ∨ r.Has x := by
    unfold overlap at ho
    unfold Req.Has
    omega
  have hcov : ∀ t x, Covers [{ cl with last := max cl.last r.last, start := min cl.start r.start }]
      r.scoid t x ↔ t = r.type ∧ ((cl.start ≤ x ∧ x ≤ cl.last) ∨ r.Has x) := by
    intro t x
    simp only [covers_cons, covers_nil, or_false, hc, ht, true_and, hx, eq_comm]
  have hold : ∀ t x, Covers [cl] r.scoid t x ↔ t = r.type ∧ cl.start ≤ x ∧ x ≤ cl.last := by
    intro t x
    simp only [covers_cons, covers_nil, or_false, hc, ht, true_and, eq_comm]
  constructor
  case own_old => simp [hc]
  case own_new => simp [hc]
  case wf => simp; omega
  case outside =>
    intro t x hn
    rw [hcov, hold]
    simp [hn]
  case inside => exact fun t x _ hcv => .inl ((hcov t x).mp hcv).1
  case mono => exact fun t x hcv => ⟨t, (hcov t x).mpr (by have := (hold t x).mp hcv; tauto)⟩
  case exact =>
    intro _ t x hin
    rw [hcov]
    simp [hin]
  case done => exact fun _ => ⟨_, mem_singleton_self _, ht, by simp, by simp⟩
  case kept => simp
  case blocked => simp [ht]
  case waiters => simp [he]
  case pending => simp [he]
  case head => simp

inductive Front (r : Req) (cl : Entry) : List Entry → Prop where
  | none : r.start ≤ cl.start → Front r cl []
  | part {p : Entry} : cl.start < r.start → Piece r.scoid cl.type cl.start (r.start - 1) p →
      Front r cl [p]

inductive Back (r : Req) (cl : Entry) : List Entry → Prop where
  | none : cl.last ≤ r.last → Back r cl []
  | part {p : Entry} : r.last < cl.last → Piece r.scoid cl.type (r.last + 1) cl.last p →
      Back r cl [p]

theorem Front.covers (hL : Front r cl L) (hr : r.start ≤ cl.last) (t : LockType)
    (x : Nat) : Covers L r.scoid t x ↔ t = cl.type ∧ (cl.start ≤ x ∧ x ≤ cl.last) ∧ x < r.start := by
  cases hL with
  | none h =>
    simp only [covers_nil, false_iff]
    omega
  | part h hp =>
    rw [hp.covers]
    refine and_congr_right fun _ => ?_
    omega

theorem Back.covers (hR : Back r cl R) (hr : cl.start ≤ r.last) (t : LockType)
    (x : Nat) : Covers R r.scoid t x ↔ t = cl.type ∧ (cl.start ≤ x ∧ x ≤ cl.last) ∧ r.last < x := by
  cases hR with
  | none h =>
    simp only [covers_nil, false_iff]
    omega
  | part h hp =>
    rw [hp.covers]
    refine and_congr_right fun _ => ?_
    omega

theorem swap_pieces {mid : Entry} (hr : r.start ≤ r.last)
    (hw : cl.start ≤ cl.last) (hc : cl.scoid = r.scoid)
    (ho : overlap cl.start cl.last r.start r.last)
    (ht : r.type ≠ cl.type) (hL : Front r cl L) (hR : Back r cl R)
    (hm : Piece r.scoid r.type r.start r.last mid) (he : e.pending = cl.blocked) :
    Swap r [cl] (L ++ mid :: R) e := by
  have ho' : r.start ≤ cl.last ∧ cl.start ≤ r.last := by
    unfold overlap at ho
    omega
  have hcov : ∀ t x, Covers (L ++ mid :: R) r.scoid t x ↔
      (t = cl.type ∧ (cl.start ≤ x ∧ x ≤ cl.last) ∧ ¬r.Has x) ∨ (t = r.type ∧ r.Has x) := by
    intro t x
    rw [covers_append, ← singleton_append, covers_append, hL.covers ho'.1, hR.covers ho'.2,
      hm.covers]
    unfold Req.Has
    constructor
    · rintro (⟨h1, h2, h3⟩ | ⟨h1, h2⟩ | ⟨h1, h2, h3⟩)
      · exact .inl ⟨h1, h2, by omega⟩
      · exact .inr ⟨h1, h2⟩
      · exact .inl ⟨h1, h2, by omega⟩
    · rintro (⟨h1, h2, h3⟩ | ⟨h1, h2⟩)
      · rcases Nat.lt_or_ge x r.start with h4 | h4
        · exact .inl ⟨h1, h2, h4⟩
        · exact .inr (.inr ⟨h1, h2, by omega⟩)
      · exact .inr (.inl ⟨h1, h2⟩)
  have hold : ∀ t x, Covers [cl] r.scoid t x ↔ t = cl.type ∧ cl.start ≤ x ∧ x ≤ cl.last := by
    intro t x
    simp only [covers_cons, covers_nil, or_false, hc, true_and, eq_comm]
  have hnone : ∀ p ∈ L ++ mid :: R, p.blocked = [] ∧ p.scoid = r.scoid ∧
      (cl.start ≤ cl.last → p.start ≤ p.last) := by
    intro p hp
    simp only [mem_append, mem_cons] at hp
    rcases hp with hp | rfl | hp
    · cases hL with
      | none => simp at hp
      | part h1 h2 =>
        obtain rfl := mem_singleton.mp hp
        exact ⟨h2.blocked, h2.scoid, by rw [h2.start, h2.last]; omega⟩
    · exact ⟨hm.blocked, hm.scoid, by rw [hm.start, hm.last]; omega⟩
    cases hR with
    | none => simp at hp
    | part h1 h2 =>
      obtain rfl := mem_singleton.mp hp
      exact ⟨h2.blocked, h2.scoid, by rw [h2.start, h2.last]; omega⟩
  constructor
  case own_old => simp [hc]
  case own_new => exact fun p hp => (hnone p hp).2.1
  case wf => exact fun h p hp => (hnone p hp).2.2 (h cl (mem_singleton_self cl))
  case outside =>
    intro t x hn
    rw [hcov, hold]
    simp [hn]
  case inside =>
    intro t x hin hcv
    rcases (hcov t x).mp hcv with ⟨-, -, h3⟩ | ⟨h1, -⟩
    · exact absurd hin h3
    · exact .inl h1
  case mono =>
    intro t x hcv
    by_cases hin : r.Has x
    · exact ⟨r.type, (hcov _ x).mpr (.inr ⟨rfl, hin⟩)⟩
    · obtain ⟨h1, h2⟩ := (hold t x).mp hcv
      exact ⟨t, (hcov t x).mpr (.inl ⟨h1, h2, hin⟩)⟩
  case exact =>
    intro _ t x hin
    rw [hcov]
    simp [hin]
  case done =>
    exact fun _ => ⟨mid, by simp, hm.type, le_of_eq hm.start, ge_of_eq hm.last⟩
  case kept =>
    intro hrd p hp hpt
    obtain rfl := mem_singleton.mp hp
    exact absurd (hrd.trans hpt.symm) ht
  case blocked =>
    intro p hp q hq
    rw [(hnone p hp).1] at hq
    cases hq
  case waiters =>
    have hw : waiters (L ++ mid :: R) = [] := flatMap_eq_nil_iff.mpr fun p hp => (hnone p hp).1
    simp [hw, he]
  case pending => exact fun _ => ⟨cl, rfl, fun h => ht h.symm⟩
  case head =>
    intro p hp
    obtain rfl : cl = p := by simpa using hp
    cases hL with
    | none h => exact ⟨mid, by simp, by rw [hm.start]; exact h⟩
    | part h1 h2 => exact ⟨_, by simp, le_of_eq h2.start⟩

theorem swap_failed {M : List Entry} (hr : r.start ≤ r.last)
    (hc : cl.scoid = r.scoid) (ht : r.type ≠ cl.type)
    (hM : M = [] ∨ ∃ mid, M = [mid] ∧ Piece r.scoid r.type r.start r.last mid)
    (hs : e.status ≠ .eok) (he : e.pending = cl.blocked) :
    Swap r [cl] ({ cl with blocked := [] } :: M) e := by
  have hMcov : ∀ t x, Covers M r.scoid t x → t = r.type ∧ r.Has x := by
    intro t x hcv
    rcases hM with rfl | ⟨mid, rfl, hm⟩
    · exact absurd hcv (covers_nil _ _ _)
    · exact (hm.covers t x).mp hcv
  have hnone : ∀ p ∈ M, p.blocked = [] ∧ p.scoid = r.scoid ∧ p.start ≤ p.last := by
    intro p hp
    rcases hM with rfl | ⟨mid, rfl, hm⟩
    · cases hp
    · obtain rfl := mem_singleton.mp hp
      exact ⟨hm.blocked, hm.scoid, by rw [hm.start, hm.last]; exact hr⟩
  have hself : ∀ t x, Covers [{ cl with blocked := [] }] r.scoid t x ↔ Covers [cl] r.scoid t x := by
    simp
  have hcov : ∀ t x, Covers ({ cl with blocked := [] } :: M) r.scoid t x ↔
      Covers [cl] r.scoid t x ∨ Covers M r.scoid t x := by
    intro t x
    rw [← singleton_append, covers_append, hself]
  constructor
  case own_old => simp [hc]
  case own_new =>
    exact forall_mem_cons.mpr ⟨hc, fun p hp => (hnone p hp).2.1⟩
  case wf =>
    intro h p hp
    rcases mem_cons.mp hp with rfl | hp
    · exact h cl (mem_singleton_self cl)
    · exact (hnone p hp).2.2
  case outside =>
    intro t x hn
    rw [hcov, or_iff_left fun hcv => hn (hMcov t x hcv).2]
  case inside =>
    intro t x _ hcv
    rcases (hcov t x).mp hcv with h1 | h1
    · exact .inr h1
    · exact .inl (hMcov t x h1).1
  case mono => exact fun t x hcv => ⟨t, (hcov t x).mpr (.inl hcv)⟩
  case exact => exact fun h => absurd h hs
  case done => exact fun h => absurd h hs
  case kept =>
    intro hrd p hp hpt
    obtain rfl := mem_singleton.mp hp
    exact absurd (hrd.trans hpt.symm) ht
  case blocked =>
    intro p hp q hq
    rcases mem_cons.mp hp with rfl | hp
    · cases hq
    · rw [(hnone p hp).1] at hq
      cases hq
  case waiters =>
    have hw : waiters M = [] := flatMap_eq_nil_iff.mpr fun p hp => (hnone p hp).1
    simp [hw, he]
  case pending => exact fun _ => ⟨cl, rfl, fun h => ht h.symm⟩
  case head => simp

theorem Heap.malloc_cases (h : Heap) : (∃ h', h.malloc = (none, h') ∧ h.Later h' ∧ ¬h.Gives) ∨
    ∃ i h', h.malloc = (some i, h') ∧ h.Later h' := by
  have hl := h.malloc_later
  cases hm : h.malloc with
  | mk o h' =>
    rw [hm] at hl
    cases o with
    | none => exact .inl ⟨h', rfl, hl, Heap.malloc_gives hm⟩
    | some i => exact .inr ⟨i, h', rfl, hl⟩

theorem lockAdd_swap (pre post : List Entry) (h : Heap) (hr : r.start ≤ r.last) :
    ∃ new, (lockAdd pre post r h).list = pre ++ new ++ post ∧
      Swap r [] new (lockAdd pre post r h) ∧ Fair h (lockAdd pre post r h) := by
  unfold lockAdd
  rcases h.malloc_cases with ⟨h', hm, hl, hg⟩ | ⟨i, h', hm, hl⟩
  · rw [hm]
    exact ⟨[], by simp, swap_none (by simp) rfl, hl, fun hg' => absurd hg' hg⟩
  rw [hm]
  exact ⟨[⟨i, r.scoid, r.type, r.start, r.last, []⟩], by simp,
    swap_new hr ⟨rfl, rfl, rfl, rfl, rfl⟩ rfl, hl, fun _ => rfl⟩

theorem locksplit_swap (hr : r.start ≤ r.last) (hw : cl.start ≤ cl.last)
    (hc : cl.scoid = r.scoid) (ho : overlap cl.start cl.last r.start r.last)
    (ht : r.type ≠ cl.type) :
    ∃ new, (locksplit pre cl post r h).list = pre ++ new ++ post ∧
      Swap r [cl] new (locksplit pre cl post r h) ∧ Fair h (locksplit pre cl post r h) := by
  have hmid : ∀ i, Piece r.scoid r.type r.start r.last ⟨i, cl.scoid, r.type, r.start, r.last, []⟩ :=
    fun i => ⟨hc, rfl, rfl, rfl, rfl⟩
  unfold locksplit
  rw [if_neg (by simp [ho, ht])]
  by_cases h1 : r.start ≤ cl.start ∧ cl.last ≤ r.last
  · rw [if_pos h1]
    exact ⟨[{ cl with blocked := [], start := r.start, last := r.last, type := r.type }], by simp,
      swap_pieces (L := []) (R := []) hr hw hc ho ht (.none h1.1) (.none h1.2)
        ⟨hc, rfl, rfl, rfl, rfl⟩ rfl, .refl h, fun _ => rfl⟩
  rw [if_neg h1]
  rcases h.malloc_cases with ⟨h', hm, hl, hg⟩ | ⟨i, h', hm, hl⟩
  · rw [hm, ite_self, ite_self]
    exact ⟨[{ cl with blocked := [] }], by simp,
      swap_failed hr hc ht (.inl rfl) (by simp) rfl, hl, fun hg' => absurd hg' hg⟩
  rw [hm]
  by_cases h2 : cl.start < r.start ∧ r.last < cl.last
  · rw [if_pos h2]
    rcases h'.malloc_cases with ⟨h'', hm', hl', hg'⟩ | ⟨j, h'', hm', hl'⟩
    · simp only [hm']
      exact ⟨[{ cl with blocked := [] }, ⟨i, cl.scoid, r.type, r.start, r.last, []⟩], by simp,
        swap_failed hr hc ht (.inr ⟨_, rfl, hmid i⟩) (by simp) rfl, hl.trans hl',
        fun hg => absurd (hl.gives hg) hg'⟩
    simp only [hm']
    exact ⟨[{ cl with blocked := [], last := r.start - 1 },
        ⟨i, cl.scoid, r.type, r.start, r.last, []⟩,
        ⟨j, cl.scoid, cl.type, r.last + 1, cl.last, []⟩], by simp,
      swap_pieces (L := [_]) (R := [_]) hr hw hc ho ht (.part h2.1 ⟨hc, rfl, rfl, rfl, rfl⟩)
        (.part h2.2 ⟨hc, rfl, rfl, rfl, rfl⟩) (hmid i) rfl, hl.trans hl', fun _ => rfl⟩
  rw [if_neg h2]
  by_cases h3 : r.start ≤ cl.start
  · rw [if_pos h3]
    exact ⟨[{ cl with blocked := [], type := r.type, start := r.start, last := r.last },
        ⟨i, cl.scoid, cl.type, r.last + 1, cl.last, []⟩], by simp,
      swap_pieces (L := []) (R := [_]) hr hw hc ho ht (.none h3)
        (.part (by omega) ⟨hc, rfl, rfl, rfl, rfl⟩) ⟨hc, rfl, rfl, rfl, rfl⟩ rfl, hl, fun _ => rfl⟩
  rw [if_neg h3]
  exact ⟨[{ cl with blocked := [], last := r.start - 1 },
      ⟨i, cl.scoid, r.type, r.start, r.last, []⟩], by simp,
    swap_pieces (L := [_]) (R := []) hr hw hc ho ht
      (.part (by omega) ⟨hc, rfl, rfl, rfl, rfl⟩) (.none (by omega)) (hmid i) rfl, hl,
    fun _ => rfl⟩

end Swaps

theorem overlap_comm (a b c d : Nat) : overlap a b c d ↔ overlap c d a b := by
  unfold overlap
  omega

/-- The entries request `r` leaves alone: all but the client's first that overlaps, looked for up to
an entry that starts behind the request. -/
def others (r : Req) : List Entry → List Entry
  | [] => []
  | cl :: post =>
    if cl.scoid = r.scoid ∧ overlap r.start r.last cl.start cl.last then post
    else if cl.start > r.start then cl :: post
    else cl :: others r post

theorem others_sublist (r : Req) (l : List Entry) : (others r l).Sublist l := by
  induction l with
  | nil => exact .refl _
  | cons cl l ih =>
    unfold others
    split
    · exact sublist_cons_self _ _
    split
    · exact .refl _
    · exact ih.cons_cons cl

theorem scan_spec (r : Req) (pre l : List Entry) :
    match scan r pre l with
    | .own pre' cl post => pre ++ l = pre' ++ cl :: post ∧ cl.scoid = r.scoid ∧
        overlap r.start r.last cl.start cl.last ∧ pre ++ others r l = pre' ++ post
    | .after pre' post => pre ++ l = pre' ++ post ∧ (pre ≠ [] ∨ l ≠ [] → pre' ≠ []) ∧
        pre ++ others r l = pre' ++ post
    | .null => pre = [] ∧ ∃ cl post, l = cl :: post ∧ r.start < cl.start ∧
        ¬(cl.scoid = r.scoid ∧ overlap r.start r.last cl.start cl.last) := by
  induction l generalizing pre with
  | nil => simp [scan, others]
  | cons cl l ih =>
    unfold scan others
    by_cases h1 : cl.scoid = r.scoid ∧ overlap r.start r.last cl.start cl.last
    · rw [if_pos h1, if_pos h1]
      exact ⟨rfl, h1.1, h1.2, rfl⟩
    rw [if_neg h1, if_neg h1]
    by_cases h2 : cl.start > r.start
    · rw [if_pos h2, if_pos h2]
      by_cases h3 : pre = []
      · rw [if_pos h3]
        exact ⟨h3, cl, l, rfl, h2, h1⟩
      · rw [if_neg h3]
        exact ⟨rfl, fun _ => h3, rfl⟩
    rw [if_neg h2, if_neg h2]
    have := ih (pre ++ [cl])
    split at this
    · simpa using this
    · simpa using this
    · simp at this

def HeadLe (l l' : List Entry) : Prop :=
  ∀ cl ∈ l.head?, ∃ cl' ∈ l'.head?, cl'.start ≤ cl.start

theorem Swap.headLe {old new : List Entry} (h : Swap r old new e)
    (pre post : List Entry) (hne : pre ++ old ≠ []) :
    HeadLe (pre ++ old ++ post) (pre ++ new ++ post) := by
  cases pre with
  | cons p pre => exact fun cl hcl => ⟨cl, by simpa using hcl, le_rfl⟩
  | nil =>
    intro cl hcl
    cases old with
    | nil => simp at hne
    | cons o old =>
      obtain rfl : o = cl := by simpa using hcl
      obtain ⟨c', hc', hle⟩ := h.head o (by simp)
      refine ⟨c', ?_, hle⟩
      cases new with
      | nil => simp at hc'
      | cons n new => simpa using hc'

theorem lockEdit_swap (hr : r.start ≤ r.last)
    (hw : ∀ cl ∈ l, cl.start ≤ cl.last) (he : lockEdit l r h = some e) :
    ∃ pre old new post, l = pre ++ old ++ post ∧ e.list = pre ++ new ++ post ∧
      others r l = pre ++ post ∧ (∀ cl ∈ old, scan r [] l = .own pre cl post) ∧
      Swap r old new e ∧ Fair h e ∧ HeadLe l e.list := by
  cases l with
  | nil =>
    simp only [lockEdit, some.injEq] at he
    subst he
    obtain ⟨new, h1, h2, h3⟩ := lockAdd_swap [] [] h hr
    exact ⟨[], [], new, [], rfl, h1, rfl, nofun, h2, h3, by simp [HeadLe]⟩
  | cons cl l =>
    unfold lockEdit at he
    by_cases hfront : r.last < cl.start
    · simp only [hfront, if_true, some.injEq] at he
      subst he
      obtain ⟨new, h1, h2, h3⟩ := lockAdd_swap [] (cl :: l) h hr
      have hoth : others r (cl :: l) = cl :: l := by
        have hno : ¬(cl.scoid = r.scoid ∧ overlap r.start r.last cl.start cl.last) := by
          unfold overlap
          omega
        unfold others
        rw [if_neg hno, if_pos (by omega)]
      refine ⟨[], [], new, cl :: l, rfl, h1, hoth, nofun, h2, h3, ?_⟩
      intro c hc
      obtain rfl : cl = c := by simpa using hc
      rw [h1]
      cases new with
      | nil => exact ⟨cl, by simp, le_rfl⟩
      | cons n new =>
        -- the new entry lies before the old head
        have hn : n.scoid = r.scoid ∧ n.start ≤ n.last := ⟨h2.own_new n (by simp),
          h2.wf (by simp) n (by simp)⟩
        have hlast : n.last ≤ r.last := by
          by_contra hgt
          have hc := (h2.outside n.type n.last (by unfold Req.Has; omega)).mp
            ⟨n, by simp, hn.1, rfl, hn.2, le_rfl⟩
          exact absurd hc (covers_nil _ _ _)
        exact ⟨n, by simp, by omega⟩
    · simp only [hfront, if_false] at he
      have hs := scan_spec r [] (cl :: l)
      cases hscan : scan r [] (cl :: l) with
      | null => simp [hscan] at he
      | after pre post =>
        simp only [hscan, some.injEq, nil_append] at he hs
        subst he
        obtain ⟨new, h1, h2, h3⟩ := lockAdd_swap pre post h hr
        refine ⟨pre, [], new, post, by simpa using hs.1, h1, hs.2.2, nofun, h2, h3, ?_⟩
        rw [hs.1, h1]
        simpa using h2.headLe pre post (by simpa using hs.2.1 (by simp))
      | own pre c post =>
        simp only [hscan, some.injEq, nil_append] at he hs
        obtain ⟨hl, hc, ho, hoth⟩ := hs
        have hcw : c.start ≤ c.last := hw c (by rw [hl]; simp)
        have hsplit : ∃ new, e.list = pre ++ new ++ post ∧ Swap r [c] new e ∧ Fair h e := by
          subst he
          unfold overlay
          by_cases ht : c.type = r.type
          · rw [if_pos ht]
            exact ⟨_, by simp, swap_merge hc ho ht rfl, .refl h, fun _ => rfl⟩
          · rw [if_neg ht]
            exact locksplit_swap hr hcw hc ((overlap_comm _ _ _ _).mp ho) (Ne.symm ht)
        obtain ⟨new, h1, h2, h3⟩ := hsplit
        refine ⟨pre, [c], new, post, by simpa using hl, h1, hoth, ?_, h2, h3, ?_⟩
        · exact fun cl hcl => by rw [mem_singleton.mp hcl]
        rw [h1, hl]
        simpa using h2.headLe pre post (by simp)

/-- Before the head of another client's entry and reaching into it. -/
def Gap (l : List Entry) (r : Req) : Prop :=
  ∃ cl ∈ l.head?, cl.scoid ≠ r.scoid ∧ r.start < cl.start ∧ cl.start ≤ r.last

instance (l : List Entry) (r : Req) : Decidable (Gap l r) := by
  unfold Gap
  infer_instance

theorem lockEdit_none (hw : ∀ cl ∈ l, cl.start ≤ cl.last) : lockEdit l r h = none ↔ Gap l r := by
  cases l with
  | nil => simp [lockEdit, Gap]
  | cons cl l =>
    unfold lockEdit
    by_cases hfront : r.last < cl.start
    · simp only [hfront, if_true, reduceCtorEq, false_iff]
      rintro ⟨c, hc, -, -, hle⟩
      obtain rfl : cl = c := by simpa using hc
      omega
    simp only [hfront, if_false]
    have hs := scan_spec r [] (cl :: l)
    constructor
    · intro hn
      cases hscan : scan r [] (cl :: l) with
      | null =>
        rw [hscan] at hs
        obtain ⟨-, c, post, hl, hlt, hno⟩ := hs
        obtain ⟨rfl, rfl⟩ := List.cons.inj hl
        refine ⟨cl, by simp, fun hc => hno ⟨hc, ?_⟩, hlt, by omega⟩
        unfold overlap
        omega
      | after pre post => simp [hscan] at hn
      | own pre c post => simp [hscan] at hn
    · rintro ⟨c, hc, hne, hlt, hle⟩
      obtain rfl : cl = c := by simpa using hc
      have : scan r [] (cl :: l) = .null := by
        unfold scan
        rw [if_neg fun hx => hne hx.1, if_pos hlt, if_pos rfl]
      rw [this]

/-- A lock of `r` replaces entry `cl`. -/
def Converts (l : List Entry) (r : Req) (cl : Entry) : Prop :=
  ∃ pre post, scan r [] l = .own pre cl post

theorem Converts.overlap {cl : Entry} (h : Converts l r cl) :
    overlap r.start r.last cl.start cl.last := by
  obtain ⟨pre, post, he⟩ := h
  have hs := scan_spec r [] l
  rw [he] at hs
  exact hs.2.2.1

structure Edited (l : List Entry) (r : Req) (e : Edit) : Prop where
  sound : lockFind l r = none → Sound e.list
  other : ∀ d t x, d ≠ r.scoid → (Covers e.list d t x ↔ Covers l d t x)
  outside : ∀ t x, ¬r.Has x → (Covers e.list r.scoid t x ↔ Covers l r.scoid t x)
  exact : e.status = .eok → ∀ t x, r.Has x →
    (Covers e.list r.scoid t x ↔ t = r.type ∨ Covers (others r l) r.scoid t x)
  mono : ∀ d t x, Covers l d t x → ∃ t', Covers e.list d t' x
  done : e.status = .eok → ∃ cl ∈ e.list, cl.scoid = r.scoid ∧ cl.type = r.type ∧
    cl.start ≤ r.start ∧ r.last ≤ cl.last
  kept : r.type = .rd → ∀ cl ∈ l, cl.type = .rd → ∃ cl' ∈ e.list, cl'.scoid = cl.scoid ∧
    cl'.type = .rd ∧ cl'.start ≤ cl.start ∧ cl.last ≤ cl'.last
  waiters : (waiters e.list ++ e.pending).Perm (waiters l)
  pending : ∀ q ∈ e.pending, ∃ cl ∈ l, q ∈ cl.blocked ∧ cl.scoid = r.scoid ∧ cl.type ≠ r.type ∧
    Converts l r cl
  unchanged : ∀ cl ∈ e.list, cl.type ≠ r.type → cl.blocked ≠ [] → cl ∈ l

section Lift
variable {r : Req} {pre old new post : List Entry} {e : Edit}

variable {d : Nat}

theorem Swap.other (h : Swap r old new e) (t : LockType) (x : Nat) (hd : d ≠ r.scoid) :
    Covers (pre ++ new ++ post) d t x ↔ Covers (pre ++ old ++ post) d t x := by
  simp only [covers_append, covers_of_ne h.own_old hd, covers_of_ne h.own_new hd]

theorem Swap.apart (h : Swap r old new e) (hl : Sound (pre ++ old ++ post))
    (hfind : lockFind (pre ++ old ++ post) r = none) {t t' : LockType} {x : Nat}
    (hd : r.scoid ≠ d) (h1 : Covers (pre ++ new ++ post) r.scoid t x)
    (h2 : Covers (pre ++ new ++ post) d t' x) : t = .rd ∧ t' = .rd := by
  rw [h.other t' x (Ne.symm hd)] at h2
  -- the offset was covered before, or it is one the request asks for
  have hcases : Covers (pre ++ old ++ post) r.scoid t x ∨ (t = r.type ∧ r.Has x) := by
    simp only [covers_append] at h1 ⊢
    rcases h1 with (h1 | h1) | h1
    · exact .inl (.inl (.inl h1))
    · by_cases hin : r.Has x
      · rcases h.inside t x hin h1 with h3 | h3
        · exact .inr ⟨h3, hin⟩
        · exact .inl (.inl (.inr h3))
      · exact .inl (.inl (.inr ((h.outside t x hin).mp h1)))
    · exact .inl (.inr h1)
  rcases hcases with h1 | ⟨rfl, hin⟩
  · exact hl.apart r.scoid d t t' x hd h1 h2
  obtain ⟨cl, hm, hcs, rfl, hx⟩ := h2
  have hno := find?_eq_none.mp hfind cl hm
  simp only [decide_eq_true_eq, conflicts, hcs, overlap] at hno
  unfold Req.Has at hin
  have : ¬(cl.type ≠ r.type ∨ r.type ≠ .rd) := fun hc => hno ⟨hd, by omega, hc⟩
  simp only [not_or, not_not] at this
  exact ⟨this.2, this.1.trans this.2⟩

theorem Swap.sound (h : Swap r old new e) (hl : Sound (pre ++ old ++ post))
    (hfind : lockFind (pre ++ old ++ post) r = none) : Sound (pre ++ new ++ post) where
  wf cl hm := by
    simp only [mem_append] at hm
    rcases hm with (hm | hm) | hm
    · exact hl.wf cl (by simp [hm])
    · exact h.wf (fun c hc => hl.wf c (by simp [hc])) cl hm
    · exact hl.wf cl (by simp [hm])
  apart d d' t t' x hne h1 h2 := by
    by_cases hd : d = r.scoid
    · subst hd
      exact h.apart hl hfind hne h1 h2
    by_cases hd' : d' = r.scoid
    · subst hd'
      exact (h.apart hl hfind (Ne.symm hne) h2 h1).symm
    rw [h.other t x hd] at h1
    rw [h.other t' x hd'] at h2
    exact hl.apart d d' t t' x hne h1 h2
  blocked cl hm q hq := by
    simp only [mem_append] at hm
    rcases hm with (hm | hm) | hm
    · exact hl.blocked cl (by simp [hm]) q hq
    · obtain ⟨-, c, hc, hqc, ht, h1, h2⟩ := h.blocked cl hm q hq
      obtain ⟨⟨hn, ho, htype⟩, hwf⟩ := hl.blocked c (by simp [hc]) q hqc
      have hcw := hl.wf c (by simp [hc])
      refine ⟨⟨?_, ?_, ht ▸ htype⟩, hwf⟩
      · rw [h.own_new cl hm, ← h.own_old c hc]
        exact hn
      · unfold overlap at ho ⊢
        omega
    · exact hl.blocked cl (by simp [hm]) q hq

end Lift

theorem lockEdit_edited (hl : Sound l) (hr : r.start ≤ r.last) (he : lockEdit l r h = some e) :
    Edited l r e ∧ Fair h e ∧ HeadLe l e.list := by
  obtain ⟨pre, old, new, post, rfl, hlist, hoth, hscan, hs, hf, hh⟩ := lockEdit_swap hr hl.wf he
  refine ⟨?_, hf, hh⟩
  constructor
  case sound =>
    intro hfind
    rw [hlist]
    exact hs.sound hl hfind
  case other =>
    intro d t x hd
    rw [hlist]
    exact hs.other t x hd
  case outside =>
    intro t x hx
    rw [hlist]
    simp only [covers_append, hs.outside t x hx]
  case exact =>
    intro hok t x hx
    rw [hlist, hoth]
    simp only [covers_append, hs.exact hok t x hx]
    tauto
  case mono =>
    intro d t x hc
    by_cases hd : d = r.scoid
    · subst hd
      simp only [hlist, covers_append] at hc ⊢
      rcases hc with (hc | hc) | hc
      · exact ⟨t, .inl (.inl hc)⟩
      · obtain ⟨t', ht'⟩ := hs.mono t x hc
        exact ⟨t', .inl (.inr ht')⟩
      · exact ⟨t, .inr hc⟩
    · exact ⟨t, by rwa [hlist, hs.other t x hd]⟩
  case done =>
    intro hok
    obtain ⟨cl, hm, ht, h1, h2⟩ := hs.done hok
    exact ⟨cl, by simp [hlist, hm], hs.own_new cl hm, ht, h1, h2⟩
  case kept =>
    intro hrd cl hm ht
    simp only [mem_append] at hm
    rcases hm with (hm | hm) | hm
    · exact ⟨cl, by simp [hlist, hm], rfl, ht, le_rfl, le_rfl⟩
    · obtain ⟨c', hm', ht', h1, h2⟩ := hs.kept hrd cl hm ht
      exact ⟨c', by simp [hlist, hm'], (hs.own_new c' hm').trans (hs.own_old cl hm).symm, ht', h1,
        h2⟩
    · exact ⟨cl, by simp [hlist, hm], rfl, ht, le_rfl, le_rfl⟩
  case waiters =>
    rw [hlist]
    simp only [waiters_append, ← hs.waiters, append_assoc]
    exact (perm_append_comm.append_left _).append_left _
  case pending =>
    intro q hq
    obtain ⟨cl, rfl, ht⟩ := hs.pending (ne_nil_of_mem hq)
    have hw : q ∈ waiters [cl] := by
      rw [← hs.waiters]
      exact mem_append_right _ hq
    exact ⟨cl, by simp, by simpa using hw, hs.own_old cl (by simp), ht, pre, post,
      hscan cl (by simp)⟩
  case unchanged =>
    intro cl hm ht hb
    rw [hlist] at hm
    simp only [mem_append] at hm ⊢
    rcases hm with (hm | hm) | hm
    · exact .inl (.inl hm)
    · obtain ⟨q, hq⟩ := exists_mem_of_ne_nil _ hb
      exact absurd (hs.blocked cl hm q hq).1 ht
    · exact .inr hm

end Qnx.Iofunc
