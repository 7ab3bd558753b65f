import Qnx.Iofunc.LockRun

/-!
# The lock list as a map from offsets

A client has an offset for writing if one of its write entries covers it, else for reading if a
read entry does. A request should set the map on its range and nowhere else, but
`_iofunc_lock_scoid` looks only at the first of the client's entries that overlaps.
-/

namespace Qnx.Iofunc

open scoped List

instance (l : List Entry) (d : Nat) (t : LockType) (x : Nat) : Decidable (Covers l d t x) :=
  inferInstanceAs (Decidable (∃ cl ∈ l, _))

def mode (l : List Entry) (d x : Nat) : Option LockType :=
  if Covers l d .wr x then some .wr else if Covers l d .rd x then some .rd else none

theorem mode_congr {l l' : List Entry} {d x : Nat}
    (h : ∀ t, Covers l' d t x ↔ Covers l d t x) : mode l' d x = mode l d x := by
  unfold mode
  simp only [h]

/-- `_iofunc_lock`; `none` stands for `F_UNLCK`. -/
def LockSt.lock (s : LockSt) (type : Option LockType) (scoid start last : Nat) :
    Except Fault (LockSt × Status) :=
  match type with
  | none => s.unlockScoid scoid start last
  | some t => s.lockScoid ⟨0, scoid, t, start, last⟩

/-- `_iofunc_lock_find`, for which an unlock conflicts with nothing. -/
def LockSt.find (s : LockSt) (type : Option LockType) (scoid start last : Nat) : Option Entry :=
  match type with
  | none => none
  | some t => lockFind s.list ⟨0, scoid, t, start, last⟩

/-- A request of client `d` for offset `x` that waited in `s` is granted by the call to `s'`. -/
def Granted (s s' : LockSt) (d x : Nat) : Prop :=
  ∃ q ∈ waiters s.list, (q, Status.eok) ∈ s'.answered.drop s.answered.length ∧ q.scoid = d ∧ q.Has x

/-- What a request of client `c` should do to the map, up to the requests that waited and are
granted by it. -/
structure ByteRange (s s' : LockSt) (type : Option LockType) (c start last : Nat) : Prop where
  inside : ∀ x, start ≤ x ∧ x ≤ last → ¬Granted s s' c x → mode s'.list c x = type
  outside : ∀ x, ¬(start ≤ x ∧ x ≤ last) → ¬Granted s s' c x → mode s'.list c x = mode s.list c x
  others : ∀ d x, d ≠ c → ¬Granted s s' d x → mode s'.list d x = mode s.list d x

/-- The call for client `c` is no read lock, or no write entry of `c` overlaps that it leaves
alone. -/
def Replaced (l : List Entry) (type : Option LockType) (c start last : Nat) : Prop :=
  type = some .rd → ∀ cl ∈ others ⟨0, c, .rd, start, last⟩ l, cl.scoid = c → cl.type = .wr →
    ¬overlap start last cl.start cl.last

instance (l : List Entry) (type : Option LockType) (c start last : Nat) :
    Decidable (Replaced l type c start last) :=
  inferInstanceAs (Decidable (_ → ∀ cl ∈ others _ l, _))

section Through
variable {s s' : LockSt} {e : Edit} {new : List (Req × Status)} {c start last : Nat}

theorem covers_through (h : Grants (s.put e) s' new) (hf : Fair s.heap e) (hg : s.heap.Gives)
    (ht : s.heap.Gives → waiters s'.list ++ new.map Prod.fst ~ waiters s.list) {d x : Nat}
    (hn : ¬Granted s s' d x) (t : LockType) : Covers s'.list d t x ↔ Covers e.list d t x := by
  refine h.through d t x fun a ha hd hx => hn ⟨a.1, ?_, ?_, hd, hx⟩
  · exact (ht hg).subset (List.mem_append_right _ (List.mem_map_of_mem ha))
  · have hlog : s'.answered = s.answered ++ new := h.log
    rw [hlog, List.drop_left, ← h.eok (hf.later.gives hg) a ha]
    exact ha

theorem Unlocked.byteRange {st : Status} (h : Unlocked s c start last s' st e new)
    (hg : s.heap.Gives) : ByteRange s s' none c start last := by
  have hthrough {d x} (hn : ¬Granted s s' d x) := covers_through h.grants h.fair hg h.tally hn
  have hcut := h.cut.exact (h.fair.eok hg)
  refine ⟨fun x hx hn => ?_, fun x hx hn => ?_, fun d x hd hn => ?_⟩
  · have hno : ∀ t, ¬Covers s'.list c t x := fun t => by
      rw [hthrough hn t, hcut t x]
      exact fun hc => hc.2 hx
    unfold mode
    rw [if_neg (hno _), if_neg (hno _)]
  · refine mode_congr fun t => (hthrough hn t).trans ((hcut t x).trans ?_)
    exact ⟨fun hc => hc.1, fun hc => ⟨hc, hx⟩⟩
  · exact mode_congr fun t => (hthrough hn t).trans (h.cut.other d t x hd)

theorem Locked.covers {r : Req} {st : Status} (h : Locked s r s' st e new)
    (hg : s.heap.Gives) {x : Nat} (hx : r.Has x) (hn : ¬Granted s s' r.scoid x) (t : LockType) :
    Covers s'.list r.scoid t x ↔ t = r.type ∨ Covers (Iofunc.others r s.list) r.scoid t x :=
  (covers_through h.grants h.fair hg h.tally hn t).trans (h.edited.exact (h.fair.eok hg) t x hx)

theorem Locked.byteRange {t : LockType} {st : Status}
    (h : Locked s ⟨0, c, t, start, last⟩ s' st e new) (hg : s.heap.Gives)
    (hrep : Replaced s.list (some t) c start last) : ByteRange s s' (some t) c start last := by
  have hthrough {d x} (hn : ¬Granted s s' d x) := covers_through h.grants h.fair hg h.tally hn
  refine ⟨fun x hx hn => ?_, fun x hx hn => ?_, fun d x hd hn => ?_⟩
  · have hc := h.covers hg hx hn
    unfold mode
    cases t with
    | wr => exact if_pos ((hc .wr).mpr (.inl rfl))
    | rd =>
      have hwr : ¬Covers s'.list c .wr x := by
        rw [hc .wr]
        rintro (hcon | ⟨cl, hm, hs, ht, h1, h2⟩)
        · cases hcon
        · refine hrep rfl cl hm hs ht ?_
          unfold overlap
          omega
      rw [if_neg hwr]
      exact if_pos ((hc .rd).mpr (.inl rfl))
  · exact mode_congr fun t' => (hthrough hn t').trans (h.edited.outside t' x hx)
  · exact mode_congr fun t' => (hthrough hn t').trans (h.edited.other d t' x hd)

theorem Locked.replaced {st : Status}
    (h : Locked s ⟨0, c, .rd, start, last⟩ s' st e new) (hs : Sound s.list) (hg : s.heap.Gives)
    (hse : start ≤ last) (hown : ∀ q ∈ waiters s.list, q.scoid ≠ c)
    (hb : ByteRange s s' (some .rd) c start last) : Replaced s.list (some .rd) c start last := by
  intro _ cl hm hc ht ho
  have hw := hs.wf cl (others_sublist _ _ |>.mem hm)
  obtain ⟨x, hx, hcl⟩ : ∃ x, (start ≤ x ∧ x ≤ last) ∧ cl.start ≤ x ∧ x ≤ cl.last := by
    unfold overlap at ho
    exact ⟨max start cl.start, by omega⟩
  have hn : ¬Granted s s' c x := fun ⟨q, hq, _, hqc, _⟩ => hown q hq hqc
  have hwr := (h.covers hg hx hn .wr).mpr (.inr ⟨cl, hm, hc, ht, hcl⟩)
  have hin := hb.inside x hx hn
  unfold mode at hin
  rw [if_pos hwr] at hin
  cases hin

end Through

/-- A request that is granted sets the client's map on its range and changes nothing else, if and,
where the client itself does not wait, only if every write entry in the way of a read lock is
replaced. -/
theorem byte_range_iff {s s' : LockSt} {type : Option LockType} {c start last : Nat}
    (hs : Sound s.list) (hg : s.heap.Gives) (hse : start ≤ last)
    (hf : s.find type c start last = none) (h : s.lock type c start last = .ok (s', .eok)) :
    (Replaced s.list type c start last → ByteRange s s' type c start last) ∧
    ((∀ q ∈ waiters s.list, q.scoid ≠ c) →
      (ByteRange s s' type c start last ↔ Replaced s.list type c start last)) := by
  cases type with
  | none =>
    obtain ⟨e, new, hu⟩ := unlockScoid_unlocked hs hse h
    have hb := hu.byteRange hg
    exact ⟨fun _ => hb, fun _ => ⟨fun _ => (fun hcon => nomatch hcon), fun _ => hb⟩⟩
  | some t =>
    obtain ⟨e, new, hl⟩ := lockScoid_locked hs hse hf h
    refine ⟨hl.byteRange hg, fun hown => ⟨fun hb => ?_, hl.byteRange hg⟩⟩
    cases t with
    | wr => exact fun hcon => nomatch hcon
    | rd => exact hl.replaced hs hg hse hown hb

def twoWrites : LockSt := ⟨[⟨0, 1, .wr, 0, 4, []⟩, ⟨1, 1, .wr, 6, 9, []⟩], ⟨[], 2⟩, [], []⟩

theorem twoWrites_sound : Sound twoWrites.list where
  wf := by decide
  apart d d' t t' x hd h1 h2 := by
    have hown : ∀ d t, Covers twoWrites.list d t x → d = 1 := by
      rintro d t ⟨cl, hm, hs, -⟩
      have : ∀ cl ∈ twoWrites.list, cl.scoid = 1 := by decide
      exact hs.symm.trans (this cl hm)
    exact absurd ((hown d t h1).trans (hown d' t' h2).symm) hd
  blocked := by decide

theorem byte_range_iff_first : ∃ s', twoWrites.lock (some .rd) 1 0 4 = .ok (s', .eok) ∧
    ByteRange twoWrites s' (some .rd) 1 0 4 := by
  have hg : twoWrites.heap.Gives := by simp [Heap.Gives, twoWrites]
  obtain ⟨s', h⟩ : ∃ s', twoWrites.lock (some .rd) 1 0 4 = .ok (s', .eok) := ⟨_, rfl⟩
  exact ⟨s', h, (byte_range_iff twoWrites_sound hg (by decide) (by decide) h).1 (by decide)⟩

/-- It asks to read `0` to `9`, is granted that, and still writes `6` to `9`. -/
theorem byte_range_stale : ∃ s', twoWrites.find (some .rd) 1 0 9 = none ∧
    twoWrites.lock (some .rd) 1 0 9 = .ok (s', .eok) ∧ mode s'.list 1 7 = some .wr :=
  ⟨_, by decide, rfl, by decide⟩

end Qnx.Iofunc
