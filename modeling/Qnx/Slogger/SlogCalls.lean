import Qnx.Slogger.SlogReaders

/-!
# Single calls of the logger

A read gives the events that leave an int of the buffer free, so events that fill it to the last int
are not given. A reader that was woken with the event waits at `put` again if another request of the
same open has taken it, and `io_write` then goes round for ever.
-/

namespace Qnx.Slogger

open Qnx.Ring Run List
open SlogSt (wake ioRead step)

variable {N : Nat} {s : SlogSt} {w : List (List Word)} {r : Reader} {req v : Request}
  {a n m p : Nat}

/-! ### As much as fits -/

/-- `m` events from `a` on are the most that `n` ints hold. -/
structure Most (w : List (List Word)) (a n m : Nat) : Prop where
  stop : a + m ≤ w.length
  fits : start w (a + m) - start w a ≤ n
  most : ∀ k, a + k ≤ w.length → start w (a + k) - start w a ≤ n → k ≤ m

def Reply.size : Reply → Nat
  | .data ints => ints.length
  | _ => 0

theorem size_answer : (answer w a m).size = start w (a + m) - start w a := by
  rw [start_add, Nat.add_sub_cancel_left]
  unfold answer
  split
  · simp [*, Reply.size]
  · rfl

section
variable (h : Chained N s) (hroom : s.cnt < N) (hsize : hdrInts ≤ req.nbytes / 4)
  (hwhole : req.nbytes % 4 = 0) (hr : s.readers.find? (·.id = req.ocb) = some r)
  (hpos : r.pos.getD s.get = s.addr N a) (hlo : s.lost ≤ a) (hhi : a < s.written.length)
include h hroom hsize hwhole hr hpos hlo hhi

theorem io_read_most_iff : (∃ m, Most s.written a (req.nbytes / 4) m ∧
      (s.ioRead N req).replies = s.replies ++ [(req.rcvid, answer s.written a m)]) ↔
    ∀ k, a + k ≤ s.written.length →
      start s.written (a + k) - start s.written a ≠ req.nbytes / 4 := by
  obtain ⟨m, he, hstop, hfits, hmost⟩ := readAt_events req (req.nbytes / 4) h hroom hlo hhi
  have hm : (s.ioRead N req).replies = s.replies ++ [(req.rcvid, answer s.written a m)] := by
    unfold ioRead
    rw [if_neg (by omega), if_neg (by omega), hr]
    dsimp only
    rw [hpos, he]
    rfl
  have hlt : start s.written (a + m) - start s.written a < req.nbytes / 4 := by
    by_cases h0 : m = 0
    · subst h0
      rw [Nat.add_zero, Nat.sub_self]
      exact Nat.lt_of_lt_of_le (by decide) hsize
    · exact hfits h0
  constructor
  · rintro ⟨m', ⟨h1, h2, h3⟩, he⟩ k hk hn
    rw [hm] at he
    have he : answer s.written a m = answer s.written a m' := by simpa using he
    have hlen := congrArg Reply.size he
    rw [size_answer, size_answer] at hlen
    have hle := start_mono (w := s.written) (Nat.add_le_add_left (h3 k hk (Nat.le_of_eq hn)) a)
    omega
  · intro hne
    refine ⟨m, ⟨hstop, Nat.le_of_lt hlt, fun k hk hn => ?_⟩, hm⟩
    by_contra hc
    have := hne k hk
    have := start_mono (w := s.written) (show a + m + 1 ≤ a + k by omega)
    omega

end

/-- Of three events the first two are given. -/
theorem io_read_most_iff_two : ∃ (s : SlogSt) (m : Nat), s.written.map length = [4, 5, 4] ∧
    Most s.written 0 11 m ∧ (s.ioRead 1024 ⟨1, 1, 10, 44, true, true⟩).replies =
      s.replies ++ [(1, answer s.written 0 m)] := by
  obtain ⟨s, hs, hl, hg, hw, hr⟩ := exists_reach newSlog_start
    [.ocbCalloc 1, event 4, event 5, event 4] (by decide +kernel)
    fun s (_ : Reach _ (fun s o => s.Served o ∧ s.Clear 1024 o) (step 1024) s)
      (hq : s.lost = 0 ∧ s.get = 0 ∧ s.written.map length = [4, 5, 4] ∧
        s.readers = [⟨1, none, []⟩]) => hq
  obtain ⟨ht, hroom⟩ := reach_tracked (by decide) hs
  have hlen : s.written.length = 3 := by rw [← length_map length, hw]; rfl
  have hne : ∀ k < 4, ([4, 5, 4].take (0 + k)).sum - ([4, 5, 4].take 0).sum ≠ 11 := by decide
  obtain ⟨m, hm⟩ := (@io_read_most_iff 1024 s ⟨1, none, []⟩ ⟨1, 1, 10, 44, true, true⟩ 0 ht.chained
    hroom (by decide) (by decide) (by rw [hr]; rfl) (by simp [hg, SlogSt.addr, start]) (by omega)
    (by omega)).mpr fun k hk => by
      rw [start_eq_sum, start_eq_sum, hw]
      exact hne k (by omega)
  exact ⟨s, m, hw, hm⟩

/-- A reader with room for four ints is refused an event of four. -/
theorem exact_fit_refused : ∃ s, Reach SlogSt.Start (fun s o => s.Served o ∧ s.Clear 1024 o)
    (step 1024) s ∧ s.written.map length = [4] ∧
    s.replies = [(2, .count 16), (1, .error .e2big)] :=
  exists_reach newSlog_start [.ocbCalloc 1, event 4, poll 4] (by decide +kernel) fun _ _ hq => hq

/-! ### Waking the readers -/

/-- `io_write` up to the loop over the readers that wait. -/
def SlogSt.added (N : Nat) (s : SlogSt) (rcvid : Nat) (data : List Word) (msecs : Fin 1000)
    (secs : Word) : SlogSt :=
  let s := s.reply rcvid (.count (data.length * 4))
  ((s.makeRoom N data.length s.cnt).append N (stamp data msecs secs)).unfill N

/-- At `p` is an event of `n` ints, the last one. -/
structure Last (N p n put : Nat) (buf : Nat → Word) : Prop where
  two : 2 ≤ N
  le : n ≤ N
  lt : p < N
  size : getCount (buf p) + hdrInts = n
  next : advance N p n = put
  ne : p ≠ put

theorem find_discard {k : Nat} (hr : s.readers.find? (·.id = k) = some r)
    (hp : r.pos = some s.get → s.get = s.put) :
    (s.discard N).readers.find? (·.id = k) = some r := by
  refine (find_map (fun x => ?_) _ _).trans ?_
  · split <;> rfl
  · rw [hr, Option.map_some, if_neg fun h => h.2 (hp h.1)]

theorem Again.discard (h : Again s v) : Again (s.discard N) v := by
  obtain ⟨r, hr, hp⟩ := h.pos
  refine ⟨h.size, h.whole, h.block, h.mem, r, find_discard hr fun he => ?_, hp⟩
  rw [hp] at he
  exact (Option.some.inj he).symm

theorem makeRoom_keeps (s : SlogSt) (n fuel : Nat) : (s.makeRoom N n fuel).put = s.put ∧
    (s.makeRoom N n fuel).waiting = s.waiting ∧ (s.makeRoom N n fuel).replies = s.replies ∧
    ∀ v, Again s v → Again (s.makeRoom N n fuel) v := by
  induction fuel generalizing s with
  | zero => exact ⟨rfl, rfl, rfl, fun _ h => h⟩
  | succ fuel ih =>
    unfold SlogSt.makeRoom
    split
    · obtain ⟨h1, h2, h3, h4⟩ := ih (s.discard N)
      exact ⟨h1, h2, h3, fun v h => h4 v h.discard⟩
    · exact ⟨rfl, rfl, rfl, fun _ h => h⟩

theorem ioRead_last (hl : Last N p n s.put s.buf) (h : Again { s with put := p } v) :
    ∃ ints rep, s.ioRead N v = (s.look v.ocb (if n < v.nbytes / 4 then s.put else p)
      (v.nbytes / 4) ints).reply v.rcvid rep := by
  obtain ⟨r, hr, hp⟩ := h.pos
  have h1 := h.size
  have h2 := h.whole
  have h3 := hl.size
  have hput : s.put = (p + n) % N := hl.next ▸ advance_eq hl.lt hl.le
  have hscan : s.scan N (v.nbytes / 4) N 0 p = if n < v.nbytes / 4 then n else 0 := by
    obtain ⟨k, rfl⟩ := Nat.exists_eq_add_of_le' hl.two
    simp only [SlogSt.scan, hl.ne, h3, hl.next, if_false, if_true]
    split <;> split <;> omega
  unfold hdrInts at h3
  unfold ioRead SlogSt.readAt
  rw [if_neg (by omega), if_neg (by omega), hr]
  dsimp only
  rw [hp, Option.getD_some, if_neg hl.ne, hscan]
  by_cases hlt : n < v.nbytes / 4
  · simp only [if_pos hlt, next_eq hl.lt hl.le, ← hput, show n ≠ 0 by omega]
    exact ⟨_, _, rfl⟩
  · simp only [if_neg hlt]
    exact ⟨_, _, rfl⟩

theorem wake_ends_iff (hl : Last N p n s.put s.buf)
    (hw : ∀ v ∈ s.waiting, Again { s with put := p } v) :
    (∃ fuel, (s.wake N fuel).isSome) ↔
      s.waiting.Pairwise fun u v => u.ocb = v.ocb → u.nbytes / 4 ≤ n := by
  generalize hws : s.waiting = ws at hw
  induction ws generalizing s with
  | nil => exact iff_of_true ⟨0, by simp [wake, hws]⟩ .nil
  | cons w rest ih =>
    obtain ⟨hw0, hw⟩ := forall_mem_cons.mp hw
    obtain ⟨ints, rep, he⟩ :=
      ioRead_last (s := { s with waiting := rest }) hl (hw0.other s.replies rest)
    have hstep : (∃ fuel, (s.wake N fuel).isSome) ↔ ∃ fuel,
        ((({ s with waiting := rest } : SlogSt).ioRead N w).wake N fuel).isSome := by
      rw [← Nat.or_exists_add_one]
      simp [wake, hws]
    rw [hstep, he, pairwise_cons]
    by_cases hc : ∃ v ∈ rest, w.ocb = v.ocb ∧ n < w.nbytes / 4
    · -- the other request of this open finds its reader at `put`
      obtain ⟨v, hv, ho, hn⟩ := hc
      refine iff_of_false ?_ fun h => absurd (h.1 v hv ho) (by omega)
      rintro ⟨fuel, hf⟩
      obtain ⟨r, hr, -⟩ := (hw v hv).pos
      have hid : r.id = w.ocb := by
        rw [ho]
        simpa using find?_some hr
      have ha : Again ((({ s with waiting := rest } : SlogSt).look w.ocb (if n < w.nbytes / 4 then
          s.put else p) (w.nbytes / 4) ints).reply w.rcvid rep) v :=
        ⟨(hw v hv).size, (hw v hv).whole, (hw v hv).block, (hw v hv).mem, _, find_look _ hr,
          by rw [if_pos hid, if_pos hn]; rfl⟩
      simp [wake_again hv ha fuel] at hf
    have hc : ∀ v ∈ rest, w.ocb = v.ocb → w.nbytes / 4 ≤ n := fun v hv ho =>
      Nat.le_of_not_lt fun hn => hc ⟨v, hv, ho, hn⟩
    rw [and_iff_right hc]
    refine ih hl rfl fun v hv => ?_
    refine Again.other ((hw v hv).look fun ho => ?_) _ _
    exact if_neg (Nat.not_lt.mpr (hc v hv ho))

theorem ioRead_keeps (N : Nat) (s : SlogSt) (req : Request) :
    (s.ioRead N req).put = s.put ∧ s.replies <+: (s.ioRead N req).replies := by
  unfold ioRead SlogSt.readAt
  dsimp only
  repeat' split
  all_goals first | exact ⟨rfl, prefix_append ..⟩ | exact ⟨rfl, prefix_rfl⟩

/-- When the loop ends nobody waits. -/
theorem wake_done {s' : SlogSt} {fuel : Nat} (h : s.wake N fuel = some s') :
    s'.waiting = [] ∧ s'.put = s.put ∧ s.replies <+: s'.replies := by
  induction fuel generalizing s with
  | zero =>
    unfold wake at h
    split at h <;> cases h
    exact ⟨‹_›, rfl, prefix_rfl⟩
  | succ fuel ih =>
    unfold wake at h
    split at h
    · cases h
      exact ⟨‹_›, rfl, prefix_rfl⟩
    · rename_i w rest _
      obtain ⟨h1, h2, h3⟩ := ih h
      obtain ⟨h4, h5⟩ := ioRead_keeps N { s with waiting := rest } w
      exact ⟨h1, h2.trans h4, h5.trans h3⟩

section
variable {data : List Word} (rcvid : Nat) (msecs : Fin 1000) (secs : Word)

theorem append_last {ev : List Word} (hN : 1024 ≤ N) (hput : s.put < N) (hev : Event ev) :
    Last N s.put ev.length (s.append N ev).put (s.append N ev).buf := by
  have h1 := hev.lower
  have h2 := hev.upper
  unfold hdrInts at h1
  unfold maxInts at h2
  have hcell : copyIn N s.buf s.put ev s.put = ev.headD 0 := by
    rw [copyIn_eq_put hput]
    nth_rewrite 2 [show s.put = (s.put + 0) % N by rw [Nat.add_zero, Nat.mod_eq_of_lt hput]]
    rw [put_cell hput (by omega) (by omega)]
    cases ev <;> simp_all
  refine ⟨by omega, by omega, hput, ?_, ?_, ?_⟩
  · exact (congrArg (getCount · + hdrInts) hcell).trans hev.size
  · simp only [advance, SlogSt.append]
    split <;> omega
  · simp only [SlogSt.append]
    split <;> omega

theorem unfill_keeps (hl : Last N p n s.put s.buf) : Last N p n (s.unfill N).put (s.unfill N).buf ∧
    (s.unfill N).waiting = s.waiting ∧
    ∀ v, Again { s with put := p } v → Again { s.unfill N with put := p } v := by
  unfold SlogSt.unfill
  split
  · rename_i he
    refine ⟨hl, rfl, fun v h => ?_⟩
    obtain ⟨r, hr, hp⟩ := h.pos
    exact ⟨h.size, h.whole, h.block, h.mem, r, find_discard hr fun _ => he.symm, hp⟩
  · exact ⟨hl, rfl, fun _ h => h⟩

theorem added_put_lt (hN : 1024 ≤ N) (hput : s.put < N) (hlo : hdrInts ≤ data.length)
    (hhi : data.length ≤ maxInts) : (s.added N rcvid data msecs secs).put < N := by
  have h1 := (makeRoom_keeps (N := N) (s.reply rcvid (.count (data.length * 4))) data.length s.cnt).1
  have hl := (unfill_keeps (append_last hN (h1 ▸ hput) (stamp_event msecs secs hlo hhi))).1
  exact hl.next ▸ advance_eq hl.lt hl.le ▸ Nat.mod_lt _ (by omega)

def SlogOp.closes : SlogOp → Option Nat
  | .ocbFree id => some id
  | _ => none

/-- What the clients owe: no open is closed while a read of it waits. -/
def SlogSt.Kept (s : SlogSt) (o : SlogOp) : Prop :=
  s.Served o ∧ ∀ v ∈ s.waiting, o.closes ≠ some v.ocb

theorem again_step (hN : 1024 ≤ N) {o : SlogOp} {s' : SlogSt}
    (h : s.put < N ∧ ∀ v ∈ s.waiting, Again s v) (ho : s.Kept o) (hs : s.step N o = some s') :
    s'.put < N ∧ ∀ v ∈ s'.waiting, Again s' v := by
  obtain ⟨hput, h⟩ := h
  cases o with
  | ocbCalloc id =>
    cases hs
    refine ⟨hput, fun v hv => ?_⟩
    obtain ⟨h1, h2, h3, h4, r, hr, hp⟩ := h v hv
    refine ⟨h1, h2, h3, h4, r, ?_, hp⟩
    rw [find?_cons_of_neg, hr]
    have hid : r.id = v.ocb := by simpa using find?_some hr
    simpa using hid ▸ (ho.1 r (mem_of_find?_eq_some hr)).symm
  | ocbFree id =>
    cases hs
    refine ⟨hput, fun v hv => ?_⟩
    obtain ⟨h1, h2, h3, h4, r, hr, hp⟩ := h v hv
    refine ⟨h1, h2, h3, h4, r, ?_, hp⟩
    have hne : v.ocb ≠ id := fun h => ho.2 v hv (congrArg some h.symm)
    rw [find?_filter, ← hr]
    congr 1
    funext x
    by_cases hx : x.id = v.ocb <;> simp [hx, hne]
  | read req =>
    cases hs
    refine ⟨(ioRead_keeps N s req).1 ▸ hput, fun v hv => ?_⟩
    rcases ioRead_waiting N s req with he | ⟨he, ha⟩
    · exact (h v (he ▸ hv)).read req
    · rcases mem_waitAdd.mp (he ▸ hv) with rfl | hv
      · exact ha
      · exact (h v hv).read req
  | write rcvid data msecs secs =>
    simp only [step, SlogSt.ioWrite] at hs
    split at hs
    · cases hs
      exact ⟨hput, fun v hv => (h v hv).other _ _⟩
    · obtain ⟨hw, hp, -⟩ := wake_done hs
      refine ⟨hp ▸ added_put_lt rcvid msecs secs hN hput (by omega) (by omega), ?_⟩
      rw [hw]
      exact nofun
  | unblock rcvid =>
    cases hs
    exact ⟨hput, fun v hv => (h v (mem_of_mem_eraseP hv)).other _ _⟩

/-- A request on the list is blocked at `put`. -/
theorem reach_again (hN : 1024 ≤ N) (h : Reach SlogSt.Start SlogSt.Kept (step N) s) :
    s.put < N ∧ ∀ v ∈ s.waiting, Again s v := by
  refine h.invariant (fun s hs => ?_) fun s o s' hs ho he => again_step hN hs ho he
  obtain ⟨-, hp, -, -, hw, -⟩ := hs
  rw [hp, hw]
  exact ⟨by omega, nofun⟩

theorem io_write_ends_iff (hN : 1024 ≤ N) (hput : s.put < N) (hw : ∀ v ∈ s.waiting, Again s v)
    (hlo : hdrInts ≤ data.length) (hhi : data.length ≤ maxInts) :
    (∃ fuel, ((s.added N rcvid data msecs secs).wake N fuel).isSome) ↔
      s.waiting.Pairwise fun u v => u.ocb = v.ocb → u.nbytes / 4 ≤ data.length := by
  obtain ⟨h1, h2, -, h3⟩ :=
    makeRoom_keeps (N := N) (s.reply rcvid (.count (data.length * 4))) data.length s.cnt
  have hlast := append_last hN (h1 ▸ hput) (stamp_event msecs secs hlo hhi)
  obtain ⟨h4, h5, h6⟩ := unfill_keeps hlast
  have hlen : (stamp data msecs secs).length = data.length := by simp [stamp]
  have he := wake_ends_iff h4 fun v hv => by
    have hq := h3 v ((hw v (h2 ▸ h5 ▸ hv)).other _ _)
    exact h6 v ⟨hq.size, hq.whole, hq.block, hq.mem, hq.pos⟩
  rwa [hlen, h5.trans h2] at he

end

def asks (rcvid ocb : Nat) : Request := ⟨rcvid, ocb, 10, 64, false, true⟩

/-- `io_write` of an event of four ints, up to the loop. -/
def SlogSt.fourAdded (s : SlogSt) : SlogSt := s.added 1024 5 (replicate 4 7) 5 100

instance (s : SlogSt) (o : SlogOp) : Decidable (s.Kept o) := inferInstanceAs (Decidable (_ ∧ _))

theorem io_write_ends_iff_apart : ∃ s, Reach SlogSt.Start SlogSt.Kept (step 1024) s ∧
    s.waiting = [asks 12 2, asks 11 1] ∧ ∃ fuel, (s.fourAdded.wake 1024 fuel).isSome := by
  refine exists_reach newSlog_start [.ocbCalloc 1, .ocbCalloc 2, event 5, .read (asks 21 1),
    .read (asks 22 2), .read (asks 11 1), .read (asks 12 2)] (by decide +kernel)
    fun s hs (hw : s.waiting = [asks 12 2, asks 11 1]) => ⟨hw, ?_⟩
  obtain ⟨hput, ha⟩ := reach_again (by decide) hs
  exact (io_write_ends_iff 5 5 100 (by decide) hput ha (by decide) (by decide)).mpr (hw ▸ by decide)

/-- Two reads of one open wait: the first takes the event, the second waits again and again. -/
theorem shared_open_never_ends : ∃ s, Reach SlogSt.Start SlogSt.Served (step 1024) s ∧
    ¬∃ fuel, (s.fourAdded.wake 1024 fuel).isSome := by
  refine exists_reach newSlog_start [.ocbCalloc 1, .read (asks 11 1), .read (asks 12 1)]
    (by decide +kernel) fun s _ (hq : (s.fourAdded.wake 1024 s.fourAdded.waiting.length).isNone) =>
      fun ⟨fuel, hf⟩ => ?_
  simp [wake_never (Option.isNone_iff_eq_none.mp hq) fuel] at hf

/-! ### The console -/

abbrev Byte := BitVec 8

inductive Status where
  | eok | einval | noreply
  deriving DecidableEq

/-- What `io_write` returns. -/
def ioStatus (data : List Word) : Status :=
  if data.length < hdrInts ∨ maxInts < data.length then .einval else .noreply

/-- What follows the last byte in its int is not text, as a null comes before. -/
def intsOf (l : List Byte) : List Word :=
  (range ((l.length + 3) / 4)).map fun i =>
    l.getD (4 * i + 3) 0 ++ l.getD (4 * i + 2) 0 ++ l.getD (4 * i + 1) 0 ++ l.getD (4 * i) 0

def textOf (ev : List Word) : List Byte :=
  ((ev.drop hdrInts).flatMap fun (w : Word) => [w.setWidth 8, (w >>> 8).setWidth 8,
    (w >>> 16).setWidth 8, (w >>> 24).setWidth 8]).takeWhile (· ≠ 0)

section
variable (N rcvid : Nat) (bytes : List Byte) (msecs : Fin 1000) (secs : Word)

def consoleLoop : Nat → Nat → SlogSt → Option (Nat × SlogSt)
  | 0, off, s => some (off, s)
  | fuel + 1, off, s =>
    let len := (BitVec.ofNat 32 bytes.length).toInt
    if off < len then
      let n := min (len - off).toNat (maxInts * 4 - hdrInts * 4 - 1)
      let data := [8, 0, 0] ++ intsOf ((bytes.drop off).take n ++ [0])
      (s.ioWrite N rcvid data msecs secs).bind fun s =>
        if ioStatus data ≠ .eok then some (off, s) else consoleLoop fuel (off + n) s
    else some (off, s)

def ioConsoleWrite (s : SlogSt) : Option SlogSt :=
  (consoleLoop N rcvid bytes msecs secs bytes.length 0 s).map fun r => r.2.reply rcvid (.count r.1)

end

/-- The replies that `rcvid` is sent. -/
def SlogSt.told (s : SlogSt) (rcvid : Nat) : List (Nat × Reply) := s.replies.filter (·.1 = rcvid)

/-- From `s` to `s'` the bytes are logged, and the client is told once how many they are. -/
def Logged (s s' : SlogSt) (rcvid : Nat) (bytes : List Byte) : Prop :=
  (∃ evs, s'.written = s.written ++ evs ∧ evs.flatMap textOf = bytes) ∧
    s'.told rcvid = s.told rcvid ++ [(rcvid, .count bytes.length)]

section
variable {rcvid : Nat} {msecs : Fin 1000} {secs : Word}

theorem told_reply (s : SlogSt) (rep : Reply) :
    (s.reply rcvid rep).told rcvid = s.told rcvid ++ [(rcvid, rep)] := by
  simp [SlogSt.told, SlogSt.reply]

theorem ioWrite_told {s' : SlogSt} {data : List Word}
    (h : s.ioWrite N rcvid data msecs secs = some s') :
    (s.told rcvid).length < (s'.told rcvid).length := by
  have hp {rep : Reply} (hr : (s.reply rcvid rep).replies <+: s'.replies) :
      (s.told rcvid).length < (s'.told rcvid).length := by
    have := (hr.filter (·.1 = rcvid)).length_le
    rwa [← SlogSt.told, told_reply, length_append] at this
  unfold SlogSt.ioWrite at h
  split at h
  · cases h
    exact hp prefix_rfl
  have hadd : (s.added N rcvid data msecs secs).replies =
      (s.reply rcvid (.count (data.length * 4))).replies := by
    refine Eq.trans ?_ (makeRoom_keeps (N := N) (s.reply rcvid _) data.length s.cnt).2.2.1
    unfold SlogSt.added SlogSt.unfill
    dsimp only
    split <;> rfl
  exact hp (hadd ▸ (wake_done h).2.2)

theorem console_write_iff {bytes : List Byte} :
    (∃ s', ioConsoleWrite N rcvid bytes msecs secs s = some s' ∧ Logged s s' rcvid bytes) ↔
      bytes = [] := by
  constructor
  · rintro ⟨s', h, ⟨evs, hw, rfl⟩, htold⟩
    by_contra hne
    obtain ⟨k, hk⟩ := Nat.exists_eq_add_one.mpr (length_pos_iff.mpr hne)
    unfold ioConsoleWrite at h
    rw [hk, consoleLoop] at h
    obtain ⟨⟨off, q⟩, hq, rfl⟩ := Option.map_eq_some_iff.mp h
    rw [told_reply] at htold
    split at hq
    · -- the writer was told by `io_write` already
      obtain ⟨s1, hs, hq⟩ := Option.bind_eq_some_iff.mp hq
      rw [if_pos] at hq
      · cases hq
        exact absurd (append_inj_left' htold rfl ▸ ioWrite_told hs) (Nat.lt_irrefl _)
      · unfold ioStatus
        split <;> nofun
    cases hq
    simp [SlogSt.reply] at hw
    simp [hw] at hne
  · rintro rfl
    exact ⟨_, rfl, ⟨[], (append_nil _).symm, rfl⟩, told_reply ..⟩

end

/-- For one byte the client is told of 16 bytes, and then of none. -/
theorem console_told_twice : (ioConsoleWrite 1024 1 [65] 5 100 newSlog).map
    (fun s => (s.written.map textOf, s.replies)) =
      some ([[65]], [(1, .count 16), (1, .count 0)]) := by
  decide +kernel

end Qnx.Slogger
