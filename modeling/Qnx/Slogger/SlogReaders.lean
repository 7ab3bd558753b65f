import Qnx.Slogger.SlogRing

/-!
# What readers of the log see

Each reader is at an event: where its last look ended, or at the oldest event if that one has been
discarded. The exception is an event that fills the ring to the last int: the oldest event is then
taken out while `put` equals `get`, and `check_overrun` leaves readers at `put` alone.
-/

namespace Qnx.Slogger

open Qnx.Ring Run List
open SlogSt (makeRoom readAt ioRead wake step waitAdd)

variable {N : Nat} {s s' : SlogSt} {w : List (List Word)} {r : Reader} {l : Look} {a b m : Nat}

/-- A look shows `m` whole events from `a` on: all there are, or as many as fit. -/
structure Look.Shows (w : List (List Word)) (l : Look) (a m : Nat) : Prop where
  known : l.written ≤ w.length
  stop : a + m ≤ l.written
  ints : l.ints = ((w.drop a).take m).flatten
  fits : m ≠ 0 → l.ints.length < l.room
  most : a + m = l.written ∨ l.room ≤ start w (a + m + 1) - start w a

/-- The looks of a reader, each from where the last one ended, or from the oldest event. -/
inductive Follows (w : List (List Word)) : List Look → Nat → Prop where
  | nil : Follows w [] 0
  | snoc {looks : List Look} {b : Nat} {l : Look} {m : Nat} : Follows w looks b →
      l.Shows w (max b l.lost) m → Follows w (looks ++ [l]) (max b l.lost + m)

theorem Look.Shows.append (h : l.Shows w a m) (e : List Word) : l.Shows (w ++ [e]) a m := by
  obtain ⟨h1, h2, h3, h4, h5⟩ := h
  refine ⟨?_, h2, ?_, h4, ?_⟩
  · rw [length_append]
    omega
  · rw [h3, drop_append_of_le_length (by omega), take_append_of_le_length]
    rw [length_drop]
    omega
  · rcases Nat.lt_or_eq_of_le h2 with hlt | heq
    · rw [start_append (by omega), start_append (by omega)]
      exact h5
    · exact .inl heq

theorem Follows.append {looks : List Look} (h : Follows w looks b) (e : List Word) :
    Follows (w ++ [e]) looks b := by
  induction h with
  | nil => exact .nil
  | snoc _ hl ih => exact .snoc ih (hl.append e)

theorem Follows.eq_zero (h : Follows w [] b) : b = 0 := by
  generalize hl : ([] : List Look) = looks at h
  cases h with
  | nil => rfl
  | snoc _ _ => simp at hl

/-- A reader is where its looks have brought it, or at the oldest event. -/
structure Placed (N : Nat) (s : SlogSt) (r : Reader) (b : Nat) : Prop where
  follows : Follows s.written r.looks b
  le : b ≤ s.written.length
  new : r.pos = none → r.looks = []
  pos : ∀ q, r.pos = some q → q = s.addr N (max b s.lost)

/-! ### The oldest event is discarded -/

theorem Placed.discard (h : Chained N s) (hpos : 0 < s.cnt) (hr : Placed N s r b)
    (hfull : s.cnt = N → r.pos ≠ some s.get) :
    Placed N (s.discard N) (if r.pos = some s.get ∧ s.get ≠ s.put then
      { r with pos := some (advance N s.get (getCount (s.buf s.get) + hdrInts)) } else r) b := by
  have hlt := h.lost_lt hpos
  have hle := hr.le
  split
  · rename_i hmove
    obtain ⟨hp, hne⟩ := hmove
    have hroom : s.cnt < N := Nat.lt_of_le_of_ne h.bound fun he => hne ((h.full_iff hpos).mpr he).symm
    -- it was at the oldest event
    have hmax : s.lost = max b s.lost := by
      refine h.addr_inj hroom (Nat.le_refl _) (Nat.le_max_right _ _) (by omega) ?_
      rw [← h.get]
      exact hr.pos _ hp
    refine ⟨hr.follows, hr.le, nofun, fun q hq => ?_⟩
    cases hq
    have hb : max b (s.lost + 1) = s.lost + 1 := by omega
    have hn := h.count_at (Nat.le_refl _) hlt
    have ha := h.advance_addr hlt
    rw [← hn, ← h.get, ← hb] at ha
    exact ha
  rename_i hstay
  refine ⟨hr.follows, hr.le, hr.new, fun q hq => ?_⟩
  have hq' := hr.pos q hq
  have hne : b > s.lost := by
    by_contra hc
    rw [Nat.max_eq_right (by omega), ← h.get] at hq'
    subst hq'
    by_cases hf : s.cnt = N
    · exact hfull hf hq
    · exact hstay ⟨hq, fun he => hf ((h.full_iff hpos).mp he.symm)⟩
  rw [hq', Nat.max_eq_left (by omega)]
  change _ = s.addr N (max b (s.lost + 1))
  rw [Nat.max_eq_left hne]

structure Tracked (N : Nat) (s : SlogSt) : Prop where
  chained : Chained N s
  placed : ∀ r ∈ s.readers, ∃ b, Placed N s r b
  ids : (s.readers.map Reader.id).Nodup

theorem Tracked.ids_map {f : Reader → Reader} (h : Tracked N s) (hf : ∀ r, (f r).id = r.id) :
    ((s.readers.map f).map Reader.id).Nodup := by
  have hids : (s.readers.map f).map Reader.id = s.readers.map Reader.id := by
    rw [map_map]
    exact map_congr_left fun r _ => hf r
  rw [hids]
  exact h.ids

theorem Tracked.discard (h : Tracked N s) (hpos : 0 < s.cnt)
    (hfull : s.cnt = N → ∀ r ∈ s.readers, r.pos ≠ some s.get) : Tracked N (s.discard N) := by
  refine ⟨h.chained.discard hpos, fun r hr => ?_, ?_⟩
  · obtain ⟨r0, hr0, rfl⟩ := mem_map.mp hr
    obtain ⟨b, hb⟩ := h.placed r0 hr0
    exact ⟨b, hb.discard h.chained hpos fun hf => hfull hf r0 hr0⟩
  · exact h.ids_map fun r => by split <;> rfl

/-! ### Making room -/

/-- No reader is in the way of `n` ints that fill the ring. -/
def Unhindered (N n : Nat) (s : SlogSt) : Prop :=
  ∀ j ≤ s.written.length - s.lost, (s.written.drop (s.lost + j)).flatten.length + n = N →
    ∀ r ∈ s.readers, ∀ i ≤ j, r.pos ≠ some (s.addr N (s.lost + i))

variable {n fuel ocb pos room : Nat} {ev ints : List Word} {req v : Request}

theorem Unhindered.discard (h : Unhindered N n s) (hs : Chained N s) (hpos : 0 < s.cnt) :
    Unhindered N n (s.discard N) := by
  have hlt := hs.lost_lt hpos
  intro j hj hfull r hr i hi
  have hlost : (s.discard N).lost = s.lost + 1 := rfl
  have hw : (s.discard N).written = s.written := rfl
  rw [hw] at hj
  have hfree := h (j + 1) (by omega) (by rwa [Nat.add_comm j 1, ← Nat.add_assoc])
  obtain ⟨r0, hr0, rfl⟩ := mem_map.mp hr
  split
  · -- no reader is at the event that leaves
    rename_i hmove
    have h0 := hfree r0 hr0 0 (Nat.zero_le _)
    rw [Nat.add_zero, ← hs.get] at h0
    exact absurd hmove.1 h0
  · have hi' := hfree r0 hr0 (i + 1) (by omega)
    rwa [Nat.add_comm i 1, ← Nat.add_assoc] at hi'

theorem makeRoom_tracked (h : Tracked N s) (hroom : s.cnt < N) (hn : n ≤ maxInts)
    (hfree : Unhindered N n s) (hfuel : s.cnt ≤ fuel) :
    let s' := s.makeRoom N n fuel
    Tracked N s' ∧ s'.cnt < N ∧ Unhindered N n s' ∧ s'.cnt + n ≤ N := by
  have hN := h.chained.big
  unfold maxInts at hn
  induction fuel generalizing s with
  | zero => exact ⟨h, hroom, hfree, by dsimp only [makeRoom]; omega⟩
  | succ fuel ih =>
    unfold makeRoom
    split
    · have hpos : 0 < s.cnt := by omega
      have hcnt : (s.discard N).cnt = s.cnt - (getCount (s.buf s.get) + hdrInts) := rfl
      unfold hdrInts at hcnt
      exact ih (h.discard hpos fun hf => by omega) (by omega) (hfree.discard h.chained hpos)
        (by omega)
    · exact ⟨h, hroom, hfree, by omega⟩

/-! ### A new event -/

theorem Placed.append (hr : Placed N s r b) (hs : Chained N s) : Placed N (s.append N ev) r b := by
  refine ⟨hr.follows.append ev, ?_, hr.new, fun q hq => ?_⟩
  · have := hr.le
    change b ≤ (s.written ++ [ev]).length
    rw [length_append]
    omega
  · rw [hr.pos q hq]
    exact congrArg (· % N) (start_append (Nat.max_le.mpr ⟨hr.le, hs.lost⟩) ev).symm

theorem Tracked.append (h : Tracked N s) (hev : Event ev)
    (hroom : s.cnt + ev.length ≤ N) : Tracked N (s.append N ev) :=
  ⟨h.chained.append hev hroom, fun r hr => (h.placed r hr).imp fun _ hb => hb.append h.chained, h.ids⟩

theorem unfill_tracked (h : Tracked N s) (hpos : 0 < s.cnt)
    (hfree : s.cnt = N → ∀ r ∈ s.readers, r.pos ≠ some s.get) :
    Tracked N (s.unfill N) ∧ (s.unfill N).cnt < N := by
  have hb := h.chained.bound
  unfold SlogSt.unfill
  split
  · refine ⟨h.discard hpos hfree, ?_⟩
    have hcnt : (s.discard N).cnt = s.cnt - (getCount (s.buf s.get) + hdrInts) := rfl
    unfold hdrInts at hcnt
    omega
  · rename_i hne
    exact ⟨h, Nat.lt_of_le_of_ne hb fun he => hne ((h.chained.full_iff hpos).mpr he)⟩

/-! ### A read -/

theorem scan_spec (h : Chained N s) (hroom : s.cnt < N) (n fuel : Nat) {i : Nat}
    (ha : s.lost ≤ a) (hai : a ≤ i) (hi : i ≤ s.written.length)
    (hfuel : s.written.length - i < fuel)
    (hfits : i ≠ a → start s.written i - start s.written a < n) :
    ∃ m, s.scan N n fuel (start s.written i - start s.written a) (s.addr N i) =
        start s.written (a + m) - start s.written a ∧ a + m ≤ s.written.length ∧
      (m ≠ 0 → start s.written (a + m) - start s.written a < n) ∧
      (a + m = s.written.length ∨ n ≤ start s.written (a + m + 1) - start s.written a) := by
  induction fuel generalizing i with
  | zero => omega
  | succ fuel ih =>
    unfold SlogSt.scan
    have hstop : a + (i - a) = i := by omega
    split
    · rename_i hend
      have hlast : i = s.written.length :=
        h.addr_inj hroom (by omega) hi (Nat.le_refl _) (hend.trans h.put)
      exact ⟨i - a, by rw [hstop], by omega, fun hm => by rw [hstop]; exact hfits (by omega),
        .inl (by omega)⟩
    rename_i hmore
    have hlt : i < s.written.length := Nat.lt_of_le_of_ne hi fun he => hmore (he ▸ h.put.symm)
    have hn := h.count_at (by omega) hlt
    have hs := start_succ hlt
    have hmono : start s.written a ≤ start s.written i := start_mono hai
    dsimp only
    split
    · refine ⟨i - a, by rw [hstop], by omega, fun hm => by rw [hstop]; exact hfits (by omega),
        .inr ?_⟩
      rw [hstop]
      omega
    have hadv := h.advance_addr hlt
    rw [← hn] at hadv
    rw [hadv, show start s.written i - start s.written a +
      (getCount (s.buf (s.addr N i)) + hdrInts) =
      start s.written (i + 1) - start s.written a by omega]
    exact ih (by omega) hlt (by omega) fun _ => by omega

theorem Tracked.other (h : Tracked N s) (replies : List (Nat × Reply)) (waiting : List Request) :
    Tracked N { s with replies := replies, waiting := waiting } :=
  ⟨h.chained.congr rfl rfl rfl rfl rfl rfl, fun r hr => (h.placed r hr).imp fun _ hb =>
    ⟨hb.follows, hb.le, hb.new, hb.pos⟩, h.ids⟩

theorem Tracked.look (h : Tracked N s) (hr : r ∈ s.readers) (hid : r.id = ocb) (hb : Placed N s r b)
    (hl : Look.Shows s.written ⟨s.lost, s.written.length, room, ints⟩ (max b s.lost) m)
    (hpos : pos = s.addr N (max b s.lost + m)) : Tracked N (s.look ocb pos room ints) := by
  refine ⟨h.chained.congr rfl rfl rfl rfl rfl rfl, fun r' hr' => ?_, ?_⟩
  · obtain ⟨r0, hr0, rfl⟩ := mem_map.mp hr'
    split
    · rename_i hid0
      cases inj_on_of_nodup_map h.ids hr0 hr (hid0.trans hid.symm)
      refine ⟨max b s.lost + m, .snoc hb.follows hl, hl.stop, nofun, fun q hq => ?_⟩
      cases hq
      have hmax : max (max b s.lost + m) s.lost = max b s.lost + m := by omega
      rw [hpos]
      exact congrArg (s.addr N) hmax.symm
    · obtain ⟨b0, hb0⟩ := h.placed r0 hr0
      exact ⟨b0, hb0.follows, hb0.le, hb0.new, hb0.pos⟩
  · exact h.ids_map fun r => by split <;> rfl

theorem fetch_events (h : Chained N s) (ha : s.lost ≤ a) (ham : a + m ≤ s.written.length) :
    fetch N s.buf (s.addr N a) (start s.written (a + m) - start s.written a) =
      ((s.written.drop a).take m).flatten := by
  have hsum := start_add s.written a m
  have hrest := start_add_rest s.written a
  have hc := h.cnt
  have hmono : start s.written s.lost ≤ start s.written a := start_mono ha
  have hend : start s.written (a + m) ≤ start s.written s.written.length := start_mono ham
  have hb := h.bound
  rw [fetch_eq_window (h.addr_lt a) (by omega)]
  have hlen := start_length s.written
  rw [← window_take (n := (s.written.drop a).flatten.length) (by omega),
    h.window_from ha (by omega), hsum, Nat.add_sub_cancel_left]
  have hsplit : (s.written.drop a).flatten =
      ((s.written.drop a).take m).flatten ++ ((s.written.drop a).drop m).flatten := by
    rw [← flatten_append, take_append_drop]
  rw [hsplit, take_left]

theorem next_eq {ptr cnt : Nat} (hp : ptr < N) (hc : cnt ≤ N) :
    (if N - ptr < cnt then cnt - (N - ptr) else if N - ptr = cnt then 0 else ptr + cnt) =
      (ptr + cnt) % N := by
  rw [mod_cell (by omega)]
  repeat' split
  all_goals omega

def answer (w : List (List Word)) (a m : Nat) : Reply :=
  if m = 0 then .error .e2big else .data ((w.drop a).take m).flatten

theorem readAt_events (req : Request) (n : Nat) (h : Chained N s) (hroom : s.cnt < N) (ha : s.lost ≤ a)
    (hlt : a < s.written.length) : ∃ m, s.readAt N req n (s.addr N a) =
      (s.look req.ocb (s.addr N (a + m)) n ((s.written.drop a).take m).flatten).reply req.rcvid
        (answer s.written a m) ∧ a + m ≤ s.written.length ∧
      (m ≠ 0 → start s.written (a + m) - start s.written a < n) ∧
      (a + m = s.written.length ∨ n ≤ start s.written (a + m + 1) - start s.written a) := by
  have hgap := start_gap h.events h.lost (Nat.le_refl _)
  have hc := h.cnt
  unfold hdrInts at hgap
  obtain ⟨m, hscan, hm⟩ := scan_spec h hroom n N ha (Nat.le_refl _) (Nat.le_of_lt hlt) (by omega)
    fun hne => absurd rfl hne
  refine ⟨m, ?_, hm⟩
  have hput : s.addr N a ≠ s.put := fun he =>
    Nat.ne_of_lt hlt (h.addr_inj hroom ha (Nat.le_of_lt hlt) (Nat.le_refl _) (he.trans h.put))
  have hsum := start_add s.written a m
  have hg := start_gap h.events (Nat.le_add_right a m) hm.1
  have hmono : start s.written s.lost ≤ start s.written a := start_mono ha
  have hend : start s.written (a + m) ≤ start s.written s.written.length := start_mono hm.1
  unfold hdrInts at hg
  rw [Nat.sub_self] at hscan
  unfold readAt answer
  rw [if_neg hput, hscan]
  by_cases h0 : m = 0
  · subst h0
    simp
  have hnext : s.addr N (a + m) =
      (s.addr N a + (start s.written (a + m) - start s.written a)) % N := by
    unfold SlogSt.addr
    rw [Nat.mod_add_mod, hsum, Nat.add_sub_cancel_left]
  rw [if_neg (by omega), if_neg h0, ← fetch_events h ha hm.1, hnext,
    ← next_eq (h.addr_lt a) (by omega)]

section

variable (h : Tracked N s) (hroom : s.cnt < N)
include h hroom

theorem readAt_tracked (hr : r ∈ s.readers) (hid : r.id = req.ocb) (hb : Placed N s r b) :
    Tracked N (s.readAt N req n (s.addr N (max b s.lost))) ∧
      (s.readAt N req n (s.addr N (max b s.lost))).cnt < N := by
  have hle := Nat.max_le.mpr ⟨hb.le, h.chained.lost⟩
  rcases Nat.lt_or_eq_of_le hle with hlt | heq
  · obtain ⟨m, he, hstop, hfits, hmost⟩ :=
      readAt_events req n h.chained hroom (Nat.le_max_right b s.lost) hlt
    rw [he]
    refine ⟨(h.look hr hid hb ⟨Nat.le_refl _, hstop, rfl, fun hm => ?_, hmost⟩ rfl).other _ _, hroom⟩
    have := hfits hm
    rwa [start_add, Nat.add_sub_cancel_left] at this
  have hl : Tracked N (s.look req.ocb (s.addr N (max b s.lost)) n []) :=
    h.look (m := 0) hr hid hb ⟨Nat.le_refl _, hle, by simp, nofun, .inl heq⟩ rfl
  unfold readAt
  rw [if_pos (heq ▸ h.chained.put.symm)]
  repeat' split
  all_goals exact ⟨hl.other _ _, hroom⟩

theorem ioRead_tracked (req : Request) : Tracked N (s.ioRead N req) ∧ (s.ioRead N req).cnt < N := by
  unfold ioRead
  split
  · exact ⟨h.other _ _, hroom⟩
  split
  · exact ⟨h.other _ _, hroom⟩
  split
  · exact ⟨h, hroom⟩
  rename_i r hfind
  have hr := mem_of_find?_eq_some hfind
  have hid : r.id = req.ocb := by simpa using find?_some hfind
  obtain ⟨b, hb⟩ := h.placed r hr
  have hptr : r.pos.getD s.get = s.addr N (max b s.lost) := by
    cases hp : r.pos with
    | none =>
      have hb0 := (hb.new hp ▸ hb.follows).eq_zero
      rw [hb0]
      exact h.chained.get
    | some q => exact hb.pos q hp
  rw [hptr]
  exact readAt_tracked h hroom hr hid hb

theorem wake_tracked (hw : s.wake N fuel = some s') : Tracked N s' ∧ s'.cnt < N := by
  induction fuel generalizing s with
  | zero =>
    unfold wake at hw
    split at hw
    · cases hw
      exact ⟨h, hroom⟩
    · cases hw
  | succ fuel ih =>
    unfold wake at hw
    split at hw
    · cases hw
      exact ⟨h, hroom⟩
    rename_i w rest hwait
    obtain ⟨h1, hroom1⟩ := ioRead_tracked (h.other s.replies rest) hroom w
    exact ih h1 hroom1 hw

theorem ioWrite_tracked {rcvid : Nat} {data : List Word} {msecs : Fin 1000} {secs : Word}
    (hfree : Unhindered N data.length s)
    (hw : s.ioWrite N rcvid data msecs secs = some s') : Tracked N s' ∧ s'.cnt < N := by
  unfold SlogSt.ioWrite at hw
  split at hw
  · cases hw
    exact ⟨h.other _ _, hroom⟩
  have hl : hdrInts ≤ data.length := by omega
  have hu : data.length ≤ maxInts := by omega
  have hev : Event (stamp data msecs secs) := stamp_event msecs secs hl hu
  have hevl : (stamp data msecs secs).length = data.length := by simp [stamp]
  have h0 : Tracked N (s.reply rcvid (.count (data.length * 4))) := h.other _ _
  obtain ⟨h1, -, hfree1, hfit⟩ := makeRoom_tracked h0 hroom hu hfree (Nat.le_refl _)
  dsimp only at hw
  generalize (s.reply rcvid (.count (data.length * 4))).makeRoom N data.length
    (s.reply rcvid (.count (data.length * 4))).cnt = q at h1 hfree1 hfit hw
  have hcnt : (q.append N (stamp data msecs secs)).cnt = q.cnt + data.length :=
    congrArg (q.cnt + ·) hevl
  -- if the ring is full `get` is where the oldest event begins
  have hfull : (q.append N (stamp data msecs secs)).cnt = N →
      ∀ r ∈ q.readers, r.pos ≠ some q.get := fun hfull r hr => by
    have hq := h1.chained.cnt
    have hrest := start_add_rest q.written q.lost
    rw [start_length] at hq
    have hclear := hfree1 0 (Nat.zero_le _) (by rw [Nat.add_zero]; omega) r hr 0 (Nat.le_refl _)
    rwa [Nat.add_zero, ← h1.chained.get] at hclear
  obtain ⟨h2, hroom2⟩ := unfill_tracked (h1.append hev (hevl ▸ hfit))
    (by unfold hdrInts at hl; omega) hfull
  exact wake_tracked h2 hroom2 hw

end

/-! ### Runs -/

theorem tracked_start (hN : 1024 ≤ N) (h : s.Start) : Tracked N s ∧ s.cnt < N := by
  obtain ⟨buf, cnt, put, get, readers, waiting, replies, written, lost⟩ := s
  obtain ⟨rfl, rfl, rfl, rfl, rfl, rfl, rfl⟩ := h
  exact ⟨⟨⟨hN, nofun, Nat.le_refl _, (Nat.zero_mod N).symm, (Nat.zero_mod N).symm, rfl, rfl,
    Nat.zero_le _⟩, nofun, nodup_nil⟩, by dsimp only; omega⟩

theorem tracked_step {o : SlogOp} (h : Tracked N s) (hroom : s.cnt < N) (hok : s.Served o)
    (hclear : s.Clear N o) (hstep : s.step N o = some s') : Tracked N s' ∧ s'.cnt < N := by
  cases o with
  | ocbCalloc id =>
    cases hstep
    refine ⟨⟨h.chained.congr rfl rfl rfl rfl rfl rfl, fun r hr => ?_, ?_⟩, hroom⟩
    · rcases mem_cons.mp hr with rfl | hr
      · exact ⟨0, .nil, Nat.zero_le _, fun _ => rfl, nofun⟩
      · exact (h.placed r hr).imp fun _ hb => ⟨hb.follows, hb.le, hb.new, hb.pos⟩
    · refine nodup_cons.mpr ⟨fun hm => ?_, h.ids⟩
      obtain ⟨r, hr, hid⟩ := mem_map.mp hm
      exact hok r hr hid
  | ocbFree id =>
    cases hstep
    refine ⟨⟨h.chained.congr rfl rfl rfl rfl rfl rfl, fun r hr => ?_, ?_⟩, hroom⟩
    · exact (h.placed r (mem_filter.mp hr).1).imp fun _ hb =>
        ⟨hb.follows, hb.le, hb.new, hb.pos⟩
    · exact h.ids.sublist (filter_sublist.map _)
  | read req =>
    cases hstep
    exact ioRead_tracked h hroom req
  | write rcvid data msecs secs => exact ioWrite_tracked h hroom hclear hstep
  | unblock rcvid =>
    cases hstep
    exact ⟨h.other _ _, hroom⟩

theorem reach_tracked (hN : 1024 ≤ N)
    (h : Reach SlogSt.Start (fun s o => s.Served o ∧ s.Clear N o) (step N) s) :
    Tracked N s ∧ s.cnt < N := by
  refine h.invariant (fun s hs => tracked_start hN hs) fun s o s' hs hok hstep => ?_
  exact tracked_step hs.1 hs.2 hok.1 hok.2 hstep

/-- The ring holds the events that were written and not discarded; a reader is at one of them, at
`put` or nowhere yet; and it is shown them one after another, missing only discarded ones. -/
theorem slog_readers (hN : 1024 ≤ N)
    (h : Reach SlogSt.Start (fun s o => s.Served o ∧ s.Clear N o) (step N) s) :
    (window N s.buf s.get s.cnt = (s.written.drop s.lost).flatten ∧
      s.cnt = (s.written.drop s.lost).flatten.length ∧ s.put = (s.get + s.cnt) % N ∧
      ∀ e ∈ s.written, hdrInts ≤ e.length ∧ e.length = getCount (e.headD 0) + hdrInts) ∧
    ∀ r ∈ s.readers,
      (∀ q, r.pos = some q → ∃ i, s.lost ≤ i ∧ i ≤ s.written.length ∧ q = s.addr N i) ∧
      ∃ b, Follows s.written r.looks b ∧ ∀ q, r.pos = some q → q = s.addr N (max b s.lost) := by
  obtain ⟨ht, -⟩ := reach_tracked hN h
  have hc := ht.chained.cnt
  have hrest := start_add_rest s.written s.lost
  rw [start_length] at hc
  refine ⟨⟨ht.chained.window, by omega, ht.chained.put_eq, fun e he => ?_⟩, fun r hr => ?_⟩
  · exact ⟨(ht.chained.events e he).lower, (ht.chained.events e he).size.symm⟩
  · obtain ⟨b, hb⟩ := ht.placed r hr
    exact ⟨fun q hq => ⟨max b s.lost, Nat.le_max_right _ _, Nat.max_le.mpr ⟨hb.le, ht.chained.lost⟩,
      hb.pos q hq⟩, b, hb.follows, hb.pos⟩

/-! ### Readers that wait -/

/-- A request that blocks again whenever it is tried, as its reader is at `put`. -/
structure Again (s : SlogSt) (req : Request) : Prop where
  size : hdrInts ≤ req.nbytes / 4
  whole : req.nbytes % 4 = 0
  block : req.nonblock = false
  mem : req.mem = true
  pos : ∃ r, s.readers.find? (·.id = req.ocb) = some r ∧ r.pos = some s.put

theorem mem_waitAdd {w : Request} {ws : List Request} : w ∈ waitAdd req ws ↔ w = req ∨ w ∈ ws := by
  induction ws with
  | nil => simp [waitAdd]
  | cons v ws ih =>
    unfold waitAdd
    split
    · exact mem_cons
    · rw [mem_cons, ih, mem_cons]
      exact or_left_comm

theorem find_map {f : Reader → Reader} (hf : ∀ r, (f r).id = r.id) (rs : List Reader) (k : Nat) :
    (rs.map f).find? (·.id = k) = (rs.find? (·.id = k)).map f := by
  rw [find?_map]
  simp only [Function.comp_def, hf]

theorem find_look {k : Nat} (s : SlogSt) (hr : s.readers.find? (·.id = k) = some r) :
    (s.look ocb pos room ints).readers.find? (·.id = k) = some (if r.id = ocb then
      ⟨r.id, some pos, r.looks ++ [⟨s.lost, s.written.length, room, ints⟩]⟩ else r) := by
  refine (find_map (fun x => ?_) _ _).trans (by rw [hr, Option.map_some])
  split <;> rfl

theorem Again.look (h : Again s v)
    (hp : ocb = v.ocb → pos = s.put) : Again (s.look ocb pos room ints) v := by
  obtain ⟨r, hr, hpos⟩ := h.pos
  have hid : r.id = v.ocb := by simpa using find?_some hr
  refine ⟨h.size, h.whole, h.block, h.mem, _, find_look s hr, ?_⟩
  split
  · rename_i he
    exact congrArg some (hp (he.symm.trans hid))
  · exact hpos

theorem Again.other (h : Again s v) (replies : List (Nat × Reply))
    (waiting : List Request) : Again { s with replies := replies, waiting := waiting } v :=
  ⟨h.size, h.whole, h.block, h.mem, h.pos⟩

theorem Again.read (h : Again s v) (req : Request) : Again (s.ioRead N req) v := by
  unfold ioRead
  split
  · exact h.other _ _
  split
  · exact h.other _ _
  split
  · exact h
  rename_i r hfind
  obtain ⟨rv, hrv, hpos⟩ := h.pos
  -- two requests of one reader find it at the same place
  have hsame : req.ocb = v.ocb → r.pos.getD s.get = s.put := fun he => by
    rw [he, hrv] at hfind
    cases hfind
    rw [hpos]
    rfl
  unfold readAt
  split
  · have hl : Again (s.look req.ocb (r.pos.getD s.get) (req.nbytes / 4) []) v := h.look hsame
    repeat' split
    all_goals exact hl.other _ _
  rename_i hne
  dsimp only
  split
  · exact (h.look hsame).other _ _
  · exact (h.look fun he => absurd (hsame he) hne).other _ _

theorem ioRead_waiting (N : Nat) (s : SlogSt) (req : Request) :
    (s.ioRead N req).waiting = s.waiting ∨
      (s.ioRead N req).waiting = waitAdd req s.waiting ∧ Again (s.ioRead N req) req := by
  unfold ioRead
  split
  · exact .inl rfl
  split
  · exact .inl rfl
  split
  · exact .inl rfl
  rename_i r hfind
  unfold readAt
  split
  · rename_i hput
    have hid : r.id = req.ocb := by simpa using find?_some hfind
    split
    · exact .inl rfl
    rename_i hblock
    split
    · exact .inl rfl
    rename_i hmem
    refine .inr ⟨rfl, by omega, by omega, by simpa using hblock, by simpa using hmem, _,
      find_look s hfind, ?_⟩
    rw [if_pos hid, hput]
    rfl
  dsimp only
  split
  · exact .inl rfl
  · exact .inl rfl

theorem ioRead_again (h : Again s req) : (s.ioRead N req).waiting = waitAdd req s.waiting := by
  obtain ⟨r, hr, hpos⟩ := h.pos
  have h1 := h.size
  unfold ioRead readAt
  rw [if_neg (by omega), if_neg (by have := h.whole; omega), hr]
  dsimp only
  rw [hpos, Option.getD_some, if_pos rfl, h.block, h.mem]
  rfl

theorem wake_again (hv : v ∈ s.waiting) (h : Again s v) (fuel : Nat) : s.wake N fuel = none := by
  induction fuel generalizing s with
  | zero =>
    unfold wake
    split
    · rename_i hw
      rw [hw] at hv
      cases hv
    · rfl
  | succ fuel ih =>
    unfold wake
    split
    · rename_i hw
      rw [hw] at hv
      cases hv
    rename_i w rest hw
    rw [hw] at hv
    have h0 : Again { s with waiting := rest } v := h.other _ _
    refine ih ?_ (h0.read w)
    rcases mem_cons.mp hv with rfl | hv
    · rw [ioRead_again h0]
      exact mem_waitAdd.mpr (.inl rfl)
    rcases ioRead_waiting N { s with waiting := rest } w with he | ⟨he, -⟩
    · rw [he]
      exact hv
    · rw [he]
      exact mem_waitAdd.mpr (.inr hv)

theorem wake_never (h : s.wake N s.waiting.length = none) (fuel : Nat) : s.wake N fuel = none := by
  generalize hn : s.waiting.length = n at h
  induction n generalizing s fuel with
  | zero =>
    rw [length_eq_zero_iff] at hn
    simp [wake, hn] at h
  | succ n ih =>
    obtain ⟨w, rest, hw⟩ := exists_cons_of_length_eq_add_one hn
    have hlen : rest.length = n := by
      rw [hw] at hn
      exact Nat.succ.inj hn
    cases fuel with
    | zero => simp [wake, hw]
    | succ fuel =>
      unfold wake at h ⊢
      rw [hw] at h ⊢
      rcases ioRead_waiting N { s with waiting := rest } w with he | ⟨he, ha⟩
      · exact ih fuel (by rw [he]; exact hlen) h
      · exact wake_again (he ▸ mem_waitAdd.mpr (.inl rfl)) ha fuel

/-! ### The smallest ring -/

def newSlog : SlogSt := ⟨fun _ => 0, 0, 0, 0, [], [], [], [], 0⟩

theorem newSlog_start : newSlog.Start := ⟨rfl, rfl, rfl, rfl, rfl, rfl, rfl⟩

instance (s : SlogSt) (o : SlogOp) : Decidable (s.Served o) :=
  match o with
  | .ocbCalloc _ => inferInstanceAs (Decidable (∀ r ∈ _, _))
  | .ocbFree _ => inferInstanceAs (Decidable True)
  | .read _ => inferInstanceAs (Decidable True)
  | .write _ _ _ _ => inferInstanceAs (Decidable True)
  | .unblock _ => inferInstanceAs (Decidable True)

instance (N : Nat) (s : SlogSt) (o : SlogOp) : Decidable (s.Clear N o) :=
  match o with
  | .ocbCalloc _ => inferInstanceAs (Decidable True)
  | .ocbFree _ => inferInstanceAs (Decidable True)
  | .read _ => inferInstanceAs (Decidable True)
  | .write _ _ _ _ => inferInstanceAs (Decidable (∀ j ≤ _, _ → ∀ r ∈ _, ∀ i ≤ j, _ ≠ _))
  | .unblock _ => inferInstanceAs (Decidable True)

def poll (n : Nat) : SlogOp := .read ⟨1, 1, 10, 4 * n, true, true⟩

instance neZero_msecs : NeZero 1000 := ⟨by decide⟩

def event (n : Nat) : SlogOp := .write 2 (replicate n 7) 5 100

theorem Follows.last (looks : List Look) (h : Follows w (looks ++ [l]) b) :
    ∃ b' m, Follows w looks b' ∧ l.Shows w (max b' l.lost) m ∧ b = max b' l.lost + m := by
  generalize hl : looks ++ [l] = ls at h
  cases h with
  | nil => simp at hl
  | snoc h hs =>
    obtain ⟨rfl, he⟩ := append_inj' hl rfl
    cases he
    exact ⟨_, _, h, hs, rfl⟩

theorem start_eq_sum (w : List (List Word)) (i : Nat) :
    start w i = ((w.map length).take i).sum := by
  unfold start
  rw [length_flatten, map_take]

theorem Look.Shows.length (h : l.Shows w a m) : start w a + l.ints.length = start w (a + m) := by
  rw [h.ints, start_add]

/-- Reader 1 has seen nothing when four events fill the ring; the first is taken out, and the reader
is told that there are no events though three are left. -/
theorem slog_hides_events : ∃ s, Reach SlogSt.Start SlogSt.Served (step 1024) s ∧
    ∃ r ∈ s.readers, s.lost = 1 ∧ s.written.length = 4 ∧
      r.looks = [⟨0, 0, 600, []⟩, ⟨1, 4, 600, []⟩] ∧ ∀ b, ¬Follows s.written r.looks b := by
  refine exists_reach newSlog_start
    [.ocbCalloc 1, poll 600, event 256, event 256, event 256, event 256, poll 600]
    (by decide +kernel) fun s hr (hq : s.lost = 1 ∧ s.written.map length = [256, 256, 256, 256] ∧
      s.readers = [⟨1, some 0, [⟨0, 0, 600, []⟩, ⟨1, 4, 600, []⟩]⟩]) => ?_
  obtain ⟨hlost, hlen, hrs⟩ := hq
  refine ⟨_, hrs ▸ mem_singleton_self _, hlost, ?_, rfl, fun b hf => ?_⟩
  · rw [← length_map length, hlen]
    rfl
  · have hstart : ∀ i, start s.written i = (([256, 256, 256, 256] : List Nat).take i).sum :=
      fun i => by rw [start_eq_sum, hlen]
    obtain ⟨b1, m, hf1, h2, -⟩ := Follows.last [⟨0, 0, 600, []⟩] hf
    obtain ⟨b0, m0, hf0, h1, rfl⟩ := Follows.last [] hf1
    cases hf0.eq_zero
    -- the second look must begin with the second event
    obtain rfl : m0 = 0 := by
      have := h1.stop
      dsimp only at this
      omega
    have hlen2 := h2.length
    have hstop := h2.stop
    have hmost := h2.most
    dsimp only at hstop hmost
    rw [hstart, hstart] at hlen2 hmost
    have hno : ∀ m ≤ 3, 256 = (([256, 256, 256, 256] : List Nat).take (1 + m)).sum →
        ¬(1 + m = 4 ∨ 600 ≤ (([256, 256, 256, 256] : List Nat).take (1 + m + 1)).sum - 256) := by
      decide
    exact hno m (by omega) hlen2 hmost

/-- A reader is shown the first of six events, and later the four that are left. -/
theorem slog_readers_poll : ∃ s, Reach SlogSt.Start (fun s o => s.Served o ∧ s.Clear 1024 o)
    (step 1024) s ∧ s.written.length = 6 ∧ s.lost = 2 ∧ s.put < s.get ∧
    ∃ r ∈ s.readers, r.looks.map (fun l => l.ints.length) = [250, 500, 500] ∧
      ∃ b, Follows s.written r.looks b := by
  refine exists_reach newSlog_start [.ocbCalloc 1, event 250, poll 300, event 250, event 250,
      event 250, event 250, event 250, poll 600, poll 600]
    (by decide +kernel) fun s hr (hq : s.written.length = 6 ∧ s.lost = 2 ∧ s.put < s.get ∧
        ∃ r ∈ s.readers, r.looks.map (fun l => l.ints.length) = [250, 500, 500]) => ?_
  obtain ⟨hw, hlost, hput, r, hmem, hl⟩ := hq
  obtain ⟨b, hb, -⟩ := ((slog_readers (by decide) hr).2 r hmem).2
  exact ⟨hw, hlost, hput, r, hmem, hl, b, hb⟩

end Qnx.Slogger
