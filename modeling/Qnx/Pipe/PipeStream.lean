import Mathlib.Data.List.Nodup
import Qnx.Pipe.PipeBlocked

/-!
# The byte stream of a pipe

What readers are sent, followed by what is in the buffer, is what was copied in, chunk by chunk; the
chunks of a write request are its bytes in order, and a write of at most `AtomicSize` bytes is one
chunk. A transfer that fails changes none of this.
-/

namespace Qnx.Pipe

open Qnx.Ring Run List Prod
open PipeSt (writeToPipe copyIn unblocked)

variable {α : Type}

def bytesOf : Event α → List α
  | .data _ _ bytes => bytes
  | .reply _ _ bytes => bytes
  | .error _ _ => []
  | .sigpipe _ => []

namespace PipeSt

def delivered (p : PipeSt α) : List α := p.events.flatMap bytesOf

def copied (p : PipeSt α) : List α := p.log.flatMap snd

def contents (cfg : Config) (p : PipeSt α) : List α :=
  window cfg.bufferSize p.buffer p.rd p.nbytes

def chunks (p : PipeSt α) (tag : Nat) : List (List α) :=
  (p.log.filter fun c => c.1 = tag).map snd

end PipeSt

structure Flow (cfg : Config) (p : PipeSt α) : Prop where
  rd : p.rd < cfg.bufferSize
  bound : p.nbytes ≤ cfg.bufferSize
  wr : (p.rd + p.nbytes) % cfg.bufferSize = p.wr
  stream : p.delivered ++ p.contents cfg = p.copied

def Whole (cfg : Config) (p : PipeSt α) (w : Nat × List α) : Prop :=
  (p.chunks w.1).flatten <+: w.2 ∧
    (w.2.length ≤ cfg.atomicSize → p.chunks w.1 = [] ∨ p.chunks w.1 = [w.2])

structure Requests (cfg : Config) (p : PipeSt α) : Prop where
  tags : (p.writes.map fst).Nodup
  known : ∀ c ∈ p.log, c.1 ∈ p.writes.map fst
  whole : ∀ w ∈ p.writes, Whole cfg p w

structure Cursor (cfg : Config) (p : PipeSt α) (tag : Nat) (data : List α) (k : Nat) : Prop where
  known : (tag, data) ∈ p.writes
  le : k ≤ data.length
  done : (p.chunks tag).flatten = data.take k
  atomic : data.length ≤ cfg.atomicSize → k = 0 → p.chunks tag = []

structure Pending (cfg : Config) (p : PipeSt α) (b : Blocked α) : Prop where
  cursor : Cursor cfg p b.tag b.data b.offset
  size : b.size = b.data.length
  left : b.offset + b.nbytes = b.size
  atomic : b.size ≤ cfg.atomicSize → b.offset = 0

/-- The pipe while the writers in `l` are blocked. -/
structure Stream (cfg : Config) (p : PipeSt α) (l : List (Blocked α)) : Prop where
  flow : Flow cfg p
  requests : Requests cfg p
  pending : ∀ b ∈ l, Pending cfg p b
  distinct : (l.map Blocked.tag).Nodup

variable {cfg : Config} {p p' : PipeSt α} {b : Blocked α} {tag : Nat} {data : List α} {k n : Nat}
  {l : List (Blocked α)}

/-! ### Reading -/

theorem Flow.emit (h : Flow cfg p) (e : Event α) (he : bytesOf e = []) : Flow cfg (p.emit e) where
  rd := h.rd
  bound := h.bound
  wr := h.wr
  stream := by
    have : (p.emit e).delivered = p.delivered := by
      simp [PipeSt.delivered, PipeSt.emit, he]
    rw [this]
    exact h.stream

theorem Flow.read (h : Flow cfg p) (rcvid n offset : Nat) :
    Flow cfg (p.sendOut cfg rcvid n offset) := by
  have hb := h.bound
  have hrd := h.rd
  have hav : min p.nbytes n ≤ p.nbytes := Nat.min_le_left _ _
  refine ⟨Nat.mod_lt _ (by omega), ?_, ?_, ?_⟩
  · exact Nat.le_trans (Nat.sub_le _ _) hb
  · have hsum : p.rd + min p.nbytes n + (p.nbytes - min p.nbytes n) = p.rd + p.nbytes := by omega
    exact (Nat.mod_add_mod _ _ _).trans ((congrArg (· % cfg.bufferSize) hsum).trans h.wr)
  · have hd : (p.sendOut cfg rcvid n offset).delivered =
        p.delivered ++ fetch cfg.bufferSize p.buffer p.rd (min p.nbytes n) := by
      simp only [PipeSt.delivered, PipeSt.sendOut, PipeSt.emit]
      split <;> simp [bytesOf]
    have hc : (p.sendOut cfg rcvid n offset).contents cfg =
        (p.contents cfg).drop (min p.nbytes n) := (window_drop hav).symm
    have htake : fetch cfg.bufferSize p.buffer p.rd (min p.nbytes n) =
        (p.contents cfg).take (min p.nbytes n) := by
      rw [fetch_eq_window hrd (Nat.le_trans hav hb)]
      exact (window_take hav).symm
    rw [hd, hc, htake, append_assoc, take_append_drop]
    exact h.stream

theorem Requests.congr (h : Requests cfg p) (hl : p'.log = p.log) (hw : p'.writes = p.writes) :
    Requests cfg p' := by
  obtain ⟨h1, h2, h3⟩ := h
  refine ⟨hw ▸ h1, hw ▸ hl ▸ h2, fun w hm => ?_⟩
  have := h3 w (hw ▸ hm)
  unfold Whole PipeSt.chunks
  rwa [hl]

theorem Cursor.congr (h : Cursor cfg p tag data k) (hl : p'.log = p.log)
    (hw : p'.writes = p.writes) : Cursor cfg p' tag data k := by
  have hc : p'.chunks tag = p.chunks tag := by
    unfold PipeSt.chunks
    rw [hl]
  exact ⟨hw ▸ h.known, h.le, hc ▸ h.done, hc ▸ h.atomic⟩

theorem Pending.congr (h : Pending cfg p b) (hl : p'.log = p.log) (hw : p'.writes = p.writes) :
    Pending cfg p' b := ⟨h.cursor.congr hl hw, h.size, h.left, h.atomic⟩

theorem Stream.congr (h : Stream cfg p l) (hf : Flow cfg p') (hl : p'.log = p.log)
    (hw : p'.writes = p.writes) : Stream cfg p' l :=
  ⟨hf, h.requests.congr hl hw, fun b hb => (h.pending b hb).congr hl hw, h.distinct⟩

/-! ### One chunk of a write -/

theorem chunks_write (t room off : Nat) :
    (p.copyIn cfg tag data room off).chunks t = p.chunks t ++
      if tag = t then [(data.drop off).take (min (cfg.bufferSize - p.nbytes) room)] else [] := by
  unfold PipeSt.chunks copyIn
  split <;> rename_i h <;> simp_all

section
variable (hrd : p.rd < cfg.bufferSize) (hb : p.nbytes ≤ cfg.bufferSize)
  (hwr : (p.rd + p.nbytes) % cfg.bufferSize = p.wr)
include hrd hb hwr

theorem contents_write (hn : min (cfg.bufferSize - p.nbytes) n ≤ data.length - k) :
    (p.copyIn cfg tag data n k).contents cfg =
      p.contents cfg ++ (data.drop k).take (min (cfg.bufferSize - p.nbytes) n) := by
  have hlen : ((data.drop k).take (min (cfg.bufferSize - p.nbytes) n)).length =
      min (cfg.bufferSize - p.nbytes) n := by rw [length_take, length_drop, Nat.min_eq_left hn]
  have := @window_put _ _ _ _ p.buffer _ hrd (Nat.add_le_of_le_sub' hb (hlen ▸ Nat.min_le_left _ _))
  rwa [hlen, hwr] at this

/-- Of a write request `n` bytes are announced from `k` on. The cells for bytes that its message
`data` does not have become readable as they were. -/
theorem write_to_pipe_iff (hok : p.transfer.1 = none) :
    (p.writeToPipe cfg tag data n k).2.contents cfg =
      p.contents cfg ++ (data.drop k).take (min (cfg.bufferSize - p.nbytes) n) ↔
    min (cfg.bufferSize - p.nbytes) n ≤ data.length - k := by
  obtain ⟨a, r, ht⟩ := transfer_eq p
  obtain rfl : a = none := by rwa [ht] at hok
  rw [writeToPipe, ht]
  refine ⟨fun h => ?_, fun hle => contents_write (p := p.left r) hrd hb hwr hle⟩
  have hlen := congrArg length h
  rw [length_append, PipeSt.contents, PipeSt.contents, window_length, window_length, length_take,
    length_drop] at hlen
  dsimp only [copyIn] at hlen
  omega

end

theorem write_to_pipe_iff_whole : ((⟨fun _ => 7, 0, 0, 0, [], [], [], [], [], [], []⟩ : PipeSt Nat)
    |>.writeToPipe small 1 [1, 2] 2 0).2.contents small = [1, 2] :=
  (write_to_pipe_iff (by decide) (by decide) rfl rfl).mpr (by decide)

/-- A client that announces two bytes and sends one makes the 7 readable that was there. -/
theorem old_byte_readable : ((⟨fun _ => 7, 0, 0, 0, [], [], [], [], [], [], []⟩ : PipeSt Nat)
    |>.writeToPipe small 1 [1] 2 0).2.contents small = [1, 7] := by
  decide

theorem Flow.write (h : Flow cfg p) (hn : k + n ≤ data.length) :
    Flow cfg (p.copyIn cfg tag data n k) := by
  have hb := h.bound
  refine ⟨h.rd, ?_, ?_, ?_⟩
  · dsimp only [copyIn]
    omega
  · dsimp only [copyIn]
    rw [← h.wr, Nat.mod_add_mod, Nat.add_assoc]
  · have hl : (p.copyIn cfg tag data n k).copied =
        p.copied ++ (data.drop k).take (min (cfg.bufferSize - p.nbytes) n) := by
      simp [PipeSt.copied, copyIn]
    rw [hl, ← h.stream, append_assoc, contents_write h.rd hb h.wr (by omega)]
    rfl

theorem Cursor.write (hc : Cursor cfg p tag data k) (hn : k + n ≤ data.length)
    (hpos : 0 < min (cfg.bufferSize - p.nbytes) n) :
    Cursor cfg (p.copyIn cfg tag data n k) tag data
      (k + min (cfg.bufferSize - p.nbytes) n) where
  known := hc.known
  le := by omega
  done := by
    rw [chunks_write, if_pos rfl, flatten_append, hc.done, flatten_singleton]
    exact (take_add).symm
  atomic := fun _ h0 => by omega

theorem Cursor.write_other {t : Nat} {d : List α} {i : Nat} (hc : Cursor cfg p t d i)
    (ht : tag ≠ t) : Cursor cfg (p.copyIn cfg tag data n k) t d i := by
  have he : (p.copyIn cfg tag data n k).chunks t = p.chunks t := by
    rw [chunks_write, if_neg ht, append_nil]
  exact ⟨hc.known, hc.le, he ▸ hc.done, he ▸ hc.atomic⟩

theorem Requests.write (h : Requests cfg p) (hc : Cursor cfg p tag data k)
    (hn : k + n ≤ data.length)
    (hat : data.length ≤ cfg.atomicSize → k = 0 ∧ data.length ≤ min (cfg.bufferSize - p.nbytes) n) :
    Requests cfg (p.copyIn cfg tag data n k) := by
  have hkey : tag ∈ p.writes.map fst := mem_map.mpr ⟨_, hc.known, rfl⟩
  refine ⟨h.tags, fun c hm => ?_, fun w hw => ?_⟩
  · rcases mem_append.mp hm with hm | hm
    · exact h.known c hm
    · cases mem_singleton.mp hm
      exact hkey
  · unfold Whole
    rw [chunks_write]
    split
    · rename_i ht
      -- the tag names the request
      obtain rfl : w = (tag, data) := inj_on_of_nodup_map h.tags hw hc.known ht.symm
      rw [flatten_append, hc.done, flatten_singleton, ← take_add]
      refine ⟨ take_prefix _ _, fun hle => .inr ?_⟩
      obtain ⟨rfl, hfit⟩ := hat hle
      rw [hc.atomic hle rfl, drop_zero, take_of_length_le hfit]
      rfl
    · rw [append_nil]
      exact h.whole w hw

/-! ### Blocked clients -/

section

variable (h : Stream cfg p l)
include h

theorem Stream.emit (e : Event α) (he : bytesOf e = []) :
    Stream cfg (p.emit e) l := h.congr (h.flow.emit e he) rfl rfl

theorem Stream.read (rcvid n offset : Nat) :
    Stream cfg (p.sendOut cfg rcvid n offset) l := h.congr (h.flow.read _ _ _) rfl rfl

theorem Stream.answers (r : List (Option Errno)) : Stream cfg (p.left r) l :=
  h.congr ⟨h.flow.rd, h.flow.bound, h.flow.wr, h.flow.stream⟩ rfl rfl

theorem Stream.lists (i o : List (Blocked α)) : Stream cfg { p with input := i, output := o } l :=
  h.congr ⟨h.flow.rd, h.flow.bound, h.flow.wr, h.flow.stream⟩ rfl rfl

theorem Stream.sublist {l' : List (Blocked α)} (hl : l'.Sublist l) : Stream cfg p l' :=
  ⟨h.flow, h.requests, fun b hb => h.pending b (hl.subset hb),
    h.distinct.sublist (hl.map Blocked.tag)⟩

end

theorem checkReaders_stream (i : List (Blocked α)) (h : Stream cfg p l) :
    let q := p.checkReaders cfg i
    Stream cfg q l ∧ q.log = p.log ∧ q.writes = p.writes ∧ q.output = p.output := by
  induction i generalizing p with
  | nil => exact ⟨h.lists _ _, rfl, rfl, rfl⟩
  | cons b rest ih =>
    unfold PipeSt.checkReaders
    split
    · exact ⟨h.lists _ _, rfl, rfl, rfl⟩
    obtain ⟨r, ⟨e, he⟩ | he⟩ := readFromPipe_cases p cfg b.rcvid b.size 0
    · rw [he]
      exact ih ((h.answers r).emit _ rfl)
    rw [he]
    dsimp only
    split
    · exact ih (((h.answers r).read _ _ _).emit _ rfl)
    · exact ih ((h.answers r).read _ _ _)

theorem Stream.write {rest : List (Blocked α)} (h : Stream cfg p rest)
    (hc : Cursor cfg p tag data k) (ht : tag ∉ rest.map Blocked.tag) (hn : k + n ≤ data.length)
    (hat : data.length ≤ cfg.atomicSize → k = 0 ∧ data.length ≤ min (cfg.bufferSize - p.nbytes) n) :
    Stream cfg (p.copyIn cfg tag data n k) rest := by
  refine ⟨h.flow.write hn, h.requests.write hc hn hat, fun b hb => ?_, h.distinct⟩
  have hne : tag ≠ b.tag := fun he => ht (he ▸ mem_map_of_mem hb)
  have hp := h.pending b hb
  exact ⟨hp.cursor.write_other hne, hp.size, hp.left, hp.atomic⟩

theorem writeFailed_bytes (b : Blocked α) (e : Errno) : bytesOf (PipeSt.writeFailed b e) = [] := by
  unfold PipeSt.writeFailed
  split <;> rfl

theorem checkWriters_stream (h : Stream cfg p l) :
    let r := p.checkWriters cfg l
    Stream cfg r.2 r.1 ∧ (r.1.map Blocked.tag).Sublist (l.map Blocked.tag) ∧
      r.2.writes = p.writes ∧
      ∀ t d i, t ∉ l.map Blocked.tag → Cursor cfg p t d i → Cursor cfg r.2 t d i := by
  induction l generalizing p with
  | nil => exact ⟨h, .refl _, rfl, fun _ _ _ _ hc => hc⟩
  | cons b rest ih =>
    have hb := h.pending b mem_cons_self
    have hsize := hb.size
    have hleft := hb.left
    obtain ⟨hnot, -⟩ := nodup_cons.mp h.distinct
    have hrest : Stream cfg p rest := h.sublist (sublist_cons_self _ _)
    simp only [PipeSt.checkWriters]
    split
    · exact ⟨h, .refl _, rfl, fun _ _ _ _ hc => hc⟩
    split
    · obtain ⟨r, ⟨e, he⟩ | he⟩ := writeToPipe_cases p cfg b.tag b.data b.nbytes b.offset
      · rw [he]
        obtain ⟨hs, hsub, hw, hframe⟩ := ih ((hrest.answers r).emit _ (writeFailed_bytes b e))
        refine ⟨hs, hsub.cons _, hw, fun t d i ht hc => ?_⟩
        exact hframe t d i (fun hm => ht (mem_cons_of_mem _ hm)) (hc.congr rfl rfl)
      rw [he]
      have hbr : Cursor cfg (p.left r) b.tag b.data b.offset := hb.cursor.congr rfl rfl
      have h1 := (hrest.answers r).write hbr hnot (n := b.nbytes) (by omega) fun hle =>
        have h0 := hb.atomic (hsize ▸ hle)
        ⟨h0, by dsimp only; omega⟩
      dsimp only
      split
      · obtain ⟨hs, hsub, hw, hframe⟩ := ih (h1.emit (.reply b.rcvid b.size []) rfl)
        refine ⟨hs, hsub.cons _, hw, fun t d i ht hc => ?_⟩
        obtain ⟨hne, ht⟩ := not_or.mp (mt mem_cons.mpr ht)
        have hc' : Cursor cfg (p.left r) t d i := hc.congr rfl rfl
        exact hframe t d i ht ((hc'.write_other (Ne.symm hne)).congr rfl rfl)
      have hcur := hbr.write (n := b.nbytes) (by omega) (by dsimp only; omega)
      obtain ⟨hs, hsub, hw, hframe⟩ := ih h1
      refine ⟨⟨hs.flow, hs.requests, forall_mem_cons.mpr ⟨?_, hs.pending⟩, ?_⟩,
        hsub.cons_cons _, hw, fun t d i ht hc => ?_⟩
      · refine ⟨hframe _ _ _ hnot hcur, hsize, ?_, fun hle => ?_⟩
        · dsimp only
          omega
        · -- a small write was not left half done
          dsimp only at hle
          omega
      · exact nodup_cons.mpr ⟨fun hm => hnot (hsub.subset hm), hs.distinct⟩
      · obtain ⟨hne, ht⟩ := not_or.mp (mt mem_cons.mpr ht)
        have hc' : Cursor cfg (p.left r) t d i := hc.congr rfl rfl
        exact hframe t d i ht (hc'.write_other (Ne.symm hne))
    · obtain ⟨hs, hsub, hw, hframe⟩ := ih hrest
      refine ⟨⟨hs.flow, hs.requests, forall_mem_cons.mpr ⟨?_, hs.pending⟩, ?_⟩,
        hsub.cons_cons _, hw, fun t d i ht => hframe t d i fun hm => ht (mem_cons_of_mem _ hm)⟩
      · exact ⟨hframe _ _ _ hnot hb.cursor, hsize, hleft, hb.atomic⟩
      · exact nodup_cons.mpr ⟨fun hm => hnot (hsub.subset hm), hs.distinct⟩

/-! ### Requests -/

theorem readLoop_stream (rcvid n fuel count : Nat) (chunk : Except Errno Nat)
    (h : Stream cfg p p.output) :
    Stream cfg (p.readLoop cfg rcvid n fuel count chunk).2.2
      (p.readLoop cfg rcvid n fuel count chunk).2.2.output := by
  induction fuel generalizing p count chunk with
  | zero => exact h
  | succ fuel ih =>
    unfold PipeSt.readLoop
    split
    · obtain ⟨r, ⟨e, he⟩ | he⟩ := readFromPipe_cases p cfg rcvid (n - count) count
      · rw [he]
        exact h.answers r
      · rw [he]
        exact ih _ _ ((checkWriters_stream ((h.answers r).read _ _ _)).1.lists _ _)
    · exact h

theorem Stream.readRequest (h : Stream cfg p p.output) (c : PipeSt.Client) (n : Nat) (mem : Bool) :
    Stream cfg (p.read cfg c n mem) (p.read cfg c n mem).output := by
  unfold PipeSt.read
  split
  · exact h.emit _ rfl
  have hl := readLoop_stream c.rcvid n n 0 (.ok 0) h
  generalize p.readLoop cfg c.rcvid n n 0 (.ok 0) = r at hl
  obtain ⟨count, e | chunk, q⟩ := r
  · exact hl.emit _ (by split <;> rfl)
  dsimp only
  repeat' split
  · exact hl.emit _ rfl
  · exact hl.emit _ rfl
  · exact hl.emit _ rfl
  · exact hl.lists _ _
  · exact hl
  · exact hl.emit _ rfl

structure Writing (cfg : Config) (p : PipeSt α) (tag : Nat) (data : List α) (k : Nat) : Prop where
  stream : Stream cfg p p.output
  cursor : Cursor cfg p tag data k
  fresh : tag ∉ p.output.map Blocked.tag

section

variable (h : Writing cfg p tag data k)
include h

theorem Writing.run : Writing cfg (p.runReaders cfg) tag data k := by
  obtain ⟨hs, hl, hw, ho⟩ := checkReaders_stream p.input h.stream
  exact ⟨by unfold PipeSt.runReaders; rwa [ho], h.cursor.congr hl hw,
    by unfold PipeSt.runReaders; rw [ho]; exact h.fresh⟩

theorem Writing.write (hn : k + n ≤ data.length) (hpos : 0 < min (cfg.bufferSize - p.nbytes) n)
    (hat : data.length ≤ cfg.atomicSize → k = 0 ∧ data.length ≤ min (cfg.bufferSize - p.nbytes) n) :
    Writing cfg (p.copyIn cfg tag data n k) tag data
      (k + min (cfg.bufferSize - p.nbytes) n) :=
  ⟨h.stream.write h.cursor h.fresh hn hat, h.cursor.write hn hpos, h.fresh⟩

theorem Writing.block (c : PipeSt.Client) (hat : data.length ≤ cfg.atomicSize → k = 0) :
    Stream cfg p (p.output ++
      [⟨c.rcvid, c.scoid, c.coid, k, data.length, data.length - k, tag, data⟩]) := by
  refine ⟨h.stream.flow, h.stream.requests, fun b hb => ?_, ?_⟩
  · rcases mem_append.mp hb with hb | hb
    · exact h.stream.pending b hb
    · cases mem_singleton.mp hb
      exact ⟨h.cursor, rfl, Nat.add_sub_cancel' h.cursor.le, hat⟩
  · rw [map_append, map_singleton, ← concat_eq_append]
    exact h.stream.distinct.concat h.fresh

end

theorem Writing.answers (h : Writing cfg p tag data k) (r : List (Option Errno)) :
    Writing cfg (p.left r) tag data k :=
  ⟨h.stream.answers r, h.cursor.congr rfl rfl, h.fresh⟩

theorem writeLoop_stream (fuel : Nat) (chunk : Except Errno Nat)
    (hbig : cfg.atomicSize < data.length) (h : Writing cfg p tag data k) :
    Writing cfg (p.writeLoop cfg tag data fuel k chunk).2.2 tag data
      (p.writeLoop cfg tag data fuel k chunk).1 := by
  induction fuel generalizing p k chunk with
  | zero => exact h
  | succ fuel ih =>
    unfold PipeSt.writeLoop
    split
    · have hb := h.stream.flow.bound
      obtain ⟨r, ⟨e, he⟩ | he⟩ := writeToPipe_cases p cfg tag data (data.length - k) k
      · rw [he]
        exact h.answers r
      · rw [he]
        exact ih _ ((h.answers r).write (by omega) (by dsimp only; omega) fun hle => by omega).run
    · exact h

theorem writeNow_stream (h : Writing cfg p tag data 0) (h0 : data.length ≠ 0) :
    let r := p.writeNow cfg tag data
    Writing cfg r.2.2 tag data r.1 ∧
      (data.length ≤ cfg.atomicSize → r.1 = 0 ∨ r.1 = data.length) := by
  unfold PipeSt.writeNow
  split
  · rename_i hbig
    exact ⟨writeLoop_stream _ _ hbig h, fun hle => by omega⟩
  split
  · obtain ⟨r, ⟨e, he⟩ | he⟩ := writeToPipe_cases p cfg tag data data.length 0
    · rw [he]
      exact ⟨h.answers r, fun _ => .inl rfl⟩
    rw [he]
    have hw := (h.answers r).write (n := data.length) (by omega) (by dsimp only; omega)
      fun _ => ⟨rfl, by dsimp only; omega⟩
    rw [Nat.zero_add] at hw
    exact ⟨hw.run, fun _ => .inr (by dsimp only; omega)⟩
  · exact ⟨h, fun _ => .inl rfl⟩

theorem chunks_of_unknown (h : Requests cfg p) (ht : tag ∉ p.writes.map fst) :
    p.chunks tag = [] := by
  unfold PipeSt.chunks
  rw [filter_eq_nil_iff.mpr, map_nil]
  intro c hc he
  exact ht (of_decide_eq_true he ▸ h.known c hc)

theorem Stream.accept (h : Stream cfg p p.output) (ht : tag ∉ p.writes.map fst) (data : List α) :
    Writing cfg { p with writes := p.writes ++ [(tag, data)] } tag data 0 := by
  have h0 : p.chunks tag = [] := chunks_of_unknown h.requests ht
  have hcur : Cursor cfg { p with writes := p.writes ++ [(tag, data)] } tag data 0 :=
    ⟨mem_append_right _ (mem_singleton_self _), Nat.zero_le _, by
      exact congrArg flatten h0, fun _ _ => h0⟩
  have hold : ∀ w ∈ p.writes, w ∈ p.writes ++ [(tag, data)] := fun w hw => mem_append_left _ hw
  refine ⟨⟨⟨h.flow.rd, h.flow.bound, h.flow.wr, h.flow.stream⟩, ⟨?_, fun c hc => ?_, fun w hw => ?_⟩,
    fun b hb => ?_, h.distinct⟩, hcur, fun hm => ?_⟩
  · rw [map_append, map_singleton, ← concat_eq_append]
    exact h.requests.tags.concat ht
  · obtain ⟨w, hw, he⟩ := mem_map.mp (h.requests.known c hc)
    exact mem_map.mpr ⟨w, hold w hw, he⟩
  · rcases mem_append.mp hw with hw | hw
    · exact h.requests.whole w hw
    cases mem_singleton.mp hw
    refine ⟨?_, fun _ => .inl h0⟩
    have hnil : (PipeSt.chunks { p with writes := p.writes ++ [(tag, data)] } tag).flatten = [] :=
      congrArg flatten h0
    rw [hnil]
    exact nil_prefix
  · have hp := h.pending b hb
    exact ⟨⟨hold _ hp.cursor.known, hp.cursor.le, hp.cursor.done, hp.cursor.atomic⟩, hp.size, hp.left,
      hp.atomic⟩
  · obtain ⟨b, hb, he⟩ := mem_map.mp hm
    exact ht (mem_map.mpr ⟨_, (h.pending b hb).cursor.known, he⟩)

theorem Stream.writeRequest (h : Stream cfg p p.output) (c : PipeSt.Client)
    (ht : tag ∉ p.writes.map fst) (data : List α) (mem : Bool) :
    Stream cfg (p.write cfg c tag data mem) (p.write cfg c tag data mem).output := by
  have hw := h.accept ht data
  unfold PipeSt.write
  dsimp only
  split
  · exact (hw.stream.emit _ rfl).emit _ rfl
  split
  · exact hw.stream.emit _ rfl
  rename_i h0
  obtain ⟨hn, hat⟩ := writeNow_stream hw h0
  generalize PipeSt.writeNow cfg _ tag data = r at hn hat
  obtain ⟨count, e | chunk, q⟩ := r
  · exact hn.stream.emit _ (by split <;> rfl)
  dsimp only
  split
  · exact hn.stream.emit _ rfl
  split
  · rename_i hshort
    split
    · exact hn.stream.emit _ rfl
    · exact (hn.block c fun hle => (hat hle).resolve_right hshort.1).lists _ _
  · exact hn.stream.emit _ rfl

/-! ### Unblocked clients and closed descriptors -/

section Unblock

variable {sel : Blocked α → Bool} {answer : Blocked α → List (Event α)}
  (ha : ∀ b, (answer b).flatMap bytesOf = [])
include ha

theorem delivered_unblocked (l : List (Event α)) (i : List (Blocked α)) :
    (l ++ unblocked sel answer i).flatMap bytesOf = l.flatMap bytesOf := by
  unfold unblocked
  rw [flatMap_append, flatMap_assoc, flatMap_eq_nil_iff.mpr fun b _ => ha b, append_nil]

theorem Flow.unblocked (h : Flow cfg p) (i o l : List (Blocked α)) :
    Flow cfg { p with input := i, output := o,
                      events := p.events ++ unblocked sel answer l } where
  rd := h.rd
  bound := h.bound
  wr := h.wr
  stream := (congrArg (· ++ _) (delivered_unblocked ha _ _)).trans h.stream

theorem Stream.unblockInput (h : Stream cfg p p.output) :
    Stream cfg (p.unblockInput sel answer) (p.unblockInput sel answer).output :=
  h.congr (h.flow.unblocked ha _ _ _) rfl rfl

theorem Stream.unblockOutput (h : Stream cfg p p.output) :
    Stream cfg (p.unblockOutput sel answer) (p.unblockOutput sel answer).output :=
  (h.congr (h.flow.unblocked ha _ _ _) rfl rfl).sublist filter_sublist

end Unblock

theorem failed_bytes (e : Errno) (b : Blocked α) : (PipeSt.failed e b).flatMap bytesOf = [] := rfl

theorem interrupted_bytes (b : Blocked α) : (PipeSt.interrupted b).flatMap bytesOf = [] := by
  unfold PipeSt.interrupted
  split <;> rfl

structure Ended (cfg : Config) (p : PipeSt α) : Prop where
  closed : p.ocbs = []
  sent : p.delivered <+: p.copied
  requests : Requests cfg p
  rd : p.rd = 0
  wr : p.wr = 0
  nbytes : p.nbytes = 0

theorem Ended.unblocked {sel : Blocked α → Bool} {answer : Blocked α → List (Event α)}
    (h : Ended cfg p) (ha : ∀ b, (answer b).flatMap bytesOf = []) (i o l : List (Blocked α)) :
    Ended cfg { p with input := i, output := o,
                       events := p.events ++ unblocked sel answer l } where
  closed := h.closed
  sent := by
    unfold PipeSt.delivered
    rw [delivered_unblocked ha]
    exact h.sent
  requests := h.requests.congr rfl rfl
  rd := h.rd
  wr := h.wr
  nbytes := h.nbytes

theorem Stream.sent (h : Stream cfg p l) : p.delivered <+: p.copied := ⟨_, h.flow.stream⟩

def Streaming (cfg : Config) (p : PipeSt α) : Prop := Stream cfg p p.output ∨ Ended cfg p

theorem Stream.drained (h : Stream cfg p p.output) :
    Streaming cfg (if p.ocbs.length = 0 then { p with nbytes := 0, rd := 0, wr := 0 } else p) := by
  split
  · rename_i hlen
    exact .inr ⟨length_eq_zero_iff.mp hlen, h.sent, h.requests.congr rfl rfl, rfl, rfl, rfl⟩
  · exact .inl h

theorem Stream.closeocb (h : Stream cfg p p.output) (o : Ocb) : Streaming cfg (p.closeocb o) := by
  have h1 : Stream cfg { p with ocbs := p.ocbs.erase o } p.output :=
    h.congr ⟨h.flow.rd, h.flow.bound, h.flow.wr, h.flow.stream⟩ rfl rfl
  apply Stream.drained
  split
  · split
    · exact (Stream.unblockOutput (fun _ => rfl) h1).unblockInput fun _ => rfl
    · exact Stream.unblockOutput (fun _ => rfl) h1
  split
  · exact Stream.unblockInput (fun _ => rfl) h1
  · exact h1

theorem streaming_start (h : p.Start) : Streaming cfg p := by
  have hB := Nat.lt_of_lt_of_le cfg.atomic_pos cfg.atomic_le
  obtain ⟨buffer, rd, wr, nbytes, input, output, ocbs, events, log, writes, answers⟩ := p
  obtain ⟨rfl, rfl, rfl, rfl, rfl, rfl, rfl, rfl⟩ := h
  exact .inl ⟨⟨hB, Nat.zero_le _, Nat.zero_mod _, rfl⟩, ⟨nodup_nil, nofun, nofun⟩, nofun, nodup_nil⟩

theorem Ended.not_served (h : Ended cfg p) {o : PipeOp α} (hok : p.Served o) :
    (∃ r, o = .unblock r) ∨ ∃ i j, o = .closedup i j := by
  have hr : p.rcount = 0 := congrArg (countP Ocb.rd) h.closed
  have hw : p.wcount = 0 := congrArg (countP Ocb.wr) h.closed
  cases o with
  | read c n mem => exact absurd hr (Nat.ne_of_gt hok)
  | write c tag data mem => exact absurd hw (Nat.ne_of_gt hok.1)
  | unblock rcvid => exact .inl ⟨_, rfl⟩
  | closedup i j => exact .inr ⟨_, _, rfl⟩
  | closeocb o =>
    have hm : o ∈ p.ocbs := hok
    rw [h.closed] at hm
    cases hm

theorem streaming_step {o : PipeOp α} (h : Streaming cfg p) (hok : p.Served o)
    (hstep : p.step cfg o = some p') : Streaming cfg p' := by
  rcases h with h | h
  · cases o with
    | read c n mem =>
      cases hstep
      exact .inl (h.readRequest c n mem)
    | write c tag data mem =>
      cases hstep
      exact .inl (h.writeRequest c hok.2 data mem)
    | unblock rcvid =>
      cases hstep
      exact .inl ((h.unblockInput (failed_bytes _)).unblockOutput interrupted_bytes)
    | closedup scoid coid =>
      cases hstep
      exact .inl ((h.unblockInput (failed_bytes _)).unblockOutput (failed_bytes _))
    | closeocb o =>
      cases hstep
      exact h.closeocb o
  obtain ⟨r, rfl⟩ | ⟨i, j, rfl⟩ := h.not_served hok
  · cases hstep
    exact .inr ((h.unblocked (failed_bytes _) _ _ _).unblocked interrupted_bytes _ _ _)
  · cases hstep
    exact .inr ((h.unblocked (failed_bytes _) _ _ _).unblocked (failed_bytes _) _ _ _)

theorem reach_streaming (h : Reach PipeSt.Start PipeSt.Served (PipeSt.step cfg) p) :
    Streaming cfg p :=
  h.invariant (fun _ => streaming_start) fun _ _ _ => streaming_step

/-- What readers were sent is a prefix of what was copied in; that is the pieces of the writes, each
write's in order, and a write of at most `AtomicSize` bytes in one piece. -/
theorem pipe_stream {s : PipeSt α} (h : Reach PipeSt.Start PipeSt.Served (PipeSt.step cfg) s) :
    s.delivered <+: s.copied ∧
    (∀ c ∈ s.log, c.1 ∈ s.writes.map fst) ∧
    (∀ w ∈ s.writes, (s.chunks w.1).flatten <+: w.2 ∧
      (w.2.length ≤ cfg.atomicSize → s.chunks w.1 = [] ∨ s.chunks w.1 = [w.2])) ∧
    (s.rd + s.nbytes) % cfg.bufferSize = s.wr ∧ s.nbytes ≤ cfg.bufferSize := by
  rcases reach_streaming h with hs | hs
  · exact ⟨hs.sent, hs.requests.known, hs.requests.whole, hs.flow.wr, hs.flow.bound⟩
  refine ⟨hs.sent, hs.requests.known, hs.requests.whole, ?_, ?_⟩
  · rw [hs.rd, hs.nbytes, hs.wr, Nat.zero_mod]
  · rw [hs.nbytes]
    exact Nat.zero_le _

theorem pipe_stream_wrapped : ∃ s : PipeSt Nat,
    Reach PipeSt.Start PipeSt.Served (PipeSt.step small) s ∧
    s.delivered = [1, 2, 3, 4, 5, 6, 7, 8, 9] ∧ s.chunks 2 = [[7, 8, 9]] ∧
    s.delivered <+: s.copied ∧ s.nbytes ≤ small.bufferSize := by
  refine exists_reach newPipe_start
    [.write ⟨1, 1, 1, false⟩ 1 [1, 2, 3, 4, 5, 6] true, .write ⟨2, 2, 2, false⟩ 2 [7, 8, 9] true,
      .read ⟨3, 3, 3, false⟩ 4 true, .read ⟨3, 3, 3, false⟩ 5 true]
    (by decide +kernel) fun s hr
      (hq : s.delivered = [1, 2, 3, 4, 5, 6, 7, 8, 9] ∧ s.chunks 2 = [[7, 8, 9]]) => ?_
  obtain ⟨hd, hc⟩ := hq
  exact ⟨hd, hc, (pipe_stream hr).1, (pipe_stream hr).2.2.2.2⟩

/-- While a pipe is open no byte is lost; blocked writers go on where they stopped. -/
theorem pipe_conserves {s : PipeSt α} (ho : s.ocbs ≠ [])
    (h : Reach PipeSt.Start PipeSt.Served (PipeSt.step cfg) s) :
    s.delivered ++ s.contents cfg = s.copied ∧ ∀ b ∈ s.output,
      (s.chunks b.tag).flatten = b.data.take b.offset ∧ b.offset + b.nbytes = b.data.length := by
  have hs := (reach_streaming h).resolve_right fun he => ho he.closed
  refine ⟨hs.flow.stream, fun b hb => ?_⟩
  have hp := hs.pending b hb
  exact ⟨hp.cursor.done, hp.left.trans hp.size⟩

theorem pipe_conserves_full : ∃ s : PipeSt Nat,
    Reach PipeSt.Start PipeSt.Served (PipeSt.step small) s ∧
    s.output.length = 1 ∧ s.delivered ++ s.contents small = s.copied :=
  exists_reach newPipe_start [.write ⟨1, 1, 1, false⟩ 1 (range 9) true] (by decide +kernel)
    fun s hr (hq : s.output.length = 1 ∧ s.ocbs ≠ []) => ⟨hq.1, (pipe_conserves hq.2 hr).1⟩

end Qnx.Pipe
