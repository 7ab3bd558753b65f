import Mathlib.Data.List.Count
import Qnx.Shared.Run
import Qnx.Pipe.Pipe

/-!
# Who is blocked on a pipe

Neither a read nor a write looks at both queues. A reader is blocked on an empty pipe only, a writer
on one that has no room for it, so nobody is forgotten, however the transfers end.
-/

namespace Qnx.Pipe

open Run List

variable {α : Type}

def Stuck (cfg : Config) (p : PipeSt α) (b : Blocked α) : Prop :=
  p.nbytes = cfg.bufferSize ∨ b.size ≤ cfg.atomicSize ∧ cfg.bufferSize - p.nbytes < b.nbytes

def Sized (b : Blocked α) : Prop := 0 < b.nbytes ∧ b.nbytes ≤ b.size

structure Level (cfg : Config) (p : PipeSt α) : Prop where
  bound : p.nbytes ≤ cfg.bufferSize
  input : p.nbytes ≠ 0 → p.input = []
  output : ∀ b ∈ p.output, Sized b ∧ Stuck cfg p b

structure Settled (cfg : Config) (p : PipeSt α) : Prop where
  level : Level cfg p
  readers : p.input ≠ [] → 0 < p.wcount
  writers : p.output ≠ [] → 0 < p.rcount

variable {cfg : Config} {p p' : PipeSt α} {b : Blocked α}

/-! ### Transfers -/

/-- The pipe with the answers that are left after a transfer. -/
abbrev PipeSt.left (p : PipeSt α) (r : List (Option Errno)) : PipeSt α := { p with answers := r }

theorem transfer_eq (p : PipeSt α) : ∃ a r, p.transfer = (a, p.left r) := by
  unfold PipeSt.transfer
  split
  · exact ⟨none, p.answers, rfl⟩
  · exact ⟨_, _, rfl⟩

theorem readFromPipe_cases (p : PipeSt α) (cfg : Config) (rcvid n offset : Nat) : ∃ r,
    (∃ e, p.readFromPipe cfg rcvid n offset = (.error e, p.left r)) ∨
    p.readFromPipe cfg rcvid n offset =
      (.ok (min p.nbytes n), (p.left r).sendOut cfg rcvid n offset) := by
  obtain ⟨_ | e, r, h⟩ := transfer_eq p
  · exact ⟨r, .inr (by rw [PipeSt.readFromPipe, h])⟩
  · exact ⟨r, .inl ⟨e, by rw [PipeSt.readFromPipe, h]⟩⟩

theorem writeToPipe_cases (p : PipeSt α) (cfg : Config) (tag : Nat) (data : List α)
    (n offset : Nat) : ∃ r,
    (∃ e, p.writeToPipe cfg tag data n offset = (.error e, p.left r)) ∨
    p.writeToPipe cfg tag data n offset = (.ok (min (cfg.bufferSize - p.nbytes) n),
      (p.left r).copyIn cfg tag data n offset) := by
  obtain ⟨_ | e, r, h⟩ := transfer_eq p
  · exact ⟨r, .inr (by rw [PipeSt.writeToPipe, h])⟩
  · exact ⟨r, .inl ⟨e, by rw [PipeSt.writeToPipe, h]⟩⟩

theorem emit_nbytes (e : Event α) : (p.emit e).nbytes = p.nbytes := rfl

theorem Level.answers (h : Level cfg p) (r : List (Option Errno)) : Level cfg (p.left r) :=
  ⟨h.bound, h.input, h.output⟩

theorem Stuck.mono (h : Stuck cfg p b) (hle : p.nbytes ≤ p'.nbytes)
    (hb : p'.nbytes ≤ cfg.bufferSize) : Stuck cfg p' b := by
  rcases h with h | ⟨h1, h2⟩
  · exact .inl (by omega)
  · exact .inr ⟨h1, by omega⟩

theorem Level.output_of_empty (h : Level cfg p) (h0 : p.nbytes = 0) : p.output = [] := by
  refine eq_nil_iff_forall_not_mem.mpr fun b hb => ?_
  obtain ⟨⟨h1, h2⟩, hs⟩ := h.output b hb
  have := cfg.atomic_pos
  have := cfg.atomic_le
  unfold Stuck at hs
  omega

theorem Level.exclusive (h : Level cfg p) : p.input = [] ∨ p.output = [] := by
  by_cases h0 : p.nbytes = 0
  · exact .inr (h.output_of_empty h0)
  · exact .inl (h.input h0)

/-! ### The two checks -/

theorem checkWriters_spec (l : List (Blocked α)) (hB : p.nbytes ≤ cfg.bufferSize)
    (hs : ∀ b ∈ l, Sized b) :
    let r := p.checkWriters cfg l
    r.2.ocbs = p.ocbs ∧ r.2.input = p.input ∧ p.nbytes ≤ r.2.nbytes ∧
      r.2.nbytes ≤ cfg.bufferSize ∧ ∀ b ∈ r.1, Sized b ∧ Stuck cfg r.2 b := by
  induction l generalizing p with
  | nil => exact ⟨rfl, rfl, Nat.le_refl _, hB, nofun⟩
  | cons b rest ih =>
    obtain ⟨hb, hrest⟩ := forall_mem_cons.mp hs
    simp only [PipeSt.checkWriters]
    split
    · exact ⟨rfl, rfl, Nat.le_refl _, hB, fun d hd => ⟨hs d hd, .inl (by dsimp only; omega)⟩⟩
    split
    · obtain ⟨r, ⟨e, he⟩ | he⟩ := writeToPipe_cases p cfg b.tag b.data b.nbytes b.offset
      · rw [he]
        exact ih (p := (p.left r).emit (PipeSt.writeFailed b e)) hB hrest
      rw [he]
      have hq : ((p.left r).copyIn cfg b.tag b.data b.nbytes
        b.offset).nbytes = p.nbytes + min (cfg.bufferSize - p.nbytes) b.nbytes := rfl
      dsimp only
      split
      · obtain ⟨h1, h2, h3, h4, h5⟩ := ih (p := ((p.left r).copyIn cfg
          b.tag b.data b.nbytes b.offset).emit (.reply b.rcvid b.size []))
          (by rw [emit_nbytes]; omega) hrest
        rw [emit_nbytes] at h3
        exact ⟨h1, h2, by omega, h4, h5⟩
      -- what is left of the write has filled the pipe
      obtain ⟨h1, h2, h3, h4, h5⟩ := ih (p := (p.left r).copyIn cfg b.tag
        b.data b.nbytes b.offset) (by omega) hrest
      refine ⟨h1, h2, by dsimp only; omega, h4, forall_mem_cons.mpr ⟨⟨?_, .inl ?_⟩, h5⟩⟩
      · unfold Sized at *
        dsimp only
        omega
      · dsimp only
        omega
    · obtain ⟨h1, h2, h3, h4, h5⟩ := ih hB hrest
      refine ⟨h1, h2, h3, h4, forall_mem_cons.mpr ⟨⟨hb, ?_⟩, h5⟩⟩
      exact Stuck.mono (p := p) (.inr (by omega)) h3 h4

theorem runWriters_spec (cfg : Config) (hB : p.nbytes ≤ cfg.bufferSize)
    (hs : ∀ b ∈ p.output, Sized b) :
    let q := p.runWriters cfg
    q.ocbs = p.ocbs ∧ q.input = p.input ∧ q.nbytes ≤ cfg.bufferSize ∧
      ∀ b ∈ q.output, Sized b ∧ Stuck cfg q b := by
  obtain ⟨h1, h2, -, h4, h5⟩ := checkWriters_spec p.output hB hs
  exact ⟨h1, h2, h4, h5⟩

theorem checkReaders_spec (cfg : Config) (l : List (Blocked α)) :
    let q := p.checkReaders cfg l
    q.ocbs = p.ocbs ∧ q.output = p.output ∧ q.nbytes ≤ p.nbytes ∧
      (l = [] → q.nbytes = p.nbytes) ∧ (q.nbytes ≠ 0 → q.input = []) ∧ (q.input ≠ [] → l ≠ []) := by
  induction l generalizing p with
  | nil => exact ⟨rfl, rfl, Nat.le_refl _, fun _ => rfl, fun _ => rfl, fun h => h⟩
  | cons b rest ih =>
    simp only [PipeSt.checkReaders]
    split
    · rename_i h0
      exact ⟨rfl, rfl, Nat.le_refl _, nofun, absurd h0, nofun⟩
    obtain ⟨r, ⟨e, he⟩ | he⟩ := readFromPipe_cases p cfg b.rcvid b.size 0
    · rw [he]
      obtain ⟨h1, h2, h3, -, h5, -⟩ := ih
        (p := (p.left r).emit (.error b.rcvid e))
      exact ⟨h1, h2, h3, nofun, h5, nofun⟩
    rw [he]
    have hq : ((p.left r).sendOut cfg b.rcvid b.size 0).nbytes =
      p.nbytes - min p.nbytes b.size := rfl
    dsimp only
    split
    · obtain ⟨h1, h2, h3, -, h5, -⟩ := ih (p := ((p.left r).sendOut cfg
        b.rcvid b.size 0).emit (.reply b.rcvid (min p.nbytes b.size) []))
      rw [emit_nbytes] at h3
      exact ⟨h1, h2, by omega, nofun, h5, nofun⟩
    · obtain ⟨h1, h2, h3, -, h5, -⟩ := ih
        (p := (p.left r).sendOut cfg b.rcvid b.size 0)
      exact ⟨h1, h2, by omega, nofun, h5, nofun⟩

/-! ### The loops -/

theorem readLoop_spec (rcvid n fuel count : Nat) (chunk : Except Errno Nat) (h : Level cfg p) :
    let r := p.readLoop cfg rcvid n fuel count chunk
    Level cfg r.2.2 ∧ r.2.2.ocbs = p.ocbs ∧ (r.2.2.input ≠ [] → p.input ≠ []) ∧ count ≤ r.1 ∧
      (p.nbytes ≠ 0 → count < n → 0 < fuel → count < r.1 ∨ ∃ e, r.2.1 = .error e) ∧
      (p.nbytes = 0 → r.2.2 = p) := by
  induction fuel generalizing p count chunk with
  | zero =>
    exact ⟨h, rfl, id, Nat.le_refl _, fun _ _ hf => absurd hf (Nat.lt_irrefl 0), fun _ => rfl⟩
  | succ fuel ih =>
    simp only [PipeSt.readLoop]
    split
    · rename_i hc
      have hin := h.input hc.1
      have hb := h.bound
      obtain ⟨r, ⟨e, he⟩ | he⟩ := readFromPipe_cases p cfg rcvid (n - count) count
      · rw [he]
        exact ⟨h.answers r, rfl, id, Nat.le_refl _, fun _ _ _ => .inr ⟨e, rfl⟩,
          fun h0 => absurd h0 hc.1⟩
      rw [he]
      have hn : ((p.left r).sendOut cfg rcvid (n - count) count).nbytes =
        p.nbytes - min p.nbytes (n - count) := rfl
      dsimp only
      obtain ⟨w1, w2, w3, w4⟩ := runWriters_spec cfg
        (p := (p.left r).sendOut cfg rcvid (n - count) count) (by omega)
        (fun b hb => (h.output b hb).1)
      obtain ⟨i1, i2, i3, i4, -, -⟩ := ih (count + min p.nbytes (n - count))
        (.ok (min p.nbytes (n - count))) ⟨w3, fun _ => w2.trans hin, w4⟩
      refine ⟨i1, i2.trans w1, fun hne => ?_, by omega, fun _ _ _ => .inl (by omega),
        fun h0 => absurd h0 hc.1⟩
      exact absurd (w2.trans hin) (i3 hne)
    · rename_i hc
      exact ⟨h, rfl, id, Nat.le_refl _, fun h0 hlt _ => absurd ⟨h0, hlt⟩ hc, fun _ => rfl⟩

theorem write_level (tag k off : Nat) (data : List α) (h : Level cfg p) :
    let q := (p.copyIn cfg tag data k off).runReaders cfg
    Level cfg q ∧ q.ocbs = p.ocbs ∧ (q.input ≠ [] → p.input ≠ []) ∧ q.output = p.output := by
  have hb := h.bound
  have hn : (p.copyIn cfg tag data k off).nbytes =
    p.nbytes + min (cfg.bufferSize - p.nbytes) k := rfl
  have hin : (p.copyIn cfg tag data k off).input = p.input := rfl
  obtain ⟨r1, r2, r3, r4, r5, r6⟩ := checkReaders_spec cfg
    (p := p.copyIn cfg tag data k off) (p.copyIn cfg tag data k off).input
  refine ⟨⟨?_, r5, fun b hb => ?_⟩, r1, r6, r2⟩
  · unfold PipeSt.runReaders
    omega
  · have hb' : b ∈ p.output := by
      unfold PipeSt.runReaders at hb
      rw [r2] at hb
      exact hb
    obtain ⟨hs, hst⟩ := h.output b hb'
    refine ⟨hs, ?_⟩
    -- readers are blocked on an empty pipe, where no writer is
    rcases h.exclusive with hi | ho
    · have heq := r4 (hin.trans hi)
      refine hst.mono ?_ ?_ <;> (unfold PipeSt.runReaders; omega)
    · rw [ho] at hb'
      cases hb'

/-- A write ends short of its request with an error, or on a full pipe. -/
theorem writeLoop_spec (tag : Nat) (data : List α) (fuel count : Nat) (chunk : Except Errno Nat)
    (h : Level cfg p) (hf : data.length - count ≤ fuel) (hle : count ≤ data.length) :
    let r := p.writeLoop cfg tag data fuel count chunk
    Level cfg r.2.2 ∧ r.2.2.ocbs = p.ocbs ∧ (r.2.2.input ≠ [] → p.input ≠ []) ∧
      r.2.2.output = p.output ∧ r.1 ≤ data.length ∧
      ∀ c, r.2.1 = .ok c → r.1 ≠ data.length → r.2.2.nbytes = cfg.bufferSize := by
  induction fuel generalizing p count chunk with
  | zero =>
    have : count = data.length := by omega
    exact ⟨h, rfl, id, rfl, hle, fun _ _ => absurd this⟩
  | succ fuel ih =>
    simp only [PipeSt.writeLoop]
    split
    · have hb := h.bound
      obtain ⟨r, ⟨e, he⟩ | he⟩ := writeToPipe_cases p cfg tag data (data.length - count) count
      · rw [he]
        exact ⟨h.answers r, rfl, id, rfl, hle, nofun⟩
      rw [he]
      dsimp only
      obtain ⟨w1, w2, w3, w4⟩ := write_level tag (data.length - count) count data (h.answers r)
      obtain ⟨i1, i2, i3, i4, i5, i6⟩ := ih (count + min (cfg.bufferSize - p.nbytes)
        (data.length - count)) (.ok _) w1 (by omega) (by omega)
      exact ⟨i1, i2.trans w2, fun hne => w3 (i3 hne), i4.trans w4, i5, i6⟩
    rename_i hc
    refine ⟨h, rfl, id, rfl, hle, fun _ _ hne => ?_⟩
    by_contra hfull
    exact hc ⟨by omega, hfull⟩

theorem writeNow_spec (tag : Nat) (data : List α) (h : Level cfg p) :
    let r := p.writeNow cfg tag data
    Level cfg r.2.2 ∧ r.2.2.ocbs = p.ocbs ∧ (r.2.2.input ≠ [] → p.input ≠ []) ∧
      r.2.2.output = p.output ∧ r.1 ≤ data.length ∧
      ∀ c, r.2.1 = .ok c → r.1 ≠ data.length → r.2.2.nbytes = cfg.bufferSize ∨
        data.length ≤ cfg.atomicSize ∧ r.1 = 0 ∧ cfg.bufferSize - r.2.2.nbytes < data.length := by
  unfold PipeSt.writeNow
  split
  · obtain ⟨w1, w2, w3, w4, w5, w6⟩ :=
      writeLoop_spec tag data data.length 0 (.ok 0) h (by omega) (by omega)
    exact ⟨w1, w2, w3, w4, w5, fun c hc hne => .inl (w6 c hc hne)⟩
  split
  · obtain ⟨r, ⟨e, he⟩ | he⟩ := writeToPipe_cases p cfg tag data data.length 0
    · rw [he]
      exact ⟨h.answers r, rfl, id, rfl, Nat.zero_le _, nofun⟩
    rw [he]
    dsimp only
    obtain ⟨w1, w2, w3, w4⟩ := write_level tag data.length 0 data (h.answers r)
    exact ⟨w1, w2, w3, w4, by omega, fun _ _ hne => absurd (by omega) hne⟩
  · exact ⟨h, rfl, id, rfl, Nat.zero_le _, fun _ _ _ => .inr ⟨by omega, rfl, by dsimp only; omega⟩⟩

/-! ### The handlers -/

section

variable (h : Settled cfg p)
include h

theorem Settled.emit (e : Event α) : Settled cfg (p.emit e) :=
  ⟨⟨h.level.bound, h.level.input, h.level.output⟩, h.readers, h.writers⟩

theorem Settled.read (c : PipeSt.Client) (n : Nat) (mem : Bool)
    (hr : 0 < p.rcount) : Settled cfg (p.read cfg c n mem) := by
  unfold PipeSt.read
  split
  · exact h.emit _
  obtain ⟨h1, h2, h3, -, h5, h6⟩ := readLoop_spec c.rcvid n n 0 (.ok 0) h.level
  generalize p.readLoop cfg c.rcvid n n 0 (.ok 0) = r at h1 h2 h3 h5 h6
  obtain ⟨count, chunk, q⟩ := r
  dsimp only at h5 h6
  have hwc : q.wcount = p.wcount := congrArg (countP Ocb.wr) h2
  have hrc : q.rcount = p.rcount := congrArg (countP Ocb.rd) h2
  have hq : Settled cfg q := ⟨h1, fun hi => hwc ▸ h.readers (h3 hi), fun _ => hrc ▸ hr⟩
  cases chunk with
  | error e => exact hq.emit _
  | ok chunk => ?_
  dsimp only
  split
  · split
    · exact hq.emit _
    rename_i hw
    split
    · exact hq.emit _
    split
    · exact hq.emit _
    -- nothing was read, so the pipe was empty
    have hp0 : p.nbytes = 0 := by
      by_contra h0
      rcases h5 h0 (by omega) (by omega) with hlt | ⟨e, he⟩
      · omega
      · cases he
    have hq0 : q.nbytes = 0 := (congrArg PipeSt.nbytes (h6 hp0)).trans hp0
    exact ⟨⟨h1.bound, absurd hq0, h1.output⟩, fun _ => Nat.pos_of_ne_zero hw, fun _ => hrc ▸ hr⟩
  · split
    · exact hq
    · exact hq.emit _

theorem Settled.write (c : PipeSt.Client) (tag : Nat) (data : List α)
    (mem : Bool) : Settled cfg (p.write cfg c tag data mem) := by
  have h' : Settled cfg { p with writes := p.writes ++ [(tag, data)] } :=
    ⟨⟨h.level.bound, h.level.input, h.level.output⟩, h.readers, h.writers⟩
  unfold PipeSt.write
  generalize ({ p with writes := p.writes ++ [(tag, data)] } : PipeSt α) = p' at h'
  dsimp only
  split
  · exact (h'.emit _).emit _
  rename_i hr
  split
  · exact h'.emit _
  obtain ⟨h1, h2, h3, h4, h5, h6⟩ := writeNow_spec tag data h'.level
  generalize p'.writeNow cfg tag data = r at h1 h2 h3 h5 h6
  obtain ⟨count, chunk, q⟩ := r
  dsimp only at h6
  have hwc : q.wcount = p'.wcount := congrArg (countP Ocb.wr) h2
  have hrc : 0 < q.rcount :=
    Nat.lt_of_lt_of_eq (Nat.pos_of_ne_zero hr) (congrArg (countP Ocb.rd) h2).symm
  have hq : Settled cfg q := ⟨h1, fun hi => hwc ▸ h'.readers (h3 hi), fun _ => hrc⟩
  cases chunk with
  | error e => exact hq.emit _
  | ok chunk => ?_
  dsimp only
  split
  · exact hq.emit _
  split
  · rename_i hne
    split
    · exact hq.emit _
    refine ⟨⟨h1.bound, h1.input, fun b hb => ?_⟩, hq.readers, fun _ => hrc⟩
    rcases mem_append.mp hb with hb | hb
    · exact h1.output b hb
    obtain rfl := mem_singleton.mp hb
    refine ⟨⟨by dsimp only; omega, by dsimp only; omega⟩, ?_⟩
    rcases h6 chunk rfl hne.1 with hfull | ⟨ha, hz, hlt⟩
    · exact .inl hfull
    · exact .inr ⟨ha, by dsimp only; omega⟩
  · exact hq.emit _

theorem Settled.unblockInput (sel : Blocked α → Bool)
    (answer : Blocked α → List (Event α)) : Settled cfg (p.unblockInput sel answer) := by
  refine ⟨⟨h.level.bound, fun h0 => ?_, h.level.output⟩, fun hi => h.readers fun hc => hi ?_,
    h.writers⟩
  · exact filter_eq_nil_iff.mpr fun b hb => by rw [h.level.input h0] at hb; cases hb
  · exact filter_eq_nil_iff.mpr fun b hb => by rw [hc] at hb; cases hb

theorem Settled.unblockOutput (sel : Blocked α → Bool)
    (answer : Blocked α → List (Event α)) : Settled cfg (p.unblockOutput sel answer) := by
  refine ⟨⟨h.level.bound, h.level.input, fun b hb => ?_⟩, h.readers,
    fun ho => h.writers fun hc => ho ?_⟩
  · exact h.level.output b (mem_of_mem_filter hb)
  · exact filter_eq_nil_iff.mpr fun b hb => by rw [hc] at hb; cases hb

end

theorem countP_close {l : List Ocb} {o : Ocb} (f : Ocb → Bool) (h : f o = false) :
    (l.erase o).countP f = l.countP f := by
  rw [countP_erase, if_neg (by simp [h]), Nat.sub_zero]

theorem Settled.closeocb (h : Settled cfg p) (o : Ocb) : Settled cfg (p.closeocb o) := by
  unfold PipeSt.closeocb
  have h1 : Level cfg { p with ocbs := p.ocbs.erase o } :=
    ⟨h.level.bound, h.level.input, h.level.output⟩
  have hr : p.output ≠ [] → o.rd = false → 0 < ({ p with ocbs := p.ocbs.erase o } :
      PipeSt α).rcount := fun hne ho =>
    Nat.lt_of_lt_of_eq (h.writers hne) (countP_close Ocb.rd ho).symm
  have hw : p.input ≠ [] → o.wr = false → 0 < ({ p with ocbs := p.ocbs.erase o } :
      PipeSt α).wcount := fun hne ho =>
    Nat.lt_of_lt_of_eq (h.readers hne) (countP_close Ocb.wr ho).symm
  have ho1 : ({ p with ocbs := p.ocbs.erase o } : PipeSt α).output = p.output := rfl
  have hi1 : ({ p with ocbs := p.ocbs.erase o } : PipeSt α).input = p.input := rfl
  rw [← ho1] at hr
  rw [← hi1] at hw
  generalize ({ p with ocbs := p.ocbs.erase o } : PipeSt α) = p1 at h1 hr hw
  dsimp only
  -- after the writers are let go
  have h2 : ∃ p2, p2 = (if o.rd ∧ p1.rcount = 0 then p1.unblockOutput (fun _ => true)
      PipeSt.broken else p1) ∧ Level cfg p2 ∧ p2.ocbs = p1.ocbs ∧ p2.input = p1.input ∧
      (p2.output ≠ [] → 0 < p2.rcount) := by
    refine ⟨_, rfl, ?_⟩
    split
    · refine ⟨⟨h1.bound, h1.input, ?_⟩, rfl, rfl, ?_⟩ <;> simp [PipeSt.unblockOutput]
    rename_i hc
    refine ⟨h1, rfl, rfl, fun hne => ?_⟩
    cases hrd : o.rd with
    | false => exact hr hne hrd
    | true => exact Nat.pos_of_ne_zero fun h0 => hc ⟨hrd, h0⟩
  obtain ⟨p2, hp2, l2, o2, i2, w2⟩ := h2
  rw [← hp2]
  have hw2 : p2.wcount = p1.wcount := congrArg (countP Ocb.wr) o2
  -- after the readers are let go
  obtain ⟨p3, hp3, l3⟩ : ∃ p3, p3 = (if o.wr ∧ p2.wcount = 0 then p2.unblockInput (fun _ => true)
      PipeSt.finished else p2) ∧ Settled cfg p3 := by
    refine ⟨_, rfl, ?_⟩
    split
    · refine ⟨⟨l2.bound, ?_, l2.output⟩, ?_, w2⟩ <;> simp [PipeSt.unblockInput]
    rename_i hc
    refine ⟨l2, fun hne => ?_, w2⟩
    cases hwr : o.wr with
    | false => exact hw2 ▸ hw (i2 ▸ hne) hwr
    | true => exact Nat.pos_of_ne_zero fun h0 => hc ⟨hwr, h0⟩
  rw [← hp3]
  split
  · -- with no descriptor left nobody is blocked
    rename_i hlen
    have hnil := eq_nil_of_length_eq_zero hlen
    have hcount (f : Ocb → Bool) : ¬0 < p3.ocbs.countP f := by simp [hnil]
    have hin : p3.input = [] := by_contra fun hne => hcount Ocb.wr (l3.readers hne)
    have hout : p3.output = [] := by_contra fun hne => hcount Ocb.rd (l3.writers hne)
    exact ⟨⟨Nat.zero_le _, fun _ => hin, by simp [hout]⟩, l3.readers, l3.writers⟩
  · exact l3

/-- A reader is blocked on an empty pipe only, a writer only on a full one or, if it writes at once,
on one with less room than it needs; so never both. -/
theorem pipe_blocked {s : PipeSt α} (h : Reach PipeSt.Start PipeSt.Served (PipeSt.step cfg) s) :
    (s.input ≠ [] → s.nbytes = 0) ∧
    (∀ b ∈ s.output, s.nbytes = cfg.bufferSize ∨
      b.size ≤ cfg.atomicSize ∧ cfg.bufferSize - s.nbytes < b.nbytes) ∧
    (s.input = [] ∨ s.output = []) := by
  have hs : Settled cfg s := by
    refine h.invariant (fun s hs => ?_) fun s o s' hs hok hstep => ?_
    · obtain ⟨-, -, h0, hi, ho, -⟩ := hs
      refine ⟨⟨by omega, fun _ => hi, ?_⟩, absurd hi, absurd ho⟩
      rw [ho]
      nofun
    · cases o with
      | read c n mem => exact Option.some.inj hstep ▸ hs.read c n mem hok
      | write c tag data mem => exact Option.some.inj hstep ▸ hs.write c tag data mem
      | unblock | closedup =>
        exact Option.some.inj hstep ▸ (hs.unblockInput _ _).unblockOutput _ _
      | closeocb o => exact Option.some.inj hstep ▸ hs.closeocb o
  refine ⟨fun hi => ?_, fun b hb => (hs.level.output b hb).2, hs.level.exclusive⟩
  by_contra h0
  exact hi (hs.level.input h0)

def small : Config := ⟨8, 4, by decide, by decide⟩

def newPipe : PipeSt Nat :=
  ⟨fun _ => 0, 0, 0, 0, [], [], [⟨true, false⟩, ⟨false, true⟩], [], [], [], []⟩

theorem newPipe_start : newPipe.Start := ⟨rfl, rfl, rfl, rfl, rfl, rfl, rfl, rfl⟩

instance (p : PipeSt Nat) (o : PipeOp Nat) : Decidable (p.Served o) :=
  match o with
  | .read _ _ _ => inferInstanceAs (Decidable (_ < _))
  | .write _ _ _ _ => inferInstanceAs (Decidable (_ ∧ _))
  | .closeocb _ => inferInstanceAs (Decidable (_ ∈ _))
  | .unblock _ => inferInstanceAs (Decidable True)
  | .closedup _ _ => inferInstanceAs (Decidable True)

/-- The writer stays blocked when a reader is sent nothing. -/
theorem pipe_blocked_writer : ∃ s : PipeSt Nat,
    Reach PipeSt.Start PipeSt.Served (PipeSt.step small) s ∧
    s.output.length = 1 ∧ s.events = [.reply 1 6 [], .error 3 .efault] ∧ s.input = [] := by
  refine exists_reach (s := newPipe.left [none, some .efault]) newPipe_start
    [.write ⟨1, 1, 1, false⟩ 1 [1, 2, 3, 4, 5, 6] true, .write ⟨2, 2, 2, false⟩ 2 [7, 8, 9] true,
      .read ⟨3, 3, 3, false⟩ 4 true]
    (by decide +kernel) fun s hr
      (hq : s.output.length = 1 ∧ s.events = [.reply 1 6 [], .error 3 .efault]) => ?_
  refine ⟨hq.1, hq.2, (pipe_blocked hr).2.2.resolve_right fun hc => ?_⟩
  rw [hc] at hq
  cases hq.1

end Qnx.Pipe
