import Mathlib.Algebra.Group.Int.Defs
import Mathlib.Data.Nat.Basic
import Qnx.Memmgr.Tymem

/-!
# Walking the memory of an object

`memobj_pmem_walk` as the calls it makes. The callback sees them one after another, and one that
does not return `EOK` ends the walk. Offsets are counted in quanta of 4096 bytes, and passed to the
callback in bytes.
-/

namespace Qnx.Memmgr.PmemWalk

open List

/-- A run of quanta in the pmem list; `pq` is the address of the first. `memobj_offset_check` keeps
the end in 32 bits. -/
structure PmemRun where
  qpos : Nat
  run : Nat
  fake : Bool
  pq : Nat
  pos : 0 < run
  lt : qpos + run < 2 ^ 32

structure PmemCall where
  off : Nat
  pq : Option Nat
  num : Nat

structure WalkFlags where
  holes : Bool
  sysram : Bool
  phys : Bool

/-- The end is a signed 64-bit number, as `off` is. -/
def memobjOffsetCheck (off : Int) (len : Nat) : Bool :=
  let last := (off + len).bmod (2 ^ 64)
  off ≤ last && last ≤ (2 ^ 32 - 1) * 4096

section Model

variable (flags : WalkFlags) (qstart qend : Nat)

/-- `(end - start) + 1`, which is unsigned. -/
def count (start last : Nat) : Nat := (last + 1 + 2 ^ 32 - start) % 2 ^ 32

def hole (qpos last : Nat) : PmemCall :=
  let start := max qpos qstart
  ⟨nquantumToLen start, none, count start last⟩

-- A fake run is passed from its first quantum on, the others from `qstart` on.
def PmemRun.call (r : PmemRun) : PmemCall :=
  let start := max r.qpos qstart
  let last := min qend (r.qpos + r.run - 1)
  if r.fake then ⟨nquantumToLen r.qpos, some r.pq, count r.qpos last⟩
  else ⟨nquantumToLen start, some (r.pq + (start - r.qpos)), count start last⟩

def calls : Nat → List PmemRun → List PmemCall
  | qpos, [] => if qend < qpos ∨ ¬flags.holes then [] else [hole qstart qpos qend]
  | qpos, r :: l =>
    if qend < qpos then []
    else
      (if flags.holes ∧ qpos < r.qpos ∧ qstart < r.qpos then
        [hole qstart qpos (min qend (r.qpos - 1))] else []) ++
      if qend < r.qpos then []
      else
        (if qstart < r.qpos + r.run ∧ (if r.fake then flags.phys else flags.sysram) then
          [r.call qstart qend] else []) ++ calls (r.qpos + r.run) l

/-- The list from where the walk starts: at `pmem_cache`, which is behind `cache` entries, if that
is not too late. -/
def startOf (cache : Nat) (l : List PmemRun) : List PmemRun :=
  match l[cache]? with
  | some r => if qstart < r.qpos then l else l.drop cache
  | none => l

end Model

def offToQuantum (off : Int) : Nat := (off / 4096 % 2 ^ 32).toNat

def memobjPmemWalk (flags : WalkFlags) (l : List PmemRun) (cache : Nat) (offStart offEnd : Int) :
    List PmemCall :=
  let qstart := offToQuantum offStart
  calls flags qstart (offToQuantum offEnd) 0 (startOf qstart cache l)

/-- Runs in order from `lo` on, without overlap. -/
def Ascends : Nat → List PmemRun → Prop
  | _, [] => True
  | lo, r :: l => lo ≤ r.qpos ∧ Ascends (r.qpos + r.run) l

/-- Clipped to the quanta from `qstart` to `qend`, the calls follow one another from `p` to the
end. -/
def Tiles (qstart qend : Int) : Int → List PmemCall → Prop
  | p, [] => p = qend + 1
  | p, c :: cs => max ↑(c.off / 4096) qstart = p ∧ p < min ↑(c.off / 4096 + c.num) (qend + 1) ∧
      Tiles qstart qend (min ↑(c.off / 4096 + c.num) (qend + 1)) cs

/-- What is passed for the quanta of the call. -/
def Describes (l : List PmemRun) (c : PmemCall) : Prop :=
  match c.pq with
  | none => ∀ r ∈ l, r.qpos + r.run ≤ c.off / 4096 ∨ c.off / 4096 + c.num ≤ r.qpos
  | some pq => ∃ r ∈ l, r.qpos ≤ c.off / 4096 ∧ c.off / 4096 + c.num ≤ r.qpos + r.run ∧
      if r.fake then c.off / 4096 = r.qpos ∧ pq = r.pq else pq = r.pq + (c.off / 4096 - r.qpos)

def Exact (l : List PmemRun) (qstart qend : Int) (cs : List PmemCall) : Prop :=
  Tiles qstart qend qstart cs ∧ ∀ c ∈ cs, Describes l c

/-- Where the call for a run begins. -/
def PmemRun.start (qstart : Nat) (r : PmemRun) : Nat := if r.fake then r.qpos else max r.qpos qstart

/-- Where the call begins that quantum `qend` belongs to. -/
def lastStart (qstart qend : Nat) : Nat → List PmemRun → Nat
  | qpos, [] => max qpos qstart
  | qpos, r :: l =>
    if qend < r.qpos then max qpos qstart
    else if qend < r.qpos + r.run then r.start qstart
    else lastStart qstart qend (r.qpos + r.run) l

def allFlags : WalkFlags := ⟨true, true, true⟩

section Walk

variable {qstart qend qpos : Nat} {l : List PmemRun}

theorem len_div (q : Nat) : nquantumToLen q / 4096 = q % 2 ^ 20 := by
  unfold nquantumToLen pageSize
  omega

theorem start_bounds (qstart : Nat) (r : PmemRun) :
    r.qpos ≤ r.start qstart ∧ max (r.start qstart) qstart = max r.qpos qstart := by
  unfold PmemRun.start
  split <;> omega

theorem le_lastStart (qstart qend : Nat) (h : Ascends qpos l) :
    qpos ≤ lastStart qstart qend qpos l := by
  induction l generalizing qpos with
  | nil => exact Nat.le_max_left _ _
  | cons r l ih =>
    obtain ⟨h1, h3⟩ := h
    have := ih h3
    have := (start_bounds qstart r).1
    rw [lastStart]
    split
    · exact Nat.le_max_left _ _
    · split <;> omega

theorem calls_nil (hq : qpos ≤ qend) :
    calls allFlags qstart qend qpos [] = [hole qstart qpos qend] :=
  if_neg (by simp [allFlags, hq])

theorem calls_cons (r : PmemRun) (hq : qpos ≤ qend) : calls allFlags qstart qend qpos (r :: l) =
      (if qpos < r.qpos ∧ qstart < r.qpos then
        [hole qstart qpos (min qend (r.qpos - 1))] else []) ++
      if qend < r.qpos then []
      else
        (if qstart < r.qpos + r.run then [r.call qstart qend] else []) ++
          calls allFlags qstart qend (r.qpos + r.run) l := by
  rw [calls, if_neg (not_lt.mpr hq)]
  simp [allFlags]

theorem calls_of_lt (h : qend < qpos) : calls allFlags qstart qend qpos l = [] := by
  cases l with
  | nil => exact if_pos (.inl h)
  | cons r l => exact if_pos h

theorem Ascends.le_of_mem {r : PmemRun} (h : Ascends qpos l) (hr : r ∈ l) : qpos ≤ r.qpos := by
  induction l generalizing qpos with
  | nil => cases hr
  | cons r' l ih =>
    cases hr with
    | head => exact h.1
    | tail _ hr => exact Nat.le_trans h.1 (Nat.le_trans (Nat.le_add_right ..) (ih h.2 hr))

theorem call_eq (r : PmemRun) : r.call qstart qend =
    ⟨nquantumToLen (r.start qstart), some (r.pq + (r.start qstart - r.qpos)),
      count (r.start qstart) (min qend (r.qpos + r.run - 1))⟩ := by
  unfold PmemRun.call PmemRun.start
  split
  · rw [Nat.sub_self, Nat.add_zero]
  · rfl

/-- The calls from quantum `qpos` on, where the runs `l` follow. -/
def ExactFrom (qstart qend qpos : Nat) (l : List PmemRun) (cs : List PmemCall) : Prop :=
  Tiles qstart qend ↑(min (max qpos qstart) (qend + 1)) cs ∧
    ∀ c ∈ cs, qpos ≤ c.off / 4096 ∧ Describes l c

variable {r : PmemRun} {cs : List PmemCall}

theorem Describes.cons {c : PmemCall} (h : Describes l c) (hr : r.qpos + r.run ≤ c.off / 4096) :
    Describes (r :: l) c := by
  unfold Describes at h ⊢
  split
  · rename_i he
    rw [he] at h
    exact forall_mem_cons.mpr ⟨.inl hr, h⟩
  rename_i he
  rw [he] at h
  obtain ⟨r', hr', h⟩ := h
  exact ⟨r', mem_cons_of_mem _ hr', h⟩

theorem count_eq {start stop : Nat} (h : start < stop) (h32 : stop - start < 2 ^ 32) :
    count start (stop - 1) = stop - start := by
  unfold count
  omega

theorem ExactFrom.run (h : ExactFrom qstart qend (r.qpos + r.run) l cs)
    (hse : qstart ≤ qend) (hr : r.qpos ≤ qend)
    (hlow : qstart < r.qpos + r.run → r.start qstart < 2 ^ 20) :
    ExactFrom qstart qend r.qpos (r :: l)
      ((if qstart < r.qpos + r.run then [r.call qstart qend] else []) ++ cs) := by
  have hrest : ∀ c ∈ cs, r.qpos ≤ c.off / 4096 ∧ Describes (r :: l) c := by
    intro c hc
    obtain ⟨h1, h2⟩ := h.2 c hc
    exact ⟨by omega, h2.cons h1⟩
  by_cases hq : qstart < r.qpos + r.run
  · rw [if_pos hq]
    obtain ⟨hs1, hs2⟩ := start_bounds qstart r
    have hlo : (r.call qstart qend).off / 4096 = r.start qstart := by
      rw [call_eq, len_div, Nat.mod_eq_of_lt (hlow hq)]
    have hpos := r.pos
    have hlt := r.lt
    have hnum : r.start qstart + (r.call qstart qend).num = min (r.qpos + r.run) (qend + 1) := by
      have he : min qend (r.qpos + r.run - 1) = min (r.qpos + r.run) (qend + 1) - 1 := by omega
      rw [call_eq, he]
      dsimp only
      rw [count_eq (by omega) (by omega)]
      omega
    have hp : min ((min (r.qpos + r.run) (qend + 1) : Nat) : Int) (qend + 1) =
        ↑(min (max (r.qpos + r.run) qstart) (qend + 1)) := by omega
    refine ⟨⟨by omega, by omega, ?_⟩, forall_mem_cons.mpr ⟨⟨by omega, ?_⟩, hrest⟩⟩
    · rw [hlo, hnum, hp]
      exact h.1
    · have hpq : (r.call qstart qend).pq = some (r.pq + (r.start qstart - r.qpos)) := by
        rw [call_eq]
      rw [Describes, hpq]
      refine ⟨r, mem_cons_self, by omega, by omega, ?_⟩
      rw [hlo]
      split
      · rename_i hf
        have hst : r.start qstart = r.qpos := if_pos hf
        exact ⟨hst, by rw [hst, Nat.sub_self, Nat.add_zero]⟩
      · rfl
  · rw [if_neg hq]
    have hp : min (max (r.qpos + r.run) qstart) (qend + 1) =
        min (max r.qpos qstart) (qend + 1) := by omega
    exact ⟨hp ▸ h.1, hrest⟩

/-- A hole up to `stop`, where the runs follow. -/
theorem ExactFrom.hole {stop : Nat} (h : ExactFrom qstart qend stop l cs)
    (hlow : max qpos qstart < 2 ^ 20) (hstop : max qpos qstart < stop) (hle : stop ≤ qend + 1)
    (h32 : stop - max qpos qstart < 2 ^ 32) (hl : ∀ r ∈ l, stop ≤ r.qpos) :
    ExactFrom qstart qend qpos l (hole qstart qpos (stop - 1) :: cs) := by
  have hlo : (PmemWalk.hole qstart qpos (stop - 1)).off / 4096 = max qpos qstart := by
    rw [PmemWalk.hole, len_div]
    exact Nat.mod_eq_of_lt hlow
  have hnum : max qpos qstart + (PmemWalk.hole qstart qpos (stop - 1)).num = stop := by
    rw [PmemWalk.hole]
    dsimp only
    rw [count_eq hstop h32]
    omega
  have hp : min (stop : Int) (qend + 1) = ↑(min (max stop qstart) (qend + 1)) := by omega
  have hpq : (PmemWalk.hole qstart qpos (stop - 1)).pq = none := rfl
  generalize PmemWalk.hole qstart qpos (stop - 1) = c at hlo hnum hpq
  refine ⟨⟨by omega, by omega, ?_⟩, forall_mem_cons.mpr ⟨⟨by omega, ?_⟩, fun c hc => ?_⟩⟩
  · rw [hlo, hnum, hp]
    exact h.1
  · rw [Describes, hpq]
    exact fun r hr => .inr (by have := hl r hr; omega)
  · obtain ⟨h1, h2⟩ := h.2 c hc
    exact ⟨by omega, h2⟩

theorem exactFrom_beyond (h : qend < qpos) :
    ExactFrom qstart qend qpos l (calls allFlags qstart qend qpos l) := by
  rw [calls_of_lt h]
  refine ⟨?_, nofun⟩
  rw [Tiles]
  omega

/-- The last call begins below 4 GB, and its number of quanta is not cut to 0. -/
def LastFits (qstart qend qpos : Nat) (l : List PmemRun) : Prop :=
  lastStart qstart qend qpos l < 2 ^ 20 ∧ qend + 1 - lastStart qstart qend qpos l < 2 ^ 32

instance : Decidable (LastFits qstart qend qpos l) := inferInstanceAs (Decidable (_ ∧ _))

/-- If the last call fits, all of them are right. -/
theorem exactFrom_calls (h : Ascends qpos l) (hse : qstart ≤ qend)
    (hlow : qpos ≤ qend → LastFits qstart qend qpos l) :
    ExactFrom qstart qend qpos l (calls allFlags qstart qend qpos l) := by
  have hend (l : List PmemRun) : ExactFrom qstart qend (qend + 1) l [] :=
    ⟨by rw [Tiles]; omega, nofun⟩
  induction l generalizing qpos with
  | nil =>
    by_cases hq : qend < qpos
    · exact exactFrom_beyond hq
    rw [calls_nil (by omega)]
    obtain ⟨h20, h32⟩ := hlow (by omega)
    exact (hend []).hole h20 (by omega) le_rfl h32 nofun
  | cons r l ih =>
    by_cases hq : qend < qpos
    · exact exactFrom_beyond hq
    have hlow := hlow (by omega)
    have hpos := r.pos
    have hlt := r.lt
    obtain ⟨h1, h3⟩ := h
    have hmem : ∀ r' ∈ r :: l, r.qpos ≤ r'.qpos := fun _ =>
      Ascends.le_of_mem (⟨le_rfl, h3⟩ : Ascends r.qpos (r :: l))
    have hlast := le_lastStart qstart qend h3
    rw [calls_cons r (by omega)]
    rw [LastFits, lastStart] at hlow
    by_cases hr : qend < r.qpos
    · have hmin : min qend (r.qpos - 1) = qend := by omega
      rw [if_pos hr] at hlow ⊢
      rw [if_pos (by omega), hmin]
      exact (hend _).hole hlow.1 (by omega) le_rfl hlow.2
        fun r' hr' => Nat.le_trans hr (hmem r' hr')
    rw [if_neg hr] at hlow ⊢
    have hcs := ih h3 fun hle => by rwa [if_neg (by omega)] at hlow
    have hs : qstart < r.qpos + r.run → r.start qstart < 2 ^ 20 := by
      intro hqs
      split at hlow
      · exact hlow.1
      have hlt : r.start qstart < r.qpos + r.run := by
        unfold PmemRun.start
        split <;> omega
      omega
    have hrun := hcs.run hse (by omega) hs
    by_cases hh : qpos < r.qpos ∧ qstart < r.qpos
    · have hmin : min qend (r.qpos - 1) = r.qpos - 1 := by omega
      have hlt := Nat.lt_of_le_of_lt (start_bounds qstart r).1 (hs (by omega))
      rw [if_pos hh, hmin]
      exact hrun.hole (by omega) (by omega) (by omega) (by omega) hmem
    have hp : max r.qpos qstart = max qpos qstart := by omega
    rw [if_neg hh]
    exact ⟨hp ▸ hrun.1, fun c hc => ⟨Nat.le_trans h1 (hrun.2 c hc).1, (hrun.2 c hc).2⟩⟩

theorem Tiles.drop {p : Int} {ds : List PmemCall} (h : Tiles qstart qend p (ds ++ cs)) :
    ∃ p', Tiles qstart qend p' cs := by
  induction ds generalizing p with
  | nil => exact ⟨p, h⟩
  | cons d ds ih => exact ih h.2.2

/-- The last call reaches the end of the range, so that it is not cut. -/
theorem Tiles.fits {p : Int} {start : Nat} {c : PmemCall} (h : Tiles qstart qend p [c])
    (hoff : c.off = nquantumToLen start) (hnum : c.num = count start qend) (hle : start ≤ qend)
    (hq : qend < 2 ^ 32) : start < 2 ^ 20 ∧ qend + 1 - start < 2 ^ 32 := by
  obtain ⟨h1, h2, h3⟩ := h
  rw [Tiles] at h3
  rw [hoff, len_div] at h1 h2 h3
  unfold count at hnum
  omega

theorem lastFits_of_tiles {p : Int} (hse : qstart ≤ qend) (hq : qpos ≤ qend)
    (h32 : qend < 2 ^ 32) (h : Tiles qstart qend p (calls allFlags qstart qend qpos l)) :
    LastFits qstart qend qpos l := by
  rw [LastFits]
  induction l generalizing qpos p with
  | nil =>
    rw [calls_nil hq] at h
    exact h.fits rfl rfl (Nat.max_le.mpr ⟨hq, hse⟩) h32
  | cons r l ih =>
    rw [calls_cons r hq] at h
    rw [lastStart]
    by_cases hr : qend < r.qpos
    · have hmin : min qend (r.qpos - 1) = qend := by omega
      rw [if_pos (by omega), if_pos hr, hmin] at h
      rw [if_pos hr]
      exact h.fits rfl rfl (Nat.max_le.mpr ⟨hq, hse⟩) h32
    rw [if_neg hr] at h ⊢
    obtain ⟨p', h⟩ := h.drop
    by_cases he : qend < r.qpos + r.run
    · have hmin : min qend (r.qpos + r.run - 1) = qend := by omega
      rw [if_pos (by omega), calls_of_lt he, call_eq, hmin] at h
      rw [if_pos he]
      refine h.fits rfl rfl ?_ h32
      unfold PmemRun.start
      split <;> omega
    rw [if_neg he]
    obtain ⟨p', h⟩ := h.drop
    exact ih (by omega) h

theorem calls_drop {k : Nat} (h : Ascends qpos l) (hr : l[k]? = some r) (hrs : r.qpos ≤ qstart)
    (hse : qstart ≤ qend) (hq : qpos ≤ qstart) :
    calls allFlags qstart qend 0 (l.drop k) = calls allFlags qstart qend qpos l := by
  induction l generalizing qpos k with
  | nil => simp at hr
  | cons r' l ih =>
    obtain ⟨h1, h3⟩ := h
    cases k with
    | zero =>
      cases hr
      rw [drop_zero, calls_cons r (Nat.zero_le _), calls_cons r (by omega)]
      simp only [not_lt.mpr hrs, and_false, if_false]
    | succ k =>
      have hle := h3.le_of_mem (mem_of_getElem? hr)
      rw [calls_cons r' (by omega), if_neg (by omega), if_neg (by omega), if_neg (by omega)]
      exact ih h3 hr (by omega)

theorem calls_startOf (cache : Nat) (h : Ascends 0 l) (hse : qstart ≤ qend) :
    calls allFlags qstart qend 0 (startOf qstart cache l) = calls allFlags qstart qend 0 l := by
  unfold startOf
  split
  · rename_i r hr
    split
    · rfl
    · exact calls_drop h hr (by omega) hse (Nat.zero_le _)
  · rfl

/-- Offsets are passed as numbers from 0 on. -/
theorem not_tiles_of_neg {qs qe : Int} (hs : qs < 0) (hle : qs ≤ qe) : ¬Tiles qs qe qs cs := by
  cases cs with
  | nil =>
    rw [Tiles]
    omega
  | cons c cs =>
    rw [Tiles]
    omega

theorem walk_exact_iff {offStart offEnd : Int} (h : Ascends 0 l) (hle : offStart ≤ offEnd)
    (h63 : offEnd < 2 ^ 63) (hchk : memobjOffsetCheck offStart (offEnd - offStart).toNat)
    (cache : Nat) :
    Exact l (offStart / 4096) (offEnd / 4096) (memobjPmemWalk allFlags l cache offStart offEnd) ↔
      0 ≤ offStart ∧ LastFits (offStart.toNat / 4096) (offEnd.toNat / 4096) 0 l := by
  by_cases h0 : 0 ≤ offStart
  · obtain ⟨a, rfl⟩ := Int.eq_ofNat_of_zero_le h0
    obtain ⟨b, rfl⟩ := Int.eq_ofNat_of_zero_le (Int.le_trans h0 hle)
    have hsum : (a : Int) + ((b : Int) - a).toNat = b := by omega
    have hbm : (b : Int).bmod (2 ^ 64) = b := Int.bmod_eq_of_le (by omega) (by omega)
    rw [memobjOffsetCheck, hsum, hbm] at hchk
    simp only [Bool.and_eq_true, decide_eq_true_eq] at hchk
    have hse : a / 4096 ≤ b / 4096 := Nat.div_le_div_right (by omega)
    have h1 : offToQuantum a = a / 4096 := by unfold offToQuantum; omega
    have h2 : offToQuantum b = b / 4096 := by unfold offToQuantum; omega
    rw [memobjPmemWalk, h1, h2, calls_startOf cache h hse, Int.toNat_natCast, Int.toNat_natCast,
      and_iff_right h0]
    constructor
    · exact fun he => lastFits_of_tiles hse (Nat.zero_le _) (by omega) he.1
    · intro hlow
      have hall := exactFrom_calls h hse fun _ => hlow
      have hp : min (max 0 (a / 4096)) (b / 4096 + 1) = a / 4096 := by omega
      have ht := hall.1
      rw [hp] at ht
      exact ⟨ht, fun c hc => (hall.2 c hc).2⟩
  · refine iff_of_false (fun he => ?_) fun he => h0 he.1
    exact not_tiles_of_neg (by omega) (Int.ediv_le_ediv (by decide) hle) he.1

theorem walk_exact_iff_hole :
    let l : List PmemRun := [⟨1, 2, false, 7, by decide, by decide⟩]
    Exact l 0 3 (memobjPmemWalk allFlags l 0 0 12288) :=
  have h : Ascends 0 [⟨1, 2, false, 7, by decide, by decide⟩] := ⟨by decide, trivial⟩
  (walk_exact_iff h (by decide : (0 : Int) ≤ 12288) (by decide) (by decide) 0).mpr (by decide)

/-- The only quantum is at 4 GB, and the callback is told that it is at 0. -/
theorem walk_cuts_offset :
    let l : List PmemRun := [⟨2 ^ 20, 1, false, 7, by decide, by decide⟩]
    ¬Exact l (2 ^ 20) (2 ^ 20) (memobjPmemWalk allFlags l 0 (2 ^ 32) (2 ^ 32)) := by
  exact fun h => absurd h.1.2.1 (by decide)

end Walk

end Qnx.Memmgr.PmemWalk
