import Qnx.Shared.Run
import Qnx.Memmgr.PaFree

/-!
# Runs of the physical allocator

The calls that change the quanta of a block, from `init_block` on. What a caller does with the
link of a quantum in use is its own affair: `use` is any such write.
-/

namespace Qnx.Memmgr

open OwnerList Tiling Run Option

namespace Block

inductive Op where
  | carve (head start len : Nat)
  | allocGiven (pq num : Nat)
  | free (paq num : Nat)
  | use (q : Nat) (next : Option Nat) (owner : Option (Cell Unit Nat))

def step (b : Block) : Op → Option Block
  | .carve head start len => b.paCarve head start len
  | .allocGiven pq num => (b.paAllocGiven pq num).map Prod.fst
  | .free paq num => b.paFree paq num
  | .use q next owner =>
    some { b with links := (b.links.write (.next q) next).setOwner q owner }

def InUse (b : Block) (q n : Nat) : Prop :=
  q < b.numQuanta ∧ ∃ h ∈ b.paGetrunhead q, b.inuse h = true ∧ ((q + n : Nat) : Int) ≤ h + b.run h

instance (b : Block) (q n : Nat) : Decidable (b.InUse q n) :=
  inferInstanceAs (Decidable (_ ∧ ∃ h ∈ b.paGetrunhead q, _))

/-- What the callers promise: a range carved lies in one free run, a range freed in one run in
use. `pa_alloc_given` is called with a size in bytes, a positive `size_t`. -/
def Entry (b : Block) : Op → Prop
  | .carve head start len => head < b.numQuanta ∧ b.inuse head = false ∧ 0 < b.run head ∧
    head ≤ start ∧ 0 < lenToRun len ∧ ((start + lenToRun len : Nat) : Int) ≤ head + b.run head
  | .allocGiven pq num => pq < b.numQuanta ∧ 0 < num ∧ num < 2 ^ 20
  | .free paq num => num = 0 ∨ b.InUse paq num
  | .use q _ _ => b.InUse q 1

instance (b : Block) : ∀ o, Decidable (b.Entry o)
  | .carve _ _ _ => inferInstanceAs (Decidable (_ ∧ _))
  | .allocGiven _ _ => inferInstanceAs (Decidable (_ ∧ _))
  | .free _ _ => inferInstanceAs (Decidable (_ ∨ _))
  | .use q _ _ => inferInstanceAs (Decidable (b.InUse q 1))

def Init (b : Block) : Prop := ∃ num, 0 < num ∧ b = initBlock num

end Block

variable {b : Block} {rs : Runs} {F : List Nat}

theorem rep_initBlock {num : Nat} (hn : 0 < num) : Rep (Block.initBlock num) [(num, true)] [0] := by
  obtain ⟨b0, hb0⟩ : ∃ b0 : Block, b0 =
    { numQuanta := num, run := fun _ => 0, flags := fun _ => colourNone,
      links := ⟨fun _ => none, fun _ => none, fun _ => none⟩, freeOwner := .head () } := ⟨_, rfl⟩
  have hrun : (Block.initBlock num).run = (b0.mark 0 num).run := hb0 ▸ rfl
  have hz : ∀ i, b0.run i = 0 := fun _ => hb0 ▸ rfl
  have hu : ∀ i, (Block.initBlock num).inuse i = false := by
    intro i
    show (colourNone &&& flagInuse != 0) = false
    decide
  refine ⟨⟨?_, ⟨⟨?_, fun i _ _ => hu i⟩, trivial⟩, by simp [Apart], ?_⟩,
    ⟨⟨rfl, rfl, rfl⟩, by simp, rfl⟩, by simp [heads]⟩
  · rfl
  · rw [hrun]
    exact Block.mark_seg hn fun i _ _ => hz i
  · intro i hi
    have hi' : num ≤ i := hi
    rw [hrun, Block.mark_of_ne (by omega)]
    exact ⟨hz i, hu i⟩

theorem Rep.used_of_inuse {L R : Runs} {m i : Nat} {free : Bool}
    (h : Rep b (L ++ (m, free) :: R) F) (hu : b.inuse i = true) (h1 : span L ≤ i)
    (h2 : i < span L + m) : free = false := by
  obtain ⟨-, hf⟩ := h.tile
  cases free with
  | false => rfl
  | true =>
    rw [hf i h1 h2] at hu
    cases hu

theorem usedRuns_of_carved {L R : Runs} {q a n c : Nat} (hq : q = span L + a) :
    (usedRuns 0 (L ++ carved a n c ++ R)).Perm
      ((q, n) :: usedRuns 0 (L ++ (a + n + c, true) :: R)) := by
  rw [List.append_assoc, usedRuns_append, usedRuns_append, usedRuns_append, usedRuns_carved,
    span_carved, Nat.zero_add, ← hq]
  exact List.perm_middle

theorem lenToRun_of_num {num : Nat} (h : num < 2 ^ 20) :
    lenToRun (num * 2 ^ quantumBits % 2 ^ 32) = num := by
  simp only [lenToRun, quantumBits]
  omega

/-- The quanta of a block, spelled out: `rs` are its runs, `F` is its free list. -/
structure RunsOk (b : Block) (rs : Runs) (F : List Nat) : Prop where
  cover : (rs.map Prod.fst).sum = b.numQuanta
  head : ∀ {L R : Runs} {n : Nat} {free : Bool}, rs = L ++ (n, free) :: R →
    0 < n ∧ b.run (span L) = n
  tail : ∀ {L R : Runs} {n : Nat} {free : Bool}, rs = L ++ (n, free) :: R → 1 < n →
    b.run (span L + n - 1) = -(n - 1 : Int)
  inner : ∀ {L R : Runs} {n : Nat} {free : Bool}, rs = L ++ (n, free) :: R →
    ∀ i, span L < i → i < span L + n - 1 → b.run i = 0
  state : ∀ {L R : Runs} {n : Nat} {free : Bool}, rs = L ++ (n, free) :: R →
    b.inuse (span L) = !free
  linked : Linked b.links (.head ()) F
  once : F.Nodup
  free : ∀ q, q ∈ F ↔ ∃ (L R : Runs) (n : Nat), rs = L ++ (n, true) :: R ∧ q = span L
  last : b.freeOwner = lastCell (.head ()) F
  apart : ∀ {L R : Runs} {m n : Nat} {free : Bool},
    rs = L ++ (m, true) :: (n, free) :: R → free = false

section

variable (h : Rep b rs F)
include h

theorem Rep.inUse {q n : Nat} (hu : b.InUse q n) :
    ∃ L a c R, rs = L ++ (a + n + c, false) :: R ∧ q = span L + a := by
  obtain ⟨hq, p, hp, hin, hle⟩ := hu
  obtain ⟨L, m, free, R, rfl, hi⟩ := h.locate hq
  obtain ⟨hseg, -⟩ := h.tile
  rw [Block.paGetrunhead_seg hseg hi] at hp
  obtain rfl : span L = p := by simpa using hp
  rw [hseg.head] at hle
  obtain rfl := h.used_of_inuse hin (le_rfl) (by omega)
  refine ⟨L, q - span L, m - (q - span L + n), R, ?_, by omega⟩
  have : q - span L + n + (m - (q - span L + n)) = m := by omega
  rw [this]

theorem Rep.free_head {q : Nat} (hq : q < b.numQuanta) (hu : b.inuse q = false)
    (hr : 0 < b.run q) : ∃ L n R, rs = L ++ (n, true) :: R ∧ q = span L := by
  obtain ⟨L, n, free, R, rfl, hi⟩ := h.locate hq
  obtain ⟨hseg, hf⟩ := h.tile
  obtain rfl : q = span L := by
    rcases Block.run_cases hseg hi with hc | hc | hc <;> omega
  cases free with
  | true => exact ⟨L, n, R, rfl, rfl⟩
  | false => exact nomatch hu.symm.trans hf

theorem Rep.carve {head start len : Nat} (ho : b.Entry (.carve head start len)) :
    ∃ b' rs' F', b.paCarve head start len = some b' ∧ Rep b' rs' F' ∧
      b'.numQuanta = b.numQuanta ∧ b.inuse start = false ∧
      (usedRuns 0 rs').Perm ((start, lenToRun len) :: usedRuns 0 rs) := by
  obtain ⟨hlt, hu, hrun, hs, hn, hle⟩ := ho
  obtain ⟨L, m, R, rfl, rfl⟩ := h.free_head hlt hu hrun
  obtain ⟨hseg, hf⟩ := h.tile
  rw [hseg.head] at hle
  obtain ⟨a, rfl⟩ := Nat.exists_eq_add_of_le hs
  obtain ⟨c, rfl⟩ : ∃ c, m = a + lenToRun len + c := ⟨m - (a + lenToRun len), by omega⟩
  obtain ⟨b', F', he, h'⟩ := h.paCarve rfl rfl rfl hn
  refine ⟨b', _, F', he, h', ?_, hf _ (by omega) (by omega), usedRuns_of_carved rfl⟩
  rw [← h'.span, ← h.span]
  simp only [span_append, span_cons, span_carved]
  omega

theorem Rep.allocGiven {pq num : Nat} (ho : b.Entry (.allocGiven pq num)) :
    ∃ b' ok rs' F', b.paAllocGiven pq num = some (b', ok) ∧ Rep b' rs' F' ∧
      if ok then (usedRuns 0 rs').Perm ((pq, num) :: usedRuns 0 rs) else b' = b ∧ rs' = rs := by
  obtain ⟨hlt, hpos, hnum⟩ := ho
  obtain ⟨L, m, free, R, rfl, hi⟩ := h.locate hlt
  obtain ⟨hseg, hf⟩ := h.tile
  have hg := Block.givenStart_seg hseg hi
  have hno : ∀ e : b.paAllocGiven pq num = some (b, false), ∃ b' ok rs' F',
      b.paAllocGiven pq num = some (b', ok) ∧ Rep b' rs' F' ∧
      if ok then (usedRuns 0 rs').Perm ((pq, num) :: usedRuns 0 (L ++ (m, free) :: R))
      else b' = b ∧ rs' = L ++ (m, free) :: R := fun e => ⟨b, false, _, F, e, h, rfl, rfl⟩
  cases free with
  | false =>
    apply hno
    have hu : b.inuse (span L) = true := hf
    rw [Block.paAllocGiven, hg, bind_some, if_pos hu]
  | true =>
    have hu : b.inuse (span L) = false := hf _ (by omega) (by omega)
    by_cases hle : (pq + num : Int) > span L + b.run (span L)
    · apply hno
      rw [Block.paAllocGiven, hg, bind_some, hu, if_neg (by simp), if_pos hle]
    have hle' := hle
    rw [hseg.head] at hle'
    obtain ⟨a, rfl⟩ := Nat.exists_eq_add_of_le hi.1
    obtain ⟨c, rfl⟩ : ∃ c, m = a + num + c := ⟨m - (a + num), by omega⟩
    obtain ⟨b', F', he, h'⟩ := h.paCarve rfl rfl (lenToRun_of_num hnum) hpos
    have hcat : L ++ carved a num c ++ R = (L ++ freeRun a) ++ (num, false) :: (freeRun c ++ R) := by
      simp [carved]
    have hnot : span L + a ∉ F' := by
      have hsp : span (L ++ freeRun a) = span L + a := by rw [span_append, span_freeRun]
      exact (hcat ▸ h').not_mem (by omega) (by omega) (.inr rfl)
    refine ⟨{ b' with links := b'.links.write (.next (span L + a)) none }, true, _, F', ?_,
      ⟨⟨h'.span, h'.tiles, h'.apart, h'.outside⟩, h'.list.scribble_next hnot none, h'.heads⟩,
      usedRuns_of_carved rfl⟩
    rw [Block.paAllocGiven, hg, bind_some, hu, if_neg hle, he]
    rfl

theorem rep_step {o : Block.Op} (ho : b.Entry o) :
    ∃ b' rs' F', b.step o = some b' ∧ Rep b' rs' F' := by
  cases o with
  | carve head start len =>
    obtain ⟨b', rs', F', he, h', -⟩ := h.carve ho
    exact ⟨b', rs', F', he, h'⟩
  | allocGiven pq num =>
    obtain ⟨b', ok, rs', F', he, h', -⟩ := h.allocGiven ho
    exact ⟨b', rs', F', by simp [Block.step, he], h'⟩
  | free paq num =>
    by_cases hn : num = 0
    · exact ⟨b, rs, F, by simp [Block.step, Block.paFree, hn], h⟩
    obtain ⟨L, a, c, R, rfl, rfl⟩ := h.inUse (ho.resolve_left hn)
    obtain ⟨b', rs', F', he, h', -⟩ := h.paFree rfl hn
    exact ⟨b', rs', F', he, h'⟩
  | use q next owner =>
    obtain ⟨L, a, c, R, rfl, rfl⟩ := h.inUse ho
    have hnot := h.not_mem (i := span L + a) (by omega) (by omega) (.inr rfl)
    exact ⟨_, _, F, rfl, ⟨h.span, h.tiles, h.apart, h.outside⟩, h.list.scribble hnot next owner,
      h.heads⟩

theorem Rep.runsOk : RunsOk b rs F := by
  have htile : ∀ {L R n free}, rs = L ++ (n, free) :: R → b.Tile (span L) n free := by
    rintro L R n free rfl
    exact h.tile
  refine ⟨h.span, ?_, ?_, ?_, ?_, h.list.linked, h.list.nodup, ?_, h.list.last, ?_⟩
  · intro L R n free e
    exact ⟨(htile e).1.pos, (htile e).1.head⟩
  · intro L R n free e
    exact (htile e).1.tail
  · intro L R n free e
    exact (htile e).1.inner
  · intro L R n free e
    obtain ⟨hseg, hf⟩ := htile e
    have hpos := hseg.pos
    cases free with
    | true => exact hf _ (le_rfl) (by omega)
    | false => exact hf
  · intro q
    rw [h.heads.mem_iff, mem_heads]
    constructor
    · rintro ⟨L, n, free, R, e, hq, hf⟩
      obtain rfl : free = true := hf
      exact ⟨L, R, n, e, by omega⟩
    · rintro ⟨L, R, n, e, hq⟩
      exact ⟨L, n, true, R, e, by omega, rfl⟩
  · rintro L R m n free rfl
    exact (apart_free_iff.mp h.apart).2.2.2 (n, free) rfl

end

section

variable (h : Reach Block.Init Block.Entry Block.step b)
include h

theorem reach_rep : ∃ rs F, Rep b rs F := by
  refine h.invariant_of_total (P := fun b => ∃ rs F, Rep b rs F) ?_ ?_
  · rintro b ⟨num, hn, rfl⟩
    exact ⟨_, _, rep_initBlock hn⟩
  · rintro b o ⟨rs, F, hb⟩ ho
    obtain ⟨b', rs', F', he, h'⟩ := rep_step hb ho
    exact ⟨b', he, rs', F', h'⟩

/-- In every state of every run the quanta form runs with the free ones on the free list, and no
call faults. -/
theorem quanta_form_runs : (∃ rs F, RunsOk b rs F) ∧ ∀ o, b.Entry o → (b.step o).isSome := by
  obtain ⟨rs, F, hr⟩ := reach_rep h
  refine ⟨⟨rs, F, hr.runsOk⟩, fun o ho => ?_⟩
  obtain ⟨b', -, -, he, -⟩ := rep_step hr ho
  rw [he]
  rfl

end

theorem quanta_form_runs_parts : ∃ b, Reach Block.Init Block.Entry Block.step b ∧
    b.run 0 = 3 ∧ b.run 3 = 2 ∧ b.run 5 = 3 ∧
    ((∃ rs F, RunsOk b rs F) ∧ ∀ o, b.Entry o → (b.step o).isSome) := by
  have h0 : Reach Block.Init Block.Entry Block.step (Block.initBlock 8) := .init ⟨8, by decide, rfl⟩
  obtain ⟨b, h, hq⟩ := h0.replay_any
    [.carve 0 2 16384, .allocGiven 7 1, .use 2 none (some (.next 4)), .free 2 1, .free 5 1,
      .free 7 1]
    (fun b => b.run 0 == 3 && b.run 3 == 2 && b.run 5 == 3) (by decide +kernel)
  simp only [Bool.and_eq_true, beq_iff_eq] at hq
  exact ⟨b, h, hq.1.1, hq.1.2, hq.2, quanta_form_runs h⟩

end Qnx.Memmgr
