import Mathlib.Data.List.Chain
import Qnx.Shared.Tiling
import Qnx.Memmgr.Pa

/-!
# Runs of quanta

`Seg` is one run as the array spells it out, `Rep` the whole block: its runs side by side, the
free ones never adjacent and all on the free list. The lemmas say what `mark` and the list work
do to them.
-/

namespace Qnx.Memmgr

open OwnerList Tiling List Function Option
open Links (ext_read read_write read_unlink owner_write read_setOwner owner_setOwner)

/-- The head holds the length, the last quantum the way back, the others zero. -/
structure Seg (run : Nat → Int) (p n : Nat) : Prop where
  pos : 0 < n
  head : run p = n
  tail : 1 < n → run (p + n - 1) = -(n - 1 : Int)
  inner : ∀ i, p < i → i < p + n - 1 → run i = 0

theorem Seg.congr {run run' : Nat → Int} {p n : Nat} (h : Seg run p n)
    (he : ∀ i, p ≤ i → i < p + n → run' i = run i) : Seg run' p n := by
  have hpos := h.pos
  refine ⟨h.pos, ?_, ?_, ?_⟩
  · rw [he p (by omega) (by omega)]
    exact h.head
  · intro hn
    rw [he _ (by omega) (by omega)]
    exact h.tail hn
  · intro i h1 h2
    rw [he i (by omega) (by omega)]
    exact h.inner i h1 h2

namespace Block

variable {b : Block} {p n q : Nat}

theorem setRun_run (b : Block) (q : Nat) (v : Int) (i : Nat) :
    (b.setRun q v).run i = if i = q then v else b.run i := by
  simp [setRun, update_apply]

theorem setTail_run (b : Block) (q : Nat) (v : Int) (i : Nat) : (b.setTail q v).run i =
    if 1 < b.run q ∧ i = q + (b.run q).toNat - 1 then v else b.run i := by
  unfold setTail
  by_cases h : 1 < b.run q
  · simp [h, update_apply]
  · simp [h]

theorem mark_run (b : Block) (q n i : Nat) : (b.mark q n).run i =
    if 1 < n ∧ i = q + n - 1 then -(n - 1 : Int) else if i = q then (n : Int) else b.run i := by
  have hq : (b.setRun q n).run q = n := by simp [setRun_run]
  have hc : 1 < (n : Int) ↔ 1 < n := by omega
  simp only [mark, setTail_run, hq, tailCalc, setRun_run, Int.toNat_natCast, hc]

theorem mark_seg (hn : 0 < n) (hb : ∀ i, p < i → i < p + n - 1 → b.run i = 0) :
    Seg (b.mark p n).run p n := by
  refine ⟨hn, ?_, ?_, ?_⟩
  · rw [mark_run]
    split <;> [omega; simp]
  · intro h
    rw [mark_run, if_pos ⟨h, rfl⟩]
  · intro i h1 h2
    rw [mark_run, if_neg (by omega), if_neg (by omega)]
    exact hb i h1 h2

theorem mark_of_ne {i : Nat} (h : i ≠ p ∧ i ≠ p + n - 1) : (b.mark p n).run i = b.run i := by
  rw [mark_run, if_neg (by omega), if_neg h.1]

theorem inuse_or (b : Block) (q i : Nat) :
    (b.modFlags q (· ||| flagInuse)).inuse i = (decide (i = q) || b.inuse i) := by
  by_cases h : i = q
  · subst h
    have he : (b.flags i ||| flagInuse) &&& flagInuse = flagInuse := by
      ext j
      simp
      tauto
    have hne : (flagInuse != 0) = true := by decide
    simp only [inuse, modFlags, update_self, he, hne, decide_true, Bool.true_or]
  · simp [inuse, modFlags, h]

theorem and_inuse_of_disjoint {m : BitVec 16} (hm : m &&& flagInuse = 0) (f : BitVec 16) :
    f &&& m &&& flagInuse = 0 := by
  rw [BitVec.and_assoc, hm]
  exact BitVec.and_zero

theorem inuse_and {m : BitVec 16} (hm : m &&& flagInuse = 0) (b : Block) (q i : Nat) :
    (b.modFlags q (· &&& m)).inuse i = (!decide (i = q) && b.inuse i) := by
  by_cases h : i = q
  · subst h
    simp [inuse, modFlags, and_inuse_of_disjoint hm]
  · simp [inuse, modFlags, h]

theorem inuse_clearFlags (b : Block) (paq num i : Nat) : (b.clearFlags paq num).inuse i =
    (!decide (paq ≤ i ∧ i < paq + num) && b.inuse i) := by
  have hm : preserveBits &&& flagInuse = 0 := by decide
  by_cases h : paq ≤ i ∧ i < paq + num
  · simp [inuse, clearFlags, h, and_inuse_of_disjoint hm]
  · simp [inuse, clearFlags, h]

end Block

/-- The free list spells out `F`, and `fo` is the cell at its end. -/
structure FreeList (ln : Links Unit Nat) (fo : Cell Unit Nat) (F : List Nat) : Prop where
  linked : Linked ln (.head ()) F
  nodup : F.Nodup
  last : fo = lastCell (.head ()) F

namespace FreeList

variable {b : Block} {l1 l2 F : List Nat} {q rhs : Nat}

theorem scribble {ln : Links Unit Nat} {fo : Cell Unit Nat} (h : FreeList ln fo F) (hq : q ∉ F)
    (v : Option Nat) (o : Option (Cell Unit Nat)) :
    FreeList ((ln.write (.next q) v).setOwner q o) fo F :=
  ⟨h.linked.scribble (by simp) hq v o, h.nodup, h.last⟩

theorem unlinkFree (h : FreeList b.links b.freeOwner (l1 ++ q :: l2)) :
    ∃ ln fo, b.unlinkFree q = some { b with links := ln, freeOwner := fo } ∧
      FreeList ln fo (l1 ++ l2) := by
  have ho := h.linked.owner_mem
  have hn := h.linked.next_mem
  have hl := h.linked.unlink h.nodup (outside_head _ _)
  have hnd := h.nodup.sublist (Sublist.append_left (sublist_cons_self q l2) l1)
  cases l2 with
  | cons x l2 =>
    refine ⟨b.links.unlink q, b.freeOwner, by simp [Block.unlinkFree, ho, hn], hl, hnd, ?_⟩
    have hne : x :: l2 ≠ [] := by simp
    have hl : l1 ++ q :: x :: l2 = (l1 ++ [q]) ++ x :: l2 := by simp
    rw [h.last, hl, lastCell_append_of_ne _ (.head ()) l1 hne,
      lastCell_append_of_ne _ (.head ()) _ hne]
  | nil =>
    have hw : (b.links.unlink q).write (lastCell (.head ()) l1) none = b.links.unlink q := by
      apply ext_read
      · intro c
        rw [read_write]
        split
        · rename_i hc
          rw [hc, read_unlink b.links ho, if_pos rfl, hn]
          rfl
        · rfl
      · intro a
        rw [owner_write]
    refine ⟨b.links.unlink q, lastCell (.head ()) l1, by simp [Block.unlinkFree, ho, hn, hw], hl,
      hnd, ?_⟩
    rw [append_nil]

theorem addTail (h : FreeList b.links b.freeOwner F) (hq : q ∉ F) :
    ∃ ln fo, b.addTail q = { b with links := ln, freeOwner := fo } ∧ FreeList ln fo (F ++ [q]) := by
  refine ⟨_, _, rfl, ?_, ?_, ?_⟩
  · have hF : Linked b.links (.head ()) (F ++ []) := by simpa using h.linked
    have hr : b.links.read (lastCell (.head ()) F) = none := hF.read_lastCell
    have hi := hF.insertAt (by simpa using h.nodup) (by simpa using hq) (by simp) (outside_head _ _)
    simpa only [Links.insertAt, hr, h.last] using hi
  · rw [nodup_append]
    refine ⟨h.nodup, nodup_singleton q, ?_⟩
    intro a ha c hc e
    rw [mem_singleton.mp hc] at e
    exact hq (e ▸ ha)
  · exact (lastCell_append_singleton _ _ _).symm

theorem scribble_next {ln : Links Unit Nat} {fo : Cell Unit Nat} (h : FreeList ln fo F)
    (hq : q ∉ F) (v : Option Nat) : FreeList (ln.write (.next q) v) fo F := by
  have hs := h.scribble hq v ((ln.write (.next q) v).owner q)
  rwa [Links.setOwner, update_eq_self] at hs

theorem ownNext_eq (b : Block) {L : Links Unit Nat} (ln : Links Unit Nat) (c : Cell Unit Nat)
    (hr : ∀ d, L.read d =
      if d = c then some rhs else if d = .next rhs then ln.read c else ln.read d)
    (ho : L.owner rhs = some c)
    (ho' : ∀ a ≠ rhs, ln.read c ≠ some a → L.owner a = ln.owner a)
    (hc : .next rhs ≠ c) (hx : ln.read c ≠ some rhs) :
    ({ b with links := L } : Block).ownNext rhs = { b with
        links := ln.insertAt c rhs
        freeOwner := if (ln.read c).isSome then b.freeOwner else .next rhs } := by
  have hn : L.next rhs = ln.read c := by
    have := hr (.next rhs)
    rwa [if_neg hc, if_pos rfl] at this
  cases hread : ln.read c with
  | none =>
    have hL : L = ln.insertAt c rhs := by
      apply ext_read
      · intro d
        rw [hr, Links.read_insertAt]
      · intro a
        rw [Links.owner_insertAt, hread]
        by_cases ha : a = rhs
        · rw [if_pos ha, ha, ho]
        · rw [if_neg ha]
          exact ho' a ha (by simp [hread])
    rw [← hL]
    simp [Block.ownNext, hn, hread]
  | some x =>
    have hL : L.setOwner x (some (.next rhs)) = ln.insertAt c rhs := by
      apply ext_read
      · intro d
        rw [read_setOwner, hr, Links.read_insertAt]
      · intro a
        rw [owner_setOwner, Links.owner_insertAt, hread]
        by_cases ha : a = rhs
        · have hax : a ≠ x := by
            intro e
            exact hx (by rw [hread, ← e, ha])
          rw [if_neg hax, if_pos ha, ha, ho]
        rw [if_neg ha]
        by_cases hax : a = x
        · rw [if_pos hax, if_pos (by rw [hax])]
        · rw [if_neg hax, if_neg (by simpa using Ne.symm hax)]
          exact ho' a ha (by simpa [hread] using Ne.symm hax)
    simp [Block.ownNext, hn, hread, hL]

theorem last_insert {fo : Cell Unit Nat} {m : List Nat} (h : fo = lastCell (.head ()) (m ++ l2)) :
    (if l2.head?.isSome then fo else .next rhs) = lastCell (.head ()) (l1 ++ rhs :: l2) := by
  cases l2 with
  | nil => simp
  | cons x l2 =>
    have hne : x :: l2 ≠ [] := by simp
    have hl : l1 ++ rhs :: x :: l2 = (l1 ++ [rhs]) ++ x :: l2 := by simp
    rw [head?_cons, isSome_some, if_pos rfl, h, hl,
      lastCell_append_of_ne _ (.head ()) m hne, lastCell_append_of_ne _ (.head ()) _ hne]

theorem nodup_insert (h : (l1 ++ l2).Nodup) (hq : rhs ∉ l1 ++ l2) : (l1 ++ rhs :: l2).Nodup :=
  nodup_middle.mpr (nodup_cons.mpr ⟨hq, h⟩)

theorem linkAfter (h : FreeList b.links b.freeOwner (l1 ++ q :: l2)) (hq : rhs ∉ l1 ++ q :: l2) :
    ∃ ln fo, b.linkAfter q rhs = { b with links := ln, freeOwner := fo } ∧
      FreeList ln fo (l1 ++ q :: rhs :: l2) := by
  have hne : rhs ≠ q := fun e => hq (by simp [e])
  have hF : Linked b.links (.head ()) ((l1 ++ [q]) ++ l2) := by simpa using h.linked
  have hcell : lastCell (.head ()) (l1 ++ [q]) = (.next q : Cell Unit Nat) :=
    lastCell_append_singleton _ _ _
  have hread : b.links.read (.next q) = l2.head? := hcell ▸ hF.read_lastCell
  have hx : b.links.read (.next q) ≠ some rhs := by
    rw [hread]
    intro e
    exact hq (by simp [mem_of_mem_head? e])
  have hq' : rhs ∉ (l1 ++ [q]) ++ l2 := by simpa using hq
  have hnd : ((l1 ++ [q]) ++ l2).Nodup := by simpa using h.nodup
  have hi := hF.insertAt hnd hq' (by simp) (outside_head _ _)
  refine ⟨_, _, ownNext_eq b b.links (.next q) (fun d => ?_) ?_ (fun a ha _ => ?_)
    (by simpa using hne) hx, ?_, ?_, ?_⟩
  · rw [read_write, read_setOwner, read_write]
    rfl
  · rw [owner_write, owner_setOwner, if_pos rfl]
  · rw [owner_write, owner_setOwner, if_neg ha, owner_write]
  · simpa using hi
  · simpa using nodup_insert hnd hq'
  · have hlast : b.freeOwner = lastCell (.head ()) ((l1 ++ [q]) ++ l2) := by simpa using h.last
    have hend : (if l2.head?.isSome then b.freeOwner else .next rhs) =
        lastCell (.head ()) ((l1 ++ [q]) ++ rhs :: l2) := last_insert hlast
    rw [hread, hend, append_assoc, singleton_append]

theorem relink (h : FreeList b.links b.freeOwner (l1 ++ q :: l2)) (hq : rhs ∉ l1 ++ q :: l2) :
    ∃ ln fo, b.relink q rhs = some { b with links := ln, freeOwner := fo } ∧
      FreeList ln fo (l1 ++ rhs :: l2) := by
  have ho := h.linked.owner_mem
  have hn := h.linked.next_mem
  have hl := h.linked.unlink h.nodup (outside_head _ _)
  have hnd := h.nodup.sublist (Sublist.append_left (sublist_cons_self q l2) l1)
  have hq' : rhs ∉ l1 ++ l2 := fun hm =>
    hq (Sublist.subset (Sublist.append_left (sublist_cons_self q l2) l1) hm)
  have hql : q ∉ l1 := fun hm =>
    (nodup_append.mp h.nodup).2.2 q hm q mem_cons_self rfl
  have hcq : lastCell (.head ()) l1 ≠ (.next q : Cell Unit Nat) :=
    (lastCell_ne (by simp) (outside_next hql)).symm
  have hcr : (.next rhs : Cell Unit Nat) ≠ lastCell (.head ()) l1 :=
    lastCell_ne (by simp) (outside_next fun hm => hq' (mem_append_left l2 hm))
  have hread : (b.links.unlink q).read (lastCell (.head ()) l1) = l2.head? := by
    rw [read_unlink b.links ho, if_pos rfl, hn]
  have hx : (b.links.unlink q).read (lastCell (.head ()) l1) ≠ some rhs := by
    rw [hread]
    intro e
    exact hq' (mem_append_right l1 (mem_of_mem_head? e))
  have hi := hl.insertAt hnd hq' (by simp) (outside_head _ _)
  have hnext : ((b.links.setOwner rhs (some (lastCell (.head ()) l1))).write
      (lastCell (.head ()) l1) (some rhs)).next q = l2.head? := by
    rw [← hn]
    exact Links.read_write_ne _ hcq.symm _
  have heq := ownNext_eq (L := (((b.links.setOwner rhs (some (lastCell (.head ()) l1))).write
    (lastCell (.head ()) l1) (some rhs)).write (.next rhs) l2.head?)) b (b.links.unlink q)
    (lastCell (.head ()) l1) (fun d => ?_) ?_ (fun a ha hne => ?_) hcr hx
  · refine ⟨(b.links.unlink q).insertAt (lastCell (.head ()) l1) rhs,
      if l2.head?.isSome then b.freeOwner else .next rhs, ?_, hi, nodup_insert hnd hq', ?_⟩
    · simp only [Block.relink, ho, map_some, hnext, heq, hread]
    · have hlast : b.freeOwner = lastCell (.head ()) ((l1 ++ [q]) ++ l2) := by simpa using h.last
      exact last_insert hlast
  · rw [hread, read_write, read_write, read_setOwner, read_unlink b.links ho]
    by_cases hd : d = lastCell (.head ()) l1
    · rw [if_neg (hd ▸ hcr.symm), if_pos hd, if_pos hd]
    · rw [if_neg hd, if_neg hd, if_neg hd]
  · rw [owner_write, owner_write, owner_setOwner, if_pos rfl]
  · rw [hread] at hne
    rw [owner_write, owner_write, owner_setOwner, if_neg ha,
      Links.owner_unlink b.links ho, hn, if_neg hne]

end FreeList

/-- The runs of a block: lengths, and whether free. -/
abbrev Runs := List (Nat × Bool)

def Apart (rs : Runs) : Prop := rs.IsChain fun s t => s.2 = true → t.2 = false

namespace Block

variable {b : Block} {p n i : Nat}

def Tile (b : Block) (p n : Nat) (free : Bool) : Prop :=
  Seg b.run p n ∧ if free then ∀ i, p ≤ i → i < p + n → b.inuse i = false else b.inuse p = true

theorem Tile.congr {b' : Block} {free : Bool} (h : b.Tile p n free)
    (hr : ∀ i, p ≤ i → i < p + n → b'.run i = b.run i ∧ b'.inuse i = b.inuse i) :
    b'.Tile p n free := by
  have hpos := h.1.pos
  refine ⟨h.1.congr fun i h1 h2 => (hr i h1 h2).1, ?_⟩
  have h2 := h.2
  cases free with
  | true =>
    intro i hi hi'
    rw [(hr i hi hi').2]
    exact h2 i hi hi'
  | false =>
    rw [(hr p (by omega) (by omega)).2]
    exact h2

theorem tiles_congr {b' : Block} {l : Runs} (h : Tiles b.Tile p l)
    (hr : ∀ i, p ≤ i → i < p + span l → b'.run i = b.run i ∧ b'.inuse i = b.inuse i) :
    Tiles b'.Tile p l := by
  refine h.frame fun q m t hq hm ht => ht.congr ?_
  intro i h1 h2
  exact hr i (by omega) (by omega)

section

variable (h : Seg b.run p n)
include h

theorem backup_seg (i : Nat) : p < i → i ≤ p + n - 1 → b.backup i = some p := by
  induction i with
  | zero => omega
  | succ i ih =>
    intro h1 h2
    rw [backup]
    by_cases hi : i = p
    · rw [hi, h.head, if_neg (by omega)]
    · rw [h.inner i (by omega) (by omega)]
      exact ih (by omega) (by omega)

theorem jump_tail (hn : 1 < n) : b.jump (p + n - 1) = some p := by
  rw [jump, h.tail hn]
  have : ((p + n - 1 : Nat) : Int) + -((n : Int) - 1) = (p : Int) := by omega
  rw [this]
  rfl

theorem run_cases (hi : p ≤ i ∧ i < p + n) :
    (i = p ∧ 0 < b.run i) ∨ (i = p + n - 1 ∧ 1 < n ∧ b.run i < 0) ∨
      (p < i ∧ i < p + n - 1 ∧ b.run i = 0) := by
  by_cases hi : i = p
  · exact .inl ⟨hi, by rw [hi, h.head]; omega⟩
  by_cases hl : i = p + n - 1
  · exact .inr (.inl ⟨hl, by omega, by rw [hl, h.tail (by omega)]; omega⟩)
  · exact .inr (.inr ⟨by omega, by omega, h.inner i (by omega) (by omega)⟩)

theorem paGetrunhead_seg (hi : p ≤ i ∧ i < p + n) : b.paGetrunhead i = some p := by
  unfold paGetrunhead
  rcases run_cases h hi with ⟨hi, hr⟩ | ⟨hi, hn, hr⟩ | ⟨hi, hi', hr⟩
  · rw [if_neg (by omega), if_pos hr, hi]
  · rw [if_pos hr, hi]
    exact jump_tail h hn
  · rw [if_neg (by omega), if_neg (by omega)]
    exact backup_seg h i hi (by omega)

theorem givenStart_seg (hi : p ≤ i ∧ i < p + n) : b.givenStart i = some p := by
  have hp : ¬b.run p < 0 := by
    rw [h.head]
    omega
  unfold givenStart
  rcases run_cases h hi with ⟨hi, hr⟩ | ⟨hi, hn, hr⟩ | ⟨hi, hi', hr⟩
  · rw [if_neg (by omega), bind_some, hi, if_neg hp]
  · rw [if_neg (by omega), bind_some, if_pos hr, hi]
    exact jump_tail h hn
  · rw [if_pos hr, backup_seg h i hi (by omega), bind_some, if_neg hp]

end

end Block

structure Laid (b : Block) (rs : Runs) : Prop where
  span : span rs = b.numQuanta
  tiles : Tiles b.Tile 0 rs
  apart : Apart rs
  outside : ∀ i, b.numQuanta ≤ i → b.run i = 0 ∧ b.inuse i = false

theorem laid_of {b b' : Block} {L M R : Runs} (hs : span L + span M + span R = b.numQuanta)
    (hL : Tiles b.Tile 0 L) (hR : Tiles b.Tile (span L + span M) R)
    (ho : ∀ i, b.numQuanta ≤ i → b.run i = 0 ∧ b.inuse i = false)
    (hn : b'.numQuanta = b.numQuanta) (hf : ∀ i, i < span L ∨ span L + span M ≤ i →
      b'.run i = b.run i ∧ b'.inuse i = b.inuse i)
    (ht : Tiles b'.Tile (span L) M) (ha : Apart (L ++ M ++ R)) : Laid b' (L ++ M ++ R) := by
  refine ⟨?_, ?_, ha, ?_⟩
  · rw [span_append, span_append, hn, hs]
  · rw [tiles_append, tiles_append, span_append, Nat.zero_add, Nat.zero_add]
    exact ⟨⟨Block.tiles_congr hL fun i _ hi => hf i (.inl (by omega)), ht⟩,
      Block.tiles_congr hR fun i hi _ => hf i (.inr hi)⟩
  · intro i hi
    rw [hn] at hi
    obtain ⟨h1, h2⟩ := hf i (.inr (by omega))
    rw [h1, h2]
    exact ho i hi

structure Rep (b : Block) (rs : Runs) (F : List Nat) : Prop extends Laid b rs where
  list : FreeList b.links b.freeOwner F
  heads : F.Perm (heads id 0 rs)

namespace Rep

variable {b b' : Block} {rs L M M' R : Runs} {F F' : List Nat} {n : Nat} {free : Bool}

theorem tile (h : Rep b (L ++ (n, free) :: R) F) : b.Tile (span L) n free := by
  have ht := (tiles_append.mp h.tiles).2
  rw [Nat.zero_add] at ht
  exact ht.1

theorem pos (h : Rep b rs F) : ∀ t ∈ rs, 0 < t.1 := h.tiles.forall_mem fun _ _ ht => ht.1.pos

theorem locate (h : Rep b rs F) {i : Nat} (hi : i < b.numQuanta) :
    ∃ L n free R, rs = L ++ (n, free) :: R ∧ Tiling.span L ≤ i ∧ i < span L + n := by
  rw [← h.span] at hi
  simpa using exists_tile rs (Nat.zero_le i) (by simpa using hi)

theorem splice (h : Rep b (L ++ M ++ R) F) (hn : b'.numQuanta = b.numQuanta)
    (hspan : span M' = span M)
    (hf : ∀ i, i < span L ∨ span L + span M ≤ i → b'.run i = b.run i ∧ b'.inuse i = b.inuse i)
    (ht : Tiles b'.Tile (span L) M') (ha : Apart (L ++ M' ++ R))
    (hl : FreeList b'.links b'.freeOwner F')
    (hp : F'.Perm (Tiling.heads id 0 (L ++ M' ++ R))) : Rep b' (L ++ M' ++ R) F' := by
  have hs := h.span
  have ht' := h.tiles
  rw [tiles_append, tiles_append] at ht'
  obtain ⟨⟨hL, -⟩, hR⟩ := ht'
  simp only [span_append, Nat.zero_add, ← hspan] at hs hR hf
  exact ⟨laid_of hs hL hR h.outside hn hf ht ha, hl, hp⟩

theorem not_mem (h : Rep b (L ++ (n, free) :: R) F) {i : Nat} (h1 : span L ≤ i)
    (h2 : i < span L + n) (hf : span L < i ∨ free = false) : i ∉ F := by
  have hpos := h.pos
  intro hm
  rw [h.heads.mem_iff, heads_append, Nat.zero_add, mem_append, Tiling.heads] at hm
  rcases hm with hm | hm
  · have := (heads_bounds (fun t ht => hpos t (by simp [ht])) hm).2
    omega
  have hR : i ∉ Tiling.heads id (span L + n) R := by
    intro hr
    have := (heads_bounds (fun t ht => hpos t (by simp [ht])) hr).1
    omega
  split at hm
  · rename_i hfree
    rcases mem_cons.mp hm with hm | hm
    · rcases hf with hf | hf
      · omega
      · rw [hf] at hfree
        cases hfree
    · exact hR hm
  · exact hR hm

theorem free_split (h : Rep b (L ++ (n, true) :: R) F) : ∃ l1 l2, F = l1 ++ span L :: l2 ∧
      (l1 ++ l2).Perm (Tiling.heads id 0 L ++ Tiling.heads id (span L + n) R) := by
  have hp := h.heads
  rw [heads_append, Nat.zero_add, Tiling.heads] at hp
  have hmem : span L ∈ F := hp.mem_iff.mpr (by simp)
  obtain ⟨l1, l2, rfl⟩ := append_of_mem hmem
  refine ⟨l1, l2, rfl, ?_⟩
  have hp' := (perm_middle.symm.trans hp).trans perm_middle
  exact hp'.cons_inv

end Rep

theorem apart_append {l m : Runs} : Apart (l ++ m) ↔ Apart l ∧ Apart m ∧
    ∀ x ∈ l.getLast?, ∀ y ∈ m.head?, x.2 = true → y.2 = false :=
  isChain_append

theorem apart_cons {t : Nat × Bool} {l : Runs} :
    Apart (t :: l) ↔ (∀ y ∈ l.head?, t.2 = true → y.2 = false) ∧ Apart l :=
  isChain_cons

theorem apart_free_iff {L R : Runs} {n : Nat} : Apart (L ++ (n, true) :: R) ↔
    Apart L ∧ Apart R ∧ (∀ x ∈ L.getLast?, x.2 = false) ∧ ∀ y ∈ R.head?, y.2 = false := by
  rw [apart_append, apart_cons]
  constructor
  · rintro ⟨hL, ⟨hR', hR⟩, hLR⟩
    refine ⟨hL, hR, ?_, fun y hy => hR' y hy rfl⟩
    intro x hx
    by_contra hne
    exact absurd (hLR x hx (n, true) rfl (by simpa using hne)) (by simp)
  · rintro ⟨hL, hR, hL', hR'⟩
    refine ⟨hL, ⟨fun y hy _ => hR' y hy, hR⟩, ?_⟩
    intro x hx y _ ht
    rw [hL' x hx] at ht
    cases ht

theorem Apart.replace {L M R : Runs} {n : Nat} (h : Apart (L ++ (n, true) :: R))
    (hM : Apart M) : Apart (L ++ M ++ R) := by
  obtain ⟨hL, hR, hL', hR'⟩ := apart_free_iff.mp h
  rw [apart_append, apart_append]
  refine ⟨⟨hL, hM, ?_⟩, hR, fun x _ y hy _ => hR' y hy⟩
  intro x hx y _ ht
  rw [hL' x hx] at ht
  cases ht

end Qnx.Memmgr
