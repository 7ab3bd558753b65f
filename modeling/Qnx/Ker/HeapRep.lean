import Qnx.Ker.Heap

/-!
# The free list in memory

`Rep st L` says that the links and sizes in memory are those of the list `L`. Each update of the code
is one of a few on `L`, and writes only bytes of entries.
-/

namespace Qnx.Ker

open Extents Chain List Function Prod

def cell (l : List Extent) : Option Nat := endCell none (l.map fst)

def first : List Extent → Nat
  | [] => 0
  | e :: _ => e.1

def lastEntry (l : List Extent) : Nat := (cell l).getD 0

abbrev Fit8 (e : Extent) : Prop := Ok 8 (2 ^ 32) e

@[simp] theorem cell_concat (l : List Extent) (e : Extent) : cell (l ++ [e]) = some e.1 := by
  simp [cell, endCell_append]

theorem cell_mem {l : List Extent} {a : Nat} (h : cell l = some a) : ∃ e ∈ l, e.1 = a := by
  have := mem_of_endCell h
  simpa using this

theorem add32_of_lt {x y : Nat} (h : x + y < 2 ^ 32) : add32 x y = x + y :=
  Nat.mod_eq_of_lt h

theorem sub32_of_le {x y : Nat} (h : y ≤ x ∧ x < 2 ^ 32) : sub32 x y = x - y := by
  unfold sub32
  rw [show x + 2 ^ 32 - y = x - y + 2 ^ 32 by omega, Nat.add_mod_right]
  exact Nat.mod_eq_of_lt (by omega)

theorem Fit8.eight_le {e : Extent} (h : Fit8 e) : 8 ≤ e.2 := Nat.le_of_dvd h.len_pos h.len_dvd

theorem spread_nodup {L : List Extent} (h : Spread L) : (L.map fst).Nodup := by
  rw [nodup_iff_pairwise_ne, pairwise_map]
  refine h.imp ?_
  omega

namespace HeapSt

variable {st st' : HeapSt} {L l r : List Extent} {e : Extent} {a v x : Nat} {c : Option Nat}

/-! ### Single writes -/

theorem get_set (st : HeapSt) (c d : Option Nat) (v : Nat) :
    (st.set c v).get d = if d = c then v else st.get d := by
  cases c with
  | none =>
    cases d with
    | none => rfl
    | some e => rfl
  | some f =>
    cases d with
    | none => rfl
    | some e => simp [set, setNext, get, update_apply]

theorem size_setSize (st : HeapSt) (e f v : Nat) :
    (st.setSize e v).size f = if f = e then v else st.size f := by
  simp [setSize, update_apply]

theorem size_set (st : HeapSt) (c : Option Nat) (v f : Nat) : (st.set c v).size f = st.size f := by
  cases c <;> rfl

theorem get_setNext (st : HeapSt) (e v : Nat) (d : Option Nat) :
    (st.setNext e v).get d = if d = some e then v else st.get d :=
  get_set st (some e) d v

theorem get_setSize (st : HeapSt) (e v : Nat) (d : Option Nat) :
    (st.setSize e v).get d = st.get d := by
  cases d <;> rfl

theorem poke_apply (bytes : Nat → Nat) (h : ¬ (a ≤ x ∧ x < a + 4)) : poke bytes a v x = bytes x :=
  if_neg h

theorem bytes_setNext (he : Fit8 e) (hx : ¬ In e x) : (st.setNext e.1 v).bytes x = st.bytes x := by
  have := he.eight_le
  apply poke_apply
  unfold In at hx
  omega

theorem bytes_setSize (he : Fit8 e) (hx : ¬ In e x) : (st.setSize e.1 v).bytes x = st.bytes x := by
  have := he.eight_le
  apply poke_apply
  unfold In at hx
  omega

theorem bytes_set (hl : ∀ e ∈ l, Fit8 e) (hx : ¬ Covers l x) :
    (st.set (cell l) v).bytes x = st.bytes x := by
  cases hc : cell l with
  | none => rfl
  | some a =>
    obtain ⟨e, he, rfl⟩ := cell_mem hc
    exact bytes_setNext (hl e he) (fun hin => hx ⟨e, he, hin⟩)

/-! ### The represented list -/

structure Rep (st : HeapSt) (L : List Extent) : Prop where
  visits : Visits (fun c o => st.get c = o.getD 0) none (L.map fst)
  sizes : ∀ e ∈ L, st.size e.1 = e.2

theorem Rep.tail (h : Rep st (l ++ r)) :
    Visits (fun c o => st.get c = o.getD 0) (cell l) (r.map fst) := by
  have := h.visits
  rw [map_append, visits_append] at this
  exact this.2

theorem Rep.get_cell (h : Rep st (l ++ r)) : st.get (cell l) = first r := by
  have := h.tail
  cases r with
  | nil => exact this
  | cons e r => exact this.1

theorem Rep.next_eq (h : Rep st (l ++ e :: r)) : st.next e.1 = first r := by
  have h' : Rep st ((l ++ [e]) ++ r) := by simpa using h
  have := h'.get_cell
  rwa [cell_concat] at this

theorem Rep.splice {r' : List Extent} (h : Rep st (l ++ r)) (hnd : (l.map fst).Nodup)
    (hget : ∀ c, c ≠ cell l → (∀ i, c = some i → ∃ e ∈ l, e.1 = i) → st'.get c = st.get c)
    (hr : Visits (fun c o => st'.get c = o.getD 0) (cell l) (r'.map fst))
    (hsz : ∀ e ∈ l ++ r', st'.size e.1 = e.2) : Rep st' (l ++ r') := by
  refine ⟨?_, hsz⟩
  have hv := h.visits
  rw [map_append] at hv ⊢
  refine hv.splice hnd ?_ hr
  intro d hd hm o ho
  rw [hget d hd (fun i hi => by simpa using hm i hi)]
  exact ho

theorem Rep.unlink (h : Rep st (l ++ e :: r)) (hs : Spread (l ++ e :: r)) :
    Rep (st.set (cell l) (st.next e.1)) (l ++ r) := by
  have hnd := spread_nodup hs
  rw [map_append, nodup_append] at hnd
  obtain ⟨hl, hr, hlr⟩ := hnd
  refine h.splice hl ?_ ?_ ?_
  · intro c hc _
    rw [get_set, if_neg hc]
  · have ht := h.tail
    refine ht.2.rehead ?_ ?_
    · intro o ho
      rw [get_set, if_pos rfl]
      exact ho
    · intro i hi o ho
      rw [get_set, if_neg]
      · exact ho
      · intro hc
        obtain ⟨f, hf, hfi⟩ := cell_mem hc.symm
        exact hlr i (by rw [← hfi]; exact mem_map_of_mem hf) i (mem_cons_of_mem _ hi) rfl
  · intro f hf
    rw [size_set]
    apply h.sizes
    simp only [mem_append] at hf ⊢
    tauto

theorem Rep.put {a n nx : Nat} (h : Rep st (l ++ r)) {r' : List Extent}
    (hc : Visits (fun c o => st.get c = o.getD 0) c (r'.map fst)) (hnx : st.get c = nx)
    (hr : ∀ f ∈ r', st.size f.1 = f.2)
    (hnd : ((l ++ (a, n) :: r').map fst).Nodup)
    (hst : ∀ d, st'.get d = if d = cell l then a else if d = some a then nx else st.get d)
    (hsz : ∀ f, st'.size f = if f = a then n else st.size f) : Rep st' (l ++ (a, n) :: r') := by
  rw [map_append, nodup_append] at hnd
  obtain ⟨hl, hr', hlr⟩ := hnd
  obtain ⟨har, hr'⟩ := nodup_cons.mp hr'
  have hla : ∀ f ∈ l, f.1 ≠ a := by
    intro f hf
    exact hlr f.1 (mem_map_of_mem hf) a mem_cons_self
  have hcell : ∀ i, cell l = some i → i ≠ a := by
    intro i hi
    obtain ⟨f, hf, rfl⟩ := cell_mem hi
    exact hla f hf
  refine h.splice hl ?_ ⟨?_, ?_⟩ ?_
  · intro d hd hm
    rw [hst, if_neg hd, if_neg]
    rintro rfl
    obtain ⟨f, hf, hfa⟩ := hm a rfl
    exact hla f hf hfa
  · exact (hst _).trans (if_pos rfl)
  · refine hc.rehead ?_ ?_
    · intro o ho
      rw [hst, if_neg (fun heq => hcell a heq.symm rfl), if_pos rfl, ← hnx]
      exact ho
    · intro i hi o ho
      have hi' : some i ≠ cell l := by
        intro heq
        obtain ⟨f, hf, hfi⟩ := cell_mem heq.symm
        exact hlr f.1 (mem_map_of_mem hf) i (mem_cons_of_mem _ hi) hfi
      have hia : some i ≠ some a := by
        intro heq
        cases heq
        exact har hi
      rw [hst, if_neg hi', if_neg hia]
      exact ho
  · intro f hf
    rw [hsz]
    simp only [mem_append, mem_cons] at hf
    obtain hf | rfl | hf := hf
    · rw [if_neg (hla f hf)]
      exact h.sizes f (by simp [hf])
    · exact if_pos rfl
    rw [if_neg]
    · exact hr f hf
    · intro heq
      exact har (mem_map.mpr ⟨f, hf, heq⟩)

theorem Rep.replace {n : Nat} (h : Rep st (l ++ e :: r)) (hs : Spread (l ++ e :: r))
    (hn : n < e.2) :
    Rep (st.replace (cell l) (e.1 + n) (e.2 - n) (st.next e.1)) (l ++ (e.1 + n, e.2 - n) :: r) := by
  have hs' : Spread (l ++ (e.1 + n, e.2 - n) :: r) := by
    have := spread_cut hs (Nat.le_of_lt hn)
    rwa [cut, if_neg (by omega)] at this
  refine h.put (c := some e.1) h.tail.2 rfl ?_ (spread_nodup hs') ?_ ?_
  · intro f hf
    exact h.sizes f (by simp [hf])
  · intro d
    rw [HeapSt.replace, get_set, get_setNext]
    rfl
  · intro f
    rw [HeapSt.replace, size_set]
    exact size_setSize st _ _ _

theorem bytes_replace {n sz nx : Nat} (hl : ∀ f ∈ l, Fit8 f) (he : Fit8 (a, n))
    (hx : ¬ Covers (l ++ (a, n) :: r) x) :
    (st.replace (cell l) a sz nx).bytes x = st.bytes x := by
  rw [covers_append, covers_cons] at hx
  rw [HeapSt.replace, bytes_set hl (fun h => hx (.inl h))]
  exact (bytes_setNext (e := (a, n)) he (fun h => hx (.inr (.inl h)))).trans
    (bytes_setSize (e := (a, n)) he (fun h => hx (.inr (.inl h))))

/-! ### Freeing a block -/

/-- Where a block belongs: all before it is in `l`, all after it in `r`, and `prev` is the last entry
before it, unless none there touches it. -/
structure At (L : List Extent) (pp : Option Nat) (prev : Nat) (e : Extent) (l r : List Extent) :
    Prop where
  eq : L = l ++ r
  pp_eq : pp = cell l
  before : ∀ f ∈ l, f.1 + f.2 ≤ e.1
  after : ∀ f ∈ r, e.1 + e.2 ≤ f.1
  prev_eq : prev = lastEntry l ∨ prev = 0 ∧ ∀ f ∈ l, f.1 + f.2 < e.1

theorem joinNext_rep (h : Rep st (l ++ e :: r)) (hnd : ((l ++ e :: r).map fst).Nodup)
    (hok : ∀ f ∈ l ++ e :: r, Fit8 f) : Rep (st.joinNext e.1) (l ++ join e r) := by
  have he := hok e (by simp)
  have hsz := h.sizes e (by simp)
  have hlt := he.lt_top
  have hnx := h.next_eq
  unfold joinNext
  rw [hsz, add32_of_lt hlt]
  cases r with
  | nil =>
    have hne : ¬ (e.1 + e.2 = st.next e.1) := by
      have := he.start_pos
      rw [hnx, first]
      omega
    rw [if_neg hne]
    exact h
  | cons f r =>
    have hf := hok f (by simp)
    have hfsz := h.sizes f (by simp)
    have hflt := hf.lt_top
    rw [show st.next e.1 = f.1 from hnx, join]
    by_cases heq : e.1 + e.2 = f.1
    · have h' : Rep st ((l ++ [e]) ++ f :: r) := by simpa using h
      have hfn := h'.next_eq
      rw [if_pos heq, if_pos heq, hfsz, add32_of_lt (by omega), hfn]
      have hnd' : ((l ++ (e.1, e.2 + f.2) :: r).map fst).Nodup := by
        refine hnd.sublist ?_
        simp only [map_append]
        exact (Sublist.refl _).append ((sublist_cons_self _ _).cons_cons _)
      refine h.put (c := some f.1) h'.tail.2 hfn ?_ hnd' ?_ ?_
      · intro g hg
        exact h.sizes g (by simp [hg])
      · intro d
        rw [get_setSize, get_setNext]
        by_cases hd : d = cell l
        · rw [if_pos hd, if_neg, hd, h.get_cell, first]
          intro hc
          obtain ⟨g, hg, hge⟩ := cell_mem (hd.symm.trans hc)
          rw [map_append, nodup_append] at hnd
          exact hnd.2.2 g.1 (mem_map_of_mem hg) e.1 (by simp) hge
        · rw [if_neg hd]
      · intro g
        exact size_setSize _ _ _ _
    · rw [if_neg heq, if_neg heq]
      exact h

theorem joinNext_bytes (he : Fit8 e) (hx : ¬ In e x) : (st.joinNext e.1).bytes x = st.bytes x := by
  unfold joinNext
  dsimp only
  split
  · exact (bytes_setSize he hx).trans (bytes_setNext he hx)
  · rfl

theorem nodup_placed (hs : Spread (l ++ r)) (hlen : 0 < e.2)
    (hbefore : ∀ f ∈ l, f.1 + f.2 < e.1) (hafter : ∀ f ∈ r, e.1 + e.2 ≤ f.1) :
    ((l ++ e :: r).map fst).Nodup := by
  refine (perm_middle.map _).nodup_iff.mpr (nodup_cons.mpr ⟨fun hm => ?_, spread_nodup hs⟩)
  obtain ⟨f, hf, hfe⟩ := mem_map.mp hm
  rcases mem_append.mp hf with hf | hf
  · have := hbefore f hf
    omega
  · have := hafter f hf
    omega

/-- The block `e` is in place, in `st'`, between `l` and `r`: the last step joins it with `r`. -/
theorem joinNext_placed (h : Rep st' (l ++ e :: r)) (hs : Spread (l ++ r))
    (hok : ∀ f ∈ l ++ r, Fit8 f) (he : Fit8 e) (hbefore : ∀ f ∈ l, f.1 + f.2 < e.1)
    (hafter : ∀ f ∈ r, e.1 + e.2 ≤ f.1)
    (hbytes : ∀ x, ¬ Covers l x → ¬ In e x → st'.bytes x = st.bytes x) :
    ∃ L', Rep (st'.joinNext e.1) L' ∧ Spread L' ∧ (∀ f ∈ L', Fit8 f) ∧
      (∀ x, Covers L' x ↔ Covers (l ++ r) x ∨ In e x) ∧ total L' = total (l ++ r) + e.2 ∧
      ∀ x, ¬ Covers L' x → (st'.joinNext e.1).bytes x = st.bytes x := by
  have hok' : ∀ f ∈ l ++ e :: r, Fit8 f := by
    intro f hf
    obtain rfl | hf := mem_cons.mp (perm_middle.mem_iff.mp hf)
    · exact he
    · exact hok f hf
  have hnd := nodup_placed hs he.len_pos hbefore hafter
  refine ⟨l ++ join e r, joinNext_rep h hnd hok', spread_join hs hbefore hafter, ?_, ?_, ?_, ?_⟩
  · intro f hf
    obtain hf | hf := mem_append.mp hf
    · exact hok f (by simp [hf])
    · exact ok_join he (fun g hg => hok g (by simp [hg])) f hf
  · intro x
    rw [covers_append, covers_join, covers_append]
    tauto
  · simp only [total_append, total_join]
    omega
  · intro x hx
    rw [covers_append, covers_join] at hx
    have hxe : ¬ In e x := fun hin => hx (.inr (.inl hin))
    rw [joinNext_bytes he hxe]
    exact hbytes x (fun hc => hx (.inl hc)) hxe

theorem freeBlock_rep {pp : Option Nat} {prev : Nat} (h : Rep st L) (hs : Spread L)
    (hok : ∀ f ∈ L, Fit8 f) (he : Fit8 e) (hat : At L pp prev e l r) :
    ∃ L', Rep (st.freeBlock pp prev e.1 e.2) L' ∧ Spread L' ∧ (∀ f ∈ L', Fit8 f) ∧
      (∀ x, Covers L' x ↔ Covers L x ∨ In e x) ∧ total L' = total L + e.2 ∧
      ∀ x, ¬ Covers L' x → (st.freeBlock pp prev e.1 e.2).bytes x = st.bytes x := by
  obtain ⟨rfl, rfl, hbefore, hafter, hprev⟩ := hat
  have hlt := he.lt_top
  have hlen := he.len_pos
  unfold freeBlock joinPrev
  by_cases hj : prev ≠ 0 ∧ add32 prev (st.size prev) = e.1
  · -- The entry before touches the block.
    rw [if_pos hj]
    obtain ⟨hp0, hadd⟩ := hj
    have hprev : prev = lastEntry l := by
      obtain hp | ⟨hp, -⟩ := hprev
      · exact hp
      · exact absurd hp hp0
    obtain ⟨l, q, rfl⟩ : ∃ l' q, l = l' ++ [q] := by
      rcases eq_nil_or_concat l with rfl | ⟨l', q, rfl⟩
      · exact absurd hprev hp0
      · exact ⟨l', q, by simp⟩
    obtain rfl : prev = q.1 := by rw [hprev, lastEntry, cell_concat]; rfl
    have hqok := hok q (by simp)
    have hqsz := h.sizes q (by simp)
    rw [hqsz, add32_of_lt hqok.lt_top] at hadd
    rw [hqsz, add32_of_lt (by omega)]
    rw [append_assoc, singleton_append] at hs hok ⊢
    have hnd := spread_nodup hs
    rw [map_append, map_cons] at hnd
    have hq' : q.1 ∉ (l ++ r).map fst := by
      rw [map_append]
      exact (nodup_cons.mp (nodup_middle.mp hnd)).1
    have hrep : Rep (st.setSize q.1 (q.2 + e.2)) (l ++ (q.1, q.2 + e.2) :: r) := by
      refine ⟨by simpa [get_setSize] using h.visits, fun f hf => ?_⟩
      rw [size_setSize]
      obtain rfl | hf := mem_cons.mp (perm_middle.mem_iff.mp hf)
      · exact if_pos rfl
      · rw [if_neg fun heq => hq' (by rw [← heq]; exact mem_map_of_mem hf)]
        exact h.sizes f (by simpa [or_left_comm] using .inr (mem_append.mp hf))
    have hqe : Fit8 (q.1, q.2 + e.2) := by
      refine ⟨hqok.start_pos, hqok.start_dvd, Nat.add_pos_left hqok.len_pos _,
        Nat.dvd_add hqok.len_dvd he.len_dvd, ?_⟩
      omega
    have hcov : ∀ x, In (q.1, q.2 + e.2) x ↔ In q x ∨ In e x := by
      simp only [In]
      omega
    have hsub := (sublist_cons_self q r).append_left l
    obtain ⟨L', h1, h2, h3, h4, h5, h6⟩ := joinNext_placed hrep (hs.sublist hsub)
      (fun f hf => hok f (hsub.subset hf)) hqe
      (fun f hf => (pairwise_append.mp hs).2.2 f hf q (by simp))
      (fun f hf => by have := hafter f hf; omega)
      (fun x _ hx => bytes_setSize hqok fun hin => hx ((hcov x).mpr (.inl hin)))
    refine ⟨L', h1, h2, h3, fun x => ?_, ?_, h6⟩
    · rw [h4, hcov, covers_append, covers_append, covers_cons]
      tauto
    · simp only [h5, total_append, total_cons]
      omega
  · -- The block becomes an entry of its own.
    rw [if_neg hj]
    have hstrict : ∀ f ∈ l, f.1 + f.2 < e.1 := by
      obtain hp | ⟨-, hp⟩ := hprev
      · rcases eq_nil_or_concat l with rfl | ⟨l', q, rfl⟩
        · simp
        have hq : prev = q.1 := by rw [hp, lastEntry, concat_eq_append, cell_concat]; rfl
        have hqok := hok q (by simp)
        have hqsz := h.sizes q (by simp)
        have hq0 := hqok.start_pos
        have hqe := hbefore q (by simp)
        have hqlt : q.1 + q.2 < e.1 := by
          have : ¬ (q.1 + q.2 = e.1) := by
            intro heq
            apply hj
            rw [hq, hqsz, add32_of_lt hqok.lt_top]
            exact ⟨by omega, heq⟩
          omega
        intro f hf
        rw [concat_eq_append, mem_append, mem_singleton] at hf
        obtain hf | rfl := hf
        · have := (pairwise_append.mp (pairwise_append.mp (by
            simpa [Spread] using hs : List.Pairwise _ ((l' ++ [q]) ++ r))).1).2.2 f hf q (by simp)
          omega
        · exact hqlt
      · exact hp
    have hrep : Rep (((st.setNext e.1 (st.get (cell l))).setSize e.1 e.2).set (cell l) e.1)
        (l ++ e :: r) := by
      refine h.put (a := e.1) (n := e.2) h.tail rfl (fun f hf => h.sizes f (by simp [hf]))
        (nodup_placed hs hlen hstrict hafter) ?_ ?_
      · intro d
        rw [get_set, get_setSize, get_setNext]
      · intro f
        rw [size_set]
        exact size_setSize _ _ _ _
    refine joinNext_placed hrep hs hok he hstrict hafter fun x hl hx => ?_
    rw [bytes_set (fun f hf => hok f (by simp [hf])) hl]
    exact (bytes_setSize he hx).trans (bytes_setNext he hx)

end HeapSt

end Qnx.Ker
