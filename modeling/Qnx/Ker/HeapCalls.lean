import Qnx.Ker.HeapWalk

/-!
# What the calls do to the heap

Each path of `_sreallocfunc` as an exchange between the free list `L` and the blocks that are out.
-/

namespace Qnx.Ker

open Extents List Option

/-- The heap with the blocks `B` out of the regions `R`. -/
abbrev HeapOwns (L B R : List Extent) : Prop := Owns 8 (2 ^ 32) L B R

namespace HeapSt

variable {st st' : HeapSt} {L B R D l r : List Extent} {e f : Extent} {n x data old prev : Nat}
  {pp : Option Nat}

theorem owns_ok_free (ho : HeapOwns L B R) : ∀ f ∈ L, Fit8 f :=
  fun f hf => ho.ok f (mem_append_left _ hf)

theorem owns_ok_out (ho : HeapOwns L B R) : ∀ f ∈ B, Fit8 f :=
  fun f hf => ho.ok f (mem_append_right _ hf)

theorem owns_not_free (ho : HeapOwns L B R) (hx : Covers B x) : ¬ Covers L x :=
  fun h => ho.out x h hx

theorem Rep.congr (h : Rep st L) (hg : ∀ c, st'.get c = st.get c)
    (hs : ∀ f ∈ L, st'.size f.1 = st.size f.1) : Rep st' L where
  visits := by
    have := h.visits
    simpa only [hg] using this
  sizes := by
    intro f hf
    rw [hs f hf]
    exact h.sizes f hf

/-! ### Freeing -/

theorem freeBlock_owns (h : Rep st L) (ho : HeapOwns L (e :: B) R) (hat : At L pp prev e l r) :
    ∃ L', Rep (st.freeBlock pp prev e.1 e.2) L' ∧ HeapOwns L' B R ∧
      ∀ x, Covers B x → (st.freeBlock pp prev e.1 e.2).bytes x = st.bytes x := by
  obtain ⟨L', hrep, hs, hok, hcov, htot, hbytes⟩ := freeBlock_rep h ho.spread (owns_ok_free ho)
    (owns_ok_out ho e mem_cons_self) hat
  have ho' := ho.giveBack hs hok hcov htot
  exact ⟨L', hrep, ho', fun x hx => hbytes x (owns_not_free ho' hx)⟩

theorem apartFrom_out (ho : HeapOwns L (e :: B) R) : ApartFrom L e := by
  apply apartFrom_of_out (owns_ok_free ho) (owns_ok_out ho e mem_cons_self)
  intro x hx hin
  exact ho.out x hx (covers_cons.mpr (.inl hin))

theorem release_owns (h : Rep st L) (ho : HeapOwns L (e :: B) R) :
    ∃ st' L', st.release e.1 e.2 = some st' ∧ Rep st' L' ∧ HeapOwns L' B R ∧
      ∀ x, Covers B x → st'.bytes x = st.bytes x := by
  have he := owns_ok_out ho e mem_cons_self
  obtain ⟨pl, l, r, hscan, hat, -⟩ := scan_place h ho.spread (owns_ok_free ho) he
    (apartFrom_out ho) 0
  obtain ⟨L', hrep, ho', hbytes⟩ := freeBlock_owns h ho hat
  refine ⟨_, L', ?_, hrep, ho', hbytes⟩
  rw [release, hscan, map_some, if_pos (Nat.ne_of_gt he.start_pos)]

theorem size_freeBlock (a : Nat) (hp : a ≠ prev) (hd : a ≠ data) :
    (st.freeBlock pp prev data n).size a = st.size a := by
  have hnext : ∀ (s : HeapSt) (q : Nat), a ≠ q → (s.joinNext q).size a = s.size a := by
    intro s q hq
    unfold joinNext
    dsimp only
    split
    · rw [size_setSize, if_neg hq]
      rfl
    · rfl
  unfold freeBlock joinPrev
  by_cases hj : prev ≠ 0 ∧ add32 prev (st.size prev) = data
  · rw [if_pos hj]
    rw [hnext _ _ hp, size_setSize, if_neg hp]
  rw [if_neg hj]
  rw [hnext _ _ hd, size_set, size_setSize, if_neg hd]
  rfl

/-! ### The old block of a call -/

def Placed (L : List Extent) (pp : Option Nat) (prev data old : Nat) (D : List Extent) : Prop :=
  (data = 0 ∧ D = []) ∨ (D = [(data, old)] ∧ ∃ l r, At L pp prev (data, old) l r)

def Found (L : List Extent) (pl : HeapPlace) (data old : Nat) (D : List Extent) : Prop :=
  (data = 0 ∧ D = []) ∨ (D = [(data, old)] ∧
      ∃ l r, At L pl.pp pl.prev (data, old) l r ∧ pl.prev = lastEntry l ∧ pl.p = first r)

theorem Found.placed {pl : HeapPlace} (h : Found L pl data old D) :
    Placed L pl.pp pl.prev data old D := by
  obtain h | ⟨hD, l, r, hat, -⟩ := h
  · exact .inl h
  · exact .inr ⟨hD, l, r, hat⟩

theorem move_owns {a : Nat} (h : Rep st L) (ho : HeapOwns L ((a, n) :: (D ++ B)) R)
    (hp : Placed L pp prev data old D) :
    let st' := st.move pp prev data old n a
    ∃ L', Rep st' L' ∧ HeapOwns L' ((a, n) :: B) R ∧ (∀ x, Covers B x → st'.bytes x = st.bytes x) ∧
      (D = [(data, old)] → ∀ i < min n old, st'.bytes (a + i) = st.bytes (data + i)) ∧
      ∀ y, y ≠ 0 → y ≠ data → (∀ f ∈ L, f.1 ≠ y) → st'.size y = st.size y := by
  obtain ⟨rfl, rfl⟩ | ⟨rfl, l, r, hat⟩ := hp
  · refine ⟨L, h, ho, fun _ _ => rfl, ?_, fun _ _ _ _ => rfl⟩
    intro h'
    cases h'
  have ho' : HeapOwns L ((data, old) :: (a, n) :: B) R := ho.perm (.swap _ _ _)
  have hd := owns_ok_out ho' (data, old) mem_cons_self
  have hd0 : data ≠ 0 := Nat.ne_of_gt hd.start_pos
  have h1 : Rep (st.memcpy a data (min n old)) L :=
    h.congr (fun c => by cases c <;> rfl) (fun _ _ => rfl)
  obtain ⟨L', hrep, hown, hbytes⟩ := freeBlock_owns h1 ho' hat
  have hmove : st.move pp prev data old n a =
      (st.memcpy a data (min n old)).freeBlock pp prev data old := if_pos hd0
  rw [hmove]
  obtain ⟨haB, -⟩ := pairwise_cons.mp (pairwise_cons.mp ho'.apart).2
  refine ⟨L', hrep, hown, ?_, ?_, ?_⟩
  · intro x hx
    rw [hbytes x (covers_cons.mpr (.inr hx))]
    apply if_neg
    obtain ⟨f, hf, hfx⟩ := hx
    intro hin
    apply haB f hf x _ hfx
    unfold In
    dsimp only
    omega
  · intro _ i hi
    rw [hbytes (a + i) (covers_cons.mpr (.inl (by unfold In; dsimp only; omega)))]
    refine (if_pos (by omega)).trans ?_
    rw [Nat.add_sub_cancel_left]
  · intro y hy0 hyd hyL
    rw [size_freeBlock y _ hyd]
    · rfl
    · obtain hprev | ⟨hprev, -⟩ := hat.prev_eq
      · rw [hprev]
        unfold lastEntry
        cases hc : cell l with
        | none => exact hy0
        | some q =>
          obtain ⟨f, hf, rfl⟩ := cell_mem hc
          exact (hyL f (by rw [hat.eq]; simp [hf])).symm
      · rw [hprev]
        exact hy0

/-! ### Taking -/

theorem cut_owns (ho : HeapOwns (l ++ f :: r) B R) (h0 : 0 < n) (h8 : 8 ∣ n) (hn : n ≤ f.2) :
    HeapOwns (l ++ (cut f n ++ r)) ((f.1, n) :: B) R := by
  have hf := owns_ok_free ho f (by simp)
  have hlt := hf.lt_top
  have hs := spread_cut ho.spread hn
  have hsp := pairwise_append.mp ho.spread
  obtain ⟨hfr, -⟩ := pairwise_cons.mp hsp.2.1
  refine ho.take ⟨hf.start_pos, hf.start_dvd, h0, h8, by omega⟩ hs ?_ ?_ ?_ ?_
  · intro g hg
    simp only [mem_append] at hg
    obtain hg | hg | hg := hg
    · exact owns_ok_free ho g (by simp [hg])
    · exact ok_cut hf h8 hn g hg
    · exact owns_ok_free ho g (by simp [hg])
  · intro x
    rw [covers_append, covers_cons, covers_cut hn, covers_append, covers_append]
    tauto
  · intro x hx
    rw [covers_append, covers_append]
    rintro (⟨g, hg, hgx⟩ | hc | ⟨g, hg, hgx⟩)
    · have := hsp.2.2 g hg f mem_cons_self
      unfold In at hx hgx
      omega
    · exact not_covers_cut hx hc
    · have := hfr g hg
      unfold In at hx hgx
      omega
  · have := total_cut hn
    simp only [total_append, total_cons]
    omega

theorem take_placed {pl : HeapPlace} (h : Rep st (l ++ f :: r)) (hs : Spread (l ++ f :: r))
    (hok : ∀ g ∈ l ++ f :: r, Fit8 g) (hn : n ≤ f.2) (hp : Found (l ++ f :: r) pl data old D) :
    Placed (l ++ (cut f n ++ r)) (st.take (cell l) f.1 n pl.pp pl.prev).2.1
      (st.take (cell l) f.1 n pl.pp pl.prev).2.2 data old D := by
  obtain hp | ⟨hD, l1, r1, hat, hprev, -⟩ := hp
  · exact .inl hp
  · exact .inr ⟨hD, take_at h hs hok hn hat hprev⟩

/-! ### Allocation -/

/-- What `enlarge` returns: nothing at all, or a block of `n` bytes with the old contents. -/
def Enlarged (st : HeapSt) (B R D : List Extent) (data old n : Nat) (alloc : Option Extent)
    (res : SResult) : Prop :=
  (res.ptr = 0 ∧ res.heap = st ∧ res.region = none) ∨
  (res.ptr ≠ 0 ∧ (res.region = none ∨ res.region = alloc) ∧
    (∃ L, Rep res.heap L ∧ HeapOwns L ((res.ptr, n) :: B) (res.region.toList ++ R)) ∧
    (∀ x, Covers B x → res.heap.bytes x = st.bytes x) ∧
    (D = [(data, old)] → ∀ i < min n old, res.heap.bytes (res.ptr + i) = st.bytes (data + i)))

variable {alloc : Option Extent} {pl : HeapPlace}

theorem enlarged_here {st' : HeapSt} {k : Nat} (h : Rep st' L)
    (ho : HeapOwns L ((data, old) :: (data + old, k) :: B) R)
    (hb : ∀ x, Covers ((data, old) :: B) x → st'.bytes x = st.bytes x) (hn : old + k = n) :
    Enlarged st B R [(data, old)] data old n alloc ⟨st', data, none⟩ := by
  subst hn
  have hd := owns_ok_out ho (data, old) mem_cons_self
  refine .inr ⟨Nat.ne_of_gt hd.start_pos, .inl rfl, ⟨L, h, ho.merge⟩, ?_, ?_⟩
  · intro x hx
    exact hb x (covers_cons.mpr (.inr hx))
  · intro _ i hi
    exact hb _ (covers_cons.mpr (.inl (by unfold In; dsimp only; omega)))

section

variable (h : Rep st L) (ho : HeapOwns L ((data, old) :: B) R)
  (hat : At L pl.pp pl.prev (data, old) l (f :: r)) (hfirst : pl.p = f.1) (hadd : data + old = pl.p)
include h ho hat hfirst hadd

theorem enlarge_whole (hn : n = old + st.size pl.p) :
    Enlarged st B R [(data, old)] data old n alloc ⟨st.set pl.pp (st.next pl.p), data, none⟩ := by
  obtain ⟨rfl, hpp, -, -, -⟩ := hat
  rw [hfirst] at hadd hn ⊢
  have hf := owns_ok_free ho f (by simp)
  have ho1 := cut_owns ho hf.len_pos hf.len_dvd (Nat.le_refl f.2)
  rw [cut, if_pos rfl, ← hadd] at ho1
  rw [hpp]
  refine enlarged_here (h.unlink ho.spread) (ho1.perm (.swap _ _ _)) ?_ ?_
  · intro x hx
    apply bytes_set (fun g hg => owns_ok_free ho g (by simp [hg]))
    intro hc
    exact owns_not_free ho hx (covers_append.mpr (.inl hc))
  · rw [hn, h.sizes f (by simp)]

theorem enlarge_front (hlt : old < n) (h8 : 8 ∣ n) (hn : n + 8 ≤ old + st.size pl.p) :
    Enlarged st B R [(data, old)] data old n alloc
      ⟨st.replace pl.pp (data + n) (old + st.size pl.p - n) (st.next pl.p), data, none⟩ := by
  have hd := owns_ok_out ho (data, old) mem_cons_self
  obtain ⟨rfl, hpp, -, -, -⟩ := hat
  rw [hfirst] at hadd hn ⊢
  rw [h.sizes f (by simp)] at hn ⊢
  have hf := owns_ok_free ho f (by simp)
  have hk8 : 8 ∣ n - old := Nat.dvd_sub h8 hd.len_dvd
  have hk : n - old < f.2 := by omega
  have ho1 := cut_owns ho (n := n - old) (by omega) hk8 (by omega)
  have hrest := ok_cut hf hk8 (Nat.le_of_lt hk)
  rw [cut, if_neg (by omega)] at ho1 hrest
  have ho2 := ho1.perm (.swap _ _ _)
  rw [hpp, show data + n = f.1 + (n - old) by omega, show old + f.2 - n = f.2 - (n - old) by omega]
  refine enlarged_here (k := n - old) (h.replace ho.spread hk) (by rw [hadd]; exact ho2) ?_
    (by omega)
  intro x hx
  refine bytes_replace (r := r) (fun g hg => owns_ok_free ho g (by simp [hg]))
    (hrest _ mem_cons_self) (owns_not_free ho2 ?_)
  rw [covers_cons, covers_cons] at *
  tauto

end

theorem enlarge_take (h : Rep st (l ++ f :: r)) (ho : HeapOwns (l ++ f :: r) (D ++ B) R)
    (hp : Found (l ++ f :: r) pl data old D) (h0 : 0 < n) (h8 : 8 ∣ n) (hn : n ≤ f.2) :
    let r := st.take (cell l) f.1 n pl.pp pl.prev
    ∃ res, (r.1.move r.2.1 r.2.2 data old n f.1).finish f.1 none = some res ∧
      Enlarged st B R D data old n alloc res := by
  have hok := owns_ok_free ho
  have hf := hok f (by simp)
  obtain ⟨hrep, hbytes⟩ := take_rep pl.pp pl.prev h ho.spread hok hn h8
  have ho1 := cut_owns ho h0 h8 hn
  obtain ⟨L', hrep', hown, hB, hcopy, -⟩ := move_owns hrep ho1 (take_placed h ho.spread hok hn hp)
  have hsame : ∀ x, Covers (D ++ B) x →
      (st.take (cell l) f.1 n pl.pp pl.prev).1.bytes x = st.bytes x := by
    intro x hx
    exact hbytes x (owns_not_free ho1 (covers_cons.mpr (.inr hx)))
  refine ⟨_, if_neg ?_, .inr ⟨Nat.ne_of_gt hf.start_pos, .inl rfl, ⟨L', hrep', hown⟩, ?_, ?_⟩⟩
  · have := Nat.mod_eq_zero_of_dvd hf.start_dvd
    omega
  · intro x hx
    rw [hB x hx]
    exact hsame x (covers_append.mpr (.inr hx))
  · intro hD i hi
    rw [hcopy hD i hi]
    apply hsame
    rw [hD]
    exact covers_append.mpr (.inl (covers_cons.mpr (.inl (by unfold In; omega))))

theorem enlarge_grown {region : Extent} (h : Rep st L) (ho : HeapOwns L (D ++ B) R)
    (hp : Placed L pl.pp pl.prev data old D) (h0 : 0 < n) (h8 : 8 ∣ n) (hr : Fit8 region)
    (hn : n + 8 ≤ region.2) (hfresh : ∀ x, In region x → ¬ Covers R x) :
    ∃ res, st.grown pl data old n region = some res ∧
      Enlarged st B R D data old n (some region) res := by
  obtain ⟨a, s⟩ := region
  have hlt := hr.lt_top
  have ha := hr.start_pos
  have ho1 := (ho.gain hr hfresh).split h8 h0 (by omega)
  have hadd := ho1.ok (a + n, s - n) (by simp)
  -- The rest of the region goes last in the list of what is out.
  have ho2 := ho1.perm (.cons _ (perm_middle.symm))
  have hnotL : ∀ f ∈ L, f.1 ≠ a + n := by
    intro f hf heq
    have hfok := owns_ok_free ho f hf
    have h1 := hfok.len_pos
    have hin : In (a + n, s - n) f.1 := by
      unfold In
      omega
    exact ho1.out f.1 ⟨f, hf, by unfold In; omega⟩
      (covers_cons.mpr (.inr (covers_cons.mpr (.inl hin))))
  have hnotD : a + n ≠ data := by
    obtain ⟨rfl, -⟩ | ⟨rfl, -⟩ := hp
    · omega
    have hd := owns_ok_out ho (data, old) (by simp)
    have h1 := hd.len_pos
    intro heq
    obtain ⟨-, h2⟩ := pairwise_cons.mp ho1.apart
    refine (pairwise_cons.mp h2).1 (data, old) (by simp) data ?_ ?_
    · unfold In
      omega
    · unfold In
      omega
  have hrep1 : Rep (st.setSize (a + n) (s - n)) L := by
    refine h.congr (fun c => get_setSize _ _ _ _) ?_
    intro f hf
    rw [size_setSize, if_neg (hnotL f hf)]
  obtain ⟨L1, hrep2, hown2, hB2, hcopy, hsz⟩ := move_owns hrep1 ho2 hp
  have hsize : ((st.setSize (a + n) (s - n)).move pl.pp pl.prev data old n a).size (a + n) =
      s - n := by
    rw [hsz (a + n) (by omega) hnotD hnotL, size_setSize, if_pos rfl]
  obtain ⟨st', L2, hrel, hrep3, hown3, hB3⟩ := release_owns (e := (a + n, s - n)) hrep2
    (hown2.perm (.swap _ _ _))
  have hround : roundOld (s - n) = s - n := by
    obtain ⟨q, hq⟩ := hadd.len_dvd
    unfold roundOld alignSize add32 entrySize
    rw [if_neg (by omega)]
    omega
  have hset : ∀ x, Covers (D ++ B) x → (st.setSize (a + n) (s - n)).bytes x = st.bytes x := by
    intro x hx
    refine bytes_setSize (e := (a + n, s - n)) hadd ?_
    intro hin
    obtain ⟨f, hf, hfx⟩ := hx
    obtain ⟨-, h2⟩ := pairwise_cons.mp ho1.apart
    exact (pairwise_cons.mp h2).1 f hf x hin hfx
  refine ⟨⟨st', a, some (a, s)⟩, ?_, .inr ⟨Nat.ne_of_gt ha, .inr rfl, ⟨L2, hrep3, hown3⟩, ?_, ?_⟩⟩
  · unfold grown
    dsimp only
    rw [sub32_of_le (by omega), add32_of_lt (by omega), if_pos (by omega), hsize, hround, hrel]
    have := Nat.mod_eq_zero_of_dvd hr.start_dvd
    exact if_neg (by omega)
  · intro x hx
    rw [hB3 x (covers_cons.mpr (.inr hx)), hB2 x (covers_cons.mpr (.inr hx))]
    exact hset x (covers_append.mpr (.inr hx))
  · intro hD i hi
    rw [hB3 (a + i) (covers_cons.mpr (.inl (by unfold In; omega))), hcopy hD i hi]
    apply hset
    rw [hD]
    exact covers_append.mpr (.inl (covers_cons.mpr (.inl (by unfold In; omega))))

theorem enlarge_spec (h : Rep st L) (ho : HeapOwns L (D ++ B) R) (hp : Found L pl data old D)
    (hfit : ∃ l1 r1, L = l1 ++ r1 ∧ pl.fit.getD pl.pp = cell l1)
    (h0 : 0 < n) (h8 : 8 ∣ n) (hn : n + 8 < 2 ^ 32) (hold : D = [(data, old)] → old < n)
    (halloc : ∀ region ∈ alloc, Fit8 region ∧ n + 8 ≤ region.2 ∧ ∀ x, In region x → ¬ Covers R x) :
    ∃ res, st.enlarge pl data old n alloc = some res ∧ Enlarged st B R D data old n alloc res := by
  -- The entry behind the old block, when there is one.
  have hbehind : data ≠ 0 → add32 data old = pl.p → ∃ l f r, D = [(data, old)] ∧
      At L pl.pp pl.prev (data, old) l (f :: r) ∧ pl.p = f.1 ∧ data + old = pl.p ∧
      add32 old (st.size pl.p) = old + st.size pl.p ∧ data + (old + st.size pl.p) < 2 ^ 32 := by
    intro hd hadd
    obtain ⟨hd', -⟩ | ⟨rfl, l, r, hat, -, hfirst⟩ := hp
    · exact absurd hd' hd
    have hdok := owns_ok_out ho (data, old) (by simp)
    have hdlt := hdok.lt_top
    dsimp only at hdlt
    rw [add32_of_lt hdlt] at hadd
    cases r with
    | nil =>
      simp only [first] at hfirst
      omega
    | cons f r =>
      refine ⟨l, f, r, rfl, hat, hfirst, hadd, ?_⟩
      simp only [first] at hfirst
      have hfL : f ∈ L := by rw [hat.eq]; simp
      have hflt := (owns_ok_free ho f hfL).lt_top
      rw [hfirst, h.sizes f hfL]
      exact ⟨add32_of_lt (by omega), by omega⟩
  unfold enlarge
  by_cases hw : data ≠ 0 ∧ add32 data old = pl.p ∧ n = add32 old (st.size pl.p)
  · rw [if_pos hw]
    obtain ⟨l, f, r, rfl, hat, hfirst, hadd, hsz, -⟩ := hbehind hw.1 hw.2.1
    exact ⟨_, rfl, enlarge_whole h ho hat hfirst hadd (hw.2.2.trans hsz)⟩
  rw [if_neg hw]
  by_cases hfr : data ≠ 0 ∧ add32 data old = pl.p ∧ add32 n entrySize ≤ add32 old (st.size pl.p)
  · rw [if_pos hfr]
    obtain ⟨l, f, r, rfl, hat, hfirst, hadd, hsz, hlt⟩ := hbehind hfr.1 hfr.2.1
    have hle := hfr.2.2
    rw [entrySize, add32_of_lt hn, hsz] at hle
    rw [hsz, sub32_of_le (by omega), add32_of_lt (by omega)]
    exact ⟨_, rfl, enlarge_front h ho hat hfirst hadd (hold rfl) h8 hle⟩
  rw [if_neg hfr]
  obtain ⟨l1, r1, rfl, hcell⟩ := hfit
  have hok := owns_ok_free ho
  have hlen := spread_length ho.spread hok
  rw [length_append] at hlen
  rw [hcell]
  have hlen1 : r1.length < heapFuel := by omega
  obtain hnone | ⟨l2, f, r2, rfl, hsome, hsz⟩ := search_from h
    (fun f hf => hok f (mem_append_right _ hf)) hn hlen1
  · rw [hnone, bind_some]
    cases halc : alloc with
    | none => exact ⟨_, rfl, .inl ⟨rfl, rfl, rfl⟩⟩
    | some region =>
      obtain ⟨hr, hrn, hfresh⟩ := halloc region halc
      exact enlarge_grown h ho hp.placed h0 h8 hr hrn hfresh
  · rw [hsome, bind_some]
    have heq : l1 ++ (l2 ++ f :: r2) = (l1 ++ l2) ++ f :: r2 := by simp
    rw [heq] at h ho hp
    exact enlarge_take h ho hp h0 h8 (by omega)

end HeapSt

end Qnx.Ker
