import Mathlib.Data.List.Nodup
import Mathlib.Algebra.GroupWithZero.Nat
import Qnx.Shared.Run
import Qnx.Slogger.Slogger

/-!
# The ring of events

Between `get` and `put` lie the events that were written and not discarded, whole and in order.
-/

namespace Qnx.Slogger

open Qnx.Ring List

variable {N : Nat} {s : SlogSt} {w : List (List Word)} {i j : Nat}

/-! ### Headers -/

theorem mask_bits : ∀ k < 8, Nat.testBit 0x00fffff0 (16 + k) = true ∧ Nat.testBit 0xff k = true := by
  decide

theorem getCount_header (x : Word) {msecs cnt : Nat} (hm : msecs < 2 ^ 12)
    (hc : cnt - hdrInts < 2 ^ 8) : getCount (header x msecs cnt) = cnt - hdrInts := by
  have hbits : ((header x msecs cnt >>> 16) &&& 0xff#32) = BitVec.ofNat 32 (cnt - hdrInts) := by
    apply BitVec.eq_of_getLsbD_eq
    intro k hk
    unfold header
    simp only [BitVec.getLsbD_ushiftRight, BitVec.getLsbD_or, BitVec.getLsbD_and,
      BitVec.getLsbD_not, BitVec.getLsbD_shiftLeft, BitVec.getLsbD_ofNat]
    by_cases h8 : k < 8
    · -- the mask clears the count, and the milliseconds do not reach it
      have hms : msecs.testBit (16 + k - 4) = false :=
        Nat.testBit_lt_two_pow (Nat.lt_of_lt_of_le hm (Nat.pow_le_pow_right (by omega) (by omega)))
      simp [mask_bits k h8, hms, hk, show 16 + k < 32 by omega]
    have hff : Nat.testBit 0xff k = false :=
      Nat.testBit_lt_two_pow (Nat.lt_of_lt_of_le (by decide : 0xff < 2 ^ 8)
        (Nat.pow_le_pow_right (by omega) (by omega)))
    have hcnt : (cnt - hdrInts).testBit k = false := Nat.testBit_lt_two_pow (Nat.lt_of_lt_of_le hc
        (Nat.pow_le_pow_right (by omega) (by omega)))
    simp [hff, hcnt]
  unfold getCount
  rw [hbits, BitVec.toNat_ofNat, Nat.mod_eq_of_lt (by omega)]

structure Event (e : List Word) : Prop where
  lower : hdrInts ≤ e.length
  upper : e.length ≤ maxInts
  size : getCount (e.headD 0) + hdrInts = e.length

theorem stamp_event {data : List Word} (msecs : Fin 1000) (secs : Word)
    (hl : hdrInts ≤ data.length) (hu : data.length ≤ maxInts) : Event (stamp data msecs secs) := by
  have hlen : (stamp data msecs secs).length = data.length := by simp [stamp]
  refine ⟨hlen ▸ hl, hlen ▸ hu, ?_⟩
  unfold hdrInts maxInts at *
  obtain ⟨a, t, rfl⟩ := exists_cons_of_length_pos (show 0 < data.length by omega)
  have hh : (stamp (a :: t) msecs secs).headD 0 = header a msecs (a :: t).length := rfl
  rw [hh, getCount_header a (by omega) (by unfold hdrInts; omega)]
  unfold hdrInts
  omega

/-! ### Where events begin -/

theorem start_add_rest (w : List (List Word)) (i : Nat) :
    start w i + (w.drop i).flatten.length = w.flatten.length := by
  unfold start
  rw [← length_append, ← flatten_append, take_append_drop]

theorem start_add (w : List (List Word)) (i j : Nat) :
    start w (i + j) = start w i + ((w.drop i).take j).flatten.length := by
  unfold start
  rw [take_add, flatten_append, length_append]

theorem start_succ (hi : i < w.length) : start w (i + 1) = start w i + (w.get ⟨i, hi⟩).length := by
  rw [start_add, drop_eq_getElem_cons hi]
  simp only [take_succ_cons, take_zero, flatten_cons, flatten_nil, append_nil, get_eq_getElem]

theorem start_append (hi : i ≤ w.length) (e : List Word) : start (w ++ [e]) i = start w i := by
  unfold start
  rw [take_append_of_le_length hi]

theorem start_length (w : List (List Word)) : start w w.length = w.flatten.length := by
  unfold start
  rw [take_length]

theorem start_mono (hij : i ≤ j) : start w i ≤ start w j := by
  obtain ⟨k, rfl⟩ := Nat.exists_eq_add_of_le hij
  rw [start_add]
  exact Nat.le_add_right _ _

theorem start_gap (hev : ∀ e ∈ w, Event e) (hij : i ≤ j) (hj : j ≤ w.length) :
    start w i + hdrInts * (j - i) ≤ start w j := by
  obtain ⟨k, rfl⟩ := Nat.exists_eq_add_of_le hij
  rw [Nat.add_sub_cancel_left]
  induction k with
  | zero => simp
  | succ k ih =>
    have hlt : i + k < w.length := hj
    have hl := (hev _ (get_mem w ⟨i + k, hlt⟩)).lower
    rw [← Nat.add_assoc, start_succ hlt, Nat.mul_succ]
    omega

structure Chained (N : Nat) (s : SlogSt) : Prop where
  big : 1024 ≤ N
  events : ∀ e ∈ s.written, Event e
  lost : s.lost ≤ s.written.length
  get : s.get = s.addr N s.lost
  put : s.put = s.addr N s.written.length
  cnt : start s.written s.lost + s.cnt = start s.written s.written.length
  window : window N s.buf s.get s.cnt = (s.written.drop s.lost).flatten
  bound : s.cnt ≤ N

section

variable (h : Chained N s)
include h

theorem Chained.addr_lt (i : Nat) : s.addr N i < N := Nat.mod_lt _ (by have := h.big; omega)

theorem Chained.put_eq : s.put = (s.get + s.cnt) % N := by
  rw [h.put, h.get]
  unfold SlogSt.addr
  rw [Nat.mod_add_mod, h.cnt]

theorem Chained.window_from (hi : s.lost ≤ i) (hi' : i ≤ s.written.length) :
    Ring.window N s.buf (s.addr N i) (s.written.drop i).flatten.length =
      (s.written.drop i).flatten := by
  obtain ⟨k, rfl⟩ := Nat.exists_eq_add_of_le hi
  have hk := start_add s.written s.lost k
  have hr := start_add_rest s.written (s.lost + k)
  have hc := h.cnt
  rw [start_length] at hc
  have hsplit : (s.written.drop s.lost).flatten = ((s.written.drop s.lost).take k).flatten ++
      (s.written.drop (s.lost + k)).flatten := by
    rw [← flatten_append, ← drop_drop, take_append_drop]
  have hd : (Ring.window N s.buf s.get s.cnt).drop ((s.written.drop s.lost).take k).flatten.length =
      Ring.window N s.buf ((s.get + ((s.written.drop s.lost).take k).flatten.length) % N)
        (s.cnt - ((s.written.drop s.lost).take k).flatten.length) := window_drop (by omega)
  have hget : (s.get + ((s.written.drop s.lost).take k).flatten.length) % N =
      s.addr N (s.lost + k) := by
    rw [h.get]
    unfold SlogSt.addr
    rw [Nat.mod_add_mod, hk]
  have hn : s.cnt - ((s.written.drop s.lost).take k).flatten.length =
      (s.written.drop (s.lost + k)).flatten.length := by omega
  rw [h.window, hsplit, drop_left, hget, hn] at hd
  exact hd.symm

theorem Chained.count_at (hi : s.lost ≤ i) (hi' : i < s.written.length) :
    getCount (s.buf (s.addr N i)) + hdrInts = (s.written.get ⟨i, hi'⟩).length := by
  have hw := h.window_from hi (Nat.le_of_lt hi')
  have hev := h.events _ (get_mem s.written ⟨i, hi'⟩)
  have hl := hev.lower
  have hdrop : (s.written.drop i).flatten =
      s.written.get ⟨i, hi'⟩ ++ (s.written.drop (i + 1)).flatten := by
    rw [drop_eq_getElem_cons hi']
    rfl
  have hhead : some (s.buf (s.addr N i)) = (s.written.drop i).flatten.head? := by
    rw [← hw, window_head (by rw [hdrop, length_append]; unfold hdrInts at hl; omega),
      Nat.mod_eq_of_lt (h.addr_lt i)]
  rw [← hev.size]
  rw [hdrop] at hhead
  generalize s.written.get ⟨i, hi'⟩ = e at hhead hl
  unfold hdrInts at hl
  obtain ⟨a, t, rfl⟩ := exists_cons_of_length_pos (show 0 < e.length by omega)
  cases hhead
  rfl

end

theorem advance_eq {ptr n : Nat} (hp : ptr < N) (hn : n ≤ N) : advance N ptr n = (ptr + n) % N := by
  unfold advance
  rw [mod_cell (by omega)]
  split <;> split <;> omega

section

variable (h : Chained N s)
include h

theorem Chained.advance_addr (hi : i < s.written.length) :
    advance N (s.addr N i) (s.written.get ⟨i, hi⟩).length = s.addr N (i + 1) := by
  have hu := (h.events _ (get_mem s.written ⟨i, hi⟩)).upper
  have hN := h.big
  rw [advance_eq (h.addr_lt i) (by unfold maxInts at hu; omega)]
  unfold SlogSt.addr
  rw [Nat.mod_add_mod, start_succ hi]

theorem Chained.addr_inj (hroom : s.cnt < N) (hi : s.lost ≤ i) (hij : i ≤ j)
    (hj : j ≤ s.written.length) (he : s.addr N i = s.addr N j) : i = j := by
  have hgap := start_gap h.events hij hj
  have h1 := start_mono (w := s.written) hi
  have h2 := start_mono (w := s.written) hj
  have hc := h.cnt
  have hmod : start s.written j - start s.written i = 0 := by
    have hd := Nat.sub_mod_eq_zero_of_mod_eq he.symm
    rwa [Nat.mod_eq_of_lt (by omega)] at hd
  unfold hdrInts at hgap
  omega

theorem Chained.full_iff (hpos : 0 < s.cnt) : s.put = s.get ↔ s.cnt = N := by
  have hb := h.bound
  have hg : s.get < N := h.get ▸ h.addr_lt _
  rw [h.put_eq, mod_cell (by omega)]
  split <;> omega

theorem Chained.lost_lt (hpos : 0 < s.cnt) : s.lost < s.written.length := by
  have hc := h.cnt
  refine Nat.lt_of_le_of_ne h.lost fun he => ?_
  rw [he] at hc
  omega

end

/-! ### Events leave and come -/

theorem Chained.congr {s' : SlogSt} (h : Chained N s) (hbuf : s'.buf = s.buf)
    (hcnt : s'.cnt = s.cnt)
    (hput : s'.put = s.put) (hget : s'.get = s.get) (hw : s'.written = s.written)
    (hl : s'.lost = s.lost) : Chained N s' := by
  obtain ⟨h1, h2, h3, h4, h5, h6, h7, h8⟩ := h
  refine ⟨h1, hw ▸ h2, ?_, ?_, ?_, ?_, ?_, hcnt ▸ h8⟩
  · rwa [hl, hw]
  · unfold SlogSt.addr
    rwa [hget, hw, hl]
  · unfold SlogSt.addr
    rwa [hput, hw]
  · rwa [hw, hl, hcnt]
  · rwa [hbuf, hget, hcnt, hw, hl]

theorem Chained.discard (h : Chained N s) (hpos : 0 < s.cnt) : Chained N (s.discard N) := by
  have hlt := h.lost_lt hpos
  have hn : getCount (s.buf s.get) + hdrInts = (s.written.get ⟨s.lost, hlt⟩).length := by
    rw [h.get]
    exact h.count_at (Nat.le_refl _) hlt
  have hs := start_succ hlt
  have hmono : start s.written (s.lost + 1) ≤ start s.written s.written.length := start_mono hlt
  have hc := h.cnt
  have hget : (s.discard N).get = s.addr N (s.lost + 1) := by
    have ha := h.advance_addr hlt
    rw [← hn, ← h.get] at ha
    exact ha
  have hcnt : (s.discard N).cnt = (s.written.drop (s.lost + 1)).flatten.length := by
    have hr := start_add_rest s.written (s.lost + 1)
    rw [← start_length s.written] at hr
    change s.cnt - (getCount (s.buf s.get) + hdrInts) = _
    omega
  refine ⟨h.big, h.events, hlt, hget, h.put, ?_, ?_, ?_⟩
  · change start s.written (s.lost + 1) + (s.cnt - (getCount (s.buf s.get) + hdrInts)) =
      start s.written s.written.length
    omega
  · rw [hget, hcnt]
    exact h.window_from (Nat.le_succ _) hlt
  · exact Nat.le_trans (Nat.sub_le _ _) h.bound

theorem copyIn_eq_put {buf : Nat → Word} {wr : Nat} {ev : List Word} (hwr : wr < N) :
    copyIn N buf wr ev = put N buf wr ev := by
  unfold copyIn put
  split <;> split
  · rw [take_of_length_le (by omega), drop_eq_nil_of_le (by omega)]
    funext k
    simp [store]
  · rfl
  · rfl
  · omega

theorem Chained.append (h : Chained N s) {ev : List Word} (hev : Event ev)
    (hroom : s.cnt + ev.length ≤ N) : Chained N (s.append N ev) := by
  have hput : s.put < N := h.put ▸ h.addr_lt _
  have hsame : ∀ i ≤ s.written.length, (s.append N ev).addr N i = s.addr N i := fun i hi => by
    exact congrArg (· % N) (start_append hi ev)
  have hlast : start (s.written ++ [ev]) (s.written.length + 1) =
      start s.written s.written.length + ev.length := by
    have := start_length (s.written ++ [ev])
    rw [length_append, length_singleton] at this
    rw [this, start_length, flatten_append, length_append, flatten_singleton]
  have hc := h.cnt
  refine ⟨h.big, ?_, ?_, ?_, ?_, ?_, ?_, hroom⟩
  · exact forall_mem_append.mpr ⟨h.events, fun _ he => mem_singleton.mp he ▸ hev⟩
  · have := h.lost
    change s.lost ≤ (s.written ++ [ev]).length
    rw [length_append]
    omega
  · exact h.get.trans (hsame _ h.lost).symm
  · change (if N ≤ s.put + ev.length then ev.length - (N - s.put) else s.put + ev.length) =
      start (s.written ++ [ev]) (s.written ++ [ev]).length % N
    rw [length_append, length_singleton, hlast, ← Nat.mod_add_mod]
    change _ = (s.addr N s.written.length + _) % N
    rw [← h.put, mod_cell (by omega)]
    split <;> split <;> omega
  · change start (s.written ++ [ev]) s.lost + (s.cnt + ev.length) =
      start (s.written ++ [ev]) (s.written ++ [ev]).length
    rw [length_append, length_singleton, start_append h.lost]
    omega
  · change Ring.window N (copyIn N s.buf s.put ev) s.get (s.cnt + ev.length) =
      ((s.written ++ [ev]).drop s.lost).flatten
    rw [copyIn_eq_put hput, h.put_eq, window_put (h.get ▸ h.addr_lt _) hroom, h.window,
      drop_append_of_le_length h.lost, flatten_append, flatten_singleton]

end Qnx.Slogger
