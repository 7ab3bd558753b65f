import Mathlib.Algebra.GroupWithZero.Nat
import Qnx.Ker.TimerTick

/-!
# What one call of `timer_expiry` examines

When a clock advances by no more than the width of a slot, the timers that come due lie in the
slot of the old time or in that of the new one. `visits` bounds how often a call can look at a
timer; a call that does not run into its limits and starts its rounds early enough fires every
timer that is due.
-/

namespace Qnx.Ker

open Circular List

section Index
variable {tq : TimerQueue} {last T n n' : Nat}

theorem getQueueIdx_of_div (h : n / 2 ^ tq.downshift = n' / 2 ^ tq.downshift) :
    getQueueIdx tq n = getQueueIdx tq n' := by
  have key : ∀ m, (m % 2 ^ 32) >>> tq.downshift =
      if tq.downshift ≤ 32 then m / 2 ^ tq.downshift % 2 ^ (32 - tq.downshift) else 0 := by
    intro m
    rw [Nat.shiftRight_eq_div_pow]
    split
    · rename_i hd
      have : 2 ^ 32 = 2 ^ tq.downshift * 2 ^ (32 - tq.downshift) := by
        rw [← Nat.pow_add, Nat.add_sub_cancel' hd]
      rw [this, Nat.mod_mul_right_div_self]
    · refine Nat.div_eq_of_lt ((Nat.mod_lt m (Nat.two_pow_pos 32)).trans ?_)
      exact Nat.pow_lt_pow_right (by omega) (by omega)
  rw [getQueueIdx, getQueueIdx, key, key, h]

theorem div_le_succ (hadv : T ≤ last + 2 ^ tq.downshift) :
    T / 2 ^ tq.downshift ≤ last / 2 ^ tq.downshift + 1 :=
  calc T / 2 ^ tq.downshift ≤ (last + 2 ^ tq.downshift) / 2 ^ tq.downshift :=
        Nat.div_le_div_right hadv
    _ = last / 2 ^ tq.downshift + 1 := Nat.add_div_right _ (Nat.two_pow_pos _)

theorem idx_of_later (hl : last ≤ n) (hn : n ≤ n') (hT : n' ≤ T)
    (hadv : T ≤ last + 2 ^ tq.downshift) :
    getQueueIdx tq n' = getQueueIdx tq n ∨ getQueueIdx tq n' = getQueueIdx tq T := by
  have h0 : last / 2 ^ tq.downshift ≤ n / 2 ^ tq.downshift := Nat.div_le_div_right hl
  have h1 : n / 2 ^ tq.downshift ≤ n' / 2 ^ tq.downshift := Nat.div_le_div_right hn
  have h2 : n' / 2 ^ tq.downshift ≤ T / 2 ^ tq.downshift := Nat.div_le_div_right hT
  have h3 := div_le_succ hadv
  rcases (by omega : n' / 2 ^ tq.downshift = n / 2 ^ tq.downshift ∨
    n' / 2 ^ tq.downshift = T / 2 ^ tq.downshift) with h | h
  · exact .inl (getQueueIdx_of_div h)
  · exact .inr (getQueueIdx_of_div h)

end Index

/-- How often a call at time `T` can look at a timer. -/
def visits (T inc : Nat) (x : Timer) : Nat :=
  if T < x.nsec then 0
  else if x.pending ∨ x.intervalNsec = 0 ∨ ¬x.hasThread then 1
  else 1 + (T - x.nsec) / max x.intervalNsec inc

theorem visits_pos {T : Nat} (inc : Nat) {x : Timer} (h : x.nsec ≤ T) : 0 < visits T inc x := by
  rw [visits, if_neg (by omega)]
  split
  · exact Nat.one_pos
  · exact Nat.add_pos_left Nat.one_pos _

theorem visits_stopped (T inc : Nat) (x : Timer) :
    visits T inc (Wheel.stopped x) ≤ visits T inc x := by
  by_cases h : T < x.nsec
  · have : T < (Wheel.stopped x).nsec := h
    rw [visits, if_pos this]
    exact Nat.zero_le _
  have hs : visits T inc (Wheel.stopped x) = 1 := by
    simp [visits, Wheel.stopped, h]
  rw [hs]
  exact visits_pos inc (by omega)

theorem visits_rearmed {T inc n : Nat} {x : Timer} (hp : x.pending = false)
    (hi : x.intervalNsec ≠ 0) (ht : x.hasThread = true) (hn : x.nsec ≤ T)
    (hnext : x.nsec + max x.intervalNsec inc ≤ n) (q : Option Qid) :
    visits T inc { x with nsec := n, queue := q } + 1 ≤ visits T inc x := by
  have hpos : 0 < max x.intervalNsec inc := by omega
  have hx : visits T inc x = 1 + (T - x.nsec) / max x.intervalNsec inc := by
    simp [visits, hp, hi, ht, not_lt.mpr hn]
  rw [hx]
  by_cases h : T < n
  · simp [visits, h]
  have hy : visits T inc { x with nsec := n, queue := q } =
      1 + (T - n) / max x.intervalNsec inc := by
    simp [visits, hp, hi, ht, h]
  have hdiv : (T - n) / max x.intervalNsec inc + 1 ≤ (T - x.nsec) / max x.intervalNsec inc := by
    rw [← Nat.add_div_right _ hpos]
    exact Nat.div_le_div_right (by omega)
  omega

namespace Wheel

def budget (w : Wheel) (S : List Tip) : Nat :=
  (S.map fun t => visits (w.snapTime (w.timer t).todBased) w.nsecInc (w.timer t)).sum

theorem budget_erase {w : Wheel} {S : List Tip} {t : Tip} (h : t ∈ S) :
    w.budget S = visits (w.snapTime (w.timer t).todBased) w.nsecInc (w.timer t) +
      w.budget (S.erase t) := by
  have hp := (perm_cons_erase h).map fun t =>
    visits (w.snapTime (w.timer t).todBased) w.nsecInc (w.timer t)
  rw [budget, hp.sum_eq]
  rfl

theorem budget_le {w w' : Wheel} {S : List Tip} (hn : w'.nsec = w.nsec)
    (ha : w'.nsecTodAdjust = w.nsecTodAdjust) (hi : w'.nsecInc = w.nsecInc)
    (h : ∀ t ∈ S, w'.timer t = w.timer t ∨ w'.timer t = stopped (w.timer t)) :
    w'.budget S ≤ w.budget S := by
  refine sum_le_sum fun t ht => ?_
  rw [snapTime_congr hn ha, hi]
  rcases h t ht with e | e <;> rw [e]
  exact visits_stopped _ _ _

/-- Between two looks at a timer: `Todo` are the timers still to be looked at, all in `S`, and
every timer that is due is among them. `K` are the clocks that have timers at all. -/
structure Sweep (last : Bool → Nat) (K : Bool → Prop) (w : Wheel) (L : Lists) (nf : Nat)
    (Todo : Qid × Nat → Tip → Prop) (S : List Tip) : Prop where
  nodup : S.Nodup
  kinds : ∀ k t, t ∈ L k → K (w.queue k.1).tod
  todo : ∀ k t, t ∈ L k → Todo k t → t ∈ S
  due : ∀ k t, t ∈ L k → (w.timer t).pending = false →
    (w.timer t).nsec ≤ w.snapTime (w.timer t).todBased → Todo k t
  fresh : ∀ k t, t ∈ L k → (w.timer t).pending = false →
    last (w.timer t).todBased < (w.timer t).nsec
  nowrap : ∀ k t, t ∈ L k → (w.timer t).pending = false → (w.timer t).intervalNsec ≠ 0 →
    w.snapTime (w.timer t).todBased + w.stepOf t < 2 ^ 64
  fires : nf + w.budget S ≤ 50
  queued : w.queuedIntrevents + w.budget S ≤ w.growIntrevents

theorem Sweep.mono {last : Bool → Nat} {K : Bool → Prop} {w : Wheel} {L : Lists} {nf : Nat}
    {Todo Todo' : Qid × Nat → Tip → Prop} {S : List Tip} (h : Sweep last K w L nf Todo S)
    (ht : ∀ k t, t ∈ L k → Todo' k t → Todo k t)
    (hd : ∀ k t, t ∈ L k → (w.timer t).pending = false →
      (w.timer t).nsec ≤ w.snapTime (w.timer t).todBased → Todo k t → Todo' k t) :
    Sweep last K w L nf Todo' S :=
  ⟨h.nodup, h.kinds, fun k t hk h' => h.todo k t hk (ht k t hk h'),
    fun k t hk hp hn => hd k t hk hp hn (h.due k t hk hp hn), h.fresh, h.nowrap, h.fires, h.queued⟩

theorem nextNsec_of_due {w : Wheel} {t : Tip}
    (hn : (w.timer t).nsec ≤ w.snapTime (w.timer t).todBased)
    (hw : w.snapTime (w.timer t).todBased + w.stepOf t < 2 ^ 64) :
    (w.timer t).nsec + w.stepOf t ≤ w.nextNsec t := by
  have h1 : wrap64 ((w.timer t).nsec + w.stepOf t) = (w.timer t).nsec + w.stepOf t :=
    Nat.mod_eq_of_lt (by omega)
  have h2 : wrap64 (w.snapTime (w.timer t).todBased + w.stepOf t) =
      w.snapTime (w.timer t).todBased + w.stepOf t := Nat.mod_eq_of_lt hw
  simp only [nextNsec]
  split <;> omega

section Slot
variable {last : Bool → Nat} {K : Bool → Prop} {ctx : Ctx} {w w' : Wheel} {L L' : Lists} {b : Bool}
  {k : Qid × Nat} {R : Qid × Nat → Prop} {S : List Tip} {nf : Nat} {n : Node} {t : Tip}
  {g l1 l2 l1' l2' : List Tip}

def Lands (last : Bool → Nat) (w : Wheel) (b : Bool) (k : Qid × Nat) (R : Qid × Nat → Prop) : Prop :=
  ∀ m m', last b < m → m < m' → m' ≤ w.snapTime b → k.2 = getQueueIdx (w.queue k.1) m →
    (w.head b, getQueueIdx (w.queue (w.head b)) m') = k ∨
      R (w.head b, getQueueIdx (w.queue (w.head b)) m')

theorem Rep.kind_of_mem (h : Rep w L none) (hk : t ∈ L k) :
    (w.timer t).todBased = (w.queue k.1).tod := by
  obtain ⟨ha, hq⟩ := h.active_of_mem hk
  obtain ⟨q, -, hq', htod⟩ := h.owned t (by simp) ha
  obtain rfl : q = k.1 := Option.some.inj (hq'.symm.trans hq)
  exact htod.symm

theorem Fired.origin {T : Nat} (hf : Fired w L ctx T k t l1 l2 n w' L' g l1' l2')
    (hcut : L k = l1 ++ t :: l2) {j : Qid × Nat} {x : Tip} (hx : x ∈ L' j) (hne : x ≠ t) :
    w'.timer x = w.timer x ∧ x ∈ L j ∧ (j = k → x ∈ l1' → x ∈ l1) ∧ (j = k → x ∈ l2' → x ∈ l2) := by
  refine ⟨?_, ?_, fun _ h => (hf.behind x h).resolve_left hne,
    fun _ h => (hf.ahead x h).resolve_left hne⟩
  · refine (hf.others x hne).resolve_right fun h => ?_
    have := (hf.good.rep.active_of_mem hx).1
    rw [h] at this
    simp [stopped] at this
  · by_cases hj : j = k
    · subst hj
      rw [hf.trail.cut, mem_append] at hx
      rw [hcut]
      rcases hx with h | h
      · have := (hf.behind x h).resolve_left hne
        simp [this]
      · have := (hf.ahead x h).resolve_left hne
        simp [this]
    · exact (hf.elsewhere j hj x hx).resolve_left hne

section

variable (hs : Sweep last K w L nf (fun j x => (j = k ∧ x ∈ t :: l2) ∨ R j) S)
include hs

theorem Sweep.look {S' : List Tip} {T : Nat}
    (hcut : L k = l1 ++ t :: l2) (hR : ¬R k) (hrep : Rep w L none)
    (hf : Fired w L ctx T k t l1 l2 n w' L' g l1' l2') (hnd : S'.Nodup)
    (hS : ∀ x ∈ S, x ≠ t → x ∈ S') (hb : w'.budget S' + 1 ≤ w.budget S)
    (hkind : ∀ j, t ∈ L' j → (w'.queue j.1).tod = (w.queue k.1).tod)
    (htodo : ∀ j, t ∈ L' j → (j = k ∧ t ∈ l2') ∨ R j → t ∈ S')
    (hself : ∀ j, t ∈ L' j → (w'.timer t).pending = false →
      ((w'.timer t).nsec ≤ w.snapTime (w'.timer t).todBased → (j = k ∧ t ∈ l2') ∨ R j) ∧
      last (w'.timer t).todBased < (w'.timer t).nsec ∧
      ((w'.timer t).intervalNsec ≠ 0 → w.snapTime (w'.timer t).todBased + w'.stepOf t < 2 ^ 64)) :
    Sweep last K w' L' (nf + 1) (fun j x => (j = k ∧ x ∈ l2') ∨ R j) S' := by
  have hsnap := snapTime_congr hf.apart.nsec hf.apart.nsecTodAdjust
  have hinc := hf.apart.nsecInc
  have hgrow : w'.growIntrevents = w.growIntrevents := hf.apart.growIntrevents
  refine ⟨hnd, fun j x hx => ?_, fun j x hx htd => ?_, fun j x hx hp hn => ?_,
    fun j x hx hp => ?_, fun j x hx hp hi => ?_, ?_, ?_⟩
  · by_cases hxt : x = t
    · subst hxt
      rw [hkind j hx]
      exact hs.kinds k x (hcut ▸ by simp)
    · rw [hf.steady.queue]
      exact hs.kinds j x (hf.origin hcut hx hxt).2.1
  · by_cases hxt : x = t
    · subst hxt
      exact htodo j hx htd
    obtain ⟨-, hxL, -, hl2⟩ := hf.origin hcut hx hxt
    refine hS x (hs.todo j x hxL ?_) hxt
    rcases htd with ⟨rfl, h⟩ | h
    · exact .inl ⟨rfl, mem_cons_of_mem t (hl2 rfl h)⟩
    · exact .inr h
  · rw [hsnap] at hn
    by_cases hxt : x = t
    · subst hxt
      exact (hself j hx hp).1 hn
    obtain ⟨he, hxL, hl1, -⟩ := hf.origin hcut hx hxt
    rw [he] at hp hn
    rcases hs.due j x hxL hp hn with ⟨rfl, h⟩ | h
    · refine .inl ⟨rfl, ?_⟩
      rw [hf.trail.cut, mem_append] at hx
      refine hx.resolve_left fun h1 => ?_
      have hnd' := hrep.nodup j
      rw [hcut, nodup_append] at hnd'
      exact hnd'.2.2 x (hl1 rfl h1) x h rfl
    · exact .inr h
  · by_cases hxt : x = t
    · subst hxt
      exact (hself j hx hp).2.1
    obtain ⟨he, hxL, -⟩ := hf.origin hcut hx hxt
    rw [he] at hp ⊢
    exact hs.fresh j x hxL hp
  · rw [hsnap]
    by_cases hxt : x = t
    · subst hxt
      exact (hself j hx hp).2.2 hi
    obtain ⟨he, hxL, -⟩ := hf.origin hcut hx hxt
    rw [he] at hp hi
    rw [stepOf, he, hinc]
    exact hs.nowrap j x hxL hp hi
  · have := hs.fires
    omega
  · have := hs.queued
    have := hf.queued
    omega

theorem Sweep.fired (hrep : Rep w L none) (hcut : L k = l1 ++ t :: l2) (hR : ¬R k)
    (hb : (w.queue k.1).tod = b) (hland : Lands last w b k R)
    (hT : (w.timer t).nsec ≤ w.snapTime b)
    (hf : Fired w L ctx (w.snapTime b) k t l1 l2 n w' L' g l1' l2') :
    ∃ S', Sweep last K w' L' (nf + 1) (fun j x => (j = k ∧ x ∈ l2') ∨ R j) S' ∧
      ∀ x ∈ g, x ∈ S' ∧ (w'.timer x).todBased = b := by
  have hmem : t ∈ L k := hcut ▸ by simp
  have htS : t ∈ S := hs.todo k t hmem (.inl ⟨rfl, by simp⟩)
  have htb := (hrep.kind_of_mem hmem).trans hb
  have htl2 : t ∉ l2 := by
    have := (nodup_cons.mp (nodup_middle.mp (hcut ▸ hrep.nodup k))).1
    exact fun h => this (by simp [h])
  have hsnap : ∀ c, w'.snapTime c = w.snapTime c := fun c =>
    snapTime_congr hf.apart.nsec hf.apart.nsecTodAdjust c
  have hinc := hf.apart.nsecInc
  have hbudget := budget_erase (w := w) htS
  rw [htb] at hbudget
  have hrest : w'.budget (S.erase t) ≤ w.budget (S.erase t) :=
    budget_le hf.apart.nsec hf.apart.nsecTodAdjust hinc fun x hx =>
      hf.others x fun e => (hs.nodup.not_mem_erase (e ▸ hx))
  have hvis := visits_pos w.nsecInc hT
  have hg : ∀ x ∈ g, x ∈ S ∧ x ≠ t ∧ (w'.timer x).todBased = b := by
    intro x hx
    have hxl := hf.gone x hx
    have hxt : x ≠ t := fun e => htl2 (e ▸ hxl)
    have hxL : x ∈ L k := hcut ▸ by simp [hxl]
    refine ⟨hs.todo k x hxL (.inl ⟨rfl, by simp [hxl]⟩), hxt, ?_⟩
    have hxb := (hrep.kind_of_mem hxL).trans hb
    rcases hf.others x hxt with e | e <;> rw [e]
    · exact hxb
    · exact hxb
  have hrem : ∀ x ∈ S, x ≠ t → x ∈ S.erase t := fun x hx hne => (mem_erase_of_ne hne).mpr hx
  rcases hf.self with ⟨hp, -, htl⟩ | ⟨hq, -⟩ | ⟨hp, hth, hi, he, hlt⟩
  · -- left pending: it is behind the walk
    have htk : t ∈ L' k := hf.trail.cut ▸ mem_append_left _ htl
    refine ⟨S.erase t, hs.look hcut hR hrep hf (hs.nodup.erase t) hrem (by omega)
      (fun j hj => ?_) (fun j hj h => ?_) fun j _ h => by simp [hp] at h, fun x hx =>
        ⟨hrem x (hg x hx).1 (hg x hx).2.1, (hg x hx).2.2⟩⟩
    · rw [hf.good.rep.eq_of_mem hj htk, hf.steady.queue]
    · obtain rfl := hf.good.rep.eq_of_mem hj htk
      rcases h with ⟨-, h⟩ | h
      · have hnd := hf.good.rep.nodup j
        rw [hf.trail.cut, nodup_append] at hnd
        exact absurd rfl (hnd.2.2 t htl t h)
      · exact absurd h hR
  · -- on no list any more
    have hno := hf.good.rep.not_mem_of_queue hq
    exact ⟨S.erase t, hs.look hcut hR hrep hf (hs.nodup.erase t) hrem (by omega)
      (fun j hj => absurd hj (hno j)) (fun j hj _ => absurd hj (hno j))
      fun j hj _ => absurd hj (hno j),
      fun x hx => ⟨hrem x (hg x hx).1 (hg x hx).2.1, (hg x hx).2.2⟩⟩
  -- re-armed
  have hnw := hs.nowrap k t hmem hp hi
  have hnext := nextNsec_of_due (by rw [htb]; exact hT) hnw
  have hstep : 0 < w.stepOf t := by
    rw [stepOf]
    omega
  have hfresh := hs.fresh k t hmem hp
  rw [htb] at hfresh
  have hkind : (w'.timer t).todBased = b := by
    rw [he]
    exact htb
  refine ⟨S, hs.look hcut hR hrep hf hs.nodup (fun x hx _ => hx) ?_ (fun j hj => ?_)
    (fun _ _ _ => htS)
    fun j hj _ => ⟨fun hn => ?_, ?_, fun _ => ?_⟩, fun x hx => ⟨(hg x hx).1, (hg x hx).2.2⟩⟩
  · have hb' := budget_erase (w := w') htS
    rw [hkind, hsnap, hinc, he] at hb'
    have hv := visits_rearmed (n := w.nextNsec t) hp hi hth hT hnext
      (some (w'.head (w.timer t).todBased))
    dsimp only at hb'
    omega
  · rw [← hf.good.rep.kind_of_mem hj, hkind, hb]
  · -- where it has gone
    rw [hkind, he] at hn
    have hmem' := (hf.good.rep.mem_iff t j).mp hj
    have hjq : j.1 = w.head b := by
      have := hmem'.2.2.1
      rw [he, htb, hf.steady.head] at this
      exact (Option.some.inj this).symm
    have hjhome : j = (w.head b, getQueueIdx (w.queue (w.head b)) (w.nextNsec t)) := by
      rw [hmem'.2.2.2, home, hjq, he]
      rw [hf.steady.queue]
      rfl
    have hkhome := congrArg Prod.snd ((hrep.mem_iff t k).mp hmem).2.2.2
    by_cases hjk : j = k
    · refine .inl ⟨hjk, ?_⟩
      rw [hjk, hf.trail.cut, mem_append] at hj
      exact hj.resolve_left (hlt (by omega))
    rcases hland _ (w.nextNsec t) hfresh (by omega) hn hkhome with h | h
    · exact absurd (hjhome.trans h) hjk
    · exact .inr (hjhome ▸ h)
  · rw [hkind, he]
    show last b < w.nextNsec t
    omega
  · rw [hkind, stepOf, he, hinc, ← htb]
    exact hnw

end

end Slot

section Round
variable {last : Bool → Nat} {K : Bool → Prop} {ctx : Ctx} {w v : Wheel} {L M : Lists}
  {b : Bool} {q : Qid}
  {R : Qid × Nat → Prop} {S : List Tip} {nf : Nat}

theorem Sweep.env {Todo : Qid × Nat → Tip → Prop} (h : Sweep last K w L nf Todo S)
    (ht : v.timer = w.timer) (hn : v.nsec = w.nsec) (ha : v.nsecTodAdjust = w.nsecTodAdjust)
    (hi : v.nsecInc = w.nsecInc) (hq : v.queuedIntrevents = w.queuedIntrevents)
    (hg : v.growIntrevents = w.growIntrevents)
    (htod : ∀ r, (v.queue r).tod = (w.queue r).tod) : Sweep last K v L nf Todo S := by
  have hsnap := snapTime_congr hn ha
  have hb : v.budget S = w.budget S := by simp only [budget, hsnap, ht, hi]
  refine ⟨h.nodup, fun k t hk => htod k.1 ▸ h.kinds k t hk, h.todo, ?_, ?_, ?_, hb ▸ h.fires, ?_⟩
  · simpa only [ht, hsnap] using h.due
  · simpa only [ht] using h.fresh
  · simpa only [ht, hsnap, stepOf, hi] using h.nowrap
  · rw [hb, hq, hg]
    exact h.queued

theorem fireSlot_sweep (hctx : ctx ≠ .task) (hr : Ready ctx w L) {k : Qid × Nat} (hk : w.Slot k)
    (hb : (w.queue k.1).tod = b) (hR : ¬R k) (hland : Lands last w b k R)
    (hs : Sweep last K w L nf (fun j _ => j = k ∨ R j) S) :
    ∃ w' L' nf' S', fireSlot (w.snapTime b) ctx (slotNode k) 52 w (w.links.next (slotNode k)) nf =
        some (w', nf', false) ∧ Ready ctx w' L' ∧ Tick w w' ∧
      Sweep last K w' L' nf' (fun j _ => R j) S' := by
  have hc : Circle w.links (slotNode k) ([] ++ (L k).map .timer) := hr.good.rep.circles.circle hk
  have tr : Trail w L (w.snapTime b) k (w.links.next (slotNode k)) [] [] (L k) :=
    ⟨hk, rfl, hc.next_last, nodup_nil, by simp⟩
  have hstart : Sweep last K w L nf (fun j x => (j = k ∧ x ∈ L k) ∨ R j) S := by
    refine hs.mono (fun j x _ h => h.imp_left And.left) fun j x hx _ _ h => ?_
    exact h.imp_left fun e => ⟨e, e ▸ hx⟩
  obtain ⟨w', L', nf', stop, g, l1, l2, he, hr', ht, hcut, ⟨-, S', hs', -⟩, hend, hstop⟩ :=
    fireSlot_rule (T := w.snapTime b) (k := k) (J := fun v M g _ l2 nf => Tick w v ∧ ∃ S,
        Sweep last K v M nf (fun j x => (j = k ∧ x ∈ l2) ∨ R j) S ∧
        ∀ x ∈ g, x ∈ S ∧ (v.timer x).todBased = b) hctx
      (fun {v M n t g l1 l2 nf} hr tr ⟨ht, S, hs, hg⟩ hT => by
        have htg : t ∉ g := (nodup_cons.mp tr.nodup).1
        have hno := hr.good.rep.not_mem_of_queue (tr.leads.queue t (by simp))
        obtain ⟨htS, htb⟩ := hg t (by simp)
        have hbud := budget_erase (w := v) htS
        have hvis : 0 < visits (v.snapTime (v.timer t).todBased) v.nsecInc (v.timer t) := by
          refine visits_pos _ ?_
          rw [htb, snapTime_congr ht.nsec ht.nsecTodAdjust]
          exact hT
        refine ⟨ht, S.erase t, ⟨hs.nodup.erase t, hs.kinds, fun j x hx h => ?_, hs.due, hs.fresh, hs.nowrap,
          ?_, ?_⟩, fun x hx => ⟨?_, (hg x (by simp [hx])).2⟩⟩
        · have hxt : x ≠ t := fun e => hno j (e ▸ hx)
          exact (mem_erase_of_ne hxt).mpr (hs.todo j x hx h)
        · have := hs.fires
          omega
        · have := hs.queued
          omega
        · have hxt : x ≠ t := fun e => htg (e ▸ hx)
          exact (mem_erase_of_ne hxt).mpr (hg x (by simp [hx])).1)
      (fun {v M t l1 l2 nf n v' M' g l1' l2'} hr hcut ⟨ht, S, hs, _⟩ hT hf => by
        have hsnap := snapTime_congr ht.nsec ht.nsecTodAdjust b
        have hland' : Lands last v b k R := by
          intro m m' h1 h2 h3 h4
          rw [hsnap] at h3
          rw [ht.steady.queue] at h4
          rw [ht.steady.head, ht.steady.queue]
          exact hland m m' h1 h2 h3 h4
        rw [← hsnap] at hT hf
        obtain ⟨S', hs', hg'⟩ := hs.fired hr.good.rep hcut hR
          (by rw [ht.steady.queue]; exact hb) hland' hT hf
        exact ⟨ht.trans hf.tick, S', hs', hg'⟩)
      52 hr tr ⟨Tick.refl w, S, hstart, by simp⟩ (by omega) (Nat.le_add_right 52 nf)
  obtain rfl : stop = false := by
    by_contra h
    have := hs'.fires
    have := hs'.queued
    rcases hstop (by simpa using h) with h | h <;> omega
  refine ⟨w', L', nf', S', he, hr', ht, hs'.mono (fun j x _ h => .inr h) fun j x hx hp hn h => ?_⟩
  refine h.resolve_left fun ⟨hj, hxl⟩ => ?_
  have hxb : (w'.timer x).todBased = b := by
    rw [hr'.good.rep.kind_of_mem (hj ▸ hx), ht.steady.queue]
    exact hb
  have := hend rfl x hxl
  rw [hxb, snapTime_congr ht.nsec ht.nsecTodAdjust] at hn
  omega

theorem slotsLeft_self (mask curr : Nat) : slotsLeft mask curr curr = 0 := by
  rw [slotsLeft, Nat.add_sub_cancel_left, Nat.mod_self]

theorem slotsLeft_inj {mask i j curr : Nat} (hi : i ≤ mask) (hj : j ≤ mask) (hc : curr ≤ mask)
    (h : slotsLeft mask i curr = slotsLeft mask j curr) : i = j := by
  rw [slotsLeft_eq hi hc, slotsLeft_eq hj hc] at h
  split at h <;> split at h <;> omega

/-- The slots of `q` that come after slot `i` in a round that ends at `curr`, and all slots of
the queues `Later`. -/
def After (q : Qid) (mask i curr : Nat) (Later : Qid → Prop) (k : Qid × Nat) : Prop :=
  (k.1 = q ∧ slotsLeft mask k.2 curr < slotsLeft mask i curr) ∨ Later k.1

variable {Later : Qid → Prop}

theorem lands_after {i curr e : Nat} (hc : curr = getQueueIdx (w.queue q) (w.snapTime b))
    (he : (w.queue q).mask + 1 = 2 ^ e) (hi : i ≤ (w.queue q).mask)
    (hadv : w.snapTime b ≤ last b + 2 ^ (w.queue q).downshift)
    (hhead : w.head b = q ∨ Later (w.head b)) :
    Lands last w b (q, i) (After q (w.queue q).mask i curr Later) := by
  intro m m' h1 h2 h3 h4
  rcases hhead with hh | hh
  · rw [hh]
    rcases idx_of_later h1.le h2.le h3 hadv with h | h
    · exact .inl (by rw [h, ← h4])
    by_cases hic : i = curr
    · exact .inl (by rw [h, ← hc, hic])
    refine .inr (.inl ⟨rfl, ?_⟩)
    have hleft := (slotsLeft_next he hi (hc ▸ getQueueIdx_le _ _) hic).2
    rw [h, ← hc, slotsLeft_self]
    omega
  · exact .inr (.inr hh)

theorem expiryQueue_sweep (hctx : ctx ≠ .task) (hr : Ready ctx w L) (hq : q ∈ w.queueHead)
    (hb : (w.queue q).tod = b)
    (hadv : w.snapTime b ≤ last b + 2 ^ (w.queue q).downshift)
    (hcover : slotsLeft (w.queue q).mask (getQueueIdx (w.queue q) (last b))
        (getQueueIdx (w.queue q) (w.snapTime b)) ≤
      slotsLeft (w.queue q).mask (firstIdx (w.queue q) (getQueueIdx (w.queue q) (w.snapTime b)))
        (getQueueIdx (w.queue q) (w.snapTime b)))
    (hlater : ¬Later q) (hhead : w.head b = q ∨ Later (w.head b))
    (hs : Sweep last K w L nf (fun k _ => k.1 = q ∨ Later k.1) S) :
    ∃ w' L' nf' S', w.expiryQueue ctx q (w.snapTime b) (getQueueIdx (w.queue q) (w.snapTime b)) nf =
        some (w', nf', false) ∧ Ready ctx w' L' ∧ Turn q w w' ∧ w'.queueHead = w.queueHead ∧
      Sweep last K w' L' nf' (fun k _ => Later k.1) S' := by
  have hlt := hr.good.rep.fresh q hq
  obtain ⟨e, -, he⟩ := hr.good.shape.mask q hlt
  generalize hcurr : getQueueIdx (w.queue q) (w.snapTime b) = curr at *
  generalize hfirst : firstIdx (w.queue q) curr = first at *
  generalize hmask : (w.queue q).mask = mask at *
  have hc : curr ≤ mask := hcurr ▸ hmask ▸ getQueueIdx_le _ _
  have hfle : first ≤ mask := hfirst ▸ hmask ▸ firstIdx_le hr.good.shape hlt curr
  have hlle : (w.queue q).lastTickIdx ≤ mask := hmask ▸ hr.good.shape.lastTickIdx_le q hlt
  have hr1 : Ready ctx (w.setIdx q first (w.queue q).lastTickIdx) L :=
    hr.setIdx (hmask ▸ hfle) (hmask ▸ hlle)
  have hturn : Turn q w (w.setIdx q first (w.queue q).lastTickIdx) :=
    turn_setIdx w q (fun _ => first) fun _ => (w.queue q).lastTickIdx
  have hstart : Sweep last K (w.setIdx q first (w.queue q).lastTickIdx) L nf (fun k _ =>
      (k.1 = q ∧ slotsLeft mask k.2 curr ≤ slotsLeft mask first curr) ∨ Later k.1) S := by
    refine (hs.mono (fun k x _ h => h.imp_left And.left) fun k x hx hp hn h => ?_).env
      rfl rfl rfl rfl rfl rfl fun r => by rw [hturn.queue]
    refine h.imp_left fun hk => ⟨hk, ?_⟩
    have hxb : (w.timer x).todBased = b := by rw [hr.good.rep.kind_of_mem hx, hk, hb]
    have hxk : k.2 = getQueueIdx (w.queue q) (w.timer x).nsec := by
      have := congrArg Prod.snd ((hr.good.rep.mem_iff x k).mp hx).2.2.2
      rwa [hk] at this
    have hfr := hs.fresh k x hx hp
    rw [hxb] at hfr hn
    rcases idx_of_later le_rfl hfr.le hn hadv with h' | h'
    · rw [hxk, h']
      exact hcover
    · rw [hxk, h', hcurr, slotsLeft_self]
      exact Nat.zero_le _
  obtain ⟨w', L', nf', done, hf, hr', ht, hh, hdone, S', hs'⟩ := fireQueue_rule
    (T := w.snapTime b) (q := q)
    (P := fun i v M nf done => done = false ∧ i ≤ mask ∧ Turn q w v ∧ ∃ S, Sweep last K v M nf
      (fun k _ => (k.1 = q ∧ slotsLeft mask k.2 curr ≤ slotsLeft mask i curr) ∨ Later k.1) S)
    (R := fun v M nf done => done = false ∧ ∃ S, Sweep last K v M nf (fun k _ => Later k.1) S)
    (fun {i v M nf done} hr hslot ⟨hd, hi, ht, S, hs⟩ => by
      have hvq : (v.queue q).mask = mask := by rw [ht.queue, hmask]
      have hsnap := snapTime_congr ht.nsec ht.nsecTodAdjust b
      have hvhead : v.head b = w.head b := by
        cases b
        · exact ht.monTimers
        · exact ht.todTimers
      have hland : Lands last v b (q, i) (After q mask i curr Later) := by
        rw [← hvq]
        refine lands_after ?_ (by rw [hvq]; exact he) (hvq ▸ hi) ?_ (by rw [hvhead]; exact hhead)
        · rw [hsnap, ht.queue, ← hcurr]
          rfl
        · rw [hsnap, ht.queue]
          exact hadv
      have hR : ¬After q mask i curr Later (q, i) := by
        rintro (⟨-, h⟩ | h)
        · exact lt_irrefl _ h
        · exact hlater h
      have hs1 : Sweep last K v M nf (fun k _ => k = (q, i) ∨ After q mask i curr Later k) S := by
        refine hs.mono (fun k x _ h => ?_) fun k x hx _ _ h => ?_
        · rcases h with rfl | ⟨h, h'⟩ | h
          · exact .inl ⟨rfl, le_rfl⟩
          · exact .inl ⟨h, h'.le⟩
          · exact .inr h
        · rcases h with ⟨h, h'⟩ | h
          · have hkm : k.2 ≤ mask := by
              have := (hr.good.rep.slot_of_mem hx).2
              rwa [h, hvq] at this
            rcases Nat.lt_or_eq_of_le h' with h' | h'
            · exact .inr (.inl ⟨h, h'⟩)
            · exact .inl (Prod.ext h (slotsLeft_inj hkm hi hc h'))
          · exact .inr (.inr h)
      obtain ⟨v', M', nf', S', hf, hr', ht', hs'⟩ := fireSlot_sweep hctx hr (k := (q, i)) hslot
        (by rw [ht.queue, hb]) hR hland hs1
      rw [hsnap] at hf
      have hnext := turn_setIdx v' q (fun t => (t.fireIdx + 1) &&& t.mask) fun t => t.lastTickIdx
      refine ⟨v', M', nf', false, hf, hr', ht', fun hic => ⟨by simp [hd], S', ?_⟩,
        fun hic => ⟨by simp [hd], Nat.and_le_right, ?_, S', ?_⟩⟩
      · refine hs'.mono (fun k x _ h => .inr h) fun k x _ _ _ h => h.resolve_left fun ⟨_, h⟩ => ?_
        rw [hic, slotsLeft_self] at h
        omega
      · exact (ht.trans (ht'.turn q)).trans hnext
      · have hleft := (slotsLeft_next he hi hc hic).2
        refine (hs'.mono (fun k x _ h => ?_) fun k x _ _ _ h => ?_).env rfl rfl rfl rfl rfl rfl
          fun r => by rw [hnext.queue]
        · exact h.imp_left fun ⟨h, h'⟩ => ⟨h, by omega⟩
        · exact h.imp_left fun ⟨h, h'⟩ => ⟨h, by omega⟩)
    he hc (mask + 1) nf false hr1 hlt (by simp [setIdx, hmask])
    (Nat.mod_lt _ (Nat.succ_pos _)) ⟨rfl, by simpa [setIdx] using hfle, hturn, S, by
      simpa [setIdx] using hstart⟩
  subst hdone
  exact ⟨w', L', nf', S', by rw [expiryQueue_eq, hfirst, hmask, hf], hr', hturn.trans ht, hh, hs'⟩

end Round

end Wheel

end Qnx.Ker
