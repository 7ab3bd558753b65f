import Qnx.Ker.TimerRep

/-!
# Inserting a timer

The two-ended search of `timer_insert` closes in on the place of the timer from both sides, so
it meets a timer to stop at before it meets the sentinel. A new queue is empty and takes over
from the one it was made for.
-/

namespace Qnx.Ker

open Circular List Function

theorem flatMap_insert {l1 l2 : List Qid} {x : Qid} (y : Qid) (h : (l1 ++ x :: l2).Nodup) :
    (l1 ++ x :: l2).flatMap (fun q => if q = x then [q, y] else [q]) = l1 ++ x :: y :: l2 := by
  have hx := (nodup_cons.mp (nodup_middle.mp h)).1
  have hid : ∀ l : List Qid, x ∉ l → l.flatMap (fun q => if q = x then [q, y] else [q]) = l := by
    intro l hl
    induction l with
    | nil => rfl
    | cons a l ih =>
      have ha : a ≠ x := fun e => hl (by simp [e])
      rw [flatMap_cons, ih fun hm => hl (by simp [hm]), if_neg ha]
      rfl
  rw [mem_append, not_or] at hx
  rw [flatMap_append, flatMap_cons, hid l1 hx.1, hid l2 hx.2]
  simp

namespace Wheel

/-- `l` cut where a timer for time `x` belongs. -/
structure Cut (w : Wheel) (x : Nat) (l u v : List Tip) : Prop where
  eq : l = u ++ v
  left : ∀ a ∈ u, (w.timer a).nsec ≤ x
  right : ∀ b ∈ v, x < (w.timer b).nsec

theorem Cut.congr {w w' : Wheel} {x : Nat} {l u v : List Tip} (h : Cut w' x l u v)
    (ht : ∀ a ∈ l, w'.timer a = w.timer a) : Cut w x l u v := by
  refine ⟨h.eq, fun a ha => ?_, fun a ha => ?_⟩
  · rw [← ht a (h.eq ▸ mem_append_left v ha)]
    exact h.left a ha
  · rw [← ht a (h.eq ▸ mem_append_right u ha)]
    exact h.right a ha

theorem insertSearch_spec {w : Wheel} {s : Node} {mask x : Nat} {l : List Tip}
    (hc : Circle w.links s (l.map .timer))
    (hs : l.Pairwise fun a b => (w.timer a).nsec ≤ (w.timer b).nsec) (fuel : Nat) :
    ∀ (f mid g : List Tip) (search : Option Nat) (allocs : List Bool), l = f ++ (mid ++ g) →
      f.length = g.length → f ++ mid ≠ [] → (∀ a ∈ f, (w.timer a).nsec ≤ x) →
      (∀ b ∈ g, x < (w.timer b).nsec) → mid.length < fuel →
      ∃ place allocs', w.insertSearch mask x fuel (lastOf s (f.map .timer))
          (firstOf s (g.map .timer)) search allocs = some (place, allocs') ∧
        ((place = .grow ∧ search ≠ none ∧ mask < maxMask) ∨ ∃ u v, Cut w x l u v ∧
          (u ≠ [] ∧ place = .after (lastOf s (u.map .timer)) ∨
            v ≠ [] ∧ place = .before (firstOf s (v.map .timer)))) := by
  induction fuel with
  | zero => omega
  | succ n ih =>
    intro f mid g search allocs hl hlen hne hf hg hfuel
    have hnext : w.links.next (lastOf s (f.map .timer)) = firstOf s ((mid ++ g).map .timer) := by
      have hcut : Circle w.links s (f.map .timer ++ (mid ++ g).map .timer) := by
        rwa [← map_append, ← hl]
      exact hcut.next_last
    have hprev : w.links.prev (firstOf s (g.map .timer)) = lastOf s ((f ++ mid).map .timer) := by
      have hcut : Circle w.links s ((f ++ mid).map .timer ++ g.map .timer) := by
        rwa [← map_append, append_assoc, ← hl]
      exact hcut.prev_first
    obtain ⟨m1, b, hb⟩ := (eq_nil_or_concat' (f ++ mid)).resolve_left hne
    have hlb : lastOf s ((f ++ mid).map .timer) = .timer b := by
      rw [hb, map_append]
      exact lastOf_concat _ _ _
    simp only [insertSearch, hnext, hprev, hlb]
    split
    · rename_i hgrow
      exact ⟨_, _, rfl, .inl ⟨rfl, by simp [hgrow.1.1], hgrow.1.2⟩⟩
    simp only [nsecOf]
    -- everything the back pointer has not passed is at most `b`
    have hle : ∀ a ∈ f ++ mid, (w.timer a).nsec ≤ (w.timer b).nsec := by
      intro a ha
      rw [hl, ← append_assoc, hb, append_assoc, pairwise_append] at hs
      rw [hb, mem_append, mem_singleton] at ha
      rcases ha with ha | rfl
      · exact hs.2.2 a ha b (by simp)
      · exact le_rfl
    split
    · rename_i hxb
      refine ⟨_, _, rfl, .inr ⟨f ++ mid, g, ⟨by rw [hl, append_assoc], ?_, hg⟩,
        .inl ⟨hne, by rw [hlb]⟩⟩⟩
      exact fun a ha => (hle a ha).trans hxb
    rename_i hxb
    have hmid : mid ≠ [] := by
      rintro rfl
      rw [append_nil] at hb
      exact hxb (hf b (by simp [hb]))
    obtain ⟨a, m, rfl⟩ := exists_cons_of_ne_nil hmid
    have hfa : firstOf s ((a :: m ++ g).map .timer) = .timer a := firstOf_cons _ _ _
    simp only [hfa]
    split
    · rename_i hxa
      refine ⟨_, _, rfl, .inr ⟨f, a :: m ++ g, ⟨hl, hf, fun c hcm => ?_⟩,
        .inr ⟨by simp, by rw [hfa]⟩⟩⟩
      rw [hl, pairwise_append, cons_append, pairwise_cons] at hs
      rcases mem_cons.mp hcm with rfl | hcm
      · exact hxa
      · exact hxa.trans_le (hs.2.1.1 c hcm)
    -- `a` and `b` are different, and both are now passed
    have hm : m ≠ [] := by
      rintro rfl
      have : a = b := by
        have := congrArg getLast? hb
        simpa using this
      subst this
      omega
    obtain ⟨m', b', rfl⟩ := (eq_nil_or_concat' m).resolve_left hm
    obtain rfl : b' = b := by
      have := congrArg getLast? hb
      simpa [getLast?_cons] using this
    have hrec := fun search allocs => ih (f ++ [a]) m' (b' :: g) search allocs
      (by simp [hl]) (by simp [hlen]) (by simp)
      (fun c hcm => by
        rcases mem_append.mp hcm with hcm | hcm
        · exact hf c hcm
        · rw [mem_singleton.mp hcm]
          omega)
      (fun c hcm => by
        rcases mem_cons.mp hcm with rfl | hcm
        · omega
        · exact hg c hcm)
      (by simp at hfuel; omega)
    rw [map_append, map_cons, map_nil, lastOf_concat] at hrec
    obtain ⟨place, allocs', he, hplace⟩ := hrec _ _
    refine ⟨place, allocs', he, hplace.imp_left ?_⟩
    rintro ⟨hp, hsearch, hmask⟩
    refine ⟨hp, ?_, hmask⟩
    rintro rfl
    exact hsearch rfl

def grown (w : Wheel) (b : Bool) (entries downshift : Nat) : Wheel :=
  (w.newQueue entries downshift).addInNewQueue b (w.head b) w.nqueues

section Grown
variable {w : Wheel} {b : Bool} {entries downshift : Nat} {L : Lists} {off : Option Tip}

theorem grown_timer : (w.grown b entries downshift).timer = w.timer := by
  cases b <;> rfl

theorem grown_links :
    (w.grown b entries downshift).links = initSlots w.links w.nqueues entries := by
  cases b <;> rfl

theorem grown_nqueues : (w.grown b entries downshift).nqueues = w.nqueues + 1 := by
  cases b <;> rfl

theorem grown_queueHead : (w.grown b entries downshift).queueHead =
    w.queueHead.flatMap fun q => if q = w.head b then [q, w.nqueues] else [q] := by
  cases b <;> rfl

theorem grown_head (c : Bool) :
    (w.grown b entries downshift).head c = if c = b then w.nqueues else w.head c := by
  cases b <;> cases c <;> rfl

section

variable (h : w.head b < w.nqueues)
include h

theorem grown_queue (r : Qid) : (w.grown b entries downshift).queue r =
      if r = w.nqueues then
        ⟨downshift, entries - 1, 0, (w.queue (w.head b)).tod, (w.queue (w.head b)).old, 0, 0⟩
      else if r = w.head b then { w.queue r with old := true } else w.queue r := by
  have hset : ∀ (v : Wheel) q, (v.setHead b q).queue = v.queue := by
    intro v q
    cases b <;> rfl
  have hne : w.head b ≠ w.nqueues := h.ne
  simp only [grown, addInNewQueue, modQueue, newQueue, hset]
  by_cases hr : r = w.nqueues
  · subst hr
    simp [hne, hne.symm]
  by_cases hr' : r = w.head b
  · subst hr'
    simp [hne]
  · simp [hr, hr']

theorem grown_queue_of_lt {r : Qid} (hr : r < w.nqueues) : (w.grown b entries downshift).queue r =
      { w.queue r with old := if r = w.head b then true else (w.queue r).old } := by
  rw [grown_queue h, if_neg hr.ne]
  by_cases hr' : r = w.head b
  · simp [hr']
  · simp [hr']

theorem grown_queue_new : (w.grown b entries downshift).queue w.nqueues =
      ⟨downshift, entries - 1, 0, (w.queue (w.head b)).tod, (w.queue (w.head b)).old, 0, 0⟩ := by
  rw [grown_queue h, if_pos rfl]

end

theorem Shape.head_mem (hs : Shape w) (c : Bool) : w.head c ∈ w.queueHead := by
  obtain ⟨ms, ts, he, -, -⟩ := hs.order
  rw [he]
  cases c <;> simp [head]

theorem Rep.nil_of_new (h : Rep w L off) (i : Nat) : L (w.nqueues, i) = [] := by
  refine eq_nil_iff_forall_not_mem.mpr fun t ht => ?_
  exact lt_irrefl _ (h.slot_of_mem ht).1

theorem Rep.grown (h : Rep w L off) (hb : w.head b ∈ w.queueHead) (he : 0 < entries) :
    Rep (w.grown b entries downshift) L off := by
  have hlt := h.fresh _ hb
  have hmem : ∀ {q}, q ∈ (w.grown b entries downshift).queueHead ↔
      q ∈ w.queueHead ∨ q = w.nqueues := by
    intro q
    rw [grown_queueHead, mem_flatMap]
    constructor
    · rintro ⟨r, hr, hqr⟩
      grind
    · rintro (hq | rfl)
      · exact ⟨q, hq, by split <;> simp⟩
      · exact ⟨_, hb, by simp⟩
  have hhome : ∀ {q}, q < w.nqueues → ∀ t, (w.grown b entries downshift).home q t = w.home q t := by
    intro q hq t
    simp only [home, grown_queue_of_lt hlt hq, grown_timer, getQueueIdx]
  refine ⟨⟨fun {k} hk => ?_, h.circles.nodup, h.circles.disjoint⟩, fun q hq => ?_, fun t k => ?_,
    fun t ht ha => ?_, fun t ht ha => ?_, fun k => ?_, fun q hq => ?_⟩
  · rw [grown_links]
    obtain ⟨hkn, hkm⟩ := hk
    rw [grown_nqueues] at hkn
    by_cases hk' : k.1 = w.nqueues
    · rw [hk', grown_queue_new hlt] at hkm
      have hnil : L k = [] := by
        have := h.nil_of_new k.2
        rwa [← hk'] at this
      rw [hnil]
      have : k.2 < entries := Nat.lt_of_le_pred he hkm
      exact circle_nil_iff.mpr (by simp [slotNode, initSlots, hk', this])
    have hk1 : k.1 < w.nqueues := lt_of_le_of_ne (Nat.le_of_lt_succ hkn) hk'
    rw [grown_queue_of_lt hlt hk1] at hkm
    have hnode : ∀ x ∈ slotNode k :: (L k).map Node.timer,
        (initSlots w.links w.nqueues entries).next x = w.links.next x ∧
        (initSlots w.links w.nqueues entries).prev x = w.links.prev x := by
      intro x hx
      cases x with
      | timer t => exact ⟨rfl, rfl⟩
      | slot q i =>
        simp only [slotNode, mem_cons, Node.slot.injEq, mem_map, reduceCtorEq,
          and_false, exists_false, or_false] at hx
        have : q ≠ w.nqueues := hx.1 ▸ hk'
        simp [initSlots, this]
    exact (h.circles.circle ⟨hk1, hkm⟩).frame (fun x hx => (hnode x hx).1) fun x hx =>
      (hnode x hx).2
  · rw [grown_nqueues]
    rcases hmem.mp hq with hq | rfl
    · exact Nat.lt_succ_of_lt (h.fresh q hq)
    · exact Nat.lt_succ_self _
  · rw [h.mem_iff, grown_timer]
    refine and_congr_right fun ht => and_congr_right fun ha => and_congr_right fun hq => ?_
    obtain ⟨q, hqm, hqt, -⟩ := h.owned t ht ha
    obtain rfl : q = k.1 := Option.some.inj (hqt.symm.trans hq)
    rw [hhome (h.fresh _ hqm)]
  · rw [grown_timer] at ha ⊢
    obtain ⟨q, hqm, hqt, htod⟩ := h.owned t ht ha
    refine ⟨q, hmem.mpr (.inl hqm), hqt, ?_⟩
    rw [grown_queue_of_lt hlt (h.fresh q hqm)]
    exact htod
  · rw [grown_timer] at ha ⊢
    exact h.idle t ht ha
  · rw [grown_timer]
    exact h.sorted k
  · rw [grown_nqueues] at hq
    by_cases hq' : q = w.nqueues
    · subst hq'
      rw [grown_queue_new hlt]
      exact (Finset.sum_eq_zero fun i _ => by rw [h.nil_of_new, length_nil]).symm
    have hq'' : q < w.nqueues := lt_of_le_of_ne (Nat.le_of_lt_succ hq) hq'
    rw [linkedIn_congr (w := w) (by rw [grown_queue_of_lt hlt hq'']), grown_queue_of_lt hlt hq'']
    exact h.count q hq''

theorem Shape.grown (hs : Shape w) (hfresh : ∀ q ∈ w.queueHead, q < w.nqueues) {e : Nat}
    (he : e ≤ 7) (hen : entries = 2 ^ e) : Shape (w.grown b entries downshift) := by
  have hlt := hfresh _ (hs.head_mem b)
  have hpos : 0 < entries := hen ▸ Nat.two_pow_pos e
  have hfield : ∀ q < w.nqueues + 1, ∀ P : TimerQueue → Prop,
      (∀ o, q < w.nqueues → P { w.queue q with old := o }) →
      (∀ tod old, P ⟨downshift, entries - 1, 0, tod, old, 0, 0⟩) →
      P ((w.grown b entries downshift).queue q) := by
    intro q hq P h1 h2
    by_cases hq' : q = w.nqueues
    · rw [hq', grown_queue_new hlt]
      exact h2 _ _
    have hq'' : q < w.nqueues := lt_of_le_of_ne (Nat.le_of_lt_succ hq) hq'
    rw [grown_queue_of_lt hlt hq'']
    exact h1 _ hq''
  have htod : ∀ q ∈ w.queueHead, ((w.grown b entries downshift).queue q).tod = (w.queue q).tod := by
    intro q hq
    rw [grown_queue_of_lt hlt (hfresh q hq)]
  have hnot : w.nqueues ∉ w.queueHead := fun hm => lt_irrefl _ (hfresh _ hm)
  have hmask : ∀ q < w.nqueues + 1, ∃ e ≤ 7, ((w.grown b entries downshift).queue q).mask + 1 =
      2 ^ e := by
    refine fun q hq => hfield q hq (fun t => ∃ e ≤ 7, t.mask + 1 = 2 ^ e)
      (fun o hq' => hs.mask q hq') fun _ _ => ⟨e, he, ?_⟩
    rw [← hen]
    exact Nat.sub_add_cancel hpos
  have hhead : ∀ c, ((w.grown b entries downshift).queue
      ((w.grown b entries downshift).head c)).tod = c ∧
      ((w.grown b entries downshift).queue ((w.grown b entries downshift).head c)).old = false := by
    intro c
    rw [grown_head]
    split
    · rename_i hc
      rw [grown_queue_new hlt, hc]
      exact ⟨hs.tod b, hs.old b⟩
    rename_i hc
    have hne : w.head c ≠ w.head b := fun e => hc (by rw [← hs.tod c, e, hs.tod b])
    rw [grown_queue_of_lt hlt (hfresh _ (hs.head_mem c)), if_neg hne]
    exact ⟨hs.tod c, hs.old c⟩
  -- the list of queues, cut at the old head
  obtain ⟨l1, l2, hl, horder⟩ : ∃ l1 l2, w.queueHead = l1 ++ w.head b :: l2 ∧
      ∃ ms ts, l1 ++ w.head b :: w.nqueues :: l2 =
        ms ++ (w.grown b entries downshift).head false :: (ts ++
          [(w.grown b entries downshift).head true]) ∧
        (∀ q ∈ ms, ((w.grown b entries downshift).queue q).tod = false) ∧
        ∀ q ∈ ts, ((w.grown b entries downshift).queue q).tod = true := by
    obtain ⟨ms, ts, hq, hms, hts⟩ := hs.order
    have hms' : ∀ q ∈ ms, ((w.grown b entries downshift).queue q).tod = false := fun q hm => by
      rw [htod q (by simp [hq, hm]), hms q hm]
    have hts' : ∀ q ∈ ts, ((w.grown b entries downshift).queue q).tod = true := fun q hm => by
      rw [htod q (by simp [hq, hm]), hts q hm]
    have hold := htod _ (hs.head_mem b)
    rw [hs.tod b] at hold
    cases b with
    | false =>
      refine ⟨ms, ts ++ [w.todTimers], hq, ms ++ [w.monTimers], ts, ?_, ?_, hts'⟩
      · simp only [grown_head]
        simp [head]
      · simpa [or_imp, forall_and] using ⟨hms', hold⟩
    | true =>
      refine ⟨ms ++ w.monTimers :: ts, [], by simp [hq, head], ms, ts ++ [w.todTimers], ?_, hms', ?_⟩
      · simp only [grown_head]
        simp [head]
      · simpa [or_imp, forall_and] using ⟨hts', hold⟩
  have hqh : (w.grown b entries downshift).queueHead = l1 ++ w.head b :: w.nqueues :: l2 := by
    rw [grown_queueHead, hl]
    exact flatMap_insert _ (hl ▸ hs.nodup)
  refine ⟨hqh ▸ horder, fun c => (hhead c).1, fun c => (hhead c).2, ?_, ?_, fun q hq => ?_,
    fun q hq => ?_⟩
  · rw [hqh]
    have hperm : (l1 ++ w.head b :: w.nqueues :: l2).Perm (w.nqueues :: w.queueHead) := by
      rw [hl]
      exact ((Perm.swap w.nqueues (w.head b) l2).append_left l1).trans perm_middle
    exact hperm.nodup_iff.mpr (nodup_cons.mpr ⟨hnot, hs.nodup⟩)
  · rw [grown_nqueues]
    exact hmask
  · rw [grown_nqueues] at hq
    exact hfield q hq (fun t => t.fireIdx ≤ t.mask) (fun _ hq' => hs.fireIdx_le q hq')
      fun _ _ => Nat.zero_le _
  · rw [grown_nqueues] at hq
    exact hfield q hq (fun t => t.lastTickIdx ≤ t.mask) (fun _ hq' => hs.lastTickIdx_le q hq')
      fun _ _ => Nat.zero_le _

end Grown

/-- `w'` is `w` with `t` put into slot `k`, between `u` and `v`. -/
structure Inserted (w : Wheel) (L : Lists) (t : Tip) (w' : Wheel) (k : Qid × Nat)
    (u v : List Tip) : Prop where
  rep : Rep w' (update L k (u ++ t :: v)) none
  shape : Shape w'
  cut : Cut w (w.timer t).nsec (L k) u v
  head : k.1 = w'.head (w.timer t).todBased
  others : ∀ x ≠ t, w'.timer x = w.timer x
  self : w'.timer t = { w.timer t with queue := some k.1 }
  apart : Apart w w'
  gone : ∀ x ≠ t, (∀ j, x ∉ L j) → w'.links.next (.timer x) = w.links.next (.timer x)

section Insert
variable {w : Wheel} {L : Lists} {t : Tip} {isr : Bool} {q : Qid}

theorem findPlace_spec {off : Option Tip} (h : Rep w L off) (hq : q ∈ w.queueHead) (t : Tip)
    (isr : Bool) : ∃ p allocs, w.findPlace t q isr = some (p, allocs) ∧
      ((p = .grow ∧ isr = false ∧ L (w.home q t) ≠ [] ∧ (w.queue q).mask < maxMask) ∨
        ∃ u v, Cut w (w.timer t).nsec (L (w.home q t)) u v ∧
          (L (w.home q t) = [] ∧ p = .after (slotNode (w.home q t)) ∨
            u ≠ [] ∧ p = .after (lastOf (slotNode (w.home q t)) (u.map .timer)) ∨
            v ≠ [] ∧ p = .before (firstOf (slotNode (w.home q t)) (v.map .timer)))) := by
  have hslot : w.Slot (w.home q t) := ⟨h.fresh _ hq, getQueueIdx_le _ _⟩
  have hc := h.circles.circle hslot
  have hnode : Node.slot q (getQueueIdx (w.queue q) (w.timer t).nsec) = slotNode (w.home q t) := rfl
  simp only [findPlace, hnode]
  by_cases hnil : L (w.home q t) = []
  · rw [hnil] at hc
    rw [if_pos (circle_nil_iff.mp hc).1]
    exact ⟨_, _, rfl, .inr ⟨[], [], ⟨hnil, by simp, by simp⟩, .inl ⟨hnil, rfl⟩⟩⟩
  have hne : w.links.next (slotNode (w.home q t)) ≠ slotNode (w.home q t) := by
    obtain ⟨a, l, hal⟩ := exists_cons_of_ne_nil hnil
    have hcn : Circle w.links (slotNode (w.home q t)) ([] ++ (a :: l).map .timer) := hal ▸ hc
    have hnext : w.links.next (slotNode (w.home q t)) = .timer a := hcn.next_last
    rw [hnext]
    simp [slotNode]
  rw [if_neg hne]
  generalize hsearch : (if isr = true then none
    else if (w.queue q).numActive ≥ 2 * maxSearch * ((w.queue q).mask + 1) then some 1
    else some maxSearch : Option Nat) = search
  obtain ⟨p, allocs, he, hp⟩ := insertSearch_spec (x := (w.timer t).nsec) hc (h.sorted _)
    ((w.queue q).numActive + 1) [] (L (w.home q t)) [] search w.allocs (by simp) rfl (by simpa)
    (by simp) (by simp) (Nat.lt_succ_of_le (h.length_le hslot))
  refine ⟨p, allocs, he, hp.imp ?_ ?_⟩
  · rintro ⟨hp, hs, hm⟩
    refine ⟨hp, ?_, hnil, hm⟩
    by_contra hisr
    simp only [Bool.not_eq_false] at hisr
    exact hs (by rw [← hsearch, if_pos hisr])
  · rintro ⟨u, v, hcut, hp⟩
    exact ⟨u, v, hcut, .inr hp⟩

section

variable (h : Rep w L (some t))
include h

theorem place_cut (hs : Shape w) (ha : (w.timer t).active = true)
    {b : Bool} (hb : (w.timer t).todBased = b) (hq : (w.timer t).queue = some (w.head b))
    {u v : List Tip} {p : Place} (hcut : Cut w (w.timer t).nsec (L (w.home (w.head b) t)) u v)
    (hp : p = .after (lastOf (slotNode (w.home (w.head b) t)) (u.map .timer)) ∨
      p = .before (firstOf (slotNode (w.home (w.head b) t)) (v.map .timer))) :
    ∃ w', w.place t (w.head b) p = (w', false) ∧
      Rep w' (update L (w.home (w.head b) t) (u ++ t :: v)) none ∧
      Steady w w' ∧ Apart w w' ∧ w'.timer = w.timer ∧
      ∀ x ≠ t, (∀ j, x ∉ L j) → w'.links.next (.timer x) = w.links.next (.timer x) := by
  set k := w.home (w.head b) t
  have hmem : k.1 ∈ w.queueHead := hs.head_mem _
  have hc := h.circles.circle (k := k) ⟨h.fresh _ hmem, getQueueIdx_le _ _⟩
  rw [hcut.eq, map_append] at hc
  refine ⟨w.linkIn k.1 (lastOf (slotNode k) (u.map .timer)) t
    (firstOf (slotNode k) (v.map .timer)), ?_, ?_, relink_steady .., relink_apart .., rfl,
    fun x hx hL => ?_⟩
  · rcases hp with rfl | rfl
    · simp only [place, hc.next_last]
      rfl
    · simp only [place, hc.prev_first]
      rfl
  · refine h.linkIn hcut.eq hmem rfl ha hq ?_ hcut.left fun x hx => (hcut.right x hx).le
    rw [hb]
    exact hs.tod b
  · have hlast : lastOf (slotNode k) (u.map .timer) ≠ .timer x := by
      intro e
      have hm := e ▸ lastOf_mem (slotNode k) (u.map .timer)
      have hu : x ∈ u := by simpa [slotNode] using hm
      exact hL k (hcut.eq ▸ mem_append_left v hu)
    simp [linkIn_eq, Ptrs.link, hlast.symm, hx]

theorem place_grow (hs : Shape w) {b : Bool}
    (hb : (w.timer t).todBased = b) (hm : (w.queue (w.head b)).mask < maxMask) :
    ∃ w', w.place t (w.head b) .grow = (w', true) ∧ Rep w' L (some t) ∧ Shape w' ∧
      (∀ i, L (w'.head b, i) = []) ∧ Apart w w' ∧ w'.timer = w.timer ∧
      ∀ x, w'.links.next (.timer x) = w.links.next (.timer x) := by
  have hmem := hs.head_mem b
  obtain ⟨e, he, hmask⟩ := hs.mask _ (h.fresh _ hmem)
  have hsize : ((w.queue (w.head b)).mask + 1) <<< 1 = 2 ^ (e + 1) := by
    omega
  have he' : e + 1 ≤ 7 := by
    by_contra hlt
    obtain rfl : e = 7 := by omega
    simp only [maxMask] at hm
    omega
  refine ⟨w.grown b (((w.queue (w.head b)).mask + 1) <<< 1) (w.queue (w.head b)).downshift, ?_,
    h.grown hmem ?_, hs.grown h.fresh he' hsize, fun i => ?_, ?_, grown_timer,
    fun x => by rw [grown_links]; rfl⟩
  · rw [place, hb]
    rfl
  · rw [hsize]
    exact Nat.two_pow_pos _
  · rw [grown_head, if_pos rfl]
    exact h.nil_of_new i
  · cases b <;> exact ⟨rfl, rfl, rfl, rfl, rfl, rfl, rfl⟩

theorem insertOnce_spec (hs : Shape w) (ha : (w.timer t).active = true)
    {b : Bool} (hb : (w.timer t).todBased = b) (isr : Bool) :
    (∃ w' k u v, w.insertOnce t (w.head b) isr = some (w', false) ∧ Inserted w L t w' k u v ∧
      Steady w w') ∨
    (isr = false ∧ L (w.home (w.head b) t) ≠ [] ∧
      ∃ w', w.insertOnce t (w.head b) isr = some (w', true) ∧ Rep w' L (some t) ∧ Shape w' ∧
        (∀ i, L (w'.head b, i) = []) ∧ (∀ x ≠ t, w'.timer x = w.timer x) ∧
        w'.timer t = { w.timer t with queue := some (w.head b) } ∧ Apart w w' ∧
        ∀ x, w'.links.next (.timer x) = w.links.next (.timer x)) := by
  set w1 := w.modTimer t fun t => { t with queue := some (w.head b) } with hw1
  have h1 : Rep w1 L (some t) := h.modTimer t _ fun e => absurd rfl e
  have hself : w1.timer t = { w.timer t with queue := some (w.head b) } := modTimer_self _ _ _
  have hother : ∀ x ≠ t, w1.timer x = w.timer x := fun x hx => modTimer_of_ne w _ hx
  obtain ⟨p, allocs, he, hp⟩ := findPlace_spec (q := w.head b) h1 (hs.head_mem b) t isr
  obtain ⟨w2, hw2⟩ : ∃ w2 : Wheel, w2 = { w1 with allocs := allocs } := ⟨_, rfl⟩
  have ht2 : w2.timer = w1.timer := by rw [hw2]
  have hl2 : w2.links = w.links := by
    rw [hw2]
    rfl
  have h2 : Rep w2 L (some t) := by
    rw [hw2]
    exact h1.env rfl rfl rfl rfl rfl
  have hst : Steady w w2 := by
    rw [hw2]
    exact ⟨fun _ => rfl, rfl, rfl, rfl, rfl⟩
  have hap : Apart w w2 := by
    rw [hw2]
    exact ⟨rfl, rfl, rfl, rfl, rfl, rfl, rfl⟩
  have hins : w.insertOnce t (w.head b) isr = some (w2.place t (w2.head b) p) := by
    rw [hst.head, hw2]
    simp [insertOnce, ← hw1, he]
  have hhome : w1.home (w.head b) t = w2.home (w2.head b) t := by
    rw [hw2]
    rfl
  have hhome' : w1.home (w.head b) t = w.home (w.head b) t := by simp [home, hw1]
  have hb2 : (w2.timer t).todBased = b := by rw [ht2, hself, ← hb]
  have hq2 : (w2.timer t).queue = some (w2.head b) := by rw [ht2, hself, hst.head]
  have ha2 : (w2.timer t).active = true := by
    rw [ht2, hself]
    exact ha
  rcases hp with ⟨rfl, hisr, hne, hm⟩ | ⟨u, v, hcut, hp⟩
  · obtain ⟨w', he', hrep, hshape, hnil, hap', ht', hgone⟩ := place_grow h2 (hst.shape hs) hb2 (by
      rw [hst.head, hst.queue]
      exact hm)
    refine .inr ⟨hisr, hhome' ▸ hne, w', by rw [hins, he'], hrep, hshape, hnil, ?_, ?_,
      hap.trans hap', hl2 ▸ hgone⟩
    · rw [ht', ht2]
      exact hother
    · rw [ht', ht2, hself]
  have hcut2 : Cut w2 (w2.timer t).nsec (L (w2.home (w2.head b) t)) u v := by
    rw [← hhome]
    exact ⟨hcut.eq, ht2 ▸ hcut.left, ht2 ▸ hcut.right⟩
  have hp : p = .after (lastOf (slotNode (w2.home (w2.head b) t)) (u.map .timer)) ∨
      p = .before (firstOf (slotNode (w2.home (w2.head b) t)) (v.map .timer)) := by
    rw [← hhome]
    rcases hp with ⟨hnil, hp⟩ | ⟨-, hp⟩ | ⟨-, hp⟩
    · have hu : u = [] := (append_eq_nil_iff.mp (hcut.eq.symm.trans hnil)).1
      exact .inl (by rw [hp, hu]; rfl)
    · exact .inl hp
    · exact .inr hp
  obtain ⟨w', he', hrep, hst', hap', ht', hgone⟩ := place_cut h2 (hst.shape hs) ha2 hb2 hq2 hcut2 hp
  have hst'' := hst.trans hst'
  refine .inl ⟨w', _, u, v, by rw [hins, he'], ⟨hrep, hst''.shape hs, ?_, ?_, ?_, ?_,
    hap.trans hap', hl2 ▸ hgone⟩, hst''⟩
  · rw [← hhome]
    have hne : ∀ x ∈ L (w1.home (w.head b) t), w1.timer x = w.timer x := fun x hx =>
      hother x fun e => h.not_mem_off _ (e ▸ hx)
    rw [hself] at hcut
    exact hcut.congr hne
  · rw [hb, hst''.head, ← hst.head]
    rfl
  · rw [ht', ht2]
    exact hother
  · rw [ht', ht2, hself, ← hst.head]
    rfl

theorem timerInsert_spec (hs : Shape w) (ha : (w.timer t).active = true)
    (isr : Bool) : ∃ w' k u v, w.timerInsert t isr = some w' ∧ Inserted w L t w' k u v ∧
      (isr = true → Steady w w') := by
  rw [timerInsert]
  rcases insertOnce_spec h hs ha rfl isr with ⟨w', k, u, v, he, hins, hst⟩ |
    ⟨hisr, -, w', he, hrep, hshape, hnil, hother, hself, hap, hgone⟩
  · exact ⟨w', k, u, v, by rw [he], hins, fun _ => hst⟩
  · have hb : (w'.timer t).todBased = (w.timer t).todBased := by rw [hself]
    rcases insertOnce_spec hrep hshape (by rw [hself]; exact ha) hb isr with
      ⟨w'', k, u, v, he', hins, -⟩ | ⟨-, hne, -⟩
    · simp only [he, he']
      refine ⟨w'', k, u, v, rfl, ⟨hins.rep, hins.shape, ?_, ?_, fun x hx => ?_, ?_,
        hap.trans hins.apart, fun x hx hL => (hins.gone x hx hL).trans (hgone x)⟩,
          fun h => absurd h (by simp [hisr])⟩
      · have hcut := hins.cut
        rw [hself] at hcut
        have hne : ∀ x ∈ L k, w'.timer x = w.timer x := fun x hx =>
          hother x fun e => h.not_mem_off _ (e ▸ hx)
        exact hcut.congr hne
      · rw [hins.head, hb]
      · rw [hins.others x hx, hother x hx]
      · rw [hins.self, hself]
    · exact absurd (hnil _) hne

end

end Insert

end Wheel

end Qnx.Ker
