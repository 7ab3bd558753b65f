import Qnx.Ker.TimerInsert

/-!
# Re-arming and deactivating timers

`Good` collects the invariants. Re-arming, working off the pending list, deactivating a timer and
changing the period keep them; each of the lemmas says how the lists and the timers change.
-/

namespace Qnx.Ker

open Circular List Function Option

namespace Wheel

structure Good (w : Wheel) (L : Lists) (tips : List Tip) : Prop where
  rep : Rep w L none
  shape : Shape w
  pend : Pend w tips

/-- A timer after `timer_rearm`, in the queue `q` if it goes on. -/
def rearmed (w : Wheel) (t : Tip) (q : Option Qid) : Timer :=
  if (w.timer t).intervalNsec = 0 then { w.timer t with active := false, queue := none }
  else { w.timer t with nsec := w.nextNsec t, queue := q }

section Rearm
variable {w w' : Wheel} {L : Lists} {t : Tip} {tips : List Tip} {k : Qid × Nat}
  {l₁ l₂ : List Tip}

section

variable (h : Rep w L none)
include h

theorem Rep.mem_of_active (ha : (w.timer t).active = true) : ∃ k, t ∈ L k := by
  obtain ⟨q, -, hq, -⟩ := h.owned t (by simp) ha
  exact ⟨w.home q t, (h.mem_iff t _).mpr ⟨by simp, ha, hq, rfl⟩⟩

theorem Rep.queue_eq_none : (w.timer t).queue = none ↔ (w.timer t).active = false := by
  refine ⟨fun hq => ?_, h.idle t (by simp)⟩
  by_contra ha
  obtain ⟨q, -, hq', -⟩ := h.owned t (by simp) (by simpa using ha)
  simp [hq] at hq'

theorem Rep.active_of_mem (hk : t ∈ L k) :
    (w.timer t).active = true ∧ (w.timer t).queue = some k.1 :=
  ⟨((h.mem_iff t k).mp hk).2.1, ((h.mem_iff t k).mp hk).2.2.1⟩

theorem Rep.next_unlink (hk : L k = l₁ ++ t :: l₂) {x : Tip}
    (hx : x ∉ l₁) : (w.links.unlink (.timer t)).next (.timer x) = w.links.next (.timer x) := by
  have hc := h.circles.circle (h.slot_of_mem (k := k) (t := t) (hk ▸ by simp))
  rw [hk, map_append] at hc
  have hne : Node.timer x ≠ w.links.prev (.timer t) := by
    rw [hc.prev_mem]
    intro e
    have hm := e ▸ lastOf_mem (slotNode k) (l₁.map .timer)
    exact hx (by simpa [slotNode] using hm)
  simp [Ptrs.unlink, hne]

end

theorem Pend.congr (h : Pend w tips) (hp : ∀ t, (w'.timer t).pending = (w.timer t).pending)
    (ha : ∀ t ∈ tips, (w'.timer t).active = (w.timer t).active) : Pend w' tips :=
  ⟨fun t => by rw [hp]; exact h.iff t, h.nodup, fun t ht => by rw [ha t ht]; exact h.active t ht⟩

/-- The lists after `timer_rearm`: `t` leaves slot `k` and, if it is an interval timer, enters
another one. -/
inductive Relisted (w : Wheel) (L : Lists) (t : Tip) (k : Qid × Nat) (l₁ l₂ : List Tip) :
    Lists → Prop
  | retired (h : (w.timer t).intervalNsec = 0) : Relisted w L t k l₁ l₂ (update L k (l₁ ++ l₂))
  | moved {j : Qid × Nat} {u v : List Tip} (h : (w.timer t).intervalNsec ≠ 0)
      (hc : Cut w (w.nextNsec t) (update L k (l₁ ++ l₂) j) u v) :
      Relisted w L t k l₁ l₂ (update (update L k (l₁ ++ l₂)) j (u ++ t :: v))

theorem timerRearm_spec (g : Good w L tips) (hk : L k = l₁ ++ t :: l₂) (hp : t ∉ tips)
    (isr : Bool) : ∃ w' L', w.timerRearm t isr = some w' ∧ Good w' L' tips ∧
      Relisted w L t k l₁ l₂ L' ∧
      w'.timer t = w.rearmed t (some (w'.head (w.timer t).todBased)) ∧
      (∀ x ≠ t, w'.timer x = w.timer x) ∧ Apart w w' ∧ (isr = true → Steady w w') ∧
      (∀ x ≠ t, (∀ j, x ∉ L j) → w'.links.next (.timer x) = w.links.next (.timer x)) := by
  have hmem : t ∈ L k := hk ▸ by simp
  obtain ⟨ha, hq⟩ := g.rep.active_of_mem hmem
  have hu := g.rep.unlinkFrom hk
  have hgone : ∀ x, (∀ j, x ∉ L j) →
      (w.links.unlink (.timer t)).next (.timer x) = w.links.next (.timer x) := fun x hx =>
    g.rep.next_unlink hk fun hm => hx k (hk ▸ mem_append_left _ hm)
  have hout : ∀ x, (∀ j, x ∉ L j) → ∀ j, x ∉ update L k (l₁ ++ l₂) j := by
    intro x hx j hj
    by_cases e : j = k
    · subst e
      exact hx j (hk ▸ Sublist.subset (by simp) hj)
    · rw [update_of_ne e] at hj
      exact hx j hj
  simp only [timerRearm, hq]
  have hst1 := unlinkFrom_steady w k.1 t
  have hap1 := unlinkFrom_apart w k.1 t
  by_cases hi : (w.timer t).intervalNsec = 0
  · rw [if_pos (by exact hi)]
    have hother : ∀ x ≠ t, (((w.unlinkFrom k.1 t).modTimer t fun t =>
        { t with active := false, queue := none }).timer x) = w.timer x :=
      fun x hx => modTimer_of_ne _ _ hx
    have hst : Steady w ((w.unlinkFrom k.1 t).modTimer t fun t =>
        { t with active := false, queue := none }) := hst1.trans (modTimer_steady ..)
    refine ⟨_, _, rfl, ⟨?_, hst.shape g.shape, g.pend.congr (fun x => ?_) fun x hx => ?_⟩,
      .retired hi, ?_, hother, hap1.trans (modTimer_apart ..), fun _ => hst,
      fun x _ hx => hgone x hx⟩
    · exact (hu.modTimer t _ fun e => absurd rfl e).retire (by simp) (by simp)
    · by_cases hx : x = t
      · subst hx
        simp [unlinkFrom_eq]
      · rw [hother x hx]
    · rw [hother x fun e => hp (e ▸ hx)]
    · rw [modTimer_self, rearmed, if_pos hi]
      rfl
  · rw [if_neg (by exact hi)]
    set w1 := (w.unlinkFrom k.1 t).modTimer t fun x =>
      { x with nsec := (w.unlinkFrom k.1 t).nextNsec t } with hw1
    have hother : ∀ x ≠ t, w1.timer x = w.timer x := fun x hx => modTimer_of_ne _ _ hx
    have hself : w1.timer t = { w.timer t with nsec := w.nextNsec t } := modTimer_self _ _ _
    have hst : Steady w w1 := hst1.trans (modTimer_steady ..)
    have hap : Apart w w1 := hap1.trans (modTimer_apart ..)
    obtain ⟨w', j, u, v, he, hins, hst'⟩ := timerInsert_spec
      (hu.modTimer t _ fun e => absurd rfl e) (hst.shape g.shape) (by rw [hself]; exact ha) isr
    have htimer : w'.timer t = w.rearmed t (some (w'.head (w.timer t).todBased)) := by
      have hhead := hins.head
      rw [hself] at hhead
      rw [hins.self, hself, rearmed, if_neg hi, hhead]
    have hothers : ∀ x ≠ t, w'.timer x = w.timer x := fun x hx => by
      rw [hins.others x hx, hother x hx]
    refine ⟨w', _, he, ⟨hins.rep, hins.shape, g.pend.congr (fun x => ?_) fun x hx => ?_⟩,
      .moved hi ?_, htimer, hothers, hap.trans hins.apart, fun h => hst.trans (hst' h),
      fun x hx hL => (hins.gone x hx (hout x hL)).trans (hgone x hL)⟩
    · by_cases hx : x = t
      · subst hx
        rw [htimer, rearmed, if_neg hi]
      · rw [hothers x hx]
    · rw [hothers x fun e => hp (e ▸ hx)]
    · have hcut := hins.cut
      rw [hself] at hcut
      exact hcut.congr fun x hx => hother x fun e => hu.not_mem_off j (e ▸ hx)

theorem rearmed_congr (ha : Apart w w') (ht : w'.timer t = w.timer t) (q : Option Qid) :
    w'.rearmed t q = w.rearmed t q := by
  unfold rearmed nextNsec stepOf snapTime
  rw [ht, ha.nsecInc, ha.nsec, ha.nsecTodAdjust]

theorem Good.env (g : Good w L tips) (hl : w'.links = w.links) (hq : w'.queue = w.queue)
    (hn : w'.nqueues = w.nqueues) (hh : w'.queueHead = w.queueHead) (ht : w'.timer = w.timer)
    (hm : w'.monTimers = w.monTimers) (htd : w'.todTimers = w.todTimers) : Good w' L tips :=
  ⟨g.rep.env hl hq hn hh ht, Steady.shape ⟨fun q => by rw [hq], hn, hh, hm, htd⟩ g.shape,
    g.pend.congr (fun t => by rw [ht]) fun t _ => by rw [ht]⟩

theorem Good.modTimer (g : Good w L tips) {tips' : List Tip} (t : Tip) (f : Timer → Timer)
    (hf : (f (w.timer t)).active = (w.timer t).active ∧
      (f (w.timer t)).queue = (w.timer t).queue ∧ (f (w.timer t)).nsec = (w.timer t).nsec ∧
      (f (w.timer t)).todBased = (w.timer t).todBased) (hp : Pend (w.modTimer t f) tips') :
    Good (w.modTimer t f) L tips' :=
  ⟨g.rep.modTimer t f fun _ => hf, (modTimer_steady w t f).shape g.shape, hp⟩

theorem Pend.unpend (h : Pend w (t :: tips)) :
    Pend (w.modTimer t fun x => { x with pending := false }) tips := by
  have ht : t ∉ tips := (nodup_cons.mp h.nodup).1
  refine ⟨fun x => ?_, (nodup_cons.mp h.nodup).2, fun x hx => ?_⟩
  · by_cases hx : x = t
    · subst hx
      simpa using ht
    · rw [modTimer_of_ne w _ hx, h.iff]
      simp [hx]
  · have hxt : x ≠ t := fun e => ht (e ▸ hx)
    rw [modTimer_of_ne w _ hxt]
    exact h.active x (mem_cons_of_mem t hx)

theorem rearmPending_spec (g : Good w L (t :: tips)) :
    ∃ w' L', w.rearmPending t = some w' ∧ Good w' L' tips ∧ Apart w w' ∧
      (∃ q, w'.timer t = { w.rearmed t q with pending := false }) ∧
      ∀ x ≠ t, w'.timer x = w.timer x := by
  have g1 := g.modTimer t (fun x => { x with pending := false }) ⟨rfl, rfl, rfl, rfl⟩ g.pend.unpend
  obtain ⟨k, hk⟩ := g1.rep.mem_of_active (t := t) (by
    rw [modTimer_self]
    exact g.pend.active t (by simp))
  obtain ⟨l₁, l₂, hl⟩ := append_of_mem hk
  obtain ⟨w', L', he, g', -, hself, hother, hap, -, -⟩ := timerRearm_spec g1 hl
    (nodup_cons.mp g.pend.nodup).1 false
  refine ⟨w', L', he, g', (modTimer_apart ..).trans hap,
    ⟨some (w'.head (w.timer t).todBased), ?_⟩, fun x hx => ?_⟩
  · rw [hself]
    simp only [rearmed, nextNsec, stepOf, modTimer_self]
    split <;> rfl
  · rw [hother x hx, modTimer_of_ne w _ hx]

theorem foldlM_rearmPending (tips : List Tip) : ∀ {w : Wheel} {L : Lists}, Good w L tips →
    ∃ w' L', tips.foldlM rearmPending w = some w' ∧ Good w' L' [] ∧ Apart w w' ∧
      (∀ x ∈ tips, ∃ q, w'.timer x = { w.rearmed x q with pending := false }) ∧
      ∀ x ∉ tips, w'.timer x = w.timer x := by
  induction tips with
  | nil =>
    intro w L g
    exact ⟨w, L, rfl, g, Apart.refl w, by simp, fun _ _ => rfl⟩
  | cons t tips ih =>
    intro w L g
    obtain ⟨w1, L1, he, g1, hap, hself, hother⟩ := rearmPending_spec g
    obtain ⟨w', L', he', g', hap', hin, hout⟩ := ih g1
    have ht : t ∉ tips := (nodup_cons.mp g.pend.nodup).1
    refine ⟨w', L', by simp [he, he'], g', hap.trans hap', fun x hx => ?_, fun x hx => ?_⟩
    · by_cases hxt : x = t
      · subst hxt
        rw [hout x ht]
        exact hself
      · obtain ⟨q, hq⟩ := hin x ((mem_cons.mp hx).resolve_left hxt)
        exact ⟨q, by rw [hq, rearmed_congr hap (hother x hxt)]⟩
    · rw [mem_cons, not_or] at hx
      rw [hout x hx.2, hother x hx.1]

theorem timerPending_spec (g : Good w L w.pendingHead) :
    ∃ w' L', w.timerPending = some w' ∧ Good w' L' [] ∧ Apart { w with pendingHead := [] } w' ∧
      (∀ x ∈ w.pendingHead, ∃ q, w'.timer x = { w.rearmed x q with pending := false }) ∧
      ∀ x ∉ w.pendingHead, w'.timer x = w.timer x := by
  obtain ⟨w', L', he, g', hap, hin, hout⟩ := foldlM_rearmPending w.pendingHead
    (w := { w with timerOpsDelayed := false, pendingHead := [] })
    (g.env rfl rfl rfl rfl rfl rfl rfl)
  refine ⟨{ w' with queueDead := [] }, L', by simp [timerPending, he],
    g'.env rfl rfl rfl rfl rfl rfl rfl, ?_, hin, hout⟩
  exact ⟨hap.1, hap.2, hap.3, hap.4, hap.5, hap.6, hap.7⟩

end Rearm

section Deactivate
variable {w : Wheel} {L : Lists} {t : Tip} {tips : List Tip} {k : Qid × Nat} {l₁ l₂ : List Tip}

theorem timerDeactivate_idle (hq : (w.timer t).queue = none) (ha : (w.timer t).active = false) :
    w.timerDeactivate t = some (w.modTimer t fun x => { x with intervalNsec := 0 }) := by
  simp [timerDeactivate, hq, ha]

def stopped (x : Timer) : Timer :=
  { x with intervalNsec := 0, active := false, pending := false, queue := none }

theorem timerDeactivate_linked (g : Good w L tips) (hk : L k = l₁ ++ t :: l₂) (hp : t ∉ tips) :
    ∃ w', w.timerDeactivate t = some w' ∧ Good w' (update L k (l₁ ++ l₂)) tips ∧
      w'.timer t = stopped (w.timer t) ∧ (∀ x ≠ t, w'.timer x = w.timer x) ∧ Apart w w' ∧
      Steady w w' ∧ w'.links = w.links.unlink (.timer t) := by
  obtain ⟨ha, hq⟩ := g.rep.active_of_mem (t := t) (k := k) (hk ▸ by simp)
  have hpend : (w.timer t).pending = false := by
    rw [← Bool.not_eq_true, g.pend.iff]
    exact hp
  obtain ⟨w1, hw1⟩ : ∃ w1, w1 = (w.modTimer t fun x =>
    { x with intervalNsec := 0, active := false, queue := none }) := ⟨_, rfl⟩
  have hother : ∀ x ≠ t, w1.timer x = w.timer x := fun x hx => hw1 ▸ modTimer_of_ne w _ hx
  have hself : w1.timer t = stopped (w.timer t) := by
    rw [hw1, modTimer_self, stopped, hpend]
  have he : w.timerDeactivate t = some (w1.unlinkFrom k.1 t) := by
    simp only [timerDeactivate, modTimer_self, hq, hpend, isSome_some, if_true,
      Bool.false_eq_true, if_false, map_some, bind_some, ha, hw1]
    simp [Wheel.modTimer]
  refine ⟨_, he, ⟨?_, ?_, ?_⟩, ?_, ?_, ?_, ?_, ?_⟩
  · have hrep := (g.rep.unlinkFrom hk).modTimer t
      (fun x => { x with intervalNsec := 0, active := false, queue := none }) fun e => absurd rfl e
    have heq : w1.unlinkFrom k.1 t = (w.unlinkFrom k.1 t).modTimer t
        (fun x => { x with intervalNsec := 0, active := false, queue := none }) := by
      rw [hw1]
      rfl
    rw [heq]
    exact hrep.retire (by simp) (by simp)
  · exact (unlinkFrom_steady ..).shape ((hw1 ▸ modTimer_steady ..).shape g.shape)
  · refine g.pend.congr (fun x => ?_) fun x hx => ?_
    · by_cases hx : x = t
      · subst hx
        show (w1.timer x).pending = _
        rw [hself, hpend]
        rfl
      · show (w1.timer x).pending = _
        rw [hother x hx]
    · show (w1.timer x).active = _
      rw [hother x fun e => hp (e ▸ hx)]
  · exact hself
  · exact hother
  · exact (hw1 ▸ modTimer_apart ..).trans (unlinkFrom_apart ..)
  · exact (hw1 ▸ modTimer_steady ..).trans (unlinkFrom_steady ..)
  · rw [hw1]
    rfl

def Touched (w w' : Wheel) (x : Tip) : Prop :=
  w'.timer x = w.timer x ∨ (w'.timer x).active = false ∨ (x ∈ w.pendingHead ∧ x ∉ w'.pendingHead ∧
      ∃ q, w'.timer x = { w.rearmed x q with pending := false })

/-- A call that may have served the pending timers on its way. -/
structure Served (w w' : Wheel) (L' : Lists) : Prop where
  good : Good w' L' w'.pendingHead
  apart : Apart { w with pendingHead := w'.pendingHead } w'
  pending : ∀ x ∈ w'.pendingHead, x ∈ w.pendingHead

theorem Apart.served {w' : Wheel} (h : Apart w w') (g : Good w' L w'.pendingHead) :
    Served w w' L :=
  ⟨g, ⟨rfl, h.2, h.3, h.4, h.5, h.6, h.7⟩, fun _ hx => h.pendingHead ▸ hx⟩

theorem Served.trans {a b : Wheel} {L' : Lists} (h : Served w a L) (h' : Served a b L') :
    Served w b L' :=
  ⟨h'.good, ⟨rfl, h'.2.2.trans h.2.2, h'.2.3.trans h.2.3, h'.2.4.trans h.2.4,
    h'.2.5.trans h.2.5, h'.2.6.trans h.2.6, h'.2.7.trans h.2.7⟩,
    fun x hx => h.pending x (h'.pending x hx)⟩

section

variable (g : Good w L w.pendingHead)
include g

theorem timerDeactivate_pending (hp : t ∈ w.pendingHead) :
    ∃ w' L', w.timerDeactivate t = some w' ∧ Good w' L' [] ∧
      Apart { w with pendingHead := [] } w' ∧ w'.timer t = stopped (w.timer t) ∧
      (∀ x ≠ t, x ∈ w.pendingHead → ∃ q, w'.timer x = { w.rearmed x q with pending := false }) ∧
      ∀ x ≠ t, x ∉ w.pendingHead → w'.timer x = w.timer x := by
  have hpend : (w.timer t).pending = true := (g.pend.iff t).mpr hp
  have ha := g.pend.active t hp
  obtain ⟨q, -, hq, -⟩ := g.rep.owned t (by simp) ha
  obtain ⟨w1, hw1⟩ : ∃ w1, w1 = w.modTimer t fun x => { x with intervalNsec := 0 } := ⟨_, rfl⟩
  have hself1 : w1.timer t = { w.timer t with intervalNsec := 0 } := hw1 ▸ modTimer_self ..
  have hother1 : ∀ x ≠ t, w1.timer x = w.timer x := fun x hx => hw1 ▸ modTimer_of_ne w _ hx
  have hhead : w1.pendingHead = w.pendingHead := hw1 ▸ rfl
  have hap1 : Apart w w1 := hw1 ▸ modTimer_apart ..
  have g1 : Good w1 L w1.pendingHead := by
    rw [hw1]
    refine g.modTimer t _ ⟨rfl, rfl, rfl, rfl⟩ (g.pend.congr (fun x => ?_) fun x _ => ?_)
    all_goals
      rw [← hw1]
      by_cases hx : x = t
      · rw [hx, hself1]
      · rw [hother1 x hx]
  obtain ⟨w2, L2, he, g2, hap, hin, hout⟩ := timerPending_spec g1
  have hself : w2.timer t = stopped (w.timer t) := by
    obtain ⟨r, hr⟩ := hin t (hhead ▸ hp)
    rw [hr, rearmed, hself1]
    rfl
  have hdone : w2.modTimer t (fun x => { x with queue := none }) = w2 := by
    have hid : ({ w2.timer t with queue := none } : Timer) = w2.timer t := by
      rw [hself]
      rfl
    rw [Wheel.modTimer, hid, update_eq_self]
  have he' : w.timerDeactivate t = some w2 := by
    simp only [timerDeactivate, ← hw1, hself1, hq, hpend, isSome_some, if_true, he,
      map_some, bind_some, hdone, hself]
    simp [stopped]
  refine ⟨w2, L2, he', g2, ⟨hap.1, hap.2.trans hap1.2, hap.3.trans hap1.3, hap.4.trans hap1.4,
    hap.5.trans hap1.5, hap.6.trans hap1.6, hap.7.trans hap1.7⟩, hself, fun x hx hm => ?_,
    fun x hx hm => ?_⟩
  · obtain ⟨r, hr⟩ := hin x (hhead ▸ hm)
    exact ⟨r, by rw [hr, rearmed_congr hap1 (hother1 x hx)]⟩
  · rw [hout x (hhead ▸ hm), hother1 x hx]

theorem timerDeactivate_spec (t : Tip) :
    ∃ w' L', w.timerDeactivate t = some w' ∧ Served w w' L' ∧ (w'.timer t).active = false ∧
      ∀ x ≠ t, w'.timer x = w.timer x ∨ (t ∈ w.pendingHead ∧ x ∈ w.pendingHead ∧
        ∃ q, w'.timer x = { w.rearmed x q with pending := false }) := by
  by_cases hp : t ∈ w.pendingHead
  · obtain ⟨w', L', he, g', hap, hself, hin, hout⟩ := timerDeactivate_pending g hp
    have hnil : w'.pendingHead = [] := hap.pendingHead
    refine ⟨w', L', he, ⟨hnil ▸ g', hnil ▸ hap, by simp [hnil]⟩, by rw [hself]; rfl,
      fun x hx => ?_⟩
    by_cases hm : x ∈ w.pendingHead
    · exact .inr ⟨hp, hm, hin x hx hm⟩
    · exact .inl (hout x hx hm)
  by_cases ha : (w.timer t).active = true
  · obtain ⟨k, hk⟩ := g.rep.mem_of_active ha
    obtain ⟨l₁, l₂, hl⟩ := append_of_mem hk
    obtain ⟨w', he, g', hself, hother, hap, -, -⟩ := timerDeactivate_linked g hl hp
    exact ⟨w', _, he, hap.served (hap.pendingHead ▸ g'), by rw [hself]; rfl,
      fun x hx => .inl (hother x hx)⟩
  rw [Bool.not_eq_true] at ha
  refine ⟨_, L, timerDeactivate_idle (g.rep.idle t (by simp) ha) ha,
    (modTimer_apart ..).served ?_, ?_, fun x hx => .inl (modTimer_of_ne w _ hx)⟩
  · refine g.modTimer t _ ⟨rfl, rfl, rfl, rfl⟩ (g.pend.congr (fun x => ?_) fun x _ => ?_)
    all_goals
      by_cases hx : x = t
      · subst hx
        simp
      · rw [modTimer_of_ne w _ hx]
  · simpa using ha

theorem timerDeactivate_touched (t : Tip) :
    ∃ w' L', w.timerDeactivate t = some w' ∧ Served w w' L' ∧ ∀ x, Touched w w' x := by
  obtain ⟨w', L', he, hv, ha, htm⟩ := timerDeactivate_spec g t
  refine ⟨w', L', he, hv, fun x => ?_⟩
  by_cases hx : x = t
  · exact .inr (.inl (hx ▸ ha))
  rcases htm x hx with h | ⟨-, hp, q, hq⟩
  · exact .inl h
  refine .inr (.inr ⟨hp, ?_, q, hq⟩)
  rw [← hv.good.pend.iff, hq]
  simp

end

theorem foldlM_timerDeactivate (xs : List Tip) : ∀ {w : Wheel} {L : Lists},
    Good w L w.pendingHead → ∃ w' L', xs.foldlM timerDeactivate w = some w' ∧
      Served w w' L' ∧ ∀ x, Touched w w' x := by
  induction xs with
  | nil =>
    intro w L g
    exact ⟨w, L, rfl, (Apart.refl w).served g, fun _ => .inl rfl⟩
  | cons t xs ih =>
    intro w L g
    obtain ⟨w1, L1, he1, h1, htm1⟩ := timerDeactivate_touched g t
    obtain ⟨w2, L2, he2, h2, htm2⟩ := ih h1.good
    refine ⟨w2, L2, by simp [he1, he2], h1.trans h2, fun x => ?_⟩
    rcases htm2 x with e2 | e2 | ⟨hp, hn, q, hq⟩
    · rcases htm1 x with e1 | e1 | ⟨hp, hn, q, hq⟩
      · exact .inl (e2.trans e1)
      · exact .inr (.inl (e2 ▸ e1))
      · exact .inr (.inr ⟨hp, fun h => hn (h2.pending x h), q, e2.trans hq⟩)
    · exact .inr (.inl e2)
    rcases htm1 x with e1 | e1 | ⟨-, hn1, -⟩
    · refine .inr (.inr ⟨h1.pending x hp, hn, q, ?_⟩)
      have hr := rearmed_congr (t := x) h1.apart e1 q
      rw [hq, hr]
      rfl
    · have := h1.good.pend.active x hp
      simp [e1] at this
    · exact absurd hp hn1

end Deactivate

section Period
variable {w : Wheel} {L : Lists} {tips : List Tip} {b : Bool}

theorem Rep.modQueue_unused {off : Option Tip} (h : Rep w L off) {q : Qid} (hlt : q < w.nqueues)
    (hz : (w.queue q).numActive = 0) (d : Nat) :
    Rep (w.modQueue q fun x => { x with downshift := d }) L off := by
  have hnil : ∀ k : Qid × Nat, k.1 = q → L k = [] := by
    intro k hk
    by_contra hne
    obtain ⟨t, l, hl⟩ := exists_cons_of_ne_nil hne
    have hlen := h.length_le (h.slot_of_mem (k := k) (t := t) (by simp [hl]))
    rw [hk, hz, hl] at hlen
    simp at hlen
  have hunused : ∀ t, some t ≠ off → (w.timer t).active = true → (w.timer t).queue ≠ some q := by
    intro t ht ha hq
    have hm := (h.mem_iff t (w.home q t)).mpr ⟨ht, ha, hq, rfl⟩
    rw [hnil _ rfl] at hm
    simp at hm
  have hmask : ∀ r, ((w.modQueue q fun x => { x with downshift := d }).queue r).mask =
      (w.queue r).mask := by
    intro r
    by_cases hr : r = q
    · subst hr
      simp
    · rw [modQueue_of_ne w _ hr]
  have htod : ∀ r, ((w.modQueue q fun x => { x with downshift := d }).queue r).tod =
      (w.queue r).tod := by
    intro r
    by_cases hr : r = q
    · subst hr
      simp
    · rw [modQueue_of_ne w _ hr]
  have hslot : (w.modQueue q fun x => { x with downshift := d }).Slot = w.Slot := by
    funext k
    rw [Slot, hmask]
    rfl
  refine ⟨hslot ▸ h.circles, h.fresh, fun t k => ?_, fun t ht ha => ?_, h.idle, h.sorted,
    fun r hr => ?_⟩
  · rw [h.mem_iff]
    refine and_congr_right fun ht => and_congr_right fun ha => and_congr_right fun hq => ?_
    have hne : k.1 ≠ q := fun e => hunused t ht ha (e ▸ hq)
    simp only [home, modQueue_of_ne w _ hne, modQueue_timer]
  · obtain ⟨r, hr, hrq, hrt⟩ := h.owned t ht ha
    exact ⟨r, hr, hrq, by rw [htod]; exact hrt⟩
  · rw [linkedIn_congr (hmask r)]
    by_cases e : r = q
    · subst e
      simpa using h.count r hr
    · rw [modQueue_of_ne w _ e]
      exact h.count r hr

theorem Shape.modQueue {q : Qid} {f : TimerQueue → TimerQueue} (hs : Shape w)
    (hm : (f (w.queue q)).mask = (w.queue q).mask) (ht : (f (w.queue q)).tod = (w.queue q).tod)
    (ho : (f (w.queue q)).old = (w.queue q).old)
    (hf : q < w.nqueues → (f (w.queue q)).fireIdx ≤ (w.queue q).mask)
    (hl : q < w.nqueues → (f (w.queue q)).lastTickIdx ≤ (w.queue q).mask) :
    Shape (w.modQueue q f) := by
  have key : ∀ r, ((w.modQueue q f).queue r).mask = (w.queue r).mask ∧
      ((w.modQueue q f).queue r).tod = (w.queue r).tod ∧
      ((w.modQueue q f).queue r).old = (w.queue r).old ∧
      (r < w.nqueues → ((w.modQueue q f).queue r).fireIdx ≤ (w.queue r).mask) ∧
      (r < w.nqueues → ((w.modQueue q f).queue r).lastTickIdx ≤ (w.queue r).mask) := by
    intro r
    by_cases hr : r = q
    · subst hr
      rw [modQueue_self]
      exact ⟨hm, ht, ho, hf, hl⟩
    · rw [modQueue_of_ne w f hr]
      exact ⟨rfl, rfl, rfl, hs.fireIdx_le r, hs.lastTickIdx_le r⟩
  refine ⟨?_, fun c => (key _).2.1.trans (hs.tod c), fun c => (key _).2.2.1.trans (hs.old c),
    hs.nodup, fun r hr => ?_, fun r hr => ?_, fun r hr => ?_⟩
  · obtain ⟨ms, ts, he, hms, hts⟩ := hs.order
    exact ⟨ms, ts, he, fun r hr => (key r).2.1.trans (hms r hr),
      fun r hr => (key r).2.1.trans (hts r hr)⟩
  · rw [(key r).1]
    exact hs.mask r hr
  · rw [(key r).1]
    exact (key r).2.2.2.1 hr
  · rw [(key r).1]
    exact (key r).2.2.2.2 hr

theorem newPeriod_cases (w : Wheel) (b : Bool) (d : Nat) :
    w.newPeriod b d = w ∨ (∃ allocs, w.newPeriod b d = { w with allocs := allocs }) ∨
      ((w.queue (w.head b)).numActive = 0 ∧
        w.newPeriod b d = w.modQueue (w.head b) fun q => { q with downshift := d }) ∨
      ∃ allocs, w.newPeriod b d =
        { w with allocs := allocs }.grown b ((w.queue (w.head b)).mask + 1) d := by
  by_cases hd : (w.queue (w.head b)).downshift = d
  · exact .inl (by simp [newPeriod, hd])
  by_cases hz : (w.queue (w.head b)).numActive = 0
  · exact .inr (.inr (.inl ⟨hz, by simp [newPeriod, hd, hz]⟩))
  rcases ha : w.allocs with _ | ⟨a, allocs⟩
  · exact .inr (.inl ⟨[], by simp [newPeriod, hd, hz, ha]⟩)
  cases a with
  | false => exact .inr (.inl ⟨allocs, by simp [newPeriod, hd, hz, ha]⟩)
  | true =>
    refine .inr (.inr (.inr ⟨allocs, ?_⟩))
    simp only [newPeriod, hd, hz, ha]
    rfl

theorem newPeriod_spec (g : Good w L tips) (b : Bool) (d : Nat) :
    Good (w.newPeriod b d) L tips ∧ Apart w (w.newPeriod b d) ∧
      (w.newPeriod b d).timer = w.timer := by
  have hmem := g.shape.head_mem b
  have hlt := g.rep.fresh _ hmem
  rcases newPeriod_cases w b d with he | ⟨allocs, he⟩ | ⟨hz, he⟩ | ⟨allocs, he⟩ <;> rw [he]
  · exact ⟨g, Apart.refl w, rfl⟩
  · exact ⟨g.env rfl rfl rfl rfl rfl rfl rfl, ⟨rfl, rfl, rfl, rfl, rfl, rfl, rfl⟩, rfl⟩
  · exact ⟨⟨g.rep.modQueue_unused hlt hz d, g.shape.modQueue rfl rfl rfl (g.shape.fireIdx_le _)
      (g.shape.lastTickIdx_le _), g.pend.congr (fun _ => rfl) fun _ _ => rfl⟩,
      ⟨rfl, rfl, rfl, rfl, rfl, rfl, rfl⟩, rfl⟩
  · obtain ⟨e, he7, hmask⟩ := g.shape.mask _ hlt
    have g1 : Good { w with allocs := allocs } L tips := g.env rfl rfl rfl rfl rfl rfl rfl
    refine ⟨⟨g1.rep.grown hmem (Nat.succ_pos _), g1.shape.grown g1.rep.fresh he7 hmask,
      g.pend.congr (fun t => ?_) fun t _ => ?_⟩, ?_, grown_timer⟩
    · rw [grown_timer]
    · rw [grown_timer]
    · cases b <;> exact ⟨rfl, rfl, rfl, rfl, rfl, rfl, rfl⟩

theorem timerPeriod_spec (g : Good w L tips) :
    Good w.timerPeriod L tips ∧ Apart w w.timerPeriod ∧ w.timerPeriod.timer = w.timer := by
  obtain ⟨g1, ha1, ht1⟩ := newPeriod_spec g false (w.nsecInc.log2 + 1)
  obtain ⟨g2, ha2, ht2⟩ := newPeriod_spec g1 true (w.nsecInc.log2 + 1)
  exact ⟨g2, ha1.trans ha2, ht2.trans ht1⟩

end Period

end Wheel

end Qnx.Ker
