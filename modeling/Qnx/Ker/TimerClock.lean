import Qnx.Ker.TimerExpiry

/-!
# No expired timer is skipped

`Clocked` remembers the times of the last `timer_expiry`. In the runs of `Allowed` the clocks
advance by at most one slot width from call to call and timers are activated for later times.
The call loses sight of timers when it stops at its limits, when a queue has just been made or
given another slot width, and when a pending timer is re-armed for a time already past; `Careful`
excludes these.
-/

namespace Qnx.Ker

open Run Bool

namespace Wheel

/-- Re-arming `tip` takes it past the time `last`, without overflow. -/
def Ahead (w : Wheel) (last : Bool → Nat) (tip : Tip) : Prop :=
  (w.timer tip).intervalNsec = 0 ∨ (w.timer tip).nsec + w.stepOf tip < 2 ^ 64 ∧
      w.snapTime (w.timer tip).todBased + w.stepOf tip < 2 ^ 64 ∧
      (last (w.timer tip).todBased < (w.timer tip).nsec + w.stepOf tip ∨
        (w.timer tip).softtime = true ∧
          (w.timer tip).nsec + w.stepOf tip < w.snapTime (w.timer tip).todBased ∧
          last (w.timer tip).todBased < w.snapTime (w.timer tip).todBased + w.stepOf tip)

instance (w : Wheel) (last : Bool → Nat) (tip : Tip) : Decidable (w.Ahead last tip) :=
  inferInstanceAs (Decidable (_ ∨ _))

theorem Ahead.lt {w : Wheel} {last : Bool → Nat} {tip : Tip} (h : w.Ahead last tip)
    (hi : (w.timer tip).intervalNsec ≠ 0) : last (w.timer tip).todBased < w.nextNsec tip := by
  obtain ⟨h1, h2, h3⟩ := h.resolve_left hi
  have e1 : wrap64 ((w.timer tip).nsec + w.stepOf tip) = (w.timer tip).nsec + w.stepOf tip :=
    Nat.mod_eq_of_lt h1
  have e2 : wrap64 (w.snapTime (w.timer tip).todBased + w.stepOf tip) =
      w.snapTime (w.timer tip).todBased + w.stepOf tip := Nat.mod_eq_of_lt h2
  simp only [nextNsec, e1, e2]
  split
  · rcases h3 with h3 | h3
    · omega
    · exact h3.2.2
  rename_i hs
  rcases h3 with h3 | h3
  · exact h3
  · exact absurd ⟨h3.1, h3.2.1⟩ hs

def InUse (w : Wheel) (b : Bool) : Prop :=
  ∃ q ∈ w.queueHead, (w.queue q).tod = b ∧ (w.queue q).numActive ≠ 0

instance (w : Wheel) (b : Bool) : Decidable (w.InUse b) :=
  inferInstanceAs (Decidable (∃ q ∈ w.queueHead, _))

/-- Every active timer that is not pending is for a time after `last`. -/
def Fresh (w : Wheel) (last : Bool → Nat) : Prop :=
  ∀ t, (w.timer t).active = true → (w.timer t).pending = false →
    last (w.timer t).todBased < (w.timer t).nsec

def Examined (w : Wheel) (tip : Tip) : Prop :=
  match (w.timer tip).queue with
  | none => False
  | some q =>
    idxSub (getQueueIdx (w.queue q) (w.timer tip).nsec) (w.queue q).fireIdx (w.queue q).mask ≤
      idxSub (w.queue q).lastTickIdx (w.queue q).fireIdx (w.queue q).mask

instance (w : Wheel) (tip : Tip) : Decidable (w.Examined tip) := by
  unfold Examined
  split <;> infer_instance

theorem fresh_iff_later {w : Wheel} {L : Lists} {tips : List Tip} (g : Good w L tips)
    (last : Bool → Nat) : w.Fresh last ↔ Later last w L := by
  refine ⟨fun h k t hk hp => h t (g.rep.active_of_mem hk).1 hp, fun h t ha hp => ?_⟩
  obtain ⟨k, hk⟩ := g.rep.mem_of_active ha
  exact h k t hk hp

structure Roomy (w : Wheel) : Prop where
  fires : w.budget w.linkedTimers ≤ 50
  queued : w.queuedIntrevents + w.budget w.linkedTimers ≤ w.growIntrevents
  nowrap : ∀ t ∈ w.linkedTimers, (w.timer t).pending = false → (w.timer t).intervalNsec ≠ 0 →
    w.snapTime (w.timer t).todBased + w.stepOf t < 2 ^ 64

instance (w : Wheel) : Decidable w.Roomy :=
  decidable_of_iff (_ ∧ _ ∧ _) ⟨fun h => ⟨h.1, h.2.1, h.2.2⟩, fun h => ⟨h.1, h.2, h.3⟩⟩

theorem Roomy.sweep {w : Wheel} {L : Lists} {last : Bool → Nat} (h : w.Roomy)
    (g : Good w L w.pendingHead) (hf : w.Fresh last) :
    Sweep last w.InUse w L 0 (fun k _ => k.1 ∈ w.queueHead) w.linkedTimers := by
  have hhead : ∀ k t, t ∈ L k → k.1 ∈ w.queueHead := by
    intro k t hk
    obtain ⟨ha, hq⟩ := g.rep.active_of_mem hk
    obtain ⟨q, hqm, hq', -⟩ := g.rep.owned t (by simp) ha
    exact Option.some.inj (hq'.symm.trans hq) ▸ hqm
  refine ⟨nodup_linkedTimers g.rep g.shape, fun k t hk => ⟨k.1, hhead k t hk, rfl, fun hz => ?_⟩,
    fun k t hk _ => mem_linkedTimers g.rep hk, fun k t hk _ _ => hhead k t hk,
    (fresh_iff_later g last).mp hf, fun k t hk => h.nowrap t (mem_linkedTimers g.rep hk), ?_,
    h.queued⟩
  · have hlen := g.rep.length_le (g.rep.slot_of_mem hk)
    rw [hz, Nat.le_zero] at hlen
    rw [List.eq_nil_of_length_eq_zero hlen] at hk
    cases hk
  · rw [Nat.zero_add]
    exact h.fires

end Wheel

/-- The timer queues and the times of the last `timer_expiry`, `true` for the time of day. -/
structure Clocked where
  wheel : Wheel
  last : Bool → Nat

namespace Clocked

open Wheel

def step (c : Clocked) (o : Op) : Option Clocked :=
  (c.wheel.step o).map fun w =>
    ⟨w, match o with
      | .expiry _ => c.wheel.snapTime
      | _ => c.last⟩

def Init (c : Clocked) : Prop := Wheel.Init c.wheel ∧ c.last = c.wheel.snapTime

/-- The calls of the rest of the kernel, with clocks that advance slowly. `timer_rearm` is called
by `timer_fire` and `timer_pending` only. -/
def Allowed (c : Clocked) (o : Op) : Prop :=
  c.wheel.Entry o ∧
  match o with
  | .activate tip => c.last (c.wheel.timer tip).todBased < (c.wheel.timer tip).nsec
  | .expiry _ => ∀ q ∈ c.wheel.queueHead,
    c.last (c.wheel.queue q).tod ≤ c.wheel.snapTime (c.wheel.queue q).tod ∧
      c.wheel.snapTime (c.wheel.queue q).tod ≤
        c.last (c.wheel.queue q).tod + 2 ^ (c.wheel.queue q).downshift
  | .rearm _ _ => False
  | _ => True

instance (c : Clocked) (o : Op) : Decidable (c.Allowed o) := by
  unfold Allowed
  cases o <;> infer_instance

/-- What keeps a call from losing sight of a timer. -/
def Careful (c : Clocked) (o : Op) : Prop :=
  match o with
  | .activate tip => c.wheel.Overdue tip →
    c.wheel.Ahead c.last tip ∧ ∀ x ∈ c.wheel.pendingHead, c.wheel.Ahead c.last x
  | .deactivate tip => tip ∈ c.wheel.pendingHead →
    ∀ x ∈ c.wheel.pendingHead, x ≠ tip → c.wheel.Ahead c.last x
  | .pending => ∀ x ∈ c.wheel.pendingHead, c.wheel.Ahead c.last x
  | .expiry _ => c.wheel.Roomy ∧ ∀ q ∈ c.wheel.queueHead, c.wheel.InUse (c.wheel.queue q).tod →
    c.wheel.Covers (c.last (c.wheel.queue q).tod) q
  | _ => True

instance (c : Clocked) (o : Op) : Decidable (c.Careful o) := by
  unfold Careful
  cases o <;> infer_instance

/-- Every expired timer left behind is in a slot the next call looks at. -/
def Kept (c : Clocked) : Prop :=
  ∀ t, (c.wheel.timer t).active = true → (c.wheel.timer t).pending = false →
    (c.wheel.timer t).nsec ≤ c.last (c.wheel.timer t).todBased → c.wheel.Examined t

section Run
variable {c : Clocked} {L : Lists}

theorem fresh_rearmed {w : Wheel} {last : Bool → Nat} {x : Tip} {q : Option Qid}
    (h : w.Ahead last x) (ha : (w.rearmed x q).active = true) :
    last (w.rearmed x q).todBased < (w.rearmed x q).nsec := by
  unfold rearmed at ha ⊢
  split at ha
  · cases ha
  rename_i hi
  rw [if_neg hi]
  exact h.lt hi

theorem fresh_step (g : Good c.wheel L c.wheel.pendingHead) (hf : c.wheel.Fresh c.last) {o : Op}
    (ho : c.Allowed o) (hc : c.Careful o) :
    ∃ c' L', c.step o = some c' ∧ Good c'.wheel L' c'.wheel.pendingHead ∧
      c'.wheel.Fresh c'.last := by
  obtain ⟨he, ho⟩ := ho
  cases o with
  | activate tip =>
    obtain ⟨w', L', hs, hv, hothers, hself⟩ := timerActivate_spec g he
    refine ⟨⟨w', c.last⟩, L', by simp [step, Wheel.step, hs], hv.good, fun x ha hp => ?_⟩
    by_cases hx : x = tip
    · subst hx
      rcases hself with h | ⟨q, h⟩ | ⟨hover, hi, q, h⟩
      · rw [h] at ha
        cases ha
      · rw [h]
        exact ho
      · rw [h]
        exact (hc hover).1.lt hi
    rcases hothers x hx with h | h | ⟨hover, hx, q, h⟩
    · rw [h] at ha hp ⊢
      exact hf x ha hp
    · rw [h] at ha
      cases ha
    · rw [h] at ha ⊢
      exact fresh_rearmed ((hc hover).2 x hx) ha
  | deactivate tip =>
    obtain ⟨w', L', hs, hv, hself, hothers⟩ := timerDeactivate_spec g tip
    refine ⟨⟨w', c.last⟩, L', by simp [step, Wheel.step, hs], hv.good, fun x ha hp => ?_⟩
    by_cases hx : x = tip
    · rw [hx, hself] at ha
      cases ha
    rcases hothers x hx with h | ⟨ht, hm, q, h⟩
    · rw [h] at ha hp ⊢
      exact hf x ha hp
    · rw [h] at ha ⊢
      exact fresh_rearmed (hc ht x hm hx) ha
  | expiry ctx =>
    obtain ⟨w', L', hs, g', hl⟩ := timerExpiry_sweep he.1 ⟨g, he.2⟩ (fun q hq => (ho q hq).2) hc.2
      (hc.1.sweep g hf)
    exact ⟨⟨w', c.wheel.snapTime⟩, L', by simp [step, Wheel.step, hs], g',
      (fresh_iff_later g' _).mpr hl⟩
  | pending =>
    obtain ⟨w', L', hs, g', hap, hin, hout⟩ := timerPending_spec g
    have hnil : w'.pendingHead = [] := hap.pendingHead
    refine ⟨⟨w', c.last⟩, L', by simp [step, Wheel.step, hs], hnil ▸ g', fun x ha hp => ?_⟩
    by_cases hx : x ∈ c.wheel.pendingHead
    · obtain ⟨q, h⟩ := hin x hx
      rw [h] at ha ⊢
      exact fresh_rearmed (hc x hx) ha
    · rw [hout x hx] at ha hp ⊢
      exact hf x ha hp
  | rearm tip isr => exact ho.elim
  | setTimer tip timer =>
    obtain ⟨w', L', hs, g'⟩ := good_step g he
    refine ⟨⟨w', c.last⟩, L', by simp [step, hs], g', fun x ha hp => ?_⟩
    cases hs
    by_cases hx : x = tip
    · rw [hx, modTimer_self, he.2.1] at ha
      cases ha
    · rw [modTimer_of_ne _ _ hx] at ha hp ⊢
      exact hf x ha hp
  | setThread tip b =>
    obtain ⟨w', L', hs, g'⟩ := good_step g he
    refine ⟨⟨w', c.last⟩, L', by simp [step, hs], g', fun x ha hp => ?_⟩
    cases hs
    by_cases hx : x = tip
    · subst hx
      rw [modTimer_self] at ha hp ⊢
      exact hf x ha hp
    · rw [modTimer_of_ne _ _ hx] at ha hp ⊢
      exact hf x ha hp
  | period inc =>
    obtain ⟨w', L', hs, g'⟩ := good_step g he
    refine ⟨⟨w', c.last⟩, L', by simp [step, hs], g', ?_⟩
    cases hs
    have g1 : Good { c.wheel with nsecInc := inc } L c.wheel.pendingHead :=
      g.env rfl rfl rfl rfl rfl rfl rfl
    have ht := (timerPeriod_spec g1).2.2
    unfold Fresh
    rw [ht]
    exact hf
  | clock nsec adjust => exact ⟨_, L, rfl, g.env rfl rfl rfl rfl rfl rfl rfl, hf⟩
  | world allocs event queued grow => exact ⟨_, L, rfl, g.env rfl rfl rfl rfl rfl rfl rfl, hf⟩

/-- In a careful run no call of `timer_expiry` skips a timer, nor does it leave one behind. -/
theorem expired_timers_kept (h : Reach Init (fun c o => c.Allowed o ∧ c.Careful o) step c) :
    c.Kept ∧ c.wheel.Fresh c.last := by
  obtain ⟨L, g, hf⟩ : ∃ L, Good c.wheel L c.wheel.pendingHead ∧ c.wheel.Fresh c.last := by
    refine h.invariant_of_total (P := fun c => ∃ L, Good c.wheel L c.wheel.pendingHead ∧
      c.wheel.Fresh c.last) (fun c hi => ⟨_, hi.1.good, ?_⟩) fun c o ⟨L, g, hf⟩ ho => ?_
    · exact (fresh_iff_later hi.1.good c.last).mpr fun k t hk => nomatch hk
    · obtain ⟨c', L', he, h'⟩ := fresh_step g hf ho.1 ho.2
      exact ⟨c', he, L', h'⟩
  exact ⟨fun t ha hp hle => absurd hle (Nat.not_le_of_lt (hf t ha hp)), hf⟩

end Run

def start : Clocked := ⟨bare.timerInit, bare.timerInit.snapTime⟩

theorem init_start : Init start := ⟨init_bare, rfl⟩

def skipped (c : Clocked) : Bool :=
  (c.wheel.timer 2).active && !(c.wheel.timer 2).pending &&
    decide ((c.wheel.timer 2).nsec ≤ c.last (c.wheel.timer 2).todBased) &&
    !decide (c.wheel.Examined 2)

theorem not_kept_of_skipped {c : Clocked} (h : c.skipped = true) : ¬c.Kept := by
  simp only [skipped, and_eq_true, not_eq_true', decide_eq_true_eq, decide_eq_false_iff_not] at h
  exact fun hk => h.2 (hk 2 h.1.1.1 h.1.1.2 h.1.2)

/-- The first timer exhausts the interrupt events, and the second stays behind in a slot that the
call leaves. -/
def cutOff : List Op :=
  [.period 8, .world [] (fun _ => none) 0 0, .setTimer 1 (relative 4 0),
    .setTimer 2 (relative 5 0), .activate 1, .activate 2, .clock 16 0, .expiry .kernel]

/-- A new period makes a new queue, whose indices start at slot zero. -/
def newQueue : List Op :=
  [.period 8, .setTimer 1 (relative 1000 0), .activate 1, .clock 8 0, .expiry .kernel, .clock 24 0,
    .expiry .kernel, .world [true] (fun _ => none) 0 100, .period 4, .setTimer 2 (relative 28 0),
    .activate 2, .clock 32 0, .expiry .kernel]

/-- A new period changes the slot width of an empty queue and keeps its indices. -/
def staleIdx : List Op :=
  [.period 8, .clock 8 0, .expiry .kernel, .clock 24 0, .expiry .kernel, .clock 40 0,
    .expiry .kernel, .period 4, .setTimer 2 (relative 44 0), .activate 2, .clock 48 0,
    .expiry .kernel]

/-- Stopping a pending timer re-arms another one for a time already past. -/
def lateRearm : List Op :=
  [.period 8, .setTimer 2 (relative 1 1), .setTimer 1 (relative 2 0), .activate 2, .activate 1,
    .clock 16 0, .expiry .kerop, .deactivate 1, .clock 32 0, .expiry .kerop]

/-- `os` is a run that ends with an expired timer lost from sight. -/
def Loses (os : List Op) : Prop :=
  ∃ c, replay Allowed step start os = some c ∧ Reach Init Allowed step c ∧ ¬c.Kept

theorem loses_of_skipped {os : List Op}
    (h : (replay Allowed step start os).any skipped = true) : Loses os := by
  cases hr : replay Allowed step start os with
  | none => simp [hr] at h
  | some c =>
    exact ⟨c, hr, (Reach.init init_start).replay hr, not_kept_of_skipped (by simpa [hr] using h)⟩

theorem expired_timer_skipped :
    Loses cutOff ∧ Loses newQueue ∧ Loses staleIdx ∧ Loses lateRearm := by
  refine ⟨?_, ?_, ?_, ?_⟩
  all_goals exact loses_of_skipped (by decide +kernel)

theorem expired_timers_kept_run : ∃ c,
    Reach Init (fun c o => c.Allowed o ∧ c.Careful o) step c ∧ c.last false = 24 ∧
      (c.wheel.timer 1).active = true ∧ (c.wheel.timer 1).nsec = 26 ∧
      (c.Kept ∧ c.wheel.Fresh c.last) := by
  have h0 : Reach Init (fun c o => c.Allowed o ∧ c.Careful o) step start := .init init_start
  obtain ⟨c, h, hq⟩ := h0.replay_any
    [.period 8, .setTimer 1 (relative 2 8), .setTimer 2 (relative 5 0), .activate 1, .activate 2,
      .clock 8 0, .expiry .kernel, .pending, .clock 16 0, .expiry .kerop, .pending, .clock 24 0,
      .expiry .kernel]
    (fun c => c.last false == 24 && (c.wheel.timer 1).active && (c.wheel.timer 1).nsec == 26)
    (by decide +kernel)
  simp only [and_eq_true, beq_iff_eq] at hq
  exact ⟨c, h, hq.1.1, hq.1.2, hq.2, expired_timers_kept h⟩

end Clocked

end Qnx.Ker
