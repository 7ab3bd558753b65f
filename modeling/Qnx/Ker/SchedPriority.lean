import Qnx.Ker.SchedRun

/-!
# The active thread is the highest

Two functions choose the next thread by a priority they have just written over:
`ker_msg_current` stores the client's priority in the active thread before it calls
`adjust_priority`, which then sees no change, and `block_and_ready` compares with the
active thread after `SS_STOP_RUNNING` may have dropped it to its low priority. Where neither
happens, no ready thread is ever above the active one.
-/

namespace Qnx.Ker

open Qnx.Ker.Core Run

theorem Core.adjust_blocked {c : Core} {t : Thp} (h : (c.state t).Blocked) (p : Prio) :
    c.adjust t p = c.setPriority t p := by
  unfold Core.adjust
  split
  · rename_i hp
    subst hp
    simp [Core.setPriority]
  split
  · rename_i hr
    exact absurd hr h.1
  · rename_i hr
    exact absurd hr h.2
  · rfl

namespace Sched

theorem core_adjustPriority_own {s : Sched} (hs : s.core.Sound)
    (hp : (s.thread s.actives).priority = (s.thread s.actives).ss.lowPriority) :
    (s.adjustPriority s.actives (s.thread s.actives).ss.lowPriority).core = s.core ∨
    ∃ u, s.dpp.links.head (s.prio s.actives) = some u ∧
      (s.adjustPriority s.actives (s.thread s.actives).ss.lowPriority).core = s.core.swap u := by
  have hy : s.adjustPriority s.actives (s.thread s.actives).ss.lowPriority =
      yieldWith (adjustN 1) s := by
    simp [adjustPriority, adjustN, adjustPriorityWith, hp]
  rw [hy]
  cases hh : s.dpp.links.head (s.prio s.actives) with
  | none =>
    left
    rw [yieldWith_none hh]
  | some u =>
    right
    refine ⟨u, rfl, ?_⟩
    rcases core_yieldWith_some (adjustN 1) hh with he | ⟨s2, hc2, he⟩
    · exact he
    have hact2 : s2.actives = u := congrArg Core.actives hc2
    have hne : s.actives ≠ u := by
      rintro rfl
      exact hs.idle (hs.queued.head_some hh).1
    have hpri2 : s2.core.priority s.actives = (s.thread s.actives).ss.lowPriority := by
      rw [hc2, ← hp]
      rfl
    have hid2 : s2.core.state s2.actives ≠ .ready := by
      rw [hc2, hact2]
      simp
    rw [he, adjustN, core_adjustPriorityWith hid2 fun _ => hact2 ▸ hne, Core.adjust,
      if_pos hpri2, hc2]

/-- Stopping a blocked active thread changes nothing, drops it, or, when its low priority
is the one it has, makes `adjust_priority` yield in its name. -/
theorem core_stopActive {s : Sched} (t : Thp) (hs : s.core.Sound)
    (hst : (s.thread s.actives).state.Blocked) :
    (s.stopActive t).core = s.core ∨
    ((s.thread s.actives).drops ∧
      (s.stopActive t).core = s.core.setPriority s.actives (s.thread s.actives).ss.lowPriority) ∨
    ∃ u, s.dpp.links.head (s.prio s.actives) = some u ∧ (s.stopActive t).core = s.core.swap u := by
  unfold stopActive ssStopRunning
  rw [core_ssMarkActivation]
  rcases core_ssStopRunningWith adjustPriority s s.actives _ with he | ⟨hd, s', hc, hl, he⟩
  · exact .inl he
  have hact : s'.actives = s.actives := congrArg Core.actives hc
  rw [he, ← hl]
  by_cases hp : (s'.thread s.actives).priority = (s'.thread s.actives).ss.lowPriority
  · have hown := core_adjustPriority_own (s := s') (hc.symm ▸ hs) (by rwa [hact])
    rw [hact, hc, prio_of_core hc, show s'.dpp = s.dpp from congrArg Core.dpp hc] at hown
    exact hown.imp_right .inr
  right
  left
  refine ⟨hd, ?_⟩
  have hidle : s'.core.state s'.actives ≠ .ready := hact.symm ▸ hc.symm ▸ hs.idle
  rw [adjustPriority, adjustN, core_adjustPriorityWith hidle fun h => absurd h hp, hc]
  exact adjust_blocked hst _

def Careful (s : Sched) : Op → Prop
  | .msgCurrent rcvid => ∀ thp, s.inherits rcvid = some thp →
      ∀ u, (s.thread u).state = .ready → s.prio u ≤ s.prio thp
  | .blockAndReady _ thp =>
      (s.thread thp).stopPending = false → (s.thread s.actives).drops →
      ((s.thread s.actives).ss.lowPriority : Nat) < s.prio thp →
      ∀ u, (s.thread u).state = .ready → s.prio u ≤ s.prio thp
  | _ => True

theorem ordered_msgCurrent {s : Sched} {rcvid : Rcvid} (h : s.core.Ordered)
    (hc : s.Careful (.msgCurrent rcvid)) : (s.kerMsgCurrent rcvid).2.core.Ordered := by
  rcases s.core_kerMsgCurrent rcvid with he | ⟨thp, hi, s1, hc1, he⟩
  · rwa [he]
  rw [he]
  refine closed_adjustPriority (closed_ordered _) _ ?_
  rw [hc1]
  refine ⟨h.queued.setPriority h.sound.idle _, h.running, fun u hu => ?_⟩
  have hua : u ≠ s.actives := by
    rintro rfl
    exact h.sound.idle hu
  have hle : s.prio u ≤ ((s.thread thp).priority : Nat) := hc thp hi u hu
  simpa [hua] using hle

theorem ordered_runOrQueue {s s' : Sched} {act t : Thp} {st : State} (hst : st ≠ .ready)
    (hA : Aside t st (s.prio t) s.core)
    (htop : s.prio act < s.prio t → ∀ u, s.core.state u = .ready → s.prio u ≤ s.prio t)
    (h : s.runOrQueue act t (s.prio t) = some s') : s'.core.Ordered := by
  have ht : s.core.state t ≠ .ready := hA.state ▸ hst
  rcases core_runOrQueue h with ⟨hc, he⟩ | hf
  · rw [he]
    refine ⟨hA.sound.queued.run ht, by simp, fun u hu => ?_⟩
    have hut : u ≠ t := by
      rintro rfl
      simp at hu
    have hu : s.core.state u = .ready := by simpa [hut] using hu
    rcases hc with hc | hc
    · exact htop hc u hu
    · exact (hA.sound.queued.le_highestPri hu).trans hc.le
  · exact (hA.sound.queued.putHead ht).findHighest hf

theorem stopActive_top {s : Sched} {t : Thp} (hs : s.core.Sound)
    (hst : (s.thread s.actives).state.Blocked) (htop : s.core.Top)
    (hlow : (s.thread s.actives).drops → ((s.thread s.actives).ss.lowPriority : Nat) < s.prio t →
      ∀ u, s.core.state u = .ready → s.prio u ≤ s.prio t)
    (hlt : (s.stopActive t).core.prio s.actives < s.prio t) {u : Thp}
    (hu : (s.stopActive t).core.state u = .ready) : (s.stopActive t).core.prio u ≤ s.prio t := by
  rcases core_stopActive t hs hst with he | ⟨hd, he⟩ | ⟨v, hv, he⟩
  · rw [he] at hlt hu ⊢
    exact (htop u hu).trans hlt.le
  · rw [he] at hlt hu ⊢
    have hua : u ≠ s.actives := by
      rintro rfl
      exact hs.idle hu
    have hl : ((s.thread s.actives).ss.lowPriority : Nat) < s.prio t := by simpa using hlt
    simpa [hua] using hlow hd hl u hu
  rw [he] at hlt hu ⊢
  have hle : s.core.prio u ≤ s.core.prio s.actives := by
    by_cases hua : u = s.actives
    · rw [hua]
    by_cases huv : u = v
    · simp [huv] at hu
    · exact htop u (by simpa [huv, hua] using hu)
  exact hle.trans hlt.le

theorem ordered_blockAndReady {s s' : Sched} {st : State} {t : Thp} (h : s.core.Ordered)
    (ho : s.Entry (.blockAndReady st t)) (hc : s.Careful (.blockAndReady st t))
    (hs : s.step (.blockAndReady st t) = some s') : s'.core.Ordered := by
  have hA := blockAndReady_entry h.sound ho
  obtain ⟨hst, ht, hne⟩ := ho
  -- the state of the active thread is all that differs from `s` when the work begins
  have hth : ((s.setState s.actives st).clearLinks t).thread =
      Function.update s.thread s.actives { s.thread s.actives with state := st } := rfl
  have hact : ((s.setState s.actives st).clearLinks t).actives = s.actives := rfl
  simp only [step, blockAndReady] at hs
  generalize (s.setState s.actives st).clearLinks t = s1 at hA hs hth hact
  have hprio : ∀ u, s1.prio u = s.prio u := by
    intro u
    by_cases hu : u = s.actives <;> simp [prio, hth, hu]
  have hready : ∀ u, s1.core.state u = .ready → s.core.state u = .ready := by
    intro u hu
    by_cases hua : u = s.actives
    · simp [hth, hua, hst.1] at hu
    · simpa [hth, hua] using hu
  split at hs
  · refine ordered_block ?_ hs
    rw [core_setState]
    exact hA.sound.queued.setState (hA.state ▸ ht) (by simp)
  rename_i hstop
  have hA2 := closed_stopActive (t := t) (closed_aside ht (Ne.symm hA.ne)) hA
  have hp : s1.prio t = (s1.stopActive t).prio t := hA.prio.trans hA2.prio.symm
  rw [hp] at hs
  refine ordered_runOrQueue ht ⟨hA2.sound, hA2.ne, hA2.state, rfl⟩ ?_ hs
  rw [← hp]
  intro hlt u hu
  refine stopActive_top hA.sound ?_ ?_ ?_ ?_ hu
  · simpa [hact, hth] using hst
  · intro v hv
    simpa [hprio, hact] using h.top v (hready v hv)
  · intro hd hl v hv
    rw [hprio, hprio]
    refine hc ?_ ?_ ?_ v (hready v hv)
    · simpa [hth, hne] using hstop
    · simpa [hact, hth, Thread.drops] using hd
    · simpa [hact, hth, hprio] using hl
  · rw [hact]
    exact hlt

theorem ordered_step {s s' : Sched} {o : Op} (h : s.core.Ordered)
    (ho : s.Entry o ∧ s.Careful o) (hs : s.step o = some s') : s'.core.Ordered := by
  refine stable_step stable_ordered ?_ ?_ h ho.1 hs
  · rintro st t rfl
    exact ordered_blockAndReady h ho.1 ho.2 hs
  · rintro rcvid rfl
    cases hs
    exact ordered_msgCurrent h ho.2

/-- In a run of careful steps no ready thread is above the active one. -/
theorem active_is_highest {s : Sched}
    (h : Reach Init (fun s o => s.Entry o ∧ s.Careful o) step s) {u : Thp}
    (hu : (s.thread u).state = .ready) : s.prio u ≤ s.prio s.actives := by
  have ho : s.core.Ordered :=
    h.invariant (fun _ hi => hi.ordered) fun _ _ _ hp ho hs => ordered_step hp ho hs
  exact ho.top u hu

/-- Thread 1 serves at priority 20 and thread 3 is ready at 10, while thread 2 waits for a
reply at priority `client`. -/
def serving (client : Prio) : List Op :=
  [.adjustPriority 0 0, .update 1 (stoppedAt 20),
    .update 2 { stoppedAt client with state := .reply, blockedOn := 7 }, .ready 1, .ready 3]

/-- Thread 1 is sporadic, at priority 20 with 5 as its low one, and has a single
replenishment; thread 3 is ready at 15 and thread 2 waits at priority `p`. -/
def sporadic (p : Prio) : List Op :=
  [.adjustPriority 0 0, .update 1 (stoppedAt 20), .update 2 { stoppedAt p with state := .receive },
    .update 3 (stoppedAt 15), .ready 1, .schedThread 1 (.policy .sporadic) ⟨20, 5, 1, 100, 50⟩ true,
    .ready 3]

def inverted (s : Sched) : Bool := (s.thread 3).state = .ready && s.prio s.actives < s.prio 3

/-- The server takes over priority 5 and keeps running over a thread at 10; the sporadic
thread sends to a thread at 10, which runs over a thread at 15. -/
theorem active_not_highest :
    (∃ s, replay Entry step boot (serving 5 ++ [.msgCurrent (.found 7 2)]) = some s ∧
      Reach Init Entry step s ∧ (s.thread 3).state = .ready ∧ s.prio s.actives < s.prio 3) ∧
    ∃ s, replay Entry step boot (sporadic 10 ++ [.blockAndReady .send 2]) = some s ∧
      Reach Init Entry step s ∧ (s.thread 3).state = .ready ∧ s.prio s.actives < s.prio 3 := by
  have key : ∀ os : List Op, (replay Entry step boot os).any inverted = true →
      ∃ s, replay Entry step boot os = some s ∧ Reach Init Entry step s ∧
        (s.thread 3).state = .ready ∧ s.prio s.actives < s.prio 3 := by
    intro os h
    cases hr : replay Entry step boot os with
    | none => simp [hr] at h
    | some s => exact ⟨s, rfl, reach_boot.replay hr, by simpa [hr, inverted] using h⟩
  exact ⟨key _ (by decide +kernel), key _ (by decide +kernel)⟩

def Op.plain : Op → Bool
  | .msgCurrent _ => false
  | .blockAndReady _ _ => false
  | _ => true

theorem careful_of_plain (s : Sched) {o : Op} (h : o.plain = true) : s.Careful o := by
  cases o with
  | msgCurrent _ => cases h
  | blockAndReady _ _ => cases h
  | _ => trivial

theorem active_is_highest_serving : ∃ s,
    Reach Init (fun s o => s.Entry o ∧ s.Careful o) step s ∧ (s.thread 3).state = .ready ∧
      s.prio s.actives = 12 ∧ s.prio 3 ≤ s.prio s.actives := by
  have h0 : Reach Init (fun s o => s.Entry o ∧ o.plain = true) step boot := .init init_boot
  obtain ⟨s, hs, hq⟩ := h0.replay_any (serving 12)
    (fun s => s.dpp.bits.highestPri ≤ 12 && s.inherits (.found 7 2) = some 2 && s.prio 2 = 12 &&
      ((s.kerMsgCurrent (.found 7 2)).2.thread 3).state = .ready &&
      (s.kerMsgCurrent (.found 7 2)).2.prio (s.kerMsgCurrent (.found 7 2)).2.actives = 12)
    (by decide +kernel)
  simp only [Bool.and_eq_true, decide_eq_true_eq] at hq
  obtain ⟨⟨⟨⟨hhi, hin⟩, hp⟩, h3⟩, h12⟩ := hq
  have hq := (reach_sound (hs.mono fun _ _ ho => ho.1)).queued
  have hcare : s.Careful (.msgCurrent (.found 7 2)) := by
    intro thp ht u hu
    rw [hin] at ht
    cases ht
    rw [hp]
    exact (hq.le_highestPri hu).trans hhi
  have hs' : Reach Init (fun s o => s.Entry o ∧ s.Careful o) step s :=
    hs.mono fun s _ ho => ⟨ho.1, s.careful_of_plain ho.2⟩
  have hok : s.Entry (.msgCurrent (.found 7 2)) ∧ s.Careful (.msgCurrent (.found 7 2)) :=
    ⟨trivial, hcare⟩
  have h := hs'.step hok rfl
  exact ⟨_, h, h3, h12, active_is_highest h h3⟩

end Sched

end Qnx.Ker
