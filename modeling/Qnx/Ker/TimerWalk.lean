import Qnx.Ker.TimerOps

/-!
# Walking a slot while its timers fire

`timer_expiry` holds a pointer into a slot list while the events it sets off take timers off
that list. A `Trail` is what remains true of the pointer: it leads through timers that are on no
list any more back to the part of the slot that is still to come.
-/

namespace Qnx.Ker

open Circular List Function Option

namespace Wheel

/-- From `n` the pointers lead through the timers `g`, which are on no list, to `m`. -/
def Leads (w : Wheel) : Node → List Tip → Node → Prop
  | n, [], m => n = m
  | n, t :: g, m =>
    n = .timer t ∧ (w.timer t).queue = none ∧ Leads w (w.links.next (.timer t)) g m

/-- The walk over slot `k` is at `n`, with `l₁` behind it and `l₂` to come. -/
structure Trail (w : Wheel) (L : Lists) (T : Nat) (k : Qid × Nat) (n : Node)
    (g l₁ l₂ : List Tip) : Prop where
  slot : w.Slot k
  cut : L k = l₁ ++ l₂
  leads : Leads w n g (firstOf (slotNode k) (l₂.map .timer))
  nodup : g.Nodup
  late : ∀ t ∈ g, T < (w.timer t).nsec → ∀ u ∈ l₂, T < (w.timer u).nsec

section Leads
variable {w w' : Wheel} {n m : Node} {g : List Tip} {t : Tip}

theorem Leads.congr (h : Leads w n g m) (hq : ∀ t ∈ g, (w'.timer t).queue = none)
    (hl : ∀ t ∈ g, w'.links.next (.timer t) = w.links.next (.timer t)) : Leads w' n g m := by
  induction g generalizing n with
  | nil => exact h
  | cons t g ih =>
    refine ⟨h.1, hq t (by simp), ?_⟩
    rw [hl t (by simp)]
    exact ih h.2.2 (fun x hx => hq x (by simp [hx])) fun x hx => hl x (by simp [hx])

theorem Leads.queue (h : Leads w n g m) : ∀ t ∈ g, (w.timer t).queue = none := by
  induction g generalizing n with
  | nil => simp
  | cons t g ih =>
    exact forall_mem_cons.mpr ⟨h.2.1, ih h.2.2⟩

theorem Leads.concat (h : Leads w n g (.timer t)) (hq : (w.timer t).queue = none) :
    Leads w n (g ++ [t]) (w.links.next (.timer t)) := by
  induction g generalizing n with
  | nil => exact ⟨h, hq, rfl⟩
  | cons x g ih => exact ⟨h.1, h.2.1, ih h.2.2⟩

end Leads

section Stop
variable {w : Wheel} {L : Lists} {T : Nat} {k : Qid × Nat} {n : Node} {g l₁ l₂ tips : List Tip}

theorem Rep.not_mem_of_queue {t : Tip} (h : Rep w L none) (hq : (w.timer t).queue = none)
    (j : Qid × Nat) : t ∉ L j := fun hj => by
  have := (h.active_of_mem hj).2
  simp [hq] at this

theorem Good.deactivate {x : Tip} {j : Qid × Nat} {m1 m2 : List Tip} (gd : Good w L [])
    (hm : L j = m1 ++ x :: m2) : ∃ w', w.timerDeactivate x = some w' ∧
      Good w' (update L j (m1 ++ m2)) [] ∧ Steady w w' ∧ Apart w w' ∧
      (∀ y, w'.timer y = w.timer y ∨ w'.timer y = stopped (w.timer y)) ∧
      (∀ {n g v}, Leads w n g v → Leads w' n g v ∧ x ∉ g) ∧ (w'.timer x).queue = none ∧
      w'.links.next (.timer x) = firstOf (slotNode j) (m2.map .timer) := by
  obtain ⟨w', he, gd', hself, hother, hap, hst, hlinks⟩ := timerDeactivate_linked gd hm (by simp)
  have hnd := gd.rep.nodup j
  rw [hm] at hnd
  have hxm : x ∉ m1 := fun h => (nodup_append.mp hnd).2.2 x h x (by simp) rfl
  have hnext : ∀ y, y ∉ m1 → w'.links.next (.timer y) = w.links.next (.timer y) := fun y hy => by
    rw [hlinks]
    exact gd.rep.next_unlink hm hy
  refine ⟨w', he, gd', hst, hap, fun y => ?_, fun {n g v} h => ?_, by rw [hself]; rfl, ?_⟩
  · by_cases hy : y = x
    · exact .inr (hy ▸ hself)
    · exact .inl (hother y hy)
  · have hgone : ∀ y ∈ g, y ∉ m1 ∧ y ≠ x := fun y hy => by
      have hn := gd.rep.not_mem_of_queue (h.queue y hy) j
      rw [hm] at hn
      simp only [mem_append, mem_cons, not_or] at hn
      exact ⟨hn.1, hn.2.1⟩
    refine ⟨h.congr (fun y hy => ?_) fun y hy => hnext y (hgone y hy).1,
      fun hx => (hgone x hx).2 rfl⟩
    rw [hother y (hgone y hy).2]
    exact h.queue y hy
  · have hc := gd.rep.circles.circle (gd.rep.slot_of_mem (k := j) (t := x) (hm ▸ by simp))
    rw [hm, map_append] at hc
    rw [hnext x hxm, hc.next_mem]

theorem stopped_nsec {a b : Timer} (h : b = a ∨ b = stopped a) : b.nsec = a.nsec := by
  rcases h with rfl | rfl <;> rfl

theorem Steady.slot {w' : Wheel} (h : Steady w w') (hk : w.Slot k) : w'.Slot k := by
  rw [Slot, h.nqueues, h.queue]
  exact hk

theorem modTimer_interval (w : Wheel) (t y : Tip) :
    (w.modTimer t fun x => { x with intervalNsec := 0 }).timer y = { w.timer y with intervalNsec :=
      ((w.modTimer t fun x => { x with intervalNsec := 0 }).timer y).intervalNsec } := by
  by_cases hy : y = t
  · rw [hy, modTimer_self]
  · rw [modTimer_of_ne w _ hy]

theorem Good.clearInterval {p : List Tip} (gd : Good w L p) (t : Tip) :
    Good (w.modTimer t fun x => { x with intervalNsec := 0 }) L p := by
  refine gd.modTimer t _ ⟨rfl, rfl, rfl, rfl⟩ (gd.pend.congr (fun y => ?_) fun y _ => ?_)
  · rw [modTimer_interval]
  · rw [modTimer_interval]

theorem Trail.deactivate (tr : Trail w L T k n g l₁ l₂) (gd : Good w L []) (x : Tip) :
    ∃ w' L' g' l1' l2', w.timerDeactivate x = some w' ∧ Good w' L' [] ∧ Steady w w' ∧
      Apart w w' ∧ Trail w' L' T k n g' l1' l2' ∧ l1'.Sublist l₁ ∧ l2'.Sublist l₂ ∧
      (∀ y ∈ g', y ∈ g ∨ y ∈ l₂) ∧ (∀ j, (L' j).Sublist (L j)) ∧
      ∀ y, w'.timer y = w.timer y ∨ w'.timer y = stopped (w.timer y) := by
  by_cases ha : (w.timer x).active = true
  · obtain ⟨j, hj⟩ := gd.rep.mem_of_active ha
    by_cases hjk : k = j
    · subst hjk
      rw [tr.cut, mem_append] at hj
      rcases hj with hj | hj
      · -- the timer is behind the walk
        obtain ⟨a, b, rfl⟩ := append_of_mem hj
        have hm : L k = a ++ x :: (b ++ l₂) := by simp [tr.cut]
        obtain ⟨w', he, gd', hst, hap, htm, hleads, -, -⟩ := gd.deactivate hm
        have hsub : (a ++ (b ++ l₂)).Sublist (L k) := by simp [hm]
        refine ⟨w', _, g, a ++ b, l₂, he, gd', hst, hap,
          ⟨hst.slot tr.slot, by rw [update_self, append_assoc], (hleads tr.leads).1,
            tr.nodup, fun t ht hT u hu => ?_⟩, by simp, .refl _,
          fun y hy => .inl hy, update_sublist hsub, htm⟩
        rw [stopped_nsec (htm _)] at hT ⊢
        exact tr.late t ht hT u hu
      obtain ⟨a, b, rfl⟩ := append_of_mem hj
      have hm : L k = (l₁ ++ a) ++ x :: b := by simp [tr.cut]
      obtain ⟨w', he, gd', hst, hap, htm, hleads, hq, hnext⟩ := gd.deactivate hm
      obtain ⟨hl, hxg⟩ := hleads tr.leads
      have hsub : ((l₁ ++ a) ++ b).Sublist (L k) := by simp [hm]
      cases a with
      | nil =>
        -- the walk was about to reach it
        have hl' := hl.concat hq
        rw [hnext] at hl'
        refine ⟨w', _, g ++ [x], l₁, b, he, gd', hst, hap,
          ⟨hst.slot tr.slot, by simp, hl', ?_, fun t ht hT u hu => ?_⟩,
          .refl _, by simp, fun y hy => ?_, update_sublist hsub, htm⟩
        · rw [nodup_append]
          refine ⟨tr.nodup, by simp, fun a ha b hb => ?_⟩
          rw [mem_singleton.mp hb]
          exact fun e => hxg (e ▸ ha)
        · rw [stopped_nsec (htm _)] at hT ⊢
          rcases mem_append.mp ht with ht | ht
          · exact tr.late t ht hT u (by simp [hu])
          have hs := gd.rep.sorted k
          rw [hm, pairwise_append, pairwise_cons] at hs
          rw [mem_singleton.mp ht] at hT
          exact hT.trans_le (hs.2.1.1 u hu)
        · rcases mem_append.mp hy with hy | hy
          · exact .inl hy
          · exact .inr (by simp [mem_singleton.mp hy])
      | cons c a =>
        refine ⟨w', _, g, l₁, c :: a ++ b, he, gd', hst, hap,
          ⟨hst.slot tr.slot, by rw [update_self, append_assoc], hl, tr.nodup,
            fun t ht hT u hu => ?_⟩,
          .refl _, by simp, fun y hy => .inl hy, update_sublist hsub, htm⟩
        rw [stopped_nsec (htm _)] at hT ⊢
        refine tr.late t ht hT u ?_
        simp only [mem_append] at hu ⊢
        tauto
    · obtain ⟨m1, m2, hm⟩ := append_of_mem hj
      obtain ⟨w', he, gd', hst, hap, htm, hleads, -, -⟩ := gd.deactivate hm
      refine ⟨w', _, g, l₁, l₂, he, gd', hst, hap,
        ⟨hst.slot tr.slot, by rw [update_of_ne hjk, tr.cut], (hleads tr.leads).1, tr.nodup,
          fun t ht hT u hu => ?_⟩,
        .refl _, .refl _, fun y hy => .inl hy,
        update_sublist (by simp [hm]), htm⟩
      rw [stopped_nsec (htm _)] at hT ⊢
      exact tr.late t ht hT u hu
  · -- nothing happens to the lists
    rw [Bool.not_eq_true] at ha
    have hq := gd.rep.idle x (by simp) ha
    have hp : (w.timer x).pending = false := by
      rw [← Bool.not_eq_true, gd.pend.iff]
      simp
    have htm : ∀ y, (w.modTimer x fun z => { z with intervalNsec := 0 }).timer y = w.timer y ∨
        (w.modTimer x fun z => { z with intervalNsec := 0 }).timer y = stopped (w.timer y) := by
      intro y
      by_cases hy : y = x
      · subst hy
        rw [stopped]
        simp [ha, hq, hp]
      · exact .inl (modTimer_of_ne w _ hy)
    refine ⟨_, L, g, l₁, l₂, timerDeactivate_idle hq ha, gd.clearInterval x, modTimer_steady ..,
      modTimer_apart .., ⟨tr.slot, tr.cut, ?_, tr.nodup, fun t ht hT u hu => ?_⟩, .refl _,
      .refl _, fun y hy => .inl hy, fun j => .refl _, htm⟩
    · refine tr.leads.congr (fun t ht => ?_) fun _ _ => rfl
      rw [modTimer_interval]
      exact tr.leads.queue t ht
    · rw [stopped_nsec (htm _)] at hT ⊢
      exact tr.late t ht hT u hu

theorem Trail.event (xs : List Tip) : ∀ {w : Wheel} {L : Lists} {g l₁ l₂ : List Tip},
    Trail w L T k n g l₁ l₂ → Good w L [] →
    ∃ w' L' g' l1' l2', xs.foldlM timerDeactivate w = some w' ∧ Good w' L' [] ∧ Steady w w' ∧
      Apart w w' ∧ Trail w' L' T k n g' l1' l2' ∧ l1'.Sublist l₁ ∧ l2'.Sublist l₂ ∧
      (∀ y ∈ g', y ∈ g ∨ y ∈ l₂) ∧ (∀ j, (L' j).Sublist (L j)) ∧
      ∀ y, w'.timer y = w.timer y ∨ w'.timer y = stopped (w.timer y) := by
  induction xs with
  | nil =>
    intro w L g l₁ l₂ tr gd
    exact ⟨w, L, g, l₁, l₂, rfl, gd, Steady.refl w, Apart.refl w, tr, .refl _,
      .refl _, fun y hy => .inl hy, fun j => .refl _, fun y => .inl rfl⟩
  | cons x xs ih =>
    intro w L g l₁ l₂ tr gd
    obtain ⟨w1, L1, g1, a1, b1, he1, gd1, hst1, hap1, tr1, ha1, hb1, hg1, hL1, ht1⟩ :=
      tr.deactivate gd x
    obtain ⟨w2, L2, g2, a2, b2, he2, gd2, hst2, hap2, tr2, ha2, hb2, hg2, hL2, ht2⟩ := ih tr1 gd1
    refine ⟨w2, L2, g2, a2, b2, by simp [he1, he2], gd2, hst1.trans hst2,
      hap1.trans hap2, tr2, ha2.trans ha1, hb2.trans hb1, fun y hy => ?_,
      fun j => (hL2 j).trans (hL1 j), fun y => ?_⟩
    · rcases hg2 y hy with h | h
      · exact hg1 y h
      · exact .inr (hb1.subset h)
    · rcases ht2 y with h | h <;> rcases ht1 y with h' | h' <;> rw [h, h']
      · exact .inl rfl
      · exact .inr rfl
      · exact .inr rfl
      · exact .inr rfl

end Stop

section Fire
variable {w : Wheel} {L : Lists} {T : Nat} {k : Qid × Nat} {n : Node} {g l₁ l₂ tips : List Tip}
  {t : Tip}

theorem lastOf_append_of_ne {ν : Type} (s : ν) (l : List ν) {m : List ν} (h : m ≠ []) :
    lastOf s (l ++ m) = lastOf s m := by
  obtain ⟨m', x, rfl⟩ := (eq_nil_or_concat' m).resolve_left h
  rw [← append_assoc, lastOf_concat, lastOf_concat]

theorem firstOf_ne {l : List Tip} (h : t ∉ l) : firstOf (slotNode k) (l.map .timer) ≠ .timer t := by
  intro e
  have hm := e ▸ firstOf_mem (slotNode k) (l.map .timer)
  exact h (by simpa [slotNode] using hm)

theorem Relisted.elsewhere {L' : Lists} (h : Relisted w L t k l₁ l₂ L') :
    ∀ j ≠ k, ∀ x ∈ L' j, x = t ∨ x ∈ L j := by
  intro j hj x hx
  cases h with
  | retired _ =>
    rw [update_of_ne hj] at hx
    exact .inr hx
  | @moved i u v _ hc =>
    by_cases hji : j = i
    · subst hji
      have heq := hc.eq
      rw [update_of_ne hj] at heq
      rw [update_self] at hx
      rw [heq]
      simp only [mem_append, mem_cons] at hx ⊢
      tauto
    · rw [update_of_ne hji, update_of_ne hj] at hx
      exact .inr hx

theorem Relisted.here {L' : Lists} (h : Relisted w L t k l₁ l₂ L') :
    L' k = l₁ ++ l₂ ∨ (w.timer t).intervalNsec ≠ 0 ∧
      ((∃ a b, L' k = l₁ ++ (a ++ t :: b) ∧ l₂ = a ++ b ∧
          ∀ x ∈ a, (w.timer x).nsec ≤ w.nextNsec t) ∨
        ∃ a c b, L' k = a ++ t :: c :: b ++ l₂ ∧ l₁ = a ++ c :: b ∧
          w.nextNsec t < (w.timer c).nsec) := by
  cases h with
  | retired _ => exact .inl (update_self ..)
  | @moved i u v hi hc =>
    by_cases hki : k = i
    · subst hki
      refine .inr ⟨hi, ?_⟩
      obtain ⟨heq, hl, hr⟩ := hc
      rw [update_self] at heq
      rcases append_eq_append_iff.mp heq with ⟨a, rfl, rfl⟩ | ⟨a, rfl, rfl⟩
      · exact .inl ⟨a, v, by simp, rfl, fun x hx => hl x (by simp [hx])⟩
      cases a with
      | nil => exact .inl ⟨[], l₂, by simp, rfl, by simp⟩
      | cons c b => exact .inr ⟨u, c, b, by simp, rfl, hr c (by simp)⟩
    · refine .inl ?_
      rw [update_of_ne hki, update_self]

theorem Trail.rearm (tr : Trail w L T k n g (l₁ ++ [t]) l₂) (gd : Good w L tips)
    (ht : t ∉ tips) : ∃ w' L', w.timerRearm t true = some w' ∧ Good w' L' tips ∧ Apart w w' ∧
      Steady w w' ∧ w'.timer t = w.rearmed t (some (w'.head (w.timer t).todBased)) ∧
      (∀ x ≠ t, w'.timer x = w.timer x) ∧
      (∀ j ≠ k, ∀ x ∈ L' j, x = t ∨ x ∈ L j) ∧
      ∃ g' l1' l2', Trail w' L' T k (if w'.links.next (w.links.prev (.timer t)) = .timer t
          then .timer t else n) g' l1' l2' ∧ (∀ x ∈ g', x ∈ g) ∧ (∀ x ∈ l1', x = t ∨ x ∈ l₁) ∧
        (∀ x ∈ l2', x = t ∨ x ∈ l₂) ∧ ((w.timer t).nsec < w.nextNsec t → t ∉ l1') := by
  have hk : L k = l₁ ++ t :: l₂ := by simp [tr.cut]
  obtain ⟨w', L', he, gd', hrl, hself, hother, hap, hst, hgone⟩ := timerRearm_spec gd hk ht true
  have hst := hst rfl
  have hslot := hst.slot tr.slot
  obtain ⟨htl1, htl2⟩ : t ∉ l₁ ∧ t ∉ l₂ := by
    have := (nodup_cons.mp (nodup_middle.mp (hk ▸ gd.rep.nodup k))).1
    simpa using this
  have hprev : w.links.prev (.timer t) = lastOf (slotNode k) (l₁.map .timer) := by
    have hc := gd.rep.circles.circle tr.slot
    rw [hk, map_append] at hc
    exact hc.prev_mem
  have hgt : ∀ x ∈ g, x ≠ t := fun x hx e => by
    have := gd.rep.not_mem_of_queue (tr.leads.queue x hx) k
    exact this (e ▸ hk ▸ by simp)
  have hleads : Leads w' n g (firstOf (slotNode k) (l₂.map .timer)) :=
    tr.leads.congr (fun x hx => by rw [hother x (hgt x hx)]; exact tr.leads.queue x hx)
      fun x hx => hgone x (hgt x hx) (gd.rep.not_mem_of_queue (tr.leads.queue x hx))
  have hlate : ∀ x ∈ g, T < (w'.timer x).nsec → ∀ u ∈ l₂, T < (w'.timer u).nsec := by
    intro x hx hT u hu
    rw [hother x (hgt x hx)] at hT
    rw [hother u fun e => htl2 (e ▸ hu)]
    exact tr.late x hx hT u hu
  have hcircle : ∀ {a b}, L' k = a ++ b → w'.links.next (lastOf (slotNode k) (a.map .timer)) =
      firstOf (slotNode k) (b.map .timer) := fun {a b} h => by
    have hc := gd'.rep.circles.circle hslot
    rw [h, map_append] at hc
    exact hc.next_last
  refine ⟨w', L', he, gd', hap, hst, hself, hother, hrl.elsewhere, ?_⟩
  rw [hprev]
  rcases hrl.here with hL | ⟨hi, ⟨a, b, hL, rfl, ha⟩ | ⟨a, c, b, hL, rfl, hc⟩⟩
  · rw [hcircle hL, if_neg (firstOf_ne htl2)]
    exact ⟨g, l₁, l₂, ⟨hslot, hL, hleads, tr.nodup, hlate⟩, fun x hx => hx, fun x hx => .inr hx,
      fun x hx => .inr hx, fun _ => htl1⟩
  · rw [hcircle hL]
    cases a with
    | nil =>
      rw [if_pos (by rfl)]
      exact ⟨[], l₁, t :: b, ⟨hslot, hL, rfl, nodup_nil, by simp⟩, by simp,
        fun x hx => .inr hx, by simp, fun _ => htl1⟩
    | cons c a =>
      have hct : c ≠ t := fun e => htl2 (by simp [e])
      rw [if_neg (by simpa [firstOf] using hct)]
      refine ⟨g, l₁, c :: a ++ t :: b, ⟨hslot, hL, hleads, tr.nodup, fun x hx hT y hy => ?_⟩,
        fun x hx => hx, fun x hx => .inr hx, fun x hx => ?_, fun _ => htl1⟩
      · by_cases hyt : y = t
        · -- the timer itself is no earlier than those it comes after
          have hcT := hlate x hx hT c (by simp)
          rw [hother c hct] at hcT
          rw [hyt, hself, rearmed, if_neg hi]
          exact hcT.trans_le (ha c (by simp))
        refine hlate x hx hT y ?_
        simp only [mem_append, mem_cons] at hy ⊢
        tauto
      · simp only [mem_append, mem_cons] at hx ⊢
        tauto
  · have hlast : lastOf (slotNode k) ((a ++ c :: b).map .timer) =
        lastOf (slotNode k) ((a ++ t :: c :: b).map .timer) := by
      rw [append_cons a t, map_append, map_append,
        lastOf_append_of_ne _ _ (by simp), lastOf_append_of_ne _ _ (by simp)]
    rw [hlast, hcircle hL, if_neg (firstOf_ne htl2)]
    refine ⟨g, a ++ t :: c :: b, l₂, ⟨hslot, hL, hleads, tr.nodup, hlate⟩, fun x hx => hx,
      fun x hx => ?_, fun x hx => .inr hx, fun hlt => ?_⟩
    · simp only [mem_append, mem_cons] at hx ⊢
      tauto
    · have hs := gd.rep.sorted k
      rw [hk, pairwise_append] at hs
      have := hs.2.2 c (by simp) t (by simp)
      omega

theorem Trail.timerEvent {ctx : Ctx} (tr : Trail w L T k n g l₁ l₂) (gd : Good w L w.pendingHead)
    (hctx : ctx ≠ .task) (hu : ctx = .user → w.pendingHead = []) (t : Tip) :
    ∃ w' L' g' l1' l2', w.timerEvent t ctx = some w' ∧ Good w' L' w'.pendingHead ∧ Steady w w' ∧
      Apart { w with queuedIntrevents := w'.queuedIntrevents } w' ∧
      w'.queuedIntrevents ≤ w.queuedIntrevents + 1 ∧ (ctx ≠ .user → L' = L) ∧
      Trail w' L' T k n g' l1' l2' ∧ l1'.Sublist l₁ ∧ l2'.Sublist l₂ ∧
      (∀ y ∈ g', y ∈ g ∨ y ∈ l₂) ∧ (∀ j, (L' j).Sublist (L j)) ∧
      (∀ y ≠ t, w'.timer y = w.timer y ∨ w'.timer y = stopped (w.timer y)) ∧
      ((w.timer t).hasThread = true ∧
          (w'.timer t = w.timer t ∨ w'.timer t = stopped (w.timer t) ∧ ctx = .user) ∨
        (w.timer t).hasThread = false ∧ w'.timer t = { w.timer t with intervalNsec := 0 }) := by
  by_cases hth : (w.timer t).hasThread = true
  · have hqueued : ∀ xs, (ctx = .user → xs = none) → w.event t = xs →
        w.timerEvent t ctx = some { w with queuedIntrevents := w.queuedIntrevents + 1 } := by
      intro xs hxs he
      cases ctx <;> simp_all [Wheel.timerEvent]
    by_cases hex : ctx = .user ∧ ∃ xs, w.event t = some xs
    · obtain ⟨rfl, xs, hxs⟩ := hex
      have hnil := hu rfl
      rw [hnil] at gd
      obtain ⟨w', L', g', a, b, he, gd', hst, hap, tr', ha, hb, hg, hL, htm⟩ := tr.event xs gd
      have hpend : w'.pendingHead = [] := hap.pendingHead.trans hnil
      refine ⟨w', L', g', a, b, ?_, hpend ▸ gd', hst, ⟨hap.1, hap.2, hap.3, hap.4, rfl, hap.6, hap.7⟩,
        ?_, by simp, tr', ha, hb, hg, hL, fun y _ => htm y,
        .inl ⟨hth, (htm t).imp_right fun h => ⟨h, rfl⟩⟩⟩
      · simp [Wheel.timerEvent, hth, hxs, he]
      · rw [hap.queuedIntrevents]
        exact Nat.le_succ _
    refine ⟨_, L, g, l₁, l₂, hqueued (w.event t) (fun h => ?_) rfl,
      gd.env rfl rfl rfl rfl rfl rfl rfl, ⟨fun _ => rfl, rfl, rfl, rfl, rfl⟩,
      ⟨rfl, rfl, rfl, rfl, rfl, rfl, rfl⟩, le_rfl, fun _ => rfl,
      ⟨tr.slot, tr.cut, tr.leads.congr (tr.leads.queue) fun _ _ => rfl, tr.nodup, tr.late⟩,
      .refl _, .refl _, fun y hy => .inl hy,
      fun _ => .refl _, fun y _ => .inl rfl, .inl ⟨hth, .inl rfl⟩⟩
    by_contra hne
    exact hex ⟨h, ne_none_iff_exists'.mp hne⟩
  · rw [Bool.not_eq_true] at hth
    refine ⟨_, L, g, l₁, l₂, by simp [Wheel.timerEvent, hth], gd.clearInterval t,
      modTimer_steady .., modTimer_apart .., Nat.le_succ _, fun _ => rfl, ⟨tr.slot, tr.cut,
        tr.leads.congr (fun y hy => ?_) fun _ _ => rfl, tr.nodup, fun y hy hT u hu => ?_⟩,
      .refl _, .refl _, fun y hy => .inl hy, fun _ => .refl _,
      fun y hy => .inl (modTimer_of_ne w _ hy), .inr ⟨hth, modTimer_self ..⟩⟩
    · rw [modTimer_interval]
      exact tr.leads.queue y hy
    · rw [modTimer_interval] at hT ⊢
      exact tr.late y hy hT u hu

/-- The walk after `timer_fire` has looked at `t`, which stood between `l₁` and `l₂`. -/
structure Fired (w : Wheel) (L : Lists) (ctx : Ctx) (T : Nat) (k : Qid × Nat) (t : Tip)
    (l₁ l₂ : List Tip) (n : Node) (w' : Wheel) (L' : Lists) (g l₁' l₂' : List Tip) : Prop where
  good : Good w' L' w'.pendingHead
  steady : Steady w w'
  apart : Apart { w with
    pendingHead := w'.pendingHead, queuedIntrevents := w'.queuedIntrevents } w'
  queued : w'.queuedIntrevents ≤ w.queuedIntrevents + 1
  pending : w'.pendingHead = w.pendingHead ∨ ctx = .kerop
  trail : Trail w' L' T k n g l₁' l₂'
  behind : ∀ x ∈ l₁', x = t ∨ x ∈ l₁
  ahead : ∀ x ∈ l₂', x = t ∨ x ∈ l₂
  gone : ∀ x ∈ g, x ∈ l₂
  elsewhere : ∀ j ≠ k, ∀ x ∈ L' j, x = t ∨ x ∈ L j
  others : ∀ x ≠ t, w'.timer x = w.timer x ∨ w'.timer x = stopped (w.timer x)
  self : ((w'.timer t).pending = true ∧ (w'.timer t).nsec = (w.timer t).nsec ∧ t ∈ l₁') ∨
    ((w'.timer t).queue = none ∧ (w'.timer t).nsec = (w.timer t).nsec) ∨
    ((w.timer t).pending = false ∧ (w.timer t).hasThread = true ∧ (w.timer t).intervalNsec ≠ 0 ∧
      w'.timer t = { w.timer t with
        nsec := w.nextNsec t, queue := some (w'.head (w.timer t).todBased) } ∧
      ((w.timer t).nsec < w.nextNsec t → t ∉ l₁'))

theorem sublist_concat {l m : List Tip} (h : m.Sublist (l ++ [t])) (ht : t ∈ m) (hl : t ∉ l) :
    ∃ m', m = m' ++ [t] ∧ m'.Sublist l := by
  obtain ⟨a, b, rfl, ha, hb⟩ := sublist_append_iff.mp h
  rcases sublist_singleton.mp hb with rfl | rfl
  · rw [append_nil] at ht
    exact absurd (ha.subset ht) hl
  · exact ⟨a, rfl, ha⟩

def push (w : Wheel) (t : Tip) : Wheel :=
  { w.modTimer t (fun t => { t with pending := true }) with pendingHead := t :: w.pendingHead }

theorem push_timer (w : Wheel) (t x : Tip) : (w.push t).timer x =
    { w.timer x with pending := (w.timer x).pending || decide (x = t) } := by
  by_cases hx : x = t
  · subst hx
    simp [push]
  · simp [push, modTimer_of_ne w _ hx, hx]

theorem Good.push (gd : Good w L w.pendingHead) (ha : (w.timer t).active = true)
    (hp : (w.timer t).pending = false) : Good (w.push t) L (w.push t).pendingHead := by
  have htp : t ∉ w.pendingHead := by
    rw [← gd.pend.iff, hp]
    simp
  have hrep := gd.rep.modTimer t (fun t => { t with pending := true }) fun _ => ⟨rfl, rfl, rfl, rfl⟩
  refine ⟨hrep.env rfl rfl rfl rfl rfl, Steady.shape ⟨fun _ => rfl, rfl, rfl, rfl, rfl⟩ gd.shape,
    fun x => ?_, nodup_cons.mpr ⟨htp, gd.pend.nodup⟩, fun x hx => ?_⟩
  · rw [push_timer]
    show ((w.timer x).pending || decide (x = t)) = true ↔ x ∈ t :: w.pendingHead
    simp [gd.pend.iff, or_comm]
  · rw [push_timer]
    rcases mem_cons.mp hx with rfl | hx
    · exact ha
    · exact gd.pend.active x hx

theorem nextNsec_congr {w' : Wheel} (ht : w'.timer t = w.timer t) (hi : w'.nsecInc = w.nsecInc)
    (hn : w'.nsec = w.nsec) (had : w'.nsecTodAdjust = w.nsecTodAdjust) :
    w'.nextNsec t = w.nextNsec t := by
  unfold nextNsec stepOf snapTime
  rw [ht, hi, hn, had]

theorem timerFire_eq {w1 : Wheel} {ctx : Ctx} (hp : (w.timer t).pending = false)
    (hq : (w.timer t).queue ≠ none) (hkr : ctx ≠ .kerop) (he : w.timerEvent t ctx = some w1) :
    w.timerFire t ctx = (if ¬(w1.timer t).pending = true ∧ (w1.timer t).queue ≠ none then
      (w1.timerRearm t ctx.isr).map fun v => (if v.links.next (w1.links.prev (.timer t)) = .timer t
        then .timer t else w.links.next (.timer t), v)
      else some (w.links.next (.timer t), w1)) := by
  have hw : (w.timer t).pending = true ∨ (w.timer t).queue = none ↔ False := by simp [hp, hq]
  simp only [timerFire, hw, if_false, hkr, he, bind_some]

section

variable (gd : Good w L w.pendingHead)
include gd

section

variable (hk : L k = l₁ ++ t :: l₂) (hp : (w.timer t).pending = false)
  (tr : Trail w L T k (w.links.next (.timer t)) [] (l₁ ++ [t]) l₂)
include hk hp tr

theorem timerFire_kerop :
    ∃ n w' L' g l1' l2', w.timerFire t .kerop = some (n, w') ∧
      Fired w L .kerop T k t l₁ l₂ n w' L' g l1' l2' := by
  have hmem : t ∈ L k := hk ▸ by simp
  obtain ⟨ha, hq⟩ := gd.rep.active_of_mem hmem
  have htl2 : t ∉ l₂ := by
    have := (nodup_cons.mp (nodup_middle.mp (hk ▸ gd.rep.nodup k))).1
    exact fun h => this (by simp [h])
  have tr' : Trail (w.push t) L T k (w.links.next (.timer t)) [] (l₁ ++ [t]) l₂ :=
    ⟨tr.slot, tr.cut, tr.leads, nodup_nil, by simp⟩
  obtain ⟨w', L', g, a, b, he, gd', hst, hap, hqd, hL, htr, hsa, hsb, hg, hsub, hother, hself⟩ :=
    tr'.timerEvent (gd.push ha hp) (show Ctx.kerop ≠ .task by simp) (by simp) t
  have hL := hL (by simp)
  have hta : t ∈ a := by
    have := htr.cut ▸ hL ▸ hmem
    exact (mem_append.mp this).resolve_right fun h => htl2 (hsb.subset h)
  have hpt : (w'.timer t).pending = true ∧ (w'.timer t).nsec = (w.timer t).nsec := by
    rcases hself with ⟨-, h | ⟨-, h⟩⟩ | ⟨-, h⟩
    · rw [h, push_timer]
      simp
    · simp at h
    · rw [h, push_timer]
      simp
  refine ⟨w.links.next (.timer t), w', L', g, a, b, ?_, gd', ?_, ?_, hqd, .inr rfl, htr,
    fun x hx => ?_, fun x hx => .inr (hsb.subset hx), fun x hx => ?_,
    fun j _ x hx => .inr ((hsub j).subset hx), fun x hx => ?_, .inl ⟨hpt.1, hpt.2, hta⟩⟩
  · have hw : (w.timer t).pending = true ∨ (w.timer t).queue = none ↔ False := by simp [hp, hq]
    simp only [timerFire, hw, if_true]
    rw [show ({ w.modTimer t (fun t => { t with pending := true }) with
      pendingHead := t :: w.pendingHead } : Wheel) = w.push t from rfl, he]
    simp [hpt.1]
  · have hpush : Steady w (w.push t) := ⟨fun _ => rfl, rfl, rfl, rfl, rfl⟩
    exact hpush.trans hst
  · exact ⟨rfl, hap.2, hap.3, hap.4, rfl, hap.6, hap.7⟩
  · have := hsa.subset hx
    simp only [mem_append, mem_singleton] at this
    tauto
  · exact (hg x hx).resolve_left (by simp)
  · rcases hother x hx with h | h <;> rw [h, push_timer] <;> simp [hx]

theorem timerFire_rearm {ctx : Ctx} (hctx : ctx ≠ .task) (hkr : ctx ≠ .kerop)
    (hu : ctx = .user → w.pendingHead = []) :
    ∃ n w' L' g l1' l2', w.timerFire t ctx = some (n, w') ∧
      Fired w L ctx T k t l₁ l₂ n w' L' g l1' l2' := by
  have hmem : t ∈ L k := hk ▸ by simp
  obtain ⟨ha, hq⟩ := gd.rep.active_of_mem hmem
  obtain ⟨htl1, htl2⟩ : t ∉ l₁ ∧ t ∉ l₂ := by
    have := (nodup_cons.mp (nodup_middle.mp (hk ▸ gd.rep.nodup k))).1
    simpa using this
  obtain ⟨w1, L1, g1, a, b, he, gd1, hst, hap, hqd, -, htr, hsa, hsb, hg, hsub, hother, hself⟩ :=
    tr.timerEvent gd hctx hu t
  have hp1 : (w1.timer t).pending = false := by
    rcases hself with ⟨-, h | ⟨h, -⟩⟩ | ⟨-, h⟩ <;> rw [h]
    · exact hp
    · rfl
    · exact hp
  have hpend := hap.pendingHead
  have hnsec1 : (w1.timer t).nsec = (w.timer t).nsec := by
    rcases hself with ⟨-, h | ⟨h, -⟩⟩ | ⟨-, h⟩ <;> rw [h]
    rfl
  have hfire := timerFire_eq hp (by simp [hq]) hkr he
  have hbehind : ∀ {m : List Tip}, m.Sublist (l₁ ++ [t]) → ∀ x ∈ m, x = t ∨ x ∈ l₁ := by
    intro m hm x hx
    have := hm.subset hx
    simp only [mem_append, mem_singleton] at this
    tauto
  by_cases hq1 : (w1.timer t).queue = none
  · refine ⟨_, w1, L1, g1, a, b, by rw [hfire, if_neg (by simp [hq1])], gd1, hst, ?_, hqd,
      .inl hpend, htr, hbehind hsa, fun x hx => .inr (hsb.subset hx), fun x hx => ?_,
      fun j _ x hx => .inr ((hsub j).subset hx), hother, .inr (.inl ⟨hq1, hnsec1⟩)⟩
    · exact ⟨rfl, hap.2, hap.3, hap.4, rfl, hap.6, hap.7⟩
    · exact (hg x hx).resolve_left (by simp)
  -- the timer is still linked, at the end of what is behind the walk
  have ha1 : (w1.timer t).active = true := by
    by_contra h
    exact hq1 (gd1.rep.idle t (by simp) (by simpa using h))
  obtain ⟨j, hj⟩ := gd1.rep.mem_of_active ha1
  obtain rfl : j = k := gd.rep.eq_of_mem ((hsub j).subset hj) hmem
  have hta : t ∈ a := by
    rw [htr.cut, mem_append] at hj
    exact hj.resolve_right fun h => htl2 (hsb.subset h)
  obtain ⟨m, rfl, hm⟩ := sublist_concat hsa hta htl1
  obtain ⟨w', L', he', gd', hap', hst', hr, hother', helse, g', l1', l2', htr', hg', h1, h2,
    hlt⟩ := htr.rearm gd1 (by rw [← gd1.pend.iff, hp1]; simp)
  have hisr : ctx.isr = true := by simp [Ctx.isr, hctx]
  refine ⟨_, w', L', g', l1', l2', ?_, ?_, hst.trans hst', ?_, ?_, .inl ?_, htr', fun x hx => ?_,
    fun x hx => ?_, fun x hx => ?_, fun j hj x hx => ?_, fun x hx => ?_, .inr ?_⟩
  · rw [hfire, if_pos ⟨by simp [hp1], hq1⟩, hisr, he', map_some]
  · rw [hap'.pendingHead]
    exact gd'
  · exact ⟨rfl, hap'.2.trans hap.2, hap'.3.trans hap.3, hap'.4.trans hap.4, rfl,
      hap'.6.trans hap.6, hap'.7.trans hap.7⟩
  · rw [hap'.queuedIntrevents]
    exact hqd
  · rw [hap'.pendingHead, hpend]
  · exact (h1 x hx).imp_right fun h => hm.subset h
  · exact (h2 x hx).imp_right fun h => hsb.subset h
  · exact (hg x (hg' x hx)).resolve_left (by simp)
  · exact (helse j hj x hx).imp_right fun h => (hsub j).subset h
  · rw [hother' x hx]
    exact hother x hx
  · by_cases hi : (w1.timer t).intervalNsec = 0
    · refine .inl ?_
      rw [hr, rearmed, if_pos hi]
      exact ⟨rfl, hnsec1⟩
    have hw1 : (w.timer t).hasThread = true ∧ w1.timer t = w.timer t := by
      rcases hself with ⟨h, h' | ⟨h', -⟩⟩ | ⟨-, h⟩
      · exact ⟨h, h'⟩
      · rw [h'] at hi
        exact absurd rfl hi
      · rw [h] at hi
        exact absurd rfl hi
    have hnn := nextNsec_congr hw1.2 hap.nsecInc hap.nsec hap.nsecTodAdjust
    refine .inr ⟨hp, hw1.1, hw1.2 ▸ hi, ?_, fun h => hlt ?_⟩
    · rw [hr, rearmed, if_neg hi, hnn, hw1.2]
    · rw [hnn, hnsec1]
      exact h

end

theorem timerFire_spec {ctx : Ctx} (hctx : ctx ≠ .task)
    (hu : ctx = .user → w.pendingHead = []) (hk : L k = l₁ ++ t :: l₂) (T : Nat) :
    ∃ n w' L' g l1' l2', w.timerFire t ctx = some (n, w') ∧
      Fired w L ctx T k t l₁ l₂ n w' L' g l1' l2' := by
  have hmem : t ∈ L k := hk ▸ by simp
  have hslot := gd.rep.slot_of_mem hmem
  have hc := gd.rep.circles.circle hslot
  rw [hk, map_append] at hc
  have tr : Trail w L T k (w.links.next (.timer t)) [] (l₁ ++ [t]) l₂ :=
    ⟨hslot, by simp [hk], hc.next_mem, nodup_nil, by simp⟩
  by_cases hp : (w.timer t).pending = true
  · refine ⟨_, w, L, [], l₁ ++ [t], l₂, by simp [timerFire, hp], gd, Steady.refl w,
      ⟨rfl, rfl, rfl, rfl, rfl, rfl, rfl⟩, Nat.le_succ _, .inl rfl, tr, fun x hx => ?_,
      fun x hx => .inr hx, by simp, fun j _ x hx => .inr hx, fun x _ => .inl rfl,
      .inl ⟨hp, rfl, by simp⟩⟩
    simp only [mem_append, mem_singleton] at hx
    tauto
  rw [Bool.not_eq_true] at hp
  by_cases hkr : ctx = .kerop
  · subst hkr
    exact timerFire_kerop gd hk hp tr
  · exact timerFire_rearm gd hk hp tr hctx hkr hu

end

end Fire

end Wheel

end Qnx.Ker
