import Qnx.Ker.ReadyQueue

/-!
# Invariants of the core moves

`Sound` is what every scheduler function keeps. `Ordered` adds that the active thread runs
and that no ready thread is above it. Both are `Stable`: the moves a scheduler function makes
keep them, so the functions are treated once for both.
-/

namespace Qnx.Ker

open Option

namespace Core

structure Sound (c : Core) : Prop where
  queued : c.Queued
  idle : c.state c.actives ≠ .ready

structure Ordered (c : Core) : Prop where
  queued : c.Queued
  running : c.state c.actives = .running
  top : c.Top

theorem Ordered.sound {c : Core} (h : c.Ordered) : c.Sound := ⟨h.queued, by simp [h.running]⟩

/-- Kept by `yield` and by `adjust_priority` on the thread `a`. -/
structure Closed (P : Core → Prop) (a : Thp) : Prop where
  sound : ∀ {c}, P c → c.Sound
  swap : ∀ {c t}, P c → c.dpp.links.head (c.prio c.actives) = some t → P (c.swap t)
  adjust : ∀ {c p}, P c → P (c.adjust a p)

structure Stable (P : Core → Prop) : Prop where
  closed : ∀ a, Closed P a
  ordered : ∀ {c}, c.Ordered → P c
  relinkBeg : ∀ {c t}, P c → c.state t = .ready →
    P (c.modDpp fun d => (d.link3Rem (c.prio t) t).link3Beg (c.prio t) t)
  relinkEnd : ∀ {c t}, P c → c.state t = .ready →
    P (c.modDpp fun d => (d.link3Rem (c.prio t) t).link3End (c.prio t) t)
  clearLinks : ∀ {c t}, P c → c.state t ≠ .ready → P (c.modDpp fun d => d.clearLinks t)
  preempt : ∀ {c t}, P c → c.state t ≠ .ready → t ≠ c.actives →
    c.prio c.actives < c.prio t → P (c.preempt t)
  putTail : ∀ {c t}, P c → c.state t ≠ .ready → t ≠ c.actives →
    c.prio t ≤ c.prio c.actives → P (c.putTail t)
  take : ∀ {c t st}, P c → c.state t = .ready → st ≠ .ready → P (c.take t st)
  update : ∀ {c t st p}, P c → t ≠ c.actives → c.state t ≠ .ready → st ≠ .ready →
    P ((c.setState t st).setPriority t p)
  slice : ∀ {c t tail}, P c → c.dpp.links.head c.dpp.bits.highestPri = some t →
    c.prio c.actives ≤ c.dpp.bits.highestPri → P (c.slice t tail)

variable {c : Core}

theorem Stable.setState {P : Core → Prop} (hP : Stable P) {t : Thp} {st : State} (h : P c)
    (hne : t ≠ c.actives) (ht : c.state t ≠ .ready) (hst : st ≠ .ready) :
    P (c.setState t st) := by
  have he : (c.setState t st).setPriority t (c.priority t) = c.setState t st := by
    simp [Core.setState, Core.setPriority]
  exact he ▸ hP.update h hne ht hst

theorem Queued.findHighest {c' : Core} (h : c.Queued) (hf : c.findHighest = some c') :
    c'.Ordered := by
  cases hh : c.dpp.links.head c.dpp.bits.highestPri with
  | none => simp [Core.findHighest, hh] at hf
  | some t =>
    obtain ⟨ht, hp⟩ := h.head_some hh
    simp only [Core.findHighest, hh, map_some, some.injEq] at hf
    subst hf
    refine ⟨(h.take ht (by simp)).run (by simp), by simp, fun u hu => ?_⟩
    have hr : c.state u = .ready := by
      by_cases hut : u = t <;> simp_all
    exact (h.le_highestPri hr).trans hp.ge

theorem Queued.findHighest_isSome (h : c.Queued) {t : Thp} (ht : c.state t = .ready) :
    ∃ c', c.findHighest = some c' := by
  cases hh : c.dpp.links.head c.dpp.bits.highestPri with
  | none => exact absurd ht (h.none_ready hh t)
  | some u => exact ⟨(c.take u .running).run u, by simp only [Core.findHighest, hh, map_some]⟩

theorem Sound.lower (h : c.Sound) (p : Prio) :
    (((c.setPriority c.actives p).putTail c.actives).findHighest.getD
      ((c.setPriority c.actives p).putTail c.actives)).Ordered := by
  have hq := (h.queued.setPriority h.idle p).putTail h.idle
  obtain ⟨c', hc'⟩ := hq.findHighest_isSome (t := c.actives) (by simp)
  rw [hc']
  exact hq.findHighest hc'

theorem Queued.preempt (h : c.Queued) {t : Thp} (ht : c.state t ≠ .ready)
    (ha : c.state c.actives ≠ .ready) (hne : t ≠ c.actives) : (c.preempt t).Queued :=
  (h.run ht).putHead (by simp [Ne.symm hne, ha])

theorem Queued.slice (h : c.Queued) {t : Thp} (ht : c.state t = .ready)
    (ha : c.state c.actives ≠ .ready) (tail : Bool) : (c.slice t tail).Queued := by
  have hne : c.actives ≠ t := fun e => ha (e ▸ ht)
  have hq := h.take ht (show State.running ≠ .ready by simp)
  cases tail with
  | true => exact (hq.putTail (by simp [hne, ha])).run (by simp [Ne.symm hne])
  | false => exact (hq.putHead (by simp [hne, ha])).run (by simp [Ne.symm hne])

theorem Sound.adjust (h : c.Sound) (t : Thp) (p : Prio) : (c.adjust t p).Sound := by
  unfold Core.adjust
  split
  · exact h
  split
  · rename_i hst
    have hne : c.actives ≠ t := fun e => h.idle (e ▸ hst)
    have ht := h.queued.take hst (show State.stopped ≠ .ready by simp)
    have hq := ht.setPriority (t := t) (by simp) p
    split
    · exact ⟨hq.preempt (by simp) (by simp [hne, h.idle]) (by simpa using Ne.symm hne),
        by simp [Ne.symm hne]⟩
    · exact ⟨hq.putTail (by simp), by simp [hne, h.idle]⟩
  · split
    · exact (h.lower p).sound
    · exact ⟨h.queued.setPriority h.idle p, h.idle⟩
  · rename_i hst _
    exact ⟨h.queued.setPriority hst p, h.idle⟩

theorem Ordered.adjust (h : c.Ordered) (t : Thp) (p : Prio) : (c.adjust t p).Ordered := by
  have hs := h.sound.adjust t p
  revert hs
  unfold Core.adjust
  split
  · exact fun _ => h
  split
  · rename_i hst
    have hne : c.actives ≠ t := fun e => h.sound.idle (e ▸ hst)
    split
    · intro hs
      refine ⟨hs.queued, by simp [Ne.symm hne], fun u hu => ?_⟩
      by_cases hut : u = t
      · simp [hut]
      by_cases hua : u = c.actives
      · simp [hua, hne]
        omega
      have := h.top u (by simpa [hut, hua] using hu)
      simp [hut]
      omega
    rename_i hgt
    intro hs
    refine ⟨hs.queued, by simp [hne, h.running], fun u hu => ?_⟩
    by_cases hut : u = t
    · simpa [hut, hne] using hgt
    · simpa [hut, hne] using h.top u (by simpa [hut] using hu)
  · split
    · exact fun _ => h.sound.lower p
    intro hs
    refine ⟨hs.queued, h.running, fun u hu => ?_⟩
    have hua : u ≠ c.actives := by
      rintro rfl
      simp [h.running] at hu
    have h1 := h.top u hu
    have h2 := h.queued.le_highestPri (t := u) hu
    simp [hua]
    omega
  · rename_i hrun hst
    intro hs
    have hne : c.actives ≠ t := fun e => hst (e ▸ h.running)
    refine ⟨hs.queued, h.running, fun u hu => ?_⟩
    have hut : u ≠ t := fun e => hrun (e ▸ hu)
    simpa [hut, hne] using h.top u hu

@[simp] theorem state_slice (c : Core) (t u : Thp) (tail : Bool) : (c.slice t tail).state u =
    if u = t then .running else if u = c.actives then .ready else c.state u := by
  cases tail <;> by_cases hu : u = t <;> simp [Core.slice, hu]

@[simp] theorem prio_slice (c : Core) (t u : Thp) (tail : Bool) :
    (c.slice t tail).prio u = c.prio u := by
  cases tail <;> rfl

@[simp] theorem actives_slice (c : Core) (t : Thp) (tail : Bool) :
    (c.slice t tail).actives = t := by
  cases tail <;> rfl

theorem slice_eq (c : Core) (t : Thp) (tail : Bool) : c.slice t tail =
    ((((c.modDpp fun d => d.remClr (c.prio t) t).modDpp fun d =>
      if tail then d.link3End (c.prio c.actives) c.actives
      else d.link3Beg (c.prio c.actives) c.actives).modDpp
      fun d => d.set (c.prio c.actives)).setState c.actives .ready).run t := by
  cases tail
  all_goals
    refine Core.ext rfl ?_ rfl rfl
    funext u
    simp

theorem closed_sound (a : Thp) : Closed Sound a where
  sound h := h
  swap h ht := ⟨h.queued.swap h.idle ht, by simp⟩
  adjust h := h.adjust _ _

theorem stable_sound : Stable Sound where
  closed := closed_sound
  ordered h := h.sound
  relinkBeg h ht := ⟨h.queued.relinkBeg ht, h.idle⟩
  relinkEnd h ht := ⟨h.queued.relinkEnd ht, h.idle⟩
  clearLinks h ht := ⟨h.queued.clearLinks ht, h.idle⟩
  preempt h ht hne _ := ⟨h.queued.preempt ht h.idle hne, by simp [hne]⟩
  putTail h ht hne _ := ⟨h.queued.putTail ht, by simp [Ne.symm hne, h.idle]⟩
  take {c t st} h ht hst := by
    have hne : c.actives ≠ t := fun e => h.idle (e ▸ ht)
    exact ⟨h.queued.take ht hst, by simp [hne, h.idle]⟩
  update h hne ht hst :=
    ⟨(h.queued.setState ht hst).setPriority (by simp [hst]) _, by simp [Ne.symm hne, h.idle]⟩
  slice h hh _ := ⟨h.queued.slice (h.queued.head_some hh).1 h.idle _, by simp⟩

theorem Ordered.top_of {c' : Core} (h : c.Ordered)
    (hs : ∀ u, c'.state u = .ready → u = c.actives ∨ c.state u = .ready)
    (hp : ∀ u, c'.prio u = c.prio u) (ha : c.prio c.actives ≤ c'.prio c'.actives) : c'.Top := by
  intro u hu
  rw [hp u]
  rcases hs u hu with rfl | hr
  · exact ha
  · exact (h.top u hr).trans ha

theorem closed_ordered (a : Thp) : Closed Ordered a where
  sound h := h.sound
  swap {c t} h ht := by
    refine ⟨h.queued.swap h.sound.idle ht, by simp, h.top_of (fun u hu => ?_) (fun _ => rfl) ?_⟩
    · by_cases hua : u = c.actives
      · exact .inl hua
      · by_cases hut : u = t <;> simp_all
    · exact (h.queued.head_some ht).2.ge
  adjust h := h.adjust _ _

theorem stable_ordered : Stable Ordered where
  closed := closed_ordered
  ordered h := h
  relinkBeg h ht := ⟨h.queued.relinkBeg ht, h.running, h.top⟩
  relinkEnd h ht := ⟨h.queued.relinkEnd ht, h.running, h.top⟩
  clearLinks h ht := ⟨h.queued.clearLinks ht, h.running, h.top⟩
  preempt {c t} h ht hne hlt := by
    refine ⟨h.queued.preempt ht h.sound.idle hne, by simp [hne], ?_⟩
    refine h.top_of (fun u hu => ?_) (fun _ => rfl) hlt.le
    by_cases hua : u = c.actives
    · exact .inl hua
    · by_cases hut : u = t <;> simp_all
  putTail {c t} h ht hne hle := by
    refine ⟨h.queued.putTail ht, by simp [Ne.symm hne, h.running], fun u hu => ?_⟩
    by_cases hut : u = t
    · exact hut ▸ hle
    · exact h.top u (by simpa [hut] using hu)
  take {c t st} h ht hst := by
    have hne : c.actives ≠ t := fun e => h.sound.idle (e ▸ ht)
    refine ⟨h.queued.take ht hst, by simp [hne, h.running], ?_⟩
    refine h.top_of (fun u hu => .inr ?_) (fun _ => rfl) le_rfl
    by_cases hut : u = t <;> simp_all
  update {c t st p} h hne ht hst := by
    refine ⟨(h.queued.setState ht hst).setPriority (by simp [hst]) _,
      by simp [Ne.symm hne, h.running], fun u hu => ?_⟩
    by_cases hut : u = t
    · simp [hut, hst] at hu
    · simpa [hut, Ne.symm hne] using h.top u (by simpa [hut] using hu)
  slice {c t tail} h hh hle := by
    obtain ⟨ht, hp⟩ := h.queued.head_some hh
    refine ⟨h.queued.slice ht h.sound.idle _, by simp, ?_⟩
    refine h.top_of (fun u hu => ?_) (fun u => by simp) (by simpa [hp] using hle)
    by_cases hua : u = c.actives
    · exact .inl hua
    · by_cases hut : u = t <;> simp_all

/-- `t` is neither active nor ready; its state and priority are `st` and `p`. -/
structure Aside (t : Thp) (st : State) (p : Nat) (c : Core) : Prop where
  sound : c.Sound
  ne : t ≠ c.actives
  state : c.state t = st
  prio : c.prio t = p

theorem closed_aside {t a : Thp} {st : State} {p : Nat} (hst : st ≠ .ready) (ha : a ≠ t) :
    Closed (Aside t st p) a where
  sound h := h.sound
  swap {c u} h hu := by
    have hut : t ≠ u := by
      rintro rfl
      exact hst (h.state ▸ (h.sound.queued.head_some hu).1)
    exact ⟨(closed_sound a).swap h.sound hu, hut, by simp [hut, h.ne, h.state], h.prio⟩
  adjust {c q} h := by
    have hs := h.sound.adjust a q
    revert hs
    unfold Core.adjust
    split
    · exact fun _ => h
    split
    · split
      · exact fun hs => ⟨hs, by simpa using Ne.symm ha, by simp [h.ne, Ne.symm ha, h.state],
          by simp [Ne.symm ha, h.prio]⟩
      · exact fun hs => ⟨hs, by simpa using h.ne, by simp [Ne.symm ha, h.state],
          by simp [Ne.symm ha, h.prio]⟩
    · split
      · intro hs
        have hq := (h.sound.queued.setPriority h.sound.idle q).putTail h.sound.idle
        cases hh : ((c.setPriority c.actives q).putTail c.actives).dpp.links.head
          ((c.setPriority c.actives q).putTail c.actives).dpp.bits.highestPri with
        | none => exact absurd (by simp) (hq.none_ready hh c.actives)
        | some b =>
          have hb := (hq.head_some hh).1
          have htb : t ≠ b := by
            rintro rfl
            simp [h.ne, h.state, hst] at hb
          simp only [Core.findHighest, hh] at hs ⊢
          exact ⟨hs, htb, by simp [htb, h.ne, h.state], by simp [h.ne, h.prio]⟩
      · exact fun hs => ⟨hs, h.ne, h.state, by simp [h.ne, h.prio]⟩
    · exact fun hs => ⟨hs, h.ne, h.state, by simp [Ne.symm ha, h.prio]⟩

theorem Closed.and {P Q : Core → Prop} {a : Thp} (hP : Closed P a) (hQ : Closed Q a) :
    Closed (fun c => P c ∧ Q c) a where
  sound h := hP.sound h.1
  swap h ht := ⟨hP.swap h.1 ht, hQ.swap h.2 ht⟩
  adjust h := ⟨hP.adjust h.1, hQ.adjust h.2⟩

end Core

end Qnx.Ker
