import Mathlib.Init

/-!
# Runs of a partial step function

`step s o = none` is a fault. `ok s o` is what the caller owes before operation `o`.
Every invariant of the project is proved once on a step and carried along runs here.
-/

namespace Qnx.Run

variable {σ ω : Type}

/-- The states reached from `init` by operations called under `ok`. -/
inductive Reach (init : σ → Prop) (ok : σ → ω → Prop) (step : σ → ω → Option σ) : σ → Prop where
  | init {s : σ} : init s → Reach init ok step s
  | step {s s' : σ} {o : ω} :
      Reach init ok step s → ok s o → step s o = some s' → Reach init ok step s'

variable {init : σ → Prop} {ok ok' : σ → ω → Prop} {step : σ → ω → Option σ}

theorem Reach.invariant {P : σ → Prop} (hinit : ∀ s, init s → P s)
    (hstep : ∀ s o s', P s → ok s o → step s o = some s' → P s') {s : σ}
    (h : Reach init ok step s) : P s := by
  induction h with
  | init h => exact hinit _ h
  | step _ hok hs ih => exact hstep _ _ _ ih hok hs

theorem Reach.invariant_of_total {P : σ → Prop} (hinit : ∀ s, init s → P s)
    (hstep : ∀ s o, P s → ok s o → ∃ s', step s o = some s' ∧ P s') {s : σ}
    (h : Reach init ok step s) : P s := by
  refine h.invariant hinit fun s o s' hs hok he => ?_
  obtain ⟨s1, he1, h1⟩ := hstep s o hs hok
  rw [he] at he1
  cases he1
  exact h1

theorem Reach.mono (hok : ∀ s o, ok s o → ok' s o) {s : σ} (h : Reach init ok step s) :
    Reach init ok' step s := by
  induction h with
  | init h => exact .init h
  | step _ ho hs ih => exact .step ih (hok _ _ ho) hs

/-- Replay a list of operations, stopping at a fault or at one not allowed. -/
def replay (ok : σ → ω → Prop) [∀ s o, Decidable (ok s o)] (step : σ → ω → Option σ) :
    σ → List ω → Option σ
  | s, [] => some s
  | s, o :: os => if ok s o then (step s o).bind (replay ok step · os) else none

theorem Reach.replay [∀ s o, Decidable (ok s o)] {os : List ω} {s s' : σ}
    (hs : Reach init ok step s) (h : replay ok step s os = some s') : Reach init ok step s' := by
  induction os generalizing s with
  | nil =>
    cases h
    exact hs
  | cons o os ih =>
    simp only [Run.replay] at h
    split at h
    · rename_i ho
      cases hn : step s o with
      | none => simp [hn] at h
      | some s1 =>
        simp only [hn] at h
        exact ih (.step hs ho hn) h
    · cases h

theorem exists_reach [∀ s o, Decidable (ok s o)] {P Q : σ → Prop} [DecidablePred Q] {s : σ}
    (h0 : init s) (os : List ω) (h : (Run.replay ok step s os).any (Q ·) = true)
    (hP : ∀ s, Reach init ok step s → Q s → P s) : ∃ s, Reach init ok step s ∧ P s := by
  cases hr : Run.replay ok step s os with
  | none => simp [hr] at h
  | some s' =>
    have hs := (Reach.init h0 : Reach init ok step s).replay hr
    exact ⟨s', hs, hP s' hs (by simpa [hr] using h)⟩

theorem Reach.replay_any [∀ s o, Decidable (ok s o)] {s : σ} (hs : Reach init ok step s)
    (os : List ω) (q : σ → Bool) (h : (Run.replay ok step s os).any q = true) :
    ∃ s', Reach init ok step s' ∧ q s' = true := by
  cases hr : Run.replay ok step s os with
  | none => simp [hr] at h
  | some s' => exact ⟨s', hs.replay hr, by simpa [hr] using h⟩

end Qnx.Run
