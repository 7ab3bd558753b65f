import Qnx.Rsrc.Blocks

/-!
# The parts of a range in and out of the created ranges

`_rsrc_block_limit_op` with callouts that only note what they are given. A created range that ends
at the last address leaves that address to both of them.
-/

namespace Qnx.Rsrc.Db

open List
open Handler (Block)

/-- A callout that notes the range under its number: 1 for `overlap`, 0 for `nonoverlap`. -/
def note (kind : Nat) : Callout := fun s e l => l ++ [⟨s, e, 0, kind⟩]

/-- The callouts that are given `x`, in their order. -/
def given (x : Nat) (l : List Block) : List Nat :=
  (l.filter fun b => b.start ≤ x ∧ x ≤ b.end_).map Block.owner

def createdAt (l : List Create) (x : Nat) : Bool := l.any fun c => c.start ≤ x ∧ x ≤ c.end_

/-- Each point of the range is given to one callout, that of the created ranges where it is in one
of them. -/
def Partitioned (created : List Create) (s e : Nat) : Prop :=
  ∀ x, given x (limitOp created (note 1) (note 0) s e []) =
    if s ≤ x ∧ x ≤ e then [(createdAt created x).toNat] else []

variable {c : Create} {l : List Create} {ov : Option (Nat × Nat)} {ps pe x kind s e : Nat}
  {act : List Block}

theorem given_note : given x (note kind s e act) =
    given x act ++ if s ≤ x ∧ x ≤ e then [kind] else [] := by
  unfold given note
  split <;> simp_all

theorem overlapE_iff {a b : Nat} :
    overlapE a b s e = true ↔ a ≤ s ∧ s ≤ b ∨ s ≤ a ∧ a ≤ e := by simp [overlapE]

/-- With the window handed over. -/
def flush (ov : Option (Nat × Nat)) (act : List Block) : List Block :=
  match ov with
  | some (os, oe) => note 1 os oe act
  | none => act

/-- The window ends right before the range that is to come. -/
def Window (ov : Option (Nat × Nat)) (ps pe : Nat) : Prop :=
  ∀ o ∈ ov, o.1 ≤ o.2 ∧ o.2 < ps ∧ (ps ≤ pe → o.2 + 1 = ps)

theorem given_window (hlap : c.start ≤ pe ∧ ps ≤ c.end_) (hc : c.start ≤ c.end_) :
    given x (flush (some (max c.start ps, min c.end_ pe))
      (if c.start ≤ ps then act else note 0 ps (c.start - 1) act)) = given x act ++
      if ps ≤ x ∧ x ≤ min c.end_ pe then [(decide (c.start ≤ x)).toNat] else [] := by
  simp only [flush, given_note, apply_ite (given x)]
  by_cases hx : c.start ≤ x <;> split_ifs <;> simp [hx] <;> omega

theorem given_limitLoop (hsort : l.Pairwise fun c d => c.start ≤ d.start)
    (hv : ∀ c ∈ l, c.start ≤ c.end_ ∧ (c.end_ < ullMax ∨ c.end_ = ullMax ∧ pe < ullMax))
    (hov : Window ov ps pe) :
    given x (limitLoop (note 1) (note 0) l ov ps pe act) = given x (flush ov act) ++
      if ps ≤ x ∧ x ≤ pe then [(createdAt l x).toNat] else [] := by
  induction l generalizing ov ps act with
  | nil =>
    show given x (if ps ≤ pe then note 0 ps pe (flush ov act) else flush ov act) = _
    split
    · exact given_note
    · rw [if_neg (by omega), append_nil]
  | cons c l ih =>
    obtain ⟨hcl, hsort⟩ := pairwise_cons.mp hsort
    obtain ⟨⟨hc, htop⟩, hv⟩ := forall_mem_cons.mp hv
    have hat : createdAt (c :: l) x = (decide (c.start ≤ x ∧ x ≤ c.end_) || createdAt l x) := rfl
    unfold limitLoop
    split
    · rw [if_neg (by omega), append_nil]
      rfl
    split
    · rename_i hlap
      rw [overlapE_iff] at hlap
      rw [ih hsort hv hov]
      split
      · rw [hat, decide_eq_false (by omega), Bool.false_or]
      · rfl
    rename_i hlap
    rw [overlapE_iff] at hlap
    have hps : min c.end_ pe < (if c.end_ ≠ ullMax then c.end_ + 1 else ullMax) ∧
        (c.end_ < pe → (if c.end_ ≠ ullMax then c.end_ + 1 else ullMax) = c.end_ + 1) := by
      split <;> omega
    generalize (if c.end_ ≠ ullMax then c.end_ + 1 else ullMax) = ps' at hps
    -- the points up to the end of the created range, and those behind it
    have hparts : (if ps ≤ x ∧ x ≤ pe then [(createdAt (c :: l) x).toNat] else []) =
        (if ps ≤ x ∧ x ≤ min c.end_ pe then [(decide (c.start ≤ x)).toNat] else []) ++
          if ps' ≤ x ∧ x ≤ pe then [(createdAt l x).toNat] else [] := by
      by_cases hx : x ≤ c.end_
      · have hat' : createdAt (c :: l) x = decide (c.start ≤ x) := by
          rw [hat, Bool.eq_iff_iff, Bool.or_eq_true, decide_eq_true_eq, decide_eq_true_eq,
            and_iff_left hx, or_iff_left_of_imp]
          intro h
          obtain ⟨d, hd, h⟩ := any_eq_true.mp h
          exact Nat.le_trans (hcl d hd) (of_decide_eq_true h).1
        rw [if_neg (by omega : ¬(ps' ≤ x ∧ x ≤ pe)), append_nil]
        simp only [hat', Nat.le_min, hx, true_and]
      have hcond : ps ≤ x ∧ x ≤ pe ↔ ps' ≤ x ∧ x ≤ pe := by omega
      rw [if_neg (by omega : ¬(ps ≤ x ∧ x ≤ min c.end_ pe)), nil_append]
      simp only [hat, hx, hcond, and_false, decide_false, Bool.false_or]
    have hw : Window (some (max c.start ps, min c.end_ pe)) ps' pe := by
      rintro o ⟨⟩
      omega
    rw [hparts, ← append_assoc]
    cases ov with
    | none => exact (ih hsort hv hw).trans (congrArg (· ++ _) (given_window (by omega) hc))
    | some o =>
      obtain ⟨h1, h2, h3⟩ := hov o rfl
      dsimp only
      split
      · rename_i hin
        rw [overlapE_iff] at hin
        rw [ih hsort hv, if_pos (by omega)]
        · simp only [flush, given_note]
          by_cases hx : c.start ≤ x <;> split_ifs <;> simp [hx] <;> omega
        · rintro o' ⟨⟩
          dsimp only
          omega
      · exact (ih hsort hv hw).trans (congrArg (· ++ _) (given_window (by omega) hc))

theorem top_given (hv : ∀ c ∈ l, c.end_ ≤ ullMax) (hps : ps ≤ ullMax) :
    0 ∈ given ullMax (limitLoop (note 1) (note 0) l ov ps ullMax act) := by
  induction l generalizing ov ps act with
  | nil =>
    unfold limitLoop
    simp [hps, given_note]
  | cons c l ih =>
    obtain ⟨hc, hv⟩ := forall_mem_cons.mp hv
    unfold limitLoop
    rw [if_neg (not_not.mpr hps)]
    split
    · exact ih hv hps
    · exact ih hv (by split <;> omega)

theorem limit_op_partitions_iff (created : List Create)
    (hsort : created.Pairwise fun c d => c.start ≤ d.start)
    (hv : ∀ c ∈ created, c.start ≤ c.end_ ∧ c.end_ ≤ ullMax) (hse : s ≤ e) (he : e ≤ ullMax) :
    Partitioned created s e ↔ ¬(e = ullMax ∧ ∃ c ∈ created, c.end_ = ullMax) := by
  constructor
  · rintro h ⟨rfl, c, hc, htop⟩
    have hat : createdAt created ullMax = true :=
      any_eq_true.mpr ⟨c, hc, by simpa [htop] using (hv c hc).1⟩
    have hmem : 0 ∈ given ullMax (limitOp created (note 1) (note 0) s ullMax []) :=
      top_given (fun c hc => (hv c hc).2) hse
    rw [h ullMax] at hmem
    simp [hat] at hmem
  · intro hnot x
    refine given_limitLoop hsort (fun c hc => ⟨(hv c hc).1, ?_⟩) nofun
    have := (hv c hc).2
    have : ¬(e = ullMax ∧ c.end_ = ullMax) := fun h => hnot ⟨h.1, c, hc, h.2⟩
    omega

theorem limit_op_partitions_iff_nested :
    Partitioned [⟨2, 9, ⟨0, 0⟩, 0, 0⟩, ⟨4, 6, ⟨0, 0⟩, 0, 0⟩, ⟨9, 12, ⟨0, 0⟩, 0, 0⟩] 0 20 :=
  (limit_op_partitions_iff _ (by decide) (by decide) (by decide) (by decide)).mpr (by decide)

theorem last_address_given_twice :
    ¬Partitioned [⟨2 ^ 64 - 16, 2 ^ 64 - 1, ⟨0, 0⟩, 0, 0⟩] 0 (2 ^ 64 - 1) := by
  intro h
  exact absurd (h (2 ^ 64 - 1)) (by decide)

end Qnx.Rsrc.Db
