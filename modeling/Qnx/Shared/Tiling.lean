import Mathlib.Algebra.GroupWithZero.Nat

/-!
# Tiles laid side by side

A list of lengths with tags, read from a start position, cuts an interval into tiles. `Tiles`
says that a predicate holds of every tile at its position.
-/

namespace Qnx.Tiling

open List

variable {τ : Type}

def span (l : List (Nat × τ)) : Nat := (l.map Prod.fst).sum

@[simp] theorem span_nil : span ([] : List (Nat × τ)) = 0 := rfl

@[simp] theorem span_cons (t : Nat × τ) (l : List (Nat × τ)) : span (t :: l) = t.1 + span l := rfl

@[simp] theorem span_append (l m : List (Nat × τ)) : span (l ++ m) = span l + span m := by
  simp [span]

/-- `P` holds of the tiles of `l`, laid out from position `a`. -/
def Tiles (P : Nat → Nat → τ → Prop) : Nat → List (Nat × τ) → Prop
  | _, [] => True
  | a, t :: l => P a t.1 t.2 ∧ Tiles P (a + t.1) l

variable {P : Nat → Nat → τ → Prop} {a p : Nat} {l : List (Nat × τ)} {f : τ → Bool}

theorem tiles_append {m : List (Nat × τ)} :
    Tiles P a (l ++ m) ↔ Tiles P a l ∧ Tiles P (a + span l) m := by
  induction l generalizing a with
  | nil => simp [Tiles]
  | cons t l ih =>
    rw [cons_append, Tiles, Tiles, ih, span_cons, Nat.add_assoc, and_assoc]

theorem Tiles.frame {Q : Nat → Nat → τ → Prop}
    (h : Tiles P a l) (hpq : ∀ p n t, a ≤ p → p + n ≤ a + span l → P p n t → Q p n t) :
    Tiles Q a l := by
  induction l generalizing a with
  | nil => trivial
  | cons t l ih =>
    refine ⟨hpq a t.1 t.2 (Nat.le_refl a) (by simp) h.1, ih h.2 ?_⟩
    intro p n u hp hn hP
    apply hpq p n u _ _ hP
    · omega
    · rw [span_cons]
      omega

theorem Tiles.forall_mem {Q : Nat × τ → Prop}
    (h : Tiles P a l) (hpq : ∀ p t, P p t.1 t.2 → Q t) : ∀ t ∈ l, Q t := by
  induction l generalizing a with
  | nil => simp
  | cons t l ih =>
    intro u hu
    rcases mem_cons.mp hu with rfl | hu
    · exact hpq a u h.1
    · exact ih h.2 u hu

theorem exists_tile (l : List (Nat × τ)) {i : Nat} (ha : a ≤ i) (hi : i < a + span l) :
    ∃ l1 n t l2, l = l1 ++ (n, t) :: l2 ∧ a + span l1 ≤ i ∧ i < a + span l1 + n := by
  induction l generalizing a with
  | nil =>
    rw [span_nil] at hi
    omega
  | cons t l ih =>
    by_cases h : i < a + t.1
    · exact ⟨[], t.1, t.2, l, rfl, ha, h⟩
    rw [span_cons, ← Nat.add_assoc] at hi
    obtain ⟨l1, n, u, l2, hl, h1, h2⟩ := ih (Nat.le_of_not_lt h) hi
    refine ⟨t :: l1, n, u, l2, by rw [hl]; rfl, ?_, ?_⟩
    · rwa [span_cons, ← Nat.add_assoc]
    · rwa [span_cons, ← Nat.add_assoc]

/-- The positions of the tiles whose tag satisfies `f`. -/
def heads (f : τ → Bool) : Nat → List (Nat × τ) → List Nat
  | _, [] => []
  | a, t :: l => if f t.2 then a :: heads f (a + t.1) l else heads f (a + t.1) l

theorem heads_append (f : τ → Bool) (a : Nat) (l m : List (Nat × τ)) :
    heads f a (l ++ m) = heads f a l ++ heads f (a + span l) m := by
  induction l generalizing a with
  | nil => rfl
  | cons t l ih =>
    simp only [cons_append, heads, ih, Nat.add_assoc]
    split <;> rfl

theorem mem_heads :
    p ∈ heads f a l ↔ ∃ l1 n t l2, l = l1 ++ (n, t) :: l2 ∧ p = a + span l1 ∧ f t = true := by
  induction l generalizing a with
  | nil => simp [heads]
  | cons t l ih =>
    have hmem : p ∈ heads f a (t :: l) ↔ f t.2 = true ∧ p = a ∨ p ∈ heads f (a + t.1) l := by
      rw [heads]
      split <;> simp_all
    rw [hmem, ih]
    constructor
    · rintro (⟨hf, rfl⟩ | ⟨l1, n, u, l2, rfl, rfl, hf⟩)
      · exact ⟨[], t.1, t.2, l, rfl, rfl, hf⟩
      · exact ⟨t :: l1, n, u, l2, rfl, by rw [span_cons, Nat.add_assoc], hf⟩
    · rintro ⟨l1, n, u, l2, hl, rfl, hf⟩
      cases l1 with
      | nil =>
        obtain ⟨rfl, rfl⟩ := cons.inj hl
        exact .inl ⟨hf, rfl⟩
      | cons s l1 =>
        obtain ⟨rfl, rfl⟩ := cons.inj hl
        exact .inr ⟨l1, n, u, l2, rfl, by rw [span_cons, Nat.add_assoc], hf⟩

theorem heads_bounds (hpos : ∀ t ∈ l, 0 < t.1) (h : p ∈ heads f a l) : a ≤ p ∧ p < a + span l := by
  obtain ⟨l1, n, t, l2, rfl, rfl, -⟩ := mem_heads.mp h
  have hn := hpos (n, t) (by simp)
  simp only [span_append, span_cons]
  omega

end Qnx.Tiling
