import Mathlib.Data.List.TakeWhile
import Qnx.Ker.Pulse

/-!
# The send queue delivers in order

The queue is cut into its `HEAD` pulses and the rest, which is in order of priority. Each
operation is matched with its effect on the list of pending deliveries.
-/

namespace Qnx.Ker

open PriQueue List Prod

section Split

variable {α : Type} {p : α → Bool} {l r : List α}

theorem takeWhile_append_of (hl : ∀ a ∈ l, p a = true) (hr : ∀ a ∈ r, p a = false) :
    (l ++ r).takeWhile p = l ∧ (l ++ r).dropWhile p = r := by
  induction l with
  | nil =>
    cases r with
    | nil => simp
    | cons b r => simp [hr b mem_cons_self]
  | cons a l ih =>
    have := ih (forall_mem_cons.mp hl).2
    simp [hl a mem_cons_self, this]

end Split

def qprio (e : QEntry) : Nat := e.priority.toNat

/-- A queued entry: a thread that is not taken for a `HEAD` pulse, or a pulse yet to be
received. -/
def QEntry.Queued (e : QEntry) : Prop :=
  match e.type with
  | .thread _ => e.count ≠ pulseCountHead
  | .signal => False
  | _ => e.count ≠ 0

/-- The queue is `H`, all `HEAD` pulses, and then `O`, the others in order of priority. -/
structure Cut (H O : List QEntry) : Prop where
  heads : ∀ e ∈ H, e.count = pulseCountHead
  others : ∀ e ∈ O, e.count ≠ pulseCountHead
  queued : ∀ e ∈ H ++ O, e.Queued
  ordered : Ordered qprio O

variable {q H O : List QEntry} {e : QEntry}

@[simp] theorem items_nil : items [] = [] := rfl

@[simp] theorem items_cons : items (e :: q) = e.items ++ items q := rfl

@[simp] theorem items_append (q q' : List QEntry) : items (q ++ q') = items q ++ items q' :=
  flatMap_append

theorem mem_items_entry {i : Item} (h : i ∈ e.items) : i = e.item := by
  unfold QEntry.items at h
  split at h
  · simpa using h
  split at h
  · simpa using h
  · exact eq_of_mem_replicate h

theorem item_priority : e.item.priority = e.priority := by
  unfold QEntry.item
  split <;> rfl

theorem item_head (h : e.Queued) : e.item.head = decide (e.count = pulseCountHead) := by
  unfold QEntry.item QEntry.Queued at *
  split
  · simp_all [Item.head]
  · simp_all [Item.head]

theorem mem_items {i : Item} (h : i ∈ items q) : ∃ e ∈ q, i = e.item := by
  obtain ⟨e, he, hi⟩ := mem_flatMap.mp h
  exact ⟨e, he, mem_items_entry hi⟩

namespace Cut

theorem head_items (h : Cut H O) : ∀ i ∈ items H, i.head = true := by
  intro i hi
  obtain ⟨e, he, rfl⟩ := mem_items hi
  rw [item_head (h.queued e (mem_append_left _ he))]
  exact decide_eq_true (h.heads e he)

theorem other_items (h : Cut H O) : ∀ i ∈ items O, i.head = false := by
  intro i hi
  obtain ⟨e, he, rfl⟩ := mem_items hi
  rw [item_head (h.queued e (mem_append_right _ he))]
  exact decide_eq_false (h.others e he)

theorem pending (h : Cut H O) {l : List Stamped} (hl : items (H ++ O) = l.map fst) :
    ∃ PH PO, l = PH ++ PO ∧ items H = PH.map fst ∧ items O = PO.map fst ∧
      l.takeWhile (·.1.head) = PH ∧ l.dropWhile (·.1.head) = PO := by
  rw [items_append] at hl
  obtain ⟨PH, PO, rfl, h1, h2⟩ := map_eq_append_iff.mp hl.symm
  have hspan := takeWhile_append_of (p := fun d : Stamped => d.1.head) (l := PH) (r := PO)
    (fun d hd => h.head_items _ (h1 ▸ mem_map_of_mem hd))
    (fun d hd => h.other_items _ (h2 ▸ mem_map_of_mem hd))
  exact ⟨PH, PO, rfl, h1.symm, h2.symm, hspan.1, hspan.2⟩

theorem enqueue_ordinary {F B : List QEntry} (h : Cut H (F ++ B)) {l : List Stamped}
    (hl : items (H ++ (F ++ B)) = l.map fst) {d : Stamped} (hd : d.1.head = false)
    (hF : ∀ e ∈ F, d.1.priority.toNat ≤ qprio e) (hB : ∀ e ∈ B, qprio e < d.1.priority.toNat) :
    (enqueue d l).map fst = items (H ++ F) ++ d.1 :: items B := by
  obtain ⟨PH, PO, rfl, h1, h2, h3, h4⟩ := h.pending hl
  rw [items_append] at h2
  obtain ⟨PF, PB, rfl, h5, h6⟩ := map_eq_append_iff.mp h2.symm
  have hcut : insertGE (fun d : Stamped => d.1.priority.toNat) d (PF ++ PB) = PF ++ d :: PB := by
    apply insertGE_append
    · intro f hf
      obtain ⟨e, he, hi⟩ := mem_items (h5 ▸ mem_map_of_mem hf)
      have := hF e he
      rwa [qprio, ← item_priority, ← hi] at this
    · intro f hf
      obtain ⟨e, he, hi⟩ := mem_items (h6 ▸ mem_map_of_mem hf)
      have := hB e he
      rwa [qprio, ← item_priority, ← hi] at this
  unfold enqueue
  rw [h3, h4, hd, if_neg Bool.false_ne_true, hcut]
  simp [h1, h5, h6]

theorem enqueue_head (h : Cut H O) {l : List Stamped} (hl : items (H ++ O) = l.map fst)
    {d : Stamped} (hd : d.1.head = true) :
    (enqueue d l).map fst = items H ++ d.1 :: items O := by
  obtain ⟨PH, PO, rfl, h1, h2, h3, h4⟩ := h.pending hl
  unfold enqueue
  rw [h3, h4, hd]
  simp [h1, h2]

end Cut

theorem head_false_of_dropWhile {l : List Stamped} (h : l.Pairwise Before) :
    ∀ f ∈ l.dropWhile (·.1.head), f.1.head = false := by
  induction l with
  | nil => simp
  | cons c l ih =>
    obtain ⟨hc, hl⟩ := pairwise_cons.mp h
    cases hh : c.1.head with
    | true =>
      rw [dropWhile_cons, if_pos hh]
      exact ih hl
    | false =>
      rw [dropWhile_cons, if_neg (by simp [hh])]
      refine forall_mem_cons.mpr ⟨hh, ?_⟩
      intro f hf
      have := hc f hf
      cases hf' : f.1.head with
      | false => rfl
      | true => simp [Before, hh, hf'] at this

theorem enqueue_before {l : List Stamped} {d : Stamped} (h : l.Pairwise Before)
    (hd : ∀ f ∈ l, f.2 < d.2) : (enqueue d l).Pairwise Before := by
  have hhead : ∀ f ∈ l.takeWhile (·.1.head), f.1.head = true := by
    intro f hf
    simpa using mem_takeWhile_imp hf
  have hrest := head_false_of_dropWhile h
  have hsplit := takeWhile_append_dropWhile (p := fun d : Stamped => d.1.head) (l := l)
  obtain ⟨A, hA⟩ : ∃ A, A = l.takeWhile (·.1.head) := ⟨_, rfl⟩
  obtain ⟨B, hB⟩ : ∃ B, B = l.dropWhile (·.1.head) := ⟨_, rfl⟩
  rw [← hA] at hhead
  rw [← hB] at hrest
  rw [← hA, ← hB] at hsplit
  unfold enqueue
  rw [← hA, ← hB]
  subst hsplit
  obtain ⟨hpA, hpB, hAB⟩ := pairwise_append.mp h
  cases hdh : d.1.head with
  | true =>
    refine pairwise_append.mpr ⟨hpA, pairwise_cons.mpr ⟨?_, hpB⟩, ?_⟩
    · intro f hf
      simp [Before, hdh, hrest f hf]
    · intro f hf
      refine forall_mem_cons.mpr ⟨?_, hAB f hf⟩
      simpa [Before, hdh, hhead f hf] using hd f (mem_append_left _ hf)
  | false =>
    rw [if_neg Bool.false_ne_true]
    have hord : Ordered (fun d : Stamped => d.1.priority.toNat) B := by
      refine hpB.imp_of_mem ?_
      intro f g hf hg hb
      simp only [Before, hrest f hf, hrest g hg] at hb
      rcases hb with hb | hb
      · exact hb.le
      · exact (congrArg BitVec.toNat hb.1).le
    obtain ⟨hT, hD⟩ := hord.takeWhile_dropWhile d.1.priority.toNat
    have hsplit := takeWhile_append_dropWhile
      (p := fun f : Stamped => decide (d.1.priority.toNat ≤ f.1.priority.toNat)) (l := B)
    obtain ⟨T, hTe⟩ : ∃ T, T = B.takeWhile
      (fun f => decide (d.1.priority.toNat ≤ f.1.priority.toNat)) := ⟨_, rfl⟩
    rw [← hsplit, insertGE_append hT hD]
    rw [← hsplit] at hpB hAB hrest hd
    obtain ⟨hpT, hpD, hTD⟩ := pairwise_append.mp hpB
    refine pairwise_append.mpr ⟨hpA, pairwise_append.mpr ⟨hpT, pairwise_cons.mpr ⟨?_, hpD⟩, ?_⟩, ?_⟩
    · intro f hf
      simp only [Before, hdh, hrest f (mem_append_right _ hf)]
      exact .inl (hD f hf)
    · intro f hf
      refine forall_mem_cons.mpr ⟨?_, hTD f hf⟩
      have hle := hT f hf
      have hlt := hd f (mem_append_right _ (mem_append_left _ hf))
      simp only [Before, hdh, hrest f (mem_append_left _ hf)]
      rcases Nat.lt_or_eq_of_le hle with hc | hc
      · exact .inl hc
      · exact .inr ⟨BitVec.eq_of_toNat_eq hc, hlt⟩
    · intro f hf g hg
      rcases mem_append.mp hg with hg | hg
      · exact hAB f hf g (mem_append_left _ hg)
      rcases mem_cons.mp hg with rfl | hg
      · simp [Before, hdh, hhead f hf]
      · exact hAB f hf g (mem_append_right _ hg)

end Qnx.Ker
