import Qnx.Ker.PulseQueue

/-!
# Runs of the send queue

Each operation keeps the cut of the queue and does to the pending deliveries what it should.
-/

namespace Qnx.Ker

open PriQueue Run List Function Option Prod
open QEntry (isPulse item afterReceive)

variable {q q' H O : List QEntry} {e : QEntry} {a : PulseArgs} {l : List Stamped} {n : Nat}

theorem Cut.span (h : Cut H O) : (H ++ O).takeWhile (·.count = pulseCountHead) = H ∧
    (H ++ O).dropWhile (·.count = pulseCountHead) = O := by
  refine takeWhile_append_of ?_ ?_
  · intro e he
    exact decide_eq_true (h.heads e he)
  · intro e he
    exact decide_eq_false (h.others e he)

theorem Cut.insert {F B : List QEntry} (h : Cut H (F ++ B)) (hc : e.count ≠ pulseCountHead)
    (he : e.Queued) (hF : ∀ f ∈ F, qprio e ≤ qprio f) (hB : ∀ f ∈ B, qprio f < qprio e) :
    Cut H (F ++ e :: B) := by
  refine ⟨h.heads, ?_, ?_, ?_⟩
  · intro f hf
    rcases mem_append.mp hf with hf | hf
    · exact h.others f (mem_append_left _ hf)
    rcases mem_cons.mp hf with rfl | hf
    · exact hc
    · exact h.others f (mem_append_right _ hf)
  · intro f hf
    have hq := h.queued f
    simp only [mem_append, mem_cons] at hf hq
    rcases hf with hf | hf | rfl | hf
    · exact hq (.inl hf)
    · exact hq (.inr (.inl hf))
    · exact he
    · exact hq (.inr (.inr hf))
  · rw [← insertGE_append hF hB]
    exact h.ordered.insertGE e

theorem Cut.replace {F B : List QEntry} {f : QEntry} (h : Cut H (F ++ e :: B))
    (hc : f.count ≠ pulseCountHead) (hq : f.Queued) (hp : f.priority = e.priority) :
    Cut H (F ++ f :: B) := by
  have hmem : ∀ g ∈ F ++ f :: B, g = f ∨ g ∈ F ++ e :: B := by
    intro g hg
    simp only [mem_append, mem_cons] at hg ⊢
    tauto
  refine ⟨h.heads, ?_, ?_, h.ordered.congr (by simp [qprio, hp])⟩
  · intro g hg
    rcases hmem g hg with rfl | hg
    · exact hc
    · exact h.others g hg
  · intro g hg
    rcases mem_append.mp hg with hg | hg
    · exact h.queued g (mem_append_left _ hg)
    rcases hmem g hg with rfl | hg
    · exact hq
    · exact h.queued g (mem_append_right _ hg)

theorem isPulse_iff : e.isPulse = true ↔ e.type = .pulse ∨ e.type = .vpulse := by
  simp [isPulse]

section

variable (h : e.isPulse = true)
include h

theorem item_of_isPulse : e.item =
    .pulse (decide (e.count = pulseCountHead)) e.type e.priority e.code e.value e.id := by
  unfold item
  rcases isPulse_iff.mp h with ht | ht <;> rw [ht]

theorem items_of_isPulse : e.items =
    if e.count = pulseCountHead then [e.item] else List.replicate e.count.toNat e.item := by
  unfold QEntry.items
  rcases isPulse_iff.mp h with ht | ht <;> rw [ht]

theorem queued_of_isPulse : e.Queued ↔ e.count ≠ 0 := by
  unfold QEntry.Queued
  rcases isPulse_iff.mp h with ht | ht <;> rw [ht]

end

theorem QEntry.Queued.thread (h : e.Queued) (hp : e.isPulse = false) :
    ∃ thp, e.type = .thread thp := by
  unfold QEntry.Queued at h
  unfold isPulse at hp
  cases ht : e.type <;> simp_all

theorem PulseArgs.entry_count : a.entry.count = if a.head then pulseCountHead else 1 := rfl

section

variable (ha : a.type ≠ .signal)
include ha

theorem PulseArgs.entry_isPulse : a.entry.isPulse = true := by
  rw [isPulse_iff]
  show a.type = _ ∨ a.type = _
  unfold PulseArgs.type at *
  split
  · exact .inr rfl
  split
  · simp_all
  · exact .inl rfl

theorem PulseArgs.entry_items : a.entry.items = [a.item] := by
  rw [items_of_isPulse (entry_isPulse ha), entry_count]
  cases a.head <;> rfl

theorem PulseArgs.entry_queued : a.entry.Queued := by
  rw [queued_of_isPulse (entry_isPulse ha), entry_count]
  cases a.head <;> decide

theorem PulseArgs.item_head : a.item.head = a.head := by
  rw [PulseArgs.item, item_of_isPulse (entry_isPulse ha), entry_count]
  cases a.head <;> rfl

end

theorem PulseArgs.item_priority : a.item.priority = a.prio := Ker.item_priority

theorem toNat_count_succ (hne : e.count ≠ pulseCountHead) :
    (e.count + 1).toNat = e.count.toNat + 1 := by
  have hne' : e.count.toNat ≠ 0xffffffff := fun h => hne (BitVec.eq_of_toNat_eq h)
  show (e.count.toNat + 1) % 2 ^ 32 = _
  omega

theorem count_succ_ne (hmax : e.count ≠ pulseCountMax) (hne : e.count ≠ pulseCountHead) :
    e.count + 1 ≠ pulseCountHead ∧ e.count + 1 ≠ 0 := by
  have hadd := toNat_count_succ hne
  have hmax' : e.count.toNat ≠ 0xfffffffe := fun h => hmax (BitVec.eq_of_toNat_eq h)
  have hhead : pulseCountHead.toNat = 0xffffffff := rfl
  constructor
  · intro h
    have := congrArg BitVec.toNat h
    omega
  · intro h
    have := congrArg BitVec.toNat h
    simp at this
    omega

theorem items_counted (ha : a.type ≠ .signal) (hhead : a.head = false) (hsame : a.Same e)
    (htype : e.type = a.type) (hmax : e.count ≠ pulseCountMax) (hne : e.count ≠ pulseCountHead) :
    ({ e with count := e.count + 1 } : QEntry).items = e.items ++ [a.item] := by
  obtain ⟨h1, h2, h3, h4⟩ := hsame
  have hp : e.isPulse = true := by
    have := isPulse_iff.mp (PulseArgs.entry_isPulse ha)
    rw [isPulse_iff, htype]
    exact this
  obtain ⟨f, hf⟩ : ∃ f : QEntry, f = { e with count := e.count + 1 } := ⟨_, rfl⟩
  have hfp : f.isPulse = true := hf ▸ hp
  have hfc : f.count = e.count + 1 := by rw [hf]
  have hne1 : f.count ≠ pulseCountHead := hfc ▸ (count_succ_ne hmax hne).1
  have hitem : e.item = a.item := by
    have hone : ¬ a.entry.count = pulseCountHead := by
      rw [PulseArgs.entry_count, hhead]
      decide
    rw [PulseArgs.item, item_of_isPulse hp, item_of_isPulse (PulseArgs.entry_isPulse ha),
      decide_eq_false hne, decide_eq_false hone, htype, h1, h2, h3, h4]
    rfl
  have hitem1 : f.item = e.item := by
    rw [item_of_isPulse hfp, item_of_isPulse hp, decide_eq_false hne1, decide_eq_false hne, hf]
  rw [← hf, items_of_isPulse hfp, if_neg hne1, items_of_isPulse hp, if_neg hne, hitem1, hfc,
    toNat_count_succ hne, replicate_succ', hitem]

theorem pulseAdd_cases {front back : List QEntry} {alloc : Bool}
    (hip : insertionPoint q a = (front, back)) (hadd : Ker.pulseAdd q a alloc = some q') :
    q' = front ++ a.entry :: back ∨
    ∃ init prev, front = init ++ [prev] ∧ (a.Same prev ∧ prev.count ≠ pulseCountMax ∧
      prev.count ≠ pulseCountHead) ∧ q' = init ++ { prev with count := prev.count + 1 } :: back := by
  have hfresh : (if alloc then some (front ++ a.entry :: back) else none) = some q' →
      q' = front ++ a.entry :: back := by
    intro h
    cases alloc with
    | false => cases h
    | true => exact (some.inj h).symm
  unfold Ker.pulseAdd at hadd
  rw [hip] at hadd
  dsimp only at hadd
  split at hadd
  · exact .inl (hfresh hadd)
  rename_i prev hprev
  split at hadd
  · rename_i hc
    refine .inr ⟨front.dropLast, prev, ?_, hc, (some.inj hadd).symm⟩
    exact (dropLast_append_getLast? prev hprev).symm
  · exact .inl (hfresh hadd)

theorem afterReceive_cases (h : e.Queued) : e.afterReceive = [] ∨
    e.count ≠ pulseCountHead ∧ ∃ f, e.afterReceive = [f] ∧ f.count ≠ pulseCountHead ∧ f.Queued ∧
      f.priority = e.priority := by
  unfold afterReceive
  split
  · rename_i hp
    split
    · exact .inl rfl
    rename_i hc
    obtain ⟨h1, h2⟩ := not_or.mp hc
    refine .inr ⟨h1, _, rfl, ?_, ?_, rfl⟩
    · intro he
      have hz := (queued_of_isPulse hp).mp h
      have : e.count = pulseCountHead + 1 := by rw [← he, BitVec.sub_add_cancel]
      exact hz (this.trans (by decide))
    · exact (queued_of_isPulse (e := { e with count := e.count - 1 }) hp).mpr h2
  · exact .inl rfl

section

variable (h : Cut H O)
include h

theorem Cut.insertionPoint_head (hh : a.head = true) : insertionPoint (H ++ O) a = (H, O) := by
  unfold insertionPoint
  rw [h.span.1, h.span.2, if_pos hh]

theorem Cut.insertionPoint_ordinary (hh : a.head = false) :
    ∃ F B, O = F ++ B ∧ insertionPoint (H ++ O) a = (H ++ F, B) ∧
      (∀ f ∈ F, a.prio.toNat ≤ qprio f) ∧ ∀ f ∈ B, qprio f < a.prio.toNat := by
  obtain ⟨hF, hB⟩ := h.ordered.takeWhile_dropWhile a.prio.toNat
  refine ⟨_, _, takeWhile_append_dropWhile.symm, ?_, hF, hB⟩
  unfold insertionPoint
  rw [h.span.1, h.span.2, hh]
  rfl

theorem Cut.pulseAdd (ha : a.type ≠ .signal)
    (hsame : a.head = false → ∀ e ∈ H ++ O, a.Same e → e.type = a.type) {alloc : Bool}
    (hadd : Ker.pulseAdd (H ++ O) a alloc = some q') :
    (∃ H' O', q' = H' ++ O' ∧ Cut H' O') ∧ ∃ A B, items (H ++ O) = A ++ B ∧
      items q' = A ++ a.item :: B ∧ ∀ (l : List Stamped) (n : Nat), items (H ++ O) = l.map fst →
          (enqueue (a.item, n) l).map fst = A ++ a.item :: B := by
  have hitems := PulseArgs.entry_items ha
  cases hh : a.head with
  | true =>
    have hitem : a.item.head = true := by rw [PulseArgs.item_head ha, hh]
    have hcount : a.entry.count = pulseCountHead := by rw [PulseArgs.entry_count, hh]; rfl
    rcases pulseAdd_cases (h.insertionPoint_head hh) hadd with rfl | ⟨init, prev, rfl, hc, -⟩
    · refine ⟨⟨H ++ [a.entry], O, by simp, ?_, h.others, ?_, h.ordered⟩, items H, items O,
        items_append _ _, by simp [hitems], fun l n hl => h.enqueue_head hl hitem⟩
      · exact forall_mem_append.mpr ⟨h.heads, fun _ he => mem_singleton.mp he ▸ hcount⟩
      · intro e he
        have hq := h.queued e
        simp only [mem_append, mem_singleton] at he hq
        rcases he with (he | rfl) | he
        · exact hq (.inl he)
        · exact PulseArgs.entry_queued ha
        · exact hq (.inr he)
    · exact absurd (h.heads prev (by simp)) hc.2.2
  | false =>
    have hitem : a.item.head = false := by rw [PulseArgs.item_head ha, hh]
    have hcount : a.entry.count ≠ pulseCountHead := by
      rw [PulseArgs.entry_count, hh]
      decide
    obtain ⟨F, B, rfl, hip, hF, hB⟩ := h.insertionPoint_ordinary hh
    have henq : ∀ (l : List Stamped) (n : Nat), items (H ++ (F ++ B)) = l.map fst →
        (enqueue (a.item, n) l).map fst = items (H ++ F) ++ a.item :: items B :=
      fun l n hl => h.enqueue_ordinary hl hitem (by simpa [PulseArgs.item_priority] using hF)
        (by simpa [PulseArgs.item_priority] using hB)
    refine ⟨?_, items (H ++ F), items B, by simp, ?_, henq⟩
    all_goals rcases pulseAdd_cases hip hadd with rfl | ⟨init, prev, hfront, hc, rfl⟩
    · exact ⟨H, F ++ a.entry :: B, by simp, h.insert hcount (PulseArgs.entry_queued ha) hF hB⟩
    · -- only an entry of `F` can be counted
      obtain rfl | ⟨F', f, rfl⟩ := eq_nil_or_concat' F
      · rw [append_nil] at hfront
        exact absurd (h.heads prev (by simp [hfront])) hc.2.2
      rw [← append_assoc] at hfront
      obtain ⟨rfl, hf⟩ := append_inj' hfront rfl
      obtain rfl : f = prev := by simpa using hf
      have hne := count_succ_ne hc.2.1 hc.2.2
      have htype := hsame hh f (by simp) hc.1
      have hp : f.isPulse = true := by
        rw [isPulse_iff, htype]
        exact isPulse_iff.mp (PulseArgs.entry_isPulse ha)
      refine ⟨H, F' ++ { f with count := f.count + 1 } :: B, by simp, ?_⟩
      rw [append_assoc] at h
      exact h.replace hne.1
        ((queued_of_isPulse (e := { f with count := f.count + 1 }) hp).mpr hne.2) rfl
    · simp [hitems]
    · have hprev : prev ∈ H ++ (F ++ B) := by
        rw [← append_assoc, hfront]
        simp
      rw [hfront, items_append, items_cons,
        items_counted ha hh hc.1 (hsame hh prev hprev hc.1) hc.2.1 hc.2.2]
      simp

theorem Cut.send (hc : e.count ≠ pulseCountHead) (hq : e.Queued)
    (hp : e.isPulse = false) (hH : ∀ f ∈ H, qprio e ≤ qprio f) :
    (∃ O', link2Pri (H ++ O) e = H ++ O' ∧ Cut H O') ∧ ∀ (l : List Stamped) (n : Nat),
      items (H ++ O) = l.map fst →
        items (link2Pri (H ++ O) e) = (enqueue (e.item, n) l).map fst := by
  obtain ⟨hF, hB⟩ := h.ordered.takeWhile_dropWhile (qprio e)
  have hO := takeWhile_append_dropWhile (p := fun f => decide (qprio e ≤ qprio f)) (l := O)
  obtain ⟨F, hFe⟩ : ∃ F, F = O.takeWhile (qprio e ≤ qprio ·) := ⟨_, rfl⟩
  obtain ⟨B, hBe⟩ : ∃ B, B = O.dropWhile (qprio e ≤ qprio ·) := ⟨_, rfl⟩
  rw [← hFe] at hF
  rw [← hBe] at hB
  rw [← hFe, ← hBe] at hO
  subst hO
  have hlink : link2Pri (H ++ (F ++ B)) e = H ++ (F ++ e :: B) := by
    show insertGE qprio e _ = _
    rw [insertGE_append_left hH, insertGE_append hF hB]
  obtain ⟨thp, ht⟩ := hq.thread hp
  have hitems : e.items = [e.item] := by
    unfold QEntry.items
    rw [ht]
  refine ⟨⟨_, hlink, h.insert hc hq hF hB⟩, ?_⟩
  intro l n hl
  have hhead : e.item.head = false := by
    rw [item_head hq]
    exact decide_eq_false hc
  have hprio : e.item.priority.toNat = qprio e := by rw [item_priority, qprio]
  rw [hlink, h.enqueue_ordinary hl (d := (e.item, n)) hhead (fun f hf => hprio ▸ hF f hf)
    (fun f hf => hprio ▸ hB f hf)]
  simp [hitems]

theorem Cut.take {L R : List QEntry} (hq : H ++ O = L ++ e :: R) :
    ∃ H' O', L ++ (e.afterReceive ++ R) = H' ++ O' ∧ Cut H' O' := by
  have hqe := h.queued e (by simp [hq])
  have hsub : ∀ {H' O'}, H'.Sublist H → O'.Sublist O → Cut H' O' := by
    intro H' O' h1 h2
    exact ⟨fun f hf => h.heads f (h1.subset hf), fun f hf => h.others f (h2.subset hf),
      fun f hf => h.queued f ((h1.append h2).subset hf), h.ordered.sublist h2⟩
  rcases append_eq_append_iff.mp hq with ⟨F, rfl, rfl⟩ | ⟨F, rfl, hR⟩
  · rcases afterReceive_cases hqe with he | ⟨-, f, he, h1, h2, h3⟩
    · rw [he]
      refine ⟨H, F ++ R, by simp, hsub (.refl _) ?_⟩
      exact (Sublist.refl F).append (sublist_cons_self _ _)
    · rw [he]
      exact ⟨H, F ++ f :: R, by simp, h.replace h1 h2 h3⟩
  cases F with
  | nil =>
    subst hR
    rw [append_nil] at *
    rcases afterReceive_cases hqe with he | ⟨-, f, he, h1, h2, h3⟩
    · rw [he]
      exact ⟨L, R, rfl, hsub (.refl _) (sublist_cons_self _ _)⟩
    · rw [he]
      exact ⟨L, f :: R, rfl, h.replace (F := []) h1 h2 h3⟩
  | cons g F =>
    obtain ⟨rfl, rfl⟩ : e = g ∧ R = F ++ O := by simpa using hR
    have hhead := h.heads e (by simp)
    rcases afterReceive_cases hqe with he | ⟨hne, -⟩
    · rw [he]
      refine ⟨L ++ F, O, by simp, hsub ?_ (.refl _)⟩
      exact (Sublist.refl L).append (sublist_cons_self _ _)
    · exact absurd hhead hne

end

theorem items_afterReceive (h : e.Queued) : e.items = e.item :: items e.afterReceive := by
  unfold afterReceive
  cases hp : e.isPulse with
  | false =>
    obtain ⟨thp, ht⟩ := h.thread hp
    unfold QEntry.items
    rw [ht]
    rfl
  | true =>
    have hz := (queued_of_isPulse hp).mp h
    rw [if_pos rfl, items_of_isPulse hp]
    by_cases hh : e.count = pulseCountHead
    · rw [if_pos hh, if_pos (.inl hh)]
      rfl
    have hpos : 0 < e.count.toNat := by
      rcases Nat.eq_zero_or_pos e.count.toNat with h0 | h0
      · exact absurd (BitVec.eq_of_toNat_eq h0) hz
      · exact h0
    have hsub : (e.count - 1).toNat = e.count.toNat - 1 := by
      show (2 ^ 32 - 1 + e.count.toNat) % 2 ^ 32 = _
      omega
    rw [if_neg hh]
    by_cases h1 : e.count - 1 = 0
    · have h1' : e.count.toNat - 1 = 0 := by rw [← hsub, h1]; rfl
      rw [if_pos (.inr h1), show e.count.toNat = 1 by omega]
      rfl
    rw [if_neg (not_or.mpr ⟨hh, h1⟩)]
    obtain ⟨f, hf⟩ : ∃ f : QEntry, f = { e with count := e.count - 1 } := ⟨_, rfl⟩
    have hfp : f.isPulse = true := hf ▸ hp
    have hfc : f.count.toNat = e.count.toNat - 1 := by rw [hf, ← hsub]
    have hfh : f.count ≠ pulseCountHead := by
      intro hc
      have := congrArg BitVec.toNat hc
      have hhead : pulseCountHead.toNat = 0xffffffff := rfl
      omega
    have hitem : f.item = e.item := by
      rw [item_of_isPulse hfp, item_of_isPulse hp, decide_eq_false hfh, decide_eq_false hh, hf]
    rw [← hf, items_cons, items_nil, append_nil, items_of_isPulse hfp, if_neg hfh, hitem,
      ← replicate_succ]
    congr 1
    omega

theorem receivePulse_eq {i : Item} (h : receivePulse q = some (i, q')) :
    ∃ L e R, q = L ++ e :: R ∧ (∀ f ∈ L, f.isPulse = false) ∧ e.isPulse = true ∧ i = e.item ∧
      q' = L ++ (e.afterReceive ++ R) := by
  induction q generalizing q' with
  | nil => cases h
  | cons e q ih =>
    unfold receivePulse at h
    split at h
    · rename_i hp
      cases h
      exact ⟨[], e, q, rfl, by simp, hp, rfl, rfl⟩
    rename_i hp
    cases hr : receivePulse q with
    | none => simp [hr] at h
    | some r =>
      obtain ⟨j, q1⟩ := r
      rw [hr] at h
      cases h
      obtain ⟨L, f, R, rfl, hL, hf, rfl, rfl⟩ := ih hr
      refine ⟨e :: L, f, R, rfl, ?_, hf, rfl, rfl⟩
      refine forall_mem_cons.mpr ⟨?_, hL⟩
      simpa using hp

theorem receivePulse_none (h : receivePulse q = none) : ∀ e ∈ q, e.isPulse = false := by
  induction q with
  | nil => simp
  | cons e q ih =>
    unfold receivePulse at h
    split at h
    · cases h
    rename_i hp
    have hq := map_eq_none_iff.mp h
    refine forall_mem_cons.mpr ⟨?_, ih hq⟩
    simpa using hp

theorem item_isPulse (h : e.Queued) : e.item.isPulse = e.isPulse := by
  cases hp : e.isPulse with
  | true =>
    rw [item_of_isPulse hp]
    rfl
  | false =>
    obtain ⟨thp, ht⟩ := h.thread hp
    unfold item
    rw [ht]
    rfl

theorem item_isThread (thp : Nat) : e.item.isThread thp = decide (e.type = .thread thp) := by
  unfold item
  split
  · rfl
  · rename_i hne
    exact (decide_eq_false (hne thp)).symm

theorem eraseP_pending {p : Item → Bool} {L R : List QEntry} (hqe : e.Queued)
    (hl : items (L ++ e :: R) = l.map fst) (hL : ∀ f ∈ L, p f.item = false)
    (he : p e.item = true) :
    items (L ++ (e.afterReceive ++ R)) = (l.eraseP (p ·.1)).map fst ∧
      (l.find? (p ·.1)).map fst = some e.item := by
  have hL' : ∀ i ∈ items L, ¬ p i = true := by
    intro i hi
    obtain ⟨f, hf, rfl⟩ := mem_items hi
    simp [hL f hf]
  have hitems : items (L ++ e :: R) = items L ++ e.item :: items (e.afterReceive ++ R) := by
    simp [items_afterReceive hqe]
  constructor
  · rw [← comp_def p, ← eraseP_map, ← hl, hitems, eraseP_append_right _ hL',
      eraseP_cons_of_pos he, items_append]
  · rw [← comp_def p, ← find?_map, ← hl, hitems, find?_append,
      find?_eq_none.mpr hL', none_or, find?_cons_of_pos he]

namespace PulseRun

structure Inv (r : PulseRun) : Prop extends Disciplined r where
  cut : ∃ H O, r.queue = H ++ O ∧ Cut H O
  past : ∀ d ∈ r.pending, d.2 < r.clock

variable {r r' : PulseRun}

section

variable (h : Inv r)
include h

theorem Inv.queued (he : e ∈ r.queue) : e.Queued := by
  obtain ⟨H, O, hq, hc⟩ := h.cut
  exact hc.queued e (hq ▸ he)

theorem Inv.enqueue {i : Item} (hcut : ∃ H O, q = H ++ O ∧ Cut H O)
    (hi : Ker.items q = (enqueue (i, r.clock) r.pending).map fst) :
    Inv ⟨q, enqueue (i, r.clock) r.pending, r.clock + 1⟩ := by
  refine ⟨⟨hi, enqueue_before h.ordered h.past⟩, hcut, ?_⟩
  intro d hd
  have hmem : d = (i, r.clock) ∨ d ∈ r.pending := by
    have hperm : (Ker.enqueue (i, r.clock) r.pending).Perm ((i, r.clock) :: r.pending) := by
      unfold Ker.enqueue
      split
      · refine perm_middle.trans ?_
        rw [takeWhile_append_dropWhile]
      · refine ((perm_insertGE _ _ _).append_left _).trans (perm_middle.trans ?_)
        rw [takeWhile_append_dropWhile]
    exact mem_cons.mp (hperm.mem_iff.mp hd)
  rcases hmem with rfl | hd
  · exact Nat.lt_succ_self _
  · exact Nat.lt_succ_of_lt (h.past d hd)

theorem Inv.sublist (hcut : ∃ H O, q = H ++ O ∧ Cut H O)
    (hs : l.Sublist r.pending) (hi : Ker.items q = l.map fst) : Inv ⟨q, l, r.clock⟩ :=
  ⟨⟨hi, h.ordered.sublist hs⟩, hcut, fun d hd => h.past d (hs.subset hd)⟩

theorem Inv.take {p : Item → Bool} {L R : List QEntry} (hq : r.queue = L ++ e :: R)
    (hL : ∀ f ∈ L, p f.item = false) (he : p e.item = true) :
    Inv ⟨L ++ (e.afterReceive ++ R), r.pending.eraseP (p ·.1), r.clock⟩ := by
  obtain ⟨H, O, hHO, hc⟩ := h.cut
  have hqe := h.queued (e := e) (by simp [hq])
  exact h.sublist (hc.take (hHO.symm.trans hq)) eraseP_sublist
    (eraseP_pending hqe (hq ▸ h.items) hL he).1

theorem Inv.receive (hs : r.step .receive = some r') : Inv r' := by
  cases hq : r.queue with
  | nil =>
    simp only [step, hq] at hs
    cases hs
    exact h
  | cons e q =>
    simp only [step, hq] at hs
    cases hs
    obtain ⟨H, O, hHO, hc⟩ := h.cut
    have hi := h.items
    rw [hq, items_cons, items_afterReceive (h.queued (by simp [hq]))] at hi
    refine h.sublist (hc.take (L := []) (hHO.symm.trans hq)) (tail_sublist _) ?_
    rw [map_tail, ← hi]
    simp

theorem Inv.receivePulse (hs : r.step .receivePulse = some r') : Inv r' := by
  simp only [step] at hs
  split at hs
  · cases hs
    exact h
  rename_i i q hr
  cases hs
  obtain ⟨L, e, R, hq, hL, he, -, rfl⟩ := receivePulse_eq hr
  refine h.take hq ?_ ?_
  · intro f hf
    rw [item_isPulse (h.queued (by simp [hq, hf])), hL f hf]
  · rw [item_isPulse (h.queued (by simp [hq])), he]

theorem Inv.forceReady {thp : Nat} (hs : r.step (.forceReady thp) = some r') : Inv r' := by
  simp only [step, unqueue] at hs
  cases hs
  by_cases hex : ∃ e ∈ r.queue, e.type = .thread thp
  · obtain ⟨e, hem, het⟩ := hex
    obtain ⟨e, L, R, hL, he, hq, herase⟩ := exists_of_eraseP
      (p := fun e : QEntry => decide (e.type = .thread thp)) hem (decide_eq_true het)
    have hp : e.isPulse = false := by
      have : e.type = .thread thp := by simpa using he
      simp [isPulse, this]
    have hafter : e.afterReceive = [] := by simp [afterReceive, hp]
    have := h.take (p := Item.isThread thp) hq
      (fun f hf => by rw [item_isThread]; simpa using hL f hf) (by rw [item_isThread]; exact he)
    rw [hafter] at this
    rw [herase]
    exact this
  have hnone : ∀ d ∈ r.pending, ¬ d.1.isThread thp = true := by
    intro d hd hc
    obtain ⟨e, he, hi⟩ := mem_items (h.items ▸ mem_map_of_mem hd)
    rw [hi, item_isThread] at hc
    exact hex ⟨e, he, of_decide_eq_true hc⟩
  rw [eraseP_of_forall_not (by simpa using hex), eraseP_of_forall_not hnone]
  exact h

theorem Inv.send (he : r.Entry (.send e)) (ha : r.Apart (.send e))
    (hs : r.step (.send e) = some r') : Inv r' := by
  cases hs
  obtain ⟨H, O, hHO, hc⟩ := h.cut
  obtain ⟨thp, ht⟩ : ∃ thp, e.type = .thread thp := by
    have := he.1
    unfold QEntry.isThread at this
    cases ht : e.type <;> simp_all
  have hq : e.Queued := by
    unfold QEntry.Queued
    rw [ht]
    exact ha.1
  have hp : e.isPulse = false := by simp [isPulse, ht]
  obtain ⟨⟨O', hlink, hcut⟩, hi⟩ := hc.send ha.1 hq hp fun f hf =>
    ha.2 f (by simp [hHO, hf]) (hc.heads f hf)
  rw [← hHO] at hlink hi
  exact h.enqueue ⟨H, O', hlink, hcut⟩ (hi _ _ h.items)

theorem Inv.pulseAdd_eq {alloc : Bool} (he : r.Entry (.pulseAdd a alloc))
    (ha : r.Apart (.pulseAdd a alloc)) (hadd : Ker.pulseAdd r.queue a alloc = some q') :
    (∃ H O, q' = H ++ O ∧ Cut H O) ∧ ∃ A B, Ker.items r.queue = A ++ B ∧
      Ker.items q' = A ++ a.item :: B ∧
        (Ker.enqueue (a.item, r.clock) r.pending).map fst = A ++ a.item :: B := by
  obtain ⟨H, O, hHO, hc⟩ := h.cut
  obtain ⟨hcut, A, B, h1, h2, h3⟩ := hc.pulseAdd he (hHO ▸ ha) (hHO ▸ hadd)
  exact ⟨hcut, A, B, by rw [hHO, h1], h2, h3 _ _ (hHO ▸ h.items)⟩

theorem inv_step {o : Op} (he : r.Entry o) (ha : r.Apart o) (hs : r.step o = some r') : Inv r' := by
  cases o with
  | pulseAdd a alloc =>
    simp only [step] at hs
    split at hs
    · cases hs
      exact h
    rename_i q' hadd
    cases hs
    obtain ⟨hcut, A, B, -, h2, h3⟩ := h.pulseAdd_eq he ha hadd
    exact h.enqueue hcut (h2.trans h3.symm)
  | send e => exact h.send he ha hs
  | receive => exact h.receive hs
  | receivePulse => exact h.receivePulse hs
  | forceReady thp => exact h.forceReady hs

end

section

variable (h : Reach Init (fun r o => r.Entry o ∧ r.Apart o) step r)
include h

theorem reach_inv : Inv r := by
  refine h.invariant ?_ ?_
  · rintro s rfl
    refine ⟨⟨rfl, Pairwise.nil⟩, ⟨[], [], rfl, ?_⟩, by simp⟩
    exact ⟨by simp, by simp, by simp, Pairwise.nil⟩
  · intro s o s' hi ho hs
    exact inv_step hi ho.1 ho.2 hs

/-- Each pulse taken in is one more delivery and leaves the threads as they are; deliveries are
received in the order in which they should be. -/
theorem pulses_in_order : r.Disciplined ∧
    (∀ a alloc q, r.Entry (.pulseAdd a alloc) → r.Apart (.pulseAdd a alloc) →
      Ker.pulseAdd r.queue a alloc = some q → (items q).length = (items r.queue).length + 1 ∧
        (items q).filter (!·.isPulse) = (items r.queue).filter (!·.isPulse)) ∧
    (∀ i q, Ker.receive r.queue = some (i, q) → r.pending.head?.map fst = some i) ∧
    ∀ i q, Ker.receivePulse r.queue = some (i, q) →
      (r.pending.find? (·.1.isPulse)).map fst = some i := by
  have hi := reach_inv h
  refine ⟨hi.toDisciplined, ?_, ?_, ?_⟩
  · intro a alloc q he ha hadd
    obtain ⟨-, A, B, h1, h2, -⟩ := hi.pulseAdd_eq he ha hadd
    have hpulse : a.item.isPulse = true := by
      rw [PulseArgs.item, item_of_isPulse (PulseArgs.entry_isPulse he)]
      rfl
    rw [h1, h2]
    refine ⟨by simp; omega, by simp [hpulse]⟩
  · intro i q hr
    cases hq : r.queue with
    | nil => simp [hq, Ker.receive] at hr
    | cons e q₁ =>
      rw [hq] at hr
      cases hr
      rw [← head?_map, ← hi.items, hq, items_cons, items_afterReceive (hi.queued (by simp [hq]))]
      rfl
  · intro i q hr
    obtain ⟨L, e, R, hq, hL, he, rfl, rfl⟩ := receivePulse_eq hr
    refine (eraseP_pending (p := Item.isPulse) (hi.queued (by simp [hq])) (hq ▸ hi.items) ?_ ?_).2
    · intro f hf
      rw [item_isPulse (hi.queued (by simp [hq, hf])), hL f hf]
    · rw [item_isPulse (hi.queued (by simp [hq])), he]

end

instance (r : PulseRun) (o : Op) : Decidable (r.Entry o) := by
  cases o <;> unfold Entry <;> infer_instance

instance (r : PulseRun) (o : Op) : Decidable (r.Apart o) := by
  cases o <;> unfold Apart <;> infer_instance

/-- Thread `thp` as it is queued, with priority `prio` and the words `pulse_add` would compare. -/
def sender (thp : Nat) (prio : BitVec 8) (stamp : BitVec 32) : QEntry :=
  ⟨.thread thp, prio, 2, 4, stamp, 7⟩

theorem pulses_in_order_run : ∃ r, Reach Init (fun r o => r.Entry o ∧ r.Apart o) step r ∧
      (r.queue.length = 3 ∧ (items r.queue).length = 4 ∧ r.clock = 7) ∧ r.Disciplined := by
  have h0 : Reach Init (fun r o => r.Entry o ∧ r.Apart o) step ⟨[], [], 0⟩ := .init rfl
  obtain ⟨r, h, hq⟩ := h0.replay_any
    [.pulseAdd ⟨10, 1, 5, 9⟩ true, .send (sender 1 20 100), .pulseAdd ⟨0x401e, 2, 0, 0⟩ true,
      .pulseAdd ⟨10, 1, 5, 9⟩ true, .receive, .pulseAdd ⟨10, 1, 5, 9⟩ true, .send (sender 2 10 200),
      .receivePulse, .pulseAdd ⟨15, 1, 5, 9⟩ true, .forceReady 1, .pulseAdd ⟨10, 1, 5, 9⟩ false]
    (fun r => r.queue.length = 3 ∧ (items r.queue).length = 4 ∧ r.clock = 7) (by decide +kernel)
  exact ⟨r, h, of_decide_eq_true hq, (pulses_in_order h).1⟩

/-- A sender overtakes a `HEAD` pulse of lower priority; and a pulse that looks like a sender is
counted in the sender's time stamp. -/
theorem pulses_out_of_order :
    (∃ r, Reach Init Entry step r ∧ ∃ e f, r.queue = [e, f] ∧ e.isPulse = false ∧
      f.count = pulseCountHead ∧ ¬ r.Disciplined) ∧
    ∃ r, Reach Init Entry step r ∧ r.clock = 2 ∧ (items r.queue).length = 1 ∧
      r.queue ≠ [sender 1 20 100] ∧ ¬ r.Disciplined := by
  have h0 : Reach Init Entry step ⟨[], [], 0⟩ := .init rfl
  constructor
  · obtain ⟨r, h, hq⟩ := h0.replay_any [.pulseAdd ⟨0x400a, 2, 0, 0⟩ true, .send (sender 1 20 100)]
      (fun r => r = ⟨[sender 1 20 100, ⟨.pulse, 10, 2, 0, 0, pulseCountHead⟩],
        [(.pulse true .pulse 10 2 0 0, 0), (.thread (sender 1 20 100), 1)], 2⟩) (by decide +kernel)
    have hq := of_decide_eq_true hq
    subst hq
    refine ⟨_, h, _, _, rfl, rfl, rfl, ?_⟩
    intro hd
    exact absurd hd.items (by decide)
  · obtain ⟨r, h, hq⟩ := h0.replay_any [.send (sender 1 20 100), .pulseAdd ⟨20, 2, 4, 100⟩ true]
      (fun r => r = ⟨[{ sender 1 20 100 with count := 8 }],
        [(.thread (sender 1 20 100), 0), (.pulse false .pulse 20 2 4 100, 1)], 2⟩)
      (by decide +kernel)
    have hq := of_decide_eq_true hq
    subst hq
    refine ⟨_, h, rfl, rfl, by decide, ?_⟩
    intro hd
    exact absurd hd.items (by decide)

end PulseRun

end Qnx.Ker
