import Mathlib.Data.List.Perm.Basic
import Qnx.Iofunc.LockEdit

/-!
# Clients that are looked at again

After a lock or an unlock `reblock_pending_locks` puts the stripped clients back or grants what
they asked for, which may strip and grant further. `Grants` says what all of that can do.
-/

namespace Qnx.Iofunc

open List Prod

structure Cut (c start last : Nat) (l : List Entry) (e : Edit) : Prop where
  other : ∀ d t x, d ≠ c → (Covers e.list d t x ↔ Covers l d t x)
  sub : ∀ t x, Covers e.list c t x → Covers l c t x
  exact : e.status = .eok → ∀ t x, (Covers e.list c t x ↔ Covers l c t x ∧ ¬(start ≤ x ∧ x ≤ last))
  wf : (∀ cl ∈ l, cl.start ≤ cl.last) → ∀ cl ∈ e.list, cl.start ≤ cl.last
  blocked : ∀ cl ∈ e.list, cl.blocked ≠ [] → cl ∈ l
  waiters : (waiters e.list ++ e.pending).Perm (waiters l)
  pending : ∀ q ∈ e.pending, ∃ cl ∈ l, q ∈ cl.blocked ∧ cl.scoid = c

section CutCons
variable {c start last : Nat} {cl : Entry} {l : List Entry} {e : Edit}

theorem Cut.skip (h : Cut c start last l e)
    (hcl : cl.scoid ≠ c ∨ ¬overlap start last cl.start cl.last) (hw : cl.start ≤ cl.last) :
    Cut c start last (cl :: l) { e with list := cl :: e.list } where
  other d t x hd := by simp only [covers_cons, h.other d t x hd]
  sub t x hc := by
    simp only [covers_cons] at hc ⊢
    exact hc.imp_right (h.sub t x)
  exact hok t x := by
    simp only [covers_cons, h.exact hok t x]
    constructor
    · rintro (h1 | h1)
      · refine ⟨.inl h1, fun hx => ?_⟩
        rcases hcl with h2 | h2
        · exact h2 h1.1
        · unfold overlap at h2
          omega
      · exact ⟨.inr h1.1, h1.2⟩
    · rintro ⟨h1 | h1, h2⟩
      · exact .inl h1
      · exact .inr ⟨h1, h2⟩
  wf hwf p hp := by
    rcases mem_cons.mp hp with rfl | hp
    · exact hw
    · exact h.wf (forall_mem_cons.mp hwf).2 p hp
  blocked p hp hb := by
    rcases mem_cons.mp hp with rfl | hp
    · exact mem_cons_self
    · exact mem_cons_of_mem _ (h.blocked p hp hb)
  waiters := by
    simp only [waiters_cons, append_assoc]
    exact h.waiters.append_left _
  pending q hq := by
    obtain ⟨p, hp, h1⟩ := h.pending q hq
    exact ⟨p, mem_cons_of_mem _ hp, h1⟩

theorem Cut.pieces (h : Cut c start last l e) (hcl : cl.scoid = c) {q : List Entry}
    (hown : ∀ p ∈ q, p.scoid = c ∧ p.blocked = [] ∧ p.start ≤ p.last)
    (hcov : ∀ t x, Covers q c t x ↔
      (cl.type = t ∧ cl.start ≤ x ∧ x ≤ cl.last) ∧ ¬(start ≤ x ∧ x ≤ last)) :
    Cut c start last (cl :: l)
      { e with list := q ++ e.list, pending := cl.blocked ++ e.pending } where
  other d t x hd := by
    simp only [covers_append, covers_cons, h.other d t x hd,
      covers_of_ne (fun p hp => (hown p hp).1) hd, hcl, false_or]
    constructor
    · exact .inr
    · rintro (h1 | h1)
      · exact absurd h1.1.symm hd
      · exact h1
  sub t x hc := by
    simp only [covers_append, covers_cons] at hc ⊢
    rcases hc with hc | hc
    · exact .inl ⟨hcl, ((hcov t x).mp hc).1⟩
    · exact .inr (h.sub t x hc)
  exact hok t x := by
    simp only [covers_append, covers_cons, h.exact hok t x, hcov]
    tauto
  wf hwf p hp := by
    rcases mem_append.mp hp with hp | hp
    · exact (hown p hp).2.2
    · exact h.wf (forall_mem_cons.mp hwf).2 p hp
  blocked p hp hb := by
    rcases mem_append.mp hp with hp | hp
    · exact absurd (hown p hp).2.1 hb
    · exact mem_cons_of_mem _ (h.blocked p hp hb)
  waiters := by
    have hw : Iofunc.waiters q = [] := by
      unfold Iofunc.waiters
      rw [flatMap_eq_nil_iff]
      exact fun p hp => (hown p hp).2.1
    simp only [waiters_append, hw]
    calc Iofunc.waiters e.list ++ (cl.blocked ++ e.pending)
      _ = Iofunc.waiters e.list ++ cl.blocked ++ e.pending := (append_assoc _ _ _).symm
      _ ~ cl.blocked ++ Iofunc.waiters e.list ++ e.pending :=
        perm_append_comm.append_right _
      _ = cl.blocked ++ (Iofunc.waiters e.list ++ e.pending) := append_assoc _ _ _
      _ ~ cl.blocked ++ Iofunc.waiters l := h.waiters.append_left _
  pending q hq := by
    rcases mem_append.mp hq with hq | hq
    · exact ⟨cl, mem_cons_self, hq, hcl⟩
    · obtain ⟨p, hp, h1⟩ := h.pending q hq
      exact ⟨p, mem_cons_of_mem _ hp, h1⟩

end CutCons

variable {c start last : Nat} {l : List Entry} {s s1 s2 s' : LockSt} {n1 new : List (Req × Status)}
  {q r : Req} {e : Edit} {st : Status} {p : List Req}

theorem cut_failed {cl : Entry} {h : Heap} (hcl : cl.scoid = c) :
    Cut c start last (cl :: l) ⟨{ cl with blocked := [] } :: l, h, .einval, cl.blocked⟩ where
  other d t x hd := by simp only [covers_cons]
  sub t x hc := by simpa only [covers_cons] using hc
  exact hok := by cases hok
  wf hwf p hp := by
    rcases mem_cons.mp hp with rfl | hp
    · exact hwf cl mem_cons_self
    · exact hwf p (mem_cons_of_mem _ hp)
  blocked p hp hb := by
    rcases mem_cons.mp hp with rfl | hp
    · exact absurd rfl hb
    · exact mem_cons_of_mem _ hp
  waiters := by
    exact perm_append_comm
  pending q hq := ⟨cl, mem_cons_self, hq, hcl⟩

theorem unlockLoop_cut (hse : start ≤ last) (l : List Entry) (h : Heap)
    (hw : ∀ cl ∈ l, cl.start ≤ cl.last) :
    Cut c start last l (unlockLoop c start last l h) ∧ Fair h (unlockLoop c start last l h) := by
  induction l generalizing h with
  | nil =>
    refine ⟨?_, .refl h, fun _ => rfl⟩
    constructor <;> simp [unlockLoop]
  | cons cl l ih =>
    have hcw := hw cl mem_cons_self
    have ih := fun h => ih h (forall_mem_cons.mp hw).2
    unfold unlockLoop
    by_cases h0 : cl.scoid ≠ c ∨ ¬overlap start last cl.start cl.last
    · rw [if_pos h0]
      exact ⟨(ih h).1.skip h0 hcw, (ih h).2.later, (ih h).2.eok⟩
    rw [if_neg h0]
    simp only [not_or, not_not] at h0
    obtain ⟨hcl, ho⟩ := h0
    unfold overlap at ho
    by_cases h1 : start ≤ cl.start ∧ cl.last ≤ last
    · rw [if_pos h1]
      refine ⟨(ih h).1.pieces hcl (q := []) (by simp) fun t x => ?_, (ih h).2.later, (ih h).2.eok⟩
      simp only [covers_nil, false_iff]
      omega
    rw [if_neg h1]
    by_cases h2 : cl.start < start ∧ last < cl.last
    · rw [if_pos h2]
      rcases h.malloc_cases with ⟨h', hm, hl, hg⟩ | ⟨i, h', hm, hl⟩
      · rw [hm]
        exact ⟨cut_failed hcl, hl, fun hg' => absurd hg' hg⟩
      rw [hm]
      refine ⟨(ih h').1.pieces hcl (q := [{ cl with blocked := [], last := start - 1 },
        ⟨i, cl.scoid, cl.type, last + 1, cl.last, []⟩]) ?_ fun t x => ?_,
        hl.trans (ih h').2.later, fun hg => (ih h').2.eok (hl.gives hg)⟩
      · simp
        omega
      · simp only [covers_cons, covers_nil, or_false, hcl, true_and]
        rw [← and_or_left, and_assoc]
        refine and_congr_right fun _ => ?_
        omega
    rw [if_neg h2]
    by_cases h3 : start ≤ cl.start ∧ last < cl.last
    · rw [if_pos h3]
      refine ⟨(ih h).1.pieces hcl (q := [{ cl with blocked := [], start := last + 1 }]) ?_
        fun t x => ?_, (ih h).2.later, (ih h).2.eok⟩
      · simp
        omega
      · simp only [covers_cons, covers_nil, or_false, hcl, true_and]
        rw [and_assoc]
        refine and_congr_right fun _ => ?_
        omega
    rw [if_neg h3]
    refine ⟨(ih h).1.pieces hcl (q := [{ cl with blocked := [], last := start - 1 }]) ?_
      fun t x => ?_, (ih h).2.later, (ih h).2.eok⟩
    · simp
      omega
    · simp only [covers_cons, covers_nil, or_false, hcl, true_and]
      rw [and_assoc]
      refine and_congr_right fun _ => ?_
      omega

/-! ### Queueing -/

def Entry.key (cl : Entry) : Nat × LockType × Nat × Nat := (cl.scoid, cl.type, cl.start, cl.last)

section Keys
variable {l l' : List Entry}

section

variable (h : l'.map Entry.key = l.map Entry.key)
include h

theorem exists_of_keys {cl : Entry} (hm : cl ∈ l) :
    ∃ cl' ∈ l', cl'.scoid = cl.scoid ∧ cl'.type = cl.type ∧ cl'.start = cl.start ∧
      cl'.last = cl.last := by
  have hk : cl.key ∈ l'.map Entry.key := by
    rw [h]
    exact mem_map_of_mem hm
  obtain ⟨cl', hm', he⟩ := mem_map.mp hk
  simp only [Entry.key, Prod.mk.injEq] at he
  exact ⟨cl', hm', he⟩

theorem Covers.of_keys {d x : Nat} {t : LockType} (hc : Covers l d t x) : Covers l' d t x := by
  obtain ⟨cl, hm, h1, h2, h3⟩ := hc
  obtain ⟨c, hc, k1, k2, k3, k4⟩ := exists_of_keys h hm
  exact ⟨c, hc, k1.trans h1, k2.trans h2, by omega⟩

theorem covers_of_keys (d : Nat) (t : LockType) (x : Nat) : Covers l' d t x ↔ Covers l d t x :=
  ⟨Covers.of_keys h.symm, Covers.of_keys h⟩

theorem headLe_of_keys : HeadLe l l' := by
  intro cl hcl
  cases l with
  | nil => simp at hcl
  | cons a l =>
    obtain rfl : a = cl := by simpa using hcl
    cases l' with
    | nil => simp at h
    | cons b l' =>
      simp only [map_cons, List.cons.injEq, Entry.key, Prod.mk.injEq] at h
      exact ⟨b, by simp, by omega⟩

end

theorem Sound.of_keys (hl : Sound l) (h : l'.map Entry.key = l.map Entry.key)
    (hb : ∀ cl ∈ l', ∀ q ∈ cl.blocked, conflicts q cl ∧ q.start ≤ q.last) : Sound l' where
  wf cl hm := by
    obtain ⟨c, hc, -, -, h3, h4⟩ := exists_of_keys h.symm hm
    have := hl.wf c hc
    omega
  apart d d' t t' x hd h1 h2 :=
    hl.apart d d' t t' x hd ((covers_of_keys h d t x).mp h1) ((covers_of_keys h d' t' x).mp h2)
  blocked := hb

theorem enqueue_keys (q : Req) (l : List Entry) :
    (enqueue q l).map Entry.key = l.map Entry.key := by
  induction l with
  | nil => rfl
  | cons cl l ih =>
    unfold enqueue
    split
    · rfl
    · simp [ih]

variable {q : Req}

theorem enqueue_blocked (hq : q.start ≤ q.last)
    (hl : ∀ cl ∈ l, ∀ q ∈ cl.blocked, conflicts q cl ∧ q.start ≤ q.last) :
    ∀ cl ∈ enqueue q l, ∀ q' ∈ cl.blocked, conflicts q' cl ∧ q'.start ≤ q'.last := by
  induction l with
  | nil => simp [enqueue]
  | cons cl l ih =>
    obtain ⟨hcl, hl⟩ := forall_mem_cons.mp hl
    unfold enqueue
    split
    · rename_i hconf
      refine forall_mem_cons.mpr ⟨forall_mem_append.mpr ⟨hcl, ?_⟩, hl⟩
      intro q' hq'
      obtain rfl := mem_singleton.mp hq'
      exact ⟨hconf, hq⟩
    · exact forall_mem_cons.mpr ⟨hcl, ih hl⟩

theorem enqueue_waiters (h : lockFind l q ≠ none) : waiters (enqueue q l) ~ q :: waiters l := by
  induction l with
  | nil => simp [lockFind] at h
  | cons cl l ih =>
    unfold enqueue
    by_cases hc : conflicts q cl
    · rw [if_pos hc]
      simp only [waiters_cons, append_assoc]
      exact perm_middle
    rw [if_neg hc]
    have hl : lockFind l q ≠ none := by simpa [lockFind, hc] using h
    exact ((ih hl).append_left _).trans perm_middle

theorem Sound.enqueue (hl : Sound l) (hq : q.start ≤ q.last) : Sound (enqueue q l) :=
  hl.of_keys (enqueue_keys q l) (enqueue_blocked hq hl.blocked)

theorem mem_enqueue {cl : Entry} (h : cl ∈ enqueue q l) :
    ∃ cl' ∈ l, cl.key = cl'.key ∧ ∀ x ∈ cl.blocked, x ∈ cl'.blocked ∨ x = q := by
  induction l with
  | nil => cases h
  | cons a l ih =>
    unfold enqueue at h
    split at h
    · rcases mem_cons.mp h with rfl | h
      · exact ⟨a, mem_cons_self, rfl, by simp⟩
      · exact ⟨cl, mem_cons_of_mem _ h, rfl, fun _ => .inl⟩
    · rcases mem_cons.mp h with rfl | h
      · exact ⟨cl, mem_cons_self, rfl, fun _ => .inl⟩
      · obtain ⟨cl', hm, hr⟩ := ih h
        exact ⟨cl', mem_cons_of_mem _ hm, hr⟩

end Keys

/-! ### What granting can do -/

def Holds (l : List Entry) (q : Req) : Prop :=
  ∃ cl ∈ l, cl.scoid = q.scoid ∧ cl.type = q.type ∧ cl.start ≤ q.start ∧ q.last ≤ cl.last

/-- `s'` comes from `s` by the answers `new`. -/
structure Grants (s s' : LockSt) (new : List (Req × Status)) : Prop where
  sound : Sound s'.list
  told : s'.told = s.told
  log : s'.answered = s.answered ++ new
  held : ∀ a ∈ s'.replied, a ∈ s.replied ∨ (a.status = .eok → Holds a.list a.req)
  mono : ∀ d t x, Covers s.list d t x → ∃ t', Covers s'.list d t' x
  through : ∀ d t x, (∀ a ∈ new, a.1.scoid = d → ¬a.1.Has x) →
    (Covers s'.list d t x ↔ Covers s.list d t x)
  later : s.heap.Later s'.heap
  eok : s.heap.Gives → ∀ a ∈ new, a.2 = .eok

theorem Grants.refl (h : Sound s.list) : Grants s s [] where
  sound := h
  told := rfl
  log := by simp
  held _ := .inl
  mono d t x hc := ⟨t, hc⟩
  through _ _ _ _ := Iff.rfl
  later := .refl _
  eok _ := by simp

theorem Grants.trans {n2 : List (Req × Status)} (h : Grants s s1 n1)
    (h' : Grants s1 s2 n2) : Grants s s2 (n1 ++ n2) where
  sound := h'.sound
  told := h'.told.trans h.told
  log := by rw [h'.log, h.log, append_assoc]
  held a ha := (h'.held a ha).elim (h.held a) .inr
  mono d t x hc := by
    obtain ⟨t1, h1⟩ := h.mono d t x hc
    exact h'.mono d t1 x h1
  through d t x hn := (h'.through d t x fun a ha => hn a (mem_append_right _ ha)).trans
    (h.through d t x fun a ha => hn a (mem_append_left _ ha))
  later := h.later.trans h'.later
  eok hg a ha := by
    rcases mem_append.mp ha with ha | ha
    · exact h.eok hg a ha
    · exact h'.eok (h.later.gives hg) a ha

theorem grants_wait (h : Sound s.list) (hq : q.start ≤ q.last) : Grants s (s.wait q) [] where
  sound := h.enqueue hq
  told := rfl
  log := (append_nil _).symm
  held _ := .inl
  mono d t x hc := ⟨t, (covers_of_keys (enqueue_keys q s.list) d t x).mpr hc⟩
  through d t x _ := covers_of_keys (enqueue_keys q s.list) d t x
  later := .refl _
  eok _ := by simp

def KeepsRd (s s' : LockSt) : Prop :=
  ∀ cl ∈ s.list, cl.type = .rd → ∃ cl' ∈ s'.list, cl'.scoid = cl.scoid ∧ cl'.type = .rd ∧
    cl'.start ≤ cl.start ∧ cl.last ≤ cl'.last

theorem KeepsRd.refl (s : LockSt) : KeepsRd s s := fun cl hm ht => ⟨cl, hm, rfl, ht, le_rfl, le_rfl⟩

theorem KeepsRd.trans (h : KeepsRd s s1) (h' : KeepsRd s1 s2) : KeepsRd s s2 := by
  intro cl hm ht
  obtain ⟨c1, hm1, hs1, ht1, h1, h2⟩ := h cl hm ht
  obtain ⟨c2, hm2, hs2, ht2, h3, h4⟩ := h' c1 hm1 ht1
  exact ⟨c2, hm2, hs2.trans hs1, ht2, h3.trans h1, h2.trans h4⟩

def Stuck (l : List Entry) (q : Req) : Prop :=
  q.type = .wr → ∃ d t x, d ≠ q.scoid ∧ q.Has x ∧ Covers l d t x

theorem stuck_rest (h : ∀ x ∈ q :: p, Stuck s.list x) (hg : Grants s s' new) :
    ∀ x ∈ p, Stuck s'.list x := by
  intro r hr hwr
  obtain ⟨d, t, x, hd, hx, hc⟩ := h r (mem_cons_of_mem _ hr) hwr
  obtain ⟨t', hc'⟩ := hg.mono d t x hc
  exact ⟨d, t', x, hd, hx, hc'⟩

theorem Stuck.type_rd (h : Stuck l q) (hf : lockFind l q = none) : q.type = .rd := by
  by_contra hq
  have hwr : q.type = .wr := by
    cases ht : q.type with
    | rd => exact absurd ht hq
    | wr => rfl
  obtain ⟨d, t, x, hd, hx, cl, hm, hs, -, hc⟩ := h hwr
  have hno := find?_eq_none.mp hf cl hm
  simp only [decide_eq_true_eq] at hno
  refine hno ⟨fun he => hd (hs.symm.trans he.symm), ?_, .inr (by simp [hwr])⟩
  unfold Req.Has at hx
  unfold overlap
  omega

theorem stuck_pending (hl : Sound l) (he : Edited l r e) :
    (∀ q ∈ e.pending, q.start ≤ q.last) ∧ ∀ q ∈ e.pending, Stuck e.list q := by
  refine forall₂_and.mp fun q hq => ?_
  obtain ⟨cl, hm, hb, -, -⟩ := he.pending q hq
  obtain ⟨⟨hn, ho, -⟩, hw⟩ := hl.blocked cl hm q hb
  have hcw := hl.wf cl hm
  refine ⟨hw, fun _ => ?_⟩
  obtain ⟨x, hx, hc⟩ : ∃ x, q.Has x ∧ Covers l cl.scoid cl.type x := by
    refine ⟨max q.start cl.start, ?_, cl, hm, rfl, rfl, ?_⟩
    · unfold overlap at ho
      unfold Req.Has
      omega
    · unfold overlap at ho
      omega
  obtain ⟨t, ht⟩ := he.mono _ _ _ hc
  exact ⟨cl.scoid, t, x, Ne.symm hn, hx, ht⟩

/-- The requests `A` are those that may be looked at again: the clients taken off a list, and with a
request to read also those that wait for a write lock which it turns into a read lock. None of those
that read asks for anything before the head. -/
structure Within (A : Req → Prop) (l : List Entry) (p : List Req) : Prop where
  head : ∃ cl ∈ l.head?, ∀ q, A q → q.type = .rd → cl.start ≤ q.start
  pending : ∀ q ∈ p, A q
  closed : ∀ cl ∈ l, cl.type = .wr → ∀ q, A q → q.type = .rd → cl.scoid = q.scoid →
    overlap q.start q.last cl.start cl.last → ∀ x ∈ cl.blocked, A x

section Within
variable {A : Req → Prop}

theorem HeadLe.below {l' : List Entry} (hh : HeadLe l l')
    (h : ∃ cl ∈ l.head?, ∀ q, A q → q.type = .rd → cl.start ≤ q.start) :
    ∃ cl ∈ l'.head?, ∀ q, A q → q.type = .rd → cl.start ≤ q.start := by
  obtain ⟨cl, hcl, h⟩ := h
  obtain ⟨cl', hcl', hle⟩ := hh cl hcl
  exact ⟨cl', hcl', fun q hq ht => hle.trans (h q hq ht)⟩

theorem Within.wait (h : Within A l (q :: p)) : Within A (enqueue q l) p where
  head := (headLe_of_keys (enqueue_keys q l)).below h.head
  pending x hx := h.pending x (mem_cons_of_mem _ hx)
  closed cl hm ht r hr hrt hc ho x hx := by
    obtain ⟨cl', hm', hk, hb⟩ := mem_enqueue hm
    simp only [Entry.key, Prod.mk.injEq] at hk
    obtain ⟨k1, k2, k3, k4⟩ := hk
    rcases hb x hx with hx | rfl
    · exact h.closed cl' hm' (k2 ▸ ht) r hr hrt (k1 ▸ hc) (k3 ▸ k4 ▸ ho) x hx
    · exact h.pending x mem_cons_self

theorem Within.edit (h : Within A l []) (hq : A r) (ht : r.type = .rd) (he : Edited l r e)
    (hh : HeadLe l e.list) : Within A e.list e.pending where
  head := hh.below h.head
  pending x hx := by
    obtain ⟨cl, hm, hb, hc, hne, ho⟩ := he.pending x hx
    refine h.closed cl hm ?_ r hq ht hc ho.overlap x hb
    cases hct : cl.type with
    | wr => rfl
    | rd => exact absurd (hct.trans ht.symm) hne
  closed cl hm hw q' hq' hrt hc ho x hx := by
    have hmem := he.unchanged cl hm (by simp [hw, ht]) (ne_nil_of_mem hx)
    exact h.closed cl hmem hw q' hq' hrt hc ho x hx

theorem Within.drop (h : Within A l p) (p' : List Req) (hp : ∀ q ∈ p', q ∈ p) : Within A l p' :=
  ⟨h.head, fun q hq => h.pending q (hp q hq), h.closed⟩

theorem Within.add {l' : List Entry} (h : Within A l []) (hA : Within A l' (q :: p)) :
    Within A l p :=
  ⟨h.head, fun x hx => hA.pending x (mem_cons_of_mem _ hx), h.closed⟩

end Within

structure Reblocked (p : List Req) (s s' : LockSt) (new : List (Req × Status)) : Prop where
  grants : Grants s s' new
  keepsRd : (∀ q ∈ p, Stuck s.list q) → KeepsRd s s'
  within : (∀ q ∈ p, Stuck s.list q) → ∀ A, Within A s.list p → Within A s'.list []
  tally : s.heap.Gives → waiters s'.list ++ new.map fst ~ waiters s.list ++ p
  left : waiters s'.list <+~ waiters s.list ++ p

structure Locked (s : LockSt) (r : Req) (s' : LockSt) (st : Status) (e : Edit)
    (new : List (Req × Status)) : Prop where
  status : st = e.status
  edited : Edited s.list r e
  fair : Fair s.heap e
  grants : Grants (s.put e) s' new
  keepsRd : KeepsRd (s.put e) s'
  within : r.type = .rd → ∀ A, A r → Within A s.list [] → Within A s'.list []
  holds : st = .eok → Holds s'.list r
  tally : s.heap.Gives → waiters s'.list ++ new.map fst ~ waiters s.list
  left : waiters s'.list <+~ waiters s.list
  quiet : e.pending = [] → s' = s.put e

/-! ### Write requests are put back -/

theorem Stuck.of_keys {l' : List Entry} (h : Stuck l q) (hk : l'.map Entry.key = l.map Entry.key) :
    Stuck l' q := by
  intro hq
  obtain ⟨d, t, x, hd, hx, hc⟩ := h hq
  exact ⟨d, t, x, hd, hx, (covers_of_keys hk d t x).mpr hc⟩

theorem wait_all_keys (p : List Req) (s : LockSt) :
    (p.foldl LockSt.wait s).list.map Entry.key = s.list.map Entry.key := by
  induction p generalizing s with
  | nil => rfl
  | cons q p ih => exact (ih (s.wait q)).trans (enqueue_keys q s.list)

section
variable {lock : LockSt → Req → Except Fault (LockSt × Status)}

theorem reblockWith_stuck (h : ∀ q ∈ p, q.type = .wr ∧ Stuck s.list q) :
    reblockWith lock p s = .ok (p.foldl LockSt.wait s) := by
  induction p generalizing s with
  | nil => rfl
  | cons q p ih =>
    obtain ⟨hq, hst⟩ := h q mem_cons_self
    unfold reblockWith
    cases hf : lockFind s.list q with
    | none =>
      have := hst.type_rd hf
      rw [hq] at this
      cases this
    | some cl =>
      refine ih fun x hx => ?_
      obtain ⟨h1, h2⟩ := h x (mem_cons_of_mem _ hx)
      exact ⟨h1, h2.of_keys (enqueue_keys q s.list)⟩

theorem pending_wr (hl : Sound l) (he : Edited l r e)
    (hr : r.type = .wr) : ∀ q ∈ e.pending, q.type = .wr ∧ Stuck e.list q := by
  intro q hq
  refine ⟨?_, (stuck_pending hl he).2 q hq⟩
  obtain ⟨cl, hm, hb, -, ht, -⟩ := he.pending q hq
  obtain ⟨⟨-, -, hconf⟩, -⟩ := hl.blocked cl hm q hb
  cases hct : cl.type with
  | wr => exact absurd (hct.trans hr.symm) ht
  | rd =>
    cases hqt : q.type with
    | wr => rfl
    | rd => simp [hct, hqt] at hconf

/-- What was granted is still there when the others have been looked at. -/
theorem Edited.holds (hed : Edited s.list r e) (hs : Sound s.list) (hok : e.status = .eok)
    (hrb : reblockWith lock e.pending (s.put e) = .ok s') (hk : KeepsRd (s.put e) s') :
    Holds s'.list r := by
  obtain ⟨cl, hm, hc, ht, h1, h2⟩ := hed.done hok
  cases hrt : r.type with
  | rd =>
    -- whoever is granted a lock on the way is granted a read lock
    obtain ⟨cl', hm', hc', ht', h3, h4⟩ := hk cl hm (ht.trans hrt)
    exact ⟨cl', hm', hc'.trans hc, ht'.trans hrt.symm, h3.trans h1, h2.trans h4⟩
  | wr =>
    rw [reblockWith_stuck (s := s.put e) (pending_wr hs hed hrt)] at hrb
    cases hrb
    obtain ⟨cl', hm', hc', ht', h3, h4⟩ := exists_of_keys (wait_all_keys e.pending (s.put e)) hm
    exact ⟨cl', hm', hc'.trans hc, ht'.trans ht, by omega⟩

end

theorem lockScoidN_locked {n : Nat} (hre : ∀ p s s', Sound s.list → (∀ q ∈ p, q.start ≤ q.last) →
      reblockWith (lockScoidN n) p s = .ok s' → ∃ new, Reblocked p s s' new)
    (hs : Sound s.list) (hr : r.start ≤ r.last)
    (hf : lockFind s.list r = none) (h : lockScoidN (n + 1) s r = .ok (s', st)) :
    ∃ e new, Locked s r s' st e new := by
  unfold lockScoidN at h
  cases he : lockEdit s.list r s.heap with
  | none => simp [he] at h
  | some e =>
    simp only [he] at h
    obtain ⟨hed, hfair, hhead⟩ := lockEdit_edited hs hr he
    have hsound := hed.sound hf
    split at h
    · rename_i hok
      cases hrb : reblockWith (lockScoidN n) e.pending (s.put e) with
      | error f => simp [hrb] at h
      | ok s1 =>
        simp only [hrb, Except.ok.injEq, Prod.mk.injEq] at h
        obtain ⟨rfl, rfl⟩ := h
        have hp := stuck_pending hs hed
        obtain ⟨new, hb⟩ := hre e.pending (s.put e) s1 hsound hp.1 hrb
        have hk := hb.keepsRd hp.2
        exact ⟨e, new, hok.symm, hed, hfair, hb.grants, hk,
          fun ht A hA hw => hb.within hp.2 A (hw.edit hA ht hed hhead),
          fun _ => hed.holds hs hok hrb hk,
          fun hg => (hb.tally (hfair.later.gives hg)).trans hed.waiters,
          hb.left.trans hed.waiters.subperm, fun hp => by
            rw [hp] at hrb
            cases hrb
            rfl⟩
    rename_i hne
    obtain ⟨rfl, rfl⟩ := h
    exact ⟨e, [], rfl, hed, hfair, .refl hsound, .refl _,
      fun ht A hA hw => (hw.edit hA ht hed hhead).drop [] nofun, fun hok => absurd hok hne,
      fun hg => absurd (hfair.eok hg) hne,
      (sublist_append_left _ _).subperm.trans hed.waiters.subperm, fun _ => rfl⟩

theorem Locked.answer (h : Locked s q s1 st e new) :
    Grants s (s1.answer q st) (new ++ [(q, st)]) where
  sound := h.grants.sound
  told := h.grants.told
  log := by
    rw [LockSt.answered, LockSt.answer, map_append]
    exact (congrArg (· ++ [(q, st)]) h.grants.log).trans (append_assoc _ _ _)
  held a ha := by
    rcases mem_append.mp ha with ha | ha
    · exact h.grants.held a ha
    · obtain rfl := mem_singleton.mp ha
      exact .inr h.holds
  mono d t x hc := by
    obtain ⟨t1, h1⟩ := h.edited.mono d t x hc
    exact h.grants.mono d t1 x h1
  through d t x hn := by
    refine (h.grants.through d t x fun a ha => hn a (mem_append_left _ ha)).trans ?_
    have hx := hn (q, st) (by simp)
    by_cases hd : d = q.scoid
    · subst hd
      exact h.edited.outside t x (hx rfl)
    · exact h.edited.other d t x hd
  later := h.fair.later.trans h.grants.later
  eok hg a ha := by
    rcases mem_append.mp ha with ha | ha
    · exact h.grants.eok (h.fair.later.gives hg) a ha
    · obtain rfl := mem_singleton.mp ha
      exact h.status.trans (h.fair.eok hg)

theorem Reblocked.wait
    (h : Reblocked p (s.wait q) s' new) (hs : Sound s.list) (hq : q.start ≤ q.last)
    (hf : lockFind s.list q ≠ none) : Reblocked (q :: p) s s' new where
  grants := (grants_wait hs hq).trans h.grants
  keepsRd hst := by
    have h1 : KeepsRd s (s.wait q) := fun cl hm ht => by
      obtain ⟨c, hc, k1, k2, k3, k4⟩ := exists_of_keys (enqueue_keys q s.list) hm
      exact ⟨c, hc, k1, k2.trans ht, le_of_eq k3, ge_of_eq k4⟩
    exact h1.trans (h.keepsRd (stuck_rest hst (grants_wait hs hq)))
  within hst A hA := h.within (stuck_rest hst (grants_wait hs hq)) A hA.wait
  tally hg := by
    refine (h.tally hg).trans ?_
    exact ((enqueue_waiters hf).append_right p).trans perm_middle.symm
  left := h.left.trans
    (((enqueue_waiters hf).append_right p).trans perm_middle.symm).subperm

theorem Reblocked.answer (hl : Locked s q s1 st e n1)
    (h : Reblocked p (s1.answer q st) s' new) (hf : lockFind s.list q = none) :
    Reblocked (q :: p) s s' (n1 ++ [(q, st)] ++ new) where
  grants := hl.answer.trans h.grants
  keepsRd hst := by
    have h1 : KeepsRd s (s.put e) := hl.edited.kept ((hst q mem_cons_self).type_rd hf)
    exact (h1.trans hl.keepsRd).trans (h.keepsRd (stuck_rest hst hl.answer))
  within hst A hA := by
    have hq := (hst q mem_cons_self).type_rd hf
    have h1 := hl.within hq A (hA.pending q mem_cons_self) (hA.drop [] nofun)
    exact h.within (stuck_rest hst hl.answer) A (h1.add hA)
  tally hg := by
    have h1 := hl.tally hg
    have h2 := h.tally (hl.answer.later.gives hg)
    simp only [map_append]
    calc waiters s'.list ++ (n1.map fst ++ [q] ++ new.map fst)
      _ ~ waiters s'.list ++ (new.map fst ++ (n1.map fst ++ [q])) :=
        perm_append_comm.append_left _
      _ = waiters s'.list ++ new.map fst ++ (n1.map fst ++ [q]) :=
        (append_assoc _ _ _).symm
      _ ~ waiters s1.list ++ p ++ (n1.map fst ++ [q]) := h2.append_right _
      _ = waiters s1.list ++ (p ++ (n1.map fst ++ [q])) := append_assoc _ _ _
      _ ~ waiters s1.list ++ (n1.map fst ++ [q] ++ p) := perm_append_comm.append_left _
      _ = waiters s1.list ++ n1.map fst ++ ([q] ++ p) := by simp only [append_assoc]
      _ ~ waiters s.list ++ (q :: p) := h1.append_right _
  left := h.left.trans <| ((subperm_append_right p).mpr hl.left).trans <|
    ((sublist_cons_self q p).append_left (waiters s.list)).subperm

theorem reblockWith_of_lock {lock : LockSt → Req → Except Fault (LockSt × Status)}
    (hlock : ∀ s q s1 st, Sound s.list → q.start ≤ q.last → lockFind s.list q = none →
      lock s q = .ok (s1, st) → ∃ e new, Locked s q s1 st e new)
    (hs : Sound s.list) (hp : ∀ q ∈ p, q.start ≤ q.last)
    (h : reblockWith lock p s = .ok s') : ∃ new, Reblocked p s s' new := by
  induction p generalizing s with
  | nil =>
    cases h
    exact ⟨[], .refl hs, fun _ => .refl _, fun _ _ => id, by simp, by simp [List.Subperm.refl]⟩
  | cons q p ih =>
    have hq := hp q mem_cons_self
    have hp := (forall_mem_cons.mp hp).2
    unfold reblockWith at h
    cases hf : lockFind s.list q with
    | some cl =>
      simp only [hf] at h
      obtain ⟨new, hr⟩ := ih (hs.enqueue hq) hp h
      exact ⟨new, hr.wait hs hq (by simp [hf])⟩
    | none =>
      cases hl : lock s q with
      | error f => simp [hf, hl] at h
      | ok r =>
        simp only [hf, hl] at h
        obtain ⟨e, n1, hlk⟩ := hlock s q r.1 r.2 hs hq hf hl
        obtain ⟨new, hr⟩ := ih hlk.answer.sound hp h
        exact ⟨_, .answer hlk hr hf⟩

theorem lockScoidN_ok (n : Nat) (s : LockSt) (q : Req) (s1 : LockSt) (st : Status)
    (hs : Sound s.list) (hq : q.start ≤ q.last) (hf : lockFind s.list q = none)
    (h : lockScoidN n s q = .ok (s1, st)) : ∃ e new, Locked s q s1 st e new := by
  induction n generalizing s q s1 st with
  | zero => cases h
  | succ n ih => exact lockScoidN_locked (fun _ _ _ => reblockWith_of_lock ih) hs hq hf h

theorem lockScoid_locked (hs : Sound s.list)
    (hr : r.start ≤ r.last) (hf : lockFind s.list r = none) (h : s.lockScoid r = .ok (s', st)) :
    ∃ e new, Locked s r s' st e new :=
  lockScoidN_ok _ s r s' st hs hr hf h

structure Unlocked (s : LockSt) (c start last : Nat) (s' : LockSt) (st : Status) (e : Edit)
    (new : List (Req × Status)) : Prop where
  cut : Cut c start last s.list e
  fair : Fair s.heap e
  grants : Grants (s.put e) s' new
  tally : s.heap.Gives → waiters s'.list ++ new.map fst ~ waiters s.list
  quiet : e.pending = [] → s' = s.put e

theorem Cut.sound (h : Cut c start last l e) (hl : Sound l) : Sound e.list where
  wf := h.wf hl.wf
  apart d d' t t' x hd h1 h2 := by
    have hsub : ∀ d t, Covers e.list d t x → Covers l d t x := by
      intro d t hc
      by_cases hdc : d = c
      · subst hdc
        exact h.sub t x hc
      · exact (h.other d t x hdc).mp hc
    exact hl.apart d d' t t' x hd (hsub d t h1) (hsub d' t' h2)
  blocked cl hm q hq := hl.blocked cl (h.blocked cl hm (ne_nil_of_mem hq)) q hq

theorem unlockScoid_unlocked
    (hs : Sound s.list) (hse : start ≤ last) (h : s.unlockScoid c start last = .ok (s', st)) :
    ∃ e new, Unlocked s c start last s' st e new := by
  obtain ⟨hcut, hfair⟩ := unlockLoop_cut (c := c) hse s.list s.heap hs.wf
  unfold LockSt.unlockScoid at h
  generalize unlockLoop c start last s.list s.heap = e at hcut hfair h
  dsimp only at h
  have hsound := hcut.sound hs
  split at h
  · rename_i hok
    cases hrb : reblockWith (lockScoidN s.waiting.length) e.pending (s.put e) with
    | error f => simp [hrb] at h
    | ok s1 =>
      simp only [hrb, Except.ok.injEq, Prod.mk.injEq] at h
      obtain ⟨rfl, rfl⟩ := h
      have hp : ∀ q ∈ e.pending, q.start ≤ q.last := by
        intro q hq
        obtain ⟨cl, hm, hb, -⟩ := hcut.pending q hq
        exact (hs.blocked cl hm q hb).2
      obtain ⟨new, hb⟩ := reblockWith_of_lock (lockScoidN_ok _) hsound hp hrb
      exact ⟨e, new, hcut, hfair, hb.grants,
        fun hg => (hb.tally (hfair.later.gives hg)).trans hcut.waiters, fun hp => by
          rw [hp] at hrb
          cases hrb
          rfl⟩
  · rename_i hne
    obtain ⟨rfl, rfl⟩ := h
    exact ⟨e, [], hcut, hfair, .refl hsound, fun hg => absurd (hfair.eok hg) hne, fun _ => rfl⟩

end Qnx.Iofunc
