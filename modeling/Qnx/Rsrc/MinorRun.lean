import Qnx.Rsrc.Minor

/-!
# Device numbers are given out once

The bitmaps tell which minors are attached, as long as a new name comes with a minor in range and
the memory for it, and a detach names a minor that the bitmap has.
-/

namespace Qnx.Rsrc

open Bitmap Run List Option Bool

variable {t : Table} {i : Nat} {bits : List Byte} {s : MinorSt}

/-! ### The search -/

theorem search_spec (t : Table) (hit : Nat → String → Bool) {n : Nat} (hn : n ≤ maxMajors) :
    let r := search t hit n
    (r.2 = true → r.1 < n ∧ ∃ name, (t r.1).name = some name ∧ hit r.1 name = true) ∧
    (r.2 = false → (∀ k < n, ∀ name, (t k).name = some name → hit k name = false) ∧
      (r.1 = maxMajors ∨ r.1 < n ∧ (t r.1).name = none)) := by
  induction n with
  | zero => exact ⟨nofun, fun _ => ⟨nofun, .inl rfl⟩⟩
  | succ n ih =>
    obtain ⟨hf, hnf⟩ := ih (Nat.le_of_succ_le hn)
    unfold search
    dsimp only
    split
    · rename_i hname
      refine ⟨fun h => ?_, fun h => ⟨fun k hk name hk' => ?_, .inr ⟨?_, ?_⟩⟩⟩
      · obtain ⟨hlt, hex⟩ := hf h
        rw [Nat.min_eq_left (Nat.le_of_lt hlt)]
        exact ⟨Nat.lt_succ_of_lt hlt, hex⟩
      · rcases Nat.lt_succ_iff_lt_or_eq.mp hk with hk | rfl
        · exact (hnf h).1 k hk name hk'
        · rw [hname] at hk'
          cases hk'
      · omega
      · rcases (hnf h).2 with he | ⟨he, hnone⟩
        · rw [he, Nat.min_eq_right (Nat.le_of_succ_le hn)]
          exact hname
        · rw [Nat.min_eq_left (Nat.le_of_lt he)]
          exact hnone
    rename_i name hname
    split
    · rename_i hhit
      exact ⟨fun _ => ⟨Nat.lt_succ_self n, name, hname, hhit⟩, nofun⟩
    rename_i hmiss
    refine ⟨fun h => ?_, fun h => ⟨fun k hk name' hk' => ?_, ?_⟩⟩
    · obtain ⟨hlt, hex⟩ := hf h
      exact ⟨Nat.lt_succ_of_lt hlt, hex⟩
    · rcases Nat.lt_succ_iff_lt_or_eq.mp hk with hk | rfl
      · exact (hnf h).1 k hk name' hk'
      rw [hname] at hk'
      cases hk'
      exact eq_false_iff.mpr hmiss
    · exact (hnf h).2.imp_right fun h => ⟨Nat.lt_succ_of_lt h.1, h.2⟩

/-! ### One entry -/

def bitsOf (t : Table) (i : Nat) : List Byte := (t i).minors.getD []

@[simp] theorem setEntry_self (t : Table) (i : Nat) (d : Devno) : setEntry t i d i = d := if_pos rfl

theorem bitsOf_setEntry (t : Table) (i k : Nat) (d : Devno) :
    bitsOf (setEntry t i d) k = if k = i then d.minors.getD [] else bitsOf t k := by
  unfold bitsOf setEntry
  split <;> rfl

theorem setEntry_ne {k : Nat} (t : Table) (d : Devno) (h : k ≠ i) :
    setEntry t i d k = t k := if_neg h

theorem attachMinor_spec (t : Table) (i : Nat) (bits : List Byte) (minor : Int) (mem : Memory) :
    ((attachMinor t i bits minor mem).1.status ≠ .eok ∧ (attachMinor t i bits minor mem).2 = t) ∨
    ∃ m bits', attachMinor t i bits minor mem =
        (⟨.eok, i, m⟩, setEntry t i ⟨(t i).name, some bits'⟩) ∧
      isSet bits m = false ∧ (∀ k, isSet bits' k = (isSet bits k || decide (k = m))) ∧
      (minor < 0 → m = firstFree bits) := by
  unfold attachMinor
  dsimp only
  generalize hm : (if minor < 0 then firstFree bits else minor.toNat) = m
  have hany : minor < 0 → m = firstFree bits := fun h => by rw [← hm, if_pos h]
  split
  · exact .inl ⟨nofun, rfl⟩
  split
  · rename_i hshort
    split
    · refine .inr ⟨m, _, rfl, isSet_of_ge hshort, fun k => ?_, hany⟩
      have hlen : (grow bits (m / 8 + 1)).length = m / 8 + 1 := length_grow (by omega)
      rw [isSet_set (by omega), isSet_grow]
    · exact .inl ⟨nofun, rfl⟩
  split
  · exact .inl ⟨nofun, rfl⟩
  · rename_i hlen hfree
    exact .inr ⟨m, _, rfl, eq_false_iff.mpr hfree, fun k => isSet_set (by omega), hany⟩

theorem attachMinor_new {minor : Int} {mem : Memory} (hbits : ∀ k, isSet bits k = false)
    (hmem : mem.more = true) (hlt : minor < maxMinors) :
    (attachMinor t i bits minor mem).1.status = .eok := by
  have hfirst : firstFree bits = 0 := by
    by_contra hc
    have := isSet_of_lt_firstFree (Nat.pos_of_ne_zero hc)
    rw [hbits] at this
    cases this
  unfold attachMinor
  generalize hm : (if minor < 0 then firstFree bits else minor.toNat) = m
  have hm' : m < maxMinors := by
    rw [← hm]
    split
    · rw [hfirst]
      decide
    · omega
  rw [if_neg (Nat.not_le.mpr hm'), hbits]
  split <;> rfl

/-! ### The invariant -/

structure Sound (s : MinorSt) : Prop where
  taken : ∀ i m, isSet (bitsOf s.table i) m = true ↔ ∃ a ∈ s.live, a.major = i ∧ a.minor = m
  named : ∀ a ∈ s.live, (s.table a.major).name = some a.name
  minors : ∀ i, (s.table i).name ≠ none → (s.table i).minors ≠ none
  names : ∀ i j name, i < maxMajors → j < maxMajors → (s.table i).name = some name →
    (s.table j).name = some name → i = j
  range : ∀ a ∈ s.live, a.major < maxMajors
  nodup : (s.live.map fun a => (a.major, a.minor)).Nodup

section

variable (h : Sound s)
include h

theorem Sound.minors_setEntry {name : Option String} {k : Nat}
    (hk : (setEntry s.table i ⟨name, some bits⟩ k).name ≠ none) :
    (setEntry s.table i ⟨name, some bits⟩ k).minors ≠ none := by
  obtain rfl | hki := eq_or_ne k i
  · rw [setEntry_self]
    nofun
  · rw [setEntry_ne _ _ hki] at hk ⊢
    exact h.minors k hk

theorem Sound.unnamed (hn : (s.table i).name = none) (m : Nat) :
    isSet (bitsOf s.table i) m = false := by
  refine eq_false_iff.mpr fun hset => ?_
  obtain ⟨a, ha, rfl, -⟩ := (h.taken i m).mp hset
  have := h.named a ha
  rw [hn] at this
  cases this

theorem Sound.attach {name : String} {m : Nat} {bits' : List Byte}
    (hi : i < maxMajors) (hname : (s.table i).name = some name)
    (hfree : isSet (bitsOf s.table i) m = false)
    (hbits : ∀ k, isSet bits' k = (isSet (bitsOf s.table i) k || decide (k = m))) :
    Sound ⟨setEntry s.table i ⟨(s.table i).name, some bits'⟩, ⟨name, i, m⟩ :: s.live⟩ := by
  have hnm : ∀ k, (setEntry s.table i ⟨(s.table i).name, some bits'⟩ k).name = (s.table k).name := by
    intro k
    by_cases hk : k = i
    · subst hk
      rw [setEntry_self]
    · rw [setEntry_ne _ _ hk]
  refine ⟨fun k n => ?_, fun a ha => ?_, fun k hk => ?_, fun a b nm ha hb h1 h2 => ?_, fun a ha => ?_,
    ?_⟩
  · rw [bitsOf_setEntry]
    split
    · rename_i hk
      subst hk
      rw [getD_some, hbits, or_eq_true, h.taken, decide_eq_true_eq]
      constructor
      · rintro (⟨a, ha, hm⟩ | rfl)
        · exact ⟨a, mem_cons_of_mem _ ha, hm⟩
        · exact ⟨_, mem_cons_self, rfl, rfl⟩
      · rintro ⟨a, ha, h1, h2⟩
        rcases mem_cons.mp ha with rfl | ha
        · exact .inr h2.symm
        · exact .inl ⟨a, ha, h1, h2⟩
    rename_i hk
    rw [h.taken]
    constructor
    · rintro ⟨a, ha, hm⟩
      exact ⟨a, mem_cons_of_mem _ ha, hm⟩
    · rintro ⟨a, ha, h1, h2⟩
      rcases mem_cons.mp ha with rfl | ha
      · exact absurd h1.symm hk
      · exact ⟨a, ha, h1, h2⟩
  · rw [hnm]
    rcases mem_cons.mp ha with rfl | ha
    · exact hname
    · exact h.named a ha
  · exact h.minors_setEntry hk
  · rw [hnm] at h1 h2
    exact h.names a b nm ha hb h1 h2
  · rcases mem_cons.mp ha with rfl | ha
    · exact hi
    · exact h.range a ha
  · refine nodup_cons.mpr ⟨fun hm => ?_, h.nodup⟩
    obtain ⟨a, ha, he⟩ := mem_map.mp hm
    obtain ⟨h1, h2⟩ := Prod.mk.inj he
    have := (h.taken i m).mpr ⟨a, ha, h1, h2⟩
    rw [hfree] at this
    cases this

theorem Sound.newName {name : String} (hnone : (s.table i).name = none)
    (hnew : ∀ k < maxMajors, (s.table k).name ≠ some name)
    (hbits : ∀ k, isSet bits k = isSet (bitsOf s.table i) k) :
    Sound ⟨setEntry s.table i ⟨some name, some bits⟩, s.live⟩ := by
  have hlive : ∀ a ∈ s.live, a.major ≠ i := fun a ha he => by
    have := h.named a ha
    rw [he, hnone] at this
    cases this
  refine ⟨fun k n => ?_, fun a ha => ?_, fun k hk => ?_, fun a b nm ha hb h1 h2 => ?_, h.range, h.nodup⟩
  · rw [bitsOf_setEntry]
    split
    · rename_i hk
      subst hk
      rw [getD_some, hbits]
      exact h.taken k n
    · exact h.taken k n
  · dsimp only
    rw [setEntry_ne _ _ (hlive a ha)]
    exact h.named a ha
  · exact h.minors_setEntry hk
  · dsimp only at h1 h2
    by_cases hai : a = i
    · by_cases hbi : b = i
      · rw [hai, hbi]
      rw [hai, setEntry_self] at h1
      rw [setEntry_ne _ _ hbi] at h2
      cases h1
      exact absurd h2 (hnew b hb)
    rw [setEntry_ne _ _ hai] at h1
    by_cases hbi : b = i
    · rw [hbi, setEntry_self] at h2
      cases h2
      exact absurd h1 (hnew a ha)
    · rw [setEntry_ne _ _ hbi] at h2
      exact h.names a b nm ha hb h1 h2

theorem Sound.detach {m : Nat} {bits' : List Byte}
    (hbits : ∀ k, isSet bits' k = (isSet (bitsOf s.table i) k && decide (k ≠ m))) :
    Sound ⟨setEntry s.table i ⟨if bits'.any (· ≠ 0) then (s.table i).name else none, some bits'⟩,
      s.live.filter fun a => ¬(a.major = i ∧ a.minor = m)⟩ := by
  have hmem : ∀ a, a ∈ s.live.filter (fun a => ¬(a.major = i ∧ a.minor = m)) ↔
      a ∈ s.live ∧ ¬(a.major = i ∧ a.minor = m) :=
    fun a => by rw [mem_filter, decide_eq_true_eq]
  -- an attachment that is left has its bit set
  have hleft : ∀ a ∈ s.live, ¬(a.major = i ∧ a.minor = m) → a.major = i →
      bits'.any (· ≠ 0) = true := by
    intro a ha hno hi
    by_contra hz
    have hzero : ∀ b ∈ bits', b = 0 := by simpa using hz
    have hne : a.minor ≠ m := fun he => hno ⟨hi, he⟩
    have hset := hbits a.minor
    rw [isSet_of_zero hzero, (h.taken i a.minor).mpr ⟨a, ha, hi, rfl⟩, decide_eq_true hne] at hset
    cases hset
  refine ⟨fun k n => ?_, fun a ha => ?_, fun k hk => ?_, fun a b nm ha hb h1 h2 => ?_,
    fun a ha => h.range a ((hmem a).mp ha).1, ?_⟩
  · rw [bitsOf_setEntry]
    split
    · rename_i hk
      subst hk
      rw [getD_some, hbits, and_eq_true, h.taken, decide_eq_true_eq]
      constructor
      · rintro ⟨⟨a, ha, h1, h2⟩, hne⟩
        exact ⟨a, (hmem a).mpr ⟨ha, fun hc => hne (h2.symm.trans hc.2)⟩, h1, h2⟩
      · rintro ⟨a, ha, h1, h2⟩
        obtain ⟨ha, hno⟩ := (hmem a).mp ha
        exact ⟨⟨a, ha, h1, h2⟩, fun hc => hno ⟨h1, h2.trans hc⟩⟩
    rename_i hk
    rw [h.taken]
    constructor
    · rintro ⟨a, ha, h1, h2⟩
      exact ⟨a, (hmem a).mpr ⟨ha, fun hc => hk (h1.symm.trans hc.1)⟩, h1, h2⟩
    · rintro ⟨a, ha, h1, h2⟩
      exact ⟨a, ((hmem a).mp ha).1, h1, h2⟩
  · obtain ⟨ha, hno⟩ := (hmem a).mp ha
    dsimp only
    by_cases hai : a.major = i
    · rw [hai, setEntry_self, if_pos (hleft a ha hno hai), ← hai]
      exact h.named a ha
    · rw [setEntry_ne _ _ hai]
      exact h.named a ha
  · exact h.minors_setEntry hk
  · have hold : ∀ k nm, (setEntry s.table i ⟨if bits'.any (· ≠ 0) then (s.table i).name else none,
        some bits'⟩ k).name = some nm → (s.table k).name = some nm := by
      intro k nm hk
      by_cases hki : k = i
      · subst hki
        rw [setEntry_self] at hk
        split at hk
        · exact hk
        · cases hk
      · rwa [setEntry_ne _ _ hki] at hk
    exact h.names a b nm ha hb (hold a nm h1) (hold b nm h2)
  · exact h.nodup.sublist (filter_sublist.map _)

end

/-! ### Requests -/

/-- A new name comes with a minor in range and finds memory; a detach names a minor of the bitmap. -/
def MinorSt.Regular (s : MinorSt) : Request → Prop
  | .attach name minor mem => (∀ k < maxMajors, (s.table k).name ≠ some name) →
      minor < maxMinors ∧ mem.name = true ∧ mem.first = true ∧ mem.more = true
  | .detach major minor => ∀ k < maxMajors, (k : Int) = major → (s.table k).name ≠ none →
      minor < maxMinors → 0 ≤ minor ∧ minor.toNat / 8 < (bitsOf s.table k).length

/-- The minor of a result is the first of its major that nobody has. -/
def MinorSt.First (s : MinorSt) (res : Result) : Prop :=
  (¬∃ a ∈ s.live, a.major = res.major ∧ a.minor = res.minor) ∧
    ∀ m < res.minor, ∃ a ∈ s.live, a.major = res.major ∧ a.minor = m

theorem Sound.first (h : Sound s) : s.First ⟨.eok, i, firstFree (bitsOf s.table i)⟩ := by
  refine ⟨fun hex => ?_, fun m hm => (h.taken i m).mp (isSet_of_lt_firstFree hm)⟩
  have := (h.taken i _).mpr hex
  rw [isSet_firstFree] at this
  cases this

/-- What a request must do: nothing if it fails, and the right thing if it does not. -/
structure Good (s : MinorSt) (req : Request) (res : Result) (t : Table) : Prop where
  sound : Sound ⟨t, account s.live res req⟩
  failed : res.status ≠ .eok → t = s.table
  first : ∀ name minor mem, req = .attach name minor mem → minor < 0 → res.status = .eok →
    s.First res

theorem attach_good (h : Sound s) {name : String} {minor : Int} {mem : Memory} (hi : i < maxMajors)
    (hname : (s.table i).name = some name) (hbits : (s.table i).minors = some bits) :
    Good s (.attach name minor mem) (attachMinor s.table i bits minor mem).1
      (attachMinor s.table i bits minor mem).2 := by
  obtain rfl : bitsOf s.table i = bits := by
    unfold bitsOf
    rw [hbits]
    rfl
  obtain ⟨hst, ht⟩ | ⟨m, bits', he, hfree, hset, hany⟩ := attachMinor_spec s.table i _ minor mem
  · refine ⟨?_, fun _ => ht, fun _ _ _ _ _ hok => absurd hok hst⟩
    have hsame : account s.live (attachMinor s.table i (bitsOf s.table i) minor mem).1
        (.attach name minor mem) = s.live := if_neg hst
    rw [ht, hsame]
    exact h
  rw [he]
  refine ⟨h.attach hi hname hfree hset, absurd rfl, ?_⟩
  rintro _ _ _ ⟨⟩ hneg -
  rw [hany hneg]
  exact h.first

theorem attach_step (h : Sound s) {name : String} {minor : Int} {mem : Memory}
    (hok : s.Regular (.attach name minor mem)) :
    ∃ res t, rsrcMinor s.table (.attach name minor mem) = some (res, t) ∧
      Good s (.attach name minor mem) res t := by
  obtain ⟨hf, hnf⟩ := search_spec s.table (fun _ n => n = name) (Nat.le_refl maxMajors)
  simp only [rsrcMinor]
  generalize search s.table (fun _ n => decide (n = name)) maxMajors = r at hf hnf
  obtain ⟨e, f⟩ := r
  split
  · rename_i hfound
    obtain ⟨he, n, hn, hhit⟩ := hf hfound
    cases of_decide_eq_true hhit
    cases hm : (s.table e).minors with
    | none => exact absurd hm (h.minors e (by rw [hn]; nofun))
    | some bits => exact ⟨_, _, rfl, attach_good h he hn hm⟩
  rename_i hfound
  obtain ⟨hnew, hfree⟩ := hnf (by simpa using hfound)
  have hnew : ∀ k < maxMajors, (s.table k).name ≠ some name := fun k hk hn =>
    absurd (hnew k hk name hn) (by simp)
  split
  · exact ⟨_, _, rfl, h, fun _ => rfl, fun _ _ _ _ _ hc => by cases hc⟩
  rename_i hroom
  obtain ⟨hlt, hmname, hfirst, hmore⟩ := hok hnew
  obtain ⟨he, hnone⟩ := hfree.resolve_left hroom
  obtain ⟨bits, hn, hbits⟩ : ∃ bits, newName s.table e name mem =
      some (setEntry s.table e ⟨some name, some bits⟩, bits) ∧
      ∀ k, isSet bits k = isSet (bitsOf s.table e) k := by
    unfold newName bitsOf
    rw [if_pos hmname]
    cases hm : (s.table e).minors with
    | some bits => exact ⟨bits, rfl, fun _ => rfl⟩
    | none =>
      refine ⟨[0], if_pos hfirst, fun k => ?_⟩
      rw [isSet_of_zero (by simp)]
      exact (isSet_of_ge (Nat.zero_le _)).symm
  rw [hn]
  have h1 := h.newName hnone hnew hbits
  have hst : (attachMinor (setEntry s.table e ⟨some name, some bits⟩) e bits minor mem).1.status =
      .eok := attachMinor_new (fun k => (hbits k).trans (h.unnamed hnone k)) hmore hlt
  have hg : Good ⟨setEntry s.table e ⟨some name, some bits⟩, s.live⟩ (.attach name minor mem) _ _ :=
    attach_good h1 he (congrArg Devno.name (setEntry_self _ _ _))
      (congrArg Devno.minors (setEntry_self _ _ _))
  exact ⟨_, _, rfl, hg.sound, absurd hst, hg.first⟩

theorem minor_split {minor : Int} (h0 : 0 ≤ minor) (hlt : minor < maxMinors) :
    (minor.tdiv 8 % 65536).toNat = minor.toNat / 8 ∧
      (minor.tmod 8 % 256).toNat = minor.toNat % 8 := by
  unfold maxMinors at hlt
  rw [Int.tdiv_eq_ediv_of_nonneg h0, Int.tmod_eq_emod_of_nonneg h0]
  omega

theorem detach_step (h : Sound s) {major minor : Int} (hok : s.Regular (.detach major minor)) :
    ∃ res t, rsrcMinor s.table (.detach major minor) = some (res, t) ∧
      Good s (.detach major minor) res t := by
  obtain ⟨hf, -⟩ := search_spec s.table (fun i _ => (i : Int) = major) (Nat.le_refl maxMajors)
  simp only [rsrcMinor]
  generalize search s.table (fun i _ => decide ((i : Int) = major)) maxMajors = r at hf
  obtain ⟨e, f⟩ := r
  have hfail : Good s (.detach major minor) ⟨.einval, 0, 0⟩ s.table := ⟨h, fun _ => rfl, nofun⟩
  split
  · rename_i hfound
    obtain ⟨he, n, hn, hhit⟩ := hf hfound
    have hname : (s.table e).name ≠ none := by
      rw [hn]
      nofun
    cases hm : (s.table e).minors with
    | none => exact absurd hm (h.minors e hname)
    | some bits =>
      have hb : bitsOf s.table e = bits := by
        unfold bitsOf
        rw [hm]
        rfl
      unfold detachMinor
      dsimp only
      split
      · exact ⟨_, _, rfl, h, fun _ => rfl, nofun⟩
      rename_i hlt
      obtain ⟨h0, hlen⟩ := hok e he (of_decide_eq_true hhit) hname (Int.not_le.mp hlt)
      obtain ⟨hidx, hbit⟩ := minor_split h0 (Int.not_le.mp hlt)
      rw [hidx, hbit, Nat.div_add_mod, if_neg (by rw [hb] at hlen; omega)]
      refine ⟨_, _, rfl, ?_, absurd rfl, nofun⟩
      exact h.detach fun k => by
        rw [hb] at hlen ⊢
        exact isSet_clear hlen
  · exact ⟨_, _, rfl, hfail⟩

theorem minor_step {req : Request} (h : Sound s) (hok : s.Regular req) :
    ∃ res t, rsrcMinor s.table req = some (res, t) ∧ Good s req res t := by
  cases req with
  | attach name minor mem => exact attach_step h hok
  | detach major minor => exact detach_step h hok

theorem sound_start (h : s.Start) : Sound s := by
  obtain ⟨t, live⟩ := s
  obtain ⟨rfl, rfl⟩ := h
  refine ⟨fun i m => ⟨fun hset => ?_, fun ⟨a, ha, _⟩ => nomatch ha⟩, nofun, fun i hn => absurd rfl hn,
    nofun, nofun, nodup_nil⟩
  have hno : isSet (bitsOf (fun _ => ⟨none, none⟩) i) m = false := isSet_of_ge (Nat.zero_le _)
  rw [hno] at hset
  cases hset

/-- Attachments have numbers of their own and one major for a name; every further request is done
within the bitmaps, changes nothing if it fails, and gives the first free minor if any will do. -/
theorem minors_given_once (h : Reach MinorSt.Start MinorSt.Regular MinorSt.step s) :
    (s.live.map fun a => (a.major, a.minor)).Nodup ∧
    (∀ a ∈ s.live, ∀ b ∈ s.live, a.name = b.name → a.major = b.major) ∧
    ∀ req, s.Regular req → ∃ res t, rsrcMinor s.table req = some (res, t) ∧
      (res.status ≠ .eok → t = s.table) ∧
      ∀ name minor mem, req = .attach name minor mem → minor < 0 → res.status = .eok →
        s.First res := by
  have hs : Sound s := by
    refine h.invariant_of_total (fun s hs => sound_start hs) fun s o hs hok => ?_
    obtain ⟨res, t, he, hg⟩ := minor_step hs hok
    exact ⟨_, by rw [MinorSt.step, he]; rfl, hg.sound⟩
  refine ⟨hs.nodup, fun a ha b hb he => ?_, fun req hok => ?_⟩
  · have hna := hs.named a ha
    rw [he] at hna
    exact hs.names a.major b.major b.name (hs.range a ha) (hs.range b hb) hna (hs.named b hb)
  · obtain ⟨res, t, he, hg⟩ := minor_step hs hok
    exact ⟨res, t, he, hg.failed, hg.first⟩

/-! ### Small tables -/

def noMajors : MinorSt := ⟨fun _ => ⟨none, none⟩, []⟩

def plenty : Memory := ⟨true, true, true⟩

instance (s : MinorSt) (req : Request) : Decidable (s.Regular req) :=
  match req with
  | .attach _ _ _ => inferInstanceAs (Decidable ((∀ k < maxMajors, _ ≠ _) → _))
  | .detach _ _ => inferInstanceAs (Decidable (∀ k < maxMajors, _ = _ → _ ≠ _ → _ < _ → _ ∧ _))

theorem minors_given_once_any : ∃ s, Reach MinorSt.Start MinorSt.Regular MinorSt.step s ∧
    s.live = [⟨"eth", 0, 9⟩, ⟨"eth", 0, 0⟩] ∧
    ∃ res t, rsrcMinor s.table (.attach "eth" (-1) plenty) = some (res, t) ∧ s.First res := by
  refine exists_reach (s := noMajors) ⟨rfl, rfl⟩ [.attach "eth" (-1) plenty, .attach "eth" 9 plenty]
    (by decide +kernel) fun s hr
      (hq : s.live = [⟨"eth", 0, 9⟩, ⟨"eth", 0, 0⟩] ∧ s.Regular (.attach "eth" (-1) plenty) ∧
      (rsrcMinor s.table (.attach "eth" (-1) plenty)).any (·.1.status = .eok)) => ?_
  obtain ⟨hl, hok, hst⟩ := hq
  obtain ⟨res, t, he, -, hfirst⟩ := (minors_given_once hr).2.2 _ hok
  rw [he] at hst
  exact ⟨hl, res, t, he, hfirst _ _ _ rfl (by decide) (of_decide_eq_true hst)⟩

/-- An attach that fails leaves its name behind; a detach reaches behind the bitmap. -/
theorem minors_misplaced :
    (∃ res t, rsrcMinor noMajors.table (.attach "eth" 1024 plenty) = some (res, t) ∧
      res.status = .einval ∧ (t 0).name = some "eth" ∧ t ≠ noMajors.table) ∧
    ∃ s, Reach MinorSt.Start (fun _ _ => True) MinorSt.step s ∧ s.live = [⟨"eth", 0, 3⟩] ∧
      rsrcMinor s.table (.detach 0 8) = none ∧ rsrcMinor s.table (.detach 0 (-1)) = none := by
  constructor
  · have hany : (rsrcMinor noMajors.table (.attach "eth" 1024 plenty)).any (fun r =>
        r.1.status = .einval ∧ (r.2 0).name = some "eth") = true := by decide +kernel
    obtain ⟨⟨res, t⟩, hr, hq⟩ := (any_eq_true _ _).mp hany
    obtain ⟨hst, hn⟩ := of_decide_eq_true hq
    refine ⟨res, t, hr, hst, hn, fun he => ?_⟩
    rw [he] at hn
    cases hn
  · refine exists_reach (s := noMajors) ⟨rfl, rfl⟩ [.attach "eth" 3 plenty]
      (by decide +kernel) fun s hr
        (hq : s.live = [⟨"eth", 0, 3⟩] ∧ (rsrcMinor s.table (.detach 0 8)).isNone ∧
        (rsrcMinor s.table (.detach 0 (-1))).isNone) => ?_
    obtain ⟨hl, h1, h2⟩ := hq
    exact ⟨hl, isNone_iff_eq_none.mp h1, isNone_iff_eq_none.mp h2⟩

end Qnx.Rsrc
