import Mathlib.Algebra.Group.Nat.Defs
import Mathlib.Data.List.TakeDrop
import Mathlib.Data.List.TakeWhile

/-!
# The program loader

The length of a note is a sum of 32-bit fields of the file, and may wrap. `searchpath` puts the name
of each file together in one buffer.
-/

namespace Qnx.Proc

open List

/-! ### The notes of a program -/

/-- `(n + 3) & ~3` -/
def pad4 (n : BitVec 32) : BitVec 32 := (n + 3) &&& ~~~3

/-- The two sizes at each offset: after the data, what the buffer and the stack hold there. -/
abbrev Notes := Nat → BitVec 32 × BitVec 32

/-- `len`, as it is compared with the unsigned `size`. -/
def Notes.len (m : Notes) (note : Nat) : Nat := (12 + pad4 (m note).1 + pad4 (m note).2).toNat

/-- One turn of the loop of `elf_load`, from the note at `note` with `size` bytes left: `none` where
the loop is left. -/
def Notes.step (m : Notes) : Nat × Nat → Option (Nat × Nat)
  | (note, size) => if size = 0 ∨ size < m.len note then none
    else some (note + m.len note, size - m.len note)

/-- Where the walk is after `k` notes of a segment of `filesz` bytes: `none` once it has ended.
Less than `sizeof *note` bytes are not looked at, and no more than `sizeof buffer` are read. -/
def Notes.walk (m : Notes) (filesz : Nat) : Nat → Option (Nat × Nat)
  | 0 => if 16 ≤ filesz then some (0, min filesz 512) else none
  | k + 1 => (m.walk filesz k).bind m.step

/-- The walk comes to the note at `note`. -/
def Notes.ComesTo (m : Notes) (filesz note : Nat) : Prop :=
  ∃ k size, m.walk filesz k = some (note, size) ∧ 0 < size

section Notes
variable {m : Notes} {filesz : Nat}

theorem walk_succ {k note size : Nat} (h : m.walk filesz (k + 1) = some (note, size)) :
    ∃ last left, m.walk filesz k = some (last, left) ∧ m.ComesTo filesz last ∧
      m.len last ≤ left ∧ note = last + m.len last ∧ size = left - m.len last := by
  obtain ⟨⟨last, left⟩, hk, hs⟩ := Option.bind_eq_some_iff.mp h
  by_cases hl : left = 0 ∨ left < m.len last
  · simp [Notes.step, hl] at hs
  · simp only [Notes.step, if_neg hl, Option.some.injEq, Prod.mk.injEq] at hs
    exact ⟨last, left, hk, ⟨k, left, hk, by omega⟩, by omega, hs.1.symm, hs.2.symm⟩

/-- Where every note come to has `d` bytes or more, `k` notes have `d * k`. -/
theorem walk_passes {d : Nat} (hd : ∀ note, m.ComesTo filesz note → d ≤ m.len note) {k : Nat} :
    ∀ {note size}, m.walk filesz k = some (note, size) →
      note + size = min filesz 512 ∧ d * k ≤ note := by
  induction k with
  | zero =>
    intro note size h
    rw [Notes.walk] at h
    split at h
    · cases h
      exact ⟨Nat.zero_add _, Nat.le_refl 0⟩
    · cases h
  | succ k ih =>
    intro note size h
    obtain ⟨last, left, hk, hc, hle, rfl, rfl⟩ := walk_succ h
    have := ih hk
    have := hd last hc
    rw [Nat.mul_succ]
    omega

theorem walk_ends {d : Nat} (hpos : 0 < d)
    (hd : ∀ note, m.ComesTo filesz note → d ≤ m.len note) :
    m.walk filesz (min filesz 512 / d + 1) = none := by
  cases h : m.walk filesz (min filesz 512 / d + 1) with
  | none => rfl
  | some p =>
    have := walk_passes hd h
    have := Nat.lt_mul_div_succ (min filesz 512) hpos
    omega

/-- A note of length 0 is come to again. -/
theorem walk_stays {k note size : Nat} (h : m.walk filesz k = some (note, size)) (hs : 0 < size)
    (h0 : m.len note = 0) (n : Nat) : m.walk filesz (k + n) = some (note, size) := by
  induction n with
  | zero => exact h
  | succ n ih =>
    rw [← Nat.add_assoc, Notes.walk, ih]
    simp [Notes.step, h0]
    omega

theorem walk_none {k : Nat} (h : m.walk filesz k = none) (n : Nat) :
    m.walk filesz (k + n) = none := by
  induction n with
  | zero => exact h
  | succ n ih => rw [← Nat.add_assoc, Notes.walk, ih, Option.bind_none]

/-- A length below `2 ^ 32` is that of the header or more. -/
theorem le_len {note : Nat}
    (h : 12 + (pad4 (m note).1).toNat + (pad4 (m note).2).toNat < 2 ^ 32) : 12 ≤ m.len note := by
  have h12 : BitVec.toNat (12 : BitVec 32) = 12 := rfl
  rw [Notes.len, BitVec.toNat_add, BitVec.toNat_add, h12]
  omega

/-- Without a note whose length wraps the walk ends within `size / sizeof note->nhdr` notes; it ends
at all exactly when no note come to has length 0. -/
theorem note_walk_ends (m : Notes) (filesz : Nat) :
    ((∀ note, m.ComesTo filesz note →
        12 + (pad4 (m note).1).toNat + (pad4 (m note).2).toNat < 2 ^ 32) →
      m.walk filesz (min filesz 512 / 12 + 1) = none) ∧
    ((∃ n, m.walk filesz n = none) ↔ ∀ note, m.ComesTo filesz note → m.len note ≠ 0) := by
  refine ⟨fun h => walk_ends (by decide) fun note hc => le_len (h note hc), ?_, fun h => ?_⟩
  · rintro ⟨n, hn⟩ note ⟨k, size, hk, hs⟩ h0
    have := walk_stays hk hs h0 n
    rw [Nat.add_comm, walk_none hn k] at this
    cases this
  · exact ⟨_, walk_ends Nat.one_pos fun note hc => Nat.one_le_iff_ne_zero.mpr (h note hc)⟩

/-- A note of length `2 ^ 32` is walked over for ever. -/
theorem note_walk_stuck : ¬∃ n, Notes.walk (fun _ => (0, 0xfffffff4)) 16 n = none := by
  rintro ⟨n, hn⟩
  have h0 : Notes.walk (fun _ => (0, 0xfffffff4)) 16 0 = some (0, 16) := rfl
  have := walk_stays h0 (by decide) (by decide) n
  rw [Nat.zero_add, hn] at this
  cases this

end Notes

/-! ### The search for a program -/

/-- A string, without its NUL. -/
abbrev Text := List Char

/-- What stands in the buffer before the name. -/
def dirPart (c : Text) : Text := if c = [] ∨ c.getLast? = some '/' then c else c ++ ['/']

/-- The string passed to `is_exec`: `STRLCPY` is given the room that is left without the name. -/
def tried (name : Text) (bufsize : Nat) (c : Text) : Text :=
  dirPart c ++ name.take (bufsize - name.length - (dirPart c).length - 1)

/-- The strings that the loop of `searchpath` passes to `is_exec`. Every turn but the last passes a
colon. -/
def searchLoop (exec : Text → Bool) (name : Text) (bufsize : Nat) : Nat → Text → List Text
  | 0, _ => []
  | fuel + 1, path =>
    let c := path.takeWhile (· != ':')
    if c.length < bufsize - name.length then
      tried name bufsize c :: if exec (tried name bufsize c) then [] else
        match path.dropWhile (· != ':') with
        | [] => []
        | _ :: path => searchLoop exec name bufsize fuel path
    else []

def searchpath (exec : Text → Bool) (name : Text) (bufsize : Nat) (path : Text) : List Text :=
  if name = [] ∨ path = [] then [] else searchLoop exec name bufsize (path.length + 1) path

/-- How much of the buffer is written in the turn of a component. -/
def written (name : Text) (bufsize : Nat) (c : Text) : Nat :=
  if c.length < bufsize - name.length then (tried name bufsize c).length + 1
  else bufsize - name.length

/-- The file of a component. -/
def file (name c : Text) : Text := if c = [] then name else c ++ '/' :: name

/-- What is tried for a list of components. -/
def attempts (exec fits : Text → Bool) (make : Text → Text) : List Text → List Text
  | [] => []
  | c :: cs => if fits c then make c :: if exec (make c) then [] else attempts exec fits make cs
    else []

/-- Each component come to is told from one that does not fit, and its file is put together whole. -/
def Whole (exec : Text → Bool) (name : Text) (bufsize : Nat) : List Text → Prop
  | [] => True
  | c :: cs => (c.length + name.length + 1 ≠ bufsize ∧ (c.length + name.length < bufsize →
      c.getLast? ≠ some '/' ∧ (file name c).length + name.length < bufsize)) ∧
    ((file name c).length < bufsize → ¬exec (file name c) → Whole exec name bufsize cs)

section Path
variable {exec : Text → Bool} {name : Text} {bufsize : Nat}

theorem searchLoop_eq (fuel : Nat) (path : Text) (h : path.length < fuel) :
    searchLoop exec name bufsize fuel path =
      attempts exec (fun c => c.length < bufsize - name.length) (tried name bufsize)
        (path.splitOn ':') := by
  induction fuel generalizing path with
  | zero => omega
  | succ fuel ih =>
    have hn : ':' ∉ path.takeWhile (· != ':') := fun hm => by simpa using mem_takeWhile_imp hm
    have hp := takeWhile_append_dropWhile (p := (· != ':')) (l := path)
    rw [searchLoop]
    cases hd : path.dropWhile (· != ':') with
    | nil =>
      rw [hd, append_nil] at hp
      rw [hp] at hn ⊢
      simp [splitOn_eq_singleton hn, attempts]
    | cons a rest =>
      have ha : a = ':' := by
        have := head_dropWhile_not (· != ':') (l := path) (by simp [hd])
        simpa [hd] using this
      subst ha
      rw [hd] at hp
      generalize path.takeWhile (· != ':') = c at *
      subst hp
      rw [splitOn_append_cons_self_of_not_mem hn, attempts, ← ih rest (by simp at h; omega)]
      simp

section

variable (hn : name ≠ []) (hb : name.length < bufsize)
include hn hb

theorem tried_eq_iff (c : Text) : (c.length + name.length + 1 ≠ bufsize ∧
      (c.length + name.length < bufsize →
        c.getLast? ≠ some '/' ∧ (file name c).length + name.length < bufsize)) ↔
    (c.length < bufsize - name.length ↔ (file name c).length < bufsize) ∧
      ((file name c).length < bufsize → tried name bufsize c = file name c) := by
  have hpos := length_pos_iff.mpr hn
  by_cases hc : c = []
  · subst hc
    simp [file, tried, dirPart]
    omega
  have hlen : (file name c).length = c.length + 1 + name.length := by simp [file, hc]; omega
  rw [hlen]
  by_cases hl : c.getLast? = some '/'
  · have hne : tried name bufsize c ≠ file name c := fun he => by
      have := congrArg length he
      rw [hlen, tried, dirPart, if_pos (.inr hl), length_append, length_take] at this
      omega
    simp only [hl, hne, ne_eq, not_true_eq_false, false_and, imp_false]
    omega
  · have he : tried name bufsize c = file name c ↔
        name.length ≤ bufsize - name.length - (c.length + 1) - 1 := by
      simp [tried, file, dirPart, hc, hl]
    simp only [he, ne_eq, hl, not_false_eq_true, true_and]
    omega

theorem attempts_iff (cs : List Text) :
    attempts exec (fun c => c.length < bufsize - name.length) (tried name bufsize) cs =
      attempts exec (fun c => (file name c).length < bufsize) (file name) cs ↔
    Whole exec name bufsize cs := by
  induction cs with
  | nil => simp [attempts, Whole]
  | cons c cs ih =>
    rw [Whole, tried_eq_iff hn hb, ← ih, attempts, attempts]
    by_cases hf : c.length < bufsize - name.length
    · by_cases hf' : (file name c).length < bufsize
      · by_cases hm : tried name bufsize c = file name c
        · cases he : exec (file name c) <;> simp [hf, hf', hm, he]
        · simp [hf, hf', hm]
      · simp [hf, hf']
    · by_cases hf' : (file name c).length < bufsize <;> simp [hf, hf']

theorem written_le (c : Text) : written name bufsize c ≤ bufsize := by
  have hpos := length_pos_iff.mpr hn
  have hd : (dirPart c).length ≤ c.length + 1 := by
    unfold dirPart
    split <;> simp
  rw [written, tried, length_append, length_take]
  split <;> omega

end

theorem searchpath_iff (exec : Text → Bool) (hb : name.length < bufsize) (path : Text) :
    (searchpath exec name bufsize path =
      attempts exec (fun c => (file name c).length < bufsize) (file name) (path.splitOn ':') ∧
      (name ≠ [] → ∀ c, written name bufsize c ≤ bufsize)) ↔
    (name ≠ [] ∧ path ≠ [] ∧ Whole exec name bufsize (path.splitOn ':')) ∨
      (name = [] ∧ ∀ c ∈ (path.splitOn ':').head?, bufsize ≤ (file name c).length) := by
  rw [and_iff_left fun hn => written_le hn hb]
  by_cases hn : name = []
  · cases hs : path.splitOn ':' <;> simp [searchpath, hn, attempts]
  by_cases hp : path = []
  · simp [searchpath, hp, hn, attempts, file, hb]
  · rw [searchpath, if_neg (by simp [hn, hp]), searchLoop_eq _ _ (Nat.lt_succ_self _),
      attempts_iff hn hb]
    simp [hn, hp]

end Path

theorem searchpath_iff_third :
    searchpath (· == ['c', '/', 'a']) ['a'] 8 ['b', ':', ':', 'c', ':', 'd'] =
      [['b', '/', 'a'], ['a'], ['c', '/', 'a']] :=
  ((searchpath_iff (· == ['c', '/', 'a']) (by decide) ['b', ':', ':', 'c', ':', 'd']).mpr
    (.inl ⟨by decide, by decide, by decide, fun _ _ => ⟨by decide, fun _ _ =>
      ⟨by decide, fun _ h => absurd rfl h⟩⟩⟩)).1

/-- The name is cut though the file would fit, and another file is tried. -/
theorem searchpath_cuts : searchpath (fun _ => true) ['a', 'b'] 6 ['c'] = [['c', '/', 'a']] := by
  decide

end Qnx.Proc
