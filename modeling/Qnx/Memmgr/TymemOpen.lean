import Qnx.Shared.PriQueue

/-!
# Opening and closing typed memory

`memmgr_tymem_open`, `memmgr_tymem_close` and `tymem_done` as the calls they make on the heap. A
block is known by the number of its allocation, and 0 is `NULL`.
-/

namespace Qnx.Memmgr.TymemOpen

open Function List PriQueue Option Prod

inductive HeapEv where
  | alloc (b size : Nat)
  | free (b size : Nat)
  | read (b : Nat)

/-- The sizes of the blocks in use. There is no result when a block that is not in use is read or
freed, or when one is freed with another size than its own. -/
def HeapEv.run (live : Nat → Option Nat) : HeapEv → Option (Nat → Option Nat)
  | .alloc b size => some (update live b (some size))
  | .free b size => if live b = some size then some (update live b none) else none
  | .read b => if (live b).isSome then some live else none

def Clean (evs : List HeapEv) : Prop :=
  evs.foldlM HeapEv.run (fun _ => none) = some fun _ => none

structure AsEntry where
  matched : Bool
  priority : Nat

structure OpenEnv where
  -- `memclass_find` and `mempart_getid` find the class and the partition.
  found : Bool
  associated : Bool
  nameLen : Nat
  -- `strlen` of the bytes behind the block of an empty name.
  behind : Nat
  objectLen : Nat
  parLen : Nat
  asinfo : List AsEntry
  -- Whether the allocation of block `b` succeeds.
  mem : Nat → Bool

namespace OpenEnv

variable (e : OpenEnv)

-- An entry of the restriction list is its block with the priority of its address space.
def killRestrict (par : List (Nat × Nat)) : List HeapEv :=
  par.flatMap fun p => [.read p.1, .free p.1 e.parLen]

def findOwner (priority : Nat) : List (Nat × Nat) → List HeapEv
  | [] => []
  | p :: par => .read p.1 :: if p.2 < priority then [] else findOwner priority par

def restrictLoop : List AsEntry → Nat → List (Nat × Nat) → List HeapEv × Option (List (Nat × Nat))
  | [], _, par => ([], some par)
  | as :: rest, b, par =>
    if as.matched then
      if e.mem b then
        let r := restrictLoop rest (b + 1) (insertGE snd (b, as.priority) par)
        (findOwner as.priority par ++ .alloc b e.parLen :: r.1, r.2)
      else (findOwner as.priority par ++ e.killRestrict par, none)
    else restrictLoop rest b par

def restrictCreate : List HeapEv × Option (List (Nat × Nat)) :=
  match e.restrictLoop e.asinfo 3 [] with
  | (evs, some (p :: par)) => (evs ++ (p :: par).map (.read ·.1), some (p :: par))
  | (evs, _) => (evs, none)

-- `_sfree(name, strlen(name + 1))` frees two bytes less than `open` took.
def tymemDone (name : Nat) : List HeapEv :=
  if name = 0 ∨ 0 < e.nameLen then [.read 1, .read name, .free name (e.nameLen - 1)]
  else [.read 1, .free name e.behind]

def objectDone (name : Nat) : List HeapEv :=
  e.tymemDone name ++ [.read 1, .free 1 e.objectLen]

def memmgrTymemOpen : List HeapEv × Option (List (Nat × Nat)) :=
  if ¬e.found ∨ ¬e.mem 1 then ([], none)
  else if ¬e.associated then ([.alloc 1 e.objectLen, .read 1, .free 1 e.objectLen], none)
  else if ¬e.mem 2 then (.alloc 1 e.objectLen :: e.objectDone 0, none)
  else
    let names := [.alloc 1 e.objectLen, .alloc 2 (e.nameLen + 1)]
    match e.restrictCreate with
    | (evs, some par) => (names ++ evs, some par)
    | (evs, none) => (names ++ evs ++ .free 2 (e.nameLen + 1) :: e.objectDone 2, none)

def memmgrTymemClose (par : List (Nat × Nat)) : List HeapEv :=
  .read 1 :: e.killRestrict par ++ e.objectDone 2

def life : List HeapEv :=
  match e.memmgrTymemOpen with
  | (evs, some par) => evs ++ e.memmgrTymemClose par
  | (evs, none) => evs

def entries : Nat := e.asinfo.countP AsEntry.matched

/-- The blocks of a restriction list come on top of what was in use before it. -/
def own (live : Nat → Option Nat) (par : List (Nat × Nat)) (b : Nat) : Option Nat :=
  if b ∈ par.map fst then some e.parLen else live b

variable {e} {live : Nat → Option Nat} {par : List (Nat × Nat)}

theorem run_reads {evs : List HeapEv} (h : ∀ ev ∈ evs, ∃ b, ev = .read b ∧ (live b).isSome) :
    evs.foldlM HeapEv.run live = some live := by
  induction evs with
  | nil => rfl
  | cons ev evs ih =>
    obtain ⟨b, rfl, hb⟩ := h ev (by simp)
    have ih := ih (forall_mem_cons.mp h).2
    simp [HeapEv.run, hb, ih]

theorem own_isSome {p : Nat × Nat} (hp : p ∈ par) : (e.own live par p.1).isSome := by
  have : p.1 ∈ par.map fst := mem_map_of_mem hp
  simp only [own, if_pos this, isSome_some]

theorem mem_findOwner {priority : Nat} {ev : HeapEv} (h : ev ∈ findOwner priority par) :
    ∃ p ∈ par, ev = .read p.1 := by
  induction par with
  | nil => simp [findOwner] at h
  | cons p par ih =>
    rw [findOwner, mem_cons] at h
    obtain rfl | h := h
    · exact ⟨p, by simp, rfl⟩
    split at h
    · simp at h
    · obtain ⟨q, hq, he⟩ := ih h
      exact ⟨q, mem_cons_of_mem _ hq, he⟩

theorem run_findOwner (priority : Nat) :
    (findOwner priority par).foldlM HeapEv.run (e.own live par) = some (e.own live par) := by
  refine run_reads fun ev hev => ?_
  obtain ⟨p, hp, rfl⟩ := mem_findOwner hev
  exact ⟨p.1, rfl, own_isSome hp⟩

/-- The blocks of the list differ, and none of them was in use before it. -/
def Fresh (live : Nat → Option Nat) (par : List (Nat × Nat)) : Prop :=
  (par.map fst).Nodup ∧ ∀ b ∈ par.map fst, live b = none

theorem run_killRestrict (h : Fresh live par) :
    (e.killRestrict par).foldlM HeapEv.run (e.own live par) = some live := by
  induction par with
  | nil => simp [killRestrict, own, funext_iff]
  | cons p par ih =>
    obtain ⟨hnd, hfree⟩ := h
    rw [map_cons, nodup_cons] at hnd
    -- Freeing the head leaves the list behind it.
    have hstep : update (e.own live (p :: par)) p.1 none = e.own live par := by
      funext b
      obtain rfl | hb := eq_or_ne b p.1
      · rw [update_self, own, if_neg hnd.1, hfree _ (by simp)]
      · rw [update_of_ne hb, own, own, map_cons]
        simp only [mem_cons, hb, false_or]
    have hhead : e.own live (p :: par) p.1 = some e.parLen := by simp [own]
    have ih := ih ⟨hnd.2, (forall_mem_cons.mp hfree).2⟩
    rw [killRestrict] at ih ⊢
    simp [HeapEv.run, hhead, hstep, ih]

theorem own_insertGE (b priority : Nat) : update (e.own live par) b (some e.parLen) =
      e.own live (insertGE snd (b, priority) par) := by
  have hmem (x : Nat) : x ∈ (insertGE snd (b, priority) par).map fst ↔ x = b ∨ x ∈ par.map fst := by
    rw [((perm_insertGE snd (b, priority) par).map fst).mem_iff, map_cons, mem_cons]
  funext x
  obtain rfl | hx := eq_or_ne x b
  · rw [update_self, own, if_pos ((hmem x).2 (.inl rfl))]
  · rw [update_of_ne hx, own, own]
    simp only [hmem, hx, false_or]

theorem Fresh.insertGE {b : Nat} (h : Fresh live par) (hb : b ∉ par.map fst)
    (hlive : live b = none) (priority : Nat) :
    Fresh live (insertGE snd (b, priority) par) := by
  have hp := (perm_insertGE snd (b, priority) par).map fst
  refine ⟨hp.nodup_iff.2 (nodup_cons.2 ⟨hb, h.1⟩), fun x hx => ?_⟩
  obtain rfl | hx := mem_cons.1 (hp.mem_iff.1 hx)
  · exact hlive
  · exact h.2 x hx

/-- A loop that fails gives back every block it took; one that succeeds holds its list. -/
theorem run_restrictLoop (as : List AsEntry) (b : Nat) (h : Fresh live par)
    (hpar : ∀ x ∈ par.map fst, x < b) (hlive : ∀ x, b ≤ x → live x = none) :
    let r := e.restrictLoop as b par
    (r.2 = none ∧ (∃ k < as.countP AsEntry.matched, ¬e.mem (b + k)) ∧
      r.1.foldlM HeapEv.run (e.own live par) = some live) ∨
    ∃ par', r.2 = some par' ∧ (∀ k < as.countP AsEntry.matched, e.mem (b + k)) ∧
      par'.length = par.length + as.countP AsEntry.matched ∧ Fresh live par' ∧
      r.1.foldlM HeapEv.run (e.own live par) = some (e.own live par') := by
  induction as generalizing b par with
  | nil => exact .inr ⟨par, by simp [restrictLoop, h]⟩
  | cons as rest ih =>
    rw [restrictLoop]
    by_cases hm : as.matched
    · rw [if_pos hm, countP_cons_of_pos hm]
      by_cases hb : e.mem b
      · have hnot : b ∉ par.map fst := fun hin => (hpar b hin).false
        have hp := (perm_insertGE snd (b, as.priority) par).map fst
        have hlt : ∀ x ∈ (PriQueue.insertGE snd (b, as.priority) par).map fst, x < b + 1 := by
          intro x hx
          obtain rfl | hx := mem_cons.1 (hp.mem_iff.1 hx)
          · exact Nat.lt_succ_self _
          · exact Nat.lt_succ_of_lt (hpar x hx)
        rw [if_pos hb]
        simp only [foldlM_append, foldlM_cons, run_findOwner, HeapEv.run, bind_eq_bind,
          bind_some, own_insertGE b as.priority]
        obtain ⟨hn, ⟨k, hk, hmem⟩, hl⟩ | ⟨par', hs, hmem, hlen, hf, hl⟩ :=
          ih (b + 1) (h.insertGE hnot (hlive b le_rfl) _) hlt fun x hx => hlive x (by omega)
        · exact .inl ⟨hn, ⟨k + 1, by omega, by rwa [show b + (k + 1) = b + 1 + k by omega]⟩, hl⟩
        · refine .inr ⟨par', hs, fun k hk => ?_, ?_, hf, hl⟩
          · cases k with
            | zero => exact hb
            | succ k => rw [show b + (k + 1) = b + 1 + k by omega]; exact hmem k (by omega)
          · rw [hlen, (perm_insertGE snd (b, as.priority) par).length_eq, length_cons]
            omega
      · rw [if_neg hb]
        refine .inl ⟨rfl, ⟨0, by omega, hb⟩, ?_⟩
        simp only [foldlM_append, run_findOwner, bind_eq_bind, bind_some, run_killRestrict h]
    · rw [if_neg hm, countP_cons_of_neg hm]
      exact ih b h hpar hlive

def held (e : OpenEnv) : Nat → Option Nat :=
  update (update (fun _ => none) 1 (some e.objectLen)) 2 (some (e.nameLen + 1))

theorem held_of_three_le {b : Nat} (h : 3 ≤ b) : e.held b = none := by
  rw [held, update_of_ne (by omega), update_of_ne (by omega)]

def Restricts (e : OpenEnv) : Prop := 0 < e.entries ∧ ∀ k < e.entries, e.mem (3 + k)

theorem run_restrictCreate : (e.restrictCreate.2 = none ∧ ¬e.Restricts ∧
      e.restrictCreate.1.foldlM HeapEv.run e.held = some e.held) ∨
    ∃ par, e.restrictCreate.2 = some par ∧ e.Restricts ∧ Fresh e.held par ∧
      e.restrictCreate.1.foldlM HeapEv.run e.held = some (e.own e.held par) := by
  have hnil : e.own e.held [] = e.held := by simp [own, funext_iff]
  have hfresh : Fresh e.held [] := by simp [Fresh]
  have hloop := run_restrictLoop (e := e) e.asinfo 3 hfresh (by simp) fun _ => held_of_three_le
  rw [restrictCreate]
  generalize e.restrictLoop e.asinfo 3 [] = r at hloop
  obtain ⟨evs, res⟩ := r
  obtain ⟨rfl, ⟨k, hk, hmem⟩, hrun⟩ | ⟨par, rfl, hmem, hlen, hf, hrun⟩ := hloop
  · exact .inl ⟨rfl, fun h => hmem (h.2 k hk), hrun⟩
  rw [hnil] at hrun
  rw [length_nil, Nat.zero_add] at hlen
  cases par with
  | nil =>
    exact .inl ⟨rfl, fun h => h.1.ne hlen, hrun⟩
  | cons p par =>
    refine .inr ⟨_, rfl, ⟨by rw [entries, ← hlen, length_cons]; omega, hmem⟩, hf, ?_⟩
    rw [foldlM_append, hrun]
    refine run_reads fun ev hev => ?_
    obtain ⟨q, hq, rfl⟩ := mem_map.1 hev
    exact ⟨q.1, rfl, own_isSome hq⟩

/-- The name is freed with the size it has only when it is empty and one byte follows it. -/
theorem run_objectDone : (e.objectDone 2).foldlM HeapEv.run e.held = some (fun _ => none) ↔
    e.nameLen = 0 ∧ e.behind = 1 := by
  by_cases hn : 0 < e.nameLen
  · have hsize : ¬e.nameLen + 1 = e.nameLen - 1 := by omega
    simp [objectDone, tymemDone, HeapEv.run, held, hn, hsize, hn.ne']
  by_cases hb : e.behind = 1
  · have hempty : update (update e.held 2 none) 1 none = fun _ => none := by
      funext b
      simp only [held, update_apply]
      split_ifs <;> rfl
    simp_all [objectDone, tymemDone, HeapEv.run, held]
  · have hsize : ¬1 = e.behind := Ne.symm hb
    simp_all [objectDone, tymemDone, HeapEv.run, held]

/-- The error path frees the name, and the destructor reads it and frees it again. -/
theorem run_objectDone_freed (name : Nat) (h1 : (live 1).isSome) (h : live name = none) :
    (e.objectDone name).foldlM HeapEv.run live = none := by
  rw [objectDone, tymemDone]
  split_ifs <;> simp [HeapEv.run, h1, h]

theorem clean_names (evs : List HeapEv) :
    Clean ([.alloc 1 e.objectLen, .alloc 2 (e.nameLen + 1)] ++ evs) ↔
      evs.foldlM HeapEv.run e.held = some fun _ => none :=
  Iff.rfl

theorem run_memmgrTymemClose (hf : Fresh e.held par) :
    (e.memmgrTymemClose par).foldlM HeapEv.run (e.own e.held par) =
      (e.objectDone 2).foldlM HeapEv.run e.held := by
  have h1 : (e.own e.held par 1).isSome := by
    rw [own]
    split
    · rfl
    · simp [held]
  rw [memmgrTymemClose, cons_append, foldlM_cons, HeapEv.run, if_pos h1]
  simp only [bind_eq_bind, bind_some, foldlM_append, run_killRestrict hf]

theorem life_clean_iff : Clean e.life ↔ ¬e.found ∨ ¬e.mem 1 ∨ ¬e.associated ∨
    (e.mem 2 ∧ e.Restricts ∧ e.nameLen = 0 ∧ e.behind = 1) := by
  rw [life, memmgrTymemOpen]
  by_cases h1 : ¬e.found ∨ ¬e.mem 1
  · rw [if_pos h1]
    exact iff_of_true rfl (h1.imp_right .inl)
  obtain ⟨hfound, hmem⟩ := not_or.1 h1
  rw [if_neg h1, or_iff_right hfound, or_iff_right hmem]
  by_cases ha : ¬e.associated
  · rw [if_pos ha]
    refine iff_of_true ?_ (.inl ha)
    simp [Clean, HeapEv.run]
  rw [if_neg ha, or_iff_right ha]
  by_cases h2 : ¬e.mem 2
  · rw [if_pos h2]
    refine iff_of_false (fun h => ?_) fun h => h2 h.1
    cases h
  rw [if_neg h2, and_iff_right (not_not.1 h2)]
  have hrun := run_restrictCreate (e := e)
  generalize e.restrictCreate = r at hrun
  obtain ⟨evs, res⟩ := r
  obtain ⟨rfl, hno, hrun⟩ | ⟨par, rfl, hr, hf, hrun⟩ := hrun
  · refine iff_of_false (fun h => ?_) fun h => hno h.1
    have hfree : HeapEv.run e.held (.free 2 (e.nameLen + 1)) = some (update e.held 2 none) := by
      simp [HeapEv.run, held]
    simp only [append_assoc, clean_names, foldlM_append, foldlM_cons, hrun, hfree,
      bind_eq_bind, bind_some] at h
    rw [run_objectDone_freed 2 (by simp [held]) (by simp)] at h
    cases h
  · rw [and_iff_right hr, ← run_objectDone, ← run_memmgrTymemClose hf]
    simp only [append_assoc, clean_names, foldlM_append, hrun, bind_eq_bind, bind_some]

def fiveLetters : OpenEnv where
  found := true
  associated := true
  nameLen := 5
  behind := 0
  objectLen := 96
  parLen := 32
  asinfo := [⟨true, 100⟩]
  mem _ := true

theorem fiveLetters_not_clean : ¬Clean fiveLetters.life := by
  -- The six bytes of the name are freed as four.
  have hevs : fiveLetters.life = [.alloc 1 96, .alloc 2 6, .alloc 3 32, .read 3, .read 1, .read 3,
      .free 3 32, .read 1, .read 2, .free 2 4, .read 1, .free 1 96] := rfl
  rw [hevs, Clean]
  simp [HeapEv.run]

end OpenEnv

end Qnx.Memmgr.TymemOpen
