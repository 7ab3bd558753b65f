import Qnx.Ker.ConnectInv

/-!
# The last link

`dropLink` pays what is owed. The last link of a virtual connection is also one of its master, so
the walk goes on there with the virtual connection freed.
-/

namespace Qnx.Ker

open Function Option

namespace ConnSt

variable {cfg : ConnCfg} {s s' s'' : ConnSt} {c m : Nat} {k km : CConn}

structure Leaves (s s' : ConnSt) : Prop where
  clients : ∀ p b i c, s.slot p b i = some ⟨c, false⟩ → s'.slot p b i = some ⟨c, false⟩
  idle : ∀ c k, s.conns c = some k → k.links = 0 → s'.conns c = some k

theorem Leaves.refl (s : ConnSt) : s.Leaves s where
  clients := fun _ _ _ _ h => h
  idle := fun _ _ h _ => h

theorem Leaves.trans (h : s.Leaves s') (h' : s'.Leaves s'') : s.Leaves s'' where
  clients := fun p b i c hs => h'.clients p b i c (h.clients p b i c hs)
  idle := fun c k hc h0 => h'.idle c k (h.idle c k hc h0) h0

theorem setConn_setConn (x y : Option CConn) : (s.setConn c x).setConn c y = s.setConn c y := by
  simp [setConn]

theorem setConn_comm (hne : c ≠ m) (x y : Option CConn) :
    (s.setConn c x).setConn m y = (s.setConn m y).setConn c x := by
  simp only [setConn]
  rw [update_comm hne]

def detachTop (cfg : ConnCfg) (s : ConnSt) (c : Nat) (k : CConn) : ConnSt :=
  match k.channel with
  | some chp =>
    if cfg.disconnect chp then s.setConn c (some { k with process := none })
    else (s.vectorRem (cfg.process chp) true k.scoid).setConn c none
  | none => s.setConn c none

theorem detachTop_setConn (hne : c ≠ m) (x : Option CConn) :
    detachTop cfg (s.setConn c x) m km = (detachTop cfg s m km).setConn c x := by
  unfold detachTop
  split
  · split
    · exact setConn_comm hne _ _
    · exact (setConn_comm (s := s.vectorRem _ true km.scoid) hne x none)
  · exact setConn_comm hne _ _

def unlinkVirtual (s : ConnSt) (m c : Nat) : ConnSt :=
  { s with next := update s.next m ((s.next m).erase c) }.setConn c none

section

variable (hc : s.conns c = some k)
include hc

theorem leaves_setConn (h0 : k.links ≠ 0) (x : Option CConn) : s.Leaves (s.setConn c x) where
  clients := fun _ _ _ _ h => h
  idle := by
    intro c' k' hc' hk'
    rw [conns_setConn, if_neg, hc']
    rintro rfl
    rw [hc] at hc'
    cases hc'
    exact h0 hk'

theorem connectDetach_top (hv : k.vconnect = none) (n : Nat) :
    connectDetach cfg (n + 1) s c = some (detachTop cfg s c k) := by
  rw [connectDetach, hc]
  dsimp only
  rw [hv]
  unfold detachTop
  cases k.channel with
  | none => rfl
  | some chp =>
    dsimp only
    rw [hv]
    split <;> rfl

theorem dropLink_virtual (h1 : k.links = 1) (hv : k.vconnect = some m)
    (hm : s.conns m = some km) (hkm : km.vconnect = none) (hne : c ≠ m) :
    s.dropLink cfg c = (s.unlinkVirtual m c).dropLink cfg m := by
  have hm' : (s.unlinkVirtual m c).conns m = some km := by
    simp only [unlinkVirtual, conns_setConn, if_neg hne.symm]
    exact hm
  have hl : s.dropLink cfg c =
      connectDetach cfg 2 (s.setConn c (some { k with links := k.links - 1 })) c := by
    simp [dropLink, hc, h1]
  rw [hl, connectDetach]
  simp only [conns_setConn, if_pos, if_neg hne.symm, hv, hm]
  -- The master as the walk finds it, with the virtual connection still there.
  have hcomm : ∀ x y, (({ s.setConn c x with
        next := update s.next m ((s.next m).erase c) } : ConnSt).setConn m y).setConn c
          none = (s.unlinkVirtual m c).setConn m y := by
    intro x y
    rw [setConn_comm hne.symm]
    exact congrArg (setConn · m y) (setConn_setConn (s := { s with
      next := update s.next m ((s.next m).erase c) }) _ _)
  rw [dropLink, hm']
  by_cases hl1 : km.links = 1
  · have hl0 : ¬ (km.links = 0) := by omega
    simp only [if_neg hl0]
    rw [connectDetach_top (k := { km with links := km.links - 1 }) (by simp) hkm,
      connectDetach_top (k := { km with links := km.links - 1 }) (by simp) hkm, map_some,
      ← detachTop_setConn hne, ← hcomm _ _]
    rfl
  simp only [if_neg hl1]
  split
  · rfl
  · exact congrArg some (hcomm _ _)

end

end ConnSt

open ConnSt

namespace ConnInv

variable {cfg : ConnCfg} {s : ConnSt} {c m : Nat} {k : CConn}

theorem links_owed (h : ConnInv cfg (some c) s) (hc : s.conns c = some k) :
    k.links = s.count c k + 1 := by
  have := h.links c k hc
  simpa using this

theorem slot_served {owed : Option Nat} {p i : Nat} (h : ConnInv cfg owed s)
    (hc : s.conns c = some k)
    (hsv : k.Served cfg p i) (q : Nat) (d : Bool) (j : Nat) (e : CSlot) :
    (s.vectorRem p true i).slot q d j = some e ↔ s.slot q d j = some e ∧ e ≠ ⟨c, true⟩ := by
  have hs := h.served c k p i hc hsv
  rw [slot_vectorRem]
  constructor
  · intro he
    split at he
    · cases he
    rename_i hne
    refine ⟨he, ?_⟩
    rintro rfl
    obtain ⟨rfl, k', hk', hsv'⟩ := h.server q d j c he
    rw [hc] at hk'
    cases hk'
    apply hne
    have hq := hsv.2.2.2.symm.trans hsv'.2.2.2
    exact ⟨(some.inj hq).symm, rfl, hsv'.2.2.1.symm.trans hsv.2.2.1⟩
  · rintro ⟨he, hne⟩
    rw [if_neg, he]
    rintro ⟨rfl, rfl, rfl⟩
    rw [hs] at he
    cases he
    exact hne rfl

section

variable (h : ConnInv cfg (some c) s) (hc : s.conns c = some k)
include h hc

theorem dropMore (h1 : k.links ≠ 1) :
    ∃ s', s.dropLink cfg c = some s' ∧ ConnInv cfg none s' ∧ s.Leaves s' ∧
      s'.blocked = s.blocked := by
  have hl := h.links_owed hc
  have hpos : k.links ≠ 0 := by omega
  refine ⟨s.setConn c (some { k with links := k.links - 1 }), ?_, ?_, leaves_setConn hc hpos _, rfl⟩
  · simp only [dropLink, hc, if_neg hpos, if_neg h1]
  · apply h.relink hc
    · exact ⟨rfl, rfl, rfl, rfl, rfl, rfl, rfl, rfl⟩
    · exact .inl rfl
    · simp only [count] at hl ⊢
      simp only [reduceCtorEq, if_false]
      omega
    · intro c' hcc
      simp [Ne.symm hcc]
    · intro hz
      dsimp only at hz
      omega

theorem dropTop (hv : k.vconnect = none) (hg : k.global = true → 2 ≤ k.links) :
    ∃ s', s.dropLink cfg c = some s' ∧ ConnInv cfg none s' ∧ s.Leaves s' ∧
      s'.blocked = s.blocked := by
  have hl := h.links_owed hc
  have hpos : k.links ≠ 0 := by omega
  by_cases h1 : k.links = 1
  · have h0 : s.count c k = 0 := by omega
    obtain ⟨hns, -, -⟩ := h.unreferred hc h0
    obtain ⟨chp, hchp, -, -⟩ := h.chan c k hc
    have hglob : k.global = false := by
      cases hgk : k.global with
      | false => rfl
      | true =>
        have := hg hgk
        omega
    have hdrop : s.dropLink cfg c = some (detachTop cfg
        (s.setConn c (some { k with links := k.links - 1 })) c { k with links := k.links - 1 }) := by
      simp only [dropLink, hc, if_neg hpos, if_pos h1]
      exact connectDetach_top (k := { k with links := k.links - 1 }) (by simp) hv 1
    refine ⟨_, hdrop, ?_⟩
    simp only [detachTop, hchp]
    split
    · rename_i hdis
      rw [setConn_setConn]
      refine ⟨?_, leaves_setConn hc hpos _, rfl⟩
      apply h.relink hc
      · exact ⟨hchp.symm, rfl, rfl, rfl, rfl, rfl, rfl, rfl⟩
      · exact .inr hns
      · simp only [count, clientRefs, reduceCtorEq, if_false] at h0 ⊢
        omega
      · intro c' hcc
        simp [Ne.symm hcc]
      · intro _
        exact ⟨rfl, hv, hglob, by simp [hdis]⟩
    have hsv : k.Served cfg (cfg.process chp) k.scoid := ⟨hv, hglob, rfl, by rw [hchp]; rfl⟩
    have hslot := h.slot_served hc hsv
    refine ⟨?_, ⟨?_, ?_⟩, rfl⟩
    · apply h.free hc h0
      · intro c'
        rw [conns_setConn]
        split
        · rfl
        · rename_i hcc
          exact (conns_setConn _).trans (if_neg hcc)
      · exact h.next_erase hc hv
      · rfl
      · exact hslot
      · intro c' o
        exact (clientRefs_vectorRem_server (h.served c k _ _ hc hsv) o)
      · intro c' hcc
        simp [Ne.symm hcc, hv]
    · intro p b i c' hs
      exact (hslot p b i _).mpr ⟨hs, by simp⟩
    · intro c' k' hc' hk'
      have hcc : c' ≠ c := by
        rintro rfl
        rw [hc] at hc'
        cases hc'
        exact hpos hk'
      rw [conns_setConn, if_neg hcc]
      exact ((conns_setConn _).trans (if_neg hcc)).trans hc'
  · exact h.dropMore hc h1

theorem unlinkVirtual (h1 : k.links = 1)
    (hv : k.vconnect = some m) : ConnInv cfg (some m) (s.unlinkVirtual m c) := by
  have hl := h.links_owed hc
  have hmem : ∀ m', c ∈ s.next m' → m' = m := by
    intro m' hm'
    obtain ⟨k', hk', hv'⟩ := h.virtual m' c hm'
    rw [hc] at hk'
    cases hk'
    exact some.inj (hv'.symm.trans hv)
  apply h.free hc (by omega)
  · intro c'
    exact conns_setConn _
  · intro m'
    simp only [ConnSt.unlinkVirtual, ConnSt.setConn]
    by_cases hmm : m' = m
    · rw [hmm, update_self]
    rw [update_of_ne hmm, List.erase_of_not_mem]
    intro hm'
    exact hmm (hmem m' hm')
  · rfl
  · intro p b i e
    constructor
    · intro he
      refine ⟨he, ?_⟩
      rintro rfl
      obtain ⟨-, k', hk', hsv⟩ := h.server p b i c he
      rw [hc] at hk'
      cases hk'
      have hv' := hsv.1
      rw [hv] at hv'
      cases hv'
    · exact fun he => he.1
  · intro c' o
    rfl
  · intro c' hcc
    simp [Ne.symm hcc, hv]

theorem drop (hg : k.global = true → 2 ≤ k.links) :
    ∃ s', s.dropLink cfg c = some s' ∧ ConnInv cfg none s' ∧ s.Leaves s' ∧
      s'.blocked = s.blocked := by
  cases hv : k.vconnect with
  | none => exact h.dropTop hc hv hg
  | some m =>
    by_cases h1 : k.links = 1
    · obtain ⟨-, -, km, hkm, hkv, hkg⟩ := h.master c k m hc hv
      have hne : c ≠ m := by
        rintro rfl
        rw [hc] at hkm
        cases hkm
        rw [hv] at hkv
        cases hkv
      rw [dropLink_virtual hc h1 hv hkm hkv hne]
      have hkm' : (s.unlinkVirtual m c).conns m = some km := by
        simp only [ConnSt.unlinkVirtual, conns_setConn, if_neg hne.symm]
        exact hkm
      obtain ⟨s', hs', hinv, hleaves, hbl⟩ := (h.unlinkVirtual hc h1 hv).dropTop hkm' hkv
        (by simp [hkg])
      refine ⟨s', hs', hinv, Leaves.trans ?_ hleaves, hbl⟩
      have hl := leaves_setConn (s := s) hc (by omega) none
      exact ⟨hl.clients, hl.idle⟩
    · exact h.dropMore hc h1

end

end ConnInv

end Qnx.Ker
