import Qnx.Shared.Chain

/-!
# Destroying a global channel

`ker_connect_attach` puts a connection to a global channel in front of the channel's list `cons`;
`ker_channel_destroy` walks that list. It runs again from its beginning each time `KER_PREEMPT`
interrupts the loops behind the walk, which unblock threads.
-/

namespace Qnx.Ker

open Chain Function List

structure GblConns where
  cons : Option Nat
  next : Nat → Option Nat
  channel : Nat → Option Nat

namespace GblConns

variable {s : GblConns} {chp cop fuel : Nat} {l : List Nat}

/-- `LINK1_BEG(chp->cons, cop, CONNECT)` and `cop->channel = chp` -/
def kerConnectAttach (s : GblConns) (chp cop : Nat) : GblConns where
  cons := some cop
  next := update s.next cop s.cons
  channel := update s.channel cop (some chp)

def clearConn (s : GblConns) (cop : Nat) : GblConns :=
  { s with channel := update s.channel cop none, next := update s.next cop none }

/-- The walk from `cop`; `none` when it takes `fuel` rounds. -/
def clearConns : Nat → Option Nat → GblConns → Option GblConns
  | 0, _, _ => none
  | _ + 1, none, s => some s
  | fuel + 1, some cop, s => clearConns fuel ((s.clearConn cop).next cop) (s.clearConn cop)

def kerChannelDestroy (fuel : Nat) : (restarts : Nat) → GblConns → Option GblConns
  | 0, s => clearConns fuel s.cons s
  | n + 1, s => (clearConns fuel s.cons s).bind (kerChannelDestroy fuel n)

def link (s : GblConns) : Option Nat → Option Nat
  | none => s.cons
  | some cop => s.next cop

/-- `l` are the connections on the list of the channel. -/
structure Conns (s : GblConns) (chp : Nat) (l : List Nat) : Prop where
  visits : Visits (s.link · = ·) none l
  nodup : l.Nodup
  channel : ∀ c ∈ l, s.channel c = some chp

theorem Conns.attach (h : s.Conns chp l) (hc : cop ∉ l) :
    (s.kerConnectAttach chp cop).Conns chp (cop :: l) where
  visits := by
    refine ⟨rfl, h.visits.rehead (fun o ho => ?_) fun i hi o ho => ?_⟩
    · simpa [link, kerConnectAttach] using ho
    · have hne : i ≠ cop := fun he => hc (he ▸ hi)
      simpa [link, kerConnectAttach, hne] using ho
  nodup := nodup_cons.mpr ⟨hc, h.nodup⟩
  channel c hm := by
    by_cases he : c = cop
    · simp [kerConnectAttach, he]
    · simpa [kerConnectAttach, he] using h.channel c (by simpa [he] using hm)

/-- The walk follows the link it has just cleared, so it ends behind the first connection. -/
theorem clearConns_eq (hf : 2 ≤ fuel) :
    clearConns fuel s.cons s = some (s.cons.elim s s.clearConn) := by
  obtain ⟨n, rfl⟩ := Nat.exists_eq_add_of_le' hf
  cases s.cons with
  | none => rfl
  | some c => simp [clearConns, clearConn]

theorem kerChannelDestroy_eq (hf : 2 ≤ fuel) (n : Nat) :
    s.kerChannelDestroy fuel n = some (s.cons.elim s s.clearConn) := by
  induction n generalizing s with
  | zero => exact clearConns_eq hf
  | succ n ih =>
    rw [kerChannelDestroy, clearConns_eq hf, Option.bind_some, ih]
    cases hc : s.cons with
    | none => simp [hc]
    | some c => simp [hc, clearConn]

/-- However often the call restarts, it detaches the connections iff there is one at most. -/
theorem destroy_detaches_iff (h : s.Conns chp l) (hf : 2 ≤ fuel) (restarts : Nat) :
    ∃ s', s.kerChannelDestroy fuel restarts = some s' ∧
      ((∀ c ∈ l, s'.channel c = none) ↔ l.length ≤ 1) := by
  refine ⟨_, kerChannelDestroy_eq hf restarts, ?_⟩
  match l, h with
  | [], _ => simp
  | [c], h =>
    have hc : s.cons = some c := h.visits.1
    simp [hc, clearConn]
  | c :: d :: l, h =>
    have hc : s.cons = some c := h.visits.1
    have hd : d ≠ c := fun he => (nodup_cons.mp h.nodup).1 (by simp [he])
    have hkept : (s.clearConn c).channel d = some chp := by
      simpa [clearConn, hd] using h.channel d (by simp)
    refine iff_of_false (fun hall => ?_) (by simp)
    simpa [hc, hkept] using hall d (by simp)

def noConns : GblConns := ⟨none, fun _ => none, fun _ => none⟩

theorem conns_noConns : noConns.Conns chp [] := ⟨rfl, nodup_nil, nofun⟩

theorem destroy_detaches_iff_one : ∃ s',
    (noConns.kerConnectAttach 7 1).kerChannelDestroy 2 0 = some s' ∧
      ((∀ c ∈ [1], s'.channel c = none) ↔ [1].length ≤ 1) :=
  destroy_detaches_iff (conns_noConns.attach (by simp)) (Nat.le_refl 2) 0

theorem second_conn_attached :
    ((noConns.kerConnectAttach 7 1).kerConnectAttach 7 2).Conns 7 [2, 1] ∧
    ∃ s', ((noConns.kerConnectAttach 7 1).kerConnectAttach 7 2).kerChannelDestroy 2 0 = some s' ∧
      s'.channel 1 = some 7 :=
  ⟨(conns_noConns.attach (by simp)).attach (by simp), _, rfl, rfl⟩

end GblConns

end Qnx.Ker
