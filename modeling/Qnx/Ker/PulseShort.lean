import Qnx.Ker.Sporadic

/-!
# Pulses to a waiting receiver

`ker_msg_sendpulse` hands a pulse straight to the receiver `thp` when that one is in the current
address space and `send_queue` is empty, and calls `pulse_deliver` otherwise. Both ways end in
`ready(thp)`; the states here are those before it.
-/

namespace Qnx.Ker

/-- The fields of `struct _pulse` that differ from pulse to pulse. -/
structure PulseData where
  code : BitVec 8
  value : BitVec 32
  scoid : BitVec 32
  deriving DecidableEq, Repr

inductive PulseEnd where
  | eok | einval | esrvrfault
  deriving DecidableEq, Repr

/-- What comes of the pulse: the scheduler, what is stored in the receive buffer, whether the
receiver gets `EFAULT`, and the result of the call. -/
structure Arrival where
  sched : Sched
  stored : Option PulseData
  efault : Bool
  result : PulseEnd

/-- `_PULSE_PRIO_PUBLIC_MASK` is `0xffff`. -/
def pulsePrio (act : Prio) (priority : BitVec 32) : Nat :=
  if priority = -1 then act else (priority &&& 0xffff).toNat

namespace Sched

/-- `xferpulse`, and what is made of its fault. -/
def xferpulse (s : Sched) (pulse : PulseData) (fault : Bool) : Arrival :=
  if fault then ⟨s, none, true, .esrvrfault⟩ else ⟨s, some pulse, false, .eok⟩

/-- The receiver stores the pulse itself when it runs, and gets the fault of that. -/
def deferPulse (s : Sched) (pulse : PulseData) (fault : Bool) : Arrival :=
  ⟨s, if fault then none else some pulse, fault, .eok⟩

variable (s : Sched) (thp : Thp) (fixed fault : Bool) (prio : Nat) (pulse : PulseData)

/-- The short circuit -/
def kerMsgSendpulse : Arrival :=
  let s :=
    if s.prio thp ≠ prio ∧ ¬fixed then
      let s := s.adjustPriority thp (toPrio prio)
      s.setRealPriority thp (s.thread thp).priority
    else s
  s.xferpulse pulse fault

/-- `now` says that the receiver is in the current address space and the kernel not locked. -/
def pulseDeliver (now : Bool) : Arrival :=
  if prio % 256 = 0 then ⟨s, none, false, .einval⟩
  else
    let s :=
      if s.prio thp ≠ prio % 256 ∧ ¬fixed then
        (s.setPriority thp (toPrio prio)).setRealPriority thp (toPrio prio)
      else s
    if now then s.xferpulse pulse fault else s.deferPulse pulse fault

variable {s thp fixed fault prio pulse}

theorem modThread_eq_self {f : Thread → Thread} (h : f (s.thread thp) = s.thread thp) :
    s.modThread thp f = s := by
  simp [modThread, h]

theorem adjustPriority_receive (h : (s.thread thp).state = .receive) (ha : thp ≠ s.actives)
    (p : Prio) : s.adjustPriority thp p = s.setPriority thp p := by
  by_cases hp : (s.thread thp).priority = p
  · subst hp
    simp [adjustPriority, adjustN, adjustPriorityWith, ha, setPriority, modThread_eq_self]
  · simp [adjustPriority, adjustN, adjustPriorityWith, h, hp]

theorem toPrio_nat (n : Nat) : (toPrio n : Nat) = n % 256 := by
  simp only [toPrio, Fin.val_ofNat]
  omega

/-- The priority and the real priority of the receiver become `p`. -/
def received (s : Sched) (thp : Thp) (p : Prio) : Sched :=
  (s.setPriority thp p).setRealPriority thp p

theorem received_thread (p : Prio) :
    (s.received thp p).thread thp = { s.thread thp with priority := p, realPriority := p } := by
  simp [received, setPriority]

theorem kerMsgSendpulse_eq (hw : (s.thread thp).state = .receive) (ha : thp ≠ s.actives) :
    s.kerMsgSendpulse thp fixed fault prio pulse =
      (if s.prio thp ≠ prio ∧ ¬fixed then s.received thp (toPrio prio) else s).xferpulse
        pulse fault := by
  simp only [kerMsgSendpulse, adjustPriority_receive hw ha, setPriority, modThread_self]
  rfl

theorem xferpulse_eq_iff {s' : Sched} {now : Bool} : s.xferpulse pulse fault =
    (if now then s'.xferpulse pulse fault else s'.deferPulse pulse fault) ↔
      s = s' ∧ (now = true ∨ fault = false) := by
  cases now <;> cases fault <;> simp [xferpulse, deferPulse]

theorem xferpulse_sched (s : Sched) : (s.xferpulse pulse fault).sched = s := by
  unfold xferpulse
  split <;> rfl

theorem xferpulse_result (s : Sched) : (s.xferpulse pulse fault).result ≠ .einval := by
  unfold xferpulse
  split <;> nofun

/-- A receiver that has the priority already keeps its real priority in `pulse_deliver`; the short
circuit overwrites that too if the priority has bits above the eighth. -/
theorem received_same (hp : s.prio thp = prio % 256) : s.received thp (toPrio prio) = s ↔
      (s.thread thp).realPriority = (s.thread thp).priority := by
  have he : toPrio prio = (s.thread thp).priority := Fin.ext ((toPrio_nat prio).trans hp.symm)
  rw [he]
  constructor
  · intro h
    have ht := congrArg (fun s => (s.thread thp).realPriority) h
    simpa [received_thread] using ht.symm
  · intro h
    have hset : s.setPriority thp (s.thread thp).priority = s := modThread_eq_self rfl
    rw [received, hset, ← h]
    exact modThread_eq_self rfl

/-- The two ways agree, and leave the receiver with a priority, iff a fault is seen at once, the low
byte of the priority is not 0 and a receiver that has it already runs at its real priority, unless
the priority fits a byte or the channel does not pass priorities on. -/
theorem sendpulse_agrees_iff (hw : (s.thread thp).state = .receive) (ha : thp ≠ s.actives)
    (hp : (s.thread thp).priority ≠ 0) (hr : (s.thread thp).realPriority ≠ 0) (now : Bool)
    (act : Prio) (priority : BitVec 32) :
    (let prio := pulsePrio act priority
     let a := s.kerMsgSendpulse thp fixed fault prio pulse
     a = s.pulseDeliver thp fixed fault prio pulse now ∧
       (a.sched.thread thp).priority ≠ 0 ∧ (a.sched.thread thp).realPriority ≠ 0) ↔
    pulsePrio act priority % 256 ≠ 0 ∧ (now = true ∨ fault = false) ∧
      (fixed = true ∨ pulsePrio act priority < 256 ∨ s.prio thp ≠ pulsePrio act priority % 256 ∨
        (s.thread thp).realPriority = (s.thread thp).priority) := by
  generalize pulsePrio act priority = prio
  dsimp only
  rw [kerMsgSendpulse_eq hw ha]
  by_cases h0 : prio % 256 = 0
  · refine iff_of_false (fun h => ?_) fun h => h.1 h0
    have hres := congrArg Arrival.result h.1
    rw [pulseDeliver, if_pos h0] at hres
    exact xferpulse_result _ hres
  have hne : toPrio prio ≠ 0 := fun he => h0 (by rw [← toPrio_nat, he]; rfl)
  have hlt : s.prio thp < 256 := (s.thread thp).priority.is_lt
  rw [pulseDeliver, if_neg h0, xferpulse_sched, xferpulse_eq_iff, and_assoc, and_left_comm]
  rw [and_left_comm (a := prio % 256 ≠ 0)]
  refine and_congr_right fun _ => ?_
  cases fixed with
  | true => simp [hp, hr, h0]
  | false =>
    by_cases hlow : s.prio thp = prio % 256
    · by_cases heq : s.prio thp = prio
      · have hz : s.prio thp ≠ 0 := by omega
        simp [← heq, Nat.mod_eq_of_lt hlt, hlt, hp, hr, hz]
      have hge : ¬prio < 256 := by omega
      rw [if_pos ⟨heq, nofun⟩, if_neg fun h => h.1 hlow]
      simp only [h0, hge, hlow, not_true, false_or, Bool.false_eq_true, ne_eq,
        not_false_eq_true, true_and, ← received_same hlow]
      refine and_iff_left_of_imp fun h => ?_
      rw [h]
      exact ⟨hp, hr⟩
    have hn : s.prio thp ≠ prio := fun he => hlow (by rw [← he, Nat.mod_eq_of_lt hlt])
    rw [if_pos ⟨hn, nofun⟩, if_pos ⟨hlow, nofun⟩, received_thread]
    exact iff_of_true ⟨rfl, hne, hne⟩ ⟨h0, .inr (.inr (.inl hlow))⟩

/-- A thread that waits in `MsgReceive` on a fresh scheduler. -/
def waiting : Sched := boot.setState 1 .receive

theorem sendpulse_agrees_iff_boosted :
    (let a := waiting.kerMsgSendpulse 1 false false (pulsePrio 255 12) ⟨1, 2, 3⟩
     a = waiting.pulseDeliver 1 false false (pulsePrio 255 12) ⟨1, 2, 3⟩ false ∧
       (a.sched.thread 1).priority ≠ 0 ∧ (a.sched.thread 1).realPriority ≠ 0) ↔
    pulsePrio 255 12 % 256 ≠ 0 ∧ (false = true ∨ false = false) ∧
      (false = true ∨ pulsePrio 255 12 < 256 ∨ waiting.prio 1 ≠ pulsePrio 255 12 % 256 ∨
        (waiting.thread 1).realPriority = (waiting.thread 1).priority) :=
  sendpulse_agrees_iff (by decide) (by decide) (by decide) (by decide) false 255 12

/-- Sent with priority 0, the pulse comes through the short circuit and leaves the receiver with
priority 0; `pulse_deliver` refuses it. -/
theorem sendpulse_priority_zero : (waiting.thread 1).state = .receive ∧
    (waiting.kerMsgSendpulse 1 false false (pulsePrio 255 0) ⟨1, 2, 3⟩).result = .eok ∧
    ((waiting.kerMsgSendpulse 1 false false (pulsePrio 255 0) ⟨1, 2, 3⟩).sched.thread 1).priority
      = 0 ∧
    (waiting.pulseDeliver 1 false false (pulsePrio 255 0) ⟨1, 2, 3⟩ true).result = .einval := by
  decide

end Sched

end Qnx.Ker
