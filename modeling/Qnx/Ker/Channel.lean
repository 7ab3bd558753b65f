import Qnx.Ker.PulseOps

/-!
# A channel

`ker_msg_sendv`, `ker_msg_sendpulse`, `pulse_deliver`, `ker_msg_receivev` and `force_ready` on the
queues of one synchronous channel. A kernel call runs from its last restart point to its end
without another call in between; a call that restarts itself is a new call.
-/

namespace Qnx.Ker

open Run List Function

/-- A thread on `receive_queue`; `pulseOnly` for one in `__KER_MSG_RECEIVEPULSEV`. -/
structure Receiver where
  thp : Nat
  pulseOnly : Bool
  deriving DecidableEq, Repr

/-- `rcvpulse` is the bit `_NTO_ITF_RCVPULSE` in each thread's `internal_flags`. -/
structure Chan where
  receiveQueue : List Receiver
  sendQueue : List QEntry
  replyQueue : List Nat
  rcvpulse : Nat → Bool

inductive ChanErrno where
  | eok | einval | enxio | eagain | etimedout | efault | esrvrfault | enoerror
  deriving DecidableEq, Repr

inductive Xfer where
  | ok | srcFault | dstFault
  deriving DecidableEq, Repr

/-- A pulse for the channel, with what the kernel finds when it delivers it: the transfer to a
receiver faults, the server is dying, a pulse entry can be allocated. -/
structure Posting where
  args : PulseArgs
  fault : Bool
  dying : Bool
  alloc : Bool
  deriving DecidableEq, Repr

namespace Chan

/-- `LINK2_REM` of the first receiver, which is `r`, after its pulse-only bit is cleared. -/
def takeReceiver (c : Chan) (r : Receiver) (rest : List Receiver) : Chan :=
  { c with receiveQueue := rest, rcvpulse := update c.rcvpulse r.thp false }

def pulseDeliver (c : Chan) (p : Posting) : Chan × ChanErrno :=
  if p.args.prio = 0 then (c, .einval)
  else
    match c.receiveQueue with
    | r :: rest => (c.takeReceiver r rest, if p.fault then .esrvrfault else .eok)
    | [] =>
      if p.dying then (c, .enxio)
      else
        match pulseAdd c.sendQueue p.args p.alloc with
        | some q => ({ c with sendQueue := q }, .eok)
        | none => (c, .eagain)

/-- `ker_msg_sendpulse` by a client that may signal the server; `near` when the receiver's address
space is the current one. -/
def kerMsgSendpulse (c : Chan) (p : Posting) (near : Bool) : Chan × ChanErrno :=
  match c.receiveQueue with
  | r :: rest =>
    if near ∧ c.sendQueue = [] then
      (c.takeReceiver r rest, if p.fault then .esrvrfault else .eok)
    else c.pulseDeliver p
  | [] => c.pulseDeliver p

/-- What `ker_msg_sendv` finds: immediate timeouts, the transfer, a network connection, a dying
server. -/
structure SendEnv where
  imtoReply : Bool
  imtoSend : Bool
  xfer : Xfer
  netcon : Bool
  dying : Bool
  deriving DecidableEq, Repr

def queueSend (c : Chan) (act : QEntry) (env : SendEnv) : Chan × ChanErrno :=
  if env.imtoSend then (c, .etimedout)
  else if !env.netcon ∧ env.dying then (c, .enxio)
  else ({ c with sendQueue := link2Pri c.sendQueue act }, .enoerror)

/-- `ker_msg_sendv` by thread `thp`, whose entry in a send queue is `act`. -/
def kerMsgSendv (c : Chan) (thp : Nat) (act : QEntry) (env : SendEnv) : Chan × ChanErrno :=
  match c.receiveQueue with
  | [] => c.queueSend act env
  | r :: rest =>
    if c.rcvpulse r.thp then c.queueSend act env
    else if env.imtoReply then (c, .etimedout)
    else
      match env.xfer with
      | .srcFault => (c, .efault)
      -- the receiver gets the error, and the send starts again
      | .dstFault => ({ c with receiveQueue := rest }, .enoerror)
      | .ok => ({ c with receiveQueue := rest, replyQueue := thp :: c.replyQueue }, .enoerror)

/-- A thread in `STATE_SEND` is forced ready; `detach` is the pulse `connect_detach` sends when the
thread held the last link of its connection. -/
def forceReadySend (c : Chan) (thp : Nat) (detach : Option Posting) : Chan :=
  let c := match detach with
    | some p => (c.pulseDeliver p).1
    | none => c
  { c with sendQueue := unqueue c.sendQueue thp }

/-- A thread in `STATE_REPLY` is forced ready. `unblock` is the unblock pulse of a channel that
wants one, with whether the caller set `_FORCE_SET_ERROR`: if the pulse is delivered and it did not,
the thread stays blocked. -/
def forceReadyReply (c : Chan) (thp : Nat) (unblock : Option (Posting × Bool))
    (detach : Option Posting) : Chan :=
  let (c, stays) := match unblock with
    | some (p, setError) =>
      let (c, status) := c.pulseDeliver p
      (c, decide (status = ChanErrno.eok) && !setError)
    | none => (c, false)
  if stays then c
  else
    let c := match detach with
      | some p => (c.pulseDeliver p).1
      | none => c
    { c with replyQueue := c.replyQueue.erase thp }

def forceReady (c : Chan) (thp : Nat) (unblock : Option (Posting × Bool))
    (detach : Option Posting) : Chan :=
  if c.receiveQueue.any (·.thp = thp) then
    { c with
      receiveQueue := c.receiveQueue.eraseP (·.thp = thp)
      rcvpulse := update c.rcvpulse thp false }
  else if c.sendQueue.any (·.type = .thread thp) then c.forceReadySend thp detach
  else if thp ∈ c.replyQueue then c.forceReadyReply thp unblock detach
  else c

def forceReadyPulse (c : Chan) (i : Nat) : Chan :=
  match c.sendQueue[i]? with
  | some e => if e.isPulse then { c with sendQueue := c.sendQueue.eraseIdx i } else c
  | none => c

/-- What `ker_msg_receivev` finds: the first sender's immediate timeout, the transfer from it, its
last link; its own immediate timeout and a pending cancel. -/
structure ReceiveEnv where
  senderImto : Bool
  xfer : Xfer
  detach : Option Posting
  imto : Bool
  pendcan : Bool
  deriving DecidableEq, Repr

def queueReceive (c : Chan) (act : Nat) (pulseOnly : Bool) (env : ReceiveEnv) : Chan × ChanErrno :=
  if env.imto then (c, .etimedout)
  else if env.pendcan then (c, .enoerror)
  else if pulseOnly then
    ({ c with
        receiveQueue := c.receiveQueue ++ [⟨act, true⟩]
        rcvpulse := update c.rcvpulse act true }, .enoerror)
  else ({ c with receiveQueue := ⟨act, false⟩ :: c.receiveQueue }, .enoerror)

/-- `ker_msg_receivev`. A sender that times out or faults is unblocked, and the receive starts
again. -/
def kerMsgReceivev (c : Chan) (act : Nat) (pulseOnly : Bool) (env : ReceiveEnv) :
    Chan × ChanErrno :=
  if pulseOnly then
    match receivePulse c.sendQueue with
    | some (_, q) => ({ c with sendQueue := q }, .eok)
    | none => c.queueReceive act true env
  else
    match c.sendQueue with
    | [] => c.queueReceive act false env
    | e :: q =>
      match e.type with
      | .thread thp =>
        if env.senderImto then (c.forceReadySend thp env.detach, .enoerror)
        else
          match env.xfer with
          | .srcFault => (c.forceReadySend thp env.detach, .enoerror)
          | .dstFault => (c, .efault)
          | .ok => ({ c with sendQueue := q, replyQueue := thp :: c.replyQueue }, .enoerror)
      | _ => ({ c with sendQueue := e.afterReceive ++ q }, .eok)

inductive Op where
  | sendv (thp : Nat) (act : QEntry) (env : SendEnv)
  | sendpulse (p : Posting) (near : Bool)
  | pulseDeliver (p : Posting)
  | receivev (act : Nat) (pulseOnly : Bool) (env : ReceiveEnv)
  | forceReady (thp : Nat) (unblock : Option (Posting × Bool)) (detach : Option Posting)
  | forceReadyPulse (i : Nat)
  deriving DecidableEq, Repr

def step (c : Chan) : Op → Option Chan
  | .sendv thp act env => some (c.kerMsgSendv thp act env).1
  | .sendpulse p near => some (c.kerMsgSendpulse p near).1
  | .pulseDeliver p => some (c.pulseDeliver p).1
  | .receivev act pulseOnly env => some (c.kerMsgReceivev act pulseOnly env).1
  | .forceReady thp unblock detach => some (c.forceReady thp unblock detach)
  | .forceReadyPulse i => some (c.forceReadyPulse i)

def Running (c : Chan) (thp : Nat) : Prop :=
  (∀ r ∈ c.receiveQueue, r.thp ≠ thp) ∧ (∀ e ∈ c.sendQueue, e.type ≠ .thread thp) ∧
    thp ∉ c.replyQueue

def Entry (c : Chan) : Op → Prop
  | .sendv thp act _ => c.Running thp ∧ act.type = .thread thp
  | .receivev act _ _ => c.Running act
  | _ => True

def Init (c : Chan) : Prop := c = ⟨[], [], [], fun _ => false⟩

/-- No message or pulse waits beside a receiver that would take it, and ordinary receivers are in
front. -/
structure Rendezvous (c : Chan) : Prop where
  ordinary : (∃ r ∈ c.receiveQueue, r.pulseOnly = false) → c.sendQueue = []
  pulse : (∃ r ∈ c.receiveQueue, r.pulseOnly = true) → ∀ e ∈ c.sendQueue, e.isPulse = false
  front : c.receiveQueue.Pairwise fun r s => s.pulseOnly = false → r.pulseOnly = false

structure Inv (c : Chan) : Prop extends Rendezvous c where
  flagged : ∀ r ∈ c.receiveQueue, c.rcvpulse r.thp = r.pulseOnly
  once : (c.receiveQueue.map Receiver.thp).Nodup
  clear : ∀ thp, (∀ r ∈ c.receiveQueue, r.thp ≠ thp) → c.rcvpulse thp = false

variable {c : Chan}

namespace Inv

section

variable (h : Inv c)
include h

theorem erase {rest : List Receiver} {thp : Nat}
    (hs : rest.Sublist c.receiveQueue) (hgone : ∀ r ∈ rest, r.thp ≠ thp)
    (hother : ∀ r ∈ c.receiveQueue, r.thp ≠ thp → r ∈ rest) :
    Inv { c with receiveQueue := rest, rcvpulse := update c.rcvpulse thp false } := by
  refine ⟨⟨?_, ?_, h.front.sublist hs⟩, ?_, h.once.sublist (hs.map _), ?_⟩
  · rintro ⟨r, hr, hp⟩
    exact h.ordinary ⟨r, hs.subset hr, hp⟩
  · rintro ⟨r, hr, hp⟩
    exact h.pulse ⟨r, hs.subset hr, hp⟩
  · intro r hr
    dsimp only
    rw [update_of_ne (hgone r hr)]
    exact h.flagged r (hs.subset hr)
  · intro t ht
    dsimp only
    by_cases htt : t = thp
    · rw [htt, update_self]
    rw [update_of_ne htt]
    refine h.clear t ?_
    intro r hr hrt
    exact ht r (hother r hr (by rw [hrt]; exact htt)) hrt

theorem takeReceiver {r : Receiver} {rest : List Receiver}
    (hq : c.receiveQueue = r :: rest) : Inv (c.takeReceiver r rest) := by
  have hnd := h.once
  rw [hq, map_cons, nodup_cons] at hnd
  refine h.erase (by rw [hq]; exact sublist_cons_self _ _) ?_ ?_
  · intro s hs e
    exact hnd.1 (e ▸ mem_map_of_mem hs)
  · intro s hs hne
    rw [hq] at hs
    rcases mem_cons.mp hs with rfl | hs
    · exact absurd rfl hne
    · exact hs

theorem takeOrdinary {r : Receiver} {rest : List Receiver}
    (hq : c.receiveQueue = r :: rest) (hr : c.rcvpulse r.thp = false) (reply : List Nat) :
    Inv { c with receiveQueue := rest, replyQueue := reply } := by
  have := h.takeReceiver hq
  unfold Chan.takeReceiver at this
  rw [update_eq_self_iff.mpr hr.symm] at this
  exact ⟨⟨this.ordinary, this.pulse, this.front⟩, this.flagged, this.once, this.clear⟩

theorem sendQueue_of_nil (hq : c.receiveQueue = []) (q : List QEntry) :
    Inv { c with receiveQueue := [], sendQueue := q } := by
  refine ⟨⟨by simp, by simp, Pairwise.nil⟩, by simp, nodup_nil, ?_⟩
  intro thp _
  exact h.clear thp (by simp [hq])

theorem sendQueue_subset {q : List QEntry} (hs : q ⊆ c.sendQueue) (reply : List Nat) :
    Inv { c with sendQueue := q, replyQueue := reply } := by
  refine ⟨⟨?_, ?_, h.front⟩, h.flagged, h.once, h.clear⟩
  · intro hr
    rw [h.ordinary hr] at hs
    exact subset_nil.mp hs
  · intro hr e he
    exact h.pulse hr e (hs he)

theorem pulseDeliver (p : Posting) : Inv (c.pulseDeliver p).1 := by
  unfold Chan.pulseDeliver
  split
  · exact h
  split
  · rename_i r rest hq
    exact h.takeReceiver hq
  rename_i hq
  split
  · exact h
  split
  · rw [hq]
    exact h.sendQueue_of_nil hq _
  · exact h

theorem kerMsgSendpulse (p : Posting) (near : Bool) : Inv (c.kerMsgSendpulse p near).1 := by
  unfold Chan.kerMsgSendpulse
  split
  · rename_i r rest hq
    split
    · exact h.takeReceiver hq
    · exact h.pulseDeliver p
  · exact h.pulseDeliver p

theorem queueSend {act : QEntry} {thp : Nat} (hact : act.type = .thread thp)
    (hno : ∀ r ∈ c.receiveQueue, r.pulseOnly = true) (env : SendEnv) :
    Inv (c.queueSend act env).1 := by
  have hthread : act.isPulse = false := by simp [QEntry.isPulse, hact]
  unfold Chan.queueSend
  repeat' split
  · exact h
  · exact h
  · refine ⟨⟨?_, ?_, h.front⟩, h.flagged, h.once, h.clear⟩
    · rintro ⟨r, hr, hp⟩
      exact absurd (hno r hr) (by simp [hp])
    · intro hr e he
      rcases PriQueue.mem_insertGE.mp he with rfl | he
      · exact hthread
      · exact h.pulse hr e he

theorem kerMsgSendv {act : QEntry} {thp : Nat} (hact : act.type = .thread thp)
    (env : SendEnv) : Inv (c.kerMsgSendv thp act env).1 := by
  unfold Chan.kerMsgSendv
  cases hq : c.receiveQueue with
  | nil => exact h.queueSend hact (by simp [hq]) env
  | cons r rest =>
    have hflag := h.flagged r (by simp [hq])
    dsimp only
    cases hr : c.rcvpulse r.thp with
    | true =>
      refine h.queueSend hact ?_ env
      -- behind a pulse-only receiver there are only pulse-only ones
      have hfront := h.front
      rw [hq, pairwise_cons] at hfront
      intro s hs
      rw [hq] at hs
      rcases mem_cons.mp hs with rfl | hs
      · rw [← hflag, hr]
      · have := mt (hfront.1 s hs)
        simpa [← hflag, hr] using this
    | false =>
      rw [if_neg Bool.false_ne_true]
      split
      · exact h
      split
      · exact h
      · exact h.takeOrdinary hq hr _
      · exact h.takeOrdinary hq hr _

theorem forceReadySend (thp : Nat) (detach : Option Posting) :
    Inv (c.forceReadySend thp detach) := by
  cases detach with
  | none => exact h.sendQueue_subset eraseP_subset _
  | some p => exact (h.pulseDeliver p).sendQueue_subset eraseP_subset _

theorem forceReadyReply (thp : Nat) (unblock : Option (Posting × Bool))
    (detach : Option Posting) : Inv (c.forceReadyReply thp unblock detach) := by
  have hdetach : ∀ {c : Chan}, Inv c → Inv { (match detach with
      | some p => (c.pulseDeliver p).1
      | none => c) with replyQueue := (match detach with
      | some p => (c.pulseDeliver p).1
      | none => c).replyQueue.erase thp } := by
    intro c hc
    cases detach with
    | none => exact hc.sendQueue_subset (Subset.refl _) _
    | some p => exact (hc.pulseDeliver p).sendQueue_subset (Subset.refl _) _
  unfold Chan.forceReadyReply
  cases unblock with
  | none => exact hdetach h
  | some u =>
    obtain ⟨p, setError⟩ := u
    dsimp only
    split
    · exact h.pulseDeliver p
    · exact hdetach (h.pulseDeliver p)

theorem forceReady (thp : Nat) (unblock : Option (Posting × Bool))
    (detach : Option Posting) : Inv (c.forceReady thp unblock detach) := by
  unfold Chan.forceReady
  repeat' split
  · rename_i hany
    obtain ⟨r, hr, hrt⟩ := any_eq_true.mp hany
    obtain ⟨s, L, R, hL, hs, hq, he⟩ := exists_of_eraseP
      (p := fun r : Receiver => decide (r.thp = thp)) hr hrt
    rw [he]
    have hnd := h.once
    rw [hq, map_append, nodup_append] at hnd
    have hst : s.thp = thp := of_decide_eq_true hs
    refine h.erase ?_ ?_ ?_
    · rw [hq]
      exact (Sublist.refl L).append (sublist_cons_self _ _)
    · intro t ht e
      rcases mem_append.mp ht with ht | ht
      · exact hL t ht (decide_eq_true e)
      refine (nodup_cons.mp hnd.2.1).1 ?_
      rw [hst, ← e]
      exact mem_map_of_mem ht
    · intro t ht hne
      rw [hq] at ht
      simp only [mem_append, mem_cons] at ht ⊢
      rcases ht with ht | rfl | ht
      · exact .inl ht
      · exact absurd hst hne
      · exact .inr ht
  · exact h.forceReadySend thp detach
  · exact h.forceReadyReply thp unblock detach
  · exact h

theorem forceReadyPulse (i : Nat) : Inv (c.forceReadyPulse i) := by
  unfold Chan.forceReadyPulse
  repeat' split
  · exact h.sendQueue_subset (eraseIdx_subset) _
  · exact h
  · exact h

theorem queueReceive {act : Nat} (ha : c.Running act) {pulseOnly : Bool}
    (hsend : if pulseOnly then ∀ e ∈ c.sendQueue, e.isPulse = false else c.sendQueue = [])
    (env : ReceiveEnv) : Inv (c.queueReceive act pulseOnly env).1 := by
  have hnot : act ∉ c.receiveQueue.map Receiver.thp := by
    intro hm
    obtain ⟨r, hr, e⟩ := mem_map.mp hm
    exact ha.1 r hr e
  unfold Chan.queueReceive
  split
  · exact h
  split
  · exact h
  cases pulseOnly with
  | true =>
    rw [if_pos rfl]
    refine ⟨⟨?_, fun _ => hsend, ?_⟩, ?_, ?_, ?_⟩
    · rintro ⟨r, hr, hp⟩
      rcases mem_append.mp hr with hr | hr
      · exact h.ordinary ⟨r, hr, hp⟩
      · cases mem_singleton.mp hr
        cases hp
    · refine pairwise_append.mpr ⟨h.front, pairwise_singleton _ _, ?_⟩
      simp
    · intro r hr
      dsimp only
      rcases mem_append.mp hr with hr | hr
      · rw [update_of_ne (ha.1 r hr)]
        exact h.flagged r hr
      · cases mem_singleton.mp hr
        rw [update_self]
    · rw [map_append]
      exact nodup_append.mpr ⟨h.once, by simp, by simpa using ha.1⟩
    · intro thp ht
      dsimp only
      rw [update_of_ne]
      · exact h.clear thp fun r hr => ht r (mem_append_left _ hr)
      · exact (ht ⟨act, true⟩ (by simp)).symm
  | false =>
    refine ⟨⟨fun _ => hsend, ?_, ?_⟩, ?_, nodup_cons.mpr ⟨hnot, h.once⟩, ?_⟩
    · intro _ e he
      rw [hsend] at he
      cases he
    · refine pairwise_cons.mpr ⟨?_, h.front⟩
      simp
    · exact forall_mem_cons.mpr ⟨h.clear act ha.1, h.flagged⟩
    · intro thp ht
      exact h.clear thp (forall_mem_cons.mp ht).2

theorem no_receiver {e : QEntry} (he : e ∈ c.sendQueue) (hp : e.isPulse = true) :
    c.receiveQueue = [] := by
  rw [eq_nil_iff_forall_not_mem]
  intro r hr
  cases hk : r.pulseOnly with
  | true =>
    have := h.pulse ⟨r, hr, hk⟩ e he
    rw [hp] at this
    cases this
  | false =>
    rw [h.ordinary ⟨r, hr, hk⟩] at he
    cases he

theorem takePulse {e : QEntry} (he : e ∈ c.sendQueue) (hp : e.isPulse = true)
    (q : List QEntry) : Inv { c with sendQueue := q } := by
  have hq := h.no_receiver he hp
  have := h.sendQueue_of_nil hq q
  rwa [← hq] at this

theorem kerMsgReceivev {act : Nat} (ha : c.Running act) (pulseOnly : Bool)
    (env : ReceiveEnv) : Inv (c.kerMsgReceivev act pulseOnly env).1 := by
  unfold Chan.kerMsgReceivev
  cases pulseOnly with
  | true =>
    rw [if_pos rfl]
    split
    · rename_i i q hr
      obtain ⟨L, e, R, hq, -, hp, -⟩ := receivePulse_eq hr
      exact h.takePulse (by simp [hq]) hp q
    rename_i hr
    refine h.queueReceive ha ?_ env
    exact receivePulse_none hr
  | false =>
    rw [if_neg Bool.false_ne_true]
    split
    · rename_i hq
      refine h.queueReceive ha ?_ env
      exact hq
    rename_i e q hq
    split
    · split
      · exact h.forceReadySend _ _
      split
      · exact h.forceReadySend _ _
      · exact h
      · exact h.sendQueue_subset (by rw [hq]; exact subset_cons_self _ _) _
    cases hp : e.isPulse with
    | true => exact h.takePulse (by simp [hq]) hp _
    | false =>
      have hafter : e.afterReceive = [] := by simp [QEntry.afterReceive, hp]
      rw [hafter]
      exact h.sendQueue_subset (by rw [hq]; exact subset_cons_self _ _) _

end

end Inv

theorem inv_step {c' : Chan} {o : Op} (h : Inv c) (he : c.Entry o) (hs : c.step o = some c') :
    Inv c' := by
  cases o with
  | sendv thp act env =>
    cases hs
    exact h.kerMsgSendv he.2 env
  | sendpulse p near =>
    cases hs
    exact h.kerMsgSendpulse p near
  | pulseDeliver p =>
    cases hs
    exact h.pulseDeliver p
  | receivev act pulseOnly env =>
    cases hs
    exact h.kerMsgReceivev he pulseOnly env
  | forceReady thp unblock detach =>
    cases hs
    exact h.forceReady thp unblock detach
  | forceReadyPulse i =>
    cases hs
    exact h.forceReadyPulse i

/-- No message waits beside an idle receiver. -/
theorem rendezvous (h : Reach Init Entry step c) : Rendezvous c := by
  have hi : Inv c := by
    refine h.invariant ?_ fun _ _ _ hi he hs => inv_step hi he hs
    rintro s rfl
    exact ⟨⟨by simp, by simp, Pairwise.nil⟩, by simp, nodup_nil, by simp⟩
  exact hi.toRendezvous

instance (c : Chan) (o : Op) : Decidable (c.Entry o) := by
  cases o <;> unfold Entry Running <;> infer_instance

theorem rendezvous_run : ∃ c, Reach Init Entry step c ∧
    (c.receiveQueue = [⟨1, true⟩] ∧ c.sendQueue.length = 1 ∧ c.replyQueue = [4, 3]) ∧
      Rendezvous c := by
  have h0 : Reach Init Entry step ⟨[], [], [], fun _ => false⟩ := .init rfl
  let env : ReceiveEnv := ⟨false, .ok, none, false, false⟩
  let sendEnv : SendEnv := ⟨false, false, .ok, false, false⟩
  obtain ⟨c, h, hq⟩ := h0.replay_any
    [.receivev 1 true env, .receivev 2 false env, .sendv 3 ⟨.thread 3, 10, 2, 4, 0, 0⟩ sendEnv,
      .sendpulse ⟨⟨10, 1, 0, 0⟩, false, false, true⟩ false,
      .pulseDeliver ⟨⟨10, 1, 0, 0⟩, false, false, true⟩,
      .sendv 4 ⟨.thread 4, 10, 2, 4, 0, 0⟩ sendEnv, .sendv 5 ⟨.thread 5, 9, 2, 4, 0, 0⟩ sendEnv,
      .receivev 1 true env, .receivev 2 false env, .receivev 1 true env]
    (fun c => c.receiveQueue = [⟨1, true⟩] ∧ c.sendQueue.length = 1 ∧ c.replyQueue = [4, 3])
    (by decide +kernel)
  exact ⟨c, h, of_decide_eq_true hq, rendezvous h⟩

end Chan

end Qnx.Ker
