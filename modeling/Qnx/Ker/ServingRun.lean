import Qnx.Ker.Serving

/-!
# The pairs over whole runs

A REPLY-blocked client and the thread that serves it point at each other, as long as no reply faults
before its transfer.
-/

namespace Qnx.Ker

open Run Pairing Function

namespace Serve

structure Inv (s : Serve) : Prop where
  paired : Paired (fun t => (s.state t).replying = true) s.server s.client
  idle : ∀ r, s.state r = .receive → s.client r = none

variable {s : Serve} {act thp r : Nat} {woken : Option Nat}

@[simp] theorem state_setState (t u : Nat) (st : MsgState) :
    (s.setState t st).state u = if u = t then st else s.state u := by
  simp [setState, update_apply]

@[simp] theorem state_serve (t u : Nat) : (s.serve t u).state = s.state := rfl

theorem state_dropClient : (s.dropClient act).state = s.state := by
  unfold dropClient
  split <;> rfl

theorem state_dropServer : (s.dropServer thp).state = s.state := by
  unfold dropServer
  split <;> rfl

theorem client_dropClient : (s.dropClient act).client act = none := by
  unfold dropClient
  split
  · exact update_self _ _ _
  · assumption

namespace Inv

section

variable (h : Inv s)
include h

theorem free (ht : (s.state thp).replying = false) (v : Nat) : s.client v ≠ some thp :=
  h.paired.free_of_not_live (by simp [ht]) v

theorem free_of_none (ht : s.server thp = none) (v : Nat) : s.client v ≠ some thp := by
  intro hv
  rw [h.paired.server_eq hv] at ht
  cases ht

theorem setState {st : MsgState} (hfree : ∀ v, s.client v ≠ some thp)
    (hreply : st.replying = true → s.server thp = none)
    (hreceive : st = .receive → s.client thp = none) : Inv (s.setState thp st) := by
  constructor
  · refine h.paired.change (t := thp) ?_ hfree ?_
    · intro u hu
      simp [hu]
    · intro hl
      apply hreply
      simpa using hl
  · intro r hr
    rw [state_setState] at hr
    split at hr
    · rename_i heq
      rw [heq]
      exact hreceive hr
    · exact h.idle r hr

theorem ready (hfree : ∀ v, s.client v ≠ some thp) : Inv (s.setState thp .ready) := by
  apply h.setState hfree
  · intro h0
    cases h0
  · intro h0
    cases h0

theorem wake (hw : ∀ r ∈ woken, (s.state r).replying = false) : Inv (s.wake woken) := by
  cases woken with
  | none => exact h
  | some r => exact h.ready (h.free (hw r rfl))

theorem dropClient (act : Nat) : Inv (s.dropClient act) := by
  unfold Serve.dropClient
  split
  · rename_i t ht
    refine ⟨h.paired.part ht, ?_⟩
    intro r hr
    have := h.idle r hr
    dsimp only
    rw [update_apply]
    split
    · rfl
    · exact this
  · exact h

theorem client_server {srv : Nat} (ht : (s.state thp).replying = true)
    (hs : s.server thp = some srv) : s.client srv = some thp :=
  (h.paired thp srv).mp ⟨ht, hs⟩

theorem dropServer (ht : (s.state thp).replying = true) : Inv (s.dropServer thp) := by
  unfold Serve.dropServer
  split
  · rename_i srv hs
    refine ⟨h.paired.part (h.client_server ht hs), ?_⟩
    intro r hr
    have := h.idle r hr
    dsimp only
    rw [update_apply]
    split
    · rfl
    · exact this
  · exact h

end

theorem server_dropServer : (s.dropServer thp).server thp = none := by
  unfold Serve.dropServer
  split
  · exact update_self _ _ _
  · assumption

theorem serve (h : Inv s) (st : Nat → MsgState) {t v : Nat} (hother : ∀ u, u ≠ t →
      ((st u).replying = true ↔ (s.state u).replying = true))
    (hlive : (st t).replying = true) (hfree : ∀ w, s.client w ≠ some t) (hc : s.client v = none)
    (hidle : ∀ r, st r = .receive → r ≠ v ∧ s.state r = .receive) :
    Inv { s.serve t v with state := st } := by
  refine ⟨h.paired.join hother hlive hfree hc, ?_⟩
  intro r hr
  obtain ⟨hrv, hrs⟩ := hidle r hr
  have := h.idle r hrs
  change update s.client v (some t) r = none
  rw [update_of_ne hrv]
  exact this

theorem readySender (h : Inv s) (hfree : ∀ v, s.client v ≠ some thp) (hw : s.Wakes woken) :
    Inv (s.readySender thp woken) := by
  refine (h.wake ?_).ready ?_
  · intro r hr
    rw [hw r hr]
    rfl
  · cases woken with
    | none => exact hfree
    | some r => exact hfree

end Inv

/-! ### The calls -/

section

variable (h : Inv s)
include h

theorem sendv_inv {receiver : Option Nat} {env : Chan.SendEnv} {s' : Serve}
    (hl : s.Legal (.sendv act receiver env)) (hs : s.kerMsgSendv act receiver env = some s') :
    Inv s' := by
  obtain ⟨hact, hrec⟩ := hl
  have hfree : ∀ v, s.client v ≠ some act := by
    apply h.free
    rw [hact]
    split <;> rfl
  unfold kerMsgSendv at hs
  split at hs
  · cases hs
  cases receiver with
  | some thp =>
    have hthp := hrec thp rfl
    have hidle : (s.state thp).replying = false := by
      rw [hthp]
      rfl
    have hready := h.ready (h.free hidle)
    have hne : act ≠ thp := by
      intro heq
      rw [← heq, hact] at hthp
      split at hthp <;> cases hthp
    dsimp only at hs
    split at hs
    · cases hs
      exact h
    split at hs
    · cases hs
      exact h
    · cases hs
      exact hready
    cases hs
    apply h.serve (t := act) (v := thp)
    · intro u hu
      by_cases hut : u = thp
      · subst hut
        rw [update_self, hthp]
        exact Iff.rfl
      · rw [update_of_ne hut, state_setState, if_neg hu, state_serve]
    · rw [update_of_ne hne, state_setState, if_pos rfl]
      rfl
    · exact hfree
    · exact h.idle thp hthp
    · intro r hr
      by_cases hrt : r = thp
      · rw [hrt, update_self] at hr
        cases hr
      rw [update_of_ne hrt, state_setState] at hr
      split at hr
      · cases hr
      · exact ⟨hrt, hr⟩
  | none =>
    dsimp only at hs
    split at hs
    · cases hs
      exact h
    split at hs
    · cases hs
      exact h
    cases hs
    apply h.setState hfree
    · intro h0
      cases h0
    · intro h0
      cases h0

theorem receivev_inv {first : Option FirstSend} {env : Chan.ReceiveEnv}
    (hl : s.Legal (.receivev act first env woken)) :
    Inv (s.kerMsgReceivev act first env woken) := by
  obtain ⟨hact, hwoken, hfirst⟩ := hl
  have hdrop := h.dropClient act
  have hstate := @state_dropClient s act
  unfold kerMsgReceivev
  split
  · exact hdrop
  · rename_i thp
    have hthp : (s.state thp).replying = false := by
      obtain h1 | h1 := hfirst
      · rw [h1]
        rfl
      · rw [h1]
        rfl
    split
    · exact h.readySender (h.free hthp) hwoken
    split
    · exact h.readySender (h.free hthp) hwoken
    · exact hdrop
    apply hdrop.serve (t := thp) (v := act)
    · intro u hu
      rw [update_of_ne hu]
      exact Iff.rfl
    · rw [update_self]
      split <;> rfl
    · apply hdrop.free
      rw [hstate]
      exact hthp
    · exact client_dropClient
    · intro r hr
      simp only [update_apply, Serve.serve] at hr
      split at hr
      · split at hr <;> cases hr
      refine ⟨?_, hr⟩
      rintro rfl
      rw [hstate, hact] at hr
      cases hr
  · split
    · exact hdrop
    apply hdrop.setState
    · apply hdrop.free
      rw [hstate, hact]
      rfl
    · intro h0
      cases h0
    · intro _
      exact client_dropClient

theorem netSend2_inv (hact : s.state act = .ready) {pulse : Option (Option Nat)}
    (hpulse : ∀ w ∈ pulse, s.Wakes w) : Inv (s.netSend2 act thp pulse) := by
  unfold netSend2
  split
  · exact h
  rename_i hreply
  have hreply : s.state thp = .reply := by simpa using hreply
  have hne : act ≠ thp := by
    intro heq
    rw [heq, hreply] at hact
    cases hact
  have h1 : Inv ((s.dropServer thp).setState thp .stopped) := by
    have hlive : (s.state thp).replying = true := by
      rw [hreply]
      rfl
    have hd := h.dropServer hlive
    apply hd.setState (hd.free_of_none Inv.server_dropServer)
    · intro h0
      cases h0
    · intro h0
      cases h0
  have hact1 : ((s.dropServer thp).setState thp .stopped).state act = .ready := by
    rw [state_setState, if_neg hne, state_dropServer]
    exact hact
  generalize hs1 : (s.dropServer thp).setState thp .stopped = s1 at h1 hact1
  have hmid : Inv { s1 with server := update s1.server act none } :=
    ⟨h1.paired.overwrite (by simp [hact1, MsgState.replying]) none, h1.idle⟩
  have h2 : Inv (({ s1 with server := update s1.server act none } : Serve).setState
      act .reply) := by
    apply hmid.setState
    · apply hmid.free_of_none
      exact update_self _ _ _
    · intro _
      exact update_self _ _ _
    · intro h0
      cases h0
  cases pulse with
  | some w =>
    apply h2.wake
    intro r hr
    have hrec := hpulse w rfl r hr
    rw [state_setState, if_neg]
    · rw [← hs1, state_setState, if_neg, state_dropServer, hrec]
      · rfl
      · intro heq
        rw [heq, hreply] at hrec
        cases hrec
    · intro heq
      rw [heq, hact] at hrec
      cases hrec
  | none =>
    apply h2.ready
    apply h2.free_of_none
    exact update_self _ _ _

theorem answer_inv (hreply : (s.state thp).replying = true) (hw : s.Wakes woken) :
    Inv (((s.dropServer thp).wake woken).setState thp .ready) := by
  have hd := h.dropServer hreply
  refine hd.readySender (hd.free_of_none Inv.server_dropServer) ?_
  intro r hr
  rw [state_dropServer]
  exact hw r hr

theorem replyv_inv {id : Option Rcvid} {fin : ReplyEnd} {pulse : Option (Option Nat)}
    (hl : s.Legal (.replyv act id fin woken pulse))
    (hclean : s.Clean (.replyv act id fin woken pulse)) :
    Inv (s.kerMsgReplyv act id fin woken pulse) := by
  obtain ⟨hact, hwoken, hpulse⟩ := hl
  unfold kerMsgReplyv
  split
  · exact h
  rename_i id
  split
  · exact netSend2_inv h hact hpulse
  rename_i hnet
  split
  · exact h
  rename_i hreply
  have hreply : (s.state id.thp).replying = true ∧ id.refused = false := by simpa using hreply
  cases fin with
  | early =>
    obtain hn | hn := hclean
    · exact absurd hn hnet
    · exact h.readySender (h.free_of_none hn) hwoken
  | xfer x => exact answer_inv h hreply.1 hwoken

theorem error_inv {id : Option Rcvid} {pulse : Option (Option Nat)}
    (hl : s.Legal (.error act id woken pulse)) : Inv (s.kerMsgError act id woken pulse) := by
  obtain ⟨hact, hwoken, hpulse⟩ := hl
  unfold kerMsgError
  split
  · exact h
  rename_i id
  split
  · exact netSend2_inv h hact hpulse
  split
  · exact h
  rename_i hreply
  have hreply : (s.state id.thp).replying = true ∧ id.refused = false := by simpa using hreply
  exact answer_inv h hreply.1 hwoken

theorem current_inv {id : Option Rcvid} (hact : s.state act = .ready) :
    Inv (s.kerMsgCurrent act id) := by
  have h1 := h.dropClient act
  have hstate := @state_dropClient s act
  have hc := @client_dropClient s act
  unfold kerMsgCurrent
  dsimp only
  generalize s.dropClient act = s1 at h1 hstate hc
  split
  · exact h1
  rename_i id
  split
  · exact h1
  split
  · exact h1
  rename_i hreply
  have hreply : (s1.state id.thp).replying = true ∧ id.refused = false := by
    simpa using hreply
  have h2 := h1.dropServer hreply.1
  have hfree := h2.free_of_none Inv.server_dropServer
  have hnone : (s1.dropServer id.thp).client act = none := by
    unfold dropServer
    split
    · dsimp only
      rw [update_apply]
      split
      · rfl
      · exact hc
    · exact hc
  have hserve := h2.serve (s1.dropServer id.thp).state (t := id.thp) (v := act)
    (fun _ _ => Iff.rfl) (by rw [state_dropServer]; exact hreply.1) hfree hnone (by
      intro r hr
      refine ⟨?_, hr⟩
      rintro rfl
      rw [state_dropServer, hstate, hact] at hr
      cases hr)
  -- The field `server` of the client is written once here and twice there.
  unfold dropServer at hserve
  split at hserve
  · unfold Serve.serve at hserve
    rwa [update_idem] at hserve
  · exact hserve

end

theorem state_wake (hw : s.Wakes woken) (ht : s.state thp ≠ .receive) :
    (s.wake woken).state thp = s.state thp := by
  cases woken with
  | none => rfl
  | some r =>
    rw [wake, state_setState, if_neg]
    rintro rfl
    exact ht (hw _ rfl)

theorem forceReply_inv (h : Inv s) (hreply : (s.state thp).replying = true) (hw : s.Wakes woken) :
    ∃ s', (match s.server thp with
        | some srv =>
          if s.client srv = none then none else some ((s.dropServer thp).readySender thp woken)
        | none => some (s.readySender thp woken)) = some s' ∧ Inv s' := by
  cases hs : s.server thp with
  | none => exact ⟨_, rfl, h.readySender (h.free_of_none hs) hw⟩
  | some srv =>
    dsimp only
    rw [h.client_server hreply hs]
    exact ⟨_, rfl, answer_inv h hreply hw⟩

theorem forceReady_inv (h : Inv s) {unblock : Option (Option Nat × Bool)}
    (hl : s.Legal (.forceReady thp unblock woken)) :
    ∃ s', s.forceReady thp unblock woken = some s' ∧ Inv s' := by
  obtain ⟨hwoken, hunblock⟩ := hl
  have hquiet : (s.state thp).replying = false → ∃ s', some (s.readySender thp woken) = some s' ∧
      Inv s' := fun hq => ⟨_, rfl, h.readySender (h.free hq) hwoken⟩
  have hsimple : (s.state thp).replying = false → ∃ s', some (s.setState thp .ready) = some s' ∧
      Inv s' := fun hq => ⟨_, rfl, h.ready (h.free hq)⟩
  unfold forceReady
  cases hst : s.state thp with
  | reply =>
    cases unblock with
    | none => exact forceReply_inv h (by rw [hst]; rfl) hwoken
    | some u =>
      obtain ⟨w, stays⟩ := u
      obtain ⟨hw, hdisj⟩ := hunblock (w, stays) rfl
      have hinv : Inv (s.wake w) := by
        apply h.wake
        intro r hr
        rw [hw r hr]
        rfl
      dsimp only
      split
      · exact ⟨_, rfl, hinv⟩
      refine forceReply_inv hinv ?_ ?_
      · rw [state_wake hw (by rw [hst]; simp), hst]
        rfl
      · intro r hr
        have hrec := hwoken r hr
        cases w with
        | none => exact hrec
        | some x =>
          rw [wake, state_setState, if_neg]
          · exact hrec
          · rintro rfl
            exact hdisj r hr rfl
  | netReply => exact forceReply_inv h (by rw [hst]; rfl) hwoken
  | send => exact hquiet (by rw [hst]; rfl)
  | netSend => exact hquiet (by rw [hst]; rfl)
  | sendGbl => exact hquiet (by rw [hst]; rfl)
  | receive => exact hsimple (by rw [hst]; rfl)
  | receiveGbl => exact hsimple (by rw [hst]; rfl)
  | ready => exact ⟨_, rfl, h⟩
  | stopped => exact ⟨_, rfl, h⟩

theorem step_inv {o : ServeOp} {s' : Serve} (h : Inv s) (hl : s.Legal o) (hclean : s.Clean o)
    (hs : serveStep s o = some s') : Inv s' := by
  cases o with
  | sendv act receiver env => exact sendv_inv h hl hs
  | netSend act =>
    cases hs
    apply h.setState (h.free (by rw [show s.state act = .ready from hl]; rfl))
    · intro h0
      cases h0
    · intro h0
      cases h0
  | sendGbl act receiver =>
    obtain ⟨hact, hrec⟩ := hl
    cases receiver with
    | some r =>
      cases hs
      exact h.ready (h.free (by rw [hrec r rfl]; rfl))
    | none =>
      cases hs
      apply h.setState (h.free (by rw [hact]; rfl))
      · intro h0
        cases h0
      · intro h0
        cases h0
  | receivev act first env woken =>
    cases hs
    exact receivev_inv h hl
  | receiveGbl act sender blocks =>
    obtain ⟨hact, hsend⟩ := hl
    cases hs
    split
    · apply h.setState (h.free (by rw [hact]; rfl))
      · intro h0
        cases h0
      · intro h0
        cases h0
    apply h.wake
    intro r hr
    rw [hsend r hr]
    rfl
  | replyv act id fin woken pulse =>
    cases hs
    exact replyv_inv h hl hclean
  | error act id woken pulse =>
    cases hs
    exact error_inv h hl
  | current act id =>
    cases hs
    exact current_inv h hl
  | forceReady thp unblock woken =>
    obtain ⟨t, ht, hinv⟩ := forceReady_inv h hl
    have hs : s.forceReady thp unblock woken = some s' := hs
    rw [ht] at hs
    cases hs
    exact hinv
  | other act x =>
    cases hs
    exact ⟨h.paired.overwrite (by simp [show s.state act = .ready from hl, MsgState.replying]) x,
      h.idle⟩

/-- Before the first message; some threads are the network's vthreads. -/
def Init (s : Serve) : Prop :=
  (∀ t, s.state t = .ready ∨ s.state t = .stopped) ∧ ∀ t, s.client t = none

theorem inv_of_init (h : s.Init) : Inv s := by
  constructor
  · intro t v
    rw [h.2 v]
    constructor
    · rintro ⟨hr, -⟩
      obtain h1 | h1 := h.1 t
      · rw [h1] at hr
        cases hr
      · rw [h1] at hr
        cases hr
    · intro h0
      cases h0
  · intro r _
    exact h.2 r

/-- Runs in which no reply faults early on a client that is served. -/
abbrev Reached : Serve → Prop := Reach Init (fun s o => s.Legal o ∧ s.Clean o) serveStep

theorem inv_of_reached (h : Reached s) : Inv s := by
  refine h.invariant (P := Inv) ?_ ?_
  · intro s
    exact inv_of_init
  · intro s o s' hinv ho hs
    exact step_inv hinv ho.1 ho.2 hs

/-- In every state reached a REPLY-blocked client and its server point at each other, and
`force_ready` never meets half of a pair. -/
theorem pairs_kept (h : Reached s) :
    (∀ thp srv, (s.state thp = .reply ∨ s.state thp = .netReply) ∧ s.server thp = some srv ↔
      s.client srv = some thp) ∧
    ∀ thp unblock woken, s.Legal (.forceReady thp unblock woken) →
      (s.forceReady thp unblock woken).isSome := by
  have hinv := inv_of_reached h
  refine ⟨?_, ?_⟩
  · intro thp srv
    rw [← MsgState.replying_iff]
    exact hinv.paired thp srv
  · intro thp unblock woken hl
    obtain ⟨s', hs', -⟩ := forceReady_inv hinv hl
    rw [hs']
    rfl

def quiet : Serve := ⟨fun _ => .ready, fun _ => none, fun _ => none⟩

theorem quiet_init : quiet.Init := ⟨fun _ => .inl rfl, fun _ => rfl⟩

theorem pairs_kept_taken_over : ∃ s : Serve, Reached s ∧ s.state 3 = .reply ∧
    s.server 3 = some 4 ∧ s.client 4 = some 3 ∧ s.client 2 = none := by
  refine exists_reach quiet_init [.receivev 2 none ⟨false, .ok, none, false, false⟩ none,
      .sendv 1 (some 2) ⟨false, false, .ok, false, false⟩,
      .sendv 3 none ⟨false, false, .ok, false, false⟩,
      .replyv 2 (some ⟨1, false, false⟩) (.xfer .ok) none none,
      .receivev 2 (some (.thread 3)) ⟨false, .ok, none, false, false⟩ none,
      .current 4 (some ⟨3, false, false⟩)]
    (by decide +kernel) fun s hs
      (hq : s.state 3 = .reply ∧ s.server 3 = some 4 ∧ s.client 2 = none) => ?_
  obtain ⟨hst, hsrv, hfree⟩ := hq
  exact ⟨hst, hsrv, ((pairs_kept hs).1 3 4).mp ⟨.inl hst, hsrv⟩, hfree⟩

/-- A reply from a buffer out of bounds: the client runs on, and the server still points at it. -/
theorem reply_leaves_half : ∃ s : Serve, Reach Init Legal serveStep s ∧ s.state 1 = .ready ∧
    s.client 2 = some 1 := by
  exact exists_reach quiet_init [.receivev 2 none ⟨false, .ok, none, false, false⟩ none,
      .sendv 1 (some 2) ⟨false, false, .ok, false, false⟩,
      .replyv 2 (some ⟨1, false, false⟩) .early none none]
    (by decide +kernel) fun _ _ hq => hq

end Serve

end Qnx.Ker
