import Qnx.Ker.Global

/-!
# Runs of a global channel

Whatever senders and receivers do, the buffered messages are those accepted and not yet received, in
the order in which they will be received.
-/

namespace Qnx.Ker

open PriQueue Run List Function

def GblChan.seq (c : GblChan) (a : Nat) : Nat := (c.msg a).seq

namespace GblRun

open GblChan

structure Inv (s : GblRun) (L : List Nat) : Prop where
  links : Links s.chan L
  count : s.chan.numCurrMsg = L.length
  room : s.chan.numCurrMsg ≤ s.chan.maxNumBuffer
  free : s.chan.free ∉ L
  stable : Stable s.chan.prio s.chan.seq L
  once : (s.received ++ L.map s.chan.msg).Perm s.accepted
  numbered : s.accepted.map GblMsg.seq = range s.accepted.length
  idle : s.chan.receiveQueue ≠ [] → L = []

variable {s : GblRun} {L : List Nat} {m : GblMsg} {env : GblSendEnv}

section

variable (h : Inv s L)
include h

theorem Inv.seq_lt : ∀ a ∈ L, s.chan.seq a < s.accepted.length := by
  intro a ha
  have hacc : s.chan.msg a ∈ s.accepted := h.once.subset (mem_append_right _ (mem_map_of_mem ha))
  have hm : s.chan.seq a ∈ s.accepted.map GblMsg.seq := mem_map_of_mem hacc
  rw [h.numbered] at hm
  exact mem_range.mp hm

theorem Inv.threads (rq : List Nat) (sq : List GblSender) (hrq : rq ≠ [] → L = []) :
    Inv { s with chan := { s.chan with receiveQueue := rq, sendQueue := sq } } L where
  links := h.links.congr rfl rfl rfl
  count := h.count
  room := h.room
  free := h.free
  stable := h.stable
  once := h.once
  numbered := h.numbered
  idle := hrq

theorem Inv.handed (priority size : Nat) : Inv ⟨s.chan, s.accepted ++ [s.message priority size],
      s.received ++ [s.message priority size]⟩ L where
  links := h.links
  count := h.count
  room := h.room
  free := h.free
  stable := h.stable
  once := by
    refine Perm.trans ?_ (h.once.append_right _)
    rw [append_assoc, append_assoc]
    exact (perm_append_comm).append_left _
  numbered := by
    simp [h.numbered, range_succ, message]
  idle := h.idle

theorem Inv.fill {g : Nat} (hg : g ∉ L) (m : GblMsg) :
    Inv { s with chan := { s.chan with free := g, msg := update s.chan.msg g m } } L := by
  have hmsg : ∀ a ∈ L, update s.chan.msg g m a = s.chan.msg a := by
    intro a ha
    apply update_of_ne
    rintro rfl
    exact hg ha
  refine ⟨h.links.congr rfl rfl rfl, h.count, h.room, hg, ?_, ?_, h.numbered, h.idle⟩
  · apply h.stable.congr
    intro b hb
    unfold prio GblChan.seq
    dsimp only
    rw [hmsg b hb]
    exact ⟨rfl, rfl⟩
  · rw [map_congr_left hmsg]
    exact h.once

theorem Inv.buffered {g : Nat} (hg0 : g ≠ 0) (hgL : g ∉ L) {priority size : Nat}
    (hmsg : s.chan.msg g = s.message priority size)
    (hroom : s.chan.numCurrMsg < s.chan.maxNumBuffer) (hidle : s.chan.receiveQueue = []) :
    ∃ c L', (s.chan.linkPriMsg g).map (fun c => ({ c with
        numCurrMsg := c.numCurrMsg + 1, free := 0 }, GblSendEnd.buffered)) = some (c, .buffered) ∧
      Inv ⟨c, s.accepted ++ [s.message priority size], s.received⟩ L' := by
  obtain ⟨head, tail, next, hlink, hL⟩ := linkPriMsg_spec h.links h.stable.ordered h.count hg0 hgL
  have hperm := perm_insertGE s.chan.prio g L
  rw [hlink]
  refine ⟨_, insertGE s.chan.prio g L, rfl, ?_⟩
  constructor
  · exact hL.congr rfl rfl rfl
  · rw [hperm.length_eq, length_cons, h.count]
  · exact hroom
  · exact hL.pos
  · refine Stable.insertGE h.stable ?_
    intro b hb
    have := h.seq_lt b hb
    unfold GblChan.seq
    rw [hmsg]
    exact this
  · refine Perm.trans ((hperm.map s.chan.msg).append_left _) ?_
    rw [map_cons, hmsg]
    refine Perm.trans perm_middle ?_
    exact (h.once.cons _).trans (perm_append_singleton _ _).symm
  · simp [h.numbered, range_succ, message]
  · exact absurd hidle

end

theorem resend_cases (c : GblChan) (m : GblMsg) (env : GblSendEnv) (rcv : List Nat) :
    (∃ q e, c.resend m env rcv = some ({ c with receiveQueue := q }, e) ∧ rcv ≠ [] ∧
      (e = .efault ∨ e = .restart ∨ ∃ thp, e = .delivered thp)) ∨
    c.resend m env rcv = { c with receiveQueue := [] }.enqueue m env := by
  induction rcv with
  | nil => exact .inr rfl
  | cons thp rest ih =>
    rw [resend]
    split
    · exact .inl ⟨rest, _, rfl, by simp, .inr (.inr ⟨thp, rfl⟩)⟩
    · exact .inl ⟨thp :: rest, _, rfl, by simp, .inl rfl⟩
    split
    · exact .inl ⟨rest, _, rfl, by simp, .inr (.inl rfl)⟩
    obtain ⟨q, e, heq, -, he⟩ | heq := ih
    · exact .inl ⟨q, e, heq, by simp, he⟩
    · exact .inr heq

theorem enqueue_inv (h : Inv s L) {priority size : Nat} (halloc : ∀ g ∈ env.alloc, g ≠ 0 ∧ g ∉ L)
    (hroom : s.chan.numCurrMsg < s.chan.maxNumBuffer) (hidle : s.chan.receiveQueue = []) :
    ∃ r L', s.chan.enqueue (s.message priority size) env = some r ∧
      Inv (s.afterSend (s.message priority size) r) L' := by
  rw [GblChan.enqueue.eq_def]
  split
  · exact ⟨_, L, rfl, h⟩
  rename_i g hg
  have hgok : g ≠ 0 ∧ g ∉ L := by
    split at hg
    · rename_i hfree
      cases hg
      exact ⟨hfree, h.free⟩
    · exact halloc g hg
  have hfill := h.fill hgok.2 (s.message priority size)
  dsimp only
  split
  · exact ⟨_, L, rfl, hfill⟩
  -- The event does not matter to the queue.
  have hev : ∀ b, Inv { s with chan := { s.chan with
      free := g, msg := update s.chan.msg g (s.message priority size), evPrp := b } }
      L := fun b => ⟨hfill.links.congr rfl rfl rfl, hfill.count, hfill.room, hfill.free,
        hfill.stable, hfill.once, hfill.numbered, hfill.idle⟩
  have hgo : ∀ b, ∃ r L', (({ s.chan with
      free := g, msg := update s.chan.msg g (s.message priority size),
      evPrp := b } : GblChan).linkPriMsg g).map (fun c3 => ({ c3 with
        numCurrMsg := c3.numCurrMsg + 1, free := 0 }, GblSendEnd.buffered)) = some r ∧
      Inv (s.afterSend (s.message priority size) r) L' := by
    intro b
    obtain ⟨c, L', hc, hinv⟩ := (hev b).buffered hgok.1 hgok.2 (update_self _ _ _) hroom hidle
    exact ⟨_, L', hc, hinv⟩
  split
  · exact hgo false
  · exact hgo s.chan.evPrp

theorem send_inv (h : Inv s L) {priority size : Nat} (halloc : ∀ g ∈ env.alloc, g ≠ 0 ∧ g ∉ L) :
    ∃ r L', s.chan.msgsendGbl (s.message priority size) env = some r ∧
      Inv (s.afterSend (s.message priority size) r) L' := by
  unfold msgsendGbl
  split
  · exact ⟨_, L, rfl, h⟩
  split
  · exact ⟨_, L, rfl, h⟩
  split
  · split
    · exact ⟨_, L, rfl, h⟩
    split
    · exact ⟨_, L, rfl, h⟩
    · exact ⟨_, L, rfl, h.threads s.chan.receiveQueue _ h.idle⟩
  obtain ⟨q, e, heq, hrcv, he⟩ | heq := resend_cases s.chan (s.message priority size) env
    s.chan.receiveQueue
  · have hL := h.idle hrcv
    have hq := h.threads q s.chan.sendQueue (fun _ => hL)
    rw [heq]
    obtain rfl | rfl | ⟨thp, rfl⟩ := he
    · exact ⟨_, L, rfl, hq⟩
    · exact ⟨_, L, rfl, hq⟩
    · exact ⟨_, L, rfl, hq.handed priority size⟩
  · rw [heq]
    have hq := h.threads [] s.chan.sendQueue (absurd rfl)
    obtain ⟨r, L', hr, hinv⟩ := enqueue_inv hq halloc (by dsimp only; omega) rfl
    exact ⟨r, L', hr, hinv⟩

theorem receive_inv (h : Inv s L) (act : Nat) (env : GblReceiveEnv) :
    ∃ c e L', s.chan.msgreceiveGbl act env = some (c, e) ∧ Inv (s.afterReceive (c, e)) L' ∧
      ∀ m, e = .taken m → L.map s.chan.msg = m :: L'.map c.msg := by
  unfold msgreceiveGbl
  split
  · exact ⟨_, _, L, rfl, h, by simp⟩
  split
  · exact ⟨_, _, L, rfl, h, by simp⟩
  split
  · rename_i hne
    cases L with
    | nil => exact absurd h.count hne
    | cons a L =>
      have hhead : s.chan.head = a := h.links.visits.1
      have ha0 : a ≠ 0 := by
        rintro rfl
        exact h.links.pos mem_cons_self
      have hcount := h.count
      rw [length_cons] at hcount
      rw [if_neg (by rw [hhead]; exact ha0)]
      split
      · exact ⟨_, _, a :: L, rfl, h, by simp⟩
      refine ⟨_, _, L, rfl, ?_, ?_⟩
      · constructor
        · refine h.links.removeFirst ?_ rfl ?_
          · exact congrArg s.chan.next hhead
          · exact congrArg (fun x => if s.chan.next x = 0 then 0 else s.chan.tail) hhead
        · change s.chan.numCurrMsg - 1 = L.length
          omega
        · have := h.room
          change s.chan.numCurrMsg - 1 ≤ s.chan.maxNumBuffer
          omega
        · change (if s.chan.free = 0 then s.chan.head else s.chan.free) ∉ L
          split
          · rw [hhead]
            exact (nodup_cons.mp h.links.nodup).1
          · intro hm
            exact h.free (mem_cons_of_mem _ hm)
        · exact (pairwise_cons.mp h.stable).2
        · change (s.received ++ [s.chan.msg s.chan.head] ++ L.map s.chan.msg).Perm s.accepted
          rw [hhead, append_assoc]
          exact h.once
        · exact h.numbered
        · intro hq
          exact absurd (h.idle hq) (by simp)
      · intro m hm
        cases hm
        rw [hhead]
        rfl
  · rename_i hne
    have hL : L = [] := eq_nil_of_length_eq_zero (by
      rw [← h.count]
      exact not_not.mp hne)
    split
    · exact ⟨_, _, L, rfl, h, by simp⟩
    split
    · exact ⟨_, _, L, rfl, h, by simp⟩
    · exact ⟨_, _, L, rfl, h.threads _ s.chan.sendQueue (fun _ => hL), by simp⟩

theorem step_inv (h : Inv s L) {o : GblOp} (hl : s.Legal o) :
    ∃ s' L', gblStep s o = some s' ∧ Inv s' L' := by
  cases o with
  | send priority size env =>
    have halloc : ∀ g ∈ env.alloc, g ≠ 0 ∧ g ∉ L := by
      intro g hg
      obtain ⟨h0, hmem⟩ := hl g hg
      rw [h.links.entries_eq h.count] at hmem
      exact ⟨h0, hmem⟩
    obtain ⟨r, L', hr, hinv⟩ := send_inv h halloc
    exact ⟨_, L', by rw [gblStep, hr]; rfl, hinv⟩
  | receive act env =>
    obtain ⟨c, e, L', hr, hinv, -⟩ := receive_inv h act env
    exact ⟨_, L', by rw [gblStep, hr]; rfl, hinv⟩

abbrev Reached : GblRun → Prop := Reach Init Legal gblStep

theorem inv_of_reached (h : Reached s) : ∃ L, Inv s L := by
  refine h.invariant_of_total (P := fun s => ∃ L, Inv s L) ?_ ?_
  · rintro s ⟨hn, hh, ht, hf, hr, -, ha, hrec⟩
    refine ⟨[], ⟨hh, nodup_nil, by simp, ht⟩, hn, by omega, by simp, .nil, ?_, ?_, fun _ => rfl⟩
    · simp [ha, hrec]
    · simp [ha]
  · rintro s o ⟨L, hinv⟩ hl
    obtain ⟨t, L', ht, hinv'⟩ := step_inv hinv hl
    exact ⟨t, ht, L', hinv'⟩

/-- In every state reached: the count, the tail, the order and the contents of the queue; a receiver
waits only beside an empty queue; every call returns; and a receive takes the first message. -/
theorem gbl_messages_kept (h : Reached s) :
    (s.chan.numCurrMsg = s.chan.entries.length ∧ s.chan.numCurrMsg ≤ s.chan.maxNumBuffer ∧
      s.chan.tail = s.chan.entries.getLast?.getD 0 ∧ (s.chan.tail = 0 ↔ s.chan.entries = []) ∧
      ((s.chan.entries.map s.chan.msg).Pairwise fun m m' =>
        m'.priority < m.priority ∨ m'.priority = m.priority ∧ m.seq < m'.seq) ∧
      (s.received ++ s.chan.entries.map s.chan.msg).Perm s.accepted ∧
      s.accepted.map GblMsg.seq = range s.accepted.length ∧
      (s.chan.receiveQueue ≠ [] → s.chan.entries = [])) ∧
    (∀ o, s.Legal o → (gblStep s o).isSome) ∧
    ∀ act env c m, s.chan.msgreceiveGbl act env = some (c, .taken m) →
      s.chan.entries.map s.chan.msg = m :: c.entries.map c.msg := by
  obtain ⟨L, hinv⟩ := inv_of_reached h
  have hL := hinv.links.entries_eq hinv.count
  refine ⟨?_, ?_, ?_⟩
  · rw [hL]
    refine ⟨hinv.count, hinv.room, hinv.links.tail, ?_, pairwise_map.mpr hinv.stable, hinv.once,
      hinv.numbered, hinv.idle⟩
    rw [hinv.links.tail]
    cases L with
    | nil => simp
    | cons a L =>
      refine ⟨fun h0 => absurd ?_ hinv.links.pos, fun h0 => by cases h0⟩
      rw [← h0]
      exact getLast_mem _
  · intro o hl
    obtain ⟨s', L', hs', -⟩ := step_inv hinv hl
    rw [hs']
    rfl
  · intro act env c m hr
    obtain ⟨c', e, L', hr', hinv', htaken⟩ := receive_inv hinv act env
    rw [hr'] at hr
    cases hr
    rw [hL, htaken m rfl]
    have hL' : c.entries = L' := hinv'.links.entries_eq hinv'.count
    rw [hL']

def created : GblRun where
  chan := ⟨16, 2, 0, 0, 0, 0, fun _ => 0, fun _ => ⟨0, 0, 0⟩, false, [], []⟩
  accepted := []
  received := []

def plainSend (g : Nat) : GblSendEnv :=
  ⟨⟨1, 10⟩, false, false, true, fun _ => .ok, fun _ => false, some g, false⟩

def plainReceive : GblReceiveEnv := ⟨16, true, false, false, false⟩

theorem gbl_messages_kept_two : ∃ s : GblRun, Reached s ∧ s.received = [⟨20, 8, 1⟩] ∧
    s.chan.numCurrMsg = 1 ∧ (s.received ++ s.chan.entries.map s.chan.msg).Perm s.accepted := by
  obtain ⟨s, hs, hq⟩ := (Reach.init ⟨rfl, rfl, rfl, rfl, rfl, rfl, rfl, rfl⟩ :
      Reached created).replay_any
    [.send 10 8 (plainSend 100), .send 20 8 (plainSend 200), .receive 5 plainReceive]
    (fun s => s.received = [⟨20, 8, 1⟩] ∧ s.chan.numCurrMsg = 1) (by decide +kernel)
  obtain ⟨hrec, hnum⟩ := of_decide_eq_true hq
  obtain ⟨⟨-, -, -, -, -, hperm, -, -⟩, -, -⟩ := gbl_messages_kept hs
  exact ⟨s, hs, hrec, hnum, hperm⟩

end GblRun

end Qnx.Ker
