import Qnx.Shared.Chain
import Qnx.Ker.Channel

/-!
# Global channels

`msgsend_gbl` and `msgreceive_gbl`. The buffered messages hang on `chp->ch.reply_queue`, linked by
`next`; 0 is `NULL`. A call that is preempted restarts from its beginning, so it is a new call.
-/

namespace Qnx.Ker

open Chain PriQueue List Function

/-- The contents of a `gblmsg_entry`; `seq` tells the messages apart and no code reads it. -/
structure GblMsg where
  priority : Nat
  size : Nat
  seq : Nat
  deriving DecidableEq, Repr

structure GblSender where
  thp : Nat
  priority : Nat
  deriving DecidableEq, Repr

structure GblChan where
  bufferSize : Nat
  maxNumBuffer : Nat
  numCurrMsg : Nat
  /-- `ch.reply_queue` -/
  head : Nat
  tail : Nat
  free : Nat
  next : Nat → Nat
  msg : Nat → GblMsg
  evPrp : Bool
  receiveQueue : List Nat
  sendQueue : List GblSender

/-- What `msgsend_gbl` finds: `_NTO_COF_NONBLOCK`, an immediate timeout, whether the message is within
bounds, how the transfer to each receiver ends and whether the sender is preempted after it, what
`_smalloc` returns, and a fault of the copy to the buffer. -/
structure GblSendEnv where
  act : GblSender
  nonblock : Bool
  imto : Bool
  inBounds : Bool
  xfer : Nat → Xfer
  preempt : Nat → Bool
  alloc : Option Nat
  copyFault : Bool

inductive GblSendEnd where
  | emsgsize | efault | eagain | etimedout | enomem | blocked | restart
  | delivered (thp : Nat)
  | buffered
  deriving DecidableEq, Repr

structure GblReceiveEnv where
  size : Nat
  inBounds : Bool
  nonblock : Bool
  imto : Bool
  copyFault : Bool
  deriving DecidableEq, Repr

inductive GblReceiveEnd where
  | emsgsize | efault | eagain | etimedout | blocked
  | taken (m : GblMsg)
  deriving DecidableEq, Repr

namespace GblChan

variable (c : GblChan)

def get : Option Nat → Nat
  | none => c.head
  | some a => c.next a

/-- `while (m->next->priority >= msg->priority) m = m->next` -/
def walk (priority : Nat) : Nat → Nat → Option Nat
  | 0, _ => none
  | fuel + 1, m =>
    if (c.msg (c.next m)).priority ≥ priority then walk priority fuel (c.next m) else some m

def linkPriMsg (g : Nat) : Option GblChan :=
  if c.head = 0 then some { c with next := update c.next g 0, head := g, tail := g }
  else if (c.msg g).priority ≤ (c.msg c.tail).priority then
    some { c with next := update (update c.next g 0) c.tail g, tail := g }
  else if (c.msg g).priority > (c.msg c.head).priority then
    some { c with next := update c.next g c.head, head := g }
  else
    (c.walk (c.msg g).priority c.numCurrMsg c.head).map fun m =>
      { c with next := update (update c.next g (c.next m)) m g }

def enqueue (m : GblMsg) (env : GblSendEnv) : Option (GblChan × GblSendEnd) :=
  match if c.free ≠ 0 then some c.free else env.alloc with
  | none => some (c, .enomem)
  | some g =>
    let c1 := { c with free := g, msg := update c.msg g m }
    if env.copyFault then some (c1, .efault)
    else
      -- the first message triggers the event somebody asked for
      let c2 := if c1.head = 0 ∧ c1.evPrp then { c1 with evPrp := false } else c1
      (c2.linkPriMsg g).map fun c3 =>
        ({ c3 with numCurrMsg := c3.numCurrMsg + 1, free := 0 }, .buffered)

/-- From `re_send` on, with the receivers that wait. -/
def resend (m : GblMsg) (env : GblSendEnv) : List Nat → Option (GblChan × GblSendEnd)
  | [] => { c with receiveQueue := [] }.enqueue m env
  | thp :: rest =>
    match env.xfer thp with
    | .ok => some ({ c with receiveQueue := rest }, .delivered thp)
    | .srcFault => some ({ c with receiveQueue := thp :: rest }, .efault)
    | .dstFault =>
      if env.preempt thp then some ({ c with receiveQueue := rest }, .restart)
      else resend m env rest

def msgsendGbl (m : GblMsg) (env : GblSendEnv) : Option (GblChan × GblSendEnd) :=
  if m.size > c.bufferSize then some (c, .emsgsize)
  else if !env.inBounds then some (c, .efault)
  else if c.numCurrMsg ≥ c.maxNumBuffer then
    if env.nonblock then some (c, .eagain)
    else if env.imto then some (c, .etimedout)
    else some ({ c with sendQueue := insertGE GblSender.priority env.act c.sendQueue }, .blocked)
  else c.resend m env c.receiveQueue

/-- `msgreceive_gbl`; a sender that waits is restarted. -/
def msgreceiveGbl (act : Nat) (env : GblReceiveEnv) : Option (GblChan × GblReceiveEnd) :=
  if env.size < c.bufferSize then some (c, .emsgsize)
  else if !env.inBounds then some (c, .efault)
  else if c.numCurrMsg ≠ 0 then
    if c.head = 0 then none
    else if env.copyFault then some (c, .efault)
    else
      some ({ c with
        head := c.next c.head
        tail := if c.next c.head = 0 then 0 else c.tail
        numCurrMsg := c.numCurrMsg - 1
        free := if c.free = 0 then c.head else c.free
        sendQueue := c.sendQueue.tail }, .taken (c.msg c.head))
  else if env.nonblock then some (c, .eagain)
  else if env.imto then some (c, .etimedout)
  else some ({ c with receiveQueue := act :: c.receiveQueue }, .blocked)

def entriesFrom : Nat → Nat → List Nat
  | 0, _ => []
  | n + 1, a => if a = 0 then [] else a :: entriesFrom n (c.next a)

def entries : List Nat := c.entriesFrom c.numCurrMsg c.head

end GblChan

/-- The channel with the messages accepted and received so far, in that order. -/
structure GblRun where
  chan : GblChan
  accepted : List GblMsg
  received : List GblMsg

inductive GblOp where
  | send (priority size : Nat) (env : GblSendEnv)
  | receive (act : Nat) (env : GblReceiveEnv)

namespace GblRun

def message (s : GblRun) (priority size : Nat) : GblMsg := ⟨priority, size, s.accepted.length⟩

def afterSend (s : GblRun) (m : GblMsg) : GblChan × GblSendEnd → GblRun
  | (c, .delivered _) => ⟨c, s.accepted ++ [m], s.received ++ [m]⟩
  | (c, .buffered) => ⟨c, s.accepted ++ [m], s.received⟩
  | (c, _) => { s with chan := c }

def afterReceive (s : GblRun) : GblChan × GblReceiveEnd → GblRun
  | (c, .taken m) => ⟨c, s.accepted, s.received ++ [m]⟩
  | (c, _) => { s with chan := c }

end GblRun

def gblStep (s : GblRun) : GblOp → Option GblRun
  | .send priority size env =>
    (s.chan.msgsendGbl (s.message priority size) env).map (s.afterSend (s.message priority size))
  | .receive act env => (s.chan.msgreceiveGbl act env).map s.afterReceive

namespace GblRun

/-- `_smalloc` returns a block that is not in use, and the receiver runs. -/
def Legal (s : GblRun) : GblOp → Prop
  | .send _ _ env => ∀ g ∈ env.alloc, g ≠ 0 ∧ g ∉ s.chan.entries
  | .receive act _ => act ∉ s.chan.receiveQueue

def Init (s : GblRun) : Prop :=
  s.chan.numCurrMsg = 0 ∧ s.chan.head = 0 ∧ s.chan.tail = 0 ∧ s.chan.free = 0 ∧
    s.chan.receiveQueue = [] ∧ s.chan.sendQueue = [] ∧ s.accepted = [] ∧ s.received = []

instance (s : GblRun) (o : GblOp) : Decidable (s.Legal o) :=
  match o with
  | .send _ _ _ => inferInstanceAs (Decidable (∀ g ∈ _, _))
  | .receive _ _ => inferInstanceAs (Decidable (_ ∉ _))

end GblRun

namespace GblChan

variable {c : GblChan} {L : List Nat} {g : Nat}

/-! ### The links -/

/-- The queue links the entries `L`, the last of them at `tail`. -/
structure Links (c : GblChan) (L : List Nat) : Prop where
  visits : Visits (fun p o => c.get p = o.getD 0) none L
  nodup : L.Nodup
  pos : 0 ∉ L
  tail : c.tail = L.getLast?.getD 0

theorem get_congr {c' : GblChan} (hh : c'.head = c.head) (hn : c'.next = c.next) (p : Option Nat) :
    c'.get p = c.get p := by
  cases p with
  | none => exact hh
  | some a => exact congrFun hn a

theorem Links.congr {c' : GblChan} (h : Links c L) (hh : c'.head = c.head)
    (hn : c'.next = c.next) (ht : c'.tail = c.tail) : Links c' L where
  visits := by simpa only [get_congr hh hn] using h.visits
  nodup := h.nodup
  pos := h.pos
  tail := ht.trans h.tail

theorem entriesFrom_of_visits {p : Option Nat} {n : Nat}
    (h : Visits (fun p o => c.get p = o.getD 0) p L) (hpos : 0 ∉ L) (hn : L.length = n) :
    c.entriesFrom n (c.get p) = L := by
  induction L generalizing p n with
  | nil =>
    subst hn
    rfl
  | cons a L ih =>
    subst hn
    have ha : c.get p = a := h.1
    have ha0 : a ≠ 0 := by
      rintro rfl
      exact hpos mem_cons_self
    rw [ha, length_cons, entriesFrom, if_neg ha0]
    congr 1
    exact ih h.2 (fun h0 => hpos (mem_cons_of_mem _ h0)) rfl

theorem Links.entries_eq (h : Links c L) (hn : c.numCurrMsg = L.length) : c.entries = L :=
  entriesFrom_of_visits h.visits h.pos hn.symm

theorem Links.insertAfter {l r : List Nat} {m : Nat} (h : Links c (l ++ m :: r)) (hg : g ≠ 0)
    (hgL : g ∉ l ++ m :: r) {c' : GblChan} (hh : c'.head = c.head)
    (hn : c'.next = update (update c.next g (c.next m)) m g)
    (ht : c'.tail = if r = [] then g else c.tail) : Links c' (l ++ m :: g :: r) := by
  have heq : l ++ m :: r = (l ++ [m]) ++ r := by simp
  have heq' : l ++ m :: g :: r = (l ++ [m]) ++ g :: r := by simp
  have hnd := h.nodup
  have hend : endCell none (l ++ [m]) = some m := by simp [endCell_append]
  have hgm : g ≠ m := by
    rintro rfl
    exact hgL (by simp)
  have hmr : m ∉ r := (nodup_cons.mp (nodup_append.mp hnd).2.1).1
  have hother : ∀ a, a ≠ m → a ≠ g → c'.next a = c.next a := by
    intro a ham hag
    rw [hn, update_of_ne ham, update_of_ne hag]
  have hnextm : c'.next m = g := by rw [hn, update_self]
  have hnextg : c'.next g = c.next m := by
    rw [hn, update_of_ne hgm, update_self]
  constructor
  · have hv := h.visits
    rw [heq] at hv
    rw [heq']
    refine hv.splice ?_ ?_ ?_
    · rw [heq] at hnd
      exact (nodup_append.mp hnd).1
    · intro d hd hmem o hdo
      rw [hend] at hd
      cases d with
      | none => exact (show c'.head = c.head from hh).trans hdo
      | some a =>
        have ham : a ≠ m := fun e => hd (by rw [e])
        have hag : a ≠ g := by
          rintro rfl
          have := hmem a rfl
          exact hgL (by rw [heq]; exact mem_append_left _ this)
        exact (hother a ham hag).trans hdo
    · rw [hend]
      refine ⟨hnextm, ?_⟩
      have hr := (visits_append.mp hv).2
      rw [hend] at hr
      refine hr.rehead ?_ ?_
      · intro o ho
        exact hnextg.trans ho
      · intro i hi o ho
        refine (hother i ?_ ?_).trans ho
        · rintro rfl
          exact hmr hi
        · rintro rfl
          exact hgL (by simp [hi])
  · have hp : (l ++ m :: g :: r).Perm (g :: (l ++ m :: r)) := by
      rw [heq', heq]
      exact perm_middle
    exact hp.nodup_iff.mpr (nodup_cons.mpr ⟨hgL, hnd⟩)
  · have := h.pos
    simp only [mem_append, mem_cons, not_or] at this ⊢
    exact ⟨this.1, this.2.1, fun e => hg e.symm, this.2.2⟩
  · rw [ht]
    split
    · rename_i hr
      simp [hr]
    rename_i hr
    rw [h.tail]
    obtain ⟨x, r', rfl⟩ := exists_cons_of_ne_nil hr
    simp

theorem Links.insertFirst (h : Links c L) (hg : g ≠ 0) (hgL : g ∉ L) {c' : GblChan}
    (hh : c'.head = g) (hn : c'.next = update c.next g c.head)
    (ht : c'.tail = if L = [] then g else c.tail) : Links c' (g :: L) := by
  refine ⟨⟨hh, ?_⟩, nodup_cons.mpr ⟨hgL, h.nodup⟩, ?_, ?_⟩
  · refine h.visits.rehead ?_ ?_
    · intro o ho
      refine Eq.trans ?_ ho
      change c'.next g = c.head
      rw [hn, update_self]
    · intro i hi o ho
      refine Eq.trans ?_ ho
      change c'.next i = c.next i
      rw [hn, update_of_ne]
      rintro rfl
      exact hgL hi
  · intro h0
    obtain h0 | h0 := mem_cons.mp h0
    · exact hg h0.symm
    · exact h.pos h0
  · rw [ht]
    split
    · rename_i hL
      simp [hL]
    rename_i hL
    rw [h.tail]
    obtain ⟨x, L', rfl⟩ := exists_cons_of_ne_nil hL
    simp

theorem Links.removeFirst {a : Nat} (h : Links c (a :: L)) {c' : GblChan}
    (hh : c'.head = c.next a) (hn : c'.next = c.next)
    (ht : c'.tail = if c.next a = 0 then 0 else c.tail) : Links c' L := by
  have hpos : 0 ∉ L := fun h0 => h.pos (mem_cons_of_mem _ h0)
  have hnext : c.next a = L.head?.getD 0 := by
    have := h.visits.2
    cases L with
    | nil => exact this
    | cons b L => exact this.1
  refine ⟨?_, (nodup_cons.mp h.nodup).2, hpos, ?_⟩
  · refine h.visits.2.rehead ?_ ?_
    · intro o ho
      exact hh.trans ho
    · intro i _ o ho
      exact (congrFun hn i).trans ho
  · rw [ht, hnext, h.tail]
    cases L with
    | nil => simp
    | cons b L =>
      have hb : b ≠ 0 := by
        rintro rfl
        exact hpos mem_cons_self
      simp [hb]

/-! ### `LINK_PRI_MSG` -/

def prio (c : GblChan) (a : Nat) : Nat := (c.msg a).priority

theorem walk_spec {p : Option Nat} {m n fuel : Nat} {r : List Nat}
    (h : Visits (fun p o => c.get p = o.getD 0) p (m :: r)) (hord : Ordered c.prio (m :: r))
    (hlast : ∃ b ∈ r, c.prio b < n) (hm : n ≤ c.prio m) (hf : r.length < fuel) :
    ∃ l m' r', m :: r = l ++ m' :: r' ∧ c.walk n fuel m = some m' ∧
      (∀ b ∈ l ++ [m'], n ≤ c.prio b) ∧ (∀ b ∈ r', c.prio b < n) ∧ r' ≠ [] := by
  induction r generalizing p m fuel with
  | nil =>
    obtain ⟨b, hb, -⟩ := hlast
    cases hb
  | cons x r ih =>
    obtain ⟨fuel, rfl⟩ : ∃ k, fuel = k + 1 := ⟨fuel - 1, by omega⟩
    have hnext : c.next m = x := h.2.1
    obtain ⟨hmx, hordr⟩ := pairwise_cons.mp hord
    rw [walk, hnext]
    by_cases hx : (c.msg x).priority ≥ n
    · rw [if_pos hx]
      have hlast' : ∃ b ∈ r, c.prio b < n := by
        obtain ⟨b, hb, hbn⟩ := hlast
        obtain rfl | hb := mem_cons.mp hb
        · unfold prio at hbn
          omega
        · exact ⟨b, hb, hbn⟩
      obtain ⟨l, m', r', heq, hw, hl, hr, hne⟩ := ih h.2 hordr hlast' hx (Nat.lt_of_succ_lt_succ hf)
      refine ⟨m :: l, m', r', by rw [heq]; rfl, hw, ?_, hr, hne⟩
      exact forall_mem_cons.mpr ⟨hm, hl⟩
    rw [if_neg hx]
    refine ⟨[], m, x :: r, rfl, rfl, ?_, ?_, by simp⟩
    · intro b hb
      obtain rfl := mem_singleton.mp hb
      exact hm
    · intro b hb
      obtain rfl | hb := mem_cons.mp hb
      · unfold prio
        omega
      have := (pairwise_cons.mp hordr).1 b hb
      unfold prio at this ⊢
      omega

theorem linkPriMsg_spec (h : Links c L) (hord : Ordered c.prio L) (hn : c.numCurrMsg = L.length)
    (hg : g ≠ 0) (hgL : g ∉ L) :
    ∃ head tail next, c.linkPriMsg g = some { c with head := head, tail := tail, next := next } ∧
      Links { c with head := head, tail := tail, next := next } (insertGE c.prio g L) := by
  unfold linkPriMsg
  cases L with
  | nil =>
    have hhead : c.head = 0 := h.visits
    rw [if_pos hhead]
    refine ⟨_, _, _, rfl, ?_⟩
    exact h.insertFirst hg hgL rfl (by rw [hhead]) rfl
  | cons a L =>
    have hhead : c.head = a := h.visits.1
    have ha0 : a ≠ 0 := by
      rintro rfl
      exact h.pos mem_cons_self
    rw [if_neg (by rw [hhead]; exact ha0)]
    -- The list as its last entry and what comes before it.
    obtain ⟨l, t, hlt⟩ : ∃ l t, a :: L = l ++ [t] :=
      ⟨_, _, (dropLast_append_getLast (cons_ne_nil a L)).symm⟩
    have htail : c.tail = t := by
      rw [h.tail, hlt]
      simp
    by_cases hback : (c.msg g).priority ≤ (c.msg c.tail).priority
    · rw [if_pos hback, hlt, ← append_nil (l ++ [t]), insertGE_append]
      · rw [hlt] at h hgL
        refine ⟨_, _, _, rfl, ?_⟩
        have hnext : c.next t = 0 := by
          have hv := h.visits
          rw [visits_append] at hv
          exact hv.2.2
        rw [append_assoc]
        exact h.insertAfter hg hgL rfl (by rw [htail, hnext]) rfl
      · intro b hb
        obtain hb | hb := mem_append.mp hb
        · have hbt : c.prio t ≤ c.prio b := by
            rw [hlt] at hord
            exact (pairwise_append.mp hord).2.2 b hb t (by simp)
          rw [htail] at hback
          unfold prio at hbt ⊢
          omega
        obtain rfl := mem_singleton.mp hb
        rw [htail] at hback
        exact hback
      · simp
    · rw [if_neg hback]
      by_cases hfront : (c.msg g).priority > (c.msg c.head).priority
      · rw [if_pos hfront, insertGE_head]
        · refine ⟨_, _, _, rfl, ?_⟩
          exact h.insertFirst hg hgL rfl rfl (by simp)
        · intro b hb
          rw [hhead] at hfront
          obtain rfl | hb := mem_cons.mp hb
          · exact hfront
          have := hord.head_le hb
          unfold prio at this ⊢
          omega
      rw [if_neg hfront]
      have hm : (c.msg g).priority ≤ c.prio a := by
        rw [hhead] at hfront
        unfold prio
        omega
      have hlast : ∃ b ∈ L, c.prio b < (c.msg g).priority := by
        refine ⟨t, ?_, by rw [htail] at hback; unfold prio; omega⟩
        have ht : t ∈ a :: L := by rw [hlt]; simp
        obtain rfl | ht := mem_cons.mp ht
        · rw [htail] at hback
          exact absurd hm hback
        · exact ht
      have hfuel : L.length < c.numCurrMsg := by simp [hn]
      obtain ⟨l', m, r, heq, hw, hge, hltr, hr⟩ := walk_spec h.visits hord hlast hm hfuel
      rw [hhead, hw, heq, show l' ++ m :: r = (l' ++ [m]) ++ r by simp, insertGE_append hge hltr]
      rw [heq] at h hgL
      refine ⟨_, _, _, rfl, ?_⟩
      rw [append_assoc]
      exact h.insertAfter hg hgL hhead.symm rfl (by rw [if_neg hr])

end GblChan

end Qnx.Ker
