import Mathlib.Data.List.Basic
import Qnx.Mqueue.Mqueue

/-!
# The counters of a message queue

The counters mirror the lists as long as clients are not taken off the lists by an unblock or a
close, which leave `mq_recvwait` and `mq_sendwait` as they are; as `MQ_SEMAPHORE` is changed on an
idle device only; as close messages find room; and as the requests that are resumed can be finished.
-/

namespace Qnx.Mqueue

open Run List

variable {d s : MqDev} {m : MqDev.Delivery} {r : ReadReq} {w : WriteReq}

/-! ### Lists -/

@[simp] theorem length_linkPriClient {ρ : Type} (w : Wait ρ) (l : List (Wait ρ)) :
    (linkPriClient w l).length = l.length + 1 := by
  induction l with
  | nil => rfl
  | cons m l ih =>
    unfold linkPriClient
    split
    · rw [length_cons, ih, length_cons]
    · rfl

theorem mem_linkPriClient {ρ : Type} {w v : Wait ρ} {l : List (Wait ρ)} :
    v ∈ linkPriClient w l ↔ v = w ∨ v ∈ l := by
  induction l with
  | nil => exact mem_singleton.trans (by simp)
  | cons m l ih =>
    unfold linkPriClient
    split
    · rw [mem_cons, ih, mem_cons]
      exact or_left_comm
    · exact mem_cons

theorem length_linkAfter (msg : Msg) (l : List Msg) : (linkAfter msg l).length = l.length + 1 := by
  induction l with
  | nil => rfl
  | cons m l ih =>
    unfold linkAfter
    split
    · rw [length_cons, ih, length_cons]
    · rfl

@[simp] theorem length_linkPriMsg (l : List Msg) (msg : Msg) :
    (linkPriMsg l msg).length = l.length + 1 := by
  unfold linkPriMsg
  split
  · rfl
  split
  · rfl
  split
  · simp
  · rw [length_cons, length_linkAfter, length_cons]

/-! ### The invariant -/

/-- Requests that the handlers do not refuse for what they say. -/
def ReadReq.Fits (r : ReadReq) (msgsize : Nat) : Prop := r.xtype ≠ .other ∧ msgsize ≤ r.nbytes

def WriteReq.Fits (w : WriteReq) (msgsize : Nat) : Prop :=
  w.xtype ≠ .other ∧ (∀ p, w.xtype = .mqueue p → p < mqPrioMax) ∧ w.data.length ≤ msgsize

structure Counts (d : MqDev) : Prop where
  pos : 0 < d.maxmsg
  queue : d.semaphore = false → d.curmsgs = d.msgs.length
  sem : d.semaphore = true → d.msgs = []
  bound : d.curmsgs ≤ d.maxmsg
  recvwait : d.recvwait = d.readers.length
  sendwait : d.sendwait = d.writers.length
  readers : ∀ v ∈ d.readers, v.req.Fits d.msgsize
  writers : ∀ v ∈ d.writers, v.req.Fits d.msgsize

structure Book (d : MqDev) : Prop extends Counts d where
  empty : d.readers ≠ [] → d.curmsgs = 0
  full : d.writers ≠ [] → d.curmsgs = d.maxmsg

structure Surplus (d : MqDev) : Prop extends Counts d where
  one : d.curmsgs = 1
  quiet : d.writers = []

/-- A writer was taken off the list for the one place there is. -/
structure Gap (d : MqDev) : Prop extends Counts d where
  room : d.curmsgs + 1 = d.maxmsg
  quiet : d.readers = []

theorem Counts.replies (h : Counts d) (rs : List (Nat × Reply)) : Counts { d with replies := rs } :=
  ⟨h.pos, h.queue, h.sem, h.bound, h.recvwait, h.sendwait, h.readers, h.writers⟩

theorem Book.replies (h : Book d) (rs : List (Nat × Reply)) : Book { d with replies := rs } :=
  ⟨h.toCounts.replies rs, h.empty, h.full⟩

theorem confirm_eq (d : MqDev) (m : MqDev.Delivery) :
    ∃ rs, d.confirm m = { d with replies := rs } := by
  unfold MqDev.confirm
  split
  · exact ⟨_, rfl⟩
  · exact ⟨_, rfl⟩

theorem Book.refuse (h : Book d) (m : MqDev.Delivery) (e : Errno) : Book (d.refuse m e) := by
  unfold MqDev.refuse
  split
  · exact h.replies _
  · exact h

/-! ### A message comes -/

def Stored (d : MqDev) (msgMem received msgRead : Bool) : Prop :=
  d.semaphore = false → msgMem = true ∧ (received = true ∨ msgRead = true)

theorem Counts.add (h : Counts d) (hroom : d.curmsgs < d.maxmsg) (msg : Msg)
    (rs : List (Nat × Reply)) :
    Counts { d with
      msgs := if d.semaphore then d.msgs else linkPriMsg d.msgs msg
      curmsgs := d.curmsgs + 1
      replies := rs } := by
  refine ⟨h.pos, fun hs => ?_, fun hs => ?_, hroom, h.recvwait, h.sendwait, h.readers, h.writers⟩
  · rw [hs, if_neg Bool.false_ne_true, length_linkPriMsg, h.queue hs]
  · rw [hs, if_pos rfl, h.sem hs]

section Deliver

variable {again : MqDev → ReadReq → Option MqDev}

theorem deliver_cases (again : MqDev → ReadReq → Option MqDev) (d : MqDev) (m : MqDev.Delivery) :
    (∃ w rest rs, d.readers = w :: rest ∧ d.semaphore = false ∧ m.received = true ∧
      d.deliver again m = some { d with readers := rest, recvwait := d.recvwait - 1, replies := rs }) ∨
    (∃ e, ¬Stored d m.msgMem m.received m.msgRead ∧ d.deliver again m = some (d.refuse m e)) ∨
    ((m.received = true → d.semaphore = false → d.readers = []) ∧ ∃ rs,
      d.deliver again m = MqDev.announce again { d with
        msgs := if d.semaphore then d.msgs else linkPriMsg d.msgs ⟨m.priority, m.data⟩
        replies := rs }) := by
  unfold MqDev.deliver
  split
  · rename_i hs
    obtain ⟨rs, hrs⟩ := confirm_eq d m
    refine .inr (.inr ⟨fun _ hf => absurd hs (by simp [hf]), rs, ?_⟩)
    rw [hrs]
  rename_i hs
  split
  · rename_i w rest hr hrec
    obtain ⟨rs, hrs⟩ := confirm_eq ({ d with readers := rest, recvwait := d.recvwait - 1 }.reply
      w.req.client (.data m.priority m.data)) m
    exact .inl ⟨w, rest, rs, hr, by simpa using hs, hrec, congrArg some hrs⟩
  rename_i hno
  split
  · rename_i hmem
    exact .inr (.inl ⟨_, fun hst => hmem (hst (by simpa using hs)).1, rfl⟩)
  split
  · rename_i hread
    exact .inr (.inl ⟨_, fun hst => (hst (by simpa using hs)).2.elim hread.1 hread.2, rfl⟩)
  obtain ⟨rs, hrs⟩ := confirm_eq { d with msgs := linkPriMsg d.msgs ⟨m.priority, m.data⟩ } m
  refine .inr (.inr ⟨fun hrec _ => ?_, rs, ?_⟩)
  · cases hr : d.readers with
    | nil => rfl
    | cons w rest => exact absurd hrec (hno w rest hr)
  · dsimp only
    rw [hrs]

theorem deliver_idle (h : Counts d) (hr : d.readers = []) (hroom : d.curmsgs < d.maxmsg)
    (hfull : d.writers ≠ [] → d.curmsgs + 1 = d.maxmsg ∧ Stored d m.msgMem m.received m.msgRead) :
    ∃ s, d.deliver again m = some s ∧ Book s := by
  obtain ⟨w, rest, rs, hw, -⟩ | ⟨e, hno, he⟩ | ⟨-, rs, he⟩ := deliver_cases again d m
  · rw [hr] at hw
    cases hw
  · refine ⟨_, he, Book.refuse ⟨h, absurd hr, fun hc => ?_⟩ m e⟩
    exact absurd (hfull hc).2 hno
  refine ⟨_, ?_, h.add hroom ⟨m.priority, m.data⟩ rs, absurd hr, fun hc => (hfull hc).1⟩
  rw [he]
  unfold MqDev.announce
  rw [hr]

theorem deliver_book (h : Book d) (hroom : d.curmsgs < d.maxmsg)
    (hagain : ∀ w ∈ d.readers.head?, (m.received = true → d.semaphore = true) →
      ∀ s', Surplus s' → s'.msgsize = d.msgsize → ∃ s, again s' w.req = some s ∧ Book s) :
    ∃ s, d.deliver again m = some s ∧ Book s := by
  have hw : d.writers = [] := by
    by_contra hc
    have := h.full hc
    omega
  cases hr : d.readers with
  | nil => exact deliver_idle h.toCounts hr hroom fun hc => absurd hw hc
  | cons w rest =>
    have h0 := h.empty (by rw [hr]; exact cons_ne_nil _ _)
    have hrest : ∀ v ∈ rest, v.req.Fits d.msgsize :=
      fun v hv => h.readers v (by rw [hr]; exact mem_cons_of_mem _ hv)
    have hlen : d.recvwait - 1 = rest.length := by
      rw [h.recvwait, hr, length_cons, Nat.add_sub_cancel]
    obtain ⟨w', rest', rs, hw', -, -, he⟩ | ⟨e, -, he⟩ | ⟨hslow, rs, he⟩ := deliver_cases again d m
    · rw [hr] at hw'
      cases hw'
      exact ⟨_, he, ⟨h.pos, h.queue, h.sem, h.bound, hlen, h.sendwait, hrest, h.writers⟩,
        fun _ => h0, h.full⟩
    · exact ⟨_, he, h.refuse m e⟩
    rw [he]
    rw [hr]
    have hadd := h.toCounts.add hroom ⟨m.priority, m.data⟩ rs
    refine hagain w (by rw [hr]; rfl) (fun hrec => ?_) _ ⟨⟨hadd.pos, hadd.queue, hadd.sem, hadd.bound,
      hlen, hadd.sendwait, hrest, hadd.writers⟩, by dsimp only; omega, hw⟩ rfl
    cases hs : d.semaphore with
    | true => rfl
    | false =>
      have := hslow hrec hs
      rw [hr] at this
      cases this

end Deliver

/-! ### A message goes -/

section Retire

variable {again : MqDev → WriteReq → Option MqDev}

theorem Counts.drop (h : Counts d) {rest : List Msg}
    (hm : d.semaphore = false → d.msgs.length = rest.length + 1)
    (hs : d.semaphore = true → rest = []) (rs : List (Nat × Reply)) :
    Counts { d with msgs := rest, curmsgs := d.curmsgs - 1, replies := rs } := by
  refine ⟨h.pos, fun hq => ?_, hs, Nat.le_trans (Nat.sub_le _ _) h.bound, h.recvwait, h.sendwait,
    h.readers, h.writers⟩
  rw [h.queue hq, hm hq, Nat.add_sub_cancel]

theorem readWith_message (again : MqDev → WriteReq → Option MqDev) (h : Counts d)
    (hr : r.Fits d.msgsize) (h0 : d.curmsgs ≠ 0) :
    (r.replied = false ∧ ∃ rs, d.readWith again r = some { d with replies := rs }) ∨
    ∃ rest rs, (d.semaphore = false → d.msgs.length = rest.length + 1) ∧
      (d.semaphore = true → rest = []) ∧
      d.readWith again r = MqDev.retire again { d with msgs := rest, replies := rs } := by
  unfold MqDev.readWith
  rw [if_neg hr.1, if_neg (Nat.not_lt.mpr hr.2), if_neg h0]
  split
  · rename_i hs
    split
    · rename_i hrep
      exact .inl ⟨by simpa using hrep, _, rfl⟩
    · exact .inr ⟨d.msgs, _, fun hf => absurd hs (by simp [hf]), h.sem, rfl⟩
  rename_i hs
  split
  · rename_i hm
    have := h.queue (by simpa using hs)
    rw [hm] at this
    exact absurd this h0
  rename_i m rest hm
  split
  · rename_i hrep
    exact .inl ⟨by simpa using hrep, _, rfl⟩
  · exact .inr ⟨rest, _, fun _ => by rw [hm, length_cons], fun hf => absurd hf hs, rfl⟩

theorem readWith_surplus (h : Surplus d) (hr : r.Fits d.msgsize) (hrep : r.replied = true) :
    ∃ s, d.readWith again r = some s ∧ Book s := by
  have h1 := h.one
  obtain ⟨hf, -⟩ | ⟨rest, rs, hm, hs, he⟩ := readWith_message again h.toCounts hr (by omega)
  · rw [hrep] at hf
    cases hf
  refine ⟨_, ?_, h.toCounts.drop hm hs rs, fun _ => by dsimp only; omega, absurd h.quiet⟩
  rw [he]
  unfold MqDev.retire
  rw [h.quiet]

theorem readWith_book (h : Book d)
    (hagain : ∀ v ∈ d.writers.head?, ∀ s', Gap s' → s'.msgsize = d.msgsize →
      s'.semaphore = d.semaphore → ∃ s, again s' v.req = some s ∧ Book s) :
    ∃ s, d.readWith again r = some s ∧ Book s := by
  by_cases hfit : r.Fits d.msgsize
  · by_cases h0 : d.curmsgs = 0
    · unfold MqDev.readWith
      rw [if_neg hfit.1, if_neg (Nat.not_lt.mpr hfit.2), if_pos h0]
      split
      · exact ⟨_, rfl, h.replies _⟩
      split
      · exact ⟨_, rfl, h.replies _⟩
      refine ⟨_, rfl, ⟨h.pos, h.queue, h.sem, h.bound, ?_, h.sendwait, fun v hv => ?_, h.writers⟩,
        fun _ => h0, h.full⟩
      · rw [length_linkPriClient, h.recvwait]
      · rcases mem_linkPriClient.mp hv with rfl | hv
        · exact hfit
        · exact h.readers v hv
    have hno : d.readers = [] := by
      by_contra hc
      exact h0 (h.empty hc)
    obtain ⟨-, rs, he⟩ | ⟨rest, rs, hm, hs, he⟩ := readWith_message again h.toCounts hfit h0
    · exact ⟨_, he, h.replies rs⟩
    have hdrop := h.toCounts.drop hm hs rs
    rw [he]
    cases hw : d.writers with
    | nil =>
      rw [hw] at hdrop
      exact ⟨_, rfl, hdrop, absurd hno, absurd rfl⟩
    | cons v vs =>
      have hmax := h.full (by rw [hw]; exact cons_ne_nil _ _)
      refine hagain v (by rw [hw]; rfl) _ ⟨⟨hdrop.pos, hdrop.queue, hdrop.sem, hdrop.bound,
        hdrop.recvwait, ?_, hdrop.readers, fun u hu => ?_⟩, by dsimp only; omega, hno⟩ rfl rfl
      · rw [h.sendwait, hw, length_cons, Nat.add_sub_cancel]
      · exact h.writers u (by rw [hw]; exact mem_cons_of_mem _ hu)
  · -- the request is refused for what it says
    unfold MqDev.readWith
    split
    · exact ⟨_, rfl, h.replies _⟩
    split
    · exact ⟨_, rfl, h.replies _⟩
    · rename_i h1 h2
      exact absurd ⟨h1, Nat.not_lt.mp h2⟩ hfit

end Retire

/-! ### Write requests -/

section Write

variable {again : MqDev → ReadReq → Option MqDev}

theorem writeWith_fits (again : MqDev → ReadReq → Option MqDev) (d : MqDev)
    (hw : w.Fits d.msgsize) : ∃ p, d.writeWith again w =
      if d.maxmsg ≤ d.curmsgs then
        if w.nonblock then d.fail w.client .eagain
        else if ¬w.waitMem then d.fail w.client .enospc
        else some { d with
          writers := linkPriClient ⟨w.client.priority, w⟩ d.writers
          sendwait := d.sendwait + 1 }
      else d.deliver again ⟨some w.client, p, w.data, w.received, w.msgMem, w.msgRead⟩ := by
  obtain ⟨hx, hp, hd⟩ := hw
  unfold MqDev.writeWith
  dsimp only
  split
  · exact ⟨0, if_neg (Nat.not_lt.mpr hd)⟩
  · rename_i p hxt
    exact ⟨p, (if_neg (Nat.not_le.mpr (hp p hxt))).trans (if_neg (Nat.not_lt.mpr hd))⟩
  · rename_i hxt
    exact absurd hxt hx

theorem writeWith_refused (again : MqDev → ReadReq → Option MqDev) (d : MqDev)
    (hw : ¬w.Fits d.msgsize) : ∃ e, d.writeWith again w = d.fail w.client e := by
  unfold MqDev.writeWith
  dsimp only
  by_cases hd : d.msgsize < w.data.length
  · rw [if_pos hd]
    split
    · exact ⟨_, rfl⟩
    · split
      · exact ⟨_, rfl⟩
      · exact ⟨_, rfl⟩
    · exact ⟨_, rfl⟩
  split
  · rename_i hx
    exact absurd ⟨by rw [hx]; nofun, by rw [hx]; nofun, Nat.not_lt.mp hd⟩ hw
  · rename_i p hx
    split
    · exact ⟨_, rfl⟩
    rename_i hp
    refine absurd ⟨by rw [hx]; nofun, fun q hq => ?_, Nat.not_lt.mp hd⟩ hw
    rw [hx] at hq
    cases hq
    exact Nat.not_le.mp hp
  · exact ⟨_, rfl⟩

theorem writeWith_gap (h : Gap d) (hw : w.Fits d.msgsize)
    (hst : Stored d w.msgMem w.received w.msgRead) :
    ∃ s, d.writeWith again w = some s ∧ Book s := by
  obtain ⟨p, he⟩ := writeWith_fits again d hw
  have hroom := h.room
  rw [he, if_neg (by omega)]
  exact deliver_idle h.toCounts h.quiet (by omega) fun _ => ⟨hroom, hst⟩

theorem writeWith_book (h : Book d)
    (hagain : ∀ v ∈ d.readers.head?, (w.received = true → d.semaphore = true) →
      ∀ s', Surplus s' → s'.msgsize = d.msgsize → ∃ s, again s' v.req = some s ∧ Book s) :
    ∃ s, d.writeWith again w = some s ∧ Book s := by
  by_cases hfit : w.Fits d.msgsize
  · obtain ⟨p, he⟩ := writeWith_fits again d hfit
    rw [he]
    split
    · rename_i hfull
      have hmax := Nat.le_antisymm h.bound hfull
      split
      · exact ⟨_, rfl, h.replies _⟩
      split
      · exact ⟨_, rfl, h.replies _⟩
      refine ⟨_, rfl, ⟨h.pos, h.queue, h.sem, h.bound, h.recvwait, ?_, h.readers, fun v hv => ?_⟩,
        h.empty, fun _ => hmax⟩
      · rw [length_linkPriClient, h.sendwait]
      · rcases mem_linkPriClient.mp hv with rfl | hv
        · exact hfit
        · exact h.writers v hv
    · rename_i hroom
      exact deliver_book h (Nat.not_le.mp hroom) hagain
  · obtain ⟨e, he⟩ := writeWith_refused again d hfit
    exact ⟨_, he, h.replies _⟩

end Write

/-! ### The conditions -/

def ReaderReady (d : MqDev) : Prop := ∀ v ∈ d.readers.head?, v.req.replied = true

def WriterReady (d : MqDev) : Prop :=
  ∀ v ∈ d.writers.head?, Stored d v.req.msgMem v.req.received v.req.msgRead

theorem resume_reader (h : Book d) (hr : ReaderReady d) {fuel : Nat} :
    ∀ v ∈ d.readers.head?, ∀ s', Surplus s' → s'.msgsize = d.msgsize →
      ∃ s, MqDev.handle (fuel + 1) s' (.inl v.req) = some s ∧ Book s := by
  intro v hv s' hs hm
  have hfit : v.req.Fits s'.msgsize := hm ▸ h.readers v (mem_of_mem_head? hv)
  exact readWith_surplus hs hfit (hr v hv)

theorem resume_writer (h : Book d) (hw : WriterReady d) {fuel : Nat} :
    ∀ v ∈ d.writers.head?, ∀ s', Gap s' → s'.msgsize = d.msgsize → s'.semaphore = d.semaphore →
      ∃ s, MqDev.handle (fuel + 1) s' (.inr v.req) = some s ∧ Book s := by
  intro v hv s' hs hm hsem
  have hfit : v.req.Fits s'.msgsize := hm ▸ h.writers v (mem_of_mem_head? hv)
  exact writeWith_gap hs hfit fun hq => hw v hv (hsem ▸ hq)

theorem ioRead_book (h : Book d) (hw : WriterReady d) (r : ReadReq) :
    ∃ s, d.ioRead r = some s ∧ Book s := by
  refine readWith_book h fun v hv => ?_
  cases hws : d.writers with
  | nil =>
    rw [hws] at hv
    cases hv
  | cons u us =>
    exact resume_writer h hw v hv

theorem ioWrite_book (h : Book d) (w : WriteReq)
    (hr : (w.received = true → d.semaphore = true) → ReaderReady d) :
    ∃ s, d.ioWrite w = some s ∧ Book s := by
  refine writeWith_book h fun v hv hslow => ?_
  cases hrs : d.readers with
  | nil =>
    rw [hrs] at hv
    cases hv
  | cons u us =>
    rw [length_cons, Nat.add_right_comm]
    exact resume_reader h (hr hslow) v hv

theorem unblockAll_eq {scoid coid : Nat}
    (hr : ∀ v ∈ d.readers, MqDev.ofConnection scoid coid v.req.client = false)
    (hw : ∀ v ∈ d.writers, MqDev.ofConnection scoid coid v.req.client = false) :
    ∃ rs, d.unblockAll scoid coid = { d with replies := rs } := by
  have hrs : (d.readers.filter fun v => ! MqDev.ofConnection scoid coid v.req.client) = d.readers :=
    filter_eq_self.mpr fun v hv => by rw [hr v hv]; rfl
  have hws : (d.writers.filter fun v => ! MqDev.ofConnection scoid coid v.req.client) = d.writers :=
    filter_eq_self.mpr fun v hv => by rw [hw v hv]; rfl
  refine ⟨(d.unblockAll scoid coid).replies, ?_⟩
  unfold MqDev.unblockAll
  rw [hrs, hws]

namespace MqDev

def NoneOf (d : MqDev) (scoid coid : Nat) : Prop :=
  (∀ v ∈ d.readers, ofConnection scoid coid v.req.client = false) ∧
    ∀ v ∈ d.writers, ofConnection scoid coid v.req.client = false

def Regular (d : MqDev) : MqOp → Prop
  | .read _ => WriterReady d
  | .write w => (w.received = true → d.semaphore = true) → ReaderReady d
  | .unblock c pending => pending = true →
      (∀ v ∈ d.readers, v.req.client.rcvid ≠ c.rcvid) ∧ ∀ v ∈ d.writers, v.req.client.rcvid ≠ c.rcvid
  | .closedup scoid coid => d.NoneOf scoid coid
  | .closeocb scoid coid closemsg _ => d.NoneOf scoid coid ∧
      (closemsg ≠ none → d.curmsgs < d.maxmsg ∧ (d.semaphore = true → ReaderReady d))
  | .getattr => True
  | .setattr semaphore => semaphore ≠ d.semaphore → d.curmsgs = 0

end MqDev

theorem closeocb_book (h : Book d) {scoid coid : Nat} (closemsg : Option (List Nat)) (msgMem : Bool)
    (hok : d.Regular (.closeocb scoid coid closemsg msgMem)) :
    ∃ s, d.ioCloseocb scoid coid closemsg msgMem = some s ∧ Book s := by
  obtain ⟨⟨hr, hw⟩, hmsg⟩ := hok
  obtain ⟨rs, he⟩ := unblockAll_eq hr hw
  unfold MqDev.ioCloseocb
  rw [he]
  cases closemsg with
  | none => exact ⟨_, rfl, h.replies rs⟩
  | some data =>
    obtain ⟨hroom, hready⟩ := hmsg nofun
    refine deliver_book (h.replies rs) hroom fun v hv hslow s' hs hm => ?_
    exact resume_reader h (hready (hslow rfl)) v hv s' hs hm

theorem unblock_book (h : Book d) {c : Client} {pending : Bool}
    (hok : d.Regular (.unblock c pending)) : Book (d.ioUnblock c pending) := by
  unfold MqDev.ioUnblock
  split
  · exact h
  rename_i hp
  obtain ⟨hr, hw⟩ := hok (by simpa using hp)
  have hr' : d.readers.any (·.req.client.rcvid = c.rcvid) = false := by
    simpa using hr
  have hw' : d.writers.any (·.req.client.rcvid = c.rcvid) = false := by
    simpa using hw
  rw [hr', hw']
  exact h

theorem setattr_book (h : Book d) {b : Bool} (hok : d.Regular (.setattr b)) :
    Book { d with semaphore := b } := by
  by_cases hb : b = d.semaphore
  · subst hb
    exact h
  -- an idle device has no messages, whatever it is
  have h0 := hok hb
  have hm : d.msgs = [] := by
    cases hs : d.semaphore with
    | true => exact h.sem hs
    | false => exact length_eq_zero_iff.mp ((h.queue hs).symm.trans h0)
  exact ⟨⟨h.pos, fun _ => by rw [hm, h0]; rfl, fun _ => hm, h.bound, h.recvwait,
    h.sendwait, h.readers, h.writers⟩, h.empty, h.full⟩

theorem book_step {o : MqOp} (h : Book d) (hok : d.Regular o) :
    ∃ s, d.step o = some s ∧ Book s := by
  cases o with
  | read r => exact ioRead_book h hok r
  | write w => exact ioWrite_book h w hok
  | unblock c pending => exact ⟨_, rfl, unblock_book h hok⟩
  | closedup scoid coid =>
    obtain ⟨rs, he⟩ := unblockAll_eq hok.1 hok.2
    exact ⟨_, rfl, he ▸ h.replies rs⟩
  | closeocb scoid coid closemsg msgMem => exact closeocb_book h closemsg msgMem hok
  | getattr => exact ⟨_, rfl, h⟩
  | setattr b => exact ⟨_, rfl, setattr_book h hok⟩

theorem book_start (h : d.Start) : Book d := by
  obtain ⟨hpos, hsw, hrw, hm, hr, hw, -, hb, hq⟩ := h
  refine ⟨⟨hpos, fun hs => ?_, fun _ => hm, hb, ?_, ?_, ?_, ?_⟩, absurd hr, absurd hw⟩
  · rw [hq hs, hm]
    rfl
  · rw [hrw, hr]
    rfl
  · rw [hsw, hw]
    rfl
  · rw [hr]
    nofun
  · rw [hw]
    nofun

/-- The counters mirror the lists, in bounds; clients wait only for messages that are not there or
room that is not there; and no request makes `io_read` follow an empty list. -/
theorem mq_counts (h : Reach MqDev.Start MqDev.Regular MqDev.step s) :
    (s.semaphore = false → s.curmsgs = s.msgs.length) ∧ s.curmsgs ≤ s.maxmsg ∧
    s.recvwait = s.readers.length ∧ s.sendwait = s.writers.length ∧
    (s.readers ≠ [] → s.curmsgs = 0) ∧ (s.writers ≠ [] → s.curmsgs = s.maxmsg) ∧
    ∀ o, s.Regular o → s.step o ≠ none := by
  have hb : Book s := h.invariant_of_total (fun d hd => book_start hd) fun d o => book_step
  refine ⟨hb.queue, hb.bound, hb.recvwait, hb.sendwait, hb.empty, hb.full, fun o hok => ?_⟩
  obtain ⟨e, he, -⟩ := book_step hb hok
  rw [he]
  nofun

/-! ### A queue with room for one message -/

def newQueue : MqDev := ⟨1, 4, 0, 0, 0, false, [], [], [], []⟩

theorem newQueue_start : newQueue.Start :=
  ⟨by decide, rfl, rfl, rfl, rfl, rfl, rfl, by decide, fun _ => rfl⟩

def readReq (rcvid : Nat) : ReadReq := ⟨⟨rcvid, rcvid, 1, 10⟩, .none, 4, false, true, true⟩

def writeReq (rcvid : Nat) (received : Bool) : WriteReq :=
  ⟨⟨rcvid, rcvid, 1, 10⟩, .none, [7], false, received, true, true, true⟩

instance (d : MqDev) (o : MqOp) : Decidable (d.Regular o) :=
  match o with
  | .read _ => inferInstanceAs (Decidable (∀ v ∈ _, _ → _ ∧ (_ ∨ _)))
  | .write _ => inferInstanceAs (Decidable ((_ → _) → ∀ v ∈ _, _))
  | .unblock _ _ => inferInstanceAs (Decidable (_ → (∀ v ∈ _, _) ∧ ∀ v ∈ _, _))
  | .closedup _ _ => inferInstanceAs (Decidable ((∀ v ∈ _, _) ∧ ∀ v ∈ _, _))
  | .closeocb _ _ _ _ => inferInstanceAs
      (Decidable (((∀ v ∈ _, _) ∧ ∀ v ∈ _, _) ∧ (_ → _ ∧ (_ → ∀ v ∈ _, _))))
  | .getattr => inferInstanceAs (Decidable True)
  | .setattr _ => inferInstanceAs (Decidable (_ → _))

theorem mq_counts_resumed : ∃ s, Reach MqDev.Start MqDev.Regular MqDev.step s ∧
    s.writers.length = 1 ∧ s.sendwait = 1 ∧ s.curmsgs = 1 ∧ s.msgs.length = 1 := by
  refine exists_reach newQueue_start
    [.read (readReq 1), .write (writeReq 2 false), .write (writeReq 3 true),
      .write (writeReq 4 true)]
    (by decide +kernel) fun s hr
      (hq : s.writers.length = 1 ∧ s.semaphore = false ∧ s.maxmsg = 1) => ?_
  obtain ⟨hw, hs, hmax⟩ := hq
  obtain ⟨hmsgs, -, -, hsend, -, hfull, -⟩ := mq_counts hr
  have hne : s.writers ≠ [] := fun hc => by
    rw [hc] at hw
    cases hw
  have hcur : s.curmsgs = 1 := (hfull hne).trans hmax
  exact ⟨hw, hsend.trans hw, hcur, (hmsgs hs).symm.trans hcur⟩

/-- A reader that is unblocked stays counted; and a queue that was a semaphore for one message has
none to read. -/
theorem mq_miscounted :
    (∃ s, Reach MqDev.Start (fun _ _ => True) MqDev.step s ∧ s.readers = [] ∧ s.recvwait = 1) ∧
    ∃ s, Reach MqDev.Start (fun _ _ => True) MqDev.step s ∧ s.semaphore = false ∧ s.msgs = [] ∧
      s.curmsgs = 1 ∧ s.step (.read (readReq 1)) = none := by
  constructor
  · exact exists_reach newQueue_start [.read (readReq 1), .unblock ⟨1, 1, 1, 10⟩ true]
      (by decide +kernel) fun _ _ hq => hq
  · exact exists_reach newQueue_start [.setattr true, .write (writeReq 2 true), .setattr false]
      (by decide +kernel) fun _ _ hq => hq

end Qnx.Mqueue
