import Mathlib.Algebra.Group.Int.Defs
import Mathlib.Data.List.Perm.Subperm
import Qnx.Shared.Run

/-!
# Notification lists

`iofunc_notify`, `iofunc_notify_trigger_strict` and `iofunc_notify_remove_strict` on the lists of
one device, one for each condition. An entry is looked up by the `rcvid` of its client, which the
descriptors of a thread share, and removed by `scoid` and `coid`. Armings are numbered for each
list, and `delivered` is what `MsgDeliverEvent` was called with, by number.
-/

namespace Qnx.Iofunc.Notify

open Run List Function Prod Bool

/-- A `sigevent`; `SIGEV_NONE` is 0. -/
structure Event where
  notify : Int
  code : BitVec 16
  value : BitVec 32
  deriving DecidableEq, Repr

/-- The thread that sent the message, whether from another node, and its descriptor. -/
structure Ctx where
  tid : Nat
  net : Bool
  scoid : Nat
  coid : Int
  deriving DecidableEq, Repr

def Ctx.rcvid (ctp : Ctx) : Int :=
  let id : Int := ((ctp.tid <<< 16 ||| ctp.scoid : Nat) : Int)
  if ctp.net then -id else id

/-- `iofunc_notify_event_t` -/
structure Entry where
  rcvid : Int
  scoid : Nat
  coid : Int
  flags : BitVec 32
  event : Event
  cnt : Int
  arming : Nat
  deriving DecidableEq, Repr

def Entry.Armed (e : Entry) : Prop := e.event.notify ≠ 0

instance (e : Entry) : Decidable e.Armed := inferInstanceAs (Decidable (_ ≠ _))

/-- `iofunc_notify_t` -/
structure Nop where
  cnt : Int
  list : List Entry
  next : Nat
  delivered : List (Nat × Int × Event)
  deriving DecidableEq, Repr

abbrev Lists := Nat → Nop

def intMax : Int := 2 ^ 31 - 1

def condExten : BitVec 32 := 0x80000000#32

/-- The arguments of `iofunc_notify`; `mem` is whether `malloc` succeeds for a list. -/
structure Call where
  ctp : Ctx
  action : BitVec 32
  flags : BitVec 32
  event : Event
  trig : BitVec 32
  notifycnts : Option (Nat → Int)
  armed : Option Int
  mem : Nat → Bool

inductive Errno where
  | eok | eagain | ebusy | enomem
  deriving DecidableEq, Repr

/-- What `iofunc_notify` returns, the flags of the reply and `*armed`. -/
structure Reply where
  error : Errno
  flags : BitVec 32
  armed : Bool
  deriving DecidableEq, Repr

namespace Call

def lim (k : Call) : Nat :=
  match k.armed with
  | none => 3
  | some n => if k.trig &&& condExten ≠ 0 then (min 15 n).toNat else 3

def msgflags (k : Call) : BitVec 32 := k.flags &&& ~~~condExten

def trigged (k : Call) : BitVec 32 :=
  if k.action = 0 then 0
  else
    let t := (k.trig ||| k.trig <<< 28) &&& ~~~condExten
    (t ||| t >>> 28) &&& k.msgflags

def conds (k : Call) : BitVec 32 := (k.msgflags ||| k.msgflags >>> 28) &&& 0x7fff

def arms (k : Call) : Bool := k.trigged = 0 && k.action ≠ 2

def cnt (k : Call) (i : Nat) : Int :=
  if k.action = 0 then 0 else (k.notifycnts.getD fun _ => 1) i

/-- The entry as it is filled in for list `i`, with what it had in `event`. -/
def entry (k : Call) (i next : Nat) (event : Event) : Entry where
  rcvid := k.ctp.rcvid
  scoid := k.ctp.scoid
  coid := k.ctp.coid
  flags := k.flags &&& condExten
  event := if k.arms then k.event else { event with notify := 0 }
  cnt := if k.arms then k.cnt i else intMax
  arming := next

end Call

def notifyLookup (rcvid : Int) (set : Entry → Entry) : List Entry → Option (List Entry)
  | [] => none
  | e :: l =>
    if e.rcvid = rcvid then some (set e :: l) else (notifyLookup rcvid set l).map (e :: ·)

/-- One turn of the loop; `none` is `ENOMEM`. -/
def Nop.turn (n : Nop) (k : Call) (i : Nat) : Option Nop :=
  let list := match notifyLookup k.ctp.rcvid (fun e => k.entry i n.next e.event) n.list with
    | some l => some l
    -- the event of a new entry is what `malloc` left there; only its `notify` is read
    | none => if k.mem i then some (k.entry i n.next ⟨0, 0, 0⟩ :: n.list) else none
  list.map fun l =>
    { n with list := l, cnt := if k.arms then min n.cnt (k.cnt i) else n.cnt, next := n.next + 1 }

def notifyLoop (k : Call) : Nat → Nat → BitVec 32 → Bool → Lists → Lists × Bool × Bool
  | 0, _, _, armed, s => (s, true, armed)
  | fuel + 1, i, flags, armed, s =>
    if flags = 0 then (s, true, armed)
    else if flags &&& 1 = 0 then notifyLoop k fuel (i + 1) (flags >>> 1) armed s
    else match (s i).turn k i with
      | none => (s, false, armed)
      | some n =>
        notifyLoop k fuel (i + 1) (flags >>> 1) (armed || k.arms && k.action ≠ 0) (update s i n)

/-- Another transition is armed, or the client's own and it asks for more than to disarm it. -/
def Call.busy (k : Call) (s : Lists) : Bool :=
  k.action = 0 && (s 0).list.any fun e =>
    e.event.notify ≠ 0 && (e.scoid ≠ k.ctp.scoid || k.event.notify ≠ 0)

def iofuncNotify (k : Call) (s : Lists) : Lists × Reply :=
  if k.busy s then (s, ⟨.ebusy, 0, false⟩)
  else
    let (s', mem, armed) := notifyLoop k k.lim 0 k.conds false s
    let flags := if k.trigged = 0 then 0 else k.trigged ||| k.flags &&& condExten
    if ¬mem then (s', ⟨.enomem, 0, armed⟩)
    else if k.action &&& 2 ≠ 0 ∨ k.trigged ≠ 0 ∨ k.action ≠ 1 then (s', ⟨.eok, flags, armed⟩)
    else (s', ⟨.eagain, flags, armed⟩)

/-- The entry is one of the client's descriptor; `NULL` stands for all clients. -/
def hits (ctp : Option Ctx) (e : Entry) : Bool :=
  match ctp with
  | none => true
  | some c => c.scoid = e.scoid && c.coid = e.coid

/-- The event as it is delivered; `SI_NOTIFY` is -6. -/
def Entry.marked (e : Entry) (index : Nat) : Event :=
  if 1 ≤ e.event.notify ∧ e.event.notify ≤ 4 ∧ e.event.code = -6 then
    let value := e.event.value ||| 0x10000000#32 <<< index
    if e.flags &&& condExten ≠ 0 then ⟨e.event.notify, -(1#16 <<< index), value ||| condExten⟩
    else { e.event with value := value }
  else e.event

def Entry.fires (e : Entry) (ctp : Option Ctx) (cnt : Int) : Bool :=
  e.event.notify ≠ 0 && hits ctp e && e.cnt ≤ cnt

def triggerLoop (ctp : Option Ctx) (cnt : Int) (index : Nat) :
    Int → List Entry → Int × List Entry × List (Nat × Int × Event)
  | m, [] => (m, [], [])
  | m, e :: l =>
    if e.event.notify = 0 then
      let (m', l', d) := triggerLoop ctp cnt index m l
      (m', e :: l', d)
    else if e.fires ctp cnt then
      let ev := e.marked index
      let (m', l', d) := triggerLoop ctp cnt index (min m intMax) l
      (m', { e with event := { ev with notify := 0 }, cnt := intMax } :: l',
        (e.arming, e.rcvid, ev) :: d)
    else
      let (m', l', d) := triggerLoop ctp cnt index (min m e.cnt) l
      (m', e :: l', d)

def Nop.trigger (n : Nop) (ctp : Option Ctx) (cnt : Int) (index : Nat) : Nop :=
  let (m, l, d) := triggerLoop ctp cnt index intMax n.list
  { n with cnt := m, list := l, delivered := n.delivered ++ d }

def Nop.remove (n : Nop) (ctp : Option Ctx) : Nop :=
  { n with list := n.list.filter fun e => !hits ctp e }

inductive Op where
  | notify (k : Call)
  | trigger (ctp : Option Ctx) (cnt : Int) (index : Nat)
  | remove (ctp : Option Ctx) (lim : Nat)

def step (s : Lists) : Op → Option Lists
  | .notify k => some (iofuncNotify k s).1
  | .trigger ctp cnt index => some (update s index ((s index).trigger ctp cnt index))
  | .remove ctp lim => some fun i => if i < lim then (s i).remove ctp else s i

/-- `IOFUNC_NOTIFY_INIT` -/
def Init (s : Lists) : Prop := s = fun _ => ⟨intMax, [], 0, []⟩

def Call.Selects (k : Call) (i : Nat) : Prop := i < k.lim ∧ k.conds >>> i &&& 1 ≠ 0

instance (k : Call) (i : Nat) : Decidable (k.Selects i) := inferInstanceAs (Decidable (_ ∧ _))

/-- An armed entry that the call takes for its own although it is of another descriptor. -/
def Call.Foreign (k : Call) (e : Entry) : Prop :=
  e.rcvid = k.ctp.rcvid ∧ e.Armed ∧ ¬(k.ctp.scoid = e.scoid ∧ k.ctp.coid = e.coid)

instance (k : Call) (e : Entry) : Decidable (k.Foreign e) := inferInstanceAs (Decidable (_ ∧ _))

def Own (s : Lists) : Op → Prop
  | .notify k => ∀ i ∈ range k.lim, k.Selects i → ∀ e ∈ (s i).list, ¬k.Foreign e
  | _ => True

instance (s : Lists) : ∀ o, Decidable (Own s o)
  | .notify k => inferInstanceAs (Decidable (∀ i ∈ range k.lim, _))
  | .trigger _ _ _ => inferInstanceAs (Decidable True)
  | .remove _ _ => inferInstanceAs (Decidable True)

/-- The operation may end the arming: it is asked for by its descriptor, or it is a trigger that
reaches the threshold and delivers the event. -/
def Ends (i : Nat) (e : Entry) (n' : Nop) : Op → Prop
  | .notify k => k.Selects i ∧ k.ctp.scoid = e.scoid ∧ k.ctp.coid = e.coid
  | .trigger ctp cnt index =>
    index = i ∧ hits ctp e = true ∧ e.cnt ≤ cnt ∧ ∃ ev, (e.arming, e.rcvid, ev) ∈ n'.delivered
  | .remove ctp lim => i < lim ∧ hits ctp e = true

def armings (l : List Entry) : List Nat := (l.filter (·.Armed)).map Entry.arming

def Nop.numbers (n : Nop) : List Nat := armings n.list ++ n.delivered.map fst

structure Nop.Good (n : Nop) : Prop where
  least : ∀ e ∈ n.list, e.Armed → n.cnt ≤ e.cnt
  once : n.numbers.Nodup
  known : ∀ a ∈ n.numbers, a < n.next

variable {k : Call} {n n' : Nop} {i j : Nat} {e : Entry} {l l' : List Entry} {s s' : Lists}
  {ctp : Option Ctx} {cnt m : Int} {index : Nat}

/-! ### `iofunc_notify` -/

theorem armings_cons_of_not (h : ¬e.Armed) : armings (e :: l) = armings l := by
  rw [armings, filter_cons_of_neg (by simpa using h), armings]

theorem armings_cons_of_armed (h : e.Armed) : armings (e :: l) = e.arming :: armings l := by
  rw [armings, filter_cons_of_pos (by simpa using h), map_cons, armings]

theorem armings_middle (e : Entry) (l1 l2 : List Entry) :
    (armings (l1 ++ e :: l2)).Subperm (e.arming :: armings (l1 ++ l2)) ∧
      (armings (l1 ++ l2)).Sublist (armings (l1 ++ e :: l2)) := by
  have happ : ∀ l, armings (l1 ++ l) = armings l1 ++ armings l := by
    intro l
    rw [armings, filter_append, map_append, armings, armings]
  rw [happ, happ]
  by_cases h : e.Armed
  · rw [armings_cons_of_armed h]
    exact ⟨perm_middle.subperm, (sublist_cons_self _ _).append_left _⟩
  · rw [armings_cons_of_not h]
    exact ⟨(sublist_cons_self _ _).subperm, .refl _⟩

theorem notifyLookup_some {rcvid : Int} {set : Entry → Entry}
    (h : notifyLookup rcvid set l = some l') :
    ∃ l1 e l2, l = l1 ++ e :: l2 ∧ e.rcvid = rcvid ∧ l' = l1 ++ set e :: l2 := by
  induction l generalizing l' with
  | nil => cases h
  | cons d l ih =>
    rw [notifyLookup] at h
    split at h
    · next hd =>
      cases h
      exact ⟨[], d, l, rfl, hd, rfl⟩
    obtain ⟨l0, h0, rfl⟩ := Option.map_eq_some_iff.mp h
    obtain ⟨l1, e, l2, rfl, he, rfl⟩ := ih h0
    exact ⟨d :: l1, e, l2, rfl, he, rfl⟩

structure Turned (k : Call) (i : Nat) (n n' : Nop) : Prop where
  stays : ∀ e ∈ n.list, e ∈ n'.list ∨ e.rcvid = k.ctp.rcvid
  new : ∀ e ∈ n'.list, e ∈ n.list ∨ ∃ ev, e = k.entry i n.next ev
  armings : (armings n'.list).Subperm (n.next :: armings n.list)
  cnt : n'.cnt = if k.arms then min n.cnt (k.cnt i) else n.cnt
  next : n'.next = n.next + 1
  delivered : n'.delivered = n.delivered

theorem turn_spec (h : n.turn k i = some n') : Turned k i n n' := by
  obtain ⟨l, hl, rfl⟩ := Option.map_eq_some_iff.mp h
  cases hf : notifyLookup k.ctp.rcvid (fun e => k.entry i n.next e.event) n.list with
  | some l' =>
    rw [hf] at hl
    cases hl
    obtain ⟨l1, d, l2, heq, hd, rfl⟩ := notifyLookup_some hf
    have hnew := (armings_middle (k.entry i n.next d.event) l1 l2).1
    have hold := (armings_middle d l1 l2).2
    refine ⟨fun e he => ?_, fun e he => ?_, ?_, rfl, rfl, rfl⟩
    · rw [heq, mem_append, mem_cons] at he
      rcases he with he | rfl | he
      · exact .inl (mem_append_left _ he)
      · exact .inr hd
      · exact .inl (mem_append_right _ (mem_cons_of_mem _ he))
    · rw [heq]
      rw [mem_append, mem_cons] at he
      rcases he with he | rfl | he
      · exact .inl (mem_append_left _ he)
      · exact .inr ⟨d.event, rfl⟩
      · exact .inl (mem_append_right _ (mem_cons_of_mem _ he))
    · rw [heq]
      exact hnew.trans (hold.cons_cons _).subperm
  | none =>
    rw [hf] at hl
    dsimp only at hl
    split at hl
    · cases hl
      refine ⟨fun e he => .inl (mem_cons_of_mem _ he), fun e he => ?_,
        (armings_middle _ [] n.list).1, rfl, rfl, rfl⟩
      rcases mem_cons.mp he with rfl | he
      · exact .inr ⟨_, rfl⟩
      · exact .inl he
    · cases hl

theorem Nop.Good.turn (h : n.Good) (ht : Turned k i n n') : n'.Good := by
  have hsub : n'.numbers.Subperm (n.next :: n.numbers) := by
    rw [Nop.numbers, ht.delivered]
    exact (subperm_append_right _).mpr ht.armings
  have hnd : (n.next :: n.numbers).Nodup :=
    nodup_cons.mpr ⟨fun hm => Nat.lt_irrefl _ (h.known _ hm), h.once⟩
  refine ⟨fun e he ha => ?_, ?_, fun a ha => ?_⟩
  · rw [ht.cnt]
    rcases ht.new e he with he | ⟨ev, rfl⟩
    · have hle := h.least e he ha
      omega
    cases harms : k.arms with
    | false => simp [Entry.Armed, Call.entry, harms] at ha
    | true =>
      simp only [Call.entry, harms, if_true]
      omega
  · obtain ⟨l, hperm, hl⟩ := hsub
    exact hperm.nodup_iff.mp (hnd.sublist hl)
  · rw [ht.next]
    rcases mem_cons.mp (hsub.subset ha) with rfl | ha
    · exact Nat.lt_succ_self _
    · exact Nat.lt_succ_of_lt (h.known a ha)

theorem notifyLoop_spec (k : Call) (fuel i : Nat) (flags : BitVec 32) (armed : Bool) (s : Lists)
    (j : Nat) : (notifyLoop k fuel i flags armed s).1 j = s j ∨
      i ≤ j ∧ j < i + fuel ∧ flags >>> (j - i) &&& 1 ≠ 0 ∧
        (s j).turn k j = some ((notifyLoop k fuel i flags armed s).1 j) := by
  induction fuel generalizing i flags armed s with
  | zero => exact .inl rfl
  | succ fuel ih =>
    have hshift : i + 1 ≤ j → flags >>> 1 >>> (j - (i + 1)) = flags >>> (j - i) := by
      intro hj
      rw [← BitVec.shiftRight_add]
      congr 1
      omega
    rw [notifyLoop]
    split
    · exact .inl rfl
    split
    · refine (ih (i + 1) (flags >>> 1) armed s).imp_right ?_
      rintro ⟨h1, h2, h3, h4⟩
      rw [hshift h1] at h3
      exact ⟨by omega, by omega, h3, h4⟩
    next hbit =>
    split
    · exact .inl rfl
    next n hn =>
    rcases ih (i + 1) (flags >>> 1) (armed || k.arms && k.action ≠ 0) (update s i n)
      with h | ⟨h1, h2, h3, h4⟩
    · by_cases hj : j = i
      · subst hj
        rw [update_self] at h
        refine .inr ⟨Nat.le_refl j, by omega, ?_, by rw [hn, h]⟩
        rwa [Nat.sub_self]
      · rw [update_of_ne hj] at h
        exact .inl h
    · rw [hshift h1] at h3
      rw [update_of_ne (by omega)] at h4
      exact .inr ⟨by omega, by omega, h3, h4⟩

theorem iofuncNotify_spec (k : Call) (s : Lists) (i : Nat) :
    (iofuncNotify k s).1 i = s i ∨ k.Selects i ∧ Turned k i (s i) ((iofuncNotify k s).1 i) := by
  rw [iofuncNotify]
  split
  · exact .inl rfl
  have h := notifyLoop_spec k k.lim 0 k.conds false s i
  generalize notifyLoop k k.lim 0 k.conds false s = r at h
  obtain ⟨s', mem, armed⟩ := r
  dsimp only
  have hres : s' i = s i ∨ k.Selects i ∧ Turned k i (s i) (s' i) := by
    refine h.imp_right ?_
    rintro ⟨-, h2, h3, h4⟩
    exact ⟨⟨by omega, h3⟩, turn_spec h4⟩
  split
  · exact hres
  split <;> exact hres

/-! ### `iofunc_notify_trigger_strict` -/

theorem not_armed (h : e.event.notify = 0) : ¬e.Armed := fun ha => ha h

structure Swept (ctp : Option Ctx) (cnt m : Int) (l : List Entry)
    (r : Int × List Entry × List (Nat × Int × Event)) : Prop where
  le : r.1 ≤ m
  least : ∀ e ∈ r.2.1, e.Armed → r.1 ≤ e.cnt
  armings : (armings r.2.1 ++ r.2.2.map fst).Perm (armings l)
  stays : ∀ e ∈ l, e.Armed →
    e ∈ r.2.1 ∨ hits ctp e = true ∧ e.cnt ≤ cnt ∧ ∃ ev, (e.arming, e.rcvid, ev) ∈ r.2.2

theorem triggerLoop_spec (ctp : Option Ctx) (cnt : Int) (index : Nat) (m : Int) (l : List Entry) :
    Swept ctp cnt m l (triggerLoop ctp cnt index m l) := by
  induction l generalizing m with
  | nil => exact ⟨Int.le_refl m, nofun, Perm.refl _, nofun⟩
  | cons e l ih =>
    rw [triggerLoop]
    split
    · next h0 =>
      have h := ih m
      refine ⟨h.le, ?_, ?_, ?_⟩
      · intro x hx ha
        rcases mem_cons.mp hx with rfl | hx
        · exact absurd h0 ha
        · exact h.least x hx ha
      · rw [armings_cons_of_not (not_armed h0), armings_cons_of_not (not_armed h0)]
        exact h.armings
      · intro x hx ha
        rcases mem_cons.mp hx with rfl | hx
        · exact absurd h0 ha
        · exact (h.stays x hx ha).imp_left (mem_cons_of_mem e)
    split
    · next h0 hf =>
      have h := ih (min m intMax)
      have hle := h.le
      simp only [Entry.fires, and_eq_true, decide_eq_true_eq] at hf
      refine ⟨by dsimp only; omega, ?_, ?_, ?_⟩
      · intro x hx ha
        rcases mem_cons.mp hx with rfl | hx
        · exact absurd rfl ha
        · exact h.least x hx ha
      · rw [armings_cons_of_armed h0]
        exact perm_middle.trans (h.armings.cons e.arming)
      · intro x hx ha
        rcases mem_cons.mp hx with rfl | hx
        · exact .inr ⟨hf.1.2, hf.2, _, mem_cons_self⟩
        rcases h.stays x hx ha with hx | ⟨h1, h2, ev, h3⟩
        · exact .inl (mem_cons_of_mem _ hx)
        · exact .inr ⟨h1, h2, ev, mem_cons_of_mem _ h3⟩
    · next h0 _ =>
      have h := ih (min m e.cnt)
      have hle := h.le
      refine ⟨by dsimp only; omega, ?_, ?_, ?_⟩
      · intro x hx ha
        rcases mem_cons.mp hx with rfl | hx
        · dsimp only
          omega
        · exact h.least x hx ha
      · rw [armings_cons_of_armed h0, armings_cons_of_armed h0]
        exact h.armings.cons e.arming
      · intro x hx ha
        rcases mem_cons.mp hx with rfl | hx
        · exact .inl mem_cons_self
        · exact (h.stays x hx ha).imp_left (mem_cons_of_mem e)

theorem Nop.Good.trigger (h : n.Good) (ctp : Option Ctx) (cnt : Int) (index : Nat) :
    (n.trigger ctp cnt index).Good := by
  have hr := triggerLoop_spec ctp cnt index intMax n.list
  have hperm : (n.trigger ctp cnt index).numbers.Perm n.numbers := by
    have hp := hr.armings.append_right (n.delivered.map fst)
    rw [append_assoc] at hp
    refine Perm.trans ?_ hp
    rw [Nop.numbers, Nop.trigger, map_append]
    exact perm_append_comm.append_left _
  exact ⟨hr.least, hperm.nodup_iff.mpr h.once, fun a ha => h.known a (hperm.mem_iff.mp ha)⟩

/-! ### Runs -/

theorem Nop.Good.remove (h : n.Good) (ctp : Option Ctx) : (n.remove ctp).Good := by
  have hsub : (n.remove ctp).numbers.Sublist n.numbers := by
    refine Sublist.append_right (Sublist.map _ ?_) _
    exact filter_sublist.filter _
  exact ⟨fun e he => h.least e (mem_of_mem_filter he), h.once.sublist hsub,
    fun a ha => h.known a (hsub.subset ha)⟩

theorem good_step (h : ∀ i, (s i).Good) (o : Op) (hs : step s o = some s') (i : Nat) :
    (s' i).Good := by
  cases o with
  | notify k =>
    cases hs
    rcases iofuncNotify_spec k s i with he | ⟨-, ht⟩
    · rw [he]
      exact h i
    · exact (h i).turn ht
  | trigger ctp cnt index =>
    cases hs
    by_cases hi : i = index
    · subst hi
      rw [update_self]
      exact (h i).trigger ctp cnt i
    · rw [update_of_ne hi]
      exact h i
  | remove ctp lim =>
    cases hs
    dsimp only
    split
    · exact (h i).remove ctp
    · exact h i

theorem stays_or_ends {o : Op} (ho : Own s o) (hs : step s o = some s') (he : e ∈ (s i).list)
    (ha : e.Armed) : e ∈ (s' i).list ∨ Ends i e (s' i) o := by
  cases o with
  | notify k =>
    cases hs
    rcases iofuncNotify_spec k s i with heq | ⟨hsel, ht⟩
    · rw [heq]
      exact .inl he
    refine (ht.stays e he).imp_right fun hr => ⟨hsel, ?_⟩
    by_contra hne
    exact ho i (mem_range.mpr hsel.1) hsel e he ⟨hr, ha, hne⟩
  | trigger ctp cnt index =>
    cases hs
    by_cases hi : i = index
    · subst hi
      rw [update_self]
      refine ((triggerLoop_spec ctp cnt i intMax (s i).list).stays e he ha).imp_right ?_
      rintro ⟨h1, h2, ev, h3⟩
      exact ⟨rfl, h1, h2, ev, mem_append_right _ h3⟩
    · rw [update_of_ne hi]
      exact .inl he
  | remove ctp lim =>
    cases hs
    dsimp only
    by_cases hl : i < lim
    · rw [if_pos hl]
      cases hh : hits ctp e with
      | true => exact .inr ⟨hl, hh⟩
      | false => exact .inl (mem_filter.mpr ⟨he, by rw [hh]; rfl⟩)
    · rw [if_neg hl]
      exact .inl he

/-- As long as no call finds the armed entry of another descriptor: every arming is delivered at
most once, the cached count is below every threshold, and an armed entry stays until its arming is
ended. -/
theorem armed_until_ended (h : Reach Init Own step s) (i : Nat) :
    (s i).numbers.Nodup ∧ (∀ e ∈ (s i).list, e.Armed → (s i).cnt ≤ e.cnt) ∧
    ∀ o s', Own s o → step s o = some s' → ∀ e ∈ (s i).list, e.Armed →
      e ∈ (s' i).list ∨ Ends i e (s' i) o := by
  have hgood : ∀ i, (s i).Good := by
    refine h.invariant ?_ (fun s o s' hg _ hs => good_step hg o hs)
    rintro s rfl i
    exact ⟨nofun, nodup_nil, nofun⟩
  exact ⟨(hgood i).once, (hgood i).least, fun o s' ho hs e he ha => stays_or_ends ho hs he ha⟩

/-- `ionotify` for input by descriptor `coid` of a thread whose connection is `scoid`. -/
def ask (tid scoid : Nat) (coid : Int) (action : BitVec 32) : Op :=
  .notify ⟨⟨tid, false, scoid, coid⟩, action, 0x10000000#32, ⟨4, 0, 0⟩, 0, none, none, fun _ => true⟩

theorem armed_until_ended_two : ∃ s, Reach Init Own step s ∧ ((s 0).list.map Entry.coid = [3, 3]) ∧
    (s 0).numbers.Nodup ∧ ∀ e ∈ (s 0).list, e.Armed → (s 0).cnt ≤ e.cnt := by
  obtain ⟨s, hs, hq⟩ := (Reach.init rfl : Reach Init Own step _).replay_any
    [ask 1 5 3 1, ask 2 5 3 1, .trigger none 1 0, ask 1 5 3 3]
    (fun s => (s 0).list.map Entry.coid == [3, 3]) (by decide +kernel)
  obtain ⟨h₁, h₂, -⟩ := armed_until_ended hs 0
  exact ⟨s, hs, beq_iff_eq.mp hq, h₁, h₂⟩

/-- Descriptor 3 arms input and descriptor 4 of the same thread polls it: nothing is armed any
more. -/
theorem poll_disarms_other : ∃ s s', Reach Init (fun _ _ => True) step s ∧
    step s (ask 1 5 4 2) = some s' ∧
    ∃ e ∈ (s 0).list, e.Armed ∧ e.coid = 3 ∧ e ∉ (s' 0).list ∧ ¬Ends 0 e (s' 0) (ask 1 5 4 2) := by
  obtain ⟨s, hs, hq⟩ := (Reach.init rfl : Reach Init (fun _ _ => True) step _).replay_any
    [ask 1 5 3 1]
    (fun s => (step s (ask 1 5 4 2)).any fun s' =>
      (s 0).list.any fun e => e.Armed && e.coid == 3 && !(s' 0).list.contains e)
    (by decide +kernel)
  rw [Option.any_eq_true] at hq
  obtain ⟨s', hs', hq⟩ := hq
  obtain ⟨e, he, hq⟩ := any_eq_true.mp hq
  simp only [and_eq_true, decide_eq_true_eq, beq_iff_eq, not_eq_true',
    contains_eq_mem, decide_eq_false_iff_not] at hq
  obtain ⟨⟨ha, hc⟩, hn⟩ := hq
  refine ⟨s, s', hs, hs', e, he, ha, hc, hn, ?_⟩
  rintro ⟨-, -, hcoid⟩
  rw [hc] at hcoid
  exact absurd hcoid (by decide)

end Qnx.Iofunc.Notify
