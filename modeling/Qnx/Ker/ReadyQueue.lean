import Qnx.Ker.Thread

/-!
# The queueing core of the scheduler

`Core` keeps of a scheduler state what decides who runs: the active thread, the states and
priorities, and the dispatch table. The moves below are the only ways in which the scheduler
changes it. `Queued` is the representation invariant, `Top` the priority order.
-/

namespace Qnx.Ker

open List Function

@[ext] structure Core where
  actives : Thp
  state : Thp → State
  priority : Thp → Prio
  dpp : Dispatch

namespace Core

def prio (c : Core) (t : Thp) : Nat := c.priority t

def setState (c : Core) (t : Thp) (st : State) : Core :=
  { c with state := update c.state t st }

def setPriority (c : Core) (t : Thp) (p : Prio) : Core :=
  { c with priority := update c.priority t p }

def modDpp (c : Core) (f : Dispatch → Dispatch) : Core := { c with dpp := f c.dpp }

def run (c : Core) (t : Thp) : Core :=
  { c with actives := t, state := update c.state t .running }

def take (c : Core) (t : Thp) (st : State) : Core :=
  (c.modDpp fun d => d.remClr (c.prio t) t).setState t st

def putHead (c : Core) (t : Thp) : Core :=
  (c.modDpp fun d => (d.link3Beg (c.prio t) t).set (c.prio t)).setState t .ready

def putTail (c : Core) (t : Thp) : Core :=
  (c.modDpp fun d => (d.link3End (c.prio t) t).set (c.prio t)).setState t .ready

/-- The active thread gives way to `t`, the head of its own list, and goes to the tail. -/
def swap (c : Core) (t : Thp) : Core :=
  ((c.modDpp fun d => (d.link3Rem (c.prio c.actives) t).link3End (c.prio c.actives)
    c.actives).setState c.actives .ready).run t

/-- `t`, which is on no list, takes the processor; the active thread goes to its head. -/
def preempt (c : Core) (t : Thp) : Core := (c.run t).putHead c.actives

def slice (c : Core) (t : Thp) (tail : Bool) : Core :=
  let c' := c.take t .running
  (if tail then c'.putTail c.actives else c'.putHead c.actives).run t

/-- `FIND_HIGHEST` and `mark_running`. -/
def findHighest (c : Core) : Option Core :=
  (c.dpp.links.head c.dpp.bits.highestPri).map fun t => (c.take t .running).run t

/-- `adjust_priority`, but for the call of `yield`. -/
def adjust (c : Core) (t : Thp) (p : Prio) : Core :=
  if c.priority t = p then c
  else match c.state t with
  | .ready =>
    let c' := (c.take t .stopped).setPriority t p
    if (p : Nat) > c.prio c.actives then c'.preempt t else c'.putTail t
  | .running =>
    if (p : Nat) < c.prio c.actives ∧ (p : Nat) ≤ c.dpp.bits.highestPri then
      let c' := (c.setPriority c.actives p).putTail c.actives
      c'.findHighest.getD c'
    else c.setPriority c.actives p
  | _ => c.setPriority t p

/-- `L` lists the ready threads by priority, as the dispatch table has them. -/
structure Rep (c : Core) (L : Nat → List Thp) : Prop where
  queues : c.dpp.Queues L
  mem : ∀ t p, t ∈ L p ↔ c.state t = .ready ∧ c.prio t = p

def Queued (c : Core) : Prop := ∃ L, c.Rep L

def Top (c : Core) : Prop := ∀ t, c.state t = .ready → c.prio t ≤ c.prio c.actives

section Fields
variable (c : Core) (t u : Thp) (st : State) (p : Prio) (f : Dispatch → Dispatch)

@[simp] theorem actives_setState : (c.setState t st).actives = c.actives := rfl

@[simp] theorem actives_setPriority : (c.setPriority t p).actives = c.actives := rfl

@[simp] theorem actives_run : (c.run t).actives = t := rfl

@[simp] theorem actives_take : (c.take t st).actives = c.actives := rfl

@[simp] theorem actives_putTail : (c.putTail t).actives = c.actives := rfl

@[simp] theorem actives_preempt : (c.preempt t).actives = t := rfl

@[simp] theorem actives_swap : (c.swap t).actives = t := rfl

@[simp] theorem state_setState : (c.setState t st).state u = if u = t then st else c.state u := by
  simp [setState, update_apply]

@[simp] theorem state_setPriority : (c.setPriority t p).state = c.state := rfl

@[simp] theorem state_modDpp : (c.modDpp f).state = c.state := rfl

@[simp] theorem state_run : (c.run t).state u = if u = t then .running else c.state u := by
  simp [run, update_apply]

@[simp] theorem state_take : (c.take t st).state u = if u = t then st else c.state u := by
  simp [take]

@[simp] theorem state_putHead : (c.putHead t).state u = if u = t then .ready else c.state u := by
  simp [putHead]

@[simp] theorem state_putTail : (c.putTail t).state u = if u = t then .ready else c.state u := by
  simp [putTail]

@[simp] theorem state_preempt : (c.preempt t).state u =
    if u = c.actives then .ready else if u = t then .running else c.state u := by
  simp [preempt]

@[simp] theorem state_swap : (c.swap t).state u =
    if u = t then .running else if u = c.actives then .ready else c.state u := by
  simp [swap]

@[simp] theorem prio_setState : (c.setState t st).prio u = c.prio u := rfl

@[simp] theorem prio_setPriority :
    (c.setPriority t p).prio u = if u = t then (p : Nat) else c.prio u := by
  by_cases h : u = t <;> simp [prio, setPriority, h]

@[simp] theorem prio_run : (c.run t).prio u = c.prio u := rfl

@[simp] theorem prio_take : (c.take t st).prio u = c.prio u := rfl

@[simp] theorem prio_putTail : (c.putTail t).prio u = c.prio u := rfl

@[simp] theorem prio_preempt : (c.preempt t).prio u = c.prio u := rfl

end Fields

theorem prio_lt (c : Core) (t : Thp) : c.prio t < 256 := (c.priority t).isLt

variable {c : Core}

variable {L : Nat → List Thp} {t : Thp} {st : State} {p : Nat}

theorem Rep.notMem (h : c.Rep L) (ht : c.state t ≠ .ready) (p : Nat) : t ∉ L p :=
  fun hm => ht ((h.mem t p).mp hm).1

theorem Rep.split (h : c.Rep L) (ht : c.state t = .ready) : ∃ l1 l2, L (c.prio t) = l1 ++ t :: l2 :=
  append_of_mem ((h.mem t _).mpr ⟨ht, rfl⟩)

theorem Rep.mem_erased (h : c.Rep L) {l1 l2 : List Thp}
    (hL : L (c.prio t) = l1 ++ t :: l2) (u : Thp) (p : Nat) :
    u ∈ update L (c.prio t) (l1 ++ l2) p ↔ u ≠ t ∧ c.state u = .ready ∧ c.prio u = p := by
  have hnd := hL ▸ h.queues.lists.reps.nodup (c.prio t)
  have ht : t ∉ l1 ++ l2 := by
    have := (nodup_middle.mp hnd)
    exact (nodup_cons.mp this).1
  rw [← h.mem]
  by_cases hp : p = c.prio t
  · subst hp
    simp only [update_self, hL, mem_append, mem_cons]
    constructor
    · intro hu
      refine ⟨?_, by tauto⟩
      rintro rfl
      exact ht (mem_append.mpr hu)
    · tauto
  simp only [update_of_ne hp]
  constructor
  · intro hu
    refine ⟨?_, hu⟩
    rintro rfl
    exact hp ((h.mem _ _).mp hu).2.symm
  · exact fun hu => hu.2

theorem Rep.not_erased (h : c.Rep L) {l1 l2 : List Thp} (hL : L (c.prio t) = l1 ++ t :: l2)
    (p : Nat) : t ∉ update L (c.prio t) (l1 ++ l2) p := fun hm => ((h.mem_erased hL _ p).mp hm).1 rfl

section

variable (h : c.Queued)
include h

theorem Queued.congr {c' : Core} (hd : c'.dpp = c.dpp)
    (hs : ∀ t, c'.state t = .ready ↔ c.state t = .ready)
    (hp : ∀ t, c.state t = .ready → c'.priority t = c.priority t) : c'.Queued := by
  obtain ⟨L, hL⟩ := h
  refine ⟨L, hd ▸ hL.queues, fun t p => ?_⟩
  rw [hL.mem, hs]
  refine and_congr_right fun ht => ?_
  simp only [prio, hp t ht]

section

variable (ht : c.state t ≠ .ready)
include ht

theorem Queued.setState (hst : st ≠ .ready) : (c.setState t st).Queued := by
  refine h.congr rfl (fun u => ?_) (fun _ _ => rfl)
  by_cases hu : u = t
  · subst hu
    simp [ht, hst]
  · simp [hu]

theorem Queued.setPriority (p : Prio) : (c.setPriority t p).Queued := by
  refine h.congr rfl (fun _ => Iff.rfl) fun u hu => ?_
  have hne : u ≠ t := fun e => ht (e ▸ hu)
  simp [Core.setPriority, hne]

theorem Queued.run : (c.run t).Queued :=
  (h.setState ht (show State.running ≠ .ready by simp)).congr rfl (fun _ => Iff.rfl) fun _ _ => rfl

theorem Queued.clearLinks : (c.modDpp fun d => d.clearLinks t).Queued := by
  obtain ⟨L, hL⟩ := h
  exact ⟨L, hL.queues.clearLinks (hL.notMem ht), hL.mem⟩

end

theorem Queued.take (ht : c.state t = .ready) (hst : st ≠ .ready) : (c.take t st).Queued := by
  obtain ⟨L, hL⟩ := h
  obtain ⟨l1, l2, he⟩ := hL.split ht
  refine ⟨_, hL.queues.remClr he, fun u p => ?_⟩
  rw [hL.mem_erased he]
  by_cases hu : u = t
  · subst hu
    simp [hst]
  · simp [Core.take, Core.setState, Core.modDpp, prio, hu]

end

theorem Rep.link (h : c.Rep L) {l : List Thp}
    (hl : ∀ u, u ∈ l ↔ u = t ∨ u ∈ L (c.prio t)) (u : Thp) (p : Nat) :
    u ∈ update L (c.prio t) l p ↔ (c.setState t .ready).state u = .ready ∧ c.prio u = p := by
  by_cases hp : p = c.prio t
  · subst hp
    simp only [update_self, hl, h.mem]
    by_cases hu : u = t
    · subst hu
      simp
    · simp [hu]
  simp only [update_of_ne hp, h.mem]
  by_cases hu : u = t
  · subst hu
    simp [Ne.symm hp]
  · simp [hu]

section

variable (h : c.Queued)
include h

theorem Queued.putHead (ht : c.state t ≠ .ready) : (c.putHead t).Queued := by
  obtain ⟨L, hL⟩ := h
  exact ⟨_, hL.queues.link3Beg_set (c.prio_lt t) (hL.notMem ht), hL.link fun u => mem_cons⟩

theorem Queued.putTail (ht : c.state t ≠ .ready) : (c.putTail t).Queued := by
  obtain ⟨L, hL⟩ := h
  exact ⟨_, hL.queues.link3End_set (c.prio_lt t) (hL.notMem ht), hL.link fun u => by simp [or_comm]⟩

theorem Queued.head_some
    (ht : c.dpp.links.head p = some t) : c.state t = .ready ∧ c.prio t = p := by
  obtain ⟨L, hL⟩ := h
  rw [hL.queues.lists.reps.head_eq] at ht
  exact (hL.mem t p).mp (mem_of_mem_head? ht)

section

variable (ht : c.state t = .ready)
include ht

theorem Queued.le_highestPri : c.prio t ≤ c.dpp.bits.highestPri := by
  obtain ⟨L, hL⟩ := h
  exact (hL.queues.highestPri (ne_nil_of_mem ((hL.mem t _).mpr ⟨ht, rfl⟩))).2

theorem Queued.relinkEnd :
    (c.modDpp fun d => (d.link3Rem (c.prio t) t).link3End (c.prio t) t).Queued := by
  obtain ⟨L, hL⟩ := h
  obtain ⟨l1, l2, he⟩ := hL.split ht
  refine ⟨_, hL.queues.relinkEnd he (hL.not_erased he), fun u q => ?_⟩
  refine Iff.trans ?_ (hL.mem u q)
  by_cases hq : q = c.prio t
  · subst hq
    simp [he, or_comm]
  · simp [hq]

theorem Queued.relinkBeg :
    (c.modDpp fun d => (d.link3Rem (c.prio t) t).link3Beg (c.prio t) t).Queued := by
  obtain ⟨L, hL⟩ := h
  obtain ⟨l1, l2, he⟩ := hL.split ht
  refine ⟨_, hL.queues.relinkBeg he (hL.not_erased he), fun u q => ?_⟩
  refine Iff.trans ?_ (hL.mem u q)
  by_cases hq : q = c.prio t
  · subst hq
    simp [he, or_left_comm]
  · simp [hq]

end

theorem Queued.none_ready
    (hn : c.dpp.links.head c.dpp.bits.highestPri = none) (t : Thp) : c.state t ≠ .ready := by
  intro ht
  obtain ⟨L, hL⟩ := h
  have hm := (hL.mem t _).mpr ⟨ht, rfl⟩
  have := (hL.queues.highestPri (ne_nil_of_mem hm)).1
  rw [hL.queues.lists.reps.head_eq, head?_eq_none_iff] at hn
  exact this hn

theorem Queued.swap (ha : c.state c.actives ≠ .ready)
    (ht : c.dpp.links.head (c.prio c.actives) = some t) : (c.swap t).Queued := by
  obtain ⟨hr, hp⟩ := h.head_some ht
  obtain ⟨L, hL⟩ := h
  obtain ⟨l1, l2, he⟩ := hL.split hr
  have hat : c.actives ≠ t := fun e => ha (e ▸ hr)
  have hout : ∀ q, c.actives ∉ update L (c.prio t) (l1 ++ l2) q := fun q hm =>
    ha ((hL.mem_erased he _ q).mp hm).2.1
  refine ⟨update L (c.prio t) (l1 ++ l2 ++ [c.actives]), ?_, fun u q => ?_⟩
  · rw [Core.swap, ← hp]
    exact hL.queues.relinkEnd he hout
  · have hmem : u ∈ update L (c.prio t) (l1 ++ l2 ++ [c.actives]) q ↔
        (u = c.actives ∧ q = c.prio t) ∨ u ∈ update L (c.prio t) (l1 ++ l2) q := by
      by_cases hq : q = c.prio t
      · subst hq
        simp [or_comm, or_left_comm]
      · simp [hq]
    rw [hmem, hL.mem_erased he]
    by_cases hu : u = t
    · subst hu
      simp [Ne.symm hat]
    by_cases hua : u = c.actives
    · subst hua
      have hq : c.prio t = q ↔ c.prio c.actives = q := by rw [hp]
      simpa [Core.swap, Core.run, Core.setState, Core.modDpp, prio, hu, ha, eq_comm] using hq
    · simp [Core.swap, Core.run, Core.setState, Core.modDpp, prio, hu, hua]

end

end Core

end Qnx.Ker
