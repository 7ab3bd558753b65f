import Mathlib.Data.Finset.Card
import Qnx.Ker.MutexRuns

/-!
# The inheritance walk of `sync_mutex_lock`

Every trip around the loop of `again` and `chkstate` raises a thread that was below the caller, so
the walk ends, whatever the owners and servers wait for. At a SEND-blocked thread it takes what
`ker_msg_sendv` left in `blocked_on`, a connection, for a channel.
-/

namespace Qnx.Ker

open Function MutexRun Finset

namespace MutexSt

/-- The walk goes on from `s'` with the thread `thp`, which it has raised. -/
structure Trip (prio : Nat) (s s' : MutexSt) (thp : Nat) : Prop where
  below : s.priority thp < prio
  raised : s'.priority = update s.priority thp prio

/-- A part of the walk, whose rest has the given fuel: it ends, or it makes a trip. -/
def Trips (cfg : MutexCfg) (prio : Nat) (s : MutexSt) (walk : Nat → Option MutexSt) : Prop :=
  (∃ s', ∀ fuel, walk fuel = some s') ∨
    ∃ s' thp, Trip prio s s' thp ∧ ∀ fuel, walk fuel = chkstate cfg prio fuel s' thp

variable {cfg : MutexCfg} {s s' : MutexSt} {prio : Nat} {walk : Nat → Option MutexSt}

theorem Trips.congr (h : Trips cfg prio s' walk) (hp : s'.priority = s.priority) :
    Trips cfg prio s walk := by
  rcases h with h | ⟨s1, thp, ht, hw⟩
  · exact .inl h
  · exact .inr ⟨s1, thp, ⟨hp ▸ ht.below, hp ▸ ht.raised⟩, hw⟩

theorem trips_raise (s : MutexSt) (thp : Nat) : Trips cfg prio s fun fuel =>
      if s.priority thp < prio then chkstate cfg prio fuel (s.adjustPriority thp prio) thp
      else some s := by
  by_cases hlt : s.priority thp < prio
  · simp only [if_pos hlt]
    exact .inr ⟨_, thp, ⟨hlt, rfl⟩, fun _ => rfl⟩
  · simp only [if_neg hlt]
    exact .inl ⟨s, fun _ => rfl⟩

theorem trips_passOn (s : MutexSt) (syp : Nat) (owner : Option Nat) (thp2 : Nat) :
    Trips cfg prio s fun fuel => s.passOn (chkstate cfg prio fuel) prio syp owner thp2 := by
  cases owner with
  | none => exact .inl ⟨_, fun _ => rfl⟩
  | some thp => exact (trips_raise (s.mutexholdlistPri thp syp) thp).congr rfl

theorem trips_chkstate (s : MutexSt) (thp : Nat) :
    Trips cfg prio s fun fuel => chkstate cfg prio (fuel + 1) s thp := by
  simp only [chkstate]
  cases s.state thp with
  | running => exact .inl ⟨s, fun _ => rfl⟩
  | other => exact .inl ⟨s, fun _ => rfl⟩
  | send chp => exact .inl ⟨_, fun _ => rfl⟩
  | reply chp server =>
    dsimp only
    split
    · exact .inl ⟨s, fun _ => rfl⟩
    cases server with
    | none => exact .inl ⟨s, fun _ => rfl⟩
    | some thp' => exact trips_raise s thp'
  | mutex syp =>
    dsimp only
    split
    · exact (trips_passOn _ _ _ _).congr (sameQueues_unhold s syp).priority
    split
    · exact (trips_passOn _ _ _ _).congr (sameQueues_overtake s thp syp).priority
    · exact .inl ⟨_, fun _ => rfl⟩

theorem trips_mutexBlock (cfg : MutexCfg) (s : MutexSt) (act syp : Nat) (owner : Option Nat)
    (imto : Bool) :
    Trips cfg (s.priority act) s fun fuel => s.mutexBlock cfg fuel act syp owner imto := by
  have hq := (sameQueues_mutexOutrank (s.mutexUnready act syp) act syp).priority
  unfold mutexBlock
  cases imto with
  | true => exact .inl ⟨s, fun _ => rfl⟩
  | false =>
    simp only [Bool.false_eq_true, if_false]
    split
    · exact .inl ⟨_, fun _ => rfl⟩
    split
    · simp only [link2Pri_priority, hq]
      exact (trips_passOn _ _ _ _).congr hq
    · exact .inl ⟨_, fun _ => rfl⟩

theorem trips_syncMutexLock (s : MutexSt) (act syp : Nat) (noCeiling imto : Bool) :
    Trips cfg (s.priority act) s fun fuel => s.syncMutexLock cfg fuel act syp noCeiling imto := by
  unfold syncMutexLock
  split
  · exact .inl ⟨s, fun _ => rfl⟩
  split
  · exact .inl ⟨s, fun _ => rfl⟩
  dsimp only
  split
  · split
    · exact .inl ⟨_, fun _ => rfl⟩
    · exact (trips_mutexBlock cfg (s.setWaitBit syp true) act syp _ imto).congr rfl
  split
  · have hp := (eases_mutexRewake (s.setWaitBit syp true) syp).1
    have ht := trips_mutexBlock cfg ((s.setWaitBit syp true).mutexRewake syp) act syp none imto
    rw [hp] at ht
    exact ht.congr hp
  · exact (trips_mutexBlock cfg (s.setWaitBit syp true) act syp _ imto).congr rfl

/-- The threads below `prio` are in `T`, and every trip takes one of them away. -/
theorem Trips.ends (h : Trips cfg prio s walk) {T : Finset Nat}
    (hT : ∀ t, s.priority t < prio → t ∈ T) :
    ∃ s', ∀ fuel, T.card ≤ fuel → walk fuel = some s' := by
  induction T using strongInduction generalizing s walk with
  | H T ih =>
    rcases h with ⟨s', hw⟩ | ⟨s', thp, ht, hw⟩
    · exact ⟨s', fun fuel _ => hw fuel⟩
    have hm := hT thp ht.below
    obtain ⟨s'', hs⟩ := ih (T.erase thp) (erase_ssubset hm) (trips_chkstate s' thp) (by
      intro t hlt
      rw [ht.raised] at hlt
      by_cases he : t = thp
      · subst he
        rw [update_self] at hlt
        exact absurd hlt (lt_irrefl _)
      · rw [update_of_ne he] at hlt
        exact mem_erase.mpr ⟨he, hT t hlt⟩)
    have hc := card_erase_add_one hm
    refine ⟨s'', fun fuel hf => ?_⟩
    obtain ⟨fuel, rfl⟩ := Nat.exists_eq_add_of_le' ((Nat.le_add_left 1 _).trans (hc ▸ hf))
    rw [hw]
    exact hs fuel (by omega)

/-- The walk of `sync_mutex_lock` ends after as many trips as there are threads below the caller at
the most, since each trip raises one of them; cycles of owners and servers are no exception. -/
theorem inheritance_walk_ends (cfg : MutexCfg) (s : MutexSt) (act syp : Nat)
    (noCeiling imto : Bool) {T : Finset Nat} (hT : ∀ t, s.priority t < s.priority act → t ∈ T) :
    (∃ s', ∀ fuel, T.card ≤ fuel → s.syncMutexLock cfg fuel act syp noCeiling imto = some s') ∧
      (Trips cfg (s.priority act) s fun fuel => s.syncMutexLock cfg fuel act syp noCeiling imto) ∧
      ∀ s' thp, Trips cfg (s.priority act) s' fun fuel =>
        chkstate cfg (s.priority act) (fuel + 1) s' thp :=
  ⟨(trips_syncMutexLock s act syp noCeiling imto).ends hT, trips_syncMutexLock s act syp _ _,
    trips_chkstate⟩

def deadlocked : MutexSt :=
  { start with
    priority := fun thp => if thp < 2 then 5 else 9
    state := fun thp => if thp = 0 then .mutex 1 else if thp = 1 then .mutex 0 else .running
    muOwner := fun thp => if thp = 0 then some 1 else if thp = 1 then some 0 else none
    holdlist := fun thp => if thp < 2 then [thp] else []
    waiting := fun syp => if syp = 0 then [.thread 1] else if syp = 1 then [.thread 0] else []
    owner := fun syp => if syp < 2 then .held syp else .free }

/-- Thread 2 locks the mutex of thread 0. -/
theorem inheritance_walk_ends_deadlock : ∃ s',
    (∀ fuel, 2 ≤ fuel → deadlocked.syncMutexLock inheritCfg fuel 2 0 false false = some s') ∧
      s'.priority 0 = 9 ∧ s'.priority 1 = 9 := by
  obtain ⟨s', hs⟩ := (inheritance_walk_ends inheritCfg (T := range 2) deadlocked 2 0 false false (by
      intro t ht
      by_contra hn
      have h9 : deadlocked.priority t = 9 := if_neg fun h => hn (mem_range.mpr h)
      rw [h9] at ht
      exact absurd ht (by decide))).1
  refine ⟨s', hs, ?_⟩
  have h2 : (deadlocked.syncMutexLock inheritCfg 2 2 0 false false).map (fun s =>
      (s.priority 0, s.priority 1)) = some (9, 9) := by decide
  rw [hs 2 (by decide)] at h2
  simpa using h2

end MutexSt

/-! ### SEND-blocked threads -/

/-- `CHANNEL` -/
structure ChanEntry where
  chid : BitVec 32
  flags : BitVec 16
  process : Nat

/-- `CONNECT`: `scoid` and `infoscoid` lie where a `CHANNEL` has its `chid`, `flags` and `process`
where it has those. -/
structure ConnEntry where
  scoid : BitVec 16
  infoscoid : BitVec 16
  flags : BitVec 16
  process : Nat
  channel : ChanEntry

/-- The bytes of a connection read as a `CHANNEL`. -/
def ConnEntry.asChannel (bigEndian : Bool) (cop : ConnEntry) : ChanEntry where
  chid := if bigEndian then cop.scoid ++ cop.infoscoid else cop.infoscoid ++ cop.scoid
  flags := cop.flags
  process := cop.process

def ChanEntry.fixed (chp : ChanEntry) : Bool := chp.flags.getLsbD 0

structure ThreadTable where
  priority : Nat → Nat
  process : Nat → Nat
  lastChid : Nat → BitVec 32

namespace ThreadTable

variable (w : ThreadTable) (prio : Nat)

def Serves (chp : ChanEntry) (thp : Nat) : Prop :=
  w.process thp = chp.process ∧ w.lastChid thp = chp.chid

instance (chp : ChanEntry) (thp : Nat) : Decidable (w.Serves chp thp) :=
  inferInstanceAs (Decidable (_ ∧ _))

/-- `case STATE_SEND`, with what `blocked_on` is taken for. -/
def raiseServers (chp : ChanEntry) : ThreadTable :=
  if chp.fixed then w
  else
    { w with
      priority := fun i => if w.Serves chp i ∧ w.priority i < prio then prio else w.priority i }

/-- `sync_mutex_lock` from where it raises `thp`, which is SEND-blocked on `cop`, to its end. -/
def raiseSender (bigEndian : Bool) (cop : ConnEntry) (thp : Nat) : ThreadTable :=
  { w with priority := update w.priority thp prio }.raiseServers prio (cop.asChannel bigEndian)

/-- The walk as `MutexSt` has it does the same, for channels known by number. -/
theorem raiseServers_eq_chkstate {cfg : MutexCfg} {s : MutexSt} {fuel thp chp : Nat}
    {ch : ChanEntry} (hst : s.state thp = .send chp) (hp : w.priority = s.priority)
    (hfix : ch.fixed = cfg.fixedPriority chp)
    (hserves : ∀ i, w.Serves ch i ↔ cfg.process i = cfg.chanProcess chp ∧ s.lastChid i = chp) :
    (s.chkstate cfg prio (fuel + 1) thp).map MutexSt.priority =
      some (w.raiseServers prio ch).priority := by
  simp only [MutexSt.chkstate, hst, raiseServers, hfix, Option.map_some, Option.some.injEq]
  split
  · exact hp.symm
  funext i
  simp only [MutexSt.boostServers_priority, hserves, hp]
  congr 1
  exact propext ⟨fun h => ⟨⟨h.1, h.2.2⟩, h.2.1⟩, fun h => ⟨h.1.1, h.2, h.1.2⟩⟩

theorem priority_raiseSender (bigEndian : Bool) (cop : ConnEntry) (thp i : Nat) :
    (w.raiseSender prio bigEndian cop thp).priority i =
      if i = thp then prio
      else if (cop.asChannel bigEndian).fixed = false ∧ w.Serves (cop.asChannel bigEndian) i then
        max (w.priority i) prio
      else w.priority i := by
  have hmax : ∀ n, (if n < prio then prio else n) = max n prio := by
    intro n
    split <;> omega
  unfold raiseSender raiseServers
  by_cases he : i = thp
  · subst he
    split <;> simp
  cases hf : (cop.asChannel bigEndian).fixed with
  | true => simp [he]
  | false =>
    simp only [Bool.false_eq_true, if_false, update_of_ne he, he, true_and, ← hmax, ← ite_and]
    rfl

/-- Read as a channel, the connection is one with the identity of its own channel. -/
def ReadsAsOwn (bigEndian : Bool) (cop : ConnEntry) : Prop :=
  (cop.asChannel bigEndian).fixed = false ∧ cop.process = cop.channel.process ∧
    (cop.asChannel bigEndian).chid = cop.channel.chid

/-- The server threads are raised if and only if the connection happens to read as its channel, or
none of them needs it but the owner itself. -/
theorem servers_raised_iff (bigEndian : Bool) (cop : ConnEntry) (thp : Nat) :
    (∀ i, w.Serves cop.channel i → prio ≤ (w.raiseSender prio bigEndian cop thp).priority i) ↔
      ReadsAsOwn bigEndian cop ∨ ∀ i, w.Serves cop.channel i → i ≠ thp → prio ≤ w.priority i := by
  simp only [priority_raiseSender]
  constructor
  · intro h
    refine or_iff_not_imp_right.mpr fun hn => ?_
    simp only [not_forall] at hn
    obtain ⟨i, hi, hne, hlt⟩ := hn
    have hr := h i hi
    rw [if_neg hne] at hr
    split at hr
    · rename_i hs
      exact ⟨hs.1, hs.2.1.symm.trans hi.1, hs.2.2.symm.trans hi.2⟩
    · omega
  · intro h i hi
    split
    · exact le_rfl
    rename_i hne
    rcases h with ⟨hf, hp, hc⟩ | h
    · rw [if_pos ⟨hf, hi.1.trans hp.symm, hi.2.trans hc.symm⟩]
      exact Nat.le_max_right _ _
    · have hle := h i hi hne
      split <;> omega

/-- Process 1 sends on its connection to channel 3 of process 2, where thread 2 receives: to
priority 20 the sender is raised, but not thread 2. -/
theorem server_not_raised :
    let cop : ConnEntry := ⟨1, 1, 0, 1, ⟨3, 0, 2⟩⟩
    let w : ThreadTable := ⟨fun _ => 5, fun thp => thp, fun thp => if thp = 2 then 3 else -1⟩
    ∀ bigEndian, cop.channel.fixed = false ∧ w.Serves cop.channel 2 ∧
      (w.raiseSender 20 bigEndian cop 1).priority 1 = 20 ∧
      (w.raiseSender 20 bigEndian cop 1).priority 2 = 5 := by
  decide

end ThreadTable

end Qnx.Ker
