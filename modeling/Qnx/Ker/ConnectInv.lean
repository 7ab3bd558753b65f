import Qnx.Ker.Connect

/-!
# What refers to a connection

The count of a connection and the invariant around it. In the middle of a call the count may run
one short of `links`; the connection it does so for is named `owed`.
-/

namespace Qnx.Ker

open Slots Function
open List hiding count

/-- The server holds the connection in slot `i` of the `chancons` of `p`. -/
def CConn.Served (cfg : ConnCfg) (p i : Nat) (k : CConn) : Prop :=
  k.vconnect = none ∧ k.global = false ∧ k.scoid = i ∧ k.channel.map cfg.process = some p

/-- No client has the connection any more, and the server was told by a pulse. -/
def CConn.Kept (cfg : ConnCfg) (k : CConn) : Prop :=
  k.process = none ∧ k.vconnect = none ∧ k.global = false ∧ k.channel.map cfg.disconnect = some true

/-- Two records of a connection that differ in `links` and `process` at most. -/
structure CConn.Alike (k k' : CConn) : Prop where
  channel : k'.channel = k.channel
  scoid : k'.scoid = k.scoid
  vconnect : k'.vconnect = k.vconnect
  netcon : k'.netcon = k.netcon
  global : k'.global = k.global
  nd : k'.nd = k.nd
  pid : k'.pid = k.pid
  chid : k'.chid = k.chid

theorem CConn.Alike.served {cfg : ConnCfg} {k k' : CConn} {p i : Nat} (h : k.Alike k') :
    k'.Served cfg p i ↔ k.Served cfg p i := by
  unfold Served
  rw [h.vconnect, h.global, h.scoid, h.channel]

namespace ConnSt

variable {cfg : ConnCfg} {s : ConnSt} {p q c c' i j : Nat} {b d : Bool} {e : CSlot}

def clientRefs (s : ConnSt) (c : Nat) : Option Nat → Nat
  | some p => refs ⟨c, false⟩ (s.vec p false) + refs ⟨c, false⟩ (s.vec p true)
  | none => 0

def blockedOn (s : ConnSt) (c : Nat) : Nat := s.blocked.countP fun x => decide (x.cop = c)

def count (s : ConnSt) (c : Nat) (k : CConn) : Nat :=
  s.clientRefs c k.process + s.blockedOn c + (s.next c).length

section

variable (k : Option CConn)
include k

@[simp] theorem conns_setConn : (s.setConn c k).conns c' = if c' = c then k else s.conns c' := by
  simp [setConn, update_apply]

@[simp] theorem slot_setConn : (s.setConn c k).slot p b i = s.slot p b i := rfl

@[simp] theorem clientRefs_setConn (o : Option Nat) :
    (s.setConn c k).clientRefs c' o = s.clientRefs c' o := by
  cases o <;> rfl

@[simp] theorem count_setConn (k' : CConn) : (s.setConn c k).count c' k' = s.count c' k' := by
  rfl

end

@[simp] theorem slot_vectorAdd : (s.vectorAdd p b i e).slot q d j =
    if q = p ∧ d = b ∧ j = i then some e else s.slot q d j := by
  simp only [slot, vectorAdd]
  by_cases h : q = p ∧ d = b
  · simp [h, at?_put]
  · rw [if_neg h, if_neg (fun h' => h ⟨h'.1, h'.2.1⟩)]

@[simp] theorem slot_vectorRem : (s.vectorRem p b i).slot q d j =
    if q = p ∧ d = b ∧ j = i then none else s.slot q d j := by
  simp only [slot, vectorRem]
  by_cases h : q = p ∧ d = b
  · simp [h, at?_clear]
  · rw [if_neg h, if_neg (fun h' => h ⟨h'.1, h'.2.1⟩)]

theorem clientRefs_vectorAdd (hfree : s.slot p b i = none) (o : Option Nat) :
    (s.vectorAdd p b i e).clientRefs c o =
      s.clientRefs c o + if o = some p ∧ e = ⟨c, false⟩ then 1 else 0 := by
  have h := refs_put (a := e) (b := ⟨c, false⟩) hfree
  cases o with
  | none => rfl
  | some q =>
    simp only [clientRefs, vectorAdd]
    by_cases hq : q = p
    · subst hq
      cases b <;> simp <;> omega
    · simp [hq]

theorem clientRefs_vectorRem (o : Option Nat) : (s.vectorRem p b i).clientRefs c o +
    (if o = some p ∧ s.slot p b i = some ⟨c, false⟩ then 1 else 0) = s.clientRefs c o := by
  have h := refs_clear (l := s.vec p b) (i := i) (b := (⟨c, false⟩ : CSlot))
  cases o with
  | none => rfl
  | some q =>
    simp only [clientRefs, vectorRem, slot]
    by_cases hq : q = p
    · subst hq
      cases b <;> simp <;> omega
    · simp [hq]

theorem clientRefs_vectorAdd_server (hfree : s.slot p b i = none) (o : Option Nat) :
    (s.vectorAdd p b i ⟨c', true⟩).clientRefs c o = s.clientRefs c o := by
  simp [clientRefs_vectorAdd hfree]

theorem clientRefs_vectorRem_server (hs : s.slot p b i = some ⟨c', true⟩) (o : Option Nat) :
    (s.vectorRem p b i).clientRefs c o = s.clientRefs c o := by
  simpa [hs] using clientRefs_vectorRem (s := s) (p := p) (b := b) (i := i) (c := c) o

theorem clientRefs_pos : 0 < s.clientRefs c (some p) ↔ ∃ b i, s.slot p b i = some ⟨c, false⟩ := by
  simp only [clientRefs, slot, Nat.add_pos_iff_pos_or_pos, refs_pos, Bool.exists_bool]

theorem blockedOn_pos : 0 < s.blockedOn c ↔ ∃ x ∈ s.blocked, x.cop = c := by
  simp [blockedOn]

end ConnSt

open ConnSt

/-- What holds of the connections, their slots, their virtual connections and the threads on
them. -/
structure ConnInv (cfg : ConnCfg) (owed : Option Nat) (s : ConnSt) : Prop where
  links : ∀ c k, s.conns c = some k → k.links = s.count c k + if owed = some c then 1 else 0
  chan : ∀ c k, s.conns c = some k → ∃ chp, k.channel = some chp ∧ k.global = cfg.global chp ∧
    (k.netcon = false → cfg.chan k.nd k.pid k.chid = some chp)
  client : ∀ p b i c, s.slot p b i = some ⟨c, false⟩ → ∃ k, s.conns c = some k ∧ k.process = some p
  server : ∀ p b i c, s.slot p b i = some ⟨c, true⟩ →
    b = true ∧ ∃ k, s.conns c = some k ∧ k.Served cfg p i
  served : ∀ c k p i, s.conns c = some k → k.Served cfg p i → s.slot p true i = some ⟨c, true⟩
  master : ∀ c k m, s.conns c = some k → k.vconnect = some m → k.global = false ∧ c ∈ s.next m ∧
    ∃ km, s.conns m = some km ∧ km.vconnect = none ∧ km.global = false
  virtual : ∀ m c, c ∈ s.next m → ∃ k, s.conns c = some k ∧ k.vconnect = some m
  nodup : ∀ m, (s.next m).Nodup
  idle : ∀ c k, s.conns c = some k → k.links = 0 → k.Kept cfg
  threads : (s.blocked.map CBlocked.thp).Nodup
  queued : ∀ x ∈ s.blocked, ∃ k, s.conns x.cop = some k ∧ (k.global = true →
    x.reply = false ∧ s.slot x.process x.side x.coid = some ⟨x.cop, false⟩)

namespace ConnInv

variable {cfg : ConnCfg} {s : ConnSt} {owed : Option Nat} {p c m i : Nat} {b : Bool} {k : CConn}

theorem init : ConnInv cfg none ConnSt.fresh where
  links := by intro c k h; cases h
  chan := by intro c k h; cases h
  client := by intro p b i c h; simp [ConnSt.fresh, slot] at h
  server := by intro p b i c h; simp [ConnSt.fresh, slot] at h
  served := by intro c k p i h; cases h
  master := by intro c k m h; cases h
  virtual := by intro m c h; cases h
  nodup := by intro m; exact nodup_nil
  idle := by intro c k h; cases h
  threads := nodup_nil
  queued := by intro x h; cases h

section

variable (h : ConnInv cfg owed s)
include h

theorem congr {s' : ConnSt} (hconns : s'.conns = s.conns)
    (hnext : s'.next = s.next) (hbl : s'.blocked = s.blocked)
    (hslot : ∀ p b i, s'.slot p b i = s.slot p b i)
    (hrefs : ∀ c o, s'.clientRefs c o = s.clientRefs c o) : ConnInv cfg owed s' := by
  have hcount : ∀ c k, s'.count c k = s.count c k := by
    intro c k
    simp only [count, blockedOn, hrefs, hnext, hbl]
  constructor
  case links => simpa only [hconns, hcount] using h.links
  case chan => simpa only [hconns] using h.chan
  case client => simpa only [hconns, hslot] using h.client
  case server => simpa only [hconns, hslot] using h.server
  case served => simpa only [hconns, hslot] using h.served
  case master => simpa only [hconns, hnext] using h.master
  case virtual => simpa only [hconns, hnext] using h.virtual
  case nodup => simpa only [hnext] using h.nodup
  case idle => simpa only [hconns] using h.idle
  case threads => simpa only [hbl] using h.threads
  case queued => simpa only [hconns, hslot, hbl] using h.queued

theorem unallocated (hc : s.conns c = none) :
    (∀ p b i d, s.slot p b i ≠ some ⟨c, d⟩) ∧ (∀ x ∈ s.blocked, x.cop ≠ c) ∧ s.next c = [] ∧
      ∀ m, c ∉ s.next m := by
  refine ⟨?_, ?_, ?_, ?_⟩
  · intro p b i d hs
    cases d with
    | false =>
      obtain ⟨k, hk, -⟩ := h.client p b i c hs
      simp [hc] at hk
    | true =>
      obtain ⟨-, k, hk, -⟩ := h.server p b i c hs
      simp [hc] at hk
  · rintro x hx rfl
    obtain ⟨k, hk, -⟩ := h.queued x hx
    simp [hc] at hk
  · rw [eq_nil_iff_forall_not_mem]
    intro v hv
    obtain ⟨k, hk, hm⟩ := h.virtual c v hv
    obtain ⟨-, -, km, hkm, -⟩ := h.master v k c hk hm
    simp [hc] at hkm
  · intro m hm
    obtain ⟨k, hk, -⟩ := h.virtual m c hm
    simp [hc] at hk

theorem unreferred (hc : s.conns c = some k) (h0 : s.count c k = 0) :
    (∀ p b i, s.slot p b i ≠ some ⟨c, false⟩) ∧ (∀ x ∈ s.blocked, x.cop ≠ c) ∧ s.next c = [] := by
  simp only [count, Nat.add_eq_zero_iff] at h0
  obtain ⟨⟨hrefs, hbl⟩, hnext⟩ := h0
  refine ⟨?_, ?_, length_eq_zero_iff.mp hnext⟩
  · intro p b i hs
    obtain ⟨k', hk', hp⟩ := h.client p b i c hs
    rw [hc] at hk'
    cases hk'
    rw [hp] at hrefs
    have hpos := clientRefs_pos.mpr ⟨b, i, hs⟩
    omega
  · intro x hx hxc
    have hpos : 0 < s.blockedOn c := blockedOn_pos.mpr ⟨x, hx, hxc⟩
    omega

theorem count_unallocated (hc : s.conns c = none) (k : CConn) : s.count c k = 0 := by
  obtain ⟨hslot, hbl, hnext, -⟩ := h.unallocated hc
  have h1 : s.clientRefs c k.process = 0 := by
    cases hp : k.process with
    | none => rfl
    | some p =>
      apply Nat.eq_zero_of_not_pos
      rw [clientRefs_pos]
      rintro ⟨b, i, hs⟩
      exact hslot p b i false hs
  have h2 : s.blockedOn c = 0 := by
    apply Nat.eq_zero_of_not_pos
    rw [blockedOn_pos]
    rintro ⟨x, hx, hxc⟩
    exact hbl x hx hxc
  simp [count, h1, h2, hnext]

end

/-! ### One connection changes -/

section

variable (h : ConnInv cfg owed s)
include h

section

variable (hc : s.conns c = some k)
include hc

theorem relink {owed' : Option Nat} {k' : CConn} (ha : k.Alike k')
    (hp : k'.process = k.process ∨ ∀ p b i, s.slot p b i ≠ some ⟨c, false⟩)
    (hl : k'.links = s.count c k' + if owed' = some c then 1 else 0)
    (ho : ∀ c', c' ≠ c → (owed' = some c' ↔ owed = some c'))
    (hi : k'.links = 0 → k'.Kept cfg) : ConnInv cfg owed' (s.setConn c (some k')) := by
  -- What a record says of itself is the same before and after.
  have hold : ∀ c' (P : CConn → Prop), (c' = c → P k → P k') → (∃ x, s.conns c' = some x ∧ P x) →
      ∃ x, (s.setConn c (some k')).conns c' = some x ∧ P x := by
    rintro c' P hP ⟨x, hx, hPx⟩
    rw [conns_setConn]
    by_cases hcc : c' = c
    · subst hcc
      rw [hc] at hx
      cases hx
      exact ⟨k', if_pos rfl, hP rfl hPx⟩
    · exact ⟨x, by rw [if_neg hcc, hx], hPx⟩
  have hnew : ∀ c' x, (s.setConn c (some k')).conns c' = some x →
      (c' = c ∧ x = k') ∨ (c' ≠ c ∧ s.conns c' = some x) := by
    intro c' x hx
    rw [conns_setConn] at hx
    split at hx
    · rename_i hcc
      cases hx
      exact .inl ⟨hcc, rfl⟩
    · rename_i hcc
      exact .inr ⟨hcc, hx⟩
  constructor
  case links =>
    intro c' x hx
    rw [count_setConn]
    obtain ⟨rfl, rfl⟩ | ⟨hcc, hx⟩ := hnew c' x hx
    · exact hl
    · simp only [h.links c' x hx, ho c' hcc]
  case chan =>
    intro c' x hx
    obtain ⟨rfl, rfl⟩ | ⟨-, hx⟩ := hnew c' x hx
    · rw [ha.channel, ha.global, ha.netcon, ha.nd, ha.pid, ha.chid]
      exact h.chan c' k hc
    · exact h.chan c' x hx
  case client =>
    intro q d j c' hs
    refine hold c' (fun x => x.process = some q) ?_ (h.client q d j c' hs)
    rintro rfl hq
    obtain hp | hp := hp
    · rw [hp, hq]
    · exact absurd hs (hp q d j)
  case server =>
    intro q d j c' hs
    obtain ⟨hd, hx⟩ := h.server q d j c' hs
    exact ⟨hd, hold c' _ (fun _ => ha.served.mpr) hx⟩
  case served =>
    intro c' x q j hx hsv
    obtain ⟨rfl, rfl⟩ | ⟨-, hx⟩ := hnew c' x hx
    · exact h.served c' k q j hc (ha.served.mp hsv)
    · exact h.served c' x q j hx hsv
  case master =>
    intro c' x m hx hm
    have hx' : x.global = false ∧ c' ∈ s.next m ∧
        ∃ km, s.conns m = some km ∧ km.vconnect = none ∧ km.global = false := by
      obtain ⟨rfl, rfl⟩ | ⟨-, hx⟩ := hnew c' x hx
      · rw [ha.global]
        exact h.master c' k m hc (ha.vconnect ▸ hm)
      · exact h.master c' x m hx hm
    refine ⟨hx'.1, hx'.2.1, hold m (fun x => x.vconnect = none ∧ x.global = false) ?_ hx'.2.2⟩
    rw [ha.vconnect, ha.global]
    exact fun _ => id
  case virtual =>
    intro m c' hm
    refine hold c' (fun x => x.vconnect = some m) ?_ (h.virtual m c' hm)
    rw [ha.vconnect]
    exact fun _ => id
  case nodup => exact h.nodup
  case idle =>
    intro c' x hx h0
    obtain ⟨rfl, rfl⟩ | ⟨-, hx⟩ := hnew c' x hx
    · exact hi h0
    · exact h.idle c' x hx h0
  case threads => exact h.threads
  case queued =>
    intro x hx
    refine hold x.cop (fun k => k.global = true → x.reply = false ∧
      s.slot x.process x.side x.coid = some ⟨x.cop, false⟩) ?_ (h.queued x hx)
    rw [ha.global]
    exact fun _ => id

theorem next_erase (hv : k.vconnect = none) (m : Nat) : s.next m = (s.next m).erase c := by
  refine (erase_of_not_mem fun hm => ?_).symm
  obtain ⟨k', hk', hv'⟩ := h.virtual m c hm
  rw [hc] at hk'
  cases hk'
  rw [hv] at hv'
  cases hv'

theorem free {owed' : Option Nat} {s' : ConnSt} (h0 : s.count c k = 0)
    (hconns : ∀ c', s'.conns c' = if c' = c then none else s.conns c')
    (hnext : ∀ m, s'.next m = (s.next m).erase c) (hbl : s'.blocked = s.blocked)
    (hslot : ∀ p b i e, s'.slot p b i = some e ↔ s.slot p b i = some e ∧ e ≠ ⟨c, true⟩)
    (hrefs : ∀ c' o, s'.clientRefs c' o = s.clientRefs c' o)
    (ho : ∀ c', c' ≠ c → (if owed' = some c' then 1 else 0) =
      (if owed = some c' then 1 else 0) + if k.vconnect = some c' then 1 else 0) :
    ConnInv cfg owed' s' := by
  obtain ⟨hns, hnb, hnn⟩ := h.unreferred hc h0
  have hnew : ∀ c' x, s'.conns c' = some x → c' ≠ c ∧ s.conns c' = some x := by
    intro c' x hx
    rw [hconns] at hx
    split at hx
    · cases hx
    · rename_i hcc
      exact ⟨hcc, hx⟩
  have hold : ∀ c', c' ≠ c → s'.conns c' = s.conns c' := by
    intro c' hcc
    rw [hconns, if_neg hcc]
  have hmem : ∀ m, c ∈ s.next m ↔ k.vconnect = some m := by
    intro m
    constructor
    · intro hm
      obtain ⟨x, hx, hxm⟩ := h.virtual m c hm
      rw [hc] at hx
      cases hx
      exact hxm
    · intro hm
      exact (h.master c k m hc hm).2.1
  have hlen : ∀ m, (s'.next m).length + (if k.vconnect = some m then 1 else 0) =
      (s.next m).length := by
    intro m
    rw [hnext]
    split
    · rename_i hm
      have := length_pos_of_mem ((hmem m).mpr hm)
      rw [length_erase_of_mem ((hmem m).mpr hm)]
      omega
    rename_i hm
    rw [erase_of_not_mem (fun h' => hm ((hmem m).mp h'))]
    omega
  -- A master has a virtual connection, so it is not the one freed.
  have hmaster : ∀ m v, v ∈ s.next m → m ≠ c := by
    rintro m v hv rfl
    rw [hnn] at hv
    cases hv
  constructor
  case links =>
    intro c' x hx
    obtain ⟨hcc, hx⟩ := hnew c' x hx
    have hl := h.links c' x hx
    have hb : s'.blockedOn c' = s.blockedOn c' := by
      unfold blockedOn
      rw [hbl]
    have hn := hlen c'
    have hoc := ho c' hcc
    simp only [count, hrefs] at hl ⊢
    omega
  case chan =>
    intro c' x hx
    exact h.chan c' x (hnew c' x hx).2
  case client =>
    intro p b i c' hs
    obtain ⟨hs, -⟩ := (hslot p b i _).mp hs
    have hcc : c' ≠ c := by
      rintro rfl
      exact hns p b i hs
    rw [hold c' hcc]
    exact h.client p b i c' hs
  case server =>
    intro p b i c' hs
    obtain ⟨hs, hne⟩ := (hslot p b i _).mp hs
    have hcc : c' ≠ c := by
      rintro rfl
      exact hne rfl
    rw [hold c' hcc]
    exact h.server p b i c' hs
  case served =>
    intro c' x p i hx hsv
    obtain ⟨hcc, hx⟩ := hnew c' x hx
    refine (hslot p true i _).mpr ⟨h.served c' x p i hx hsv, ?_⟩
    intro heq
    cases heq
    exact hcc rfl
  case master =>
    intro c' x m hx hm
    obtain ⟨hcc, hx⟩ := hnew c' x hx
    obtain ⟨hg, hmem', hkm⟩ := h.master c' x m hx hm
    rw [hnext, hold m (hmaster m c' hmem')]
    exact ⟨hg, (mem_erase_of_ne hcc).mpr hmem', hkm⟩
  case virtual =>
    intro m c' hm
    rw [hnext] at hm
    have hcc : c' ≠ c := by
      rintro rfl
      exact (h.nodup m).not_mem_erase hm
    rw [hold c' hcc]
    exact h.virtual m c' (mem_of_mem_erase hm)
  case nodup =>
    intro m
    rw [hnext]
    exact (h.nodup m).erase c
  case idle =>
    intro c' x hx
    exact h.idle c' x (hnew c' x hx).2
  case threads =>
    rw [hbl]
    exact h.threads
  case queued =>
    intro x hx
    rw [hbl] at hx
    obtain ⟨kx, hkx, hgl⟩ := h.queued x hx
    refine ⟨kx, by rw [hold x.cop (hnb x hx), hkx], ?_⟩
    intro hg
    obtain ⟨hr, hs⟩ := hgl hg
    exact ⟨hr, (hslot _ _ _ _).mpr ⟨hs, by simp⟩⟩

end

theorem alloc {s' : ConnSt} (hc : s.conns c = none) (hl : k.links = 1)
    (hchan : ∃ chp, k.channel = some chp ∧ k.global = cfg.global chp ∧
      (k.netcon = false → cfg.chan k.nd k.pid k.chid = some chp))
    (hm : ∀ m, k.vconnect = some m → k.global = false ∧
      ∃ km, s.conns m = some km ∧ km.vconnect = none ∧ km.global = false)
    (hconns : ∀ c', s'.conns c' = if c' = c then some k else s.conns c')
    (hnext : ∀ m, s'.next m = if k.vconnect = some m then c :: s.next m else s.next m)
    (hbl : s'.blocked = s.blocked)
    (hslot : ∀ p b i e, s'.slot p b i = some e ↔
      s.slot p b i = some e ∨ b = true ∧ e = ⟨c, true⟩ ∧ k.Served cfg p i)
    (hrefs : ∀ c' o, s'.clientRefs c' o = s.clientRefs c' o)
    (ho : ∀ c', c' ≠ c → (owed = some c' ↔ k.vconnect = some c')) :
    ConnInv cfg (some c) s' := by
  obtain ⟨hns, hnb, hnn, hnm⟩ := h.unallocated hc
  have hold : ∀ c' x, s.conns c' = some x → c' ≠ c ∧ s'.conns c' = some x := by
    intro c' x hx
    have hcc : c' ≠ c := by
      rintro rfl
      simp [hc] at hx
    exact ⟨hcc, by rw [hconns, if_neg hcc, hx]⟩
  have hnew : ∀ c' x, s'.conns c' = some x → (c' = c ∧ x = k) ∨ (c' ≠ c ∧ s.conns c' = some x) := by
    intro c' x hx
    rw [hconns] at hx
    split at hx
    · rename_i hcc
      cases hx
      exact .inl ⟨hcc, rfl⟩
    · rename_i hcc
      exact .inr ⟨hcc, hx⟩
  have hb : ∀ c', s'.blockedOn c' = s.blockedOn c' := by
    intro c'
    unfold blockedOn
    rw [hbl]
  have hself : k.vconnect ≠ some c := by
    intro hv
    obtain ⟨-, km, hkm, -⟩ := hm c hv
    simp [hc] at hkm
  constructor
  case links =>
    intro c' x hx
    obtain ⟨rfl, rfl⟩ | ⟨hcc, hx⟩ := hnew c' x hx
    · have h0 := h.count_unallocated hc x
      simp only [count, hrefs, hb, hnext, if_neg hself] at h0 ⊢
      simp [h0, hl]
    have hlx := h.links c' x hx
    have hcc' : ¬ (some c = some c') := by
      intro heq
      exact hcc (Option.some.inj heq).symm
    simp only [count, hrefs, hb, hnext, if_neg hcc', ho c' hcc] at hlx ⊢
    by_cases hv : k.vconnect = some c'
    · simp only [if_pos hv] at hlx ⊢
      omega
    · simp only [if_neg hv] at hlx ⊢
      exact hlx
  case chan =>
    intro c' x hx
    obtain ⟨rfl, rfl⟩ | ⟨-, hx⟩ := hnew c' x hx
    · exact hchan
    · exact h.chan c' x hx
  case client =>
    intro p b i c' hs
    obtain hs | ⟨-, heq, -⟩ := (hslot p b i _).mp hs
    · obtain ⟨x, hx, hp⟩ := h.client p b i c' hs
      exact ⟨x, (hold c' x hx).2, hp⟩
    · cases heq
  case server =>
    intro p b i c' hs
    obtain hs | ⟨hb, heq, hsv⟩ := (hslot p b i _).mp hs
    · obtain ⟨hb, x, hx, hsv⟩ := h.server p b i c' hs
      exact ⟨hb, x, (hold c' x hx).2, hsv⟩
    · cases heq
      exact ⟨hb, k, by rw [hconns, if_pos rfl], hsv⟩
  case served =>
    intro c' x p i hx hsv
    obtain ⟨rfl, rfl⟩ | ⟨-, hx⟩ := hnew c' x hx
    · exact (hslot p true i _).mpr (.inr ⟨rfl, rfl, hsv⟩)
    · exact (hslot p true i _).mpr (.inl (h.served c' x p i hx hsv))
  case master =>
    intro c' x m hx hv
    obtain ⟨rfl, rfl⟩ | ⟨-, hx⟩ := hnew c' x hx
    · obtain ⟨hg, km, hkm, hkm'⟩ := hm m hv
      refine ⟨hg, ?_, km, (hold m km hkm).2, hkm'⟩
      rw [hnext, if_pos hv]
      exact mem_cons_self
    obtain ⟨hg, hmem, km, hkm, hkm'⟩ := h.master c' x m hx hv
    refine ⟨hg, ?_, km, (hold m km hkm).2, hkm'⟩
    rw [hnext]
    split
    · exact mem_cons_of_mem _ hmem
    · exact hmem
  case virtual =>
    intro m c' hmem
    obtain ⟨rfl, hv⟩ | hmem : (c' = c ∧ k.vconnect = some m) ∨ c' ∈ s.next m := by
      rw [hnext] at hmem
      split at hmem
      · rename_i hv
        obtain rfl | hmem := mem_cons.mp hmem
        · exact .inl ⟨rfl, hv⟩
        · exact .inr hmem
      · exact .inr hmem
    · exact ⟨k, by rw [hconns, if_pos rfl], hv⟩
    · obtain ⟨x, hx, hv⟩ := h.virtual m c' hmem
      exact ⟨x, (hold c' x hx).2, hv⟩
  case nodup =>
    intro m
    rw [hnext]
    split
    · exact nodup_cons.mpr ⟨hnm m, h.nodup m⟩
    · exact h.nodup m
  case idle =>
    intro c' x hx h0
    obtain ⟨rfl, rfl⟩ | ⟨-, hx⟩ := hnew c' x hx
    · omega
    · exact h.idle c' x hx h0
  case threads =>
    rw [hbl]
    exact h.threads
  case queued =>
    intro x hx
    rw [hbl] at hx
    obtain ⟨kx, hkx, hgl⟩ := h.queued x hx
    refine ⟨kx, (hold x.cop kx hkx).2, ?_⟩
    intro hg
    obtain ⟨hr, hs⟩ := hgl hg
    exact ⟨hr, (hslot _ _ _ _).mpr (.inl hs)⟩

end

/-! ### Slots and threads -/

theorem process_of_eq {c' : Nat} {x : CConn} (hc : s.conns c = some k) (hp : k.process = some p)
    (hx : s.conns c' = some x) (e : c = c') : x.process = some p := by
  subst e
  rw [hc] at hx
  cases hx
  exact hp

theorem addSlot (h : ConnInv cfg (some c) s) (hc : s.conns c = some k) (hp : k.process = some p)
    (hfree : s.slot p b i = none) : ConnInv cfg none (s.vectorAdd p b i ⟨c, false⟩) := by
  have hkeep : ∀ q d j e, s.slot q d j = some e →
      (s.vectorAdd p b i ⟨c, false⟩).slot q d j = some e := by
    intro q d j e hs
    rw [slot_vectorAdd, if_neg, hs]
    rintro ⟨rfl, rfl, rfl⟩
    rw [hfree] at hs
    cases hs
  refine { h with
    links := ?links, client := ?client, server := ?server, served := ?served
    queued := ?queued }
  case links =>
    intro c' x hx
    have hl := h.links c' x hx
    have hn : (s.vectorAdd p b i ⟨c, false⟩).blockedOn c' = s.blockedOn c' := rfl
    have hr : (s.vectorAdd p b i ⟨c, false⟩).clientRefs c' x.process =
        s.clientRefs c' x.process + if c = c' then 1 else 0 := by
      simp [clientRefs_vectorAdd hfree, and_iff_right_of_imp (process_of_eq hc hp hx)]
    simp only [count, Option.some.injEq, reduceCtorEq, if_false] at hl ⊢
    have hnx : (s.vectorAdd p b i ⟨c, false⟩).next c' = s.next c' := rfl
    rw [hnx]
    omega
  case client =>
    intro q d j c' hs
    rw [slot_vectorAdd] at hs
    split at hs
    · rename_i heq
      cases hs
      exact ⟨k, hc, by rw [hp, heq.1]⟩
    · exact h.client q d j c' hs
  case server =>
    intro q d j c' hs
    rw [slot_vectorAdd] at hs
    split at hs
    · cases hs
    · exact h.server q d j c' hs
  case served =>
    intro c' x q j hx hsv
    exact hkeep _ _ _ _ (h.served c' x q j hx hsv)
  case queued =>
    intro x hx
    obtain ⟨kx, hkx, hgl⟩ := h.queued x hx
    refine ⟨kx, hkx, ?_⟩
    intro hg
    exact ⟨(hgl hg).1, hkeep _ _ _ _ (hgl hg).2⟩

theorem reblock {owed' : Option Nat} {l : List CBlocked} (h : ConnInv cfg owed s)
    (hthr : (l.map CBlocked.thp).Nodup)
    (hq : ∀ x ∈ l, ∃ k, s.conns x.cop = some k ∧ (k.global = true →
      x.reply = false ∧ s.slot x.process x.side x.coid = some ⟨x.cop, false⟩))
    (hn : ∀ c, l.countP (fun x => decide (x.cop = c)) + (if owed' = some c then 1 else 0) =
      s.blockedOn c + if owed = some c then 1 else 0) :
    ConnInv cfg owed' { s with blocked := l } := by
  refine { h with links := ?links, threads := ?threads, queued := ?queued }
  case links =>
    intro c x hx
    have hl := h.links c x hx
    have hr : ({ s with blocked := l } : ConnSt).clientRefs c x.process =
        s.clientRefs c x.process := by
      cases x.process <;> rfl
    have hn := hn c
    have hb : ({ s with blocked := l } : ConnSt).blockedOn c =
        l.countP (fun x => decide (x.cop = c)) := rfl
    simp only [count, hr, hb] at hl ⊢
    omega
  case threads => exact hthr
  case queued => exact hq

section

variable (h : ConnInv cfg none s)
include h

theorem remSlot (hs : s.slot p b i = some ⟨c, false⟩)
    (hq : ∀ x ∈ s.blocked, x.cop = c → x.process = p → x.side = b → x.coid = i → x.reply = true) :
    ConnInv cfg (some c) (s.vectorRem p b i) := by
  have hkeep : ∀ q d j e, (s.vectorRem p b i).slot q d j = some e → s.slot q d j = some e := by
    intro q d j e hs'
    rw [slot_vectorRem] at hs'
    split at hs'
    · cases hs'
    · exact hs'
  obtain ⟨k, hc, hp⟩ := h.client p b i c hs
  refine { h with
    links := ?links, client := ?client, server := ?server, served := ?served
    queued := ?queued }
  case links =>
    intro c' x hx
    have hl := h.links c' x hx
    have hn : (s.vectorRem p b i).blockedOn c' = s.blockedOn c' := rfl
    have hnx : (s.vectorRem p b i).next c' = s.next c' := rfl
    have hr : (s.vectorRem p b i).clientRefs c' x.process + (if c = c' then 1 else 0) =
        s.clientRefs c' x.process := by
      rw [← clientRefs_vectorRem (s := s) (p := p) (b := b) (i := i), hs]
      simp [and_iff_right_of_imp (process_of_eq hc hp hx)]
    simp only [count, hnx, Option.some.injEq, reduceCtorEq, if_false] at hl ⊢
    omega
  case client =>
    intro q d j c' hs'
    exact h.client q d j c' (hkeep _ _ _ _ hs')
  case server =>
    intro q d j c' hs'
    exact h.server q d j c' (hkeep _ _ _ _ hs')
  case served =>
    intro c' x q j hx hsv
    have hsl := h.served c' x q j hx hsv
    rw [slot_vectorRem, if_neg, hsl]
    rintro ⟨rfl, rfl, rfl⟩
    rw [hs] at hsl
    cases hsl
  case queued =>
    intro x hx
    obtain ⟨kx, hkx, hgl⟩ := h.queued x hx
    refine ⟨kx, hkx, ?_⟩
    intro hg
    obtain ⟨hr, hsx⟩ := hgl hg
    refine ⟨hr, ?_⟩
    rw [slot_vectorRem, if_neg, hsx]
    rintro ⟨rfl, rfl, rfl⟩
    rw [hs] at hsx
    cases hsx
    have := hq x hx rfl rfl rfl rfl
    rw [hr] at this
    cases this

theorem remBlocked {x : CBlocked} (hx : x ∈ s.blocked) :
    ConnInv cfg (some x.cop) { s with blocked := s.blocked.erase x } := by
  apply h.reblock
  · exact h.threads.sublist (erase_sublist.map _)
  · intro y hy
    exact h.queued y (mem_of_mem_erase hy)
  · intro c
    have hp := perm_cons_erase hx
    have := hp.countP_eq (fun y => decide (y.cop = c))
    rw [countP_cons] at this
    simp only [blockedOn, this, Option.some.injEq, decide_eq_true_eq]
    rfl

theorem receive {x : CBlocked} (hg : s.isGlobal x.cop = false) :
    ConnInv cfg none (s.receive x) := by
  apply h.reblock
  · rw [map_map]
    have heq : s.blocked.map (CBlocked.thp ∘ fun y => if y = x then { y with reply := true } else y) =
        s.blocked.map CBlocked.thp := by
      apply map_congr_left
      intro y _
      simp only [comp_apply]
      split <;> rfl
    rw [heq]
    exact h.threads
  · intro y hy
    obtain ⟨z, hz, rfl⟩ := mem_map.mp hy
    obtain ⟨kz, hkz, hgl⟩ := h.queued z hz
    split
    · rename_i heq
      subst heq
      refine ⟨kz, hkz, ?_⟩
      intro hg'
      simp [isGlobal, hkz, hg'] at hg
    · exact ⟨kz, hkz, hgl⟩
  · intro c
    rw [countP_map]
    apply countP_congr
    intro y _
    simp only [comp_apply]
    split <;> rfl

end

theorem addBlocked {x : CBlocked} (h : ConnInv cfg (some x.cop) s)
    (hc : s.conns x.cop = some k) (hthr : ∀ y ∈ s.blocked, y.thp ≠ x.thp)
    (hg : k.global = true →
      x.reply = false ∧ s.slot x.process x.side x.coid = some ⟨x.cop, false⟩) :
    ConnInv cfg none { s with blocked := x :: s.blocked } := by
  apply h.reblock
  · rw [map_cons, nodup_cons]
    refine ⟨?_, h.threads⟩
    intro hmem
    obtain ⟨y, hy, heq⟩ := mem_map.mp hmem
    exact hthr y hy heq
  · exact forall_mem_cons.mpr ⟨⟨k, hc, hg⟩, h.queued⟩
  · simp [countP_cons, blockedOn]

end ConnInv

end Qnx.Ker
