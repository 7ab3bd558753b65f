import Qnx.Ker.Attach

/-!
# What a failed `ker_connect_attach` leaves

Every exit with an error undoes what was entered before it, except one: a network connection
refused on a global channel stays on the channel's list.
-/

namespace Qnx.Ker.Attach

open Vec Function Option

def St.words (s : St) (x : Nat × Bool × Nat) : Option Nat := (s.vec x.1 x.2.1).used x.2.2

def St.Sound (s : St) : Prop := ∀ p side, (s.vec p side).Sound

/-- The vectors, the connections with their links and next pointers, the channels with their
lists, the descriptor counts and the number of connections are as they were. -/
structure Unchanged (s s' : St) : Prop where
  words : s'.words = s.words
  obj : s'.obj = s.obj
  nfds : ∀ p, (s'.proc p).nfds = (s.proc p).nfds
  used : s'.used = s.used

theorem Unchanged.refl (s : St) : Unchanged s s := ⟨rfl, rfl, fun _ => rfl, rfl⟩

theorem undo {α β : Type} [DecidableEq α] {W : α → Option β} {x : α} (v : Option β)
    (h : W x = none) : update (update W x v) x none = W := by
  rw [update_idem, ← h, update_eq_self]

structure Vectors (s s1 : St) : Prop where
  sound : s1.Sound
  obj : s1.obj = s.obj
  nfds : ∀ p, (s1.proc p).nfds = (s.proc p).nfds
  used : s1.used = s.used

section Vector
variable {s : St} {p : Nat} {side : Bool} {v : Vec}

theorem vec_setVec_self : (s.setVec p side v).vec p side = v := by
  cases side <;> simp [St.vec, St.setVec]

theorem vec_setVec_ne {q : Nat} {b : Bool} (h : ¬(q = p ∧ b = side)) :
    (s.setVec p side v).vec q b = s.vec q b := by
  by_cases hq : q = p
  · cases side <;> cases b <;> simp_all [St.vec, St.setVec]
  · simp [St.vec, St.setVec, hq]

theorem vectors_setVec (h : s.Sound) (hv : v.Sound) : Vectors s (s.setVec p side v) where
  sound q b := by
    by_cases hc : q = p ∧ b = side
    · obtain ⟨rfl, rfl⟩ := hc
      rwa [vec_setVec_self]
    · rw [vec_setVec_ne hc]
      exact h q b
  obj := rfl
  nfds q := by
    by_cases hq : q = p
    · subst hq
      cases side <;> simp [St.setVec]
    · simp [St.setVec, hq]
  used := rfl

theorem words_setVec {i : Nat} {w : Option Nat} (hv : v.used = update (s.vec p side).used i w) :
    (s.setVec p side v).words = update s.words (p, side, i) w := by
  funext ⟨q, b, j⟩
  by_cases hc : q = p ∧ b = side
  · obtain ⟨rfl, rfl⟩ := hc
    simp only [St.words, vec_setVec_self, hv, update_apply, Prod.mk.injEq, true_and]
  have hne : (q, b, j) ≠ (p, side, i) := fun e => by
    simp only [Prod.mk.injEq] at e
    exact hc ⟨e.1, e.2.1⟩
  rw [update_of_ne hne]
  simp only [St.words, vec_setVec_ne hc]

theorem words_setVec_same (hv : v.used = (s.vec p side).used) :
    (s.setVec p side v).words = s.words := by
  rw [words_setVec (i := 0) (w := (s.vec p side).used 0) (by rw [hv, update_eq_self])]
  exact update_eq_self (p, side, 0) s.words

theorem add_cases (p : Nat) (side : Bool) (h : s.Sound) {a index : Nat} {alloc : Option Nat}
    (ho : Holdable a)
    (hidx : index + 1 < 2 ^ 32) (halloc : Scalloc alloc) :
    ∃ s1, Vectors s s1 ∧ ((s.add p side a index alloc = some (s1, none) ∧ s1.words = s.words) ∨
      ∃ i, s.add p side a index alloc = some (s1, some i) ∧ s.words (p, side, i) = none ∧
        s1.words = update s.words (p, side, i) (some a)) := by
  obtain ⟨v', hs, hc⟩ := (h p side).vectorAdd ho hidx halloc
  refine ⟨s.setVec p side v', vectors_setVec h hs, ?_⟩
  unfold St.add
  rcases hc with ⟨he, hw⟩ | ⟨i, he, hi, hw, -⟩
  · exact .inl ⟨by rw [he]; rfl, words_setVec_same hw⟩
  · exact .inr ⟨i, by rw [he]; rfl, hi, words_setVec hw⟩

theorem rem_eq (p : Nat) (side : Bool) (h : s.Sound) (i : Nat) :
    ∃ s1, s.rem p side i = some s1 ∧ Vectors s s1 ∧
    s1.words = update s.words (p, side, i) none := by
  obtain ⟨v', o, he, hs, hw⟩ := (h p side).vectorRem i
  exact ⟨s.setVec p side v', by unfold St.rem; rw [he]; rfl, vectors_setVec h hs, words_setVec hw⟩

end Vector

/-- In the middle of the call: a connection is allocated at `cop`, nothing else has changed but
the vectors. -/
structure Midway (cop : Nat) (s s1 : St) : Prop where
  sound : s1.Sound
  obj : ∀ a, a ≠ cop → s1.obj a = s.obj a
  nfds : ∀ p, (s1.proc p).nfds = (s.proc p).nfds
  used : s1.used = s.used + 1

variable {s s1 : St} {cop : Nat}

theorem midway_alloc (h : s.Sound) (cop : Nat) : Midway cop s (s.alloc cop) where
  sound := h
  obj a ha := by simp [St.alloc, St.setObj, ha]
  nfds _ := rfl
  used := rfl

theorem Midway.vectors {s2 : St} (h : Midway cop s s1) (hv : Vectors s1 s2) : Midway cop s s2 where
  sound := hv.sound
  obj a ha := by rw [hv.obj, h.obj a ha]
  nfds p := (hv.nfds p).trans (h.nfds p)
  used := hv.used.trans h.used

theorem Midway.modConn (h : Midway cop s s1) (f : Conn → Conn) :
    Midway cop s (s1.modConn cop f) ∧ (s1.modConn cop f).words = s1.words := by
  unfold St.modConn
  split
  · exact ⟨⟨h.sound, fun a ha => by simp [St.setObj, ha, h.obj a ha], h.nfds, h.used⟩, rfl⟩
  · exact ⟨h, rfl⟩

theorem Midway.free (h : Midway cop s s1) (hnew : s.obj cop = none)
    (hw : s1.words = s.words) : Unchanged s (s1.free cop) where
  words := hw
  obj := by
    funext a
    by_cases ha : a = cop
    · subst ha
      simp [St.free, St.setObj, hnew]
    · simp [St.free, St.setObj, ha, h.obj a ha]
  nfds := h.nfds
  used := by simp [St.free, h.used]

section Exits
variable {cfg : Cfg} {s s' : St} {act : Nat} {k : Kap} {e : Env} {err : Errno}

/-- `object_alloc` returns an object not in use, `_scalloc` a block that fits, and the words of the
call are 32 bits. -/
structure Env.Ok (s : St) (act : Nat) (e : Env) : Prop where
  object : ∀ cop ∈ e.object, Holdable cop ∧ s.obj cop = none
  client : Scalloc e.client
  server : Scalloc e.server
  nofile : (s.proc act).nofile < 2 ^ 32

theorem slot_lt (hn : (s.proc act).nofile < 2 ^ 32)
    (hk : ¬(k.side = false ∧ (s.proc act).nofile ≤ k.index)) : k.slot + 1 < 2 ^ 32 := by
  unfold Kap.slot
  split
  · decide
  rename_i hs
  have : ¬ (s.proc act).nofile ≤ k.index := fun hle => hk ⟨by simpa using hs, hle⟩
  omega

variable {cop prps chp pid coid : Nat} {s1 : St} {chan : Chan} {master : Option Nat}

theorem attachSame_unchanged (h : s.Sound) (he : e.Ok s act) (hc : Holdable cop)
    (hslot : k.slot + 1 < 2 ^ 32)
    (hr : attachSame s act k cop e = some (s', .error err)) : Unchanged s s' := by
  unfold attachSame at hr
  obtain ⟨s1, hv, ⟨ha, hw⟩ | ⟨i, ha, hi, hw⟩⟩ := add_cases act k.side h hc hslot he.client
  · rw [ha] at hr
    cases hr
    exact ⟨hw, hv.obj, hv.nfds, hv.used⟩
  rw [ha, bind_some] at hr
  dsimp only at hr
  split at hr
  · obtain ⟨s2, hrem, hv2, hw2⟩ := rem_eq act k.side hv.sound i
    rw [hrem] at hr
    cases hr
    refine ⟨?_, hv2.obj.trans hv.obj, fun p => (hv2.nfds p).trans (hv.nfds p),
      hv2.used.trans hv.used⟩
    rw [hw2, hw, undo _ hi]
  · cases hr

def St.Linked (s : St) : Prop :=
  ∀ a c, s.obj a = some (.chan c) → ∀ cop ∈ c.cons, s.obj cop ≠ none

section

variable (hnew : s.obj cop = none) (hx : s.words (act, k.side, coid) = none)
  (hw1 : s1.words = update s.words (act, k.side, coid) (some cop))
include hnew hx hw1

theorem attachEnd_unchanged {s2 : St} {scoid : Nat} (hm : Midway cop s s2)
    (hy : s1.words (prps, true, scoid) = none)
    (hw2 : s2.words = update s1.words (prps, true, scoid) (some cop))
    (hr : attachEnd cfg act k prps chp pid cop coid scoid s2 = some (s', .error err)) :
    Unchanged s s' := by
  unfold attachEnd at hr
  split at hr
  · obtain ⟨s3, he3, hv3, hw3⟩ := rem_eq prps true hm.sound scoid
    obtain ⟨s4, he4, hv4, hw4⟩ := rem_eq act k.side hv3.sound coid
    rw [he3, bind_some, he4] at hr
    cases hr
    refine ((hm.vectors hv3).vectors hv4).free hnew ?_
    rw [hw4, hw3, hw2, undo _ hy, hw1, undo _ hx]
  · cases hr

theorem enter_unchanged (hm : Midway cop s s1) (he : e.Ok s act) (hc : Holdable cop)
    (hg : chan.global = false) (hmaster : k.flags.netcon = true → master = none)
    (hr : enter cfg act k prps chp pid cop coid chan master e s1 = some (s', .error err)) :
    Unchanged s s' := by
  unfold enter at hr
  simp only [hg, Bool.false_eq_true, if_false] at hr
  cases master with
  | some m =>
    -- the scan was made, so the last refusal does not apply
    have hn : refused cfg act k = false := by
      have : k.flags.netcon = false := by
        by_contra hn
        exact absurd (hmaster (by simpa using hn)) (by simp)
      simp [refused, this]
    dsimp only at hr
    split at hr
    · simp [attachEnd, hn, finish] at hr
    · cases hr
  | none =>
    obtain ⟨s2, hv, ⟨ha, hw⟩ | ⟨scoid, ha, hy, hw⟩⟩ :=
      add_cases prps true hm.sound hc (by decide : 1 + 1 < 2 ^ 32) he.server
    · rw [ha, bind_some] at hr
      dsimp only at hr
      obtain ⟨s3, he3, hv3, hw3⟩ := rem_eq act k.side hv.sound coid
      rw [he3] at hr
      cases hr
      refine ((hm.vectors hv).vectors hv3).free hnew ?_
      rw [hw3, hw, hw1, undo _ hx]
    · rw [ha] at hr
      obtain ⟨hm3, hw3⟩ := (hm.vectors hv).modConn fun c =>
        if chan.async then { { c with next := none } with cd := k.cd, sendqSize := e.sendqSize }
        else { c with next := none }
      exact attachEnd_unchanged hnew hx hw1 hm3 hy (hw3.trans hw) hr

end

theorem enter_global (hm : Midway cop s s1) (hne : chp ≠ cop) (hg : chan.global = true)
    (hr : enter cfg act k prps chp pid cop coid chan master e s1 = some (s', .error err)) :
    refused cfg act k = true ∧ s'.obj chp = some (.chan { chan with cons := some cop }) := by
  unfold enter at hr
  simp only [hg, if_true] at hr
  unfold attachEnd at hr
  split at hr
  · rename_i href
    refine ⟨href, ?_⟩
    generalize hs2 : St.modConn _ cop _ = s2 at hr
    have hobj : s2.obj chp = some (.chan { chan with cons := some cop }) := by
      rw [← hs2]
      unfold St.modConn
      split
      · simp [St.setObj, hne, hg]
      · simp [St.setObj, hg]
    have hsound : s2.Sound := by
      rw [← hs2]
      unfold St.modConn
      split
      · exact hm.sound
      · exact hm.sound
    obtain ⟨s3, he3, hv3, -⟩ := rem_eq prps true hsound 0
    obtain ⟨s4, he4, hv4, -⟩ := rem_eq act k.side hv3.sound coid
    rw [he3, bind_some, he4] at hr
    cases hr
    simp only [St.free, St.setObj, update_of_ne hne]
    rw [hv4.obj, hv3.obj, hobj]
  · cases hr

def named (cfg : Cfg) (s : St) (act : Nat) (k : Kap) : Option Chan :=
  match resolve cfg s act k with
  | .ok (_, chp, _) =>
    match s.obj chp with
    | some (.chan c) => some c
    | _ => none
  | .error _ => none

def clientSlot (s : St) (act : Nat) (k : Kap) (e : Env) (cop : Nat) : Option Nat :=
  (vectorAdd 2 (s.vec act k.side) cop k.slot e.client).bind Prod.snd

/-- A network connection to a global channel is asked for by a process that may not, at a time
when an object and a slot for it can be had. -/
structure RefusedGlobal (cfg : Cfg) (s : St) (act : Nat) (k : Kap) (e : Env) : Prop where
  refused : refused cfg act k = true
  channel : ∃ chan ∈ named cfg s act k, chan.global = true ∧ (chan.async = true → e.probe = true)
  room : ∃ cop ∈ e.object, ∃ coid ∈ clientSlot s act k e cop, beyond s act k coid = false

theorem attachNew_iff (hs : s.Sound) (hl : s.Linked) (he : e.Ok s act) (hslot : k.slot + 1 < 2 ^ 32)
    (hres : resolve cfg s act k = .ok (prps, chp, pid)) (hchan : s.obj chp = some (.chan chan))
    (hmaster : k.flags.netcon = true → master = none)
    (hr : attachNew cfg s act k prps chp pid chan master e = some (s', .error err)) :
    Unchanged s s' ↔ ¬RefusedGlobal cfg s act k e := by
  have hnamed : named cfg s act k = some chan := by simp [named, hres, hchan]
  -- an exit before the connection enters its channel
  have early : Unchanged s s' → (∀ cop ∈ e.object, ∀ coid ∈ clientSlot s act k e cop,
      beyond s act k coid = false → chan.async = true ∧ e.probe = false) →
      (Unchanged s s' ↔ ¬RefusedGlobal cfg s act k e) := by
    intro hu hno
    refine iff_of_true hu fun hrg => ?_
    obtain ⟨cop, hcop, coid, hcoid, hb⟩ := hrg.room
    obtain ⟨c, hc, -, hp⟩ := hrg.channel
    obtain rfl : chan = c := by simpa [hnamed] using hc
    obtain ⟨h1, h2⟩ := hno cop hcop coid hcoid hb
    simp [hp h1] at h2
  unfold attachNew at hr
  split at hr
  · rename_i hp
    cases hr
    exact early (.refl s) fun _ _ _ _ _ => hp
  rename_i hp
  split at hr
  · rename_i hobj
    cases hr
    exact early (.refl s) fun cop hc => by simp [hobj] at hc
  rename_i cop hobj
  obtain ⟨hc, hnew⟩ := he.object cop (by simp [hobj])
  have hmid := midway_alloc hs cop
  have hslotc : ∀ r, (s.alloc cop).add act k.side cop k.slot e.client = some r →
      clientSlot s act k e cop = r.2 := by
    intro r hadd
    obtain ⟨x, hx, rfl⟩ := map_eq_some_iff.mp hadd
    unfold clientSlot
    rw [show s.vec act k.side = (s.alloc cop).vec act k.side from rfl, hx]
    rfl
  have honly : ∀ c ∈ e.object, c = cop := fun c hc => by simpa [hobj, eq_comm] using hc
  obtain ⟨s1, hv, ⟨ha, hw⟩ | ⟨coid, ha, hx, hw⟩⟩ :=
    add_cases act k.side hmid.sound hc hslot he.client
  · have hnone := hslotc _ ha
    rw [ha] at hr
    cases hr
    refine early ((hmid.vectors hv).free hnew hw) fun c hc coid hcoid => ?_
    rw [honly c hc, hnone] at hcoid
    cases hcoid
  · have hsome := hslotc _ ha
    rw [ha, bind_some] at hr
    dsimp only at hr
    split at hr
    · rename_i hb
      obtain ⟨s2, he2, hv2, hw2⟩ := rem_eq act k.side hv.sound coid
      rw [he2] at hr
      cases hr
      refine early (((hmid.vectors hv).vectors hv2).free hnew ?_) fun c hc i hi hf => ?_
      · rw [hw2, hw, undo _ hx]
        rfl
      · rw [honly c hc, hsome] at hi
        cases hi
        simp [hb] at hf
    rename_i hb
    cases hg : chan.global with
    | false =>
      refine iff_of_true (enter_unchanged hnew hx hw (hmid.vectors hv) he hc hg hmaster hr) ?_
      intro hrg
      obtain ⟨c, hcm, hcg, -⟩ := hrg.channel
      obtain rfl : chan = c := by simpa [hnamed] using hcm
      simp [hg] at hcg
    | true =>
      have hne : chp ≠ cop := by
        rintro rfl
        simp [hnew] at hchan
      obtain ⟨href, hcons⟩ := enter_global (hmid.vectors hv) hne hg hr
      refine iff_of_false (fun hu => ?_) (not_not_intro ⟨href, ⟨chan, by simp [hnamed], hg, ?_⟩,
        cop, by simp [hobj], coid, by simp [hsome], by simpa using hb⟩)
      · -- the list of the channel did not hold the new connection
        rw [hu.obj, hchan] at hcons
        have hcc : chan.cons = some cop := by
          have := congrArg (fun o : Option Obj => match o with
            | some (.chan c) => c.cons
            | _ => none) hcons
          simpa using this
        exact hl chp chan hchan cop (by simp [hcc]) hnew
      · intro hasync
        by_contra hpf
        exact hp ⟨hasync, by simpa using hpf⟩

theorem scanVec_holdable {v : Vec} (hv : v.Sound) {f : Found}
    (hf : ∀ cop, f = .same cop → Holdable cop)
    (h : scanVec cfg s act k pid v f = .same cop) : Holdable cop := by
  obtain ⟨F, objs, hrep⟩ := hv
  unfold scanVec at h
  generalize List.range v.nentries = l at h
  induction l generalizing f with
  | nil => exact hf cop h
  | cons i l ih =>
    refine ih (fun c hc => ?_) h
    cases f with
    | same c' =>
      cases hc
      exact hf c rfl
    | master m =>
      simp only [scanSlot] at hc
      split at hc
      · cases hc
      have hlt := hrep.word (some i)
      rw [read_some] at hlt
      have hp := vecptr_eq hlt
      split at hc
      · split at hc
        · split at hc
          · cases hc
          · cases hc
            exact ⟨by omega, by omega, by omega⟩
        · cases hc
      · cases hc

theorem scan_holdable (hs : s.Sound) (h : scan cfg s act k pid = .same cop) :
    k.flags.netcon = false ∧ Holdable cop := by
  unfold scan at h
  split at h
  · cases h
  rename_i hn
  have hfd : ∀ c, scanVec cfg s act k pid (s.vec act false) (.master none) = .same c →
      Holdable c := fun c hc => scanVec_holdable (hs act false) (fun _ h0 => by cases h0) hc
  exact ⟨by simp at hn; exact hn.2, scanVec_holdable (hs act true) hfd h⟩

theorem scan_netcon {m : Option Nat} (h : scan cfg s act k pid = .master m)
    (hn : k.flags.netcon = true) : m = none := by
  unfold scan at h
  rw [if_pos (by simp [hn])] at h
  cases h
  rfl

/-- `ker_connect_attach` that fails leaves everything as it was, except where a network connection
to a global channel is refused last. -/
theorem attach_failed_iff (hs : s.Sound) (hl : s.Linked) (he : e.Ok s act)
    (hr : kerConnectAttach cfg s act k e = some (s', .error err)) :
    Unchanged s s' ↔ ¬RefusedGlobal cfg s act k e := by
  unfold kerConnectAttach at hr
  split at hr
  · rename_i hres
    cases hr
    refine iff_of_true (.refl s) fun hrg => ?_
    obtain ⟨c, hc, -⟩ := hrg.channel
    simp [named, hres] at hc
  rename_i prps chp pid hres
  have hslot : k.slot + 1 < 2 ^ 32 := by
    refine slot_lt he.nofile fun hbad => ?_
    unfold resolve at hres
    by_cases ho : k.flags.other = true
    · rw [if_pos ho] at hres
      cases hres
    · rw [if_neg ho, if_pos hbad] at hres
      cases hres
  split at hr
  · rename_i chan hchan
    split at hr
    · rename_i cop hscan
      obtain ⟨hn, hc⟩ := scan_holdable hs hscan
      refine iff_of_true (attachSame_unchanged hs he hc hslot hr) fun hrg => ?_
      have := hrg.refused
      simp [refused, hn] at this
    · rename_i m hscan
      exact attachNew_iff hs hl he hslot hres hchan (scan_netcon hscan) hr
  · cases hr

end Exits

def sampleCfg : Cfg where
  lookupPid := fun pid => some pid
  sameNode := fun nd nd' => decide (nd = nd')
  netPrp := some 1
  netChp := some 16

def sampleFlags : Flags := ⟨false, false, false, true, false, false, false, false⟩

def holding (a ptr : Nat) : Vec := ((vectorAdd 2 Vec.zeroed a 0 (some ptr)).map Prod.fst).getD .zeroed

/-- The channel at 16 is the one of global channel 0; slot 0 of process 3 holds a channel too. -/
def sample (global : Bool) : St where
  proc := fun p => ⟨p, false, 0, 100, .zeroed, if p = 3 then holding 24 0x5000 else .zeroed⟩
  obj := fun a => if a = 16 then some (.chan ⟨false, global, none⟩) else
    if a = 24 then some (.chan ⟨false, false, none⟩) else none
  chgblVector := holding 16 0x4000
  used := 0

def sampleEnv : Env := ⟨true, 0, some 32, some 0x1000, some 0x2000⟩

theorem sound_holding {a ptr : Nat} (ha : Holdable a) (hp : Scalloc (some ptr)) :
    (holding a ptr).Sound := by
  have hz : Vec.zeroed.Sound := ⟨[], _, Rep.zeroed⟩
  obtain ⟨v', hs, hc⟩ := hz.vectorAdd ha (by decide : 0 + 1 < 2 ^ 32) hp
  unfold holding
  rcases hc with ⟨he, -⟩ | ⟨i, he, -⟩
  · rw [he]
    exact hs
  · rw [he]
    exact hs

theorem sample_sound (global : Bool) : (sample global).Sound := by
  intro p side
  have hz : Vec.zeroed.Sound := ⟨[], _, Rep.zeroed⟩
  have hh : (holding 24 0x5000).Sound :=
    sound_holding ⟨by decide, by decide, by decide⟩ (by rintro _ ⟨⟩; decide)
  cases side
  · exact hz
  · show (if p = 3 then holding 24 0x5000 else Vec.zeroed).Sound
    split
    · exact hh
    · exact hz

theorem sample_linked (global : Bool) : (sample global).Linked := by
  intro a c h cop hc
  unfold sample at h
  dsimp only at h
  split at h
  · cases h
    cases hc
  split at h
  · cases h
    cases hc
  · cases h

theorem sampleEnv_ok (global : Bool) : Env.Ok (sample global) 2 sampleEnv where
  object := by
    rintro _ ⟨⟩
    exact ⟨⟨by decide, by decide, by decide⟩, by simp [sample]⟩
  client := by rintro _ ⟨⟩; decide
  server := by rintro _ ⟨⟩; decide
  nofile := by simp [sample]

def failedWith (err : Errno) (r : Option (St × Except Errno Nat)) : Bool :=
  match r with
  | some (_, .error x) => decide (x = err)
  | _ => false

theorem eq_of_failedWith (err : Errno) (r : Option (St × Except Errno Nat))
    (h : failedWith err r = true) : ∃ s', r = some (s', .error err) := by
  unfold failedWith at h
  split at h
  · exact ⟨_, by rw [of_decide_eq_true h]⟩
  · cases h

def remoteKap : Kap := ⟨5, 3, 0, 7, sampleFlags, 0⟩

/-- The connection was in both vectors already when it is refused, and is in neither after. -/
theorem attach_failed_iff_remote : ∃ s',
    kerConnectAttach sampleCfg (sample false) 2 remoteKap sampleEnv = some (s', .error .einval) ∧
    Unchanged (sample false) s' := by
  obtain ⟨s', hr⟩ := eq_of_failedWith .einval
    (kerConnectAttach sampleCfg (sample false) 2 remoteKap sampleEnv) (by decide +kernel)
  refine ⟨s', hr, (attach_failed_iff (sample_sound false) (sample_linked false)
    (sampleEnv_ok false) hr).mpr fun hrg => ?_⟩
  obtain ⟨c, hc, hg, -⟩ := hrg.channel
  cases hc
  cases hg

def globalKap : Kap := ⟨0, 3, sideChannel, 7, sampleFlags, 0⟩

/-- The freed connection is left on the channel's list, and slot 0 of the process is lost. -/
theorem refused_on_global_channel : ∃ s',
    kerConnectAttach sampleCfg (sample true) 2 globalKap sampleEnv = some (s', .error .einval) ∧
    s'.obj 32 = none ∧ s'.obj 16 = some (.chan ⟨false, true, some 32⟩) ∧
    (sample true).words (3, true, 0) = some 24 ∧ s'.words (3, true, 0) = none := by
  have hrun : (kerConnectAttach sampleCfg (sample true) 2 globalKap sampleEnv).any (fun r =>
      failedWith .einval (some r) && decide (r.1.obj 32 = none) &&
      decide (r.1.obj 16 = some (.chan ⟨false, true, some 32⟩)) &&
      decide (r.1.words (3, true, 0) = none)) = true := by decide +kernel
  cases hr : kerConnectAttach sampleCfg (sample true) 2 globalKap sampleEnv with
  | none => simp [hr] at hrun
  | some r =>
    simp only [hr, Option.any_some, Bool.and_eq_true, decide_eq_true_eq] at hrun
    obtain ⟨⟨⟨hf, h1⟩, h2⟩, h3⟩ := hrun
    obtain ⟨s', he⟩ := eq_of_failedWith .einval (some r) hf
    cases he
    exact ⟨s', rfl, h1, h2, by decide +kernel, h3⟩

end Qnx.Ker.Attach
