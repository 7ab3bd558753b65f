import Qnx.Ker.ConnectDrop
import Mathlib.Data.List.Nodup

/-!
# Runs over connections

Each call keeps the count of every connection, and none of them faults.
-/

namespace Qnx.Ker

open Slots Run Option
open List hiding count

namespace ConnSt

variable {s : ConnSt} {c : Nat} {k : CConn}

theorem addLink_eq (hc : s.conns c = some k) :
    s.addLink c = s.setConn c (some { k with links := k.links + 1 }) := by
  simp [addLink, hc]

theorem vectorRem_comm (s : ConnSt) (p q i j : Nat) (b d : Bool) :
    (s.vectorRem p b i).vectorRem q d j = (s.vectorRem q d j).vectorRem p b i := by
  simp only [vectorRem, mk.injEq, true_and, and_true]
  funext r f
  by_cases h : r = p ∧ f = b
  · by_cases h' : r = q ∧ f = d
    · simp only [if_pos h, if_pos h']
      exact clear_comm _ _ _
    · simp only [if_neg h']
  · simp only [if_neg h]

end ConnSt

open ConnSt

namespace ConnInv

variable {cfg : ConnCfg} {s : ConnSt} {c m p i : Nat} {b : Bool} {k : CConn} {x : CBlocked}

/-! ### Threads come out -/

theorem unblock (h : ConnInv cfg none s) (hx : x ∈ s.blocked) :
    ∃ s', s.unblock cfg x = some s' ∧ ConnInv cfg none s' ∧ s.Leaves s' ∧
      s'.blocked = s.blocked.erase x := by
  obtain ⟨k, hk, hgl⟩ := h.queued x hx
  have h1 := h.remBlocked hx
  have hg : k.global = true → 2 ≤ k.links := by
    -- The slot it was sent through still counts.
    intro hg
    obtain ⟨-, hs⟩ := hgl hg
    obtain ⟨k', hk', hp⟩ := h1.client _ _ _ _ hs
    obtain rfl : k' = k := by
      rw [hk] at hk'
      exact (some.inj hk').symm
    have hpos := clientRefs_pos.mpr ⟨_, _, hs⟩
    have hl := h1.links_owed hk
    simp only [count, hp] at hl
    have : ({ s with blocked := s.blocked.erase x } : ConnSt).clientRefs x.cop (some x.process) =
      s.clientRefs x.cop (some x.process) := rfl
    omega
  obtain ⟨s', hs', hinv, hleaves, hbl⟩ := h1.drop hk hg
  refine ⟨s', ?_, hinv, ⟨hleaves.clients, hleaves.idle⟩, hbl⟩
  rw [ConnSt.unblock, if_pos hx]
  exact hs'

theorem unblockAll {l : List CBlocked} (h : ConnInv cfg none s) (hl : ∀ x ∈ l, x ∈ s.blocked)
    (hnd : l.Nodup) :
    ∃ s', ConnSt.unblockAll cfg l s = some s' ∧ ConnInv cfg none s' ∧ s.Leaves s' ∧
      ∀ x ∈ s'.blocked, x ∈ s.blocked ∧ x ∉ l := by
  induction l generalizing s with
  | nil => exact ⟨s, rfl, h, .refl s, fun x hx => ⟨hx, by simp⟩⟩
  | cons y l ih =>
    obtain ⟨hy, hnd⟩ := nodup_cons.mp hnd
    obtain ⟨s1, hs1, hinv1, hleaves1, hbl1⟩ := h.unblock (hl y mem_cons_self)
    have hsub : ∀ x ∈ l, x ∈ s1.blocked := by
      intro x hx
      rw [hbl1, mem_erase_of_ne]
      · exact hl x (mem_cons_of_mem _ hx)
      · rintro rfl
        exact hy hx
    obtain ⟨s', hs', hinv, hleaves, hbl⟩ := ih hinv1 hsub hnd
    refine ⟨s', ?_, hinv, hleaves1.trans hleaves, ?_⟩
    · rw [ConnSt.unblockAll, hs1]
      exact hs'
    · intro x hx
      obtain ⟨hx1, hxl⟩ := hbl x hx
      rw [hbl1] at hx1
      refine ⟨mem_of_mem_erase hx1, ?_⟩
      have hxy : x ≠ y := by
        rintro rfl
        exact (List.Nodup.of_map _ h.threads).not_mem_erase hx1
      simp [hxy, hxl]

/-! ### `ker_connect_detach` -/

theorem forced_send {out : List Nat} (hx : x ∈ s.blocked) (hn : x ∉ s.forcedBy p b i c k out)
    (hp : x.process = p) (hb : x.side = b) (hi : x.coid = i) : x.reply = true := by
  cases hr : x.reply with
  | true => rfl
  | false =>
    exfalso
    apply hn
    simp [forcedBy, hx, hp, hb, hi, hr]

section

variable (h : ConnInv cfg none s)
include h

theorem detachClient (hs : s.slot p b i = some ⟨c, false⟩)
    (hq : ∀ x ∈ s.blocked, x.cop = c → x.process = p → x.side = b → x.coid = i → x.reply = true) :
    ∃ s', s.detachSlot cfg p b i c = some s' ∧ ConnInv cfg none s' := by
  have h1 := h.remSlot hs hq
  obtain ⟨k, hk, -⟩ := h.client p b i c hs
  have hk1 : (s.vectorRem p b i).conns c = some k := hk
  have hl := h1.links_owed hk1
  have hpos : k.links ≠ 0 := by omega
  simp only [detachSlot, hk1, if_neg hpos]
  by_cases hg : k.global = true
  · have hnv : ∀ m, k.vconnect ≠ some m := by
      intro m hv
      have := (h.master c k m hk hv).1
      rw [hg] at this
      cases this
    rw [if_pos hg]
    by_cases hl1 : k.links = 1
    · refine ⟨_, by rw [if_pos hl1], ?_⟩
      apply h1.free hk1 (by omega)
      · intro c'
        exact conns_setConn _
      · exact h1.next_erase hk1 (eq_none_iff_forall_ne_some.mpr hnv)
      · rfl
      · intro q d j e
        constructor
        · intro he
          refine ⟨he, ?_⟩
          rintro rfl
          obtain ⟨-, k', hk', hsv⟩ := h1.server q d j c he
          rw [hk1] at hk'
          cases hk'
          have := hsv.2.1
          rw [hg] at this
          cases this
        · exact fun he => he.1
      · intro c' o
        exact clientRefs_setConn _ _
      · intro c' hcc
        simp [Ne.symm hcc, hnv c']
    · obtain ⟨s', hs', hinv, -⟩ := h1.dropMore hk1 hl1
      simp only [dropLink, hk1, if_neg hpos, if_neg hl1] at hs'
      exact ⟨s', by rw [if_neg hl1, hs'], hinv⟩
  · rw [if_neg hg]
    obtain ⟨s', hs', hinv, -⟩ := h1.drop hk1 (fun h' => absurd h' hg)
    exact ⟨s', hs', hinv⟩

theorem detachServer (hs : s.slot p b i = some ⟨c, true⟩)
    (hk : s.conns c = some k) (h0 : k.links = 0) :
    ∃ s', s.detachSlot cfg p b i c = some s' ∧ ConnInv cfg none s' ∧ s'.conns c = none := by
  obtain ⟨rfl, k', hk', hsv⟩ := h.server p b i c hs
  rw [hk] at hk'
  cases hk'
  have hl := h.links c k hk
  have hk1 : (s.vectorRem p true i).conns c = some k := hk
  refine ⟨(s.vectorRem p true i).setConn c none, ?_, ?_, by simp⟩
  · simp only [detachSlot, hk1, if_pos h0]
  · apply h.free hk
    · omega
    · intro c'
      exact conns_setConn _
    · exact h.next_erase hk hsv.1
    · rfl
    · exact h.slot_served hk hsv
    · intro c' o
      exact clientRefs_vectorRem_server hs o
    · simp [hsv.1]

theorem forced_nodup (out : List Nat) : (s.forcedBy p b i c k out).Nodup :=
  (List.Nodup.of_map _ h.threads).filter _

theorem detach (out : List Nat) :
    ∃ s', s.connectDetachCall cfg p b i out = some s' ∧ ConnInv cfg none s' := by
  unfold connectDetachCall
  cases hs : s.slot p b i with
  | none => exact ⟨s, rfl, h⟩
  | some e =>
    obtain ⟨c, d⟩ := e
    obtain ⟨k, hk⟩ := ne_none_iff_exists'.mp fun hc => (h.unallocated hc).1 p b i d hs
    simp only [hk]
    by_cases hr : detachRefused cfg p b i k = true
    · exact ⟨s, by rw [if_pos hr], h⟩
    rw [if_neg hr]
    obtain ⟨s1, hs1, hinv1, hleaves, hbl⟩ := h.unblockAll
      (l := s.forcedBy p b i c k out) (fun x hx => mem_of_mem_filter hx)
      (h.forced_nodup out)
    rw [hs1]
    cases d with
    | false =>
      apply hinv1.detachClient (hleaves.clients p b i c hs)
      intro x hx _ hp hb hi
      obtain ⟨hx, hn⟩ := hbl x hx
      exact forced_send hx hn hp hb hi
    | true =>
      obtain ⟨rfl, k', hk', hsv⟩ := h.server p b i c hs
      rw [hk] at hk'
      cases hk'
      have h0 : k.links = 0 := by
        obtain ⟨chp, hchp, -⟩ := h.chan c k hk
        have hproc := hsv.2.2.2
        rw [hchp] at hproc
        simpa [detachRefused, hchp, some.inj hproc, hsv.2.2.1] using hr
      have hk1 := hleaves.idle c k hk h0
      obtain ⟨s', hs', hinv, -⟩ := hinv1.detachServer (hinv1.served c k p i hk1 hsv) hk1 h0
      exact ⟨s', hs', hinv⟩

theorem detach_kept (hk : s.conns c = some k) (h0 : k.links = 0)
    (hp : k.channel.map cfg.process = some p) (out : List Nat) :
    s.slot p true k.scoid = some ⟨c, true⟩ ∧
      ∃ s', s.connectDetachCall cfg p true k.scoid out = some s' ∧ s'.conns c = none := by
  obtain ⟨-, hv, hg, -⟩ := h.idle c k hk h0
  have hsv : k.Served cfg p k.scoid := ⟨hv, hg, rfl, hp⟩
  have hs := h.served c k p _ hk hsv
  refine ⟨hs, ?_⟩
  have hr : ¬ (detachRefused cfg p true k.scoid k = true) := by
    unfold detachRefused
    split <;> simp [h0]
  obtain ⟨s1, hs1, hinv1, hleaves, -⟩ := h.unblockAll
    (l := s.forcedBy p true k.scoid c k out) (fun x hx => mem_of_mem_filter hx)
    (h.forced_nodup out)
  have hk1 := hleaves.idle c k hk h0
  obtain ⟨s', hs', -, hfree⟩ := hinv1.detachServer (hinv1.served c k p _ hk1 hsv) hk1 h0
  refine ⟨s', ?_, hfree⟩
  simp only [connectDetachCall, hs, hk, if_neg hr, hs1]
  exact hs'

end

/-! ### Message passing -/

theorem addLink (h : ConnInv cfg none s) (hk : s.conns c = some k) :
    ConnInv cfg (some c) (s.addLink c) := by
  rw [addLink_eq hk]
  apply h.relink hk
  · exact ⟨rfl, rfl, rfl, rfl, rfl, rfl, rfl, rfl⟩
  · exact .inl rfl
  · have hl := h.links c k hk
    simp only [hl]
    rfl
  · intro c' hcc
    simp [Ne.symm hcc]
  · intro h0
    cases h0

theorem block {d : Bool} (h : ConnInv cfg none s)
    (hs : s.slot x.process x.side x.coid = some ⟨x.cop, d⟩) (hk : s.conns x.cop = some k)
    (hthr : ∀ y ∈ s.blocked, y.thp ≠ x.thp) (hr : k.global = true → x.reply = false) :
    ConnInv cfg none (s.block x) := by
  have hd : k.global = true → d = false := by
    intro hg
    cases d with
    | false => rfl
    | true =>
      obtain ⟨-, k', hk', hsv⟩ := h.server _ _ _ _ hs
      obtain rfl : k' = k := some.inj (hk'.symm.trans hk)
      cases hg.symm.trans hsv.2.1
  have h1 := h.addLink hk
  have hbl : (s.addLink x.cop).blocked = s.blocked := by
    rw [addLink_eq hk]
    rfl
  unfold ConnSt.block
  rw [← hbl]
  apply h1.addBlocked (k := { k with links := k.links + 1 })
  · simp [addLink_eq hk]
  · rw [hbl]
    exact hthr
  · intro hg
    refine ⟨hr hg, ?_⟩
    rw [addLink_eq hk, slot_setConn, hs, hd hg]

section

variable (h : ConnInv cfg none s)
include h

theorem kerMsgSendv {act : Nat} (hact : ∀ y ∈ s.blocked, y.thp ≠ act) (e : SendEnv) :
    ∃ s', s.kerMsgSendv act p b i e = some s' ∧ ConnInv cfg none s' := by
  unfold ConnSt.kerMsgSendv
  cases hs : s.slot p b i with
  | none => exact ⟨s, rfl, h⟩
  | some sl =>
    obtain ⟨c, d⟩ := sl
    obtain ⟨k, hk⟩ := ne_none_iff_exists'.mp fun hc => (h.unallocated hc).1 p b i d hs
    have hblock : ∀ reply, (k.global = true → reply = false) →
        ConnInv cfg none (s.block ⟨act, c, p, b, i, reply⟩) :=
      fun reply hr => h.block hs hk hact hr
    simp only [hk]
    split
    · exact ⟨s, rfl, h⟩
    split
    · refine ⟨_, rfl, ?_⟩
      unfold msgsendGbl
      split
      · exact h
      split
      · split
        · exact h
        · exact hblock false fun _ => rfl
      · exact h
    · rename_i hg
      split
      · exact ⟨s, rfl, h⟩
      split
      · split
        · exact ⟨s, rfl, h⟩
        · exact ⟨_, rfl, hblock true fun hg' => absurd hg' hg⟩
      split
      · exact ⟨s, rfl, h⟩
      · exact ⟨_, rfl, hblock false fun _ => rfl⟩

theorem unblock_waiting {t : Nat} (hw : s.waiting t = some x) :
    ∃ s', s.unblock cfg x = some s' ∧ ConnInv cfg none s' := by
  obtain ⟨s', hs', hinv, -⟩ := h.unblock (mem_of_find?_eq_some hw)
  exact ⟨s', hs', hinv⟩

theorem forceReady (t : Nat) (held : Bool) :
    ∃ s', s.forceReady cfg t held = some s' ∧ ConnInv cfg none s' := by
  unfold ConnSt.forceReady
  cases hw : s.waiting t with
  | none => exact ⟨s, rfl, h⟩
  | some x =>
    simp only
    split
    · exact ⟨s, rfl, h⟩
    · exact h.unblock_waiting hw

theorem kerMsgReceivev {head : Option Nat} {e : ReceiveEnv}
    (hok : (ConnOp.receive head e).Legal cfg s) :
    ∃ s', s.kerMsgReceivev cfg head e = some s' ∧ ConnInv cfg none s' := by
  unfold ConnSt.kerMsgReceivev
  cases hw : head.bind s.waiting with
  | none => exact ⟨s, rfl, h⟩
  | some x =>
    simp only
    split
    · exact h.forceReady x.thp false
    split
    · exact ⟨s, rfl, h⟩
    · exact ⟨_, rfl, h.receive (hok x hw).2⟩

theorem endReply (cop1 t : Nat) (specret : Bool) :
    ∃ s', s.endReply cfg cop1 t specret = some s' ∧ ConnInv cfg none s' := by
  unfold ConnSt.endReply
  cases hw : s.waiting t with
  | none => exact ⟨s, rfl, h⟩
  | some x =>
    simp only
    split
    · exact ⟨s, rfl, h⟩
    split
    · exact ⟨s, rfl, h⟩
    · exact h.unblock_waiting hw

end

/-! ### `ker_connect_attach` -/

def ScanOk (cfg : ConnCfg) (s : ConnSt) (a : AttachArgs) (chp : Nat) : Scan → Prop
  | .share c => ∃ k, s.conns c = some k ∧ k.process = some a.prpc
  | .fresh none => True
  | .fresh (some m) => a.netcon = false ∧
    ∃ km, s.conns m = some km ∧ km.vconnect = none ∧ km.global = cfg.global chp

theorem scanSlot_ok {a : AttachArgs} {chp : Nat} {r : Scan} (h : ConnInv cfg none s)
    (hchp : cfg.chan a.nd a.pid a.chid = some chp) (hnet : a.netcon = false)
    (hr : ScanOk cfg s a chp r) (e : Option CSlot) :
    ScanOk cfg s a chp (s.scanSlot cfg a r e) := by
  unfold scanSlot
  split
  · exact hr
  · exact hr
  rename_i m e
  split
  · rename_i k hk
    split
    · rename_i hmatch
      simp only [scanMatches, Bool.and_eq_true, decide_eq_true_eq, Bool.not_eq_true'] at hmatch
      obtain ⟨⟨⟨⟨⟨⟨hproc, -⟩, -⟩, hnc⟩, hpid⟩, hchid⟩, hnode⟩ := hmatch
      split
      · split
        · -- The first connection of another quality of service leads to the master.
          have hglob : k.global = cfg.global chp := by
            obtain ⟨chp', -, hg, hc⟩ := h.chan e.cop k hk
            have hc := hc hnc
            rw [hpid, hchid, cfg.chan_congr _ _ _ _ hnode, hchp] at hc
            rw [hg, some.inj hc]
          refine ⟨hnet, ?_⟩
          cases hv : k.vconnect with
          | none => exact ⟨k, hk, hv, hglob⟩
          | some m =>
            obtain ⟨hg, -, km, hkm, hkv, hkg⟩ := h.master e.cop k m hk hv
            exact ⟨km, hkm, hkv, by rw [hkg, ← hglob, hg]⟩
        · exact hr
      · exact ⟨k, hk, hproc⟩
    · exact hr
  · exact hr

theorem scan_ok {a : AttachArgs} {chp : Nat} (h : ConnInv cfg none s)
    (hchp : cfg.chan a.nd a.pid a.chid = some chp) : ScanOk cfg s a chp (s.scan cfg a) := by
  unfold scan
  split
  · trivial
  rename_i hns
  have hnet : a.netcon = false := by
    simp only [Bool.or_eq_true, not_or, Bool.not_eq_true] at hns
    exact hns.2
  have hfold : ∀ (l : List (Option CSlot)) (r : Scan), ScanOk cfg s a chp r →
      ScanOk cfg s a chp (l.foldl (s.scanSlot cfg a) r) := by
    intro l
    induction l with
    | nil => exact fun _ hr => hr
    | cons e l ih => exact fun r hr => ih _ (h.scanSlot_ok hchp hnet hr e)
  exact hfold _ _ trivial

variable {a : AttachArgs} {chp coid : Nat}

section

variable (h : ConnInv cfg none s)
include h

section

variable (hc : s.conns c = none)
include hc

section

variable (hchp : cfg.chan a.nd a.pid a.chid = some chp)
include hchp

theorem attachGlobal (hg : cfg.global chp = true) (hfree : s.slot a.prpc a.side coid = none) :
    ConnInv cfg none ((s.vectorAdd a.prpc a.side coid ⟨c, false⟩).setConn c
      (some (newConn cfg a chp 0 none))) := by
  have h1 : ConnInv cfg (some c) (s.setConn c (some (newConn cfg a chp 0 none))) := by
    apply h.alloc (k := newConn cfg a chp 0 none) hc rfl ⟨chp, rfl, rfl, fun _ => hchp⟩
    · intro m hm
      cases hm
    · intro c'
      exact conns_setConn _
    · intro m
      rfl
    · rfl
    · intro p b i e
      constructor
      · exact .inl
      · rintro (he | ⟨-, -, hsv⟩)
        · exact he
        · have := hsv.2.1
          simp [newConn, hg] at this
    · intro c' o
      exact clientRefs_setConn _ _
    · simp [newConn]
  exact h1.addSlot (k := newConn cfg a chp 0 none) (by simp) rfl hfree

theorem attachVirtual {sc : Nat} {km : CConn} (hg : cfg.global chp = false)
    (hfree : s.slot a.prpc a.side coid = none)
    (hkm : s.conns m = some km) (hkv : km.vconnect = none) (hkg : km.global = false) :
    ConnInv cfg none (((s.vectorAdd a.prpc a.side coid ⟨c, false⟩).linkVirtual m c).setConn c
      (some (newConn cfg a chp sc (some m)))) := by
  have hne : c ≠ m := by
    rintro rfl
    rw [hc] at hkm
    cases hkm
  have hlink : (s.vectorAdd a.prpc a.side coid ⟨c, false⟩).linkVirtual m c =
      (s.linkVirtual m c).vectorAdd a.prpc a.side coid ⟨c, false⟩ := by
    have h1 : (s.vectorAdd a.prpc a.side coid ⟨c, false⟩).conns m = some km := hkm
    simp only [linkVirtual, addLink_eq hkm, addLink_eq h1]
    rfl
  rw [hlink]
  have h1 : ConnInv cfg (some c)
      ((s.linkVirtual m c).setConn c (some (newConn cfg a chp sc (some m)))) := by
    apply (h.addLink hkm).alloc (k := newConn cfg a chp sc (some m))
    · rw [addLink_eq hkm, conns_setConn, if_neg hne, hc]
    · rfl
    · exact ⟨chp, rfl, rfl, fun _ => hchp⟩
    · rintro m' hm'
      cases hm'
      exact ⟨hg, { km with links := km.links + 1 }, by simp [addLink_eq hkm], hkv, hkg⟩
    · intro c'
      exact conns_setConn _
    · intro m'
      simp only [newConn, some.injEq]
      by_cases hmm : m = m'
      · subst hmm
        simp [linkVirtual, setConn]
      · rw [if_neg hmm]
        simp [linkVirtual, setConn, Function.update_of_ne (Ne.symm hmm)]
    · rfl
    · intro p b i e
      constructor
      · exact .inl
      · rintro (he | ⟨-, -, hsv⟩)
        · exact he
        · cases hsv.1
    · intro c' o
      rfl
    · simp [newConn]
  refine h1.addSlot (k := newConn cfg a chp sc (some m)) (by simp) rfl ?_
  rw [linkVirtual, addLink_eq hkm]
  exact hfree

section

variable {j : Nat} {s1 : ConnSt} (hg : cfg.global chp = false) (hps : cfg.process chp = a.prps)
  (hfree : s.slot a.prpc a.side coid = none) (hsfree : s.slot a.prps true j = none)
  (hne : ¬ (a.prps = a.prpc ∧ a.side = true ∧ j = coid))
  (hs1 : s1 = ((s.vectorAdd a.prpc a.side coid ⟨c, false⟩).vectorAdd a.prps true j
    ⟨c, true⟩).setConn c (some (newConn cfg a chp j none)))
include hg hps hfree hsfree hne hs1

theorem attachServed : ConnInv cfg none s1 := by
  subst hs1
  have hsv : ∀ p i, (newConn cfg a chp j none).Served cfg p i ↔ p = a.prps ∧ i = j := by
    intro p i
    simp only [CConn.Served, newConn, hg, hps, map_some, some.injEq, true_and]
    constructor
    · rintro ⟨rfl, rfl⟩
      exact ⟨rfl, rfl⟩
    · rintro ⟨rfl, rfl⟩
      exact ⟨rfl, rfl⟩
  have h1 : ConnInv cfg (some c) ((s.vectorAdd a.prps true j ⟨c, true⟩).setConn c
      (some (newConn cfg a chp j none))) := by
    apply h.alloc (k := newConn cfg a chp j none) hc rfl ⟨chp, rfl, rfl, fun _ => hchp⟩
    · intro m hm
      cases hm
    · intro c'
      exact conns_setConn _
    · intro m
      rfl
    · rfl
    · intro p b i e
      rw [slot_setConn, slot_vectorAdd, hsv]
      split
      · rename_i heq
        obtain ⟨rfl, rfl, rfl⟩ := heq
        simp [hsfree, eq_comm]
      rename_i heq
      constructor
      · exact .inl
      · rintro (he | ⟨rfl, -, rfl, rfl⟩)
        · exact he
        · exact absurd ⟨rfl, rfl, rfl⟩ heq
    · intro c' o
      exact clientRefs_vectorAdd_server hsfree o
    · simp [newConn]
  have hfree1 : (s.vectorAdd a.prps true j ⟨c, true⟩).slot a.prpc a.side coid = none := by
    rw [slot_vectorAdd, if_neg, hfree]
    rintro ⟨hp, hb, hj⟩
    exact hne ⟨hp.symm, hb, hj.symm⟩
  have hsfree1 : (s.vectorAdd a.prpc a.side coid ⟨c, false⟩).slot a.prps true j = none := by
    rw [slot_vectorAdd, if_neg, hsfree]
    rintro ⟨hp, hb, hj⟩
    exact hne ⟨hp, hb.symm, hj⟩
  have h2 := h1.addSlot (k := newConn cfg a chp j none) (by simp) rfl hfree1
  refine h2.congr rfl rfl rfl ?_ ?_
  · intro p b i
    simp only [slot_setConn, slot_vectorAdd]
    by_cases h' : p = a.prps ∧ b = true ∧ i = j
    · rw [if_pos h', if_neg, if_pos h']
      rintro ⟨rfl, rfl, rfl⟩
      exact hne ⟨h'.1.symm, h'.2.1, h'.2.2.symm⟩
    · rw [if_neg h', if_neg h']
  · intro c' o
    rw [clientRefs_setConn, clientRefs_vectorAdd hsfree1, clientRefs_vectorAdd hfree,
      clientRefs_vectorAdd (s := (s.vectorAdd a.prps true j ⟨c, true⟩).setConn c _) hfree1,
      clientRefs_setConn, clientRefs_vectorAdd hsfree]
    simp

theorem attachPlain : ConnInv cfg none (s1.attachFinish cfg a c coid j) := by
  have h1 := h.attachServed hc hchp hg hps hfree hsfree hne hs1
  obtain ⟨-, hnb, -, -⟩ := h.unallocated hc
  unfold attachFinish
  split
  · -- A refused network connection: both slots go again, and the connection with them.
    have hs : s1.slot a.prpc a.side coid = some ⟨c, false⟩ := by
      rw [hs1, slot_setConn, slot_vectorAdd, if_neg, slot_vectorAdd, if_pos ⟨rfl, rfl, rfl⟩]
      rintro ⟨hp, hb, hj⟩
      exact hne ⟨hp.symm, hb, hj.symm⟩
    have hk : (s1.vectorRem a.prpc a.side coid).conns c = some (newConn cfg a chp j none) := by
      rw [hs1]
      exact (conns_setConn _).trans (if_pos rfl)
    subst hs1
    have h2 := h1.remSlot hs (fun x hx hxc => absurd hxc (hnb x hx))
    have hsv : (newConn cfg a chp j none).Served cfg a.prps j := ⟨rfl, hg, rfl, congrArg some hps⟩
    have hl := h2.links_owed hk
    rw [vectorRem_comm]
    apply h2.free hk
    · have : (newConn cfg a chp j none).links = 1 := rfl
      omega
    · intro c'
      exact conns_setConn _
    · exact h2.next_erase hk rfl
    · rfl
    · exact h2.slot_served hk hsv
    · intro c' o
      exact clientRefs_vectorRem_server (h2.served c _ _ _ hk hsv) o
    · intro c' hcc
      simp [Ne.symm hcc, newConn]
  · exact h1

end

end

end

theorem attach {e : AttachEnv} (hok : s.AttachOk cfg a e)
    (hclean : (ConnOp.attach a e).Clean cfg) : ConnInv cfg none (s.connectAttach cfg a e) := by
  obtain ⟨hcoid, hcop, hscoid, hproc⟩ := hok
  unfold connectAttach
  split
  · rename_i chp coid hchp hec
    have hfree := hcoid coid hec
    split
    · have hscan := h.scan_ok hchp
      split
      · -- An existing connection is shared.
        rename_i c hsc
        rw [hsc] at hscan
        obtain ⟨k, hk, hp⟩ := hscan
        have h1 : ConnInv cfg none ((s.addLink c).vectorAdd a.prpc a.side coid ⟨c, false⟩) := by
          apply (h.addLink hk).addSlot (k := { k with links := k.links + 1 })
          · simp [addLink_eq hk]
          · exact hp
          · rw [addLink_eq hk, slot_setConn, hfree]
        have hk1 : (s.vectorAdd a.prpc a.side coid ⟨c, false⟩).conns c = some k := hk
        rw [addLink_eq hk1]
        rw [addLink_eq hk] at h1
        exact h1
      rename_i master hsc
      rw [hsc] at hscan
      split
      · rename_i c hc
        have hc := hcop c hc
        unfold attachNew
        by_cases hg : cfg.global chp = true
        · have hnr := hclean chp hchp hg
          simp only [if_pos hg, attachFinish, hnr]
          exact h.attachGlobal hc hchp hg hfree
        have hgf : cfg.global chp = false := by simpa using hg
        simp only [if_neg hg]
        cases master with
        | some m =>
          obtain ⟨hnet, km, hkm, hkv, hkg⟩ := hscan
          have hnr : refusesNetcon cfg a = false := by simp [refusesNetcon, hnet]
          simp only [attachFinish, hnr]
          exact h.attachVirtual hc hchp hgf hfree hkm hkv (by rw [hkg, hgf])
        | none =>
          cases hes : e.scoid with
          | none => exact h
          | some j =>
            obtain ⟨hsfree, hne⟩ := hscoid j hes
            exact h.attachPlain hc hchp hgf (hproc chp hchp hgf) hfree hsfree (hne coid hec) rfl
      · exact h
    · exact h
  · exact h

end

/-! ### Every call -/

theorem step {o : ConnOp} (h : ConnInv cfg none s) (hok : o.Legal cfg s) (hclean : o.Clean cfg) :
    ∃ s', connStep cfg s o = some s' ∧ ConnInv cfg none s' := by
  cases o with
  | attach a e => exact ⟨_, rfl, h.attach hok hclean⟩
  | detach prp side coid out => exact h.detach out
  | send act prp side coid e => exact h.kerMsgSendv hok e
  | receive head e => exact h.kerMsgReceivev hok
  | reply cop1 thp specret => exact h.endReply cop1 thp specret
  | error cop1 thp specret => exact h.endReply cop1 thp specret
  | forceReady thp held => exact h.forceReady thp held
  | receiveGbl taken head =>
    refine ⟨_, rfl, ?_⟩
    unfold ConnSt.msgreceiveGbl
    split
    · exact h
    · rename_i hw
      split
      · rename_i htaken
        rw [hclean htaken] at hw
        cases hw
      · exact h

end ConnInv

namespace ConnRun

variable {cfg : ConnCfg} {s : ConnSt}

/-- Calls the kernel may make, none of which meets a defect of the global channels. -/
def Ok (cfg : ConnCfg) (s : ConnSt) (o : ConnOp) : Prop := o.Legal cfg s ∧ o.Clean cfg

instance (o : ConnOp) : Decidable (Ok cfg s o) := inferInstanceAs (Decidable (_ ∧ _))

section

variable (h : Reach (· = ConnSt.fresh) (Ok cfg) (connStep cfg) s)
include h

theorem inv : ConnInv cfg none s := by
  refine h.invariant_of_total ?_ fun s o hinv hok => hinv.step hok.1 hok.2
  rintro s rfl
  exact .init

/-- `links` is the number of the client's slots, of the threads blocked and of the virtual
connections, the server's own slot apart. A connection that nothing refers to is freed, but for one
of a `_NTO_CHF_DISCONNECT` channel: that is kept for its server until it detaches `scoid`. -/
theorem links_eq_count : (∀ c k, s.conns c = some k → k.links = s.count c k) ∧
    (∀ p b i c d, s.slot p b i = some ⟨c, d⟩ →
      (d = true ↔ b = true ∧ ∃ k, s.conns c = some k ∧ k.Served cfg p i)) ∧
    (∀ c k, s.conns c = some k → s.count c k = 0 → k.Kept cfg ∧
      ∀ p out, k.channel.map cfg.process = some p → s.slot p true k.scoid = some ⟨c, true⟩ ∧
        ∃ s', connStep cfg s (.detach p true k.scoid out) = some s' ∧ s'.conns c = none) ∧
    (∀ c, s.conns c = none → (∀ p b i d, s.slot p b i ≠ some ⟨c, d⟩) ∧
      (∀ x ∈ s.blocked, x.cop ≠ c) ∧ s.next c = [] ∧ ∀ m, c ∉ s.next m) ∧
    ∀ o, Ok cfg s o → ∃ s', connStep cfg s o = some s' := by
  have hinv := inv h
  have hlinks : ∀ c k, s.conns c = some k → k.links = s.count c k := by
    intro c k hk
    simpa using hinv.links c k hk
  refine ⟨hlinks, ?_, ?_, fun c hc => hinv.unallocated hc, ?_⟩
  · intro p b i c d hs
    constructor
    · rintro rfl
      exact hinv.server p b i c hs
    · rintro ⟨rfl, k, hk, hsv⟩
      rw [hinv.served c k p i hk hsv] at hs
      cases hs
      rfl
  · intro c k hk h0
    have hl0 : k.links = 0 := by rw [hlinks c k hk, h0]
    refine ⟨hinv.idle c k hk hl0, ?_⟩
    intro p out hp
    exact hinv.detach_kept hk hl0 hp out
  · intro o ho
    obtain ⟨s', hs', -⟩ := hinv.step ho.1 ho.2
    exact ⟨s', hs'⟩

end

def oneServer : ConnCfg where
  process := fun _ => 1
  disconnect := fun chp => decide (chp = 7)
  global := fun chp => decide (chp = 9)
  netPrp := none
  sameNode := fun _ _ => true
  chan := fun _ _ chid => some chid
  chan_congr := fun _ _ _ _ _ => rfl

/-- A message of an ordinary size and no receiver, on a global channel no buffer. -/
def plainSend : SendEnv := ⟨false, false, false, false, false, false, false, true, false⟩

theorem links_eq_count_shared :
    ∃ s, Reach (· = ConnSt.fresh) (Ok oneServer) (connStep oneServer) s ∧
    (s.conns 10).map CConn.links = some 3 ∧ s.next 10 = [11] ∧
    ∀ c k, s.conns c = some k → k.links = s.count c k := by
  refine exists_reach (s := .fresh) rfl
    [.attach ⟨2, 1, false, false, false, 0, 1, 5⟩ ⟨some 3, true, some 10, some 1⟩,
      .attach ⟨2, 1, false, false, false, 4, 1, 5⟩ ⟨some 4, true, some 11, none⟩,
      .send 20 2 false 3 plainSend, .send 21 2 false 4 plainSend,
      .receive (some 20) ⟨false, false, false⟩, .receive (some 21) ⟨false, true, false⟩]
    (by decide +kernel) fun s hs
      (hq : (s.conns 10).map CConn.links = some 3 ∧ s.next 10 = [11]) => ?_
  exact ⟨hq.1, hq.2, (links_eq_count hs).1⟩

/-- `msgreceive_gbl` readies a sender and leaves its link. With the client's slot detached as well
nothing refers to the connection, which stays allocated with one link. -/
theorem msgreceive_gbl_leaves_link :
    ∃ s, Reach (· = ConnSt.fresh) (ConnOp.Legal oneServer) (connStep oneServer) s ∧
      ∃ k, s.conns 10 = some k ∧ k.global = true ∧ k.links = 1 ∧ s.count 10 k = 0 ∧
        s.vec 2 false = [none, none, none, none] ∧ s.vec 2 true = [] ∧ s.blocked = [] := by
  refine exists_reach (s := .fresh) rfl
    [.attach ⟨2, 1, false, false, false, 0, 1, 9⟩ ⟨some 3, true, some 10, none⟩,
      .send 20 2 false 3 plainSend, .receiveGbl true (some 20), .detach 2 false 3 []]
    (by decide +kernel) fun _ _ hq => hq

end ConnRun

end Qnx.Ker
