import Qnx.Shared.Keyed
import Qnx.Alloc.Placement

/-!
# Operations of the band allocator

What taking a node and giving it back do to the blocks and the band arenas.
-/

namespace Qnx.Alloc

open Extents List Option
open Block (addr)
open Keyed (set_perm perm_drop find_eq)

/-- The lists of the bands, with the blocks `X` that are on none of them. -/
structure SmallOk (cfg : Config) (X : List Block) (m : Small) : Prop where
  place : Placement cfg (X ++ (m.alist ++ m.dlist)) m.nodes (m.head ++ m.dhead)
  alist : ∀ b ∈ m.alist, b.head ≠ [] ∧ b.navail = b.head.length
  dlist : ∀ b ∈ m.dlist, b.head = [] ∧ b.navail = 0
  head : ∀ a ∈ m.head, a.nused < a.ntotal
  dhead : ∀ a ∈ m.dhead, a.nused = a.ntotal

def Small.arenas (m : Small) : List Extent := (m.head ++ m.dhead).map fun a => (a.addr, a.size)

def Small.Has (m : Small) (a i : Nat) : Prop := ∃ b ∈ m.alist ++ m.dlist, b.addr = a ∧ b.band = i

variable {cfg : Config} {c c' : Core} {m m' : Small} {Y : List Extent}

/-! ### Nodes that are out -/

theorem outOf_cons_self (N : List (Nat × Nat)) (x a : Nat) :
    outOf ((x, a) :: N) a = x :: outOf N a := by
  unfold outOf
  rw [filter_cons_of_pos (by simp), map_cons]

variable {a x i n al : Nat} {N : List (Nat × Nat)} {B blocks : List Block} {R : List BandArena}
  {b : Block}

theorem outOf_cons_ne (N : List (Nat × Nat)) (x : Nat) {d : Nat} (h : d ≠ a) :
    outOf ((x, a) :: N) d = outOf N d := by
  unfold outOf
  rw [filter_cons_of_neg (by simpa using h.symm)]

theorem outOf_perm {N' : List (Nat × Nat)} (h : N ~ N') (a : Nat) : outOf N a ~ outOf N' a :=
  (h.filter _).map _

theorem mem_outOf (h : (x, a) ∈ N) : x ∈ outOf N a :=
  mem_map_of_mem (f := Prod.fst) (mem_filter.mpr ⟨h, decide_eq_true rfl⟩)

theorem Placement.takeNode (h : Placement cfg (b :: B) N R) (hx : x ∈ b.head) :
    Placement cfg ({ b with head := b.head.erase x, navail := b.navail - 1 } :: B)
      ((x, b.addr) :: N) R := by
  refine h.setNodes rfl rfl rfl ?_ ?_ ?_
  · rw [outOf_cons_self]
    refine (perm_middle.trans ?_).trans (h.nodes b (by simp))
    exact (perm_cons_erase hx).symm.append_right (outOf N b.addr)
  · intro a ha
    rw [outOf_cons_ne N x ha]
  · exact forall_mem_cons.mpr ⟨.inl rfl, fun _ hy => .inr hy⟩

theorem Placement.putNode (h : Placement cfg (b :: B) N R) (hx : (x, b.addr) ∈ N) :
    Placement cfg ({ b with head := x :: b.head, navail := b.navail + 1 } :: B)
      (N.erase (x, b.addr)) R := by
  have hp := perm_cons_erase hx
  refine h.setNodes rfl rfl rfl ?_ ?_ ?_
  · have ho := outOf_perm hp b.addr
    rw [outOf_cons_self] at ho
    exact ((ho.append_left b.head).trans perm_middle).symm.trans (h.nodes b (by simp))
  · intro a ha
    have ho := outOf_perm hp a
    rw [outOf_cons_ne _ x ha] at ho
    exact ho.symm
  · exact fun y hy => .inr (mem_of_mem_erase hy)

/-! ### Taking a node -/

theorem SmallOk.addr_nodup (h : SmallOk cfg [] m) :
    (m.alist.map addr).Nodup ∧ (m.dlist.map addr).Nodup ∧
    ∀ b ∈ m.alist, ∀ d ∈ m.dlist, b.addr ≠ d.addr := by
  have hn : ((m.alist ++ m.dlist).map addr).Nodup := h.place.addr_nodup
  rw [map_append, nodup_append] at hn
  obtain ⟨h1, h2, h3⟩ := hn
  exact ⟨h1, h2, fun b hb d hd => h3 _ (mem_map_of_mem hb) _ (mem_map_of_mem hd)⟩

theorem has_of_perm {b' : Block} (hp : m.alist ++ m.dlist ~ b :: B)
    (hp' : m'.alist ++ m'.dlist ~ b' :: B) (ha : b'.addr = b.addr) (hb : b'.band = b.band)
    (h : m.Has a i) : m'.Has a i := by
  obtain ⟨d, hd, hda, hdb⟩ := h
  rcases mem_cons.mp (hp.subset hd) with rfl | hd
  · exact ⟨b', hp'.symm.subset (by simp), ha.trans hda, hb.trans hdb⟩
  · exact ⟨d, hp'.symm.subset (mem_cons_of_mem _ hd), hda, hdb⟩

theorem takeNode_self (hn : (m.alist.map addr).Nodup) (hb : b ∈ m.alist) :
    let b' : Block := { b with head := b.head.erase x, navail := b.navail - 1 }
    ∃ l, (takeNode m b b x) = (if b.navail - 1 = 0 then
        { m with alist := l, dlist := b' :: m.dlist, nodes := (x, b.addr) :: m.nodes }
      else { m with alist := l, nodes := (x, b.addr) :: m.nodes }) ∧
      l ~ if b.navail - 1 = 0 then dropBlock b.addr m.alist
        else b' :: dropBlock b.addr m.alist := by
  intro b'
  have hp1 : setBlock { b with head := b.head.erase x } m.alist ~
      { b with head := b.head.erase x } :: dropBlock b.addr m.alist :=
    set_perm addr hn hb rfl
  have hn1 : ((setBlock { b with head := b.head.erase x } m.alist).map addr).Nodup := by
    rw [(hp1.map addr).nodup_iff]
    exact ((perm_drop addr hn hb rfl).map addr).nodup_iff.mp hn
  have hf : (setBlock { b with head := b.head.erase x } m.alist).find?
      (fun y => y.addr = b.addr) = some { b with head := b.head.erase x } :=
    find_eq addr hn1 (hp1.symm.subset (by simp)) rfl
  have hd1 : dropBlock b.addr (setBlock { b with head := b.head.erase x } m.alist) ~
      dropBlock b.addr m.alist := by
    have := hp1.filter fun y => decide (y.addr ≠ b.addr)
    refine this.trans ?_
    unfold dropBlock
    simp
  unfold takeNode
  dsimp only
  rw [hf, getD_some]
  by_cases h0 : b.navail - 1 = 0
  · rw [if_pos h0]
    refine ⟨_, (if_pos h0).symm, ?_⟩
    rw [if_pos h0]
    exact hd1
  rw [if_neg h0]
  refine ⟨_, (if_neg h0).symm, ?_⟩
  rw [if_neg h0]
  refine Perm.trans ?_ (hd1.cons b')
  exact set_perm addr hn1 (hp1.symm.subset mem_cons_self) rfl

theorem takeNode_ok (h : SmallOk cfg [] m) (hb : b ∈ m.alist) (hx : x ∈ b.head) :
    let m' := takeNode m b b x
    SmallOk cfg [] m' ∧ m'.nodes = (x, b.addr) :: m.nodes ∧ m'.arenas = m.arenas ∧
      ∀ a i, m.Has a i → m'.Has a i := by
  have hn := h.addr_nodup.1
  obtain ⟨l, htn, hl⟩ := takeNode_self (x := x) hn hb
  have hp := (perm_drop addr hn hb rfl).append_right m.dlist
  have hplace := (h.place.perm hp (.refl _)).takeNode hx
  obtain ⟨hne, hnav⟩ := h.alist b hb
  have hlen := length_erase_of_mem hx
  have hsub : ∀ d ∈ dropBlock b.addr m.alist, d ∈ m.alist := fun d hd => mem_of_mem_filter hd
  rw [htn]
  by_cases h0 : b.navail - 1 = 0
  · rw [if_pos h0] at hl ⊢
    have hp' := (hl.append_right ({ b with head := b.head.erase x, navail := b.navail - 1 } ::
      m.dlist)).trans perm_middle
    refine ⟨⟨hplace.perm hp'.symm (.refl _), ?_, ?_, h.head, h.dhead⟩, rfl, rfl, ?_⟩
    · exact fun d hd => h.alist d (hsub d (hl.subset hd))
    · exact forall_mem_cons.mpr ⟨⟨eq_nil_of_length_eq_zero (by dsimp only; omega), h0⟩, h.dlist⟩
    · intro a i ha
      refine has_of_perm hp hp' ?_ ?_ ha <;> rfl
  rw [if_neg h0] at hl ⊢
  have hp' := hl.append_right m.dlist
  refine ⟨⟨hplace.perm hp'.symm (.refl _), ?_, h.dlist, h.head, h.dhead⟩, rfl, rfl, ?_⟩
  · intro d hd
    rcases mem_cons.mp (hl.subset hd) with rfl | hd
    · refine ⟨ne_nil_of_length_pos ?_, ?_⟩
      · dsimp only
        omega
      · dsimp only
        omega
    · exact h.alist d (hsub d hd)
  · intro a i ha
    refine has_of_perm hp hp' ?_ ?_ ha <;> rfl

/-! ### A new block -/

theorem regions_apart (hc : Mapped c (R.map (fun a => (a.addr, a.size)) ++ Y)) :
    Apart (R.map fun a => (a.addr, a.size)) :=
  (apart_append.mp (apart_append.mp hc.apart).2.1).1

theorem takeElem_ok {a : BandArena} {rest : List BandArena}
    (halist : ∀ b ∈ m.alist, b.head ≠ [] ∧ b.navail = b.head.length)
    (hdlist : ∀ b ∈ m.dlist, b.head = [] ∧ b.navail = 0)
    (hdhead : ∀ a ∈ m.dhead, a.nused = a.ntotal)
    (h : Placement cfg (m.alist ++ m.dlist) m.nodes (a :: (rest ++ m.dhead)))
    (hc : Mapped c ((a :: (rest ++ m.dhead)).map (fun a => (a.addr, a.size)) ++ Y))
    (hlt : a.nused < a.ntotal) (hrest : ∀ x ∈ rest, x.nused < x.ntotal)
    (hi : cfg.bands[i]? = some n)
    (hm : (if (takeElem cfg a).2.nused = (takeElem cfg a).2.ntotal then
        { m with head := rest, dhead := (takeElem cfg a).2 :: m.dhead }
      else { m with head := (takeElem cfg a).2 :: rest }) = m') :
    let m1 := { m' with
      alist := newBlock cfg i n (takeElem cfg a).1 (takeElem cfg a).2.addr :: m'.alist }
    SmallOk cfg [] m1 ∧ Mapped c (m1.arenas ++ Y) ∧ m'.nodes = m.nodes ∧ m'.alist = m.alist ∧
      m'.dlist = m.dlist := by
  obtain ⟨t1, t2, t3, t4, -⟩ := Placement.takeElem_spec cfg a
  have hplace := h.addBlock (regions_apart hc) hlt hi
  have hreg : ((takeElem cfg a).2 :: (rest ++ m.dhead)).map (fun a => (a.addr, a.size)) =
      (a :: (rest ++ m.dhead)).map fun a => (a.addr, a.size) := by
    rw [map_cons, map_cons, t1, t2]
  rw [← hreg] at hc
  have hnew : ∀ b ∈ newBlock cfg i n (takeElem cfg a).1 a.addr :: m.alist,
      b.head ≠ [] ∧ b.navail = b.head.length := by
    refine forall_mem_cons.mpr ⟨?_, halist⟩
    have hl : (nodesOf cfg n (blockAddr n (takeElem cfg a).1)).length = cfg.nalloc n := by
      simp [nodesOf]
    have hmem := mem_of_getElem? hi
    have hpos := (nalloc_spec hmem).1
    exact ⟨ne_nil_of_length_pos (hl ▸ hpos), hl.symm⟩
  subst hm
  rw [t1]
  split
  · rename_i hfull
    refine ⟨⟨hplace.perm (.refl _) perm_middle.symm, hnew, hdlist, hrest, ?_⟩,
      hc.permX ((perm_middle.map _).append_right Y), rfl, rfl, rfl⟩
    exact forall_mem_cons.mpr ⟨hfull, hdhead⟩
  refine ⟨⟨hplace, hnew, hdlist, ?_, hdhead⟩, hc, rfl, rfl, rfl⟩
  refine forall_mem_cons.mpr ⟨?_, hrest⟩
  omega

theorem bandAddblk_ok {r : Bool} (h : SmallOk cfg [] m)
    (hc : Mapped c (m.arenas ++ Y)) (hi : cfg.bands[i]? = some n)
    (hr : bandAddblk cfg c m i n = (r, c', m')) :
    SmallOk cfg [] m' ∧ Mapped c' (m'.arenas ++ Y) ∧ m'.nodes = m.nodes ∧
    (r = false → m' = m) ∧
    (r = true → m'.dlist = m.dlist ∧
      ∃ e arena, m'.alist = newBlock cfg i n e arena :: m.alist) := by
  unfold bandAddblk getBarena at hr
  cases hh : m.head with
  | cons a rest =>
    have hhead : ∀ x ∈ a :: rest, x.nused < x.ntotal := hh ▸ h.head
    have hplace : Placement cfg (m.alist ++ m.dlist) m.nodes (a :: (rest ++ m.dhead)) := by
      have := h.place
      rwa [hh] at this
    have hc1 : Mapped c ((a :: (rest ++ m.dhead)).map (fun a => (a.addr, a.size)) ++ Y) := by
      unfold Small.arenas at hc
      rwa [hh] at hc
    simp only [hh] at hr
    obtain ⟨rfl, rfl, rfl⟩ := hr
    obtain ⟨h1, h2, h3, h4, h5⟩ := takeElem_ok h.alist h.dlist h.dhead hplace hc1
      (hhead a (by simp)) (fun x hx => hhead x (by simp [hx])) hi rfl
    exact ⟨h1, h2, h3, nofun, fun _ => ⟨h5, _, _, by rw [h4]⟩⟩
  | nil =>
    simp only [hh] at hr
    cases hmc : c.morecore cfg.amblksiz with
    | mk o c1 =>
      cases o with
      | none =>
        simp only [hmc] at hr
        obtain ⟨rfl, rfl, rfl⟩ := hr
        rw [morecore_none hmc]
        exact ⟨h, hc, rfl, fun _ => rfl, nofun⟩
      | some e =>
        have hpos := cfg.elemSize_pos
        have hele := cfg.elem_ok.2
        obtain ⟨hc1, hsz⟩ := hc.morecore cfg.amblksiz_ok.1 (by omega) hmc
        have harenas : m.arenas = m.dhead.map fun a => (a.addr, a.size) := by
          unfold Small.arenas
          rw [hh, nil_append]
        rw [harenas] at hc1
        have hplace : Placement cfg (m.alist ++ m.dlist) m.nodes
            (⟨e.1, e.2, 0, e.2 / cfg.elemSize, []⟩ :: ([] ++ m.dhead)) := by
          have := h.place
          rw [hh] at this
          refine this.newArena rfl rfl (Nat.div_mul_le_self _ _) ?_
          -- a new region starts where no other does
          intro hmem
          obtain ⟨x, hx, hxe⟩ := mem_map.mp hmem
          have hx' : (x.addr, x.size) ∈ m.dhead.map (fun a => (a.addr, a.size)) ++ Y :=
            mem_append_left _ (mem_map_of_mem (f := fun a => (a.addr, a.size)) hx)
          have hoff := (apart_cons.mp (apart_append.mp hc1.apart).2.1).1 _ hx'
          have hp1 := (hc1.mem (by simp : e ∈ e :: _)).size_pos
          have hp2 := (hc1.mem (mem_cons_of_mem e hx')).size_pos
          exact hoff.ne hp1 hp2 hxe.symm
        simp only [hmc] at hr
        obtain ⟨rfl, rfl, rfl⟩ := hr
        obtain ⟨h1, h2, h3, h4, h5⟩ := takeElem_ok h.alist h.dlist h.dhead hplace hc1
          (Nat.div_pos (by omega) hpos) (by simp) hi rfl
        exact ⟨h1, h2, h3, nofun, fun _ => ⟨h5, _, _, by rw [h4]⟩⟩

/-! ### `_band_get_aligned` -/

/-- The first block of band `i` with room has an aligned node if any of them has. -/
def Direct (al : Nat) (m : Small) (i : Nat) : Prop :=
  ∀ r, bandFind al (m.alist.filter fun b => b.band = i) = .ok (some r) →
    (m.alist.filter fun b => b.band = i).head? = some r.1

theorem bandFind_ok (h : ∀ b ∈ blocks, b.head ≠ []) : ∃ r, bandFind al blocks = .ok r := by
  unfold bandFind
  split
  · exact ⟨_, rfl⟩
  cases blocks with
  | nil => exact ⟨_, rfl⟩
  | cons b rest =>
    cases hb : b.head with
    | nil => exact absurd hb (h b (by simp))
    | cons x xs => exact ⟨some (b, x), by dsimp only; rw [hb]⟩

theorem bandFind_cons {r : Block × Nat}
    (h : bandFind al blocks = .ok none) (hr : bandFind al (b :: blocks) = .ok (some r)) :
    r.1 = b := by
  unfold bandFind at h hr
  split at h
  · rename_i h8
    rw [if_pos h8, findSome?_cons] at hr
    cases hf : (b.head.find? fun x => trunc (x + 4) al = x + 4) with
    | none =>
      rw [hf] at hr
      dsimp only [map_none] at hr
      rw [h] at hr
      cases hr
    | some x =>
      rw [hf] at hr
      cases hr
      rfl
  rename_i h8
  rw [if_neg h8] at hr
  dsimp only at hr
  cases hb : b.head with
  | nil =>
    rw [hb] at hr
    cases hr
  | cons x xs =>
    rw [hb] at hr
    cases hr
    rfl

theorem Direct.newBlock {e arena : Nat}
    (h : bandFind al (m.alist.filter fun b => b.band = i) = .ok none)
    (hm : m'.alist = newBlock cfg i n e arena :: m.alist) : Direct al m' i := by
  intro r hr
  rw [hm, filter_cons_of_pos (by simp [Alloc.newBlock])] at hr ⊢
  rw [head?_cons, bandFind_cons h hr]

structure Got (cfg : Config) (m : Small) (i : Nat) (o : Option Nat) (m' : Small) : Prop where
  ok : SmallOk cfg [] m'
  kept : ∀ a j, m.Has a j → m'.Has a j
  none : o = none → m'.nodes = m.nodes
  some : ∀ p, o = some p → ∃ x b, p = x + 4 ∧ m'.nodes = (x, b) :: m.nodes ∧ m'.Has b i

theorem bandGetAligned_take (h : SmallOk cfg [] m)
    (hf : bandFind al (m.alist.filter fun b => b.band = i) = .ok (some (b, x))) :
    Got cfg m i (some (x + 4)) (takeNode m b b x) ∧ (takeNode m b b x).arenas = m.arenas := by
  obtain ⟨hb, hx, -⟩ := bandFind_spec hf
  obtain ⟨hb, hi⟩ := mem_filter.mp hb
  obtain ⟨h1, h2, h3, h4⟩ := takeNode_ok h hb hx
  refine ⟨⟨h1, h4, nofun, ?_⟩, h3⟩
  intro p hp
  cases hp
  exact ⟨x, b.addr, rfl, h2, h4 _ _ ⟨b, mem_append_left _ hb, rfl, of_decide_eq_true hi⟩⟩

theorem bandGetAligned_ok {fuel : Nat} {o : Option Nat} (h : SmallOk cfg [] m)
    (hc : Mapped c (m.arenas ++ Y)) (hi : cfg.bands[i]? = some n) (hd : Direct al m i)
    (hr : bandGetAligned cfg i n al fuel c m = .ok (o, c', m')) :
    Got cfg m i o m' ∧ Mapped c' (m'.arenas ++ Y) := by
  induction fuel generalizing c m with
  | zero =>
    unfold bandGetAligned at hr
    dsimp only at hr
    split at hr
    · cases hr
    · rename_i b x which hf hw
      have := hd _ hf
      rw [hw] at this
      cases this
      cases hr
      obtain ⟨h1, h2⟩ := bandGetAligned_take h hf
      exact ⟨h1, h2 ▸ hc⟩
    · cases hr
  | succ fuel ih =>
    unfold bandGetAligned at hr
    dsimp only at hr
    split at hr
    · cases hr
    · rename_i b x which hf hw
      have := hd _ hf
      rw [hw] at this
      cases this
      cases hr
      obtain ⟨h1, h2⟩ := bandGetAligned_take h hf
      exact ⟨h1, h2 ▸ hc⟩
    rename_i r hf hno
    -- nothing was found, so the block added is the one to take from
    have hnone : bandFind al (m.alist.filter fun b => b.band = i) = .ok none := by
      cases r with
      | none => exact hf
      | some q => exact (hno q.1 q.2 q.1 (hd q hf) rfl).elim
    cases hb : bandAddblk cfg c m i n with
    | mk r q =>
      obtain ⟨a1, a2, a3, a4, a5⟩ := bandAddblk_ok h hc hi hb
      simp only [hb] at hr
      cases r with
      | false =>
        cases hr
        rw [a4 rfl] at a2 ⊢
        exact ⟨⟨h, fun _ _ ha => ha, fun _ => rfl, by simp⟩, a2⟩
      | true =>
        obtain ⟨d1, e, arena, d2⟩ := a5 rfl
        obtain ⟨g, g'⟩ := ih a1 a2 (Direct.newBlock hnone d2) hr
        refine ⟨⟨g.ok, fun a j ha => g.kept a j ?_, fun ho => (g.none ho).trans a3, ?_⟩, g'⟩
        · obtain ⟨b, hb, hba⟩ := ha
          refine ⟨b, ?_, hba⟩
          rw [d1, d2]
          exact mem_cons_of_mem _ hb
        · intro p hp
          obtain ⟨x, b, hx, hn, hh⟩ := g.some p hp
          exact ⟨x, b, hx, a3 ▸ hn, hh⟩

/-! ### `_band_rlse` -/

theorem giveElem_ok {a : BandArena} {head dhead : List BandArena}
    (halist : ∀ b ∈ m.alist, b.head ≠ [] ∧ b.navail = b.head.length)
    (hdlist : ∀ b ∈ m.dlist, b.head = [] ∧ b.navail = 0)
    (hhead : ∀ x ∈ head, x.addr ≠ b.arena → x.nused < x.ntotal)
    (hdhead : ∀ x ∈ dhead, x.nused = x.ntotal)
    (h : Placement cfg (b :: (m.alist ++ m.dlist)) m.nodes (head ++ dhead))
    (hc : Mapped c ((head ++ dhead).map (fun a => (a.addr, a.size)) ++ Y))
    (hout : outOf m.nodes b.addr = []) (ha : a ∈ head) (hab : a.addr = b.arena)
    (hm : (if a.nused - 1 = 0 then
        (c.donecore cfg (a.addr, a.size),
          { m with head := head.filter fun x => x.addr ≠ b.arena, dhead := dhead })
      else
        (c, { m with
          head := head.map fun x => if x.addr = b.arena then
            { a with nused := a.nused - 1, ahead := elemOf cfg b :: a.ahead } else x,
          dhead := dhead })) = (c', m')) :
    SmallOk cfg [] m' ∧ Mapped c' (m'.arenas ++ Y) ∧ m'.alist = m.alist ∧ m'.dlist = m.dlist ∧
      m'.nodes = m.nodes := by
  have hnd : (head.map BandArena.addr).Nodup := by
    have := h.addrs
    rw [map_append] at this
    exact (nodup_append.mp this).1
  have hp := (perm_drop BandArena.addr hnd ha hab).append_right dhead
  have h' := h.perm (.refl _) hp
  have hcount := h'.count a (by simp)
  rw [countP_cons, if_pos (decide_eq_true hab.symm)] at hcount
  have hroom := (h'.room a (by simp)).1
  have hc' := hc.permX ((hp.map fun a : BandArena => (a.addr, a.size)).append_right Y).symm
  have hlt : ∀ x ∈ head.filter fun x => x.addr ≠ b.arena, x.nused < x.ntotal := fun x hx =>
    hhead x (mem_filter.mp hx).1 (of_decide_eq_true (mem_filter.mp hx).2)
  split at hm
  · cases hm
    exact ⟨⟨h'.returnArena hab hout (by omega), halist, hdlist, hlt, hdhead⟩, hc'.donecore,
      rfl, rfl, rfl⟩
  cases hm
  have hset : (head.map fun x => if x.addr = b.arena then
      { a with nused := a.nused - 1, ahead := elemOf cfg b :: a.ahead } else x) ~
      { a with nused := a.nused - 1, ahead := elemOf cfg b :: a.ahead } ::
        head.filter fun x => x.addr ≠ b.arena := by
    rw [← hab]
    exact set_perm BandArena.addr
      (x := { a with nused := a.nused - 1, ahead := elemOf cfg b :: a.ahead }) hnd ha rfl
  have hp' := hset.append_right dhead
  refine ⟨⟨(h'.returnElem hab hout).perm (.refl _) hp'.symm, halist, hdlist, ?_, hdhead⟩, ?_,
    rfl, rfl, rfl⟩
  · intro x hx
    rcases mem_cons.mp (hset.subset hx) with rfl | hx
    · dsimp only
      omega
    · exact hlt x hx
  · exact hc'.permX ((hp'.map _).append_right Y)

theorem returnBarena_ok (h : SmallOk cfg [b] m) (hc : Mapped c (m.arenas ++ Y))
    (hout : outOf m.nodes b.addr = []) :
    ∃ c' m', returnBarena cfg c m (elemOf cfg b) b.arena = .ok (c', m') ∧ SmallOk cfg [] m' ∧
      Mapped c' (m'.arenas ++ Y) ∧ m'.alist = m.alist ∧ m'.dlist = m.dlist ∧
      m'.nodes = m.nodes := by
  obtain ⟨a, ha, hab, -⟩ := h.place.arena b (by simp)
  have hnd := h.place.addrs
  rw [map_append, nodup_append] at hnd
  obtain ⟨hn1, hn2, hn3⟩ := hnd
  unfold returnBarena
  rcases mem_append.mp ha with hh | hh
  · have hf := find_eq BandArena.addr hn1 hh hab
    rw [hf]
    dsimp only
    generalize hg : (ite (a.nused - 1 = 0) _ _ : Core × Small) = r
    exact ⟨r.1, r.2, rfl, giveElem_ok h.alist h.dlist (fun x hx _ => h.head x hx) h.dhead h.place
      hc hout hh hab hg⟩
  have hno : ∀ x ∈ m.head, x.addr ≠ b.arena := fun x hx hc =>
    hn3 _ (mem_map_of_mem hx) _ (mem_map_of_mem hh) (hc.trans hab.symm)
  have hf : m.head.find? (fun a => a.addr = b.arena) = none :=
    find?_eq_none.mpr fun x hx => by simpa using hno x hx
  have hf' := find_eq BandArena.addr hn2 hh hab
  rw [hf, hf']
  dsimp only
  -- the arena has room again
  have hp := ((perm_drop BandArena.addr hn2 hh hab).append_left m.head).trans perm_middle
  generalize hg : (ite (a.nused - 1 = 0) _ _ : Core × Small) = r
  refine ⟨r.1, r.2, rfl, giveElem_ok h.alist h.dlist ?_ ?_ (h.place.perm (.refl _) hp)
    (hc.permX ((hp.map fun a : BandArena => (a.addr, a.size)).append_right Y).symm) hout
    mem_cons_self hab hg⟩
  · intro x hx hne
    rcases mem_cons.mp hx with rfl | hx
    · exact absurd hab hne
    · exact h.head x hx
  · exact fun x hx => h.dhead x (mem_of_mem_filter hx)

structure Released (cfg : Config) (m : Small) (x a : Nat) (m' : Small) : Prop where
  ok : SmallOk cfg [] m'
  nodes : m'.nodes = m.nodes.erase (x, a)
  kept : ∀ y ∈ m.nodes.erase (x, a), ∀ j, m.Has y.2 j → m'.Has y.2 j

theorem nodesOf_length (cfg : Config) (n a : Nat) : (nodesOf cfg n a).length = cfg.nalloc n := by
  simp [nodesOf]

section

variable (h : SmallOk cfg [] m)
include h

theorem SmallOk.node_mem (hb : b ∈ m.alist ++ m.dlist)
    (hx : (x, b.addr) ∈ m.nodes) : x ∈ nodesOf cfg (nbpeOf cfg b) b.addr :=
  (h.place.nodes b hb).subset (mem_append_right _ (mem_outOf hx))

theorem rlse_depleted (hb : b ∈ m.dlist) (hx : (x, b.addr) ∈ m.nodes) :
    Released cfg m x b.addr { m with
      alist := { b with head := x :: b.head, navail := b.navail + 1 } :: m.alist,
      dlist := dropBlock b.addr m.dlist, nodes := m.nodes.erase (x, b.addr) } := by
  have hp := ((perm_drop addr h.addr_nodup.2.1 hb rfl).append_left m.alist).trans perm_middle
  obtain ⟨hd1, hd2⟩ := h.dlist b hb
  refine ⟨⟨(h.place.perm hp (.refl _)).putNode hx, ?_, ?_, h.head, h.dhead⟩, rfl, ?_⟩
  · exact forall_mem_cons.mpr ⟨⟨cons_ne_nil _ _, by simp [hd1, hd2]⟩, h.alist⟩
  · exact fun d hd => h.dlist d (mem_of_mem_filter hd)
  · intro y _ j hj
    refine has_of_perm hp (.refl _) ?_ ?_ hj <;> rfl

theorem rlse_stay (hb : b ∈ m.alist) (hx : (x, b.addr) ∈ m.nodes) :
    let b' : Block := { b with head := x :: b.head, navail := b.navail + 1 }
    Released cfg m x b.addr { m with
      alist := setBlock b' m.alist, dlist := setBlock b' m.dlist,
      nodes := m.nodes.erase (x, b.addr) } := by
  intro b'
  obtain ⟨hn1, hn2, hn3⟩ := h.addr_nodup
  have hp := (perm_drop addr hn1 hb rfl).append_right m.dlist
  have hset : setBlock b' m.alist ~ b' :: dropBlock b.addr m.alist := set_perm addr hn1 hb rfl
  have hd : setBlock b' m.dlist = m.dlist := by
    refine Keyed.set_of_not_mem addr fun hm => ?_
    obtain ⟨d, hd, hda⟩ := mem_map.mp hm
    exact hn3 b hb d hd hda.symm
  have hp' := hset.append_right m.dlist
  rw [hd]
  refine ⟨⟨((h.place.perm hp (.refl _)).putNode hx).perm hp'.symm (.refl _), ?_, h.dlist, h.head,
    h.dhead⟩, rfl, ?_⟩
  · intro d hd
    rcases mem_cons.mp (hset.subset hd) with rfl | hd
    · exact ⟨cons_ne_nil _ _, congrArg (· + 1) (h.alist b hb).2⟩
    · exact h.alist d (mem_of_mem_filter hd)
  · intro y _ j hj
    refine has_of_perm hp hp' ?_ ?_ hj <;> rfl

theorem rlse_return (hc : Mapped c (m.arenas ++ Y)) (hb : b ∈ m.alist) (hx : (x, b.addr) ∈ m.nodes)
    (hall : b.navail + 1 = cfg.nalloc (nbpeOf cfg b)) :
    ∃ c' m', returnBarena cfg c { m with
        alist := dropBlock b.addr m.alist, nodes := m.nodes.erase (x, b.addr) }
      (elemOf cfg b) b.arena = .ok (c', m') ∧ Released cfg m x b.addr m' ∧
      Mapped c' (m'.arenas ++ Y) := by
  have hp := (perm_drop addr h.addr_nodup.1 hb rfl).append_right m.dlist
  have hplace := (h.place.perm hp (.refl _)).putNode hx
  have hout : outOf (m.nodes.erase (x, b.addr)) b.addr = [] := by
    have hlen := (hplace.nodes _ mem_cons_self).length_eq
    rw [length_append, nodesOf_length, length_cons, ← (h.alist b hb).2] at hlen
    refine eq_nil_of_length_eq_zero ?_
    have : nbpeOf cfg { b with head := x :: b.head, navail := b.navail + 1 } = nbpeOf cfg b := rfl
    rw [this] at hlen
    dsimp only at hlen
    omega
  have hok : SmallOk cfg [{ b with head := x :: b.head, navail := b.navail + 1 }] { m with
      alist := dropBlock b.addr m.alist, nodes := m.nodes.erase (x, b.addr) } :=
    ⟨hplace, fun d hd => h.alist d (mem_of_mem_filter hd), h.dlist, h.head, h.dhead⟩
  obtain ⟨c', m', hr, h1, h2, h3, h4, h5⟩ := returnBarena_ok hok hc hout
  refine ⟨c', m', hr, ⟨h1, h5, ?_⟩, h2⟩
  intro y hy j hj
  obtain ⟨d, hd, hda, hdj⟩ := hj
  rcases mem_cons.mp (hp.subset hd) with rfl | hd
  · -- no node leads to the block that went
    obtain ⟨y, a⟩ := y
    obtain rfl : d.addr = a := hda
    have hm := mem_outOf hy
    rw [hout] at hm
    cases hm
  refine ⟨d, ?_, hda, hdj⟩
  rw [h3, h4]
  exact hd

theorem bandRlse_ok (hc : Mapped c (m.arenas ++ Y)) (hx : (x, a) ∈ m.nodes) :
    ∃ c' m', bandRlse cfg c m x a = .ok (c', m') ∧ Released cfg m x a m' ∧
      Mapped c' (m'.arenas ++ Y) := by
  obtain ⟨b, hb, rfl⟩ := h.place.owner (x, a) hx
  rw [nil_append] at hb
  have hfind : m.findBlock b.addr = some b := find_eq addr h.place.addr_nodup hb rfl
  have hband : cfg.bands[b.band]? = some (nbpeOf cfg b) := by
    unfold nbpeOf
    rw [getD_eq_getElem?_getD, List.getElem?_eq_getElem (h.place.band b hb), getD_some]
  have hend : ¬b.addr + 32 + esize (nbpeOf cfg b) * cfg.nalloc (nbpeOf cfg b) <
      x + 4 + nbpeOf cfg b := by
    have := (nodesOf_bounds (h.node_mem hb hx)).2
    rw [Nat.mul_comm (esize _)]
    unfold esize at this ⊢
    omega
  unfold bandRlse
  simp only [hfind, hband, hend, if_false]
  rcases mem_append.mp hb with hb | hb
  · have hpos : b.navail ≠ 0 := by
      obtain ⟨h1, h2⟩ := h.alist b hb
      exact fun hc => h1 (eq_nil_of_length_eq_zero (h2 ▸ hc))
    rw [if_neg (by omega)]
    split
    · rename_i hall
      exact rlse_return h hc hb hx hall
    · exact ⟨_, _, rfl, rlse_stay h hb hx, hc⟩
  · rw [if_pos (by rw [(h.dlist b hb).2])]
    exact ⟨_, _, rfl, rlse_depleted h hb hx, hc⟩

end

end Qnx.Alloc
