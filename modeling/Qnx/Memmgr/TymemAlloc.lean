import Qnx.Memmgr.Tymem
import Mathlib.Tactic.Linarith

/-!
# All or nothing

When `tymem_rdb_alloc` keeps its books: which answers of the partition, the class, the resource
database and the heap it survives.
-/

namespace Qnx.Memmgr

open List Option

/-- The mutex is locked only when free and every lock has its one unlock. -/
def Disciplined : List LockEv → Prop
  | [] => True
  | .lock :: .unlock :: l => Disciplined l
  | _ => False

def FakeRun.block (q : FakeRun) : RsrcBlock := ⟨q.paddr, q.run * pageSize⟩

def chainLen (chain : List FakeRun) : Nat := (chain.map fun q => q.run * pageSize).sum

def RsrcBlock.Inside (b c : RsrcBlock) : Prop := c.start ≤ b.start ∧ b.start + b.len ≤ c.start + c.len

/-- What the call owes: a chain of disjoint runs of the whole size, charged once, or no change; and
the mutex. -/
def AllOrNothing (resv size : Nat) (st : TySt) : Option (List FakeRun) × TySt → Prop
  | (some chain, st') =>
    Disciplined st'.events ∧ chain.Pairwise (fun q r => q.block.Apart r.block) ∧
    (∃ new, st'.db = new ++ st.db ∧ ∀ q ∈ chain, ∃ b ∈ new, q.block.Inside b) ∧
    chainLen chain = size ∧ st'.size.reserved.used = st.size.reserved.used + resv ∧
    st'.size.unreserved.used = st.size.unreserved.used + (size - resv)
  | (none, st') =>
    Disciplined st'.events ∧ st'.db = st.db ∧ st'.size = st.size ∧ st'.cur = st.cur

namespace TyCfg

variable (cfg : TyCfg)

/-- Where the first range that can give `n` bytes gives them. -/
def fit (db : List RsrcBlock) (n : Nat) : Option Nat :=
  (cfg.restrict :: cfg.others).findSome? fun rl => cfg.mgr.attach db rl n

/-- The first of `n`, `n / 2`, … that a range can give, down to a page; only `n` itself if the
memory must be contiguous. -/
def grant (db : List RsrcBlock) : Nat → Nat → Option (Nat × Nat)
  | 0, _ => none
  | fuel + 1, n =>
    match cfg.fit db n with
    | some a => some (n, a)
    | none => if cfg.contig || decide (n ≤ pageSize) then none else grant db fuel (n / 2)

/-- The database gives `rest` bytes in whole pages, in pieces of at most `n`, and the heap a fake
run for each; the class has `free` bytes left and at least those of every request. -/
inductive Granted : List RsrcBlock → Nat → Nat → Nat → Nat → Prop where
  | last {db : List RsrcBlock} {n rest k free a : Nat} :
      n ≤ free → cfg.grant db (n + 1) n = some (rest, a) → cfg.fake k = true →
        pageSize ∣ rest → Granted db n rest k free
  | more {db : List RsrcBlock} {n m rest k free a : Nat} :
      n ≤ free → cfg.grant db (n + 1) n = some (m, a) → cfg.fake k = true →
        pageSize ∣ m → m < rest → Granted (⟨a, m⟩ :: db) m (rest - m) (k + 1) (free - m) →
          Granted db n rest k free

def resv (st : TySt) (size : Nat) : Nat :=
  if cfg.installed then reserveSize cfg.minSize st.cur size else 0

def Room (st : TySt) (size : Nat) : Prop :=
  cfg.resv st size ≤ st.size.reserved.free ∧ size - cfg.resv st size ≤ st.size.unreserved.free

/-- The partition refuses; or nothing is reserved, and the class refuses, or the database does at
every size, or it gives all the pieces; or it gives the whole size at once. -/
def Survives (st : TySt) (size : Nat) : Prop :=
  (cfg.installed = true ∧ cfg.grants = false) ∨
  (cfg.resv st size = 0 ∧ (¬ cfg.Room st size ∨ cfg.grant st.db (size + 1) size = none ∨
      cfg.Granted st.db size size st.fakes st.size.unreserved.free)) ∨
  (cfg.Room st size ∧ (∃ a, cfg.fit st.db size = some a) ∧ cfg.fake st.fakes = true)

end TyCfg

/-- The class knows all its memory, in words of the machine, and the partition its charge. -/
structure TySt.Sound (cfg : TyCfg) (st : TySt) (size : Nat) : Prop where
  class_lt : st.size.reserved.free + st.size.reserved.used + st.size.unreserved.free +
    st.size.unreserved.used < 2 ^ cfg.memBits
  cur_lt : st.cur + size < 2 ^ cfg.memBits
  size_lt : size < 2 ^ cfg.sizeBits
  unlocked : st.events = []

namespace TySt

variable {cfg : TyCfg} {st : TySt} {resv n m a rest fuel : Nat} {chain : List FakeRun}

variable {w x y k free size : Nat} {l : List Restrict} {db : List RsrcBlock} {st' st1 : TySt}

theorem wsub_of_le (h : y ≤ x) (hx : x < 2 ^ w) : wsub w x y = x - y := by
  unfold wsub
  rw [show x + 2 ^ w - y = x - y + 2 ^ w by omega, Nat.add_mod_right]
  exact Nat.mod_eq_of_lt (by omega)

theorem wsub_of_lt (h : x < y) (hy : y < 2 ^ w) : wsub w x y = x + 2 ^ w - y := by
  exact Nat.mod_eq_of_lt (by omega)

theorem le_add_wsub (hx : x < 2 ^ w) : x ≤ y + wsub w x y := by
  by_cases h : y ≤ x
  · rw [wsub_of_le h hx]
    omega
  · omega

theorem wsub_lt (w x y : Nat) : wsub w x y < 2 ^ w := Nat.mod_lt _ (Nat.two_pow_pos w)

/-! ### The walk and the grant -/

theorem walk_of_allows (h : st.allows cfg resv n = true) : st.walk cfg resv n l =
    match l.findSome? fun rl => cfg.mgr.attach st.db rl n with
    | some a => .attached a
    | none => .exhausted := by
  induction l with
  | nil => rfl
  | cons rl l ih =>
    rw [walk, if_pos h, findSome?_cons]
    cases cfg.mgr.attach st.db rl n with
    | none => exact ih
    | some a => rfl

/-- The class is asked before the database. -/
theorem seek_succ : st.seek cfg resv (fuel + 1) n =
    if st.allows cfg resv n then
      match cfg.fit st.db n with
      | some a => some (n, a)
      | none => if cfg.contig || decide (n ≤ pageSize) then none else st.seek cfg resv fuel (n / 2)
    else none := by
  rw [seek]
  by_cases h : st.allows cfg resv n = true
  · rw [walk_of_allows h, if_pos h, TyCfg.fit]
    cases (cfg.restrict :: cfg.others).findSome? fun rl => cfg.mgr.attach st.db rl n <;> rfl
  · rw [walk, if_neg h, if_neg h]

theorem seek_some (h : st.seek cfg resv fuel n = some (m, a)) :
    cfg.grant st.db fuel n = some (m, a) ∧ st.allows cfg resv n = true ∧
      st.allows cfg resv m = true ∧ m ≤ n := by
  induction fuel generalizing n with
  | zero => cases h
  | succ fuel ih =>
    rw [seek_succ] at h
    unfold TyCfg.grant
    split at h
    · rename_i hal
      split at h
      · cases h
        exact ⟨rfl, hal, hal, le_rfl⟩
      split at h
      · cases h
      rename_i hc
      obtain ⟨hg, -, hm, hle⟩ := ih h
      exact ⟨(if_neg hc).trans hg, hal, hm, by omega⟩
    · cases h

theorem seek_none (h : st.seek cfg resv fuel n = none) :
    cfg.grant st.db fuel n = none ∨ ∃ m, m ≤ n ∧ st.allows cfg resv m = false := by
  induction fuel generalizing n with
  | zero => exact .inl rfl
  | succ fuel ih =>
    rw [seek_succ] at h
    unfold TyCfg.grant
    split at h
    · split at h
      · cases h
      split at h
      · rename_i hc
        exact .inl (if_pos hc)
      rename_i hc
      obtain hg | ⟨m, hm, hal⟩ := ih h
      · exact .inl ((if_neg hc).trans hg)
      · exact .inr ⟨m, by omega, hal⟩
    · rename_i hal
      exact .inr ⟨n, le_rfl, by simpa using hal⟩

theorem seek_of_grant (hg : cfg.grant st.db fuel n = some (m, a))
    (h : ∀ m ≤ n, st.allows cfg resv m = true) : st.seek cfg resv fuel n = some (m, a) := by
  cases hs : st.seek cfg resv fuel n with
  | some p =>
    rw [(seek_some hs).1] at hg
    exact hg
  | none =>
    obtain hg' | ⟨m, hm, hal⟩ := seek_none hs
    · rw [hg'] at hg
      cases hg
    · rw [h m hm] at hal
      cases hal

theorem seek_fit (fuel : Nat) (hal : st.allows cfg resv n = true) (hf : cfg.fit st.db n = some a) :
    st.seek cfg resv (fuel + 1) n = some (n, a) := by
  rw [seek_succ, if_pos hal, hf]

theorem fit_free (h : cfg.fit db n = some a) : ∀ b ∈ db, RsrcBlock.Apart ⟨a, n⟩ b := by
  obtain ⟨rl, -, hrl⟩ := exists_of_findSome?_eq_some h
  exact cfg.mgr.attach_free db rl n a hrl

theorem grant_free (h : cfg.grant db fuel n = some (m, a)) :
    (∀ b ∈ db, RsrcBlock.Apart ⟨a, m⟩ b) ∧ m ≤ n := by
  induction fuel generalizing n with
  | zero => cases h
  | succ fuel ih =>
    simp only [TyCfg.grant] at h
    split at h
    · rename_i b hb
      cases h
      exact ⟨fit_free hb, le_rfl⟩
    split at h
    · cases h
    · obtain ⟨hfree, hle⟩ := ih h
      exact ⟨hfree, by omega⟩

/-! ### One piece -/

def total (st : TySt) : Nat :=
  st.size.reserved.free + st.size.reserved.used + st.size.unreserved.free + st.size.unreserved.used

theorem allows_iff (ht : st.total < 2 ^ cfg.memBits) (hn : n < 2 ^ cfg.memBits) :
    st.allows cfg resv n = true ↔
      resv ≤ n ∧ resv ≤ st.size.reserved.free ∧ n - resv ≤ st.size.unreserved.free := by
  unfold total at ht
  simp only [allows, Bool.not_eq_true', Bool.or_eq_false_iff, decide_eq_false_iff_not, Nat.not_lt]
  constructor
  · rintro ⟨hr, hu⟩
    by_cases hle : resv ≤ n
    · rw [wsub_of_le hle hn] at hu
      exact ⟨hle, hr, hu⟩
    · rw [wsub_of_lt (by omega) (by omega)] at hu
      omega
  · rintro ⟨hle, hr, hu⟩
    rw [wsub_of_le hle hn]
    exact ⟨hr, hu⟩

theorem charge_size (st : TySt) (a : Nat) (h : resv ≤ n) : (st.charge resv n a).size =
    { reserved := ⟨st.size.reserved.free - resv, st.size.reserved.used + resv⟩
      unreserved :=
        ⟨st.size.unreserved.free - (n - resv), st.size.unreserved.used + (n - resv)⟩ } := by
  simp only [charge]
  split
  · have : n = resv := by omega
    subst this
    simp
  · rfl

theorem charge_total (h : resv ≤ n) (hr : resv ≤ st.size.reserved.free)
    (hu : n - resv ≤ st.size.unreserved.free) : (st.charge resv n a).total = st.total := by
  simp only [total, charge_size _ _ h]
  omega

theorem page_dvd_run (h : pageSize ∣ n) : lenToNquantum n * pageSize = n := by
  obtain ⟨q, rfl⟩ := h
  have : lenToNquantum (pageSize * q) = q := by
    simp only [lenToNquantum, pageSize]
    omega
  rw [this, Nat.mul_comm]

theorem le_run (n : Nat) : n ≤ lenToNquantum n * pageSize := by
  simp only [lenToNquantum, pageSize]
  omega

theorem page_dvd_of_run (h : lenToNquantum n * pageSize ≤ n) : pageSize ∣ n :=
  Dvd.intro_left _ (h.antisymm (le_run n))

structure Took (st st' : TySt) (chain : List FakeRun) : Prop where
  apart : chain.Pairwise fun q r => q.block.Apart r.block
  fresh : ∀ q ∈ chain, ∀ b ∈ st.db, q.block.Apart b
  attached : ∃ new, st'.db = new ++ st.db ∧ ∀ q ∈ chain, ∃ b ∈ new, q.block.Inside b
  events : st'.events = st.events

theorem Took.nil (st : TySt) : Took st st [] where
  apart := .nil
  fresh := by simp
  attached := ⟨[], rfl, by simp⟩
  events := rfl

theorem Took.cons (hp : pageSize ∣ m) (hfree : ∀ b ∈ st.db, RsrcBlock.Apart ⟨a, m⟩ b)
    (h : Took (st.charge resv m a) st' chain) : Took st st' (⟨a, lenToNquantum m⟩ :: chain) := by
  have hb : (⟨a, lenToNquantum m⟩ : FakeRun).block = ⟨a, m⟩ := by
    simp only [FakeRun.block, page_dvd_run hp]
  obtain ⟨new, hnew, hin⟩ := h.attached
  constructor
  case apart =>
    refine pairwise_cons.mpr ⟨?_, h.apart⟩
    intro q hq
    have := h.fresh q hq ⟨a, m⟩ (by simp [charge])
    rw [hb]
    exact this.symm
  case fresh =>
    intro q hq b hbd
    obtain rfl | hq := mem_cons.mp hq
    · rw [hb]
      exact hfree b hbd
    · exact h.fresh q hq b (mem_cons_of_mem _ hbd)
  case attached =>
    refine ⟨new ++ [⟨a, m⟩], ?_, ?_⟩
    · rw [hnew]
      simp [charge]
    · intro q hq
      obtain rfl | hq := mem_cons.mp hq
      · refine ⟨⟨a, m⟩, by simp, ?_⟩
        rw [hb]
        exact ⟨le_rfl, le_rfl⟩
      · obtain ⟨b, hbn, hi⟩ := hin q hq
        exact ⟨b, by simp [hbn], hi⟩
  case events => exact h.events

/-! ### The loop succeeds -/

theorem granted_zero (h : cfg.Granted db n rest k free) : n = 0 → rest = 0 := by
  induction h with
  | last _ hg _ _ =>
    have := (grant_free hg).2
    omega
  | more _ hg _ _ _ _ ih =>
    have := (grant_free hg).2
    omega

theorem loop_granted (hg : cfg.Granted db n rest k free) :
    ∀ (st : TySt) (chain : List FakeRun) (fuel : Nat), st.db = db → st.fakes = k →
      st.size.unreserved.free = free → st.total < 2 ^ cfg.memBits → rest < 2 ^ cfg.sizeBits →
      rest < fuel → ∃ new st', loop cfg 0 fuel chain n rest st = some (.done (chain ++ new) st') ∧
        Took st st' new ∧ chainLen new = rest ∧
        st'.size.reserved.used = st.size.reserved.used ∧
        st'.size.unreserved.used = st.size.unreserved.used + rest := by
  -- One request: the class allows it at every size, so the grant of the database is what is found.
  have hone : ∀ {n m a : Nat} (st : TySt), n ≤ st.size.unreserved.free →
      st.total < 2 ^ cfg.memBits → cfg.grant st.db (n + 1) n = some (m, a) →
      st.seek cfg 0 (n + 1) n = some (m, a) := by
    intro n m a st hn ht hgr
    apply seek_of_grant hgr
    intro j hj
    have hlt : j < 2 ^ cfg.memBits := by
      unfold total at ht
      omega
    rw [allows_iff ht hlt]
    omega
  induction hg with
  | @last db n rest k free a hn hgr hk hp =>
    rintro st chain fuel rfl rfl rfl ht hr hf
    obtain ⟨fuel, rfl⟩ : ∃ f, fuel = f + 1 := ⟨fuel - 1, by omega⟩
    refine ⟨[⟨a, lenToNquantum rest⟩], st.charge 0 rest a, ?_, ?_, ?_, ?_, ?_⟩
    · simp only [loop, hone st hn ht hgr, hk, if_true, wsub_of_le (Nat.le_refl rest) hr,
        Nat.sub_self]
    · exact .cons hp (grant_free hgr).1 (.nil _)
    · simp [chainLen, page_dvd_run hp]
    · simp [charge_size _ _ (Nat.zero_le rest)]
    · simp [charge_size _ _ (Nat.zero_le rest)]
  | @more db n m rest k free a hn hgr hk hp hm hgd ih =>
    rintro st chain fuel rfl rfl rfl ht hr hf
    obtain ⟨fuel, rfl⟩ : ∃ f, fuel = f + 1 := ⟨fuel - 1, by omega⟩
    have hle := (grant_free hgr).2
    have hm0 : m ≠ 0 := by
      intro h0
      have := granted_zero hgd h0
      omega
    have hsize := charge_size st a (Nat.zero_le m)
    obtain ⟨new, st', hl, htook, hlen, hru, huu⟩ := ih (st.charge 0 m a)
      (chain ++ [⟨a, lenToNquantum m⟩]) fuel rfl rfl (by simp [hsize])
      (by rw [charge_total (Nat.zero_le m) (Nat.zero_le _) (by omega)]; exact ht)
      (by omega) (by omega)
    refine ⟨⟨a, lenToNquantum m⟩ :: new, st', ?_, .cons hp (grant_free hgr).1 htook, ?_, ?_, ?_⟩
    · have hrest : rest - m ≠ 0 := by omega
      simp only [loop, hone st hn ht hgr, hk, wsub_of_le (hm.le) hr, if_neg hrest]
      rw [hl, append_assoc]
      rfl
    · simp only [chainLen, map_cons, sum_cons, page_dvd_run hp] at hlen ⊢
      omega
    · rw [hru, hsize]
      rfl
    · rw [huu, hsize]
      simp only
      omega

/-! ### What the loop must have met -/

theorem grant_full (h : cfg.grant db (fuel + 1) n = some (n, a)) : cfg.fit db n = some a := by
  simp only [TyCfg.grant] at h
  split at h
  · rename_i b hb
    cases h
    exact hb
  split at h
  · cases h
  rename_i hc
  have hle := (grant_free h).2
  exact absurd (by simp [show n = 0 by omega]) hc

theorem loop_done {chain' : List FakeRun}
    (h : loop cfg resv fuel chain n rest st = some (.done chain' st'))
    (ht : st.total < 2 ^ cfg.memBits) (hn : n < 2 ^ cfg.memBits) (hr : rest < 2 ^ cfg.sizeBits) :
    ∃ new, chain' = chain ++ new ∧ rest ≤ chainLen new ∧ new ≠ [] ∧
      st'.size.reserved.used = st.size.reserved.used + new.length * resv ∧
      (resv = 0 → chainLen new ≤ rest → cfg.Granted st.db n rest st.fakes st.size.unreserved.free) ∧
      (new.length = 1 → rest = n → st.allows cfg resv n = true ∧
        (∃ a, cfg.fit st.db n = some a) ∧ cfg.fake st.fakes = true) := by
  induction fuel generalizing chain n rest st with
  | zero => cases h
  | succ fuel ih =>
    simp only [loop] at h
    split at h
    · cases h
    rename_i m a hs
    obtain ⟨hgr, haln, halm, hle⟩ := seek_some hs
    have hm : m < 2 ^ cfg.memBits := by omega
    have haln' := (allows_iff ht hn).mp haln
    obtain ⟨hrm, hrf, huf⟩ := (allows_iff ht hm).mp halm
    have hrun := le_run m
    have hadd := le_add_wsub (y := m) hr
    have hsize := charge_size st a hrm
    split at h
    · rename_i hk
      split at h
      · cases h
        refine ⟨[⟨a, lenToNquantum m⟩], rfl, ?_, by simp, by simp [hsize], ?_, ?_⟩
        · simp only [chainLen, map_cons, sum_cons]
          omega
        · intro hz hlen
          simp only [chainLen, map_cons, sum_cons] at hlen
          have : m = rest := by omega
          subst this
          exact .last (by omega) hgr hk (page_dvd_of_run (by omega))
        · rintro - rfl
          have : m = rest := by omega
          subst this
          exact ⟨haln, ⟨a, grant_full hgr⟩, hk⟩
      obtain ⟨new, rfl, hlen, hne, hru, hgd, -⟩ := ih h
        (by rw [charge_total hrm hrf huf]; exact ht) hm (wsub_lt _ _ _)
      refine ⟨⟨a, lenToNquantum m⟩ :: new, by simp, ?_, by simp, ?_, ?_, ?_⟩
      · simp only [chainLen, map_cons, sum_cons] at hlen ⊢
        omega
      · rw [hru, hsize, length_cons, Nat.succ_mul]
        dsimp only
        omega
      · intro hz hlen'
        simp only [chainLen, map_cons, sum_cons] at hlen hlen'
        have hmr : m < rest := by omega
        rw [wsub_of_le (hmr.le) hr] at hgd
        refine .more (by omega) hgr hk (page_dvd_of_run (by omega)) hmr ?_
        subst hz
        have := hgd rfl (by simp only [chainLen]; omega)
        rw [hsize] at this
        exact this
      · intro h1
        rw [length_cons] at h1
        have := length_pos_of_ne_nil hne
        omega
    · cases h

theorem loop_frame {out : TyOut} (h : loop cfg resv fuel chain n rest st = some out) :
    match out with
    | .done _ st' => st'.events = st.events ∧ st'.cur = st.cur
    | .fail1 chain' rest' st' => st'.events = st.events ∧
        (chain' = chain ∧ rest' = rest ∧ st' = st ∧ st.seek cfg resv (n + 1) n = none ∨
          st.db.length < st'.db.length)
    | .fail2 _ _ _ _ st' => st'.events = st.events := by
  induction fuel generalizing chain n rest st with
  | zero => cases h
  | succ fuel ih =>
    simp only [loop] at h
    split at h
    · rename_i hs
      cases h
      exact ⟨rfl, .inl ⟨rfl, rfl, rfl, hs⟩⟩
    split at h
    · split at h
      · cases h
        exact ⟨rfl, rfl⟩
      have hrec := ih h
      cases out with
      | done _ st' => exact hrec
      | fail1 _ _ st' =>
        refine ⟨hrec.1, .inr ?_⟩
        obtain ⟨-, ⟨-, -, rfl, -⟩ | hlt⟩ := hrec
        · simp [charge]
        · simp only [charge, length_cons] at hlt
          omega
      | fail2 _ _ _ _ st' => exact hrec
    · cases h
      rfl

/-! ### The mutex on the way out -/

def pairs : Nat → List LockEv
  | 0 => []
  | k + 1 => .lock :: .unlock :: pairs k

theorem pairs_add (j k : Nat) : pairs (j + k) = pairs j ++ pairs k := by
  induction j with
  | zero => simp [pairs]
  | succ j ih => rw [Nat.succ_add, pairs, pairs, ih, cons_append, cons_append]

theorem disciplined_pairs (k : Nat) (l : List LockEv) :
    Disciplined (pairs k ++ l) ↔ Disciplined l := by
  induction k with
  | zero => rfl
  | succ k ih => exact ih

theorem free_events (cfg : TyCfg) (st : TySt) (p k : Nat) : ∃ j,
    (st.tymemRdbFree cfg p k).events = st.events ++ pairs j ∧
    (j = 0 → st.tymemRdbFree cfg p k = st) := by
  unfold tymemRdbFree
  split
  · refine ⟨1, ?_, by simp⟩
    simp only [event, decr, pairs]
    split <;> simp
  · exact ⟨0, by simp [pairs], fun _ => rfl⟩

theorem frees_events (cfg : TyCfg) (chain : List FakeRun) (st : TySt) : ∃ j,
    (chain.foldl (fun st q => st.tymemRdbFree cfg q.paddr (nquantumToLen q.run)) st).events =
      st.events ++ pairs j ∧
    (j = 0 → chain.foldl (fun st q => st.tymemRdbFree cfg q.paddr (nquantumToLen q.run)) st = st) := by
  induction chain generalizing st with
  | nil => exact ⟨0, by simp [pairs], fun _ => rfl⟩
  | cons q chain ih =>
    obtain ⟨j, hj, hj0⟩ := free_events cfg st q.paddr (nquantumToLen q.run)
    obtain ⟨k, hk, hk0⟩ := ih (st.tymemRdbFree cfg q.paddr (nquantumToLen q.run))
    refine ⟨j + k, ?_, ?_⟩
    · rw [foldl_cons, hk, hj, pairs_add, append_assoc]
    · intro h0
      rw [foldl_cons, hk0 (by omega), hj0 (by omega)]

theorem undoIncr_events (cfg : TyCfg) (st : TySt) (k resv : Nat) : ∃ j,
    (st.undoIncr cfg k resv).events =
    st.events ++ pairs j ∧ (j = 0 → (st.undoIncr cfg k resv).db = st.db ∧
      (cfg.installed = true → k ≠ 0 → resv = 0)) := by
  unfold undoIncr
  split
  · split
    · exact ⟨1, by simp [event, pairs], by simp⟩
    · refine ⟨0, by simp [pairs], fun _ => ⟨rfl, fun _ _ => by omega⟩⟩
  rename_i hc
  refine ⟨0, by simp [pairs], fun _ => ⟨rfl, ?_⟩⟩
  intro hi hk
  exact absurd (by simp [hi, hk]) hc

theorem undo_events (cfg : TyCfg) (chain : List FakeRun) (rest resv : Nat) (st : TySt) : ∃ j,
    (undo cfg chain rest resv st).events =
    st.events ++ (pairs j ++ [.unlock]) ∧ (j = 0 → (undo cfg chain rest resv st).db = st.db ∧
      (cfg.installed = true → rest ≠ 0 → resv = 0)) := by
  obtain ⟨j, hj, hj0⟩ := frees_events cfg chain st
  obtain ⟨k, hk, hk0⟩ := undoIncr_events cfg (chain.foldl
    (fun st q => st.tymemRdbFree cfg q.paddr (nquantumToLen q.run)) st) rest resv
  refine ⟨j + k, ?_, ?_⟩
  · simp [undo, event, hk, hj, pairs_add]
  · intro hz
    obtain ⟨hdb, hr⟩ := hk0 (by omega)
    refine ⟨?_, hr⟩
    rw [← congrArg TySt.db (hj0 (by omega)), ← hdb]
    rfl

theorem undo_held (hl : st.events = [.lock])
    (h : Disciplined (undo cfg chain rest resv st).events) :
    (undo cfg chain rest resv st).db = st.db ∧ (cfg.installed = true → rest ≠ 0 → resv = 0) := by
  obtain ⟨j, hj, hj0⟩ := undo_events cfg chain rest resv st
  apply hj0
  rw [hj, hl] at h
  cases j with
  | zero => rfl
  | succ j => exact h.elim

theorem undo_free (k : Nat) (hl : st.events = pairs k) :
    ¬ Disciplined (undo cfg chain rest resv st).events := by
  obtain ⟨j, hj, -⟩ := undo_events cfg chain rest resv st
  rw [hj, hl, disciplined_pairs, disciplined_pairs]
  exact id

/-! ### The whole call -/

theorem undo_nothing (hs : st.Sound cfg size) (h1 : st.chkAndIncr cfg size = some (0, st1)) :
    AllOrNothing 0 size st (none, undo cfg [] size 0 (st1.event .lock)) := by
  have hcur := hs.cur_lt
  unfold chkAndIncr at h1
  split at h1
  · rename_i hi
    cases h1
    have hi : cfg.installed = false := by simpa using hi
    simp [AllOrNothing, undo, undoIncr, event, hi, hs.unlocked, Disciplined]
  rename_i hi
  split at h1
  · have hi : cfg.installed = true := by simpa using hi
    simp only [some.injEq, Prod.mk.injEq] at h1
    obtain ⟨-, rfl⟩ := h1
    by_cases h0 : size = 0
    · simp [AllOrNothing, undo, undoIncr, event, h0, hs.unlocked, Disciplined]
    have hw : wsub cfg.memBits (st.cur + size) size = st.cur := by
      rw [wsub_of_le (by omega) hcur]
      omega
    simp [AllOrNothing, undo, undoIncr, event, hi, h0, hw, hs.unlocked, Disciplined]
  · cases h1

theorem chkAndIncr_none (h : st.chkAndIncr cfg size = none) :
    cfg.installed = true ∧ cfg.grants = false := by
  unfold chkAndIncr at h
  · split at h
    · cases h
    · simp_all

theorem chkAndIncr_some {r : Nat} (h : st.chkAndIncr cfg size = some (r, st1)) :
    ¬ (cfg.installed = true ∧ cfg.grants = false) ∧ r = cfg.resv st size ∧ st1.size = st.size ∧
      st1.db = st.db ∧ st1.events = st.events ∧ st1.fakes = st.fakes := by
  unfold chkAndIncr at h
  unfold TyCfg.resv
  split at h
  · simp_all
  split at h
  · obtain ⟨rfl, rfl⟩ := h
    simp_all
  · cases h

theorem resv_le (cfg : TyCfg) (st : TySt) (size : Nat) : cfg.resv st size ≤ size := by
  unfold TyCfg.resv reserveSize
  split
  · split
    · exact Nat.min_le_right _ _
    · exact Nat.zero_le _
  · exact Nat.zero_le _

def finish (cfg : TyCfg) (resv fuel : Nat) (st : TySt) (size : Nat) :
    Option (Option (List FakeRun) × TySt) :=
  (loop cfg resv fuel [] size size (st.event .lock)).map fun
    | .done chain st2 => (some chain, st2.event .unlock)
    | .fail1 chain rest st2 => (none, undo cfg chain rest resv st2)
    | .fail2 chain a n rest st2 =>
      (none, undo cfg chain rest resv ((st2.event .unlock).tymemRdbFree cfg a n))

variable {size : Nat} {st1 : TySt}

theorem event_total (e : LockEv) : (st.event e).total = st.total := rfl

theorem survives_of_kept {r : Option (List FakeRun) × TySt} (hs : st.Sound cfg size)
    (hc : st.chkAndIncr cfg size = some (resv, st1)) (hr : finish cfg resv fuel st1 size = some r)
    (h : AllOrNothing resv size st r) : cfg.Survives st size := by
  obtain ⟨-, rfl, hsize, hdb, hev, hfk⟩ := chkAndIncr_some hc
  have hcur := hs.cur_lt
  have ht : (st1.event .lock).total < 2 ^ cfg.memBits := by
    rw [event_total, total, hsize]
    exact hs.class_lt
  have hev1 : (st1.event .lock).events = [.lock] := by simp [event, hev, hs.unlocked]
  obtain ⟨out, hout, rfl⟩ := map_eq_some_iff.mp hr
  have hframe := loop_frame hout
  cases out with
  | done chain st' =>
    obtain ⟨-, -, -, hlen, hru, -⟩ := h
    obtain ⟨new, rfl, -, -, hru', hgd, hone⟩ := loop_done hout ht (by omega) hs.size_lt
    have hused : chain.length * cfg.resv st size = cfg.resv st size := by
      have h1 : (st1.event .lock).size.reserved.used = st.size.reserved.used := by
        rw [event, hsize]
      have h2 : (st'.event .unlock).size.reserved.used = st'.size.reserved.used := rfl
      omega
    by_cases h0 : cfg.resv st size = 0
    · refine .inr (.inl ⟨h0, .inr (.inr ?_)⟩)
      have := hgd h0 (by omega)
      rwa [event, hdb, hfk, hsize] at this
    refine .inr (.inr ?_)
    have h1 : chain.length = 1 := by
      have := Nat.eq_of_mul_eq_mul_right (Nat.pos_of_ne_zero h0)
        (hused.trans (Nat.one_mul _).symm)
      exact this
    obtain ⟨hal, hfit, hk⟩ := hone h1 rfl
    have hal := (allows_iff ht (by omega)).mp hal
    rw [event, hsize] at hal
    rw [event, hdb] at hfit
    rw [event, hfk] at hk
    exact ⟨⟨hal.2.1, hal.2.2⟩, hfit, hk⟩
  | fail1 chain rest st' =>
    obtain ⟨hdis, hdb', -, -⟩ := h
    obtain ⟨hev', hcase⟩ := hframe
    rw [hev1] at hev'
    obtain ⟨hu, hr0⟩ := undo_held hev' hdis
    obtain ⟨rfl, rfl, rfl, hseek⟩ | hlt := hcase
    · have h0 : cfg.resv st rest = 0 := by
        cases hi : cfg.installed with
        | false => simp [TyCfg.resv, hi]
        | true =>
          by_cases hz : rest = 0
          · have := resv_le cfg st rest
            omega
          · exact hr0 hi hz
      refine .inr (.inl ⟨h0, ?_⟩)
      obtain hg | ⟨m, hm, hal⟩ := seek_none hseek
      · right
        left
        rwa [event, hdb] at hg
      left
      rintro ⟨-, hroom⟩
      have : ¬ (st1.event .lock).allows cfg (cfg.resv st rest) m = true := by simp [hal]
      apply this
      rw [allows_iff ht (by omega), event, hsize]
      omega
    · rw [hu] at hdb'
      have : (st1.event .lock).db.length = st.db.length := by rw [event, hdb]
      rw [hdb'] at hlt
      omega
  | fail2 chain a n rest st' =>
    obtain ⟨j, hj, -⟩ := free_events cfg (st'.event .unlock) a n
    refine absurd h.1 (undo_free (1 + j) ?_)
    rw [hj, pairs_add, event, show st'.events = [.lock] from hframe.trans hev1]
    rfl

theorem kept_of_survives (hs : st.Sound cfg size) (hp : pageSize ∣ size) (hf : size < fuel)
    (hc : st.chkAndIncr cfg size = some (resv, st1)) (h : cfg.Survives st size) :
    ∃ r, finish cfg resv fuel st1 size = some r ∧ AllOrNothing resv size st r := by
  obtain ⟨hchk, hresv, hsize, hdb, hev, hfk⟩ := chkAndIncr_some hc
  obtain ⟨fuel, rfl⟩ : ∃ f, fuel = f + 1 := ⟨fuel - 1, by omega⟩
  have hcur := hs.cur_lt
  have ht : (st1.event .lock).total < 2 ^ cfg.memBits := by
    rw [event_total, total, hsize]
    exact hs.class_lt
  have hev1 : (st1.event .lock).events = [.lock] := by simp [event, hev, hs.unlocked]
  -- Without a first piece everything is as before.
  have hnone : resv = 0 → (st1.event .lock).seek cfg resv (size + 1) size = none →
      ∃ r, finish cfg resv (fuel + 1) st1 size = some r ∧ AllOrNothing resv size st r := by
    rintro rfl hseek
    refine ⟨_, ?_, undo_nothing hs hc⟩
    simp only [finish, loop, hseek, map_some]
  obtain h | ⟨h0, hroom | hgrant | hgranted⟩ | ⟨⟨hrr, hru⟩, ⟨a, hfit⟩, hk⟩ := h
  · exact absurd h hchk
  · rw [← hresv] at h0
    apply hnone h0
    cases hseek : (st1.event .lock).seek cfg resv (size + 1) size with
    | none => rfl
    | some p =>
      exfalso
      apply hroom
      have hal := (allows_iff ht (by omega)).mp (seek_some hseek).2.1
      rw [event, hsize] at hal
      rw [TyCfg.Room, ← hresv]
      exact ⟨hal.2.1, hal.2.2⟩
  · rw [← hresv] at h0
    apply hnone h0
    cases hseek : (st1.event .lock).seek cfg resv (size + 1) size with
    | none => rfl
    | some p =>
      have := (seek_some hseek).1
      rw [event, hdb, hgrant] at this
      cases this
  · rw [← hresv] at h0
    subst h0
    obtain ⟨new, st', hl, htook, hlen, hru, huu⟩ := loop_granted hgranted (st1.event .lock) []
      (fuel + 1) hdb hfk (by rw [event, hsize]) ht hs.size_lt hf
    refine ⟨(some new, st'.event .unlock), by simp [finish, hl], ?_⟩
    obtain ⟨nb, hnb, hin⟩ := htook.attached
    refine ⟨?_, htook.apart, ⟨nb, hdb ▸ hnb, hin⟩, hlen, ?_, ?_⟩
    · change Disciplined (st'.events ++ [.unlock])
      rw [htook.events, hev1]
      trivial
    · simpa [event, hsize] using hru
    · simpa [event, hsize] using huu
  · rw [← hresv] at hrr hru
    have hle : resv ≤ size := by
      rw [hresv]
      exact resv_le cfg st size
    have hal : (st1.event .lock).allows cfg resv size = true := by
      rw [allows_iff ht (by omega), event, hsize]
      exact ⟨hle, hrr, hru⟩
    have hseek := seek_fit size hal (by rw [event, hdb]; exact hfit)
    refine ⟨(some [⟨a, lenToNquantum size⟩],
      ((st1.event .lock).charge resv size a).event .unlock), ?_, ?_⟩
    · have hk1 : cfg.fake (st1.event .lock).fakes = true := by rw [event, hfk]; exact hk
      simp [finish, loop, hseek, hk1, wsub_of_le (Nat.le_refl size) hs.size_lt]
    · have htook : Took (st1.event .lock) ((st1.event .lock).charge resv size a)
          [⟨a, lenToNquantum size⟩] := by
        refine .cons hp ?_ (.nil _)
        rw [event, hdb]
        exact fit_free hfit
      obtain ⟨nb, hnb, hin⟩ := htook.attached
      refine ⟨?_, htook.apart, ⟨nb, hdb ▸ hnb, hin⟩, ?_, ?_, ?_⟩
      · simp [event, charge, hev, hs.unlocked, Disciplined]
      · simp [chainLen, page_dvd_run hp]
      · simp only [event, charge_size _ _ hle, hsize]
      · simp only [event, charge_size _ _ hle, hsize]

end TySt

open TySt

/-- A call keeps its books exactly in the good cases, whatever the size, the flags, the restrictions
and the state. -/
theorem tymem_rdb_alloc_all_or_nothing {cfg : TyCfg} {st : TySt} {size fuel : Nat}
    (hs : st.Sound cfg size) (hp : pageSize ∣ size) (hf : size < fuel) :
    (∃ r, tymemRdbAlloc cfg fuel st size = some r ∧ AllOrNothing (cfg.resv st size) size st r) ↔
      cfg.Survives st size := by
  unfold tymemRdbAlloc
  cases hc : st.chkAndIncr cfg size with
  | none =>
    refine ⟨fun _ => .inl (chkAndIncr_none hc), fun _ => ⟨_, rfl, ?_⟩⟩
    exact ⟨by simp [hs.unlocked, Disciplined], rfl, rfl, rfl⟩
  | some p =>
    obtain ⟨-, hresv, -⟩ := chkAndIncr_some hc
    rw [← hresv]
    constructor
    · rintro ⟨r, hr, h⟩
      exact survives_of_kept hs hc hr h
    · exact kept_of_survives hs hp hf hc

/-! ### Four ways to lose count -/

/-- The first page after all that is attached, and not before `start`. -/
def nextPage (db : List RsrcBlock) (start : Nat) : Nat :=
  lenToNquantum (db.foldr (fun b m => max m (b.start + b.len)) start) * pageSize

theorem le_nextPage (db : List RsrcBlock) (start : Nat) :
    start ≤ nextPage db start ∧ ∀ b ∈ db, b.start + b.len ≤ nextPage db start := by
  have h : start ≤ db.foldr (fun b m => max m (b.start + b.len)) start ∧
      ∀ b ∈ db, b.start + b.len ≤ db.foldr (fun b m => max m (b.start + b.len)) start := by
    induction db with
    | nil => simp
    | cons c db ih =>
      refine ⟨ih.1.trans (Nat.le_max_left _ _), ?_⟩
      intro b hb
      obtain rfl | hb := mem_cons.mp hb
      · exact Nat.le_max_right _ _
      · exact (ih.2 b hb).trans (Nat.le_max_left _ _)
  have hrun := le_run (db.foldr (fun b m => max m (b.start + b.len)) start)
  unfold nextPage
  exact ⟨by omega, fun b hb => by have := h.2 b hb; omega⟩

def bumpDb : Rsrcdbmgr where
  attach := fun db r n =>
    if nextPage (db.filter fun b => decide (b.start ≤ r.stop)) r.start + n ≤ r.stop + 1 then
      some (nextPage (db.filter fun b => decide (b.start ≤ r.stop)) r.start)
    else none
  detach := fun db p n => if ⟨p, n⟩ ∈ db then some (db.erase ⟨p, n⟩) else none
  attach_within := by
    intro db r n a h
    split at h
    · cases h
      exact ⟨(le_nextPage _ _).1, by assumption⟩
    · cases h
  attach_aligned := by
    intro db r n a h
    split at h
    · cases h
      exact Dvd.intro_left _ rfl
    · cases h
  attach_free := by
    intro db r n a h b hb
    split at h
    · cases h
      by_cases hbs : b.start ≤ r.stop
      · exact .inr ((le_nextPage _ _).2 b (by simp [hb, hbs]))
      left
      dsimp only
      omega
    · cases h

/-- Typed memory in the given ranges with `minSize` bytes reserved, and a heap for every fake run or
for none. -/
def tyRanges (r : Restrict) (rs : List Restrict) (minSize : Nat) (fake : Bool) : TyCfg where
  sizeBits := 32
  memBits := 64
  mgr := bumpDb
  restrict := r
  others := rs
  contig := false
  installed := true
  grants := true
  minSize := minSize
  unreserve := fun _ z => z
  fake := fun _ => fake

def tyIdle : TySt where
  size := ⟨⟨16384, 0⟩, ⟨49152, 0⟩⟩
  cur := 0
  db := []
  events := []
  fakes := 0

theorem tymem_rdb_alloc_two_pages :
    ∃ r, tymemRdbAlloc (tyRanges ⟨4096, 8191⟩ [⟨16384, 20479⟩] 0 true) 8193 tyIdle 8192 = some r ∧
      AllOrNothing 0 8192 tyIdle r := by
  refine (tymem_rdb_alloc_all_or_nothing ⟨by decide, by decide, by decide, rfl⟩ ⟨2, rfl⟩
    (by decide)).mpr (.inr (.inl ⟨rfl, .inr (.inr ?_)⟩))
  exact .more (m := 4096) (a := 4096) (by decide) (by decide) rfl ⟨1, rfl⟩ (by decide)
    (.last (a := 16384) (by decide) (by decide) rfl ⟨1, rfl⟩)

/-- A page is left of two: the mutex is locked again by the undo. The heap is full: it is unlocked
twice. A reserved page is charged for each of two pieces. Three pages are halved to a page and a half
and each half takes two. -/
theorem tymem_rdb_alloc_loses_count :
    (¬ ∃ r, tymemRdbAlloc (tyRanges ⟨4096, 8191⟩ [] 0 true) 8193 tyIdle 8192 = some r ∧
      AllOrNothing 0 8192 tyIdle r) ∧
    (¬ ∃ r, tymemRdbAlloc (tyRanges ⟨4096, 8191⟩ [] 0 false) 4097 tyIdle 4096 = some r ∧
      AllOrNothing 0 4096 tyIdle r) ∧
    (¬ ∃ r, tymemRdbAlloc (tyRanges ⟨4096, 8191⟩ [⟨16384, 20479⟩] 4096 true) 8193 tyIdle 8192 =
      some r ∧ AllOrNothing 4096 8192 tyIdle r) ∧
    ¬ ∃ r, tymemRdbAlloc (tyRanges ⟨4096, 12287⟩ [⟨16384, 24575⟩] 0 true) 12289 tyIdle 12288 =
      some r ∧ AllOrNothing 0 12288 tyIdle r := by
  refine ⟨?_, ?_, ?_, ?_⟩
  · rintro ⟨r, hr, h⟩
    cases hr
    exact h.1
  · rintro ⟨r, hr, h⟩
    cases hr
    exact h.1
  · rintro ⟨r, hr, h⟩
    cases hr
    exact absurd h.2.2.2.2.1 (by decide)
  · rintro ⟨r, hr, h⟩
    cases hr
    exact absurd h.2.2.2.1 (by decide)

end Qnx.Memmgr
