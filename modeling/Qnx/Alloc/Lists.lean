import Mathlib.Data.Nat.Log
import Qnx.Shared.Apart

/-!
# The list allocator of the C library

`core.c`, `flist.c` and `dlist.c`, on 32-bit words. A chunk is the address of its `Dhead` and its
size. Header and tail agree, so a chunk is free exactly when it is on a bin, and its neighbours are
the chunks that end where it starts and start where it ends. The statistics are left out.
-/

namespace Qnx.Alloc

open Extents (Extent)

def word : Nat := 2 ^ 32

/-- `__ROUND` -/
def roundUp (n m : Nat) : Nat := m * ((n + (m - 1)) % word / m) % word

def trunc (n m : Nat) : Nat := m * (n / m)

def sub (a b : Nat) : Nat := (a + (word - b % word)) % word

def psiz : Nat := 4096

/-- `UNITSIZE`, with `D_OVERHEAD()` 8. -/
def unitSize (n : Nat) : Nat := roundUp (n + 8) 8

def alignUnitSize (al n : Nat) : Nat := (roundUp n al + roundUp 8 al) % word

/-- `TOTAL_ARENA_OVERHEAD()`; the first chunk starts 20 bytes into the arena. -/
def arenaOverhead : Nat := 24

def minFsize : Nat := 16

/-- `esize` of a band with elements of `n` bytes, with `SB_OVERHEAD()` 8. -/
def esize (n : Nat) : Nat := n + 8

/-- `rem` of a band, with 28 bytes for a `Block` and 4 for a `ListNode`: what is handed out lies at
multiples of `esize` behind the header of the arena element. -/
def bandRem (n : Nat) : Nat := roundUp 32 (esize n) - 32

def closestPowerOf2 (n : Nat) : Nat := if n = 0 then 0 else 2 ^ Nat.log2 n

/-- What the library is set up with, once `__malloc_sizes_init` has run. In a band whose `esize` is a
power of two above 32 no node is aligned to it, however many blocks an aligned request adds. -/
structure Config where
  bands : List Nat
  elemSize : Nat
  amblksiz : Nat
  lifo : Bool
  cacheMaxNum : Nat
  cacheMaxSz : Nat
  bands_ne : bands ≠ []
  bands_ok : ∀ n ∈ bands, 8 ∣ n ∧ 0 < n ∧ n < 2 ^ 15
  bands_sorted : bands.Pairwise (· ≤ ·)
  bands_fit : ∀ n ∈ bands, 64 + bandRem n + esize n ≤ elemSize
  bands_power : ∀ n ∈ bands, esize n ≤ 32 ∨ 2 ^ Nat.log2 (esize n) ≠ esize n
  elem_ok : psiz ∣ elemSize ∧ elemSize ≤ amblksiz
  amblksiz_ok : psiz ∣ amblksiz ∧ amblksiz ≤ 2 ^ 18

namespace Config

/-- `malloc-config.c`, without settings from the environment. -/
def standard : Config where
  bands := [16, 24, 32, 48, 64, 80, 96, 128]
  elemSize := 4096
  amblksiz := 32768
  lifo := false
  cacheMaxNum := 12
  cacheMaxSz := 0
  bands_ne := by decide
  bands_ok := by decide
  bands_sorted := by decide
  bands_fit := by decide
  bands_power := by decide
  elem_ok := by decide
  amblksiz_ok := by decide

def maxBandSize (cfg : Config) : Nat := cfg.bands.getLast cfg.bands_ne

/-- `_min_free_list_size` -/
def minFree (cfg : Config) : Nat := unitSize (cfg.maxBandSize + 1)

/-- `__flist_abins[i].size` -/
def binSize (cfg : Config) (i : Nat) : Nat := closestPowerOf2 cfg.maxBandSize * 2 ^ (i + 1)

def findNbin (cfg : Config) (size : Nat) : Nat :=
  min ((List.range 9).findIdx fun i => size ≤ cfg.binSize i) 8

end Config

/-- The cached cores, and the hole in the address space the next `mmap` may use. -/
structure Core where
  cache : List Extent
  hole : Option Extent
  deriving DecidableEq, Repr

/-- `__getmem`: the mapping is at the start of the hole, if it is large enough. -/
def Core.getmem (c : Core) (nbytes : Nat) : Option Nat × Core :=
  match c.hole with
  | some (a, room) => if nbytes ≤ room then (some a, { c with hole := none }) else (none, c)
  | none => (none, c)

def Core.morecore (c : Core) (nbytes : Nat) : Option Extent × Core :=
  match c.cache.find? fun e => nbytes ≤ e.2 with
  | some e => (some e, { c with cache := c.cache.erase e })
  | none =>
    match c.getmem nbytes with
    | (some a, c) => (some (a, nbytes), c)
    | (none, c) => (none, c)

def Core.donecore (cfg : Config) (c : Core) (e : Extent) : Core :=
  if cfg.cacheMaxSz = 0 ∧ cfg.cacheMaxNum = 0 ∨
      cfg.cacheMaxSz ≠ 0 ∧ cfg.cacheMaxSz < (c.cache.map Prod.snd).sum + e.2 ∨
      cfg.cacheMaxNum ≠ 0 ∧ cfg.cacheMaxNum ≤ c.cache.length then c
  else { c with cache := e :: c.cache }

structure Lists where
  arenas : List Extent
  bins : List (List Extent)
  busy : List Extent
  deriving DecidableEq, Repr

/-- `__flist_enqueue_bin`; the queue is first in first out unless set up otherwise. -/
def enqueueBin (cfg : Config) (c : Extent) (bins : List (List Extent)) : List (List Extent) :=
  bins.modify (cfg.findNbin c.2) fun b => if cfg.lifo then c :: b else b ++ [c]

def dequeueBin (a : Nat) (bins : List (List Extent)) : List (List Extent) :=
  bins.map fun b => b.filter fun c => c.1 ≠ a

def setSize (a size : Nat) (bins : List (List Extent)) : List (List Extent) :=
  bins.map fun b => b.map fun c => if c.1 = a then (a, size) else c

structure Fit where
  entry : Extent
  pos : Nat
  bin : Nat
  spare : Nat
  deriving DecidableEq, Repr

/-- Where `_flist_bin_first_fit` puts `size` bytes in chunk `cur`, and what stays in front. -/
def fitIn (cfg : Config) (al size : Nat) (cur : Extent) : Option (Nat × Nat) :=
  if size ≤ cur.2 then
    if size + cfg.minFree + minFsize ≤ cur.2 then
      let candidate := trunc (cur.1 + cur.2 - 4 - (size - 8)) al - 4
      if cur.1 + (cfg.minFree + minFsize) ≤ candidate then some (candidate, candidate - cur.1)
      else none
    else if trunc (cur.1 + 4) al = cur.1 + 4 then some (cur.1, 0)
    else none
  else none

def firstFit (cfg : Config) (bins : List (List Extent)) (al size : Nat) : Option Fit :=
  let start := cfg.findNbin size
  ((List.range' start (9 - start)).flatMap fun i => (bins.getD i []).map fun c => (i, c)).findSome?
    fun p => (fitIn cfg al size p.2).map fun q => ⟨p.2, q.1, p.1, q.2⟩

def addmem (cfg : Config) (c : Core) (l : Lists) (nb : Nat) (alignpage : Bool) :
    Option Extent × Core × Lists :=
  let nbytes := roundUp ((nb + arenaOverhead) % word) (if alignpage then psiz else cfg.amblksiz)
  match c.morecore nbytes with
  | (none, c) => (none, c, l)
  | (some e, c) => (some (e.1 + 20, e.2 - arenaOverhead), c, { l with arenas := l.arenas ++ [e] })

def takeFit (cfg : Config) (fit : Fit) (bins : List (List Extent)) : Extent × List (List Extent) :=
  if fit.spare = 0 then (fit.entry, dequeueBin fit.entry.1 bins)
  else
    let rest := (fit.entry.1, fit.spare)
    ((fit.pos, fit.entry.2 - fit.spare),
      if cfg.findNbin fit.spare = fit.bin then setSize fit.entry.1 fit.spare bins
      else enqueueBin cfg rest (dequeueBin fit.entry.1 bins))

/-- The end of `_list_memalign`: what is too much of `dlink` goes to a bin, from its end if it is
aligned and from its start if not. -/
def carve (cfg : Config) (al nbytes : Nat) (dlink : Extent) (bins : List (List Extent)) :
    Extent × List (List Extent) :=
  let spare := sub dlink.2 nbytes
  if al = 8 ∨ trunc (dlink.1 + 4) al = dlink.1 + 4 then
    if cfg.minFree + minFsize ≤ spare then
      ((dlink.1, nbytes), enqueueBin cfg (dlink.1 + nbytes, spare) bins)
    else (dlink, bins)
  else if cfg.minFree + minFsize ≤ spare then
    let vptr := (dlink.1 + spare + 4) % word
    let caddr := trunc vptr al
    ((sub caddr 4, nbytes + (vptr - caddr)),
      enqueueBin cfg (dlink.1, sub spare (vptr - caddr)) bins)
  else (dlink, bins)

/-- `_list_memalign`, for an alignment that is a multiple of 8. -/
def listMemalign (cfg : Config) (c : Core) (l : Lists) (al n : Nat) : Option Nat × Core × Lists :=
  let nbytes := unitSize n
  if 2 ^ 31 ≤ nbytes then (none, c, l)
  else
    let split := n < cfg.binSize 8
    match (if split then firstFit cfg l.bins al nbytes else none) with
    | some fit =>
      let (dlink, bins) := takeFit cfg fit l.bins
      let (dlink, bins) := carve cfg al nbytes dlink bins
      (some ((dlink.1 + 4) % word), c, { l with bins := bins, busy := dlink :: l.busy })
    | none =>
      match addmem cfg c l (alignUnitSize al n) (!split) with
      | (none, c, l) => (none, c, l)
      | (some dlink, c, l) =>
        let (dlink, bins) := if split then carve cfg al nbytes dlink l.bins else (dlink, l.bins)
        (some ((dlink.1 + 4) % word), c, { l with bins := bins, busy := dlink :: l.busy })

/-- The free chunk that starts at `a`: `_ADJACENT` of the one before, if it is free. -/
def Lists.freeAt (l : Lists) (a : Nat) : Option Extent := l.bins.flatten.find? fun c => c.1 = a

/-- The free chunk that ends at `a`: what `DT_TO_FLINK` gives, if it is free. -/
def Lists.freeBefore (l : Lists) (a : Nat) : Option Extent :=
  l.bins.flatten.find? fun c => c.1 + c.2 = a

/-- The arena a chunk is all of: `DT_ISARENA` before it and `DH_ISARENA` behind it. -/
def Lists.wholeArena (l : Lists) (c : Extent) : Option Extent :=
  l.arenas.find? fun e => e.1 + 20 = c.1 ∧ c.1 + c.2 + 4 = e.1 + e.2

/-- `cache_delmem` -/
def delmem (cfg : Config) (c : Core) (l : Lists) (e : Extent) : Core × Lists :=
  (c.donecore cfg e, { l with arenas := l.arenas.erase e })

def joinNext (l : Lists) (this : Extent) : Extent × List (List Extent) :=
  match l.freeAt (this.1 + this.2) with
  | some next => ((this.1, this.2 + next.2), dequeueBin next.1 l.bins)
  | none => (this, l.bins)

def listRelease (cfg : Config) (c : Core) (l : Lists) (dh : Extent) : Core × Lists :=
  let l := { l with busy := l.busy.erase dh }
  match l.freeBefore dh.1 with
  | some prev =>
    let (this, bins) := joinNext l (prev.1, prev.2 + dh.2)
    match l.wholeArena this with
    | some e => delmem cfg c { l with bins := dequeueBin this.1 bins } e
    | none =>
      if cfg.findNbin prev.2 = cfg.findNbin this.2 then
        (c, { l with bins := setSize this.1 this.2 bins })
      else (c, { l with bins := enqueueBin cfg this (dequeueBin this.1 bins) })
  | none =>
    let (this, bins) := joinNext l dh
    match l.wholeArena this with
    | some e => delmem cfg c { l with bins := bins } e
    | none => (c, { l with bins := enqueueBin cfg this bins })

/-- `_list_resize` of the busy chunk `this`; `none` when it cannot have `n` bytes where it is. -/
def listResize (cfg : Config) (l : Lists) (this : Extent) (n : Nat) : Option Lists :=
  let nbytes := unitSize n
  if 2 ^ 31 ≤ n ∨ 2 ^ 31 ≤ nbytes then none
  else
    let (grown, bins) := joinNext l this
    if grown.2 < nbytes then none
    else
      let spare := grown.2 - nbytes
      let busy := l.busy.erase this
      if cfg.minFree ≤ spare then
        some { l with
          bins := enqueueBin cfg (this.1 + nbytes, spare) bins
          busy := (this.1, nbytes) :: busy }
      else some { l with bins := bins, busy := grown :: busy }

end Qnx.Alloc
