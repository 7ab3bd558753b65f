import Qnx.Alloc.Lists

/-!
# The band allocator and the calls of the C library

`barena.c`, `band.c` and `malloc.c`. Small elements come from blocks, a block from an element of a
band arena. A list node is known by its address; while it is out its word leads to a block, the one
`free` will give it back to.
-/

namespace Qnx.Alloc

/-- A block that is gone, an empty list, or a word that is no header is met; or the fuel of the model
is spent. -/
inductive Fault where
  | corrupt | fuel
  deriving DecidableEq, Repr

/-- `Block` of band number `band`, with the band arena its arena element belongs to. -/
structure Block where
  addr : Nat
  band : Nat
  arena : Nat
  head : List Nat
  navail : Nat
  deriving DecidableEq, Repr

structure BandArena where
  addr : Nat
  size : Nat
  nused : Nat
  ntotal : Nat
  ahead : List Nat
  deriving DecidableEq, Repr

/-- The `alist` and `dlist` of a band are the blocks with its number. `nodes` are the nodes that are
out with the blocks they lead to, `head` and `dhead` the band arenas with and without room. -/
structure Small where
  alist : List Block
  dlist : List Block
  nodes : List (Nat × Nat)
  head : List BandArena
  dhead : List BandArena
  deriving DecidableEq, Repr

def Config.nalloc (cfg : Config) (nbpe : Nat) : Nat :=
  (cfg.elemSize - (64 + bandRem nbpe)) / esize nbpe

/-- The block of the arena element at `e`, behind its 32 bytes of header, and back. -/
def blockAddr (nbpe e : Nat) : Nat := e + 32 + bandRem nbpe

def Block.elem (b : Block) (nbpe : Nat) : Nat := b.addr - 32 - bandRem nbpe

def nodesOf (cfg : Config) (nbpe b : Nat) : List Nat :=
  (List.range (cfg.nalloc nbpe)).map fun i => b + 28 + i * esize nbpe

def takeElem (cfg : Config) (a : BandArena) : Nat × BandArena :=
  match a.ahead with
  | e :: ahead => (e, { a with ahead := ahead, nused := a.nused + 1 })
  | [] => (a.addr + a.nused * cfg.elemSize, { a with nused := a.nused + 1 })

def getBarena (cfg : Config) (c : Core) (m : Small) : Option (Nat × Nat) × Core × Small :=
  let take (c : Core) (a : BandArena) (rest : List BandArena) :=
    let (e, a) := takeElem cfg a
    (some (e, a.addr), c,
      if a.nused = a.ntotal then { m with head := rest, dhead := a :: m.dhead }
      else { m with head := a :: rest })
  match m.head with
  | a :: rest => take c a rest
  | [] =>
    match c.morecore cfg.amblksiz with
    | (none, c) => (none, c, m)
    | (some e, c) => take c ⟨e.1, e.2, 0, e.2 / cfg.elemSize, []⟩ []

def returnBarena (cfg : Config) (c : Core) (m : Small) (e addr : Nat) :
    Except Fault (Core × Small) :=
  let give (a : BandArena) (head dhead : List BandArena) :=
    let a := { a with nused := a.nused - 1 }
    if a.nused = 0 then
      (c.donecore cfg (a.addr, a.size), { m with head := head.filter fun x => x.addr ≠ addr, dhead })
    else
      let a := { a with ahead := e :: a.ahead }
      (c, { m with head := head.map fun x => if x.addr = addr then a else x, dhead })
  match m.head.find? fun a => a.addr = addr with
  | some a => .ok (give a m.head m.dhead)
  | none =>
    match m.dhead.find? fun a => a.addr = addr with
    | some a => .ok (give a (a :: m.head) (m.dhead.filter fun x => x.addr ≠ addr))
    | none => .error .corrupt

def newBlock (cfg : Config) (i nbpe e arena : Nat) : Block :=
  ⟨blockAddr nbpe e, i, arena, nodesOf cfg nbpe (blockAddr nbpe e), cfg.nalloc nbpe⟩

def bandAddblk (cfg : Config) (c : Core) (m : Small) (i nbpe : Nat) : Bool × Core × Small :=
  match getBarena cfg c m with
  | (none, c, m) => (false, c, m)
  | (some (e, arena), c, m) =>
    (true, c, { m with alist := newBlock cfg i nbpe e arena :: m.alist })

def setBlock (b : Block) (l : List Block) : List Block :=
  l.map fun y => if y.addr = b.addr then b else y

def dropBlock (addr : Nat) (l : List Block) : List Block := l.filter fun y => y.addr ≠ addr

/-- The node and its block that `_band_get_aligned` finds in `blocks`: the first node of the first
block, or for more than `_MALLOC_ALIGN` the first aligned node of any. -/
def bandFind (al : Nat) (blocks : List Block) : Except Fault (Option (Block × Nat)) :=
  if al ≠ 8 then
    .ok (blocks.findSome? fun b =>
      (b.head.find? fun x => trunc (x + 4) al = x + 4).map fun x => (b, x))
  else match blocks with
    | [] => .ok none
    | b :: _ =>
      match b.head with
      | [] => .error .corrupt
      | x :: _ => .ok (some (b, x))

/-- Node `x` of block `b` goes out. It is counted against block `which` and leads to it, whichever
block it was taken from. -/
def takeNode (m : Small) (which : Block) (b : Block) (x : Nat) : Small :=
  let alist := setBlock { b with head := b.head.erase x } m.alist
  let w := (alist.find? fun y => y.addr = which.addr).getD which
  let w : Block := { w with navail := w.navail - 1 }
  let nodes := (x, which.addr) :: m.nodes
  if w.navail = 0 then
    { m with alist := dropBlock w.addr alist, dlist := w :: m.dlist, nodes := nodes }
  else { m with alist := setBlock w alist, nodes := nodes }

/-- `_band_get_aligned` from band `i`, cut off after `fuel` new blocks. -/
def bandGetAligned (cfg : Config) (i nbpe al : Nat) :
    Nat → Core → Small → Except Fault (Option Nat × Core × Small)
  | fuel, c, m =>
    let blocks := m.alist.filter fun b => b.band = i
    match bandFind al blocks, blocks.head? with
    | .error f, _ => .error f
    | .ok (some (b, x)), some which => .ok (some (x + 4), c, takeNode m which b x)
    | .ok _, _ =>
      match fuel with
      | 0 => .error .fuel
      | fuel + 1 =>
        match bandAddblk cfg c m i nbpe with
        | (false, c, m) => .ok (none, c, m)
        | (true, c, m) => bandGetAligned cfg i nbpe al fuel c m

def Small.findBlock (m : Small) (addr : Nat) : Option Block :=
  (m.alist ++ m.dlist).find? fun b => b.addr = addr

/-- `_band_rlse` of node `x`, whose word leads to the block at `addr`: a depleted block may be taken
from again, and a block that is all free is returned. -/
def bandRlse (cfg : Config) (c : Core) (m : Small) (x addr : Nat) : Except Fault (Core × Small) :=
  match m.findBlock addr with
  | none => .error .corrupt
  | some b =>
    match cfg.bands[b.band]? with
    | none => .error .corrupt
    | some nbpe =>
      -- behind the end of the block nothing is done
      if b.addr + 32 + esize nbpe * cfg.nalloc nbpe < x + 4 + nbpe then .ok (c, m)
      else
        let nodes := m.nodes.erase (x, addr)
        let b := { b with head := x :: b.head, navail := b.navail + 1 }
        if b.navail = 1 then
          .ok (c, { m with alist := b :: m.alist, dlist := dropBlock addr m.dlist, nodes := nodes })
        else if b.navail = cfg.nalloc nbpe then
          returnBarena cfg c { m with alist := dropBlock addr m.alist, nodes := nodes }
            (b.elem nbpe) b.arena
        else
          .ok (c, { m with
            alist := setBlock b m.alist, dlist := setBlock b m.dlist, nodes := nodes })

structure AllocSt where
  core : Core
  lists : Lists
  small : Small
  deriving DecidableEq, Repr

def newSelBand (cfg : Config) (size : Nat) : Option Nat := cfg.bands.findIdx? fun n => size ≤ n

def selectBand (cfg : Config) (al size : Nat) : Option Nat :=
  cfg.bands.findIdx? fun n =>
    size ≤ n ∧ al / esize n ≤ cfg.nalloc n ∧ al / esize n * esize n = al

namespace AllocSt

def fromBand (cfg : Config) (s : AllocSt) (i al : Nat) : Except Fault (Option Nat × AllocSt) :=
  (bandGetAligned cfg i (cfg.bands.getD i 0) al 1 s.core s.small).map fun r =>
    (r.1, { s with core := r.2.1, small := r.2.2 })

def fromList (cfg : Config) (s : AllocSt) (al n : Nat) : Option Nat × AllocSt :=
  let r := listMemalign cfg s.core s.lists al n
  (r.1, { s with core := r.2.1, lists := r.2.2 })

def malloc (cfg : Config) (s : AllocSt) (size : Nat) : Except Fault (Option Nat × AllocSt) :=
  if 2 ^ 31 ≤ size then .ok (none, s)
  else match newSelBand cfg size with
    | some i => s.fromBand cfg i 8
    | none => .ok (s.fromList cfg 8 size)

def memalign (cfg : Config) (s : AllocSt) (al size : Nat) : Except Fault (Option Nat × AllocSt) :=
  if 2 ^ 31 ≤ size then .ok (none, s)
  else if al % 8 ≠ 0 then .ok (none, s)
  else if al = 0 ∨ al = 8 then s.malloc cfg size
  else match selectBand cfg al size with
    | some i => s.fromBand cfg i al
    | none => .ok (s.fromList cfg al size)

/-- `posix_memalign`: what it stores, for an alignment that is a power of two and a multiple of
`_MALLOC_ALIGN`. -/
def posixMemalign (cfg : Config) (s : AllocSt) (al size : Nat) :
    Except Fault (Option Nat × AllocSt) :=
  if al &&& (al - 1) ≠ 0 ∨ trunc al 8 ≠ al then .ok (none, s) else s.memalign cfg al size

/-- `free`; the word before the block is an offset or a size. -/
def free (cfg : Config) (s : AllocSt) (ptr : Nat) : Except Fault AllocSt :=
  match s.small.nodes.find? fun x => x.1 = ptr - 4 with
  | some (x, b) =>
    if x < b then .error .corrupt
    else (bandRlse cfg s.core s.small x b).map fun r => { s with core := r.1, small := r.2 }
  | none =>
    match s.lists.busy.find? fun d => d.1 = ptr - 4 with
    | some d =>
      let r := listRelease cfg s.core s.lists d
      .ok { s with core := r.1, lists := r.2 }
    | none => .error .corrupt

def msize (cfg : Config) (s : AllocSt) (ptr : Nat) : Option Nat :=
  match s.small.nodes.find? fun x => x.1 = ptr - 4 with
  | some (x, b) =>
    if x < b then none
    else (s.small.findBlock b).bind fun b => cfg.bands[b.band]?
  | none => (s.lists.busy.find? fun d => d.1 = ptr - 4).map fun d => d.2 - 8

/-- The end of `realloc`: a new block, and the old one is freed. -/
def move (cfg : Config) (s : AllocSt) (ptr size : Nat) : Except Fault (Option Nat × AllocSt) :=
  match s.malloc cfg size with
  | .error f => .error f
  | .ok (none, s) => .ok (none, s)
  | .ok (some x, s) => (s.free cfg ptr).map fun s => (some x, s)

/-- What `realloc` asks for when a block of `osize` bytes cannot grow where it is, unless growth is
monotonic. -/
def growth (cfg : Config) (monotonic : Bool) (osize size : Nat) : Nat :=
  if ¬monotonic ∧ cfg.amblksiz * 4 < osize ∧ size < osize + osize / 2 then osize + osize / 2
  else size

def realloc (cfg : Config) (monotonic : Bool) (s : AllocSt) (ptr size : Nat) :
    Except Fault (Option Nat × AllocSt) :=
  if ptr = 0 then s.malloc cfg size
  else if size = 0 then (s.free cfg ptr).map fun s => (none, s)
  else if 2 ^ 31 ≤ size then .ok (none, s)
  else match s.msize cfg ptr with
    | none => .error .corrupt
    | some osize =>
      match newSelBand cfg osize, newSelBand cfg size with
      | was, some will => if was = some will then .ok (some ptr, s) else s.move cfg ptr size
      | some _, none => s.move cfg ptr size
      | none, none =>
        match s.lists.busy.find? fun d => d.1 = ptr - 4 with
        | none => .error .corrupt
        | some d =>
          match listResize cfg s.lists d size with
          | some l => .ok (some ptr, { s with lists := l })
          | none => s.move cfg ptr (growth cfg monotonic osize size)

/-- `calloc`; the product is one of words. -/
def calloc (cfg : Config) (s : AllocSt) (n size : Nat) : Except Fault (Option Nat × AllocSt) :=
  s.malloc cfg (n * size % word)

end AllocSt

end Qnx.Alloc
