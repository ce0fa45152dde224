import Mathlib.Algebra.Group.Nat.Defs

/-!
# The memory pool

`ngx_pool.cpp`: small requests are cut from pages by a moving `last` pointer, and
a page counts the requests it serves; large requests get a node of their own.
Addresses are numbers.  The chains that `head`, `curr` and `large` point into are
lists, and `curr` is the position of its block in the chain.  What
`posix_memalign` or `malloc` returns is an argument, `none` for a failure.

The back pointer `pool` of a block is left out: nothing reads it.
-/

namespace NetTest.Pool

def wordSize : Nat := 2 ^ 64
def uintSize : Nat := 2 ^ 32
def pageSize : Nat := 4096
def ngxAlignment : Nat := 8
def sizeofPool : Nat := 24
def sizeofBlock : Nat := 48
def sizeofLarge : Nat := 16

/-- Increment and decrement of an `unsigned int`. -/
def succUint (n : Nat) : Nat := (n + 1) % uintSize
def predUint (n : Nat) : Nat := (n + uintSize - 1) % uintSize

/-- `ngx_align` and `ngx_align_ptr` on `size_t`. -/
def ngxAlign (n : Nat) : Nat := (n + (ngxAlignment - 1)) % wordSize / ngxAlignment * ngxAlignment

/-- `ngx_block_s`; the field the source calls `end` is `stop` here. -/
structure Block where
  addr : Nat
  start : Nat
  stop : Nat
  last : Nat
  ref : Nat
  faild : Nat
  deriving DecidableEq

structure Large where
  addr : Nat
  size : Nat
  deriving DecidableEq

/-- The flexible array member behind the header. -/
def Large.data (l : Large) : Nat := l.addr + sizeofLarge

structure NgxPool where
  blocks : List Block
  curr : Nat
  large : List Large

def createSize (size : Nat) : Nat :=
  if size < pageSize ∨ size % pageSize ≠ 0 then pageSize else size

/-- The first block lies behind the pool header and ends with the first page,
whatever size was asked for. -/
def newPool (pool : Nat) : NgxPool where
  blocks :=
    [{ addr := pool + sizeofPool
       start := pool + sizeofPool + sizeofBlock
       stop := pool + pageSize
       last := pool + sizeofPool + sizeofBlock
       ref := 0
       faild := 0 }]
  curr := 0
  large := []

def ngxCreatePool (mem : Option Nat) : Option NgxPool := mem.map newPool

def ngxAllocateLarge (pool : NgxPool) (size : Nat) (mem : Option Nat) : NgxPool × Option Nat :=
  match mem with
  | none => (pool, none)
  | some addr =>
      let large : Large := { addr := addr, size := size }
      ({ pool with large := pool.large ++ [large] }, some large.data)

/-- The loop over the chain from `curr` on: every block with a successor counts
a failure, and one that had more than four moves `current` past itself. -/
def countFailures (pos current : Nat) : List Block → List Block × Nat
  | [] => ([], current)
  | [b] => ([b], current)
  | b :: next :: rest =>
      let r := countFailures (pos + 1) (if 4 < b.faild then pos + 1 else current) (next :: rest)
      ({ b with faild := succUint b.faild } :: r.1, r.2)

def newBlock (block size : Nat) : Block where
  addr := block
  start := block + sizeofBlock
  stop := block + pageSize
  last := block + sizeofBlock + size
  ref := 1
  faild := 0

def ngxAllocateBlock (pool : NgxPool) (size : Nat) (mem : Option Nat) : NgxPool × Option Nat :=
  match mem with
  | none => (pool, none)
  | some block =>
      let r := countFailures pool.curr pool.curr (pool.blocks.drop pool.curr)
      ({ pool with
          blocks := pool.blocks.take pool.curr ++ r.1 ++ [newBlock block size]
          curr := r.2 }, some (newBlock block size).start)

/-- The address a block would return: `last`, aligned up. -/
def Block.memAddr (b : Block) : Nat := ngxAlign b.last

/-- `(size_t)(curr->end - mem_addr) >= size`. -/
def Block.fits (b : Block) (size : Nat) : Prop :=
  size ≤ (b.stop + wordSize - b.memAddr) % wordSize

instance (b : Block) (size : Nat) : Decidable (b.fits size) := inferInstanceAs (Decidable (_ ≤ _))

def Block.take (b : Block) (size : Nat) : Block :=
  { b with ref := succUint b.ref, last := b.memAddr + size }

def allocateFrom (size : Nat) : List Block → Option (List Block × Nat)
  | [] => none
  | b :: rest =>
      if b.fits size then some (b.take size :: rest, b.memAddr)
      else (allocateFrom size rest).map fun r => (b :: r.1, r.2)

def ngxPalloc (pool : NgxPool) (size : Nat) (mem : Option Nat) : NgxPool × Option Nat :=
  if size = 0 then (pool, none)
  else if pageSize - sizeofBlock < size then ngxAllocateLarge pool size mem
  else
    match allocateFrom size (pool.blocks.drop pool.curr) with
    | some r => ({ pool with blocks := pool.blocks.take pool.curr ++ r.1 }, some r.2)
    | none => ngxAllocateBlock pool size mem

def Block.restart (b : Block) : Block := if b.ref = 0 then { b with last := b.start } else b

def Block.release (b : Block) : Block := Block.restart { b with ref := predUint b.ref }

/-- The search of `ngx_free` along the chain, with its inclusive end test. -/
def releaseFrom (p : Nat) : List Block → Option (List Block)
  | [] => none
  | b :: rest =>
      if b.start ≤ p ∧ p ≤ b.stop then some (b.release :: rest)
      else (releaseFrom p rest).map (b :: ·)

def unlinkLarge (p : Nat) : List Large → List Large
  | [] => []
  | l :: rest => if p = l.data then rest else l :: unlinkLarge p rest

def ngxFree (pool : NgxPool) (p : Nat) : NgxPool :=
  if p = 0 then pool
  else
    match releaseFrom p pool.blocks with
    | some blocks => { pool with blocks := blocks }
    | none => { pool with large := unlinkLarge p pool.large }

end NetTest.Pool
