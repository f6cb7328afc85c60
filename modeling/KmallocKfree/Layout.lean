import KmallocKfree.MachineInt
import KmallocKfree.Program

/-!
# Data types of the allocator

The four structures of `common.h` have the same 16-byte layout on x86_64: a
pointer at offset 0 and two 32-bit words at offsets 8 and 12. Page headers, free
nodes, block headers and user data live in the same bytes; only the static type
of the pointer tells them apart.
-/
namespace KmallocKfree

/-- Static types of the pointers the allocator goes through; `bytes` is the
`void *` of a memset over a block. -/
inductive Struct where
  | pageheader
  | pagefreenode
  | header
  | freenode
  | bytes
  deriving DecidableEq

/-- The mutable globals of `pmm.c`; `pagehead i` is `cpupagelist[i].pagehead`. -/
inductive Global where
  | head
  | pagehead (cpu : ℕ)
  deriving DecidableEq

/-- The lock words; `pagelist i` is `cpupagelist[i].lock`. -/
inductive Lock where
  | heapLock
  | pagelist (cpu : ℕ)
  deriving DecidableEq

/-- The assertions of `pmm.c`, in source order. -/
inductive Check where
  | lockTaken
  | prenodeLinked
  | oldfreenodeIsHead
  | oldfreenodeLarger
  | cpuInRange
  | firstPageAllocated
  | fastSizeMatches
  | fastNodeMagic
  | fastNextIndex
  | fastSplitSize
  | fastSplitIndex
  | fastSplitInPage
  | slowNodeIndex
  | ptrNotNull
  | pageFlagged
  | mergedIndexPositive
  | pushedIndexPositive
  | headerMagic
  | headNotNull
  deriving DecidableEq

abbrev Code (α : Type) := Prog Struct Global Lock Check α

abbrev PmmState := Store Global Lock

/-- What the machine hands over: the heap area and the processors. -/
structure Platform where
  heapStart : ℕ
  heapEnd : ℕ
  cpuCount : ℕ
  heapStart_pos : 0 < heapStart
  heapStart_le : heapStart ≤ heapEnd
  heapEnd_lt : heapEnd < 18446744073709551616
  cpuCount_pos : 0 < cpuCount
  cpuCount_le : cpuCount ≤ 16

section Fields

def readPtr (k : Struct) (p : ℕ) : Code ℕ := Prog.perform (.load k p 0 8)
def writePtr (k : Struct) (p v : ℕ) : Code Unit := do
  let _ ← Prog.perform (.store k p 0 8 v)
  pure ()
def readWord (k : Struct) (p off : ℕ) : Code ℕ := Prog.perform (.load k p off 4)
def writeWord (k : Struct) (p off v : ℕ) : Code Unit := do
  let _ ← Prog.perform (.store k p off 4 v)
  pure ()
def readInt (k : Struct) (p off : ℕ) : Code ℤ := do
  let w ← readWord k p off
  pure (toInt w)
def writeInt (k : Struct) (p off : ℕ) (i : ℤ) : Code Unit := writeWord k p off (toWord i)

end Fields

namespace Pageheader

abbrev next : ℕ → Code ℕ := readPtr .pageheader
abbrev size (p : ℕ) : Code ℤ := readInt .pageheader p 8
abbrev pagefreeheadIndex (p : ℕ) : Code ℕ := readWord .pageheader p 12
abbrev setNext : ℕ → ℕ → Code Unit := writePtr .pageheader
abbrev setSize (p : ℕ) (i : ℤ) : Code Unit := writeInt .pageheader p 8 i
abbrev setPagefreeheadIndex (p : ℕ) (v : ℕ) : Code Unit := writeWord .pageheader p 12 v

end Pageheader

namespace Pagefreenode

abbrev next : ℕ → Code ℕ := readPtr .pagefreenode
abbrev size (p : ℕ) : Code ℤ := readInt .pagefreenode p 8
abbrev magic (p : ℕ) : Code ℤ := readInt .pagefreenode p 12
abbrev setNext : ℕ → ℕ → Code Unit := writePtr .pagefreenode
abbrev setSize (p : ℕ) (i : ℤ) : Code Unit := writeInt .pagefreenode p 8 i
abbrev setMagic (p : ℕ) (i : ℤ) : Code Unit := writeInt .pagefreenode p 12 i

end Pagefreenode

namespace Header

abbrev size (p : ℕ) : Code ℤ := readInt .header p 8
abbrev magic (p : ℕ) : Code ℤ := readInt .header p 12
abbrev setSize (p : ℕ) (i : ℤ) : Code Unit := writeInt .header p 8 i
abbrev setMagic (p : ℕ) (i : ℤ) : Code Unit := writeInt .header p 12 i

end Header

namespace Freenode

abbrev next : ℕ → Code ℕ := readPtr .freenode
abbrev size (p : ℕ) : Code ℤ := readInt .freenode p 8
abbrev setNext : ℕ → ℕ → Code Unit := writePtr .freenode
abbrev setSize (p : ℕ) (i : ℤ) : Code Unit := writeInt .freenode p 8 i

end Freenode

def getGlobal (x : Global) : Code ℕ := Prog.perform (.get x)
def setGlobal (x : Global) (v : ℕ) : Code Unit := do
  let _ ← Prog.perform (.set x v)
  pure ()

/-- `memset(p, 0, n)` through a pointer of type `k`. -/
def memset0 (k : Struct) (p n : ℕ) : Code Unit := do
  let _ ← Prog.perform (.fill k p n)
  pure ()

end KmallocKfree
