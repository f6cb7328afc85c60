import KmallocKfree.Layout

/-!
# The allocator

`pmm.c`, function by function. Pages of 64 KiB are carved from the front of the
first fitting node of the heap free list and belong to the list of one CPU; a
request above 16 KiB is carved from the tail of the highest fitting node, behind
a header. Field accesses, lock operations and assertions stand in the source's
order; a field that the source reads twice with no write in between may be read once.
-/
namespace KmallocKfree

open Prog

/-- `64 * 1024`. -/
def pageBytes : ℕ := 65536

/-- `sizeof(header_t)` and `sizeof(freenode_t)`. -/
def headerBytes : ℕ := 16

def pageMagic : ℤ := 1234567
def hugeMagic : ℤ := 7654321

section Locks

def lock (l : Lock) : Code Unit := do
  let _ ← perform (.acquire l)
  let w ← perform (.peek l)
  check .lockTaken (w = 1)

def unlock (l : Lock) : Code Unit := do
  let _ ← perform (.put l 0)
  pure ()

def lockinit (l : Lock) : Code Unit := do
  let _ ← perform (.put l 0)
  pure ()

end Locks

/-- Integer division as the processor does it. -/
def divide (a b : ℕ) : Code ℕ := if b = 0 then .fail .divideByZero else pure (a / b)

section Allockpage

/-- The first node that can hold a page, and the node before it. -/
def firstFit (h : ℕ) : Code (ℕ × ℕ) :=
  walk (fun h prenode => do
      let size ← Freenode.size h
      if (pageBytes : ℤ) ≤ size then pure (.inr (h, prenode)) else pure (.inl h))
    Freenode.next (fun prenode => (0, prenode)) h 0

def takeWholeNode (oldfreenode prenode : ℕ) : Code Unit := do
  if prenode ≠ 0 then
    let linked ← Freenode.next prenode
    check .prenodeLinked (linked = oldfreenode)
    let rest ← Freenode.next oldfreenode
    Freenode.setNext prenode rest
  else
    let head ← getGlobal .head
    check .oldfreenodeIsHead (oldfreenode = head)
    let rest ← Freenode.next head
    setGlobal .head rest

def splitNode (oldfreenode prenode : ℕ) : Code Unit := do
  let freenode := addPtr oldfreenode pageBytes
  let size ← Freenode.size oldfreenode
  check .oldfreenodeLarger ((pageBytes : ℤ) < size)
  let rest ← Freenode.next oldfreenode
  Freenode.setNext freenode rest
  let size ← Freenode.size oldfreenode
  Freenode.setSize freenode (size - pageBytes)
  if prenode = 0 then
    let head ← getGlobal .head
    check .oldfreenodeIsHead (oldfreenode = head)
    setGlobal .head freenode
  else
    let linked ← Freenode.next prenode
    check .prenodeLinked (linked = oldfreenode)
    Freenode.setNext prenode freenode

/-- The source stores the page through a pointer argument; here it is returned,
and the caller stores it. -/
def allockpage : Code ℕ := do
  lock .heapLock
  let h ← getGlobal .head
  let fit ← firstFit h
  if fit.1 ≠ 0 then
    let size ← Freenode.size fit.1
    if size = pageBytes then takeWholeNode fit.1 fit.2 else splitNode fit.1 fit.2
    memset0 .freenode fit.1 headerBytes
    unlock .heapLock
    pure fit.1
  else
    unlock .heapLock
    pure 0

end Allockpage

section Huge

/-- The highest node whose size, converted to `size_t`, is at least `size`. -/
def highestFit (size h : ℕ) : Code ℕ :=
  walk (fun h highnode => do
      let nodeSize ← Freenode.size h
      if size ≤ toSize nodeSize ∧ (highnode = 0 ∨ highnode < h) then pure (.inl h)
      else pure (.inl highnode))
    Freenode.next id h 0

def kallocHugeMemory (size : ℕ) : Code ℕ := do
  lock .heapLock
  let h ← getGlobal .head
  let highnode ← highestFit size h
  if highnode ≠ 0 then
    let nodeSize ← Freenode.size highnode
    let ret := subPtr (addPtr highnode (toSize nodeSize)) size
    let header := subPtr ret headerBytes
    Freenode.setSize highnode (subPtr header highnode)
    Header.setSize header size
    Header.setMagic header hugeMagic
    unlock .heapLock
    pure ret
  else
    unlock .heapLock
    pure 0

end Huge

section Kalloc

/-- `powval *= 2` from 32 until it reaches `size`; a `size_t` doubles at most 64 times. -/
def powvalFrom (size : ℕ) : ℕ → ℕ → ℕ
  | 0, powval => powval
  | n + 1, powval => if powval < size then powvalFrom size n (powval * 2) else powval

/-- The size a request is rounded to. -/
@[irreducible] def roundSize (size : ℕ) : ℕ := if size ≤ 32 then 32 else powvalFrom size 64 32

/-- Block 1 becomes the only free node of the first page of a CPU. -/
def initFirstPage (page size : ℕ) : Code Unit := do
  Pageheader.setNext page 0
  Pageheader.setSize page size
  Pageheader.setPagefreeheadIndex page 1
  let pageFreend := addPtr page size
  Pagefreenode.setMagic pageFreend pageMagic
  Pagefreenode.setNext pageFreend 0
  Pagefreenode.setSize pageFreend ((pageBytes : ℤ) - size)

/-- The first allocation of a CPU gets a page. -/
def kallocFirst (cpuno size : ℕ) : Code Unit := do
  lock (.pagelist cpuno)
  let page ← allockpage
  setGlobal (.pagehead cpuno) page
  let page ← getGlobal (.pagehead cpuno)
  check .firstPageAllocated (page ≠ 0)
  initFirstPage page size
  unlock (.pagelist cpuno)

/-- The first page of the list that has the class `size` and a free block. -/
def findSized (size ph : ℕ) : Code ℕ :=
  walk (fun ph (_ : Unit) => do
      let pageSize ← Pageheader.size ph
      if toSize pageSize = size then
        let index ← Pageheader.pagefreeheadIndex ph
        if 0 < index then pure (.inr ph) else pure (.inl ())
      else pure (.inl ()))
    Pageheader.next (fun _ => 0) ph ()

/-- The first page of the list that is completely empty. -/
def findEmpty (pagehead : ℕ) : Code ℕ :=
  walk (fun ph (_ : Unit) => do
      let pageSize ← Pageheader.size ph
      if pageSize = 0 then
        let index ← Pageheader.pagefreeheadIndex ph
        if 0 < index then pure (.inr ph) else pure (.inl ())
      else pure (.inl ()))
    Pageheader.next (fun _ => 0) pagehead ()

/-- The last block of the head node is used up: its successor becomes the head. -/
def dropHeadNode (ph fd size : ℕ) : Code Unit := do
  let magic ← Pagefreenode.magic fd
  check .fastNodeMagic (magic = pageMagic)
  let next ← Pagefreenode.next fd
  if next = 0 then
    Pageheader.setPagefreeheadIndex ph 0
  else
    let index ← divide (subPtr next ph) size
    Pageheader.setPagefreeheadIndex ph index
    let index ← Pageheader.pagefreeheadIndex ph
    let next ← Pagefreenode.next fd
    check .fastNextIndex (addPtr ph (index * size) = next)

/-- The head node keeps its other blocks: it moves up by one block. -/
def advanceHeadNode (ph fd size : ℕ) : Code Unit := do
  let pageSize ← Pageheader.size ph
  check .fastSplitSize (toSize pageSize = size)
  let newnode := addPtr fd size
  Pagefreenode.setMagic newnode pageMagic
  let next ← Pagefreenode.next fd
  Pagefreenode.setNext newnode next
  let rest ← Pagefreenode.size fd
  Pagefreenode.setSize newnode rest
  let index ← Pageheader.pagefreeheadIndex ph
  Pageheader.setPagefreeheadIndex ph (index + 1)
  let index ← Pageheader.pagefreeheadIndex ph
  check .fastSplitIndex (addPtr ph (index * size) = newnode)
  let limit ← divide pageBytes size
  check .fastSplitInPage (index < limit)

def kallocFast (cpuno ph size : ℕ) : Code ℕ := do
  let pageSize ← Pageheader.size ph
  check .fastSizeMatches (toSize pageSize = size)
  let index ← Pageheader.pagefreeheadIndex ph
  let fd := addPtr ph (index * size)
  let nodeSize ← Pagefreenode.size fd
  if size ≤ toSize nodeSize then
    Pagefreenode.setSize fd (nodeSize - size)
    let rest ← Pagefreenode.size fd
    if rest = 0 then dropHeadNode ph fd size else advanceHeadNode ph fd size
    unlock (.pagelist cpuno)
    memset0 .bytes fd size
    pure fd
  else
    unlock (.pagelist cpuno)
    .fail .panic

/-- Block 1 of a page that has no node yet is taken, the rest becomes one node. -/
def takeFirstBlock (cpuno pagehead size : ℕ) : Code ℕ := do
  let index ← Pageheader.pagefreeheadIndex pagehead
  let ret := addPtr pagehead (index * size)
  let newnode := addPtr ret size
  Pagefreenode.setMagic newnode pageMagic
  Pagefreenode.setNext newnode 0
  let index ← Pageheader.pagefreeheadIndex pagehead
  Pageheader.setPagefreeheadIndex pagehead (index + 1)
  let index ← Pageheader.pagefreeheadIndex pagehead
  Pagefreenode.setSize newnode ((pageBytes : ℤ) - index * size)
  let index ← Pageheader.pagefreeheadIndex pagehead
  check .slowNodeIndex (addPtr pagehead (index * size) = newnode)
  memset0 .bytes ret size
  unlock (.pagelist cpuno)
  pure ret

/-- No page of the class has a free block: reuse an empty page, or add one. -/
def kallocSlow (cpuno size : ℕ) : Code ℕ := do
  let h ← getGlobal (.pagehead cpuno)
  let pagehead ← findEmpty h
  if pagehead ≠ 0 then
    Pageheader.setSize pagehead size
    takeFirstBlock cpuno pagehead size
  else
    let pagehead ← allockpage
    if pagehead ≠ 0 then
      let rest ← getGlobal (.pagehead cpuno)
      Pageheader.setNext pagehead rest
      Pageheader.setSize pagehead size
      Pageheader.setPagefreeheadIndex pagehead 1
      setGlobal (.pagehead cpuno) pagehead
      takeFirstBlock cpuno pagehead size
    else
      unlock (.pagelist cpuno)
      pure 0

/-- The pages of the CPU are searched for one of the class with a free block. -/
def kallocPaged (cpuno size : ℕ) : Code ℕ := do
  lock (.pagelist cpuno)
  let ph ← getGlobal (.pagehead cpuno)
  let ph ← findSized size ph
  if ph ≠ 0 then kallocFast cpuno ph size else kallocSlow cpuno size

/-- A request already rounded to a class of at most 16 KiB. -/
def kallocSmall (p : Platform) (cpuno size : ℕ) : Code ℕ := do
  check .cpuInRange (cpuno ≤ p.cpuCount)
  let pagehead ← getGlobal (.pagehead cpuno)
  if pagehead = 0 then kallocFirst cpuno size
  kallocPaged cpuno size

/-- `cpuno` is `cpu_current()`. -/
def kalloc (p : Platform) (cpuno size : ℕ) : Code ℕ :=
  if size ≤ 32 then kallocSmall p cpuno (roundSize size)
  else if 16 * 1024 < size then
    if 16 * 1024 * 1024 < size then pure 0 else kallocHugeMemory (roundSize size)
  else kallocSmall p cpuno (roundSize size)

end Kalloc

section Kfree

/-- The page of one CPU's list that contains `ptr`, with the found flag. -/
def scanPagelist (ptr h : ℕ) : Code (ℕ × Bool) :=
  walk (fun ph (_ : Unit) =>
      if ph < ptr ∧ ptr < addPtr ph pageBytes then pure (.inr (ph, true)) else pure (.inl ()))
    Pageheader.next (fun _ => (0, false)) h ()

/-- Scan the lists of the `n` CPUs from `i` on. -/
def scanCpus (ptr : ℕ) : ℕ → ℕ → Code (ℕ × Bool)
  | 0, _ => pure (0, false)
  | n + 1, i => do
    let h ← getGlobal (.pagehead i)
    let found ← scanPagelist ptr h
    if found.2 = true then pure found else scanCpus ptr n (i + 1)

/-- The nearest nodes below and above `target`; 0 where there is none. -/
def neighbours (next : ℕ → Code ℕ) (target h : ℕ) : Code (ℕ × ℕ) :=
  walk (fun h (acc : ℕ × ℕ) => pure (.inl
      (if h < target ∧ (acc.1 = 0 ∨ acc.1 < h) then h else acc.1,
       if target < h ∧ (acc.2 = 0 ∨ h < acc.2) then h else acc.2)))
    next id h (0, 0)

/-- The node whose link is `after`; 0 where there is none. -/
def predecessor (next : ℕ → Code ℕ) (after h : ℕ) : Code ℕ :=
  walk (fun h (_ : Unit) => do
      let succ ← next h
      if succ = after then pure (.inr h) else pure (.inl ()))
    next (fun _ => 0) h ()

/-- `(void *)ph + ph->pagefreehead_index * ph->size`, a product of 32-bit words. -/
def freeListHead (ph : ℕ) : Code ℕ := do
  let index ← Pageheader.pagefreeheadIndex ph
  let size ← Pageheader.size ph
  pure (addPtr ph (toWord (index * size)))

/-- `ph->pagefreehead_index = (node - ph) / ph->size`. -/
def setFreeListHead (ph node : ℕ) : Code Unit := do
  let size ← Pageheader.size ph
  let index ← divide (subPtr node ph) (toSize size)
  Pageheader.setPagefreeheadIndex ph index

/-- `node` covers the whole page: mark the page empty. -/
def markIfEmpty (ph node : ℕ) : Code Unit := do
  let nodeSize ← Pagefreenode.size node
  let size ← Pageheader.size ph
  if nodeSize = pageBytes - size then Pageheader.setSize ph 0

/-- Delete `after` from the list; when no node links to it, `before` becomes the head. -/
def pageUnlink (ph before after : ℕ) : Code Unit := do
  let h ← freeListHead ph
  let h ← predecessor Pagefreenode.next after h
  if h ≠ 0 then
    let rest ← Pagefreenode.next after
    Pagefreenode.setNext h rest
  else setFreeListHead ph before

/-- The block at `ptr` follows the free node `before`. -/
def mergeBefore (ph ptr before after : ℕ) : Code Unit := do
  let nodeSize ← Pagefreenode.size before
  let size ← Pageheader.size ph
  Pagefreenode.setSize before (nodeSize + size)
  let size ← Pageheader.size ph
  if addPtr ptr (toSize size) = after then
    let nodeSize ← Pagefreenode.size before
    let afterSize ← Pagefreenode.size after
    Pagefreenode.setSize before (nodeSize + afterSize)
    pageUnlink ph before after
  markIfEmpty ph before

/-- The block at `ptr` becomes a node that takes in the node `after`. -/
def mergeAfter (ph ptr after : ℕ) : Code Unit := do
  Pagefreenode.setMagic ptr pageMagic
  let size ← Pageheader.size ph
  let afterSize ← Pagefreenode.size after
  Pagefreenode.setSize ptr (size + afterSize)
  let h ← freeListHead ph
  Pagefreenode.setNext ptr h
  setFreeListHead ph ptr
  let index ← Pageheader.pagefreeheadIndex ph
  check .mergedIndexPositive (0 < index)
  let h ← freeListHead ph
  let h ← predecessor Pagefreenode.next after h
  let rest ← Pagefreenode.next after
  Pagefreenode.setNext h rest
  markIfEmpty ph ptr

/-- The block at `ptr` becomes a node of its own at the head of the list. -/
def pushNode (ph ptr : ℕ) : Code Unit := do
  Pagefreenode.setMagic ptr pageMagic
  let size ← Pageheader.size ph
  Pagefreenode.setSize ptr size
  let oldpfhead ← freeListHead ph
  Pagefreenode.setNext ptr oldpfhead
  setFreeListHead ph ptr
  let index ← Pageheader.pagefreeheadIndex ph
  check .pushedIndexPositive (0 < index)

/-- `before && before + before->size == target`, reading through `k`. -/
def endsAt (size : ℕ → Code ℤ) (before target : ℕ) : Code Bool :=
  if before ≠ 0 then do
    let nodeSize ← size before
    pure (decide (addPtr before (toSize nodeSize) = target))
  else pure false

def kfreePage (cpu ph ptr : ℕ) : Code Unit := do
  let size ← Pageheader.size ph
  memset0 .bytes ptr (toSize size)
  let h ← freeListHead ph
  let near ← neighbours Pagefreenode.next ptr h
  let merges ← endsAt Pagefreenode.size near.1 ptr
  if merges = true then mergeBefore ph ptr near.1 near.2
  else
    let size ← Pageheader.size ph
    if addPtr ptr (toSize size) = near.2 then mergeAfter ph ptr near.2 else pushNode ph ptr
  unlock (.pagelist cpu)

/-- Delete `after` from the list, or drop the head when no node links to `after`. -/
def hugeUnlink (after : ℕ) : Code Unit := do
  let h ← getGlobal .head
  let h ← predecessor Freenode.next after h
  if h ≠ 0 then
    let rest ← Freenode.next after
    Freenode.setNext h rest
  else
    let head ← getGlobal .head
    let rest ← Freenode.next head
    setGlobal .head rest

def hugeMergeBefore (ptr size before after : ℕ) : Code Unit := do
  let nodeSize ← Freenode.size before
  Freenode.setSize before (nodeSize + size + headerBytes)
  if addPtr ptr size = after then
    let nodeSize ← Freenode.size before
    let afterSize ← Freenode.size after
    Freenode.setSize before (nodeSize + afterSize)
    hugeUnlink after

def hugeMergeAfter (header size after : ℕ) : Code Unit := do
  let afterSize ← Freenode.size after
  Freenode.setSize header (size + afterSize)
  let head ← getGlobal .head
  Freenode.setNext header head
  setGlobal .head header
  let h ← predecessor Freenode.next after header
  let rest ← Freenode.next after
  Freenode.setNext h rest

def hugePushNode (header size : ℕ) : Code Unit := do
  Freenode.setSize header size
  let head ← getGlobal .head
  Freenode.setNext header head
  setGlobal .head header

def kfreeHuge (cpu ptr : ℕ) : Code Unit := do
  unlock (.pagelist cpu)
  lock .heapLock
  let header := subPtr ptr headerBytes
  let h ← getGlobal .head
  let magic ← Header.magic header
  check .headerMagic (magic = hugeMagic)
  let size ← Header.size header
  let size := toSize size
  let again ← Header.size header
  memset0 .bytes (subPtr ptr headerBytes) (addPtr (toSize again) headerBytes)
  let near ← neighbours Freenode.next header h
  let merges ← endsAt Freenode.size near.1 header
  if merges = true then hugeMergeBefore ptr size near.1 near.2
  else if addPtr ptr size = near.2 then hugeMergeAfter header size near.2
  else hugePushNode header size
  unlock .heapLock

/-- `cpu` is `cpu_current()`. -/
def kfree (p : Platform) (cpu ptr : ℕ) : Code Unit := do
  check .ptrNotNull (ptr ≠ 0)
  lock (.pagelist cpu)
  let found ← scanCpus ptr p.cpuCount 0
  if found.1 ≠ 0 then
    check .pageFlagged (found.2 = true)
    kfreePage cpu found.1 ptr
  else kfreeHuge cpu ptr

end Kfree

section Init

/-- `cpupagelist[i]` for the `n` CPUs from `i` on. -/
def initPagelists : ℕ → ℕ → Code Unit
  | 0, _ => pure ()
  | n + 1, i => do
    setGlobal (.pagehead i) 0
    lockinit (.pagelist i)
    initPagelists n (i + 1)

/-- The message that `pmm_init` prints is left out. -/
def pmmInit (p : Platform) : Code Unit := do
  setGlobal .head p.heapStart
  let head ← getGlobal .head
  check .headNotNull (head ≠ 0)
  Freenode.setSize head (subPtr p.heapEnd p.heapStart)
  Freenode.setNext head 0
  lockinit .heapLock
  initPagelists p.cpuCount 0
  lockinit .heapLock

end Init

end KmallocKfree
