import Mathlib.Data.Nat.Notation
import Mathlib.Data.Nat.Bitwise

/-!
# Protected address spaces

`vme.c` of x86-qemu, for both word sizes. Memory is a map from the addresses of words to
words; an address space is given by the address of its field `ptr`, which `ptwalk` reads as
a table of one entry. `pgalloc` and `pgfree` are the functions that `vme_init` is given, with
the state they work on: they may write to memory as well.
-/
namespace KmallocKfree.Vme

/-- `struct ptinfo`. -/
structure PtInfo where
  mask : ℕ
  shift : ℕ
  bits : ℕ
  deriving DecidableEq

/-- `struct vm_area`. -/
structure VmArea where
  start : ℕ
  stop : ℕ
  kernel : Bool
  deriving DecidableEq

/-- What depends on the architecture: the bits of a `uintptr_t`, `mmu` and `vm_areas`, and the
table that the startup code leaves at `PML4_ADDR`, if it does. -/
structure Arch where
  wordBits : ℕ
  pgsize : ℕ
  ptlevels : ℕ
  pgtables : List PtInfo
  vmAreas : List VmArea
  startupTable : Option ℕ
  deriving DecidableEq

def x8664 : Arch where
  wordBits := 64
  pgsize := 4096
  ptlevels := 4
  pgtables := [⟨0x000000000000, 0, 0⟩, ⟨0xff8000000000, 39, 9⟩, ⟨0x007fc0000000, 30, 9⟩,
    ⟨0x00003fe00000, 21, 9⟩, ⟨0x0000001ff000, 12, 9⟩]
  vmAreas := [⟨0x100000000000, 0x108000000000, false⟩, ⟨0x000000000000, 0x008000000000, true⟩]
  startupTable := some 0x1000

def i386 : Arch where
  wordBits := 32
  pgsize := 4096
  ptlevels := 2
  pgtables := [⟨0x00000000, 0, 0⟩, ⟨0xffc00000, 22, 10⟩, ⟨0x003ff000, 12, 10⟩]
  vmAreas := [⟨0x40000000, 0x80000000, false⟩, ⟨0x00000000, 0x40000000, true⟩,
    ⟨0xfd000000, 0x00000000, true⟩]
  startupTable := none

/-- `PTE_P`. -/
def pteP : ℕ := 0x001

/-- `PTE_W`. -/
def pteW : ℕ := 0x002

/-- `PTE_U`. -/
def pteU : ℕ := 0x004

/-- `PTE_PS`. -/
def ptePS : ℕ := 0x080

/-- `MMAP_NONE`. -/
def mmapNone : ℕ := 0

/-- `MMAP_WRITE`. -/
def mmapWrite : ℕ := 2

inductive Panic where
  /-- "init VME in non-bootstrap CPU" -/
  | nonBootstrapCpu
  /-- "cannot allocate page" -/
  | cannotAllocate
  /-- "mapping an invalid address" -/
  | invalidAddress
  /-- "non-page-boundary address" -/
  | nonPageBoundary
  /-- "unmapping a non-mapped page" -/
  | unmapping
  /-- "remapping a mapped page" -/
  | remapping
  /-- "internal error (likely a bug in AM)" -/
  | bug
  deriving DecidableEq

abbrev Words := ℕ → ℕ

def write (m : Words) (a v : ℕ) : Words := fun x => if x = a then v else m x

/-- `pgalloc` and `pgfree`. -/
structure Pager (α : Type) where
  pgalloc : ℕ → α → Words → ℕ × α × Words
  pgfree : ℕ → α → Words → α × Words

structure Vm (α : Type) where
  mem : Words
  pages : α
  kpt : ℕ

section

variable {α : Type} (c : Arch) (P : Pager α)

/-- `sizeof(uintptr_t)`. -/
def Arch.wordSize : ℕ := c.wordBits / 8

/-- `uvm_area`. -/
def Arch.uvmArea : VmArea := c.vmAreas.headD ⟨0, 0, false⟩

/-- `&pt[index]`. -/
def entry (pt index : ℕ) : ℕ := pt + index * c.wordSize

/-- `x & ~(mmu.pgsize - 1)`. -/
def baseof (x : ℕ) : ℕ := x &&& (2 ^ c.wordBits - c.pgsize)

def indexof (addr : ℕ) (info : PtInfo) : ℕ := (addr &&& info.mask) >>> info.shift

/-- `for (int i = 0; i < n; i++) base[i] = 0;`. -/
def clearWords (base : ℕ) : ℕ → Words → Words
  | 0, m => m
  | i + 1, m => write (clearWords base i m) (entry c base i) 0

def pgallocz (s : Vm α) : Except Panic (ℕ × Vm α) :=
  let (base, pages, mem) := P.pgalloc c.pgsize s.pages s.mem
  if base = 0 then
    throw .cannotAllocate
  else
    pure (base, { s with pages, mem := clearWords c base (c.pgsize / c.wordSize) mem })

/-- The loop of `ptwalk` from a level on; it ends at the last one, `ptlevels`. -/
def ptwalkFrom (addr flags : ℕ) : List PtInfo → ℕ → Vm α → Except Panic (ℕ × Vm α)
  | [], _, _ => throw .bug
  | [ptinfo], cur, s => pure (entry c cur (indexof addr ptinfo), s)
  | ptinfo :: levels, cur, s => do
    let slot := entry c cur (indexof addr ptinfo)
    if s.mem slot &&& pteP = 0 then
      let (nextPage, s) ← pgallocz c P s
      ptwalkFrom addr flags levels nextPage
        { s with mem := write s.mem slot (nextPage ||| pteP ||| flags) }
    else
      ptwalkFrom addr flags levels (baseof c (s.mem slot)) s

/-- The address of the entry for `addr`; `as` is `&as->ptr`. -/
def ptwalk (as addr flags : ℕ) (s : Vm α) : Except Panic (ℕ × Vm α) :=
  ptwalkFrom c P addr flags c.pgtables as s

/-- `teardown`, for the levels from `level` on. -/
def teardown : List PtInfo → ℕ → ℕ → Vm α → Vm α
  | [], _, _, s => s
  | info :: levels, level, pt, s =>
    let s := (List.range (2 ^ info.bits)).foldl (fun s index =>
      let e := s.mem (entry c pt index)
      if e &&& pteP ≠ 0 ∧ e &&& pteU ≠ 0 then teardown levels (level + 1) (baseof c e) s else s) s
    if level ≥ 1 then
      let (pages, mem) := P.pgfree pt s.pages s.mem
      { s with pages, mem }
    else s

/-- The values of `cur` in `for (cur = start; cur != end; cur += step)`: no more than there are
numbers of the word. -/
def curs (step : ℕ) : ℕ → ℕ → ℕ → List ℕ
  | 0, _, _ => []
  | n + 1, cur, stop =>
    if cur = stop then [] else cur :: curs step n ((cur + step) % 2 ^ c.wordBits) stop

/-- The values of `cur` over the areas of the kernel. -/
def kernelCurs (step : ℕ) : List ℕ :=
  (c.vmAreas.filter (·.kernel)).flatMap fun vma => curs c step (2 ^ c.wordBits) vma.start vma.stop

/-- `*ptwalk(&as, cur, PTE_W) = cur | PTE_P | PTE_W;` for each page of the kernel's areas. -/
def mapKernel (as : ℕ) : List ℕ → Vm α → Except Panic (Vm α)
  | [], s => pure s
  | cur :: rest, s => do
    let (ptentry, s) ← ptwalk c P as cur pteW s
    mapKernel as rest { s with mem := write s.mem ptentry (cur ||| pteP ||| pteW) }

/-- `vme_init`, on the CPU `cpu`; `as` is the address of `as.ptr` on its stack. The last read of
`as.ptr` finds what `ptwalk` has written there as a `uintptr_t`; a compiler that goes by the types
of pointers (`as.ptr` is a `void *`) may read the NULL from before instead. -/
def vmeInit (cpu as : ℕ) (s : Vm α) : Except Panic (Vm α) := do
  if cpu ≠ 0 then
    throw .nonBootstrapCpu
  match c.startupTable with
  | some kpt => pure { s with kpt }
  | none =>
    let s ← mapKernel c P as (kernelCurs c c.pgsize) { s with mem := write s.mem as 0 }
    pure { s with kpt := baseof c (s.mem as) }

/-- The entries of the kernel in a table of the first level. -/
def kernelIndexes : List ℕ :=
  match c.pgtables[1]? with
  | some info => (kernelCurs c (2 ^ info.shift)).map fun cur => indexof cur info
  | none => []

/-- `upt[index] = kpt[index];` for each of them. -/
def copyKernel (upt kpt : ℕ) : List ℕ → Words → Words
  | [], m => m
  | index :: rest, m =>
    copyKernel upt kpt rest (write m (entry c upt index) (m (entry c kpt index)))

def protect (as : ℕ) (s : Vm α) : Except Panic (Vm α) := do
  let (upt, s) ← pgallocz c P s
  let mem := copyKernel c upt s.kpt (kernelIndexes c) s.mem
  pure { s with mem := write mem as (upt ||| pteP ||| pteU) }

def unprotect (as : ℕ) (s : Vm α) : Vm α := teardown c P c.pgtables 0 as s

def map (as va pa prot : ℕ) (s : Vm α) : Except Panic (Vm α) := do
  if ¬(c.uvmArea.start ≤ va ∧ va < c.uvmArea.stop) then
    throw .invalidAddress
  if va ≠ baseof c va ∨ pa ≠ baseof c pa then
    throw .nonPageBoundary
  let (ptentry, s) ← ptwalk c P as va (pteW ||| pteU) s
  let s ←
    if prot = mmapNone then
      if s.mem ptentry &&& pteP = 0 then throw .unmapping
      else pure { s with mem := write s.mem ptentry 0 }
    else if s.mem ptentry &&& pteP ≠ 0 then throw .remapping
    else
      let pte := pa ||| pteP ||| pteU ||| if prot &&& mmapWrite ≠ 0 then pteW else 0
      pure { s with mem := write s.mem ptentry pte }
  let (_, s) ← ptwalk c P as va (pteW ||| pteU) s
  pure s

end
end KmallocKfree.Vme
