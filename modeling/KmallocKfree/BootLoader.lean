import KmallocKfree.BitFields
import KmallocKfree.ByteCopies
import KmallocKfree.MachineInt

/-!
# The boot loader

`main.c` of the boot sector, which runs on 32 bits. It reads the arguments, the first page of
the kernel's ELF file and then what each program header names, a sector at a time, and enters
the kernel. `disk false` and `disk true` have the bytes of the two drives; a drive is always
ready. Loading leaves the loader's own code and stack out of the model.
-/
namespace KmallocKfree.Loader

open ByteMemory

abbrev Disk := Bool → Mem

/-- Conversion to `uint32_t`. -/
def u32 (x : ℕ) : ℕ := x % 4294967296

section Sectors

/-- The bytes that `read_disk` puts out to 0x1f3 .. 0x1f6. -/
structure Ports where
  low : ℕ
  mid : ℕ
  high : ℕ
  device : ℕ

def ports (sect : ℕ) : Ports where
  low := sect % 256
  mid := (sect >>> 8) % 256
  high := (sect >>> 16) % 256
  device := (sect >>> 24 ||| 0xE0) % 256

/-- The sector that the controller reads: 28 bits, the upper four from the device register. -/
def Ports.sector (p : Ports) : ℕ :=
  p.low + p.mid * 256 + p.high * 65536 + p.device % 16 * 16777216

/-- Bit 4 of the device register selects the drive. -/
def Ports.drive (p : Ports) : Bool := p.device.testBit 4

/-- The `i`th `inl(0x1f0)`. -/
def inl (disk : Disk) (p : Ports) (i : ℕ) : ℕ := load (disk p.drive) (p.sector * 512 + 4 * i) 4

/-- The loop of `read_disk`, `n` times. -/
def readWords (disk : Disk) (p : Ports) (buf : ℕ) : ℕ → Mem → Mem
  | 0, m => m
  | n + 1, m => store (readWords disk p buf n m) (u32 (buf + 4 * n)) 4 (inl disk p n)

def readDisk (disk : Disk) (buf sect : ℕ) (m : Mem) : Mem :=
  readWords disk (ports sect) buf 128 m

/-- The loop of `copy_from_disk`, at most `n` times. -/
def copyLoop (disk : Disk) (ed : ℕ) : ℕ → ℕ → ℕ → Mem → Option Mem
  | 0, _, _, _ => none
  | n + 1, cur, sect, m =>
      if cur < ed then
        copyLoop disk ed n (u32 (cur + 512)) (u32 (sect + 1)) (readDisk disk cur sect m)
      else some m

/-- After more rounds than there are sectors in memory `cur` has wrapped around, and the loop
never ends. -/
def maxRounds : ℕ := 8388609

/-- `(disk_offset / SECTSIZE) + (ARGSIZE / SECTSIZE) + 1`. -/
def sectorOf (diskOffset : ℤ) : ℕ := toWord (diskOffset.tdiv 512 + 1024 / 512 + 1)

def copyFromDisk (disk : Disk) (buf nbytes : ℕ) (diskOffset : ℤ) (m : Mem) : Option Mem :=
  copyLoop disk (u32 (buf + nbytes)) maxRounds (buf &&& 0xfffffe00) (sectorOf diskOffset) m

end Sectors

section Programs

/-- `*bss++ = 0`, `n` times. -/
def clear : ℕ → ℕ → Mem → Mem
  | 0, _, m => m
  | n + 1, bss, m => clear n (u32 (bss + 1)) fun x => if x = bss then 0 else m x

/-- The fields of a program header that the loader uses, as `uint32_t`. -/
structure Segment where
  filesz : ℕ
  memsz : ℕ
  paddr : ℕ
  offset : ℕ
  deriving DecidableEq

/-- `i` goes from `filesz` up to `memsz`, around `2 ^ 32` when `memsz` is smaller. -/
def loadProgram (disk : Disk) (s : Segment) (m : Mem) : Option Mem :=
  (copyFromDisk disk s.paddr s.filesz (toInt s.offset) m).map
    (clear (u32 (s.memsz + (4294967296 - s.filesz))) (u32 (s.paddr + s.filesz)))

/-- A field of a structure: its offset and its size. -/
structure Field where
  offset : ℕ
  size : ℕ

/-- The field of the structure at `a`. -/
def Field.get (f : Field) (m : Mem) (a : ℕ) : ℕ := load m (u32 (a + f.offset)) f.size

/-- Where `elf.h` puts the fields of a file header and of a program header. -/
structure Layout where
  entry : Field
  phoff : Field
  phnum : Field
  phdrSize : ℕ
  filesz : Field
  memsz : Field
  paddr : Field
  offset : Field

def elf32 : Layout where
  entry := ⟨24, 4⟩
  phoff := ⟨28, 4⟩
  phnum := ⟨44, 2⟩
  phdrSize := 32
  filesz := ⟨16, 4⟩
  memsz := ⟨20, 4⟩
  paddr := ⟨12, 4⟩
  offset := ⟨4, 4⟩

def elf64 : Layout where
  entry := ⟨24, 8⟩
  phoff := ⟨32, 8⟩
  phnum := ⟨56, 2⟩
  phdrSize := 56
  filesz := ⟨32, 8⟩
  memsz := ⟨40, 8⟩
  paddr := ⟨24, 8⟩
  offset := ⟨8, 8⟩

/-- `e_machine`; it has the same place in both headers. -/
def machine : Field := ⟨18, 2⟩

variable (l : Layout)

/-- The arguments of `load_program` for the program header at `ph`. -/
def Layout.segment (m : Mem) (ph : ℕ) : Segment where
  filesz := u32 (l.filesz.get m ph)
  memsz := u32 (l.memsz.get m ph)
  paddr := u32 (l.paddr.get m ph)
  offset := u32 (l.offset.get m ph)

/-- The loop of `load_elf32` and `load_elf64`, at most `n` times. -/
def loadSegments (disk : Disk) (elf : ℕ) : ℕ → ℕ → ℕ → Mem → Option Mem
  | 0, _, _, _ => none
  | n + 1, i, ph, m =>
      if i < l.phnum.get m elf then
        (loadProgram disk (l.segment m ph) m).bind
          (loadSegments disk elf n (i + 1) (u32 (ph + l.phdrSize)))
      else some m

/-- `e_phnum` has 16 bits. -/
def loadElf (disk : Disk) (elf : ℕ) (m : Mem) : Option Mem :=
  loadSegments l disk elf 65536 0 (u32 (elf + l.phoff.get m elf)) m

def loadElf32 : Disk → ℕ → Mem → Option Mem := loadElf elf32

def loadElf64 : Disk → ℕ → Mem → Option Mem := loadElf elf64

/-- `MAINARG_ADDR`. -/
def mainargAddr : ℕ := 0x10000

/-- Where `load_kernel` puts the first page of the file. -/
def elfAddr : ℕ := 0x8000

/-- `boot_record()->is_ap`. -/
def isAp (m : Mem) : ℕ := load m 0x7004 4

/-- `e_machine == EM_X86_64`. -/
def IsX8664 (m : Mem) (elf : ℕ) : Prop := machine.get m elf = 62

instance (m : Mem) (elf : ℕ) : Decidable (IsX8664 m elf) := inferInstanceAs (Decidable (_ = _))

/-- What `load_kernel` loads, on the first processor. -/
def loadFile (disk : Disk) (m : Mem) : Option Mem :=
  (copyFromDisk disk mainargAddr 1024 (-1024) m).bind fun m =>
    (copyFromDisk disk elfAddr 4096 0 m).bind fun m =>
      if IsX8664 m elfAddr then loadElf64 disk elfAddr m else loadElf32 disk elfAddr m

/-- The address that `load_kernel` calls in the end. -/
def entryOf (m : Mem) : ℕ :=
  if IsX8664 m elfAddr then u32 (elf64.entry.get m elfAddr) else u32 (elf32.entry.get m elfAddr)

/-- The memory and the address with which the kernel is entered; none when loading never ends. -/
def loadKernel (disk : Disk) (m : Mem) : Option (Mem × ℕ) :=
  (if isAp m = 0 then loadFile disk m else some m).map fun m => (m, entryOf m)

end Programs

section Sectors

variable {disk : Disk} {m : Mem} {buf sect n cur ed : ℕ}

theorem u32_of_lt (h : n < 4294967296) : u32 n = n := Nat.mod_eq_of_lt h

theorem ports_sector (h : sect < 268435456) : (ports sect).sector = sect := by
  have hor : ((sect >>> 24 ||| 0xE0) % 256) % 16 = (sect >>> 24) % 16 := by
    rw [Nat.mod_mod_of_dvd _ (by norm_num), show (16 : ℕ) = 2 ^ 4 from rfl, Nat.or_mod_two_pow]
    simp
  unfold Ports.sector ports
  simp only [Nat.shiftRight_eq_div_pow] at hor ⊢
  rw [hor]
  omega

theorem ports_drive (h : sect < 268435456) : (ports sect).drive = false := by
  have hshift : sect >>> 24 < 16 := by
    rw [Nat.shiftRight_eq_div_pow]
    omega
  unfold Ports.drive ports
  simp only [show (256 : ℕ) = 2 ^ 8 from rfl, Nat.testBit_mod_two_pow, Nat.testBit_or,
    Nat.testBit_lt_two_pow (show sect >>> 24 < 2 ^ 4 from hshift)]
  decide

/-- The words of a sector, up to the `n`th. -/
theorem readWords_eq (hs : sect < 268435456) (hb : buf + 4 * n ≤ 4294967296) :
    readWords disk (ports sect) buf n m = copy (disk false) (sect * 512) buf (4 * n) m := by
  induction n with
  | zero => exact copy_zero.symm
  | succ n ih =>
    rw [readWords, ih (by omega), inl, ports_sector hs, ports_drive hs,
      u32_of_lt (by omega), store_load, copy_copy, Nat.mul_succ 4]

theorem readDisk_eq (hs : sect < 268435456) (hb : buf + 512 ≤ 4294967296) :
    readDisk disk buf sect m = copy (disk false) (sect * 512) buf 512 m :=
  readWords_eq (n := 128) hs hb

/-- The sectors from `cur` on that `ed` reaches into. -/
theorem copyLoop_eq (hcur : 512 ∣ cur) (hed : ed + 512 ≤ 4294967296)
    (hn : (ed + 511 - cur) / 512 < n) (hs : sect + (ed + 511 - cur) / 512 ≤ 268435456) :
    copyLoop disk ed n cur sect m =
      some (copy (disk false) (sect * 512) cur ((ed + 511 - cur) / 512 * 512) m) := by
  induction n generalizing cur sect m with
  | zero => omega
  | succ n ih =>
    rw [copyLoop]
    split_ifs with hlt
    · obtain ⟨c, rfl⟩ := hcur
      have hrest : (ed + 511 - 512 * c) / 512 = (ed + 511 - (512 * c + 512)) / 512 + 1 := by omega
      rw [readDisk_eq (by omega) (by omega), u32_of_lt (by omega), u32_of_lt (by omega),
        ih (by omega) (by omega) (by omega), Nat.succ_mul sect, copy_copy, hrest]
      congr 2
      omega
    · rw [show (ed + 511 - cur) / 512 = 0 by omega, Nat.zero_mul, copy_zero]

end Sectors
end KmallocKfree.Loader
