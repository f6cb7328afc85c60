import KmallocKfree.BootLoader

/-!
# The kernel in memory

A program header's bytes are copied in whole sectors, from the sector that its offset lies in to
the sector-aligned address below its own. They arrive where they belong when the two are the
same number of bytes into their sectors. With such program headers, apart from each other and
from what the loader itself uses, the kernel is entered with all of them in memory.
-/
namespace KmallocKfree.Loader

open ByteMemory

/-- The kernel's file; it comes after the boot sector and the arguments. -/
def kernelFile (disk : Disk) : Mem := fun i => disk false (1536 + i)

namespace Segment

/-- Where the copying starts. -/
def base (s : Segment) : ℕ := s.paddr / 512 * 512

/-- How many bytes are copied. -/
def copied (s : Segment) : ℕ := (s.paddr % 512 + s.filesz + 511) / 512 * 512

/-- Where the bytes end that are written. -/
def stop (s : Segment) : ℕ := max (s.base + s.copied) (s.paddr + s.memsz)

/-- No address and no sector number wraps around. -/
structure Fits (s : Segment) : Prop where
  sizes : s.filesz ≤ s.memsz
  sector : s.offset < 2147483648
  sectors : s.paddr + s.filesz + 512 ≤ 4294967296
  memory : s.paddr + s.memsz < 4294967296

/-- The address and the offset are the same number of bytes into their sectors. -/
def Congruent (s : Segment) : Prop := s.paddr % 512 = s.offset % 512

def Apart (s t : Segment) : Prop := s.stop ≤ t.base ∨ t.stop ≤ s.base

/-- What `load_program` does to memory. -/
def place (d : Mem) (s : Segment) (m : Mem) : Mem :=
  fill (copy d ((s.offset / 512 + 3) * 512) s.base s.copied m) (s.paddr + s.filesz)
    (s.memsz - s.filesz) 0

end Segment

section Programs

variable {disk : Disk} {d m : Mem} {s : Segment} {buf nbytes n x i : ℕ} {off : ℤ}

theorem copyFromDisk_eq (h : buf + nbytes + 512 ≤ 4294967296) (hoff : sectorOf off < 8388608) :
    copyFromDisk disk buf nbytes off m =
      some (copy (disk false) (sectorOf off * 512) (buf / 512 * 512)
        ((buf % 512 + nbytes + 511) / 512 * 512) m) := by
  have hcur : buf &&& 0xfffffe00 = buf / 512 * 512 := by
    rw [show 0xfffffe00 = (2 ^ 23 - 1) * 2 ^ 9 by norm_num, and_field]
    omega
  have hcount : (buf + nbytes + 511 - buf / 512 * 512) / 512 =
      (buf % 512 + nbytes + 511) / 512 := by omega
  unfold copyFromDisk
  rw [hcur, u32_of_lt (by omega), copyLoop_eq (Nat.dvd_mul_left _ _) (by omega)
    (by unfold maxRounds; omega) (by omega), hcount]

theorem sectorOf_natCast (h : n < 2147483648) : sectorOf n = n / 512 + 3 := by
  unfold sectorOf toWord
  rw [show ((n : ℤ).tdiv 512) = ((n / 512 : ℕ) : ℤ) from rfl]
  omega

theorem clear_eq (h : x + n ≤ 4294967296) : clear n x m = fill m x n 0 := by
  induction n generalizing x m with
  | zero =>
    ext y : 1
    exact (fill_outside (by omega)).symm
  | succ n ih =>
    rw [clear, ← fill_succ]
    by_cases hn : n = 0
    · subst hn
      ext y : 1
      exact (fill_outside (by omega)).symm
    · rw [u32_of_lt (by omega), ih (by omega)]

theorem loadProgram_eq (h : s.Fits) :
    loadProgram disk s m = some (s.place (disk false) m) := by
  obtain ⟨hsizes, hsector, hsectors, hmemory⟩ := h
  have hint : toInt s.offset = s.offset := by
    unfold toInt
    rw [if_pos hsector]
  have hcount : u32 (s.memsz + (4294967296 - s.filesz)) = s.memsz - s.filesz := by
    unfold u32
    omega
  have hoff := sectorOf_natCast hsector
  unfold loadProgram
  rw [hint, copyFromDisk_eq hsectors (by omega), Option.map_some, hcount,
    u32_of_lt (by omega), clear_eq (by omega), hoff]
  rfl

namespace Segment

theorem place_outside (hs : s.filesz ≤ s.memsz) (h : x < s.base ∨ s.stop ≤ x) :
    s.place d m x = m x := by
  unfold stop at h
  unfold base at h
  unfold place
  rw [fill_outside (by omega), copy_outside (by unfold base; omega)]

/-- The file's bytes, when they come to where they belong. -/
theorem place_file (hc : s.Congruent) (hi : i < s.filesz) :
    s.place d m (s.paddr + i) = d (1536 + (s.offset + i)) := by
  have hcopy : i + s.paddr % 512 < s.copied := by
    unfold copied
    omega
  have haddr : s.paddr + i = s.base + (i + s.paddr % 512) := by
    unfold base
    omega
  unfold Congruent at hc
  unfold place
  rw [fill_outside (by omega), haddr, copy_inside hcopy]
  congr 1
  omega

theorem place_zero (hi : s.filesz ≤ i) (h : i < s.memsz) : s.place d m (s.paddr + i) = 0 := by
  unfold place
  exact fill_inside (by omega) (by omega)

theorem base_le (s : Segment) : s.base ≤ s.paddr := by
  unfold base
  omega

theorem lt_stop (h : i < s.memsz) : s.paddr + i < s.stop := by
  unfold stop
  omega

end Segment

/-- The bytes of a program header arrive for every disk if and only if it is congruent. -/
theorem segment_loaded_iff (h : s.Fits) (hsize : 0 < s.filesz) :
    (∀ disk m, ∃ m', loadProgram disk s m = some m' ∧
      ∀ i < s.filesz, m' (s.paddr + i) = kernelFile disk (s.offset + i)) ↔ s.Congruent := by
  constructor
  · intro hload
    let mark : Disk := fun _ x => if x = 1536 + s.offset then 1 else 0
    obtain ⟨m', hm', hbytes⟩ := hload mark fun _ => 0
    rw [loadProgram_eq h] at hm'
    obtain rfl := Option.some.inj hm'
    have hfirst := hbytes 0 hsize
    have hcopy : s.paddr % 512 < s.copied := by
      unfold Segment.copied
      omega
    have haddr : s.paddr + 0 = s.base + s.paddr % 512 := by
      unfold Segment.base
      omega
    have hfile : kernelFile mark (s.offset + 0) = 1 := if_pos rfl
    rw [hfile] at hfirst
    unfold Segment.place at hfirst
    rw [fill_outside (by omega), haddr, copy_inside hcopy] at hfirst
    by_contra hnot
    unfold Segment.Congruent at hnot
    have hzero : mark false ((s.offset / 512 + 3) * 512 + s.paddr % 512) = 0 := if_neg (by omega)
    rw [hzero] at hfirst
    cases hfirst
  · intro hc disk m
    exact ⟨_, loadProgram_eq h, fun i hi => Segment.place_file hc hi⟩

/-- A program header 0x90 bytes into the file, for an address 0x90 bytes into a sector. -/
theorem segment_loaded_iff_first : Segment.Fits ⟨20, 64, 0x100090, 0x90⟩ ∧
    ∀ disk m, ∃ m', loadProgram disk ⟨20, 64, 0x100090, 0x90⟩ m = some m' ∧
      ∀ i < 20, m' (0x100090 + i) = kernelFile disk (0x90 + i) := by
  have hfits : Segment.Fits ⟨20, 64, 0x100090, 0x90⟩ :=
    ⟨by decide, by decide, by decide, by decide⟩
  exact ⟨hfits, (segment_loaded_iff hfits (by decide)).mpr
    (show 0x100090 % 512 = 0x90 % 512 by decide)⟩

end Programs

/-- The program headers of the file. -/
def Layout.segments (l : Layout) (file : Mem) : List Segment :=
  (List.range (l.phnum.get file 0)).map fun i =>
    l.segment file (l.phoff.get file 0 + i * l.phdrSize)

/-- All of them, one after the other. -/
def placeAll (d : Mem) (segments : List Segment) (m : Mem) : Mem :=
  segments.foldl (fun m s => s.place d m) m

/-- The first page of the file is in memory. -/
def HasHeader (file m : Mem) : Prop := ∀ i < 4096, m (elfAddr + i) = file i

/-- The fields lie in the two structures. -/
structure Layout.Sound (l : Layout) : Prop where
  entry : l.entry.offset + l.entry.size ≤ 64
  phoff : l.phoff.offset + l.phoff.size ≤ 64
  phnum : l.phnum.offset + l.phnum.size ≤ 64
  phnum_size : l.phnum.size = 2
  filesz : l.filesz.offset + l.filesz.size ≤ l.phdrSize
  memsz : l.memsz.offset + l.memsz.size ≤ l.phdrSize
  paddr : l.paddr.offset + l.paddr.size ≤ l.phdrSize
  offset : l.offset.offset + l.offset.size ≤ l.phdrSize

/-- A file that the loader loads: the program headers lie in the first page, and what they name
is in place in the sectors, apart, and clear of the boot record, the boot sector, the stack, the
first page and the arguments. -/
structure Bootable (l : Layout) (file : Mem) : Prop where
  table : l.phoff.get file 0 + l.phnum.get file 0 * l.phdrSize ≤ 4096
  fits : ∀ s ∈ l.segments file, s.Fits
  congruent : ∀ s ∈ l.segments file, s.Congruent
  clear : ∀ s ∈ l.segments file, s.stop ≤ 0x7000 ∨ 0x10400 ≤ s.base
  apart : (l.segments file).Pairwise Segment.Apart

section Files

variable {l : Layout} {disk : Disk} {d m m' file : Mem} {f : Field} {s : Segment} {a i n x : ℕ}
  {segments : List Segment}

theorem elf32_sound : elf32.Sound := by
  constructor <;> decide

theorem elf64_sound : elf64.Sound := by
  constructor <;> decide

theorem HasHeader.get (h : HasHeader file m) (ha : a + (f.offset + f.size) ≤ 4096) :
    f.get m (elfAddr + a) = f.get file a := by
  have helf : elfAddr = 32768 := rfl
  unfold Field.get
  rw [u32_of_lt (by omega), u32_of_lt (by omega)]
  refine load_shift fun i hi => ?_
  rw [Nat.add_assoc elfAddr, Nat.add_assoc elfAddr, h _ (by omega)]

theorem HasHeader.segment (h : HasHeader file m) (hl : l.Sound) (ha : a + l.phdrSize ≤ 4096) :
    l.segment m (elfAddr + a) = l.segment file a := by
  have hfilesz := hl.filesz
  have hmemsz := hl.memsz
  have hpaddr := hl.paddr
  have hoffset := hl.offset
  unfold Layout.segment
  rw [h.get (by omega), h.get (by omega), h.get (by omega), h.get (by omega)]

/-- Segments away from an address leave its byte. -/
theorem placeAll_outside (hs : ∀ s ∈ segments, s.filesz ≤ s.memsz ∧ (x < s.base ∨ s.stop ≤ x)) :
    placeAll d segments m x = m x := by
  induction segments generalizing m with
  | nil => rfl
  | cons s segments ih =>
    obtain ⟨hsizes, hx⟩ := hs s List.mem_cons_self
    have hrest := ih (m := s.place d m) fun t ht => hs t (List.mem_cons_of_mem _ ht)
    exact hrest.trans (Segment.place_outside hsizes hx)

/-- A byte of one segment is not written by the others. -/
theorem placeAll_at (hapart : segments.Pairwise Segment.Apart)
    (hsizes : ∀ t ∈ segments, t.filesz ≤ t.memsz) (hs : s ∈ segments) (hb : s.base ≤ x)
    (hx : x < s.stop) : ∃ m', placeAll d segments m x = s.place d m' x := by
  induction segments generalizing m with
  | nil => cases hs
  | cons t segments ih =>
    obtain ⟨hhead, htail⟩ := List.pairwise_cons.mp hapart
    rcases List.mem_cons.mp hs with rfl | hs
    · refine ⟨m, placeAll_outside fun u hu => ⟨hsizes u (List.mem_cons_of_mem _ hu), ?_⟩⟩
      have hu := hhead u hu
      unfold Segment.Apart at hu
      omega
    · exact ih htail (fun u hu => hsizes u (List.mem_cons_of_mem _ hu)) hs

/-- The loop over the program headers, from the `i`th on. -/
theorem loadSegments_eq (hl : l.Sound) (hb : Bootable l (kernelFile disk))
    (hm : HasHeader (kernelFile disk) m) (hn : l.phnum.get (kernelFile disk) 0 < n + i)
    (hi : i ≤ l.phnum.get (kernelFile disk) 0) :
    loadSegments l disk elfAddr n i
        (elfAddr + (l.phoff.get (kernelFile disk) 0 + i * l.phdrSize)) m =
      some (placeAll (disk false) ((l.segments (kernelFile disk)).drop i) m) := by
  have helf : elfAddr = 32768 := rfl
  have hphnum := hl.phnum
  have hlen : (l.segments (kernelFile disk)).length = l.phnum.get (kernelFile disk) 0 := by
    simp [Layout.segments]
  induction n generalizing i m with
  | zero => omega
  | succ n ih =>
    have hcount : l.phnum.get m elfAddr = l.phnum.get (kernelFile disk) 0 :=
      hm.get (a := 0) (by omega)
    rw [loadSegments, hcount]
    split_ifs with hlt
    · have htable := hb.table
      have hnext : (i + 1) * l.phdrSize ≤ l.phnum.get (kernelFile disk) 0 * l.phdrSize :=
        Nat.mul_le_mul_right _ hlt
      rw [Nat.succ_mul] at hnext
      let s := l.segment (kernelFile disk) (l.phoff.get (kernelFile disk) 0 + i * l.phdrSize)
      have hdrop : (l.segments (kernelFile disk)).drop i =
          s :: (l.segments (kernelFile disk)).drop (i + 1) := by
        rw [List.drop_eq_getElem_cons (by omega)]
        congr 1
        simp [Layout.segments, s]
      have hs : s ∈ l.segments (kernelFile disk) :=
        List.mem_of_mem_drop (hdrop ▸ List.mem_cons_self)
      have hkept : HasHeader (kernelFile disk) (s.place (disk false) m) := by
        intro j hj
        have hclear := hb.clear s hs
        rw [Segment.place_outside (hb.fits s hs).sizes (by omega)]
        exact hm j hj
      rw [hm.segment hl (by omega), loadProgram_eq (hb.fits s hs), Option.bind_some,
        u32_of_lt (by omega), Nat.add_assoc, Nat.add_assoc, ← Nat.succ_mul,
        ih hkept (by omega) (by omega), hdrop]
      rfl
    · rw [List.drop_eq_nil_of_le (by omega)]
      rfl

theorem loadElf_eq (hl : l.Sound) (hb : Bootable l (kernelFile disk))
    (hm : HasHeader (kernelFile disk) m) :
    loadElf l disk elfAddr m =
      some (placeAll (disk false) (l.segments (kernelFile disk)) m) := by
  have helf : elfAddr = 32768 := rfl
  have hphoff := hl.phoff
  have htable := hb.table
  have hcount : l.phnum.get (kernelFile disk) 0 < 65536 := by
    unfold Field.get
    rw [hl.phnum_size]
    exact load_lt _ _ 2
  have hstart : l.phoff.get m elfAddr = l.phoff.get (kernelFile disk) 0 :=
    hm.get (a := 0) (by omega)
  have hloop := loadSegments_eq (n := 65536) (i := 0) hl hb hm (by omega) (by omega)
  unfold loadElf
  rw [hstart, u32_of_lt (by omega)]
  simpa using hloop

/-- The layout that the file's machine selects. -/
def layoutOf (file : Mem) : Layout := if IsX8664 file 0 then elf64 else elf32

/-- The entry of the file. -/
def fileEntry (file : Mem) : ℕ := u32 ((layoutOf file).entry.get file 0)

/-- Memory holds the program headers' bytes, followed by zeros, the first page of the file and
the arguments, and otherwise what it held before. -/
structure Loaded (disk : Disk) (m m' : Mem) : Prop where
  program : ∀ s ∈ (layoutOf (kernelFile disk)).segments (kernelFile disk), ∀ i < s.filesz,
    m' (s.paddr + i) = kernelFile disk (s.offset + i)
  zeros : ∀ s ∈ (layoutOf (kernelFile disk)).segments (kernelFile disk), ∀ i, s.filesz ≤ i →
    i < s.memsz → m' (s.paddr + i) = 0
  header : HasHeader (kernelFile disk) m'
  args : ∀ i < 1024, m' (mainargAddr + i) = disk false (512 + i)
  frame : ∀ x, (∀ s ∈ (layoutOf (kernelFile disk)).segments (kernelFile disk),
    x < s.base ∨ s.stop ≤ x) → (x < elfAddr ∨ elfAddr + 4096 ≤ x) →
      (x < mainargAddr ∨ mainargAddr + 1024 ≤ x) → m' x = m x

theorem layoutOf_sound (file : Mem) : (layoutOf file).Sound := by
  unfold layoutOf
  split_ifs
  · exact elf64_sound
  · exact elf32_sound

theorem HasHeader.isX8664 (h : HasHeader file m) : IsX8664 m elfAddr ↔ IsX8664 file 0 := by
  unfold IsX8664
  rw [← h.get (f := machine) (a := 0) (by decide)]
  rfl

theorem HasHeader.entryOf (h : HasHeader file m) : entryOf m = fileEntry file := by
  have hentry := (layoutOf_sound file).entry
  have hget := h.get (f := (layoutOf file).entry) (a := 0) (by omega)
  unfold Loader.entryOf fileEntry
  rw [← hget]
  unfold layoutOf
  simp only [h.isX8664, Nat.add_zero]
  split_ifs <;> rfl

/-- Memory after the arguments and the first page were read. -/
def pageRead (d m : Mem) : Mem := copy d 1536 elfAddr 4096 (copy d 512 mainargAddr 1024 m)

theorem loadFile_eq (hb : Bootable (layoutOf (kernelFile disk)) (kernelFile disk)) :
    loadFile disk m = some (placeAll (disk false)
      ((layoutOf (kernelFile disk)).segments (kernelFile disk)) (pageRead (disk false) m)) := by
  have hheader : HasHeader (kernelFile disk) (pageRead (disk false) m) := fun i hi =>
    copy_inside hi
  have hargs : copyFromDisk disk mainargAddr 1024 (-1024) m =
      some (copy (disk false) 512 mainargAddr 1024 m) := copyFromDisk_eq (by decide) (by decide)
  have hpage : ∀ m, copyFromDisk disk elfAddr 4096 0 m =
      some (copy (disk false) 1536 elfAddr 4096 m) := fun m =>
    copyFromDisk_eq (by decide) (by decide)
  unfold loadFile
  rw [hargs, Option.bind_some, hpage, Option.bind_some]
  change (if IsX8664 (pageRead (disk false) m) elfAddr then
    loadElf64 disk elfAddr (pageRead (disk false) m)
    else loadElf32 disk elfAddr (pageRead (disk false) m)) = _
  rw [← loadElf_eq (layoutOf_sound _) hb hheader]
  simp only [hheader.isX8664, layoutOf, loadElf64, loadElf32]
  split_ifs <;> rfl

theorem loaded_placeAll (hb : Bootable (layoutOf (kernelFile disk)) (kernelFile disk)) :
    Loaded disk m (placeAll (disk false)
      ((layoutOf (kernelFile disk)).segments (kernelFile disk)) (pageRead (disk false) m)) := by
  have hargsAddr : mainargAddr = 65536 := rfl
  have helf : elfAddr = 32768 := rfl
  have hsizes := fun s hs => (hb.fits s hs).sizes
  have hout : ∀ x, 0x7000 ≤ x → x < 0x10400 →
      ∀ s ∈ (layoutOf (kernelFile disk)).segments (kernelFile disk),
        s.filesz ≤ s.memsz ∧ (x < s.base ∨ s.stop ≤ x) := by
    intro x hlo hhi s hs
    have hclear := hb.clear s hs
    exact ⟨hsizes s hs, by omega⟩
  constructor
  · intro s hs i hi
    have hbase := s.base_le
    have hstop := s.lt_stop (lt_of_lt_of_le hi (hsizes s hs))
    obtain ⟨m', hm'⟩ := placeAll_at (d := disk false) (m := pageRead (disk false) m) hb.apart
      hsizes hs (show s.base ≤ s.paddr + i by omega) hstop
    exact hm'.trans (Segment.place_file (hb.congruent s hs) hi)
  · intro s hs i hi hlt
    have hbase := s.base_le
    obtain ⟨m', hm'⟩ := placeAll_at (d := disk false) (m := pageRead (disk false) m) hb.apart
      hsizes hs (show s.base ≤ s.paddr + i by omega) (s.lt_stop hlt)
    exact hm'.trans (Segment.place_zero hi hlt)
  · intro i hi
    rw [placeAll_outside (hout _ (by omega) (by omega))]
    exact copy_inside hi
  · intro i hi
    rw [placeAll_outside (hout _ (by omega) (by omega)), pageRead, copy_outside (by omega)]
    exact copy_inside hi
  · intro x hx hpage hargs
    rw [placeAll_outside fun s hs => ⟨hsizes s hs, hx s hs⟩, pageRead, copy_outside hpage,
      copy_outside hargs]

/-- The first processor enters a bootable kernel at its entry, with the kernel in memory; another
one enters it there too, as long as the first page of the file is kept, and loads nothing. -/
theorem kernel_loaded (hb : Bootable (layoutOf (kernelFile disk)) (kernelFile disk))
    (hap : isAp m = 0) :
    ∃ m', loadKernel disk m = some (m', fileEntry (kernelFile disk)) ∧ Loaded disk m m' ∧
      ∀ m₂, HasHeader (kernelFile disk) m₂ → isAp m₂ ≠ 0 →
        loadKernel disk m₂ = some (m₂, fileEntry (kernelFile disk)) := by
  have hloaded := loaded_placeAll (m := m) hb
  refine ⟨_, ?_, hloaded, fun m₂ hheader hap₂ => ?_⟩
  · unfold loadKernel
    rw [if_pos hap, loadFile_eq hb, Option.map_some, hloaded.header.entryOf]
  · unfold loadKernel
    rw [if_neg hap₂, Option.map_some, hheader.entryOf]

/-- A 64-bit file with two program headers: 20 bytes, and zeros up to 64, at 0x1000b0; and 600
bytes at 0x102000, from the second sector of the file on. -/
def sampleDisk : Disk := fun _ =>
  let header := store (store (store (fun _ => 0) 1554 2 62) 1560 8 0x1000b0) 1568 8 64
  let file := store header 1592 2 2
  let first := store (store (store (store file 1608 8 0xb0) 1624 8 0x1000b0) 1632 8 20) 1640 8 64
  store (store (store (store first 1664 8 0x200) 1680 8 0x102000) 1688 8 600) 1696 8 600

theorem kernel_loaded_sample : ∃ m', loadKernel sampleDisk (fun _ => 0) = some (m', 0x1000b0) ∧
    Loaded sampleDisk (fun _ => 0) m' ∧
    (layoutOf (kernelFile sampleDisk)).segments (kernelFile sampleDisk) =
      [⟨20, 64, 0x1000b0, 0xb0⟩, ⟨600, 600, 0x102000, 0x200⟩] := by
  have hsegments : (layoutOf (kernelFile sampleDisk)).segments (kernelFile sampleDisk) =
      [⟨20, 64, 0x1000b0, 0xb0⟩, ⟨600, 600, 0x102000, 0x200⟩] := by decide +kernel
  have hentry : fileEntry (kernelFile sampleDisk) = 0x1000b0 := by decide +kernel
  have hb : Bootable (layoutOf (kernelFile sampleDisk)) (kernelFile sampleDisk) := by
    constructor
    · decide +kernel
    · rw [hsegments]
      refine List.forall_mem_cons.mpr ⟨⟨by decide, by decide, by decide, by decide⟩, ?_⟩
      exact List.forall_mem_singleton.mpr ⟨by decide, by decide, by decide, by decide⟩
    · rw [hsegments]
      refine List.forall_mem_cons.mpr ⟨show 0x1000b0 % 512 = 0xb0 % 512 by decide, ?_⟩
      exact List.forall_mem_singleton.mpr (show 0x102000 % 512 = 0x200 % 512 by decide)
    · rw [hsegments]
      refine List.forall_mem_cons.mpr ⟨.inr (by decide), ?_⟩
      exact List.forall_mem_singleton.mpr (.inr (by decide))
    · rw [hsegments]
      refine List.pairwise_pair.mpr (.inl ?_)
      decide
  obtain ⟨m', hm', hloaded, -⟩ := kernel_loaded (m := fun _ => 0) hb (by decide +kernel)
  exact ⟨m', hentry ▸ hm', hloaded, hsegments⟩

end Files
end KmallocKfree.Loader
