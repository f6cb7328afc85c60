import KmallocKfree.BitFields
import KmallocKfree.TableForest
import KmallocKfree.Vme

/-!
# Page tables

What both architectures have in common, entries with their flags, and the translation of
addresses by the processor. The tables that belong to an address space are those that entries
with `PTE_P` and `PTE_U` lead to.
-/
namespace KmallocKfree.Vme

/-- The first level below `as->ptr`. -/
def Arch.first (c : Arch) : PtInfo := (c.pgtables[1]?).getD ⟨0, 0, 0⟩

/-- The levels split an address into the numbers of entries and the offset in a page. -/
def Chained : List PtInfo → ℕ → Prop
  | [], top => top = 12
  | info :: levels, top => info.shift + info.bits = top ∧ Chained levels info.shift

/-- An address in one of the kernel's areas; the last one may end with the memory. -/
def Arch.InKernel (c : Arch) (va : ℕ) : Prop :=
  ∃ vma ∈ c.vmAreas, vma.kernel = true ∧ vma.start ≤ va ∧ va < 2 ^ c.wordBits ∧
    (va < vma.stop ∨ vma.stop = 0)

/-- What `vme.c` relies on in the description of the architecture. -/
structure Arch.Wf (c : Arch) : Prop where
  pgsize : c.pgsize = 4096
  bits : 12 < c.wordBits
  tables : ∃ levels, c.pgtables = ⟨0, 0, 0⟩ :: c.first :: levels
  deep : 3 ≤ c.pgtables.length
  masks : ∀ info ∈ c.pgtables.tail, info.mask = (2 ^ info.bits - 1) * 2 ^ info.shift
  size : ∀ info ∈ c.pgtables.tail, c.wordSize * 2 ^ info.bits = 4096
  chained : Chained c.pgtables.tail (c.first.shift + c.first.bits)
  user : ∀ va, c.uvmArea.start ≤ va → va < c.uvmArea.stop →
    va < 2 ^ (c.first.shift + c.first.bits) ∧ indexof va c.first ∉ kernelIndexes c
  kernel : ∀ va, c.InKernel va → indexof va c.first ∈ kernelIndexes c
  indexes : ∀ k ∈ kernelIndexes c, k < 2 ^ c.first.bits

theorem indexof_eq {info : PtInfo} (h : info.mask = (2 ^ info.bits - 1) * 2 ^ info.shift)
    (va : ℕ) : indexof va info = va / 2 ^ info.shift % 2 ^ info.bits := by
  rw [indexof, h, field_shiftRight]

/-- 512 GiB for the user, behind one entry of the first level; the kernel has another one. -/
theorem x8664_wf : x8664.Wf where
  pgsize := rfl
  bits := by decide
  tables := ⟨_, rfl⟩
  deep := by decide
  masks := by decide
  size := by decide
  chained := ⟨rfl, rfl, rfl, rfl, rfl⟩
  user := by
    intro va hstart hstop
    have hstart' : 0x100000000000 ≤ va := hstart
    have hstop' : va < 0x108000000000 := hstop
    have hind : kernelIndexes x8664 = [0] := by decide +kernel
    have hfirst : indexof va x8664.first = va / 2 ^ 39 % 2 ^ 9 := indexof_eq (by decide) va
    refine ⟨lt_trans hstop' (by decide), ?_⟩
    rw [hind, hfirst]
    simp
    omega
  kernel := by
    intro va hva
    obtain ⟨vma, hmem, hk, hstart, hlt, hstop⟩ := hva
    have hind : kernelIndexes x8664 = [0] := by decide +kernel
    have hfirst : indexof va x8664.first = va / 2 ^ 39 % 2 ^ 9 := indexof_eq (by decide) va
    rw [hind, hfirst]
    simp only [x8664, List.mem_cons, List.not_mem_nil, or_false] at hmem
    rcases hmem with rfl | rfl
    · cases hk
    · simp at hstop ⊢
      omega
  indexes := by
    have hind : kernelIndexes x8664 = [0] := by decide +kernel
    rw [hind]
    decide

/-- 1 GiB each for the user and the kernel, which also has the addresses of devices. -/
theorem i386_wf : i386.Wf where
  pgsize := rfl
  bits := by decide
  tables := ⟨_, rfl⟩
  deep := by decide
  masks := by decide
  size := by decide
  chained := ⟨rfl, rfl, rfl⟩
  user := by
    intro va hstart hstop
    have hstart' : 0x40000000 ≤ va := hstart
    have hstop' : va < 0x80000000 := hstop
    have hind : ∀ k ∈ kernelIndexes i386, k < 256 ∨ 1012 ≤ k := by decide +kernel
    have hfirst : indexof va i386.first = va / 2 ^ 22 % 2 ^ 10 := indexof_eq (by decide) va
    refine ⟨lt_trans hstop' (by decide), fun hmem => ?_⟩
    have := hind _ hmem
    omega
  kernel := by
    intro va hva
    obtain ⟨vma, hmem, hk, hstart, hlt, hstop⟩ := hva
    have hind : ∀ k < 1024, k < 256 ∨ 1012 ≤ k → k ∈ kernelIndexes i386 := by decide +kernel
    have hfirst : indexof va i386.first = va / 2 ^ 22 % 2 ^ 10 := indexof_eq (by decide) va
    have hlt' : va < 4294967296 := hlt
    simp only [i386, List.mem_cons, List.not_mem_nil, or_false] at hmem
    rcases hmem with rfl | rfl | rfl
    · cases hk
    · refine hind _ (by omega) (.inl ?_)
      simp at hstop
      omega
    · refine hind _ (by omega) (.inr ?_)
      simp at hstart
      omega
  indexes := by
    have hind : ∀ k ∈ kernelIndexes i386, k < 1024 := by decide +kernel
    exact hind

section Entries

variable {c : Arch} {q f e : ℕ}

theorem and_pteP : e &&& pteP = 0 ↔ e.testBit 0 = false := and_two_pow_eq_zero e 0

theorem and_pteW : e &&& pteW = 0 ↔ e.testBit 1 = false := and_two_pow_eq_zero e 1

theorem and_pteU : e &&& pteU = 0 ↔ e.testBit 2 = false := and_two_pow_eq_zero e 2

theorem and_ptePS : e &&& ptePS = 0 ↔ e.testBit 7 = false := and_two_pow_eq_zero e 7

theorem baseof_eq (hc : c.Wf) (x : ℕ) :
    baseof c x = x / 2 ^ 12 % 2 ^ (c.wordBits - 12) * 2 ^ 12 := by
  have hbits := hc.bits
  have hmask : 2 ^ c.wordBits - c.pgsize = (2 ^ (c.wordBits - 12) - 1) * 2 ^ 12 := by
    rw [Nat.sub_mul, ← pow_add, Nat.sub_add_cancel (by omega), hc.pgsize, Nat.one_mul]
    rfl
  rw [baseof, hmask, and_field]

theorem baseof_dvd (hc : c.Wf) (x : ℕ) : 4096 ∣ baseof c x := by
  rw [baseof_eq hc]
  exact Dvd.intro_left _ rfl

/-- A page with flags behind its address. -/
theorem baseof_or (hc : c.Wf) (hq : 4096 ∣ q) (hlt : q < 2 ^ c.wordBits) (hf : f < 4096) :
    baseof c (q ||| f) = q := by
  obtain ⟨y, rfl⟩ := hq
  have hor : (4096 * y ||| f) / 2 ^ 12 = y := by
    have hadd := Nat.two_pow_add_eq_or_of_lt (i := 12) hf y
    rw [show 4096 * y = 2 ^ 12 * y from rfl, ← hadd]
    omega
  have hy : y < 2 ^ (c.wordBits - 12) := by
    have hpow : 2 ^ c.wordBits = 2 ^ (c.wordBits - 12) * 4096 := by
      conv_lhs => rw [← Nat.sub_add_cancel hc.bits.le, pow_add]
      rfl
    omega
  rw [baseof_eq hc, hor, Nat.mod_eq_of_lt hy, Nat.mul_comm]
  rfl

theorem baseof_of_dvd (hc : c.Wf) (hq : 4096 ∣ q) (hlt : q < 2 ^ c.wordBits) : baseof c q = q := by
  simpa using baseof_or hc hq hlt (by decide : 0 < 4096)

theorem testBit_entry (hq : 4096 ∣ q) {i : ℕ} (hi : i < 12) : (q ||| f).testBit i = f.testBit i :=
  testBit_or_of_dvd (s := 12) hq hi

end Entries

section Tables

variable (c : Arch)

/-- The table of an address space that an entry leads to. -/
def child (e : ℕ) : Option ℕ :=
  if e &&& pteP ≠ 0 ∧ e &&& pteU ≠ 0 then some (baseof c e) else none

/-- The numbers of entries of the tables that lead to others, from `as->ptr` on. -/
def inner : List ℕ := c.pgtables.dropLast.map (2 ^ ·.bits)

/-- The entries on the way to the table of the last level. -/
def path (va : ℕ) : List ℕ := c.pgtables.dropLast.map (indexof va)

/-- The entry for an address in the table of the last level. -/
def leafIndex (va : ℕ) : ℕ := indexof va (c.pgtables.getLastD ⟨0, 0, 0⟩)

/-- What the processor makes of an address. -/
structure Access where
  phys : ℕ
  writable : Bool
  user : Bool
  deriving DecidableEq

/-- Translation by the processor: all entries on the way count for the rights, and a page may
end at any level. -/
def translateFrom (m : Words) (va : ℕ) : List PtInfo → ℕ → Option Access
  | [], _ => none
  | info :: levels, pt =>
    let e := m (entry c pt (indexof va info))
    if e &&& pteP = 0 then none
    else if levels.isEmpty then
      some ⟨baseof c e + va % c.pgsize, e &&& pteW ≠ 0, e &&& pteU ≠ 0⟩
    else if e &&& ptePS ≠ 0 then
      some ⟨baseof c e / 2 ^ info.shift * 2 ^ info.shift + va % 2 ^ info.shift,
        e &&& pteW ≠ 0, e &&& pteU ≠ 0⟩
    else (translateFrom m va levels (baseof c e)).map fun x =>
      ⟨x.phys, x.writable && (e &&& pteW ≠ 0), x.user && (e &&& pteU ≠ 0)⟩

/-- Translation with `cr3` as the processor's register of that name. -/
def translate (m : Words) (cr3 va : ℕ) : Option Access :=
  translateFrom c m va c.pgtables.tail (baseof c cr3)

end Tables

section Indexes

variable {c : Arch}

theorem twelve_le {levels : List PtInfo} {top : ℕ} (h : Chained levels top) : 12 ≤ top := by
  induction levels generalizing top with
  | nil => exact h.ge
  | cons info levels ih =>
    obtain ⟨rfl, h⟩ := h
    exact le_trans (ih h) (Nat.le_add_right _ _)

/-- Addresses with the same numbers of entries are in one page. -/
theorem eq_page_of_indexes {levels : List PtInfo} {top va va' : ℕ} (hch : Chained levels top)
    (hmask : ∀ info ∈ levels, info.mask = (2 ^ info.bits - 1) * 2 ^ info.shift)
    (heq : ∀ info ∈ levels, indexof va info = indexof va' info) :
    va % 2 ^ top / 4096 = va' % 2 ^ top / 4096 := by
  induction levels generalizing top with
  | nil =>
    obtain rfl : top = 12 := hch
    omega
  | cons info levels ih =>
    obtain ⟨rfl, hch⟩ := hch
    have hi := heq info (List.mem_cons_self ..)
    rw [indexof_eq (hmask info (List.mem_cons_self ..)),
      indexof_eq (hmask info (List.mem_cons_self ..))] at hi
    have hrest := ih hch (fun i hi => hmask i (List.mem_cons_of_mem _ hi))
      (fun i hi => heq i (List.mem_cons_of_mem _ hi))
    obtain ⟨y, hy⟩ : 4096 ∣ 2 ^ info.shift := Nat.pow_dvd_pow 2 (twelve_le hch)
    rw [pow_add, Nat.mod_mul, Nat.mod_mul, hi, hy, Nat.mul_assoc,
      Nat.add_mul_div_left _ _ (by omega), Nat.add_mul_div_left _ _ (by omega), ← hy, hrest]

theorem twelve_le_shift {levels : List PtInfo} {top : ℕ} (h : Chained levels top) :
    ∀ info ∈ levels, 12 ≤ info.shift := by
  induction levels generalizing top with
  | nil => intro info hinfo; cases hinfo
  | cons info levels ih =>
    obtain ⟨rfl, h⟩ := h
    intro i hi
    rcases List.mem_cons.mp hi with rfl | hi
    · exact twelve_le h
    · exact ih h i hi

theorem pathIn_map {α : Type*} {f g : α → ℕ} {l : List α} (h : ∀ x ∈ l, f x < g x) :
    PathIn (l.map g) (l.map f) := by
  induction l with
  | nil => exact pathIn_nil
  | cons x l ih =>
    exact ⟨h x (List.mem_cons_self ..), ih fun y hy => h y (List.mem_cons_of_mem _ hy)⟩

/-- All tables of an address space with the numbers of their entries. -/
def widths (c : Arch) : List ℕ := c.pgtables.map (2 ^ ·.bits)

variable (hc : c.Wf)

include hc

theorem Arch.Wf.tail_ne : c.pgtables.tail ≠ [] := by
  obtain ⟨levels, h⟩ := hc.tables
  rw [h]
  exact List.cons_ne_nil _ _

theorem indexof_lt {info : PtInfo} (h : info ∈ c.pgtables) (va : ℕ) :
    indexof va info < 2 ^ info.bits := by
  obtain ⟨levels, ht⟩ := hc.tables
  by_cases htail : info ∈ c.pgtables.tail
  · rw [indexof_eq (hc.masks info htail)]
    exact Nat.mod_lt _ (by positivity)
  · rw [ht, List.mem_cons] at h
    rw [ht, List.tail_cons] at htail
    obtain rfl := h.resolve_right htail
    simp [indexof]

theorem pathIn_path (va : ℕ) : PathIn (inner c) (path c va) :=
  pathIn_map fun _ hinfo => indexof_lt hc (List.dropLast_subset _ hinfo) va

theorem two_le_length_path (va : ℕ) : 2 ≤ (path c va).length := by
  have := hc.deep
  rw [path, List.length_map, List.length_dropLast]
  omega

theorem getLast?_pgtables : ∃ info ∈ c.pgtables.tail, c.pgtables = c.pgtables.dropLast ++ [info] ∧
    ∀ va, leafIndex c va = indexof va info := by
  obtain ⟨levels, ht⟩ := hc.tables
  have hne : c.pgtables ≠ [] := by rw [ht]; exact List.cons_ne_nil _ _
  refine ⟨c.pgtables.getLast hne, ?_, (List.dropLast_append_getLast hne).symm, fun va => ?_⟩
  · rw [← List.getLast_tail (hc.tail_ne)]
    exact List.getLast_mem _
  · rw [leafIndex, List.getLastD_eq_getLast?, List.getLast?_eq_some_getLast hne]
    rfl

theorem path_append (va : ℕ) : path c va ++ [leafIndex c va] = c.pgtables.map (indexof va) := by
  obtain ⟨info, -, hlast, hleaf⟩ := getLast?_pgtables hc
  rw [hleaf, path]
  conv_rhs => rw [hlast]
  simp

/-- The entry for an address. -/
theorem pathIn_leaf (va : ℕ) : PathIn (widths c) (path c va ++ [leafIndex c va]) := by
  rw [path_append hc]
  exact pathIn_map fun _ hinfo => indexof_lt hc hinfo va

theorem pathIn_widths {p : List ℕ} (h : PathIn (inner c) p) : PathIn (widths c) p := by
  obtain ⟨info, -, hlast, -⟩ := getLast?_pgtables hc
  have hw : widths c = inner c ++ [2 ^ info.bits] := by
    rw [widths, inner]
    conv_lhs => rw [hlast]
    simp
  rw [hw]
  exact h.append_right _

/-- `as->ptr` leads to the table of the first level. -/
theorem pathIn_top : PathIn (inner c) [0] := by
  obtain ⟨levels, ht⟩ := hc.tables
  rw [inner, ht, List.dropLast_cons_of_ne_nil (List.cons_ne_nil _ _)]
  exact ⟨Nat.one_pos, pathIn_nil⟩

theorem pathIn_kernel {k : ℕ} (h : k ∈ kernelIndexes c) : PathIn (widths c) ([0] ++ [k]) := by
  obtain ⟨levels, ht⟩ := hc.tables
  rw [widths, ht]
  exact ⟨Nat.one_pos, hc.indexes k h, pathIn_nil⟩

/-- Pages of the user's area with the same entry are one page. -/
theorem eq_of_entries {va va' : ℕ} (hva : 4096 ∣ va) (hva' : 4096 ∣ va')
    (hlt : va < 2 ^ (c.first.shift + c.first.bits))
    (hlt' : va' < 2 ^ (c.first.shift + c.first.bits))
    (hpath : path c va = path c va') (hleaf : leafIndex c va = leafIndex c va') : va = va' := by
  have hmap : c.pgtables.map (indexof va) = c.pgtables.map (indexof va') := by
    rw [← path_append hc, ← path_append hc, hpath, hleaf]
  have hpage := eq_page_of_indexes hc.chained hc.masks fun info hinfo =>
    List.map_inj_left.mp hmap info (List.mem_of_mem_tail hinfo)
  rw [Nat.mod_eq_of_lt hlt, Nat.mod_eq_of_lt hlt'] at hpage
  omega

/-- All addresses of a page have the same entries. -/
theorem indexof_page {info : PtInfo} (hinfo : info ∈ c.pgtables) (va : ℕ) :
    indexof (va / 4096 * 4096) info = indexof va info := by
  obtain ⟨levels, ht⟩ := hc.tables
  by_cases htail : info ∈ c.pgtables.tail
  · have hle := twelve_le_shift hc.chained info htail
    have hpow : 2 ^ info.shift = 4096 * 2 ^ (info.shift - 12) := by
      conv_lhs => rw [← Nat.sub_add_cancel hle, pow_add, Nat.mul_comm]
      rfl
    rw [indexof_eq (hc.masks info htail), indexof_eq (hc.masks info htail), hpow,
      ← Nat.div_div_eq_div_mul, ← Nat.div_div_eq_div_mul, Nat.mul_div_cancel _ (by omega)]
  · rw [ht, List.mem_cons] at hinfo
    rw [ht, List.tail_cons] at htail
    obtain rfl := hinfo.resolve_right htail
    simp [indexof]

theorem path_page (va : ℕ) : path c (va / 4096 * 4096) = path c va ∧
    leafIndex c (va / 4096 * 4096) = leafIndex c va := by
  obtain ⟨info, hmem, hlast, hleaf⟩ := getLast?_pgtables hc
  rw [hleaf, hleaf]
  exact ⟨List.map_congr_left fun i hi => indexof_page hc (List.dropLast_subset _ hi) va,
    indexof_page hc (List.mem_of_mem_tail hmem) va⟩

theorem wordSize_pos : 0 < c.wordSize := by
  obtain ⟨levels, ht⟩ := hc.tables
  have hsize := hc.size c.first (by rw [ht]; exact List.mem_cons_self ..)
  exact Nat.pos_of_ne_zero fun h => by rw [h, Nat.zero_mul] at hsize; cases hsize

/-- `as->ptr` is its own entry. -/
theorem entry_root {k : ℕ} (h : PathIn (widths c) [k]) (as : ℕ) : k = 0 ∧ entry c as k = as := by
  obtain ⟨levels, ht⟩ := hc.tables
  rw [widths, ht] at h
  have hk : k < 2 ^ 0 := h.1
  obtain rfl : k = 0 := by omega
  exact ⟨rfl, by simp [entry]⟩

/-- The other entries are within the page of their table. -/
theorem entry_page {p : List ℕ} {k : ℕ} (h : PathIn (widths c) (p ++ [k])) (hp : p ≠ []) :
    k * c.wordSize + c.wordSize ≤ 4096 := by
  obtain ⟨levels, ht⟩ := hc.tables
  obtain ⟨-, w, hw, hk⟩ := pathIn_snoc.mp h
  obtain ⟨j, q, rfl⟩ := List.exists_cons_of_ne_nil hp
  rw [widths, ht, List.length_cons, List.map_cons, List.getElem?_cons_succ] at hw
  obtain ⟨info, hinfo, rfl⟩ := List.mem_map.mp (List.mem_of_getElem? hw)
  have hsize := hc.size info (by rw [ht]; exact hinfo)
  have := Nat.mul_le_mul_left c.wordSize (Nat.succ_le_of_lt hk)
  rw [Nat.mul_comm k, ← Nat.mul_succ]
  exact this.trans hsize.le

/-- Entries at different places are apart. -/
theorem entry_inj {u v k j : ℕ} (hu : 4096 ∣ u) (hv : 4096 ∣ v)
    (hk : k * c.wordSize + c.wordSize ≤ 4096) (hj : j * c.wordSize + c.wordSize ≤ 4096)
    (h : entry c u k = entry c v j) : u = v ∧ k = j := by
  have hpos := wordSize_pos hc
  unfold entry at h
  obtain rfl : u = v := by omega
  exact ⟨rfl, Nat.eq_of_mul_eq_mul_right hpos (by omega)⟩

end Indexes
end KmallocKfree.Vme
