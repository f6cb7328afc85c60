import KmallocKfree.AddressSpaces

/-!
# The first tables of x86-64

`start64.S` fills one table with pages of 1 GiB, each mapped to itself, and `vme_init` takes it
for the kernel. On a machine that starts this way the address spaces have what they need.
-/
namespace KmallocKfree.Vme

/-- `PML4_ADDR`. -/
def pml4Addr : ℕ := 0x1000

/-- `PDPT_ADDR`. -/
def pdptAddr : ℕ := 0x2000

/-- What `.loop` stores for `%ecx`, the lower half first. -/
def pdptEntry (ecx : ℕ) : ℕ :=
  ((ecx <<< 30) % 2 ^ 32 ||| (pteP ||| pteW ||| ptePS)) + (ecx >>> 2) * 2 ^ 32

/-- `.loop`, `n` times. -/
def fillPdpt : ℕ → Words → Words
  | 0, m => m
  | n + 1, m => write (fillPdpt n m) (pdptAddr + n * 8) (pdptEntry n)

/-- `_start` up to `.long_mode_init`; it stores the lower half of the first entry only. -/
def startTables (m : Words) : Words :=
  let eax := pdptAddr ||| pteP ||| pteW
  if m pml4Addr % 2 ^ 32 = eax then m
  else fillPdpt 512 (write m pml4Addr (m pml4Addr / 2 ^ 32 * 2 ^ 32 + eax))

section Entries

variable {m : Words} {n i va : ℕ}

theorem pdptEntry_eq (i : ℕ) : pdptEntry i = i * 2 ^ 30 ||| 0x83 := by
  have hlow : (i <<< 30) % 2 ^ 32 = 2 ^ 30 * (i % 4) := by
    rw [Nat.shiftLeft_eq]
    omega
  have hsplit : 2 ^ 30 * (i % 4) + 0x83 + (i / 4) * 2 ^ 32 = 2 ^ 30 * i + 0x83 := by omega
  have hor : ∀ y, 2 ^ 30 * y ||| 0x83 = 2 ^ 30 * y + 0x83 := fun y =>
    (Nat.two_pow_add_eq_or_of_lt (by decide) y).symm
  have hflags : pteP ||| pteW ||| ptePS = 0x83 := rfl
  rw [pdptEntry, hlow, hflags, hor, Nat.shiftRight_eq_div_pow, hsplit, Nat.mul_comm i, hor]

theorem fillPdpt_entry (hi : i < n) : fillPdpt n m (pdptAddr + i * 8) = pdptEntry i := by
  induction n with
  | zero => omega
  | succ n ih =>
    rw [fillPdpt, write]
    by_cases h : i = n
    · subst h
      exact if_pos rfl
    · rw [if_neg (by omega), ih (by omega)]

theorem fillPdpt_below {x : ℕ} (hx : x < pdptAddr) : fillPdpt n m x = m x := by
  induction n with
  | zero => rfl
  | succ n ih => rw [fillPdpt, write, if_neg (by omega), ih]

/-- The startup code finds blank memory at `PML4_ADDR`. -/
theorem startTables_entries (h : m pml4Addr = 0) :
    startTables m pml4Addr = 0x2003 ∧
      ∀ i < 512, startTables m (pdptAddr + i * 8) = pdptEntry i := by
  have hrun : startTables m = fillPdpt 512 (write m pml4Addr 0x2003) := by
    unfold startTables
    simp only [h]
    rfl
  rw [hrun]
  refine ⟨?_, fun i hi => fillPdpt_entry hi⟩
  rw [fillPdpt_below (by decide), write, if_pos rfl]

end Entries

section Identity

variable {m : Words} {va : ℕ}

/-- The tables of the startup code, in any memory. -/
structure HasStartTables (m : Words) : Prop where
  pml4 : m pml4Addr = 0x2003
  pdpt : ∀ i < 512, m (pdptAddr + i * 8) = pdptEntry i

theorem kernelIndexes_x8664 : kernelIndexes x8664 = [0] := by decide +kernel

/-- The kernel's addresses are mapped to themselves, for the kernel only. -/
theorem HasStartTables.translate (h : HasStartTables m)
    (hva : indexof va x8664.first ∈ kernelIndexes x8664) :
    translateFrom x8664 m va x8664.pgtables.tail pml4Addr =
      some ⟨va % 2 ^ 39, true, false⟩ := by
  have hzero : indexof va x8664.first = 0 := by simpa [kernelIndexes_x8664] using hva
  have hfirst : indexof va ⟨0xff8000000000, 39, 9⟩ = 0 := hzero
  have hsecond : indexof va ⟨0x007fc0000000, 30, 9⟩ = va / 2 ^ 30 % 2 ^ 9 :=
    indexof_eq (by decide) va
  have hlt : va / 2 ^ 30 % 2 ^ 9 < 512 := Nat.mod_lt _ (by decide)
  have hroot : entry x8664 pml4Addr 0 = pml4Addr := rfl
  have hnext : baseof x8664 0x2003 = pdptAddr := by decide
  have hslot : entry x8664 pdptAddr (va / 2 ^ 30 % 2 ^ 9) =
      pdptAddr + va / 2 ^ 30 % 2 ^ 9 * 8 := rfl
  have hpdpt := h.pdpt _ hlt
  rw [pdptEntry_eq] at hpdpt
  have hdvd : 4096 ∣ va / 2 ^ 30 % 2 ^ 9 * 2 ^ 30 := Dvd.dvd.mul_left (by decide) _
  have hbit : ∀ j < 12, (va / 2 ^ 30 % 2 ^ 9 * 2 ^ 30 ||| 0x83).testBit j =
      (0x83).testBit j := fun j hj => testBit_entry hdvd hj
  have hbase : baseof x8664 (va / 2 ^ 30 % 2 ^ 9 * 2 ^ 30 ||| 0x83) =
      va / 2 ^ 30 % 2 ^ 9 * 2 ^ 30 := by
    refine baseof_or x8664_wf hdvd ?_ (by decide)
    change _ < 2 ^ 64
    omega
  have hphys : va / 2 ^ 30 % 2 ^ 9 * 2 ^ 30 / 2 ^ 30 * 2 ^ 30 + va % 2 ^ 30 = va % 2 ^ 39 := by
    omega
  change translateFrom x8664 m va [⟨0xff8000000000, 39, 9⟩, ⟨0x007fc0000000, 30, 9⟩,
    ⟨0x00003fe00000, 21, 9⟩, ⟨0x0000001ff000, 12, 9⟩] pml4Addr = _
  rw [translateFrom, hfirst, hroot, h.pml4, hnext, translateFrom, hsecond, hslot, hpdpt, hbase,
    hphys]
  simp only [and_pteP, and_pteW, and_pteU, and_ptePS, ne_eq]
  rw [hbit 0 (by decide), hbit 1 (by decide), hbit 2 (by decide), hbit 7 (by decide)]
  rfl

end Identity

section Kernel

variable {α : Type}

/-- An x86-64 machine after `vme_init`, with an allocator that keeps its laws: the tables of the
startup code are memory that the allocator does not have. -/
def kernel64 (P : Pager α) (live : α → Set ℕ) (used cells : Set ℕ) (good : α → Words → Prop)
    (laws : Laws x8664 P live used good) (hcells : cells ⊆ used)
    (hused : ∀ x, pml4Addr ≤ x → x < pdptAddr + 4096 → x ∈ used ∧ x ∉ cells)
    (m : Words) (hm : m pml4Addr = 0) (pages : α) (hgood : good pages (startTables m)) :
    Kernel α where
  arch := x8664
  pager := P
  live := live
  used := used
  cells := cells
  good := good
  start := ⟨startTables m, pages, pml4Addr⟩
  wf := x8664_wf
  laws := laws
  start_good := hgood
  cells_used := hcells
  kpt_base := by
    change baseof x8664 pml4Addr = pml4Addr
    decide
  kpt_used := by
    intro k hk
    obtain rfl : k = 0 := by simpa [kernelIndexes_x8664] using hk
    exact hused pml4Addr le_rfl (by decide)
  kpt_kernel := by
    intro k hk
    obtain rfl : k = 0 := by simpa [kernelIndexes_x8664] using hk
    change startTables m pml4Addr &&& pteU = 0
    rw [(startTables_entries hm).1]
    decide
  kpt_closed := by
    intro m' hsame va hva
    obtain ⟨hpml4, hpdpt⟩ := startTables_entries hm
    have hstart : HasStartTables (startTables m) := ⟨hpml4, hpdpt⟩
    have hsame' : ∀ x, pml4Addr ≤ x → x < pdptAddr + 4096 → m' x = startTables m x :=
      fun x hle hlt => hsame x (hused x hle hlt).1 (hused x hle hlt).2
    have hafter : HasStartTables m' := by
      refine ⟨(hsame' _ le_rfl (by decide)).trans hpml4, fun i hi => ?_⟩
      rw [hsame' _ (by unfold pml4Addr pdptAddr; omega) (by omega), hpdpt i hi]
    change translateFrom x8664 m' va x8664.pgtables.tail pml4Addr =
      translateFrom x8664 (startTables m) va x8664.pgtables.tail pml4Addr
    rw [hafter.translate hva, hstart.translate hva]

end Kernel
end KmallocKfree.Vme
