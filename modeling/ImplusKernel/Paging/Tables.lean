import ImplusKernel.Lib.PageWalk
import ImplusKernel.Memory.Heap
import Mathlib.Logic.Function.Basic

/-!
# Page tables and the MMIO window

`init_paging` maps the low gigabytes one to one with 2 MiB pages.
`map_mmio_virt` answers an address below 4 GiB with itself and gives the
2 MiB region of a higher one a slot in a window of sixteen pages at
`0xF0000000`.  The tables are static arrays, so their addresses are
parameters.
-/

namespace ImplusKernel.Paging

open Words PageWalk

def gb : ℕ := 1024 * 1024 * 1024

def mb2 : ℕ := 2 * 1024 * 1024

def maxPdptEntries : ℕ := 64

def mmioWindowBase : ℕ := 0xF0000000

def mmioWindowSlots : ℕ := 16

def pagePresent : ℕ := 1 <<< 0

def pageRw : ℕ := 1 <<< 1

def pageUser : ℕ := 1 <<< 2

def pagePs : ℕ := 1 <<< 7

structure PagingState where
  pml4 : ℕ → ℕ
  pdpt : ℕ → ℕ
  pd : ℕ → ℕ → ℕ
  mmioPhysBase : ℕ → ℕ
  mmioSlotsUsed : ℕ

/-- Where the linker put the tables `pml4[512]`, `pdpt[512]` and
`pd[64][512]`: page aligned, apart from each other, inside the physical
address space. -/
structure TableAddrs where
  pml4 : ℕ
  pdpt : ℕ
  pd : ℕ
  pml4_aligned : 2 ^ 12 ∣ pml4
  pdpt_aligned : 2 ^ 12 ∣ pdpt
  pd_aligned : 2 ^ 12 ∣ pd
  pml4_lt : pml4 + 4096 ≤ 2 ^ 52
  pdpt_lt : pdpt + 4096 ≤ 2 ^ 52
  pd_lt : pd + 64 * 4096 ≤ 2 ^ 52
  pml4_pdpt : pml4 + 4096 ≤ pdpt ∨ pdpt + 4096 ≤ pml4
  pml4_pd : pml4 + 4096 ≤ pd ∨ pd + 64 * 4096 ≤ pml4
  pdpt_pd : pdpt + 4096 ≤ pd ∨ pd + 64 * 4096 ≤ pdpt

/-- An entry that points to a table. -/
def tableEntry (addr : ℕ) : ℕ := addr ||| pagePresent ||| pageRw ||| pageUser

/-- An entry that maps a 2 MiB page. -/
def pageEntry (addr : ℕ) : ℕ := addr ||| pagePresent ||| pageRw ||| pagePs ||| pageUser

/-! ## `init_paging` -/

/-- The inner loop over one page directory. -/
def fillDirectory (base : ℕ) (row : ℕ → ℕ) : ℕ → ℕ → ℕ
  | 0 => row
  | j + 1 => Function.update (fillDirectory base row j) j (pageEntry (base + j * mb2))

/-- The outer loop. -/
def mapGigabytes (addrs : TableAddrs) (s : PagingState) : ℕ → PagingState
  | 0 => s
  | i + 1 =>
      let s' := mapGigabytes addrs s i
      { s' with
        pdpt := Function.update s'.pdpt i (tableEntry (addrs.pd + i * 4096))
        pd := Function.update s'.pd i (fillDirectory (i * gb) (s'.pd i) 512) }

/-- `(max_addr + GB - 1) / GB`, before the limit is applied. -/
def requestedEntries (framebufferBase framebufferSize : ℕ) : ℕ :=
  let fbEnd := (framebufferBase + framebufferSize) % 2 ^ 64
  let minRequired := 4 * gb
  let maxAddr := if fbEnd > minRequired then fbEnd else minRequired
  (maxAddr + gb - 1) % 2 ^ 64 / gb

def requiredEntries (framebufferBase framebufferSize : ℕ) : ℕ :=
  if requestedEntries framebufferBase framebufferSize > maxPdptEntries then maxPdptEntries
  else requestedEntries framebufferBase framebufferSize

def PagingState.cleared : PagingState where
  pml4 := fun _ ↦ 0
  pdpt := fun _ ↦ 0
  pd := fun _ _ ↦ 0
  mmioPhysBase := fun _ ↦ 0
  mmioSlotsUsed := 0

/-- The tables after `pml4[0]` is set, before the loops. -/
def PagingState.rooted (addrs : TableAddrs) : PagingState :=
  { PagingState.cleared with
    pml4 := Function.update PagingState.cleared.pml4 0 (tableEntry addrs.pdpt) }

def initPagingSerial (framebufferBase framebufferSize : ℕ) : List String :=
  ["[OS] [Memory] Start Initialize Paging.\n"] ++
  (if requestedEntries framebufferBase framebufferSize > maxPdptEntries then
    ["[OS] [Memory] Warning: mapping limited to MAX_PDPT_ENTRIES.\n"] else []) ++
  ["[OS] [Memory] Mapping ",
    Heap.serialUint64 (requiredEntries framebufferBase framebufferSize),
    " GB of memory.\n", "[OS] [Memory] Success Initialize Paging.\n"]

/-- Every table is cleared first, so nothing of the earlier state remains;
`pml4` is loaded into CR3 at the end. -/
def initPaging (addrs : TableAddrs) (framebufferBase framebufferSize : ℕ) :
    PagingState × List String :=
  (mapGigabytes addrs (.rooted addrs) (requiredEntries framebufferBase framebufferSize),
    initPagingSerial framebufferBase framebufferSize)

/-! ## `map_mmio_virt` -/

inductive MapResult
  | mapped (ptr : ℕ)
  | windowExhausted
  | indexOutOfRange
deriving DecidableEq, Repr

def MapResult.ptr : MapResult → ℕ
  | .mapped ptr => ptr
  | _ => 0

def MapResult.serial : MapResult → List String
  | .mapped _ => []
  | .windowExhausted => ["[OS] [Memory] MMIO window exhausted\n"]
  | .indexOutOfRange => ["[OS] [Memory] MMIO window index out of range\n"]

/-- The loop over the slots in use. -/
def findSlot (s : PagingState) (physBase : ℕ) : Option ℕ :=
  (List.range s.mmioSlotsUsed).find? fun i ↦ s.mmioPhysBase i = physBase

def mapMmioVirt (addrs : TableAddrs) (s : PagingState) (physAddr : ℕ) :
    PagingState × MapResult :=
  if physAddr < 4 * gb then (s, .mapped physAddr)
  else
    let physBase := physAddr &&& highMask 64 21
    let offset := physAddr - physBase
    match findSlot s physBase with
    | some i => (s, .mapped (mmioWindowBase + i * mb2 + offset))
    | none =>
        if mmioWindowSlots ≤ s.mmioSlotsUsed then (s, .windowExhausted)
        else
          let virtBase := mmioWindowBase + s.mmioSlotsUsed * mb2
          let pdptIndex := virtBase >>> 30 &&& 0x1FF
          let pdIndex := virtBase >>> 21 &&& 0x1FF
          if maxPdptEntries ≤ pdptIndex then (s, .indexOutOfRange)
          else
            ({ s with
              pdpt := Function.update s.pdpt pdptIndex (tableEntry (addrs.pd + pdptIndex * 4096))
              pd := Function.update s.pd pdptIndex
                (Function.update (s.pd pdptIndex) pdIndex (pageEntry physBase))
              mmioPhysBase := Function.update s.mmioPhysBase s.mmioSlotsUsed physBase
              mmioSlotsUsed := s.mmioSlotsUsed + 1 },
              .mapped (virtBase + offset))

/-- A sequence of calls, with the pointer each one returned. -/
def mapAll (addrs : TableAddrs) (s : PagingState) (physAddrs : List ℕ) :
    PagingState × List (ℕ × ℕ) :=
  physAddrs.foldl (fun acc a ↦
    ((mapMmioVirt addrs acc.1 a).1, acc.2 ++ [(a, (mapMmioVirt addrs acc.1 a).2.ptr)])) (s, [])

/-! ## What the processor sees -/

/-- The words of physical memory: the three tables where the linker put them,
and anything elsewhere. -/
def word (addrs : TableAddrs) (s : PagingState) (other : ℕ → ℕ) (a : ℕ) : ℕ :=
  if addrs.pml4 ≤ a ∧ a < addrs.pml4 + 4096 then s.pml4 ((a - addrs.pml4) / 8)
  else if addrs.pdpt ≤ a ∧ a < addrs.pdpt + 4096 then s.pdpt ((a - addrs.pdpt) / 8)
  else if addrs.pd ≤ a ∧ a < addrs.pd + 64 * 4096 then
    s.pd ((a - addrs.pd) / 4096) ((a - addrs.pd) % 4096 / 8)
  else other a

def virtToPhys (addrs : TableAddrs) (s : PagingState) (other : ℕ → ℕ) (va : ℕ) : Option ℕ :=
  translate (word addrs s other) addrs.pml4 va

/-- The entries met on the way. -/
def virtPath (addrs : TableAddrs) (s : PagingState) (other : ℕ → ℕ) (va : ℕ) : List ℕ :=
  walkPath (word addrs s other) 3 (frame addrs.pml4 12) va

variable {addrs : TableAddrs} {s : PagingState} {other : ℕ → ℕ}

theorem word_pml4 {i : ℕ} (hi : i < 512) : word addrs s other (addrs.pml4 + 8 * i) = s.pml4 i := by
  have hin : addrs.pml4 ≤ addrs.pml4 + 8 * i ∧ addrs.pml4 + 8 * i < addrs.pml4 + 4096 := by omega
  have hindex : (addrs.pml4 + 8 * i - addrs.pml4) / 8 = i := by omega
  rw [word, if_pos hin, hindex]

theorem word_pdpt {i : ℕ} (hi : i < 512) : word addrs s other (addrs.pdpt + 8 * i) = s.pdpt i := by
  have hapart := addrs.pml4_pdpt
  have hout : ¬(addrs.pml4 ≤ addrs.pdpt + 8 * i ∧ addrs.pdpt + 8 * i < addrs.pml4 + 4096) := by
    omega
  have hin : addrs.pdpt ≤ addrs.pdpt + 8 * i ∧ addrs.pdpt + 8 * i < addrs.pdpt + 4096 := by omega
  have hindex : (addrs.pdpt + 8 * i - addrs.pdpt) / 8 = i := by omega
  rw [word, if_neg hout, if_pos hin, hindex]

theorem word_pd {r i : ℕ} (hr : r < 64) (hi : i < 512) :
    word addrs s other (addrs.pd + r * 4096 + 8 * i) = s.pd r i := by
  have hpml4 := addrs.pml4_pd
  have hpdpt := addrs.pdpt_pd
  have hin : addrs.pd ≤ addrs.pd + r * 4096 + 8 * i ∧
      addrs.pd + r * 4096 + 8 * i < addrs.pd + 64 * 4096 := by omega
  have hrow : (addrs.pd + r * 4096 + 8 * i - addrs.pd) / 4096 = r := by omega
  have hindex : (addrs.pd + r * 4096 + 8 * i - addrs.pd) % 4096 / 8 = i := by omega
  rw [word, if_neg (by omega), if_neg (by omega), if_pos hin, hrow, hindex]

theorem pointsTo_tableEntry {addr : ℕ} (halign : 2 ^ 12 ∣ addr) (hlt : addr < 2 ^ 52) :
    PointsTo (tableEntry addr) addr := by
  have hbit : addr.testBit 7 = false := by
    obtain ⟨q, rfl⟩ := halign
    rw [Nat.testBit_two_pow_mul]
    rfl
  refine ⟨?_, ?_, ?_⟩
  · simp [present, tableEntry, pagePresent, pageRw, pageUser]
  · simp only [large, tableEntry, Nat.testBit_or, hbit]
    decide
  · rw [tableEntry, Nat.or_assoc, Nat.or_assoc]
    exact frame_lor halign (by decide) (by norm_num) hlt

theorem mapsLarge_pageEntry {addr : ℕ} (halign : 2 ^ 21 ∣ addr) (hlt : addr < 2 ^ 52) :
    MapsLarge (pageEntry addr) addr := by
  refine ⟨?_, ?_, ?_⟩
  · simp [present, pageEntry, pagePresent, pageRw, pagePs, pageUser]
  · have hps : pagePs.testBit 7 = true := by decide
    simp [large, pageEntry, hps]
  · rw [pageEntry, Nat.or_assoc, Nat.or_assoc, Nat.or_assoc]
    exact frame_lor halign (by decide) (by norm_num) hlt

theorem frame_pml4 (addrs : TableAddrs) : frame addrs.pml4 12 = addrs.pml4 := by
  have hlt := addrs.pml4_lt
  simpa using frame_lor addrs.pml4_aligned (show 0 < 2 ^ 12 by norm_num) (by norm_num)
    (show addrs.pml4 < 2 ^ 52 by omega)

section Walk

variable {va page : ℕ} (hva : va < 64 * gb) (hroot : s.pml4 0 = tableEntry addrs.pdpt)
  (hdir : s.pdpt (va / 2 ^ 30) = tableEntry (addrs.pd + va / 2 ^ 30 * 4096))
  (hpage : s.pd (va / 2 ^ 30) (va / 2 ^ 21 % 512) = pageEntry page)

include hva in
theorem words_of_low (addrs : TableAddrs) (s : PagingState) (other : ℕ → ℕ) :
    word addrs s other (addrs.pml4 + 8 * index va 3) = s.pml4 0 ∧
    word addrs s other (addrs.pdpt + 8 * index va 2) = s.pdpt (va / 2 ^ 30) ∧
    word addrs s other (addrs.pd + va / 2 ^ 30 * 4096 + 8 * index va 1) =
      s.pd (va / 2 ^ 30) (va / 2 ^ 21 % 512) := by
  have hrow : va / 2 ^ 30 < 64 := by
    unfold gb at hva
    omega
  have hindex₃ : index va 3 = 0 := by
    simp only [index, shift]
    omega
  have hindex₂ : index va 2 = va / 2 ^ 30 := by
    simp only [index, shift]
    omega
  have hindex₁ : index va 1 = va / 2 ^ 21 % 512 := rfl
  rw [hindex₃, hindex₂, hindex₁]
  exact ⟨word_pml4 (by norm_num), word_pdpt (by omega), word_pd hrow (Nat.mod_lt _ (by norm_num))⟩

include hva hroot hdir hpage

/-- The walk below 64 GiB meets the entries that the kernel writes. -/
theorem walk_entries (halign : 2 ^ 21 ∣ page) (hlt : page < 2 ^ 52) (other : ℕ → ℕ) :
    PointsTo (word addrs s other (addrs.pml4 + 8 * index va 3)) addrs.pdpt ∧
    PointsTo (word addrs s other (addrs.pdpt + 8 * index va 2))
      (addrs.pd + va / 2 ^ 30 * 4096) ∧
    MapsLarge (word addrs s other (addrs.pd + va / 2 ^ 30 * 4096 + 8 * index va 1)) page := by
  have hrow : va / 2 ^ 30 < 64 := by
    unfold gb at hva
    omega
  have hpd := addrs.pd_lt
  have hpdpt := addrs.pdpt_lt
  obtain ⟨h₃, h₂, h₁⟩ := words_of_low hva addrs s other
  rw [h₃, h₂, h₁, hroot, hdir, hpage]
  refine ⟨pointsTo_tableEntry addrs.pdpt_aligned (by omega), ?_, mapsLarge_pageEntry halign hlt⟩
  exact pointsTo_tableEntry (Nat.dvd_add addrs.pd_aligned (Dvd.intro_left _ rfl)) (by omega)

theorem virtToPhys_of_entries (halign : 2 ^ 21 ∣ page) (hlt : page < 2 ^ 52) :
    virtToPhys addrs s other va = some (page + va % 2 ^ 21) := by
  obtain ⟨h₃, h₂, h₁⟩ := walk_entries hva hroot hdir hpage halign hlt other
  exact translate_large (frame_pml4 addrs) h₃ h₂ h₁

theorem virtPath_of_entries (halign : 2 ^ 21 ∣ page) (hlt : page < 2 ^ 52) :
    virtPath addrs s other va =
      [tableEntry addrs.pdpt, tableEntry (addrs.pd + va / 2 ^ 30 * 4096), pageEntry page] := by
  obtain ⟨h₃, h₂, h₁⟩ := walk_entries hva hroot hdir hpage halign hlt other
  obtain ⟨hw₃, hw₂, hw₁⟩ := words_of_low hva addrs s other
  rw [virtPath, frame_pml4, walkPath_pointsTo h₃, walkPath_pointsTo h₂, walkPath_mapsLarge h₁,
    hw₃, hw₂, hw₁, hroot, hdir, hpage]

end Walk

end ImplusKernel.Paging
