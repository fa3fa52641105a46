import ImplusKernel.Loader.UserlandElf

/-!
# The loader of the kernel

The boot loader asks the firmware for the pages of each segment, copies the
bytes of the file there and fills up with zeros.  The page count comes from the
size in memory, the number of bytes copied from the size in the file, and the
number of bytes filled from their difference modulo `2 ^ 64`.  Firmware is a
parameter: it answers call number `k` of `AllocatePages` with a status.
-/

namespace ImplusKernel.BootLoader

open ByteMemory Loader

/-- `Elf64_Phdr`, with the fields that are read. -/
structure KernelPhdr where
  pType : ℕ
  pOffset : ℕ
  pPaddr : ℕ
  pFilesz : ℕ
  pMemsz : ℕ
deriving DecidableEq, Repr

def parseKernelPhdr (table : Mem) (i : ℕ) : KernelPhdr where
  pType := readLE table (phdrSize * i) 4
  pOffset := readLE table (phdrSize * i + 8) 8
  pPaddr := readLE table (phdrSize * i + 24) 8
  pFilesz := readLE table (phdrSize * i + 32) 8
  pMemsz := readLE table (phdrSize * i + 40) 8

def efiSizeToPages (size : ℕ) : ℕ := (size >>> 12) + if size &&& 0xFFF ≠ 0 then 1 else 0

/-- `EFI_ERROR`: the highest bit is set. -/
def efiError (status : ℕ) : Bool := 2 ^ 63 ≤ status

def efiSuccess : ℕ := 0

def efiLoadError : ℕ := 2 ^ 63 + 1

/-! ## Memory -/

/-- How far `x` lies after `start`, on 64-bit addresses. -/
def offsetFrom (start x : ℕ) : ℕ := (x + (2 ^ 64 - start % 2 ^ 64)) % 2 ^ 64

/-- `CopyMem`, for ranges that may overlap. -/
def copyMem (m : Mem) (dst src n : ℕ) : Mem := fun x ↦
  if x < 2 ^ 64 ∧ offsetFrom dst x < n then m ((src + offsetFrom dst x) % 2 ^ 64) else m x

def setMem (m : Mem) (dst n : ℕ) (value : UInt8) : Mem := fun x ↦
  if x < 2 ^ 64 ∧ offsetFrom dst x < n then value else m x

/-! ## The loop -/

structure Grant where
  start : ℕ
  pages : ℕ
deriving DecidableEq, Repr

/-- Memory, the ranges written and the pages granted, in order, and the status
that is returned. -/
structure KernelLoad where
  mem : Mem
  writes : List Write
  grants : List Grant
  status : ℕ

def KernelLoad.after (rest : KernelLoad) (grant : Grant) (writes : List Write) : KernelLoad :=
  { rest with writes := writes ++ rest.writes, grants := grant :: rest.grants }

/-- The copy and the fill of segment `i`.  The header is read again after the
copy. -/
def loadKernelSegment (image phdrs i : ℕ) (m : Mem) : Mem × List Write :=
  let ph := parseKernelPhdr (view m phdrs) i
  let copied := copyMem m ph.pPaddr (image + ph.pOffset) ph.pFilesz
  let ph' := parseKernelPhdr (view copied phdrs) i
  let start := (ph'.pPaddr + ph'.pFilesz) % 2 ^ 64
  let n := (ph'.pMemsz + 2 ^ 64 - ph'.pFilesz) % 2 ^ 64
  (setMem copied start n 0, [⟨ph.pPaddr, ph.pFilesz⟩, ⟨start, n⟩])

/-- The loop over the program headers; their number, of 16 bits, is read again
in each round. -/
def kernelLoop (firmware : ℕ → ℕ → ℕ → ℕ) (image phdrs : ℕ) : ℕ → ℕ → ℕ → Mem → KernelLoad
  | 0, _, _, m => ⟨m, [], [], efiSuccess⟩
  | fuel + 1, i, calls, m =>
      if i < ePhnum (view m image) then
        let ph := parseKernelPhdr (view m phdrs) i
        if ph.pType ≠ ptLoad then kernelLoop firmware image phdrs fuel (i + 1) calls m
        else
          let pages := efiSizeToPages ph.pMemsz
          let status := firmware calls ph.pPaddr pages
          if efiError status then ⟨m, [], [], status⟩
          else
            let segment := loadKernelSegment image phdrs i m
            (kernelLoop firmware image phdrs fuel (i + 1) (calls + 1) segment.1).after
              ⟨ph.pPaddr, pages⟩ segment.2
      else ⟨m, [], [], efiSuccess⟩

/-- The run, and `*EntryPoint` when it is set. -/
def loadKernelElf (firmware : ℕ → ℕ → ℕ → ℕ) (m : Mem) (image : ℕ) : KernelLoad × Option ℕ :=
  let ehdr := view m image
  if validMagic ehdr = false then (⟨m, [], [], efiLoadError⟩, none)
  else
    let run := kernelLoop firmware image ((image + ePhoff ehdr) % 2 ^ 64) (2 ^ 16) 0 0 m
    (run, if run.status = efiSuccess then some (eEntry (view run.mem image)) else none)

/-! ## Ownership -/

/-- The bytes of the pages that a call with this address and page count asks
for. -/
def Grant.Covers (g : Grant) (x : ℕ) : Prop := g.start ≤ x ∧ x < g.start + 4096 * g.pages

/-- Every byte of the range is in one of the granted pages. -/
def InGrants (grants : List Grant) (w : Write) : Prop :=
  ∀ j < w.length, ∃ g ∈ grants, g.Covers ((w.start + j) % 2 ^ 64)

def kernelTable (m : Mem) (image : ℕ) : ℕ := (image + ePhoff (view m image)) % 2 ^ 64

def kernelHeader (m : Mem) (image i : ℕ) : KernelPhdr :=
  parseKernelPhdr (view m (kernelTable m image)) i

/-- The bytes of the image: its header, its table of program headers and what
the segments take from the file.  A segment that is longer in the file than in
memory is left out, since nothing keeps its source inside the image. -/
def ImageByte (m : Mem) (image x : ℕ) : Prop :=
  (∃ j < 64, x = (image + j) % 2 ^ 64) ∨
    (∃ j < phdrSize * ePhnum (view m image),
      x = (kernelTable m image + j) % 2 ^ 64) ∨
    ∃ i < ePhnum (view m image), (kernelHeader m image i).pType = ptLoad ∧
      (kernelHeader m image i).pFilesz ≤ (kernelHeader m image i).pMemsz ∧
      ∃ j < (kernelHeader m image i).pFilesz,
        x = (image + (kernelHeader m image i).pOffset + j) % 2 ^ 64

def OffImage (m : Mem) (image : ℕ) (grants : List Grant) : Prop :=
  ∀ g ∈ grants, ∀ x, g.Covers x → ¬ImageByte m image x

/-- The pages exist, nobody else has them, and none is granted twice. -/
structure Exclusive (m : Mem) (image : ℕ) (grants : List Grant) : Prop where
  fits : ∀ g ∈ grants, g.start + 4096 * g.pages ≤ 2 ^ 64
  apart : grants.Pairwise fun g g' ↦ ∀ x, g.Covers x → ¬g'.Covers x
  image : OffImage m image grants

/-- A segment with its bytes of the file, and zeros after them. -/
structure Loaded (m₀ : Mem) (image : ℕ) (ph : KernelPhdr) (m : Mem) : Prop where
  bytes : ∀ j < ph.pFilesz, m ((ph.pPaddr + j) % 2 ^ 64) = m₀ ((image + ph.pOffset + j) % 2 ^ 64)
  zeros : ∀ j, ph.pFilesz ≤ j → j < ph.pMemsz → m ((ph.pPaddr + j) % 2 ^ 64) = 0

variable {m m' m₀ : Mem} {image i fuel calls dst src n x : ℕ} {G : List Grant} {w : Write}
  {firmware : ℕ → ℕ → ℕ → ℕ}

/-! ## Copy and fill -/

theorem add_offsetFrom (start : ℕ) (hx : x < 2 ^ 64) : (start + offsetFrom start x) % 2 ^ 64 = x := by
  rw [offsetFrom]
  omega

theorem offsetFrom_add (start : ℕ) {j : ℕ} (hj : j < 2 ^ 64) :
    offsetFrom start ((start + j) % 2 ^ 64) = j := by
  rw [offsetFrom]
  omega

def Misses (w : Write) (x : ℕ) : Prop := ∀ j < w.length, x ≠ (w.start + j) % 2 ^ 64

theorem Misses.not_inside (h : Misses ⟨dst, n⟩ x) :
    ¬(x < 2 ^ 64 ∧ offsetFrom dst x < n) :=
  fun hin ↦ h _ hin.2 (add_offsetFrom dst hin.1).symm

theorem copyMem_outside (m : Mem) (src : ℕ) (h : Misses ⟨dst, n⟩ x) :
    copyMem m dst src n x = m x :=
  if_neg h.not_inside

theorem setMem_outside (m : Mem) (v : UInt8) (h : Misses ⟨dst, n⟩ x) :
    setMem m dst n v x = m x :=
  if_neg h.not_inside

theorem copyMem_inside (m : Mem) {j : ℕ} (hj : j < n) (hn : n ≤ 2 ^ 64) :
    copyMem m dst src n ((dst + j) % 2 ^ 64) = m ((src + j) % 2 ^ 64) := by
  have hd := offsetFrom_add dst (hj.trans_le hn)
  rw [copyMem, if_pos ⟨Nat.mod_lt _ (by decide), by rwa [hd]⟩, hd]

theorem setMem_inside (m : Mem) (v : UInt8) {j : ℕ} (hj : j < n) (hn : n ≤ 2 ^ 64) :
    setMem m dst n v ((dst + j) % 2 ^ 64) = v := by
  have hd := offsetFrom_add dst (hj.trans_le hn)
  rw [setMem, if_pos ⟨Nat.mod_lt _ (by decide), by rwa [hd]⟩]

theorem le_efiSizeToPages (size : ℕ) : size ≤ 4096 * efiSizeToPages size := by
  rw [efiSizeToPages, Nat.shiftRight_eq_div_pow, show 0xFFF = 2 ^ 12 - 1 from rfl,
    Nat.and_two_pow_sub_one_eq_mod]
  split <;> omega

/-! ## The image stays as it is -/

/-- The bytes of the image are those of the memory `m₀` before the call. -/
def Kept (m₀ : Mem) (image : ℕ) (m : Mem) : Prop := ∀ x, ImageByte m₀ image x → m x = m₀ x

theorem Kept.ePhnum_eq (h : Kept m₀ image m) :
    ePhnum (view m image) = ePhnum (view m₀ image) :=
  readLE_congr fun j _ hhigh ↦ h _ (Or.inl ⟨j, by omega, rfl⟩)

theorem parseKernelPhdr_congr {table table' : Mem}
    (h : ∀ j, phdrSize * i ≤ j → j < phdrSize * (i + 1) → table j = table' j) :
    parseKernelPhdr table i = parseKernelPhdr table' i := by
  have hfield : ∀ a n, a + n ≤ phdrSize →
      readLE table (phdrSize * i + a) n = readLE table' (phdrSize * i + a) n := by
    intro a n hn
    refine readLE_congr fun j hlow hhigh ↦ h j (by omega) ?_
    rw [Nat.mul_add, Nat.mul_one]
    omega
  have htype := hfield 0 4 (by decide)
  rw [Nat.add_zero] at htype
  simp only [parseKernelPhdr, htype, hfield 8 8 (by decide), hfield 24 8 (by decide),
    hfield 32 8 (by decide), hfield 40 8 (by decide)]

theorem Kept.header_eq (h : Kept m₀ image m) (hi : i < ePhnum (view m₀ image)) :
    parseKernelPhdr (view m (kernelTable m₀ image)) i =
      kernelHeader m₀ image i :=
  parseKernelPhdr_congr fun j _ hj ↦
    h _ (Or.inr (Or.inl ⟨j, hj.trans_le (Nat.mul_le_mul_left phdrSize hi), rfl⟩))

theorem kernelHeader_pFilesz_lt (m : Mem) (image i : ℕ) :
    (kernelHeader m image i).pFilesz < 2 ^ 64 :=
  readLE_lt _ _ 8

theorem kernelHeader_pMemsz_lt (m : Mem) (image i : ℕ) :
    (kernelHeader m image i).pMemsz < 2 ^ 64 :=
  readLE_lt _ _ 8

/-- A range in pages that are not the image's misses the image. -/
theorem InGrants.misses (hw : InGrants G w) (hG : OffImage m₀ image G)
    (hx : ImageByte m₀ image x) : Misses w x := by
  rintro j hj rfl
  obtain ⟨g, hg, hcovers⟩ := hw j hj
  exact hG g hg _ hcovers hx

theorem Kept.copyMem (h : Kept m₀ image m) (hG : OffImage m₀ image G)
    (hw : InGrants G ⟨dst, n⟩) (src : ℕ) : Kept m₀ image (copyMem m dst src n) :=
  fun x hx ↦ (copyMem_outside m src (hw.misses hG hx)).trans (h x hx)

theorem Kept.setMem (h : Kept m₀ image m) (hG : OffImage m₀ image G)
    (hw : InGrants G ⟨dst, n⟩) (v : UInt8) : Kept m₀ image (setMem m dst n v) :=
  fun x hx ↦ (setMem_outside m v (hw.misses hG hx)).trans (h x hx)

/-! ## One segment -/

def copyRange (ph : KernelPhdr) : Write := ⟨ph.pPaddr, ph.pFilesz⟩

/-- The zero fill of a segment, whatever the order of its sizes. -/
def fillRange (ph : KernelPhdr) : Write :=
  ⟨(ph.pPaddr + ph.pFilesz) % 2 ^ 64, (ph.pMemsz + 2 ^ 64 - ph.pFilesz) % 2 ^ 64⟩

def segmentMem (image : ℕ) (ph : KernelPhdr) (m : Mem) : Mem :=
  setMem (copyMem m ph.pPaddr (image + ph.pOffset) ph.pFilesz) (fillRange ph).start
    (fillRange ph).length 0

/-- A copy into pages that are not the image's leaves the header for the fill. -/
theorem loadKernelSegment_eq (hkept : Kept m₀ image m) (hG : OffImage m₀ image G)
    (hi : i < ePhnum (view m₀ image)) (hcopy : InGrants G (copyRange (kernelHeader m₀ image i))) :
    loadKernelSegment image (kernelTable m₀ image) i m =
      (segmentMem image (kernelHeader m₀ image i) m,
        [copyRange (kernelHeader m₀ image i), fillRange (kernelHeader m₀ image i)]) := by
  have hcopied := hkept.copyMem hG hcopy (image + (kernelHeader m₀ image i).pOffset)
  simp only [loadKernelSegment, hkept.header_eq hi]
  rw [show parseKernelPhdr (view (copyMem m (kernelHeader m₀ image i).pPaddr _ _) _) i = _ from
    hcopied.header_eq hi]
  rfl

/-- With the larger size in the file, copy and fill go once around memory. -/
theorem range_of_memsz_lt {ph : KernelPhdr} (hlt : ph.pMemsz < ph.pFilesz)
    (hfile : ph.pFilesz < 2 ^ 64) (hx : x < 2 ^ 64) :
    (∃ j < (copyRange ph).length, x = ((copyRange ph).start + j) % 2 ^ 64) ∨
      ∃ j < (fillRange ph).length, x = ((fillRange ph).start + j) % 2 ^ 64 := by
  have hd := add_offsetFrom ph.pPaddr hx
  have hlt64 : offsetFrom ph.pPaddr x < 2 ^ 64 := Nat.mod_lt _ (by decide)
  have hlen : (fillRange ph).length = ph.pMemsz + 2 ^ 64 - ph.pFilesz :=
    Nat.mod_eq_of_lt (by omega)
  by_cases hcopy : offsetFrom ph.pPaddr x < ph.pFilesz
  · exact Or.inl ⟨_, hcopy, hd.symm⟩
  · refine Or.inr ⟨offsetFrom ph.pPaddr x - ph.pFilesz, by omega, ?_⟩
    rw [fillRange, Nat.mod_add_mod, Nat.add_assoc, Nat.add_sub_cancel' (by omega), hd]

theorem fillRange_length {ph : KernelPhdr} (hle : ph.pFilesz ≤ ph.pMemsz)
    (hmem : ph.pMemsz < 2 ^ 64) : (fillRange ph).length = ph.pMemsz - ph.pFilesz := by
  show (ph.pMemsz + 2 ^ 64 - ph.pFilesz) % 2 ^ 64 = _
  omega

theorem fillRange_add (ph : KernelPhdr) {j : ℕ} (hj : ph.pFilesz ≤ j) :
    ((fillRange ph).start + (j - ph.pFilesz)) % 2 ^ 64 = (ph.pPaddr + j) % 2 ^ 64 := by
  rw [fillRange, Nat.mod_add_mod, Nat.add_assoc, Nat.add_sub_cancel' hj]

def segmentGrant (ph : KernelPhdr) : Grant := ⟨ph.pPaddr, efiSizeToPages ph.pMemsz⟩

theorem segmentGrant_covers {ph : KernelPhdr}
    (hfits : (segmentGrant ph).start + 4096 * (segmentGrant ph).pages ≤ 2 ^ 64) {j : ℕ}
    (hj : j < ph.pMemsz) : (segmentGrant ph).Covers ((ph.pPaddr + j) % 2 ^ 64) := by
  have hpages := le_efiSizeToPages ph.pMemsz
  simp only [segmentGrant, Grant.Covers] at hfits ⊢
  rw [Nat.mod_eq_of_lt (by omega)]
  omega

theorem copyRange_inGrants {ph : KernelPhdr} (hg : segmentGrant ph ∈ G)
    (hfits : (segmentGrant ph).start + 4096 * (segmentGrant ph).pages ≤ 2 ^ 64)
    (hle : ph.pFilesz ≤ ph.pMemsz) : InGrants G (copyRange ph) :=
  fun _ hj ↦ ⟨_, hg, segmentGrant_covers hfits (lt_of_lt_of_le hj hle)⟩

theorem fillRange_inGrants {ph : KernelPhdr} (hg : segmentGrant ph ∈ G)
    (hfits : (segmentGrant ph).start + 4096 * (segmentGrant ph).pages ≤ 2 ^ 64)
    (hle : ph.pFilesz ≤ ph.pMemsz) (hmem : ph.pMemsz < 2 ^ 64) : InGrants G (fillRange ph) := by
  intro j hj
  rw [fillRange_length hle hmem] at hj
  have haddr := fillRange_add ph (Nat.le_add_left ph.pFilesz j)
  rw [Nat.add_sub_cancel] at haddr
  rw [haddr]
  exact ⟨_, hg, segmentGrant_covers hfits (by omega)⟩

theorem segmentMem_outside (image : ℕ) {ph : KernelPhdr} (m : Mem)
    (hcopy : Misses (copyRange ph) x) (hfill : Misses (fillRange ph) x) :
    segmentMem image ph m x = m x :=
  (setMem_outside _ 0 hfill).trans (copyMem_outside m _ hcopy)

theorem InGrants.misses_of_not_covers (hw : InGrants G w) (hx : ∀ g ∈ G, ¬g.Covers x) :
    Misses w x := by
  rintro j hj rfl
  obtain ⟨g, hg, hcovers⟩ := hw j hj
  exact hx g hg hcovers

theorem segmentMem_loaded (hkept : Kept m₀ image m) (hi : i < ePhnum (view m₀ image))
    (hload : (kernelHeader m₀ image i).pType = ptLoad)
    (hle : (kernelHeader m₀ image i).pFilesz ≤ (kernelHeader m₀ image i).pMemsz) :
    Loaded m₀ image (kernelHeader m₀ image i)
      (segmentMem image (kernelHeader m₀ image i) m) := by
  have hfile := kernelHeader_pFilesz_lt m₀ image i
  have hmem := kernelHeader_pMemsz_lt m₀ image i
  have hlen := fillRange_length hle hmem
  constructor
  · intro j hj
    have hmiss : Misses (fillRange (kernelHeader m₀ image i))
        (((kernelHeader m₀ image i).pPaddr + j) % 2 ^ 64) := by
      intro k hk heq
      have hadd := fillRange_add (kernelHeader m₀ image i)
        (Nat.le_add_left (kernelHeader m₀ image i).pFilesz k)
      rw [Nat.add_sub_cancel] at hadd
      rw [hadd] at heq
      omega
    have hsource := hkept ((image + (kernelHeader m₀ image i).pOffset + j) % 2 ^ 64)
      (Or.inr (Or.inr ⟨i, hi, hload, hle, j, hj, rfl⟩))
    exact (setMem_outside _ 0 hmiss).trans ((copyMem_inside m hj hfile.le).trans hsource)
  · intro j hlow hhigh
    rw [segmentMem, ← fillRange_add _ hlow]
    exact setMem_inside _ 0 (by omega) (by omega)

/-! ## All segments -/

/-- A round of a run that succeeds: the end of the table, a header of another
type, or a segment in pages that were granted. -/
theorem kernelLoop_succ_cases (hkept : Kept m₀ image m)
    (hok : (kernelLoop firmware image (kernelTable m₀ image) (fuel + 1) i
      calls m).status = efiSuccess) :
    (ePhnum (view m₀ image) ≤ i ∧
      kernelLoop firmware image (kernelTable m₀ image) (fuel + 1) i calls m =
        ⟨m, [], [], efiSuccess⟩) ∨
    (i < ePhnum (view m₀ image) ∧ (kernelHeader m₀ image i).pType ≠ ptLoad ∧
      kernelLoop firmware image (kernelTable m₀ image) (fuel + 1) i calls m =
        kernelLoop firmware image (kernelTable m₀ image) fuel (i + 1)
          calls m) ∨
    (i < ePhnum (view m₀ image) ∧ (kernelHeader m₀ image i).pType = ptLoad ∧
      kernelLoop firmware image (kernelTable m₀ image) (fuel + 1) i calls m =
        (kernelLoop firmware image (kernelTable m₀ image) fuel (i + 1)
          (calls + 1)
          (loadKernelSegment image (kernelTable m₀ image) i m).1).after
          (segmentGrant (kernelHeader m₀ image i))
          (loadKernelSegment image (kernelTable m₀ image) i m).2) := by
  by_cases hi : i < ePhnum (view m₀ image)
  · refine Or.inr ?_
    by_cases htype : (kernelHeader m₀ image i).pType = ptLoad
    · refine Or.inr ⟨hi, htype, ?_⟩
      simp only [kernelLoop, hkept.ePhnum_eq, hkept.header_eq hi, if_pos hi, htype, ne_eq,
        not_true_eq_false, if_false] at hok ⊢
      split at hok
      -- A status that is an error is not the one of success.
      next herror =>
        have hbad : efiError efiSuccess = true := hok ▸ herror
        exact absurd hbad (by decide)
      next hgranted => rw [if_neg hgranted, segmentGrant]
    · refine Or.inl ⟨hi, htype, ?_⟩
      simp only [kernelLoop, hkept.ePhnum_eq, hkept.header_eq hi, if_pos hi, ne_eq, htype,
        not_false_eq_true, if_true]
  · refine Or.inl ⟨not_lt.mp hi, ?_⟩
    simp only [kernelLoop, hkept.ePhnum_eq, if_neg hi]

/-- When all writes are in pages that are not the image's, no segment is longer
in the file than in memory. -/
theorem kernelLoop_sizes (hG : OffImage m₀ image G) (hkept : Kept m₀ image m)
    (hfuel : ePhnum (view m₀ image) ≤ i + fuel)
    (hok : (kernelLoop firmware image (kernelTable m₀ image) fuel i
      calls m).status = efiSuccess)
    (hwrites : ∀ w ∈ (kernelLoop firmware image (kernelTable m₀ image) fuel i
      calls m).writes, InGrants G w) :
    ∀ k, i ≤ k → k < ePhnum (view m₀ image) → (kernelHeader m₀ image k).pType = ptLoad →
      (kernelHeader m₀ image k).pFilesz ≤ (kernelHeader m₀ image k).pMemsz := by
  induction fuel generalizing i calls m with
  | zero =>
      intro k hik hk
      omega
  | succ fuel ih =>
      intro k hik hk htype
      rcases kernelLoop_succ_cases hkept hok with
        ⟨hend, -⟩ | ⟨hi, hskip, heq⟩ | ⟨hi, hload, heq⟩
      · omega
      · rw [heq] at hok hwrites
        rcases hik.eq_or_lt with rfl | hlt
        · exact absurd htype hskip
        · exact ih hkept (by omega) hok hwrites k hlt hk htype
      · have hcopy : InGrants G (copyRange (kernelHeader m₀ image i)) := by
          refine hwrites _ ?_
          rw [heq, KernelLoad.after, loadKernelSegment, hkept.header_eq hi]
          exact List.mem_cons_self
        rw [heq, loadKernelSegment_eq hkept hG hi hcopy] at hok hwrites
        have hfill : InGrants G (fillRange (kernelHeader m₀ image i)) :=
          hwrites _ (List.mem_cons_of_mem _ List.mem_cons_self)
        rcases hik.eq_or_lt with rfl | hlt
        · by_contra hlong
          -- The first byte of the image would be in granted pages.
          have hfirst : ImageByte m₀ image (image % 2 ^ 64) := Or.inl ⟨0, by decide, rfl⟩
          rcases range_of_memsz_lt (not_le.mp hlong) (kernelHeader_pFilesz_lt m₀ image i)
            (Nat.mod_lt image (by decide)) with ⟨j, hj, hx⟩ | ⟨j, hj, hx⟩
          · exact hcopy.misses hG hfirst j hj hx
          · exact hfill.misses hG hfirst j hj hx
        · refine ih ((hkept.copyMem hG hcopy _).setMem hG hfill 0) (by omega) hok ?_ k hlt hk htype
          intro w hw
          exact hwrites w (List.mem_append_right _ hw)

/-- What a run has done from round `i` on. -/
structure LoadedFrom (m₀ : Mem) (image i : ℕ) (m : Mem) (run : KernelLoad) : Prop where
  inGrants : ∀ w ∈ run.writes, InGrants run.grants w
  frame : ∀ x, (∀ g ∈ run.grants, ¬g.Covers x) → run.mem x = m x
  loaded : ∀ k, i ≤ k → k < ePhnum (view m₀ image) → (kernelHeader m₀ image k).pType = ptLoad →
    Loaded m₀ image (kernelHeader m₀ image k) run.mem

theorem Loaded.congr {ph : KernelPhdr} (h : Loaded m₀ image ph m) (hle : ph.pFilesz ≤ ph.pMemsz)
    (heq : ∀ j < ph.pMemsz, m' ((ph.pPaddr + j) % 2 ^ 64) = m ((ph.pPaddr + j) % 2 ^ 64)) :
    Loaded m₀ image ph m' where
  bytes j hj := (heq j (hj.trans_le hle)).trans (h.bytes j hj)
  zeros j hlow hhigh := (heq j hhigh).trans (h.zeros j hlow hhigh)

theorem InGrants.mono {G' : List Grant} (h : InGrants G w) (hsub : ∀ g ∈ G, g ∈ G') :
    InGrants G' w := by
  intro j hj
  obtain ⟨g, hg, hcovers⟩ := h j hj
  exact ⟨g, hsub g hg, hcovers⟩

theorem kernelLoop_loadedFrom (hkept : Kept m₀ image m)
    (hfuel : ePhnum (view m₀ image) ≤ i + fuel)
    (hsizes : ∀ k, i ≤ k → k < ePhnum (view m₀ image) → (kernelHeader m₀ image k).pType = ptLoad →
      (kernelHeader m₀ image k).pFilesz ≤ (kernelHeader m₀ image k).pMemsz)
    (hok : (kernelLoop firmware image (kernelTable m₀ image) fuel i
      calls m).status = efiSuccess)
    (hex : Exclusive m₀ image (kernelLoop firmware image
      (kernelTable m₀ image) fuel i calls m).grants) :
    LoadedFrom m₀ image i m
      (kernelLoop firmware image (kernelTable m₀ image) fuel i calls m) := by
  induction fuel generalizing i calls m with
  | zero =>
      exact ⟨fun w hw ↦ absurd hw List.not_mem_nil, fun x _ ↦ rfl, fun k hik hk ↦ by omega⟩
  | succ fuel ih =>
      rcases kernelLoop_succ_cases hkept hok with
        ⟨hend, heq⟩ | ⟨hi, hskip, heq⟩ | ⟨hi, hload, heq⟩
      · rw [heq]
        exact ⟨fun w hw ↦ absurd hw List.not_mem_nil, fun x _ ↦ rfl, fun k hik hk ↦ by omega⟩
      · rw [heq] at hok hex ⊢
        have hrest := ih hkept (by omega) (fun k hik ↦ hsizes k (by omega)) hok hex
        refine ⟨hrest.inGrants, hrest.frame, fun k hik hk htype ↦ ?_⟩
        rcases hik.eq_or_lt with rfl | hlt
        · exact absurd htype hskip
        · exact hrest.loaded k hlt hk htype
      · have hle := hsizes i le_rfl hi hload
        have hmem := kernelHeader_pMemsz_lt m₀ image i
        have hfits : (segmentGrant (kernelHeader m₀ image i)).start +
            4096 * (segmentGrant (kernelHeader m₀ image i)).pages ≤ 2 ^ 64 := by
          rw [heq] at hex
          exact hex.fits _ List.mem_cons_self
        have hoff : OffImage m₀ image [segmentGrant (kernelHeader m₀ image i)] := by
          rw [heq] at hex
          rintro g hg
          rw [List.mem_singleton.mp hg]
          exact hex.image _ List.mem_cons_self
        have hcopy := copyRange_inGrants (List.mem_singleton_self _) hfits hle
        have hfill := fillRange_inGrants (List.mem_singleton_self _) hfits hle hmem
        rw [heq, loadKernelSegment_eq hkept hoff hi hcopy] at hok hex ⊢
        obtain ⟨hhead, htail⟩ := List.pairwise_cons.mp hex.apart
        have hrest := ih ((hkept.copyMem hoff hcopy _).setMem hoff hfill 0) (by omega)
          (fun k hik ↦ hsizes k (by omega)) hok
          ⟨fun g hg ↦ hex.fits g (List.mem_cons_of_mem _ hg), htail,
            fun g hg ↦ hex.image g (List.mem_cons_of_mem _ hg)⟩
        refine ⟨?_, ?_, ?_⟩
        · intro w hw
          rcases List.mem_append.mp hw with hw | hw
          · have hown : InGrants [segmentGrant (kernelHeader m₀ image i)] w := by
              rcases List.mem_cons.mp hw with rfl | hw
              · exact hcopy
              · exact List.mem_singleton.mp hw ▸ hfill
            exact hown.mono fun g hg ↦ List.mem_singleton.mp hg ▸ List.mem_cons_self
          · exact (hrest.inGrants w hw).mono fun g ↦ List.mem_cons_of_mem _
        · intro x hx
          have hown : ∀ g ∈ [segmentGrant (kernelHeader m₀ image i)], ¬g.Covers x :=
            fun g hg ↦ List.mem_singleton.mp hg ▸ hx _ List.mem_cons_self
          exact (hrest.frame x fun g hg ↦ hx g (List.mem_cons_of_mem _ hg)).trans
            (segmentMem_outside image m (hcopy.misses_of_not_covers hown)
              (hfill.misses_of_not_covers hown))
        · intro k hik hk htype
          rcases hik.eq_or_lt with rfl | hlt
          · -- Later grants do not meet this one, so the segment stays.
            refine (segmentMem_loaded hkept hi hload hle).congr hle fun j hj ↦ hrest.frame _ ?_
            exact fun g hg ↦ hhead g hg _ (segmentGrant_covers hfits hj)
          · exact hrest.loaded k hlt hk htype

/-- A successful call keeps to its pages and loads every segment exactly when no
segment is longer in the file than in memory. -/
theorem loadKernelElf_safe_iff (firmware : ℕ → ℕ → ℕ → ℕ) (m : Mem) (image : ℕ)
    (hok : (loadKernelElf firmware m image).1.status = efiSuccess)
    (hex : Exclusive m image (loadKernelElf firmware m image).1.grants) :
    ((∀ w ∈ (loadKernelElf firmware m image).1.writes,
        InGrants (loadKernelElf firmware m image).1.grants w) ∧
      ∀ i < ePhnum (view m image), (kernelHeader m image i).pType = ptLoad →
        Loaded m image (kernelHeader m image i) (loadKernelElf firmware m image).1.mem) ↔
    ∀ i < ePhnum (view m image), (kernelHeader m image i).pType = ptLoad →
      (kernelHeader m image i).pFilesz ≤ (kernelHeader m image i).pMemsz := by
  have hmagic : validMagic (view m image) ≠ false := by
    intro hbad
    rw [loadKernelElf, if_pos hbad] at hok
    exact absurd (show efiLoadError = efiSuccess from hok) (by decide)
  have hrun : (loadKernelElf firmware m image).1 =
      kernelLoop firmware image (kernelTable m image) (2 ^ 16) 0 0 m := by
    rw [loadKernelElf, if_neg hmagic, kernelTable]
  have hkept : Kept m image m := fun _ _ ↦ rfl
  have hfuel : ePhnum (view m image) ≤ 0 + 2 ^ 16 := by
    have hnum : ePhnum (view m image) < 256 ^ 2 := readLE_lt _ _ 2
    omega
  rw [hrun] at hok hex ⊢
  constructor
  · rintro ⟨hwrites, -⟩ i
    exact kernelLoop_sizes hex.image hkept hfuel hok hwrites i (Nat.zero_le i)
  · intro hsizes
    have hall := kernelLoop_loadedFrom hkept hfuel (fun k _ ↦ hsizes k) hok hex
    exact ⟨hall.inGrants, fun i ↦ hall.loaded i (Nat.zero_le i)⟩

/-- An image at `0x1000` with one segment for `0x100000`. -/
def sampleKernel (filesz memsz : UInt8) : Mem := fun x ↦
  ([0x7F, 69, 76, 70] ++ List.replicate 28 0 ++ [64] ++ List.replicate 23 0 ++ [1] ++
    List.replicate 7 0 ++ [1] ++ List.replicate 7 0 ++ [120] ++ List.replicate 17 0 ++ [0x10] ++
    List.replicate 5 0 ++ [filesz] ++ List.replicate 7 0 ++ [memsz] ++ List.replicate 15 0 ++
    [10, 20, 30, 40]).getD (x - 0x1000) 0

def grantingPages : ℕ → ℕ → ℕ → ℕ := fun _ _ _ ↦ efiSuccess

/-- Pages from `0x100000` on are not those of an image at `0x1000` with one
small segment. -/
theorem exclusive_of_small_image (hnum : ePhnum (view m 0x1000) = 1)
    (htable : kernelTable m 0x1000 = 0x1040) (hoffset : (kernelHeader m 0x1000 0).pOffset = 120)
    (hfile : (kernelHeader m 0x1000 0).pFilesz < 256) :
    Exclusive m 0x1000 [⟨0x100000, 1⟩] where
  fits g hg := by
    rw [List.mem_singleton.mp hg]
    decide
  apart := List.pairwise_singleton _ _
  image g hg x hcovers hx := by
    rw [List.mem_singleton.mp hg] at hcovers
    have hlow : 0x100000 ≤ x := hcovers.1
    rcases hx with ⟨j, hj, rfl⟩ | ⟨j, hj, rfl⟩ | ⟨i, hi, -, -, j, hj, rfl⟩
    · omega
    · rw [hnum, phdrSize] at hj
      rw [htable] at hlow
      omega
    · obtain rfl : i = 0 := by omega
      rw [hoffset] at hlow
      omega

theorem loadKernelElf_safe_iff_sampleKernel :
    (loadKernelElf grantingPages (sampleKernel 2 4) 0x1000).1.status = efiSuccess ∧
      (∀ w ∈ (loadKernelElf grantingPages (sampleKernel 2 4) 0x1000).1.writes,
        InGrants (loadKernelElf grantingPages (sampleKernel 2 4) 0x1000).1.grants w) ∧
      Loaded (sampleKernel 2 4) 0x1000 ⟨1, 120, 0x100000, 2, 4⟩
        (loadKernelElf grantingPages (sampleKernel 2 4) 0x1000).1.mem := by
  -- One evaluation for all facts about the sample.
  obtain ⟨hnum, htable, hheader, hgrants, hok⟩ :
      ePhnum (view (sampleKernel 2 4) 0x1000) = 1 ∧
        kernelTable (sampleKernel 2 4) 0x1000 = 0x1040 ∧
        kernelHeader (sampleKernel 2 4) 0x1000 0 = ⟨1, 120, 0x100000, 2, 4⟩ ∧
        (loadKernelElf grantingPages (sampleKernel 2 4) 0x1000).1.grants = [⟨0x100000, 1⟩] ∧
        (loadKernelElf grantingPages (sampleKernel 2 4) 0x1000).1.status = efiSuccess := by
    decide +kernel
  have hex : Exclusive (sampleKernel 2 4) 0x1000 [⟨0x100000, 1⟩] :=
    exclusive_of_small_image hnum htable (by rw [hheader]) (by rw [hheader]; decide)
  have hsafe := (loadKernelElf_safe_iff grantingPages (sampleKernel 2 4) 0x1000 hok
    (hgrants ▸ hex)).mpr fun i hi _ ↦ by
      obtain rfl : i = 0 := by omega
      rw [hheader]
      decide
  refine ⟨hok, hsafe.1, ?_⟩
  rw [← hheader]
  exact hsafe.2 0 (by rw [hnum]; decide) (by rw [hheader]; rfl)

/-- With four bytes in the file and two in memory the call succeeds, and the fill
goes on from the segment over the rest of memory. -/
theorem fill_leaves_granted_pages :
    (loadKernelElf grantingPages (sampleKernel 4 2) 0x1000).1.status = efiSuccess ∧
      Exclusive (sampleKernel 4 2) 0x1000
        (loadKernelElf grantingPages (sampleKernel 4 2) 0x1000).1.grants ∧
      (⟨0x100004, 2 ^ 64 - 2⟩ : Write) ∈
        (loadKernelElf grantingPages (sampleKernel 4 2) 0x1000).1.writes ∧
      ¬InGrants (loadKernelElf grantingPages (sampleKernel 4 2) 0x1000).1.grants
        ⟨0x100004, 2 ^ 64 - 2⟩ := by
  obtain ⟨hnum, htable, hheader, hgrants, hok, hfill⟩ :
      ePhnum (view (sampleKernel 4 2) 0x1000) = 1 ∧
        kernelTable (sampleKernel 4 2) 0x1000 = 0x1040 ∧
        kernelHeader (sampleKernel 4 2) 0x1000 0 = ⟨1, 120, 0x100000, 4, 2⟩ ∧
        (loadKernelElf grantingPages (sampleKernel 4 2) 0x1000).1.grants = [⟨0x100000, 1⟩] ∧
        (loadKernelElf grantingPages (sampleKernel 4 2) 0x1000).1.status = efiSuccess ∧
        (⟨0x100004, 2 ^ 64 - 2⟩ : Write) ∈
          (loadKernelElf grantingPages (sampleKernel 4 2) 0x1000).1.writes := by
    decide +kernel
  have hex : Exclusive (sampleKernel 4 2) 0x1000 [⟨0x100000, 1⟩] :=
    exclusive_of_small_image hnum htable (by rw [hheader]) (by rw [hheader]; decide)
  rw [hgrants]
  refine ⟨hok, hex, hfill, fun h ↦ ?_⟩
  obtain ⟨g, hg, hcovers⟩ := h 0x1000 (by decide)
  rw [List.mem_singleton.mp hg] at hcovers
  exact absurd hcovers.2 (by decide)

end ImplusKernel.BootLoader
