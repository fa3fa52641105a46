import ImplusKernel.Lib.WordArray
import ImplusKernel.Syscall.Entry

/-!
# Rectangles

A user program fills a rectangle with one system call, whose third argument
holds width and height.  The driver cuts the rectangle to the display and
stores row by row.  The result is that of drawing all its pixels one by one.
-/

namespace ImplusKernel.Userland

open ByteMemory Syscall VirtIO

/-- The registers at the `syscall` instruction. -/
def syscall4 (regs : Registers) (num arg1 arg2 arg3 arg4 : UInt64) : Registers
  | .rax => num
  | .rdi => arg1
  | .rsi => arg2
  | .rdx => arg3
  | .r10 => arg4
  | r => regs r

def drawFillRect (regs : Registers) (x y w h color : UInt32) : Registers :=
  let packedWh := w.toUInt64 <<< 32 ||| h.toUInt64
  syscall4 regs 11 x.toUInt64 y.toUInt64 packedWh color.toUInt64

/-- A display that is ready, with its frame buffer in memory. -/
structure ReadyDisplay (gpu : Gpu) : Prop where
  ready : gpu.ready = true
  fb_ne : gpu.fb ≠ 0
  width_lt : gpu.width < 2 ^ 32
  height_lt : gpu.height < 2 ^ 32
  fb_fit : gpu.fb + 4 * (gpu.width * gpu.height) ≤ 2 ^ 64

def InRect (x y w h px py : ℕ) : Prop := x ≤ px ∧ px < x + w ∧ y ≤ py ∧ py < y + h

instance (x y w h px py : ℕ) : Decidable (InRect x y w h px py) :=
  inferInstanceAs (Decidable (_ ∧ _ ∧ _ ∧ _))

/-- The indices into `g_gpu_fb` at which `virtio_gpu_fill_rect` stores. -/
def fillIndices (gpu : Gpu) (x y w h : ℕ) : List ℕ :=
  if w = 0 ∨ h = 0 ∨ gpu.width ≤ x ∨ gpu.height ≤ y then []
  else
    (List.range' y (clipEnd y h gpu.height - y)).flatMap fun py ↦
      (List.range' x (clipEnd x w gpu.width - x)).map (py * gpu.width + ·)

def fbWord (gpu : Gpu) (m : Mem) (i : ℕ) : ℕ := readLE m (gpu.fb + 4 * i) 4

variable {gpu : Gpu} {m : Mem} {x y w h : ℕ}

/-! ## Clipping -/

/-- The end that is computed cuts off what the exact sum does. -/
theorem lt_clipEnd_iff {start extent limit p : ℕ} (hlimit : limit < 2 ^ 32)
    (hextent : extent < 2 ^ 32) (hstart : start < limit) :
    p < clipEnd start extent limit ↔ p < limit ∧ p < start + extent := by
  unfold clipEnd
  dsimp only
  split <;> omega

theorem pixel_lt {px py : ℕ} (hx : px < gpu.width) (hy : py < gpu.height) :
    py * gpu.width + px < gpu.width * gpu.height := by
  have hrow := row_add_le hy gpu.width
  rw [Nat.mul_comm gpu.height] at hrow
  omega

theorem mem_fillIndices_iff (hready : ReadyDisplay gpu) (hw : w < 2 ^ 32) (hh : h < 2 ^ 32)
    (i : ℕ) :
    i ∈ fillIndices gpu x y w h ↔
      ∃ px py, px < gpu.width ∧ py < gpu.height ∧ InRect x y w h px py ∧
        i = py * gpu.width + px := by
  rw [fillIndices]
  split
  next hempty =>
    constructor
    · intro hi
      cases hi
    · rintro ⟨px, py, hpx, hpy, ⟨hx, hxw, hy, hyh⟩, -⟩
      omega
  next hsome =>
    have hx : x < gpu.width := by omega
    have hy : y < gpu.height := by omega
    have hxEnd (p : ℕ) := lt_clipEnd_iff (p := p) hready.width_lt hw hx
    have hyEnd (p : ℕ) := lt_clipEnd_iff (p := p) hready.height_lt hh hy
    simp only [List.mem_flatMap, List.mem_map, List.mem_range'_1]
    constructor
    · rintro ⟨py, hpy, px, hpx, rfl⟩
      obtain ⟨hpxw, hpxs⟩ := (hxEnd px).mp (by omega)
      obtain ⟨hpyh, hpys⟩ := (hyEnd py).mp (by omega)
      exact ⟨px, py, hpxw, hpyh, ⟨hpx.1, hpxs, hpy.1, hpys⟩, rfl⟩
    · rintro ⟨px, py, hpx, hpy, ⟨hxp, hxw, hyp, hyh⟩, rfl⟩
      have hpxEnd := (hxEnd px).mpr ⟨hpx, hxw⟩
      have hpyEnd := (hyEnd py).mpr ⟨hpy, hyh⟩
      exact ⟨py, by omega, px, by omega, rfl⟩

theorem fillIndices_lt (hready : ReadyDisplay gpu) (hw : w < 2 ^ 32) (hh : h < 2 ^ 32) :
    ∀ i ∈ fillIndices gpu x y w h, i < gpu.width * gpu.height := by
  intro i hi
  obtain ⟨px, py, hpx, hpy, -, rfl⟩ := (mem_fillIndices_iff hready hw hh i).mp hi
  exact pixel_lt hpx hpy

/-! ## Stores -/

theorem virtioGpuFillRect_eq_fill (hready : ReadyDisplay gpu) (m : Mem) (x y w h color : ℕ) :
    virtioGpuFillRect gpu m x y w h color =
      WordArray.fill m gpu.fb color (fillIndices gpu x y w h) := by
  have hgate : (gpu.ready = false ∨ gpu.fb = 0 ∨ w = 0 ∨ h = 0) ↔ w = 0 ∨ h = 0 := by
    simp [hready.ready, hready.fb_ne]
  rw [virtioGpuFillRect, fillIndices]
  by_cases hextent : w = 0 ∨ h = 0
  · rw [if_pos (hgate.mpr hextent), if_pos (by omega)]
    rfl
  by_cases hout : gpu.width ≤ x ∨ gpu.height ≤ y
  · rw [if_neg (mt hgate.mp hextent), if_pos hout, if_pos (by omega)]
    rfl
  · rw [if_neg (mt hgate.mp hextent), if_neg hout, if_neg (by omega), WordArray.fill,
      List.foldl_flatMap]
    simp only [fillRow, pixelAddr, List.foldl_map]

/-- The pixels that `virtio_gpu_draw_pixel` does not ignore. -/
def drawnIndices (gpu : Gpu) (points : List (ℕ × ℕ)) : List ℕ :=
  (points.filter fun p ↦ p.1 < gpu.width ∧ p.2 < gpu.height).map fun p ↦ p.2 * gpu.width + p.1

theorem foldl_virtioGpuDrawPixel (hready : ReadyDisplay gpu) (color : ℕ)
    (points : List (ℕ × ℕ)) (m : Mem) :
    points.foldl (fun m p ↦ virtioGpuDrawPixel gpu m p.1 p.2 color) m =
      WordArray.fill m gpu.fb color (drawnIndices gpu points) := by
  induction points generalizing m with
  | nil => rfl
  | cons p points ih =>
      rw [List.foldl_cons, ih, drawnIndices, drawnIndices, List.filter_cons]
      by_cases hp : p.1 < gpu.width ∧ p.2 < gpu.height
      · have hdrawn : ¬(gpu.ready = false ∨ gpu.fb = 0 ∨ gpu.width ≤ p.1 ∨ gpu.height ≤ p.2) := by
          simp [hready.ready, hready.fb_ne, hp]
        rw [virtioGpuDrawPixel, if_neg hdrawn, if_pos (decide_eq_true hp)]
        rfl
      · rw [virtioGpuDrawPixel, if_pos (by omega), if_neg (by simpa using hp)]

theorem mem_drawnIndices_iff (points : List (ℕ × ℕ)) (i : ℕ) :
    i ∈ drawnIndices gpu points ↔
      ∃ px py, px < gpu.width ∧ py < gpu.height ∧ (px, py) ∈ points ∧
        i = py * gpu.width + px := by
  simp only [drawnIndices, List.mem_map, List.mem_filter, decide_eq_true_eq]
  constructor
  · rintro ⟨⟨px, py⟩, ⟨hmem, hpx, hpy⟩, rfl⟩
    exact ⟨px, py, hpx, hpy, hmem, rfl⟩
  · rintro ⟨px, py, hpx, hpy, hmem, rfl⟩
    exact ⟨(px, py), ⟨hmem, hpx, hpy⟩, rfl⟩

/-! ## The call -/

theorem packed_toNat (w h : UInt32) :
    (w.toUInt64 <<< 32 ||| h.toUInt64).toNat = w.toNat * 2 ^ 32 + h.toNat := by
  have hw := w.toNat_lt
  have hh := h.toNat_lt
  have hshift : (w.toUInt64 <<< 32).toNat = w.toNat <<< 32 := by
    have hlt : w.toNat <<< 32 < 2 ^ 64 := by
      rw [Nat.shiftLeft_eq]
      omega
    rw [UInt64.toNat_shiftLeft, UInt32.toNat_toUInt64]
    exact Nat.mod_eq_of_lt hlt
  rw [UInt64.toNat_or, hshift, UInt32.toNat_toUInt64, ← Nat.shiftLeft_add_eq_or_of_lt hh,
    Nat.shiftLeft_eq]

theorem low32_toUInt64 (v : UInt32) : low32 v.toUInt64 = v.toNat := by
  rw [low32, UInt32.toNat_toUInt64]
  exact Nat.mod_eq_of_lt v.toNat_lt

theorem handle_drawFillRect (hw : Hardware) (k : Kernel) (regs : Registers)
    (x y w h color : UInt32) :
    handle hw k (requestOf (drawFillRect regs x y w h color)) =
      some (.value (k.setMem (virtioGpuFillRect k.gpu k.mem x.toNat y.toNat w.toNat h.toNat
        color.toNat)) 0 false) := by
  have hh := h.toNat_lt
  have hwidth : (w.toUInt64 <<< 32 ||| h.toUInt64).toNat / 2 ^ 32 = w.toNat := by
    rw [packed_toNat]
    omega
  have hheight : low32 (w.toUInt64 <<< 32 ||| h.toUInt64) = h.toNat := by
    rw [low32, packed_toNat]
    omega
  have hhandle : handle hw k (requestOf (drawFillRect regs x y w h color)) =
      some (.value (k.setMem (virtioGpuFillRect k.gpu k.mem (low32 x.toUInt64)
        (low32 y.toUInt64) ((w.toUInt64 <<< 32 ||| h.toUInt64).toNat / 2 ^ 32)
        (low32 (w.toUInt64 <<< 32 ||| h.toUInt64)) (low32 color.toUInt64))) 0 false) := rfl
  rw [hhandle, hwidth, hheight, low32_toUInt64, low32_toUInt64, low32_toUInt64]

/-- A filled rectangle, from the user's call to the frame buffer: the words of
its points on the display get the color, nothing else changes, every store is
inside the buffer, and drawing its points one by one does the same. -/
theorem drawFillRect_spec (hw : Hardware) (k : Kernel) (hready : ReadyDisplay k.gpu)
    (regs : Registers) (x y w h color : UInt32) :
    ∃ m, handle hw k (requestOf (drawFillRect regs x y w h color)) =
        some (.value (k.setMem m) 0 false) ∧
      (∀ px py, px < k.gpu.width → py < k.gpu.height →
        fbWord k.gpu m (py * k.gpu.width + px) =
          if InRect x.toNat y.toNat w.toNat h.toNat px py then color.toNat
          else fbWord k.gpu k.mem (py * k.gpu.width + px)) ∧
      (∀ a, a < k.gpu.fb ∨ k.gpu.fb + 4 * (k.gpu.width * k.gpu.height) ≤ a → m a = k.mem a) ∧
      (m = WordArray.fill k.mem k.gpu.fb color.toNat
          (fillIndices k.gpu x.toNat y.toNat w.toNat h.toNat) ∧
        ∀ i ∈ fillIndices k.gpu x.toNat y.toNat w.toNat h.toNat,
          i < k.gpu.width * k.gpu.height) ∧
      ∀ points : List (ℕ × ℕ),
        (∀ px py, (px, py) ∈ points ↔
          InRect x.toNat y.toNat w.toNat h.toNat px py ∧ px < 2 ^ 32 ∧ py < 2 ^ 32) →
        m = points.foldl (fun m p ↦ virtioGpuDrawPixel k.gpu m p.1 p.2 color.toNat) k.mem := by
  have hmem := mem_fillIndices_iff (x := x.toNat) (y := y.toNat) hready w.toNat_lt h.toNat_lt
  have hlt := fillIndices_lt (x := x.toNat) (y := y.toNat) hready w.toNat_lt h.toNat_lt
  refine ⟨_, handle_drawFillRect hw k regs x y w h color, ?_⟩
  rw [virtioGpuFillRect_eq_fill hready]
  refine ⟨?_, ?_, ⟨rfl, hlt⟩, ?_⟩
  · intro px py hpx hpy
    rw [fbWord, WordArray.readLE_fill hready.fb_fit hlt, Nat.mod_eq_of_lt color.toNat_lt]
    have hpoint : py * k.gpu.width + px ∈ fillIndices k.gpu x.toNat y.toNat w.toNat h.toNat ↔
        InRect x.toNat y.toNat w.toNat h.toNat px py := by
      rw [hmem]
      constructor
      · rintro ⟨px', py', hpx', -, hin, heq⟩
        obtain ⟨rfl, rfl⟩ := row_inj hpx hpx' heq
        exact hin
      · exact fun hin ↦ ⟨px, py, hpx, hpy, hin, rfl⟩
    simp only [hpoint]
    rfl
  · intro a ha
    apply WordArray.fill_outside hready.fb_fit hlt
    intro i hi
    have := hlt i hi
    omega
  · intro points hpoints
    rw [foldl_virtioGpuDrawPixel hready]
    apply WordArray.fill_congr hready.fb_fit hlt
    intro i
    have hwidth := hready.width_lt
    have hheight := hready.height_lt
    rw [hmem, mem_drawnIndices_iff]
    simp only [hpoints]
    constructor
    · rintro ⟨px, py, hpx, hpy, hin, rfl⟩
      exact ⟨px, py, hpx, hpy, ⟨hin, by omega, by omega⟩, rfl⟩
    · rintro ⟨px, py, hpx, hpy, ⟨hin, -⟩, rfl⟩
      exact ⟨px, py, hpx, hpy, hin, rfl⟩

def smallDisplay : Kernel :=
  { bootKernel with gpu := ⟨true, 2, 2, 0x2000, ⟨0, 2, 0, 0, 0, 0, 0⟩, 0⟩ }

/-- A rectangle whose right edge wraps round covers the last pixel only. -/
theorem drawFillRect_spec_corner :
    ∃ m, handle sampleHardware smallDisplay
          (requestOf (drawFillRect (fun _ ↦ 0) 1 1 0xFFFFFFFF 1 0xFF0000)) =
        some (.value (smallDisplay.setMem m) 0 false) ∧
      fbWord smallDisplay.gpu m 3 = 0xFF0000 ∧ fbWord smallDisplay.gpu m 2 = 0 := by
  have hready : ReadyDisplay smallDisplay.gpu :=
    ⟨rfl, by decide, by decide, by decide, by decide⟩
  obtain ⟨m, hm, hwords, -⟩ := drawFillRect_spec sampleHardware smallDisplay hready (fun _ ↦ 0)
    1 1 0xFFFFFFFF 1 0xFF0000
  exact ⟨m, hm, hwords 1 1 (by decide) (by decide), hwords 0 1 (by decide) (by decide)⟩

end ImplusKernel.Userland
