import ImplusKernel.Lib.Fields

/-!
# Drawing through the VirtIO GPU

The frame buffer is a heap block of 32-bit pixels, row by row.  `present`
hands it to the device with two commands on the control queue, whose
descriptors and rings are in memory as well.  Address and length of a command
are given to the device in descriptor 0, those of the response in
descriptor 1.
-/

namespace ImplusKernel.VirtIO

open ByteMemory Fields

def virtqDescFNext : ℕ := 1

def virtqDescFWrite : ℕ := 2

def virtioGpuCmdResourceFlush : ℕ := 0x0104

def virtioGpuCmdTransferToHost2d : ℕ := 0x0105

def virtioGpuRespOkNodata : ℕ := 0x1100

def gpuResourceId : ℕ := 1

/-- `virtqueue_t`, without the address of the notification register. -/
structure Virtqueue where
  queueIndex : ℕ
  queueSize : ℕ
  desc : ℕ
  avail : ℕ
  used : ℕ
  availIdx : ℕ
  usedIdxSeen : ℕ
deriving DecidableEq, Repr

/-- The statics of the driver, and the number of notifications sent. -/
structure Gpu where
  ready : Bool
  width : ℕ
  height : ℕ
  fb : ℕ
  controlq : Virtqueue
  notified : ℕ
deriving DecidableEq, Repr

/-- The device: what it has done to memory when the driver stops waiting
after a notification.  `cmd` and `resp` are where the compiler keeps the two
local structures of a command. -/
structure Device where
  serve : ℕ → Mem → Mem
  cmd : ℕ
  resp : ℕ

/-! ## Pixels -/

def pixelAddr (gpu : Gpu) (x y : ℕ) : ℕ := (gpu.fb + 4 * (y * gpu.width + x)) % 2 ^ 64

def virtioGpuDrawPixel (gpu : Gpu) (m : Mem) (x y color : ℕ) : Mem :=
  if gpu.ready = false ∨ gpu.fb = 0 ∨ gpu.width ≤ x ∨ gpu.height ≤ y then m
  else writeLE m (pixelAddr gpu x y) 4 color

/-- The end of a side of the rectangle, cut to the size of the display. -/
def clipEnd (start extent limit : ℕ) : ℕ :=
  let e := (start + extent) % 2 ^ 32
  if limit < e ∨ e < start then limit else e

def fillRow (gpu : Gpu) (color py : ℕ) (m : Mem) (pxs : List ℕ) : Mem :=
  pxs.foldl (fun m px ↦ writeLE m (pixelAddr gpu px py) 4 color) m

def virtioGpuFillRect (gpu : Gpu) (m : Mem) (x y w h color : ℕ) : Mem :=
  if gpu.ready = false ∨ gpu.fb = 0 ∨ w = 0 ∨ h = 0 then m
  else if gpu.width ≤ x ∨ gpu.height ≤ y then m
  else
    let xEnd := clipEnd x w gpu.width
    let yEnd := clipEnd y h gpu.height
    (List.range' y (yEnd - y)).foldl
      (fun m py ↦ fillRow gpu color py m (List.range' x (xEnd - x))) m

/-! ## Commands -/

def writeDesc (m : Mem) (desc i addr len flags next : ℕ) : Mem :=
  let d := desc + 16 * i
  writeLE (writeLE (writeLE (writeLE m d 8 addr) (d + 8) 4 len) (d + 12) 2 flags) (d + 14) 2 next

/-- The chain of two descriptors and the available ring, up to the
notification. -/
def publish (vq : Virtqueue) (m : Mem) (cmd cmdLen resp respLen : ℕ) : Mem :=
  let m₁ := writeDesc m vq.desc 0 cmd cmdLen virtqDescFNext 1
  let m₂ := writeDesc m₁ vq.desc 1 resp respLen virtqDescFWrite 0
  let m₃ := writeLE m₂ (vq.avail + 4 + 2 * (vq.availIdx % vq.queueSize)) 2 0
  writeLE m₃ (vq.avail + 2) 2 ((vq.availIdx + 1) % 2 ^ 16)

/-- The waiting loop ends with an answer when `used->idx` has moved, and with
a timeout otherwise. -/
def virtqueueSubmitSync (device : Device) (gpu : Gpu) (m : Mem) (cmdLen respLen : ℕ) :
    Gpu × Mem × Bool :=
  let vq := gpu.controlq
  if vq.queueSize < 2 then (gpu, m, false)
  else
    let m₁ := device.serve gpu.notified (publish vq m device.cmd cmdLen device.resp respLen)
    let vq₁ := { vq with availIdx := (vq.availIdx + 1) % 2 ^ 16 }
    let gpu₁ := { gpu with controlq := vq₁, notified := gpu.notified + 1 }
    let usedIdx := readLE m₁ (vq.used + 2) 2
    if (usedIdx + 2 ^ 16 - vq.usedIdxSeen) % 2 ^ 16 = 0 then (gpu₁, m₁, false)
    else ({ gpu₁ with controlq := { vq₁ with usedIdxSeen := usedIdx } }, m₁, true)

/-- The two structures of a command: both are cleared, then the fields of the
command are filled in. -/
def filled (device : Device) (m : Mem) (cmdLen respLen : ℕ) (fields : List Field) : Mem :=
  storeFields (memset (memset m device.cmd 0 cmdLen) device.resp 0 respLen) device.cmd fields

def submitCmd (device : Device) (gpu : Gpu) (m : Mem) (cmdLen respLen : ℕ)
    (fields : List Field) : Gpu × Mem × Bool :=
  virtqueueSubmitSync device gpu (filled device m cmdLen respLen fields) cmdLen respLen

/-- A command that is answered without data. -/
def submitNodata (device : Device) (cmdLen : ℕ) (fields : List Field) (gpu : Gpu) (m : Mem) :
    Gpu × Mem × Bool :=
  match submitCmd device gpu m cmdLen 24 fields with
  | (gpu', m', false) => (gpu', m', false)
  | (gpu', m', true) => (gpu', m', readLE m' device.resp 4 = virtioGpuRespOkNodata)

def transferFields (width height : ℕ) : List Field :=
  [(0, 4, virtioGpuCmdTransferToHost2d), (24, 4, 0), (28, 4, 0), (32, 4, width), (36, 4, height),
    (40, 8, 0), (48, 4, gpuResourceId)]

def gpuCmdTransferToHost2d (device : Device) (gpu : Gpu) (m : Mem) : Gpu × Mem × Bool :=
  submitNodata device 56 (transferFields gpu.width gpu.height) gpu m

def flushFields (width height : ℕ) : List Field :=
  [(0, 4, virtioGpuCmdResourceFlush), (24, 4, 0), (28, 4, 0), (32, 4, width), (36, 4, height),
    (40, 4, gpuResourceId)]

def gpuCmdResourceFlush (device : Device) (gpu : Gpu) (m : Mem) : Gpu × Mem × Bool :=
  submitNodata device 48 (flushFields gpu.width gpu.height) gpu m

def virtioGpuPresent (device : Device) (gpu : Gpu) (m : Mem) : Gpu × Mem :=
  if gpu.ready = false then (gpu, m)
  else
    match gpuCmdTransferToHost2d device gpu m with
    | (gpu', m', false) => (gpu', m')
    | (gpu', m', true) =>
        let flushed := gpuCmdResourceFlush device gpu' m'
        (flushed.1, flushed.2.1)

/-! ## What the driver and the device write to -/

variable {device : Device} {gpu : Gpu} {m m' m'' : Mem} {g : ℕ → Prop}

/-- Only bytes of `g` differ. -/
def Only (g : ℕ → Prop) (m m' : Mem) : Prop := ∀ x, ¬g x → m' x = m x

theorem Only.trans (h : Only g m m') (h' : Only g m' m'') : Only g m m'' :=
  fun x hx ↦ (h' x hx).trans (h x hx)

theorem only_writeLE (m : Mem) {a n : ℕ} (v : ℕ) (h : ∀ x, a ≤ x → x < a + n → g x) :
    Only g m (writeLE m a n v) := by
  intro x hx
  apply writeLE_outside
  by_contra hin
  exact hx (h x (by omega) (by omega))

theorem only_memset (m : Mem) {a n : ℕ} (v : UInt8) (hfit : a + n ≤ 2 ^ 64)
    (h : ∀ x, a ≤ x → x < a + n → g x) : Only g m (memset m a v n) := by
  intro x hx
  apply memset_outside m v hfit
  by_contra hin
  exact hx (h x (by omega) (by omega))

/-- The frame buffer, the control queue and the two command structures lie in
`g`, and so does everything the device writes. -/
structure DisplayWithin (device : Device) (gpu : Gpu) (g : ℕ → Prop) : Prop where
  pixels_fit : gpu.fb + 4 * (gpu.width * gpu.height) ≤ 2 ^ 64
  pixels : ∀ x, gpu.fb ≤ x → x < gpu.fb + 4 * (gpu.width * gpu.height) → g x
  desc : ∀ x, gpu.controlq.desc ≤ x → x < gpu.controlq.desc + 32 → g x
  avail : ∀ x, gpu.controlq.avail ≤ x →
    x < gpu.controlq.avail + 4 + 2 * gpu.controlq.queueSize → g x
  cmd_fit : device.cmd + 56 ≤ 2 ^ 64
  cmd : ∀ x, device.cmd ≤ x → x < device.cmd + 56 → g x
  resp_fit : device.resp + 24 ≤ 2 ^ 64
  resp : ∀ x, device.resp ≤ x → x < device.resp + 24 → g x
  serve : ∀ n m, Only g m (device.serve n m)

theorem only_pixel (h : DisplayWithin device gpu g) (m : Mem) {x y : ℕ} (color : ℕ)
    (hx : x < gpu.width) (hy : y < gpu.height) :
    Only g m (writeLE m (pixelAddr gpu x y) 4 color) := by
  have hrow := row_add_le hy gpu.width
  rw [Nat.mul_comm gpu.height] at hrow
  have hfit := h.pixels_fit
  have haddr : pixelAddr gpu x y = gpu.fb + 4 * (y * gpu.width + x) :=
    Nat.mod_eq_of_lt (by omega)
  apply only_writeLE
  intro z hlow hhigh
  rw [haddr] at hlow hhigh
  exact h.pixels z (by omega) (by omega)

theorem virtioGpuDrawPixel_only (h : DisplayWithin device gpu g) (m : Mem) (x y color : ℕ) :
    Only g m (virtioGpuDrawPixel gpu m x y color) := by
  unfold virtioGpuDrawPixel
  split
  · exact fun _ _ ↦ rfl
  · exact only_pixel h m color (by omega) (by omega)

theorem only_foldl {α : Type*} (f : Mem → α → Mem) {xs : List α}
    (h : ∀ a ∈ xs, ∀ m, Only g m (f m a)) (m : Mem) : Only g m (xs.foldl f m) := by
  induction xs generalizing m with
  | nil => exact fun _ _ ↦ rfl
  | cons a xs ih =>
      exact (h a (List.mem_cons_self ..) m).trans
        (ih (fun b hb ↦ h b (List.mem_cons_of_mem a hb)) (f m a))

theorem clipEnd_le (start extent limit : ℕ) : clipEnd start extent limit ≤ limit := by
  unfold clipEnd
  dsimp only
  split <;> omega

theorem virtioGpuFillRect_only (h : DisplayWithin device gpu g) (m : Mem)
    (x y w height color : ℕ) : Only g m (virtioGpuFillRect gpu m x y w height color) := by
  unfold virtioGpuFillRect
  split
  · exact fun _ _ ↦ rfl
  split
  · exact fun _ _ ↦ rfl
  apply only_foldl
  intro py hpy m
  apply only_foldl
  intro px hpx m
  have hxEnd := clipEnd_le x w gpu.width
  have hyEnd := clipEnd_le y height gpu.height
  rw [List.mem_range'_1] at hpx hpy
  exact only_pixel h m color (by omega) (by omega)

theorem writeDesc_only (m : Mem) {desc i : ℕ} (addr len flags next : ℕ)
    (h : ∀ x, desc + 16 * i ≤ x → x < desc + 16 * i + 16 → g x) :
    Only g m (writeDesc m desc i addr len flags next) := by
  have hfield : ∀ (m : Mem) (a n v : ℕ), a + n ≤ 16 →
      Only g m (writeLE m (desc + 16 * i + a) n v) := fun m a n v ha ↦
    only_writeLE m v fun x hlow hhigh ↦ h x (by omega) (by omega)
  exact (((hfield _ 0 8 addr (by decide)).trans (hfield _ 8 4 len (by decide))).trans
    (hfield _ 12 2 flags (by decide))).trans (hfield _ 14 2 next (by decide))

theorem publish_only {vq : Virtqueue} (hsize : 0 < vq.queueSize)
    (hdesc : ∀ x, vq.desc ≤ x → x < vq.desc + 32 → g x)
    (havail : ∀ x, vq.avail ≤ x → x < vq.avail + 4 + 2 * vq.queueSize → g x)
    (m : Mem) (cmd cmdLen resp respLen : ℕ) :
    Only g m (publish vq m cmd cmdLen resp respLen) := by
  have hslot := Nat.mod_lt vq.availIdx hsize
  refine ((writeDesc_only m _ _ _ _ ?_).trans (writeDesc_only _ _ _ _ _ ?_)).trans
    ((only_writeLE _ _ ?_).trans (only_writeLE _ _ ?_))
  · intro x hlow hhigh
    exact hdesc x (by omega) (by omega)
  · intro x hlow hhigh
    exact hdesc x (by omega) (by omega)
  · intro x hlow hhigh
    exact havail x (by omega) (by omega)
  · intro x hlow hhigh
    exact havail x (by omega) (by omega)

/-- A command leaves the addresses of the driver as they are. -/
theorem virtqueueSubmitSync_within (h : DisplayWithin device gpu g) (m : Mem)
    (cmdLen respLen : ℕ) :
    Only g m (virtqueueSubmitSync device gpu m cmdLen respLen).2.1 ∧
      DisplayWithin device (virtqueueSubmitSync device gpu m cmdLen respLen).1 g := by
  have hwithin : ∀ availIdx usedIdxSeen notified, DisplayWithin device { gpu with
      controlq := { gpu.controlq with availIdx := availIdx, usedIdxSeen := usedIdxSeen }
      notified := notified } g := fun _ _ _ ↦
    ⟨h.pixels_fit, h.pixels, h.desc, h.avail, h.cmd_fit, h.cmd, h.resp_fit, h.resp, h.serve⟩
  unfold virtqueueSubmitSync
  dsimp only
  split
  · exact ⟨fun _ _ ↦ rfl, h⟩
  have honly := (publish_only (by omega) h.desc h.avail m device.cmd cmdLen device.resp
    respLen).trans (h.serve gpu.notified _)
  split
  · exact ⟨honly, hwithin _ _ _⟩
  · exact ⟨honly, hwithin _ _ _⟩

/-- Filling in a command changes nothing but its two structures. -/
theorem filled_only {cmdLen respLen size : ℕ} {fields : List Field} (m : Mem)
    (hcmdFit : device.cmd + size ≤ 2 ^ 64) (hrespFit : device.resp + respLen ≤ 2 ^ 64)
    (hlen : cmdLen ≤ size) (hfields : ∀ f ∈ fields, f.1 + f.2.1 ≤ size)
    (hcmd : ∀ x, device.cmd ≤ x → x < device.cmd + size → g x)
    (hresp : ∀ x, device.resp ≤ x → x < device.resp + respLen → g x) :
    Only g m (filled device m cmdLen respLen fields) := by
  have hcleared : Only g m (memset (memset m device.cmd 0 cmdLen) device.resp 0 respLen) :=
    (only_memset m 0 (by omega) fun x hlow hhigh ↦ hcmd x hlow (by omega)).trans
      (only_memset _ 0 hrespFit hresp)
  apply hcleared.trans
  apply only_foldl
  intro f hf m
  have hfit := hfields f hf
  exact only_writeLE m f.2.2 fun x hlow hhigh ↦ hcmd x (by omega) (by omega)

theorem submitNodata_within (h : DisplayWithin device gpu g) (m : Mem) {cmdLen : ℕ}
    {fields : List Field} (hlen : cmdLen ≤ 56) (hfields : ∀ f ∈ fields, f.1 + f.2.1 ≤ 56) :
    Only g m (submitNodata device cmdLen fields gpu m).2.1 ∧
      DisplayWithin device (submitNodata device cmdLen fields gpu m).1 g := by
  have hfilled : Only g m (filled device m cmdLen 24 fields) :=
    filled_only m h.cmd_fit h.resp_fit hlen hfields h.cmd h.resp
  obtain ⟨honly, hwithin⟩ :=
    virtqueueSubmitSync_within h (filled device m cmdLen 24 fields) cmdLen 24
  have hall := hfilled.trans honly
  unfold submitNodata submitCmd
  split
  · next heq =>
      rw [heq] at hall hwithin
      exact ⟨hall, hwithin⟩
  · next heq =>
      rw [heq] at hall hwithin
      exact ⟨hall, hwithin⟩

theorem virtioGpuPresent_within (h : DisplayWithin device gpu g) (m : Mem) :
    Only g m (virtioGpuPresent device gpu m).2 ∧
      DisplayWithin device (virtioGpuPresent device gpu m).1 g := by
  unfold virtioGpuPresent
  split
  · exact ⟨fun _ _ ↦ rfl, h⟩
  have htransfer : Only g m (gpuCmdTransferToHost2d device gpu m).2.1 ∧
      DisplayWithin device (gpuCmdTransferToHost2d device gpu m).1 g :=
    submitNodata_within h m (by decide) (by simp [transferFields])
  split
  · next heq =>
      rw [heq] at htransfer
      exact htransfer
  · next gpu' m' heq =>
      rw [heq] at htransfer
      have hflush : Only g m' (gpuCmdResourceFlush device gpu' m').2.1 ∧
          DisplayWithin device (gpuCmdResourceFlush device gpu' m').1 g :=
        submitNodata_within htransfer.2 m' (by decide) (by simp [flushFields])
      exact ⟨htransfer.1.trans hflush.1, hflush.2⟩

end ImplusKernel.VirtIO
