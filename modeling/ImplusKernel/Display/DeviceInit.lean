import ImplusKernel.Display.Discovery
import ImplusKernel.Display.VirtIO
import ImplusKernel.Memory.HeapOwnership
import ImplusKernel.Paging.IdentityMap

/-!
# Bringing up the display

`virtio_gpu_init` finds the device, negotiates with it, sets up the control
queue in a block of the heap, asks for the size of the display, takes a second
block for the frame buffer and hands it to the device with three commands.  It
gives up at the first step that fails and leaves the blocks it has taken where
they are: a failed initialisation gives back its memory exactly when it never
came to the control queue.

Registers of the device are not memory: reads answer anything, and writes are
recorded.
-/

namespace ImplusKernel.VirtIO

open ByteMemory Fields Heap Paging Words

/-! ## Registers -/

/-- What the device answers when the driver reads its registers in the course
of one initialisation. -/
structure RegisterValues where
  deviceStatus : UInt8
  queueSize : UInt16
  queueEnable : UInt16
  readyStatus : UInt8

/-- A write to the configuration space of the device or to its common
configuration registers. -/
inductive BusWrite
  | config (offset : UInt8) (value : UInt32)
  | common (offset value : ℕ)
deriving DecidableEq, Repr

def virtioStatusAcknowledge : ℕ := 0x01

def virtioStatusDriver : ℕ := 0x02

def virtioStatusDriverOk : ℕ := 0x04

def virtioStatusFeaturesOk : ℕ := 0x08

def virtioStatusFailed : ℕ := 0x80

def virtioFVersion1 : ℕ := 1

def pciCfgWrite16 (config : ConfigSpace) (bus device func offset : UInt8) (value : UInt16) :
    BusWrite :=
  let aligned := offset &&& 0xFC
  let shift := (offset &&& 2).toUInt32 * 8
  let mask := (0xFFFF : UInt32) <<< shift
  .config aligned (config bus device func aligned &&& ~~~mask ||| value.toUInt32 <<< shift)

/-- The parts of the kernel that the initialisation changes. -/
structure DriverState where
  heap : MemoryState
  gpu : Gpu
  paging : PagingState
  bus : List BusWrite
  serial : List String

def DriverState.write (s : DriverState) (writes : List BusWrite) : DriverState :=
  { s with bus := s.bus ++ writes }

def DriverState.print (s : DriverState) (texts : List String) : DriverState :=
  { s with serial := s.serial ++ texts }

def DriverState.kmalloc (s : DriverState) (size : ℕ) : Option (DriverState × ℕ) := do
  let (heap, result) ← Heap.kmalloc s.heap size
  some ({ s with heap := heap, serial := s.serial ++ result.serial }, result.ptr)

def virtioPciDeviceInit (config : ConfigSpace) (gpu : VirtioGpuPci) (regs : RegisterValues)
    (s : DriverState) : DriverState × Bool :=
  let cmd := pciCfgRead16 config gpu.bus gpu.device gpu.func 0x04 ||| (1 : UInt16) <<< 1 |||
    (1 : UInt16) <<< 2
  let s₁ := s.write
    [pciCfgWrite16 config gpu.bus gpu.device gpu.func 0x04 cmd,
      .common 20 0,
      .common 20 virtioStatusAcknowledge,
      .common 20 (virtioStatusAcknowledge ||| virtioStatusDriver),
      .common 0 0, .common 0 1,
      .common 8 0, .common 12 0, .common 8 1, .common 12 virtioFVersion1,
      .common 20 (virtioStatusAcknowledge ||| virtioStatusDriver ||| virtioStatusFeaturesOk)]
  let status := regs.deviceStatus.toNat
  if status &&& virtioStatusFeaturesOk = 0 then
    (s₁.write [.common 20 (status ||| virtioStatusFailed)], false)
  else (s₁, true)

/-! ## The control queue -/

def descBytes (qsize : ℕ) : ℕ := qsize * 16

def availBytes (qsize : ℕ) : ℕ := 6 + qsize * 2

def usedOff (qsize : ℕ) : ℕ := alignUp (descBytes qsize + availBytes qsize) 4

def usedBytes (qsize : ℕ) : ℕ := 6 + qsize * 8

/-- `total`. -/
def ringBytes (qsize : ℕ) : ℕ := usedOff qsize + usedBytes qsize

/-- The pointer that is returned need not be the one that `kmalloc` returned. -/
def allocAligned (s : DriverState) (size align : ℕ) : Option (DriverState × ℕ) := do
  let (s', raw) ← s.kmalloc ((size + align - 1) % 2 ^ 32)
  if raw = 0 then some (s', 0)
  else some (s', (raw + (align - 1)) % 2 ^ 64 &&& (2 ^ 64 - align))

/-- The queue is returned when the device has enabled it. -/
def virtqueueInitCtrl (regs : RegisterValues) (s : DriverState) (queueIndex : ℕ) :
    Option (DriverState × Option Virtqueue) :=
  let s₁ := s.write [.common 22 queueIndex]
  let qsize := regs.queueSize.toNat
  if qsize < 2 then some (s₁, none)
  else do
    let (s₂, ring) ← allocAligned s₁ (ringBytes qsize) 4096
    if ring = 0 then some (s₂, none)
    else
      let vq : Virtqueue :=
        { queueIndex := queueIndex
          queueSize := qsize
          desc := ring
          avail := ring + descBytes qsize
          used := ring + usedOff qsize
          availIdx := 0
          usedIdxSeen := 0 }
      let cleared := memset s₂.heap.mem ring 0 (ringBytes qsize)
      let s₃ := { s₂ with heap := { s₂.heap with mem := cleared } }.write
        [.common 26 0xFFFF, .common 32 vq.desc, .common 40 vq.avail, .common 48 vq.used,
          .common 28 1, .common 22 queueIndex]
      some (s₃, if regs.queueEnable = 0 then none else some vq)

/-! ## The commands of the set-up -/

def virtioGpuCmdGetDisplayInfo : ℕ := 0x0100

def virtioGpuCmdResourceCreate2d : ℕ := 0x0101

def virtioGpuCmdSetScanout : ℕ := 0x0103

def virtioGpuCmdResourceAttachBacking : ℕ := 0x0106

def virtioGpuRespOkDisplayInfo : ℕ := 0x1101

def virtioGpuFormatB8g8r8x8Unorm : ℕ := 1

def gpuScanoutId : ℕ := 0

def infoFields : List Field := [(0, 4, virtioGpuCmdGetDisplayInfo)]

/-- The width and the height of the first mode. -/
def gpuCmdGetDisplayInfo (device : Device) (gpu : Gpu) (m : Mem) :
    Gpu × Mem × Option (ℕ × ℕ) :=
  match submitCmd device gpu m 24 408 infoFields with
  | (gpu', m', false) => (gpu', m', none)
  | (gpu', m', true) =>
      let width := readLE m' (device.resp + 32) 4
      let height := readLE m' (device.resp + 36) 4
      if readLE m' device.resp 4 ≠ virtioGpuRespOkDisplayInfo then (gpu', m', none)
      else if width = 0 ∨ height = 0 then (gpu', m', none)
      else (gpu', m', some (width, height))

def createFields (width height : ℕ) : List Field :=
  [(0, 4, virtioGpuCmdResourceCreate2d), (24, 4, gpuResourceId),
    (28, 4, virtioGpuFormatB8g8r8x8Unorm), (32, 4, width), (36, 4, height)]

def gpuCmdResourceCreate2d (device : Device) (width height : ℕ) :
    Gpu → Mem → Gpu × Mem × Bool :=
  submitNodata device 40 (createFields width height)

def attachFields (fb bytes : ℕ) : List Field :=
  [(0, 4, virtioGpuCmdResourceAttachBacking), (24, 4, gpuResourceId), (28, 4, 1), (32, 8, fb),
    (40, 4, bytes)]

def gpuCmdResourceAttachBacking (device : Device) (fb bytes : ℕ) :
    Gpu → Mem → Gpu × Mem × Bool :=
  submitNodata device 48 (attachFields fb bytes)

def scanoutFields (width height : ℕ) : List Field :=
  [(0, 4, virtioGpuCmdSetScanout), (24, 4, 0), (28, 4, 0), (32, 4, width), (36, 4, height),
    (40, 4, gpuScanoutId), (44, 4, gpuResourceId)]

def gpuCmdSetScanout (device : Device) (width height : ℕ) : Gpu → Mem → Gpu × Mem × Bool :=
  submitNodata device 48 (scanoutFields width height)

/-! ## Initialisation -/

inductive InitResult
  | deviceNotFound
  | capabilitiesMissing
  | deviceInitFailed
  | queueInitFailed
  | invalidDisplaySize
  | framebufferFailed
  | createFailed
  | attachFailed
  | scanoutFailed
  | complete
deriving DecidableEq, Repr

def InitResult.message : InitResult → String
  | .deviceNotFound => "[OS] [VIRTIO] GPU device not found\n"
  | .capabilitiesMissing => "[OS] [VIRTIO] Required PCI capabilities are missing\n"
  | .deviceInitFailed => "[OS] [VIRTIO] Device init failed\n"
  | .queueInitFailed => "[OS] [VIRTIO] Control queue init failed\n"
  | .invalidDisplaySize => "[OS] [VIRTIO] Invalid display size\n"
  | .framebufferFailed => "[OS] [VIRTIO] Framebuffer allocation failed\n"
  | .createFailed => "[OS] [VIRTIO] RESOURCE_CREATE_2D failed\n"
  | .attachFailed => "[OS] [VIRTIO] ATTACH_BACKING failed\n"
  | .scanoutFailed => "[OS] [VIRTIO] SET_SCANOUT failed\n"
  | .complete => "[OS] [VIRTIO] Init complete\n"

/-- The value that `virtio_gpu_init` returns. -/
def InitResult.ok (r : InitResult) : Bool := r = .complete

/-- The device with its registers and configuration space, where the linker
put the page tables, and what the stack holds in place of `gpu`. -/
structure Platform where
  config : ConfigSpace
  regs : RegisterValues
  device : Device
  addrs : TableAddrs
  stack : VirtioGpuPci

/-- Commands one after the other until one fails, each with the result that
its failure has. -/
def runCommands : List ((Gpu → Mem → Gpu × Mem × Bool) × InitResult) → Gpu → Mem →
    Gpu × Mem × InitResult
  | [], gpu, m => (gpu, m, .complete)
  | (cmd, failure) :: rest, gpu, m =>
      match cmd gpu m with
      | (gpu', m', false) => (gpu', m', failure)
      | (gpu', m', true) => runCommands rest gpu' m'

/-- What a command leaves behind: memory and the number of notifications.  The
queue is a local variable, and the statics are as they were. -/
def DriverState.after (s : DriverState) (gpu : Gpu) (m : Mem) : DriverState :=
  { s with heap := { s.heap with mem := m }, gpu := { s.gpu with notified := gpu.notified } }

/-- A return, with the last line that is printed. -/
def DriverState.exit (s : DriverState) (result : InitResult) : DriverState × InitResult :=
  (s.print [result.message], result)

/-- `virtio_gpu_init` from the computation of `pixel_count` on; `gpu` has the
local queue. -/
def setUpFramebuffer (device : Device) (s : DriverState) (gpu : Gpu) (width height : ℕ) :
    Option (DriverState × InitResult) :=
  let pixelCount := width * height
  if pixelCount = 0 ∨ 64 * 1024 * 1024 < pixelCount then some (s.exit .invalidDisplaySize)
  else do
    let fbBytes := pixelCount * 4 % 2 ^ 32
    let (s₁, fb) ← s.kmalloc fbBytes
    if fb = 0 then some (s₁.exit .framebufferFailed)
    else
      let run := runCommands
        [(gpuCmdResourceCreate2d device width height, .createFailed),
          (gpuCmdResourceAttachBacking device fb fbBytes, .attachFailed),
          (gpuCmdSetScanout device width height, .scanoutFailed)]
        gpu (memset s₁.heap.mem fb 0 fbBytes)
      let s₂ := s₁.after run.1 run.2.1
      if run.2.2 = .complete then
        some ({ s₂ with
          gpu := { run.1 with ready := true, width := width, height := height, fb := fb } }.exit
            .complete)
      else some (s₂.exit run.2.2)

/-- `virtio_gpu_init` from `gpu_cmd_get_display_info` on, whose failure leaves
the size at its default. -/
def setUpDisplay (device : Device) (s : DriverState) (controlq : Virtqueue) :
    Option (DriverState × InitResult) :=
  let answer := gpuCmdGetDisplayInfo device { s.gpu with controlq := controlq } s.heap.mem
  let size := answer.2.2.getD (1024, 768)
  setUpFramebuffer device (s.after answer.1 answer.2.1) answer.1 size.1 size.2

def virtioGpuInit (p : Platform) (s : DriverState) : Option (DriverState × InitResult) :=
  let s₁ := { s with gpu := { s.gpu with ready := false, width := 0, height := 0, fb := 0 } }
  match findVirtioGpu p.config p.stack with
  | none => some (s₁.exit .deviceNotFound)
  | some gpu =>
      let s₂ := s₁.print ["[OS] [VIRTIO] GPU found (IRQ ", serialUint64 gpu.irq.toNat, ")\n"]
      match virtioPciFindCaps p.config p.addrs gpu s₂.paging with
      | (paging, none) => some ({ s₂ with paging := paging }.exit .capabilitiesMissing)
      | (paging, some _) =>
          match virtioPciDeviceInit p.config gpu p.regs { s₂ with paging := paging } with
          | (s₃, false) => some (s₃.exit .deviceInitFailed)
          | (s₃, true) => do
              let (s₄, controlq) ← virtqueueInitCtrl p.regs s₃ 0
              match controlq with
              | none => some (s₄.exit .queueInitFailed)
              | some controlq =>
                  let status := p.regs.readyStatus.toNat ||| virtioStatusDriverOk
                  setUpDisplay p.device (s₄.write [.common 20 status]) controlq

/-! ## The blocks that are taken -/

variable {device : Device} {s₀ t : MemoryState} {own : List Block} {ring : Block} {gpu : Gpu}

/-- The two structures of a command lie outside the heap, and the device
writes only there or to blocks that the driver owns at the time. -/
structure Tame (device : Device) (s₀ : MemoryState) : Prop where
  cmd_fit : device.cmd + 56 ≤ 2 ^ 64
  cmd : device.cmd + 56 ≤ s₀.heapStart ∨ s₀.heapStart + heapBytes ≤ device.cmd
  resp_fit : device.resp + 408 ≤ 2 ^ 64
  resp : device.resp + 408 ≤ s₀.heapStart ∨ s₀.heapStart + heapBytes ≤ device.resp
  serve : ∀ n t own, Owns s₀ t own → Only (Writable t own) t.mem (device.serve n t.mem)

/-- Descriptors and available ring lie in the block. -/
structure QueueIn (vq : Virtqueue) (ring : Block) : Prop where
  desc : payload ring ≤ vq.desc ∧ vq.desc + 32 ≤ payload ring + ring.size
  avail : payload ring ≤ vq.avail ∧
    vq.avail + 4 + 2 * vq.queueSize ≤ payload ring + ring.size

theorem Tame.cmd_writable (h : Tame device s₀) (howns : Owns s₀ t own) {x : ℕ}
    (hlow : device.cmd ≤ x) (hhigh : x < device.cmd + 56) : Writable t own x :=
  writable_of_apart (by rw [howns.start]; exact h.cmd) own hlow hhigh

theorem Tame.resp_writable (h : Tame device s₀) (howns : Owns s₀ t own) {x : ℕ}
    (hlow : device.resp ≤ x) (hhigh : x < device.resp + 408) : Writable t own x :=
  writable_of_apart (by rw [howns.start]; exact h.resp) own hlow hhigh

/-- A command in the course of the initialisation neither takes nor returns a
block, and leaves the queue where it is. -/
def KeepsBlocks (s₀ : MemoryState) (ring : Block) (cmd : Gpu → Mem → Gpu × Mem) : Prop :=
  ∀ t own gpu, Owns s₀ t own → ring ∈ own → QueueIn gpu.controlq ring →
    Owns s₀ { t with mem := (cmd gpu t.mem).2 } own ∧ QueueIn (cmd gpu t.mem).1.controlq ring

theorem keepsBlocks_submit (h : Tame device s₀) (cmdLen respLen : ℕ) :
    KeepsBlocks s₀ ring fun gpu m ↦
      ((virtqueueSubmitSync device gpu m cmdLen respLen).1,
        (virtqueueSubmitSync device gpu m cmdLen respLen).2.1) := by
  intro t own gpu howns hring hqueue
  dsimp only [virtqueueSubmitSync]
  split
  · exact ⟨howns, hqueue⟩
  have hpublish := publish_only (g := Writable t own) (by omega : 0 < gpu.controlq.queueSize)
    (fun x hlow hhigh ↦ writable_of_mem hring (by have := hqueue.desc; omega)
      (by have := hqueue.desc; omega))
    (fun x hlow hhigh ↦ writable_of_mem hring (by have := hqueue.avail; omega)
      (by have := hqueue.avail; omega)) t.mem device.cmd cmdLen device.resp respLen
  have hserved := (howns.store hpublish).store (h.serve gpu.notified _ _ (howns.store hpublish))
  split
  · exact ⟨hserved, hqueue.desc, hqueue.avail⟩
  · exact ⟨hserved, hqueue.desc, hqueue.avail⟩

theorem keepsBlocks_submitCmd (h : Tame device s₀) {cmdLen respLen : ℕ}
    {fields : List Field} (hcmd : cmdLen ≤ 56) (hresp : respLen ≤ 408)
    (hfields : ∀ f ∈ fields, f.1 + f.2.1 ≤ 56) :
    KeepsBlocks s₀ ring fun gpu m ↦ ((submitCmd device gpu m cmdLen respLen fields).1,
      (submitCmd device gpu m cmdLen respLen fields).2.1) := by
  intro t own gpu howns hring hqueue
  have hrespFit := h.resp_fit
  have hfilled : Only (Writable t own) t.mem (filled device t.mem cmdLen respLen fields) :=
    filled_only t.mem h.cmd_fit (by omega) hcmd hfields
      (fun x hlow hhigh ↦ h.cmd_writable howns hlow hhigh)
      (fun x hlow hhigh ↦ h.resp_writable howns hlow (by omega))
  have hsubmit := keepsBlocks_submit h cmdLen respLen _ own gpu (howns.store hfilled) hring hqueue
  exact hsubmit

theorem keepsBlocks_getDisplayInfo (h : Tame device s₀) :
    KeepsBlocks s₀ ring fun gpu m ↦
      ((gpuCmdGetDisplayInfo device gpu m).1, (gpuCmdGetDisplayInfo device gpu m).2.1) := by
  intro t own gpu howns hring hqueue
  have hfields : ∀ f ∈ infoFields, f.1 + f.2.1 ≤ 56 := by decide
  have hkeeps := keepsBlocks_submitCmd h (show 24 ≤ 56 by decide) le_rfl hfields t own gpu howns
    hring hqueue
  dsimp only [gpuCmdGetDisplayInfo]
  split
  · next heq => simpa only [heq] using hkeeps
  · next heq =>
      simp only [heq] at hkeeps
      split
      · exact hkeeps
      · split <;> exact hkeeps

theorem keepsBlocks_submitNodata (h : Tame device s₀) {cmdLen : ℕ} {fields : List Field}
    (hcmd : cmdLen ≤ 56) (hfields : ∀ f ∈ fields, f.1 + f.2.1 ≤ 56) :
    KeepsBlocks s₀ ring fun gpu m ↦ ((submitNodata device cmdLen fields gpu m).1,
      (submitNodata device cmdLen fields gpu m).2.1) := by
  intro t own gpu howns hring hqueue
  have hkeeps := keepsBlocks_submitCmd h hcmd (show 24 ≤ 408 by decide) hfields t own gpu howns
    hring hqueue
  dsimp only [submitNodata]
  split
  · next heq => simpa only [heq] using hkeeps
  · next heq => simpa only [heq] using hkeeps

theorem keepsBlocks_runCommands {cmds : List ((Gpu → Mem → Gpu × Mem × Bool) × InitResult)}
    (h : ∀ c ∈ cmds, KeepsBlocks s₀ ring fun gpu m ↦ ((c.1 gpu m).1, (c.1 gpu m).2.1)) :
    KeepsBlocks s₀ ring fun gpu m ↦
      ((runCommands cmds gpu m).1, (runCommands cmds gpu m).2.1) := by
  induction cmds with
  | nil => exact fun t own gpu howns _ hqueue ↦ ⟨howns, hqueue⟩
  | cons c cmds ih =>
      intro t own gpu howns hring hqueue
      have hfirst := h c (List.mem_cons_self ..) t own gpu howns hring hqueue
      dsimp only [runCommands]
      split
      · next heq => simpa only [heq] using hfirst
      · next heq =>
          simp only [heq] at hfirst
          exact ih (fun d hd ↦ h d (List.mem_cons_of_mem c hd)) _ own _ hfirst.1 hring hfirst.2

theorem DriverState.kmalloc_owns {s : DriverState} {size : ℕ} (h : Owns s₀ s.heap own)
    (hpos : size ≠ 0) (hle : size ≤ 0xFFFFFFF8) :
    ((∃ n, Heap.kmalloc s.heap size = some (s.heap, .outOfMemory n)) ∧
      ∃ s', s.kmalloc size = some (s', 0) ∧ s'.heap = s.heap ∧ s'.gpu = s.gpu) ∨
    ((¬∃ n, Heap.kmalloc s.heap size = some (s.heap, .outOfMemory n)) ∧
      ∃ s' b, s.kmalloc size = some (s', payload b) ∧ s'.gpu = s.gpu ∧
        Owns s₀ s'.heap (b :: own) ∧ size ≤ b.size) := by
  rcases h.kmalloc hpos hle with ⟨n, hk⟩ | ⟨heap, b, hk, howns, hsize, -⟩
  · refine Or.inl ⟨⟨n, hk⟩, { s with serial := s.serial ++ (KmallocResult.outOfMemory n).serial },
      ?_, rfl, rfl⟩
    simp [DriverState.kmalloc, hk, KmallocResult.ptr]
  · refine Or.inr ⟨?_,
      { s with heap := heap, serial := s.serial ++ (KmallocResult.block 0).serial }, b, ?_, rfl,
      howns, hsize⟩
    · rintro ⟨n, hn⟩
      simp [hk] at hn
    · simp [DriverState.kmalloc, hk, KmallocResult.ptr, KmallocResult.serial]

theorem setUpFramebuffer_owns (h : Tame device s₀) {s : DriverState}
    (howns : Owns s₀ s.heap own) (hring : ring ∈ own) (hqueue : QueueIn gpu.controlq ring)
    (width height : ℕ) :
    ∃ s' result own', setUpFramebuffer device s gpu width height = some (s', result) ∧
      Owns s₀ s'.heap own' ∧ ring ∈ own' ∧
      (result ≠ .complete → s'.gpu.ready = s.gpu.ready) := by
  unfold setUpFramebuffer
  dsimp only
  split
  · exact ⟨_, _, own, rfl, howns, hring, fun _ ↦ rfl⟩
  next hcount =>
  have hbytes : width * height * 4 % 2 ^ 32 = width * height * 4 := Nat.mod_eq_of_lt (by omega)
  rw [hbytes]
  rcases DriverState.kmalloc_owns howns (show width * height * 4 ≠ 0 by omega) (by omega) with
    ⟨-, s₁, hk, hheap, hgpu⟩ | ⟨-, s₁, b, hk, hgpu, howns₁, hsize⟩
  · rw [hk]
    dsimp only [Option.bind_eq_bind, Option.bind_some]
    rw [if_pos rfl]
    rw [← hheap] at howns
    exact ⟨_, _, own, rfl, howns, hring, fun _ ↦ congrArg Gpu.ready hgpu⟩
  have hmine := List.mem_cons_of_mem b hring
  -- The new block is cleared, and the commands keep both.
  have hbounds := howns₁.bounds (List.mem_cons_self ..)
  have hcleared := howns₁.store (only_memset s₁.heap.mem (n := width * height * 4) 0 (by omega)
    fun x hlow hhigh ↦ writable_of_mem (List.mem_cons_self ..) hlow (by omega))
  have hcmds : ∀ c ∈ [(gpuCmdResourceCreate2d device width height, InitResult.createFailed),
      (gpuCmdResourceAttachBacking device (payload b) (width * height * 4), .attachFailed),
      (gpuCmdSetScanout device width height, .scanoutFailed)],
      KeepsBlocks s₀ ring fun gpu m ↦ ((c.1 gpu m).1, (c.1 gpu m).2.1) := by
    simp only [List.forall_mem_cons]
    refine ⟨?_, ?_, ?_, List.forall_mem_nil _⟩
    · exact keepsBlocks_submitNodata h (by decide) (by simp [createFields])
    · exact keepsBlocks_submitNodata h (by decide) (by simp [attachFields])
    · exact keepsBlocks_submitNodata h (by decide) (by simp [scanoutFields])
  have hrun := (keepsBlocks_runCommands hcmds _ _ gpu hcleared hmine hqueue).1
  rw [hk]
  dsimp only [Option.bind_eq_bind, Option.bind_some]
  rw [if_neg (payload_ne_zero b)]
  have hready : s₁.gpu.ready = s.gpu.ready := congrArg Gpu.ready hgpu
  split
  · exact ⟨_, _, b :: own, rfl, hrun, hmine, fun hne ↦ absurd rfl hne⟩
  · exact ⟨_, _, b :: own, rfl, hrun, hmine, fun _ ↦ hready⟩

/-- Once the control queue is set up, its block is never given back. -/
theorem setUpDisplay_owns (h : Tame device s₀) {s : DriverState} {controlq : Virtqueue}
    (howns : Owns s₀ s.heap own) (hring : ring ∈ own) (hqueue : QueueIn controlq ring) :
    ∃ s' result own', setUpDisplay device s controlq = some (s', result) ∧
      Owns s₀ s'.heap own' ∧ ring ∈ own' ∧
      (result ≠ .complete → s'.gpu.ready = s.gpu.ready) := by
  obtain ⟨howns₁, hqueue₁⟩ := keepsBlocks_getDisplayInfo h s.heap own
    { s.gpu with controlq := controlq } howns hring hqueue
  exact setUpFramebuffer_owns h howns₁ hring hqueue₁ _ _

/-! ## The block of the control queue -/

/-- The device offers a queue, and there is a free block for it. -/
def RoomForRing (regs : RegisterValues) (bs : List Block) : Prop :=
  2 ≤ regs.queueSize.toNat ∧ ∃ b ∈ bs, b.tag = true ∧
    alignUp (ringBytes regs.queueSize.toNat + 4095) minAllocAlign ≤ b.size

theorem usedOff_bounds {qsize : ℕ} (hq : qsize < 2 ^ 16) :
    18 * qsize + 6 ≤ usedOff qsize ∧ usedOff qsize ≤ 18 * qsize + 9 := by
  have hsum : descBytes qsize + availBytes qsize + 4 - 1 = 18 * qsize + 9 := by
    unfold descBytes availBytes
    omega
  have hmask : (2 ^ 32 - 1 - (4 - 1) : ℕ) = highMask 32 2 := by decide
  rw [usedOff, alignUp, hsum, Nat.mod_eq_of_lt (by omega), hmask,
    land_highMask (by decide) (by omega)]
  omega

theorem aligned_bounds {raw : ℕ} (hraw : raw + 4095 < 2 ^ 64) :
    raw ≤ (raw + (4096 - 1)) % 2 ^ 64 &&& (2 ^ 64 - 4096) ∧
      (raw + (4096 - 1)) % 2 ^ 64 &&& (2 ^ 64 - 4096) ≤ raw + 4095 := by
  have hmask : (2 ^ 64 - 4096 : ℕ) = highMask 64 12 := by decide
  rw [Nat.mod_eq_of_lt (by omega), hmask, land_highMask (by decide) (by omega)]
  omega

/-- `alloc_aligned` finds the aligned address in the block that it takes. -/
theorem allocAligned_owns {s : DriverState} {bs : List Block} {size : ℕ}
    (h : HeapInvariant s.heap bs) (hpos : 0 < size) (hsize : size < 2 ^ 31) :
    ((¬∃ b ∈ bs, b.tag = true ∧ alignUp (size + 4095) minAllocAlign ≤ b.size) ∧
      ∃ s', allocAligned s size 4096 = some (s', 0) ∧ s'.heap = s.heap ∧ s'.gpu = s.gpu) ∨
    ((∃ b ∈ bs, b.tag = true ∧ alignUp (size + 4095) minAllocAlign ≤ b.size) ∧
      ∃ s' b ptr, allocAligned s size 4096 = some (s', ptr) ∧ s'.gpu = s.gpu ∧
        Owns s.heap s'.heap [b] ∧ ptr ≠ 0 ∧ payload b ≤ ptr ∧
        ptr + size ≤ payload b + b.size) := by
  have hrequest : (size + 4096 - 1) % 2 ^ 32 = size + 4095 := Nat.mod_eq_of_lt (by omega)
  have hroom := h.outOfMemory_iff (show size + 4095 ≠ 0 by omega)
  unfold allocAligned
  rw [hrequest]
  rcases DriverState.kmalloc_owns h.owns (show size + 4095 ≠ 0 by omega) (by omega) with
    ⟨hfull, s', hk, hheap, hgpu⟩ | ⟨hfull, s', b, hk, hgpu, howns, hle⟩
  · exact Or.inl ⟨hroom.mp hfull, s', by simp [hk], hheap, hgpu⟩
  have hbounds := howns.bounds (List.mem_cons_self ..)
  have hne := payload_ne_zero b
  obtain ⟨hlow, hhigh⟩ := aligned_bounds (show payload b + 4095 < 2 ^ 64 by omega)
  refine Or.inr ⟨not_not.mp fun hno ↦ hfull (hroom.mpr hno), s', b, _, ?_, hgpu, howns, ?_, hlow,
    ?_⟩
  · rw [hk]
    dsimp only [Option.bind_eq_bind, Option.bind_some]
    rw [if_neg hne]
  · omega
  · omega

theorem virtqueueInitCtrl_owns (regs : RegisterValues) {s : DriverState} {bs : List Block}
    (h : HeapInvariant s.heap bs) (queueIndex : ℕ) :
    (¬RoomForRing regs bs ∧ ∃ s', virtqueueInitCtrl regs s queueIndex = some (s', none) ∧
      s'.heap = s.heap ∧ s'.gpu = s.gpu) ∨
    (RoomForRing regs bs ∧ ∃ s' controlq ring,
      virtqueueInitCtrl regs s queueIndex = some (s', controlq) ∧ s'.gpu = s.gpu ∧
      Owns s.heap s'.heap [ring] ∧ ∀ vq ∈ controlq, QueueIn vq ring) := by
  unfold virtqueueInitCtrl
  dsimp only
  have hq : regs.queueSize.toNat < 2 ^ 16 := regs.queueSize.toNat_lt
  have hused := usedOff_bounds hq
  have hbytes : ringBytes regs.queueSize.toNat =
      usedOff regs.queueSize.toNat + (6 + regs.queueSize.toNat * 8) := rfl
  split
  · next hsmall =>
      exact Or.inl ⟨fun hroom ↦ absurd hroom.1 (by omega), _, rfl, rfl, rfl⟩
  next hlarge =>
  rcases allocAligned_owns (s := s.write [.common 22 queueIndex]) h
      (show 0 < ringBytes regs.queueSize.toNat by omega) (by omega) with
    ⟨hfull, s₂, halloc, hheap, hgpu⟩ | ⟨hroom, s₂, b, ptr, halloc, hgpu, howns, hptr, hlow, hhigh⟩
  · exact Or.inl ⟨fun hroom ↦ hfull hroom.2, s₂, by simp [halloc], hheap, hgpu⟩
  have hbounds := howns.bounds (List.mem_cons_self ..)
  have hcleared := howns.store (only_memset s₂.heap.mem (a := ptr) 0
    (show ptr + ringBytes regs.queueSize.toNat ≤ 2 ^ 64 by omega) fun x hx hx' ↦
    writable_of_mem (List.mem_cons_self ..) (by omega) (by omega))
  rw [halloc]
  dsimp only [Option.bind_eq_bind, Option.bind_some]
  rw [if_neg hptr]
  refine Or.inr ⟨⟨by omega, hroom⟩, _, _, b, rfl, hgpu, hcleared, ?_⟩
  intro vq hvq
  split at hvq
  · simp at hvq
  · obtain rfl := Option.some.inj hvq
    refine ⟨⟨hlow, ?_⟩, ?_, ?_⟩
    · dsimp only
      omega
    · dsimp only
      omega
    · dsimp only [descBytes]
      omega

/-! ## What a failed initialisation leaves behind -/

variable {p : Platform} {s : DriverState} {bs : List Block}

/-- None of the drawing operations changes anything. -/
structure Inert (device : Device) (gpu : Gpu) : Prop where
  drawPixel : ∀ m x y color, virtioGpuDrawPixel gpu m x y color = m
  fillRect : ∀ m x y w h color, virtioGpuFillRect gpu m x y w h color = m
  present : ∀ m, virtioGpuPresent device gpu m = (gpu, m)

theorem inert_of_not_ready (h : gpu.ready = false) : Inert device gpu where
  drawPixel := fun m x y color ↦ by simp [virtioGpuDrawPixel, h]
  fillRect := fun m x y w height color ↦ by simp [virtioGpuFillRect, h]
  present := fun m ↦ by simp [virtioGpuPresent, h]

theorem virtioPciDeviceInit_eq (config : ConfigSpace) (found : VirtioGpuPci) (regs : RegisterValues)
    (s : DriverState) : ∃ s', virtioPciDeviceInit config found regs s =
      (s', decide (regs.deviceStatus.toNat &&& virtioStatusFeaturesOk ≠ 0)) ∧
      s'.heap = s.heap ∧ s'.gpu = s.gpu := by
  unfold virtioPciDeviceInit
  dsimp only
  split
  · next hstatus => exact ⟨_, Prod.ext rfl (by simp [hstatus]), rfl, rfl⟩
  · next hstatus => exact ⟨_, Prod.ext rfl (by simp [hstatus]), rfl, rfl⟩

/-- The device is there, has its capabilities and keeps the features, and the
control queue gets a block. -/
def TakesRing (p : Platform) (s : DriverState) (bs : List Block) : Prop :=
  ∃ found t, findVirtioGpu p.config p.stack = some found ∧
    (virtioPciFindCaps p.config p.addrs found s.paging).2 = some t ∧
    p.regs.deviceStatus.toNat &&& virtioStatusFeaturesOk ≠ 0 ∧ RoomForRing p.regs bs

/-- Either the heap is not touched, or the block of the control queue is
owned at the end. -/
theorem virtioGpuInit_owns (h : HeapInvariant s.heap bs) (htame : Tame p.device s.heap) :
    ∃ s' result, virtioGpuInit p s = some (s', result) ∧
      (result ≠ .complete → s'.gpu.ready = false) ∧
      ((¬TakesRing p s bs ∧ s'.heap = s.heap) ∨
        (TakesRing p s bs ∧ ∃ own ring, Owns s.heap s'.heap own ∧ ring ∈ own)) := by
  unfold virtioGpuInit
  dsimp only [DriverState.print]
  rcases hfound : findVirtioGpu p.config p.stack with _ | found
  · refine ⟨_, _, rfl, fun _ ↦ rfl, Or.inl ⟨?_, rfl⟩⟩
    rintro ⟨found, t, hsome, -⟩
    simp [hfound] at hsome
  dsimp only
  have hunique : ∀ other, findVirtioGpu p.config p.stack = some other → other = found :=
    fun other hother ↦ Option.some.inj (hother.symm.trans hfound)
  rcases hcaps : virtioPciFindCaps p.config p.addrs found s.paging with ⟨paging, _ | t⟩
  · refine ⟨_, _, rfl, fun _ ↦ rfl, Or.inl ⟨?_, rfl⟩⟩
    rintro ⟨other, t, hsome, hmissing, -⟩
    rw [hunique other hsome, hcaps] at hmissing
    cases hmissing
  dsimp only
  generalize hs₂ : ({ heap := s.heap, gpu := _, paging := paging, bus := _, serial := _ } :
    DriverState) = s₂
  have hheap₂ : s₂.heap = s.heap := by rw [← hs₂]
  have hready₂ : s₂.gpu.ready = false := by rw [← hs₂]
  obtain ⟨s₃, hinit, hheap₃, hgpu₃⟩ := virtioPciDeviceInit_eq p.config found p.regs s₂
  rw [hinit]
  rw [hheap₂] at hheap₃
  rw [← hgpu₃] at hready₂
  by_cases hstatus : p.regs.deviceStatus.toNat &&& virtioStatusFeaturesOk = 0
  · simp only [hstatus, ne_eq, not_true_eq_false, decide_false]
    refine ⟨_, _, rfl, fun _ ↦ hready₂, Or.inl ⟨?_, hheap₃⟩⟩
    rintro ⟨-, -, -, -, hkept, -⟩
    exact hkept hstatus
  simp only [hstatus, ne_eq, not_false_eq_true, decide_true]
  rcases virtqueueInitCtrl_owns p.regs (by rwa [hheap₃]) 0 with
    ⟨hroom, s₄, hqueue, hheap₄, hgpu₄⟩ | ⟨hroom, s₄, controlq, ring, hqueue, hgpu₄, howns, hin⟩
  · rw [hqueue]
    refine ⟨_, _, rfl, fun _ ↦ (congrArg Gpu.ready hgpu₄).trans hready₂, Or.inl ⟨?_, ?_⟩⟩
    · rintro ⟨-, -, -, -, -, hring⟩
      exact hroom hring
    · exact hheap₄.trans hheap₃
  have htakes : TakesRing p s bs := ⟨found, t, hfound, by rw [hcaps], hstatus, hroom⟩
  have hready₄ : s₄.gpu.ready = false := (congrArg Gpu.ready hgpu₄).trans hready₂
  rw [hheap₃] at howns
  rw [hqueue]
  rcases controlq with _ | vq
  · exact ⟨_, _, rfl, fun _ ↦ hready₄, Or.inr ⟨htakes, _, ring, howns, List.mem_cons_self ..⟩⟩
  obtain ⟨s', result, own, hdisplay, howns', hring, hready⟩ := setUpDisplay_owns
    (s := s₄.write [.common 20 (p.regs.readyStatus.toNat ||| virtioStatusDriverOk)]) htame howns
    (List.mem_cons_self ..) (hin vq rfl)
  exact ⟨s', result, hdisplay, fun hne ↦ (hready hne).trans hready₄,
    Or.inr ⟨htakes, own, ring, howns', hring⟩⟩

/-- An initialisation that fails leaves the display off; it leaves the live
allocations as they were exactly when the control queue never got a block. -/
theorem virtioGpuInit_releases_iff (h : HeapInvariant s.heap bs) (htame : Tame p.device s.heap) :
    ∃ s' result, virtioGpuInit p s = some (s', result) ∧ (result.ok = false →
      s'.gpu.ready = false ∧ Inert p.device s'.gpu ∧
      (liveAllocations s'.heap = liveAllocations s.heap ↔ ¬TakesRing p s bs)) := by
  obtain ⟨s', result, hinit, hready, hcases⟩ := virtioGpuInit_owns h htame
  refine ⟨s', result, hinit, fun hfailed ↦ ?_⟩
  have hoff := hready (of_decide_eq_false hfailed)
  refine ⟨hoff, inert_of_not_ready hoff, ?_⟩
  rcases hcases with ⟨hnone, hheap⟩ | ⟨htakes, own, ring, howns, hring⟩
  · exact iff_of_true (by rw [hheap]) hnone
  · exact iff_of_false (howns.live_ne hring) (not_not_intro htakes)

/-- A GPU at the first address of the bus with its registers in one memory
BAR: the common configuration at its start, the notifications behind. -/
def sampleConfig : ConfigSpace := fun bus device func offset ↦
  if bus = 0 ∧ device = 0 ∧ func = 0 then
    if offset = 0x00 then 0x10501AF4
    else if offset = 0x04 then 0x00100000
    else if offset = 0x10 then 0xFE000000
    else if offset = 0x34 then 0x40
    else if offset = 0x40 then 0x01105009
    else if offset = 0x50 then 0x02140009
    else if offset = 0x58 then 0x1000
    else 0
  else 0xFFFFFFFF

/-- The device accepts the features and offers a queue of 64 entries that it
does not enable. -/
def samplePlatform : Platform where
  config := sampleConfig
  regs := ⟨0x0B, 64, 0, 0x0B⟩
  device := ⟨fun _ m ↦ m, 0x1000, 0x2000⟩
  addrs := sampleAddrs
  stack := ⟨0, 0, 0, ⟨fun _ ↦ 0, fun _ ↦ 0⟩, 0⟩

def sampleDriver : DriverState where
  heap := sampleHeap
  gpu := ⟨false, 0, 0, 0, ⟨0, 0, 0, 0, 0, 0, 0⟩, 0⟩
  paging := ⟨fun _ ↦ 0, fun _ ↦ 0, fun _ _ ↦ 0, fun _ ↦ 0, 0⟩
  bus := []
  serial := []

theorem sampleDriver_invariant :
    HeapInvariant sampleDriver.heap [⟨0x110000, 16777200, true⟩] :=
  heapInvariant_memoryInit ⟨by norm_num, by norm_num⟩ fun _ ↦ 0

theorem samplePlatform_tame : Tame samplePlatform.device sampleDriver.heap where
  cmd_fit := by decide
  cmd := Or.inl (by decide)
  resp_fit := by decide
  resp := Or.inl (by decide)
  serve := fun _ _ _ _ _ _ ↦ rfl

theorem virtioGpuInit_releases_sample :
    ∃ s' result, virtioGpuInit samplePlatform sampleDriver = some (s', result) ∧
      (result.ok = false → s'.gpu.ready = false ∧ Inert samplePlatform.device s'.gpu ∧
      (liveAllocations s'.heap = liveAllocations sampleDriver.heap ↔
        ¬TakesRing samplePlatform sampleDriver [⟨0x110000, 16777200, true⟩])) :=
  virtioGpuInit_releases_iff sampleDriver_invariant samplePlatform_tame

theorem disabled_queue_leaks :
    ∃ s', virtioGpuInit samplePlatform sampleDriver = some (s', .queueInitFailed) ∧
      liveAllocations s'.heap ≠ liveAllocations sampleDriver.heap := by
  obtain ⟨s', result, hinit, -, hcases⟩ :=
    virtioGpuInit_owns sampleDriver_invariant samplePlatform_tame
  have hresult : (virtioGpuInit samplePlatform sampleDriver).map Prod.snd =
      some .queueInitFailed := by decide +kernel
  have htakes : TakesRing samplePlatform sampleDriver [⟨0x110000, 16777200, true⟩] :=
    ⟨_, _, rfl, rfl, by decide, by decide, _, List.mem_cons_self .., rfl, by decide⟩
  rw [hinit] at hresult
  obtain rfl := Option.some.inj hresult
  rcases hcases with ⟨hnone, -⟩ | ⟨-, own, ring, howns, hring⟩
  · exact absurd htakes hnone
  · exact ⟨s', hinit, howns.live_ne hring⟩

end ImplusKernel.VirtIO
