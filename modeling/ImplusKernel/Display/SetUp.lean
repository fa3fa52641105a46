import ImplusKernel.Display.Screen

/-!
# Setting up the display

Once the control queue works, `virtio_gpu_init` asks the adapter for its size,
takes a frame buffer from the heap and makes it the backing of a resource that
is shown.  The adapter then shows what is presented, and nothing before that.
-/

namespace ImplusKernel.VirtIO

open ByteMemory GpuHost Heap Userland

variable {device : Device} {hostOf : Mem → Host} {gpu : Gpu} {m m' : Mem}

/-! ## The three commands -/

/-- The commands that `virtio_gpu_init` sends once it has a frame buffer. -/
def setUpCommands (device : Device) (fb width height : ℕ) :
    List ((Gpu → Mem → Gpu × Mem × Bool) × InitResult) :=
  [(gpuCmdResourceCreate2d device width height, .createFailed),
    (gpuCmdResourceAttachBacking device fb (width * height * 4), .attachFailed),
    (gpuCmdSetScanout device width height, .scanoutFailed)]

/-- The statics once the set-up is complete. -/
def Gpu.completed (gpu : Gpu) (fb width height : ℕ) : Gpu :=
  { gpu with ready := true, width := width, height := height, fb := fb }

def Picture.black : Picture := ⟨fun _ _ ↦ 0, fun _ _ ↦ 0⟩

/-- A queue and a cleared frame buffer, and an adapter that has no resource yet. -/
structure Prepared (device : Device) (hostOf : Mem → Host) (gpu : Gpu) (m : Mem)
    (fb width height : ℕ) : Prop where
  laid : Laid device gpu.controlq
  conforms : Conforms device gpu.controlq.queue hostOf
  synced : Synced gpu.controlq (hostOf m)
  unused : (hostOf m).resources gpuResourceId = none
  width_pos : 0 < width
  height_pos : 0 < height
  bytes : width * height * 4 < 2 ^ 32
  fb_ne : fb ≠ 0
  fb_fit : fb + 4 * (width * height) ≤ 2 ^ 64
  apart : ∀ x, fb ≤ x → x < fb + 4 * (width * height) → ¬Work device gpu.controlq x
  cleared : ∀ x, fb ≤ x → x < fb + 4 * (width * height) → m x = 0

section SetUp

variable {fb width height : ℕ}

theorem Prepared.width_lt (h : Prepared device hostOf gpu m fb width height) :
    width < 2 ^ 32 := by
  have hbytes := h.bytes
  have hle := Nat.le_mul_of_pos_right width h.height_pos
  omega

theorem Prepared.height_lt (h : Prepared device hostOf gpu m fb width height) :
    height < 2 ^ 32 := by
  have hbytes := h.bytes
  have hle := Nat.le_mul_of_pos_left height h.width_pos
  omega

theorem Prepared.ready (h : Prepared device hostOf gpu m fb width height) (gpu' : Gpu) :
    ReadyDisplay (gpu'.completed fb width height) :=
  ⟨rfl, h.fb_ne, h.width_lt, h.height_lt, h.fb_fit⟩

theorem create_step (h : Prepared device hostOf gpu m fb width height) :
    ∃ m', gpuCmdResourceCreate2d device width height gpu m =
        (gpu.counted (((hostOf m).served + 1) % 2 ^ 16), m', true) ∧
      CommandAnswered device hostOf gpu m 24 ((hostOf m).setResource gpuResourceId
        ⟨width, height, none, fun _ _ ↦ 0⟩, okNodata) m' := by
  have hdecode := decode_create h.laid m h.width_lt h.height_lt
  have hexecute : execute (hostOf m)
      (noticed device gpu.controlq m 40 24 (createFields width height))
      (.create gpuResourceId virtioGpuFormatB8g8r8x8Unorm width height) =
      ((hostOf m).setResource gpuResourceId ⟨width, height, none, fun _ _ ↦ 0⟩, okNodata) := by
    have hw := h.width_pos.ne'
    have hh := h.height_pos.ne'
    have hunused : (hostOf m).resources 1 = none := h.unused
    simp [execute, hunused, hw, hh, gpuResourceId, virtioGpuFormatB8g8r8x8Unorm, formats]
  exact submitNodata_ok h.laid h.conforms h.synced (framed_create width height) hdecode hexecute

theorem attach_step (fb : ℕ) (hlaid : Laid device gpu.controlq)
    (hconf : Conforms device gpu.controlq.queue hostOf) (hsync : Synced gpu.controlq (hostOf m))
    {pixel : ℕ → ℕ → ℕ} {bytes : ℕ} (hfb : fb < 2 ^ 64) (hbytes : bytes < 2 ^ 32)
    (hs : (hostOf m).resources gpuResourceId = some ⟨width, height, none, pixel⟩) :
    ∃ m', gpuCmdResourceAttachBacking device fb bytes gpu m =
        (gpu.counted (((hostOf m).served + 1) % 2 ^ 16), m', true) ∧
      CommandAnswered device hostOf gpu m 24 ((hostOf m).setResource gpuResourceId
        ⟨width, height, some (fb, bytes), pixel⟩, okNodata) m' := by
  have hdecode := decode_attach hlaid m hfb hbytes
  have hexecute : execute (hostOf m)
      (noticed device gpu.controlq m 48 24 (attachFields fb bytes))
      (.attach gpuResourceId fb bytes) =
      ((hostOf m).setResource gpuResourceId ⟨width, height, some (fb, bytes), pixel⟩,
        okNodata) := by
    simp [execute, hs]
  exact submitNodata_ok hlaid hconf hsync (framed_attach fb bytes) hdecode hexecute

theorem scanout_step (hlaid : Laid device gpu.controlq)
    (hconf : Conforms device gpu.controlq.queue hostOf) (hsync : Synced gpu.controlq (hostOf m))
    {backing : Option (ℕ × ℕ)} {pixel : ℕ → ℕ → ℕ} (hwidth : width < 2 ^ 32)
    (hheight : height < 2 ^ 32)
    (hs : (hostOf m).resources gpuResourceId = some ⟨width, height, backing, pixel⟩) :
    ∃ m', gpuCmdSetScanout device width height gpu m =
        (gpu.counted (((hostOf m).served + 1) % 2 ^ 16), m', true) ∧
      CommandAnswered device hostOf gpu m 24 (Host.shown { hostOf m with
        scanout := some ⟨gpuResourceId, ⟨0, 0, width, height⟩⟩ } ⟨width, height, backing, pixel⟩
        ⟨0, 0, width, height⟩ ⟨0, 0, width, height⟩, okNodata) m' := by
  have hdecode := decode_scanout hlaid m hwidth hheight
  have hexecute : execute (hostOf m)
      (noticed device gpu.controlq m 48 24 (scanoutFields width height))
      (.setScanout ⟨0, 0, width, height⟩ gpuScanoutId gpuResourceId) =
      (Host.shown { hostOf m with
        scanout := some ⟨gpuResourceId, ⟨0, 0, width, height⟩⟩ } ⟨width, height, backing, pixel⟩
        ⟨0, 0, width, height⟩ ⟨0, 0, width, height⟩, okNodata) := by
    have hid : gpuResourceId ≠ 0 := by decide
    simp [execute, hs, hid, gpuScanoutId, Resource.Fits]
  exact submitNodata_ok hlaid hconf hsync (framed_scanout width height) hdecode hexecute

theorem readLE_eq_zero {m : Mem} {a n : ℕ} (h : ∀ x, a ≤ x → x < a + n → m x = 0) :
    readLE m a n = 0 := by
  induction n generalizing a with
  | zero => rfl
  | succ n ih =>
      have htail : readLE m (a + 1) n = 0 := ih fun x hlow hhigh ↦ h x (by omega) (by omega)
      rw [readLE, htail, h a le_rfl (by omega)]
      rfl

/-- None of the three commands fails, and they leave a black screen over a
black frame buffer. -/
theorem setUp_shows (h : Prepared device hostOf gpu m fb width height) :
    ∃ gpu' m', runCommands (setUpCommands device fb width height) gpu m =
        (gpu', m', .complete) ∧
      Showing device hostOf (gpu'.completed fb width height) m' ∧
      Depicts hostOf (gpu'.completed fb width height) m' .black := by
  have hfit := h.fb_fit
  have hpos : 0 < width * height := Nat.mul_pos h.width_pos h.height_pos
  obtain ⟨m₁, hcreate, ha₁⟩ := create_step h
  have hs₁ : (hostOf m₁).resources gpuResourceId = some ⟨width, height, none, fun _ _ ↦ 0⟩ := by
    rw [ha₁.host]
    exact Host.setResource_self (hostOf m) gpuResourceId _
  obtain ⟨m₂, hattach, ha₂⟩ := attach_step fb (laid_counted h.laid _) h.conforms ha₁.synced
    (by omega) h.bytes hs₁
  have hs₂ : (hostOf m₂).resources gpuResourceId =
      some ⟨width, height, some (fb, width * height * 4), fun _ _ ↦ 0⟩ := by
    rw [ha₂.host]
    exact Host.setResource_self (hostOf m₁) gpuResourceId _
  obtain ⟨m₃, hscanout, ha₃⟩ := scanout_step (laid_counted (laid_counted h.laid _) _) h.conforms
    ha₂.synced h.width_lt h.height_lt hs₂
  refine ⟨((gpu.counted (((hostOf m).served + 1) % 2 ^ 16)).counted
    (((hostOf m₁).served + 1) % 2 ^ 16)).counted (((hostOf m₂).served + 1) % 2 ^ 16),
    m₃, ?_, ?_, ?_⟩
  · simp only [setUpCommands, runCommands, hcreate, hattach]
    rw [hscanout]
  · refine ⟨h.ready _, laid_counted (laid_counted (laid_counted h.laid _) _) _, h.conforms,
      ha₃.synced, fun x hx ↦ h.apart x hx.1 hx.2, ⟨fun _ _ ↦ 0, ?_⟩, ?_⟩
    · rw [ha₃.host]
      change (hostOf m₂).resources gpuResourceId = _
      rw [hs₂, Nat.mul_comm (width * height)]
      rfl
    · rw [ha₃.host]
      rfl
  · constructor
    · intro i j hi hj
      have hlt := pixel_lt hi hj
      change j * width + i < width * height at hlt
      apply readLE_eq_zero
      intro x hlow hhigh
      change fb + 4 * (j * width + i) ≤ x at hlow
      change x < fb + 4 * (j * width + i) + 4 at hhigh
      have hin := h.apart x (by omega) (by omega)
      -- the frame buffer lies outside what the commands write to
      rw [ha₃.only x hin, ha₂.only x hin, ha₁.only x hin]
      exact h.cleared x (by omega) (by omega)
    · intro i j hi hj
      change i < width at hi
      change j < height at hj
      rw [ha₃.host]
      simp [Host.setServed, Host.shown, Rect.Contains, Picture.black, hi, hj]

/-! ## With the heap -/

/-- The queue is set up, an adapter without a resource serves it, and none of
what the two work on is free memory of the heap. -/
structure Connected (device : Device) (hostOf : Mem → Host) (gpu : Gpu) (heap : MemoryState) :
    Prop where
  laid : Laid device gpu.controlq
  conforms : Conforms device gpu.controlq.queue hostOf
  synced : Synced gpu.controlq (hostOf heap.mem)
  unused : (hostOf heap.mem).resources gpuResourceId = none
  work : ∀ x, Work device gpu.controlq x → ClientByte heap x

/-- The new block is apart from all that, and clearing it does not reach the
adapter. -/
theorem Connected.prepared {heap heap' : MemoryState} {bs : List Block}
    (h : Connected device hostOf gpu heap) (hinv : HeapInvariant heap bs)
    (hwidth : 0 < width) (hheight : 0 < height) (hcount : width * height ≤ 64 * 1024 * 1024)
    (hcall : kmalloc heap (width * height * 4) = some (heap', .block fb)) (hfb : fb ≠ 0) :
    Prepared device hostOf gpu (memset heap'.mem fb 0 (width * height * 4)) fb width height := by
  have hpos : 0 < width * height := Nat.mul_pos hwidth hheight
  obtain ⟨hkeeps, hblock⟩ := hinv.keeps_kmalloc (by omega) (by omega) hcall
  obtain ⟨hfit, hnew⟩ := hblock hfb
  change fb + width * height * 4 ≤ 2 ^ 64 at hfit
  change ∀ x, fb ≤ x → x < fb + width * height * 4 → _ at hnew
  have hhost : hostOf (memset heap'.mem fb 0 (width * height * 4)) = hostOf heap.mem := by
    apply h.conforms.own
    intro x hx
    have hclient := h.work x (Or.inr (Or.inr (Or.inr hx)))
    rw [memset_outside heap'.mem 0 hfit (Or.inr (by omega))]
    exact hkeeps.kept x hclient id
  refine ⟨h.laid, h.conforms, ?_, ?_, hwidth, hheight, by omega, hfb, by omega, ?_, ?_⟩
  · rw [hhost]
    exact h.synced
  · rw [hhost]
    exact h.unused
  · intro x hlow hhigh hwork
    exact (hnew x hlow (by omega)).2 (h.work x hwork)
  · intro x hlow hhigh
    exact memset_inside heap'.mem 0 hfit hlow (by omega)

/-- With room for the frame buffer `virtio_gpu_init` comes to its end. -/
theorem setUpFramebuffer_shows {s : DriverState} {bs : List Block}
    (hinv : HeapInvariant s.heap bs) (h : Connected device hostOf gpu s.heap)
    (hwidth : 0 < width) (hheight : 0 < height) (hcount : width * height ≤ 64 * 1024 * 1024)
    (hroom : ∃ b ∈ bs, b.tag = true ∧ alignUp (width * height * 4) minAllocAlign ≤ b.size) :
    ∃ s', setUpFramebuffer device s gpu width height = some (s', .complete) ∧
      s'.gpu.width = width ∧ s'.gpu.height = height ∧
      Showing device hostOf s'.gpu s'.heap.mem ∧ Depicts hostOf s'.gpu s'.heap.mem .black := by
  have hpos : 0 < width * height := Nat.mul_pos hwidth hheight
  have hbytes : width * height * 4 % 2 ^ 32 = width * height * 4 := Nat.mod_eq_of_lt (by omega)
  have hsize : ¬(width * height = 0 ∨ 64 * 1024 * 1024 < width * height) := by omega
  rcases kmalloc_spec hinv (show width * height * 4 ≠ 0 by omega) with
    ⟨pre, b, post, -, -, -, hcall⟩ | ⟨hnone, -⟩
  swap
  · obtain ⟨b, hb, htag, hfit⟩ := hroom
    exact absurd (hnone b hb htag) (not_lt.mpr hfit)
  have hfb := payload_ne_zero b
  obtain ⟨gpu', m', hrun, hshowing, hblack⟩ :=
    setUp_shows (h.prepared hinv hwidth hheight hcount hcall hfb)
  have hkmalloc : s.kmalloc (width * height * 4) = some ({ s with
      heap := allocated s.heap b (alignUp (width * height * 4) minAllocAlign) post,
      serial := s.serial ++ (KmallocResult.block (payload b)).serial }, payload b) := by
    simp [DriverState.kmalloc, hcall, KmallocResult.ptr]
  rw [setUpCommands] at hrun
  simp only [setUpFramebuffer, if_neg hsize, hbytes, hkmalloc, Option.bind_eq_bind,
    Option.bind_some, if_neg hfb, hrun, if_true]
  exact ⟨_, rfl, rfl, rfl, hshowing, hblack⟩

theorem info_step (hlaid : Laid device gpu.controlq)
    (hconf : Conforms device gpu.controlq.queue hostOf) (hsync : Synced gpu.controlq (hostOf m))
    (hmode : (hostOf m).mode = (width, height)) (hwidth : 0 < width) (hheight : 0 < height)
    (hwidth' : width < 2 ^ 32) (hheight' : height < 2 ^ 32) :
    ∃ m', gpuCmdGetDisplayInfo device gpu m =
        (gpu.counted (((hostOf m).served + 1) % 2 ^ 16), m', some (width, height)) ∧
      CommandAnswered device hostOf gpu m 408 (hostOf m, okDisplayInfo) m' := by
  obtain ⟨m', hsubmit, hanswer⟩ := submitCmd_answered hlaid hconf hsync framed_info
  rw [decode_info hlaid m] at hanswer
  change CommandAnswered device hostOf gpu m 408 (hostOf m, okDisplayInfo) m' at hanswer
  have hstatus : readLE m' device.resp 4 = virtioGpuRespOkDisplayInfo :=
    hanswer.reply 0 4 okDisplayInfo (by simp [responseFields]) (by decide)
  have hmodes := mem_responseFields_mode (hostOf m)
  rw [hmode] at hmodes
  have hw : readLE m' (device.resp + 32) 4 = width := by
    rw [hanswer.reply 32 4 width hmodes.1 (by decide)]
    exact Nat.mod_eq_of_lt hwidth'
  have hh : readLE m' (device.resp + 36) 4 = height := by
    rw [hanswer.reply 36 4 height hmodes.2 (by decide)]
    exact Nat.mod_eq_of_lt hheight'
  refine ⟨m', ?_, hanswer⟩
  have hsize : ¬(width = 0 ∨ height = 0) := by omega
  simp only [gpuCmdGetDisplayInfo, hsubmit, hstatus, hw, hh, if_neg hsize]
  rfl

/-- A command to the adapter leaves the heap as it is. -/
theorem Connected.answered {heap : MemoryState} {bs : List Block}
    (h : Connected device hostOf gpu heap) (hinv : HeapInvariant heap bs) {respLen status : ℕ}
    (ha : CommandAnswered device hostOf gpu heap.mem respLen (hostOf heap.mem, status) m') :
    HeapInvariant { heap with mem := m' } bs ∧
      Connected device hostOf (gpu.counted (((hostOf heap.mem).served + 1) % 2 ^ 16))
        { heap with mem := m' } := by
  have hkeeps := hinv.keeps_store h.work ha.only
  refine ⟨hinv.clientStore h.work ha.only, laid_counted h.laid _, h.conforms, ha.synced, ?_,
    fun x hx ↦ hkeeps.client x (h.work x hx)⟩
  rw [ha.host]
  exact h.unused

/-- With room for the frame buffer the set-up of the display succeeds, with
every adapter that keeps to the protocol, and takes the size that the adapter
has.  From then on the display is a canvas and a screen that were black at the
beginning. -/
theorem setUpDisplay_refines {s : DriverState} {controlq : Virtqueue} {bs : List Block}
    (hinv : HeapInvariant s.heap bs)
    (h : Connected device hostOf { s.gpu with controlq := controlq } s.heap)
    (hmode : (hostOf s.heap.mem).mode = (width, height))
    (hwidth : 0 < width) (hheight : 0 < height) (hcount : width * height ≤ 64 * 1024 * 1024)
    (hroom : ∃ b ∈ bs, b.tag = true ∧ alignUp (width * height * 4) minAllocAlign ≤ b.size) :
    ∃ s', setUpDisplay device s controlq = some (s', .complete) ∧
      s'.gpu.width = width ∧ s'.gpu.height = height ∧
      ∀ calls gpu' m', DisplayRun device s'.gpu s'.heap.mem calls gpu' m' →
        ∀ i j, i < width → j < height →
          (pictureOf hostOf gpu' m').canvas i j = (drawAll calls .black).canvas i j ∧
          (pictureOf hostOf gpu' m').shown i j = (drawAll calls .black).shown i j := by
  have hw := Nat.le_mul_of_pos_right width hheight
  have hh := Nat.le_mul_of_pos_left height hwidth
  obtain ⟨m₁, hinfo, hanswer⟩ := info_step h.laid h.conforms h.synced hmode hwidth hheight
    (by omega) (by omega)
  obtain ⟨hinv₁, h₁⟩ := h.answered hinv hanswer
  obtain ⟨s', hsetup, hwidth', hheight', hshowing, hblack⟩ := setUpFramebuffer_shows
    (s := s.after _ m₁) hinv₁ h₁ hwidth hheight hcount hroom
  refine ⟨s', ?_, hwidth', hheight', fun calls gpu' m' hcalls i j hi hj ↦ ?_⟩
  · simp only [setUpDisplay, hinfo, Option.getD_some]
    exact hsetup
  · rw [← hwidth'] at hi
    rw [← hheight'] at hj
    exact hcalls.picture hshowing hblack hi hj

end SetUp

/-- The adapter of the sample before anything is set up. -/
def idleHost : Host := { sampleHost with resources := fun _ ↦ none, scanout := none }

/-- The heap after the start, with the idle adapter beyond it. -/
noncomputable def idleDriver : DriverState :=
  { sampleDriver with
    heap := { sampleHeap with mem := withHost idleHost sampleHeap.mem } }

theorem idleDriver_invariant :
    HeapInvariant idleDriver.heap [⟨0x110000, 16777200, true⟩] := by
  refine sampleDriver_invariant.clientStore (w := fun x ↦ 2 ^ 64 ≤ x) (fun x hx ↦ ?_)
    fun x hx ↦ if_pos (not_le.mp hx)
  have hend : sampleDriver.heap.heapStart + heapBytes ≤ 2 ^ 64 := by decide
  exact Or.inr (Or.inl (hend.trans hx))

theorem idleDriver_connected : Connected sampleAdapter hostAt
    { idleDriver.gpu with controlq := sampleGpu.controlq } idleDriver.heap := by
  have hhost : hostAt idleDriver.heap.mem = idleHost := hostAt_withHost _ _
  refine ⟨showing_sampleGpu.laid, adapter_conforms _ _ _, ?_, ?_, ?_⟩
  · rw [hhost]
    exact ⟨by decide, rfl, rfl⟩
  · rw [hhost]
    rfl
  · intro x hwork
    change (0x4000 ≤ x ∧ x < 0x4000 + 56) ∨ (0x5000 ≤ x ∧ x < 0x5000 + 408) ∨
      (0x3000 ≤ x ∧ x < 0x3028 + 4 + 8 * 2) ∨ 2 ^ 64 ≤ x at hwork
    have hstart : idleDriver.heap.heapStart = 0x110000 := rfl
    have hbytes : heapBytes = 0x1000000 := rfl
    have hout : x < idleDriver.heap.heapStart ∨ idleDriver.heap.heapStart + heapBytes ≤ x := by
      omega
    exact hout.elim Or.inl fun hx ↦ Or.inr (Or.inl hx)

theorem setUpDisplay_refines_idleDriver :
    ∃ s', setUpDisplay sampleAdapter idleDriver sampleGpu.controlq = some (s', .complete) ∧
      ∃ gpu m, DisplayRun sampleAdapter s'.gpu s'.heap.mem [.pixel 1 0 0xFF0000, .present] gpu m ∧
        (pictureOf hostAt gpu m).shown 1 0 = 0xFF0000 ∧
        (pictureOf hostAt gpu m).shown 0 0 = 0 := by
  have hmode : (hostAt idleDriver.heap.mem).mode = (2, 2) :=
    congrArg Host.mode (hostAt_withHost idleHost sampleHeap.mem)
  obtain ⟨s', hsetup, -, -, hrefines⟩ := setUpDisplay_refines idleDriver_invariant
    idleDriver_connected hmode (by decide) (by decide) (by decide)
    ⟨_, List.mem_cons_self .., rfl, by decide⟩
  have hstart : DisplayRun sampleAdapter s'.gpu s'.heap.mem [] s'.gpu s'.heap.mem := .start
  have hrun := (hstart.call (.pixel 1 0 0xFF0000)).call .present
  refine ⟨s', hsetup, _, _, hrun, ?_, ?_⟩
  · exact (hrefines _ _ _ hrun 1 0 (by decide) (by decide)).2.trans rfl
  · exact (hrefines _ _ _ hrun 0 0 (by decide) (by decide)).2.trans rfl

end ImplusKernel.VirtIO
