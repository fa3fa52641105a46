import ImplusKernel.Display.Commands
import ImplusKernel.Userland.Drawing

/-!
# What the screen shows

Drawing changes the frame buffer only; the screen follows when the picture is
presented.  Between the two lie the queue, the commands on the stack and the
adapter with its copy of the picture.  Seen from outside, all this is a canvas
and a screen.
-/

namespace ImplusKernel.VirtIO

open ByteMemory GpuHost Userland

/-! ## The display from outside -/

structure Picture where
  canvas : ℕ → ℕ → ℕ
  shown : ℕ → ℕ → ℕ

inductive DrawCall
  | pixel (x y color : UInt32)
  | rect (x y w h color : UInt32)
  | present
deriving DecidableEq, Repr

def DrawCall.draw : DrawCall → Picture → Picture
  | .pixel x y color, p =>
      { p with canvas := fun i j ↦
          if i = x.toNat ∧ j = y.toNat then color.toNat else p.canvas i j }
  | .rect x y w h color, p =>
      { p with canvas := fun i j ↦
          if InRect x.toNat y.toNat w.toNat h.toNat i j then color.toNat else p.canvas i j }
  | .present, p => { p with shown := p.canvas }

def drawAll (calls : List DrawCall) (p : Picture) : Picture :=
  calls.foldl (fun p c ↦ c.draw p) p

/-! ## The driver -/

def DrawCall.perform (device : Device) (gpu : Gpu) (m : Mem) : DrawCall → Gpu × Mem
  | .pixel x y color => (gpu, virtioGpuDrawPixel gpu m x.toNat y.toNat color.toNat)
  | .rect x y w h color =>
      (gpu, virtioGpuFillRect gpu m x.toNat y.toNat w.toNat h.toNat color.toNat)
  | .present => virtioGpuPresent device gpu m

def PixelByte (gpu : Gpu) (x : ℕ) : Prop :=
  gpu.fb ≤ x ∧ x < gpu.fb + 4 * (gpu.width * gpu.height)

/-- Calls of the driver in any order.  Between them the rest of the kernel may
store anywhere but to the frame buffer. -/
inductive DisplayRun (device : Device) (gpu₀ : Gpu) (m₀ : Mem) : List DrawCall → Gpu → Mem → Prop
  | start : DisplayRun device gpu₀ m₀ [] gpu₀ m₀
  | call {calls : List DrawCall} {gpu : Gpu} {m : Mem} (h : DisplayRun device gpu₀ m₀ calls gpu m)
      (c : DrawCall) :
      DisplayRun device gpu₀ m₀ (calls ++ [c]) (c.perform device gpu m).1
        (c.perform device gpu m).2
  | elsewhere {calls : List DrawCall} {gpu : Gpu} {m m' : Mem}
      (h : DisplayRun device gpu₀ m₀ calls gpu m)
      (hm : Only (fun x ↦ x < 2 ^ 64 ∧ ¬PixelByte gpu x) m m') :
      DisplayRun device gpu₀ m₀ calls gpu m'

/-- The adapter shows a resource as large as the frame buffer, which lies
behind it. -/
structure Showing (device : Device) (hostOf : Mem → Host) (gpu : Gpu) (m : Mem) : Prop where
  ready : ReadyDisplay gpu
  laid : Laid device gpu.controlq
  conforms : Conforms device gpu.controlq.queue hostOf
  synced : Synced gpu.controlq (hostOf m)
  pixels : ∀ x, PixelByte gpu x → ¬Work device gpu.controlq x
  resource : ∃ pixel, (hostOf m).resources gpuResourceId =
    some ⟨gpu.width, gpu.height, some (gpu.fb, 4 * (gpu.width * gpu.height)), pixel⟩
  scanout : (hostOf m).scanout = some ⟨gpuResourceId, ⟨0, 0, gpu.width, gpu.height⟩⟩

variable {device : Device} {hostOf : Mem → Host} {gpu : Gpu} {m m' : Mem} {i j : ℕ}

/-- Stores that reach neither the adapter nor the counters keep the display. -/
theorem Showing.congr (h : Showing device hostOf gpu m) (hm : ∀ x, 2 ^ 64 ≤ x → m' x = m x) :
    Showing device hostOf gpu m' := by
  have hhost := h.conforms.own m m' hm
  refine ⟨h.ready, h.laid, h.conforms, ?_, h.pixels, ?_, ?_⟩
  · rw [hhost]
    exact h.synced
  · rw [hhost]
    exact h.resource
  · rw [hhost]
    exact h.scanout

/-! ## Drawing -/

theorem fbWord_congr (hm : ∀ x, PixelByte gpu x → m' x = m x)
    (hi : i < gpu.width) (hj : j < gpu.height) :
    fbWord gpu m' (j * gpu.width + i) = fbWord gpu m (j * gpu.width + i) := by
  have hlt := pixel_lt hi hj
  apply readLE_congr
  intro x hlow hhigh
  exact hm x ⟨by omega, by omega⟩

theorem virtioGpuDrawPixel_eq_fill (hgpu : ReadyDisplay gpu) (m : Mem) (x y color : ℕ) :
    virtioGpuDrawPixel gpu m x y color =
      WordArray.fill m gpu.fb color (drawnIndices gpu [(x, y)]) :=
  foldl_virtioGpuDrawPixel hgpu color [(x, y)] m

theorem fill_beyond (hgpu : ReadyDisplay gpu) {indices : List ℕ} (color : ℕ)
    (hlt : ∀ i ∈ indices, i < gpu.width * gpu.height) {x : ℕ} (hx : 2 ^ 64 ≤ x) :
    WordArray.fill m gpu.fb color indices x = m x := by
  have hfit := hgpu.fb_fit
  apply WordArray.fill_outside hfit hlt
  intro k hk
  have := hlt k hk
  omega

theorem drawnIndices_lt (points : List (ℕ × ℕ)) :
    ∀ k ∈ drawnIndices gpu points, k < gpu.width * gpu.height := by
  intro k hk
  obtain ⟨px, py, hpx, hpy, -, rfl⟩ := (mem_drawnIndices_iff points k).mp hk
  exact pixel_lt hpx hpy

theorem fbWord_drawPixel (hgpu : ReadyDisplay gpu) (m : Mem) (x y color : UInt32)
    (hi : i < gpu.width) (hj : j < gpu.height) :
    fbWord gpu (virtioGpuDrawPixel gpu m x.toNat y.toNat color.toNat) (j * gpu.width + i) =
      if i = x.toNat ∧ j = y.toNat then color.toNat else fbWord gpu m (j * gpu.width + i) := by
  have hpoint : j * gpu.width + i ∈ drawnIndices gpu [(x.toNat, y.toNat)] ↔
      i = x.toNat ∧ j = y.toNat := by
    rw [mem_drawnIndices_iff]
    constructor
    · rintro ⟨px, py, hpx, -, hpt, heq⟩
      obtain ⟨rfl, rfl⟩ := row_inj hi hpx heq
      simpa using hpt
    · rintro ⟨rfl, rfl⟩
      exact ⟨_, _, hi, hj, by simp, rfl⟩
  rw [virtioGpuDrawPixel_eq_fill hgpu, fbWord,
    WordArray.readLE_fill hgpu.fb_fit (drawnIndices_lt _), Nat.mod_eq_of_lt color.toNat_lt]
  simp only [hpoint]
  rfl

theorem fbWord_fillRect (hgpu : ReadyDisplay gpu) (m : Mem) (x y w h color : UInt32)
    (hi : i < gpu.width) (hj : j < gpu.height) :
    fbWord gpu (virtioGpuFillRect gpu m x.toNat y.toNat w.toNat h.toNat color.toNat)
        (j * gpu.width + i) =
      if InRect x.toNat y.toNat w.toNat h.toNat i j then color.toNat
      else fbWord gpu m (j * gpu.width + i) := by
  have hmem := mem_fillIndices_iff (x := x.toNat) (y := y.toNat) hgpu w.toNat_lt h.toNat_lt
  have hpoint : j * gpu.width + i ∈ fillIndices gpu x.toNat y.toNat w.toNat h.toNat ↔
      InRect x.toNat y.toNat w.toNat h.toNat i j := by
    rw [hmem]
    constructor
    · rintro ⟨px, py, hpx, -, hin, heq⟩
      obtain ⟨rfl, rfl⟩ := row_inj hi hpx heq
      exact hin
    · exact fun hin ↦ ⟨i, j, hi, hj, hin, rfl⟩
  rw [virtioGpuFillRect_eq_fill hgpu, fbWord,
    WordArray.readLE_fill hgpu.fb_fit (fillIndices_lt hgpu w.toNat_lt h.toNat_lt),
    Nat.mod_eq_of_lt color.toNat_lt]
  simp only [hpoint]
  rfl

/-! ## Presenting -/

theorem laid_counted (h : Laid device gpu.controlq) (n : ℕ) :
    Laid device (gpu.counted n).controlq :=
  ⟨h.size, h.avail, h.used, h.fits, h.cmd_fits, h.resp_fits, h.cmd_resp, h.cmd_queue, h.resp_queue⟩

theorem ready_counted (h : ReadyDisplay gpu) (n : ℕ) : ReadyDisplay (gpu.counted n) :=
  ⟨h.ready, h.fb_ne, h.width_lt, h.height_lt, h.fb_fit⟩

/-- A command that is answered, with an adapter that still shows the same. -/
theorem Showing.answered (h : Showing device hostOf gpu m) {respLen : ℕ} {answer : Host × ℕ}
    (ha : CommandAnswered device hostOf gpu m respLen answer m')
    (hresource : ∃ pixel, answer.1.resources gpuResourceId =
      some ⟨gpu.width, gpu.height, some (gpu.fb, 4 * (gpu.width * gpu.height)), pixel⟩)
    (hscanout : answer.1.scanout = some ⟨gpuResourceId, ⟨0, 0, gpu.width, gpu.height⟩⟩) :
    Showing device hostOf (gpu.counted (((hostOf m).served + 1) % 2 ^ 16)) m' := by
  refine ⟨ready_counted h.ready _, laid_counted h.laid _, h.conforms, ha.synced, h.pixels, ?_, ?_⟩
  · rw [ha.host]
    exact hresource
  · rw [ha.host]
    exact hscanout

theorem CommandAnswered.pixels {respLen : ℕ} {answer : Host × ℕ} (h : Showing device hostOf gpu m)
    (ha : CommandAnswered device hostOf gpu m respLen answer m') :
    ∀ x, PixelByte gpu x → m' x = m x :=
  fun x hx ↦ ha.only x (h.pixels x hx)

/-- The first command copies the frame buffer to the resource. -/
theorem transfer_step (h : Showing device hostOf gpu m) :
    ∃ m', gpuCmdTransferToHost2d device gpu m =
        (gpu.counted (((hostOf m).served + 1) % 2 ^ 16), m', true) ∧
      Showing device hostOf (gpu.counted (((hostOf m).served + 1) % 2 ^ 16)) m' ∧
      (∀ x, PixelByte gpu x → m' x = m x) ∧
      ∃ s, (hostOf m').resources gpuResourceId = some s ∧ ∀ i j, i < gpu.width → j < gpu.height →
        s.pixel i j = fbWord gpu m (j * gpu.width + i) := by
  obtain ⟨pixel, hresource⟩ := h.resource
  have hframed := framed_transfer gpu.width gpu.height
  have hdecode := decode_transfer h.laid m h.ready.width_lt h.ready.height_lt
  set M := noticed device gpu.controlq m 56 24
    (transferFields gpu.width gpu.height) with hM
  have hexecute : execute (hostOf m) M (.transfer ⟨0, 0, gpu.width, gpu.height⟩ 0 gpuResourceId) =
      ((hostOf m).setResource gpuResourceId (Resource.transferred ⟨gpu.width, gpu.height,
        some (gpu.fb, 4 * (gpu.width * gpu.height)), pixel⟩ M gpu.fb
        ⟨0, 0, gpu.width, gpu.height⟩), okNodata) := by
    simp [execute, hresource, Resource.Fits]
  obtain ⟨m', hsubmit, hanswer⟩ := submitNodata_ok h.laid h.conforms h.synced hframed hdecode
    hexecute
  have hset := Host.setResource_self (hostOf m) gpuResourceId (Resource.transferred ⟨gpu.width,
    gpu.height, some (gpu.fb, 4 * (gpu.width * gpu.height)), pixel⟩ M gpu.fb
    ⟨0, 0, gpu.width, gpu.height⟩)
  have hcopy : (hostOf m').resources gpuResourceId = some (Resource.transferred ⟨gpu.width,
      gpu.height, some (gpu.fb, 4 * (gpu.width * gpu.height)), pixel⟩ M gpu.fb
      ⟨0, 0, gpu.width, gpu.height⟩) := by
    rw [hanswer.host]
    exact hset
  refine ⟨m', hsubmit, h.answered hanswer ⟨_, hset⟩ h.scanout, hanswer.pixels h, _, hcopy,
    fun i j hi hj ↦ ?_⟩
  have hcontains : (⟨0, 0, gpu.width, gpu.height⟩ : Rect).Contains i j := by
    simp [Rect.Contains, hi, hj]
  have hnoticed := noticed_only h.laid hframed m
  rw [← hM] at hnoticed
  simp only [Resource.transferred, if_pos hcontains, Nat.sub_zero]
  rw [Nat.mul_comm gpu.width]
  exact fbWord_congr (fun x hx ↦ hnoticed x fun hin ↦ h.pixels x hx hin.2) hi hj

/-- The second command copies the resource to the screen. -/
theorem flush_step (h : Showing device hostOf gpu m) {s : Resource}
    (hs : (hostOf m).resources gpuResourceId = some s) :
    ∃ m', gpuCmdResourceFlush device gpu m =
        (gpu.counted (((hostOf m).served + 1) % 2 ^ 16), m', true) ∧
      Showing device hostOf (gpu.counted (((hostOf m).served + 1) % 2 ^ 16)) m' ∧
      (∀ x, PixelByte gpu x → m' x = m x) ∧
      ∀ i j, i < gpu.width → j < gpu.height → (hostOf m').screen i j = s.pixel i j := by
  obtain ⟨pixel, hresource⟩ := h.resource
  obtain rfl := Option.some.inj (hs.symm.trans hresource)
  have hframed := framed_flush gpu.width gpu.height
  have hdecode := decode_flush h.laid m h.ready.width_lt h.ready.height_lt
  set M := noticed device gpu.controlq m 48 24 (flushFields gpu.width gpu.height)
  have hexecute : execute (hostOf m) M (.flush ⟨0, 0, gpu.width, gpu.height⟩ gpuResourceId) =
      ((hostOf m).shown ⟨gpu.width, gpu.height, some (gpu.fb, 4 * (gpu.width * gpu.height)), pixel⟩
        ⟨0, 0, gpu.width, gpu.height⟩ ⟨0, 0, gpu.width, gpu.height⟩, okNodata) := by
    simp [execute, hresource, Resource.Fits, h.scanout]
  obtain ⟨m', hsubmit, hanswer⟩ := submitNodata_ok h.laid h.conforms h.synced hframed hdecode
    hexecute
  refine ⟨m', hsubmit, h.answered hanswer ⟨pixel, hresource⟩ h.scanout, hanswer.pixels h, ?_⟩
  intro i j hi hj
  rw [hanswer.host]
  simp [Host.setServed, Host.shown, Rect.Contains, hi, hj]

theorem present_step (h : Showing device hostOf gpu m) :
    ∃ n n' m', virtioGpuPresent device gpu m = ((gpu.counted n).counted n', m') ∧
      Showing device hostOf ((gpu.counted n).counted n') m' ∧
      (∀ x, PixelByte gpu x → m' x = m x) ∧
      ∀ i j, i < gpu.width → j < gpu.height →
        (hostOf m').screen i j = fbWord gpu m (j * gpu.width + i) := by
  obtain ⟨m₁, htransfer, h₁, hpixels₁, s, hs, hcopied⟩ := transfer_step h
  obtain ⟨m₂, hflush, h₂, hpixels₂, hshown⟩ := flush_step h₁ hs
  refine ⟨_, _, m₂, ?_, h₂, fun x hx ↦ (hpixels₂ x hx).trans (hpixels₁ x hx), ?_⟩
  · have hready : ¬gpu.ready = false := by simp [h.ready.ready]
    rw [virtioGpuPresent, if_neg hready, htransfer]
    dsimp only
    rw [hflush]
  · intro i j hi hj
    rw [hshown i j hi hj, hcopied i j hi hj]

/-! ## Whole runs -/

/-- The canvas is in the frame buffer, the rest on the screen. -/
structure Depicts (hostOf : Mem → Host) (gpu : Gpu) (m : Mem) (p : Picture) : Prop where
  canvas : ∀ i j, i < gpu.width → j < gpu.height →
    fbWord gpu m (j * gpu.width + i) = p.canvas i j
  shown : ∀ i j, i < gpu.width → j < gpu.height → (hostOf m).screen i j = p.shown i j

/-- The frame buffer and the queue stay where they are. -/
structure SameDisplay (gpu gpu' : Gpu) : Prop where
  width : gpu'.width = gpu.width
  height : gpu'.height = gpu.height
  fb : gpu'.fb = gpu.fb

theorem DrawCall.step {p : Picture} (h : Showing device hostOf gpu m) (ha : Depicts hostOf gpu m p)
    (c : DrawCall) :
    SameDisplay gpu (c.perform device gpu m).1 ∧
      Showing device hostOf (c.perform device gpu m).1 (c.perform device gpu m).2 ∧
      Depicts hostOf (c.perform device gpu m).1 (c.perform device gpu m).2 (c.draw p) := by
  have hgpu := h.ready
  cases c with
  | pixel x y color =>
      have hbeyond : ∀ a, 2 ^ 64 ≤ a →
          virtioGpuDrawPixel gpu m x.toNat y.toNat color.toNat a = m a := by
        intro a hx
        rw [virtioGpuDrawPixel_eq_fill hgpu]
        exact fill_beyond hgpu _ (drawnIndices_lt _) hx
      refine ⟨⟨rfl, rfl, rfl⟩, h.congr hbeyond, fun i j hi hj ↦ ?_, fun i j hi hj ↦ ?_⟩
      · simp only [DrawCall.perform, DrawCall.draw]
        rw [fbWord_drawPixel hgpu m x y color hi hj, ha.canvas i j hi hj]
      · have hhost := h.conforms.own _ _ hbeyond
        exact (congrArg (fun host ↦ host.screen i j) hhost).trans (ha.shown i j hi hj)
  | rect x y w height color =>
      have hbeyond : ∀ a, 2 ^ 64 ≤ a → virtioGpuFillRect gpu m x.toNat y.toNat w.toNat
          height.toNat color.toNat a = m a := by
        intro a hx
        rw [virtioGpuFillRect_eq_fill hgpu]
        exact fill_beyond hgpu _ (fillIndices_lt hgpu w.toNat_lt height.toNat_lt) hx
      refine ⟨⟨rfl, rfl, rfl⟩, h.congr hbeyond, fun i j hi hj ↦ ?_, fun i j hi hj ↦ ?_⟩
      · simp only [DrawCall.perform, DrawCall.draw]
        rw [fbWord_fillRect hgpu m x y w height color hi hj, ha.canvas i j hi hj]
      · have hhost := h.conforms.own _ _ hbeyond
        exact (congrArg (fun host ↦ host.screen i j) hhost).trans (ha.shown i j hi hj)
  | present =>
      obtain ⟨n, n', m', hpresent, hshowing, hpixels, hscreen⟩ := present_step h
      simp only [DrawCall.perform, DrawCall.draw, hpresent]
      refine ⟨⟨rfl, rfl, rfl⟩, hshowing, fun i j hi hj ↦ ?_, fun i j hi hj ↦ ?_⟩
      · exact (fbWord_congr hpixels hi hj).trans (ha.canvas i j hi hj)
      · rw [hscreen i j hi hj]
        exact ha.canvas i j hi hj

theorem DisplayRun.showing {gpu₀ : Gpu} {m₀ : Mem} {calls : List DrawCall}
    (hrun : DisplayRun device gpu₀ m₀ calls gpu m) (h₀ : Showing device hostOf gpu₀ m₀)
    {p : Picture} (ha : Depicts hostOf gpu₀ m₀ p) :
    SameDisplay gpu₀ gpu ∧ Showing device hostOf gpu m ∧
      Depicts hostOf gpu m (drawAll calls p) := by
  induction hrun with
  | start => exact ⟨⟨rfl, rfl, rfl⟩, h₀, ha⟩
  | call hprev c ih =>
      obtain ⟨hsame, hshowing, hagrees⟩ := ih
      obtain ⟨hstep, hshowing', hagrees'⟩ := c.step hshowing hagrees
      rw [drawAll, List.foldl_append]
      exact ⟨⟨hstep.width.trans hsame.width, hstep.height.trans hsame.height,
        hstep.fb.trans hsame.fb⟩, hshowing', hagrees'⟩
  | elsewhere hprev hm ih =>
      obtain ⟨hsame, hshowing, hagrees⟩ := ih
      have hown : ∀ x, 2 ^ 64 ≤ x → _ := fun x hx ↦ hm x (by omega)
      refine ⟨hsame, hshowing.congr hown, fun i j hi hj ↦ ?_, fun i j hi hj ↦ ?_⟩
      · rw [fbWord_congr (fun x hx ↦ hm x fun hin ↦ hin.2 hx) hi hj]
        exact hagrees.canvas i j hi hj
      · rw [hshowing.conforms.own _ _ hown]
        exact hagrees.shown i j hi hj

/-- The frame buffer and the screen. -/
def pictureOf (hostOf : Mem → Host) (gpu : Gpu) (m : Mem) : Picture where
  canvas := fun i j ↦ fbWord gpu m (j * gpu.width + i)
  shown := (hostOf m).screen

theorem DisplayRun.picture {gpu₀ : Gpu} {m₀ : Mem} {calls : List DrawCall}
    (hrun : DisplayRun device gpu₀ m₀ calls gpu m) (h₀ : Showing device hostOf gpu₀ m₀)
    {p : Picture} (ha : Depicts hostOf gpu₀ m₀ p) (hi : i < gpu₀.width) (hj : j < gpu₀.height) :
    (pictureOf hostOf gpu m).canvas i j = (drawAll calls p).canvas i j ∧
      (pictureOf hostOf gpu m).shown i j = (drawAll calls p).shown i j := by
  obtain ⟨hsame, -, hagrees⟩ := hrun.showing h₀ ha
  rw [← hsame.width] at hi
  rw [← hsame.height] at hj
  exact ⟨hagrees.canvas i j hi hj, hagrees.shown i j hi hj⟩

/-- Whatever is drawn and presented in whatever order, with the rest of the
kernel at work in between: the frame buffer holds for each pixel the color
drawn last, and the screen shows the frame buffer as it was presented last. -/
theorem display_refines {gpu₀ : Gpu} {m₀ : Mem} {calls : List DrawCall}
    (h₀ : Showing device hostOf gpu₀ m₀) (hrun : DisplayRun device gpu₀ m₀ calls gpu m) :
    ∀ i j, i < gpu₀.width → j < gpu₀.height →
      (pictureOf hostOf gpu m).canvas i j =
        (drawAll calls (pictureOf hostOf gpu₀ m₀)).canvas i j ∧
      (pictureOf hostOf gpu m).shown i j =
        (drawAll calls (pictureOf hostOf gpu₀ m₀)).shown i j := by
  intro i j hi hj
  have hstart : Depicts hostOf gpu₀ m₀ (pictureOf hostOf gpu₀ m₀) :=
    ⟨fun _ _ _ _ ↦ rfl, fun _ _ _ _ ↦ rfl⟩
  exact hrun.picture h₀ hstart hi hj

/-- An adapter that keeps its state in memory. -/
noncomputable def adapter (q : Queue) (cmd resp : ℕ) : Device where
  serve _ m := withHost (process q (hostAt m) m).1 (process q (hostAt m) m).2
  cmd := cmd
  resp := resp

theorem adapter_conforms (q : Queue) (cmd resp : ℕ) :
    Conforms (adapter q cmd resp) q hostAt where
  own _ _ h := hostAt_congr h
  serves n m _ _ _ _ hoffers hroom := by
    have hbelow : ∀ x < 2 ^ 64, (adapter q cmd resp).serve n m x = (process q (hostAt m) m).2 x :=
      fun x hx ↦ if_pos hx
    have hserves := (process_serves hroom hoffers).congr hroom hbelow
    have hhost : hostAt ((adapter q cmd resp).serve n m) = (process q (hostAt m) m).1 :=
      hostAt_withHost _ _
    rwa [← hhost] at hserves

/-- Four pixels at `0x2000`. -/
def sampleGpu : Gpu := ⟨true, 2, 2, 0x2000, ⟨0, 2, 0x3000, 0x3020, 0x3028, 0, 0⟩, 0⟩

def sampleHost : Host where
  mode := (2, 2)
  resources := fun id ↦ if id = 1 then some ⟨2, 2, some (0x2000, 16), fun _ _ ↦ 0⟩ else none
  scanout := some ⟨1, ⟨0, 0, 2, 2⟩⟩
  screen := fun _ _ ↦ 0
  served := 0

noncomputable def sampleAdapter : Device := adapter sampleGpu.controlq.queue 0x4000 0x5000

noncomputable def sampleScreen : Mem := withHost sampleHost fun _ ↦ 0

theorem showing_sampleGpu : Showing sampleAdapter hostAt sampleGpu sampleScreen := by
  have hhost : hostAt sampleScreen = sampleHost := hostAt_withHost _ _
  refine ⟨⟨rfl, by decide, by decide, by decide, by decide⟩, ?_, adapter_conforms _ _ _, ?_, ?_,
    ?_, ?_⟩
  · exact ⟨by decide, by decide, by decide, by decide, by decide, by decide, Or.inl (by decide),
      Or.inr (by decide), Or.inr (by decide)⟩
  · rw [hhost]
    exact ⟨by decide, rfl, rfl⟩
  · rintro x ⟨hlow, hhigh⟩ hwork
    change 0x2000 ≤ x at hlow
    change x < 0x2000 + 4 * (2 * 2) at hhigh
    change (0x4000 ≤ x ∧ x < 0x4000 + 56) ∨ (0x5000 ≤ x ∧ x < 0x5000 + 408) ∨
      (0x3000 ≤ x ∧ x < 0x3028 + 4 + 8 * 2) ∨ 2 ^ 64 ≤ x at hwork
    omega
  · rw [hhost]
    exact ⟨_, rfl⟩
  · rw [hhost]
    rfl

theorem display_refines_sampleGpu : ∃ gpu m,
    DisplayRun sampleAdapter sampleGpu sampleScreen
        [.pixel 1 0 0xFF0000, .present, .rect 0 0 2 2 0xFF] gpu m ∧
      (pictureOf hostAt gpu m).shown 1 0 = 0xFF0000 ∧
      (pictureOf hostAt gpu m).canvas 1 0 = 0xFF := by
  have hstart : DisplayRun sampleAdapter sampleGpu sampleScreen [] sampleGpu sampleScreen := .start
  have hrun := (hstart.call (.pixel 1 0 0xFF0000)).call .present
  refine ⟨_, _, hrun.call (.rect 0 0 2 2 0xFF), ?_⟩
  obtain ⟨hcanvas, hshown⟩ := display_refines showing_sampleGpu (hrun.call (.rect 0 0 2 2 0xFF))
    1 0 (by decide) (by decide)
  exact ⟨hshown.trans rfl, hcanvas.trans rfl⟩

end ImplusKernel.VirtIO
