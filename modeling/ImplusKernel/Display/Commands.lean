import ImplusKernel.Display.DeviceInit
import ImplusKernel.Lib.GpuHost

/-!
# Commands to a display adapter

The driver meets an adapter that keeps to the protocol and answers in time.
The state of the adapter is kept in memory of its own, beyond the 64-bit
addresses of the machine, so that a step of the device is a step on memory.

A command is written to the stack, offered in the queue and answered there.
-/

namespace ImplusKernel.VirtIO

open ByteMemory Fields GpuHost

def Virtqueue.queue (vq : Virtqueue) : Queue := ⟨vq.queueSize, vq.desc, vq.avail, vq.used⟩

/-- The device is an adapter with the state `hostOf`: it serves each chain that
it is offered in the queue `q`. -/
structure Conforms (device : Device) (q : Queue) (hostOf : Mem → Host) : Prop where
  own : ∀ m m', (∀ x, 2 ^ 64 ≤ x → m' x = m x) → hostOf m' = hostOf m
  serves : ∀ n m {cmd cmdLen resp respLen : ℕ},
    Offers q (hostOf m) m cmd cmdLen resp respLen → Room q resp respLen →
    Serves q (hostOf m) m cmd cmdLen resp respLen (hostOf (device.serve n m)) (device.serve n m)

/-- The queue and the two structures of a command lie apart from each other. -/
structure Laid (device : Device) (vq : Virtqueue) : Prop where
  size : 2 ≤ vq.queueSize
  avail : vq.desc + 32 ≤ vq.avail
  used : vq.avail + 4 + 2 * vq.queueSize ≤ vq.used
  fits : vq.used + 4 + 8 * vq.queueSize ≤ 2 ^ 64
  cmd_fits : device.cmd + 56 ≤ 2 ^ 64
  resp_fits : device.resp + 408 ≤ 2 ^ 64
  cmd_resp : device.cmd + 56 ≤ device.resp ∨ device.resp + 408 ≤ device.cmd
  cmd_queue : device.cmd + 56 ≤ vq.desc ∨ vq.used + 4 + 8 * vq.queueSize ≤ device.cmd
  resp_queue : device.resp + 408 ≤ vq.desc ∨ vq.used + 4 + 8 * vq.queueSize ≤ device.resp

/-- The bytes that change when a command is sent, those of the adapter
included. -/
def Work (device : Device) (vq : Virtqueue) (x : ℕ) : Prop :=
  (device.cmd ≤ x ∧ x < device.cmd + 56) ∨ (device.resp ≤ x ∧ x < device.resp + 408) ∨
    (vq.desc ≤ x ∧ x < vq.used + 4 + 8 * vq.queueSize) ∨ 2 ^ 64 ≤ x

/-- Driver and adapter have counted the same number of commands. -/
structure Synced (vq : Virtqueue) (h : Host) : Prop where
  served : h.served < 2 ^ 16
  avail : vq.availIdx = h.served
  seen : vq.usedIdxSeen = h.served

variable {device : Device} {gpu : Gpu} {vq : Virtqueue} {hostOf : Mem → Host} {m : Mem}
  {cmdLen respLen : ℕ} {fields : List Field}

/-! ## The chain -/

def descFields (addr len flags next : ℕ) : List Field :=
  [(0, 8, addr), (8, 4, len), (12, 2, flags), (14, 2, next)]

theorem descFields_size (addr len flags next : ℕ) :
    ∀ f ∈ descFields addr len flags next, f.1 + f.2.1 ≤ 16 := by
  simp [descFields]

theorem writeDesc_eq (m : Mem) (desc i addr len flags next : ℕ) :
    writeDesc m desc i addr len flags next =
      storeFields m (desc + 16 * i) (descFields addr len flags next) := rfl

/-- The four fields of a descriptor. -/
structure DescAt (m : Mem) (d addr len flags next : ℕ) : Prop where
  addr : readLE m d 8 = addr
  len : readLE m (d + 8) 4 = len
  flags : readLE m (d + 12) 2 = flags
  next : readLE m (d + 14) 2 = next

theorem descAt_storeFields {m' : Mem} {d addr len flags next : ℕ} (haddr : addr < 2 ^ 64)
    (hlen : len < 2 ^ 32) (hflags : flags < 2 ^ 16) (hnext : next < 2 ^ 16)
    (h : AgreeOn (storeFields m d (descFields addr len flags next)) m' d (d + 16)) :
    DescAt m' d addr len flags next := by
  have hseparate : Separate (descFields addr len flags next) := by
    simp [descFields, Separate, Apart]
  have hread : ∀ o n v, (o, n, v) ∈ descFields addr len flags next → o + n ≤ 16 →
      v < 256 ^ n → readLE m' (d + o) n = v := by
    intro o n v hmem hin hv
    rw [readLE_congr (h.mono (by omega) (by omega)), hseparate.readLE hmem, Nat.mod_eq_of_lt hv]
  constructor
  · exact hread 0 8 addr (by simp [descFields]) (by decide) haddr
  · exact hread 8 4 len (by simp [descFields]) (by decide) hlen
  · exact hread 12 2 flags (by simp [descFields]) (by decide) hflags
  · exact hread 14 2 next (by simp [descFields]) (by decide) hnext

/-- What the driver publishes is a chain for the adapter. -/
theorem publish_offers {h : Host} (hlaid : Laid device vq) (hsync : Synced vq h) (m : Mem)
    (hcmd : cmdLen < 2 ^ 32) (hresp : respLen < 2 ^ 32) :
    Offers vq.queue h (publish vq m device.cmd cmdLen device.resp respLen) device.cmd cmdLen
      device.resp respLen := by
  have hsize := hlaid.size
  have havail := hlaid.avail
  have hcmdFits := hlaid.cmd_fits
  have hrespFits := hlaid.resp_fits
  have hserved := hsync.served
  have hslot : h.served % vq.queueSize < vq.queueSize := Nat.mod_lt _ (by omega)
  have hfirst : DescAt (publish vq m device.cmd cmdLen device.resp respLen) vq.desc device.cmd
      cmdLen 1 1 := by
    apply descAt_storeFields (m := m) (by omega) hcmd (by decide) (by decide)
    intro x hlow hhigh
    simp only [publish, writeDesc_eq, hsync.avail]
    rw [writeLE_outside _ (by omega), writeLE_outside _ (by omega),
      storeFields_outside (descFields_size _ _ _ _) (by omega)]
    rfl
  have hsecond : DescAt (publish vq m device.cmd cmdLen device.resp respLen) (vq.desc + 16)
      device.resp respLen 2 0 := by
    apply descAt_storeFields (by omega) hresp (by decide) (by decide)
    intro x hlow hhigh
    simp only [publish, writeDesc_eq, hsync.avail]
    rw [writeLE_outside _ (by omega), writeLE_outside _ (by omega)]
    rfl
  constructor
  · have hnext : (h.served + 1) % 2 ^ 16 < 256 ^ 2 := Nat.mod_lt _ (by decide)
    simp only [publish, hsync.avail]
    rw [Virtqueue.queue, readLE_writeLE_of_lt _ hnext]
    omega
  · refine ⟨0, 1, ?_, hfirst.addr, hfirst.len, hfirst.flags, hfirst.next, hsecond.addr,
      hsecond.len, hsecond.flags⟩
    simp only [publish, hsync.avail, Virtqueue.queue]
    rw [readLE_writeLE_disjoint _ (by omega), readLE_writeLE_of_lt _ (by decide)]

/-! ## One command -/

/-- The memory that the adapter finds. -/
def noticed (device : Device) (vq : Virtqueue) (m : Mem) (cmdLen respLen : ℕ)
    (fields : List Field) : Mem :=
  publish vq (filled device m cmdLen respLen fields) device.cmd cmdLen device.resp respLen

/-- A command that is no longer than the longest, with its fields in it. -/
structure Framed (cmdLen respLen : ℕ) (fields : List Field) : Prop where
  cmd : cmdLen ≤ 56
  resp : respLen ≤ 408
  fields : ∀ f ∈ fields, f.1 + f.2.1 ≤ cmdLen

theorem noticed_only (hlaid : Laid device vq) (hframed : Framed cmdLen respLen fields) (m : Mem) :
    Only (fun x ↦ x < 2 ^ 64 ∧ Work device vq x) m
      (noticed device vq m cmdLen respLen fields) := by
  have hresp := hframed.resp
  have hcmdFits := hlaid.cmd_fits
  have hrespFits := hlaid.resp_fits
  have hfits := hlaid.fits
  have havail := hlaid.avail
  have hused := hlaid.used
  have hfields : Only (fun x ↦ x < 2 ^ 64 ∧ Work device vq x) m
      (filled device m cmdLen respLen fields) :=
    filled_only m hcmdFits (by omega) hframed.cmd
      (fun f hf ↦ (hframed.fields f hf).trans hframed.cmd)
      (fun x hlow hhigh ↦ ⟨by omega, Or.inl ⟨hlow, hhigh⟩⟩)
      (fun x hlow hhigh ↦ ⟨by omega, Or.inr (Or.inl ⟨hlow, by omega⟩)⟩)
  apply hfields.trans
  apply publish_only
  · have := hlaid.size
    omega
  · intro x hlow hhigh
    exact ⟨by omega, Or.inr (Or.inr (Or.inl ⟨hlow, by omega⟩))⟩
  · intro x hlow hhigh
    exact ⟨by omega, Or.inr (Or.inr (Or.inl ⟨by omega, by omega⟩))⟩

/-- The adapter reads the command that was filled in. -/
theorem noticed_command (hlaid : Laid device vq) (hframed : Framed cmdLen respLen fields)
    (m : Mem) :
    AgreeOn (filled device m cmdLen respLen fields) (noticed device vq m cmdLen respLen fields)
      device.cmd (device.cmd + cmdLen) := by
  intro x hlow hhigh
  have hcmd := hframed.cmd
  have havail := hlaid.avail
  have hused := hlaid.used
  have hqueue := hlaid.cmd_queue
  refine publish_only (g := fun x ↦ vq.desc ≤ x ∧ x < vq.used + 4 + 8 * vq.queueSize)
    (by have := hlaid.size; omega) (fun y hy hy' ↦ ⟨hy, by omega⟩)
    (fun y hy hy' ↦ ⟨by omega, by omega⟩) _ _ _ _ _ x fun hin ↦ ?_
  omega

/-- The driver after one more command. -/
def Gpu.counted (gpu : Gpu) (n : ℕ) : Gpu :=
  { gpu with
    controlq := { gpu.controlq with availIdx := n, usedIdxSeen := n }
    notified := gpu.notified + 1 }

/-- Driver and adapter have counted a command, the response holds `fields`,
and only the bytes of the command have changed. -/
structure CommandAnswered (device : Device) (hostOf : Mem → Host) (gpu : Gpu) (m : Mem)
    (respLen : ℕ) (answer : Host × ℕ) (m' : Mem) : Prop where
  host : hostOf m' = answer.1.setServed (((hostOf m).served + 1) % 2 ^ 16)
  only : Only (Work device gpu.controlq) m m'
  reply : ∀ o n v, (o, n, v) ∈ responseFields answer.1 answer.2 → o + n ≤ respLen →
    readLE m' (device.resp + o) n = v % 256 ^ n

theorem submitCmd_answered (hlaid : Laid device gpu.controlq)
    (hconf : Conforms device gpu.controlq.queue hostOf) (hsync : Synced gpu.controlq (hostOf m))
    (hframed : Framed cmdLen respLen fields) :
    ∃ m', submitCmd device gpu m cmdLen respLen fields =
        (gpu.counted (((hostOf m).served + 1) % 2 ^ 16), m', true) ∧
      CommandAnswered device hostOf gpu m respLen
        (perform (hostOf m) (noticed device gpu.controlq m cmdLen respLen fields)
          (decode (noticed device gpu.controlq m cmdLen respLen fields) device.cmd cmdLen)) m' := by
  have hcmd := hframed.cmd
  have hresp := hframed.resp
  have hsize := hlaid.size
  have hrespFits := hlaid.resp_fits
  have hfits := hlaid.fits
  have hqueue := hlaid.resp_queue
  have havail := hlaid.avail
  have hused := hlaid.used
  have hserved := hsync.served
  set M := noticed device gpu.controlq m cmdLen respLen fields with hM
  have hnoticed := noticed_only hlaid hframed m
  rw [← hM] at hnoticed
  -- what the driver stores does not reach the adapter's own memory
  have hhost : hostOf M = hostOf m := hconf.own m M fun x hx ↦ hnoticed x (by omega)
  have hoffers : Offers gpu.controlq.queue (hostOf M) M device.cmd cmdLen device.resp respLen := by
    rw [hhost]
    exact publish_offers hlaid hsync _ (by omega) (by omega)
  have hserves := hconf.serves gpu.notified M hoffers
    ⟨by change 0 < gpu.controlq.queueSize; omega, by omega, hfits, by
      change _ ≤ gpu.controlq.used ∨ gpu.controlq.used + 4 + 8 * gpu.controlq.queueSize ≤ _
      omega⟩
  rw [hhost] at hserves
  refine ⟨device.serve gpu.notified M, ?_, hserves.host, ?_, hserves.reply⟩
  · have hpublish : publish gpu.controlq (filled device m cmdLen respLen fields) device.cmd cmdLen
      device.resp respLen = M := rfl
    have husedIdx : readLE (device.serve gpu.notified M) (gpu.controlq.used + 2) 2 =
        ((hostOf m).served + 1) % 2 ^ 16 := hserves.used
    unfold submitCmd virtqueueSubmitSync
    dsimp only
    rw [if_neg (by omega), hpublish, husedIdx, hsync.seen, if_neg (by omega), hsync.avail]
    rfl
  · intro x hx
    have hbelow : x < 2 ^ 64 := by
      by_contra hbeyond
      exact hx (Or.inr (Or.inr (Or.inr (by omega))))
    have hqueue' : ¬(gpu.controlq.desc ≤ x ∧
        x < gpu.controlq.used + 4 + 8 * gpu.controlq.queueSize) :=
      fun hin ↦ hx (Or.inr (Or.inr (Or.inl hin)))
    have hresp' : ¬(device.resp ≤ x ∧ x < device.resp + 408) :=
      fun hin ↦ hx (Or.inr (Or.inl hin))
    rw [hserves.outside x hbelow (by omega) (by
      change x < gpu.controlq.used ∨ gpu.controlq.used + 4 + 8 * gpu.controlq.queueSize ≤ x
      omega)]
    exact hnoticed x fun hin ↦ hx hin.2

theorem CommandAnswered.synced {answer : Host × ℕ} {respLen : ℕ} {m' : Mem}
    (h : CommandAnswered device hostOf gpu m respLen answer m') :
    Synced (gpu.counted (((hostOf m).served + 1) % 2 ^ 16)).controlq (hostOf m') := by
  rw [h.host]
  exact ⟨Nat.mod_lt _ (by decide), rfl, rfl⟩

/-! ## What the adapter reads -/

section Read

variable (hlaid : Laid device vq) (hframed : Framed cmdLen respLen fields) (m : Mem)
include hlaid hframed

theorem noticed_field {o n v : ℕ} (hseparate : Separate fields) (hmem : (o, n, v) ∈ fields)
    (hv : v < 256 ^ n) :
    readLE (noticed device vq m cmdLen respLen fields) (device.cmd + o) n = v := by
  have hin := hframed.fields _ hmem
  have hcommand := noticed_command hlaid hframed m
  rw [readLE_congr (hcommand.mono (Nat.le_add_right _ _) (by dsimp only at hin; omega)), filled,
    hseparate.readLE hmem, Nat.mod_eq_of_lt hv]

end Read

/-- A command that the adapter can read and carries out. -/
theorem submitNodata_ok {c : Command} {host : Host} (hlaid : Laid device gpu.controlq)
    (hconf : Conforms device gpu.controlq.queue hostOf) (hsync : Synced gpu.controlq (hostOf m))
    (hframed : Framed cmdLen 24 fields)
    (hdecode : decode (noticed device gpu.controlq m cmdLen 24 fields) device.cmd cmdLen = some c)
    (hexecute : execute (hostOf m) (noticed device gpu.controlq m cmdLen 24 fields) c =
      (host, okNodata)) :
    ∃ m', submitNodata device cmdLen fields gpu m =
        (gpu.counted (((hostOf m).served + 1) % 2 ^ 16), m', true) ∧
      CommandAnswered device hostOf gpu m 24 (host, okNodata) m' := by
  obtain ⟨m', hsubmit, hanswer⟩ := submitCmd_answered hlaid hconf hsync hframed
  rw [hdecode, perform, hexecute] at hanswer
  refine ⟨m', ?_, hanswer⟩
  have hstatus : readLE m' device.resp 4 = virtioGpuRespOkNodata :=
    hanswer.reply 0 4 okNodata (List.mem_append_left _ (List.mem_cons_self ..)) (by decide)
  unfold submitNodata
  rw [hsubmit]
  dsimp only
  rw [hstatus]
  rfl

/-! ## Presenting -/

section Present

variable (hlaid : Laid device vq) (m : Mem) {width height : ℕ} (hwidth : width < 2 ^ 32)
  (hheight : height < 2 ^ 32)

theorem framed_transfer (width height : ℕ) : Framed 56 24 (transferFields width height) :=
  ⟨by decide, by decide, by simp [transferFields]⟩

theorem framed_flush (width height : ℕ) : Framed 48 24 (flushFields width height) :=
  ⟨by decide, by decide, by simp [flushFields]⟩

include hlaid hwidth hheight

theorem decode_transfer :
    decode (noticed device vq m 56 24 (transferFields width height)) device.cmd 56 =
      some (.transfer ⟨0, 0, width, height⟩ 0 gpuResourceId) := by
  have hframed := framed_transfer width height
  have hseparate : Separate (transferFields width height) := by
    simp [transferFields, Separate, Apart]
  set M := noticed device vq m 56 24 (transferFields width height)
  have htype : readLE M device.cmd 4 = 0x0105 :=
    noticed_field (o := 0) hlaid hframed m hseparate
      (by simp [transferFields, virtioGpuCmdTransferToHost2d]) (by decide)
  have hx : readLE M (device.cmd + 24) 4 = 0 :=
    noticed_field hlaid hframed m hseparate (by simp [transferFields]) (by decide)
  have hy : readLE M (device.cmd + 24 + 4) 4 = 0 :=
    noticed_field (o := 28) hlaid hframed m hseparate (by simp [transferFields]) (by decide)
  have hw : readLE M (device.cmd + 24 + 8) 4 = width :=
    noticed_field (o := 32) hlaid hframed m hseparate (by simp [transferFields]) hwidth
  have hh : readLE M (device.cmd + 24 + 12) 4 = height :=
    noticed_field (o := 36) hlaid hframed m hseparate (by simp [transferFields]) hheight
  have hoffset : readLE M (device.cmd + 40) 8 = 0 :=
    noticed_field hlaid hframed m hseparate (by simp [transferFields]) (by decide)
  have hid : readLE M (device.cmd + 48) 4 = gpuResourceId :=
    noticed_field hlaid hframed m hseparate (by simp [transferFields]) (by decide)
  simp [decode, rectAt, htype, hx, hy, hw, hh, hoffset, hid]

theorem decode_flush :
    decode (noticed device vq m 48 24 (flushFields width height)) device.cmd 48 =
      some (.flush ⟨0, 0, width, height⟩ gpuResourceId) := by
  have hframed := framed_flush width height
  have hseparate : Separate (flushFields width height) := by
    simp [flushFields, Separate, Apart]
  set M := noticed device vq m 48 24 (flushFields width height)
  have htype : readLE M device.cmd 4 = 0x0104 :=
    noticed_field (o := 0) hlaid hframed m hseparate
      (by simp [flushFields, virtioGpuCmdResourceFlush]) (by decide)
  have hx : readLE M (device.cmd + 24) 4 = 0 :=
    noticed_field hlaid hframed m hseparate (by simp [flushFields]) (by decide)
  have hy : readLE M (device.cmd + 24 + 4) 4 = 0 :=
    noticed_field (o := 28) hlaid hframed m hseparate (by simp [flushFields]) (by decide)
  have hw : readLE M (device.cmd + 24 + 8) 4 = width :=
    noticed_field (o := 32) hlaid hframed m hseparate (by simp [flushFields]) hwidth
  have hh : readLE M (device.cmd + 24 + 12) 4 = height :=
    noticed_field (o := 36) hlaid hframed m hseparate (by simp [flushFields]) hheight
  have hid : readLE M (device.cmd + 40) 4 = gpuResourceId :=
    noticed_field hlaid hframed m hseparate (by simp [flushFields]) (by decide)
  simp [decode, rectAt, htype, hx, hy, hw, hh, hid]

end Present

/-! ## Setting up -/

section SetUp

variable (hlaid : Laid device vq) (m : Mem)

theorem framed_info : Framed 24 408 infoFields :=
  ⟨by decide, by decide, by simp [infoFields]⟩

theorem framed_create (width height : ℕ) : Framed 40 24 (createFields width height) :=
  ⟨by decide, by decide, by simp [createFields]⟩

theorem framed_attach (fb bytes : ℕ) : Framed 48 24 (attachFields fb bytes) :=
  ⟨by decide, by decide, by simp [attachFields]⟩

theorem framed_scanout (width height : ℕ) : Framed 48 24 (scanoutFields width height) :=
  ⟨by decide, by decide, by simp [scanoutFields]⟩

include hlaid

theorem decode_info :
    decode (noticed device vq m 24 408 infoFields) device.cmd 24 = some .displayInfo := by
  have htype : readLE (noticed device vq m 24 408 infoFields) device.cmd 4 = 0x0100 :=
    noticed_field (o := 0) hlaid framed_info m (by simp [infoFields, Separate])
      (by simp [infoFields, virtioGpuCmdGetDisplayInfo]) (by decide)
  simp [decode, htype]

theorem decode_create {width height : ℕ} (hwidth : width < 2 ^ 32) (hheight : height < 2 ^ 32) :
    decode (noticed device vq m 40 24 (createFields width height)) device.cmd 40 =
      some (.create gpuResourceId virtioGpuFormatB8g8r8x8Unorm width height) := by
  have hframed := framed_create width height
  have hseparate : Separate (createFields width height) := by
    simp [createFields, Separate, Apart]
  set M := noticed device vq m 40 24 (createFields width height)
  have htype : readLE M device.cmd 4 = 0x0101 :=
    noticed_field (o := 0) hlaid hframed m hseparate
      (by simp [createFields, virtioGpuCmdResourceCreate2d]) (by decide)
  have hid : readLE M (device.cmd + 24) 4 = gpuResourceId :=
    noticed_field hlaid hframed m hseparate (by simp [createFields]) (by decide)
  have hformat : readLE M (device.cmd + 28) 4 = virtioGpuFormatB8g8r8x8Unorm :=
    noticed_field hlaid hframed m hseparate (by simp [createFields]) (by decide)
  have hw : readLE M (device.cmd + 32) 4 = width :=
    noticed_field hlaid hframed m hseparate (by simp [createFields]) hwidth
  have hh : readLE M (device.cmd + 36) 4 = height :=
    noticed_field hlaid hframed m hseparate (by simp [createFields]) hheight
  simp [decode, htype, hid, hformat, hw, hh]

theorem decode_attach {fb bytes : ℕ} (hfb : fb < 2 ^ 64) (hbytes : bytes < 2 ^ 32) :
    decode (noticed device vq m 48 24 (attachFields fb bytes)) device.cmd 48 =
      some (.attach gpuResourceId fb bytes) := by
  have hframed := framed_attach fb bytes
  have hseparate : Separate (attachFields fb bytes) := by
    simp [attachFields, Separate, Apart]
  set M := noticed device vq m 48 24 (attachFields fb bytes)
  have htype : readLE M device.cmd 4 = 0x0106 :=
    noticed_field (o := 0) hlaid hframed m hseparate
      (by simp [attachFields, virtioGpuCmdResourceAttachBacking]) (by decide)
  have hid : readLE M (device.cmd + 24) 4 = gpuResourceId :=
    noticed_field hlaid hframed m hseparate (by simp [attachFields]) (by decide)
  have hcount : readLE M (device.cmd + 28) 4 = 1 :=
    noticed_field hlaid hframed m hseparate (by simp [attachFields]) (by decide)
  have haddress : readLE M (device.cmd + 32) 8 = fb :=
    noticed_field hlaid hframed m hseparate (by simp [attachFields]) hfb
  have hlength : readLE M (device.cmd + 40) 4 = bytes :=
    noticed_field hlaid hframed m hseparate (by simp [attachFields]) hbytes
  simp [decode, htype, hid, hcount, haddress, hlength]

theorem decode_scanout {width height : ℕ} (hwidth : width < 2 ^ 32) (hheight : height < 2 ^ 32) :
    decode (noticed device vq m 48 24 (scanoutFields width height)) device.cmd 48 =
      some (.setScanout ⟨0, 0, width, height⟩ gpuScanoutId gpuResourceId) := by
  have hframed := framed_scanout width height
  have hseparate : Separate (scanoutFields width height) := by
    simp [scanoutFields, Separate, Apart]
  set M := noticed device vq m 48 24 (scanoutFields width height)
  have htype : readLE M device.cmd 4 = 0x0103 :=
    noticed_field (o := 0) hlaid hframed m hseparate
      (by simp [scanoutFields, virtioGpuCmdSetScanout]) (by decide)
  have hx : readLE M (device.cmd + 24) 4 = 0 :=
    noticed_field hlaid hframed m hseparate (by simp [scanoutFields]) (by decide)
  have hy : readLE M (device.cmd + 24 + 4) 4 = 0 :=
    noticed_field (o := 28) hlaid hframed m hseparate (by simp [scanoutFields]) (by decide)
  have hw : readLE M (device.cmd + 24 + 8) 4 = width :=
    noticed_field (o := 32) hlaid hframed m hseparate (by simp [scanoutFields]) hwidth
  have hh : readLE M (device.cmd + 24 + 12) 4 = height :=
    noticed_field (o := 36) hlaid hframed m hseparate (by simp [scanoutFields]) hheight
  have hscanout : readLE M (device.cmd + 40) 4 = gpuScanoutId :=
    noticed_field hlaid hframed m hseparate (by simp [scanoutFields]) (by decide)
  have hid : readLE M (device.cmd + 44) 4 = gpuResourceId :=
    noticed_field hlaid hframed m hseparate (by simp [scanoutFields]) (by decide)
  simp [decode, rectAt, htype, hx, hy, hw, hh, hscanout, hid]

end SetUp

end ImplusKernel.VirtIO
