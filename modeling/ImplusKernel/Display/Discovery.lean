import ImplusKernel.Paging.Tables

/-!
# Finding the VirtIO GPU

The driver looks for the device in the PCI configuration space, decodes its
base address registers (BARs) and maps the registers that its capabilities
point to.  The structure it fills in lies uninitialised on the stack.  A
64-bit BAR takes up two slots, and the loop that decodes it passes over the
second: that slot keeps what the stack held.
-/

namespace ImplusKernel.VirtIO

open Paging

/-- What `pci_read_config` returns for a bus, a device, a function and an
offset. -/
def ConfigSpace := UInt8 → UInt8 → UInt8 → UInt8 → UInt32

def pciCfgRead8 (config : ConfigSpace) (bus device func offset : UInt8) : UInt8 :=
  (config bus device func (offset &&& 0xFC) >>> ((offset &&& 3).toUInt32 * 8)).toUInt8

def pciCfgRead16 (config : ConfigSpace) (bus device func offset : UInt8) : UInt16 :=
  (config bus device func (offset &&& 0xFC) >>> ((offset &&& 2).toUInt32 * 8)).toUInt16

def pciCfgRead32 (config : ConfigSpace) (bus device func offset : UInt8) : UInt32 :=
  config bus device func (offset &&& 0xFC)

/-! ## Base addresses -/

/-- The arrays `bar_addr` and `bar_is_mem`. -/
structure Bars where
  addr : Fin 6 → UInt64
  isMem : Fin 6 → UInt8

def Bars.set (out : Bars) (i : Fin 6) (addr : UInt64) (isMem : UInt8) : Bars where
  addr := Function.update out.addr i addr
  isMem := Function.update out.isMem i isMem

/-- The loop of `pci_read_bar_addrs`; `bar` is what the registers hold. -/
def barLoop (bar : ℕ → UInt32) : ℕ → ℕ → Bars → Bars
  | 0, _, out => out
  | fuel + 1, i, out =>
      if h : i < 6 then
        let out := out.set ⟨i, h⟩ 0 0
        if bar i = 0 ∨ bar i = 0xFFFFFFFF then barLoop bar fuel (i + 1) out
        else if bar i &&& 1 ≠ 0 then barLoop bar fuel (i + 1) out
        else if bar i >>> 1 &&& 3 = 2 ∧ i < 5 then
          barLoop bar fuel (i + 2) (out.set ⟨i, h⟩
            ((bar (i + 1)).toUInt64 <<< 32 ||| (bar i &&& 0xFFFFFFF0).toUInt64) 1)
        else barLoop bar fuel (i + 1) (out.set ⟨i, h⟩ (bar i &&& 0xFFFFFFF0).toUInt64 1)
      else out

/-- The register at offset `0x10 + i * 4`. -/
def barRegister (config : ConfigSpace) (bus device func : UInt8) (i : ℕ) : UInt32 :=
  pciCfgRead32 config bus device func (UInt8.ofNat (0x10 + i * 4))

/-- `out` is what the two arrays hold before the call.  Each round moves on by
at least one slot. -/
def pciReadBarAddrs (config : ConfigSpace) (bus device func : UInt8) (out : Bars) : Bars :=
  barLoop (barRegister config bus device func) 6 0 out

/-! ## The device -/

/-- `virtio_gpu_pci_t`. -/
structure VirtioGpuPci where
  bus : UInt8
  device : UInt8
  func : UInt8
  bars : Bars
  irq : UInt8

def virtioVendorId : UInt16 := 0x1AF4

def virtioGpuDeviceId : UInt16 := 0x1050

/-- The loop over the functions of a device: the function that is a GPU. -/
def findFunc (config : ConfigSpace) (bus device : UInt8) : List UInt8 → Option UInt8
  | [] => none
  | func :: rest =>
      let vd := config bus device func 0x00
      let vendorId := vd.toUInt16
      let deviceId := (vd >>> 16).toUInt16
      if vendorId = 0xFFFF then
        if func = 0 then none else findFunc config bus device rest
      else if vendorId = virtioVendorId ∧ deviceId = virtioGpuDeviceId then some func
      else if func = 0 ∧ config bus device func 0x0C >>> 16 &&& 0x80 = 0 then none
      else findFunc config bus device rest

/-- The first numbers of a loop that counts up from zero. -/
def counting (n : ℕ) : List UInt8 := (List.range n).map UInt8.ofNat

/-- The structure is filled in only when the device is found. -/
def findVirtioGpu (config : ConfigSpace) (gpu : VirtioGpuPci) : Option VirtioGpuPci :=
  (counting 256).findSome? fun bus ↦ (counting 32).findSome? fun device ↦
    (findFunc config bus device (counting 8)).map fun func ↦
      { bus := bus
        device := device
        func := func
        bars := pciReadBarAddrs config bus device func gpu.bars
        irq := pciCfgRead8 config bus device func 0x3C }

/-! ## Capabilities -/

/-- `virtio_pci_transport_t`. -/
structure Transport where
  commonCfg : ℕ
  notifyBase : ℕ
  deviceCfg : ℕ
  notifyOffMultiplier : UInt32
deriving DecidableEq, Repr

def pciCapIdVendor : UInt8 := 0x09

def virtioPciCapCommonCfg : UInt8 := 1

def virtioPciCapNotifyCfg : UInt8 := 2

def virtioPciCapDeviceCfg : UInt8 := 4

/-- The base address that a capability refers to, if it is usable. -/
def capBase (gpu : VirtioGpuPci) (bar : UInt8) : Option UInt64 :=
  if h : bar.toNat < 6 then
    if gpu.bars.isMem ⟨bar.toNat, h⟩ ≠ 0 ∧ gpu.bars.addr ⟨bar.toNat, h⟩ ≠ 0 then
      some (gpu.bars.addr ⟨bar.toNat, h⟩)
    else none
  else none

/-- The capability at `cap` says where the registers of its type are. -/
def Transport.record (t : Transport) (cfgType : UInt8) (base : ℕ) (multiplier : UInt32) :
    Transport :=
  if cfgType = virtioPciCapCommonCfg then { t with commonCfg := base }
  else if cfgType = virtioPciCapNotifyCfg then
    { t with notifyBase := base, notifyOffMultiplier := multiplier }
  else if cfgType = virtioPciCapDeviceCfg then { t with deviceCfg := base }
  else t

/-- The loop over the capabilities; `none` is `return 0` inside it. -/
def capLoop (config : ConfigSpace) (addrs : TableAddrs) (gpu : VirtioGpuPci) :
    ℕ → UInt8 → PagingState → Transport → PagingState × Option Transport
  | 0, _, paging, t => (paging, some t)
  | guard + 1, cap, paging, t =>
      if cap ≠ 0 ∧ 0x40 ≤ cap then
        let read8 := pciCfgRead8 config gpu.bus gpu.device gpu.func
        let read32 := pciCfgRead32 config gpu.bus gpu.device gpu.func
        let next := read8 (cap + 1)
        if read8 cap = pciCapIdVendor then
          match capBase gpu (read8 (cap + 4)) with
          | none => capLoop config addrs gpu guard next paging t
          | some addr =>
              let mapped := mapMmioVirt addrs paging (addr + (read32 (cap + 8)).toUInt64).toNat
              if mapped.2.ptr = 0 then (mapped.1, none)
              else capLoop config addrs gpu guard next mapped.1
                (t.record (read8 (cap + 3)) mapped.2.ptr (read32 (cap + 16)))
        else capLoop config addrs gpu guard next paging t
      else (paging, some t)

def virtioPciFindCaps (config : ConfigSpace) (addrs : TableAddrs) (gpu : VirtioGpuPci)
    (paging : PagingState) : PagingState × Option Transport :=
  let status := pciCfgRead16 config gpu.bus gpu.device gpu.func 0x06
  if status &&& (1 : UInt16) <<< 4 = 0 then (paging, none)
  else
    let cap := pciCfgRead8 config gpu.bus gpu.device gpu.func 0x34
    match capLoop config addrs gpu 64 cap paging ⟨0, 0, 0, 0⟩ with
    | (paging', none) => (paging', none)
    | (paging', some t) =>
        if t.commonCfg ≠ 0 ∧ t.notifyBase ≠ 0 then (paging', some t) else (paging', none)

/-! ## Which slots are decoded -/

variable {bar : ℕ → UInt32} {fuel i j : ℕ} {out : Bars}

/-- The register holds the lower half of a 64-bit memory BAR. -/
def Wide (bar : UInt32) : Prop :=
  bar ≠ 0 ∧ bar ≠ 0xFFFFFFFF ∧ bar &&& 1 = 0 ∧ bar >>> 1 &&& 3 = 2

instance (bar : UInt32) : Decidable (Wide bar) := inferInstanceAs (Decidable (_ ∧ _ ∧ _ ∧ _))

/-- The number of slots of the BAR that starts in slot `i`. -/
def barSlots (bar : ℕ → UInt32) (i : ℕ) : ℕ := if Wide (bar i) ∧ i < 5 then 2 else 1

/-- The slots in which a BAR starts. -/
def barStarts (bar : ℕ → UInt32) : ℕ → ℕ → List ℕ
  | 0, _ => []
  | fuel + 1, i => if i < 6 then i :: barStarts bar fuel (i + barSlots bar i) else []

/-- What slot `i` gets when a BAR starts there. -/
def decoded (bar : ℕ → UInt32) (i : ℕ) : UInt64 × UInt8 :=
  if bar i = 0 ∨ bar i = 0xFFFFFFFF then (0, 0)
  else if bar i &&& 1 ≠ 0 then (0, 0)
  else if bar i >>> 1 &&& 3 = 2 ∧ i < 5 then
    ((bar (i + 1)).toUInt64 <<< 32 ||| (bar i &&& 0xFFFFFFF0).toUInt64, 1)
  else ((bar i &&& 0xFFFFFFF0).toUInt64, 1)

def Bars.slot (out : Bars) (k : Fin 6) : UInt64 × UInt8 := (out.addr k, out.isMem k)

theorem Bars.ext_slot {out out' : Bars} (h : ∀ k, out.slot k = out'.slot k) : out = out' := by
  have haddr : out.addr = out'.addr := funext fun k ↦ congrArg Prod.fst (h k)
  have hmem : out.isMem = out'.isMem := funext fun k ↦ congrArg Prod.snd (h k)
  cases out
  cases out'
  simp_all

theorem Bars.slot_set (out : Bars) (i k : Fin 6) (addr : UInt64) (isMem : UInt8) :
    (out.set i addr isMem).slot k = if k = i then (addr, isMem) else out.slot k := by
  by_cases h : k = i
  · simp [Bars.slot, Bars.set, h]
  · simp [Bars.slot, Bars.set, h]

theorem Bars.set_set (out : Bars) (i : Fin 6) (addr addr' : UInt64) (isMem isMem' : UInt8) :
    (out.set i addr isMem).set i addr' isMem' = out.set i addr' isMem' := by
  simp [Bars.set]

/-- One round. -/
theorem barLoop_step (hi : i < 6) :
    barLoop bar (fuel + 1) i out = barLoop bar fuel (i + barSlots bar i)
      (out.set ⟨i, hi⟩ (decoded bar i).1 (decoded bar i).2) := by
  rw [barLoop, dif_pos hi]
  by_cases hnone : bar i = 0 ∨ bar i = 0xFFFFFFFF
  · have hnarrow : ¬(Wide (bar i) ∧ i < 5) := by
      rintro ⟨⟨hzero, hones, -⟩, -⟩
      tauto
    simp only [if_pos hnone, barSlots, if_neg hnarrow, decoded]
  by_cases hport : bar i &&& 1 ≠ 0
  · have hnarrow : ¬(Wide (bar i) ∧ i < 5) := fun h ↦ hport h.1.2.2.1
    simp only [if_neg hnone, if_pos hport, barSlots, if_neg hnarrow, decoded]
  have hwide : Wide (bar i) ∧ i < 5 ↔ bar i >>> 1 &&& 3 = 2 ∧ i < 5 := by
    rw [Wide]
    tauto
  simp only [if_neg hnone, if_neg hport, Bars.set_set, barSlots, hwide, decoded]
  split <;> rfl

/-- The loop decodes the slots in which a BAR starts and leaves the others. -/
theorem barLoop_slot (k : Fin 6) :
    (barLoop bar fuel i out).slot k =
      if k.val ∈ barStarts bar fuel i then decoded bar k else out.slot k := by
  induction fuel generalizing i out with
  | zero => rfl
  | succ fuel ih =>
      by_cases hi : i < 6
      · rw [barLoop_step hi, ih, Bars.slot_set, barStarts, if_pos hi]
        by_cases hk : k.val = i
        · have hslot : k = ⟨i, hi⟩ := Fin.ext hk
          simp [hslot]
        · have hslot : k ≠ ⟨i, hi⟩ := fun h ↦ hk (congrArg Fin.val h)
          simp [hslot, hk]
      · rw [barLoop, dif_neg hi, barStarts, if_neg hi]
        rfl

theorem le_of_mem_barStarts (h : j ∈ barStarts bar fuel i) : i ≤ j := by
  induction fuel generalizing i with
  | zero => simp [barStarts] at h
  | succ fuel ih =>
      rw [barStarts] at h
      split at h
      · rcases List.mem_cons.mp h with rfl | h
        · exact le_rfl
        · exact (Nat.le_add_right _ _).trans (ih h)
      · simp at h

/-- Every slot is decoded exactly when no BAR takes up two. -/
theorem barStarts_all_iff (hfuel : 6 ≤ i + fuel) :
    (∀ k, i ≤ k → k < 6 → k ∈ barStarts bar fuel i) ↔
      ∀ k, i ≤ k → k < 5 → ¬Wide (bar k) := by
  induction fuel generalizing i with
  | zero =>
      constructor
      · intro _ k _ _
        omega
      · intro _ k _ _
        omega
  | succ fuel ih =>
      rw [barStarts]
      by_cases hi : i < 6
      swap
      · constructor
        · intro _ k _ _
          omega
        · intro _ k _ _
          omega
      rw [if_pos hi]
      by_cases hwide : Wide (bar i) ∧ i < 5
      · -- The slot after this one is passed over.
        have hskip : i + 1 ∉ i :: barStarts bar fuel (i + barSlots bar i) := by
          rw [barSlots, if_pos hwide, List.mem_cons, not_or]
          refine ⟨by omega, fun h ↦ ?_⟩
          have hle := le_of_mem_barStarts h
          omega
        constructor
        · intro h
          exact absurd (h (i + 1) (by omega) (by omega)) hskip
        · intro h
          exact absurd hwide.1 (h i le_rfl hwide.2)
      · rw [barSlots, if_neg hwide]
        have hrest := ih (i := i + 1) (by omega)
        constructor
        · intro h k hle hlt hk
          rcases hle.eq_or_lt with rfl | hlt'
          · exact hwide ⟨hk, hlt⟩
          · refine hrest.mp (fun j hj hj' ↦ ?_) k hlt' hlt hk
            rcases List.mem_cons.mp (h j (by omega) hj') with rfl | hmem
            · omega
            · exact hmem
        · intro h k hle hlt
          rcases hle.eq_or_lt with rfl | hlt'
          · exact List.mem_cons_self ..
          · exact List.mem_cons_of_mem _
              (hrest.mpr (fun j hj ↦ h j (by omega)) k hlt' hlt)

/-- Slot `k` holds the upper half of a 64-bit BAR. -/
def UpperHalf (bar : ℕ → UInt32) (k : Fin 6) : Prop :=
  ∃ i ∈ barStarts bar 6 0, Wide (bar i) ∧ i < 5 ∧ k.val = i + 1

/-- The arrays are determined by the device, with the upper halves marked as
no memory, exactly when the device has no 64-bit memory BAR below slot 5. -/
theorem pciReadBarAddrs_determined_iff (config : ConfigSpace) (bus device func : UInt8) :
    ((∀ out out', pciReadBarAddrs config bus device func out =
        pciReadBarAddrs config bus device func out') ∧
      ∀ k, UpperHalf (barRegister config bus device func) k →
        ∀ out, (pciReadBarAddrs config bus device func out).isMem k = 0) ↔
      ∀ i < 5, ¬Wide (barRegister config bus device func i) := by
  have hall : (∀ k, 0 ≤ k → k < 6 → k ∈ barStarts (barRegister config bus device func) 6 0) ↔ _ :=
    barStarts_all_iff le_rfl
  simp only [Nat.zero_le, forall_const] at hall
  rw [← hall]
  constructor
  · rintro ⟨hsame, -⟩ k hk
    -- A slot that is passed over shows the difference between two stacks.
    by_contra hnot
    have hslot := congrArg (Bars.slot · ⟨k, hk⟩) (hsame ⟨fun _ ↦ 0, fun _ ↦ 0⟩
      ⟨fun _ ↦ 0, fun _ ↦ 1⟩)
    simp only [pciReadBarAddrs, barLoop_slot, if_neg hnot] at hslot
    have hbyte : (0 : UInt8) = 1 := congrArg Prod.snd hslot
    exact absurd hbyte (by decide)
  · intro h
    refine ⟨fun out out' ↦ Bars.ext_slot fun k ↦ ?_, ?_⟩
    · rw [pciReadBarAddrs, pciReadBarAddrs, barLoop_slot, barLoop_slot, if_pos (h k k.isLt),
        if_pos (h k k.isLt)]
    · rintro k ⟨i, -, hwide, hi, -⟩
      exact absurd hwide (hall.mp h i hi)

/-- A device whose first BAR is a 64-bit one at `0x1_8000_0000`. -/
def wideDevice : ConfigSpace := fun _ _ _ offset ↦
  if offset = 0x10 then 0x80000004 else if offset = 0x14 then 1 else 0

theorem upper_half_keeps_stack :
    UpperHalf (barRegister wideDevice 0 0 0) 1 ∧
      (pciReadBarAddrs wideDevice 0 0 0 ⟨fun _ ↦ 0, fun _ ↦ 0⟩).slot 1 = (0, 0) ∧
      (pciReadBarAddrs wideDevice 0 0 0 ⟨fun _ ↦ 0x7000, fun _ ↦ 1⟩).slot 1 = (0x7000, 1) := by
  refine ⟨⟨0, by decide, by decide, by decide, rfl⟩, by decide, by decide⟩

end ImplusKernel.VirtIO
