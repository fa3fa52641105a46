import ImplusKernel.Lib.Fields
import ImplusKernel.Loader.KernelElf
import ImplusKernel.Memory.PageMap

/-!
# Leaving the firmware

Before it starts the kernel the loader has to fetch the memory map and end the
boot services with the key of that map.  The firmware may change the map at
any time, even when the loader takes a buffer for it, and then refuses the key;
the loader frees the buffer and tries again.

The firmware is a parameter.  What it does is given by the number of the call,
so that all that can happen between the calls is covered.
-/

namespace ImplusKernel.BootLoader

open ByteMemory Fields Loader Pages

def efiInvalidParameter : ℕ := 2 ^ 63 + 2

def efiBufferTooSmall : ℕ := 2 ^ 63 + 5

def efiOutOfResources : ℕ := 2 ^ 63 + 9

/-- The memory map and its key at each call, the address that a call of
`AllocatePool` returns, what the firmware does to memory before a call, and
how it stores the map. -/
structure Firmware where
  descSize : ℕ
  descVersion : ℕ
  entries : ℕ → List MemoryDescriptor
  key : ℕ → ℕ
  pool : ℕ → ℕ → Option ℕ
  background : ℕ → Mem → Mem
  fill : ℕ → Mem → ℕ → Mem

def Firmware.mapSize (f : Firmware) (n : ℕ) : ℕ := (f.entries n).length * f.descSize

/-- `BOOT_INFO`, with the fields of the memory map. -/
structure BootInfo where
  memoryMap : ℕ
  memoryMapSize : ℕ
  memoryMapDescriptorSize : ℕ
  memoryMapDescriptorVersion : ℕ
deriving DecidableEq, Repr

/-- The loader between two rounds: memory, the record, the number of calls,
and the buffers taken and given back. -/
structure Session where
  mem : Mem
  info : BootInfo
  calls : ℕ
  taken : List ℕ
  freed : List ℕ

/-- The status of `GetMemoryMap` for a buffer of `size` bytes. -/
def Firmware.mapStatus (f : Firmware) (n size buffer : ℕ) : ℕ :=
  if size < f.mapSize n then efiBufferTooSmall
  else if buffer = 0 then efiInvalidParameter
  else efiSuccess

/-- A round of the loop of `ExitBootServicesComplete`, with the status when it
returns.  The calls are `GetMemoryMap` without a buffer, `AllocatePool`,
`GetMemoryMap`, `ExitBootServices` and `FreePool`. -/
def exitRound (f : Firmware) (s : Session) : Session × Option ℕ :=
  let n := s.calls
  let m₀ := f.background n s.mem
  let info₀ : BootInfo := { s.info with
    memoryMapDescriptorSize := f.descSize, memoryMapDescriptorVersion := f.descVersion }
  if f.mapStatus n 0 0 ≠ efiBufferTooSmall then
    ({ s with mem := m₀, info := info₀, calls := n + 1 }, some (f.mapStatus n 0 0))
  else
    let bufferSize := (f.mapSize n + f.descSize * 8) % 2 ^ 64
    let m₁ := f.background (n + 1) m₀
    match f.pool (n + 1) bufferSize with
    | none => ({ s with mem := m₁, info := info₀, calls := n + 2 }, some efiOutOfResources)
    | some buffer =>
        let m₂ := f.background (n + 2) m₁
        let info₁ := { info₀ with memoryMap := buffer }
        let taken := s.taken ++ [buffer]
        if efiError (f.mapStatus (n + 2) bufferSize buffer) then
          (⟨m₂, info₁, n + 3, taken, s.freed⟩, some (f.mapStatus (n + 2) bufferSize buffer))
        else
          let m₃ := f.background (n + 3) (f.fill (n + 2) m₂ buffer)
          let info₂ := { info₁ with memoryMapSize := f.mapSize (n + 2) }
          if f.key (n + 2) = f.key (n + 3) then
            (⟨m₃, info₂, n + 4, taken, s.freed⟩, some efiSuccess)
          else
            (⟨f.background (n + 4) m₃, info₂, n + 5, taken, s.freed ++ [buffer]⟩, none)

/-- `ExitBootServicesComplete`, in at most `fuel` rounds. -/
def exitBootServicesComplete (f : Firmware) : ℕ → Session → Option (Session × ℕ)
  | 0, _ => none
  | fuel + 1, s =>
      match exitRound f s with
      | (s', some status) => some (s', status)
      | (s', none) => exitBootServicesComplete f fuel s'

/-- What a firmware keeps to.  A key belongs to one map; buffers come from
`pool`, and the firmware keeps off the memory of the loader. -/
structure Firmware.Lawful (f : Firmware) (pool loader : ℕ → Prop) : Prop where
  descSize : 40 ≤ f.descSize
  key : ∀ n n', f.key n = f.key n' → f.entries n = f.entries n'
  pool_loader : ∀ x, pool x → loader x
  pool : ∀ n size a, f.pool n size = some a →
    a ≠ 0 ∧ a + size ≤ 2 ^ 64 ∧ ∀ x, a ≤ x → x < a + size → pool x
  background : ∀ n m x, loader x → f.background n m x = m x
  fill : ∀ n m a, a + f.mapSize n ≤ 2 ^ 64 →
    descriptors (f.fill n m a) a (f.mapSize n) f.descSize = f.entries n
  fill_outside : ∀ n m a x, x < a ∨ a + f.mapSize n ≤ x → f.fill n m a x = m x

variable {f : Firmware} {pool loader : ℕ → Prop} {s s' : Session} {status fuel : ℕ}

/-! ## One round -/

/-- The kernel finds in memory the map that the firmware had at call `n`. -/
structure HandedOver (f : Firmware) (s : Session) (n : ℕ) : Prop where
  memoryMap : s.info.memoryMap ≠ 0
  memoryMapSize : s.info.memoryMapSize = f.mapSize n
  descSize : s.info.memoryMapDescriptorSize = f.descSize
  fits : s.info.memoryMap + f.mapSize n ≤ 2 ^ 64
  entries : descriptors s.mem s.info.memoryMap (f.mapSize n) f.descSize = f.entries n

/-- Call `n` has ended the boot services, with the map of the moment in the
one buffer that is left. -/
structure Exited (f : Firmware) (s s' : Session) (n : ℕ) : Prop extends HandedOver f s' n where
  calls : s'.calls = n + 1
  taken : s'.taken = s.taken ++ [s'.info.memoryMap]
  freed : s'.freed = s.freed

/-- How a round can end: with an error, and perhaps a buffer that is left
behind; outside the boot services; or where it began, but for a buffer taken
and given back. -/
inductive RoundEnd (f : Firmware) (s s' : Session) : Option ℕ → Prop
  | failed {status : ℕ} (hstatus : efiError status = true) (hfreed : s'.freed = s.freed)
      (htaken : s'.taken = s.taken ∨ ∃ buffer, s'.taken = s.taken ++ [buffer]) :
      RoundEnd f s s' (some status)
  | exited (h : Exited f s s' (s.calls + 3)) (hkey : f.key (s.calls + 2) = f.key (s.calls + 3)) :
      RoundEnd f s s' (some efiSuccess)
  | refused {buffer : ℕ} (hkey : f.key (s.calls + 2) ≠ f.key (s.calls + 3))
      (hcalls : s'.calls = s.calls + 5) (htaken : s'.taken = s.taken ++ [buffer])
      (hfreed : s'.freed = s.freed ++ [buffer]) : RoundEnd f s s' none

theorem efiError_mapStatus {n size buffer : ℕ} :
    efiError (f.mapStatus n size buffer) = false ↔ f.mapSize n ≤ size ∧ buffer ≠ 0 := by
  rw [Firmware.mapStatus]
  split_ifs with hsize hbuffer
  · simp [efiError, efiBufferTooSmall]
    omega
  · simp [efiError, efiInvalidParameter, hbuffer]
  · simp [efiError, efiSuccess, hbuffer]
    omega

theorem buffer_of_pool (h : f.Lawful pool loader) {n n' size a : ℕ}
    (hpool : f.pool n size = some a) (hsize : f.mapSize n' ≤ size) :
    a ≠ 0 ∧ a + f.mapSize n' ≤ 2 ^ 64 ∧ ∀ x, a ≤ x → x < a + f.mapSize n' → pool x := by
  obtain ⟨hne, hfit, hbytes⟩ := h.pool n size a hpool
  exact ⟨hne, by omega, fun x hlow hhigh ↦ hbytes x hlow (by omega)⟩

/-- Every descriptor of the map lies in it. -/
theorem descriptors_congr {m m' : Mem} {a size descSize : ℕ} (hdesc : 40 ≤ descSize)
    (hfit : a + size ≤ 2 ^ 64) (h : ∀ x, a ≤ x → x < a + size → m' x = m x) :
    descriptors m' a size descSize = descriptors m a size descSize := by
  refine List.map_congr_left fun k hk ↦ ?_
  have hk : (k + 1) * descSize ≤ size :=
    (Nat.le_div_iff_mul_le (by omega)).mp (Nat.succ_le_of_lt (List.mem_range.mp hk))
  rw [Nat.add_mul, Nat.one_mul] at hk
  have hfield : ∀ o w, o + w ≤ 40 → readLE m' (a + k * descSize + o) w =
      readLE m (a + k * descSize + o) w :=
    fun o w how ↦ readLE_congr fun x hlow hhigh ↦ h x (by omega) (by omega)
  have htype := hfield 0 4 (by omega)
  have hstart := hfield 8 8 (by omega)
  have hpages := hfield 24 8 (by omega)
  simp only [descriptorAt, descType, descPhysicalStart, descNumberOfPages]
  rw [Nat.mod_eq_of_lt (by omega)]
  exact congr (congrArg₂ MemoryDescriptor.mk htype hstart) hpages

theorem exitRound_end (h : f.Lawful pool loader) {result : Option ℕ}
    (hround : exitRound f s = (s', result)) : RoundEnd f s s' result := by
  simp only [exitRound] at hround
  split at hround
  · next hfirst =>
      obtain ⟨rfl, rfl⟩ := Prod.mk.inj hround
      refine .failed ?_ rfl (Or.inl rfl)
      by_contra hok
      exact (efiError_mapStatus.mp (Bool.eq_false_of_not_eq_true hok)).2 rfl
  split at hround
  · obtain ⟨rfl, rfl⟩ := Prod.mk.inj hround
    exact .failed (by decide) rfl (Or.inl rfl)
  next buffer hpool =>
  split at hround
  · next hsecond =>
      obtain ⟨rfl, rfl⟩ := Prod.mk.inj hround
      exact .failed hsecond rfl (Or.inr ⟨buffer, rfl⟩)
  next hsecond =>
  split at hround
  · next hkey =>
      obtain ⟨rfl, rfl⟩ := Prod.mk.inj hround
      obtain ⟨hsize, -⟩ := efiError_mapStatus.mp (Bool.eq_false_of_not_eq_true hsecond)
      obtain ⟨hne, hfit, hbytes⟩ := buffer_of_pool h hpool hsize
      have hsame := h.key _ _ hkey
      have hmapSize : f.mapSize (s.calls + 3) = f.mapSize (s.calls + 2) := by
        rw [Firmware.mapSize, Firmware.mapSize, hsame]
      refine .exited ⟨⟨hne, hmapSize.symm, rfl, hmapSize ▸ hfit, ?_⟩, rfl, rfl, rfl⟩ hkey
      rw [hmapSize, ← hsame, ← h.fill (s.calls + 2) _ buffer hfit]
      -- the firmware works once more before the exit, but not on the buffer
      refine descriptors_congr h.descSize hfit fun x hlow hhigh ↦ ?_
      exact h.background _ _ x (h.pool_loader x (hbytes x hlow hhigh))
  · next hkey =>
      obtain ⟨rfl, rfl⟩ := Prod.mk.inj hround
      exact .refused hkey rfl rfl rfl

/-- A round changes nothing that the loader holds outside its buffers. -/
theorem exitRound_keeps (h : f.Lawful pool loader) {x : ℕ} (hx : loader x) (hpool : ¬pool x)
    {result : Option ℕ} (hround : exitRound f s = (s', result)) : s'.mem x = s.mem x := by
  have hback := fun n m ↦ h.background n m x hx
  simp only [exitRound] at hround
  split at hround
  · obtain ⟨rfl, -⟩ := Prod.mk.inj hround
    exact hback _ _
  split at hround
  · obtain ⟨rfl, -⟩ := Prod.mk.inj hround
    simp only [hback]
  next buffer hbuffer =>
  split at hround
  · obtain ⟨rfl, -⟩ := Prod.mk.inj hround
    simp only [hback]
  next hsecond =>
  obtain ⟨hsize, -⟩ := efiError_mapStatus.mp (Bool.eq_false_of_not_eq_true hsecond)
  obtain ⟨-, -, hbytes⟩ := buffer_of_pool h hbuffer hsize
  have hout : x < buffer ∨ buffer + f.mapSize (s.calls + 2) ≤ x := by
    by_contra hin
    exact hpool (hbytes x (by omega) (by omega))
  split at hround <;> obtain ⟨rfl, -⟩ := Prod.mk.inj hround <;>
    simp only [hback, h.fill_outside _ _ _ _ hout]

/-! ## The loop -/

/-- How the loop can end.  Whatever the rounds before did, at most the buffer
of the last one is left. -/
inductive LoopEnd (f : Firmware) (s : Session) (status : ℕ) : Prop
  | failed (hstatus : efiError status = true)
      (htaken : s.taken = s.freed ∨ ∃ buffer, s.taken = s.freed ++ [buffer])
  | exited (hstatus : status = efiSuccess) (n : ℕ) (hcalls : s.calls = n + 1)
      (h : HandedOver f s n) (htaken : s.taken = s.freed ++ [s.info.memoryMap])

theorem exitBootServicesComplete_end (h : f.Lawful pool loader) (hs : s.taken = s.freed)
    (hrun : exitBootServicesComplete f fuel s = some (s', status)) :
    LoopEnd f s' status ∧ ∀ x, loader x → ¬pool x → s'.mem x = s.mem x := by
  -- between two rounds every buffer has been given back
  induction fuel generalizing s with
  | zero => cases hrun
  | succ fuel ih =>
      rw [exitBootServicesComplete] at hrun
      split at hrun
      · next s₁ status₁ hround =>
          obtain ⟨rfl, rfl⟩ := Prod.mk.inj (Option.some.inj hrun)
          refine ⟨?_, fun x hx hpool ↦ exitRound_keeps h hx hpool hround⟩
          cases exitRound_end h hround with
          | failed hstatus hfreed htaken =>
              rw [hs, ← hfreed] at htaken
              exact .failed hstatus htaken
          | exited hexit hkey =>
              have htaken := hexit.taken
              rw [hs, ← hexit.freed] at htaken
              exact .exited rfl _ hexit.calls hexit.toHandedOver htaken
      · next s₁ hround =>
          cases exitRound_end h hround with
          | refused hkey hcalls htaken hfreed =>
              obtain ⟨hend, hkeeps⟩ := ih (by rw [htaken, hfreed, hs]) hrun
              refine ⟨hend, fun x hx hpool ↦ ?_⟩
              rw [hkeeps x hx hpool, exitRound_keeps h hx hpool hround]

/-! ## When the loop ends -/

/-- A firmware that never fails a round: it has a map and a buffer for it, and
the map grows by no more than the eight descriptors that the loader allows
for. -/
structure Firmware.Obliging (f : Firmware) : Prop where
  entries : ∀ n, f.entries n ≠ []
  growth : ∀ n, (f.entries (n + 2)).length ≤ (f.entries n).length + 8
  fits : ∀ n, f.mapSize n + f.descSize * 8 < 2 ^ 64
  pool : ∀ n, ∃ a, f.pool (n + 1) (f.mapSize n + f.descSize * 8) = some a

theorem Firmware.Obliging.room (ho : f.Obliging) (n : ℕ) :
    f.mapSize (n + 2) ≤ (f.mapSize n + f.descSize * 8) % 2 ^ 64 := by
  rw [Nat.mod_eq_of_lt (ho.fits n), Firmware.mapSize, Firmware.mapSize,
    Nat.mul_comm f.descSize, ← Nat.add_mul]
  exact Nat.mul_le_mul_right _ (ho.growth n)

/-- With such a firmware only the key decides. -/
theorem exitRound_obliging (h : f.Lawful pool loader) (ho : f.Obliging) (s : Session) :
    ∃ s', s'.calls = s.calls + (if f.key (s.calls + 2) = f.key (s.calls + 3) then 4 else 5) ∧
      exitRound f s =
        (s', if f.key (s.calls + 2) = f.key (s.calls + 3) then some efiSuccess else none) := by
  have hpos : 0 < f.mapSize s.calls :=
    Nat.mul_pos (List.length_pos_of_ne_nil (ho.entries s.calls)) (by have := h.descSize; omega)
  have hfirst : f.mapStatus s.calls 0 0 = efiBufferTooSmall := if_pos hpos
  obtain ⟨a, ha⟩ := ho.pool s.calls
  rw [← Nat.mod_eq_of_lt (ho.fits s.calls)] at ha
  obtain ⟨hne, -⟩ := h.pool _ _ _ ha
  have hsecond : efiError (f.mapStatus (s.calls + 2)
      ((f.mapSize s.calls + f.descSize * 8) % 2 ^ 64) a) = false :=
    efiError_mapStatus.mpr ⟨ho.room s.calls, hne⟩
  simp only [exitRound, hfirst, ne_eq, not_true_eq_false, if_false, ha, hsecond,
    Bool.false_eq_true]
  split
  · exact ⟨_, rfl, rfl⟩
  · exact ⟨_, rfl, rfl⟩

/-- The loop gets out of the boot services exactly when, in some round, the
firmware leaves the map alone between the second fetch and the exit.  Until
then it goes on. -/
theorem exitBootServicesComplete_succeeds_iff (h : f.Lawful pool loader) (ho : f.Obliging)
    (s : Session) (fuel : ℕ) :
    (∃ s', exitBootServicesComplete f fuel s = some (s', efiSuccess)) ↔
      ∃ r < fuel, f.key (s.calls + 5 * r + 2) = f.key (s.calls + 5 * r + 3) := by
  induction fuel generalizing s with
  | zero => simp [exitBootServicesComplete]
  | succ fuel ih =>
      obtain ⟨s₁, hcalls, hround⟩ := exitRound_obliging h ho s
      rw [exitBootServicesComplete, hround]
      by_cases hkey : f.key (s.calls + 2) = f.key (s.calls + 3)
      · rw [if_pos hkey]
        exact iff_of_true ⟨s₁, rfl⟩ ⟨0, Nat.succ_pos fuel, hkey⟩
      · rw [if_neg hkey] at hcalls ⊢
        refine (ih s₁).trans ⟨?_, ?_⟩
        · rintro ⟨r, hr, hstill⟩
          refine ⟨r + 1, by omega, ?_⟩
          rw [hcalls] at hstill
          convert hstill using 2 <;> omega
        · rintro ⟨r, hr, hstill⟩
          obtain _ | r := r
          · exact absurd hstill hkey
          refine ⟨r, by omega, ?_⟩
          rw [hcalls]
          convert hstill using 2 <;> omega

/-- A descriptor of one free frame above the heap. -/
def sampleFields : List Field := [(0, 4, 7), (8, 8, 4352 * 4096), (24, 8, 1)]

theorem descriptors_sampleFields (m : Mem) {a : ℕ} (ha : a + 48 ≤ 2 ^ 64) :
    descriptors (storeFields m a sampleFields) a 48 48 = [⟨7, 4352 * 4096, 1⟩] := by
  have hfields : Separate sampleFields := by decide
  have htype := hfields.readLE (m := m) (a := a) (List.mem_cons_self ..)
  have hstart := hfields.readLE (m := m) (a := a) (List.mem_cons_of_mem _ (List.mem_cons_self ..))
  have hpages := hfields.readLE (m := m) (a := a)
    (List.mem_cons_of_mem _ (List.mem_cons_of_mem _ (List.mem_cons_self ..)))
  rw [Nat.add_zero] at htype
  rw [descriptors, Nat.div_self (by decide), List.range_one, List.map_singleton, Nat.zero_mul,
    Nat.add_zero, Nat.mod_eq_of_lt (by omega), descriptorAt, descType, descPhysicalStart,
    descNumberOfPages, htype, hstart, hpages]
  rfl

/-- A firmware that changes the key of its map of one descriptor during the
first round. -/
def sampleFirmware : Firmware where
  descSize := 48
  descVersion := 1
  entries _ := [⟨7, 4352 * 4096, 1⟩]
  key n := min n 5
  pool _ size := if size ≤ 0x1000 then some 0x8000 else none
  background _ m := m
  fill _ m a := storeFields m a sampleFields

theorem sampleFirmware_lawful : sampleFirmware.Lawful (fun x ↦ 0x8000 ≤ x ∧ x < 0x9000)
    (fun x ↦ x < 0x200000) where
  descSize := by decide
  key _ _ _ := rfl
  pool_loader x hx := by omega
  pool n size a ha := by
    simp only [sampleFirmware] at ha
    split at ha
    · cases ha
      exact ⟨by decide, by omega, fun x hlow hhigh ↦ ⟨hlow, by omega⟩⟩
    · cases ha
  background _ _ _ _ := rfl
  fill n m a ha := descriptors_sampleFields m ha
  fill_outside n m a x hx := by
    have hend : ∀ f ∈ sampleFields, f.1 + f.2.1 ≤ 48 := by decide
    exact storeFields_outside hend hx

theorem sampleFirmware_obliging : sampleFirmware.Obliging where
  entries _ := List.cons_ne_nil _ _
  growth _ := Nat.le_add_right _ _
  fits _ := show 48 + 48 * 8 < 2 ^ 64 by decide
  pool _ := ⟨0x8000, rfl⟩

theorem exitBootServicesComplete_sampleFirmware :
    ∃ s', exitBootServicesComplete sampleFirmware 2 ⟨fun _ ↦ 0, ⟨0, 0, 0, 0⟩, 0, [], []⟩ =
      some (s', efiSuccess) :=
  (exitBootServicesComplete_succeeds_iff sampleFirmware_lawful sampleFirmware_obliging _ 2).mpr
    ⟨1, by decide, by decide⟩

/-! ## The kernel starts -/

/-- How `efi_main` ends, from the call of `LoadKernelELF` on. -/
inductive LoaderEnd where
  | returned (status : ℕ)
  | hangs
  | entered (s : Session) (entry : ℕ)

/-- The memory map is all that `BOOT_INFO` gets here; `allocate` answers
`AllocatePages`. -/
def efiMain (allocate : ℕ → ℕ → ℕ → ℕ) (f : Firmware) (fuel : ℕ) (m : Mem) (image : ℕ) :
    Option LoaderEnd :=
  match loadKernelElf allocate m image with
  | (run, none) => some (.returned run.status)
  | (run, some entry) =>
      (exitBootServicesComplete f fuel ⟨run.mem, ⟨0, 0, 0, 0⟩, 0, [], []⟩).map
        fun (s, status) ↦ if efiError status then .hangs else .entered s entry

section Enter

variable {allocate : ℕ → ℕ → ℕ → ℕ} {m : Mem} {image entry : ℕ}

/-- Every segment has its pages. -/
theorem segmentGrant_mem {calls i k n : ℕ} {m₀ : Mem} (hkept : Kept m₀ image m)
    (hfuel : ePhnum (view m₀ image) ≤ i + n)
    (hsizes : ∀ k < ePhnum (view m₀ image), (kernelHeader m₀ image k).pType = ptLoad →
      (kernelHeader m₀ image k).pFilesz ≤ (kernelHeader m₀ image k).pMemsz)
    (hok : (kernelLoop allocate image (kernelTable m₀ image) n i calls m).status = efiSuccess)
    (hex : Exclusive m₀ image (kernelLoop allocate image (kernelTable m₀ image) n i calls m).grants)
    (hik : i ≤ k) (hk : k < ePhnum (view m₀ image))
    (htype : (kernelHeader m₀ image k).pType = ptLoad) :
    segmentGrant (kernelHeader m₀ image k) ∈
      (kernelLoop allocate image (kernelTable m₀ image) n i calls m).grants := by
  induction n generalizing i calls m with
  | zero => omega
  | succ n ih =>
      rcases kernelLoop_succ_cases hkept hok with
        ⟨hend, -⟩ | ⟨hi, hskip, heq⟩ | ⟨hi, hload, heq⟩
      · omega
      · rw [heq] at hok hex ⊢
        rcases hik.eq_or_lt with rfl | hlt
        · exact absurd htype hskip
        · exact ih hkept (by omega) hok hex hlt
      · rw [heq] at hok hex ⊢
        rcases hik.eq_or_lt with rfl | hlt
        · exact List.mem_cons_self
        have hown : segmentGrant (kernelHeader m₀ image i) ∈
            [segmentGrant (kernelHeader m₀ image i)] := List.mem_singleton_self _
        have hfits := hex.fits _ List.mem_cons_self
        have hoff : OffImage m₀ image [segmentGrant (kernelHeader m₀ image i)] :=
          fun g hg ↦ List.mem_singleton.mp hg ▸ hex.image _ List.mem_cons_self
        have hcopy := copyRange_inGrants hown hfits (hsizes i hi hload)
        have hfill := fillRange_inGrants hown hfits (hsizes i hi hload)
          (kernelHeader_pMemsz_lt m₀ image i)
        rw [loadKernelSegment_eq hkept hoff hi hcopy] at hok hex ⊢
        refine List.mem_cons_of_mem _ (ih ((hkept.copyMem hoff hcopy _).setMem hoff hfill 0)
          (by omega) hok ?_ hlt)
        exact ⟨fun g hg ↦ hex.fits g (List.mem_cons_of_mem _ hg),
          (List.pairwise_cons.mp hex.apart).2,
          fun g hg ↦ hex.image g (List.mem_cons_of_mem _ hg)⟩

/-- The segments are in place, each in pages of its own. -/
theorem loadKernelElf_loadedFrom
    (hok : (loadKernelElf allocate m image).1.status = efiSuccess)
    (hex : Exclusive m image (loadKernelElf allocate m image).1.grants)
    (hsizes : ∀ i < ePhnum (view m image), (kernelHeader m image i).pType = ptLoad →
      (kernelHeader m image i).pFilesz ≤ (kernelHeader m image i).pMemsz) :
    LoadedFrom m image 0 m (loadKernelElf allocate m image).1 ∧
      ∀ i < ePhnum (view m image), (kernelHeader m image i).pType = ptLoad →
        segmentGrant (kernelHeader m image i) ∈ (loadKernelElf allocate m image).1.grants := by
  have hmagic : validMagic (view m image) ≠ false := by
    intro hbad
    rw [loadKernelElf, if_pos hbad] at hok
    exact absurd (show efiLoadError = efiSuccess from hok) (by decide)
  have hrun : (loadKernelElf allocate m image).1 =
      kernelLoop allocate image (kernelTable m image) (2 ^ 16) 0 0 m := by
    rw [loadKernelElf, if_neg hmagic, kernelTable]
  have hnum : ePhnum (view m image) < 256 ^ 2 := readLE_lt _ _ 2
  have hfuel : ePhnum (view m image) ≤ 0 + 2 ^ 16 := by omega
  have hkept : Kept m image m := fun _ _ ↦ rfl
  rw [hrun] at hok hex ⊢
  exact ⟨kernelLoop_loadedFrom hkept hfuel (fun k _ ↦ hsizes k) hok hex,
    fun i ↦ segmentGrant_mem hkept hfuel hsizes hok hex (Nat.zero_le i)⟩

/-- A loader that gets to the kernel has loaded all of it and left the boot
services. -/
theorem efiMain_entered (hrun : efiMain allocate f fuel m image = some (.entered s entry)) :
    (loadKernelElf allocate m image).1.status = efiSuccess ∧
      entry = eEntry (view (loadKernelElf allocate m image).1.mem image) ∧
      ∃ status, efiError status = false ∧
        exitBootServicesComplete f fuel
          ⟨(loadKernelElf allocate m image).1.mem, ⟨0, 0, 0, 0⟩, 0, [], []⟩ = some (s, status) := by
  rw [efiMain] at hrun
  split at hrun
  · cases hrun
  next run entry₁ hload =>
  obtain ⟨⟨s₁, status⟩, hexit, hend⟩ := Option.map_eq_some_iff.mp hrun
  dsimp only at hend
  split at hend
  · cases hend
  next herror =>
  cases hend
  rw [hload]
  rw [loadKernelElf] at hload
  split at hload
  · cases hload
  obtain ⟨rfl, hset⟩ := Prod.mk.inj hload
  split at hset
  · next hok =>
      exact ⟨hok, (Option.some.inj hset).symm, status, Bool.eq_false_of_not_eq_true herror, hexit⟩
  · cases hset

/-- The kernel is entered with every segment in place and with the memory map
of the moment at which the boot services ended, in the only buffer that is
left; its own table of frames is then that of this map. -/
theorem efiMain_enters (kernelEnd : ℕ) (h : f.Lawful pool loader)
    (hentries : ∀ n, ∀ d ∈ f.entries n, d.WellFormed)
    (hfits : ∀ n, f.mapSize n + f.descSize < 2 ^ 64)
    (hex : Exclusive m image (loadKernelElf allocate m image).1.grants)
    (hgrants : ∀ g ∈ (loadKernelElf allocate m image).1.grants,
      ∀ x, g.Covers x → loader x ∧ ¬pool x)
    (hsizes : ∀ i < ePhnum (view m image), (kernelHeader m image i).pType = ptLoad →
      (kernelHeader m image i).pFilesz ≤ (kernelHeader m image i).pMemsz)
    (hrun : efiMain allocate f fuel m image = some (.entered s entry)) :
    entry = eEntry (view m image) ∧
      (∀ i < ePhnum (view m image), (kernelHeader m image i).pType = ptLoad →
        Loaded m image (kernelHeader m image i) s.mem) ∧
      s.taken = s.freed ++ [s.info.memoryMap] ∧
      ∀ p : PageState, p.mem = s.mem → p.heapStartPage = 0 →
        ∃ p₀, initPhysicalMemory kernelEnd s.info.memoryMap s.info.memoryMapSize
            s.info.memoryMapDescriptorSize p = some p₀ ∧
          ∀ i < maxPages, p₀.pageBitmap i = 0 ↔ Free kernelEnd (f.entries (s.calls - 1)) i := by
  obtain ⟨hok, hentry, status, hstatus, hexit⟩ := efiMain_entered hrun
  obtain ⟨hloaded, hpages⟩ := loadKernelElf_loadedFrom hok hex hsizes
  obtain ⟨hend, hkeeps⟩ := exitBootServicesComplete_end h rfl hexit
  cases hend with
  | failed herror => simp [hstatus] at herror
  | exited _ n hcalls hmap htaken =>
  refine ⟨?_, ?_, htaken, ?_⟩
  · -- the header of the image is not in the pages of the kernel
    rw [hentry]
    refine readLE_congr fun j _ hhigh ↦ hloaded.frame _ fun g hg hcovers ↦ ?_
    exact hex.image g hg _ hcovers (Or.inl ⟨j, by omega, rfl⟩)
  · intro i hi htype
    refine (hloaded.loaded i (Nat.zero_le i) hi htype).congr (hsizes i hi htype) fun j hj ↦ ?_
    have hg := hpages i hi htype
    obtain ⟨hx, hpool⟩ := hgrants _ hg _ (segmentGrant_covers (hex.fits _ hg) hj)
    exact hkeeps _ hx hpool
  · intro p hp hstart
    rw [hmap.memoryMapSize, hmap.descSize]
    have hentries' : descriptors p.mem s.info.memoryMap (f.mapSize n) f.descSize =
        f.entries n := by rw [hp, hmap.entries]
    have hdesc := h.descSize
    obtain ⟨p₀, hinit, htable⟩ := initPhysicalMemory_table hstart hmap.memoryMap (by omega)
      (hfits n) (hentries' ▸ hentries n) kernelEnd
    refine ⟨p₀, hinit, fun i hi ↦ ?_⟩
    rw [(htable i hi).1, hentries', hcalls, Nat.add_sub_cancel]

theorem efiMain_enters_sampleKernel :
    ∃ s, efiMain grantingPages sampleFirmware 2 (sampleKernel 2 4) 0x1000 = some (.entered s 0) ∧
      Loaded (sampleKernel 2 4) 0x1000 ⟨1, 120, 0x100000, 2, 4⟩ s.mem ∧
      s.freed = [0x8000] ∧
      ∃ p₀, initPhysicalMemory 0x100000 0x8000 48 48 (.boot s.mem) = some p₀ ∧
        p₀.pageBitmap 4352 = 0 ∧ p₀.pageBitmap 4353 ≠ 0 := by
  -- One evaluation for all facts about the image.
  obtain ⟨hnum, htable, hheader, hgrants, hentry⟩ :
      ePhnum (view (sampleKernel 2 4) 0x1000) = 1 ∧
        kernelTable (sampleKernel 2 4) 0x1000 = 0x1040 ∧
        kernelHeader (sampleKernel 2 4) 0x1000 0 = ⟨1, 120, 0x100000, 2, 4⟩ ∧
        (loadKernelElf grantingPages (sampleKernel 2 4) 0x1000).1.grants = [⟨0x100000, 1⟩] ∧
        (loadKernelElf grantingPages (sampleKernel 2 4) 0x1000).2 = some 0 := by
    decide +kernel
  have hex : Exclusive (sampleKernel 2 4) 0x1000 [⟨0x100000, 1⟩] :=
    exclusive_of_small_image hnum htable (by rw [hheader]) (by rw [hheader]; decide)
  have hload : loadKernelElf grantingPages (sampleKernel 2 4) 0x1000 =
      ((loadKernelElf grantingPages (sampleKernel 2 4) 0x1000).1, some 0) := by rw [← hentry]
  obtain ⟨s, hrun, hfreed, hinfo⟩ :
      ∃ s, efiMain grantingPages sampleFirmware 2 (sampleKernel 2 4) 0x1000 = some (.entered s 0) ∧
        s.freed = [0x8000] ∧ s.info = ⟨0x8000, 48, 48, 1⟩ := by
    rw [efiMain, hload]
    exact ⟨_, rfl, rfl, rfl⟩
  have hapart : ∀ g ∈ (loadKernelElf grantingPages (sampleKernel 2 4) 0x1000).1.grants,
      ∀ x, g.Covers x → x < 0x200000 ∧ ¬(0x8000 ≤ x ∧ x < 0x9000) := by
    rw [hgrants]
    rintro g hg x hx
    rw [List.mem_singleton.mp hg] at hx
    exact ⟨hx.2.trans (by decide), fun hpool ↦ absurd (hx.1.trans_lt hpool.2) (by decide)⟩
  have hsizes : ∀ i < ePhnum (view (sampleKernel 2 4) 0x1000),
      (kernelHeader (sampleKernel 2 4) 0x1000 i).pType = ptLoad →
      (kernelHeader (sampleKernel 2 4) 0x1000 i).pFilesz ≤
        (kernelHeader (sampleKernel 2 4) 0x1000 i).pMemsz := by
    intro i hi _
    obtain rfl : i = 0 := by omega
    rw [hheader]
    decide
  obtain ⟨-, hloaded, -, htable⟩ := efiMain_enters 0x100000 sampleFirmware_lawful
    (fun _ d hd ↦ List.mem_singleton.mp hd ▸ ⟨by decide, by decide⟩)
    (fun _ ↦ show 48 + 48 < 2 ^ 64 by decide) (hgrants ▸ hex) hapart hsizes hrun
  rw [hinfo] at htable
  obtain ⟨p₀, hinit, hfree⟩ := htable (.boot s.mem) rfl rfl
  refine ⟨s, hrun, hheader ▸ hloaded 0 (by rw [hnum]; decide) (by rw [hheader]; rfl), hfreed,
    p₀, hinit, (hfree 4352 (by decide)).mpr ?_, fun hzero ↦ ?_⟩
  · exact ⟨by decide, _, List.mem_singleton_self _, rfl, by decide, by decide⟩
  · obtain ⟨-, d, hd, -, -, hhigh⟩ := (hfree 4353 (by decide)).mp hzero
    rw [List.mem_singleton.mp hd] at hhigh
    exact absurd hhigh (by decide)

end Enter

end ImplusKernel.BootLoader
