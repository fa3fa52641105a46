import ImplusKernel.FileSystem.DiskSpec
import Mathlib.Data.List.Nodup

/-!
# The ports of the drive

For each sector of a transfer the driver writes six registers of the ATA
controller and polls its status register.  Here the polls are explicit, and a
transfer leaves the list of the commands it has issued.  The drive of the disk
model is what this comes to when only the outcome of each command counts.
-/

namespace ImplusKernel.Disk

open ByteMemory

/-- The registers at the moment a command is written. -/
structure TaskFile where
  hddevsel : UInt8
  seccount : UInt8
  lba0 : UInt8
  lba1 : UInt8
  lba2 : UInt8
  command : UInt8
deriving DecidableEq, Repr

def realLba (lba s : ℕ) : ℕ := (fat32StartLba + lba + s) % 2 ^ 32

/-- The six `outb` of a round. -/
def taskFile (command : UInt8) (realLba : ℕ) : TaskFile where
  hddevsel := UInt8.ofNat (0xE0 ||| (realLba >>> 24 &&& 0x0F))
  seccount := 1
  lba0 := UInt8.ofNat (realLba &&& 0xFF)
  lba1 := UInt8.ofNat (realLba >>> 8 &&& 0xFF)
  lba2 := UInt8.ofNat (realLba >>> 16 &&& 0xFF)
  command := command

/-- The 28-bit sector number that the drive sees. -/
def TaskFile.address (t : TaskFile) : ℕ :=
  (t.hddevsel.toNat &&& 0x0F) * 2 ^ 24 + t.lba2.toNat * 2 ^ 16 + t.lba1.toNat * 2 ^ 8 +
    t.lba0.toNat

/-- The reads of the status register so far, and the commands issued. -/
structure Bus where
  polls : ℕ
  issued : List TaskFile
deriving DecidableEq, Repr

def ataTimeout : ℕ := 10000000

/-! ## Polling

`status k` is what poll number `k` reads.  Each loop returns the number of the
next poll. -/

/-- `while (inb(ATA_STATUS) & ATA_SR_BSY)`, with the polls left. -/
def waitBsy (status : ℕ → UInt8) : ℕ → ℕ → ℕ × Bool
  | 0, k => (k, false)
  | timeout + 1, k =>
      if status k &&& 0x80 = 0 then (k + 1, true)
      else if timeout = 0 then (k + 1, false)
      else waitBsy status timeout (k + 1)

/-- The second loop of `disk_read`: the timeout is checked before the bit. -/
def waitDrqOrError (status : ℕ → UInt8) : ℕ → ℕ → ℕ × ReadStatus
  | 0, k => (k, .drqTimeout)
  | timeout + 1, k =>
      if status k &&& 0x01 ≠ 0 then (k + 1, .diskError)
      else if timeout = 0 then (k + 1, .drqTimeout)
      else if status k &&& 0x08 ≠ 0 then (k + 1, .ready)
      else waitDrqOrError status timeout (k + 1)

/-- The second loop of `disk_write`. -/
def waitDrq (status : ℕ → UInt8) : ℕ → ℕ → ℕ × Bool
  | 0, k => (k, false)
  | timeout + 1, k =>
      if status k &&& 0x08 ≠ 0 then (k + 1, true)
      else if timeout = 0 then (k + 1, false)
      else waitDrq status timeout (k + 1)

def answerRead (status : ℕ → UInt8) (k : ℕ) : ℕ × ReadStatus :=
  match waitBsy status ataTimeout k with
  | (k, false) => (k, .bsyTimeout)
  | (k, true) => waitDrqOrError status ataTimeout k

def answerWrite (status : ℕ → UInt8) (k : ℕ) : ℕ × Bool :=
  match waitBsy status ataTimeout k with
  | (k, false) => (k, false)
  | (k, true) => waitDrq status ataTimeout k

/-! ## Transfers -/

/-- The loop over the sectors; `answer` is what the polls of a round come to. -/
def commandLoop (answer : ℕ → ℕ × Bool) (command : UInt8) (lba : ℕ) :
    ℕ → ℕ → Bus → Bus × Bool
  | 0, _, bus => (bus, true)
  | n + 1, s, bus =>
      let (polls, ok) := answer bus.polls
      let bus := ⟨polls, bus.issued ++ [taskFile command (realLba lba s)]⟩
      if ok then commandLoop answer command lba n (s + 1) bus else (bus, false)

def transfer (answer : ℕ → ℕ × Bool) (command : UInt8) (bus : Bus) (lba sectors : ℕ) :
    Bus × Bool :=
  if sectors = 0 then (bus, false) else commandLoop answer command lba sectors 0 bus

def ataDiskRead (status : ℕ → UInt8) : Bus → ℕ → ℕ → Bus × Bool :=
  transfer (fun k ↦ ((answerRead status k).1, (answerRead status k).2 = .ready)) 0x20

def ataDiskWrite (status : ℕ → UInt8) : Bus → ℕ → ℕ → Bus × Bool :=
  transfer (answerWrite status) 0x30

/-- Each command addresses the sector that was asked for, counted without
wrap-around: no two commands meet and none goes before the partition. -/
structure WellAddressed (lba : ℕ) (commands : List TaskFile) : Prop where
  exact : ∀ s t, commands[s]? = some t → t.address = fat32StartLba + lba + s
  distinct : (commands.map TaskFile.address).Nodup
  in_partition : ∀ t ∈ commands, fat32StartLba ≤ t.address

variable {answer : ℕ → ℕ × Bool} {command : UInt8} {lba n s : ℕ} {bus : Bus}

/-! ## Addresses -/

theorem address_taskFile (command : UInt8) (r : ℕ) :
    (taskFile command r).address = r % 2 ^ 28 := by
  have hbyte (x : ℕ) : (UInt8.ofNat (x &&& 0xFF)).toNat = x % 256 := by
    rw [UInt8.toNat_ofNat', Nat.and_two_pow_sub_one_eq_mod x 8]
    omega
  have hnibble : r >>> 24 &&& 0x0F = r / 2 ^ 24 % 16 := by
    rw [Nat.shiftRight_eq_div_pow, Nat.and_two_pow_sub_one_eq_mod _ 4]
  have hlow : r / 2 ^ 24 % 16 < 2 ^ 4 := Nat.mod_lt _ (by norm_num)
  have hselect : (0xE0 : ℕ) ||| r / 2 ^ 24 % 16 = 0xE0 + r / 2 ^ 24 % 16 :=
    (Nat.two_pow_add_eq_or_of_lt hlow 14).symm
  have htop : (taskFile command r).hddevsel.toNat &&& 0x0F = r / 2 ^ 24 % 16 := by
    rw [taskFile, hnibble, hselect, UInt8.toNat_ofNat', Nat.and_two_pow_sub_one_eq_mod _ 4]
    omega
  have hlba0 : (taskFile command r).lba0.toNat = r % 256 := hbyte r
  have hlba1 : (taskFile command r).lba1.toNat = r / 2 ^ 8 % 256 := by
    rw [← Nat.shiftRight_eq_div_pow]
    exact hbyte _
  have hlba2 : (taskFile command r).lba2.toNat = r / 2 ^ 16 % 256 := by
    rw [← Nat.shiftRight_eq_div_pow]
    exact hbyte _
  rw [TaskFile.address, htop, hlba0, hlba1, hlba2]
  omega

theorem sectorOf_eq_address (command : UInt8) (lba s : ℕ) :
    sectorOf lba s = (taskFile command (realLba lba s)).address := by
  rw [address_taskFile, sectorOf, realLba]

/-! ## The commands of a transfer -/

def commands (command : UInt8) (lba n : ℕ) : List TaskFile :=
  (List.range n).map fun s ↦ taskFile command (realLba lba s)

theorem commandLoop_succ (answer : ℕ → ℕ × Bool) (command : UInt8) (lba n s : ℕ) (bus : Bus) :
    commandLoop answer command lba (n + 1) s bus =
      let bus' : Bus := ⟨(answer bus.polls).1, bus.issued ++ [taskFile command (realLba lba s)]⟩
      if (answer bus.polls).2 then commandLoop answer command lba n (s + 1) bus'
      else (bus', false) := rfl

theorem commandLoop_issued (h : (commandLoop answer command lba n s bus).2 = true) :
    (commandLoop answer command lba n s bus).1.issued =
      bus.issued ++ (List.range' s n).map fun k ↦ taskFile command (realLba lba k) := by
  induction n generalizing s bus with
  | zero => simp [commandLoop]
  | succ n ih =>
      rw [commandLoop_succ] at h ⊢
      cases hok : (answer bus.polls).2 with
      | false =>
          rw [hok] at h
          cases h
      | true =>
          rw [hok] at h
          rw [List.range'_succ, List.map_cons]
          exact (ih h).trans (List.append_assoc ..)

theorem transfer_issued {sectors : ℕ} (h : (transfer answer command bus lba sectors).2 = true) :
    sectors ≠ 0 ∧
      (transfer answer command bus lba sectors).1.issued =
        bus.issued ++ commands command lba sectors := by
  rw [transfer] at h ⊢
  by_cases hzero : sectors = 0
  · rw [if_pos hzero] at h
    cases h
  · rw [if_neg hzero] at h ⊢
    rw [commands, List.range_eq_range']
    exact ⟨hzero, commandLoop_issued h⟩

theorem commands_getElem? {sectors : ℕ} {t : TaskFile} :
    (commands command lba sectors)[s]? = some t ↔
      s < sectors ∧ taskFile command (realLba lba s) = t := by
  rw [commands, List.getElem?_map, Option.map_eq_some_iff]
  constructor
  · rintro ⟨k, hk, rfl⟩
    obtain ⟨hs, rfl⟩ := List.getElem?_eq_some_iff.mp hk
    rw [List.length_range] at hs
    rw [List.getElem_range]
    exact ⟨hs, rfl⟩
  · rintro ⟨hs, rfl⟩
    exact ⟨s, List.getElem?_range hs, rfl⟩

/-- The last sector decides. -/
theorem wellAddressed_iff {sectors : ℕ} (hlba : lba < 2 ^ 32) (hpos : sectors ≠ 0)
    (hsectors : sectors < 2 ^ 32) :
    WellAddressed lba (commands command lba sectors) ↔
      fat32StartLba + lba + sectors ≤ 2 ^ 28 := by
  have hstart : fat32StartLba = 2048 := rfl
  have haddress (s : ℕ) : (taskFile command (realLba lba s)).address =
      (fat32StartLba + lba + s) % 2 ^ 32 % 2 ^ 28 := (sectorOf_eq_address command lba s).symm
  constructor
  · intro h
    have hlast := h.exact (sectors - 1) _ (commands_getElem?.mpr ⟨by omega, rfl⟩)
    rw [haddress] at hlast
    omega
  · intro hfit
    have hexact : ∀ s < sectors, (taskFile command (realLba lba s)).address =
        fat32StartLba + lba + s := by
      intro s hs
      rw [haddress]
      omega
    refine ⟨?_, ?_, ?_⟩
    · intro s t ht
      obtain ⟨hs, rfl⟩ := commands_getElem?.mp ht
      exact hexact s hs
    · rw [commands, List.map_map]
      refine List.Nodup.map_on ?_ List.nodup_range
      intro x hx y hy heq
      rw [List.mem_range] at hx hy
      have hsum := (hexact x hx).symm.trans (heq.trans (hexact y hy))
      omega
    · intro t ht
      obtain ⟨s, hs⟩ := List.mem_iff_getElem?.mp ht
      obtain ⟨hlt, rfl⟩ := commands_getElem?.mp hs
      rw [hexact s hlt]
      omega

/-! ## The drive of the disk model -/

/-- The number of the first poll of command `j`. -/
def pollsAt (answer : ℕ → ℕ × Bool) (k : ℕ) : ℕ → ℕ
  | 0 => k
  | j + 1 => pollsAt answer (answer k).1 j

theorem commandLoop_true_iff :
    (commandLoop answer command lba n s bus).2 = true ↔
      ∀ j < n, (answer (pollsAt answer bus.polls j)).2 = true := by
  induction n generalizing s bus with
  | zero => simp [commandLoop]
  | succ n ih =>
      rw [commandLoop_succ, Nat.forall_lt_succ_left]
      cases hok : (answer bus.polls).2 with
      | false => simp [pollsAt, hok]
      | true => simpa [pollsAt, hok] using ih

theorem readCommands_true_iff (drive : Drive) (io : IoState) :
    (readCommands drive n io).2 = true ↔ ∀ j < n, drive.readStatus (io.commands + j) = .ready := by
  induction n generalizing io with
  | zero => simp [readCommands]
  | succ n ih =>
      rw [readCommands, Nat.forall_lt_succ_left]
      have hrest := ih { io with commands := io.commands + 1 }
      simp only [Nat.add_assoc, Nat.add_comm 1] at hrest
      cases drive.readStatus io.commands with
      | ready => simpa using hrest
      | bsyTimeout => simp
      | diskError => simp
      | drqTimeout => simp

theorem writeCommands_true_iff (drive : Drive) (buffer : Mem) (io : IoState) :
    (writeCommands drive lba buffer n s io).2 = true ↔
      ∀ j < n, drive.writeOk (io.commands + j) = true := by
  induction n generalizing s io with
  | zero => simp [writeCommands]
  | succ n ih =>
      rw [writeCommands, Nat.forall_lt_succ_left]
      have hrest := @ih (s + 1) { io with
        commands := io.commands + 1
        sectors := Function.update io.sectors (sectorOf lba s) fun i ↦ buffer (512 * s + i) }
      simp only [Nat.add_assoc, Nat.add_comm 1] at hrest
      cases drive.writeOk io.commands with
      | false => simp
      | true => simpa using hrest

section Refinement

variable {status : ℕ → UInt8} {drive : Drive} {io : IoState}

/-- A drive that answers each command as the polls do reads when they do, from
the sectors in the registers. -/
theorem diskRead_refines
    (hdrive : ∀ j < n, (drive.readStatus (io.commands + j) = .ready ↔
      (answerRead status (pollsAt (fun k ↦ ((answerRead status k).1,
        (answerRead status k).2 = .ready)) bus.polls j)).2 = .ready)) :
    (diskRead drive io lba n).2 =
      if (ataDiskRead status bus lba n).2 then
        some fun i ↦
          if i < 512 * n then io.sectors (taskFile 0x20 (realLba lba (i / 512))).address (i % 512)
          else drive.stack io.commands i
      else none := by
  have hsame : (readCommands drive n io).2 =
      (commandLoop (fun k ↦ ((answerRead status k).1, (answerRead status k).2 = .ready)) 0x20
        lba n 0 bus).2 := by
    rw [Bool.eq_iff_iff, readCommands_true_iff, commandLoop_true_iff]
    simp only [decide_eq_true_eq]
    exact forall₂_congr hdrive
  simp only [← sectorOf_eq_address]
  rw [diskRead, ataDiskRead, transfer]
  by_cases hn : n = 0
  · rw [if_pos hn, if_pos hn]
    rfl
  · rw [if_neg hn, if_neg hn, ← hsame]

theorem diskWrite_refines (buffer : Mem)
    (hdrive : ∀ j < n, drive.writeOk (io.commands + j) =
      (answerWrite status (pollsAt (answerWrite status) bus.polls j)).2) :
    (diskWrite drive io lba buffer n).2 = (ataDiskWrite status bus lba n).2 := by
  rw [diskWrite, ataDiskWrite, transfer]
  by_cases hn : n = 0
  · rw [if_pos hn, if_pos hn]
  · rw [if_neg hn, if_neg hn, Bool.eq_iff_iff, writeCommands_true_iff, commandLoop_true_iff]
    exact forall₂_congr fun j hj ↦ by rw [hdrive j hj]

end Refinement

/-! ## Exactness -/

theorem WellAddressed.no_alias {lba' : ℕ} {issued issued' : List TaskFile}
    (h : WellAddressed lba issued) (h' : WellAddressed lba' issued') {s s' : ℕ} {t t' : TaskFile}
    (ht : issued[s]? = some t) (ht' : issued'[s']? = some t') (heq : t.address = t'.address) :
    lba + s = lba' + s' := by
  have hs := h.exact s t ht
  have hs' := h'.exact s' t' ht'
  omega

/-- A transfer that succeeds has issued one command for each sector.  They
address the sectors meant, and then never the sector of another such transfer,
exactly when the last of them has a number of 28 bits. -/
theorem transfer_wellAddressed_iff {status : ℕ → UInt8} {bus bus' : Bus} {lba sectors : ℕ}
    (hlba : lba < 2 ^ 32) (hsectors : sectors < 2 ^ 32)
    (h : ataDiskRead status bus lba sectors = (bus', true) ∨
      ataDiskWrite status bus lba sectors = (bus', true)) :
    ∃ issued, bus'.issued = bus.issued ++ issued ∧ issued.length = sectors ∧
      (WellAddressed lba issued ↔ fat32StartLba + lba + sectors ≤ 2 ^ 28) ∧
      (fat32StartLba + lba + sectors ≤ 2 ^ 28 →
        ∀ lba' issued', WellAddressed lba' issued' → ∀ s s' t t', issued[s]? = some t →
          issued'[s']? = some t' → t.address = t'.address → lba + s = lba' + s') := by
  obtain ⟨command, hpos, hissued⟩ : ∃ command, sectors ≠ 0 ∧
      bus'.issued = bus.issued ++ commands command lba sectors := by
    rcases h with h | h
    · have hrun := transfer_issued (congrArg Prod.snd h)
      rw [← ataDiskRead, h] at hrun
      exact ⟨_, hrun⟩
    · have hrun := transfer_issued (congrArg Prod.snd h)
      rw [← ataDiskWrite, h] at hrun
      exact ⟨_, hrun⟩
  have hiff : WellAddressed lba (commands command lba sectors) ↔ _ :=
    wellAddressed_iff hlba hpos hsectors
  refine ⟨_, hissued, by simp [commands], hiff, ?_⟩
  intro hfit lba' issued' h' s s' t t'
  exact (hiff.mpr hfit).no_alias h'

/-- Two sectors at the start of the partition, from a drive that is ready at
every poll. -/
theorem transfer_wellAddressed_iff_two_sectors :
    ∃ bus', ataDiskRead (fun _ ↦ 0x08) ⟨0, []⟩ 0 2 = (bus', true) ∧
      WellAddressed 0 bus'.issued := by
  obtain ⟨bus', hrun⟩ : ∃ bus', ataDiskRead (fun _ ↦ 0x08) ⟨0, []⟩ 0 2 = (bus', true) :=
    ⟨_, rfl⟩
  obtain ⟨issued, hissued, -, hiff, -⟩ :=
    transfer_wellAddressed_iff (by decide) (by decide) (Or.inl hrun)
  rw [List.nil_append] at hissued
  exact ⟨bus', hrun, hissued ▸ hiff.mpr (by decide)⟩

/-- A write to sector `2 ^ 28 - 2048` of the partition goes to the first sector
of the disk. -/
theorem write_wraps_to_partition_table :
    ∃ t, ataDiskWrite (fun _ ↦ 0x08) ⟨0, []⟩ 0xFFFF800 1 = (⟨2, [t]⟩, true) ∧ t.address = 0 ∧
      ¬WellAddressed 0xFFFF800 [t] := by
  refine ⟨taskFile 0x30 0x10000000, rfl, rfl, fun h ↦ ?_⟩
  exact absurd (h.exact 0 _ rfl) (by decide)

end ImplusKernel.Disk
