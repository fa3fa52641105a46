import ImplusKernel.Lib.ByteMemory
import Mathlib.Logic.Function.Basic

/-!
# The disk

One ATA drive, addressed with 28-bit sector numbers after an offset of 2048
sectors is added in 32-bit arithmetic.  How the drive answers a command is a
parameter of the model, indexed by the number of the command.
-/

namespace ImplusKernel.Disk

open ByteMemory

def fat32StartLba : ℕ := 2048

inductive ReadStatus
  | ready
  | bsyTimeout
  | diskError
  | drqTimeout
deriving DecidableEq, Repr

def ReadStatus.serial : ReadStatus → List String
  | .ready => []
  | .bsyTimeout => ["[OS] [IO] Timeout waiting for BSY clear\n"]
  | .diskError => ["[OS] [IO] Disk error detected\n"]
  | .drqTimeout => ["[OS] [IO] Timeout waiting for DRQ\n"]

/-- How the drive answers its `n`-th command, and what a stack buffer held
before that command filled the front of it. -/
structure Drive where
  readStatus : ℕ → ReadStatus
  writeOk : ℕ → Bool
  stack : ℕ → Mem

/-- The contents of the drive, the commands it has been given, the `lba`
arguments of the calls of `disk_write` (latest first), and the texts printed
on the serial port. -/
structure IoState where
  sectors : ℕ → Mem
  commands : ℕ
  written : List ℕ
  serial : List String

def IoState.print (io : IoState) (texts : List String) : IoState :=
  { io with serial := io.serial ++ texts }

/-- The sector that command `s` of a transfer at `lba` addresses: the top
four bits of `real_lba` never reach the drive. -/
def sectorOf (lba s : ℕ) : ℕ := (fat32StartLba + lba + s) % 2 ^ 32 % 2 ^ 28

def readCommands (drive : Drive) : ℕ → IoState → IoState × Bool
  | 0, io => (io, true)
  | n + 1, io =>
      let status := drive.readStatus io.commands
      let io := { io with commands := io.commands + 1 }
      match status with
      | .ready => readCommands drive n io
      | failure => (io.print failure.serial, false)

/-- The buffer on success: 512 bytes a sector, then what the stack held. -/
def diskRead (drive : Drive) (io : IoState) (lba sectors : ℕ) : IoState × Option Mem :=
  if sectors = 0 then (io, none)
  else
    let (io', ok) := readCommands drive sectors io
    (io', if ok then some fun i ↦
      if i < 512 * sectors then io.sectors (sectorOf lba (i / 512)) (i % 512)
      else drive.stack io.commands i
    else none)

def writeCommands (drive : Drive) (lba : ℕ) (buffer : Mem) : ℕ → ℕ → IoState → IoState × Bool
  | 0, _, io => (io, true)
  | n + 1, s, io =>
      let io' := { io with commands := io.commands + 1 }
      if drive.writeOk io.commands then
        writeCommands drive lba buffer n (s + 1)
          { io' with
            sectors := Function.update io'.sectors (sectorOf lba s) fun i ↦ buffer (512 * s + i) }
      else (io', false)

def diskWrite (drive : Drive) (io : IoState) (lba : ℕ) (buffer : Mem) (sectors : ℕ) :
    IoState × Bool :=
  if sectors = 0 then (io, false)
  else writeCommands drive lba buffer sectors 0 { io with written := lba :: io.written }

end ImplusKernel.Disk
