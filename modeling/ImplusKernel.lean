import ImplusKernel.Cpu.Modes
import ImplusKernel.Display.SetUp
import ImplusKernel.Display.Virtqueue
import ImplusKernel.FileSystem.AtaPorts
import ImplusKernel.FileSystem.FatUpdate
import ImplusKernel.FileSystem.LongNames
import ImplusKernel.FileSystem.Metadata
import ImplusKernel.Loader.BootServices
import ImplusKernel.Loader.Mount
import ImplusKernel.Loader.UserSegments
import ImplusKernel.Memory.HeapFragmentation
import ImplusKernel.Paging.SlotTable
import ImplusKernel.Process.Stacks
import ImplusKernel.Serial.FaultReport
import ImplusKernel.Syscall.FileNeutral
import ImplusKernel.Syscall.FileWalks
import ImplusKernel.Syscall.PathNames
import ImplusKernel.Userland.LoadPng
import ImplusKernel.Userland.PngRefinement
