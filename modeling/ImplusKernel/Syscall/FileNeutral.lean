import ImplusKernel.Memory.HeapNeutral
import ImplusKernel.Syscall.FileTotality

/-!
# The file calls and the block list

A read or write borrows a block for the whole file and gives it back on every
path, so the heap's block list is the same before and after.  This fails
where the block is smaller than the file: a size of almost 4 GiB rounds to
zero, and what the drive delivers overwrites the list.
-/

namespace ImplusKernel.Syscall

open ByteMemory Disk Fat32 Heap

variable {drive : Drive} {m m' : Machine} {act : Action} {r : ℤ} {bs : List Block}
  {live : List ℕ} {P : MemoryState → List Block → Prop}

/-! ## One call -/

/-- A file call that fits leaves the list as it found it. -/
theorem perform_restores (hP : Stable P) (h : HeapInvariant m.memory bs) (hc : Coalesced bs)
    (hs : P m.memory bs) (hfits : act.Fits m) (hcall : perform drive m act = some (m', r)) :
    HeapInvariant m'.memory bs ∧ P m'.memory bs := by
  cases act with
  | openFile path flags =>
      have hsame : m'.memory = m.memory := by
        rw [← (Prod.mk.inj (Option.some.inj hcall)).1]
        exact syscallFileOpen_memory drive m path flags
      rw [hsame]
      exact ⟨h, hs⟩
  | readFile fd buffer len =>
      rcases syscallFileRead_borrows h (fun hbad ↦ (hfits hbad).1) (fun hbad ↦ (hfits hbad).2)
        hcall with hsame | ⟨hmoves, hborrows⟩
      · rw [hsame]
        exact ⟨h, hs⟩
      · obtain ⟨hsize, hbuf⟩ := hfits hmoves.1
        exact hborrows.restores hP h hc hsize (fun x hx ↦ hbuf.owned x hx.2.1 hx.2.2) hs
  | writeFile fd buffer len =>
      rcases syscallFileWrite_borrows h hfits hcall with hsame | ⟨hmoves, hborrows⟩
      · rw [hsame]
        exact ⟨h, hs⟩
      · exact hborrows.restores hP h hc (hfits hmoves.1) (fun _ hx ↦ hx.elim) hs
  | closeFile fd =>
      have hsame : m'.memory = m.memory := by
        rw [← (Prod.mk.inj (Option.some.inj hcall)).1]
        exact syscallFileClose_memory m fd
      rw [hsame]
      exact ⟨h, hs⟩

/-! ## Whole runs -/

/-- The states reached from `memory_init` on by heap calls and stores of the
owners of allocations, stores elsewhere outside the allocator's own bytes,
file calls, and whatever happens to the drive in between. -/
inductive MachineRun (drive : Drive) (Allowed : Machine → Action → Prop) :
    Machine → List ℕ → Prop
  | start {kernelEnd : ℕ} (hk : KernelEndValid kernelEnd) (mem : Mem) (io : IoState) (bpb : Bpb)
      (files : ℕ → KernelFile) :
      MachineRun drive Allowed ⟨memoryInit kernelEnd (.boot mem), io, bpb, files⟩ []
  | heap {m : Machine} {live live' : List ℕ} {s : MemoryState}
      (hrun : MachineRun drive Allowed m live) (hheap : HeapRun m.memory live s live') :
      MachineRun drive Allowed { m with memory := s } live'
  | store {m : Machine} {live : List ℕ} (x : ℕ) (v : UInt8)
      (hrun : MachineRun drive Allowed m live) (hx : ClientByte m.memory x) :
      MachineRun drive Allowed (m.setMem (Function.update m.memory.mem x v)) live
  | call {m m' : Machine} {live : List ℕ} {r : ℤ} (act : Action)
      (hrun : MachineRun drive Allowed m live) (hallowed : Allowed m act)
      (hcall : perform drive m act = some (m', r)) : MachineRun drive Allowed m' live
  | drive {m : Machine} {live : List ℕ} (io : IoState) (hrun : MachineRun drive Allowed m live) :
      MachineRun drive Allowed { m with io := io } live

/-- Statistics in step with the blocks, free blocks apart, room at the end. -/
def Settled (s : MemoryState) (bs : List Block) : Prop :=
  Balanced s bs ∧ Coalesced bs ∧ LastRoomy bs

theorem stable_settled : Stable Settled := by
  refine stable_balanced.and (Stable.and ?_ stable_lastRoomy)
  exact ⟨fun _ hb h ↦ h.allocate hb, fun _ hb h ↦ h.release hb, fun _ h ↦ h⟩

theorem MachineRun.settled (hrun : MachineRun drive (fun m act ↦ act.Fits m) m live) :
    ∃ bs, HeapInvariant m.memory bs ∧ Tracks bs live ∧ Settled m.memory bs := by
  induction hrun with
  | start hk mem io bpb files =>
      refine ⟨_, heapInvariant_memoryInit hk mem, tracks_nil_of_free (by simp),
        balanced_memoryInit _ mem (by simp), List.isChain_singleton _, lastRoomy_memoryInit _⟩
  | heap _ hheap ih =>
      obtain ⟨bs, h, ht, hs⟩ := ih
      exact hheap.preserves stable_settled h ht hs
  | @store m live x v _ hx ih =>
      obtain ⟨bs, h, ht, hs⟩ := ih
      refine ⟨bs, h.clientStore (w := (· = x)) (fun y hy ↦ hy ▸ hx) fun y hy ↦ ?_, ht,
        stable_settled.write _ hs⟩
      exact Function.update_of_ne (fun heq ↦ hy heq) v m.memory.mem
  | call act _ hfits hcall ih =>
      obtain ⟨bs, h, ht, hs⟩ := ih
      obtain ⟨h', hs'⟩ := perform_restores stable_settled h hs.2.1 hs hfits hcall
      exact ⟨bs, h', ht, hs'⟩
  | drive io _ ih => exact ih

/-- In every state of a run whose file calls fit: what `kmalloc` hands out is
taken back by `kfree` with the block list and both statistics as before, and
the next file call that fits leaves the block list as it found it. -/
theorem heap_neutral (hrun : MachineRun drive (fun m act ↦ act.Fits m) m live) :
    (∀ size s' r, kmalloc m.memory size = some (s', r) → r.ptr ≠ 0 →
      ∃ s'', kfree s' r.ptr = some (s'', .freed) ∧ SameBlocks m.memory s'' ∧
        getUsedMemory s'' = getUsedMemory m.memory ∧
        getFreeMemory s'' = getFreeMemory m.memory) ∧
    ∀ act m' r, act.Fits m → perform drive m act = some (m', r) →
      SameBlocks m.memory m'.memory := by
  obtain ⟨bs, h, -, hs⟩ := hrun.settled
  obtain ⟨hbal, hc, hroom⟩ := id hs
  constructor
  · intro size s' r htake hptr
    obtain ⟨s'', hfree, h', hs'⟩ := h.take_and_give stable_settled hc hroom hs htake hptr
    refine ⟨s'', hfree, h.represents.sameBlocks h'.represents, ?_, ?_⟩
    · rw [hbal.getUsedMemory_eq h.represents, hs'.1.getUsedMemory_eq h'.represents]
    · rw [h.represents.getFreeMemory_eq, h'.represents.getFreeMemory_eq]
  · intro act m' r hfits hcall
    obtain ⟨h', -⟩ := perform_restores stable_settled h hc hs hfits hcall
    exact h.represents.sameBlocks h'.represents

theorem systemRun_mounted (Allowed : Machine → Action → Prop) (size : ℕ) :
    MachineRun faultless Allowed (mounted size) [] :=
  .start ⟨by norm_num, by norm_num⟩ _ _ _ _

/-- Reading a file of five bytes. -/
theorem heap_neutral_five_bytes :
    ∃ m, perform faultless (mounted 5) (.openFile 0x2000 0) = some (m, 0) ∧
      ∃ m' r, perform faultless m (.readFile 0 0x3000 100) = some (m', r) ∧
        SameBlocks m.memory m'.memory := by
  refine ⟨_, rfl, ?_⟩
  have hrun := MachineRun.call (r := 0) (.openFile 0x2000 0)
    (systemRun_mounted (fun m act ↦ act.Fits m) 5) trivial rfl
  have hfits : Action.Fits (syscallFileOpen faultless (mounted 5) 0x2000 0).1
      (.readFile 0 0x3000 100) := by
    intro _
    refine ⟨by decide, by decide, fun x _ hx ↦ Or.inl ?_⟩
    have hx' : x < 0x3000 + 5 := hx
    exact hx'.trans (by decide)
  obtain ⟨bs, h, -⟩ := hrun.settled
  have hreturns : ∃ m' r, perform faultless _ (.readFile 0 0x3000 100) = some (m', r) ∧ _ :=
    perform_returns ⟨bs, h⟩ (fun hzero ↦ absurd hzero (by decide)) hfits
  obtain ⟨m', r, hcall, -⟩ := hreturns
  exact ⟨m', r, hcall, (heap_neutral hrun).2 _ m' r hfits hcall⟩

/-- The directory entry of `A` claims almost 4 GiB.  The read fails, and the
block that was the whole heap has no bytes left. -/
theorem read_of_huge_file_changes_blocks :
    ∃ m₁ m₂, perform faultless (mounted 0xFFFFFFFF) (.openFile 0x2000 0) = some (m₁, 0) ∧
      MachineRun faultless (fun _ _ ↦ True) m₁ [] ∧
      perform faultless m₁ (.readFile 0 0x3000 1) = some (m₂, -1) ∧
      heapBlocks m₁.memory = some [⟨0x110000, 16777200, true⟩] ∧
      blockSize m₂.memory.mem 0x110000 = 0 ∧ ¬SameBlocks m₁.memory m₂.memory := by
  have hcalls : ((perform faultless (mounted 0xFFFFFFFF) (.openFile 0x2000 0)).bind fun p₁ ↦
      (perform faultless p₁.1 (.readFile 0 0x3000 1)).map fun p₂ ↦
        ((p₁.2, p₂.2), decide (heapBlocks p₁.1.memory = some [⟨0x110000, 16777200, true⟩] ∧
          blockSize p₂.1.memory.mem 0x110000 = 0))) = some ((0, -1), true) := by
    decide +kernel
  simp only [Option.bind_eq_some_iff, Option.map_eq_some_iff, Prod.mk.injEq,
    decide_eq_true_eq] at hcalls
  obtain ⟨⟨m₁, _⟩, h₁, ⟨m₂, _⟩, h₂, ⟨rfl, rfl⟩, hblocks, hsize⟩ := hcalls
  refine ⟨m₁, m₂, h₁, .call _ (systemRun_mounted _ _) trivial h₁, h₂, hblocks, hsize, ?_⟩
  rintro ⟨bs, hbs, hbs', -⟩
  obtain rfl := Option.some.inj (hblocks.symm.trans hbs)
  have hsize' := size_of_mem_blocksFrom hbs' List.mem_cons_self
  rw [hsize] at hsize'
  cases hsize'

end ImplusKernel.Syscall
