import ImplusKernel.Memory.HeapFootprint
import ImplusKernel.Process.RoundRobin
import ImplusKernel.Syscall.Entry
import Mathlib.Data.Finset.Card
import Mathlib.Data.Finset.Dedup

/-!
# The stacks of processes

`process_create_user` takes a stack from the heap and records it in the slot
it fills.  Nothing ever gives a stack back: `process_exit_current` only marks
the slot, and the next creation overwrites the recorded pointer.
-/

namespace ImplusKernel.ProcessManager

open ByteMemory Heap Syscall

variable {s s' : MemoryState} {t t' : ProcessTable} {bs : List Block} {taken : List ℕ}
  {kernelEnd p pid rsp userRsp rsp' userRsp' : ℕ} {Allowed : Process → Prop}

/-! ## Runs -/

/-- Runs of creations, exits and calls of the scheduler after boot.  `taken`
are the blocks that `process_create_user` took, latest first, one for each
creation that succeeded, and `Allowed` restricts the slots it may fill.  In
between, other parts of the kernel allocate blocks and free their own, and
anything is stored in blocks in use. -/
inductive StackRun (Allowed : Process → Prop) (kernelEnd : ℕ) :
    MemoryState → ProcessTable → List ℕ → Prop
  | boot {t : ProcessTable} (mem : Mem) (entry userStackTop : ℕ) {pid : ℕ}
      (h : processRegisterBootProcess processManagerInit entry userStackTop =
        (t, .registered pid)) : StackRun Allowed kernelEnd (memoryInit kernelEnd (.boot mem)) t []
  | create {s s' : MemoryState} {t t' : ProcessTable} {taken : List ℕ} (entry : ℕ) {pid : ℕ}
      (hrun : StackRun Allowed kernelEnd s t taken)
      (h : processCreateUser s t entry = some (s', t', .created pid))
      (hslot : Allowed (t.procs pid)) :
      StackRun Allowed kernelEnd s' t' ((t'.procs pid).stackBase :: taken)
  | createFailed {s s' : MemoryState} {t t' : ProcessTable} {taken : List ℕ} (entry : ℕ)
      {r : CreateResult} (hrun : StackRun Allowed kernelEnd s t taken)
      (h : processCreateUser s t entry = some (s', t', r)) (hr : r.pid = -1) :
      StackRun Allowed kernelEnd s' t' taken
  | call {s : MemoryState} {t t' : ProcessTable} {taken : List ℕ} (exits requestSwitch : Bool)
      (rsp userRsp : ℕ) {rsp' userRsp' : ℕ} (hrun : StackRun Allowed kernelEnd s t taken)
      (h : processScheduleOnSyscall (atCall t exits) rsp userRsp requestSwitch =
        .resumed t' rsp' userRsp') : StackRun Allowed kernelEnd s t' taken
  | kmalloc {s s' : MemoryState} {t : ProcessTable} {taken : List ℕ} (size : ℕ)
      {r : KmallocResult} (hrun : StackRun Allowed kernelEnd s t taken)
      (h : kmalloc s size = some (s', r)) : StackRun Allowed kernelEnd s' t taken
  | kfree {s s' : MemoryState} {t : ProcessTable} {taken : List ℕ} (ptr : ℕ)
      {r : KfreeResult} (hrun : StackRun Allowed kernelEnd s t taken) (hptr : ptr ∉ taken)
      (h : kfree s ptr = some (s', r)) : StackRun Allowed kernelEnd s' t taken
  | store {s : MemoryState} {t : ProcessTable} {taken : List ℕ} (x : ℕ) (v : UInt8)
      (hrun : StackRun Allowed kernelEnd s t taken) (hx : ClientByte s x) :
      StackRun Allowed kernelEnd { s with mem := Function.update s.mem x v } t taken

/-- A block in use has its payload at `p`. -/
def inUse (s : MemoryState) (p : ℕ) : Bool :=
  (heapBlocks s).any fun bs ↦ bs.any fun b ↦ b.tag = false ∧ payload b = p

/-- The number of blocks taken for stacks that have not been freed. -/
def unfreedStacks (s : MemoryState) (taken : List ℕ) : ℕ :=
  (taken.toFinset.filter fun p ↦ inUse s p = true).card

/-- If the slot held a process that is dead now, the stack recorded there is
back in the heap. -/
def StackReturned (s : MemoryState) (slot : Process) : Prop :=
  slot.state = .dead → slot.stackBase ≠ 0 → inUse s slot.stackBase = false

theorem inUse_iff (h : HeapInvariant s bs) :
    inUse s p = true ↔ ∃ b ∈ bs, b.tag = false ∧ payload b = p := by
  simp [inUse, h.represents.heapBlocks_eq]

/-! ## One step of the heap -/

/-- The blocks taken so far are all in use, and different. -/
structure Held (bs : List Block) (taken : List ℕ) : Prop where
  used : ∀ p ∈ taken, ∃ b ∈ bs, b.tag = false ∧ payload b = p
  nodup : taken.Nodup

theorem Held.allocate {pre post : List Block} {b : Block} {n : ℕ}
    (h : Held (pre ++ b :: post) taken) (hb : b.tag = true) :
    Held (pre ++ handedOut b n :: (remainder b n ++ post)) taken := by
  refine ⟨fun p hp ↦ ?_, h.nodup⟩
  obtain ⟨c, hc, hused, rfl⟩ := h.used p hp
  exact ⟨c, (mem_allocate_iff hb hused).mpr (Or.inr hc), hused, rfl⟩

/-- The block handed out is none of those taken before. -/
theorem Held.add {pre post : List Block} {b : Block} {n : ℕ}
    (h : Held (pre ++ b :: post) taken) (hs : HeapInvariant s (pre ++ b :: post))
    (hb : b.tag = true) :
    Held (pre ++ handedOut b n :: (remainder b n ++ post)) (payload b :: taken) := by
  have hnew : payload b ∉ taken := by
    intro hp
    obtain ⟨c, hc, hused, hptr⟩ := h.used _ hp
    obtain rfl := hs.represents.eq_of_payload hc (by simp) hptr
    simp [hb] at hused
  refine ⟨fun p hp ↦ ?_, List.nodup_cons.mpr ⟨hnew, h.nodup⟩⟩
  rcases List.mem_cons.mp hp with rfl | hp
  · exact ⟨handedOut b n, by simp, rfl, rfl⟩
  · exact (h.allocate hb).used p hp

theorem Held.release {pre post : List Block} {b : Block} (h : Held (pre ++ b :: post) taken)
    (hother : payload b ∉ taken) : Held (released pre b post) taken := by
  refine ⟨fun p hp ↦ ?_, h.nodup⟩
  obtain ⟨c, hc, hused, rfl⟩ := h.used p hp
  have hne : c ≠ b := by
    rintro rfl
    exact hother hp
  refine ⟨c, (mem_released_iff hused).mpr ?_, hused, rfl⟩
  simpa [hne] using hc

/-- A successful creation takes a free block and writes its frame there. -/
theorem processCreateUser_heap {entry : ℕ} (hs : HeapInvariant s bs)
    (h : processCreateUser s t entry = some (s', t', .created pid)) :
    ∃ pre b post, bs = pre ++ b :: post ∧ b.tag = true ∧
      HeapInvariant s' (pre ++ handedOut b processStackSize ::
        (remainder b processStackSize ++ post)) ∧
      pid < 16 ∧ (t.state pid = .unused ∨ t.state pid = .dead) ∧
      t' = t.set pid ⟨.ready, entry, frameOf (payload b), stackTop (payload b), payload b⟩ := by
  rcases processCreateUser_cases h with
    ⟨-, hr⟩ | ⟨slot, hslot, hfree, hr, stack, s₁, hk, hne, rfl, rfl⟩
  · simp [CreateResult.pid] at hr
  obtain rfl := CreateResult.created.inj hr
  have halign : alignUp processStackSize minAllocAlign = processStackSize := by decide
  obtain ⟨-, howned⟩ := hs.keeps_kmalloc (by decide) (by decide) hk
  obtain ⟨hfits, hclient⟩ := howned hne
  obtain ⟨hlow, hhigh⟩ := frameOf_bounds hfits
  rcases kmalloc_spec hs (show processStackSize ≠ 0 by decide) with
    ⟨pre, b, post, rfl, htag, -, hk'⟩ | ⟨-, hk'⟩
  · obtain ⟨rfl, hptr⟩ := Prod.mk.inj (Option.some.inj (hk.symm.trans hk'))
    obtain rfl := KmallocResult.block.inj hptr
    rw [halign] at hclient ⊢
    refine ⟨pre, b, post, rfl, htag, ?_, hslot, hfree, rfl⟩
    have hinv := hs.allocated (n := processStackSize) (by decide)
    exact hinv.clientStore (w := OnFrame (frameOf (payload b)))
      (fun x hx ↦ (hclient x (hlow.trans hx.1) (hx.2.trans_le hhigh)).1)
      (fun x hx ↦ initialFrame_outside _ _ _ hx)
  · obtain ⟨-, hptr⟩ := Prod.mk.inj (Option.some.inj (hk.symm.trans hk'))
    cases hptr

theorem processCreateUser_failed {entry : ℕ} {r : CreateResult} (hs : HeapInvariant s bs)
    (h : processCreateUser s t entry = some (s', t', r)) (hr : r.pid = -1) : s' = s ∧ t' = t := by
  unfold processCreateUser at h
  by_cases hentry : entry = 0
  · rw [if_pos hentry] at h
    simp only [Option.some.injEq, Prod.mk.injEq] at h
    exact ⟨h.1.symm, h.2.1.symm⟩
  rw [if_neg hentry] at h
  cases hslot : findFreeSlot t with
  | none =>
      rw [hslot] at h
      simp only [Option.some.injEq, Prod.mk.injEq] at h
      exact ⟨h.1.symm, h.2.1.symm⟩
  | some slot =>
      rw [hslot] at h
      obtain ⟨⟨s₁, k⟩, hk, h⟩ := Option.bind_eq_some_iff.mp h
      rcases kmalloc_spec hs (show processStackSize ≠ 0 by decide) with
        ⟨pre, b, post, rfl, -, -, hk'⟩ | ⟨-, hk'⟩
      · obtain ⟨-, rfl⟩ := Prod.mk.inj (Option.some.inj (hk.symm.trans hk'))
        have hptr : (KmallocResult.block (payload b)).ptr ≠ 0 := by
          simp [KmallocResult.ptr, payload, headerSize]
        simp only [if_neg hptr, Option.some.injEq, Prod.mk.injEq] at h
        rw [← h.2.2] at hr
        simp [CreateResult.pid] at hr
      · obtain ⟨rfl, rfl⟩ := Prod.mk.inj (Option.some.inj (hk.symm.trans hk'))
        simp only [KmallocResult.ptr, if_true, Option.some.injEq, Prod.mk.injEq] at h
        exact ⟨h.1.symm, h.2.1.symm⟩

/-! ## One step of the table -/

/-- The recorded stacks are the same, and no slot became unused. -/
def SameStacks (t t' : ProcessTable) : Prop :=
  ∀ i, (t'.procs i).stackBase = (t.procs i).stackBase ∧
    (t'.state i = .unused → t.state i = .unused)

theorem SameStacks.trans {t'' : ProcessTable} (h : SameStacks t t') (h' : SameStacks t' t'') :
    SameStacks t t'' :=
  fun i ↦ ⟨(h' i).1.trans (h i).1, fun hi ↦ (h i).2 ((h' i).2 hi)⟩

theorem sameStacks_set {i : ℕ} {q : Process} (hbase : q.stackBase = (t.procs i).stackBase)
    (hstate : q.state ≠ .unused) : SameStacks t (t.set i q) := by
  intro j
  by_cases hj : j = i
  · subst hj
    simp [ProcessTable.state, hbase, hstate]
  · rw [ProcessTable.state, procs_set_of_ne t q hj]
    exact ⟨rfl, id⟩

theorem sameStacks_setState (t : ProcessTable) (i : ℕ) {state : ProcessState}
    (hstate : state ≠ .unused) : SameStacks t (t.setState i state) :=
  sameStacks_set rfl hstate

theorem sameStacks_saveCurrent (t : ProcessTable) (pid rsp userRsp : ℕ) :
    SameStacks t (saveCurrent t pid rsp userRsp) := by
  unfold saveCurrent
  split
  · refine sameStacks_set rfl ?_
    dsimp only
    split
    · simp
    · simp_all
  · exact fun i ↦ ⟨rfl, id⟩

theorem sameStacks_atCall (t : ProcessTable) (exits : Bool) : SameStacks t (atCall t exits) := by
  unfold atCall processExitCurrent
  split
  · split
    · exact fun i ↦ ⟨rfl, id⟩
    · exact sameStacks_setState t _ (by simp)
  · exact fun i ↦ ⟨rfl, id⟩

theorem sameStacks_schedule {requestSwitch : Bool}
    (h : processScheduleOnSyscall t rsp userRsp requestSwitch = .resumed t' rsp' userRsp') :
    SameStacks t t' := by
  unfold processScheduleOnSyscall at h
  split at h
  · cases h
  have hsave := sameStacks_saveCurrent t t.currentPid.toNat rsp userRsp
  dsimp only at h
  split at h
  · obtain ⟨rfl, -, -⟩ := ScheduleResult.resumed.inj h
    exact hsave.trans (sameStacks_setState _ _ (by simp))
  · split at h
    · cases h
    · obtain ⟨rfl, -, -⟩ := ScheduleResult.resumed.inj h
      exact hsave.trans (sameStacks_setState _ _ (by simp))

/-! ## Whole runs -/

/-- A recorded stack is a block taken and never freed, an unused slot records
none, and if only slots without a stack are filled, every block taken is still
recorded. -/
structure StackInvariant (Allowed : Process → Prop) (s : MemoryState) (t : ProcessTable)
    (taken : List ℕ) : Prop where
  heap : ∃ bs, HeapInvariant s bs ∧ Held bs taken
  recorded : ∀ i, (t.procs i).stackBase ≠ 0 → (t.procs i).stackBase ∈ taken
  unused : ∀ i, t.state i = .unused → (t.procs i).stackBase = 0
  kept : (∀ q, Allowed q → q.stackBase = 0) → ∀ p ∈ taken, ∃ i < 16, (t.procs i).stackBase = p

theorem StackInvariant.sameStacks (h : StackInvariant Allowed s t taken) (hsame : SameStacks t t') :
    StackInvariant Allowed s t' taken where
  heap := h.heap
  recorded := fun i hi ↦ by
    rw [(hsame i).1] at hi ⊢
    exact h.recorded i hi
  unused := fun i hi ↦ (hsame i).1.trans (h.unused i ((hsame i).2 hi))
  kept := fun hfresh p hp ↦ by
    obtain ⟨i, hi, hbase⟩ := h.kept hfresh p hp
    exact ⟨i, hi, (hsame i).1.trans hbase⟩

theorem StackInvariant.withHeap (h : StackInvariant Allowed s t taken)
    (hheap : ∃ bs, HeapInvariant s' bs ∧ Held bs taken) : StackInvariant Allowed s' t taken :=
  ⟨hheap, h.recorded, h.unused, h.kept⟩

theorem StackInvariant.create (h : StackInvariant Allowed s t taken) {entry : ℕ}
    (hcreate : processCreateUser s t entry = some (s', t', .created pid))
    (hslot : Allowed (t.procs pid)) :
    StackInvariant Allowed s' t' ((t'.procs pid).stackBase :: taken) := by
  obtain ⟨bs, hs, hheld⟩ := h.heap
  obtain ⟨pre, b, post, rfl, hb, hs', hpid, -, rfl⟩ := processCreateUser_heap hs hcreate
  rw [procs_set_self]
  constructor
  case heap => exact ⟨_, hs', hheld.add hs hb⟩
  case recorded =>
    intro i hi
    by_cases hip : i = pid
    · subst hip
      simp
    · rw [procs_set_of_ne t _ hip] at hi ⊢
      exact List.mem_cons_of_mem _ (h.recorded i hi)
  case unused =>
    intro i hi
    by_cases hip : i = pid
    · subst hip
      simp [ProcessTable.state] at hi
    · rw [ProcessTable.state, procs_set_of_ne t _ hip] at hi
      rw [procs_set_of_ne t _ hip]
      exact h.unused i hi
  case kept =>
    intro hfresh p hp
    rcases List.mem_cons.mp hp with rfl | hp
    · exact ⟨pid, hpid, by simp⟩
    · obtain ⟨i, hi, rfl⟩ := h.kept hfresh p hp
      obtain ⟨c, -, -, hc⟩ := hheld.used _ hp
      -- a block taken is not at address 0, so its slot is not the empty one
      have hip : i ≠ pid := by
        rintro rfl
        rw [hfresh _ hslot] at hc
        simp [payload, headerSize] at hc
      exact ⟨i, hi, by rw [procs_set_of_ne t _ hip]⟩

theorem StackRun.invariant (hk : KernelEndValid kernelEnd)
    (hrun : StackRun Allowed kernelEnd s t taken) : StackInvariant Allowed s t taken := by
  induction hrun with
  | boot mem entry userStackTop h =>
      have hslot : findFreeSlot processManagerInit = some 0 := rfl
      rw [processRegisterBootProcess, hslot] at h
      obtain ⟨rfl, -⟩ := Prod.mk.inj h
      have hbase : ∀ i, (((processManagerInit.set 0 ⟨.running, entry, userStackTop,
          userStackTop, 0⟩).procs i).stackBase = 0) := by
        intro i
        by_cases hi : i = 0
        · subst hi
          simp
        · rw [procs_set_of_ne _ _ hi]
          rfl
      exact ⟨⟨_, heapInvariant_memoryInit hk mem, by simp, List.nodup_nil⟩,
        fun i hi ↦ absurd (hbase i) hi, fun i _ ↦ hbase i, by simp⟩
  | create entry _ h hslot ih => exact ih.create h hslot
  | createFailed entry _ h hr ih =>
      obtain ⟨bs, hs, -⟩ := ih.heap
      obtain ⟨rfl, rfl⟩ := processCreateUser_failed hs h hr
      exact ih
  | call exits requestSwitch rsp userRsp _ h ih =>
      exact ih.sameStacks ((sameStacks_atCall _ exits).trans (sameStacks_schedule h))
  | kmalloc size _ h ih =>
      obtain ⟨bs, hs, hheld⟩ := ih.heap
      refine ih.withHeap ?_
      by_cases hzero : size = 0
      · rw [hzero, kmalloc_zero hs.represents] at h
        obtain ⟨rfl, -⟩ := Prod.mk.inj (Option.some.inj h)
        exact ⟨bs, hs, hheld⟩
      rcases kmalloc_spec hs hzero with ⟨pre, b, post, rfl, hb, -, hk⟩ | ⟨-, hk⟩
      · obtain ⟨rfl, -⟩ := Prod.mk.inj (Option.some.inj (hk.symm.trans h))
        exact ⟨_, hs.allocated (alignUp_aligned size), hheld.allocate hb⟩
      · obtain ⟨rfl, -⟩ := Prod.mk.inj (Option.some.inj (hk.symm.trans h))
        exact ⟨bs, hs, hheld⟩
  | kfree ptr _ hptr h ih =>
      obtain ⟨bs, hs, hheld⟩ := ih.heap
      refine ih.withHeap ?_
      rcases kfree_cases hs.represents ptr with ⟨_, -, hk⟩ | ⟨pre, b, post, rfl, -, rfl, hk⟩
      · obtain ⟨rfl, -⟩ := Prod.mk.inj (Option.some.inj (hk.symm.trans h))
        exact ⟨bs, hs, hheld⟩
      · obtain ⟨rfl, -⟩ := Prod.mk.inj (Option.some.inj (hk.symm.trans h))
        exact ⟨_, hs.release, hheld.release hptr⟩
  | store x v _ hx ih =>
      obtain ⟨bs, hs, hheld⟩ := ih.heap
      refine ih.withHeap ⟨bs, hs.clientStore (w := (· = x)) ?_ ?_, hheld⟩
      · rintro y rfl
        exact hx
      · intro y hy
        exact Function.update_of_ne hy _ _

theorem StackInvariant.unfreed_eq (h : StackInvariant Allowed s t taken) :
    unfreedStacks s taken = taken.length := by
  obtain ⟨bs, hs, hheld⟩ := h.heap
  have hall : taken.toFinset.filter (fun p ↦ inUse s p = true) = taken.toFinset := by
    refine Finset.filter_true_of_mem fun p hp ↦ ?_
    exact (inUse_iff hs).mpr (hheld.used p (List.mem_toFinset.mp hp))
  rw [unfreedStacks, hall, List.toFinset_card_of_nodup hheld.nodup]

theorem StackInvariant.length_le (h : StackInvariant Allowed s t taken)
    (hfresh : ∀ q, Allowed q → q.stackBase = 0) : taken.length ≤ processMaxCount := by
  obtain ⟨bs, -, hheld⟩ := h.heap
  have hsub : taken.toFinset ⊆
      (Finset.range 16).image fun i ↦ (t.procs i).stackBase := by
    intro p hp
    obtain ⟨i, hi, hbase⟩ := h.kept hfresh p (List.mem_toFinset.mp hp)
    exact Finset.mem_image.mpr ⟨i, Finset.mem_range.mpr hi, hbase⟩
  calc taken.length = taken.toFinset.card := (List.toFinset_card_of_nodup hheld.nodup).symm
    _ ≤ ((Finset.range 16).image fun i ↦ (t.procs i).stackBase).card := Finset.card_le_card hsub
    _ ≤ (Finset.range 16).card := Finset.card_image_le
    _ = processMaxCount := Finset.card_range 16

theorem StackInvariant.returned_iff (h : StackInvariant Allowed s t taken) {entry : ℕ}
    (hcreate : processCreateUser s t entry = some (s', t', .created pid)) :
    StackReturned s (t.procs pid) ↔ (t.procs pid).stackBase = 0 := by
  obtain ⟨bs, hs, hheld⟩ := h.heap
  obtain ⟨pre, b, post, -, -, -, -, hfree, -⟩ := processCreateUser_heap hs hcreate
  constructor
  · intro hreturned
    by_contra hbase
    have hdead : t.state pid = .dead :=
      hfree.resolve_left fun hunused ↦ hbase (h.unused pid hunused)
    have hused := (inUse_iff hs).mpr (hheld.used _ (h.recorded pid hbase))
    rw [hreturned hdead hbase] at hused
    cases hused
  · exact fun hbase _ hne ↦ absurd hbase hne

/-- No stack is ever returned.  So at most sixteen are held exactly as long as
at most sixteen creations have succeeded, in particular while only slots
without a recorded stack are filled; and a creation finds the stack of the
slot returned only if there is none. -/
theorem stacks_bounded_iff (hk : KernelEndValid kernelEnd)
    (hrun : StackRun Allowed kernelEnd s t taken) :
    (unfreedStacks s taken ≤ processMaxCount ↔ taken.length ≤ processMaxCount) ∧
    ((∀ q, Allowed q → q.stackBase = 0) → unfreedStacks s taken ≤ processMaxCount) ∧
    ∀ entry s' t' pid, processCreateUser s t entry = some (s', t', .created pid) →
      (StackReturned s (t.procs pid) ↔ (t.procs pid).stackBase = 0) := by
  have hinv := hrun.invariant hk
  refine ⟨by rw [hinv.unfreed_eq], fun hfresh ↦ ?_, fun entry s' t' pid ↦ hinv.returned_iff⟩
  rw [hinv.unfreed_eq]
  exact hinv.length_le hfresh

/-- A creation in the fresh slot of a boot process. -/
theorem stacks_bounded_one_creation :
    ∃ s t taken, StackRun (·.stackBase = 0) 0x110000 s t taken ∧ taken = [0x110010] ∧
      unfreedStacks s taken ≤ processMaxCount := by
  have hboot : StackRun (·.stackBase = 0) 0x110000 sampleHeap
      (processRegisterBootProcess processManagerInit 0x400000 0x8000).1 [] :=
    .boot (fun _ ↦ 0) 0x400000 0x8000 rfl
  obtain ⟨s, hcreate⟩ : ∃ s, processCreateUser sampleHeap
      (processRegisterBootProcess processManagerInit 0x400000 0x8000).1 0x401000 =
        some (s, (processRegisterBootProcess processManagerInit 0x400000 0x8000).1.set 1
          ⟨.ready, 0x401000, frameOf 0x110010, stackTop 0x110010, 0x110010⟩, .created 1) :=
    ⟨_, rfl⟩
  have hrun := StackRun.create 0x401000 hboot hcreate rfl
  rw [procs_set_self] at hrun
  exact ⟨_, _, _, hrun, rfl, (stacks_bounded_iff ⟨by norm_num, by norm_num⟩ hrun).2.1 fun _ ↦ id⟩

/-! ## Creating and exiting again and again -/

/-- Only the boot process is alive. -/
structure BootAlone (t : ProcessTable) : Prop where
  current : t.currentPid = 0
  running : t.state 0 = .running
  first : t.state 1 = .unused ∨ t.state 1 = .dead
  others : ∀ i, 2 ≤ i → t.state i = .unused

theorem BootAlone.findFreeSlot_eq (h : BootAlone t) : findFreeSlot t = some 1 := by
  rw [findFreeSlot, List.find?_range_eq_some]
  refine ⟨by simpa using h.first, by simp [processMaxCount], ?_⟩
  intro j hj
  obtain rfl : j = 0 := by omega
  simp [h.running]

/-- The process in slot 1 runs, and the boot process waits. -/
structure ChildRunning (t : ProcessTable) : Prop where
  current : t.currentPid = (1 : ℕ)
  waiting : t.state 0 = .ready
  others : ∀ i, 2 ≤ i → t.state i = .unused

/-- After a creation the boot process yields to the new process. -/
theorem BootAlone.yields (h : BootAlone t) (entry frame top stack : ℕ) :
    ∃ t' rsp userRsp, processScheduleOnSyscall
        (atCall (t.set 1 ⟨.ready, entry, frame, top, stack⟩) false) 0 0 true =
          .resumed t' rsp userRsp ∧ ChildRunning t' := by
  set t₀ := t.set 1 ⟨.ready, entry, frame, top, stack⟩ with ht₀
  have hcur : t₀.currentPid = (0 : ℕ) := h.current
  have hone : t₀.state 1 = .ready := by simp [ht₀, ProcessTable.state]
  have hstate : ∀ i, i ≠ 1 → t₀.state i = t.state i := by
    intro i hi
    rw [ht₀, ProcessTable.state, procs_set_of_ne t _ hi, ProcessTable.state]
  have hlive : t₀.runnable 0 := Or.inr ((hstate 0 (by norm_num)).trans h.running)
  obtain ⟨next, -, -, hnext, hcall⟩ := schedule_live (by norm_num) hcur hlive 0 0 true
  -- slot 1 is the first one looked at
  obtain rfl : next = 1 := by
    rw [runsNext, if_pos rfl, nextAfter] at hnext
    obtain ⟨step, hstep, hslot⟩ := find_slotsAfter_le _ (show 1 < 16 by norm_num)
      (by simp [hone]) hnext
    omega
  have hkept : ∀ i, i ≠ 1 →
      ((saveCurrent t₀ 0 0 0).setState 1 .running).state i = (saveCurrent t₀ 0 0 0).state i :=
    fun i hi ↦ state_setState_of_ne _ .running hi
  refine ⟨_, _, _, hcall, rfl, (hkept 0 (by norm_num)).trans ?_, fun i hi ↦ ?_⟩
  · rw [saveCurrent_of_runnable hlive]
    simp [ProcessTable.state]
  · refine (hkept i (by omega)).trans ((state_saveCurrent_of_ne t₀ 0 0 (by omega)).trans ?_)
    exact (hstate i (by omega)).trans (h.others i hi)

/-- When the new process exits, the boot process is alone again. -/
theorem ChildRunning.exits (h : ChildRunning t) :
    ∃ t' rsp userRsp, processScheduleOnSyscall (atCall t true) 0 0 true =
      .resumed t' rsp userRsp ∧ BootAlone t' := by
  have hexit : atCall t true = t.setState 1 .dead := by
    rw [atCall, if_pos rfl, processExitCurrent_eq (by norm_num) h.current]
  have hkept : ∀ i, i ≠ 1 → (t.setState 1 .dead).state i = t.state i :=
    fun i hi ↦ state_setState_of_ne t .dead hi
  have hdead := state_setState_self t 1 .dead
  have hcur : (t.setState 1 .dead).currentPid = (1 : ℕ) := h.current
  rw [hexit]
  rcases schedule_dead (show 1 < 16 by norm_num) hcur hdead 0 0 true with
    ⟨next, hlt, hrunnable, -, hcall⟩ | ⟨hnone, -⟩
  · -- only slot 0 can run
    obtain rfl : next = 0 := by
      by_contra hne
      by_cases hnext : next = 1
      · subst hnext
        simp [ProcessTable.runnable] at hrunnable
      · rw [ProcessTable.runnable, hkept next hnext, h.others next (by omega)] at hrunnable
        simp at hrunnable
    refine ⟨_, _, _, hcall, rfl, state_setState_self _ 0 .running, Or.inr ?_, fun i hi ↦ ?_⟩
    · exact (state_setState_of_ne _ .running (by norm_num)).trans hdead
    · refine (state_setState_of_ne _ .running (by omega)).trans ?_
      exact (hkept i (by omega)).trans (h.others i hi)
  · exact absurd ((hkept 0 (by norm_num)).trans h.waiting) (hnone 0 (by norm_num))

/-- The last block is free and has room for `n` more stacks; all others are in
use. -/
def HasRoom (s : MemoryState) (n : ℕ) : Prop :=
  ∃ used free, HeapInvariant s (used ++ [free]) ∧ (∀ b ∈ used, b.tag = false) ∧
    free.tag = true ∧ n * (processStackSize + headerSize) + minSplitRemainder ≤ free.size

/-- The only free block is the last one. -/
theorem eq_last_of_free {used pre post : List Block} {free b : Block}
    (hused : ∀ c ∈ used, c.tag = false) (hb : b.tag = true)
    (heq : used ++ [free] = pre ++ b :: post) : used = pre ∧ free = b ∧ post = [] := by
  rcases List.eq_nil_or_concat post with rfl | ⟨post', c, rfl⟩
  · obtain ⟨rfl, hlast⟩ := List.append_inj' heq rfl
    exact ⟨rfl, (List.cons.inj hlast).1, rfl⟩
  · have hcons : pre ++ b :: post'.concat c = (pre ++ b :: post') ++ [c] := by simp
    rw [hcons] at heq
    obtain ⟨rfl, -⟩ := List.append_inj' heq rfl
    simp [hused b (by simp)] at hb

theorem HasRoom.create {n entry : ℕ} (h : HasRoom s (n + 1)) (hentry : entry ≠ 0)
    (hslot : findFreeSlot t = some pid) :
    ∃ s' stack, processCreateUser s t entry = some (s',
      t.set pid ⟨.ready, entry, frameOf stack, stackTop stack, stack⟩, .created pid) ∧
      HasRoom s' n := by
  obtain ⟨used, free, hs, hused, hfree, hsize⟩ := h
  have hfits : processStackSize + headerSize + minSplitRemainder ≤ free.size := by
    have hone : processStackSize + headerSize ≤ (n + 1) * (processStackSize + headerSize) :=
      Nat.le_mul_of_pos_left _ (Nat.succ_pos n)
    omega
  obtain ⟨s', t', hcreate⟩ :
      ∃ s' t', processCreateUser s t entry = some (s', t', .created pid) := by
    rcases kmalloc_spec hs (show processStackSize ≠ 0 by decide) with
      ⟨pre, b, post, -, -, -, hk⟩ | ⟨hnone, -⟩
    · have hptr : (KmallocResult.block (payload b)).ptr ≠ 0 := by
        simp [KmallocResult.ptr, payload, headerSize]
      simp [processCreateUser, hentry, hslot, hk, hptr]
    · have hlt := hnone free (by simp) hfree
      have halign : alignUp processStackSize minAllocAlign = processStackSize := by decide
      omega
  obtain ⟨pre, b, post, heq, hb, hs', -, -, rfl⟩ := processCreateUser_heap hs hcreate
  obtain ⟨rfl, rfl, rfl⟩ := eq_last_of_free hused hb heq
  refine ⟨s', payload free, hcreate, used ++ [handedOut free processStackSize],
    ⟨free.start + headerSize + processStackSize, free.size - processStackSize - headerSize, true⟩,
    ?_, ?_, rfl, ?_⟩
  · rw [remainder, if_pos hfits] at hs'
    simpa using hs'
  · intro b hb
    rcases List.mem_append.mp hb with hb | hb
    · exact hused b hb
    · rw [List.mem_singleton.mp hb]
      rfl
  · rw [Nat.succ_mul] at hsize
    dsimp only
    omega

/-- As long as there is room, creating a process and letting it exit takes one
more stack. -/
theorem StackRun.cycles {n : ℕ} (hrun : StackRun (fun _ ↦ True) kernelEnd s t taken)
    (halone : BootAlone t) (hroom : HasRoom s n) :
    ∃ s' t' taken', StackRun (fun _ ↦ True) kernelEnd s' t' taken' ∧
      taken'.length = taken.length + n := by
  induction n generalizing s t taken with
  | zero => exact ⟨s, t, taken, hrun, rfl⟩
  | succ n ih =>
      obtain ⟨s', stack, hcreate, hroom'⟩ := hroom.create (show 0x401000 ≠ 0 by norm_num)
        halone.findFreeSlot_eq
      have hrun₀ := hrun.create 0x401000 hcreate trivial
      obtain ⟨t₁, _, _, hyield, hchild⟩ :=
        halone.yields 0x401000 (frameOf stack) (stackTop stack) stack
      obtain ⟨t₂, _, _, hexit, halone'⟩ := hchild.exits
      have hrun₂ := (hrun₀.call false true 0 0 hyield).call true true 0 0 hexit
      obtain ⟨s'', t'', taken', hrun', hlength⟩ := ih hrun₂ halone' hroom'
      refine ⟨s'', t'', taken', hrun', ?_⟩
      rw [hlength, List.length_cons]
      omega

/-- Seventeen processes, each created after the one before has exited. -/
theorem seventeen_stacks_unfreed :
    ∃ s t taken, StackRun (fun _ ↦ True) 0x110000 s t taken ∧ taken.length = 17 ∧
      unfreedStacks s taken = 17 := by
  have hboot : StackRun (fun _ ↦ True) 0x110000 sampleHeap
      (processRegisterBootProcess processManagerInit 0x400000 0x8000).1 [] :=
    .boot (fun _ ↦ 0) 0x400000 0x8000 rfl
  have halone : BootAlone (processRegisterBootProcess processManagerInit 0x400000 0x8000).1 := by
    refine ⟨rfl, rfl, Or.inl rfl, fun i hi ↦ ?_⟩
    have hne : i ≠ 0 := by omega
    exact congrArg Process.state (procs_set_of_ne processManagerInit _ hne)
  have hroom : HasRoom sampleHeap 17 := ⟨[], _,
    heapInvariant_memoryInit ⟨by norm_num, by norm_num⟩ (fun _ ↦ 0), by simp, rfl, by decide⟩
  obtain ⟨s, t, taken, hrun, hlength⟩ := hboot.cycles halone hroom
  have hunfreed := (hrun.invariant ⟨by norm_num, by norm_num⟩).unfreed_eq
  exact ⟨s, t, taken, hrun, hlength, hunfreed.trans hlength⟩

end ImplusKernel.ProcessManager
