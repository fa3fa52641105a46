import ImplusKernel.Syscall.Entry
import ImplusKernel.Syscall.FileFootprint

/-!
# What a call changes

Each case of the dispatcher writes to the heap's own bytes, to the display,
and to the bytes its caller names as a destination.  It leaves the process
table alone or fills one free slot.
-/

namespace ImplusKernel.Syscall

open ByteMemory Disk Fat32 Heap ProcessManager VirtIO

variable {hw : Hardware} {g : ℕ → Prop} {k k' : Kernel} {req : Request} {bs : List Block}

/-! ## Creating a process -/

/-- The heap has a free block that can hold a stack. -/
def stackAvailable (s : MemoryState) : Bool :=
  (heapBlocks s).any fun bs ↦ bs.any fun b ↦ b.tag = true ∧ processStackSize ≤ b.size

/-- The slot that a new process gets. -/
def slotFor (k : Kernel) (entry : UInt64) : Option ℕ :=
  if entry.toNat ≠ 0 ∧ stackAvailable k.machine.memory = true then findFreeSlot k.table else none

/-- A new process in a free slot.  Its first frame is in memory that belonged
to nobody. -/
structure NewProcess (k k' : Kernel) (entry : UInt64) (slot frame : ℕ) : Prop where
  slot_lt : slot < 16
  free : k.table.state slot = .unused ∨ k.table.state slot = .dead
  table : ∃ userRsp stack, k'.table = k.table.set slot ⟨.ready, entry.toNat, frame, userRsp, stack⟩
  fits : frame + 120 ≤ 2 ^ 64
  saves : ∀ r, Saves k'.mem frame r (initialRegisters entry r)
  client : ∀ x, OnFrame frame x → ClientByte k'.machine.memory x
  fresh : ∀ x, OnFrame frame x → ¬ClientByte k.machine.memory x

theorem stackAvailable_iff {s : MemoryState} (h : HeapInvariant s bs) :
    stackAvailable s = true ↔ ∃ b ∈ bs, b.tag = true ∧ processStackSize ≤ b.size := by
  simp [stackAvailable, h.represents.heapBlocks_eq]

theorem kmalloc_stack {s s' : MemoryState} (h : HeapInvariant s bs) {r : KmallocResult}
    (hcall : kmalloc s processStackSize = some (s', r)) :
    (r.ptr = 0 ∧ s' = s ∧ stackAvailable s = false) ∨
      (r.ptr ≠ 0 ∧ stackAvailable s = true) := by
  have halign : alignUp processStackSize minAllocAlign = processStackSize := by decide
  rcases kmalloc_spec h (show processStackSize ≠ 0 by decide) with
    ⟨pre, b, post, rfl, htag, hfit, hk⟩ | ⟨hnone, hk⟩
  · rw [hk] at hcall
    obtain ⟨-, rfl⟩ := Prod.mk.inj (Option.some.inj hcall)
    rw [halign] at hfit
    refine Or.inr ⟨by simp [KmallocResult.ptr, payload, headerSize], ?_⟩
    exact (stackAvailable_iff h).mpr ⟨b, by simp, htag, hfit⟩
  · rw [hk] at hcall
    obtain ⟨rfl, rfl⟩ := Prod.mk.inj (Option.some.inj hcall)
    refine Or.inl ⟨rfl, rfl, ?_⟩
    rw [← Bool.not_eq_true, stackAvailable_iff h]
    rintro ⟨b, hb, htag, hle⟩
    have hlt := hnone b hb htag
    omega

/-- Memory after a creation: the new frame, and nothing else of a client. -/
theorem initialFrame_keeps {s s₁ : MemoryState} {w : ℕ → Prop} (hkeeps : Keeps s s₁ w)
    {frame : ℕ} (hclient : ∀ x, OnFrame frame x → ClientByte s₁ x)
    (hfresh : ∀ x, OnFrame frame x → ¬ClientByte s x) (entry : ℕ) :
    Keeps s { s₁ with mem := initialFrame s₁.mem frame entry } w ∧
      ∀ x, OnFrame frame x →
        ClientByte { s₁ with mem := initialFrame s₁.mem frame entry } x := by
  obtain ⟨cs, hinv⟩ := hkeeps.heap
  have hstore : Keeps s₁ { s₁ with mem := initialFrame s₁.mem frame entry } (OnFrame frame) :=
    hinv.keeps_store hclient fun x hx ↦ initialFrame_outside _ _ _ hx
  refine ⟨⟨hstore.heap, fun x hx ↦ hstore.client x (hkeeps.client x hx), fun x hx hw ↦ ?_⟩,
    fun x hx ↦ hstore.client x (hclient x hx)⟩
  rw [hstore.kept x (hkeeps.client x hx) fun hon ↦ hfresh x hon hx, hkeeps.kept x hx hw]

theorem createProcess_effect (hheap : HeapInvariant k.machine.memory bs) {entry : UInt64}
    {pid : ℤ} (h : createProcess k entry = some (k', pid)) :
    Keeps k.machine.memory k'.machine.memory (fun _ ↦ False) ∧ k'.gpu = k.gpu ∧
      k'.kernelRsp = k.kernelRsp ∧
      ((slotFor k entry = none ∧ pid = -1 ∧ k'.table = k.table) ∨
        ∃ slot frame, slotFor k entry = some slot ∧ pid = slot ∧
          NewProcess k k' entry slot frame) := by
  obtain ⟨⟨s, t, r⟩, hcreate, h⟩ := Option.bind_eq_some_iff.mp h
  obtain ⟨rfl, rfl⟩ := Prod.mk.inj (Option.some.inj h)
  unfold processCreateUser at hcreate
  by_cases hentry : entry.toNat = 0
  · rw [if_pos hentry] at hcreate
    simp only [Option.some.injEq, Prod.mk.injEq] at hcreate
    obtain ⟨rfl, rfl, rfl⟩ := hcreate
    exact ⟨hheap.keeps _, rfl, rfl, Or.inl ⟨by simp [slotFor, hentry], rfl, rfl⟩⟩
  rw [if_neg hentry] at hcreate
  cases hslot : findFreeSlot k.table with
  | none =>
      rw [hslot] at hcreate
      simp only [Option.some.injEq, Prod.mk.injEq] at hcreate
      obtain ⟨rfl, rfl, rfl⟩ := hcreate
      exact ⟨hheap.keeps _, rfl, rfl, Or.inl ⟨by simp [slotFor, hslot], rfl, rfl⟩⟩
  | some slot =>
      rw [hslot] at hcreate
      obtain ⟨⟨s₁, a⟩, hk, hcreate⟩ := Option.bind_eq_some_iff.mp hcreate
      obtain ⟨hkeeps, hblock⟩ := hheap.keeps_kmalloc (by decide) (by decide) hk
      rcases kmalloc_stack hheap hk with ⟨hnull, rfl, hroom⟩ | ⟨hptr, hroom⟩
      · simp only [hnull, if_true, Option.some.injEq, Prod.mk.injEq] at hcreate
        obtain ⟨rfl, rfl, rfl⟩ := hcreate
        exact ⟨hkeeps, rfl, rfl, Or.inl ⟨by simp [slotFor, hroom], rfl, rfl⟩⟩
      · simp only [hptr, if_false, Option.some.injEq, Prod.mk.injEq] at hcreate
        obtain ⟨rfl, rfl, rfl⟩ := hcreate
        obtain ⟨hfits, howned⟩ := hblock hptr
        obtain ⟨hlow, hhigh⟩ := frameOf_bounds hfits
        obtain ⟨hlt, hfree⟩ := findFreeSlot_spec hslot
        have hclient : ∀ x, OnFrame (frameOf a.ptr) x → ClientByte s₁ x :=
          fun x hx ↦ (howned x (hlow.trans hx.1) (hx.2.trans_le hhigh)).1
        have hfresh : ∀ x, OnFrame (frameOf a.ptr) x → ¬ClientByte k.machine.memory x :=
          fun x hx ↦ (howned x (hlow.trans hx.1) (hx.2.trans_le hhigh)).2
        obtain ⟨hall, hclient⟩ := initialFrame_keeps hkeeps hclient hfresh entry.toNat
        exact ⟨hall, rfl, rfl, Or.inr ⟨slot, frameOf a.ptr, by simp [slotFor, hentry, hroom, hslot],
          rfl, hlt, hfree, ⟨_, _, rfl⟩, hhigh.trans hfits, initialFrame_saves _ _ entry, hclient,
          hfresh⟩⟩

/-! ## Requests -/

/-- The bytes that a caller names as a destination. -/
def target (k : Kernel) (req : Request) (x : ℕ) : Prop :=
  match SyscallNumber.ofNum req.num.toNat with
  | some .userMemcpy => req.arg1.toNat ≤ x ∧ x < req.arg1.toNat + req.arg3.toNat
  | some .fileRead => readTarget k.machine (toInt32 req.arg1) req.arg2.toNat req.arg3.toNat x
  | _ => False

/-- The file calls get no file larger than a block can be, and destinations
do not wrap and hold no byte of the allocator. -/
structure RequestFits (k : Kernel) (req : Request) : Prop where
  copy : SyscallNumber.ofNum req.num.toNat = some .userMemcpy →
    ClientBuffer k.machine.memory req.arg1.toNat req.arg3.toNat
  read : SyscallNumber.ofNum req.num.toNat = some .fileRead →
    badRequest k.machine (toInt32 req.arg1) req.arg2.toNat = false →
      ClientBuffer k.machine.memory req.arg2.toNat
        (transferSize (k.machine.files (toInt32 req.arg1).toNat) req.arg3.toNat)
  size : SyscallNumber.ofNum req.num.toNat = some .fileRead ∨
      SyscallNumber.ofNum req.num.toNat = some .fileWrite →
    badRequest k.machine (toInt32 req.arg1) req.arg2.toNat = false →
      (k.machine.files (toInt32 req.arg1).toNat).file.size ≤ 0xFFFFFFF8

/-- The process that runs after the call, as the state before it tells. -/
def nextRunner (k : Kernel) (req : Request) : Option ℕ :=
  let pid := k.table.currentPid.toNat
  match SyscallNumber.ofNum req.num.toNat with
  | some .processYield => nextAfter k.table pid true
  | some .processExit => nextAfter k.table pid false
  | some .threadCreate =>
      match slotFor k req.arg1 with
      | some slot => nextAfter (k.table.setState slot .ready) pid true
      | none => some pid
  | _ => some pid

/-! ## The cases -/

structure CallEffect (hw : Hardware) (g : ℕ → Prop) (k k' : Kernel) (req : Request) (sw : Bool) :
    Prop where
  keeps : Keeps k.machine.memory k'.machine.memory (fun x ↦ g x ∨ target k req x)
  display : DisplayWithin hw.device k'.gpu g
  kernelRsp : k'.kernelRsp = k.kernelRsp
  next : runsNext k'.table k.table.currentPid.toNat sw = nextRunner k req
  table : k'.table = k.table ∨ ∃ slot frame, NewProcess k k' req.arg1 slot frame

/-- A case that switches nowhere and works on memory and the display. -/
theorem CallEffect.ofMemory (hdisplay : DisplayWithin hw.device k'.gpu g)
    (hkeeps : Keeps k.machine.memory k'.machine.memory (fun x ↦ g x ∨ target k req x))
    (hrsp : k'.kernelRsp = k.kernelRsp) (htable : k'.table = k.table)
    (hnext : nextRunner k req = some k.table.currentPid.toNat) : CallEffect hw g k k' req false :=
  ⟨hkeeps, hdisplay, hrsp, hnext.symm, Or.inl htable⟩

theorem keeps_display {m : Mem} (hheap : HeapInvariant k.machine.memory bs)
    (hg : ∀ x, g x → ClientByte k.machine.memory x) (honly : Only g k.mem m) :
    Keeps k.machine.memory (k.setMem m).machine.memory (fun x ↦ g x ∨ target k req x) :=
  (hheap.keeps_store hg honly).mono fun _ hx ↦ Or.inl hx

theorem createProcess_callEffect (hheap : HeapInvariant k.machine.memory bs)
    (hdisplay : DisplayWithin hw.device k.gpu g) {pid : ℤ} {sw : Bool}
    (h : createProcess k req.arg1 = some (k', pid))
    (hnext : runsNext k'.table k.table.currentPid.toNat sw = nextRunner k req) :
    CallEffect hw g k k' req sw := by
  obtain ⟨hkeeps, hgpu, hrsp, htable⟩ := createProcess_effect hheap h
  refine ⟨hkeeps.mono fun _ hx ↦ hx.elim, hgpu ▸ hdisplay, hrsp, hnext, ?_⟩
  rcases htable with ⟨-, -, htable⟩ | ⟨slot, frame, -, -, hnew⟩
  · exact Or.inl htable
  · exact Or.inr ⟨slot, frame, hnew⟩

/-- `THREAD_CREATE` switches when it has created something. -/
theorem threadCreate_next (hheap : HeapInvariant k.machine.memory bs) {tid : ℤ}
    (hnum : SyscallNumber.ofNum req.num.toNat = some .threadCreate)
    (h : createProcess k req.arg1 = some (k', tid)) :
    runsNext k'.table k.table.currentPid.toNat (decide (0 ≤ tid)) = nextRunner k req := by
  obtain ⟨-, -, -, hcases⟩ := createProcess_effect hheap h
  rcases hcases with ⟨hnone, rfl, htable⟩ | ⟨slot, frame, hslot, rfl, hnew⟩
  · simp [nextRunner, hnum, hnone, runsNext]
  · obtain ⟨userRsp, stack, htable⟩ := hnew.table
    simp only [nextRunner, hnum, hslot, runsNext, Int.natCast_nonneg, decide_true, if_true]
    apply nextAfter_congr
    intro i
    by_cases hi : i = slot
    · subst hi
      rw [state_setState_self, htable, ProcessTable.state, procs_set_self]
    · simp [htable, ProcessTable.state, procs_set_of_ne, procs_setState_of_ne, hi]

theorem handle_callEffect (hheap : HeapInvariant k.machine.memory bs)
    (hdisplay : DisplayWithin hw.device k.gpu g)
    (hg : ∀ x, g x → ClientByte k.machine.memory x) (hfits : RequestFits k req) {v : ℕ} {sw : Bool}
    (h : handle hw k req = some (.value k' v sw)) : CallEffect hw g k k' req sw := by
  unfold handle at h
  cases hnum : SyscallNumber.ofNum req.num.toNat with
  | none =>
      rw [hnum] at h
      obtain ⟨rfl, -, rfl⟩ := Handled.value_inj h
      exact .ofMemory hdisplay (hheap.keeps _) rfl rfl (by simp [nextRunner, hnum])
  | some number =>
      rw [hnum] at h
      cases number with
      | serialPutchar | userMemcmp =>
          obtain ⟨rfl, -, rfl⟩ := Handled.value_inj h
          exact .ofMemory hdisplay (hheap.keeps _) rfl rfl (by simp [nextRunner, hnum])
      | serialPuts =>
          obtain ⟨text, -, h⟩ := Option.bind_eq_some_iff.mp h
          obtain ⟨rfl, -, rfl⟩ := Handled.value_inj h
          exact .ofMemory hdisplay (hheap.keeps _) rfl rfl (by simp [nextRunner, hnum])
      | processCreate =>
          obtain ⟨⟨k₁, pid⟩, hcreate, h⟩ := Option.bind_eq_some_iff.mp h
          obtain ⟨rfl, -, rfl⟩ := Handled.value_inj h
          exact createProcess_callEffect hheap hdisplay hcreate
            (by simp [runsNext, nextRunner, hnum])
      | processYield =>
          obtain ⟨rfl, -, rfl⟩ := Handled.value_inj h
          exact ⟨hheap.keeps _, hdisplay, rfl, by simp [runsNext, nextRunner, hnum], Or.inl rfl⟩
      | threadCreate =>
          obtain ⟨⟨k₁, tid⟩, hcreate, h⟩ := Option.bind_eq_some_iff.mp h
          obtain ⟨rfl, -, rfl⟩ := Handled.value_inj h
          exact createProcess_callEffect hheap hdisplay hcreate
            (threadCreate_next hheap hnum hcreate)
      | drawPixel =>
          obtain ⟨rfl, -, rfl⟩ := Handled.value_inj h
          refine .ofMemory hdisplay (keeps_display hheap hg ?_) rfl rfl (by simp [nextRunner, hnum])
          exact virtioGpuDrawPixel_only hdisplay _ _ _ _
      | drawFillRect =>
          obtain ⟨rfl, -, rfl⟩ := Handled.value_inj h
          refine .ofMemory hdisplay (keeps_display hheap hg ?_) rfl rfl (by simp [nextRunner, hnum])
          exact virtioGpuFillRect_only hdisplay _ _ _ _ _ _
      | drawPresent =>
          obtain ⟨rfl, -, rfl⟩ := Handled.value_inj h
          obtain ⟨honly, hdisplay'⟩ := virtioGpuPresent_within hdisplay k.mem
          exact .ofMemory hdisplay' (keeps_display hheap hg honly) rfl rfl
            (by simp [nextRunner, hnum])
      | fileOpen =>
          dsimp only at h
          obtain ⟨rfl, -, rfl⟩ := Handled.value_inj h
          refine .ofMemory hdisplay ?_ rfl rfl (by simp [nextRunner, hnum])
          rw [syscallFileOpen_memory]
          exact hheap.keeps _
      | fileRead =>
          obtain ⟨⟨m, n⟩, hread, h⟩ := Option.bind_eq_some_iff.mp h
          obtain ⟨rfl, -, rfl⟩ := Handled.value_inj h
          have hkeeps := syscallFileRead_keeps hheap (hfits.size (Or.inl hnum)) (hfits.read hnum)
            hread
          exact .ofMemory hdisplay (hkeeps.mono fun x hx ↦ Or.inr (by rwa [target, hnum])) rfl rfl
            (by simp [nextRunner, hnum])
      | fileWrite =>
          obtain ⟨⟨m, n⟩, hwrite, h⟩ := Option.bind_eq_some_iff.mp h
          obtain ⟨rfl, -, rfl⟩ := Handled.value_inj h
          exact .ofMemory hdisplay
            (syscallFileWrite_keeps hheap (hfits.size (Or.inr hnum)) hwrite _) rfl rfl
            (by simp [nextRunner, hnum])
      | fileClose =>
          dsimp only at h
          obtain ⟨rfl, -, rfl⟩ := Handled.value_inj h
          refine .ofMemory hdisplay ?_ rfl rfl (by simp [nextRunner, hnum])
          rw [syscallFileClose_memory]
          exact hheap.keeps _
      | userMemcpy =>
          obtain ⟨rfl, -, rfl⟩ := Handled.value_inj h
          have hbuf := hfits.copy hnum
          have hkeeps : Keeps k.machine.memory (k.setMem (memcpy k.mem req.arg1.toNat
              req.arg2.toNat req.arg3.toNat)).machine.memory (target k req) := by
            refine hheap.keeps_store (fun x hx ↦ ?_) (fun x hx ↦ ?_)
            · rw [target, hnum] at hx
              exact hbuf.owned x hx.1 hx.2
            · rw [target, hnum] at hx
              exact memcpy_outside _ _ hbuf.fits (by omega)
          exact .ofMemory hdisplay (hkeeps.mono fun x hx ↦ Or.inr hx) rfl rfl
            (by simp [nextRunner, hnum])
      | processExit => simp at h
      | userKmalloc | userKfree =>
          obtain ⟨_, -, h⟩ := Option.bind_eq_some_iff.mp h
          simp at h

end ImplusKernel.Syscall
