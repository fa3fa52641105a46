import ImplusKernel.Memory.HeapNeutral

/-!
# Blocks that a function owns

A function takes blocks from the heap, writes to them and gives some back.
What it owns are the blocks it has taken since it was called and not given
back: the live allocations are these and the ones that were live before.
-/

namespace ImplusKernel.Heap

open ByteMemory Tiling

variable {s₀ s s' : MemoryState} {own own' bs : List Block} {b c : Block} {x size : ℕ} {mem : Mem}

theorem payload_ne_zero (b : Block) : payload b ≠ 0 := by
  simp [payload, headerSize]

/-- A byte in the payload of an owned block. -/
def OwnByte (own : List Block) (x : ℕ) : Prop :=
  ∃ b ∈ own, payload b ≤ x ∧ x < payload b + b.size

/-- A byte that the owner may write to without changing what others have in
the heap. -/
def Writable (s : MemoryState) (own : List Block) (x : ℕ) : Prop :=
  x < s.heapStart ∨ s.heapStart + heapBytes ≤ x ∨ OwnByte own x

theorem Writable.cons (h : Writable s own x) (hstart : s'.heapStart = s.heapStart) :
    Writable s' (b :: own) x := by
  rcases h with hx | hx | ⟨c, hc, hbytes⟩
  · exact Or.inl (by rwa [hstart])
  · exact Or.inr (Or.inl (by rwa [hstart]))
  · exact Or.inr (Or.inr ⟨c, List.mem_cons_of_mem b hc, hbytes⟩)

/-- Bytes outside the heap are writable. -/
theorem writable_of_apart {a n : ℕ} (h : a + n ≤ s.heapStart ∨ s.heapStart + heapBytes ≤ a)
    (own : List Block) (hlow : a ≤ x) (hhigh : x < a + n) : Writable s own x := by
  rcases h with h | h
  · exact Or.inl (by omega)
  · exact Or.inr (Or.inl (by omega))

theorem writable_of_mem (hb : b ∈ own) (hlow : payload b ≤ x) (hhigh : x < payload b + b.size) :
    Writable s own x :=
  Or.inr (Or.inr ⟨b, hb, hlow, hhigh⟩)

/-- In state `s` a function that was called in state `s₀` owns these blocks. -/
structure Owns (s₀ s : MemoryState) (own : List Block) : Prop where
  start : s.heapStart = s₀.heapStart
  blocks : ∃ bs, HeapInvariant s bs ∧ ∀ b ∈ own, b ∈ bs ∧ b.tag = false
  nodup : own.Nodup
  live : ∀ a, a ∈ liveAllocations s ↔
    (∃ b ∈ own, allocation s.mem b = a) ∨ a ∈ liveAllocations s₀
  fresh : ∀ b ∈ own, ∀ a ∈ liveAllocations s₀, a.address ≠ payload b

theorem HeapInvariant.owns (h : HeapInvariant s bs) : Owns s s [] where
  start := rfl
  blocks := ⟨bs, h, List.forall_mem_nil _⟩
  nodup := List.nodup_nil
  live := fun a ↦ by simp
  fresh := List.forall_mem_nil _

theorem Owns.perm (h : Owns s₀ s own) (hperm : own.Perm own') : Owns s₀ s own' where
  start := h.start
  blocks := by
    obtain ⟨bs, hinv, hown⟩ := h.blocks
    exact ⟨bs, hinv, fun b hb ↦ hown b (hperm.mem_iff.mpr hb)⟩
  nodup := hperm.nodup_iff.mp h.nodup
  live := fun a ↦ by
    rw [h.live]
    simp only [hperm.mem_iff]
  fresh := fun b hb ↦ h.fresh b (hperm.mem_iff.mpr hb)

theorem Owns.invariant (h : Owns s₀ s own) : ∃ bs, HeapInvariant s bs := by
  obtain ⟨bs, hinv, -⟩ := h.blocks
  exact ⟨bs, hinv⟩

/-- Owned blocks lie in the heap. -/
theorem Owns.bounds (h : Owns s₀ s own) (hb : b ∈ own) :
    s.heapStart ≤ payload b ∧ payload b + b.size ≤ s.heapStart + heapBytes ∧
      s.heapStart + heapBytes ≤ 2 ^ 64 := by
  obtain ⟨bs, hinv, hown⟩ := h.blocks
  have hbounds := hinv.chain.bounds (hown b hb).1
  have hfits := hinv.chain.fits
  unfold payload
  omega

/-- Owned blocks have no byte in common. -/
theorem Owns.apart (h : Owns s₀ s own) (hb : b ∈ own) (hc : c ∈ own) (hne : b ≠ c) :
    payload b + b.size ≤ payload c ∨ payload c + c.size ≤ payload b := by
  obtain ⟨bs, hinv, hown⟩ := h.blocks
  simp only [payload]
  rcases hinv.chain.tiles.separated (hown b hb).1 (hown c hc).1 with heq | hsep | hsep
  · exact absurd heq hne
  · omega
  · omega

theorem Owns.clientByte (h : Owns s₀ s own) (hx : OwnByte own x) : ClientByte s x := by
  obtain ⟨bs, hinv, hown⟩ := h.blocks
  obtain ⟨b, hb, hlow, hhigh⟩ := hx
  exact hinv.clientByte_of_used (hown b hb).1 (hown b hb).2 hlow hhigh

theorem Owns.writable (h : Owns s₀ s own) (hx : Writable s own x) : ClientByte s x := by
  rcases hx with hx | hx | hx
  · exact Or.inl hx
  · exact Or.inr (Or.inl hx)
  · exact h.clientByte hx

/-- Stores to writable bytes. -/
theorem Owns.store (h : Owns s₀ s own) (hmem : ∀ x, ¬Writable s own x → mem x = s.mem x) :
    Owns s₀ { s with mem := mem } own := by
  obtain ⟨bs, hinv, hown⟩ := h.blocks
  have hinv' := hinv.clientStore (fun x ↦ h.writable) hmem
  -- The blocks of others keep their bytes.
  have hothers : ∀ c ∈ bs, c.tag = false → c ∉ own →
      allocation mem c = allocation s.mem c := by
    intro c hc hused hnot
    refine allocation_congr fun x hlow hhigh ↦ hmem x ?_
    have hbounds := hinv.chain.bounds hc
    rintro (hx | hx | ⟨b, hb, hlow', hhigh'⟩)
    · simp only [payload] at *
      omega
    · simp only [payload] at *
      omega
    · simp only [payload] at *
      rcases hinv.chain.tiles.separated hc (hown b hb).1 with rfl | hsep | hsep
      · exact hnot hb
      · omega
      · omega
  refine ⟨h.start, ⟨bs, hinv', hown⟩, h.nodup, fun a ↦ ?_, h.fresh⟩
  rw [hinv'.represents.mem_live]
  constructor
  · rintro ⟨c, hc, hused, rfl⟩
    by_cases hmine : c ∈ own
    · exact Or.inl ⟨c, hmine, rfl⟩
    have hlive := (h.live _).mp (hinv.represents.mem_live.mpr ⟨c, hc, hused, rfl⟩)
    rcases hlive with ⟨b, hb, heq⟩ | hlive
    · have hpayload : payload b = payload c := congrArg Allocation.address heq
      exact absurd (hinv.represents.eq_of_payload (hown b hb).1 hc hpayload ▸ hb) hmine
    · exact Or.inr (by rwa [hothers c hc hused hmine])
  · rintro (⟨b, hb, rfl⟩ | ha)
    · exact ⟨b, (hown b hb).1, (hown b hb).2, rfl⟩
    · obtain ⟨c, hc, hused, rfl⟩ := hinv.represents.mem_live.mp ((h.live a).mpr (Or.inr ha))
      refine ⟨c, hc, hused, hothers c hc hused fun hmine ↦ ?_⟩
      exact h.fresh c hmine _ ha rfl

theorem HeapInvariant.outOfMemory_iff (h : HeapInvariant s bs) (hpos : size ≠ 0) :
    (∃ n, kmalloc s size = some (s, .outOfMemory n)) ↔
      ¬∃ b ∈ bs, b.tag = true ∧ alignUp size minAllocAlign ≤ b.size := by
  rcases kmalloc_spec h hpos with ⟨pre, b, post, rfl, htag, hfit, hk⟩ | ⟨hnone, hk⟩
  · refine iff_of_false ?_ (not_not_intro ⟨b, by simp, htag, hfit⟩)
    rintro ⟨n, hn⟩
    simp [hk] at hn
  · refine iff_of_true ⟨_, hk⟩ ?_
    rintro ⟨b, hb, htag, hfit⟩
    exact absurd (hnone b hb htag) (not_lt.mpr hfit)

/-- `kmalloc` fails, or there is one more block.  It holds the size that is
asked for only as far as rounding does not wrap. -/
theorem Owns.kmalloc_rounded (h : Owns s₀ s own) (hpos : size ≠ 0) :
    (∃ n, kmalloc s size = some (s, .outOfMemory n)) ∨
      ∃ s' b, kmalloc s size = some (s', .block (payload b)) ∧ Owns s₀ s' (b :: own) ∧
        alignUp size minAllocAlign ≤ b.size ∧ ∀ x, OwnByte own x → s'.mem x = s.mem x := by
  obtain ⟨bs, hinv, hown⟩ := h.blocks
  rcases kmalloc_spec hinv hpos with ⟨pre, free, post, rfl, htag, hfit, hk⟩ | ⟨-, hk⟩
  swap
  · exact Or.inl ⟨_, hk⟩
  have halign := alignUp_aligned size
  generalize alignUp size minAllocAlign = n at *
  have hinv' := hinv.allocated (b := free) halign
  have hbytes : ∀ x, OwnByte own x → (allocated s free n post).mem x = s.mem x :=
    fun x hx ↦ hinv.allocated_kept halign htag (h.clientByte hx)
  have hkept : ∀ c ∈ own, allocation (allocated s free n post).mem c = allocation s.mem c :=
    fun c hc ↦ allocation_congr fun x hlow hhigh ↦ hbytes x ⟨c, hc, hlow, hhigh⟩
  have hnew : ∀ a ∈ liveAllocations s, a.address ≠ payload free := by
    intro a ha
    rw [← hinv.represents.live_ne_free (List.mem_append_right pre (List.mem_cons_self ..)) htag]
      at ha
    exact ha.2
  refine Or.inr ⟨_, handedOut free n, hk, ⟨h.start, ⟨_, hinv', ?_⟩, ?_, fun a ↦ ?_, ?_⟩,
    le_granted hfit, hbytes⟩
  · rw [List.forall_mem_cons]
    refine ⟨⟨List.mem_append_right pre (List.mem_cons_self ..), rfl⟩, fun c hc ↦ ?_⟩
    exact ⟨(mem_allocate_iff htag (hown c hc).2).mpr (Or.inr (hown c hc).1), (hown c hc).2⟩
  · refine List.nodup_cons.mpr ⟨fun hmine ↦ ?_, h.nodup⟩
    have hlive : allocation s.mem (handedOut free n) ∈ liveAllocations s :=
      (h.live _).mpr (Or.inl ⟨_, hmine, rfl⟩)
    exact hnew _ hlive rfl
  · rw [live_allocated hinv htag halign, Set.mem_insert_iff, h.live]
    simp only [List.exists_mem_cons_iff, or_assoc, eq_comm (a := a)]
    refine or_congr_right (or_congr_left ?_)
    refine exists_congr fun c ↦ and_congr_right fun hc ↦ ?_
    rw [hkept c hc]
  · rw [List.forall_mem_cons]
    exact ⟨fun a ha ↦ hnew a ((h.live a).mpr (Or.inr ha)), h.fresh⟩

theorem Owns.kmalloc (h : Owns s₀ s own) (hpos : size ≠ 0) (hle : size ≤ 0xFFFFFFF8) :
    (∃ n, kmalloc s size = some (s, .outOfMemory n)) ∨
      ∃ s' b, kmalloc s size = some (s', .block (payload b)) ∧ Owns s₀ s' (b :: own) ∧
        size ≤ b.size ∧ ∀ x, OwnByte own x → s'.mem x = s.mem x :=
  (h.kmalloc_rounded hpos).imp_right fun ⟨s', b, hk, howns, hround, hbytes⟩ ↦
    ⟨s', b, hk, howns, (le_alignUp hle).trans hround, hbytes⟩

/-- The header of an owned block has its size. -/
theorem Owns.blockSize_eq (h : Owns s₀ s own) (hb : b ∈ own) :
    blockSize s.mem (payload b - headerSize) = b.size := by
  obtain ⟨bs, hinv, hown⟩ := h.blocks
  obtain ⟨pre, post, rfl⟩ := List.append_of_mem (hown b hb).1
  exact hinv.chain.header.size_eq

/-- `kfree` takes an owned block, even one of no bytes unless it ends the
heap. -/
theorem Owns.kfree_of_lt (h : Owns s₀ s (b :: own))
    (hlt : payload b < s.heapStart + heapBytes) :
    ∃ s', kfree s (payload b) = some (s', .freed) ∧ Owns s₀ s' own ∧
      ∀ x, OwnByte own x → s'.mem x = s.mem x := by
  obtain ⟨bs, hinv, hown⟩ := h.blocks
  obtain ⟨hb, hothers⟩ := List.forall_mem_cons.mp hown
  obtain ⟨hnot, hnodup⟩ := List.nodup_cons.mp h.nodup
  obtain ⟨pre, post, rfl⟩ := List.append_of_mem hb.1
  have hfree := kfree_live hinv.represents hb.2 hlt
  have hbytes : ∀ c ∈ own, ∀ x, payload c ≤ x → x < payload c + c.size →
      (releaseBlock s b.start (prevAddr pre 0)).mem x = s.mem x := fun c hc ↦
    (headersOnly_release hinv).bytes_kept fun x hx ↦ hinv.chain.payload_clear (hothers c hc).1 hx
  have hapart : ∀ c ∈ own, payload c ≠ payload b := by
    intro c hc heq
    obtain rfl := hinv.represents.eq_of_payload (hothers c hc).1 hb.1 heq
    exact hnot hc
  refine ⟨_, hfree, ⟨h.start, ⟨_, hinv.release, ?_⟩, hnodup, fun a ↦ ?_, ?_⟩, ?_⟩
  · intro c hc
    refine ⟨(mem_released_iff (hothers c hc).2).mpr ?_, (hothers c hc).2⟩
    have hne : c ≠ b := fun heq ↦ hnot (heq ▸ hc)
    have hmem := (hothers c hc).1
    simpa [hne] using hmem
  · rw [live_released hinv, Set.mem_ofPred_eq, h.live]
    simp only [List.exists_mem_cons_iff]
    constructor
    · rintro ⟨(rfl | ⟨c, hc, rfl⟩) | ha, hne⟩
      · exact absurd rfl hne
      · exact Or.inl ⟨c, hc, allocation_congr (hbytes c hc)⟩
      · exact Or.inr ha
    · rintro (⟨c, hc, rfl⟩ | ha)
      · refine ⟨Or.inl (Or.inr ⟨c, hc, (allocation_congr (hbytes c hc)).symm⟩), hapart c hc⟩
      · exact ⟨Or.inr ha, h.fresh b (List.mem_cons_self ..) a ha⟩
  · exact fun c hc ↦ h.fresh c (List.mem_cons_of_mem b hc)
  · rintro x ⟨c, hc, hlow, hhigh⟩
    exact hbytes c hc x hlow hhigh

theorem Owns.kfree (h : Owns s₀ s (b :: own)) (hsize : b.size ≠ 0) :
    ∃ s', kfree s (payload b) = some (s', .freed) ∧ Owns s₀ s' own ∧
      ∀ x, OwnByte own x → s'.mem x = s.mem x := by
  have hbounds := h.bounds (List.mem_cons_self ..)
  exact h.kfree_of_lt (by omega)

/-- The check of the range refuses a block of no bytes at the end of the
heap. -/
theorem HeapInvariant.kfree_at_end (h : HeapInvariant s bs) {ptr : ℕ}
    (hptr : s.heapStart + heapBytes ≤ ptr) : kfree s ptr = some (s, .invalidPointer) := by
  have hpos := h.chain.pos
  have hnull : ptr ≠ 0 := by omega
  have hinit : ¬(s.heapInitialized = false ∨ s.heapStart = 0) := by
    simp only [h.initialized, Bool.true_eq_false, false_or]
    omega
  have hrange : (s.heapStart + heapBytes) % 2 ^ 64 ≤ ptr := (Nat.mod_le _ _).trans hptr
  rw [kfree, if_neg hnull, if_neg hinit, if_pos (Or.inr hrange)]

/-- A borrowed block leaves what is owned as it is. -/
theorem Owns.borrow {w : ℕ → Prop} (h : Owns s₀ s own) (hb : Borrows s size w s')
    (hle : size ≤ 0xFFFFFFF8) (hw : ∀ x, w x → Writable s own x) : Owns s₀ s' own := by
  cases hb with
  | refused => exact h
  | returned htake hmem hgive =>
      obtain ⟨bs, hinv⟩ := h.invariant
      have hpos := hinv.size_ne_zero htake
      rcases h.kmalloc hpos hle with ⟨n, hk⟩ | ⟨t, b, hk, howns, hsize, -⟩
      · simp [hk] at htake
      obtain ⟨rfl, hptr⟩ := Prod.mk.inj (Option.some.inj (hk.symm.trans htake))
      obtain rfl := KmallocResult.block.inj hptr
      have hstored := howns.store fun x hx ↦ hmem x
        (fun hwx ↦ hx ((hw x hwx).cons (howns.start.trans h.start.symm)))
        (by
          by_contra hin
          exact hx (writable_of_mem (List.mem_cons_self ..) (by omega) (by omega)))
      obtain ⟨t', hfree, howns', -⟩ := hstored.kfree (by omega)
      obtain ⟨rfl, -⟩ := Prod.mk.inj (Option.some.inj (hfree.symm.trans hgive))
      exact howns'

/-- With nothing left to own, the live allocations are those of before. -/
theorem Owns.live_eq (h : Owns s₀ s []) : liveAllocations s = liveAllocations s₀ := by
  ext a
  rw [h.live]
  simp

theorem Owns.live_eq_insert (h : Owns s₀ s [b]) :
    liveAllocations s = insert (allocation s.mem b) (liveAllocations s₀) ∧
      allocation s.mem b ∉ liveAllocations s₀ := by
  refine ⟨?_, fun ha ↦ h.fresh b (List.mem_cons_self ..) _ ha rfl⟩
  ext a
  rw [h.live, Set.mem_insert_iff]
  simp [eq_comm]

/-- A block that is not given back shows. -/
theorem Owns.live_ne (h : Owns s₀ s own) (hb : b ∈ own) :
    liveAllocations s ≠ liveAllocations s₀ := by
  intro heq
  have hlive : allocation s.mem b ∈ liveAllocations s := (h.live _).mpr (Or.inl ⟨b, hb, rfl⟩)
  rw [heq] at hlive
  exact h.fresh b hb _ hlive rfl

end ImplusKernel.Heap
