import ImplusKernel.Memory.HeapScratch

/-!
# Footprints

What an operation of the kernel leaves alone: the heap stays in order, bytes
stay with their owners, and of these only the ones in the footprint change.
-/

namespace ImplusKernel.Heap

open ByteMemory Tiling

variable {s s' s'' : MemoryState} {bs : List Block} {x : ℕ} {w : ℕ → Prop} {mem : Mem}

structure Keeps (s s' : MemoryState) (w : ℕ → Prop) : Prop where
  heap : ∃ bs, HeapInvariant s' bs
  client : ∀ x, ClientByte s x → ClientByte s' x
  kept : ∀ x, ClientByte s x → ¬w x → s'.mem x = s.mem x

theorem HeapInvariant.keeps (h : HeapInvariant s bs) (w : ℕ → Prop) : Keeps s s w :=
  ⟨⟨bs, h⟩, fun _ hx ↦ hx, fun _ _ _ ↦ rfl⟩

theorem Keeps.trans (h : Keeps s s' w) (h' : Keeps s' s'' w) : Keeps s s'' w where
  heap := h'.heap
  client := fun x hx ↦ h'.client x (h.client x hx)
  kept := fun x hx hw ↦ (h'.kept x (h.client x hx) hw).trans (h.kept x hx hw)

theorem Keeps.mono (h : Keeps s s' w) {w' : ℕ → Prop} (hw : ∀ x, w x → w' x) : Keeps s s' w' :=
  ⟨h.heap, h.client, fun x hx hx' ↦ h.kept x hx fun hw' ↦ hx' (hw x hw')⟩

theorem clientByte_apart_header (h : HeapInvariant s bs) (hx : ClientByte s x) :
    ∀ y ∈ bs, x < y.start ∨ y.start + headerSize ≤ x := by
  intro y hy
  rcases h.clientByte hx with hout | ⟨c, hc, -, hlow, hhigh⟩
  · have hbounds := h.chain.bounds hy
    omega
  · have hclear := h.chain.payload_clear hc hy
    omega

/-- Stores into bytes of clients leave the blocks as they are. -/
theorem HeapInvariant.clientStore (h : HeapInvariant s bs) (hw : ∀ x, w x → ClientByte s x)
    (hmem : ∀ x, ¬w x → mem x = s.mem x) : HeapInvariant { s with mem := mem } bs := by
  refine ⟨h.initialized, h.chain.of_agree ?_, h.hint⟩
  intro y hy x hlow hhigh
  refine hmem x fun hx ↦ ?_
  have hclear := clientByte_apart_header h (hw x hx) y hy
  omega

theorem HeapInvariant.keeps_store (h : HeapInvariant s bs) (hw : ∀ x, w x → ClientByte s x)
    (hmem : ∀ x, ¬w x → mem x = s.mem x) : Keeps s { s with mem := mem } w := by
  have hinv := h.clientStore hw hmem
  exact ⟨⟨bs, hinv⟩, fun x hx ↦ hx.mono h hinv rfl fun _ hc _ ↦ hc, fun x _ hx ↦ hmem x hx⟩

/-- An allocation, and what is known of the new block. -/
theorem HeapInvariant.keeps_kmalloc (h : HeapInvariant s bs) {size : ℕ} (hpos : size ≠ 0)
    (hle : size ≤ 0xFFFFFFF8) {r : KmallocResult} (hcall : kmalloc s size = some (s', r)) :
    Keeps s s' (fun _ ↦ False) ∧ (r.ptr ≠ 0 → r.ptr + size ≤ 2 ^ 64 ∧
      ∀ x, r.ptr ≤ x → x < r.ptr + size → ClientByte s' x ∧ ¬ClientByte s x) := by
  rcases kmalloc_spec h hpos with ⟨pre, b, post, rfl, htag, hfit, hk⟩ | ⟨_, hk⟩
  swap
  · rw [hk] at hcall
    obtain ⟨rfl, rfl⟩ := Prod.mk.inj (Option.some.inj hcall)
    exact ⟨h.keeps _, fun hr ↦ absurd rfl hr⟩
  rw [hk] at hcall
  obtain ⟨rfl, rfl⟩ := Prod.mk.inj (Option.some.inj hcall)
  have hscratch := scratch_allocated h htag (alignUp_aligned size) hfit hpos (le_alignUp hle)
  have hinv := h.allocated (alignUp_aligned size)
  refine ⟨⟨⟨_, hinv⟩, ?_, fun x hx _ ↦ hscratch.kept x hx⟩, fun _ ↦ ⟨hscratch.fits, ?_⟩⟩
  · intro x hx
    exact hx.mono h hinv rfl fun c hc hused ↦ (mem_allocate_iff htag hused).mpr (Or.inr hc)
  · intro x hlow hhigh
    constructor
    · have hgranted := (le_alignUp hle).trans (le_granted hfit)
      exact hinv.clientByte_of_used
        (List.mem_append_right pre (List.mem_cons_self (a := handedOut b _))) rfl hlow
        (lt_of_lt_of_le hhigh (Nat.add_le_add_left hgranted _))
    · intro hx
      have hapart := hscratch.apart x hx
      have hptr : (KmallocResult.block (payload b)).ptr = payload b := rfl
      omega

/-- A temporary block that is filled, used and given back, while stores go to
bytes of clients. -/
theorem Scratch.keeps {ptr size : ℕ} (hs : Scratch s s' ptr size)
    (hmem : ∀ x, ¬w x → x < ptr ∨ ptr + size ≤ x → mem x = s'.mem x)
    (hw : ∀ x, w x → ClientByte s x) :
    ∃ s'', kfree { s' with mem := mem } ptr = some (s'', .freed) ∧ Keeps s s'' w := by
  obtain ⟨s'', bs, hfree, hinv, hkept⟩ := hs.release mem fun x hx hout ↦
    hmem x (fun hwx ↦ hx (hw x hwx)) hout
  refine ⟨s'', hfree, ⟨bs, hinv⟩, fun x hx ↦ (hkept x hx).1, fun x hx hwx ↦ ?_⟩
  rw [(hkept x hx).2, hmem x hwx (hs.apart x hx), hs.kept x hx]

/-! ## Borrowed blocks -/

/-- The states in which a call can leave the heap that asks for a block of
`size` bytes: it did not get one, or it wrote to it and to the bytes in `w`
and gave it back. -/
inductive Borrows (s : MemoryState) (size : ℕ) (w : ℕ → Prop) : MemoryState → Prop
  | refused : Borrows s size w s
  | returned {s' s'' : MemoryState} {ptr : ℕ} {mem : Mem}
      (htake : kmalloc s size = some (s', .block ptr))
      (hmem : ∀ x, ¬w x → x < ptr ∨ ptr + size ≤ x → mem x = s'.mem x)
      (hgive : kfree { s' with mem := mem } ptr = some (s'', .freed)) :
      Borrows s size w s''

theorem HeapInvariant.size_ne_zero (h : HeapInvariant s bs) {size ptr : ℕ}
    (htake : kmalloc s size = some (s', .block ptr)) : size ≠ 0 := by
  rintro rfl
  rw [kmalloc_zero h.represents] at htake
  simp at htake

theorem Borrows.keeps {size : ℕ} (hb : Borrows s size w s'') (h : HeapInvariant s bs)
    (hle : size ≤ 0xFFFFFFF8) (hw : ∀ x, w x → ClientByte s x) : Keeps s s'' w := by
  cases hb with
  | refused => exact h.keeps w
  | returned htake hmem hgive =>
      have hpos := h.size_ne_zero htake
      rcases kmalloc_spec h hpos with ⟨pre, b, post, rfl, htag, hfit, hk⟩ | ⟨-, hk⟩
      · obtain ⟨rfl, hptr⟩ := Prod.mk.inj (Option.some.inj (hk.symm.trans htake))
        obtain rfl := KmallocResult.block.inj hptr
        have hs := scratch_allocated h htag (alignUp_aligned size) hfit hpos (le_alignUp hle)
        obtain ⟨t, hfree, hkeeps⟩ := hs.keeps hmem hw
        obtain ⟨rfl, -⟩ := Prod.mk.inj (Option.some.inj (hfree.symm.trans hgive))
        exact hkeeps
      · simp [hk] at htake

end ImplusKernel.Heap
