import ImplusKernel.Lib.Tiling
import ImplusKernel.Memory.Heap

/-!
# The block list in memory

The list threaded through the headers is described by a list of segments
tagged with their free flag.  `Linked` says that memory holds exactly these
headers; it depends on the header bytes only, so writes elsewhere leave it
alone.
-/

namespace ImplusKernel.Heap

open ByteMemory Words Tiling

/-- A block's address, payload size and free flag. -/
abbrev Block := Segment Bool

/-- The payload address handed out for a block. -/
def payload (b : Block) : ℕ := b.start + headerSize

structure HeaderAt (m : Mem) (b : Block) (next : ℕ) : Prop where
  size_eq : blockSize m b.start = b.size
  isFree_eq : blockIsFree m b.start = b.tag.toNat
  next_eq : blockNext m b.start = next

/-- The address of the first block, or `last` when there is none. -/
def nextAddr : List Block → ℕ → ℕ
  | [], last => last
  | b :: _, _ => b.start

/-- Memory holds the headers of `bs`, the last of them pointing to `last`. -/
def Linked (m : Mem) : List Block → ℕ → Prop
  | [], _ => True
  | b :: bs, last => HeaderAt m b (nextAddr bs last) ∧ Linked m bs last

@[simp] theorem nextAddr_nil (last : ℕ) : nextAddr [] last = last := rfl

@[simp] theorem nextAddr_cons (b : Block) (bs : List Block) (last : ℕ) :
    nextAddr (b :: bs) last = b.start := rfl

theorem nextAddr_append (xs ys : List Block) (last : ℕ) :
    nextAddr (xs ++ ys) last = nextAddr xs (nextAddr ys last) := by
  cases xs <;> rfl

@[simp] theorem linked_nil (m : Mem) (last : ℕ) : Linked m [] last := trivial

@[simp] theorem linked_cons {m : Mem} {b : Block} {bs : List Block} {last : ℕ} :
    Linked m (b :: bs) last ↔ HeaderAt m b (nextAddr bs last) ∧ Linked m bs last := Iff.rfl

theorem linked_append {m : Mem} {xs ys : List Block} {last : ℕ} :
    Linked m (xs ++ ys) last ↔ Linked m xs (nextAddr ys last) ∧ Linked m ys last := by
  induction xs with
  | nil => simp
  | cons b bs ih =>
      simp only [List.cons_append, linked_cons, ih, nextAddr_append, and_assoc]

/-! ## Reading back what was written -/

theorem isFree_ne_zero_iff {m : Mem} {b : Block} {next : ℕ} (h : HeaderAt m b next) :
    blockIsFree m b.start ≠ 0 ↔ b.tag = true := by
  rw [h.isFree_eq]
  cases b.tag <;> simp

section Fields

variable (m : Mem) (a c v : ℕ)

@[simp] theorem blockSize_setSize (hv : v < 2 ^ 32) :
    blockSize (setSize m a v) a = v :=
  readLE_writeLE_of_lt m (by norm_num at hv ⊢; exact hv)

@[simp] theorem blockIsFree_setSize : blockIsFree (setSize m a v) a = blockIsFree m a :=
  readLE_writeLE_disjoint m (Or.inr le_rfl)

@[simp] theorem blockNext_setSize : blockNext (setSize m a v) a = blockNext m a :=
  readLE_writeLE_disjoint m (Or.inr (by omega))

@[simp] theorem blockSize_setIsFree : blockSize (setIsFree m a v) a = blockSize m a :=
  readLE_writeLE_disjoint m (Or.inl le_rfl)

@[simp] theorem blockIsFree_setIsFree (hv : v < 2 ^ 32) :
    blockIsFree (setIsFree m a v) a = v :=
  readLE_writeLE_of_lt m (by norm_num at hv ⊢; exact hv)

@[simp] theorem blockNext_setIsFree : blockNext (setIsFree m a v) a = blockNext m a :=
  readLE_writeLE_disjoint m (Or.inr le_rfl)

@[simp] theorem blockSize_setNext : blockSize (setNext m a v) a = blockSize m a :=
  readLE_writeLE_disjoint m (Or.inl (by omega))

@[simp] theorem blockIsFree_setNext : blockIsFree (setNext m a v) a = blockIsFree m a :=
  readLE_writeLE_disjoint m (Or.inl le_rfl)

@[simp] theorem blockNext_setNext (hv : v < 2 ^ 64) :
    blockNext (setNext m a v) a = v :=
  readLE_writeLE_of_lt m (by norm_num at hv ⊢; exact hv)

end Fields

theorem blockNext_lt (m : Mem) (a : ℕ) : blockNext m a < 2 ^ 64 := by
  have h := readLE_lt m (a + 8) 8
  norm_num at h ⊢
  exact h

/-! ## Writes that touch headers only -/

/-- `m'` differs from `m` at most in the headers of `bs`. -/
def HeadersOnly (bs : List Block) (m m' : Mem) : Prop :=
  ∀ x, (∀ b ∈ bs, x < b.start ∨ b.start + headerSize ≤ x) → m' x = m x

theorem HeadersOnly.refl (bs : List Block) (m : Mem) : HeadersOnly bs m m := fun _ _ ↦ rfl

theorem HeadersOnly.trans {bs : List Block} {m m' m'' : Mem}
    (h : HeadersOnly bs m m') (h' : HeadersOnly bs m' m'') : HeadersOnly bs m m'' :=
  fun x hx ↦ (h' x hx).trans (h x hx)

theorem HeadersOnly.mono {bs : List Block} {m m' : Mem} (h : HeadersOnly bs m m')
    (cs : List Block) (hsub : ∀ b ∈ bs, ∃ c ∈ cs, c.start = b.start) : HeadersOnly cs m m' := by
  intro x hx
  apply h
  intro b hb
  obtain ⟨c, hc, hstart⟩ := hsub b hb
  have hxc := hx c hc
  omega

theorem headersOnly_setSize (m : Mem) (b : Block) (v : ℕ) :
    HeadersOnly [b] m (setSize m b.start v) := by
  intro x hx
  have hxb := hx b List.mem_cons_self
  apply writeLE_outside
  simp only [headerSize] at hxb
  omega

theorem headersOnly_setIsFree (m : Mem) (b : Block) (v : ℕ) :
    HeadersOnly [b] m (setIsFree m b.start v) := by
  intro x hx
  have hxb := hx b List.mem_cons_self
  apply writeLE_outside
  simp only [headerSize] at hxb
  omega

theorem headersOnly_setNext (m : Mem) (b : Block) (v : ℕ) :
    HeadersOnly [b] m (setNext m b.start v) := by
  intro x hx
  have hxb := hx b List.mem_cons_self
  apply writeLE_outside
  simp only [headerSize] at hxb
  omega

theorem HeaderAt.congr {m m' : Mem} {b : Block} {next : ℕ} (h : HeaderAt m b next)
    (hagree : AgreeOn m m' b.start (b.start + headerSize)) : HeaderAt m' b next := by
  simp only [headerSize] at hagree
  refine ⟨?_, ?_, ?_⟩
  · rw [← h.size_eq]
    exact readLE_congr (hagree.mono le_rfl (by omega))
  · rw [← h.isFree_eq]
    exact readLE_congr (hagree.mono (by omega) (by omega))
  · rw [← h.next_eq]
    exact readLE_congr (hagree.mono (by omega) (by omega))

theorem Linked.congr {m m' : Mem} {bs : List Block} {last : ℕ} (h : Linked m bs last)
    (hagree : ∀ b ∈ bs, AgreeOn m m' b.start (b.start + headerSize)) :
    Linked m' bs last := by
  induction bs with
  | nil => trivial
  | cons b bs ih =>
      refine ⟨h.1.congr (hagree b List.mem_cons_self), ih h.2 ?_⟩
      intro c hc
      exact hagree c (List.mem_cons_of_mem b hc)

/-- Headers of other blocks of a tiling survive writes to the headers of
`cs`. -/
theorem Linked.of_headersOnly {m m' : Mem} {bs cs : List Block} {last : ℕ}
    (h : Linked m bs last) (hw : HeadersOnly cs m m')
    (hsep : ∀ b ∈ bs, ∀ c ∈ cs,
      b.start + headerSize ≤ c.start ∨ c.start + headerSize ≤ b.start) :
    Linked m' bs last := by
  apply h.congr
  intro b hb x hlo hhi
  apply hw
  intro c hc
  have hbc := hsep b hb c hc
  omega

end ImplusKernel.Heap
