import ImplusKernel.Paging.Mmio

/-!
# The slots of the MMIO window

Each slot records the base of a different region.  A slot keeps its region for
good, so addresses of one region are answered from one slot whatever other
calls come in between.
-/

namespace ImplusKernel.Paging

variable {addrs : TableAddrs} {s s' : PagingState} {reqs : List ℕ} {a b : ℕ}

structure SlotTable (s : PagingState) : Prop where
  used_le : s.mmioSlotsUsed ≤ mmioWindowSlots
  distinct : ∀ i < s.mmioSlotsUsed, ∀ j < s.mmioSlotsUsed,
    s.mmioPhysBase i = s.mmioPhysBase j → i = j
  aligned : ∀ i < s.mmioSlotsUsed, mb2 ∣ s.mmioPhysBase i
  high : ∀ i < s.mmioSlotsUsed, 4 * gb ≤ s.mmioPhysBase i

/-- The region of an address is recorded in slot `i`. -/
def Recorded (s : PagingState) (a i : ℕ) : Prop :=
  i < s.mmioSlotsUsed ∧ s.mmioPhysBase i = a / mb2 * mb2

def InSlot (p i : ℕ) : Prop :=
  mmioWindowBase + i * mb2 ≤ p ∧ p < mmioWindowBase + (i + 1) * mb2

/-- No slot is given up. -/
structure Extends (s s' : PagingState) : Prop where
  used_le : s.mmioSlotsUsed ≤ s'.mmioSlotsUsed
  base : ∀ i < s.mmioSlotsUsed, s'.mmioPhysBase i = s.mmioPhysBase i

/-! ## One call -/

theorem Extends.refl (s : PagingState) : Extends s s := ⟨le_rfl, fun _ _ ↦ rfl⟩

theorem Extends.trans {s'' : PagingState} (h : Extends s s') (h' : Extends s' s'') :
    Extends s s'' :=
  ⟨h.used_le.trans h'.used_le,
    fun i hi ↦ (h'.base i (hi.trans_le h.used_le)).trans (h.base i hi)⟩

theorem Extends.recorded {i : ℕ} (h : Extends s s') (hrec : Recorded s a i) : Recorded s' a i :=
  ⟨hrec.1.trans_le h.used_le, (h.base i hrec.1).trans hrec.2⟩

theorem extends_opened : Extends s (opened addrs s a) :=
  ⟨Nat.le_succ _, fun _ hi ↦ opened_base_of_lt hi⟩

theorem extends_mapMmioVirt (addrs : TableAddrs) (s : PagingState) (ha : a < 2 ^ 64) :
    Extends s (mapMmioVirt addrs s a).1 := by
  rcases mapMmioVirt_cases addrs s ha with
    ⟨-, hcall⟩ | ⟨-, i, -, -, hcall⟩ | ⟨-, -, -, hcall⟩ | ⟨-, -, -, hcall⟩
  · rw [hcall]
    exact .refl s
  · rw [hcall]
    exact .refl s
  · rw [hcall]
    exact .refl s
  · rw [hcall]
    exact extends_opened

theorem SlotTable.opened (h : SlotTable s) (ha : 4 * gb ≤ a)
    (hroom : s.mmioSlotsUsed < mmioWindowSlots)
    (hnew : ∀ i < s.mmioSlotsUsed, s.mmioPhysBase i ≠ a / mb2 * mb2) :
    SlotTable (opened addrs s a) := by
  have hcases : ∀ i < s.mmioSlotsUsed + 1, i < s.mmioSlotsUsed ∨ i = s.mmioSlotsUsed :=
    fun i hi ↦ Nat.lt_succ_iff_lt_or_eq.mp hi
  refine ⟨hroom, ?_, ?_, ?_⟩
  · intro i hi j hj heq
    rcases hcases i hi with hi | rfl <;> rcases hcases j hj with hj | rfl
    · rw [opened_base_of_lt hi, opened_base_of_lt hj] at heq
      exact h.distinct i hi j hj heq
    · rw [opened_base_of_lt hi, opened_base_self] at heq
      exact absurd heq (hnew i hi)
    · rw [opened_base_self, opened_base_of_lt hj] at heq
      exact absurd heq.symm (hnew j hj)
    · rfl
  · intro i hi
    rcases hcases i hi with hi | rfl
    · rw [opened_base_of_lt hi]
      exact h.aligned i hi
    · rw [opened_base_self]
      exact Dvd.intro_left _ rfl
  · intro i hi
    rcases hcases i hi with hi | rfl
    · rw [opened_base_of_lt hi]
      exact h.high i hi
    · rw [opened_base_self]
      simp only [gb, mb2] at ha ⊢
      omega

theorem SlotTable.mapMmioVirt (h : SlotTable s) (addrs : TableAddrs) (ha : a < 2 ^ 64) :
    SlotTable (mapMmioVirt addrs s a).1 := by
  rcases mapMmioVirt_cases addrs s ha with
    ⟨-, hcall⟩ | ⟨-, i, -, -, hcall⟩ | ⟨-, -, -, hcall⟩ | ⟨hhigh, hroom, hnew, hcall⟩
  · rw [hcall]
    exact h
  · rw [hcall]
    exact h
  · rw [hcall]
    exact h
  · rw [hcall]
    exact h.opened hhigh hroom hnew

theorem SlotTable.answer_recorded {i : ℕ} (h : SlotTable s) (addrs : TableAddrs)
    (ha : a < 2 ^ 64) (hhigh : 4 * gb ≤ a) (hrec : Recorded s a i) :
    Paging.mapMmioVirt addrs s a = (s, .mapped (mmioWindowBase + i * mb2 + a % mb2)) := by
  rcases mapMmioVirt_cases addrs s ha with
    ⟨hlow, -⟩ | ⟨-, j, hj, hbase, hcall⟩ | ⟨-, -, hnew, -⟩ | ⟨-, -, hnew, -⟩
  · omega
  · rw [h.distinct i hrec.1 j hj (hrec.2.trans hbase.symm)]
    exact hcall
  · exact absurd hrec.2 (hnew i hrec.1)
  · exact absurd hrec.2 (hnew i hrec.1)

/-- A full table rejects the regions it does not have, and stays as it is. -/
theorem answer_full (addrs : TableAddrs) (ha : a < 2 ^ 64) (hhigh : 4 * gb ≤ a)
    (hfull : mmioWindowSlots ≤ s.mmioSlotsUsed) (hnew : ∀ i, ¬Recorded s a i) :
    mapMmioVirt addrs s a = (s, .windowExhausted) := by
  rcases mapMmioVirt_cases addrs s ha with
    ⟨hlow, -⟩ | ⟨-, i, hi, hbase, -⟩ | ⟨-, -, -, hcall⟩ | ⟨-, hroom, -, -⟩
  · omega
  · exact absurd ⟨hi, hbase⟩ (hnew i)
  · exact hcall
  · omega

/-- A call changes at most one entry of a page directory, that of the slot it
adds, and stores the directory's address above it. -/
theorem mapMmioVirt_changes (addrs : TableAddrs) (s : PagingState) (ha : a < 2 ^ 64) :
    (mapMmioVirt addrs s a).1.pml4 = s.pml4 ∧
      (∀ r j, (mapMmioVirt addrs s a).1.pd r j ≠ s.pd r j →
        (mapMmioVirt addrs s a).1.mmioSlotsUsed = s.mmioSlotsUsed + 1 ∧
          r = 3 ∧ j = 384 + s.mmioSlotsUsed) ∧
      (∀ r, r ≠ 3 → (mapMmioVirt addrs s a).1.pdpt r = s.pdpt r) ∧
      (s.pdpt 3 = tableEntry (addrs.pd + 3 * 4096) →
        (mapMmioVirt addrs s a).1.pdpt = s.pdpt) := by
  have hsame : s.pml4 = s.pml4 ∧
      (∀ r j, s.pd r j ≠ s.pd r j → s.mmioSlotsUsed = s.mmioSlotsUsed + 1 ∧
        r = 3 ∧ j = 384 + s.mmioSlotsUsed) ∧
      (∀ r, r ≠ 3 → s.pdpt r = s.pdpt r) ∧
      (s.pdpt 3 = tableEntry (addrs.pd + 3 * 4096) → s.pdpt = s.pdpt) :=
    ⟨rfl, fun _ _ hne ↦ absurd rfl hne, fun _ _ ↦ rfl, fun _ ↦ rfl⟩
  rcases mapMmioVirt_cases addrs s ha with
    ⟨-, hcall⟩ | ⟨-, i, -, -, hcall⟩ | ⟨-, -, -, hcall⟩ | ⟨-, -, -, hcall⟩
  · rw [hcall]
    exact hsame
  · rw [hcall]
    exact hsame
  · rw [hcall]
    exact hsame
  · rw [hcall]
    refine ⟨rfl, fun r j hne ↦ ⟨rfl, ?_⟩, fun r hr ↦ Function.update_of_ne hr .., fun h ↦ ?_⟩
    · by_contra hrow
      exact hne (opened_pd_of_ne hrow)
    · rw [opened, ← h, Function.update_eq_self]

/-! ## Sequences of calls -/

theorem mapAll_slots (addrs : TableAddrs) (h : SlotTable s) (hreqs : ∀ x ∈ reqs, x < 2 ^ 64) :
    SlotTable (mapAll addrs s reqs).1 ∧ Extends s (mapAll addrs s reqs).1 ∧
      (s.pdpt 3 = tableEntry (addrs.pd + 3 * 4096) →
        (mapAll addrs s reqs).1.pdpt 3 = tableEntry (addrs.pd + 3 * 4096)) := by
  induction reqs using List.reverseRecOn with
  | nil => exact ⟨h, .refl s, id⟩
  | append_singleton reqs a ih =>
      obtain ⟨htable, hextends, hdir⟩ := ih fun x hx ↦ hreqs x (List.mem_append_left _ hx)
      have ha := hreqs a (by simp)
      rw [mapAll_concat]
      refine ⟨htable.mapMmioVirt addrs ha, hextends.trans (extends_mapMmioVirt addrs _ ha), ?_⟩
      intro hentry
      have hkeep := (mapMmioVirt_changes addrs (mapAll addrs s reqs).1 ha).2.2.2 (hdir hentry)
      exact (congrFun hkeep 3).trans (hdir hentry)

theorem slotTable_init (addrs : TableAddrs) (fbBase fbSize : ℕ) :
    SlotTable (initPaging addrs fbBase fbSize).1 := by
  obtain ⟨-, hused, -⟩ :=
    mapGigabytes_spec addrs (.rooted addrs) (requiredEntries fbBase fbSize)
  have hzero : (initPaging addrs fbBase fbSize).1.mmioSlotsUsed = 0 := hused
  constructor <;> simp [hzero]

theorem directory_mapGigabytes (addrs : TableAddrs) {n : ℕ} (hn : 4 ≤ n) :
    (mapGigabytes addrs (.rooted addrs) n).pdpt 3 = tableEntry (addrs.pd + 3 * 4096) := by
  obtain ⟨-, -, hrows, -⟩ := mapGigabytes_spec addrs (.rooted addrs) n
  exact (hrows 3 (by omega)).1

/-- The directory of the window is in place unless rounding up the end of the
frame buffer leaves 64 bits, when nothing at all is mapped. -/
theorem directory_init (addrs : TableAddrs) {fbBase fbSize : ℕ}
    (hfb : (fbBase + fbSize) % 2 ^ 64 + gb ≤ 2 ^ 64) :
    (initPaging addrs fbBase fbSize).1.pdpt 3 = tableEntry (addrs.pd + 3 * 4096) := by
  have hinit : (initPaging addrs fbBase fbSize).1 =
      mapGigabytes addrs (.rooted addrs) (requiredEntries fbBase fbSize) := rfl
  rw [hinit]
  exact directory_mapGigabytes addrs (requiredEntries_ge hfb)

/-! ## Answers -/

theorem inSlot_answer (a i : ℕ) : InSlot (mmioWindowBase + i * mb2 + a % mb2) i := by
  have hlt := Nat.mod_lt a mb2_pos
  rw [InSlot, Nat.add_mul, Nat.one_mul]
  omega

/-- How a call for a high address ends: the region is recorded and answered
from its slot, or the table is full. -/
theorem SlotTable.answer (h : SlotTable s) (addrs : TableAddrs) (ha : a < 2 ^ 64)
    (hhigh : 4 * gb ≤ a) :
    (∃ i, Recorded (Paging.mapMmioVirt addrs s a).1 a i ∧
      (Paging.mapMmioVirt addrs s a).2 = .mapped (mmioWindowBase + i * mb2 + a % mb2)) ∨
    Paging.mapMmioVirt addrs s a = (s, .windowExhausted) ∧ s.mmioSlotsUsed = mmioWindowSlots ∧
      ∀ i, ¬Recorded s a i := by
  rcases mapMmioVirt_cases addrs s ha with
    ⟨hlow, -⟩ | ⟨-, i, hi, hbase, hcall⟩ | ⟨-, hfull, hnew, hcall⟩ | ⟨-, -, -, hcall⟩
  · omega
  · rw [hcall]
    exact Or.inl ⟨i, ⟨hi, hbase⟩, rfl⟩
  · exact Or.inr ⟨hcall, le_antisymm h.used_le hfull, fun i hrec ↦ hnew i hrec.1 hrec.2⟩
  · rw [hcall]
    exact Or.inl ⟨s.mmioSlotsUsed, ⟨Nat.lt_succ_self _, opened_base_self⟩, rfl⟩

/-- Two calls for one region, with any calls in between: the second changes
nothing, and the two answers lie in one slot as far apart as the addresses,
unless both are NULL. -/
theorem SlotTable.answers_agree (h : SlotTable s) (addrs : TableAddrs) (ha : a < 2 ^ 64)
    (hb : b < 2 ^ 64) (hahigh : 4 * gb ≤ a) (hbhigh : 4 * gb ≤ b) (hregion : a / mb2 = b / mb2)
    (hext : Extends (Paging.mapMmioVirt addrs s a).1 s') (h' : SlotTable s') :
    (Paging.mapMmioVirt addrs s' b).1 = s' ∧
      ((Paging.mapMmioVirt addrs s a).2.ptr = 0 ∧ (Paging.mapMmioVirt addrs s' b).2.ptr = 0 ∨
        ∃ i < mmioWindowSlots, InSlot (Paging.mapMmioVirt addrs s a).2.ptr i ∧
          InSlot (Paging.mapMmioVirt addrs s' b).2.ptr i ∧
          (Paging.mapMmioVirt addrs s a).2.ptr + b =
            (Paging.mapMmioVirt addrs s' b).2.ptr + a) := by
  have hsame (t : PagingState) (i : ℕ) : Recorded t a i ↔ Recorded t b i := by
    rw [Recorded, Recorded, hregion]
  rcases h.answer addrs ha hahigh with ⟨i, hrec, hptr⟩ | ⟨hcall, hused, hnew⟩
  · have hrec' : Recorded s' b i := (hsame s' i).mp (hext.recorded hrec)
    rw [h'.answer_recorded addrs hb hbhigh hrec', hptr]
    refine ⟨rfl, Or.inr ⟨i, hrec'.1.trans_le h'.used_le, inSlot_answer a i, inSlot_answer b i, ?_⟩⟩
    have hdiv := Nat.div_add_mod a mb2
    have hdiv' := Nat.div_add_mod b mb2
    rw [hregion] at hdiv
    change mmioWindowBase + i * mb2 + a % mb2 + b = mmioWindowBase + i * mb2 + b % mb2 + a
    omega
  · rw [hcall] at hext
    -- A full table has no room to grow, so it has the same slots later on.
    have hfull : s'.mmioSlotsUsed = s.mmioSlotsUsed :=
      le_antisymm (h'.used_le.trans hused.ge) hext.used_le
    have hnew' : ∀ i, ¬Recorded s' b i := by
      intro i hrec
      have hi : i < s.mmioSlotsUsed := hfull ▸ hrec.1
      exact hnew i ((hsame s i).mpr ⟨hi, (hext.base i hi).symm.trans hrec.2⟩)
    rw [answer_full addrs hb hbhigh (hused.symm.le.trans hfull.symm.le) hnew', hcall]
    exact ⟨rfl, Or.inl ⟨rfl, rfl⟩⟩

theorem repeated_call (h : SlotTable s) (addrs : TableAddrs) (ha : a < 2 ^ 64)
    (hext : Extends (mapMmioVirt addrs s a).1 s') (h' : SlotTable s') :
    (mapMmioVirt addrs s' a).1 = s' ∧
      (mapMmioVirt addrs s' a).2.ptr = (mapMmioVirt addrs s a).2.ptr := by
  by_cases hlow : a < 4 * gb
  · rw [mapMmioVirt, mapMmioVirt, if_pos hlow, if_pos hlow]
    exact ⟨rfl, rfl⟩
  · have hhigh := not_lt.mp hlow
    obtain ⟨hstate, ⟨hnull, hnull'⟩ | ⟨i, -, -, -, heq⟩⟩ :=
      h.answers_agree addrs ha ha hhigh hhigh rfl hext h'
    · exact ⟨hstate, hnull'.trans hnull.symm⟩
    · exact ⟨hstate, Nat.add_right_cancel heq.symm⟩

theorem null_answer (h : SlotTable s) (addrs : TableAddrs) (ha : a < 2 ^ 64)
    (hnull : (mapMmioVirt addrs s a).2.ptr = 0) :
    (mapMmioVirt addrs s a).1 = s ∧
      (a = 0 ∨ 4 * gb ≤ a ∧ s.mmioSlotsUsed = mmioWindowSlots ∧
        ∀ i < mmioWindowSlots, s.mmioPhysBase i ≠ a / mb2 * mb2) := by
  by_cases hlow : a < 4 * gb
  · rw [mapMmioVirt, if_pos hlow] at hnull ⊢
    exact ⟨rfl, Or.inl hnull⟩
  · have hhigh := not_lt.mp hlow
    rcases h.answer addrs ha hhigh with ⟨i, -, hptr⟩ | ⟨hcall, hused, hnew⟩
    · rw [hptr, MapResult.ptr, mmioWindowBase] at hnull
      omega
    · rw [hcall]
      exact ⟨rfl, Or.inr ⟨hhigh, hused, fun i hi hbase ↦ hnew i ⟨hused ▸ hi, hbase⟩⟩⟩

/-- After any sequence of calls the slots are in order.  A further call for `a`
is answered the same way ever after, NULL means that the window is full or
that `a` is zero, and the tables change in at most the entry of a new slot. -/
theorem mmio_slot_table (addrs : TableAddrs) (fbBase fbSize : ℕ) {reqs : List ℕ}
    (hreqs : ∀ x ∈ reqs, x < 2 ^ 64) {a : ℕ} (ha : a < 2 ^ 64) {s : PagingState}
    (hs : s = (mapAll addrs (initPaging addrs fbBase fbSize).1 reqs).1) :
    SlotTable s ∧
      (∀ later : List ℕ, (∀ x ∈ later, x < 2 ^ 64) → ∀ s',
        s' = (mapAll addrs (mapMmioVirt addrs s a).1 later).1 →
        (mapMmioVirt addrs s' a).1 = s' ∧
          (mapMmioVirt addrs s' a).2.ptr = (mapMmioVirt addrs s a).2.ptr ∧
          ∀ b < 2 ^ 64, 4 * gb ≤ a → 4 * gb ≤ b → a / mb2 = b / mb2 →
            (mapMmioVirt addrs s a).2.ptr = 0 ∧ (mapMmioVirt addrs s' b).2.ptr = 0 ∨
              ∃ i < mmioWindowSlots, InSlot (mapMmioVirt addrs s a).2.ptr i ∧
                InSlot (mapMmioVirt addrs s' b).2.ptr i ∧
                (mapMmioVirt addrs s a).2.ptr + b = (mapMmioVirt addrs s' b).2.ptr + a) ∧
      ((mapMmioVirt addrs s a).2.ptr = 0 → (mapMmioVirt addrs s a).1 = s ∧
        (a = 0 ∨ 4 * gb ≤ a ∧ s.mmioSlotsUsed = mmioWindowSlots ∧
          ∀ i < mmioWindowSlots, s.mmioPhysBase i ≠ a / mb2 * mb2)) ∧
      (mapMmioVirt addrs s a).1.pml4 = s.pml4 ∧
      (∀ r j, (mapMmioVirt addrs s a).1.pd r j ≠ s.pd r j →
        (mapMmioVirt addrs s a).1.mmioSlotsUsed = s.mmioSlotsUsed + 1 ∧
          r = 3 ∧ j = 384 + s.mmioSlotsUsed) ∧
      (∀ r, r ≠ 3 → (mapMmioVirt addrs s a).1.pdpt r = s.pdpt r) ∧
      ((fbBase + fbSize) % 2 ^ 64 + gb ≤ 2 ^ 64 →
        (mapMmioVirt addrs s a).1.pdpt = s.pdpt) := by
  obtain ⟨htable, -, hdir⟩ := mapAll_slots addrs (slotTable_init addrs fbBase fbSize) hreqs
  rw [← hs] at htable hdir
  obtain ⟨hpml4, hpd, hpdpt, hkeep⟩ := mapMmioVirt_changes addrs s ha
  refine ⟨htable, ?_, null_answer htable addrs ha, hpml4, hpd, hpdpt,
    fun hfb ↦ hkeep (hdir (directory_init addrs hfb))⟩
  intro later hlater s' hs'
  obtain ⟨htable', hext, -⟩ := mapAll_slots addrs (htable.mapMmioVirt addrs ha) hlater
  rw [← hs'] at htable' hext
  obtain ⟨hstate, hptr⟩ := repeated_call htable addrs ha hext htable'
  exact ⟨hstate, hptr, fun b hb hahigh hbhigh hregion ↦
    (htable.answers_agree addrs ha hb hahigh hbhigh hregion hext htable').2⟩

/-- Two registers of one device, with another device in between. -/
theorem mmio_slot_table_two_registers :
    (mapAll sampleAddrs (initPaging sampleAddrs 0xC0000000 0x800000).1
        [0xFEBC1000000, 0xFEBD0000000, 0xFEBC1000040]).2.map Prod.snd =
        [0xF0000000, 0xF0200000, 0xF0000040] ∧
      SlotTable (mapAll sampleAddrs (initPaging sampleAddrs 0xC0000000 0x800000).1
        [0xFEBC1000000, 0xFEBD0000000, 0xFEBC1000040]).1 := by
  refine ⟨by decide +kernel, ?_⟩
  exact (mmio_slot_table sampleAddrs 0xC0000000 0x800000 (by norm_num)
    (by norm_num : 0 < 2 ^ 64) rfl).1

/-- Address zero is answered with itself, which is NULL.  And when the frame
buffer ends in the last gigabyte of the address space, nothing is mapped and
the first slot sets an entry of the table above as well. -/
theorem mapMmioVirt_zero_is_null :
    ((mapMmioVirt sampleAddrs (initPaging sampleAddrs 0xC0000000 0x800000).1 0).2.ptr = 0 ∧
        ¬4 * gb ≤ 0) ∧
      (initPaging sampleAddrs (2 ^ 64 - 1) 0).1.pdpt 3 = 0 ∧
      (mapMmioVirt sampleAddrs (initPaging sampleAddrs (2 ^ 64 - 1) 0).1 (4 * gb)).1.pdpt 3 ≠
        0 := by
  decide +kernel

end ImplusKernel.Paging
