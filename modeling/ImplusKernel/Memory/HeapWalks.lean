import ImplusKernel.Memory.HeapSurgery

/-!
# Walks along the block list

On a well-formed list both walks of the allocator end: the search for a
payload returns the block and its predecessor, and the next-fit search
returns the first fitting block in the cyclic order that starts at the hint.
-/

namespace ImplusKernel.Heap

open ByteMemory Words Tiling

variable {m : Mem} {lo hi : ℕ} {bs pre post : List Block} {b : Block}

theorem Chain.length_lt_walkFuel (hc : Chain m lo hi bs) : bs.length < walkFuel := by
  have hlength := hc.tiles.add_length_le
  have hfits := hc.fits
  simp only [headerSize, walkFuel] at hlength ⊢
  omega

theorem Chain.payload_lt (hc : Chain m lo hi bs) (hb : b ∈ bs) :
    payload b < 2 ^ 64 := by
  have hbounds := hc.bounds hb
  have hfits := hc.fits
  unfold payload
  omega

/-! ## Looking up a payload -/

/-- The address of the last block of a prefix, or `prev` when it is empty. -/
def prevAddr : List Block → ℕ → ℕ
  | [], prev => prev
  | b :: bs, _ => prevAddr bs b.start

theorem prevAddr_concat (bs : List Block) (b : Block) (prev : ℕ) :
    prevAddr (bs ++ [b]) prev = b.start := by
  induction bs generalizing prev with
  | nil => rfl
  | cons c bs ih => exact ih c.start

theorem findBlockFrom_missing {target : ℕ} (hl : Linked m bs 0)
    (hbs : ∀ x ∈ bs, 0 < x.start ∧ payload x < 2 ^ 64 ∧ payload x ≠ target)
    {fuel prev : ℕ} (hfuel : bs.length < fuel) :
    findBlockFrom m target fuel prev (nextAddr bs 0) = some (0, 0) := by
  induction bs generalizing fuel prev with
  | nil =>
      obtain ⟨fuel, rfl⟩ := Nat.exists_eq_succ_of_ne_zero (Nat.ne_zero_of_lt hfuel)
      simp [findBlockFrom]
  | cons b bs ih =>
      obtain ⟨fuel, rfl⟩ := Nat.exists_eq_succ_of_ne_zero (Nat.ne_zero_of_lt hfuel)
      obtain ⟨hpos, hlt, hne⟩ := hbs b List.mem_cons_self
      have hmod : (b.start + headerSize) % 2 ^ 64 ≠ target := by
        rw [← payload, Nat.mod_eq_of_lt hlt]
        exact hne
      rw [nextAddr_cons, findBlockFrom, if_neg hpos.ne', if_neg hmod, hl.1.next_eq]
      exact ih hl.2 (fun x hx ↦ hbs x (List.mem_cons_of_mem b hx))
        (by simpa using hfuel)

theorem findBlockFrom_found {target : ℕ} (hl : Linked m (pre ++ b :: post) 0)
    (hpre : ∀ x ∈ pre, 0 < x.start ∧ payload x < 2 ^ 64 ∧ payload x ≠ target)
    (hpos : 0 < b.start) (hlt : payload b < 2 ^ 64) (hb : payload b = target)
    {fuel prev : ℕ} (hfuel : pre.length < fuel) :
    findBlockFrom m target fuel prev (nextAddr (pre ++ b :: post) 0) =
      some (b.start, prevAddr pre prev) := by
  induction pre generalizing fuel prev with
  | nil =>
      obtain ⟨fuel, rfl⟩ := Nat.exists_eq_succ_of_ne_zero (Nat.ne_zero_of_lt hfuel)
      have hmod : (b.start + headerSize) % 2 ^ 64 = target := by
        rw [← payload, Nat.mod_eq_of_lt hlt, hb]
      rw [List.nil_append, nextAddr_cons, findBlockFrom, if_neg hpos.ne', if_pos hmod]
      rfl
  | cons c pre ih =>
      obtain ⟨fuel, rfl⟩ := Nat.exists_eq_succ_of_ne_zero (Nat.ne_zero_of_lt hfuel)
      obtain ⟨hcpos, hclt, hne⟩ := hpre c List.mem_cons_self
      have hmod : (c.start + headerSize) % 2 ^ 64 ≠ target := by
        rw [← payload, Nat.mod_eq_of_lt hclt]
        exact hne
      rw [List.cons_append, nextAddr_cons, findBlockFrom, if_neg hcpos.ne', if_neg hmod,
        hl.1.next_eq]
      exact ih hl.2 (fun x hx ↦ hpre x (List.mem_cons_of_mem c hx)) (by simpa using hfuel)

theorem Chain.find_missing (hc : Chain m lo hi bs) {target : ℕ}
    (hne : ∀ x ∈ bs, payload x ≠ target) :
    findBlockFrom m target walkFuel 0 (nextAddr bs 0) = some (0, 0) :=
  findBlockFrom_missing hc.linked
    (fun x hx ↦ ⟨hc.start_pos hx, hc.payload_lt hx, hne x hx⟩) hc.length_lt_walkFuel

theorem Chain.find_found (hc : Chain m lo hi (pre ++ b :: post)) :
    findBlockFrom m (payload b) walkFuel 0 (nextAddr (pre ++ b :: post) 0) =
      some (b.start, prevAddr pre 0) := by
  have hb : b ∈ pre ++ b :: post := by simp
  have hlength := hc.length_lt_walkFuel
  rw [List.length_append] at hlength
  refine findBlockFrom_found hc.linked ?_ (hc.start_pos hb) (hc.payload_lt hb) rfl (by omega)
  intro x hx
  have hxbs : x ∈ pre ++ b :: post := List.mem_append_left _ hx
  have hbefore := (hc.tiles.start_eq.1.bounds hx).2
  refine ⟨hc.start_pos hxbs, hc.payload_lt hxbs, ?_⟩
  simp only [payload, headerSize] at hbefore ⊢
  omega

/-! ## Next fit -/

/-- The test of the search loop, read off the block list. -/
def fitsRequest (size : ℕ) (b : Block) : Bool := b.tag && decide (size ≤ b.size)

@[simp] theorem fitsRequest_eq_true_iff {size : ℕ} {b : Block} :
    fitsRequest size b = true ↔ b.tag = true ∧ size ≤ b.size := by
  simp [fitsRequest]

theorem fitsRequest_iff_header {size next : ℕ} (h : HeaderAt m b next) :
    (blockIsFree m b.start ≠ 0 ∧ size ≤ blockSize m b.start) ↔ fitsRequest size b = true := by
  rw [isFree_ne_zero_iff h, h.size_eq, fitsRequest_eq_true_iff]

/-- The block address a search answers with. -/
def found (r : Option Block) : ℕ := r.elim 0 Segment.start

/-- After the wrap the search runs up to, and not including, the block it
started from. -/
theorem searchFrom_wrapped {xs : List Block} {heapStart start size : ℕ}
    (hl : Linked m xs start) (hne : xs ≠ [])
    (hxs : ∀ x ∈ xs, 0 < x.start ∧ x.start ≠ start) {fuel : ℕ} (hfuel : xs.length ≤ fuel) :
    searchFrom m heapStart start size fuel (nextAddr xs start) true =
      some (found (xs.find? (fitsRequest size))) := by
  induction xs generalizing fuel with
  | nil => exact absurd rfl hne
  | cons b xs ih =>
      obtain ⟨fuel, rfl⟩ := Nat.exists_eq_succ_of_ne_zero (Nat.ne_zero_of_lt hfuel)
      have hpos := (hxs b List.mem_cons_self).1
      rw [nextAddr_cons, searchFrom, if_neg hpos.ne', List.find?_cons]
      by_cases hfit : fitsRequest size b = true
      · rw [if_pos ((fitsRequest_iff_header hl.1).mpr hfit), hfit]
        rfl
      · have hnofit : fitsRequest size b = false := Bool.eq_false_of_not_eq_true hfit
        rw [if_neg (fun h ↦ hfit ((fitsRequest_iff_header hl.1).mp h)), hnofit, hl.1.next_eq]
        simp only [Bool.true_eq_false, and_false, if_false, true_and]
        cases xs with
        | nil => simp [found]
        | cons c xs =>
            have hstop : c.start ≠ start := (hxs c (by simp)).2
            rw [nextAddr_cons, if_neg hstop]
            exact ih hl.2 (by simp) (fun x hx ↦ hxs x (List.mem_cons_of_mem b hx))
              (by simpa using hfuel)

/-- Before the wrap the search runs to the end of the list and then
continues with the blocks before its starting point. -/
theorem searchFrom_unwrapped {ys pre : List Block} {start size : ℕ}
    (hl : Linked m ys 0) (hne : ys ≠ []) (hys : ∀ x ∈ ys, 0 < x.start)
    (hlpre : Linked m pre start) (hpre : ∀ x ∈ pre, 0 < x.start ∧ x.start ≠ start)
    {fuel : ℕ} (hfuel : ys.length + pre.length ≤ fuel) :
    searchFrom m (nextAddr pre start) start size fuel (nextAddr ys 0) false =
      some (found ((ys ++ pre).find? (fitsRequest size))) := by
  induction ys generalizing fuel with
  | nil => exact absurd rfl hne
  | cons b ys ih =>
      rw [List.length_cons] at hfuel
      obtain ⟨fuel, rfl⟩ := Nat.exists_eq_succ_of_ne_zero (show fuel ≠ 0 by omega)
      have hpos := hys b List.mem_cons_self
      rw [nextAddr_cons, searchFrom, if_neg hpos.ne', List.cons_append, List.find?_cons]
      by_cases hfit : fitsRequest size b = true
      · rw [if_pos ((fitsRequest_iff_header hl.1).mpr hfit), hfit]
        rfl
      · have hnofit : fitsRequest size b = false := Bool.eq_false_of_not_eq_true hfit
        rw [if_neg (fun h ↦ hfit ((fitsRequest_iff_header hl.1).mp h)), hnofit, hl.1.next_eq]
        cases ys with
        | nil =>
            simp only [nextAddr_nil, true_and, if_true, List.nil_append]
            cases pre with
            | nil => simp [found]
            | cons c pre =>
                have hstop : c.start ≠ start := (hpre c (by simp)).2
                rw [nextAddr_cons, if_neg hstop]
                exact searchFrom_wrapped hlpre (by simp) hpre (by simp at hfuel ⊢; omega)
        | cons c ys =>
            have hc : c.start ≠ 0 := (hys c (by simp)).ne'
            simp only [nextAddr_cons, hc, false_and, if_false, Bool.false_eq_true]
            exact ih hl.2 (by simp) (fun x hx ↦ hys x (List.mem_cons_of_mem b hx))
              (by simp at hfuel ⊢; omega)

/-- The next-fit search of `kmalloc_locked` on a well-formed list. -/
theorem Chain.search (hc : Chain m lo hi (pre ++ b :: post)) (size : ℕ) :
    searchFrom m (nextAddr (pre ++ b :: post) 0) b.start size walkFuel b.start false =
      some (found ((b :: post ++ pre).find? (fitsRequest size))) := by
  obtain ⟨hlpre, hlpost⟩ := linked_append.mp hc.linked
  rw [nextAddr_cons] at hlpre
  have hlength := hc.length_lt_walkFuel
  rw [List.length_append] at hlength
  have hstart : nextAddr (pre ++ b :: post) 0 = nextAddr pre b.start := by
    rw [nextAddr_append, nextAddr_cons]
  rw [hstart]
  refine searchFrom_unwrapped hlpost (by simp) ?_ hlpre ?_ (by omega)
  · intro x hx
    exact hc.start_pos (List.mem_append_right _ hx)
  · intro x hx
    have hbefore := (hc.tiles.start_eq.1.bounds hx).2
    refine ⟨hc.start_pos (List.mem_append_left _ hx), ?_⟩
    simp only [headerSize] at hbefore
    omega

end ImplusKernel.Heap
