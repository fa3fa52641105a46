import ImplusKernel.Paging.IdentityMap
import Mathlib.Data.Finset.Card
import Mathlib.Data.Finset.Dedup

/-!
# The MMIO window over many calls

The window lies inside the identity range, so an address below 4 GiB that was
answered with itself loses its meaning once its page is handed to a higher
region.  Slots are taken in order and never given back: an address in slot
`k` of the window keeps its translation exactly when at most `k` different
high regions are ever requested.
-/

namespace ImplusKernel.Paging

open Words PageWalk

variable {addrs : TableAddrs} {s : PagingState} {other : ℕ → ℕ} {reqs : List ℕ} {a : ℕ}

theorem mb2_pos : 0 < mb2 := by norm_num [mb2]

/-- The 2 MiB regions at or above 4 GiB among the requested addresses. -/
def highRegions (reqs : List ℕ) : Finset ℕ :=
  ((reqs.filter fun a ↦ 4 * gb ≤ a).map (· / mb2)).toFinset

theorem highRegions_concat_low (h : a < 4 * gb) : highRegions (reqs ++ [a]) = highRegions reqs := by
  simp [highRegions, List.filter_append, h]

theorem highRegions_concat_high (reqs : List ℕ) (h : 4 * gb ≤ a) :
    highRegions (reqs ++ [a]) = insert (a / mb2) (highRegions reqs) := by
  ext q
  simp [highRegions, List.filter_append, h]

theorem highRegions_mono {reqs' : List ℕ} (h : reqs ⊆ reqs') :
    highRegions reqs ⊆ highRegions reqs' := by
  intro q
  simp only [highRegions, List.mem_toFinset, List.mem_map, List.mem_filter]
  rintro ⟨x, ⟨hx, hhigh⟩, rfl⟩
  exact ⟨x, ⟨h hx, hhigh⟩, rfl⟩

theorem four_gb_le_of_mem {q : ℕ} (h : q ∈ highRegions reqs) : 4 * gb ≤ q * mb2 := by
  simp only [highRegions, List.mem_toFinset, List.mem_map, List.mem_filter,
    decide_eq_true_eq] at h
  obtain ⟨x, ⟨-, hhigh⟩, rfl⟩ := h
  simp only [gb, mb2] at hhigh ⊢
  omega

theorem lt_of_mem_highRegions {q : ℕ} (hreqs : ∀ a ∈ reqs, a < 2 ^ 52)
    (h : q ∈ highRegions reqs) : q * mb2 < 2 ^ 52 := by
  simp only [highRegions, List.mem_toFinset, List.mem_map, List.mem_filter,
    decide_eq_true_eq] at h
  obtain ⟨x, ⟨hx, -⟩, rfl⟩ := h
  have hlt := hreqs x hx
  simp only [mb2]
  omega

def InWindow (a : ℕ) : Prop :=
  mmioWindowBase ≤ a ∧ a < mmioWindowBase + mmioWindowSlots * mb2

def slotOf (a : ℕ) : ℕ := (a - mmioWindowBase) / mb2

/-! ## The state after a sequence of calls -/

/-- What the tables and the slots hold after the requests `reqs`. -/
structure MmioInvariant (addrs : TableAddrs) (s : PagingState) (reqs : List ℕ) : Prop where
  root : s.pml4 0 = tableEntry addrs.pdpt
  directory : ∀ r < 4, s.pdpt r = tableEntry (addrs.pd + r * 4096)
  used_eq : s.mmioSlotsUsed = min mmioWindowSlots (highRegions reqs).card
  slot_page : ∀ i < s.mmioSlotsUsed, s.pd 3 (384 + i) = pageEntry (s.mmioPhysBase i)
  slot_region : ∀ i < s.mmioSlotsUsed, ∃ q ∈ highRegions reqs, s.mmioPhysBase i = q * mb2
  recorded : s.mmioSlotsUsed < mmioWindowSlots →
    ∀ q ∈ highRegions reqs, ∃ i < s.mmioSlotsUsed, s.mmioPhysBase i = q * mb2
  identity : ∀ a < 4 * gb, (InWindow a → s.mmioSlotsUsed ≤ slotOf a) →
    s.pd (a / 2 ^ 30) (a / 2 ^ 21 % 512) = pageEntry (a / 2 ^ 21 * 2 ^ 21)

/-- The answer `p` to a request for `a`, as later states still explain it. -/
def Answered (s : PagingState) (a p : ℕ) : Prop :=
  (a < 4 * gb ∧ p = a) ∨ (4 * gb ≤ a ∧ p = 0) ∨
    (4 * gb ≤ a ∧ ∃ i < s.mmioSlotsUsed, s.mmioPhysBase i = a / mb2 * mb2 ∧
      p = mmioWindowBase + i * mb2 + a % mb2)

/-- The slot that a request opens. -/
def opened (addrs : TableAddrs) (s : PagingState) (a : ℕ) : PagingState where
  pml4 := s.pml4
  pdpt := Function.update s.pdpt 3 (tableEntry (addrs.pd + 3 * 4096))
  pd := Function.update s.pd 3
    (Function.update (s.pd 3) (384 + s.mmioSlotsUsed) (pageEntry (a / mb2 * mb2)))
  mmioPhysBase := Function.update s.mmioPhysBase s.mmioSlotsUsed (a / mb2 * mb2)
  mmioSlotsUsed := s.mmioSlotsUsed + 1

theorem window_indices {i : ℕ} (hi : i < 16) :
    (mmioWindowBase + i * mb2) >>> 30 &&& 0x1FF = 3 ∧
      (mmioWindowBase + i * mb2) >>> 21 &&& 0x1FF = 384 + i := by
  have hmask (x : ℕ) : x &&& 0x1FF = x % 512 := Nat.and_two_pow_sub_one_eq_mod x 9
  simp only [hmask, Nat.shiftRight_eq_div_pow, mmioWindowBase, mb2]
  omega

/-- The ways a call can go. -/
theorem mapMmioVirt_cases (addrs : TableAddrs) (s : PagingState) (ha : a < 2 ^ 64) :
    (a < 4 * gb ∧ mapMmioVirt addrs s a = (s, .mapped a)) ∨
    (4 * gb ≤ a ∧ ∃ i < s.mmioSlotsUsed, s.mmioPhysBase i = a / mb2 * mb2 ∧
      mapMmioVirt addrs s a = (s, .mapped (mmioWindowBase + i * mb2 + a % mb2))) ∨
    (4 * gb ≤ a ∧ mmioWindowSlots ≤ s.mmioSlotsUsed ∧
      (∀ i < s.mmioSlotsUsed, s.mmioPhysBase i ≠ a / mb2 * mb2) ∧
      mapMmioVirt addrs s a = (s, .windowExhausted)) ∨
    (4 * gb ≤ a ∧ s.mmioSlotsUsed < mmioWindowSlots ∧
      (∀ i < s.mmioSlotsUsed, s.mmioPhysBase i ≠ a / mb2 * mb2) ∧
      mapMmioVirt addrs s a = (opened addrs s a,
        .mapped (mmioWindowBase + s.mmioSlotsUsed * mb2 + a % mb2))) := by
  by_cases hlow : a < 4 * gb
  · exact Or.inl ⟨hlow, if_pos hlow⟩
  have hhigh := not_lt.mp hlow
  have hbase : a &&& highMask 64 21 = a / mb2 * mb2 :=
    land_highMask (by norm_num) ha
  have hoffset : a - a / mb2 * mb2 = a % mb2 := by
    simp only [mb2]
    omega
  right
  unfold mapMmioVirt
  simp only [if_neg hlow, hbase, hoffset]
  cases hfind : findSlot s (a / mb2 * mb2) with
  | some i =>
      left
      have hmem := List.mem_of_find?_eq_some hfind
      have heq := List.find?_some hfind
      exact ⟨hhigh, i, List.mem_range.mp hmem, by simpa using heq, rfl⟩
  | none =>
      right
      have hnone : ∀ i < s.mmioSlotsUsed, s.mmioPhysBase i ≠ a / mb2 * mb2 := by
        intro i hi
        simpa using List.find?_eq_none.mp hfind i (List.mem_range.mpr hi)
      by_cases hfull : mmioWindowSlots ≤ s.mmioSlotsUsed
      · exact Or.inl ⟨hhigh, hfull, hnone, if_pos hfull⟩
      · right
        have hroom := not_le.mp hfull
        obtain ⟨hpdpt, hpd⟩ := window_indices hroom
        refine ⟨hhigh, hroom, hnone, ?_⟩
        simp only [if_neg hfull, hpdpt, hpd]
        rfl

/-! ## Initialisation -/

theorem requiredEntries_ge {fbBase fbSize : ℕ} (hfb : (fbBase + fbSize) % 2 ^ 64 + gb ≤ 2 ^ 64) :
    4 ≤ requiredEntries fbBase fbSize := by
  have hreq : 4 ≤ requestedEntries fbBase fbSize := by
    unfold requestedEntries
    by_cases hmax : (fbBase + fbSize) % 2 ^ 64 > 4 * gb
    · simp only [if_pos hmax]
      unfold gb at *
      omega
    · simp only [if_neg hmax]
      unfold gb
      omega
  unfold requiredEntries
  split
  · norm_num [maxPdptEntries]
  · exact hreq

theorem row_lt (ha : a < 4 * gb) : a / 2 ^ 30 < 4 := by
  simp only [gb] at ha
  omega

theorem mmioInvariant_mapGigabytes (addrs : TableAddrs) {n : ℕ} (hn : 4 ≤ n) :
    MmioInvariant addrs (mapGigabytes addrs (.rooted addrs) n) [] := by
  obtain ⟨hpml4, hused, hrows, -⟩ := mapGigabytes_spec addrs (.rooted addrs) n
  have hzero : (mapGigabytes addrs (.rooted addrs) n).mmioSlotsUsed = 0 := hused
  constructor
  case root =>
    rw [hpml4]
    simp [PagingState.rooted]
  case directory => exact fun r hr ↦ (hrows r (hr.trans_le hn)).1
  case used_eq => simp [hzero, highRegions]
  case slot_page => simp [hzero]
  case slot_region => simp [hzero]
  case recorded => simp [highRegions]
  case identity =>
    intro a ha _
    have hrow : a / 2 ^ 30 < n := (row_lt ha).trans_le hn
    rw [(hrows (a / 2 ^ 30) hrow).2 _ (Nat.mod_lt _ (by norm_num)), page_address]

theorem mmioInvariant_init (addrs : TableAddrs) {fbBase fbSize : ℕ}
    (hfb : fbBase + fbSize ≤ 64 * gb) :
    MmioInvariant addrs (initPaging addrs fbBase fbSize).1 [] := by
  apply mmioInvariant_mapGigabytes addrs
  apply requiredEntries_ge
  unfold gb at *
  omega

/-! ## One call -/

theorem MmioInvariant.congr_regions {reqs' : List ℕ} (h : MmioInvariant addrs s reqs)
    (heq : highRegions reqs' = highRegions reqs) : MmioInvariant addrs s reqs' := by
  refine ⟨h.root, h.directory, ?_, h.slot_page, ?_, ?_, h.identity⟩
  · rw [heq]
    exact h.used_eq
  · rw [heq]
    exact h.slot_region
  · rw [heq]
    exact h.recorded

theorem MmioInvariant.used_le (h : MmioInvariant addrs s reqs) :
    s.mmioSlotsUsed ≤ mmioWindowSlots := by
  rw [h.used_eq]
  exact min_le_left _ _

/-- A full window ignores further regions. -/
theorem MmioInvariant.exhausted (h : MmioInvariant addrs s reqs) (ha : 4 * gb ≤ a)
    (hfull : mmioWindowSlots ≤ s.mmioSlotsUsed) : MmioInvariant addrs s (reqs ++ [a]) := by
  have hcons := highRegions_concat_high reqs ha
  have hsub : highRegions reqs ⊆ highRegions (reqs ++ [a]) := highRegions_mono (by simp)
  have hcard := Finset.card_le_card hsub
  have hused := h.used_eq
  refine ⟨h.root, h.directory, by omega, h.slot_page, ?_, ?_, h.identity⟩
  · intro i hi
    obtain ⟨q, hq, hbase⟩ := h.slot_region i hi
    exact ⟨q, hsub hq, hbase⟩
  · intro hroom
    omega

theorem opened_base_of_lt {i : ℕ} (hi : i < s.mmioSlotsUsed) :
    (opened addrs s a).mmioPhysBase i = s.mmioPhysBase i :=
  Function.update_of_ne hi.ne _ _

theorem opened_base_self :
    (opened addrs s a).mmioPhysBase s.mmioSlotsUsed = a / mb2 * mb2 :=
  Function.update_self ..

theorem opened_pd_of_ne {r j : ℕ} (h : ¬(r = 3 ∧ j = 384 + s.mmioSlotsUsed)) :
    (opened addrs s a).pd r j = s.pd r j := by
  simp only [opened]
  by_cases hr : r = 3
  · subst hr
    have hj : j ≠ 384 + s.mmioSlotsUsed := fun hj ↦ h ⟨rfl, hj⟩
    rw [Function.update_self, Function.update_of_ne hj]
  · rw [Function.update_of_ne hr]

theorem MmioInvariant.opened (h : MmioInvariant addrs s reqs) (ha : 4 * gb ≤ a)
    (hroom : s.mmioSlotsUsed < mmioWindowSlots)
    (hnew : ∀ i < s.mmioSlotsUsed, s.mmioPhysBase i ≠ a / mb2 * mb2) :
    MmioInvariant addrs (opened addrs s a) (reqs ++ [a]) := by
  have hfresh : a / mb2 ∉ highRegions reqs := by
    intro hmem
    obtain ⟨i, hi, hbase⟩ := h.recorded hroom _ hmem
    exact hnew i hi hbase
  have hinsert := highRegions_concat_high reqs ha
  have hcard : (highRegions (reqs ++ [a])).card = (highRegions reqs).card + 1 := by
    rw [hinsert, Finset.card_insert_of_notMem hfresh]
  have hused := h.used_eq
  have hsucc : (Paging.opened addrs s a).mmioSlotsUsed = s.mmioSlotsUsed + 1 := rfl
  constructor
  case root => exact h.root
  case directory =>
    intro r hr
    by_cases hr3 : r = 3
    · subst hr3
      simp [Paging.opened]
    · exact (Function.update_of_ne hr3 _ _).trans (h.directory r hr)
  case used_eq => omega
  case slot_page =>
    intro i hi
    by_cases hlast : i = s.mmioSlotsUsed
    · subst hlast
      rw [opened_base_self]
      simp only [Paging.opened, Function.update_self]
    · have hi' : i < s.mmioSlotsUsed := by omega
      rw [opened_base_of_lt hi', opened_pd_of_ne (by omega)]
      exact h.slot_page i hi'
  case slot_region =>
    intro i hi
    rw [hinsert]
    by_cases hlast : i = s.mmioSlotsUsed
    · subst hlast
      exact ⟨a / mb2, Finset.mem_insert_self _ _, opened_base_self⟩
    · have hi' : i < s.mmioSlotsUsed := by omega
      obtain ⟨q, hq, hbase⟩ := h.slot_region i hi'
      exact ⟨q, Finset.mem_insert_of_mem hq, (opened_base_of_lt hi').trans hbase⟩
  case recorded =>
    intro _ q hq
    rw [hinsert] at hq
    rcases Finset.mem_insert.mp hq with rfl | hq
    · exact ⟨s.mmioSlotsUsed, Nat.lt_succ_self _, opened_base_self⟩
    · obtain ⟨i, hi, hbase⟩ := h.recorded hroom q hq
      exact ⟨i, hi.trans (Nat.lt_succ_self _), (opened_base_of_lt hi).trans hbase⟩
  case identity =>
    intro x hx hout
    have hkeep : ¬(x / 2 ^ 30 = 3 ∧ x / 2 ^ 21 % 512 = 384 + s.mmioSlotsUsed) := by
      rintro ⟨hrow, hcol⟩
      simp only [InWindow, slotOf, mmioWindowBase, mmioWindowSlots, mb2] at hout hroom
      have hin := hout (by omega)
      omega
    rw [opened_pd_of_ne hkeep]
    exact h.identity x hx fun hin ↦ (Nat.le_succ _).trans (hout hin)

/-- Later calls leave the slots of earlier answers alone. -/
theorem Answered.opened {p x : ℕ} (h : Answered s x p) : Answered (opened addrs s a) x p := by
  rcases h with h | h | ⟨hx, i, hi, hbase, hp⟩
  · exact Or.inl h
  · exact Or.inr (Or.inl h)
  · exact Or.inr (Or.inr ⟨hx, i, hi.trans (Nat.lt_succ_self _),
      (opened_base_of_lt hi).trans hbase, hp⟩)

/-! ## Sequences of calls -/

theorem mapAll_concat (addrs : TableAddrs) (s : PagingState) (reqs : List ℕ) (a : ℕ) :
    mapAll addrs s (reqs ++ [a]) =
      ((mapMmioVirt addrs (mapAll addrs s reqs).1 a).1,
        (mapAll addrs s reqs).2 ++ [(a, (mapMmioVirt addrs (mapAll addrs s reqs).1 a).2.ptr)]) := by
  simp [mapAll]

theorem mapAll_invariant (h₀ : MmioInvariant addrs s []) (hreqs : ∀ a ∈ reqs, a < 2 ^ 52) :
    MmioInvariant addrs (mapAll addrs s reqs).1 reqs ∧
      (∀ x p, (x, p) ∈ (mapAll addrs s reqs).2 → Answered (mapAll addrs s reqs).1 x p) ∧
      (mapAll addrs s reqs).2.map Prod.fst = reqs := by
  induction reqs using List.reverseRecOn with
  | nil => exact ⟨h₀, by simp [mapAll], rfl⟩
  | append_singleton reqs a ih =>
      obtain ⟨hinv, hans, hfst⟩ := ih fun x hx ↦ hreqs x (List.mem_append_left _ hx)
      rw [mapAll_concat]
      generalize mapAll addrs s reqs = run at hinv hans hfst
      obtain ⟨t, answers⟩ := run
      have hfst' : ∀ p : ℕ, (answers ++ [(a, p)]).map Prod.fst = reqs ++ [a] := by
        simpa using hfst
      have hkeep : ∀ p, Answered t a p → ∀ x q, (x, q) ∈ answers ++ [(a, p)] → Answered t x q := by
        intro p hp x q hmem
        rcases List.mem_append.mp hmem with hmem | hmem
        · exact hans x q hmem
        · obtain ⟨rfl, rfl⟩ := Prod.mk.inj (List.mem_singleton.mp hmem)
          exact hp
      have ha : a < 2 ^ 64 := (hreqs a (by simp)).trans (by norm_num)
      rcases mapMmioVirt_cases addrs t ha with
        ⟨hlow, hcall⟩ | ⟨hhigh, i, hi, hbase, hcall⟩ | ⟨hhigh, hfull, -, hcall⟩ |
        ⟨hhigh, hroom, hnew, hcall⟩
      · rw [hcall]
        exact ⟨hinv.congr_regions (highRegions_concat_low hlow),
          hkeep _ (Or.inl ⟨hlow, rfl⟩), hfst' _⟩
      · rw [hcall]
        have hold : a / mb2 ∈ highRegions reqs := by
          obtain ⟨q, hq, hbase'⟩ := hinv.slot_region i hi
          have hqa : q = a / mb2 := by
            simp only [mb2] at hbase hbase' ⊢
            omega
          rwa [← hqa]
        refine ⟨hinv.congr_regions ?_, hkeep _ (Or.inr (Or.inr ⟨hhigh, i, hi, hbase, rfl⟩)),
          hfst' _⟩
        rw [highRegions_concat_high _ hhigh, Finset.insert_eq_of_mem hold]
      · rw [hcall]
        exact ⟨hinv.exhausted hhigh hfull, hkeep _ (Or.inr (Or.inl ⟨hhigh, rfl⟩)), hfst' _⟩
      · rw [hcall]
        refine ⟨hinv.opened hhigh hroom hnew, ?_, hfst' _⟩
        intro x q hmem
        rcases List.mem_append.mp hmem with hmem | hmem
        · exact (hans x q hmem).opened
        · obtain ⟨rfl, rfl⟩ := Prod.mk.inj (List.mem_singleton.mp hmem)
          exact Or.inr (Or.inr ⟨hhigh, t.mmioSlotsUsed, Nat.lt_succ_self _, opened_base_self, rfl⟩)

/-! ## Translations -/

theorem MmioInvariant.virtToPhys_identity (h : MmioInvariant addrs s reqs) (ha : a < 4 * gb)
    (hout : InWindow a → s.mmioSlotsUsed ≤ slotOf a) :
    virtToPhys addrs s other a = some a := by
  have hlt : a / 2 ^ 21 * 2 ^ 21 < 2 ^ 52 := by
    simp only [gb] at ha
    omega
  rw [virtToPhys_of_entries (by omega) h.root (h.directory _ (row_lt ha)) (h.identity a ha hout)
    (Dvd.intro_left _ rfl) hlt, Nat.div_add_mod' a (2 ^ 21)]

theorem MmioInvariant.virtToPhys_slot (h : MmioInvariant addrs s reqs) (other : ℕ → ℕ)
    (hreqs : ∀ a ∈ reqs, a < 2 ^ 52) {i offset : ℕ} (hi : i < s.mmioSlotsUsed)
    (hoffset : offset < mb2) :
    virtToPhys addrs s other (mmioWindowBase + i * mb2 + offset) =
      some (s.mmioPhysBase i + offset) := by
  have hle := h.used_le
  obtain ⟨q, hq, hbase⟩ := h.slot_region i hi
  have hlt := lt_of_mem_highRegions hreqs hq
  have hva : mmioWindowBase + i * mb2 + offset < 64 * gb ∧
      (mmioWindowBase + i * mb2 + offset) / 2 ^ 30 = 3 ∧
      (mmioWindowBase + i * mb2 + offset) / 2 ^ 21 % 512 = 384 + i ∧
      (mmioWindowBase + i * mb2 + offset) % 2 ^ 21 = offset := by
    unfold mmioWindowSlots at hle
    unfold mb2 at hoffset
    unfold mmioWindowBase mb2 gb
    omega
  obtain ⟨hlt64, hrow, hcol, hmod⟩ := hva
  have hdir : s.pdpt ((mmioWindowBase + i * mb2 + offset) / 2 ^ 30) =
      tableEntry (addrs.pd + (mmioWindowBase + i * mb2 + offset) / 2 ^ 30 * 4096) := by
    rw [hrow]
    exact h.directory 3 (by norm_num)
  have hpage : s.pd ((mmioWindowBase + i * mb2 + offset) / 2 ^ 30)
      ((mmioWindowBase + i * mb2 + offset) / 2 ^ 21 % 512) = pageEntry (s.mmioPhysBase i) := by
    rw [hrow, hcol]
    exact h.slot_page i hi
  have halign : 2 ^ 21 ∣ s.mmioPhysBase i := by
    rw [hbase]
    exact Dvd.intro_left _ rfl
  rw [virtToPhys_of_entries hlt64 h.root hdir hpage halign (hbase ▸ hlt), hmod]

/-- Inside the used part of the window, no low address translates to itself. -/
theorem MmioInvariant.virtToPhys_taken (h : MmioInvariant addrs s reqs)
    (hreqs : ∀ a ∈ reqs, a < 2 ^ 52) (hin : InWindow a) (htaken : slotOf a < s.mmioSlotsUsed) :
    virtToPhys addrs s other a ≠ some a := by
  have hsplit : a = mmioWindowBase + slotOf a * mb2 + a % mb2 := by
    simp only [InWindow, slotOf, mmioWindowBase, mmioWindowSlots, mb2] at hin ⊢
    omega
  have hphys := h.virtToPhys_slot other hreqs htaken (Nat.mod_lt a mb2_pos)
  rw [← hsplit] at hphys
  rw [hphys]
  obtain ⟨q, hq, hbase⟩ := h.slot_region _ htaken
  have hhigh := four_gb_le_of_mem hq
  intro heq
  have heq' := Option.some.inj heq
  simp only [InWindow, mmioWindowBase, mmioWindowSlots, mb2, gb] at hin hhigh hbase heq'
  omega

theorem MmioInvariant.virtToPhys_answered {p : ℕ} (h : MmioInvariant addrs s reqs)
    (hreqs : ∀ a ∈ reqs, a < 2 ^ 52) (hans : Answered s a p) (hp : p ≠ 0)
    (hout : a < 4 * gb → InWindow a → s.mmioSlotsUsed ≤ slotOf a) :
    virtToPhys addrs s other p = some a := by
  rcases hans with ⟨hlow, rfl⟩ | ⟨_, hnull⟩ | ⟨_, i, hi, hbase, rfl⟩
  · exact h.virtToPhys_identity hlow (hout hlow)
  · exact absurd hnull hp
  · rw [h.virtToPhys_slot other hreqs hi (Nat.mod_lt a mb2_pos), hbase, Nat.div_add_mod' a mb2]

/-- Every pointer returned for the requests translates to its address. -/
def MappingsCorrect (addrs : TableAddrs) (other : ℕ → ℕ) (s : PagingState) (reqs : List ℕ) :
    Prop :=
  ∀ a p, (a, p) ∈ (mapAll addrs s reqs).2 → p ≠ 0 →
    virtToPhys addrs (mapAll addrs s reqs).1 other p = some a

/-- The pointers returned so far are right after every call exactly when no
low address is requested whose slot of the window the high regions reach. -/
theorem mappingsCorrect_iff (addrs : TableAddrs) (other : ℕ → ℕ) {fbBase fbSize : ℕ}
    (hfb : fbBase + fbSize ≤ 64 * gb) {reqs : List ℕ} (hreqs : ∀ a ∈ reqs, a < 2 ^ 52) :
    (∀ pre, pre <+: reqs →
      MappingsCorrect addrs other (initPaging addrs fbBase fbSize).1 pre) ↔
    ∀ a ∈ reqs, InWindow a → (highRegions reqs).card ≤ slotOf a := by
  have h₀ := mmioInvariant_init addrs hfb
  generalize (initPaging addrs fbBase fbSize).1 = s₀ at h₀ ⊢
  constructor
  · intro hcorrect a ha hin
    obtain ⟨hinv, hans, hfst⟩ := mapAll_invariant h₀ hreqs
    obtain ⟨⟨a', p⟩, hmem, rfl⟩ : ∃ ap ∈ (mapAll addrs s₀ reqs).2, ap.1 = a := by
      rw [← hfst] at ha
      simpa using ha
    have hlow : a' < 4 * gb := by
      simp only [InWindow, mmioWindowBase, mmioWindowSlots, mb2, gb] at hin ⊢
      omega
    obtain rfl : p = a' := by
      rcases hans a' p hmem with ⟨_, hp⟩ | ⟨hhigh, _⟩ | ⟨hhigh, _⟩
      · exact hp
      · omega
      · omega
    have hpos : p ≠ 0 := by
      simp only [InWindow, mmioWindowBase] at hin
      omega
    -- The state after all calls decides: a slot once taken stays taken.
    have hphys := hcorrect reqs (List.prefix_refl reqs) p p hmem hpos
    by_contra hslot
    refine hinv.virtToPhys_taken hreqs hin ?_ hphys
    rw [hinv.used_eq]
    simp only [InWindow, slotOf, mmioWindowBase, mmioWindowSlots, mb2] at hin hslot ⊢
    omega
  · intro hsafe pre hpre a p hmem hp
    have hpreqs : ∀ x ∈ pre, x < 2 ^ 52 := fun x hx ↦ hreqs x (hpre.subset hx)
    obtain ⟨hinv, hans, hfst⟩ := mapAll_invariant h₀ hpreqs
    have ha : a ∈ pre := by
      rw [← hfst]
      exact List.mem_map_of_mem hmem
    refine hinv.virtToPhys_answered hpreqs (hans a p hmem) hp ?_
    intro _ hin
    have hcard := Finset.card_le_card (highRegions_mono hpre.subset)
    have hslot := hsafe a (hpre.subset ha) hin
    rw [hinv.used_eq]
    exact (min_le_right _ _).trans (hcard.trans hslot)

/-- A device register above 4 GiB and one below the window. -/
theorem mappingsCorrect_two_devices :
    (mapAll sampleAddrs (initPaging sampleAddrs 0xC0000000 0x800000).1
        [0xFEBC1000000, 0xE0000010]).2 =
        [(0xFEBC1000000, 0xF0000000), (0xE0000010, 0xE0000010)] ∧
      MappingsCorrect sampleAddrs (fun _ ↦ 0) (initPaging sampleAddrs 0xC0000000 0x800000).1
        [0xFEBC1000000, 0xE0000010] := by
  refine ⟨by decide +kernel, ?_⟩
  refine (mappingsCorrect_iff sampleAddrs _ (by norm_num [gb]) (by norm_num)).mpr ?_ _
    List.prefix_rfl
  intro a ha hin
  simp only [InWindow, mmioWindowBase, mmioWindowSlots, mb2] at hin
  simp only [List.mem_cons, List.not_mem_nil, or_false] at ha
  omega

/-- The first high region takes the page of `0xF0000000`, which an earlier
call returned as itself. -/
theorem mapMmioVirt_remaps_identity :
    (mapAll sampleAddrs (initPaging sampleAddrs 0xC0000000 0x800000).1
        [0xF0000000, 0x100000000]).2 = [(0xF0000000, 0xF0000000), (0x100000000, 0xF0000000)] ∧
      virtToPhys sampleAddrs
        (mapAll sampleAddrs (initPaging sampleAddrs 0xC0000000 0x800000).1
          [0xF0000000, 0x100000000]).1 (fun _ ↦ 0) 0xF0000000 = some 0x100000000 := by
  decide +kernel

end ImplusKernel.Paging
