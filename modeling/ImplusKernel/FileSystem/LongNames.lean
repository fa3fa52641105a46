import ImplusKernel.FileSystem.DirectoryListing

/-!
# Long names and what came before them

A deleted entry and a volume label reset `lfn_count` but not the buffer, so
that characters of an abandoned long name stay behind.  They show up in the
next long name at every index before its end that its own entries leave out.
-/

namespace ImplusKernel.Fat32

open ByteMemory Disk

variable {frame frame' : Mem} {es before before' run : List Mem} {entry : Mem} {s : Listing}

/-! ## Texts -/

section Texts

variable {f g : ℕ → UInt8} {n x : ℕ}

theorem range_split (hx : x ≤ n) :
    (List.range n).map f =
      (List.range x).map f ++ (List.range (n - x)).map fun i ↦ f (x + i) := by
  obtain ⟨k, rfl⟩ := Nat.exists_eq_add_of_le hx
  rw [List.range_add, List.map_append, List.map_map, Nat.add_sub_cancel_left]
  rfl

/-- A zero ends the text. -/
theorem untilZero_of_zero (hx : x < n) (hzero : f x = 0) :
    untilZero ((List.range n).map f) = untilZero ((List.range x).map f) := by
  obtain ⟨k, hk⟩ := Nat.exists_eq_succ_of_ne_zero (show n - x ≠ 0 by omega)
  rw [range_split hx.le, hk, List.range_succ_eq_map, List.map_cons, Nat.add_zero, hzero,
    untilZero, untilZero, List.takeWhile_append]
  split
  · next hall =>
      rw [List.takeWhile_cons_of_neg (by simp), List.append_nil]
      exact ((List.takeWhile_sublist _).eq_of_length hall).symm
  · rfl

theorem untilZero_congr (h : ∀ y < n, f y = g y) :
    untilZero ((List.range n).map f) = untilZero ((List.range n).map g) :=
  congrArg untilZero (List.map_congr_left fun y hy ↦ h y (List.mem_range.mp hy))

theorem untilZero_eq_self (h : ∀ y < n, f y ≠ 0) :
    untilZero ((List.range n).map f) = (List.range n).map f := by
  apply List.takeWhile_eq_self_iff.mpr
  simpa using h

/-- Before the first zero of one text only, the texts part. -/
theorem untilZero_ne (hx : x < n) (hf : ∀ y < x, f y ≠ 0) (hg : ∀ y < x, g y ≠ 0)
    (hzero : f x = 0) (hne : g x ≠ 0) :
    untilZero ((List.range n).map f) ≠ untilZero ((List.range n).map g) := by
  intro heq
  have hshort : (untilZero ((List.range n).map f)).length = x := by
    rw [untilZero_of_zero hx hzero, untilZero_eq_self hf, List.length_map, List.length_range]
  have hg' : ∀ y < x + 1, g y ≠ 0 := by
    intro y hy
    rcases Nat.lt_succ_iff_lt_or_eq.mp hy with hlt | rfl
    · exact hg y hlt
    · exact hne
  have hlong : x + 1 ≤ (untilZero ((List.range n).map g)).length := by
    rw [range_split (show x + 1 ≤ n from hx), untilZero, List.takeWhile_append_of_pos]
    · simp
    · simpa using hg'
  rw [heq] at hshort
  omega

end Texts

/-! ## The buffer after a run -/

theorem storeAll_stack (pos : ℕ) (l : LongName) (k : ℕ) (cs : List UInt8)
    (hfit : pos + k + cs.length ≤ 2 ^ 32) (y : ℕ) :
    (LongName.storeAll pos l k cs).stack y =
      if pos + k ≤ y then cs[y - (pos + k)]?.getD (l.stack y) else l.stack y := by
  induction cs generalizing l k with
  | nil => simp [LongName.storeAll]
  | cons c cs ih =>
      rw [List.length_cons] at hfit
      rw [LongName.storeAll, ih _ _ (by omega), LongName.store, Nat.mod_eq_of_lt (by omega)]
      dsimp only
      rcases lt_trichotomy y (pos + k) with hlt | rfl | hgt
      · rw [if_neg (by omega), if_neg (by omega), Function.update_of_ne (by omega)]
      · rw [if_neg (by omega), if_pos le_rfl, Function.update_self, Nat.sub_self]
        rfl
      · rw [if_pos (by omega), if_pos (by omega), Function.update_of_ne (by omega),
          show y - (pos + k) = y - (pos + (k + 1)) + 1 by omega, List.getElem?_cons_succ]

/-- The character that a long-name entry has for an index of the buffer. -/
def charAt (entry : Mem) (y : ℕ) : Option UInt8 :=
  if namePos entry ≤ y then (nameChars entry)[y - namePos entry]? else none

/-- The character that a run of long-name entries leaves at an index, if any:
that of its last entry that has one. -/
def runChar (run : List Mem) (y : ℕ) : Option UInt8 := run.reverse.findSome? (charAt · y)

theorem findSome?_reverse_concat {α β : Type*} (f : α → Option β) (xs : List α) (a : α) :
    (xs ++ [a]).reverse.findSome? f = (f a).or (xs.reverse.findSome? f) := by
  rw [List.reverse_concat, List.findSome?_cons]
  cases f a <;> rfl

theorem runChar_concat (run : List Mem) (entry : Mem) (y : ℕ) :
    runChar (run ++ [entry]) y = (charAt entry y).or (runChar run y) :=
  findSome?_reverse_concat (charAt · y) run entry

theorem longNameEntry_stack (entry : Mem) (l : LongName) (y : ℕ) :
    (longNameEntry entry l).stack y = (charAt entry y).getD (l.stack y) := by
  have hle := nameChars_length_le entry
  have hfits := namePos_add_le entry
  rw [longNameEntry_eq]
  dsimp only
  rw [storeAll_stack _ _ _ _ (by omega), charAt, Nat.add_zero]
  by_cases hlow : namePos entry ≤ y
  · rw [if_pos hlow, if_pos hlow]
  · rw [if_neg hlow, if_neg hlow, Option.getD_none]

theorem run_stack (hrun : ∀ r ∈ run, entryKind r = .longName) (s : Listing) (y : ℕ) :
    (run.foldl listEntry s).lfn.stack y = (runChar run y).getD (s.lfn.stack y) := by
  induction run using List.reverseRecOn with
  | nil => rfl
  | append_singleton run entry ih =>
      rw [List.forall_mem_append, List.forall_mem_singleton] at hrun
      rw [List.foldl_concat, listEntry, hrun.2, runChar_concat]
      dsimp only
      rw [longNameEntry_stack, ih hrun.1, Option.getD_or]

theorem lastRun_append (hbefore : lastRun before = [])
    (hrun : ∀ r ∈ run, entryKind r = .longName) : lastRun (before ++ run) = run := by
  induction run using List.reverseRecOn with
  | nil => rwa [List.append_nil]
  | append_singleton run entry ih =>
      rw [List.forall_mem_append, List.forall_mem_singleton] at hrun
      rw [← List.append_assoc, lastRun_concat, if_pos hrun.2, ih hrun.1]

/-! ## The printed name -/

/-- The name that is printed for a short entry. -/
def printedName (frame : Mem) (before : List Mem) (entry : Mem) : Option (List UInt8) :=
  (listing frame (before ++ [entry])).lines.getLast?

/-- The name that a run leaves in the buffer, with `stack` under it. -/
def assembled (run : List Mem) (stack : Mem) : List UInt8 :=
  untilZero ((List.range (highestOrder run * 13)).map fun y ↦ (runChar run y).getD (stack y))

theorem printedName_eq (hbefore : lastRun before = [])
    (hrun : ∀ r ∈ run, entryKind r = .longName) (hshort : entryKind entry = .short) :
    printedName frame (before ++ run) entry =
      some (if highestOrder run ≠ 0 then assembled run (listing frame before).lfn.stack
        else shortName entry) := by
  have hcount : (listing frame (before ++ run)).lfn.count = highestOrder run := by
    rw [listing_count, lastRun_append hbefore hrun]
  have hstack : ∀ y, (listing frame (before ++ run)).lfn.stack y =
      (runChar run y).getD ((listing frame before).lfn.stack y) := by
    intro y
    rw [listing, List.foldl_append]
    exact run_stack hrun _ y
  rw [printedName, listing_concat, listEntry, hshort]
  simp only [shortEntry, hcount]
  split
  · rw [List.getLast?_concat, assembled, LongName.text]
    refine congrArg some ?_
    simp only [LongName.store, hcount]
    apply untilZero_congr
    intro y hy
    rw [Function.update_of_ne (by omega), hstack]
  · rw [List.getLast?_concat]

/-! ## Characters left behind -/

/-- Some long-name entry comes after the last short entry. -/
def HasOrphan (kinds : List EntryKind) : Prop :=
  ∃ pre post, kinds = pre ++ .longName :: post ∧ .short ∉ post

theorem hasOrphan_concat (kinds : List EntryKind) (kind : EntryKind) :
    HasOrphan (kinds ++ [kind]) ↔ kind = .longName ∨ kind ≠ .short ∧ HasOrphan kinds := by
  constructor
  · rintro ⟨pre, post, heq, hpost⟩
    rcases List.eq_nil_or_concat post with rfl | ⟨post, last, rfl⟩
    · obtain ⟨-, hlast⟩ := List.append_inj' heq rfl
      exact Or.inl (List.singleton_inj.mp hlast)
    · rw [List.concat_eq_append] at heq hpost
      rw [← List.cons_append, ← List.append_assoc] at heq
      obtain ⟨rfl, hlast⟩ := List.append_inj' heq rfl
      obtain rfl := List.singleton_inj.mp hlast
      simp only [List.mem_append, List.mem_singleton, not_or] at hpost
      exact Or.inr ⟨fun h ↦ hpost.2 h.symm, pre, post, rfl, hpost.1⟩
  · rintro (rfl | ⟨hkind, pre, post, rfl, hpost⟩)
    · exact ⟨kinds, [], rfl, List.not_mem_nil⟩
    · refine ⟨pre, post ++ [kind], by simp, ?_⟩
      simp only [List.mem_append, List.mem_singleton, not_or]
      exact ⟨hpost, hkind.symm⟩

/-- Without such an entry the buffer is clear. -/
theorem stack_of_not_hasOrphan (h : ¬HasOrphan (es.map entryKind)) {y : ℕ} (hy : y < 260) :
    (listing frame es).lfn.stack y = 0 := by
  induction es using List.reverseRecOn with
  | nil => exact if_pos hy
  | append_singleton es entry ih =>
      rw [List.map_append, List.map_singleton, hasOrphan_concat, not_or, not_and] at h
      rw [listing_concat, listEntry]
      cases hkind : entryKind entry with
      | longName => exact absurd hkind h.1
      | deleted => exact ih (h.2 (by simp [hkind]))
      | label => exact ih (h.2 (by simp [hkind]))
      | short =>
          simp only [shortEntry]
          split
          · exact if_pos hy
          · exact if_pos hy

/-- The last such entry, with nothing behind it that touches the buffer. -/
theorem exists_last_orphan (h : HasOrphan (es.map entryKind)) :
    ∃ pre r post, es = pre ++ r :: post ∧ entryKind r = .longName ∧
      ∀ e ∈ post, entryKind e = .deleted ∨ entryKind e = .label := by
  induction es using List.reverseRecOn with
  | nil =>
      obtain ⟨pre, post, heq, -⟩ := h
      simp at heq
  | append_singleton es entry ih =>
      rw [List.map_append, List.map_singleton, hasOrphan_concat] at h
      by_cases hlong : entryKind entry = .longName
      · exact ⟨es, entry, [], rfl, hlong, List.forall_mem_nil _⟩
      obtain ⟨hshort, h⟩ := h.resolve_left hlong
      obtain ⟨pre, r, post, rfl, hr, hpost⟩ := ih h
      refine ⟨pre, r, post ++ [entry], by simp, hr, ?_⟩
      rw [List.forall_mem_append, List.forall_mem_singleton]
      refine ⟨hpost, ?_⟩
      cases hkind : entryKind entry with
      | deleted => exact Or.inl rfl
      | label => exact Or.inr rfl
      | longName => exact absurd hkind hlong
      | short => exact absurd hkind hshort

theorem resets_stack (h : ∀ e ∈ es, entryKind e = .deleted ∨ entryKind e = .label) (s : Listing) :
    (es.foldl listEntry s).lfn.stack = s.lfn.stack := by
  induction es generalizing s with
  | nil => rfl
  | cons entry es ih =>
      rw [List.forall_mem_cons] at h
      rw [List.foldl_cons, ih h.2, listEntry]
      rcases h.1 with hkind | hkind
      · rw [hkind]
      · rw [hkind]

theorem lastRun_eq_nil_iff (es : List Mem) :
    lastRun es = [] ↔ (es.map entryKind).getLast? ≠ some .longName := by
  rcases List.eq_nil_or_concat es with rfl | ⟨es, entry, rfl⟩
  · simp [lastRun]
  · rw [List.concat_eq_append, lastRun_concat, List.map_append, List.map_singleton,
      List.getLast?_concat]
    by_cases h : entryKind entry = .longName
    · simp [h]
    · simp [h]

/-! ## Which names are determined -/

/-- Every index below the end of the name that the run leaves out comes after
a zero of the run. -/
def Covers (run : List Mem) : Prop :=
  ∀ y < highestOrder run * 13, runChar run y = none → ∃ x < y, runChar run x = some 0

theorem assembled_congr (h : Covers run) (stack stack' : Mem) :
    assembled run stack = assembled run stack' := by
  by_cases hgap : ∃ y, y < highestOrder run * 13 ∧ runChar run y = none
  · classical
    -- The zero that comes before the first index left out ends both names.
    obtain ⟨hlt, hnone⟩ := Nat.find_spec hgap
    obtain ⟨x, hx, hzero⟩ := h _ hlt hnone
    have hwritten : ∀ y < x, runChar run y ≠ none := fun y hy hy' ↦
      Nat.find_min hgap (hy.trans hx) ⟨(hy.trans hx).trans hlt, hy'⟩
    rw [assembled, assembled, untilZero_of_zero (hx.trans hlt) (by simp [hzero]),
      untilZero_of_zero (hx.trans hlt) (by simp [hzero])]
    apply untilZero_congr
    intro y hy
    obtain ⟨c, hc⟩ := Option.ne_none_iff_exists'.mp (hwritten y hy)
    rw [hc]
    rfl
  · apply untilZero_congr
    intro y hy
    obtain ⟨c, hc⟩ := Option.ne_none_iff_exists'.mp fun hy' ↦ hgap ⟨y, hy, hy'⟩
    rw [hc]
    rfl

/-- Otherwise the first index left out decides about the end of the name. -/
theorem exists_exposed (h : ¬Covers run) :
    ∃ z < highestOrder run * 13, ∀ stack stack' : Mem, stack z = 0 → stack' z ≠ 0 →
      assembled run stack ≠ assembled run stack' := by
  classical
  simp only [Covers, not_forall, not_exists, not_and] at h
  obtain ⟨y, hy, hnone, hnozero⟩ := h
  have hgap : ∃ y, runChar run y = none := ⟨y, hnone⟩
  have hle : Nat.find hgap ≤ y := Nat.find_min' hgap hnone
  have hnonzero : ∀ x < Nat.find hgap, ∀ stack : Mem, (runChar run x).getD (stack x) ≠ 0 := by
    intro x hx stack
    obtain ⟨c, hc⟩ := Option.ne_none_iff_exists'.mp (Nat.find_min hgap hx)
    rw [hc, Option.getD_some]
    rintro rfl
    exact hnozero x (hx.trans_le hle) hc
  refine ⟨Nat.find hgap, hle.trans_lt hy, fun stack stack' hzero hne ↦ ?_⟩
  apply untilZero_ne (hle.trans_lt hy) (fun x hx ↦ hnonzero x hx stack)
    (fun x hx ↦ hnonzero x hx stack')
  · rw [Nat.find_spec hgap]
    exact hzero
  · rw [Nat.find_spec hgap]
    exact hne

/-- A long-name entry whose thirteen characters have the low byte `c`. -/
def filler (order : ℕ) (c : UInt8) : Mem := fun i ↦
  if i = 0 then UInt8.ofNat order
  else if i = 11 then 0x0F
  else if i < 11 ∧ i % 2 = 1 ∨ 14 ≤ i ∧ i % 2 = 0 then c
  else 1

theorem nameGroup_eq_replicate {c : UInt8} {offsets : List ℕ}
    (h : ∀ o ∈ offsets, entry o = c ∧ entry (o + 1) = 1) :
    nameGroup entry offsets = List.replicate offsets.length c := by
  have hwords : offsets.map (readLE entry · 2) =
      List.replicate offsets.length (c.toNat + 256) := by
    rw [List.map_eq_replicate_iff]
    intro o ho
    obtain ⟨hlow, hhigh⟩ := h o ho
    simp [readLE, hlow, hhigh]
  have hc : c.toNat < 256 := c.toNat_lt
  have hgoes : (decide ¬(c.toNat + 256 = 0 ∨ c.toNat + 256 = 0xFFFF)) = true := by
    rw [decide_eq_true_eq]
    omega
  rw [nameGroup, hwords, List.takeWhile_replicate, if_pos hgoes, List.map_replicate,
    UInt8.ofNat_add, UInt8.ofNat_toNat]
  simp

theorem nameChars_filler (order : ℕ) (c : UInt8) :
    nameChars (filler order c) = List.replicate 13 c := by
  have hoffsets : ∀ start n, start % 2 = 1 ∧ start + 2 * n ≤ 11 ∨ start % 2 = 0 ∧ 14 ≤ start →
      ∀ o ∈ charOffsets start n, filler order c o = c ∧ filler order c (o + 1) = 1 := by
    intro start n hstart o ho
    rw [charOffsets, List.mem_map] at ho
    obtain ⟨j, hj, rfl⟩ := ho
    rw [List.mem_range] at hj
    unfold filler
    exact ⟨by rw [if_neg (by omega), if_neg (by omega), if_pos (by omega)],
      by rw [if_neg (by omega), if_neg (by omega), if_neg (by omega)]⟩
  rw [nameChars, nameGroup_eq_replicate (hoffsets 1 5 (by omega)),
    nameGroup_eq_replicate (hoffsets 14 6 (by omega)),
    nameGroup_eq_replicate (hoffsets 28 2 (by omega))]
  rfl

theorem filler_order {order : ℕ} (h : order < 64) (c : UInt8) :
    entryOrder (filler order c) = order := by
  rw [entryOrder, filler, if_pos rfl, UInt8.toNat_and,
    UInt8.toNat_ofNat_of_lt' (h.trans (by decide))]
  exact (Nat.and_two_pow_sub_one_eq_mod order 6).trans (Nat.mod_eq_of_lt h)

theorem filler_kind {order : ℕ} (h : order < 64) (c : UInt8) :
    entryKind (filler order c) = .longName := by
  have hdeleted : UInt8.ofNat order ≠ 0xE5 := by
    intro heq
    have hnat := congrArg UInt8.toNat heq
    rw [UInt8.toNat_ofNat_of_lt' (h.trans (by decide))] at hnat
    have hbyte : (0xE5 : UInt8).toNat = 229 := rfl
    omega
  simp [entryKind, filler, hdeleted]

theorem charAt_filler {order z : ℕ} (hlow : (order - 1) * 13 ≤ z) (hhigh : z < order * 13)
    (h : order < 64) (c : UInt8) : charAt (filler order c) z = some c := by
  have horder := filler_order h c
  rw [charAt, namePos_eq (by omega), horder, if_pos hlow, nameChars_filler]
  rw [List.getElem?_replicate, if_pos (by omega)]

/-! ## The main result -/

def LegalOrders (es : List Mem) : Prop :=
  ∀ e ∈ es, entryKind e = .longName → 1 ≤ entryOrder e ∧ entryOrder e ≤ 19

instance (es : List Mem) : Decidable (LegalOrders es) :=
  inferInstanceAs (Decidable (∀ e ∈ es, _))

/-- The beginning of the directory is replaced by entries of the same kinds. -/
structure SameShape (before before' : List Mem) : Prop where
  live : ∀ e ∈ before', e 0 ≠ 0
  kinds : before'.map entryKind = before.map entryKind
  orders : LegalOrders before'

/-- One character that an abandoned entry leaves behind can be changed. -/
theorem exists_sameShape (frame : Mem) (hlive : ∀ e ∈ before, e 0 ≠ 0)
    (horders : LegalOrders before) (horphan : HasOrphan (before.map entryKind)) {z : ℕ}
    (hz : z < 19 * 13) (c : UInt8) :
    ∃ before', SameShape before before' ∧ (listing frame before').lfn.stack z = c := by
  obtain ⟨pre, r, post, rfl, hr, hpost⟩ := exists_last_orphan horphan
  have horder : z / 13 + 1 < 64 := by omega
  have hkind := filler_kind horder c
  rw [List.forall_mem_append, List.forall_mem_cons] at hlive
  rw [LegalOrders, List.forall_mem_append, List.forall_mem_cons] at horders
  refine ⟨pre ++ filler (z / 13 + 1) c :: post, ⟨?_, ?_, ?_⟩, ?_⟩
  · rw [List.forall_mem_append, List.forall_mem_cons]
    refine ⟨hlive.1, ?_, hlive.2.2⟩
    intro hzero
    have hnone : entryOrder (filler (z / 13 + 1) c) = 0 := by
      rw [entryOrder, hzero]
      rfl
    rw [filler_order horder] at hnone
    omega
  · simp [hkind, hr]
  · rw [LegalOrders, List.forall_mem_append, List.forall_mem_cons, filler_order horder]
    exact ⟨horders.1, fun _ ↦ by omega, horders.2.2⟩
  · rw [listing, List.foldl_append, List.foldl_cons, resets_stack hpost, listEntry, hkind]
    dsimp only
    rw [longNameEntry_stack, charAt_filler (by omega) (by omega) horder, Option.getD_some]

theorem highestOrder_eq_zero_iff (horders : LegalOrders run)
    (hrun : ∀ r ∈ run, entryKind r = .longName) : highestOrder run = 0 ↔ run = [] := by
  rw [← Nat.lt_one_iff, highestOrder_lt_iff _ Nat.one_pos, List.eq_nil_iff_forall_not_mem]
  refine forall_congr' fun r ↦ ⟨fun h hr ↦ ?_, fun h hr ↦ absurd hr h⟩
  have hlow := (horders r hr (hrun r hr)).1
  have hlt := h hr
  omega

/-! The lines of a listing are the names of its short entries. -/

def isShort (entry : Mem) : Bool := entryKind entry = .short

theorem listEntry_lines (s : Listing) (entry : Mem) :
    ∃ new, (listEntry s entry).lines = s.lines ++ new ∧
      new.length = if isShort entry then 1 else 0 := by
  rw [listEntry, isShort]
  cases entryKind entry with
  | deleted => exact ⟨[], (List.append_nil _).symm, rfl⟩
  | longName => exact ⟨[], (List.append_nil _).symm, rfl⟩
  | label => exact ⟨[], (List.append_nil _).symm, rfl⟩
  | short =>
      simp only [shortEntry]
      split
      · exact ⟨_, rfl, rfl⟩
      · exact ⟨_, rfl, rfl⟩

theorem listing_lines_append (s : Listing) (es : List Mem) :
    ∃ new, (es.foldl listEntry s).lines = s.lines ++ new ∧ new.length = es.countP isShort := by
  induction es generalizing s with
  | nil => exact ⟨[], (List.append_nil _).symm, rfl⟩
  | cons entry es ih =>
      obtain ⟨new, hnew, hlength⟩ := listEntry_lines s entry
      obtain ⟨more, hmore, hcount⟩ := ih (listEntry s entry)
      refine ⟨new ++ more, ?_, ?_⟩
      · rw [List.foldl_cons, hmore, hnew, List.append_assoc]
      · rw [List.length_append, hlength, hcount, List.countP_cons, Nat.add_comm]

theorem line_of_entry {drive : Drive} {bpb : Bpb} {io : IoState} {rest : List Mem}
    (hvisited : visitedEntries drive bpb io = before ++ run ++ entry :: rest)
    (hrun : ∀ r ∈ run, entryKind r = .longName) (hshort : entryKind entry = .short) :
    (fat32ListRootFiles drive bpb io frame).2.lines[before.countP isShort]? =
      printedName frame (before ++ run) entry := by
  have hsplit : before ++ run ++ entry :: rest = before ++ run ++ [entry] ++ rest := by simp
  obtain ⟨tail, htail, -⟩ := listing_lines_append (listing frame (before ++ run ++ [entry])) rest
  obtain ⟨lines, hlines, hlength⟩ := listing_lines_append (.init frame) (before ++ run ++ [entry])
  have hnone : run.countP isShort = 0 := by
    rw [List.countP_eq_zero]
    intro r hr
    simp [isShort, hrun r hr]
  have hcount : lines.length = before.countP isShort + 1 := by
    rw [hlength, List.countP_append, List.countP_append, hnone, List.countP_singleton]
    simp [isShort, hshort]
  have hlist : (listing frame (before ++ run ++ [entry])).lines = lines := hlines
  rw [fat32ListRootFiles_eq, hvisited, hsplit, listing, List.foldl_append, ← listing, htail, hlist,
    List.getElem?_append_left (by omega), printedName, hlist, List.getLast?_eq_getElem?, hcount,
    Nat.add_sub_cancel]

/-- A name printed after a run of long-name entries is the line that the
listing of a volume has for it.  It is determined by the run exactly when
there is none, nothing was left behind in the buffer, or the run covers its
name. -/
theorem printedName_determined_iff (frame : Mem) (hlive : ∀ e ∈ before, e 0 ≠ 0)
    (hbefore : lastRun before = []) (hrun : ∀ r ∈ run, entryKind r = .longName)
    (hshort : entryKind entry = .short) (horders : LegalOrders (before ++ run)) :
    (∀ drive bpb io rest, visitedEntries drive bpb io = before ++ run ++ entry :: rest →
      (fat32ListRootFiles drive bpb io frame).2.lines[before.countP isShort]? =
        printedName frame (before ++ run) entry) ∧
    ((∀ frame' before', SameShape before before' →
      printedName frame' (before' ++ run) entry = printedName frame (before ++ run) entry) ↔
      run = [] ∨ ¬HasOrphan (before.map entryKind) ∨ Covers run) := by
  refine ⟨fun drive bpb io rest hvisited ↦ line_of_entry hvisited hrun hshort, ?_⟩
  rw [LegalOrders, List.forall_mem_append] at horders
  have hzero := highestOrder_eq_zero_iff horders.2 hrun
  have hhigh : highestOrder run * 13 ≤ 19 * 13 := by
    have hlt := (highestOrder_lt_iff run (show 0 < 20 by decide)).mpr fun r hr ↦
      Nat.lt_succ_of_le (horders.2 r hr (hrun r hr)).2
    omega
  have hname : ∀ frame' before', SameShape before before' →
      printedName frame' (before' ++ run) entry =
        some (if highestOrder run ≠ 0 then assembled run (listing frame' before').lfn.stack
          else shortName entry) := by
    intro frame' before' hshape
    refine printedName_eq ?_ hrun hshort
    rw [lastRun_eq_nil_iff, hshape.kinds, ← lastRun_eq_nil_iff]
    exact hbefore
  have hself : SameShape before before := ⟨hlive, rfl, horders.1⟩
  constructor
  · intro hsame
    by_contra hnot
    rw [not_or, not_or, not_not] at hnot
    obtain ⟨hne, horphan, hcovers⟩ := hnot
    obtain ⟨z, hz, hdiffer⟩ := exists_exposed hcovers
    -- Two beginnings that leave a zero and a one at the exposed index.
    obtain ⟨ends, hends, hendsAt⟩ := exists_sameShape frame hlive horders.1 horphan
      (hz.trans_le hhigh) 0
    obtain ⟨goes, hgoes, hgoesAt⟩ := exists_sameShape frame hlive horders.1 horphan
      (hz.trans_le hhigh) 1
    have heq := (hsame frame ends hends).trans (hsame frame goes hgoes).symm
    rw [hname frame ends hends, hname frame goes hgoes, if_pos (by rwa [ne_eq, hzero]),
      if_pos (by rwa [ne_eq, hzero])] at heq
    refine hdiffer _ _ hendsAt ?_ (Option.some.inj heq)
    rw [hgoesAt]
    decide
  · intro h frame' before' hshape
    rw [hname frame' before' hshape, hname frame before hself]
    rcases h with rfl | horphan | hcovers
    · rfl
    · -- Nothing is left in the buffer in either case.
      have horphan' : ¬HasOrphan (before'.map entryKind) := by rwa [hshape.kinds]
      congr 2
      apply untilZero_congr
      intro y hy
      rw [stack_of_not_hasOrphan horphan (by omega), stack_of_not_hasOrphan horphan' (by omega)]
    · rw [assembled_congr hcovers]

/-- An entry from its 32 bytes. -/
def entryOf (bytes : List UInt8) : Mem := fun i ↦ bytes.getD i 0

/-- A long-name entry of order 1 with thirteen times the same character. -/
def orphanBytes (c : UInt8) : List UInt8 :=
  [0x41, c, 0, c, 0, c, 0, c, 0, c, 0, 0x0F, 0, 0, c, 0, c, 0, c, 0, c, 0, c, 0, c, 0, 0, 0,
    c, 0, c, 0]

/-- The long name `hello`: the first group is full, the second ends at once. -/
def helloBytes : List UInt8 :=
  [0x41, 104, 0, 101, 0, 108, 0, 108, 0, 111, 0, 0x0F, 0, 0, 0, 0] ++
    List.replicate 10 0xFF ++ [0, 0, 0xFF, 0xFF, 0xFF, 0xFF]

def deletedBytes : List UInt8 := 0xE5 :: List.replicate 31 0x20

/-- The short entry `HELLO`. -/
def shortBytes : List UInt8 := [72, 69, 76, 76, 79] ++ List.replicate 7 0x20 ++ List.replicate 20 0

theorem printedName_determined_hello :
    printedName (fun _ ↦ 0) ([entryOf deletedBytes] ++ [entryOf helloBytes])
      (entryOf shortBytes) = some [104, 101, 108, 108, 111] ∧
    ∀ frame' before', SameShape [entryOf deletedBytes] before' →
      printedName frame' (before' ++ [entryOf helloBytes]) (entryOf shortBytes) =
        some [104, 101, 108, 108, 111] := by
  have hprinted : printedName (fun _ ↦ 0) ([entryOf deletedBytes] ++ [entryOf helloBytes])
      (entryOf shortBytes) = some [104, 101, 108, 108, 111] := by decide +kernel
  have hkind : entryKind (entryOf deletedBytes) = .deleted := by decide
  have hlive : ∀ e ∈ [entryOf deletedBytes], e 0 ≠ 0 := by decide
  have hrun : ∀ r ∈ [entryOf helloBytes], entryKind r = .longName := by decide
  have hshort : entryKind (entryOf shortBytes) = .short := by decide
  have hdetermined := printedName_determined_iff (fun _ ↦ 0) hlive (by decide) hrun hshort
    (by decide)
  refine ⟨hprinted, fun frame' before' hshape ↦ ?_⟩
  rw [hdetermined.2.mpr (Or.inr (Or.inl ?_)) frame' before' hshape, hprinted]
  rintro ⟨pre, post, heq, -⟩
  have hmem : EntryKind.longName ∈ [entryOf deletedBytes].map entryKind := heq ▸ by simp
  simp [hkind] at hmem

/-- A directory with an abandoned long-name entry, a deleted entry, and the
file `hello`. -/
def abandoned (c : UInt8) : IoState where
  sectors := fun s ↦
    if s = 2148 then entryOf (orphanBytes c ++ deletedBytes ++ helloBytes ++ shortBytes)
    else fun _ ↦ 0
  commands := 0
  written := []
  serial := []

/-- The name of the file ends with characters of the abandoned entry. -/
theorem abandoned_name_leaks :
    (fat32ListRootFiles faultless sampleBpb (abandoned 88) fun _ ↦ 0).2.lines =
      [[104, 101, 108, 108, 111, 88, 88, 88, 88, 88, 88, 88, 88]] ∧
    (fat32ListRootFiles faultless sampleBpb (abandoned 89) fun _ ↦ 0).2.lines =
      [[104, 101, 108, 108, 111, 89, 89, 89, 89, 89, 89, 89, 89]] := by
  decide +kernel

end ImplusKernel.Fat32
