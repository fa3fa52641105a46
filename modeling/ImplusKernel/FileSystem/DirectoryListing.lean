import ImplusKernel.FileSystem.DirectorySearch
import Mathlib.Data.List.DropRight

/-!
# Listing the root directory

`fat32_list_root_files` prints a name for every short entry.  A long name is
put together in a buffer of 260 bytes from the long-name entries before the
short one: entry number `order` has the 13 characters from index
`(order - 1) * 13` on.  The order comes from the disk and is not checked.  The
listing is a fold over the entries that the loops reach, and its stores stay
inside the buffer exactly when no order number there is too high.
-/

namespace ImplusKernel.Fat32

open ByteMemory Disk

/-! ## The buffer -/

/-- `lfn_stack` and the bytes of the stack around it, `lfn_count`, and the
indices of the single stores into `lfn_stack`, latest first. -/
structure LongName where
  stack : Mem
  count : ℕ
  stores : List ℕ

def LongName.store (l : LongName) (i : ℕ) (c : UInt8) : LongName :=
  { l with stack := Function.update l.stack i c, stores := i :: l.stores }

/-- `memset(lfn_stack, 0, sizeof(lfn_stack))` and `lfn_count = 0`. -/
def LongName.clear (l : LongName) : LongName :=
  { l with stack := fun i ↦ if i < 260 then 0 else l.stack i, count := 0 }

/-! ## Entries -/

inductive EntryKind
  | deleted
  | longName
  | label
  | short
deriving DecidableEq, Repr

/-- The tests that the loop body makes of an entry before the end mark. -/
def entryKind (entry : Mem) : EntryKind :=
  if entry 0 = 0xE5 then .deleted
  else if entry 11 = 0x0F then .longName
  else if entry 11 &&& 0x08 ≠ 0 then .label
  else .short

def entryOrder (entry : Mem) : ℕ := (entry 0 &&& 0x3F).toNat

/-- `(order - 1) * 13` as a 32-bit number. -/
def namePos (entry : Mem) : ℕ := (entryOrder entry + (2 ^ 32 - 1)) * 13 % 2 ^ 32

/-- One of the three loops over the characters of an entry, at the given
offsets.  A zero or `0xFFFF` ends it; `k` runs on through all three. -/
def copyChars (entry : Mem) (pos : ℕ) : List ℕ → LongName × ℕ → LongName × ℕ
  | [], acc => acc
  | offset :: rest, (l, k) =>
      let c := readLE entry offset 2
      if c = 0 ∨ c = 0xFFFF then (l, k)
      else copyChars entry pos rest (l.store ((pos + k) % 2 ^ 32) (UInt8.ofNat c), k + 1)

/-- The offsets of `n` characters from `start` on. -/
def charOffsets (start n : ℕ) : List ℕ := (List.range n).map fun j ↦ start + j * 2

def longNameEntry (entry : Mem) (l : LongName) : LongName :=
  let pos := namePos entry
  let first := copyChars entry pos (charOffsets 1 5) (l, 0)
  let second := copyChars entry pos (charOffsets 14 6) first
  let third := copyChars entry pos (charOffsets 28 2) second
  { third.1 with count := if entryOrder entry > l.count then entryOrder entry else l.count }

/-- What `serial_write_string` prints of a text. -/
def untilZero (text : List UInt8) : List UInt8 := text.takeWhile (· ≠ 0)

/-- The name field without its trailing spaces. -/
def shortName (entry : Mem) : List UInt8 :=
  untilZero (((List.range 11).map entry).rdropWhile (· = 0x20))

/-- The long name; a zero has just been stored at `lfn_count * 13`. -/
def LongName.text (l : LongName) : List UInt8 :=
  untilZero ((List.range (l.count * 13)).map l.stack)

/-- The buffer and the lines printed so far. -/
structure Listing where
  lfn : LongName
  lines : List (List UInt8)

def shortEntry (s : Listing) (entry : Mem) : Listing :=
  if s.lfn.count ≠ 0 then
    let l := s.lfn.store (s.lfn.count * 13) 0
    ⟨l.clear, s.lines ++ [l.text]⟩
  else ⟨s.lfn.clear, s.lines ++ [shortName entry]⟩

/-- The body of the loop over the entries, after the test for the end mark. -/
def listEntry (s : Listing) (entry : Mem) : Listing :=
  match entryKind entry with
  | .deleted => { s with lfn := { s.lfn with count := 0 } }
  | .longName => { s with lfn := longNameEntry entry s.lfn }
  | .label => { s with lfn := { s.lfn with count := 0 } }
  | .short => shortEntry s entry

/-! ## The loops -/

section Loops

variable {σ τ : Type*}

/-- The 32 bytes from `&buf[i]` on. -/
def entryAt (buf : Mem) (i : ℕ) : Mem := fun k ↦ if k < 32 then buf (i + k) else 0

/-- The loop over the entries of a sector around a body; `false` is `return`. -/
def forEntries (body : σ → Mem → σ) (buf : Mem) : List ℕ → σ → σ × Bool
  | [], s => (s, true)
  | i :: rest, s =>
      if buf i = 0x00 then (s, false) else forEntries body buf rest (body s (entryAt buf i))

/-- The loop over the sectors of a cluster. -/
def forSectors (body : σ → Mem → σ) (drive : Drive) (bpb : Bpb) (cluster : ℕ) :
    List ℕ → IoState → σ → IoState × σ × Bool
  | [], io, s => (io, s, true)
  | sec :: rest, io, s =>
      if clusterToLba bpb cluster = 0 then (io, s, false)
      else
        match diskRead drive io (sectorLba bpb cluster sec) 1 with
        | (io', none) => (io', s, false)
        | (io', some buf) =>
            match forEntries body buf (entryOffsets bpb) s with
            | (s', false) => (io', s', false)
            | (s', true) => forSectors body drive bpb cluster rest io' s'

/-- The loop over the clusters, with the number of clusters still allowed. -/
def forClusters (body : σ → Mem → σ) (drive : Drive) (bpb : Bpb) :
    ℕ → IoState → ℕ → σ → IoState × σ
  | 0, io, _, s => (io, s)
  | c + 1, io, cluster, s =>
      match forSectors body drive bpb cluster (List.range bpb.sectorsPerCluster) io s with
      | (io', s', false) => (io', s')
      | (io', s', true) =>
          let (io'', next) := fatGetNextCluster drive bpb io' cluster
          if chainEnds next then (io'', s') else forClusters body drive bpb c io'' next s'

/-! A map that commutes with the bodies commutes with the loops. -/

variable {f : σ → τ} {body : σ → Mem → σ} {body' : τ → Mem → τ}
  (hf : ∀ s entry, f (body s entry) = body' (f s) entry)

include hf

theorem forEntries_map (buf : Mem) (offsets : List ℕ) (s : σ) :
    forEntries body' buf offsets (f s) =
      (f (forEntries body buf offsets s).1, (forEntries body buf offsets s).2) := by
  induction offsets generalizing s with
  | nil => rfl
  | cons i rest ih =>
      rw [forEntries, forEntries]
      split
      · rfl
      · rw [← hf, ih]

theorem forSectors_map (drive : Drive) (bpb : Bpb) (cluster : ℕ) (secs : List ℕ) (io : IoState)
    (s : σ) : forSectors body' drive bpb cluster secs io (f s) =
      ((forSectors body drive bpb cluster secs io s).1,
        f (forSectors body drive bpb cluster secs io s).2.1,
        (forSectors body drive bpb cluster secs io s).2.2) := by
  induction secs generalizing io s with
  | nil => rfl
  | cons sec rest ih =>
      rw [forSectors, forSectors]
      split
      · rfl
      rcases diskRead drive io (sectorLba bpb cluster sec) 1 with ⟨io', _ | buf⟩
      · rfl
      dsimp only
      rw [forEntries_map hf]
      rcases forEntries body buf (entryOffsets bpb) s with ⟨s', _ | _⟩
      · rfl
      · exact ih io' s'

theorem forClusters_map (drive : Drive) (bpb : Bpb) (n : ℕ) (io : IoState) (cluster : ℕ)
    (s : σ) : forClusters body' drive bpb n io cluster (f s) =
      ((forClusters body drive bpb n io cluster s).1,
        f (forClusters body drive bpb n io cluster s).2) := by
  induction n generalizing io cluster s with
  | zero => rfl
  | succ n ih =>
      rw [forClusters, forClusters, forSectors_map hf]
      rcases forSectors body drive bpb cluster (List.range bpb.sectorsPerCluster) io s with
        ⟨io', s', _ | _⟩
      · rfl
      dsimp only
      split
      · rfl
      · exact ih _ _ s'

end Loops

/-- The locals when the first loop begins; `frame` is what the stack held. -/
def Listing.init (frame : Mem) : Listing := ⟨LongName.clear ⟨frame, 0, []⟩, []⟩

def fat32ListRootFiles (drive : Drive) (bpb : Bpb) (io : IoState) (frame : Mem) :
    IoState × Listing :=
  forClusters listEntry drive bpb (maxClusters bpb) io bpb.rootCluster (.init frame)

/-! ## The listing as a fold -/

variable {drive : Drive} {bpb : Bpb} {io : IoState} {frame : Mem} {es : List Mem} {entry : Mem}

/-- The entries that the loops reach, in order. -/
def visitedEntries (drive : Drive) (bpb : Bpb) (io : IoState) : List Mem :=
  (forClusters (fun es entry ↦ es ++ [entry]) drive bpb (maxClusters bpb) io
    bpb.rootCluster []).2

/-- The listing of a sequence of entries. -/
def listing (frame : Mem) (es : List Mem) : Listing := es.foldl listEntry (.init frame)

theorem listing_concat (frame : Mem) (es : List Mem) (entry : Mem) :
    listing frame (es ++ [entry]) = listEntry (listing frame es) entry :=
  List.foldl_concat _ _ _ _

theorem fat32ListRootFiles_eq (drive : Drive) (bpb : Bpb) (io : IoState) (frame : Mem) :
    (fat32ListRootFiles drive bpb io frame).2 = listing frame (visitedEntries drive bpb io) :=
  congrArg Prod.snd (forClusters_map (listing_concat frame) drive bpb _ io bpb.rootCluster [])

/-! ## What a working drive delivers -/

def sectorListing (sector : Mem) : List Mem := (List.range 16).map fun e ↦ entryAt sector (32 * e)

/-- The entries in some sectors of a cluster. -/
def clusterListing (bpb : Bpb) (sectors : ℕ → Mem) (cluster : ℕ) (secs : List ℕ) : List Mem :=
  secs.flatMap fun sec ↦ sectorListing (sectors (sectorOf (sectorLba bpb cluster sec) 0))

def isLive (entry : Mem) : Bool := entry 0 ≠ 0

variable {xs ys : List Mem}

theorem liveEntries_of_all (h : xs.all isLive = true) : liveEntries xs = xs :=
  List.takeWhile_eq_self_iff.mpr (List.all_eq_true.mp h)

theorem liveEntries_append_of_all (h : xs.all isLive = true) :
    liveEntries (xs ++ ys) = xs ++ liveEntries ys :=
  List.takeWhile_append_of_pos (List.all_eq_true.mp h)

theorem liveEntries_append_of_not_all (h : xs.all isLive = false) :
    liveEntries (xs ++ ys) = liveEntries xs := by
  refine List.takeWhile_append.trans (if_neg fun hlength ↦ ?_)
  have hwhole := (List.takeWhile_sublist _).eq_of_length hlength
  have hall := List.all_eq_true.mpr (List.takeWhile_eq_self_iff.mp hwhole)
  exact Bool.false_ne_true (h.symm.trans hall)

theorem forEntries_collect (buf : Mem) (offsets : List ℕ) (acc : List Mem) :
    forEntries (fun es entry ↦ es ++ [entry]) buf offsets acc =
      (acc ++ liveEntries (offsets.map (entryAt buf)), (offsets.map (entryAt buf)).all isLive) := by
  induction offsets generalizing acc with
  | nil => simp [forEntries, liveEntries]
  | cons i rest ih =>
      rw [forEntries, ih]
      by_cases hzero : buf i = 0
      · simp [liveEntries, isLive, entryAt, hzero]
      · simp [liveEntries, isLive, entryAt, hzero]

theorem entryAt_transferred (hbps : bpb.bytesPerSector = 512) (sectors : ℕ → Mem) (stack : Mem)
    (lba : ℕ) : (entryOffsets bpb).map (entryAt (transferred sectors stack lba 1)) =
      sectorListing (sectors (sectorOf lba 0)) := by
  rw [entryOffsets, hbps, List.map_map]
  refine List.map_congr_left fun e he ↦ funext fun k ↦ ?_
  rw [List.mem_range] at he
  simp only [Function.comp_apply, entryAt]
  split
  · exact transferred_one _ _ _ (by omega)
  · rfl

theorem forSectors_collect (hreads : drive.Reads) (hbps : bpb.bytesPerSector = 512)
    {cluster : ℕ} (hlba : clusterToLba bpb cluster ≠ 0) (secs : List ℕ) (io : IoState)
    (acc : List Mem) :
    ∃ n, forSectors (fun es entry ↦ es ++ [entry]) drive bpb cluster secs io acc =
      ({ io with commands := n }, acc ++ liveEntries (clusterListing bpb io.sectors cluster secs),
        (clusterListing bpb io.sectors cluster secs).all isLive) := by
  induction secs generalizing io acc with
  | nil => exact ⟨io.commands, by simp [forSectors, clusterListing, liveEntries]⟩
  | cons sec rest ih =>
      rw [forSectors, if_neg hlba, diskRead_works hreads io _ one_ne_zero, clusterListing,
        List.flatMap_cons, ← clusterListing, List.all_append]
      dsimp only
      rw [forEntries_collect, entryAt_transferred hbps]
      cases hall : (sectorListing (io.sectors (sectorOf (sectorLba bpb cluster sec) 0))).all
          isLive with
      | false =>
          rw [liveEntries_append_of_not_all hall]
          exact ⟨io.commands + 1, rfl⟩
      | true =>
          obtain ⟨n, hn⟩ := ih { io with commands := io.commands + 1 } (acc ++
            sectorListing (io.sectors (sectorOf (sectorLba bpb cluster sec) 0)))
          refine ⟨n, ?_⟩
          rw [liveEntries_of_all hall, liveEntries_append_of_all hall, ← List.append_assoc]
          exact hn

/-- The clusters that the loop comes to, those of a cycle again and again, up
to one that has no sector number. -/
def walkedClusters (bpb : Bpb) (sectors : ℕ → Mem) (n cluster : ℕ) : List ℕ :=
  (LinkWalk.trail (nextCluster bpb sectors) n cluster).takeWhile (clusterToLba bpb · ≠ 0)

theorem forClusters_collect (hreads : drive.Reads) (hbps : bpb.bytesPerSector = 512)
    (hspc : 0 < bpb.sectorsPerCluster) (n : ℕ) (io : IoState) (cluster : ℕ) (acc : List Mem) :
    (forClusters (fun es entry ↦ es ++ [entry]) drive bpb n io cluster acc).2 =
      acc ++ liveEntries ((walkedClusters bpb io.sectors n cluster).flatMap fun c ↦
        clusterListing bpb io.sectors c (List.range bpb.sectorsPerCluster)) := by
  induction n generalizing io cluster acc with
  | zero => simp [forClusters, walkedClusters, LinkWalk.trail, liveEntries]
  | succ n ih =>
      rw [forClusters, walkedClusters, LinkWalk.trail]
      by_cases hlba : clusterToLba bpb cluster = 0
      · obtain ⟨m, hm⟩ := Nat.exists_eq_succ_of_ne_zero hspc.ne'
        rw [hm, List.range_eq_range', List.range'_succ, forSectors, if_pos hlba]
        simp [hlba, liveEntries]
      obtain ⟨k, hsectors⟩ := forSectors_collect hreads hbps hlba
        (List.range bpb.sectorsPerCluster) io acc
      rw [hsectors, List.takeWhile_cons_of_pos (by simpa using hlba), List.flatMap_cons]
      cases hall : (clusterListing bpb io.sectors cluster
          (List.range bpb.sectorsPerCluster)).all isLive with
      | false => rw [liveEntries_append_of_not_all hall]
      | true =>
          obtain ⟨k', next, hget, hnext⟩ :=
            fatGetNextCluster_next hreads hbps { io with commands := k } cluster
          rw [liveEntries_of_all hall, liveEntries_append_of_all hall, ← List.append_assoc]
          simp only [hget] at hnext ⊢
          rw [hnext]
          cases chainEnds next with
          | true => simp [liveEntries]
          | false => exact ih { io with commands := k' } next _

/-- A working drive delivers the directory: the entries before the end mark
of the clusters along its chain. -/
theorem visitedEntries_eq (hreads : drive.Reads) (hbps : bpb.bytesPerSector = 512)
    (hspc : 0 < bpb.sectorsPerCluster) (io : IoState) :
    visitedEntries drive bpb io =
      liveEntries ((walkedClusters bpb io.sectors (maxClusters bpb) bpb.rootCluster).flatMap
        fun c ↦ clusterListing bpb io.sectors c (List.range bpb.sectorsPerCluster)) :=
  forClusters_collect hreads hbps hspc _ io bpb.rootCluster []

/-! ## What an entry stores -/

/-- Characters stored one after the other, from `pos + k` on. -/
def LongName.storeAll (pos : ℕ) : LongName → ℕ → List UInt8 → LongName
  | l, _, [] => l
  | l, k, c :: cs => LongName.storeAll pos (l.store ((pos + k) % 2 ^ 32) c) (k + 1) cs

/-- The characters that one of the three loops copies. -/
def nameGroup (entry : Mem) (offsets : List ℕ) : List UInt8 :=
  ((offsets.map (readLE entry · 2)).takeWhile fun c ↦ ¬(c = 0 ∨ c = 0xFFFF)).map UInt8.ofNat

/-- The characters of a long-name entry. -/
def nameChars (entry : Mem) : List UInt8 :=
  nameGroup entry (charOffsets 1 5) ++ nameGroup entry (charOffsets 14 6) ++
    nameGroup entry (charOffsets 28 2)

variable {l : LongName} {pos k : ℕ} {cs ds : List UInt8}

theorem storeAll_append (l : LongName) (pos k : ℕ) (cs ds : List UInt8) :
    LongName.storeAll pos l k (cs ++ ds) =
      LongName.storeAll pos (LongName.storeAll pos l k cs) (k + cs.length) ds := by
  induction cs generalizing l k with
  | nil => rfl
  | cons c cs ih =>
      rw [List.cons_append, LongName.storeAll, ih, LongName.storeAll, List.length_cons,
        Nat.add_right_comm, Nat.add_assoc]

theorem copyChars_eq (entry : Mem) (pos : ℕ) (offsets : List ℕ) (l : LongName) (k : ℕ) :
    copyChars entry pos offsets (l, k) =
      (LongName.storeAll pos l k (nameGroup entry offsets),
        k + (nameGroup entry offsets).length) := by
  induction offsets generalizing l k with
  | nil => rfl
  | cons offset rest ih =>
      rw [copyChars, nameGroup, List.map_cons]
      by_cases hend : readLE entry offset 2 = 0 ∨ readLE entry offset 2 = 0xFFFF
      · rw [List.takeWhile_cons_of_neg (by simpa only [decide_eq_true_eq, not_not] using hend)]
        simp [hend, LongName.storeAll]
      · rw [List.takeWhile_cons_of_pos (by simpa only [decide_eq_true_eq] using hend),
          if_neg hend, ih, List.map_cons, LongName.storeAll, List.length_cons, ← nameGroup,
          Nat.add_assoc, Nat.add_comm 1]

theorem longNameEntry_eq (entry : Mem) (l : LongName) :
    longNameEntry entry l = { LongName.storeAll (namePos entry) l 0 (nameChars entry) with
      count := max l.count (entryOrder entry) } := by
  have hcount : (if entryOrder entry > l.count then entryOrder entry else l.count) =
      max l.count (entryOrder entry) := by
    split <;> omega
  simp only [longNameEntry, hcount, copyChars_eq, nameChars, storeAll_append, List.length_append,
    Nat.zero_add]

theorem storeAll_stores (l : LongName) (pos k : ℕ) (cs : List UInt8) (j : ℕ) :
    j ∈ (LongName.storeAll pos l k cs).stores ↔
      j ∈ l.stores ∨ ∃ i < cs.length, j = (pos + k + i) % 2 ^ 32 := by
  induction cs generalizing l k with
  | nil => simp [LongName.storeAll]
  | cons c cs ih =>
      rw [LongName.storeAll, ih]
      simp only [LongName.store, List.mem_cons, List.length_cons]
      constructor
      · rintro ((rfl | hj) | ⟨i, hi, rfl⟩)
        · exact Or.inr ⟨0, by omega, rfl⟩
        · exact Or.inl hj
        · have hshift : pos + (k + 1) + i = pos + k + (i + 1) := by omega
          exact Or.inr ⟨i + 1, by omega, by rw [hshift]⟩
      · rintro (hj | ⟨i, hi, rfl⟩)
        · exact Or.inl (Or.inr hj)
        · rcases i with _ | i
          · exact Or.inl (Or.inl rfl)
          · exact Or.inr ⟨i, by omega, by rw [show pos + (k + 1) + i = pos + k + (i + 1) by omega]⟩

theorem nameGroup_length_le (entry : Mem) (offsets : List ℕ) :
    (nameGroup entry offsets).length ≤ offsets.length := by
  rw [nameGroup, List.length_map]
  exact (List.takeWhile_sublist _).length_le.trans (List.length_map _).le

theorem nameChars_length_le (entry : Mem) : (nameChars entry).length ≤ 13 := by
  have hfirst := nameGroup_length_le entry (charOffsets 1 5)
  have hsecond := nameGroup_length_le entry (charOffsets 14 6)
  have hthird := nameGroup_length_le entry (charOffsets 28 2)
  simp only [charOffsets, List.length_map, List.length_range] at hfirst hsecond hthird
  simp only [nameChars, List.length_append, charOffsets]
  omega

theorem entryOrder_lt (entry : Mem) : entryOrder entry < 64 := by
  have hle : entry 0 &&& 0x3F ≤ 0x3F := UInt8.and_le_right
  exact Nat.lt_succ_of_le (UInt8.le_iff_toNat_le.mp hle)

theorem namePos_eq (h : entryOrder entry ≠ 0) : namePos entry = (entryOrder entry - 1) * 13 := by
  have hlt := entryOrder_lt entry
  unfold namePos
  omega

theorem namePos_zero (h : entryOrder entry = 0) : namePos entry = 2 ^ 32 - 13 := by
  rw [namePos, h]
  norm_num

/-- The indices of an entry fit in 32 bits. -/
theorem namePos_add_le (entry : Mem) : namePos entry + 13 ≤ 2 ^ 32 := by
  have hlt := entryOrder_lt entry
  by_cases h : entryOrder entry = 0
  · rw [namePos_zero h]
    omega
  · rw [namePos_eq h]
    omega

/-! ## Staying inside the buffer -/

def isLong (entry : Mem) : Bool := entryKind entry = .longName

/-- The unbroken run of long-name entries at the end. -/
def lastRun (es : List Mem) : List Mem := es.rtakeWhile isLong

def highestOrder (es : List Mem) : ℕ := (es.map entryOrder).foldl max 0

/-- An entry after `before` stores below index 260: one with characters has an
order number from 1 to 20, and the run before a short entry has none above
19, since the terminator goes behind its highest entry. -/
def EntryFits (before : List Mem) (entry : Mem) : Prop :=
  (entryKind entry = .longName →
    nameChars entry = [] ∨ 1 ≤ entryOrder entry ∧ entryOrder entry ≤ 20) ∧
  (entryKind entry = .short → ∀ r ∈ lastRun before, entryOrder r < 20)

def LongNamesFit (es : List Mem) : Prop :=
  ∀ before entry, before ++ [entry] <+: es → EntryFits before entry

theorem longNamesFit_concat (es : List Mem) (entry : Mem) :
    LongNamesFit (es ++ [entry]) ↔ LongNamesFit es ∧ EntryFits es entry := by
  constructor
  · intro h
    refine ⟨fun before e he ↦ h before e (he.trans (List.prefix_append es [entry])), ?_⟩
    exact h es entry (List.prefix_refl _)
  · rintro ⟨hes, hentry⟩ before e he
    rcases List.prefix_concat_iff.mp he with heq | he
    · obtain ⟨rfl, hlast⟩ := List.append_inj' heq rfl
      obtain rfl := List.singleton_inj.mp hlast
      exact hentry
    · exact hes before e he

theorem highestOrder_concat (es : List Mem) (entry : Mem) :
    highestOrder (es ++ [entry]) = max (highestOrder es) (entryOrder entry) := by
  rw [highestOrder, List.map_append, List.map_singleton, List.foldl_concat, highestOrder]

theorem highestOrder_lt_iff (es : List Mem) {n : ℕ} (hn : 0 < n) :
    highestOrder es < n ↔ ∀ r ∈ es, entryOrder r < n := by
  induction es using List.reverseRecOn with
  | nil => simpa [highestOrder] using hn
  | append_singleton es entry ih =>
      rw [highestOrder_concat, max_lt_iff, ih, List.forall_mem_append, List.forall_mem_singleton]

theorem lastRun_concat (es : List Mem) (entry : Mem) :
    lastRun (es ++ [entry]) =
      if entryKind entry = .longName then lastRun es ++ [entry] else [] := by
  rw [lastRun, List.rtakeWhile_concat]
  simp [isLong, lastRun]

/-- `lfn_count` is the highest order number of the run. -/
theorem listing_count (frame : Mem) (es : List Mem) :
    (listing frame es).lfn.count = highestOrder (lastRun es) := by
  induction es using List.reverseRecOn with
  | nil => rfl
  | append_singleton es entry ih =>
      rw [listing_concat, listEntry, lastRun_concat]
      cases entryKind entry with
      | longName => rw [if_pos rfl, highestOrder_concat, longNameEntry_eq, ← ih]
      | deleted => rfl
      | label => rfl
      | short =>
          simp only [shortEntry]
          split <;> rfl

theorem chars_bounded_iff (entry : Mem) :
    (∀ i < (nameChars entry).length, (namePos entry + 0 + i) % 2 ^ 32 < 260) ↔
      nameChars entry = [] ∨ 1 ≤ entryOrder entry ∧ entryOrder entry ≤ 20 := by
  have hle := nameChars_length_le entry
  have hfits := namePos_add_le entry
  constructor
  · intro h
    by_cases hempty : nameChars entry = []
    · exact Or.inl hempty
    right
    have hfirst := h 0 (List.length_pos_iff.mpr hempty)
    by_cases hzero : entryOrder entry = 0
    · rw [namePos_zero hzero] at hfirst
      norm_num at hfirst
    · rw [namePos_eq hzero, Nat.mod_eq_of_lt (by rw [namePos_eq hzero] at hfits; omega)] at hfirst
      omega
  · rintro (hempty | ⟨hlow, hhigh⟩) i hi
    · simp [hempty] at hi
    · rw [namePos_eq (by omega)] at hfits ⊢
      rw [Nat.mod_eq_of_lt (by omega)]
      omega

/-- What one more entry adds to the stores. -/
theorem listEntry_bounded_iff (frame : Mem) (es : List Mem) (entry : Mem) :
    (∀ j ∈ (listEntry (listing frame es) entry).lfn.stores, j < 260) ↔
      (∀ j ∈ (listing frame es).lfn.stores, j < 260) ∧ EntryFits es entry := by
  have hcount : (listing frame es).lfn.count < 20 ↔ ∀ r ∈ lastRun es, entryOrder r < 20 := by
    rw [listing_count, highestOrder_lt_iff _ (by decide)]
  rw [listEntry, EntryFits]
  cases hkind : entryKind entry with
  | deleted => simp
  | label => simp
  | longName =>
      simp only [longNameEntry_eq, storeAll_stores, or_imp, forall_and, forall_const,
        reduceCtorEq, false_imp_iff, and_true, ← chars_bounded_iff]
      refine and_congr_right fun _ ↦ ?_
      constructor
      · intro h i hi
        exact h _ ⟨i, hi, rfl⟩
      · rintro h _ ⟨i, hi, rfl⟩
        exact h i hi
  | short =>
      simp only [reduceCtorEq, false_imp_iff, forall_const, true_and, ← hcount, shortEntry]
      split
      · simp only [LongName.store, LongName.clear, List.forall_mem_cons]
        rw [and_comm]
        exact and_congr_right fun _ ↦ by omega
      · simp only [LongName.clear]
        exact (and_iff_left (by omega)).symm

theorem listing_bounded_iff (frame : Mem) (es : List Mem) :
    (∀ j ∈ (listing frame es).lfn.stores, j < 260) ↔ LongNamesFit es := by
  induction es using List.reverseRecOn with
  | nil => simp [listing, Listing.init, LongName.clear, LongNamesFit]
  | append_singleton es entry ih =>
      rw [listing_concat, listEntry_bounded_iff, longNamesFit_concat, ih]

/-- Every store into the buffer stays inside it exactly when no order number
that the listing meets is too high. -/
theorem fat32ListRootFiles_bounded_iff (drive : Drive) (bpb : Bpb) (io : IoState) (frame : Mem) :
    (∀ j ∈ (fat32ListRootFiles drive bpb io frame).2.lfn.stores, j < 260) ↔
      LongNamesFit (visitedEntries drive bpb io) := by
  rw [fat32ListRootFiles_eq, listing_bounded_iff]

/-- A directory with a long-name entry of order 20, the highest that the
format allows, and the short entry it belongs to. -/
def longestName : IoState where
  sectors := fun s ↦
    if s = 2148 then fun i ↦
      if i = 0 then 0x54 else if i = 11 then 0x0F else if i < 32 then 0x41
      else if i = 32 then 65 else if i < 64 then 0x20 else 0
    else fun _ ↦ 0
  commands := 0
  written := []
  serial := []

theorem longestName_stores_outside :
    260 ∈ (fat32ListRootFiles faultless sampleBpb longestName fun _ ↦ 0).2.lfn.stores := by
  decide +kernel

end ImplusKernel.Fat32
