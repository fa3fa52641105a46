import ImplusKernel.Syscall.Dispatch
import Mathlib.Data.List.DropRight

/-!
# Paths and directory names

`path_to_fat83` turns a path into the eleven bytes of a directory entry.  Here
the loop runs over the characters of the path and stores into an array whose
surroundings are modelled too.  It accepts a grammar of two fields, and two
paths get the same bytes when their fields differ in case and trailing spaces
only.
-/

namespace ImplusKernel.Syscall

open ByteMemory

/-- The loop over the characters; `none` is `return false`. -/
def scanPath : List UInt8 → ℕ → ℕ → Bool → Mem → Option ℕ × Mem
  | [], nameLen, _, _, out => (some nameLen, out)
  | c :: rest, nameLen, extLen, inExt, out =>
      if c = 46 then
        if inExt then (none, out) else scanPath rest nameLen extLen true out
      else if inExt = false then
        if 8 ≤ nameLen then (none, out)
        else scanPath rest (nameLen + 1) extLen inExt
          (Function.update out nameLen (toUpperAscii c))
      else if 3 ≤ extLen then (none, out)
      else scanPath rest nameLen (extLen + 1) inExt
        (Function.update out (8 + extLen) (toUpperAscii c))

def blankName (out : Mem) : Mem := Function.update (memset out 0 32 11) 11 0

/-- `path_to_fat83` on the characters of a path and an array `out_name` with
the memory around it. -/
def pathToFat83Stores (path : List UInt8) (out : Mem) : Bool × Mem :=
  match scanPath path 0 0 false (blankName out) with
  | (none, out) => (false, out)
  | (some nameLen, out) => (0 < nameLen, out)

/-- The path is a base of one to eight characters, which may be followed by a
dot and an extension of at most three; there is no other dot. -/
structure Fat83 (path base ext : List UInt8) : Prop where
  parts : path = base ∧ ext = [] ∨ path = base ++ 46 :: ext
  base_pos : 0 < base.length
  base_le : base.length ≤ 8
  ext_le : ext.length ≤ 3
  base_dot : 46 ∉ base
  ext_dot : 46 ∉ ext

def nameField (width : ℕ) (s : List UInt8) : List UInt8 := (s.map toUpperAscii).rightpad width 32

/-- Equal but for case and spaces at the end. -/
def SameField (s t : List UInt8) : Prop :=
  (s.map toUpperAscii).rdropWhile (· = 32) = (t.map toUpperAscii).rdropWhile (· = 32)

/-! ## Padded fields -/

section Padding

variable {α : Type*} [DecidableEq α] {x : α} {l l' : List α} {n : ℕ}

theorem rdropWhile_append_replicate (x : α) (l : List α) (k : ℕ) :
    (l ++ List.replicate k x).rdropWhile (· = x) = l.rdropWhile (· = x) := by
  induction k with
  | zero => rw [List.replicate_zero, List.append_nil]
  | succ k ih =>
      rw [List.replicate_succ', ← List.append_assoc, List.rdropWhile_concat_pos _ _ _ (by simp), ih]

theorem rdropWhile_append_padding (x : α) (l : List α) :
    l.rdropWhile (· = x) ++ List.replicate (l.length - (l.rdropWhile (· = x)).length) x = l := by
  have hsplit : l.rdropWhile (· = x) ++ l.rtakeWhile (· = x) = l :=
    List.rdropWhile_append_rtakeWhile
  have htail : l.rtakeWhile (· = x) = List.replicate (l.rtakeWhile (· = x)).length x := by
    rw [List.eq_replicate_iff]
    exact ⟨rfl, fun y hy ↦ by simpa using List.mem_rtakeWhile_imp hy⟩
  have hlength := congrArg List.length hsplit
  rw [List.length_append] at hlength
  have hcount : l.length - (l.rdropWhile (· = x)).length = (l.rtakeWhile (· = x)).length := by
    omega
  rw [hcount, ← htail, hsplit]

theorem rightpad_eq_iff (hl : l.length ≤ n) (hl' : l'.length ≤ n) :
    l.rightpad n x = l'.rightpad n x ↔ l.rdropWhile (· = x) = l'.rdropWhile (· = x) := by
  have hstrip : ∀ k : List α, (k.rightpad n x).rdropWhile (· = x) = k.rdropWhile (· = x) :=
    fun k ↦ rdropWhile_append_replicate x k _
  constructor
  · intro h
    rw [← hstrip l, ← hstrip l', h]
  · intro h
    have hpad := rdropWhile_append_padding x (l.rightpad n x)
    have hpad' := rdropWhile_append_padding x (l'.rightpad n x)
    rw [hstrip, List.length_rightpad, max_eq_left hl] at hpad
    rw [hstrip, List.length_rightpad, max_eq_left hl'] at hpad'
    rw [← hpad, ← hpad', h]

end Padding

/-! ## The loop -/

variable {s rest base ext path : List UInt8} {out : Mem} {nameLen extLen : ℕ}

/-- Characters of the base, as long as there is room for them. -/
theorem scanPath_base (hdot : 46 ∉ s) (hlen : nameLen + s.length ≤ 8) :
    scanPath (s ++ rest) nameLen extLen false out =
      scanPath rest (nameLen + s.length) extLen false
        (storeBytes out nameLen (s.map toUpperAscii)) := by
  induction s generalizing nameLen out with
  | nil => rfl
  | cons c s ih =>
      rw [List.mem_cons, not_or] at hdot
      rw [List.length_cons] at hlen
      have hroom : ¬8 ≤ nameLen := by omega
      have hmod : nameLen % 2 ^ 64 = nameLen := Nat.mod_eq_of_lt (by omega)
      rw [List.cons_append, scanPath, if_neg (Ne.symm hdot.1), if_pos rfl, if_neg hroom,
        ih hdot.2 (by omega), List.map_cons, storeBytes, hmod, List.length_cons,
        Nat.add_right_comm, Nat.add_assoc]

theorem scanPath_base_long (hdot : 46 ∉ s) (hle : nameLen ≤ 8) (hlen : 8 < nameLen + s.length) :
    (scanPath (s ++ rest) nameLen extLen false out).1 = none := by
  induction s generalizing nameLen out with
  | nil =>
      rw [List.length_nil] at hlen
      omega
  | cons c s ih =>
      rw [List.mem_cons, not_or] at hdot
      rw [List.length_cons] at hlen
      rw [List.cons_append, scanPath, if_neg (Ne.symm hdot.1), if_pos rfl]
      by_cases hroom : 8 ≤ nameLen
      · rw [if_pos hroom]
      · rw [if_neg hroom]
        exact ih hdot.2 (by omega) (by omega)

theorem scanPath_ext (hdot : 46 ∉ s) (hlen : extLen + s.length ≤ 3) :
    scanPath s nameLen extLen true out =
      (some nameLen, storeBytes out (8 + extLen) (s.map toUpperAscii)) := by
  induction s generalizing extLen out with
  | nil => rfl
  | cons c s ih =>
      rw [List.mem_cons, not_or] at hdot
      rw [List.length_cons] at hlen
      have hroom : ¬3 ≤ extLen := by omega
      have hmod : (8 + extLen) % 2 ^ 64 = 8 + extLen := Nat.mod_eq_of_lt (by omega)
      rw [scanPath, if_neg (Ne.symm hdot.1), if_neg (by decide), if_neg hroom,
        ih hdot.2 (by omega), List.map_cons, storeBytes, hmod, Nat.add_assoc]

theorem scanPath_ext_some {n : ℕ} (hle : extLen ≤ 3)
    (h : (scanPath s nameLen extLen true out).1 = some n) :
    46 ∉ s ∧ extLen + s.length ≤ 3 := by
  induction s generalizing extLen out with
  | nil => exact ⟨List.not_mem_nil, hle⟩
  | cons c s ih =>
      rw [scanPath] at h
      by_cases hc : c = 46
      · rw [if_pos hc, if_pos rfl] at h
        cases h
      rw [if_neg hc, if_neg (by decide)] at h
      by_cases hroom : 3 ≤ extLen
      · rw [if_pos hroom] at h
        cases h
      rw [if_neg hroom] at h
      obtain ⟨hdot, hlen⟩ := ih (by omega) h
      rw [List.mem_cons, not_or, List.length_cons]
      refine ⟨⟨Ne.symm hc, hdot⟩, ?_⟩
      omega

/-- Stores are at indices below eleven. -/
theorem scanPath_outside {inExt : Bool} {i : ℕ} (hi : 11 ≤ i) :
    (scanPath s nameLen extLen inExt out).2 i = out i := by
  induction s generalizing nameLen extLen inExt out with
  | nil => rfl
  | cons c s ih =>
      rw [scanPath]
      split_ifs
      · rfl
      · exact ih
      · rfl
      · rw [ih, Function.update_of_ne (by omega)]
      · rfl
      · rw [ih, Function.update_of_ne (by omega)]

/-! ## Accepted paths -/

theorem Fat83.scanPath_eq (h : Fat83 path base ext) (out : Mem) :
    scanPath path 0 0 false out =
      (some base.length,
        storeBytes (storeBytes out 0 (base.map toUpperAscii)) 8 (ext.map toUpperAscii)) := by
  have hbase : 0 + base.length ≤ 8 := by
    rw [Nat.zero_add]
    exact h.base_le
  rcases h.parts with ⟨rfl, rfl⟩ | rfl
  · rw [← List.append_nil path, scanPath_base h.base_dot hbase, Nat.zero_add, List.append_nil]
    rfl
  · rw [scanPath_base h.base_dot hbase, scanPath, if_pos rfl, if_neg (by decide),
      scanPath_ext h.ext_dot (by rw [Nat.zero_add]; exact h.ext_le), Nat.zero_add]

theorem fat83_of_accepted (h : (pathToFat83Stores path out).1 = true) :
    ∃ base ext, Fat83 path base ext := by
  obtain ⟨base, tail, rfl, hdot, htail⟩ : ∃ base tail, path = base ++ tail ∧ 46 ∉ base ∧
      (tail = [] ∨ ∃ ext, tail = 46 :: ext) := by
    by_cases hmem : 46 ∈ path
    · obtain ⟨base, ext, heq, hdot⟩ := List.eq_append_cons_of_mem hmem
      exact ⟨base, 46 :: ext, heq, hdot, Or.inr ⟨ext, rfl⟩⟩
    · exact ⟨path, [], (List.append_nil _).symm, hmem, Or.inl rfl⟩
  rw [pathToFat83Stores] at h
  have hlen : 0 + base.length ≤ 8 := by
    by_contra hlong
    have hnone : (scanPath (base ++ tail) 0 0 false (blankName out)).1 = none :=
      scanPath_base_long hdot (Nat.zero_le 8) (not_le.mp hlong)
    generalize scanPath (base ++ tail) 0 0 false (blankName out) = r at h hnone
    obtain ⟨n, out'⟩ := r
    obtain rfl : n = none := hnone
    cases h
  rw [scanPath_base hdot hlen, Nat.zero_add] at h
  rw [Nat.zero_add] at hlen
  rcases htail with rfl | ⟨ext, rfl⟩
  · rw [scanPath] at h
    exact ⟨base, [], Or.inl ⟨List.append_nil _, rfl⟩, of_decide_eq_true h, hlen, Nat.zero_le _,
      hdot, List.not_mem_nil⟩
  · rw [scanPath, if_pos rfl, if_neg (by decide)] at h
    cases hext : scanPath ext base.length 0 true
        (storeBytes (blankName out) 0 (base.map toUpperAscii)) with
    | mk n out' =>
        cases n with
        | none =>
            rw [hext] at h
            cases h
        | some n =>
            obtain ⟨hextdot, hextlen⟩ := scanPath_ext_some (Nat.zero_le 3) (congrArg Prod.fst hext)
            rw [scanPath_ext hextdot hextlen] at h
            exact ⟨base, ext, Or.inr rfl, of_decide_eq_true h, hlen,
              by rwa [Nat.zero_add] at hextlen, hdot, hextdot⟩

/-! ## The array -/

theorem blankName_of_lt (out : Mem) {i : ℕ} (hi : i < 11) : blankName out i = 32 := by
  rw [blankName, Function.update_of_ne (by omega)]
  exact memset_inside _ _ (by omega) (Nat.zero_le _) (by omega)

theorem blankName_of_ge (out : Mem) {i : ℕ} (hi : 12 ≤ i) : blankName out i = out i := by
  rw [blankName, Function.update_of_ne (by omega)]
  exact memset_outside _ _ (by omega) (Or.inr (by omega))

theorem pathToFat83Stores_snd (path : List UInt8) (out : Mem) :
    (pathToFat83Stores path out).2 = (scanPath path 0 0 false (blankName out)).2 := by
  rw [pathToFat83Stores]
  split <;> simp_all

theorem map_storeBytes {m : Mem} {start width : ℕ} (hfit : start + width ≤ 2 ^ 64)
    (hlen : s.length ≤ width) (hblank : ∀ i < width, m (start + i) = 32) :
    (List.range width).map (fun i ↦ storeBytes m start s (start + i)) = s.rightpad width 32 := by
  change _ = s ++ List.replicate (width - s.length) 32
  apply List.ext_getElem
  · rw [List.length_map, List.length_range, List.length_append, List.length_replicate]
    omega
  intro i hi _
  rw [List.length_map, List.length_range] at hi
  rw [List.getElem_map, List.getElem_range]
  rcases lt_or_ge i s.length with hlt | hge
  · rw [storeBytes_inside m (by omega) hlt, List.getElem_append_left hlt]
  · rw [storeBytes_outside m (by omega) (Or.inr (by omega)), hblank i hi,
      List.getElem_append_right hge, List.getElem_replicate]

theorem Fat83.accepted (h : Fat83 path base ext) (out : Mem) :
    (pathToFat83Stores path out).1 = true := by
  rw [pathToFat83Stores, h.scanPath_eq]
  exact decide_eq_true h.base_pos

theorem Fat83.bytes (h : Fat83 path base ext) (out : Mem) :
    (List.range 11).map (pathToFat83Stores path out).2 = nameField 8 base ++ nameField 3 ext := by
  have hbase : (base.map toUpperAscii).length ≤ 8 := by
    rw [List.length_map]
    exact h.base_le
  have hext : (ext.map toUpperAscii).length ≤ 3 := by
    rw [List.length_map]
    exact h.ext_le
  rw [pathToFat83Stores_snd, h.scanPath_eq]
  rw [show (11 : ℕ) = 8 + 3 from rfl, List.range_add, List.map_append, List.map_map]
  congr 1
  · rw [nameField, ← map_storeBytes (m := blankName out) (by omega : 0 + 8 ≤ 2 ^ 64) hbase
      fun i hi ↦ blankName_of_lt out (by omega)]
    apply List.map_congr_left
    intro i hi
    rw [List.mem_range] at hi
    rw [Nat.zero_add]
    exact storeBytes_outside _ (by omega) (Or.inl hi)
  · refine map_storeBytes (by omega) hext fun i hi ↦ ?_
    rw [storeBytes_outside _ (by omega) (Or.inr (by omega))]
    exact blankName_of_lt out (by omega)

theorem Fat83.sameName_iff {path' base' ext' : List UInt8} (h : Fat83 path base ext)
    (h' : Fat83 path' base' ext') (out out' : Mem) :
    (List.range 11).map (pathToFat83Stores path out).2 =
        (List.range 11).map (pathToFat83Stores path' out').2 ↔
      SameField base base' ∧ SameField ext ext' := by
  have hlen : (nameField 8 base).length = (nameField 8 base').length := by
    rw [nameField, nameField, List.length_rightpad, List.length_rightpad, List.length_map,
      List.length_map, max_eq_left h.base_le, max_eq_left h'.base_le]
  have hiff (width : ℕ) {s t : List UInt8} (hs : s.length ≤ width) (ht : t.length ≤ width) :
      nameField width s = nameField width t ↔ SameField s t :=
    rightpad_eq_iff (by rwa [List.length_map]) (by rwa [List.length_map])
  rw [h.bytes, h'.bytes, ← hiff 8 h.base_le h'.base_le, ← hiff 3 h.ext_le h'.ext_le]
  constructor
  · exact fun heq ↦ List.append_inj heq hlen
  · rintro ⟨hbase, hext⟩
    rw [hbase, hext]

/-! ## Paths in memory -/

theorem map_range_set (out : Mem) (c : UInt8) (k : ℕ) :
    ((List.range 11).map out).set k c = (List.range 11).map (Function.update out k c) := by
  apply List.ext_getElem
  · simp
  intro i hi _
  rw [List.getElem_set, List.getElem_map, List.getElem_map, List.getElem_range]
  by_cases hik : k = i
  · rw [if_pos hik, hik, Function.update_self]
  · rw [if_neg hik, Function.update_of_ne (Ne.symm hik)]

theorem cString_cases {mem : Mem} {n p : ℕ} (h : cString mem n p = some path) :
    mem (p % 2 ^ 64) = 0 ∧ path = [] ∨
      ∃ k rest, mem (p % 2 ^ 64) ≠ 0 ∧ cString mem k (p + 1) = some rest ∧
        path = mem (p % 2 ^ 64) :: rest := by
  cases n with
  | zero => cases h
  | succ n =>
      rw [cString] at h
      by_cases hc : mem (p % 2 ^ 64) = 0
      · rw [if_pos hc] at h
        exact Or.inl ⟨hc, (Option.some.inj h).symm⟩
      · rw [if_neg hc, Option.map_eq_some_iff] at h
        obtain ⟨rest, hrest, heq⟩ := h
        exact Or.inr ⟨n, rest, hc, hrest, heq.symm⟩

/-- The loop on memory stops within its bound, whatever the path. -/
theorem pathLoop_eq {mem : Mem} {n fuel p : ℕ} {inExt : Bool} (hpath : cString mem n p = some path)
    (hname : nameLen ≤ 8) (hext : extLen ≤ 3)
    (hfuel : 12 + (if inExt then 0 else 1) ≤ fuel + nameLen + extLen) :
    pathLoop mem fuel p nameLen extLen inExt ((List.range 11).map out) =
      (scanPath path nameLen extLen inExt out).1.map fun k ↦
        (k, (List.range 11).map (scanPath path nameLen extLen inExt out).2) := by
  induction path generalizing n fuel p nameLen extLen inExt out with
  | nil =>
      obtain ⟨fuel, rfl⟩ : ∃ k, fuel = k + 1 := Nat.exists_eq_add_one.mpr (by omega)
      rcases cString_cases hpath with ⟨hc, -⟩ | ⟨k, rest, -, -, heq⟩
      · rw [pathLoop, if_pos hc]
        rfl
      · cases heq
  | cons c rest ih =>
      obtain ⟨fuel, rfl⟩ : ∃ k, fuel = k + 1 := Nat.exists_eq_add_one.mpr (by omega)
      rcases cString_cases hpath with ⟨-, heq⟩ | ⟨k, rest', hc, hrest, heq⟩
      · cases heq
      obtain ⟨rfl, rfl⟩ := List.cons.inj heq
      rw [pathLoop, if_neg hc, scanPath]
      cases inExt with
      | true =>
          by_cases hdot : mem (p % 2 ^ 64) = 46
          · rw [if_pos hdot, if_pos rfl, if_pos hdot, if_pos rfl]
            rfl
          · have hmode : ¬true = false := by decide
            rw [if_neg hdot, if_neg hmode, if_neg hdot, if_neg hmode]
            by_cases hroom : 3 ≤ extLen
            · rw [if_pos hroom, if_pos hroom]
              rfl
            · rw [if_neg hroom, if_neg hroom, map_range_set]
              exact ih hrest hname (by omega) (by omega)
      | false =>
          by_cases hdot : mem (p % 2 ^ 64) = 46
          · rw [if_pos hdot, if_neg (by decide), if_pos hdot, if_neg (by decide)]
            exact ih hrest hname hext (by simp at hfuel ⊢; omega)
          · rw [if_neg hdot, if_pos rfl, if_neg hdot, if_pos rfl]
            by_cases hroom : 8 ≤ nameLen
            · rw [if_pos hroom, if_pos hroom]
              rfl
            · rw [if_neg hroom, if_neg hroom, map_range_set]
              exact ih hrest (by omega) hext (by omega)

theorem pathToFat83_eq {mem : Mem} {n p : ℕ} (hp : p ≠ 0) (hpath : cString mem n p = some path)
    (out : Mem) :
    pathToFat83 mem p =
      if (pathToFat83Stores path out).1 then
        some ((List.range 11).map (pathToFat83Stores path out).2)
      else none := by
  have hblank : List.replicate 11 32 = (List.range 11).map (blankName out) := by
    rw [eq_comm, List.eq_replicate_iff]
    refine ⟨by simp, fun b hb ↦ ?_⟩
    obtain ⟨i, hi, rfl⟩ := List.mem_map.mp hb
    exact blankName_of_lt out (List.mem_range.mp hi)
  rw [pathToFat83, if_neg hp, hblank,
    pathLoop_eq hpath (Nat.zero_le _) (Nat.zero_le _) (by simp), pathToFat83Stores]
  rcases scanPath path 0 0 false (blankName out) with ⟨_ | k, out'⟩
  · rfl
  · rw [Option.map_some]
    simp only [decide_eq_true_eq]

/-- For every path in memory: which ones are accepted, what is stored then and
which of them get the same bytes. -/
theorem pathToFat83_grammar {mem : Mem} {n p : ℕ} (hp : p ≠ 0)
    (hpath : cString mem n p = some path) (out : Mem) :
    pathToFat83 mem p =
        (if (pathToFat83Stores path out).1 then
          some ((List.range 11).map (pathToFat83Stores path out).2)
        else none) ∧
      ((pathToFat83Stores path out).1 = true ↔ ∃ base ext, Fat83 path base ext) ∧
      (∀ i, 12 ≤ i → (pathToFat83Stores path out).2 i = out i) ∧
      ∀ base ext, Fat83 path base ext →
        (List.range 12).map (pathToFat83Stores path out).2 =
            nameField 8 base ++ nameField 3 ext ++ [0] ∧
          ∀ path' base' ext' out', Fat83 path' base' ext' →
            ((List.range 11).map (pathToFat83Stores path out).2 =
                (List.range 11).map (pathToFat83Stores path' out').2 ↔
              SameField base base' ∧ SameField ext ext') := by
  refine ⟨pathToFat83_eq hp hpath out, ⟨fat83_of_accepted, ?_⟩, ?_, ?_⟩
  · rintro ⟨base, ext, h⟩
    exact h.accepted out
  · intro i hi
    rw [pathToFat83Stores_snd, scanPath_outside (by omega), blankName_of_ge out hi]
  · intro base ext h
    refine ⟨?_, fun _ _ _ out' h' ↦ h.sameName_iff h' out out'⟩
    have hlast : (pathToFat83Stores path out).2 11 = 0 := by
      rw [pathToFat83Stores_snd, scanPath_outside le_rfl, blankName, Function.update_self]
    rw [List.range_succ, List.map_append, h.bytes, List.map_singleton, hlast]

/-- The path `a.b` at address `0x2000`. -/
theorem pathToFat83_grammar_short :
    (pathToFat83Stores [97, 46, 98] fun _ ↦ 7).1 = true ∧
      (List.range 13).map (pathToFat83Stores [97, 46, 98] fun _ ↦ 7).2 =
        [65, 32, 32, 32, 32, 32, 32, 32, 66, 32, 32, 0, 7] := by
  have hpath : cString (storeBytes (fun _ ↦ 0) 0x2000 [97, 46, 98]) 4 0x2000 =
      some [97, 46, 98] := rfl
  have h := pathToFat83_grammar (by decide) hpath fun _ ↦ 7
  have hname : Fat83 [97, 46, 98] [97] [98] :=
    ⟨Or.inr rfl, by decide, by decide, by decide, by decide, by decide⟩
  refine ⟨h.2.1.mpr ⟨_, _, hname⟩, ?_⟩
  rw [List.range_succ, List.map_append, (h.2.2.2 _ _ hname).1, List.map_singleton,
    h.2.2.1 12 le_rfl]
  rfl

end ImplusKernel.Syscall
