import ImplusKernel.Lib.Words

/-!
# Four-level page walks

How an x86-64 processor translates a virtual address: four tables of 512
entries of eight bytes, where an entry of the middle two levels may map a
large page instead of pointing to the next table.  Level 3 is the PML4 table,
level 2 the page directory pointer table, level 1 the page directory.
-/

namespace ImplusKernel.PageWalk

open Words

/-- The number of address bits below the index of a level. -/
def shift (level : ℕ) : ℕ := 12 + 9 * level

def index (va level : ℕ) : ℕ := va / 2 ^ shift level % 512

def present (entry : ℕ) : Bool := entry.testBit 0

def large (entry : ℕ) : Bool := entry.testBit 7

/-- Bits `k` to 51 of an entry, in place. -/
def frame (entry k : ℕ) : ℕ := entry / 2 ^ k % 2 ^ (52 - k) * 2 ^ k

/-- The walk from a table at the given level, reading entries through
`word`. -/
def walk (word : ℕ → ℕ) : ℕ → ℕ → ℕ → Option ℕ
  | 0, table, va =>
      let entry := word (table + 8 * index va 0)
      if present entry then some (frame entry 12 + va % 2 ^ 12) else none
  | level + 1, table, va =>
      let entry := word (table + 8 * index va (level + 1))
      if present entry = false then none
      else if large entry ∧ level < 2 then
        some (frame entry (shift (level + 1)) + va % 2 ^ shift (level + 1))
      else walk word level (frame entry 12) va

/-- The translation by the tables that `cr3` points to. -/
def translate (word : ℕ → ℕ) (cr3 va : ℕ) : Option ℕ :=
  walk word 3 (frame cr3 12) va

/-- The entries that the walk reads, from the root on. -/
def walkPath (word : ℕ → ℕ) : ℕ → ℕ → ℕ → List ℕ
  | 0, table, va => [word (table + 8 * index va 0)]
  | level + 1, table, va =>
      let entry := word (table + 8 * index va (level + 1))
      if present entry = false then [entry]
      else if large entry ∧ level < 2 then [entry]
      else entry :: walkPath word level (frame entry 12) va

/-- The entry points to a table at `addr`. -/
structure PointsTo (entry addr : ℕ) : Prop where
  present : present entry = true
  small : large entry = false
  frame_eq : frame entry 12 = addr

/-- The entry maps the 2 MiB page at `addr`. -/
structure MapsLarge (entry addr : ℕ) : Prop where
  present : present entry = true
  large : large entry = true
  frame_eq : frame entry 21 = addr

theorem walk_pointsTo {word : ℕ → ℕ} {level table va next : ℕ}
    (h : PointsTo (word (table + 8 * index va (level + 1))) next) :
    walk word (level + 1) table va = walk word level next va := by
  simp [walk, h.present, h.small, h.frame_eq]

theorem walk_mapsLarge {word : ℕ → ℕ} {table va page : ℕ}
    (h : MapsLarge (word (table + 8 * index va 1)) page) :
    walk word 1 table va = some (page + va % 2 ^ 21) := by
  simp [walk, h.present, h.large, shift, h.frame_eq]

theorem walk_absent {word : ℕ → ℕ} {level table va : ℕ}
    (h : present (word (table + 8 * index va (level + 1))) = false) :
    walk word (level + 1) table va = none := by
  simp [walk, h]

theorem walkPath_pointsTo {word : ℕ → ℕ} {level table va next : ℕ}
    (h : PointsTo (word (table + 8 * index va (level + 1))) next) :
    walkPath word (level + 1) table va =
      word (table + 8 * index va (level + 1)) :: walkPath word level next va := by
  simp [walkPath, h.present, h.small, h.frame_eq]

theorem walkPath_mapsLarge {word : ℕ → ℕ} {table va page : ℕ}
    (h : MapsLarge (word (table + 8 * index va 1)) page) :
    walkPath word 1 table va = [word (table + 8 * index va 1)] := by
  simp [walkPath, h.present, h.large]

/-- A walk through three tables that ends at a 2 MiB page. -/
theorem translate_large {word : ℕ → ℕ} {cr3 pml4 pdpt pd page va : ℕ} (hcr3 : frame cr3 12 = pml4)
    (h₃ : PointsTo (word (pml4 + 8 * index va 3)) pdpt)
    (h₂ : PointsTo (word (pdpt + 8 * index va 2)) pd)
    (h₁ : MapsLarge (word (pd + 8 * index va 1)) page) :
    translate word cr3 va = some (page + va % 2 ^ 21) := by
  rw [translate, hcr3, walk_pointsTo h₃, walk_pointsTo h₂, walk_mapsLarge h₁]

theorem frame_lor {addr flags k : ℕ} (halign : 2 ^ k ∣ addr) (hflags : flags < 2 ^ k)
    (hk : k ≤ 52) (haddr : addr < 2 ^ 52) : frame (addr ||| flags) k = addr := by
  obtain ⟨q, rfl⟩ := halign
  have hq : q < 2 ^ (52 - k) := by
    have hpow : 2 ^ 52 = 2 ^ k * 2 ^ (52 - k) := by rw [← pow_add, Nat.add_sub_cancel' hk]
    rw [hpow] at haddr
    exact Nat.lt_of_mul_lt_mul_left haddr
  rw [frame, lor_eq_add (Nat.dvd_mul_right _ q) hflags,
    Nat.mul_add_div (Nat.two_pow_pos k), Nat.div_eq_of_lt hflags, add_zero,
    Nat.mod_eq_of_lt hq, Nat.mul_comm]

end ImplusKernel.PageWalk
