import ImplusKernel.Lib.ByteMemory

/-!
# Fields of a packed structure

A structure in memory is filled field by field.  As long as the fields lie
apart from each other, each can be read back, and nothing else changes.
-/

namespace ImplusKernel.Fields

open ByteMemory

/-- A field: its offset, its number of bytes, and the value to be stored. -/
abbrev Field := ℕ × ℕ × ℕ

def storeFields (m : Mem) (a : ℕ) (fields : List Field) : Mem :=
  fields.foldl (fun m f ↦ writeLE m (a + f.1) f.2.1 f.2.2) m

/-- The bytes `offset ≤ j < offset + size` of the structure share nothing with
the field. -/
def Apart (offset size : ℕ) (f : Field) : Prop := offset + size ≤ f.1 ∨ f.1 + f.2.1 ≤ offset

variable {m : Mem} {a offset size x : ℕ} {fields : List Field}

@[simp] theorem storeFields_nil (m : Mem) (a : ℕ) : storeFields m a [] = m := rfl

theorem storeFields_cons (m : Mem) (a : ℕ) (f : Field) (fields : List Field) :
    storeFields m a (f :: fields) = storeFields (writeLE m (a + f.1) f.2.1 f.2.2) a fields := rfl

theorem storeFields_append (m : Mem) (a : ℕ) (fields fields' : List Field) :
    storeFields m a (fields ++ fields') = storeFields (storeFields m a fields) a fields' :=
  List.foldl_append

/-- Fields that end at `size` change nothing outside the structure. -/
theorem storeFields_outside (h : ∀ f ∈ fields, f.1 + f.2.1 ≤ size) (hx : x < a ∨ a + size ≤ x) :
    storeFields m a fields x = m x := by
  induction fields generalizing m with
  | nil => rfl
  | cons f fields ih =>
      have hf := h f (List.mem_cons_self ..)
      rw [storeFields_cons, ih fun f' hf' ↦ h f' (List.mem_cons_of_mem f hf')]
      exact writeLE_outside m (by omega)

theorem readLE_storeFields_apart (h : ∀ f ∈ fields, Apart offset size f) :
    readLE (storeFields m a fields) (a + offset) size = readLE m (a + offset) size := by
  induction fields generalizing m with
  | nil => rfl
  | cons f fields ih =>
      have hf := h f (List.mem_cons_self ..)
      rw [storeFields_cons, ih fun f' hf' ↦ h f' (List.mem_cons_of_mem f hf')]
      rw [Apart] at hf
      exact readLE_writeLE_disjoint m (by omega)

/-- A field that no later one overlaps is read back. -/
theorem readLE_storeFields {f : Field} {before after : List Field}
    (h : ∀ f' ∈ after, Apart f.1 f.2.1 f') :
    readLE (storeFields m a (before ++ f :: after)) (a + f.1) f.2.1 = f.2.2 % 256 ^ f.2.1 := by
  rw [storeFields_append, storeFields_cons, readLE_storeFields_apart h, readLE_writeLE]

/-- The fields of a structure, none of which overlaps another. -/
def Separate (fields : List Field) : Prop := fields.Pairwise fun f f' ↦ Apart f.1 f.2.1 f'

instance (fields : List Field) : Decidable (Separate fields) :=
  inferInstanceAs (Decidable (fields.Pairwise fun f f' ↦ f.1 + f.2.1 ≤ f'.1 ∨ f'.1 + f'.2.1 ≤ f.1))

theorem Separate.readLE {value : ℕ} (h : Separate fields) (hf : (offset, size, value) ∈ fields) :
    ByteMemory.readLE (storeFields m a fields) (a + offset) size = value % 256 ^ size := by
  obtain ⟨before, after, rfl⟩ := List.append_of_mem hf
  apply readLE_storeFields
  exact (List.pairwise_cons.mp (List.pairwise_append.mp h).2.1).1

end ImplusKernel.Fields
