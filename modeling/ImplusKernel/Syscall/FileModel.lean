import Mathlib.Data.Int.Notation
import Mathlib.Data.List.Basic
import Mathlib.Logic.Function.Basic

/-!
# Files as byte arrays

What the file calls are for: a store of named byte arrays of fixed length,
and sixteen slots for open files, each with a position.  A call that needs a
copy of the file fails when there is no room for it.
-/

namespace ImplusKernel.FileModel

variable {Name : Type*}

structure OpenFile (Name : Type*) where
  writable : Bool
  name : Name
  offset : ℕ

structure Store (Name : Type*) where
  contents : Name → Option (List UInt8)
  slots : ℕ → Option (OpenFile Name)

/-- A path may fail to be a name, and a buffer may be missing. -/
inductive Call (Name : Type*)
  | openFile (name : Option Name) (writable : Bool)
  | readFile (fd : ℤ) (given : Bool) (len : ℕ)
  | writeFile (fd : ℤ) (data : Option (List UInt8))
  | closeFile (fd : ℤ)

/-- The store after a call, the value it returns and the bytes it delivers. -/
structure Outcome (Name : Type*) where
  store : Store Name
  result : ℤ
  delivered : List UInt8

namespace Store

def lowestFree (a : Store Name) : Option ℕ :=
  (List.range 16).find? fun fd ↦ (a.slots fd).isNone

def openAt (a : Store Name) (fd : ℤ) : Option (OpenFile Name) :=
  if 0 ≤ fd ∧ fd < 16 then a.slots fd.toNat else none

def bytesOf (a : Store Name) (f : OpenFile Name) : List UInt8 := (a.contents f.name).getD []

/-- The number of bytes a transfer of `len` bytes moves. -/
def count (a : Store Name) (f : OpenFile Name) (len : ℕ) : ℕ :=
  min len ((a.bytesOf f).length - f.offset)

def setSlot (a : Store Name) (fd : ℕ) (f : Option (OpenFile Name)) : Store Name :=
  { a with slots := Function.update a.slots fd f }

def fails (a : Store Name) : Outcome Name := ⟨a, -1, []⟩

/-- The bytes from `offset` on are replaced. -/
def overwrite (bytes : List UInt8) (offset : ℕ) (data : List UInt8) : List UInt8 :=
  bytes.take offset ++ data ++ bytes.drop (offset + data.length)

def afterRead (a : Store Name) (fd : ℕ) (f : OpenFile Name) (n : ℕ) : Outcome Name where
  store := a.setSlot fd (some { f with offset := f.offset + n })
  result := n
  delivered := ((a.bytesOf f).drop f.offset).take n

def afterWrite [DecidableEq Name] (a : Store Name) (fd : ℕ) (f : OpenFile Name)
    (data : List UInt8) : Outcome Name where
  store :=
    { contents := Function.update a.contents f.name
        (some (overwrite (a.bytesOf f) f.offset data))
      slots := Function.update a.slots fd (some { f with offset := f.offset + data.length }) }
  result := data.length
  delivered := []

@[simp]
theorem contents_afterWrite [DecidableEq Name] (a : Store Name) (fd : ℕ) (f : OpenFile Name)
    (data : List UInt8) : (a.afterWrite fd f data).store.contents =
      Function.update a.contents f.name (some (overwrite (a.bytesOf f) f.offset data)) := rfl

@[simp]
theorem slots_afterWrite [DecidableEq Name] (a : Store Name) (fd : ℕ) (f : OpenFile Name)
    (data : List UInt8) : (a.afterWrite fd f data).store.slots =
      Function.update a.slots fd (some { f with offset := f.offset + data.length }) := rfl

/-- One call; `room n` says whether a copy of `n` bytes can be made. -/
def step [DecidableEq Name] (room : ℕ → Bool) (a : Store Name) : Call Name → Outcome Name
  | .openFile none _ => a.fails
  | .openFile (some name) writable =>
      match a.contents name, a.lowestFree with
      | some _, some fd => ⟨a.setSlot fd (some ⟨writable, name, 0⟩), fd, []⟩
      | _, _ => a.fails
  | .readFile fd given len =>
      match a.openAt fd with
      | none => a.fails
      | some f =>
          if given = false then a.fails
          else if a.count f len = 0 then ⟨a, 0, []⟩
          else if room (a.bytesOf f).length = false then a.fails
          else a.afterRead fd.toNat f (a.count f len)
  | .writeFile fd data =>
      match a.openAt fd, data with
      | some f, some data =>
          if f.writable = false then a.fails
          else if a.count f data.length = 0 then ⟨a, 0, []⟩
          else if room (a.bytesOf f).length = false then a.fails
          else a.afterWrite fd.toNat f (data.take (a.count f data.length))
      | _, _ => a.fails
  | .closeFile fd =>
      match a.openAt fd with
      | none => a.fails
      | some _ => ⟨a.setSlot fd.toNat none, 0, []⟩

end Store

theorem Store.length_overwrite {bytes data : List UInt8} {offset : ℕ}
    (h : offset + data.length ≤ bytes.length) :
    (overwrite bytes offset data).length = bytes.length := by
  simp only [overwrite, List.length_append, List.length_take, List.length_drop]
  omega

theorem Store.getElem?_overwrite {bytes data : List UInt8} {offset p : ℕ}
    (h : offset + data.length ≤ bytes.length) :
    (overwrite bytes offset data)[p]? =
      if p < offset then bytes[p]?
      else if p < offset + data.length then data[p - offset]? else bytes[p]? := by
  have htake : (bytes.take offset).length = offset := by
    rw [List.length_take]
    omega
  rw [overwrite]
  by_cases hlow : p < offset
  · rw [if_pos hlow, List.append_assoc, List.getElem?_append_left (by omega),
      List.getElem?_take_of_lt hlow]
  rw [if_neg hlow]
  by_cases hmid : p < offset + data.length
  · rw [if_pos hmid, List.append_assoc, List.getElem?_append_right (by omega), htake,
      List.getElem?_append_left (by omega)]
  · rw [if_neg hmid, List.getElem?_append_right (by rw [List.length_append]; omega),
      List.length_append, htake, List.getElem?_drop]
    congr 1
    omega

end ImplusKernel.FileModel
