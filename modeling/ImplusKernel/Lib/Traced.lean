import Mathlib.Data.List.Basic

/-!
# Programs that record what they do

A value together with the events on the way to it, in order.  The value is
that of the program without the record, and what holds of every event is shown
along the program.
-/

namespace ImplusKernel

universe u v

structure Traced (ε : Type u) (α : Type v) where
  value : α
  events : List ε

namespace Traced

variable {ε : Type u} {α β : Type v} {P : ε → Prop} {t t' : Traced ε α} {f : α → Traced ε β}

instance : Monad (Traced ε) where
  pure a := ⟨a, []⟩
  bind t f := ⟨(f t.value).value, t.events ++ (f t.value).events⟩

def emit (events : List ε) : Traced ε PUnit := ⟨⟨⟩, events⟩

/-! ## The value -/

@[simp] theorem value_pure (a : α) : (pure a : Traced ε α).value = a := rfl

@[simp] theorem value_bind : (t >>= f).value = (f t.value).value := rfl

@[simp] theorem value_ite (p : Prop) [Decidable p] (t t' : Traced ε α) :
    (if p then t else t').value = if p then t.value else t'.value :=
  apply_ite value p t t'

/-! ## What holds of every event -/

def All (P : ε → Prop) (t : Traced ε α) : Prop := ∀ e ∈ t.events, P e

theorem all_pure (a : α) : All P (pure a : Traced ε α) := fun _ he ↦ absurd he List.not_mem_nil

theorem all_emit {events : List ε} (h : ∀ e ∈ events, P e) : All P (emit events : Traced ε PUnit) :=
  h

theorem All.bind (h : All P t) (h' : All P (f t.value)) : All P (t >>= f) :=
  List.forall_mem_append.mpr ⟨h, h'⟩

theorem All.ite {p : Prop} [Decidable p] (h : p → All P t) (h' : ¬p → All P t') :
    All P (if p then t else t') := by
  split
  · next hp => exact h hp
  · next hp => exact h' hp

end Traced

end ImplusKernel
