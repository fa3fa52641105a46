import Mathlib.Data.List.Basic
import Mathlib.Tactic.Linarith

/-!
# Intervals tiled by headed segments

A list of segments tiles `[lo, hi)` when each segment consists of a header of
`h` bytes followed by its payload and begins exactly where its predecessor
ends.  Allocators, archive formats and log files all have this shape; the
lemmas below give the order, the bounds and the effect of replacing a run of
neighbouring segments by another one of the same extent.
-/

namespace ImplusKernel.Tiling

variable {τ : Type*} {h lo hi : ℕ}

structure Segment (τ : Type*) where
  start : ℕ
  size : ℕ
  tag : τ
deriving DecidableEq, Repr

def Tiles (h : ℕ) : ℕ → List (Segment τ) → ℕ → Prop
  | lo, [], hi => lo = hi
  | lo, s :: ss, hi => s.start = lo ∧ Tiles h (lo + h + s.size) ss hi

@[simp] theorem tiles_nil : Tiles h lo ([] : List (Segment τ)) hi ↔ lo = hi := Iff.rfl

@[simp] theorem tiles_cons {s : Segment τ} {ss : List (Segment τ)} :
    Tiles h lo (s :: ss) hi ↔ s.start = lo ∧ Tiles h (lo + h + s.size) ss hi := Iff.rfl

theorem tiles_append {xs ys : List (Segment τ)} :
    Tiles h lo (xs ++ ys) hi ↔ ∃ mid, Tiles h lo xs mid ∧ Tiles h mid ys hi := by
  induction xs generalizing lo with
  | nil => simp
  | cons s ss ih =>
      simp only [List.cons_append, tiles_cons, ih]
      constructor
      · rintro ⟨hstart, mid, hss, hys⟩
        exact ⟨mid, ⟨hstart, hss⟩, hys⟩
      · rintro ⟨mid, ⟨hstart, hss⟩, hys⟩
        exact ⟨hstart, mid, hss, hys⟩

/-- Headers and payloads together fill the interval. -/
theorem Tiles.sum_sizes {ss : List (Segment τ)} (ht : Tiles h lo ss hi) :
    lo + (ss.map Segment.size).sum + h * ss.length = hi := by
  induction ss generalizing lo with
  | nil => simpa using ht
  | cons s ss ih =>
      have hrest := ih ht.2
      rw [List.map_cons, List.sum_cons, List.length_cons, Nat.mul_succ]
      omega

theorem Tiles.add_length_le {ss : List (Segment τ)} (ht : Tiles h lo ss hi) :
    lo + h * ss.length ≤ hi := by
  induction ss generalizing lo with
  | nil => simp_all
  | cons s ss ih =>
      have hrest := ih ht.2
      rw [List.length_cons, Nat.mul_succ]
      omega

theorem Tiles.le {ss : List (Segment τ)} (ht : Tiles h lo ss hi) : lo ≤ hi :=
  (Nat.le_add_right _ _).trans ht.add_length_le

theorem Tiles.start_eq {s : Segment τ} {pre post : List (Segment τ)}
    (ht : Tiles h lo (pre ++ s :: post) hi) :
    Tiles h lo pre s.start ∧ Tiles h (s.start + h + s.size) post hi := by
  obtain ⟨mid, hpre, hstart, hpost⟩ := tiles_append.mp ht
  exact ⟨hstart ▸ hpre, hstart ▸ hpost⟩

theorem Tiles.bounds {s : Segment τ} {ss : List (Segment τ)} (ht : Tiles h lo ss hi)
    (hs : s ∈ ss) : lo ≤ s.start ∧ s.start + h + s.size ≤ hi := by
  obtain ⟨pre, post, rfl⟩ := List.append_of_mem hs
  obtain ⟨hpre, hpost⟩ := ht.start_eq
  exact ⟨hpre.le, hpost.le⟩

/-- Segments appear in address order and do not overlap. -/
theorem Tiles.pairwise {ss : List (Segment τ)} (ht : Tiles h lo ss hi) :
    ss.Pairwise fun s t ↦ s.start + h + s.size ≤ t.start := by
  induction ss generalizing lo with
  | nil => exact List.Pairwise.nil
  | cons s ss ih =>
      refine List.Pairwise.cons ?_ (ih ht.2)
      intro t hmem
      have hbounds := ht.2.bounds hmem
      have hstart : s.start = lo := ht.1
      omega

/-- Distinct members are separated on one side or the other. -/
theorem Tiles.separated {s t : Segment τ} {ss : List (Segment τ)} (ht : Tiles h lo ss hi)
    (hs : s ∈ ss) (hmem : t ∈ ss) :
    s = t ∨ s.start + h + s.size ≤ t.start ∨ t.start + h + t.size ≤ s.start := by
  obtain ⟨pre, post, rfl⟩ := List.append_of_mem hs
  obtain ⟨hpre, hpost⟩ := ht.start_eq
  rcases List.mem_append.mp hmem with hin | hin
  · exact Or.inr (Or.inr (hpre.bounds hin).2)
  · rcases List.mem_cons.mp hin with rfl | hin
    · exact Or.inl rfl
    · exact Or.inr (Or.inl (hpost.bounds hin).1)

/-- With non-empty headers a segment is determined by its address. -/
theorem Tiles.eq_of_start_eq {s t : Segment τ} {ss : List (Segment τ)}
    (ht : Tiles h lo ss hi) (hh : 0 < h) (hs : s ∈ ss) (hmem : t ∈ ss)
    (heq : s.start = t.start) : s = t := by
  rcases ht.separated hs hmem with hst | hst | hst
  · exact hst
  · omega
  · omega

/-- A run of segments may be replaced by any other run of the same extent. -/
theorem Tiles.replace {pre post : List (Segment τ)} (mid mid' : List (Segment τ))
    (ht : Tiles h lo (pre ++ (mid ++ post)) hi)
    (hmid : ∀ a b, Tiles h a mid b → Tiles h a mid' b) :
    Tiles h lo (pre ++ (mid' ++ post)) hi := by
  obtain ⟨a, hpre, hrest⟩ := tiles_append.mp ht
  obtain ⟨b, hold, hpost⟩ := tiles_append.mp hrest
  exact tiles_append.mpr ⟨a, hpre, tiles_append.mpr ⟨b, hmid a b hold, hpost⟩⟩

end ImplusKernel.Tiling
