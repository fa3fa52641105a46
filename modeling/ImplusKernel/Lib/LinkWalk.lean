import Mathlib.Data.Finset.Card
import Mathlib.Data.List.Nodup

/-!
# Walks along links

A loop that goes from node to node along links, for at most a given number of
rounds, until a node yields a result.  If there are no more nodes than rounds,
the bound cuts nothing off and a cycle adds nothing: the result is that of
looking at the distinct nodes in the order of the walk.
-/

namespace ImplusKernel.LinkWalk

variable {α β γ : Type*}

/-! ## First results in lists -/

theorem findSome?_flatMap (f : β → Option γ) (g : α → List β) (xs : List α) :
    (xs.flatMap g).findSome? f = xs.findSome? fun a ↦ (g a).findSome? f := by
  induction xs with
  | nil => rfl
  | cons a xs ih =>
      rw [List.flatMap_cons, List.findSome?_append, ih, List.findSome?_cons]
      cases (g a).findSome? f <;> rfl

theorem findSome?_congr {f g : α → Option β} {xs : List α} (h : ∀ a ∈ xs, f a = g a) :
    xs.findSome? f = xs.findSome? g := by
  induction xs with
  | nil => rfl
  | cons a xs ih =>
      rw [List.findSome?_cons, List.findSome?_cons, h a (List.mem_cons_self ..),
        ih fun b hb ↦ h b (List.mem_cons_of_mem _ hb)]

/-! ## The walk -/

/-- The first result on the way from a node, in at most `n` rounds. -/
def search (next : α → Option α) (visit : α → Option β) : ℕ → α → Option β
  | 0, _ => none
  | n + 1, a =>
      match visit a with
      | some b => some b
      | none => (next a).bind (search next visit n)

/-- The nodes that a walk of at most `n` rounds comes to. -/
def trail (next : α → Option α) : ℕ → α → List α
  | 0, _ => []
  | n + 1, a => a :: (next a).elim [] (trail next n)

variable {next : α → Option α} {visit : α → Option β} {seen : List α} {a x : α}

/-- Among nodes without results that lead only to each other the walk finds
nothing. -/
theorem search_closed (hbarren : ∀ x ∈ seen, visit x = none)
    (hclosed : ∀ x ∈ seen, ∀ y ∈ next x, y ∈ seen) (n : ℕ) (ha : a ∈ seen) :
    search next visit n a = none := by
  induction n generalizing a with
  | zero => rfl
  | succ n ih =>
      rw [search, hbarren a ha]
      cases hnext : next a with
      | none => rfl
      | some a' => exact ih (hclosed a ha a' hnext)

/-- Nodes each of which links to the one behind it. -/
theorem search_list {xs : List α} {n : ℕ} (hhead : xs[0]? = some a)
    (hlinks : ∀ j x, xs[j]? = some x → next x = xs[j + 1]?) (hn : xs.length ≤ n) :
    search next visit n a = xs.findSome? visit := by
  induction xs generalizing a n with
  | nil => cases hhead
  | cons x xs ih =>
      obtain rfl : x = a := Option.some.inj hhead
      obtain ⟨n, rfl⟩ := Nat.exists_eq_succ_of_ne_zero
        (show n ≠ 0 by rw [List.length_cons] at hn; omega)
      have hnext : next x = xs[0]? := hlinks 0 x rfl
      rw [search, List.findSome?_cons, hnext]
      cases visit x with
      | some b => rfl
      | none =>
          cases hxs : xs[0]? with
          | none =>
              obtain rfl : xs = [] := by simpa using hxs
              rfl
          | some y =>
              exact ih hxs (fun j z hz ↦ hlinks (j + 1) z hz)
                (by rw [List.length_cons] at hn; omega)

variable [DecidableEq α]

/-- The nodes on the way, until it ends or comes back to one of `seen`. -/
def nodes (next : α → Option α) : ℕ → List α → α → List α
  | 0, _, _ => []
  | n + 1, seen, a =>
      if a ∈ seen then []
      else a :: match next a with
        | none => []
        | some a' => nodes next n (a :: seen) a'

/-- Every node but the first is the link of another. -/
theorem linked_of_mem_nodes {n : ℕ} (hx : x ∈ nodes next n seen a) :
    x = a ∨ ∃ y, next y = some x := by
  induction n generalizing seen a with
  | zero => simp [nodes] at hx
  | succ n ih =>
      rw [nodes] at hx
      split_ifs at hx with hseen
      · simp at hx
      rcases List.mem_cons.mp hx with rfl | hx
      · exact Or.inl rfl
      cases hnext : next a with
      | none => simp [hnext] at hx
      | some a' =>
          rw [hnext] at hx
          rcases ih hx with rfl | hlinked
          · exact Or.inr ⟨a, hnext⟩
          · exact Or.inr hlinked

/-- Distinct nodes of a finite set. -/
theorem length_le_card {S : Finset α} {xs : List α} (hnodup : xs.Nodup) (hS : ∀ x ∈ xs, x ∈ S) :
    xs.length ≤ S.card := by
  rw [← List.toFinset_card_of_nodup hnodup]
  exact Finset.card_le_card fun x hx ↦ hS x (List.mem_toFinset.mp hx)

/-- The walk and the list, after the nodes of `seen`. -/
theorem search_from {S : Finset α} {n N : ℕ} (hnodup : seen.Nodup) (hseen : ∀ x ∈ seen, x ∈ S)
    (hbarren : ∀ x ∈ seen, visit x = none) (hlinks : ∀ x ∈ seen, ∀ y ∈ next x, y = a ∨ y ∈ seen)
    (hS : ∀ x ∈ nodes next N seen a, x ∈ S) (hn : S.card ≤ seen.length + n)
    (hN : S.card < seen.length + N) :
    search next visit n a = (nodes next N seen a).findSome? visit := by
  induction N generalizing seen a n with
  | zero =>
      have hle := length_le_card hnodup hseen
      omega
  | succ N ih =>
      by_cases hmem : a ∈ seen
      · -- Back at a node that has been visited: nothing new from here on.
        have hclosed : ∀ x ∈ seen, ∀ y ∈ next x, y ∈ seen := by
          intro x hx y hy
          rcases hlinks x hx y hy with rfl | hy
          · exact hmem
          · exact hy
        rw [nodes, if_pos hmem]
        exact search_closed hbarren hclosed n hmem
      rw [nodes, if_neg hmem] at hS ⊢
      have hnodup' : (a :: seen).Nodup := List.nodup_cons.mpr ⟨hmem, hnodup⟩
      have hseen' : ∀ x ∈ a :: seen, x ∈ S := by
        intro x hx
        rcases List.mem_cons.mp hx with rfl | hx
        · exact hS x (List.mem_cons_self ..)
        · exact hseen x hx
      have hle := length_le_card hnodup' hseen'
      rw [List.length_cons] at hle
      obtain ⟨n, rfl⟩ := Nat.exists_eq_succ_of_ne_zero (show n ≠ 0 by omega)
      rw [search, List.findSome?_cons]
      cases hvisit : visit a with
      | some b => rfl
      | none =>
          dsimp only
          cases hnext : next a with
          | none => rfl
          | some a' =>
              rw [hnext] at hS
              refine ih hnodup' hseen' ?_ ?_ (fun x hx ↦ hS x (List.mem_cons_of_mem _ hx)) ?_ ?_
              · intro x hx
                rcases List.mem_cons.mp hx with rfl | hx
                · exact hvisit
                · exact hbarren x hx
              · intro x hx y hy
                rcases List.mem_cons.mp hx with rfl | hx
                · rw [hnext] at hy
                  exact Or.inl (Option.some.inj hy).symm
                · rcases hlinks x hx y hy with rfl | hy
                  · exact Or.inr (List.mem_cons_self ..)
                  · exact Or.inr (List.mem_cons_of_mem _ hy)
              · rw [List.length_cons]
                omega
              · rw [List.length_cons]
                omega

/-- With as many rounds as there are nodes, a walk finds what the list of its
distinct nodes has. -/
theorem search_eq_findSome? {S : Finset α} {n N : ℕ} (hS : ∀ x ∈ nodes next N [] a, x ∈ S)
    (hn : S.card ≤ n) (hN : S.card < N) :
    search next visit n a = (nodes next N [] a).findSome? visit :=
  search_from List.nodup_nil (by simp) (by simp) (by simp) hS (by simpa using hn)
    (by simpa using hN)

end ImplusKernel.LinkWalk
