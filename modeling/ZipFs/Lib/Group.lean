import Mathlib.Tactic.Common

/-!
# Grouping by a key

What a counting sort computes. A list is cut into groups, one for each value of a
key below some bound; group `p` starts where the elements with a smaller key end.
The sorted list is the groups one after another.

`eq_flatMap` goes from "every group lies where it should" to that list, and
`flatMap_split` back to one group.
-/

namespace Lib

variable {α : Type} {key : α → Nat} {xs : List α}

/-- The elements with key `p`, in the order they came. -/
def group (key : α → Nat) (xs : List α) (p : Nat) : List α := xs.filter (fun a => key a = p)

/-- How many elements have a key below `p`. -/
def start (key : α → Nat) (xs : List α) (p : Nat) : Nat := xs.countP (fun a => key a < p)

theorem mem_group {p : Nat} {a : α} : a ∈ group key xs p ↔ a ∈ xs ∧ key a = p := by
  simp [group]

theorem group_snoc (a : α) (p : Nat) :
    group key (xs ++ [a]) p = group key xs p ++ if key a = p then [a] else [] := by
  rw [group, List.filter_append]
  by_cases h : key a = p
  · simp [group, h]
  · simp [group, h]

theorem length_group (p : Nat) :
    (group key xs p).length = xs.countP (fun a => key a = p) := by
  rw [group, List.countP_eq_length_filter]

@[simp] theorem start_zero : start key xs 0 = 0 := by
  simp [start]

/-- The next group starts where this one ends. -/
theorem start_succ (p : Nat) : start key xs (p + 1) = start key xs p + (group key xs p).length := by
  rw [length_group]
  induction xs with
  | nil => rfl
  | cons a xs ih =>
      simp only [start, List.countP_cons, decide_eq_true_eq] at ih ⊢
      rw [ih]
      by_cases h1 : key a = p
      · simp [h1]; omega
      · by_cases h2 : key a < p
        · simp [h1, h2, Nat.lt_succ_of_lt h2]; omega
        · have h3 : ¬ key a < p + 1 := by omega
          simp [h1, h2, h3]

theorem start_mono {p q : Nat} (h : p ≤ q) : start key xs p ≤ start key xs q := by
  induction h with
  | refl => exact Nat.le_refl _
  | step _ ih => exact Nat.le_trans ih (by rw [start_succ]; exact Nat.le_add_right _ _)

/-- With every key below `n`, the groups below `n` are all there is. -/
theorem start_eq_length {n : Nat} (h : ∀ a ∈ xs, key a < n) : start key xs n = xs.length := by
  rw [start, List.countP_eq_length]
  intro a ha
  simpa using h a ha

theorem start_le_length (p : Nat) : start key xs p ≤ xs.length := List.countP_le_length

/-- Two groups do not overlap. -/
theorem ne_of_group {p q i j : Nat} (hne : p ≠ q) (hi : i < (group key xs p).length)
    (hj : j < (group key xs q).length) : start key xs p + i ≠ start key xs q + j := by
  have hp : start key xs (p + 1) = start key xs p + (group key xs p).length := start_succ p
  have hq : start key xs (q + 1) = start key xs q + (group key xs q).length := start_succ q
  rcases Nat.lt_or_gt_of_ne hne with h | h
  · have : start key xs (p + 1) ≤ start key xs q := start_mono h
    omega
  · have : start key xs (q + 1) ≤ start key xs p := start_mono h
    omega

/-! ## The groups one after another -/

section Flat

variable {β : Type} {K : Nat → List β} {off : Nat → Nat}

/-- The groups before `p` fill exactly the places before its start. -/
theorem length_flatMap_range (h0 : off 0 = 0) (hs : ∀ p, off (p + 1) = off p + (K p).length)
    (n : Nat) : ((List.range n).flatMap K).length = off n := by
  induction n with
  | zero => simp [h0]
  | succ n ih =>
      rw [List.range_succ, List.flatMap_append, List.length_append, ih, hs]
      simp

/-- A list that holds group `p` from `off p` on, for every `p`, is the groups one after another. -/
theorem eq_flatMap {ys : List β} (h0 : off 0 = 0) (hs : ∀ p, off (p + 1) = off p + (K p).length)
    {n : Nat} (hlen : ys.length = off n)
    (hat : ∀ p j, p < n → j < (K p).length → ys[off p + j]? = (K p)[j]?) :
    ys = (List.range n).flatMap K := by
  suffices ∀ m, m ≤ n → ys.take (off m) = (List.range m).flatMap K by
    rw [← this n (Nat.le_refl n), ← hlen, List.take_length]
  intro m
  induction m with
  | zero => intro _; simp [h0]
  | succ m ih =>
      intro hm
      rw [hs, List.take_add, ih (by omega), List.range_succ, List.flatMap_append]
      congr 1
      simp only [List.flatMap_cons, List.flatMap_nil, List.append_nil]
      refine List.ext_getElem? (fun j => ?_)
      by_cases hj : j < (K m).length
      · rw [List.getElem?_take_of_lt hj, List.getElem?_drop, hat m j (by omega) hj]
      · rw [List.getElem?_eq_none (by rw [List.length_take]; omega),
          List.getElem?_eq_none (by omega)]

/-- Cutting out of the concatenation gives one group back. -/
theorem flatMap_split {n p : Nat} (hp : p < n) :
    (List.range n).flatMap K =
      (List.range p).flatMap K ++ K p ++ (List.range' (p + 1) (n - (p + 1))).flatMap K := by
  have hr : List.range n = List.range p ++ p :: List.range' (p + 1) (n - (p + 1)) := by
    rw [List.range_eq_range', List.range_eq_range']
    have := List.range'_append_1 (s := 0) (m := p) (n := n - p)
    rw [Nat.zero_add, Nat.add_sub_cancel' (Nat.le_of_lt hp)] at this
    rw [← this, show n - p = (n - (p + 1)) + 1 by omega, List.range'_succ]
  rw [hr, List.flatMap_append, List.flatMap_cons, List.append_assoc]

end Flat

end Lib
