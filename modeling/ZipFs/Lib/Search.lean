import Mathlib.Tactic.Common

/-!
# Binary search in a sorted list

The search of Rust's `binary_search_by`: the window `[base, base + size)` is
halved until one element is left, and that element decides. The comparison may
fail (`none`), because in the programs this serves it reads a key out of another
array; a search then fails as well.

On a list whose keys increase strictly, the search agrees with looking at every
element.
-/

namespace Lib

variable {α κ : Type}

/-- Halves `[base, base + size)` until a single candidate is left. -/
def bisect (cmp : α → Option Ordering) (xs : List α) : Nat → Nat → Nat → Option Nat
  | 0, base, _ => some base
  | fuel + 1, base, size =>
      if size ≤ 1 then some base
      else do
        let half := size / 2
        let mid := base + half
        let x ← xs[mid]?
        let c ← cmp x
        bisect cmp xs fuel (if c = .gt then base else mid) (size - half)

/--
The position of an element that compares equal, if there is one. The outer
`none` is a comparison that failed. The window at least halves its excess over
one, so its own length is fuel enough.
-/
def binarySearchBy (cmp : α → Option Ordering) (xs : List α) : Option (Option Nat) :=
  if xs.length = 0 then some none
  else do
    let base ← bisect cmp xs xs.length 0 xs.length
    let x ← xs[base]?
    let c ← cmp x
    pure (if c = .eq then some base else none)

section Sorted

variable [Ord κ] {key : α → κ} {xs : List α} {k : κ}

/-- The keys increase strictly along the list. -/
def StrictSorted (key : α → κ) (xs : List α) : Prop :=
  xs.Pairwise (fun a b => compare (key a) (key b) = .lt)

/-- In a strictly sorted list a later position has a greater key. -/
theorem StrictSorted.lt_of_lt (h : StrictSorted key xs) {i j : Nat} (hij : i < j) {a b : α}
    (ha : xs[i]? = some a) (hb : xs[j]? = some b) : compare (key a) (key b) = .lt := by
  obtain ⟨hi, rfl⟩ := List.getElem?_eq_some_iff.mp ha
  obtain ⟨hj, rfl⟩ := List.getElem?_eq_some_iff.mp hb
  exact List.pairwise_iff_getElem.mp h i j hi hj hij

variable [Std.TransOrd κ]

theorem compare_self_eq (k : κ) : compare k k = .eq := Std.ReflCmp.compare_self

/-- At most one position of a strictly sorted list holds a given key. -/
theorem StrictSorted.unique (h : StrictSorted key xs) {i j : Nat} {a b : α}
    (ha : xs[i]? = some a) (hb : xs[j]? = some b) (hk : key a = key b) : i = j := by
  rcases Nat.lt_trichotomy i j with hij | hij | hij
  · have := h.lt_of_lt hij ha hb
    rw [hk, compare_self_eq] at this
    exact absurd this (by simp)
  · exact hij
  · have := h.lt_of_lt hij hb ha
    rw [hk, compare_self_eq] at this
    exact absurd this (by simp)

/-- Two strictly sorted lists with the same keys have them in the same order. -/
theorem StrictSorted.keys_eq {β : Type} {key' : β → κ} {ys : List β} (h : StrictSorted key xs)
    (h' : StrictSorted key' ys) (hmem : ∀ k, k ∈ xs.map key ↔ k ∈ ys.map key') :
    xs.map key = ys.map key' := by
  have hlt : (xs.map key).Pairwise fun k l => compare k l = .lt := List.pairwise_map.mpr h
  have hlt' : (ys.map key').Pairwise fun k l => compare k l = .lt := List.pairwise_map.mpr h'
  have hne : ∀ {k l : κ}, compare k l = .lt → k ≠ l := by
    intro k l hkl heq
    rw [heq, compare_self_eq] at hkl
    exact absurd hkl (by simp)
  have hperm : (xs.map key).Perm (ys.map key') :=
    (List.perm_ext_iff_of_nodup (hlt.imp hne) (hlt'.imp hne)).mpr hmem
  refine hperm.eq_of_pairwise (fun k l _ _ hkl hlk => ?_) hlt hlt'
  have hswap : compare k l = (compare l k).swap := Std.OrientedCmp.eq_swap
  rw [hkl, hlk] at hswap
  exact absurd hswap (by simp)

/--
The window keeps the key if the list has it anywhere: everything before the
window is smaller and everything after it is greater.
-/
theorem bisect_spec (h : StrictSorted key xs) {cmp : α → Option Ordering}
    (hcmp : ∀ x ∈ xs, cmp x = some (compare (key x) k)) :
    ∀ (fuel base size : Nat), size ≤ fuel → 0 < size → base + size ≤ xs.length →
      (∀ i x, xs[i]? = some x → key x = k → base ≤ i ∧ i < base + size) →
      ∃ b, bisect cmp xs fuel base size = some b ∧ b < xs.length ∧
        ∀ i x, xs[i]? = some x → key x = k → i = b := by
  intro fuel
  induction fuel with
  | zero => intro base size hf hs; omega
  | succ fuel ih =>
    intro base size hf hs hb hw
    rw [bisect]
    by_cases h1 : size ≤ 1
    · rw [if_pos h1]
      refine ⟨base, rfl, by omega, fun i x hx hk => ?_⟩
      have := hw i x hx hk
      omega
    · rw [if_neg h1]
      have hmid : base + size / 2 < xs.length := by omega
      obtain ⟨m, hm⟩ : ∃ m, xs[base + size / 2]? = some m := ⟨_, List.getElem?_eq_getElem hmid⟩
      have hmem : m ∈ xs := List.mem_of_getElem? hm
      simp only [hm, hcmp m hmem, Option.bind_eq_bind, Option.bind_some]
      by_cases hgt : compare (key m) k = .gt
      · -- the key is left of the middle
        rw [if_pos hgt]
        refine ih base (size - size / 2) (by omega) (by omega) (by omega) (fun i x hx hk => ?_)
        obtain ⟨h2, h3⟩ := hw i x hx hk
        refine ⟨h2, ?_⟩
        rcases Nat.lt_or_ge i (base + size / 2) with hlt | hge
        · omega
        · rcases Nat.lt_or_eq_of_le hge with hlt | heq
          · have hlt' := h.lt_of_lt hlt hm hx
            rw [hk] at hlt'
            rw [hlt'] at hgt
            exact absurd hgt (by simp)
          · rw [← heq, hm] at hx
            injection hx with hx
            rw [hx, hk, compare_self_eq] at hgt
            exact absurd hgt (by simp)
      · -- the key is at the middle or right of it
        rw [if_neg hgt]
        refine ih (base + size / 2) (size - size / 2) (by omega) (by omega) (by omega)
          (fun i x hx hk => ?_)
        obtain ⟨h2, h3⟩ := hw i x hx hk
        refine ⟨?_, by omega⟩
        by_contra hlt
        have hlt' := h.lt_of_lt (Nat.not_le.mp hlt) hx hm
        rw [hk] at hlt'
        exact hgt (Std.OrientedCmp.gt_iff_lt.mpr hlt')

variable [Std.LawfulEqOrd κ]

/-- Binary search agrees with linear search on a strictly sorted list. -/
theorem binarySearchBy_spec (h : StrictSorted key xs) {cmp : α → Option Ordering}
    (hcmp : ∀ x ∈ xs, cmp x = some (compare (key x) k)) :
    ∃ r, binarySearchBy cmp xs = some r ∧
      ∀ i, r = some i ↔ ∃ x, xs[i]? = some x ∧ key x = k := by
  unfold binarySearchBy
  by_cases h0 : xs.length = 0
  · rw [if_pos h0]
    refine ⟨none, rfl, fun i => ?_⟩
    rw [List.eq_nil_of_length_eq_zero h0]
    simp
  · rw [if_neg h0]
    obtain ⟨b, hb, hlt, huniq⟩ := bisect_spec h hcmp xs.length 0 xs.length (Nat.le_refl _)
      (by omega) (by omega)
      (fun i x hx _ => ⟨Nat.zero_le _, by have := (List.getElem?_eq_some_iff.mp hx).1; omega⟩)
    obtain ⟨x, hx⟩ : ∃ x, xs[b]? = some x := ⟨_, List.getElem?_eq_getElem hlt⟩
    simp only [hb, hx, hcmp x (List.mem_of_getElem? hx), Option.bind_eq_bind, Option.bind_some]
    refine ⟨_, rfl, fun i => ?_⟩
    by_cases heq : compare (key x) k = .eq
    · have hxk : key x = k := Std.LawfulEqCmp.eq_of_compare heq
      rw [if_pos heq]
      constructor
      · intro hi; injection hi with hi; subst hi; exact ⟨x, hx, hxk⟩
      · rintro ⟨y, hy, hyk⟩
        rw [huniq i y hy hyk]
    · rw [if_neg heq]
      constructor
      · intro hi; exact absurd hi (by simp)
      · rintro ⟨y, hy, hyk⟩
        have hib := huniq i y hy hyk
        subst hib
        rw [hx] at hy
        injection hy with hy
        rw [hy, hyk, compare_self_eq] at heq
        exact absurd rfl heq

end Sorted

end Lib
