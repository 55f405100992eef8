import Mathlib.Data.List.Forall2
import Mathlib.Data.List.Nodup
import Mathlib.Data.List.Shortlex
import Mathlib.Logic.Relation

/-!
# Numbering a tree breadth first

A queue that starts with the root; each turn takes the next element and appends
its children. Everything about the numbering follows from one equation between the
queue and the part of it that has been taken: the queue is the root followed by the
children of what was taken, in order. So the children of the element at position
`j` are contiguous, and they start right after the children of all the elements
before it.
-/

namespace Lib

variable {α : Type} {K : α → List α} {root : α}

/-- No element is a child twice, and the root is not a child. -/
structure Forest (K : α → List α) (root : α) : Prop where
  nodup : ∀ t, (K t).Nodup
  disjoint : ∀ t u a, a ∈ K t → a ∈ K u → t = u
  root : ∀ t, root ∉ K t

/-- The queue after `i` turns. -/
structure Queue (K : α → List α) (root : α) (order : List α) (i : Nat) : Prop where
  taken : i ≤ order.length
  eq : order = root :: (order.take i).flatMap K
  nodup : order.Nodup

theorem Queue.init (K : α → List α) (root : α) : Queue K root [root] 0 :=
  ⟨Nat.zero_le _, by simp, List.nodup_singleton root⟩

section Step

variable {order : List α} {i : Nat} {t : α}

/-- The next element's children are new to the queue. -/
theorem Queue.not_mem (hK : Forest K root) (h : Queue K root order i) (ht : order[i]? = some t)
    {a : α} (ha : a ∈ K t) : a ∉ order := by
  rw [h.eq]
  intro hmem
  rcases List.mem_cons.mp hmem with rfl | hmem
  · exact hK.root t ha
  · obtain ⟨u, hu, hau⟩ := List.mem_flatMap.mp hmem
    have htu := hK.disjoint t u a ha hau
    subst htu
    -- `t` would stand at `i` and before it
    obtain ⟨j, hj, hjt⟩ := List.mem_take_iff_getElem.mp hu
    obtain ⟨hi, hit⟩ := List.getElem?_eq_some_iff.mp ht
    have := (List.Nodup.getElem_inj_iff h.nodup).mp (hjt.trans hit.symm)
    omega

theorem Queue.step (hK : Forest K root) (h : Queue K root order i) (ht : order[i]? = some t) :
    Queue K root (order ++ K t) (i + 1) := by
  have hi : i < order.length := (List.getElem?_eq_some_iff.mp ht).1
  refine ⟨?_, ?_, ?_⟩
  · rw [List.length_append]; omega
  · have htake : (order ++ K t).take (i + 1) = order.take i ++ [t] := by
      rw [List.take_append_of_le_length hi, List.take_add_one, ht]
      rfl
    rw [htake, List.flatMap_append]
    simp only [List.flatMap_cons, List.flatMap_nil, List.append_nil]
    rw [← List.cons_append, ← h.eq]
  · refine List.nodup_append.mpr ⟨h.nodup, hK.nodup t, fun a ha b hb he => ?_⟩
    exact h.not_mem hK ht hb (he ▸ ha)

end Step

/-- The queue of a finished run. -/
theorem Queue.done {order : List α} (h : Queue K root order order.length) :
    order = root :: order.flatMap K := by
  have := h.eq
  rwa [List.take_length] at this

/-- Where the children of position `j` start. -/
def firstPos (K : α → List α) (order : List α) (j : Nat) : Nat :=
  1 + ((order.take j).flatMap K).length

section Done

variable {order : List α} {j : Nat} {t : α}

/-- **The children of position `j` are contiguous**, and stand where `firstPos` says. -/
theorem children_at (h : order = root :: order.flatMap K) (ht : order[j]? = some t) :
    (order.drop (firstPos K order j)).take (K t).length = K t ∧
      firstPos K order j + (K t).length ≤ order.length := by
  have hsplit : order = order.take j ++ t :: order.drop (j + 1) := by
    obtain ⟨hj, rfl⟩ := List.getElem?_eq_some_iff.mp ht
    rw [List.getElem_cons_drop, List.take_append_drop]
  have heq : order = (root :: (order.take j).flatMap K) ++
    (K t ++ (order.drop (j + 1)).flatMap K) := by
    conv_lhs => rw [h, hsplit]
    rw [List.flatMap_append, List.flatMap_cons, List.cons_append]
  have hpos : firstPos K order j = (root :: (order.take j).flatMap K).length := by
    rw [firstPos, List.length_cons]; omega
  generalize (root :: (order.take j).flatMap K) = pre at heq hpos
  generalize (order.drop (j + 1)).flatMap K = post at heq
  rw [hpos, heq]
  constructor
  · rw [List.drop_left, List.take_left]
  · rw [List.length_append, List.length_append]
    omega

theorem firstPos_succ (ht : order[j]? = some t) :
    firstPos K order (j + 1) = firstPos K order j + (K t).length := by
  rw [firstPos, firstPos, List.take_add_one, ht, List.flatMap_append, List.length_append]
  simp only [Option.toList_some, List.flatMap_cons, List.flatMap_nil, List.append_nil]
  omega

theorem firstPos_mono {i j : Nat} (h : i ≤ j) : firstPos K order i ≤ firstPos K order j := by
  have : order.take j = order.take i ++ (order.take j).drop i := by
    conv_lhs => rw [← List.take_append_drop i (order.take j)]
    rw [List.take_take, Nat.min_eq_left h]
  rw [firstPos, firstPos, this, List.flatMap_append, List.length_append]
  omega

/-- What is queued later does not move the ranges before it. -/
theorem firstPos_append (more : List α) (hj : j ≤ order.length) :
    firstPos K (order ++ more) j = firstPos K order j := by
  rw [firstPos, firstPos, List.take_append_of_le_length hj]

/-- The next element's children go to the end of the queue. -/
theorem Queue.firstPos_eq (h : Queue K root order j) : firstPos K order j = order.length := by
  have := congrArg List.length h.eq
  rw [List.length_cons] at this
  rw [firstPos]
  omega

/-- The last range ends where the queue does. -/
theorem firstPos_length (h : order = root :: order.flatMap K) :
    firstPos K order order.length = order.length := by
  rw [firstPos, List.take_length]
  conv_rhs => rw [h, List.length_cons]
  omega

/-- Every position but the first lies in the range of exactly one element. -/
theorem exists_range (h : order = root :: order.flatMap K) {x : Nat} (h1 : 1 ≤ x)
    (hx : x < order.length) :
    ∃ j t, order[j]? = some t ∧ firstPos K order j ≤ x ∧ x < firstPos K order j + (K t).length := by
  suffices ∀ m, m ≤ order.length → x < firstPos K order m →
      ∃ j t, order[j]? = some t ∧ firstPos K order j ≤ x ∧
        x < firstPos K order j + (K t).length from
    this order.length (Nat.le_refl _) (by rw [firstPos_length h]; exact hx)
  intro m
  induction m with
  | zero =>
      intro _ hlt
      simp [firstPos] at hlt
      omega
  | succ m ih =>
      intro hm hlt
      have ht : order[m]? = some order[m] := List.getElem?_eq_getElem hm
      rcases Nat.lt_or_ge x (firstPos K order m) with hx' | hx'
      · exact ih (by omega) hx'
      · exact ⟨m, _, ht, hx', by rw [← firstPos_succ ht]; exact hlt⟩

/-- Two ranges do not overlap. -/
theorem range_disjoint {i j : Nat} {t u : α} (ht : order[i]? = some t) (hu : order[j]? = some u)
    {x : Nat} (hx : firstPos K order i ≤ x ∧ x < firstPos K order i + (K t).length)
    (hx' : firstPos K order j ≤ x ∧ x < firstPos K order j + (K u).length) : i = j := by
  rcases Nat.lt_trichotomy i j with h | h | h
  · have : firstPos K order (i + 1) ≤ firstPos K order j := firstPos_mono h
    rw [firstPos_succ ht] at this
    omega
  · exact h
  · have : firstPos K order (j + 1) ≤ firstPos K order i := firstPos_mono h
    rw [firstPos_succ hu] at this
    omega

/-- A finished queue is closed under children. -/
theorem mem_of_child (h : order = root :: order.flatMap K) {a : α} (ht : t ∈ order) (ha : a ∈ K t) :
    a ∈ order := by
  rw [h]
  exact List.mem_cons_of_mem _ (List.mem_flatMap.mpr ⟨t, ht, ha⟩)

end Done

/-! ## Two trees of the same shape -/

/-- A finished queue of elements that can all be reached from the root. -/
structure Traversal (K : α → List α) (root : α) (order : List α) : Prop where
  eq : order = root :: order.flatMap K
  nodup : order.Nodup
  reach : ∀ a ∈ order, Relation.ReflTransGen (fun t a => a ∈ K t) root a

namespace Traversal

variable {order : List α}

/-- What has been queued when `j` elements have been taken. -/
theorem take_firstPos (h : Traversal K root order) (j : Nat) :
    order.take (firstPos K order j) = root :: (order.take j).flatMap K := by
  have hsplit : order = (root :: (order.take j).flatMap K) ++ (order.drop j).flatMap K := by
    conv_lhs => rw [h.eq, ← List.take_append_drop j order]
    rw [List.flatMap_append, List.cons_append]
  have hpos : firstPos K order j = (root :: (order.take j).flatMap K).length := by
    rw [firstPos, List.length_cons]
    omega
  rw [hpos]
  generalize (root :: (order.take j).flatMap K) = queued at hsplit
  rw [hsplit]
  exact List.take_left

/-- The queue does not run dry before its end: an element is queued before it is taken. -/
theorem lt_firstPos (h : Traversal K root order) {j : Nat} (hj : j < order.length) :
    j < firstPos K order j := by
  induction j with
  | zero =>
      rw [firstPos]
      omega
  | succ j ih =>
      have hprev := ih (Nat.lt_of_succ_lt hj)
      have hmono : firstPos K order j ≤ firstPos K order (j + 1) := firstPos_mono (Nat.le_succ j)
      by_contra hdry
      -- what has been taken would be closed under children, so there is nothing else
      have heq : firstPos K order (j + 1) = j + 1 := by omega
      have hclosed : order.take (j + 1) = root :: (order.take (j + 1)).flatMap K := by
        have := h.take_firstPos (j + 1)
        rwa [heq] at this
      have hall : ∀ a, Relation.ReflTransGen (fun t a => a ∈ K t) root a →
          a ∈ order.take (j + 1) := by
        intro a hreach
        rw [hclosed]
        induction hreach with
        | refl => exact List.mem_cons_self
        | tail _ hchild ih =>
            rw [← hclosed] at ih
            exact List.mem_cons_of_mem _ (List.mem_flatMap.mpr ⟨_, ih, hchild⟩)
      have hlast := hall _ (h.reach _ (List.getElem_mem hj))
      obtain ⟨i, hi, heq⟩ := List.mem_take_iff_getElem.mp hlast
      have := (List.Nodup.getElem_inj_iff h.nodup).mp heq
      omega

variable {β : Type} {K' : β → List β} {root' : β} {order' : List β} {R : α → β → Prop}

/-- The first elements are related, as many as there are. -/
theorem forall₂_take (h : Traversal K root order) (h' : Traversal K' root' order')
    (hroot : R root root') (hkids : ∀ a b, R a b → List.Forall₂ R (K a) (K' b)) {n : Nat}
    (hn : n ≤ order.length) :
    n ≤ order'.length ∧ List.Forall₂ R (order.take n) (order'.take n) := by
  induction n with
  | zero => exact ⟨Nat.zero_le _, by simp⟩
  | succ n ih =>
      obtain ⟨-, hrel⟩ := ih (Nat.le_of_succ_le hn)
      -- what the first `n` elements queue is related, and reaches beyond them
      have hnext : List.Forall₂ R ((order.take n).flatMap K) ((order'.take n).flatMap K') :=
        List.rel_flatMap hrel fun a b => hkids a b
      have hpos : firstPos K order n = firstPos K' order' n := by
        rw [firstPos, firstPos, hnext.length_eq]
      have hqueued : List.Forall₂ R (order.take (firstPos K order n))
          (order'.take (firstPos K' order' n)) := by
        rw [h.take_firstPos, h'.take_firstPos]
        exact .cons hroot hnext
      have hlt : n < firstPos K order n := h.lt_firstPos hn
      have hlen := hqueued.length_eq
      rw [List.length_take, List.length_take] at hlen
      refine ⟨by omega, ?_⟩
      have htake := List.forall₂_take (n + 1) hqueued
      rw [List.take_take, List.take_take, Nat.min_eq_left hlt,
        Nat.min_eq_left (hpos ▸ hlt)] at htake
      exact htake

/-- **Trees of the same shape are numbered alike.** -/
theorem forall₂ (h : Traversal K root order) (h' : Traversal K' root' order')
    (hroot : R root root') (hkids : ∀ a b, R a b → List.Forall₂ R (K a) (K' b)) :
    List.Forall₂ R order order' := by
  have hflip : ∀ b a, R a b → List.Forall₂ (flip R) (K' b) (K a) :=
    fun b a hab => List.Forall₂.flip (hkids a b hab)
  obtain ⟨hle, hrel⟩ := h.forall₂_take h' hroot hkids (Nat.le_refl _)
  obtain ⟨hge, -⟩ := h'.forall₂_take h (R := flip R) hroot hflip (Nat.le_refl _)
  rwa [List.take_length, List.take_of_length_le hge] at hrel

/-! ## Which elements come first -/

/-- The place of an element that is not the root, as a child of an earlier one. -/
theorem exists_parent (h : Traversal K root order) {x : Nat} (h1 : 1 ≤ x) (hx : x < order.length) :
    ∃ (j : Nat) (t : α) (i : Nat), j < x ∧ order[j]? = some t ∧
      x = firstPos K order j + i ∧ i < (K t).length ∧ (K t)[i]? = order[x]? := by
  obtain ⟨j, t, hj, hlo, hhi⟩ := exists_range h.eq h1 hx
  obtain ⟨i, rfl⟩ := Nat.exists_eq_add_of_le hlo
  obtain ⟨hslice, -⟩ := children_at h.eq hj
  have hi : i < (K t).length := by omega
  have hlt := h.lt_firstPos (List.getElem?_eq_some_iff.mp hj).1
  refine ⟨j, t, i, by omega, hj, rfl, hi, ?_⟩
  have hat : (K t)[i]? = (order.drop (firstPos K order j))[i]? := by
    conv_lhs => rw [← hslice]
    exact List.getElem?_take_of_lt hi
  rw [hat, List.getElem?_drop]

variable {κ : Type} {r : κ → κ → Prop}

theorem lex_append {s t : List κ} (hlen : s.length = t.length) (h : List.Lex r s t) (x y : List κ) :
    List.Lex r (s ++ x) (t ++ y) := by
  induction h with
  | nil => exact absurd hlen (by simp)
  | cons _ ih => exact .cons (ih (by simpa using hlen))
  | rel h => exact .rel h

theorem shortlex_snoc {s t : List κ} (h : List.Shortlex r s t) (a b : κ) :
    List.Shortlex r (s ++ [a]) (t ++ [b]) := by
  rcases List.shortlex_def.mp h with hlt | ⟨hlen, hlex⟩
  · exact .of_length_lt (by simpa using hlt)
  · exact .of_lex (by simpa using hlen) (lex_append hlen hlex _ _)

/-- **A breadth-first queue goes by depth, then by the path.** If the children of an element are
in the order of their names, then the whole queue is in the order of its paths. -/
theorem shortlex (h : Traversal K root order) {path : α → List κ} {name : α → κ}
    (hroot : path root = []) (hkids : ∀ t ∈ order, ∀ a ∈ K t, path a = path t ++ [name a])
    (hsorted : ∀ t, (K t).Pairwise fun a b => r (name a) (name b)) {i j : Nat} (hij : i < j)
    {a b : α} (ha : order[i]? = some a) (hb : order[j]? = some b) :
    List.Shortlex r (path a) (path b) := by
  have hzero : order[0]? = some root := by
    rw [h.eq]
    rfl
  -- on the place of the later element: its parent comes before it
  induction j using Nat.strongRecOn generalizing i a b with
  | ind j ih =>
      have hj := (List.getElem?_eq_some_iff.mp hb).1
      obtain ⟨v, u, m, hv, hu, rfl, hm, hplace⟩ := h.exists_parent (by omega) hj
      have hbm := hplace.trans hb
      have hpb := hkids u (List.mem_of_getElem? hu) b (List.mem_of_getElem? hbm)
      rw [hpb]
      rcases Nat.eq_zero_or_pos i with rfl | hpos
      · obtain rfl := Option.some.inj (hzero.symm.trans ha)
        rw [hroot]
        exact .of_length_lt (by simp)
      · have hi := (List.getElem?_eq_some_iff.mp ha).1
        obtain ⟨w, t, n, hw, ht, rfl, hn, hplace'⟩ := h.exists_parent hpos hi
        have han := hplace'.trans ha
        rw [hkids t (List.mem_of_getElem? ht) a (List.mem_of_getElem? han)]
        rcases Nat.lt_trichotomy w v with hlt | rfl | hlt
        · exact shortlex_snoc (ih v hv hlt ht hu) _ _
        · obtain rfl := Option.some.inj (ht.symm.trans hu)
          have hname := List.pairwise_iff_getElem.mp (hsorted t) n m hn hm (by omega)
          rw [(List.getElem?_eq_some_iff.mp han).2, (List.getElem?_eq_some_iff.mp hbm).2] at hname
          exact .append_left ((List.shortlex_singleton_iff _ _).mpr hname) _
        · -- children of a later element come later
          have hle : firstPos K order (v + 1) ≤ firstPos K order w := firstPos_mono hlt
          rw [firstPos_succ hu] at hle
          omega

end Traversal

end Lib
