import ZipFs.Index.BuildProof
import ZipFs.Lib.Group
import Mathlib.Data.List.Nodup

/-!
# Children, grouped and sorted

The first half of `finish`: a counting sort that lays the children of each node
out next to each other, and then sorts every such group by name. The result is the
groups of `sortedKids` one after another, and `starts` says where each begins.
-/

namespace ZipFs

open Lib (group start)

/-- The parent of node `i`. -/
def parentOf (tmp : List TmpNode) (i : Nat) : Nat := (tmp[i]?.map TmpNode.parent).getD 0

/-- The name of node `i`. -/
def nameOf (tmp : List TmpNode) (names : Bytes) (i : Nat) : Bytes :=
  (tmp[i]?.bind (fun n => slice names n.nameOff n.nameLen)).getD []

/-- Every node but the root. -/
def nonRoots (tmp : List TmpNode) : List Nat := List.range' 1 (tmp.length - 1)

/-- The children of `p`, in the order they were found. -/
def kidsOf (tmp : List TmpNode) (p : Nat) : List Nat := group (parentOf tmp) (nonRoots tmp) p

/-- Where the children of `p` start. -/
def startOf (tmp : List TmpNode) (p : Nat) : Nat := start (parentOf tmp) (nonRoots tmp) p

instance : IsTrans (Bytes × Nat) nameLE := ⟨fun _ _ _ => Std.TransOrd.isLE_trans⟩

instance : Std.Total (nameLE : Bytes × Nat → Bytes × Nat → Prop) := by
  refine ⟨fun a b => ?_⟩
  rw [nameLE, nameLE, ← Std.OrientedCmp.isGE_eq_isLE (a := a.1)]
  cases compare a.1 b.1 <;> simp

/-- The children of `p`, by name. -/
def sortedKids (tmp : List TmpNode) (names : Bytes) (p : Nat) : List Nat :=
  if (kidsOf tmp p).length < 2 then kidsOf tmp p
  else (((kidsOf tmp p).map (fun i => (nameOf tmp names i, i))).insertionSort nameLE).map Prod.snd

/-- What the second pass needs of the first. -/
structure Treelike (tmp : List TmpNode) (names : Bytes) : Prop where
  pos : 0 < tmp.length
  parent_lt : ∀ (i : Nat) (n : TmpNode), 0 < i → tmp[i]? = some n → n.parent < i
  named : ∀ (i : Nat) (n : TmpNode), tmp[i]? = some n →
    ∃ nm, slice names n.nameOff n.nameLen = some nm
  unique : KeysUnique tmp names

theorem Builder.Ok.treelike {b : Builder} (h : b.Ok) : Treelike b.nodes b.names :=
  ⟨(List.getElem?_eq_some_iff.mp h.root).1, h.parent_lt, h.named, h.unique⟩

section

variable {tmp : List TmpNode} {names : Bytes} {L : Prop}

theorem parentOf_eq {i : Nat} {n : TmpNode} (h : tmp[i]? = some n) : parentOf tmp i = n.parent := by
  rw [parentOf, h]
  rfl

theorem mem_nonRoots {i : Nat} : i ∈ nonRoots tmp ↔ 0 < i ∧ i < tmp.length := by
  rw [nonRoots, List.mem_range'_1]
  omega

theorem mem_kidsOf {i p : Nat} :
    i ∈ kidsOf tmp p ↔ (0 < i ∧ i < tmp.length) ∧ parentOf tmp i = p := by
  rw [kidsOf, Lib.mem_group, mem_nonRoots]

theorem length_nonRoots : (nonRoots tmp).length = tmp.length - 1 := List.length_range'

theorem startOf_succ (p : Nat) : startOf tmp (p + 1) = startOf tmp p + (kidsOf tmp p).length :=
  Lib.start_succ p

theorem startOf_ne {p q i j : Nat} (hne : p ≠ q) (hi : i < (kidsOf tmp p).length)
    (hj : j < (kidsOf tmp q).length) : startOf tmp p + i ≠ startOf tmp q + j :=
  Lib.ne_of_group hne hi hj

/-- Reading the parents off the nodes or off their numbers is the same. -/
theorem map_parentOf : (nonRoots tmp).map (parentOf tmp) = tmp.tail.map TmpNode.parent := by
  refine List.ext_getElem? (fun j => ?_)
  rw [List.getElem?_map, List.getElem?_map, List.getElem?_tail, nonRoots]
  by_cases hj : j < tmp.length - 1
  · have hlt : j + 1 < tmp.length := by omega
    rw [List.getElem?_range' hj, List.getElem?_eq_getElem hlt, Option.map_some, Option.map_some,
      show 1 + 1 * j = j + 1 by omega, parentOf_eq (List.getElem?_eq_getElem hlt)]
  · rw [List.getElem?_eq_none (by rw [List.length_range']; omega),
      List.getElem?_eq_none (by omega)]
    rfl

theorem length_kidsOf (p : Nat) :
    (kidsOf tmp p).length = tmp.tail.countP (fun n => n.parent = p) := by
  have h1 :
    (kidsOf tmp p).length = ((nonRoots tmp).map (parentOf tmp)).countP (fun q => q = p) := by
    rw [kidsOf, Lib.length_group, List.countP_map]
    rfl
  rw [h1, map_parentOf, List.countP_map]
  rfl

theorem sortedKids_perm (p : Nat) : (sortedKids tmp names p).Perm (kidsOf tmp p) := by
  rw [sortedKids]
  split
  · exact List.Perm.refl _
  · have := (List.perm_insertionSort nameLE
      ((kidsOf tmp p).map (fun i => (nameOf tmp names i, i)))).map Prod.snd
    rw [List.map_map] at this
    exact this.trans (List.Perm.of_eq (List.map_id _))

theorem mem_sortedKids {i p : Nat} :
    i ∈ sortedKids tmp names p ↔ (0 < i ∧ i < tmp.length) ∧ parentOf tmp i = p := by
  rw [(sortedKids_perm p).mem_iff, mem_kidsOf]

theorem length_sortedKids (p : Nat) :
    (sortedKids tmp names p).length = (kidsOf tmp p).length := (sortedKids_perm p).length_eq

theorem sortedKids_nodup (p : Nat) : (sortedKids tmp names p).Nodup :=
  (sortedKids_perm p).nodup_iff.mpr (List.Nodup.filter _ List.nodup_range')

/-- One group, cut out of a list that has it in its place. -/
theorem range!_middle {pre mid post : List Nat} {lo hi : Nat} (hlo : lo = pre.length)
    (hhi : hi = lo + mid.length) : range! (pre ++ mid ++ post) lo hi = .ok mid := by
  rw [range!, if_pos (by omega)]
  refine slice!_ok ?_
  rw [slice_eq_some (by rw [List.length_append, List.length_append]; omega), hhi, hlo,
    Nat.add_sub_cancel_left, List.append_assoc, List.drop_left, List.take_left]

theorem length_sorted (p : Nat) :
    ((List.range p).flatMap (sortedKids tmp names)).length = startOf tmp p :=
  Lib.length_flatMap_range Lib.start_zero
    (fun q => by rw [length_sortedKids]; exact startOf_succ q) p

/-- The range of a node in the finished layout. -/
theorem range!_kids {p : Nat} (hp : p < tmp.length) :
    range! ((List.range tmp.length).flatMap (sortedKids tmp names)) (startOf tmp p)
      (startOf tmp (p + 1)) = .ok (sortedKids tmp names p) := by
  rw [Lib.flatMap_split hp]
  exact range!_middle (length_sorted p).symm (by rw [length_sortedKids]; exact startOf_succ p)

theorem prefixSums_spec (hfit : L ∨ tmp.length + 1 < 2 ^ 32) {counts : List Nat}
    (h1 : counts.length = tmp.length + 1)
    (h2 : counts[0]? = some 0)
    (h3 : ∀ p, p < tmp.length → counts[p + 1]? = some (kidsOf tmp p).length) :
    SatIf L (fun starts => starts.length = tmp.length + 1 ∧
      ∀ p, p ≤ tmp.length → starts[p]? = some (startOf tmp p)) (prefixSums tmp.length counts) := by
  have hloop : SatIf L (fun starts => starts.length = tmp.length + 1 ∧
      (∀ p, p ≤ tmp.length → starts[p]? = some (startOf tmp p)) ∧
      ∀ p, tmp.length ≤ p → p < tmp.length → starts[p + 1]? = some (kidsOf tmp p).length)
      (prefixSums tmp.length counts) := by
    refine sat_foldlM_range (I := fun i (counts : List Nat) => counts.length = tmp.length + 1 ∧
      (∀ p, p ≤ i → counts[p]? = some (startOf tmp p)) ∧
      ∀ p, i ≤ p → p < tmp.length → counts[p + 1]? = some (kidsOf tmp p).length) ?_ ?_
    · refine ⟨h1, fun p hp => ?_, fun p _ hp => h3 p hp⟩
      have : p = 0 := by omega
      subst this
      rw [h2, startOf, Lib.start_zero]
    · intro i counts hi hI
      obtain ⟨g1, g2, g3⟩ := hI
      refine (SatIf.of_eq_ok (at!_ok (g3 i (Nat.le_refl i) hi)) rfl :
        SatIf L (fun a => a = _) _).bind
        (fun next hn => ?_)
      refine (SatIf.of_eq_ok (at!_ok (g2 i (Nat.le_refl i))) rfl : SatIf L (fun a => a = _) _).bind
        (fun this ht => ?_)
      subst hn ht
      have hsum : startOf tmp (i + 1) ≤ tmp.length - 1 := by
        rw [← length_nonRoots]
        exact Lib.start_le_length _
      rw [startOf_succ] at hsum
      refine (satIf_toU32 _ (hfit.imp_right fun _ => by omega)).bind (fun sum hs => ?_)
      obtain ⟨rfl, -⟩ := hs
      refine SatIf.of_eq_ok (put!_ok _ (by omega)) ⟨by rw [List.length_set]; exact g1, ?_, ?_⟩
      · intro p hp
        by_cases hpe : p = i + 1
        · subst hpe
          rw [List.getElem?_set_self (by omega), startOf_succ, Nat.add_comm]
        · rw [List.getElem?_set_ne (by omega)]
          exact g2 p (by omega)
      · intro p hip hp
        rw [List.getElem?_set_ne (by omega)]
        exact g3 p (by omega) hp
  exact hloop.mono (fun starts hs => ⟨hs.1, hs.2.1⟩)

namespace Treelike

variable (h : Treelike tmp names)

include h

theorem parentOf_lt {i : Nat} (hi : i ∈ nonRoots tmp) : parentOf tmp i < i := by
  obtain ⟨h0, hlt⟩ := mem_nonRoots.mp hi
  have hn : tmp[i]? = some tmp[i] := List.getElem?_eq_getElem hlt
  rw [parentOf_eq hn]
  exact h.parent_lt i _ h0 hn

theorem startOf_length : startOf tmp tmp.length = tmp.length - 1 := by
  rw [startOf, Lib.start_eq_length, length_nonRoots]
  intro i hi
  exact Nat.lt_trans (h.parentOf_lt hi) (mem_nonRoots.mp hi).2

theorem nameOf_spec {i : Nat} (hi : i < tmp.length) :
    HasKey tmp names i (parentOf tmp i) (nameOf tmp names i) := by
  have hn : tmp[i]? = some tmp[i] := List.getElem?_eq_getElem hi
  obtain ⟨nm, hnm⟩ := h.named i _ hn
  refine ⟨_, hn, (parentOf_eq hn).symm, ?_⟩
  rw [nameOf, hn, Option.bind_some, hnm]
  rfl

theorem countChildren_spec (hfit : L ∨ tmp.length + 1 < 2 ^ 32) :
    SatIf L (fun counts => counts.length = tmp.length + 1 ∧ counts[0]? = some 0 ∧
      ∀ p, p < tmp.length → counts[p + 1]? = some (kidsOf tmp p).length) (countChildren tmp) := by
  have hloop : SatIf L (fun counts => counts.length = tmp.length + 1 ∧ counts[0]? = some 0 ∧
      ∀ p, p < tmp.length → counts[p + 1]? = some (tmp.tail.countP (fun n => n.parent = p)))
      (countChildren tmp) := by
    refine sat_foldlM (I := fun (done : List TmpNode) (counts : List Nat) =>
      counts.length = tmp.length + 1 ∧ counts[0]? = some 0 ∧
      ∀ p, p < tmp.length → counts[p + 1]? = some (done.countP (fun n => n.parent = p))) ?_ ?_
    · refine ⟨List.length_replicate, by simp, fun p hp => ?_⟩
      rw [List.getElem?_replicate, if_pos (by omega)]
      rfl
    · intro done node rest counts hsplit hI
      obtain ⟨h1, h2, h3⟩ := hI
      -- the node's parent is a node
      have hpar : node.parent < tmp.length := by
        have hmem : node ∈ tmp.tail := by rw [hsplit]; simp
        obtain ⟨j, hj⟩ := List.mem_iff_getElem?.mp hmem
        rw [List.getElem?_tail] at hj
        have := h.parent_lt (j + 1) node (by omega) hj
        have := (List.getElem?_eq_some_iff.mp hj).1
        omega
      refine (SatIf.of_eq_ok (at!_ok (h3 _ hpar)) rfl : SatIf L (fun a => a = _) _).bind
        (fun count hc => ?_)
      subst hc
      have hcount : done.countP (fun n => n.parent = node.parent) ≤ done.length :=
        List.countP_le_length
      have hdone : done.length < tmp.length := by
        have := congrArg List.length hsplit
        rw [List.length_tail, List.length_append, List.length_cons] at this
        omega
      refine (satIf_toU32 _ (hfit.imp_right fun _ => by omega)).bind (fun next hn => ?_)
      obtain ⟨rfl, -⟩ := hn
      refine SatIf.of_eq_ok (put!_ok _ (by omega)) ⟨by rw [List.length_set]; exact h1, ?_, ?_⟩
      · rw [List.getElem?_set_ne (by omega)]; exact h2
      · intro p hp
        rw [List.countP_append, List.countP_singleton]
        by_cases hpp : node.parent = p
        · subst hpp
          rw [List.getElem?_set_self (by omega)]
          simp
        · rw [List.getElem?_set_ne (by omega), h3 p hp]
          simp [hpp]
  refine hloop.mono (fun counts hc => ⟨hc.1, hc.2.1, fun p hp => ?_⟩)
  rw [length_kidsOf]
  exact hc.2.2 p hp

/-! ## Laying the groups out -/

theorem scatter_spec (hfit : L ∨ tmp.length + 1 < 2 ^ 32) {starts : List Nat}
    (h1 : starts.length = tmp.length + 1)
    (h2 : ∀ p, p ≤ tmp.length → starts[p]? = some (startOf tmp p)) :
    SatIf L (fun r => r.2 = (List.range tmp.length).flatMap (kidsOf tmp)) (scatter tmp starts) := by
  have hloop : SatIf L (fun r => r.2.length = tmp.length - 1 ∧
      ∀ p j, j < (kidsOf tmp p).length → r.2[startOf tmp p + j]? = (kidsOf tmp p)[j]?)
      (scatter tmp starts) := by
    refine (sat_foldlM (I := fun done (r : List Nat × List Nat) =>
      r.1.length = tmp.length + 1 ∧ r.2.length = tmp.length - 1 ∧
      (∀ p, p < tmp.length →
        r.1[p]? = some (startOf tmp p + (group (parentOf tmp) done p).length)) ∧
      ∀ p j, j < (group (parentOf tmp) done p).length →
        r.2[startOf tmp p + j]? = (group (parentOf tmp) done p)[j]?) ?_ ?_).mono
      (fun r hr => ⟨hr.2.1, hr.2.2.2⟩)
    · refine ⟨h1, List.length_replicate, fun p hp => ?_, fun p j hj => absurd hj (by simp [group])⟩
      exact h2 p (Nat.le_of_lt hp)
    · rintro done i rest ⟨cursor, kids⟩ hsplit ⟨g1, g2, g3, g4⟩
      simp only at g1 g2 g3 g4
      have hmem : i ∈ nonRoots tmp := by rw [nonRoots, hsplit]; simp
      obtain ⟨-, hlt⟩ := mem_nonRoots.mp hmem
      have hn : tmp[i]? = some tmp[i] := List.getElem?_eq_getElem hlt
      have hpar : tmp[i].parent < tmp.length := by
        have := h.parentOf_lt hmem
        rw [parentOf_eq hn] at this
        omega
      have hkey := parentOf_eq hn
      -- the group of a parent has room until all of its children are placed
      have hroom : ∀ p, (group (parentOf tmp) (done ++ [i]) p).length ≤ (kidsOf tmp p).length := by
        intro p
        have : kidsOf tmp p = group (parentOf tmp) (done ++ [i]) p ++
          group (parentOf tmp) rest p := by
          rw [kidsOf, nonRoots, hsplit, group, group, group, ← List.filter_append]
          simp
        rw [this, List.length_append]
        exact Nat.le_add_right _ _
      have hmine : (group (parentOf tmp) done tmp[i].parent).length <
          (kidsOf tmp tmp[i].parent).length := by
        have := hroom tmp[i].parent
        rw [Lib.group_snoc, if_pos hkey, List.length_append, List.length_singleton] at this
        exact this
      have hslot : startOf tmp tmp[i].parent + (group (parentOf tmp) done tmp[i].parent).length <
          tmp.length - 1 := by
        have hle : startOf tmp (tmp[i].parent + 1) ≤ startOf tmp tmp.length := Lib.start_mono hpar
        rw [startOf_succ, h.startOf_length] at hle
        omega
      refine (SatIf.of_eq_ok (at!_ok hn) rfl : SatIf L (fun a => a = _) _).bind
        (fun node hnode => ?_)
      subst hnode
      refine (SatIf.of_eq_ok (at!_ok (g3 _ hpar)) rfl : SatIf L (fun a => a = _) _).bind
        (fun slot hs => ?_)
      subst hs
      refine (satIf_toU32 _ (hfit.imp_right fun _ => by omega)).bind (fun i' hi' => ?_)
      obtain ⟨rfl, -⟩ := hi'
      refine (SatIf.of_eq_ok (put!_ok _ (by omega)) rfl : SatIf L (fun a => a = _) _).bind
        (fun kids' hk => ?_)
      subst hk
      refine (satIf_toU32 _ (hfit.imp_right fun _ => by omega)).bind (fun next hn' => ?_)
      obtain ⟨rfl, -⟩ := hn'
      refine (SatIf.of_eq_ok (put!_ok _ (by omega)) rfl : SatIf L (fun a => a = _) _).bind
        (fun cursor' hc => ?_)
      subst hc
      refine ⟨by rw [List.length_set]; exact g1, by rw [List.length_set]; exact g2, ?_, ?_⟩
      · intro p hp
        rw [Lib.group_snoc, hkey]
        by_cases hpp : tmp[i'].parent = p
        · subst hpp
          rw [List.getElem?_set_self (by omega), if_pos rfl, List.length_append]
          rfl
        · rw [List.getElem?_set_ne hpp, if_neg hpp, List.append_nil, g3 p hp]
      · intro p j hj
        have hj' := Nat.lt_of_lt_of_le hj (hroom p)
        rw [Lib.group_snoc, hkey] at hj ⊢
        by_cases hpp : tmp[i'].parent = p
        · subst hpp
          rw [if_pos rfl, List.length_append, List.length_singleton] at hj
          rw [if_pos rfl]
          rcases Nat.lt_or_eq_of_le (Nat.lt_succ_iff.mp hj) with hlt' | heq
          · rw [List.getElem?_set_ne (by omega), List.getElem?_append_left hlt', g4 _ j hlt']
          · rw [heq, List.getElem?_set_self (by omega), List.getElem?_concat_length]
        · rw [if_neg hpp, List.append_nil] at hj ⊢
          rw [List.getElem?_set_ne (startOf_ne hpp hmine hj'), g4 p j hj]
  refine hloop.mono (fun r hr => ?_)
  have hlen : r.2.length = startOf tmp tmp.length := hr.1.trans h.startOf_length.symm
  exact Lib.eq_flatMap Lib.start_zero startOf_succ hlen
    (fun p j _ hj => hr.2 p j hj)


/-! ## Sorting the groups -/

/-- **Sibling names increase strictly**: they were sorted, and no two are equal. -/
theorem sortedKids_sorted (p : Nat) :
    Lib.StrictSorted (nameOf tmp names) (sortedKids tmp names p) := by
  have hsorted : (sortedKids tmp names p).Pairwise
      (fun a b => (compare (nameOf tmp names a) (nameOf tmp names b)).isLE = true) := by
    rw [sortedKids]
    split
    · rename_i hlen
      match hk : kidsOf tmp p, hlen with
      | [], _ => exact List.Pairwise.nil
      | [a], _ => exact List.pairwise_singleton _ a
    · rw [List.pairwise_map]
      have hpw := List.pairwise_insertionSort nameLE
        ((kidsOf tmp p).map (fun i => (nameOf tmp names i, i)))
      refine List.Pairwise.imp_of_mem ?_ hpw
      intro a b ha hb hle
      rw [List.mem_insertionSort, List.mem_map] at ha hb
      obtain ⟨i, -, rfl⟩ := ha
      obtain ⟨j, -, rfl⟩ := hb
      exact hle
  refine List.Pairwise.imp_of_mem ?_ (hsorted.and (sortedKids_nodup p))
  intro a b ha hb hab
  obtain ⟨hle, hne⟩ := hab
  obtain ⟨⟨ha0, ha1⟩, hap⟩ := mem_sortedKids.mp ha
  obtain ⟨⟨hb0, hb1⟩, hbp⟩ := mem_sortedKids.mp hb
  cases hcmp : compare (nameOf tmp names a) (nameOf tmp names b) with
  | lt => rfl
  | gt => rw [hcmp] at hle; exact absurd hle (by simp)
  | eq =>
      have heq := Std.LawfulEqOrd.eq_of_compare hcmp
      have hka := h.nameOf_spec ha1
      have hkb := h.nameOf_spec hb1
      rw [hap] at hka
      rw [hbp, ← heq] at hkb
      exact absurd (h.unique a b p _ ha0 hb0 hka hkb) hne

/-- Sorting one group cannot fail: every node of it has a name. -/
theorem sortByName_spec (p : Nat) :
    SatIf L (fun r => r = sortedKids tmp names p) (sortByName tmp names (kidsOf tmp p)) := by
  rw [sortByName, sortedKids]
  split
  · exact rfl
  · refine (sat_mapM (g := fun i => (nameOf tmp names i, i)) (fun i hi => ?_)).bind
      (fun keyed hk => by rw [hk]; exact rfl)
    obtain ⟨n, hn, -, hnm⟩ := h.nameOf_spec (mem_kidsOf.mp hi).1.2
    refine (SatIf.of_eq_ok (at!_ok hn) rfl : SatIf L (fun a => a = n) _).bind (fun a ha => ?_)
    subst ha
    exact (SatIf.of_eq_ok (slice!_ok hnm) rfl : SatIf L (fun x => x = _) _).bind
      (fun x hx => by rw [hx]; exact rfl)

theorem sortGroups_spec {starts : List Nat}
    (hs : ∀ p, p ≤ tmp.length → starts[p]? = some (startOf tmp p)) :
    SatIf L (fun kids => kids = (List.range tmp.length).flatMap (sortedKids tmp names))
      (sortGroups tmp names starts ((List.range tmp.length).flatMap (kidsOf tmp))) := by
  -- the groups before `i` are sorted, the others are as they were
  have hloop := sat_foldlM_range (L := L) (n := tmp.length)
    (b := (List.range tmp.length).flatMap (kidsOf tmp))
    (f := fun kids i => do
      let lo ← at! starts i
      let hi ← at! starts (i + 1)
      let sorted ← sortByName tmp names (← range! kids lo hi)
      return kids.take lo ++ sorted ++ kids.drop hi)
    (I := fun i kids => kids = (List.range i).flatMap (sortedKids tmp names) ++
      (List.range' i (tmp.length - i)).flatMap (kidsOf tmp)) (by simp [List.range_eq_range']) ?_
  · refine hloop.mono (fun kids hk => ?_)
    rw [hk]
    simp
  · intro i kids hi hk
    have hrest : List.range' i (tmp.length - i) =
        i :: List.range' (i + 1) (tmp.length - (i + 1)) := by
      rw [show tmp.length - i = (tmp.length - (i + 1)) + 1 by omega, List.range'_succ]
    rw [hrest, List.flatMap_cons, ← List.append_assoc] at hk
    have hlo : startOf tmp i = ((List.range i).flatMap (sortedKids tmp names)).length :=
      (length_sorted i).symm
    refine (SatIf.of_eq_ok (at!_ok (hs i (Nat.le_of_lt hi))) rfl : SatIf L (fun a => a = _) _).bind
      (fun lo hlo' => ?_)
    refine (SatIf.of_eq_ok (at!_ok (hs (i + 1) hi)) rfl : SatIf L (fun a => a = _) _).bind
      (fun hi' hhi' => ?_)
    subst hlo' hhi' hk
    refine (SatIf.of_eq_ok (range!_middle hlo (startOf_succ i)) rfl :
      SatIf L (fun a => a = _) _).bind
      (fun mid hmid => ?_)
    subst hmid
    refine (h.sortByName_spec i).bind (fun sorted hsorted => ?_)
    subst hsorted
    have hend : startOf tmp (i + 1) =
        ((List.range i).flatMap (sortedKids tmp names) ++ kidsOf tmp i).length := by
      rw [List.length_append, ← hlo, startOf_succ]
    refine SatIf.ok (show _ = _ from ?_)
    rw [hend, List.drop_left, hlo, List.append_assoc _ (kidsOf tmp i), List.take_left,
      List.range_succ, List.flatMap_append]
    simp

/-- **The children of every node, by name, one group after another.** -/
theorem groupChildren_spec (hfit : L ∨ tmp.length + 1 < 2 ^ 32) :
    SatIf L (fun r => (∀ p, p ≤ tmp.length → r.1[p]? = some (startOf tmp p)) ∧
      r.2 = (List.range tmp.length).flatMap (sortedKids tmp names)) (groupChildren tmp names) := by
  rw [groupChildren]
  refine (h.countChildren_spec hfit).bind (fun counts hc => ?_)
  refine (prefixSums_spec hfit hc.1 hc.2.1 hc.2.2).bind (fun starts hs => ?_)
  refine (h.scatter_spec hfit hs.1 hs.2).bind (fun r hr => ?_)
  obtain ⟨cursor, kids⟩ := r
  simp only at hr
  subst hr
  refine (h.sortGroups_spec hs.2).bind (fun kids hk => ?_)
  exact ⟨hs.2, hk⟩

end Treelike

end

end ZipFs
