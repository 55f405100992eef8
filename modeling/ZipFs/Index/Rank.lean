import ZipFs.Index.Order
import Mathlib.Data.Set.Card

/-!
# Which inode a path gets

The second pass takes directories from a queue and gives their children the next inodes, in the
order of their names. What that comes to can be said without a queue: a path comes before
another if it is shorter, or is as long and comes first name by name, and the inode of a path
counts the paths that come before it.

So an inode depends on nothing but which paths there are. Which entries declared them, in what
order, and which of several entries won a path has no part in it.
-/

namespace ZipFs

/-- The paths that a tree has. -/
def Tree.paths (T : Tree) : Set (List Bytes) := {p | (T p).isSome}

/-- Fewer names first, then name by name. -/
def Before : List Bytes → List Bytes → Prop := List.Shortlex fun a b => compare a b = .lt

theorem Before.asymm {p q : List Bytes} (h : Before p q) : ¬ Before q p := by
  have hlt : Std.Asymm fun a b : Bytes => compare a b = .lt := by
    refine ⟨fun a b hab hba => ?_⟩
    rw [Std.OrientedOrd.eq_swap, hab] at hba
    exact absurd hba (by decide)
  exact List.Shortlex.asymm.asymm p q h

section Rank

variable {entries : List Entry} {idx : Index} {b : Builder} {order : List Nat}

/-- A path for each node. -/
theorem Builder.Ok.exists_paths (h : b.Ok) :
    ∃ path : Nat → List Bytes, ∀ id < b.nodes.length, PathOf b.nodes b.names id (path id) := by
  have hex : ∀ id, ∃ p, id < b.nodes.length → PathOf b.nodes b.names id p := by
    intro id
    by_cases hid : id < b.nodes.length
    · obtain ⟨p, hp⟩ := h.exists_path id hid
      exact ⟨p, fun _ => hp⟩
    · exact ⟨[], fun h => absurd h hid⟩
  choose path hpath using hex
  exact ⟨path, hpath⟩

/-- The queue goes by the paths. -/
theorem Finished.before (hf : Finished b idx order) (h : b.Ok) {i j id id' : Nat}
    {p q : List Bytes} (hij : i < j) (hi : order[i]? = some id) (hj : order[j]? = some id')
    (hp : PathOf b.nodes b.names id p) (hq : PathOf b.nodes b.names id' q) : Before p q := by
  obtain ⟨path, hpath⟩ := h.exists_paths
  have hat : ∀ id ∈ order, PathOf b.nodes b.names id (path id) :=
    fun id hid => hpath id ((hf.mem_iff id).mp hid)
  have hroot : path 0 = [] := (hat 0 (List.mem_of_getElem? hf.root_at)).path_unique .root
  have hkids : ∀ t ∈ order, ∀ a ∈ sortedKids b.nodes b.names t,
      path a = path t ++ [nameOf b.nodes b.names a] := by
    intro t ht a ha
    exact (hpath a (mem_sortedKids.mp ha).1.2).path_unique (pathOf_kid h (hat t ht) ha)
  have hsorted : ∀ t, (sortedKids b.nodes b.names t).Pairwise fun x y =>
      compare (nameOf b.nodes b.names x) (nameOf b.nodes b.names y) = .lt :=
    h.treelike.sortedKids_sorted
  rw [hp.path_unique (hat id (List.mem_of_getElem? hi)),
    hq.path_unique (hat id' (List.mem_of_getElem? hj))]
  exact (hf.traversal h).shortlex (r := fun x y => compare x y = .lt) hroot hkids hsorted hij hi hj

/-- Places and paths are ordered alike. -/
theorem Finished.place_lt_iff (hf : Finished b idx order) (h : b.Ok) {i j id id' : Nat}
    {p q : List Bytes} (hi : order[i]? = some id) (hj : order[j]? = some id')
    (hp : PathOf b.nodes b.names id p) (hq : PathOf b.nodes b.names id' q) :
    i < j ↔ Before p q := by
  refine ⟨fun hij => hf.before h hij hi hj hp hq, fun hpq => ?_⟩
  rcases Nat.lt_trichotomy i j with hij | rfl | hij
  · exact hij
  · obtain rfl := Option.some.inj (hi.symm.trans hj)
    obtain rfl := hp.path_unique hq
    exact absurd hpq hpq.asymm
  · exact absurd hpq (hf.before h hij hj hi hq hp).asymm

/-- The place of a node counts the paths before its own. -/
theorem Built.place_eq_ncard (hb : Built entries idx b order) {j id : Nat} {p : List Bytes}
    (hj : order[j]? = some id) (hp : PathOf b.nodes b.names id p) :
    j = {q ∈ (treeOf (accepted entries)).paths | Before q p}.ncard := by
  obtain ⟨path, hpath⟩ := hb.ok.exists_paths
  have hf := hb.finished
  have hat : ∀ id ∈ order, PathOf b.nodes b.names id (path id) :=
    fun id hid => hpath id ((hf.mem_iff id).mp hid)
  have hle : j ≤ order.length := Nat.le_of_lt (List.getElem?_eq_some_iff.mp hj).1
  have hset : {q ∈ (treeOf (accepted entries)).paths | Before q p} =
      (((order.take j).map path).toFinset : Set (List Bytes)) := by
    ext q
    simp only [Set.mem_ofPred_eq, List.coe_toFinset, List.mem_map]
    constructor
    · intro hq
      obtain ⟨hmem, hbefore⟩ := hq
      obtain ⟨id', hid', hq⟩ := hb.models.reached q hmem
      obtain ⟨i, hi⟩ := hf.place_of hid'
      have hij := (hf.place_lt_iff hb.ok hi hj hq hp).mpr hbefore
      refine ⟨id', ?_, (hpath id' hid').path_unique hq⟩
      exact List.mem_of_getElem? ((List.getElem?_take_of_lt hij).trans hi)
    · intro hq
      obtain ⟨id', hid', rfl⟩ := hq
      obtain ⟨i, hij, hi⟩ := List.mem_take_iff_getElem.mp hid'
      have hi' : order[i]? = some id' := List.getElem?_eq_some_iff.mpr ⟨by omega, hi⟩
      have hmem := List.mem_of_getElem? hi'
      refine ⟨?_, (hf.place_lt_iff hb.ok hi' hj (hat id' hmem) hp).mp (by omega)⟩
      have hget := List.getElem?_eq_getElem ((hf.mem_iff id').mp hmem)
      show ((treeOf (accepted entries)) (path id')).isSome
      rw [hb.models.at_node id' _ _ hget (hat id' hmem)]
      rfl
  have hnodup : ((order.take j).map path).Nodup := by
    refine List.Nodup.map_on ?_ (hf.nodup.sublist (List.take_sublist j order))
    intro x hx y hy hxy
    have hpx := hat x (List.mem_of_mem_take hx)
    rw [hxy] at hpx
    exact hpx.node_unique hb.ok.unique (hat y (List.mem_of_mem_take hy))
  rw [hset, Set.ncard_coe_finset, List.toFinset_card_of_nodup hnodup, List.length_map,
    List.length_take, Nat.min_eq_left hle]

/-- Where the walk along a path ends. -/
theorem Built.walk_cases (hb : Built entries idx b order) (p : List Bytes) :
    (p ∉ (treeOf (accepted entries)).paths ∧ idx.walk p ROOT_INO = some none) ∨
      p ∈ (treeOf (accepted entries)).paths ∧ ∃ j id, order[j]? = some id ∧
        PathOf b.nodes b.names id p ∧ idx.walk p ROOT_INO = some (some (j + 1)) := by
  obtain ⟨r, hr, hsome, -⟩ := hb.finished.walk_tree hb.ok hb.models p
  obtain ⟨r', hr', hiff⟩ := hb.finished.walk_root hb.ok p
  obtain rfl := Option.some.inj (hr.symm.trans hr')
  cases r with
  | none =>
      left
      refine ⟨fun hp => ?_, hr⟩
      exact absurd (hsome.mpr hp) (by simp)
  | some ino =>
      right
      obtain ⟨j, id, rfl, hj, hp⟩ := (hiff ino).mp rfl
      exact ⟨hsome.mp rfl, j, id, hj, hp, hr⟩

/-- The inode of a path. -/
theorem Built.place_of_walk (hb : Built entries idx b order) {p : List Bytes} {ino : Nat}
    (h : idx.walk p ROOT_INO = some (some ino)) :
    ∃ j id, ino = j + 1 ∧ order[j]? = some id ∧ PathOf b.nodes b.names id p := by
  rcases hb.walk_cases p with ⟨-, hnone⟩ | ⟨-, j, id, hj, hp, hsome⟩
  · exact absurd (h.symm.trans hnone) (by simp)
  · exact ⟨j, id, by simpa using h.symm.trans hsome, hj, hp⟩

end Rank

/--
**An inode counts the paths before its own.** For every central directory that can be built:
the inodes of two paths are in the order of the paths, shorter ones first and then name by name
in the order of the bytes, and the inode of a path is one more than the number of paths before
it. Two archives with the same paths therefore give each path the same inode, whatever else
differs between them.
-/
theorem inode_is_rank {hint : Nat} {entries : List Entry} {idx : Index} {stats : BuildStats}
    (hbuild : build hint entries = .ok (idx, stats)) :
    (∀ p q i j, idx.walk p ROOT_INO = some (some i) → idx.walk q ROOT_INO = some (some j) →
      (i < j ↔ Before p q)) ∧
    (∀ p i, idx.walk p ROOT_INO = some (some i) →
      i = 1 + {q ∈ (treeOf (accepted entries)).paths | Before q p}.ncard) ∧
    ∀ hint' entries' idx' stats', build hint' entries' = .ok (idx', stats') →
      (treeOf (accepted entries)).paths = (treeOf (accepted entries')).paths →
      ∀ p, idx.walk p ROOT_INO = idx'.walk p ROOT_INO := by
  obtain ⟨b, order, hb⟩ := (build_spec hint entries).elim hbuild
  refine ⟨?_, ?_, ?_⟩
  · intro p q i j hp hq
    obtain ⟨k, id, rfl, hk, hp⟩ := hb.place_of_walk hp
    obtain ⟨l, id', rfl, hl, hq⟩ := hb.place_of_walk hq
    rw [Nat.add_lt_add_iff_right]
    exact hb.finished.place_lt_iff hb.ok hk hl hp hq
  · intro p i hp
    obtain ⟨k, id, rfl, hk, hp⟩ := hb.place_of_walk hp
    rw [← hb.place_eq_ncard hk hp, Nat.add_comm]
  · intro hint' entries' idx' stats' hbuild' hpaths p
    obtain ⟨b', order', hb'⟩ := (build_spec hint' entries').elim hbuild'
    rcases hb.walk_cases p with ⟨hp, hw⟩ | ⟨hp, j, id, hj, hpath, hw⟩
    · rcases hb'.walk_cases p with ⟨-, hw'⟩ | ⟨hp', -⟩
      · rw [hw, hw']
      · exact absurd (hpaths ▸ hp') hp
    · rcases hb'.walk_cases p with ⟨hp', -⟩ | ⟨-, j', id', hj', hpath', hw'⟩
      · exact absurd (hpaths ▸ hp) hp'
      · rw [hw, hw', hb.place_eq_ncard hj hpath, hb'.place_eq_ncard hj' hpath', hpaths]

/-- The root, `a` and `b` come before `b/x`. -/
theorem inode_is_rank_sample : ∃ idx stats, build 3 sampleEntries = .ok (idx, stats) ∧
    idx.walk [[98], [120]] ROOT_INO = some (some 4) ∧
    {q ∈ (treeOf (accepted sampleEntries)).paths | Before q [[98], [120]]}.ncard = 3 := by
  have hrun : (build 3 sampleEntries).toOption.map
      (fun r => r.1.walk [[98], [120]] ROOT_INO) = some (some (some 4)) := by decide +kernel
  obtain ⟨⟨idx, stats⟩, hb, hwalk⟩ := exists_ok_of_map hrun
  have hrank := (inode_is_rank hb).2.1 _ _ hwalk
  exact ⟨idx, stats, hb, hwalk, by omega⟩

end ZipFs
