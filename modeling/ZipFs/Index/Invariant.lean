import ZipFs.Index.Lookup

/-!
# What every finished index satisfies

The representation invariant of `Index`, in terms of the index alone: where the
child ranges lie, whose they are, how they are sorted, and which names, metadata
records and symlink cells the nodes point at. It is what makes the slices in
`name`, `children` and `lookup` safe.
-/

namespace ZipFs

open Lib (firstPos)

structure Index.Ok (idx : Index) : Prop where
  sentinel : idx.nodes[0]? = some ZipFs.sentinel
  root : ∃ n, idx.node ROOT_INO = some n ∧ n.kind = .dir ∧ n.parent = ROOT_INO
  range_in : ∀ d n, idx.node d = some n → n.firstChild + n.childLen ≤ idx.len
  range_disjoint : ∀ d d' n n' x, idx.node d = some n → idx.node d' = some n' →
    n.InRange x → n'.InRange x → d = d'
  range_cover : ∀ x, (∃ d n, idx.node d = some n ∧ n.InRange x) ↔ 2 ≤ x ∧ x < idx.len
  parent : ∀ d n x c, idx.node d = some n → n.InRange x → idx.node x = some c → c.parent = d
  only_dirs : ∀ d n, idx.node d = some n → 0 < n.childLen → n.kind = .dir
  /-- Names inside a range increase strictly, bytewise. -/
  sorted : ∀ d n x y c c' nm nm', idx.node d = some n → n.InRange x → n.InRange y → x < y →
    idx.node x = some c → idx.node y = some c' → idx.name c = some nm → idx.name c' = some nm' →
    compare nm nm' = .lt
  lookup_self : ∀ x c nm, 2 ≤ x → idx.node x = some c → idx.name c = some nm →
    idx.lookup c.parent nm = some (some x)
  /-- The binary search agrees with a linear one. -/
  lookup_iff : ∀ d n nm, idx.node d = some n → ∃ r, idx.lookup d nm = some r ∧ ∀ x, r = some x ↔
    n.InRange x ∧ ∃ c, idx.node x = some c ∧ idx.name c = some nm
  subdirs : ∀ d n, idx.node d = some n →
    ∃ kids, slice idx.nodes n.firstChild n.childLen = some kids ∧
    n.subdirCount = (kids.map Node.kind).count .dir
  names_in : ∀ n ∈ idx.nodes, n.nameOff + n.nameLen ≤ idx.names.length
  metas_in : ∀ d n, idx.node d = some n → n.kind ≠ .dir →
    n.metaIdx ≠ NO_META ∧ n.metaIdx < idx.metas.length
  metas_inj : ∀ d d' n n', idx.node d = some n → idx.node d' = some n' → n.metaIdx ≠ NO_META →
    n.metaIdx = n'.metaIdx → d = d'
  slots_in : ∀ d n m, idx.node d = some n → n.kind = .symlink → idx.metaOf n = some m →
    m.symlinkSlot < idx.symlinks
  slots_inj : ∀ d d' n n' m m', idx.node d = some n → idx.node d' = some n' → n.kind = .symlink →
    n'.kind = .symlink → idx.metaOf n = some m → idx.metaOf n' = some m' →
    m.symlinkSlot = m'.symlinkSlot → d = d'
  /-- So reading the index never goes out of bounds. -/
  name_safe : ∀ n ∈ idx.nodes, (idx.name n).isSome
  children_safe : ∀ n ∈ idx.nodes, (idx.children n).isSome
  lookup_safe : ∀ d nm, (idx.lookup d nm).isSome
  meta_safe : ∀ n ∈ idx.nodes, n.metaIdx ≠ NO_META → (idx.metaOf n).isSome

section

variable {b : Builder} {idx : Index} {order : List Nat}

/-- A slice that exists is in bounds. -/
theorem le_of_slice {α : Type} {xs ys : List α} {off len : Nat} (h : slice xs off len = some ys) :
    off + len ≤ xs.length := by
  unfold slice at h
  split at h
  · assumption
  · exact absurd h (by simp)

namespace Finished

variable (hf : Finished b idx order) (h : b.Ok)

include hf

/-- The nodes of the array are the sentinel and the nodes with an inode. -/
theorem mem_nodes {n : Node} (hn : n ∈ idx.nodes) :
    n = ZipFs.sentinel ∨ ∃ d, idx.node d = some n := by
  obtain ⟨d, hd⟩ := List.mem_iff_getElem?.mp hn
  by_cases h0 : d = 0
  · rw [h0, hf.sentinel] at hd
    injection hd with hd
    exact Or.inl hd.symm
  · exact Or.inr ⟨d, by rw [Index.node, if_neg h0]; exact hd⟩

/-- The place of a node's parent is the node's parent. -/
theorem parent_place {j k id child : Nat} {N : Node} {t : TmpNode} (hj : order[j]? = some id)
    (ht : b.nodes[child]? = some t) (hfin : FinalNode b order k child t N)
    (hpar : parentOf b.nodes child = id) : N.parent = j + 1 := by
  obtain ⟨j', hj', he⟩ := hfin.parent
  rw [parentOf_eq ht] at hpar
  rw [hpar] at hj'
  rw [he, hf.place_unique hj' hj]

/-- Only the root has the number 0. -/
theorem child_of_two_le {x : Nat} {c : Node} (hx : 2 ≤ x) (hc : idx.node x = some c) :
    ∃ k child t, x = k + 1 ∧ order[k]? = some child ∧ 0 < child ∧ b.nodes[child]? = some t ∧
      FinalNode b order k child t c := by
  obtain ⟨k, child, t, rfl, hk, ht, hfin⟩ := hf.node_cases hc
  refine ⟨k, child, t, rfl, hk, Nat.pos_of_ne_zero (fun h0 => ?_), ht, hfin⟩
  subst h0
  have := hf.place_unique hk hf.root_at
  omega

/-! ## Ranges -/

theorem range_le {d : Nat} {n : Node} (hn : idx.node d = some n) :
    n.firstChild + n.childLen ≤ idx.len := by
  obtain ⟨j, id, t, rfl, hj, ht, hfin⟩ := hf.node_cases hn
  obtain ⟨kids, hk, -⟩ := hf.kids_slice hj hfin
  exact le_of_slice hk

/-- A child has only one parent, so two ranges that meet belong to one node. -/
theorem inRange_unique {d d' x : Nat} {n n' : Node} (hn : idx.node d = some n)
    (hn' : idx.node d' = some n') (hx : n.InRange x) (hx' : n'.InRange x) : d = d' := by
  obtain ⟨j, id, t, rfl, hj, ht, hfin⟩ := hf.node_cases hn
  obtain ⟨j', id', t', rfl, hj', ht', hfin'⟩ := hf.node_cases hn'
  obtain ⟨k, child, hxk, hk, -, hpar⟩ := (hf.inRange_iff hj hfin).mp hx
  obtain ⟨k', child', hxk', hk', -, hpar'⟩ := (hf.inRange_iff hj' hfin').mp hx'
  have hkk : k = k' := by omega
  subst hkk
  rw [hk] at hk'
  injection hk' with hk'
  rw [← hk', hpar] at hpar'
  rw [hf.place_unique hj (hpar' ▸ hj')]

/-- The ranges leave out the sentinel and the root, and nothing else. -/
theorem exists_inRange_iff {x : Nat} :
    (∃ d n, idx.node d = some n ∧ n.InRange x) ↔ 2 ≤ x ∧ x < idx.len := by
  constructor
  · rintro ⟨d, n, hn, hx⟩
    have hle := hf.range_le hn
    obtain ⟨j, id, t, rfl, hj, ht, hfin⟩ := hf.node_cases hn
    refine ⟨?_, Nat.lt_of_lt_of_le hx.2 hle⟩
    have hlo := hx.1
    rw [hfin.firstChild, firstPos] at hlo
    omega
  · rintro ⟨h2, hlt⟩
    rw [Index.len, hf.length] at hlt
    obtain ⟨j, id, hj, hlo, hhi⟩ := Lib.exists_range hf.queue (x := x - 1) (by omega) (by omega)
    obtain ⟨t, N, ht, hN, hfin⟩ := hf.node_at hj
    refine ⟨j + 1, N, hN, ?_⟩
    rw [Node.InRange, hfin.firstChild, hfin.childLen]
    omega

theorem parent_of_inRange {d x : Nat} {n c : Node} (hn : idx.node d = some n) (hx : n.InRange x)
    (hc : idx.node x = some c) : c.parent = d := by
  obtain ⟨j, id, t, rfl, hj, ht, hfin⟩ := hf.node_cases hn
  obtain ⟨k, child, rfl, hk, -, hpar⟩ := (hf.inRange_iff hj hfin).mp hx
  obtain ⟨tc, C, htc, hC, hCfin⟩ := hf.node_at hk
  rw [hc] at hC
  injection hC with hC
  subst hC
  exact hf.parent_place hj htc hCfin hpar

/-- A position of the range is a position of the slice. -/
theorem kids_at {j id z : Nat} {t : TmpNode} {n C : Node} {kids : List Node}
    (hj : order[j]? = some id) (hfin : FinalNode b order j id t n)
    (hk : slice idx.nodes n.firstChild n.childLen = some kids) (hz : n.InRange z)
    (hC : idx.node z = some C) : kids[z - n.firstChild]? = some C := by
  obtain ⟨kids', hk', -, hat⟩ := hf.kids_slice hj hfin
  rw [hk] at hk'
  injection hk' with hk'
  subst hk'
  obtain ⟨i, rfl⟩ := Nat.exists_eq_add_of_le hz.1
  have hi : i < (sortedKids b.nodes b.names id).length := by
    have := hz.2
    rw [hfin.childLen] at this
    omega
  obtain ⟨-, C', -, hC', hnode, -⟩ := hat i hi
  rw [hC] at hnode
  injection hnode with hnode
  rw [Nat.add_sub_cancel_left, hnode]
  exact hC'

theorem subdirCount_eq {d : Nat} {n : Node} (hn : idx.node d = some n) :
    ∃ kids, slice idx.nodes n.firstChild n.childLen = some kids ∧
      n.subdirCount = (kids.map Node.kind).count .dir := by
  obtain ⟨j, id, t, rfl, hj, ht, hfin⟩ := hf.node_cases hn
  obtain ⟨kids, hk, hlen, hat⟩ := hf.kids_slice hj hfin
  refine ⟨kids, hk, ?_⟩
  rw [hfin.subdirCount]
  congr 1
  refine List.ext_getElem (by simp [hlen]) (fun c hc hc' => ?_)
  rw [List.length_map] at hc hc'
  obtain ⟨tc, C, htc, hC, -, hCfin⟩ := hat c hc
  rw [List.getElem?_eq_getElem hc'] at hC
  injection hC with hC
  rw [List.getElem_map, List.getElem_map, hC, hCfin.kind, kindOf, htc]
  rfl

include h

theorem dir_of_inRange {d x : Nat} {n : Node} (hn : idx.node d = some n) (hx : n.InRange x) :
    n.kind = .dir := by
  obtain ⟨j, id, t, rfl, hj, ht, hfin⟩ := hf.node_cases hn
  obtain ⟨k, child, -, hk, hpos, hpar⟩ := (hf.inRange_iff hj hfin).mp hx
  have hlt := (hf.mem_iff child).mp (List.mem_of_getElem? hk)
  have hc : b.nodes[child]? = some b.nodes[child] := List.getElem?_eq_getElem hlt
  rw [parentOf_eq hc] at hpar
  rw [hfin.kind]
  exact h.parent_dir child _ t hpos hc (by rw [hpar]; exact ht)

/-- What a node has as its parent is a directory, the root's parent being itself. -/
theorem parent_node {d : Nat} {n : Node} (hn : idx.node d = some n) :
    ∃ p, idx.node n.parent = some p ∧ p.kind = .dir := by
  obtain ⟨j, id, t, rfl, hj, ht, hfin⟩ := hf.node_cases hn
  obtain ⟨j', hj', he⟩ := hfin.parent
  obtain ⟨tp, P, htp, hP, hPfin⟩ := hf.node_at hj'
  refine ⟨P, by rw [he]; exact hP, ?_⟩
  rw [hPfin.kind]
  rcases Nat.eq_zero_or_pos id with h0 | h0
  · rw [h0, h.root] at ht
    injection ht with ht
    rw [← ht, show rootNode.parent = 0 from rfl, h.root] at htp
    injection htp with htp
    rw [← htp]
    rfl
  · exact h.parent_dir id t tp h0 ht htp

theorem root_node : ∃ n, idx.node ROOT_INO = some n ∧ n.kind = .dir ∧ n.parent = ROOT_INO := by
  obtain ⟨t, N, ht, hN, hfin⟩ := hf.node_at hf.root_at
  rw [h.root] at ht
  injection ht with ht
  refine ⟨N, hN, ?_, ?_⟩
  · rw [hfin.kind, ← ht]
    rfl
  · obtain ⟨j', hj', he⟩ := hfin.parent
    rw [← ht] at hj'
    rw [he, hf.place_unique hj' hf.root_at]
    rfl

/-! ## Names -/

theorem name_isSome {n : Node} (hn : n ∈ idx.nodes) : (idx.name n).isSome := by
  rcases hf.mem_nodes hn with rfl | ⟨d, hd⟩
  · rfl
  · obtain ⟨j, id, t, rfl, hj, ht, hfin⟩ := hf.node_cases hd
    rw [hf.name_eq h hj ht hfin]
    rfl

theorem names_increase {d x y : Nat} {n c c' : Node} {nm nm' : Bytes} (hn : idx.node d = some n)
    (hx : n.InRange x) (hy : n.InRange y) (hxy : x < y) (hc : idx.node x = some c)
    (hc' : idx.node y = some c') (hnm : idx.name c = some nm) (hnm' : idx.name c' = some nm') :
    compare nm nm' = .lt := by
  obtain ⟨j, id, t, rfl, hj, ht, hfin⟩ := hf.node_cases hn
  have hk := slice_eq_some (hf.range_le hn)
  have hlt := (hf.kids_sorted h hj hfin hk).lt_of_lt
    (show x - n.firstChild < y - n.firstChild by have := hx.1; omega)
    (hf.kids_at hj hfin hk hx hc) (hf.kids_at hj hfin hk hy hc')
  simp only [hnm, hnm', Option.getD_some] at hlt
  exact hlt

theorem lookup_parent {x : Nat} {c : Node} {nm : Bytes} (h2 : 2 ≤ x) (hc : idx.node x = some c)
    (hnm : idx.name c = some nm) : idx.lookup c.parent nm = some (some x) := by
  obtain ⟨k, child, t, rfl, hk, hpos, ht, hfin⟩ := hf.child_of_two_le h2 hc
  obtain ⟨j', hj', he⟩ := hfin.parent
  obtain ⟨r, hr, hiff⟩ := hf.lookup_child h hj' nm
  rw [he, hr]
  refine congrArg some ((hiff (k + 1)).mpr ⟨k, child, rfl, hk, hpos, ?_⟩)
  rw [hf.name_eq h hk ht hfin] at hnm
  injection hnm with hnm
  rw [← hnm, ← parentOf_eq ht]
  exact h.treelike.nameOf_spec ((hf.mem_iff child).mp (List.mem_of_getElem? hk))

theorem lookup_isSome (d : Nat) (nm : Bytes) : (idx.lookup d nm).isSome := by
  cases hd : idx.node d with
  | none => rw [Index.lookup, hd]; rfl
  | some n =>
      obtain ⟨r, hr, -⟩ := hf.lookup_spec h hd nm
      rw [hr]
      rfl

omit h in
theorem children_isSome {n : Node} (hn : n ∈ idx.nodes) : (idx.children n).isSome := by
  rw [Index.children]
  split
  · rfl
  · rcases hf.mem_nodes hn with rfl | ⟨d, hd⟩
    · rw [slice_eq_some (by simp [ZipFs.sentinel])]
      rfl
    · rw [slice_eq_some (hf.range_le hd)]
      rfl

/-! ## Metadata -/

/-- The metadata link of a final node, as the builder's invariant gives it. -/
theorem meta_cases (hroom : b.metas.length ≤ NO_META) {d : Nat} {n : Node}
    (hn : idx.node d = some n) :
    (n.kind = .dir ∧ n.metaIdx = NO_META) ∨ ∃ j id t, d = j + 1 ∧ order[j]? = some id ∧
      b.nodes[id]? = some t ∧ t.synthetic = false ∧ t.metaIdx = n.metaIdx ∧ t.kind = n.kind ∧
      n.metaIdx ≠ NO_META ∧ n.metaIdx < idx.metas.length := by
  obtain ⟨j, id, t, rfl, hj, ht, hfin⟩ := hf.node_cases hn
  cases hs : t.synthetic with
  | true =>
      obtain ⟨h1, h2⟩ := h.implied id t ht hs
      exact Or.inl ⟨hfin.kind.trans h1, hfin.metaIdx.trans h2⟩
  | false =>
      have hlt := h.claimed id t ht hs
      refine Or.inr ⟨j, id, t, rfl, hj, ht, hs, hfin.metaIdx.symm, hfin.kind.symm, ?_, ?_⟩
      · rw [hfin.metaIdx]
        exact Nat.ne_of_lt (Nat.lt_of_lt_of_le hlt hroom)
      · rw [hfin.metaIdx, hf.metas]
        exact hlt

/-- A symlink of the index, with its metadata, in the builder. -/
theorem symlink_cases (hroom : b.metas.length ≤ NO_META) {d : Nat} {n : Node} {m : EntryMeta}
    (hn : idx.node d = some n) (hk : n.kind = .symlink) (hm : idx.metaOf n = some m) :
    ∃ j id t, d = j + 1 ∧ order[j]? = some id ∧ b.nodes[id]? = some t ∧ t.kind = .symlink ∧
      b.metas[t.metaIdx]? = some m := by
  rcases hf.meta_cases h hroom hn with ⟨hd, -⟩ | ⟨j, id, t, hd, hj, ht, -, hi, hkind, hne, -⟩
  · rw [hd] at hk; exact absurd hk (by simp)
  · refine ⟨j, id, t, hd, hj, ht, hkind.trans hk, ?_⟩
    rw [Index.metaOf, if_neg hne, hf.metas, ← hi] at hm
    exact hm

theorem metaIdx_unique (hroom : b.metas.length ≤ NO_META) {d d' : Nat} {n n' : Node}
    (hn : idx.node d = some n) (hn' : idx.node d' = some n') (hne : n.metaIdx ≠ NO_META)
    (he : n.metaIdx = n'.metaIdx) : d = d' := by
  rcases hf.meta_cases h hroom hn with ⟨-, hd⟩ | ⟨j, id, t, rfl, hj, ht, hs, hi, -, -, -⟩
  · exact absurd hd hne
  rcases hf.meta_cases h hroom hn' with ⟨-, hd⟩ | ⟨j', id', t', rfl, hj', ht', hs', hi', -, -, -⟩
  · exact absurd (he.trans hd) hne
  have := h.meta_inj id id' t t' ht ht' hs hs' (hi.trans (he.trans hi'.symm))
  rw [hf.place_unique hj (this ▸ hj')]

theorem slot_unique (hroom : b.metas.length ≤ NO_META) {d d' : Nat} {n n' : Node}
    {m m' : EntryMeta} (hn : idx.node d = some n) (hn' : idx.node d' = some n')
    (hk : n.kind = .symlink) (hk' : n'.kind = .symlink) (hm : idx.metaOf n = some m)
    (hm' : idx.metaOf n' = some m') (he : m.symlinkSlot = m'.symlinkSlot) : d = d' := by
  obtain ⟨j, id, t, rfl, hj, ht, hkt, hmt⟩ := hf.symlink_cases h hroom hn hk hm
  obtain ⟨j', id', t', rfl, hj', ht', hkt', hmt'⟩ := hf.symlink_cases h hroom hn' hk' hm'
  have := h.slot_inj id id' t t' m m' ht ht' hkt hkt' hmt hmt' he
  rw [hf.place_unique hj (this ▸ hj')]

theorem metaOf_isSome (hroom : b.metas.length ≤ NO_META) {n : Node} (hn : n ∈ idx.nodes)
    (hne : n.metaIdx ≠ NO_META) : (idx.metaOf n).isSome := by
  rcases hf.mem_nodes hn with rfl | ⟨d, hd⟩
  · exact absurd rfl hne
  · rcases hf.meta_cases h hroom hd with ⟨-, he⟩ | ⟨_, _, _, -, -, -, -, -, -, -, hlt⟩
    · exact absurd he hne
    · rw [Index.metaOf, if_neg hne, List.getElem?_eq_getElem hlt]
      rfl

theorem index_ok (hroom : b.metas.length ≤ NO_META) : idx.Ok where
  sentinel := hf.sentinel
  root := hf.root_node h
  range_in _ _ hn := hf.range_le hn
  range_disjoint _ _ _ _ _ hn hn' hx hx' := hf.inRange_unique hn hn' hx hx'
  range_cover _ := hf.exists_inRange_iff
  parent _ _ _ _ hn hx hc := hf.parent_of_inRange hn hx hc
  only_dirs _ n hn hpos := hf.dir_of_inRange h hn (x := n.firstChild) ⟨Nat.le_refl _, by omega⟩
  sorted _ _ _ _ _ _ _ _ hn hx hy hxy hc hc' hnm hnm' :=
    hf.names_increase h hn hx hy hxy hc hc' hnm hnm'
  lookup_self _ _ _ h2 hc hnm := hf.lookup_parent h h2 hc hnm
  lookup_iff _ _ nm hn := hf.lookup_spec h hn nm
  subdirs _ _ hn := hf.subdirCount_eq hn
  names_in n hn := by
    obtain ⟨nm, hnm⟩ := Option.isSome_iff_exists.mp (hf.name_isSome h hn)
    exact le_of_slice hnm
  metas_in d n hn hk := by
    rcases hf.meta_cases h hroom hn with ⟨hd, -⟩ | ⟨_, _, _, -, -, -, -, -, -, hne, hlt⟩
    · exact absurd hd hk
    · exact ⟨hne, hlt⟩
  metas_inj _ _ _ _ hn hn' hne he := hf.metaIdx_unique h hroom hn hn' hne he
  slots_in d n m hn hk hm := by
    obtain ⟨j, id, t, -, -, ht, hk', hm'⟩ := hf.symlink_cases h hroom hn hk hm
    rw [hf.symlinks]
    exact h.slot_lt id t m ht hk' hm'
  slots_inj _ _ _ _ _ _ hn hn' hk hk' hm hm' he := hf.slot_unique h hroom hn hn' hk hk' hm hm' he
  name_safe _ hn := hf.name_isSome h hn
  children_safe _ hn := hf.children_isSome hn
  lookup_safe d nm := hf.lookup_isSome h d nm
  meta_safe _ hn hne := hf.metaOf_isSome h hroom hn hne

end Finished

end

/-- **Every index that `build` returns satisfies the invariant.** -/
theorem build_index_ok {hint : Nat} {entries : List Entry} (hlen : entries.length < 2 ^ 32 - 1)
    {idx : Index} {stats : BuildStats} (hb : build hint entries = .ok (idx, stats)) : idx.Ok := by
  obtain ⟨b, order, hbuilt⟩ := (build_spec hint entries).elim hb
  exact hbuilt.finished.index_ok hbuilt.ok (hbuilt.room hlen)

/-- Metadata for entries of a given size and mode, stored without compression. -/
def storedMeta (size mode : Nat) : EntryMeta :=
  { wayfinder := 0, uncompressedSize := size, compressedSize := size, mtimeSec := 0,
    mtimeNsec := 0, crc32 := 0, methodRaw := 0, mode := mode, encrypted := false, symlinkSlot := 0 }

/-- `b/y`, `b/x -> target` and `a`, in that order. -/
def sampleEntries : List Entry :=
  [⟨[98, 47, 121], false, storedMeta 3 0o100644⟩, ⟨[98, 47, 120], false, storedMeta 1 0o120777⟩,
    ⟨[97], false, storedMeta 2 0o100644⟩]

theorem build_index_ok_sample : ∃ idx stats, build 3 sampleEntries = .ok (idx, stats) ∧
    idx.len = 6 ∧ idx.Ok := by
  have hrun : (build 3 sampleEntries).toOption.map (fun r => r.1.len) = some 6 := by decide +kernel
  obtain ⟨⟨idx, stats⟩, hb, hl⟩ := exists_ok_of_map hrun
  exact ⟨idx, stats, hb, hl, build_index_ok (by decide) hb⟩

end ZipFs
