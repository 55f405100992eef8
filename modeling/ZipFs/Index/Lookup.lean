import ZipFs.Index.FinishProof
import ZipFs.Index.AddProof

/-!
# Looking names up

The finished index, through the functions that read it. The children of a
directory are a slice of the node array with strictly increasing names, so the
binary search of `lookup` finds exactly the child of that name. Walking down from
the root therefore follows the paths of the first pass, and the tree that the
accepted entries make is the tree that a walk sees.
-/

namespace ZipFs

open Lib (firstPos)

/-- Following names down from an inode. -/
def Index.walk (idx : Index) : List Bytes → Nat → Checked (Option Nat)
  | [], ino => some (some ino)
  | c :: cs, ino =>
      match idx.lookup ino c with
      | none => none
      | some none => some none
      | some (some next) => idx.walk cs next

/-- `x` lies in the child range of `n`. -/
def Node.InRange (n : Node) (x : Nat) : Prop :=
  n.firstChild ≤ x ∧ x < n.firstChild + n.childLen

section Finished

variable {b : Builder} {idx : Index} {order : List Nat}

namespace Finished

/-- Every inode but 0 is the place of some node, plus one. -/
theorem node_cases (hf : Finished b idx order) {ino : Nat} {N : Node}
    (hN : idx.node ino = some N) :
    ∃ j id t, ino = j + 1 ∧ order[j]? = some id ∧ b.nodes[id]? = some t ∧
      FinalNode b order j id t N := by
  rw [Index.node] at hN
  split at hN
  · exact absurd hN (by simp)
  rename_i h0
  obtain ⟨j, rfl⟩ := Nat.exists_eq_succ_of_ne_zero h0
  have hlt := (List.getElem?_eq_some_iff.mp hN).1
  rw [hf.length] at hlt
  have hj : order[j]? = some order[j] := List.getElem?_eq_getElem (by omega)
  obtain ⟨t, N', ht, hN', hfin⟩ := hf.node j _ hj
  rw [show j.succ = j + 1 from rfl, hN'] at hN
  injection hN with hN
  subst hN
  exact ⟨j, _, t, rfl, hj, ht, hfin⟩

theorem node_at (hf : Finished b idx order) {j id : Nat} (hj : order[j]? = some id) :
    ∃ t N, b.nodes[id]? = some t ∧ idx.node (j + 1) = some N ∧ FinalNode b order j id t N := by
  obtain ⟨t, N, ht, hN, hfin⟩ := hf.node j id hj
  exact ⟨t, N, ht, by rw [Index.node, if_neg (Nat.succ_ne_zero j)]; exact hN, hfin⟩

/-- A number has only one place. -/
theorem place_unique (hf : Finished b idx order) {i j id : Nat} (hi : order[i]? = some id)
    (hj : order[j]? = some id) : i = j := by
  obtain ⟨_, h1⟩ := List.getElem?_eq_some_iff.mp hi
  obtain ⟨_, h2⟩ := List.getElem?_eq_some_iff.mp hj
  exact (List.Nodup.getElem_inj_iff hf.nodup).mp (h1.trans h2.symm)

theorem place_of (hf : Finished b idx order) {id : Nat} (hid : id < b.nodes.length) :
    ∃ j : Nat, order[j]? = some id :=
  List.mem_iff_getElem?.mp ((hf.mem_iff id).mpr hid)

/-- The queue is the nodes in another order. -/
theorem order_perm (hf : Finished b idx order) : order.Perm (List.range b.nodes.length) := by
  rw [List.perm_ext_iff_of_nodup hf.nodup List.nodup_range]
  intro id
  rw [hf.mem_iff, List.mem_range]

theorem length_order (hf : Finished b idx order) : order.length = b.nodes.length := by
  rw [hf.order_perm.length_eq, List.length_range]

theorem root_at (hf : Finished b idx order) : order[0]? = some 0 := by
  rw [hf.queue]
  rfl

/-- The name of a final node is the name the first pass gave it. -/
theorem name_eq (hf : Finished b idx order) (h : b.Ok) {j id : Nat} {t : TmpNode} {N : Node}
    (hj : order[j]? = some id) (ht : b.nodes[id]? = some t) (hfin : FinalNode b order j id t N) :
    idx.name N = some (nameOf b.nodes b.names id) := by
  have hid := (hf.mem_iff id).mp (List.mem_of_getElem? hj)
  obtain ⟨t', ht', -, hnm⟩ := h.treelike.nameOf_spec hid
  rw [ht] at ht'
  injection ht' with ht'
  rw [Index.name, hf.names, hfin.nameOff, hfin.nameLen, ht']
  exact hnm

/-- The children of `id`, in the queue. -/
theorem child_place (hf : Finished b idx order) {j id c : Nat} (hj : order[j]? = some id)
    (hc : c < (sortedKids b.nodes b.names id).length) :
    order[firstPos (sortedKids b.nodes b.names) order j + c]? =
      some (sortedKids b.nodes b.names id)[c] := by
  obtain ⟨h1, -⟩ := Lib.children_at hf.queue hj
  rw [← List.getElem?_drop, ← List.getElem?_take_of_lt hc, h1, List.getElem?_eq_getElem hc]

/-- What is in a child range: exactly the children. -/
theorem inRange_iff (hf : Finished b idx order) {j id : Nat} {t : TmpNode} {N : Node}
    (hj : order[j]? = some id) (hfin : FinalNode b order j id t N) {x : Nat} :
    N.InRange x ↔ ∃ k child, x = k + 1 ∧ order[k]? = some child ∧ 0 < child ∧
      parentOf b.nodes child = id := by
  rw [Node.InRange, hfin.firstChild, hfin.childLen]
  constructor
  · rintro ⟨hlo, hhi⟩
    obtain ⟨c, rfl⟩ := Nat.exists_eq_add_of_le hlo
    have hc : c < (sortedKids b.nodes b.names id).length := by omega
    have hmem := List.getElem_mem hc
    rw [mem_sortedKids] at hmem
    exact ⟨_, _, by omega, hf.child_place hj hc, hmem.1.1, hmem.2⟩
  · rintro ⟨k, child, rfl, hk, hpos, hpar⟩
    have hlt := (hf.mem_iff child).mp (List.mem_of_getElem? hk)
    obtain ⟨c, hc, hce⟩ := List.mem_iff_getElem.mp
      (mem_sortedKids.mpr ⟨⟨hpos, hlt⟩, hpar⟩ : child ∈ sortedKids b.nodes b.names id)
    have hplace := hf.child_place hj hc
    rw [hce] at hplace
    have := hf.place_unique hk hplace
    omega

/-- The slice `lookup` searches. -/
theorem kids_slice (hf : Finished b idx order) {j id : Nat} {t : TmpNode} {N : Node}
    (hj : order[j]? = some id) (hfin : FinalNode b order j id t N) :
    ∃ kids, slice idx.nodes N.firstChild N.childLen = some kids ∧
      kids.length = (sortedKids b.nodes b.names id).length ∧
      ∀ (c : Nat) (hc : c < (sortedKids b.nodes b.names id).length), ∃ tc C,
        b.nodes[(sortedKids b.nodes b.names id)[c]]? = some tc ∧ kids[c]? = some C ∧
          idx.node (N.firstChild + c) = some C ∧
          FinalNode b order (firstPos (sortedKids b.nodes b.names) order j + c)
            (sortedKids b.nodes b.names id)[c] tc C := by
  obtain ⟨-, hend⟩ := Lib.children_at hf.queue hj
  have hle : N.firstChild + N.childLen ≤ idx.nodes.length := by
    rw [hfin.firstChild, hfin.childLen, hf.length]
    omega
  refine ⟨_, slice_eq_some hle, ?_, fun c hc => ?_⟩
  · rw [List.length_take, List.length_drop, hfin.childLen]
    rw [hfin.childLen] at hle
    omega
  · obtain ⟨tc, C, htc, hC, hCfin⟩ := hf.node_at (hf.child_place hj hc)
    have hplace : firstPos (sortedKids b.nodes b.names) order j + c + 1 = N.firstChild + c := by
      rw [hfin.firstChild]
      omega
    rw [hplace] at hC
    refine ⟨tc, C, htc, ?_, hC, hCfin⟩
    rw [Index.node, if_neg (by rw [hfin.firstChild]; omega)] at hC
    rw [List.getElem?_take_of_lt (by rw [hfin.childLen]; exact hc), List.getElem?_drop, hC]

/-- The names along the slice increase strictly. -/
theorem kids_sorted (hf : Finished b idx order) (h : b.Ok) {j id : Nat} {t : TmpNode} {N : Node}
    (hj : order[j]? = some id) (hfin : FinalNode b order j id t N) {kids : List Node}
    (hkids : slice idx.nodes N.firstChild N.childLen = some kids) :
    Lib.StrictSorted (fun C => (idx.name C).getD []) kids := by
  obtain ⟨kids', hk', hlen, hat⟩ := hf.kids_slice hj hfin
  rw [hkids] at hk'
  injection hk' with hk'
  subst hk'
  -- the name at a position of the slice is the name of the child there
  have hname : ∀ (c : Nat) (hc : c < kids.length), (idx.name kids[c]).getD [] =
      nameOf b.nodes b.names (sortedKids b.nodes b.names id)[c] := by
    intro c hc
    obtain ⟨tc, C, htc, hC, -, hCfin⟩ := hat c (hlen ▸ hc)
    rw [List.getElem?_eq_getElem hc] at hC
    injection hC with hC
    rw [hC, hf.name_eq h (hf.child_place hj (hlen ▸ hc)) htc hCfin]
    rfl
  rw [Lib.StrictSorted, List.pairwise_iff_getElem]
  intro c d hc hd hcd
  rw [hname c hc, hname d hd]
  exact List.pairwise_iff_getElem.mp (h.treelike.sortedKids_sorted id) c d (hlen ▸ hc)
    (hlen ▸ hd) hcd

/-- **`lookup` agrees with looking at every child.** -/
theorem lookup_spec (hf : Finished b idx order) (h : b.Ok) {ino : Nat} {N : Node}
    (hN : idx.node ino = some N) (nm : Bytes) :
    ∃ r, idx.lookup ino nm = some r ∧ ∀ x, r = some x ↔
      N.InRange x ∧ ∃ C, idx.node x = some C ∧ idx.name C = some nm := by
  obtain ⟨j, id, t, rfl, hj, ht, hfin⟩ := hf.node_cases hN
  rw [Index.lookup, hN]
  simp only
  by_cases hd : N.kind ≠ .dir
  · -- nothing is below a file
    refine ⟨none, if_pos hd, fun x => ⟨fun hx => absurd hx (by simp), ?_⟩⟩
    rintro ⟨hx, -⟩
    obtain ⟨k, child, -, hk, hpos, hpar⟩ := (hf.inRange_iff hj hfin).mp hx
    have hlt := (hf.mem_iff child).mp (List.mem_of_getElem? hk)
    have hc : b.nodes[child]? = some b.nodes[child] := List.getElem?_eq_getElem hlt
    rw [parentOf_eq hc] at hpar
    have := h.parent_dir child _ t hpos hc (by rw [hpar]; exact ht)
    exact absurd (hfin.kind.trans this) hd
  · rw [if_neg hd]
    obtain ⟨kids, hkids, hlen, hat⟩ := hf.kids_slice hj hfin
    have hnamed : ∀ C ∈ kids, (idx.name C).map (compare · nm) =
        some (compare ((idx.name C).getD []) nm) := by
      intro C hC
      obtain ⟨c, hc, rfl⟩ := List.mem_iff_getElem.mp hC
      obtain ⟨tc, C, htc, hC, -, hCfin⟩ := hat c (hlen ▸ hc)
      rw [List.getElem?_eq_getElem hc] at hC
      injection hC with hC
      rw [hC, hf.name_eq h (hf.child_place hj (hlen ▸ hc)) htc hCfin]
      rfl
    obtain ⟨r, hr, hiff⟩ := Lib.binarySearchBy_spec (hf.kids_sorted h hj hfin hkids) hnamed
    refine ⟨r.map (N.firstChild + ·), ?_, fun x => ?_⟩
    · rw [hkids]
      simp only [Option.bind_eq_bind, Option.bind_some, hr]
      rfl
    · rw [Option.map_eq_some_iff]
      constructor
      · rintro ⟨c, hc, rfl⟩
        obtain ⟨C, hC, hnm⟩ := (hiff c).mp hc
        have hclt : c < kids.length := (List.getElem?_eq_some_iff.mp hC).1
        obtain ⟨tc, C', htc, hC', hnode, hCfin⟩ := hat c (hlen ▸ hclt)
        rw [hC] at hC'
        injection hC' with hC'
        subst hC'
        have hname := hf.name_eq h (hf.child_place hj (hlen ▸ hclt)) htc hCfin
        refine ⟨⟨Nat.le_add_right _ _, ?_⟩, C, hnode, ?_⟩
        · rw [hfin.childLen, ← hlen]; omega
        · rw [hname] at hnm ⊢
          exact congrArg some hnm
      · rintro ⟨⟨hlo, hhi⟩, C, hC, hnm⟩
        obtain ⟨c, rfl⟩ := Nat.exists_eq_add_of_le hlo
        have hclt : c < (sortedKids b.nodes b.names id).length := by
          rw [hfin.childLen] at hhi
          omega
        obtain ⟨tc, C', htc, hC', hnode, hCfin⟩ := hat c hclt
        rw [hC] at hnode
        injection hnode with hnode
        subst hnode
        exact ⟨c, (hiff c).mpr ⟨C, hC', by rw [hnm]; rfl⟩, rfl⟩

/-- The same, by parent and name. -/
theorem lookup_child (hf : Finished b idx order) (h : b.Ok) {j id : Nat} (hj : order[j]? = some id)
    (nm : Bytes) :
    ∃ r, idx.lookup (j + 1) nm = some r ∧ ∀ x, r = some x ↔ ∃ k child, x = k + 1 ∧
      order[k]? = some child ∧ 0 < child ∧ HasKey b.nodes b.names child id nm := by
  obtain ⟨t, N, ht, hN, hfin⟩ := hf.node_at hj
  obtain ⟨r, hr, hiff⟩ := hf.lookup_spec h hN nm
  refine ⟨r, hr, fun x => (hiff x).trans ?_⟩
  rw [hf.inRange_iff hj hfin]
  constructor
  · rintro ⟨⟨k, child, rfl, hk, hpos, hpar⟩, C, hC, hnm⟩
    obtain ⟨tc, C', htc, hC', hCfin⟩ := hf.node_at hk
    rw [hC] at hC'
    injection hC' with hC'
    subst hC'
    rw [hf.name_eq h hk htc hCfin] at hnm
    injection hnm with hnm
    refine ⟨k, child, rfl, hk, hpos, ?_⟩
    rw [← hnm, ← hpar]
    exact h.treelike.nameOf_spec ((hf.mem_iff child).mp (List.mem_of_getElem? hk))
  · rintro ⟨k, child, rfl, hk, hpos, hkey⟩
    have hlt := (hf.mem_iff child).mp (List.mem_of_getElem? hk)
    obtain ⟨h1, h2⟩ := hkey.unique (h.treelike.nameOf_spec hlt)
    obtain ⟨tc, C, htc, hC, hCfin⟩ := hf.node_at hk
    exact ⟨⟨k, child, rfl, hk, hpos, h1.symm⟩, C, hC, by rw [hf.name_eq h hk htc hCfin, h2]⟩

end Finished

/-- Everything above a node is a node. -/
theorem PathOf.ancestor {nodes : List TmpNode} {names : Bytes} {id : Nat} {q r : List Bytes}
    (hp : PathOf nodes names id (q ++ r)) : ∃ anc, PathOf nodes names anc q := by
  induction r using List.reverseRecOn generalizing id with
  | nil => exact ⟨id, by simpa using hp⟩
  | append_singleton r c ih =>
      rw [← List.append_assoc] at hp
      obtain ⟨-, parent, -, hpar⟩ := pathOf_snoc hp
      exact ih hpar

namespace Finished

/-- **A walk follows the paths of the first pass.** -/
theorem walk_spec (hf : Finished b idx order) (h : b.Ok) (p : List Bytes) {j id : Nat}
    {q : List Bytes} (hj : order[j]? = some id) (hq : PathOf b.nodes b.names id q) :
    ∃ r, idx.walk p (j + 1) = some r ∧ ∀ x, r = some x ↔ ∃ k id', x = k + 1 ∧
      order[k]? = some id' ∧ PathOf b.nodes b.names id' (q ++ p) := by
  induction p generalizing j id q with
  | nil =>
      refine ⟨some (j + 1), rfl, fun x => ⟨?_, ?_⟩⟩
      · intro hx
        injection hx with hx
        exact ⟨j, id, hx.symm, hj, by simpa using hq⟩
      · rintro ⟨k, id', rfl, hk, hp⟩
        rw [List.append_nil] at hp
        have := hp.node_unique h.unique hq
        subst this
        rw [hf.place_unique hk hj]
  | cons c cs ih =>
      obtain ⟨r, hr, hiff⟩ := hf.lookup_child h hj c
      rw [Index.walk, hr]
      have happ : q ++ c :: cs = q ++ [c] ++ cs := by simp
      cases r with
      | some next =>
          obtain ⟨k, child, rfl, hk, hpos, hkey⟩ := (hiff next).mp rfl
          rw [happ]
          exact ih hk (.child hpos hkey hq)
      | none =>
          refine ⟨none, rfl, fun x => ⟨fun hx => absurd hx (by simp), ?_⟩⟩
          rintro ⟨k, id', rfl, hk, hp⟩
          -- the walk would have found the ancestor below `id`
          rw [happ] at hp
          obtain ⟨anc, hanc⟩ := hp.ancestor
          obtain ⟨hpos, parent, hkey, hpar⟩ := pathOf_snoc hanc
          have := hpar.node_unique h.unique hq
          subst this
          obtain ⟨i, hi⟩ := hf.place_of (hanc.lt h)
          exact absurd ((hiff (i + 1)).mpr ⟨i, anc, rfl, hi, hpos, hkey⟩) (by simp)

theorem walk_root (hf : Finished b idx order) (h : b.Ok) (p : List Bytes) :
    ∃ r, idx.walk p ROOT_INO = some r ∧ ∀ x, r = some x ↔ ∃ k id, x = k + 1 ∧
      order[k]? = some id ∧ PathOf b.nodes b.names id p := by
  have := hf.walk_spec h p hf.root_at .root
  rwa [List.nil_append] at this

/-- A final node says of its path what the first pass said. -/
theorem info_eq (hf : Finished b idx order) (h : b.Ok) (hroom : b.metas.length ≤ NO_META)
    {j id : Nat} {t : TmpNode} {N : Node} (ht : b.nodes[id]? = some t)
    (hfin : FinalNode b order j id t N) :
    infoOf b.metas t = ⟨N.kind, (idx.metaOf N).map EntryMeta.bare⟩ := by
  rw [Index.metaOf, hfin.metaIdx, hfin.kind, hf.metas]
  cases hs : t.synthetic with
  | true =>
      rw [infoOf, hs, if_pos rfl, if_pos (h.implied id t ht hs).2]
      rfl
  | false =>
      have hlt := Nat.lt_of_lt_of_le (h.claimed id t ht hs) hroom
      rw [infoOf, hs, if_neg (Nat.ne_of_lt hlt)]
      rfl

/-- **A walk sees the tree.** -/
theorem walk_tree (hf : Finished b idx order) (h : b.Ok) {T : Tree} (hm : Models b T)
    (p : List Bytes) :
    ∃ r, idx.walk p ROOT_INO = some r ∧ (r.isSome ↔ (T p).isSome) ∧
      ∀ ino, r = some ino → ∃ N, idx.node ino = some N ∧
        (b.metas.length ≤ NO_META → T p = some ⟨N.kind, (idx.metaOf N).map EntryMeta.bare⟩) := by
  obtain ⟨r, hr, hiff⟩ := hf.walk_root h p
  refine ⟨r, hr, ⟨fun hs => ?_, fun hs => ?_⟩, fun ino hino => ?_⟩
  · obtain ⟨x, hx⟩ := Option.isSome_iff_exists.mp hs
    obtain ⟨k, id, -, hk, hp⟩ := (hiff x).mp hx
    obtain ⟨t, -, ht, -, -⟩ := hf.node_at hk
    rw [hm.at_node id t p ht hp]
    rfl
  · obtain ⟨id, hid, hp⟩ := hm.reached p hs
    obtain ⟨k, hk⟩ := hf.place_of hid
    rw [(hiff (k + 1)).mpr ⟨k, id, rfl, hk, hp⟩]
    rfl
  · obtain ⟨k, id, rfl, hk, hp⟩ := (hiff ino).mp hino
    obtain ⟨t, N, ht, hN, hfin⟩ := hf.node_at hk
    exact ⟨N, hN, fun hroom => by rw [hm.at_node id t p ht hp, hf.info_eq h hroom ht hfin]⟩

/-- Two paths to one inode are the same path. -/
theorem walk_inj (hf : Finished b idx order) (h : b.Ok) {p q : List Bytes} {ino : Nat}
    (hp : idx.walk p ROOT_INO = some (some ino)) (hq : idx.walk q ROOT_INO = some (some ino)) :
    p = q := by
  obtain ⟨r, hr, hiff⟩ := hf.walk_root h p
  obtain ⟨r', hr', hiff'⟩ := hf.walk_root h q
  rw [hp] at hr
  rw [hq] at hr'
  injection hr with hr
  injection hr' with hr'
  obtain ⟨k, id, he, hk, hpath⟩ := (hiff ino).mp hr.symm
  obtain ⟨k', id', he', hk', hpath'⟩ := (hiff' ino).mp hr'.symm
  have hkk : k = k' := by omega
  subst hkk
  rw [hk] at hk'
  injection hk' with hk'
  subst hk'
  exact hpath.path_unique hpath'

/-- Every inode is reached. -/
theorem walk_surj (hf : Finished b idx order) (h : b.Ok) {ino : Nat} (h1 : 1 ≤ ino)
    (hlt : ino < idx.len) : ∃ p, idx.walk p ROOT_INO = some (some ino) := by
  obtain ⟨j, rfl⟩ := Nat.exists_eq_add_of_le' h1
  rw [Index.len, hf.length] at hlt
  have hj : order[j]? = some order[j] := List.getElem?_eq_getElem (by omega)
  obtain ⟨p, hp⟩ := h.exists_path _ ((hf.mem_iff _).mp (List.mem_of_getElem? hj))
  obtain ⟨r, hr, hiff⟩ := hf.walk_root h p
  refine ⟨p, ?_⟩
  rw [hr, (hiff (j + 1)).mpr ⟨j, _, rfl, hj, hp⟩]

end Finished

end Finished

/-! ## The two passes together -/

/-- What a finished build has gone through. -/
structure Built (entries : List Entry) (idx : Index) (b : Builder) (order : List Nat) : Prop where
  ok : b.Ok
  models : Models b (treeOf (accepted entries))
  metas_le : b.metas.length ≤ entries.length
  finished : Finished b idx order

/-- No record of fewer entries has the index that means "no metadata". -/
theorem Built.room {entries : List Entry} {idx : Index} {b : Builder} {order : List Nat}
    (h : Built entries idx b order) (hlen : entries.length < 2 ^ 32 - 1) :
    b.metas.length ≤ NO_META :=
  h.metas_le.trans (Nat.le_of_lt hlen)

theorem build_spec (hint : Nat) (entries : List Entry) :
    Sat (fun r => ∃ b order, Built entries r.1 b order) (build hint entries) := by
  rw [build]
  refine (addAll_spec hint entries).bind (fun b hb => ?_)
  refine (finish_spec (.inl trivial) hb.1).bind (fun idx hidx => ?_)
  obtain ⟨order, hf⟩ := hidx
  exact ⟨b, order, hb.1, hb.2.1, hb.2.2, hf⟩

end ZipFs
