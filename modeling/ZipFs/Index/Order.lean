import ZipFs.Index.Implied

/-!
# The order of the archive does not show

Two central directories with the same entries in another order give the same index, as
far as a reader can see, when no two entries want one path and nothing is below a file.
Two steps: such entries make one tree in every order, and the second pass numbers a tree
by its names alone, whatever order the first pass met them in.
-/

namespace ZipFs

open Lib (firstPos)

/-- No two accepted entries want one path, and no accepted file or symlink has a path that
leads on to another. -/
structure Clashless (entries : List Entry) : Prop where
  distinct : ((entries.filter Entry.accepted).map fun e => normalizePath e.path).Nodup
  leaf : ∀ e ∈ entries.filter Entry.accepted, e.kind ≠ .dir →
    ∀ d ∈ entries.filter Entry.accepted, ¬ Above (components e.path) (components d.path)

/-! ## One tree -/

section Tree

variable {entries entries' : List Entry}

theorem Clashless.perm (h : Clashless entries) (hperm : entries.Perm entries') :
    Clashless entries' := by
  have hacc := hperm.filter Entry.accepted
  refine ⟨(hacc.map _).nodup_iff.mp h.distinct, fun e he hk d hd => ?_⟩
  exact h.leaf e (hacc.mem_iff.mpr he) hk d (hacc.mem_iff.mpr hd)

theorem Clashless.components_nodup (h : Clashless entries) :
    ((entries.filter Entry.accepted).map fun e => components e.path).Nodup := by
  have hmap : ((entries.filter Entry.accepted).map fun e => normalizePath e.path).map components =
      (entries.filter Entry.accepted).map fun e => components e.path := by
    rw [List.map_map]
    exact List.map_congr_left fun e _ => components_normalizePath e.path
  rw [← hmap]
  refine List.Nodup.map_on (fun p hp q hq hpq => ?_) h.distinct
  obtain ⟨d, -, rfl⟩ := List.mem_map.mp hp
  obtain ⟨e, -, rfl⟩ := List.mem_map.mp hq
  rw [components_normalizePath, components_normalizePath] at hpq
  exact normalizePath_eq_iff.mpr hpq

/-- At the path of an entry there is that entry. -/
theorem Clashless.treeOf_own (h : Clashless entries) {e : Entry}
    (he : e ∈ entries.filter Entry.accepted) :
    treeOf (accepted entries) (components e.path) = some ⟨e.kind, some e.info.bare⟩ := by
  obtain ⟨pre, post, hsplit⟩ := List.append_of_mem he
  have hclaims : accepted entries =
      pre.map Entry.toClaim ++ e.toClaim :: post.map Entry.toClaim := by
    rw [accepted, hsplit, List.map_append, List.map_cons]
  have hfree : ∀ c ∈ pre.map Entry.toClaim, c.comps ≠ components e.path := by
    intro c hc heq
    obtain ⟨d, hd, rfl⟩ := List.mem_map.mp hc
    have hnodup := h.components_nodup
    rw [hsplit, List.map_append, List.map_cons, List.nodup_append] at hnodup
    exact hnodup.2.2 _ (List.mem_map_of_mem hd) _ List.mem_cons_self heq
  rw [hclaims]
  by_cases hk : e.kind = .dir
  · have hdeclares : e.toClaim.declares (components e.path) = true := declares_iff.mpr ⟨hk, rfl⟩
    rw [hk]
    refine (treeOf_declared (components_ne_nil he) (fun c hc => ?_) hdeclares).mpr (.inl hfree)
    rw [Bool.eq_false_iff]
    exact fun hc' => hfree c hc (declares_iff.mp hc').2
  · refine treeOf_first (c := e.toClaim) (components_ne_nil he) hfree fun c hc => ?_
    rw [← hclaims] at hc
    obtain ⟨d, hd, rfl⟩ := mem_accepted.mp hc
    exact h.leaf e he hk d hd

/-- Everywhere else there is at most a directory that nobody declared. -/
theorem treeOf_other {p : List Bytes}
    (hp : ∀ e ∈ entries.filter Entry.accepted, components e.path ≠ p) {i : Info}
    (hi : treeOf (accepted entries) p = some i) : i = .implied := by
  have hnone : ∀ c ∈ accepted entries, c.declares p = false := by
    intro c hc
    obtain ⟨e, he, rfl⟩ := mem_accepted.mp hc
    rw [Bool.eq_false_iff]
    exact fun hc' => hp e he (declares_iff.mp hc').2
  rcases treeOf_isSome.mp (by rw [hi]; rfl) with rfl | ⟨c, hc, hpre⟩
  · rw [treeOf, foldl_add, Tree.root, if_pos rfl, foldl_implied hnone] at hi
    exact (Option.some.inj hi).symm
  · have hne : p ≠ c.comps := by
      obtain ⟨e, he, rfl⟩ := mem_accepted.mp hc
      exact (hp e he).symm
    rw [treeOf_undeclared hnone hc ⟨hpre, hne⟩] at hi
    exact (Option.some.inj hi).symm

/-- **Entries that do not clash make one tree in every order.** -/
theorem Clashless.treeOf_perm (h : Clashless entries) (hperm : entries.Perm entries') :
    treeOf (accepted entries) = treeOf (accepted entries') := by
  have hacc := hperm.filter Entry.accepted
  have hclaims : (accepted entries).Perm (accepted entries') := hacc.map _
  funext p
  by_cases hown : ∃ e ∈ entries.filter Entry.accepted, components e.path = p
  · obtain ⟨e, he, rfl⟩ := hown
    rw [h.treeOf_own he, (h.perm hperm).treeOf_own (hacc.mem_iff.mp he)]
  · have hother : ∀ e ∈ entries.filter Entry.accepted, components e.path ≠ p :=
      fun e he heq => hown ⟨e, he, heq⟩
    have hother' : ∀ e ∈ entries'.filter Entry.accepted, components e.path ≠ p :=
      fun e he => hother e (hacc.mem_iff.mpr he)
    have hsome : (treeOf (accepted entries) p).isSome = (treeOf (accepted entries') p).isSome := by
      rw [Bool.eq_iff_iff, treeOf_isSome, treeOf_isSome]
      simp only [hclaims.mem_iff]
    cases hT : treeOf (accepted entries) p with
    | none =>
        rw [hT] at hsome
        exact (Option.isNone_iff_eq_none.mp (by simpa using hsome.symm)).symm
    | some i =>
        rw [hT] at hsome
        obtain ⟨i', hT'⟩ := Option.isSome_iff_exists.mp hsome.symm
        rw [hT', treeOf_other hother hT, treeOf_other hother' hT']

end Tree

/-! ## One numbering -/

/-- The two nodes are at one path. -/
def SamePath (b b' : Builder) (id id' : Nat) : Prop :=
  ∃ p, PathOf b.nodes b.names id p ∧ PathOf b'.nodes b'.names id' p

/-- Two nodes that a reader cannot tell apart. -/
structure SameNode (idx idx' : Index) (n n' : Node) : Prop where
  kind : n.kind = n'.kind
  synthetic : n.synthetic = n'.synthetic
  parent : n.parent = n'.parent
  firstChild : n.firstChild = n'.firstChild
  childLen : n.childLen = n'.childLen
  subdirCount : n.subdirCount = n'.subdirCount
  /-- They have the metadata of one entry, apart from the cell of a symlink. -/
  entry : (idx.metaOf n).map EntryMeta.bare = (idx'.metaOf n').map EntryMeta.bare

section Numbering

variable {b b' : Builder} {T : Tree} {idx idx' : Index} {order order' : List Nat}

/-- The queue starts at the root and follows the children. -/
theorem Finished.traversal (hf : Finished b idx order) (h : b.Ok) :
    Lib.Traversal (sortedKids b.nodes b.names) 0 order := by
  refine ⟨hf.queue, hf.nodup, fun id hid => ?_⟩
  obtain ⟨p, hp⟩ := h.exists_path id ((hf.mem_iff id).mp hid)
  clear hid
  induction hp with
  | root => exact .refl
  | child hid hk _ ih =>
      obtain ⟨n, hn, hpar, -⟩ := hk
      have hlt := (List.getElem?_eq_some_iff.mp hn).1
      exact ih.tail (mem_sortedKids.mpr ⟨⟨hid, hlt⟩, (parentOf_eq hn).trans hpar⟩)

/-- A child is one name further down. -/
theorem pathOf_kid (h : b.Ok) {id k : Nat} {p : List Bytes} (hp : PathOf b.nodes b.names id p)
    (hk : k ∈ sortedKids b.nodes b.names id) :
    PathOf b.nodes b.names k (p ++ [nameOf b.nodes b.names k]) := by
  obtain ⟨⟨hpos, hlt⟩, hpar⟩ := mem_sortedKids.mp hk
  have hkey := h.treelike.nameOf_spec hlt
  rw [hpar] at hkey
  exact .child hpos hkey hp

/-- The names below a path are the tree's. -/
theorem mem_kidNames (h : b.Ok) (hm : Models b T) {id : Nat} {p : List Bytes}
    (hp : PathOf b.nodes b.names id p) (nm : Bytes) :
    nm ∈ (sortedKids b.nodes b.names id).map (nameOf b.nodes b.names) ↔
      (T (p ++ [nm])).isSome := by
  constructor
  · intro hnm
    obtain ⟨k, hk, rfl⟩ := List.mem_map.mp hnm
    have hlt := (mem_sortedKids.mp hk).1.2
    rw [hm.at_node k _ _ (List.getElem?_eq_getElem hlt) (pathOf_kid h hp hk)]
    rfl
  · intro hsome
    obtain ⟨k, hlt, hk⟩ := hm.reached _ hsome
    obtain ⟨hpos, parent, hkey, hpar⟩ := pathOf_snoc hk
    obtain rfl := hpar.node_unique h.unique hp
    obtain ⟨h1, h2⟩ := hkey.unique (h.treelike.nameOf_spec hlt)
    exact List.mem_map.mpr ⟨k, mem_sortedKids.mpr ⟨⟨hpos, hlt⟩, h1.symm⟩, h2.symm⟩

/-- Two nodes at one path have their children at the same paths, in the same order. -/
theorem kids_samePath (h : b.Ok) (hm : Models b T) (h' : b'.Ok) (hm' : Models b' T) {id id' : Nat}
    (hs : SamePath b b' id id') :
    List.Forall₂ (SamePath b b') (sortedKids b.nodes b.names id)
      (sortedKids b'.nodes b'.names id') := by
  obtain ⟨p, hp, hp'⟩ := hs
  have hnames := (h.treelike.sortedKids_sorted id).keys_eq (h'.treelike.sortedKids_sorted id')
    fun nm => (mem_kidNames h hm hp nm).trans (mem_kidNames h' hm' hp' nm).symm
  have hlen := congrArg List.length hnames
  rw [List.length_map, List.length_map] at hlen
  refine List.forall₂_iff_get.mpr ⟨hlen, fun i hi hi' => ?_⟩
  have hname := congrArg (fun names => names[i]?) hnames
  simp only [List.getElem?_map, List.getElem?_eq_getElem hi, List.getElem?_eq_getElem hi',
    Option.map_some, Option.some.injEq] at hname
  rw [List.get_eq_getElem, List.get_eq_getElem]
  refine ⟨_, pathOf_kid h hp (List.getElem_mem hi), ?_⟩
  rw [hname]
  exact pathOf_kid h' hp' (List.getElem_mem hi')

/-- **Builders of one tree queue the same paths.** -/
theorem order_samePath (hf : Finished b idx order) (h : b.Ok) (hm : Models b T)
    (hf' : Finished b' idx' order') (h' : b'.Ok) (hm' : Models b' T) :
    List.Forall₂ (SamePath b b') order order' :=
  (hf.traversal h).forall₂ (hf'.traversal h') ⟨[], .root, .root⟩
    fun _ _ hs => kids_samePath h hm h' hm' hs

/-- The node at the same place in the other queue. -/
theorem exists_partner {R : Nat → Nat → Prop} (hrel : List.Forall₂ R order order') {j id : Nat}
    (hj : order[j]? = some id) : ∃ id', order'[j]? = some id' ∧ R id id' := by
  obtain ⟨hlt, rfl⟩ := List.getElem?_eq_some_iff.mp hj
  have hlt' : j < order'.length := hrel.length_eq ▸ hlt
  exact ⟨order'[j], List.getElem?_eq_getElem hlt', hrel.get hlt hlt'⟩

/-- Nodes at one path have one place. -/
theorem place_eq (hf' : Finished b' idx' order') (h' : b'.Ok)
    (hrel : List.Forall₂ (SamePath b b') order order') {j j' id id' : Nat}
    (hj : order[j]? = some id) (hj' : order'[j']? = some id') (hs : SamePath b b' id id') :
    j = j' := by
  obtain ⟨x, hx, q, hq, hq'⟩ := exists_partner hrel hj
  obtain ⟨p, hp, hp'⟩ := hs
  obtain rfl := hp.path_unique hq
  obtain rfl := hq'.node_unique h'.unique hp'
  exact hf'.place_unique hx hj'

/-- What the tree has at the path of both. -/
theorem SamePath.infoOf_eq (hm : Models b T) (hm' : Models b' T) {id id' : Nat} {t t' : TmpNode}
    (hs : SamePath b b' id id') (ht : b.nodes[id]? = some t) (ht' : b'.nodes[id']? = some t') :
    infoOf b.metas t = infoOf b'.metas t' := by
  obtain ⟨p, hp, hp'⟩ := hs
  exact Option.some.inj ((hm.at_node id t p ht hp).symm.trans (hm'.at_node id' t' p ht' hp'))

/-- The flag says whether there is an entry. -/
theorem synthetic_eq (h : b.Ok) {id : Nat} {t : TmpNode} (ht : b.nodes[id]? = some t) :
    t.synthetic = (infoOf b.metas t).entry.isNone := by
  cases hs : t.synthetic with
  | true => rw [infoOf_implied h ht hs]; rfl
  | false =>
      obtain ⟨m, -, hinfo⟩ := infoOf_claimed h ht hs
      rw [hinfo]
      rfl

theorem SamePath.parent (h : b.Ok) (h' : b'.Ok) {id id' : Nat} {t t' : TmpNode}
    (hs : SamePath b b' id id') (ht : b.nodes[id]? = some t) (ht' : b'.nodes[id']? = some t') :
    SamePath b b' t.parent t'.parent := by
  obtain ⟨p, hp, hp'⟩ := hs
  cases hp with
  | root =>
      obtain rfl := pathOf_nil hp'
      obtain rfl := Option.some.inj (h.root.symm.trans ht)
      obtain rfl := Option.some.inj (h'.root.symm.trans ht')
      exact ⟨[], .root, .root⟩
  | child _ hk hpar =>
      obtain ⟨-, parent', hk', hpar'⟩ := pathOf_snoc hp'
      obtain ⟨n, hn, rfl, -⟩ := hk
      obtain ⟨n', hn', rfl, -⟩ := hk'
      obtain rfl := Option.some.inj (hn.symm.trans ht)
      obtain rfl := Option.some.inj (hn'.symm.trans ht')
      exact ⟨_, hpar, hpar'⟩

/-- Nodes at one path, at one place, end up alike. -/
theorem sameNode_of_samePath (hf : Finished b idx order) (h : b.Ok) (hm : Models b T)
    (hroom : b.metas.length ≤ NO_META) (hf' : Finished b' idx' order') (h' : b'.Ok)
    (hm' : Models b' T) (hroom' : b'.metas.length ≤ NO_META)
    (hrel : List.Forall₂ (SamePath b b') order order') {j id id' : Nat} {t t' : TmpNode}
    {N N' : Node} (hs : SamePath b b' id id') (ht : b.nodes[id]? = some t)
    (ht' : b'.nodes[id']? = some t') (hN : FinalNode b order j id t N)
    (hN' : FinalNode b' order' j id' t' N') : SameNode idx idx' N N' := by
  have hinfo := hs.infoOf_eq hm hm' ht ht'
  have hkids := kids_samePath h hm h' hm' hs
  have hkinds : (sortedKids b.nodes b.names id).map (kindOf b.nodes) =
      (sortedKids b'.nodes b'.names id').map (kindOf b'.nodes) := by
    rw [← List.forall₂_eq_eq_eq, List.forall₂_map_left_iff, List.forall₂_map_right_iff]
    refine hkids.imp fun k k' hk => ?_
    obtain ⟨p, hp, hp'⟩ := hk
    have hget := List.getElem?_eq_getElem (hp.lt h)
    have hget' := List.getElem?_eq_getElem (hp'.lt h')
    rw [kindOf, kindOf, hget, hget']
    exact congrArg Info.kind (SamePath.infoOf_eq hm hm' ⟨p, hp, hp'⟩ hget hget')
  have hbefore : List.Forall₂ (SamePath b b')
      ((order.take j).flatMap (sortedKids b.nodes b.names))
      ((order'.take j).flatMap (sortedKids b'.nodes b'.names)) :=
    List.rel_flatMap (List.forall₂_take j hrel) fun _ _ hs => kids_samePath h hm h' hm' hs
  refine ⟨?_, ?_, ?_, ?_, ?_, ?_, ?_⟩
  · rw [hN.kind, hN'.kind]
    exact congrArg Info.kind hinfo
  · rw [hN.synthetic, hN'.synthetic, synthetic_eq h ht, synthetic_eq h' ht', hinfo]
  · obtain ⟨i, hi, hpar⟩ := hN.parent
    obtain ⟨i', hi', hpar'⟩ := hN'.parent
    rw [hpar, hpar', place_eq hf' h' hrel hi hi' (hs.parent h h' ht ht')]
  · rw [hN.firstChild, hN'.firstChild, firstPos, firstPos, hbefore.length_eq]
  · rw [hN.childLen, hN'.childLen, hkids.length_eq]
  · rw [hN.subdirCount, hN'.subdirCount, hkinds]
  · rw [hf.info_eq h hroom ht hN, hf'.info_eq h' hroom' ht' hN'] at hinfo
    exact congrArg Info.entry hinfo

/-- A node adds the size of its entry, if it has one. -/
theorem addSize_eq (h : b.Ok) (hroom : b.metas.length ≤ NO_META) {id : Nat} {t : TmpNode}
    (ht : b.nodes[id]? = some t) (total : Nat) :
    addSize b.nodes b.metas total id = .ok (((infoOf b.metas t).entry.map
      fun m => saturatingAdd64 total m.uncompressedSize).getD total) := by
  unfold addSize
  rw [at!_ok ht]
  cases hs : t.synthetic with
  | true =>
      rw [infoOf_implied h ht hs]
      show (if t.metaIdx ≠ NO_META then _ else _) = _
      rw [if_neg (not_not.mpr (h.implied id t ht hs).2)]
      rfl
  | false =>
      obtain ⟨m, hmeta, hinfo⟩ := infoOf_claimed h ht hs
      have hlt := Nat.lt_of_lt_of_le (h.claimed id t ht hs) hroom
      rw [hinfo]
      show (if t.metaIdx ≠ NO_META then _ else _) = _
      rw [if_pos (Nat.ne_of_lt hlt), at!_ok hmeta]
      rfl

theorem foldlM_addSize_eq (h : b.Ok) (hm : Models b T) (hroom : b.metas.length ≤ NO_META)
    (h' : b'.Ok) (hm' : Models b' T) (hroom' : b'.metas.length ≤ NO_META) {xs ys : List Nat}
    (hrel : List.Forall₂ (SamePath b b') xs ys) (total : Nat) :
    xs.foldlM (addSize b.nodes b.metas) total = ys.foldlM (addSize b'.nodes b'.metas) total := by
  induction hrel generalizing total with
  | nil => rfl
  | cons hs _ ih =>
      obtain ⟨p, hp, hp'⟩ := hs
      have hget := List.getElem?_eq_getElem (hp.lt h)
      have hget' := List.getElem?_eq_getElem (hp'.lt h')
      rw [List.foldlM_cons, List.foldlM_cons, addSize_eq h hroom hget, addSize_eq h' hroom' hget',
        SamePath.infoOf_eq hm hm' ⟨p, hp, hp'⟩ hget hget']
      exact ih _

end Numbering

/-! ## Room for the metadata -/

section Room

variable {entries : List Entry} {b : Builder}

/-- Only an accepted entry leaves metadata. -/
theorem addAll_metas_le {hint : Nat} (hrun : addAll hint entries = .ok b) :
    b.metas.length ≤ (entries.filter Entry.accepted).length := by
  refine addAll_induction
    (I := fun done b => b.metas.length ≤ (done.filter Entry.accepted).length) hrun ?_ ?_
  · exact Nat.le_refl 0
  · intro done e b b' hok hm hadd hle
    rw [List.filter_append, List.length_append]
    obtain ⟨lost, hadded⟩ := add_added hok hm hadd
    cases he : e.accepted with
    | true =>
        have := hadded.metas
        rw [List.filter_cons_of_pos he]
        exact this.trans (Nat.add_le_add_right hle 1)
    | false =>
        obtain ⟨b'', hb'', hsame⟩ := add_rejected (b := b) he
        obtain rfl := Except.ok.inj (hadd.symm.trans hb'')
        rw [hsame.metas]
        exact Nat.le_add_right_of_le hle

/-- Entries that do not clash have nodes of their own. -/
theorem Clashless.length_le (hclash : Clashless entries) (h : b.Ok)
    (hm : Models b (treeOf (accepted entries))) :
    (entries.filter Entry.accepted).length ≤ b.nodes.length := by
  choose! path hpath using h.exists_path
  have hsub : ((entries.filter Entry.accepted).map fun e => components e.path) ⊆
      (List.range b.nodes.length).map path := by
    intro p hp
    obtain ⟨e, he, rfl⟩ := List.mem_map.mp hp
    obtain ⟨id, hid, hid'⟩ := hm.reached _ (by rw [hclash.treeOf_own he]; rfl)
    exact List.mem_map.mpr ⟨id, List.mem_range.mpr hid, (hpath id hid).path_unique hid'⟩
  have hle := (List.subperm_of_subset hclash.components_nodup hsub).length_le
  rwa [List.length_map, List.length_map, List.length_range] at hle

/-- The nodes run out before the metadata indices do. -/
theorem Clashless.metas_room (hclash : Clashless entries) {hint : Nat} {idx : Index}
    {order : List Nat} (hrun : addAll hint entries = .ok b) (h : Built entries idx b order) :
    b.metas.length ≤ NO_META := by
  have hmetas := addAll_metas_le hrun
  have hnodes := hclash.length_le h.ok h.models
  have hqueued := h.finished.length_order
  have hroom := h.finished.room
  rw [NO_META]
  omega

end Room

/--
**The order of the archive does not show.** Entries that do not clash are indexed alike in
every order: the same paths have the same inodes, their nodes cannot be told apart, and the
sizes add up to the same.
-/
theorem build_order_irrelevant {hint hint' : Nat} {entries entries' : List Entry}
    {idx idx' : Index} {stats stats' : BuildStats} (hperm : entries.Perm entries')
    (hclash : Clashless entries) (hb : build hint entries = .ok (idx, stats))
    (hb' : build hint' entries' = .ok (idx', stats')) :
    idx.len = idx'.len ∧ idx.totalUncompressed = idx'.totalUncompressed ∧
      ∀ p, idx.walk p ROOT_INO = idx'.walk p ROOT_INO ∧
        ∀ ino, idx.walk p ROOT_INO = some (some ino) →
          ∃ n n', idx.node ino = some n ∧ idx'.node ino = some n' ∧ SameNode idx idx' n n' := by
  obtain ⟨b, order, hrun, h, -⟩ := build_passes hb
  obtain ⟨b', order', hrun', h', -⟩ := build_passes hb'
  have hroom := hclash.metas_room hrun h
  have hroom' := (hclash.perm hperm).metas_room hrun' h'
  have hm' : Models b' (treeOf (accepted entries)) := hclash.treeOf_perm hperm ▸ h'.models
  have hrel := order_samePath h.finished h.ok h.models h'.finished h'.ok hm'
  refine ⟨?_, ?_, fun p => ?_⟩
  · rw [Index.len, Index.len, h.finished.length, h'.finished.length, hrel.length_eq]
  · have htotal := foldlM_addSize_eq h.ok h.models hroom h'.ok hm' hroom' hrel 0
    rw [h.finished.total, h'.finished.total] at htotal
    exact Except.ok.inj htotal
  · obtain ⟨r, hr, hiff⟩ := h.finished.walk_root h.ok p
    obtain ⟨r', hr', hiff'⟩ := h'.finished.walk_root h'.ok p
    have heq : r = r' := by
      refine Option.ext fun ino => (hiff ino).trans (Iff.trans ?_ (hiff' ino).symm)
      constructor
      · intro hino
        obtain ⟨j, id, rfl, hj, hp⟩ := hino
        obtain ⟨id', hj', q, hq, hq'⟩ := exists_partner hrel hj
        exact ⟨j, id', rfl, hj', hp.path_unique hq ▸ hq'⟩
      · intro hino
        obtain ⟨j, id', rfl, hj', hp'⟩ := hino
        obtain ⟨id, hj, q, hq', hq⟩ := exists_partner hrel.flip hj'
        exact ⟨j, id, rfl, hj, hp'.path_unique hq ▸ hq'⟩
    refine ⟨by rw [hr, hr', heq], fun ino hino => ?_⟩
    rw [hr] at hino
    obtain ⟨j, id, rfl, hj, hp⟩ := (hiff ino).mp (Option.some.inj hino)
    obtain ⟨id', hj', hs⟩ := exists_partner hrel hj
    obtain ⟨t, N, ht, hN, hfin⟩ := h.finished.node_at hj
    obtain ⟨t', N', ht', hN', hfin'⟩ := h'.finished.node_at hj'
    exact ⟨N, N', hN, hN', sameNode_of_samePath h.finished h.ok h.models hroom h'.finished h'.ok
      hm' hroom' hrel hs ht ht' hfin hfin'⟩

/-- An explicit entry for the directory of the sample. -/
def dirB : Entry := ⟨[98, 47], true, storedMeta 0 0o040755⟩

/-- The directory is declared last in one order and first in the other. -/
theorem build_order_irrelevant_sample :
    ∃ idx stats idx' stats', build 4 (sampleEntries ++ [dirB]) = .ok (idx, stats) ∧
      build 0 (dirB :: sampleEntries.reverse) = .ok (idx', stats') ∧ idx.names ≠ idx'.names ∧
      idx.walk [[98], [120]] ROOT_INO = some (some 4) ∧
      idx'.walk [[98], [120]] ROOT_INO = some (some 4) := by
  have hrun : (build 4 (sampleEntries ++ [dirB])).toOption.map
      (fun r => (r.1.names, r.1.walk [[98], [120]] ROOT_INO)) =
      some ([98, 121, 120, 97], some (some 4)) := by decide +kernel
  have hrun' : (build 0 (dirB :: sampleEntries.reverse)).toOption.map (fun r => r.1.names) =
      some [98, 97, 120, 121] := by decide +kernel
  obtain ⟨⟨idx, stats⟩, hb, hval⟩ := exists_ok_of_map hrun
  obtain ⟨⟨idx', stats'⟩, hb', hnames'⟩ := exists_ok_of_map hrun'
  obtain ⟨hnames, hwalk⟩ := Prod.mk.inj hval
  have hperm : (sampleEntries ++ [dirB]).Perm (dirB :: sampleEntries.reverse) :=
    (List.perm_append_singleton ..).trans (sampleEntries.reverse_perm.symm.cons dirB)
  have hclash : Clashless (sampleEntries ++ [dirB]) := ⟨by decide +kernel, by decide +kernel⟩
  obtain ⟨-, -, hpaths⟩ := build_order_irrelevant hperm hclash hb hb'
  refine ⟨idx, stats, idx', stats', hb, hb', ?_, hwalk, ?_⟩
  · dsimp only at hnames hnames'
    rw [hnames, hnames']
    decide
  · rw [← (hpaths [[98], [120]]).1]
    exact hwalk

end ZipFs
