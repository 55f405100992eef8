import ZipFs.Index.InternProof
import ZipFs.Index.Tree

/-!
# The first pass builds the tree

`Builder.Ok` is what every builder keeps: parents come before their children and
are directories, no two nodes share a parent and a name, the interner knows every
node, and the metadata links are in range and not shared. `Models` ties the nodes
to a `Tree`: the node a path leads to holds what the tree says is at that path.

`add` is then shown to do to the builder exactly what `Tree.add` does to the tree,
for every entry that is accepted, and nothing for the others.
-/

namespace ZipFs

/-! ## The path of a node -/

/-- Following parents up from node `id` spells `p`. -/
inductive PathOf (nodes : List TmpNode) (names : Bytes) : Nat → List Bytes → Prop where
  | root : PathOf nodes names 0 []
  | child {id parent : Nat} {name : Bytes} {p : List Bytes} : 0 < id →
      HasKey nodes names id parent name → PathOf nodes names parent p →
      PathOf nodes names id (p ++ [name])

section PathOf

variable {nodes nodes' : List TmpNode} {names names' : Bytes}

theorem PathOf.mono (hkey : ∀ id p nm, HasKey nodes names id p nm → HasKey nodes' names' id p nm)
    {id : Nat} {p : List Bytes} (h : PathOf nodes names id p) : PathOf nodes' names' id p := by
  induction h with
  | root => exact .root
  | child hid hk _ ih => exact .child hid (hkey _ _ _ hk) ih

theorem pathOf_nil {id : Nat} (h : PathOf nodes names id []) : id = 0 := by
  generalize hp : ([] : List Bytes) = p at h
  cases h with
  | root => rfl
  | child => exact absurd hp (by simp)

theorem pathOf_snoc {id : Nat} {p : List Bytes} {name : Bytes}
    (h : PathOf nodes names id (p ++ [name])) :
    0 < id ∧ ∃ parent, HasKey nodes names id parent name ∧ PathOf nodes names parent p := by
  generalize hq : p ++ [name] = q at h
  cases h with
  | root => exact absurd hq (by simp)
  | child hid hk hp =>
      obtain ⟨h1, h2⟩ := List.append_inj' hq rfl
      injection h2 with h2
      subst h1; subst h2
      exact ⟨hid, _, hk, hp⟩

/-- A node has only one path. -/
theorem PathOf.path_unique {id : Nat} {p q : List Bytes} (h : PathOf nodes names id p)
    (h' : PathOf nodes names id q) : p = q := by
  induction h generalizing q with
  | root =>
      cases h' with
      | root => rfl
      | child hid => exact absurd hid (Nat.lt_irrefl _)
  | child hid hk _ ih =>
      cases h' with
      | root => exact absurd hid (Nat.lt_irrefl _)
      | child _ hk' hp' =>
          obtain ⟨h1, h2⟩ := hk.unique hk'
          subst h1; subst h2
          rw [ih hp']

/-- No two nodes share a parent and a name. -/
def KeysUnique (nodes : List TmpNode) (names : Bytes) : Prop :=
  ∀ id id' p nm, 0 < id → 0 < id' → HasKey nodes names id p nm → HasKey nodes names id' p nm →
    id = id'

/-- Where keys are not shared, a path leads to only one node. -/
theorem PathOf.node_unique (huniq : KeysUnique nodes names) {id id' : Nat} {p : List Bytes}
    (h : PathOf nodes names id p) (h' : PathOf nodes names id' p) : id = id' := by
  induction h generalizing id' with
  | root => exact (pathOf_nil h').symm
  | child hid hk _ ih =>
      obtain ⟨hid', parent', hk', hp'⟩ := pathOf_snoc h'
      rw [← ih hp'] at hk'
      exact huniq _ _ _ _ hid hid' hk hk'

/-- Keys do not depend on what kind of node it is. -/
theorem hasKey_set_iff {id i parent : Nat} {n n' : TmpNode} {name : Bytes} (h : nodes[id]? = some n)
    (hp : n'.parent = n.parent) (ho : n'.nameOff = n.nameOff) (hl : n'.nameLen = n.nameLen) :
    HasKey (nodes.set id n') names i parent name ↔ HasKey nodes names i parent name := by
  unfold HasKey
  by_cases hi : i = id
  · subst hi
    rw [List.getElem?_set_self (List.getElem?_eq_some_iff.mp h).1, h]
    simp [hp, ho, hl]
  · rw [List.getElem?_set_ne (Ne.symm hi)]

end PathOf

/-! ## What every builder keeps -/

/-- The nodes the interner knows: all but the root, and but one whose identifier would wrap. -/
def Recorded (nodes : List TmpNode) (id : Nat) : Prop :=
  0 < id ∧ id < nodes.length ∧ id + 1 < 2 ^ 32

structure Builder.Ok (b : Builder) : Prop where
  root : b.nodes[0]? = some rootNode
  parent_lt : ∀ (id : Nat) (n : TmpNode), 0 < id → b.nodes[id]? = some n → n.parent < id
  named : ∀ (id : Nat) (n : TmpNode), b.nodes[id]? = some n →
    ∃ nm, slice b.names n.nameOff n.nameLen = some nm
  /-- Only a directory has children. -/
  parent_dir : ∀ (id : Nat) (n pn : TmpNode), 0 < id → b.nodes[id]? = some n →
    b.nodes[n.parent]? = some pn →
    pn.kind = .dir
  unique : KeysUnique b.nodes b.names
  interner : b.interner.Ok b.nodes b.names (Recorded b.nodes)
  size : b.nodes.length ≤ 2 ^ 32
  /-- A node no entry declared is a directory without metadata. -/
  implied : ∀ (id : Nat) (n : TmpNode), b.nodes[id]? = some n → n.synthetic = true →
    n.kind = .dir ∧ n.metaIdx = NO_META
  claimed : ∀ (id : Nat) (n : TmpNode), b.nodes[id]? = some n → n.synthetic = false →
    n.metaIdx < b.metas.length
  /-- No two nodes share metadata. -/
  meta_inj : ∀ (id id' : Nat) (n n' : TmpNode), b.nodes[id]? = some n → b.nodes[id']? = some n' →
    n.synthetic = false → n'.synthetic = false → n.metaIdx = n'.metaIdx → id = id'
  slot_lt : ∀ (id : Nat) (n : TmpNode) (m : EntryMeta), b.nodes[id]? = some n → n.kind = .symlink →
    b.metas[n.metaIdx]? = some m → m.symlinkSlot < b.symlinkCount
  /-- No two symlinks share a target cell. -/
  slot_inj : ∀ (id id' : Nat) (n n' : TmpNode) (m m' : EntryMeta), b.nodes[id]? = some n →
    b.nodes[id']? = some n' →
    n.kind = .symlink → n'.kind = .symlink → b.metas[n.metaIdx]? = some m →
    b.metas[n'.metaIdx]? = some m' → m.symlinkSlot = m'.symlinkSlot → id = id'
  /-- The memo leads to a directory, by the path it was made for. -/
  memo : ∃ n, b.nodes[b.memoId]? = some n ∧ n.kind = .dir ∧
    PathOf b.nodes b.names b.memoId (components b.memoPath)

/-- What a node says about its path. -/
def infoOf (metas : List EntryMeta) (n : TmpNode) : Info :=
  ⟨n.kind, if n.synthetic then none else (metas[n.metaIdx]?).map EntryMeta.bare⟩

/-- The builder holds this tree. -/
structure Models (b : Builder) (T : Tree) : Prop where
  at_node : ∀ (id : Nat) (n : TmpNode) (p : List Bytes), b.nodes[id]? = some n →
    PathOf b.nodes b.names id p →
    T p = some (infoOf b.metas n)
  reached : ∀ p, (T p).isSome → ∃ id, id < b.nodes.length ∧ PathOf b.nodes b.names id p

/-- Two builders that differ only in their counters. -/
structure SameTree (b b' : Builder) : Prop where
  nodes : b'.nodes = b.nodes
  names : b'.names = b.names
  metas : b'.metas = b.metas
  interner : b'.interner = b.interner
  memoPath : b'.memoPath = b.memoPath
  memoId : b'.memoId = b.memoId
  symlinkCount : b'.symlinkCount = b.symlinkCount

theorem SameTree.ok {b b' : Builder} (hs : SameTree b b') (h : b.Ok) : b'.Ok := by
  obtain ⟨n, nm, m, i, mp, mi, sc, st, dw, rw'⟩ := b
  obtain ⟨n', nm', m', i', mp', mi', sc', st', dw', rw''⟩ := b'
  obtain ⟨h1, h2, h3, h4, h5, h6, h7⟩ := hs
  simp only at h1 h2 h3 h4 h5 h6 h7
  subst h1 h2 h3 h4 h5 h6 h7
  exact ⟨h.root, h.parent_lt, h.named, h.parent_dir, h.unique, h.interner, h.size, h.implied,
    h.claimed, h.meta_inj, h.slot_lt, h.slot_inj, h.memo⟩

theorem SameTree.models {b b' : Builder} {T : Tree} (hs : SameTree b b') (h : Models b T) :
    Models b' T := by
  refine ⟨?_, ?_⟩
  · rw [hs.nodes, hs.names, hs.metas]; exact h.at_node
  · rw [hs.nodes, hs.names]; exact h.reached

section Paths

variable {b : Builder}

/-- Every node has a path. -/
theorem Builder.Ok.exists_path (h : b.Ok) :
    ∀ id, id < b.nodes.length → ∃ p, PathOf b.nodes b.names id p := by
  intro id
  induction id using Nat.strongRecOn with
  | ind id ih =>
    intro hid
    rcases Nat.eq_zero_or_pos id with h0 | h0
    · exact ⟨[], h0 ▸ .root⟩
    · have hn : b.nodes[id]? = some b.nodes[id] := List.getElem?_eq_getElem hid
      obtain ⟨nm, hnm⟩ := h.named id _ hn
      have hlt := h.parent_lt id _ h0 hn
      obtain ⟨p, hp⟩ := ih _ hlt (Nat.lt_trans hlt hid)
      exact ⟨p ++ [nm], .child h0 ⟨_, hn, rfl, hnm⟩ hp⟩

theorem PathOf.lt (h : b.Ok) {id : Nat} {p : List Bytes} (hp : PathOf b.nodes b.names id p) :
    id < b.nodes.length := by
  cases hp with
  | root => exact (List.getElem?_eq_some_iff.mp h.root).1
  | child _ hk _ =>
      obtain ⟨n, hn, -⟩ := hk
      exact (List.getElem?_eq_some_iff.mp hn).1

/-- A directory of the builder is one of the tree, and the other way round. -/
theorem infoOf_claimed (h : b.Ok) {id : Nat} {n : TmpNode} (hn : b.nodes[id]? = some n)
    (hs : n.synthetic = false) : ∃ m, b.metas[n.metaIdx]? = some m ∧
      infoOf b.metas n = ⟨n.kind, some m.bare⟩ := by
  have hlt := h.claimed id n hn hs
  refine ⟨_, List.getElem?_eq_getElem hlt, ?_⟩
  rw [infoOf, hs, List.getElem?_eq_getElem hlt]
  rfl

theorem infoOf_implied (h : b.Ok) {id : Nat} {n : TmpNode} (hn : b.nodes[id]? = some n)
    (hs : n.synthetic = true) : infoOf b.metas n = .implied := by
  rw [infoOf, hs, (h.implied id n hn hs).1]
  rfl

end Paths

/-! ## A new node -/

/-- The node `intern` appends. -/
def freshNode (b : Builder) (parent : Nat) (name : Bytes) : TmpNode :=
  { nameOff := b.names.length, nameLen := name.length, kind := .dir, synthetic := true,
    parent := parent, metaIdx := NO_META }

/-- `b'` is `b` with one more node, below `parent` and called `name`. -/
structure Grown (b : Builder) (parent : Nat) (name : Bytes) (b' : Builder) : Prop where
  nodes : b'.nodes = b.nodes ++ [freshNode b parent name]
  names : b'.names = b.names ++ name
  metas : b'.metas = b.metas
  memoPath : b'.memoPath = b.memoPath
  memoId : b'.memoId = b.memoId
  symlinkCount : b'.symlinkCount = b.symlinkCount
  interner : b'.interner.Ok b'.nodes b'.names (Recorded b'.nodes)
  room : b.nodes.length < 2 ^ 32
  absent : ∀ id, 0 < id → ¬ HasKey b.nodes b.names id parent name

section Grown

variable {b b' : Builder} {parent : Nat} {name : Bytes}

theorem slice_fresh (names name : Bytes) :
    slice (names ++ name) names.length name.length = some name := by
  rw [slice_eq_some (by rw [List.length_append])]
  simp

theorem Grown.old (hg : Grown b parent name b') {id : Nat} (hid : id < b.nodes.length) :
    b'.nodes[id]? = b.nodes[id]? := by
  rw [hg.nodes, List.getElem?_append_left hid]

theorem Grown.new (hg : Grown b parent name b') :
    b'.nodes[b.nodes.length]? = some (freshNode b parent name) := by
  rw [hg.nodes, List.getElem?_concat_length]

/-- A node of the grown builder is the new one or an old one. -/
theorem Grown.cases (hg : Grown b parent name b') {id : Nat} {n : TmpNode}
    (hn : b'.nodes[id]? = some n) :
    (id = b.nodes.length ∧ n = freshNode b parent name) ∨
      (id < b.nodes.length ∧ b.nodes[id]? = some n) := by
  rcases Nat.lt_trichotomy id b.nodes.length with h | h | h
  · exact Or.inr ⟨h, hg.old h ▸ hn⟩
  · subst h
    rw [hg.new] at hn
    injection hn with hn
    exact Or.inl ⟨rfl, hn.symm⟩
  · rw [hg.nodes, List.getElem?_eq_none] at hn
    · exact absurd hn (by simp)
    · rw [List.length_append, List.length_singleton]; omega

theorem Grown.key_new (hg : Grown b parent name b') :
    HasKey b'.nodes b'.names b.nodes.length parent name :=
  ⟨_, hg.new, rfl, by rw [hg.names]; exact slice_fresh b.names name⟩

theorem Grown.key_old (hg : Grown b parent name b') {id p : Nat} {nm : Bytes}
    (hk : HasKey b.nodes b.names id p nm) : HasKey b'.nodes b'.names id p nm := by
  obtain ⟨n, h1, h2, h3⟩ := hk
  refine ⟨n, ?_, h2, ?_⟩
  · rw [hg.old (List.getElem?_eq_some_iff.mp h1).1, h1]
  · rw [hg.names]; exact slice_append h3

/-- Only the new node has a key that was not there before. -/
theorem Grown.key_cases (hnamed : ∀ (id : Nat) (n : TmpNode), b.nodes[id]? = some n →
    ∃ nm, slice b.names n.nameOff n.nameLen = some nm) (hg : Grown b parent name b')
    {id p : Nat} {nm : Bytes}
    (hk : HasKey b'.nodes b'.names id p nm) :
    (id = b.nodes.length ∧ p = parent ∧ nm = name) ∨ HasKey b.nodes b.names id p nm := by
  have hk' := hk
  obtain ⟨n, h1, h2, -⟩ := hk'
  rcases hg.cases h1 with ⟨hid, hn⟩ | ⟨hid, hn⟩
  · subst hid
    obtain ⟨h4, h5⟩ := hk.unique hg.key_new
    exact Or.inl ⟨rfl, h4, h5⟩
  · obtain ⟨nm', hnm'⟩ := hnamed id n hn
    have hold : HasKey b.nodes b.names id p nm' := ⟨n, hn, h2, hnm'⟩
    obtain ⟨-, h5⟩ := hk.unique (hg.key_old hold)
    exact Or.inr (h5 ▸ hold)

/-- The new key was free, so keys stay unique. -/
theorem Grown.unique (hnamed : ∀ (id : Nat) (n : TmpNode), b.nodes[id]? = some n →
    ∃ nm, slice b.names n.nameOff n.nameLen = some nm) (hg : Grown b parent name b')
    (huniq : KeysUnique b.nodes b.names) : KeysUnique b'.nodes b'.names := by
  intro id id' p nm hid hid' hk hk'
  rcases hg.key_cases hnamed hk with ⟨h1, h2, h3⟩ | hk1
  · rcases hg.key_cases hnamed hk' with ⟨h1', -, -⟩ | hk1'
    · rw [h1, h1']
    · subst h2 h3
      exact absurd hk1' (hg.absent id' hid')
  · rcases hg.key_cases hnamed hk' with ⟨-, h2', h3'⟩ | hk1'
    · subst h2' h3'
      exact absurd hk1 (hg.absent id hid)
    · exact huniq id id' p nm hid hid' hk1 hk1'

theorem Grown.path_old (hg : Grown b parent name b') {id : Nat} {p : List Bytes}
    (hp : PathOf b.nodes b.names id p) : PathOf b'.nodes b'.names id p :=
  hp.mono (fun _ _ _ hk => hg.key_old hk)

/-- A path to an old node does not go through the new one. -/
theorem Grown.path_back (h : b.Ok) (hg : Grown b parent name b') :
    ∀ id, id < b.nodes.length → ∀ p, PathOf b'.nodes b'.names id p →
      PathOf b.nodes b.names id p := by
  intro id hid p hp
  obtain ⟨q, hq⟩ := h.exists_path id hid
  rw [hp.path_unique (hg.path_old hq)]
  exact hq

theorem Grown.ok (h : b.Ok) (hg : Grown b parent name b') {pn : TmpNode}
    (hpn : b.nodes[parent]? = some pn) (hd : pn.kind = .dir) : b'.Ok := by
  have hlt := (List.getElem?_eq_some_iff.mp hpn).1
  have h0 : 0 < b.nodes.length := Nat.lt_of_le_of_lt (Nat.zero_le _) hlt
  refine ⟨?_, ?_, ?_, ?_, ?_, hg.interner, ?_, ?_, ?_, ?_, ?_, ?_, ?_⟩
  · rw [hg.old h0]; exact h.root
  · intro id n hid hn
    rcases hg.cases hn with ⟨he, hf⟩ | ⟨-, hn⟩
    · rw [he, hf]; exact hlt
    · exact h.parent_lt id n hid hn
  · intro id n hn
    rcases hg.cases hn with ⟨he, hf⟩ | ⟨-, hn⟩
    · rw [hf, hg.names]; exact ⟨name, slice_fresh b.names name⟩
    · obtain ⟨nm, hnm⟩ := h.named id n hn
      rw [hg.names]
      exact ⟨nm, slice_append hnm⟩
  · intro id n qn hid hn hqn
    rcases hg.cases hn with ⟨he, hf⟩ | ⟨hlt', hn⟩
    · rw [hf, show (freshNode b parent name).parent = parent from rfl, hg.old hlt, hpn] at hqn
      injection hqn with hqn
      exact hqn ▸ hd
    · have hpl := h.parent_lt id n hid hn
      rw [hg.old (Nat.lt_trans hpl hlt')] at hqn
      exact h.parent_dir id n qn hid hn hqn
  · exact hg.unique h.named h.unique
  · rw [hg.nodes, List.length_append, List.length_singleton]; exact hg.room
  · intro id n hn hs
    rcases hg.cases hn with ⟨-, hf⟩ | ⟨-, hn⟩
    · rw [hf]; exact ⟨rfl, rfl⟩
    · exact h.implied id n hn hs
  · intro id n hn hs
    rcases hg.cases hn with ⟨-, hf⟩ | ⟨-, hn⟩
    · rw [hf] at hs; exact absurd hs (by simp [freshNode])
    · rw [hg.metas]; exact h.claimed id n hn hs
  · intro id id' n n' hn hn' hs hs' he
    rcases hg.cases hn with ⟨-, hf⟩ | ⟨-, hn⟩
    · rw [hf] at hs; exact absurd hs (by simp [freshNode])
    · rcases hg.cases hn' with ⟨-, hf⟩ | ⟨-, hn'⟩
      · rw [hf] at hs'; exact absurd hs' (by simp [freshNode])
      · exact h.meta_inj id id' n n' hn hn' hs hs' he
  · intro id n m hn hk hm
    rcases hg.cases hn with ⟨-, hf⟩ | ⟨-, hn⟩
    · rw [hf] at hk; exact absurd hk (by simp [freshNode])
    · rw [hg.metas] at hm
      rw [hg.symlinkCount]
      exact h.slot_lt id n m hn hk hm
  · intro id id' n n' m m' hn hn' hk hk' hm hm' he
    rw [hg.metas] at hm hm'
    rcases hg.cases hn with ⟨-, hf⟩ | ⟨-, hn⟩
    · rw [hf] at hk; exact absurd hk (by simp [freshNode])
    · rcases hg.cases hn' with ⟨-, hf⟩ | ⟨-, hn'⟩
      · rw [hf] at hk'; exact absurd hk' (by simp [freshNode])
      · exact h.slot_inj id id' n n' m m' hn hn' hk hk' hm hm' he
  · obtain ⟨n, hn, hk, hp⟩ := h.memo
    refine ⟨n, ?_, hk, ?_⟩
    · rw [hg.memoId, hg.old (List.getElem?_eq_some_iff.mp hn).1]; exact hn
    · rw [hg.memoId, hg.memoPath]; exact hg.path_old hp

/-- A tree with one path changed. -/
def Tree.set (T : Tree) (q : List Bytes) (i : Info) : Tree := fun p => if p = q then some i else T p

theorem Tree.set_self (T : Tree) (q : List Bytes) (i : Info) : T.set q i q = some i := if_pos rfl

theorem Tree.set_ne (T : Tree) {p q : List Bytes} (i : Info) (h : p ≠ q) : T.set q i p = T p :=
  if_neg h

theorem Grown.models (h : b.Ok) (hg : Grown b parent name b') {T : Tree} (hm : Models b T)
    {p : List Bytes} (hp : PathOf b.nodes b.names parent p) :
    Models b' (T.set (p ++ [name]) .implied) ∧ T (p ++ [name]) = none := by
  have h0 : 0 < b.nodes.length := Nat.lt_of_le_of_lt (Nat.zero_le _) (hp.lt h)
  have hnew : PathOf b'.nodes b'.names b.nodes.length (p ++ [name]) :=
    .child h0 hg.key_new (hg.path_old hp)
  -- nothing was at the new path
  have hnone : ∀ id, ¬ PathOf b.nodes b.names id (p ++ [name]) := by
    intro id hid
    obtain ⟨hpos, parent', hk, hp'⟩ := pathOf_snoc hid
    rw [hp'.node_unique h.unique hp] at hk
    exact hg.absent id hpos hk
  refine ⟨⟨fun id n q hn hq => ?_, fun q hq => ?_⟩, ?_⟩
  · rcases hg.cases hn with ⟨he, hf⟩ | ⟨hlt, hn⟩
    · subst he
      rw [hq.path_unique hnew, Tree.set_self, hf]
      rfl
    · have hq' := hg.path_back h id hlt q hq
      rw [Tree.set_ne _ _ (fun he : q = p ++ [name] => hnone id (he ▸ hq')),
        hm.at_node id n q hn hq', hg.metas]
  · by_cases hqe : q = p ++ [name]
    · refine ⟨b.nodes.length, ?_, hqe ▸ hnew⟩
      rw [hg.nodes, List.length_append, List.length_singleton]; omega
    · rw [Tree.set_ne _ _ hqe] at hq
      obtain ⟨id, hid, hpath⟩ := hm.reached q hq
      refine ⟨id, ?_, hg.path_old hpath⟩
      rw [hg.nodes, List.length_append]; omega
  · cases hT : T (p ++ [name]) with
    | none => rfl
    | some i =>
        obtain ⟨id, -, hpath⟩ := hm.reached (p ++ [name]) (by rw [hT]; rfl)
        exact absurd hpath (hnone id)

end Grown

/-- What `intern` returns: the node that was there, or a new one. -/
def Interned (b : Builder) (parent : Nat) (name : Bytes) (r : Builder × Nat × Bool) : Prop :=
  (r.2.2 = false ∧ r.1 = b ∧ 0 < r.2.1 ∧ HasKey b.nodes b.names r.2.1 parent name) ∨
    (r.2.2 = true ∧ r.2.1 = b.nodes.length ∧ Grown b parent name r.1)

/-- `intern` finds the node or appends it, under any parent and any name, unless one of the
numbers it stores does not fit. -/
theorem intern_satIf {L : Prop} {b : Builder}
    (hint : b.interner.Ok b.nodes b.names (Recorded b.nodes)) (h0 : 0 < b.nodes.length)
    (parent : Nat) (name : Bytes)
    (hroom : L ∨ b.names.length < 2 ^ 32 ∧ b.nodes.length < 2 ^ 32 ∧ name.length < 2 ^ 16) :
    SatIf L (Interned b parent name) (b.intern parent name) := by
  obtain ⟨r, hfind, hsome, hnone⟩ := Interner.find_spec hint parent name
  rw [Builder.intern]
  refine .bind_ok hfind ?_
  cases r with
  | some id =>
      obtain ⟨hrec, hk⟩ := hsome id rfl
      exact Or.inl ⟨rfl, rfl, hrec.1, hk⟩
  | none =>
      refine (satIf_toU32 _ (hroom.imp_right fun h => h.1)).bind (fun off hoff => ?_)
      refine (satIf_toU32 _ (hroom.imp_right fun h => h.2.1)).bind (fun id hid => ?_)
      refine (satIf_toU16 _ (hroom.imp_right fun h => h.2.2)).bind (fun len hlen => ?_)
      obtain ⟨rfl, -⟩ := hoff
      obtain ⟨rfl, hfit⟩ := hid
      obtain ⟨rfl, -⟩ := hlen
      -- every node is recorded while there is room for one more
      have hall : ∀ id, 0 < id → ¬ HasKey b.nodes b.names id parent name := by
        rintro id hid ⟨n, hn, hk⟩
        have hlt := (List.getElem?_eq_some_iff.mp hn).1
        exact hnone rfl id ⟨hid, hlt, by omega⟩ ⟨n, hn, hk⟩
      have hold : ∀ id p nm, HasKey b.nodes b.names id p nm →
          HasKey (b.nodes ++ [freshNode b parent name]) (b.names ++ name) id p nm := by
        rintro id p nm ⟨n, h1, h2, h3⟩
        refine ⟨n, ?_, h2, slice_append h3⟩
        rw [List.getElem?_append_left (List.getElem?_eq_some_iff.mp h1).1]
        exact h1
      have hnew : HasKey (b.nodes ++ [freshNode b parent name]) (b.names ++ name) b.nodes.length
          parent name :=
        ⟨_, List.getElem?_concat_length, rfl, slice_fresh b.names name⟩
      obtain ⟨t, hins, ht⟩ := Interner.insert_spec (hint.mono hold) hnew
        (fun hr => absurd hr.2.1 (Nat.lt_irrefl _)) hfit
      refine .bind_ok hins (Or.inr ⟨rfl, rfl, ⟨rfl, rfl, rfl, rfl, rfl, rfl, ?_, hfit, hall⟩⟩)
      refine ht.congr_mem (fun id => ?_)
      simp only [Recorded, List.length_append, List.length_singleton]
      constructor
      · rintro ⟨h1, h2, h3⟩
        rcases Nat.lt_or_eq_of_le (Nat.lt_succ_iff.mp h2) with hlt | heq
        · exact Or.inl ⟨h1, hlt, h3⟩
        · exact Or.inr ⟨heq, heq ▸ h3⟩
      · rintro (⟨h1, h2, h3⟩ | ⟨h1, h2⟩)
        · exact ⟨h1, by omega, h3⟩
        · rw [h1]; exact ⟨h0, by omega, h2⟩

/-- **What `intern` does**: it finds the node, or appends it. -/
theorem intern_spec {b : Builder} (h : b.Ok) (parent : Nat) (name : Bytes) :
    Sat (Interned b parent name) (b.intern parent name) :=
  intern_satIf h.interner (List.getElem?_eq_some_iff.mp h.root).1 parent name (.inl trivial)

/-! ## A node that changes what it is -/

/-- `b'` is `b` with the kind and the metadata of node `id` replaced. -/
structure Changed (b : Builder) (id : Nat) (n n' : TmpNode) (b' : Builder) : Prop where
  node : b.nodes[id]? = some n
  nodes : b'.nodes = b.nodes.set id n'
  names : b'.names = b.names
  interner : b'.interner = b.interner
  memoPath : b'.memoPath = b.memoPath
  memoId : b'.memoId = b.memoId
  parent : n'.parent = n.parent
  nameOff : n'.nameOff = n.nameOff
  nameLen : n'.nameLen = n.nameLen

section Changed

variable {b b' : Builder} {id : Nat} {n n' : TmpNode}

theorem Changed.self (hc : Changed b id n n' b') : b'.nodes[id]? = some n' := by
  rw [hc.nodes, List.getElem?_set_self (List.getElem?_eq_some_iff.mp hc.node).1]

theorem Changed.other (hc : Changed b id n n' b') {i : Nat} (hi : i ≠ id) :
    b'.nodes[i]? = b.nodes[i]? := by
  rw [hc.nodes, List.getElem?_set_ne (Ne.symm hi)]

theorem Changed.length (hc : Changed b id n n' b') : b'.nodes.length = b.nodes.length := by
  rw [hc.nodes, List.length_set]

theorem Changed.key_iff (hc : Changed b id n n' b') {i p : Nat} {nm : Bytes} :
    HasKey b'.nodes b'.names i p nm ↔ HasKey b.nodes b.names i p nm := by
  rw [hc.nodes, hc.names]
  exact hasKey_set_iff hc.node hc.parent hc.nameOff hc.nameLen

theorem Changed.path_iff (hc : Changed b id n n' b') {i : Nat} {p : List Bytes} :
    PathOf b'.nodes b'.names i p ↔ PathOf b.nodes b.names i p :=
  ⟨fun h => h.mono (fun _ _ _ hk => hc.key_iff.mp hk),
    fun h => h.mono (fun _ _ _ hk => hc.key_iff.mpr hk)⟩

/-- A node of the changed builder, and the node it was. -/
theorem Changed.cases (hc : Changed b id n n' b') {i : Nat} {m : TmpNode}
    (hm : b'.nodes[i]? = some m) : (i = id ∧ m = n') ∨ (i ≠ id ∧ b.nodes[i]? = some m) := by
  by_cases hi : i = id
  · subst hi
    rw [hc.self] at hm
    injection hm with hm
    exact Or.inl ⟨rfl, hm.symm⟩
  · exact Or.inr ⟨hi, hc.other hi ▸ hm⟩

theorem Changed.cases_parent (hc : Changed b id n n' b') {i : Nat} {m : TmpNode}
    (hm : b'.nodes[i]? = some m) : ∃ m0, b.nodes[i]? = some m0 ∧ m.parent = m0.parent ∧
      m.nameOff = m0.nameOff ∧ m.nameLen = m0.nameLen := by
  rcases hc.cases hm with ⟨rfl, rfl⟩ | ⟨-, hm⟩
  · exact ⟨n, hc.node, hc.parent, hc.nameOff, hc.nameLen⟩
  · exact ⟨m, hm, rfl, rfl, rfl⟩

/-- What has to hold of the new metadata links for the builder to stay in order. -/
structure Changed.Links (b : Builder) (id : Nat) (n' : TmpNode) (b' : Builder) : Prop where
  implied : n'.synthetic = true → n'.kind = .dir ∧ n'.metaIdx = NO_META
  claimed : n'.synthetic = false → n'.metaIdx < b'.metas.length
  fresh : n'.synthetic = false → n'.metaIdx = b.metas.length
  /-- The metadata array only grows. -/
  metas : ∀ (i : Nat) (m : EntryMeta), b.metas[i]? = some m → b'.metas[i]? = some m
  count : b.symlinkCount ≤ b'.symlinkCount
  slot : ∀ m, n'.kind = .symlink → b'.metas[n'.metaIdx]? = some m →
    b.symlinkCount ≤ m.symlinkSlot ∧ m.symlinkSlot < b'.symlinkCount
  declared : n'.kind = .symlink → n'.synthetic = false

theorem Changed.ok (h : b.Ok) (hc : Changed b id n n' b') (hl : Changed.Links b id n' b')
    (hid : 0 < id)
    (hdir : n'.kind = .dir ∨
    (b.memoId ≠ id ∧ ∀ i m, 0 < i → b.nodes[i]? = some m → m.parent ≠ id)) :
    b'.Ok := by
  -- metadata of an untouched node is where it was
  have hkeep : ∀ (i : Nat) (m : TmpNode), b.nodes[i]? = some m → m.synthetic = false →
      b'.metas[m.metaIdx]? = b.metas[m.metaIdx]? := by
    intro i m hm hs
    have hlt := h.claimed i m hm hs
    rw [List.getElem?_eq_getElem hlt]
    exact hl.metas _ _ (List.getElem?_eq_getElem hlt)
  have hsym : ∀ (i : Nat) (m : TmpNode), b.nodes[i]? = some m → m.kind = .symlink →
      m.synthetic = false := by
    intro i m hm hk
    cases hs : m.synthetic with
    | false => rfl
    | true => rw [(h.implied i m hm hs).1] at hk; exact absurd hk (by simp)
  refine ⟨?_, ?_, ?_, ?_, ?_, ?_, ?_, ?_, ?_, ?_, ?_, ?_, ?_⟩
  · rw [hc.other (Nat.ne_of_lt hid)]; exact h.root
  · intro i m hi hm
    obtain ⟨m0, hm0, hp, -, -⟩ := hc.cases_parent hm
    rw [hp]; exact h.parent_lt i m0 hi hm0
  · intro i m hm
    obtain ⟨m0, hm0, -, ho, hle⟩ := hc.cases_parent hm
    rw [ho, hle, hc.names]; exact h.named i m0 hm0
  · intro i m pm hi hm hpm
    obtain ⟨m0, hm0, hp, -, -⟩ := hc.cases_parent hm
    rw [hp] at hpm
    rcases hc.cases hpm with ⟨he, hf⟩ | ⟨-, hpm⟩
    · rcases hdir with hdir | ⟨-, hno⟩
      · rw [hf]; exact hdir
      · exact absurd he (hno i m0 hi hm0)
    · exact h.parent_dir i m0 pm hi hm0 hpm
  · intro i i' p nm hi hi' hk hk'
    exact h.unique i i' p nm hi hi' (hc.key_iff.mp hk) (hc.key_iff.mp hk')
  · rw [hc.interner]
    refine (h.interner.mono (fun _ _ _ hk => hc.key_iff.mpr hk)).congr_mem (fun i => ?_)
    simp only [Recorded, hc.length]
  · rw [hc.length]; exact h.size
  · intro i m hm hs
    rcases hc.cases hm with ⟨-, hf⟩ | ⟨-, hm⟩
    · rw [hf] at hs ⊢; exact hl.implied hs
    · exact h.implied i m hm hs
  · intro i m hm hs
    rcases hc.cases hm with ⟨-, hf⟩ | ⟨-, hm⟩
    · rw [hf] at hs ⊢; exact hl.claimed hs
    · have hlt := h.claimed i m hm hs
      have := hl.metas _ _ (List.getElem?_eq_getElem hlt)
      exact (List.getElem?_eq_some_iff.mp this).1
  · intro i i' m m' hm hm' hs hs' he
    rcases hc.cases hm with ⟨hi, hf⟩ | ⟨-, hm⟩
    · rcases hc.cases hm' with ⟨hi', -⟩ | ⟨-, hm'⟩
      · rw [hi, hi']
      · rw [hf] at hs he
        have := h.claimed i' m' hm' hs'
        rw [← he, hl.fresh hs] at this
        exact absurd this (Nat.lt_irrefl _)
    · rcases hc.cases hm' with ⟨-, hf⟩ | ⟨-, hm'⟩
      · rw [hf] at hs' he
        have := h.claimed i m hm hs
        rw [he, hl.fresh hs'] at this
        exact absurd this (Nat.lt_irrefl _)
      · exact h.meta_inj i i' m m' hm hm' hs hs' he
  · intro i m e hm hk he
    rcases hc.cases hm with ⟨-, hf⟩ | ⟨-, hm⟩
    · rw [hf] at hk he; exact (hl.slot e hk he).2
    · rw [hkeep i m hm (hsym i m hm hk)] at he
      exact Nat.lt_of_lt_of_le (h.slot_lt i m e hm hk he) hl.count
  · intro i i' m m' e e' hm hm' hk hk' he he' hs
    rcases hc.cases hm with ⟨hi, hf⟩ | ⟨-, hm⟩
    · rcases hc.cases hm' with ⟨hi', -⟩ | ⟨-, hm'⟩
      · rw [hi, hi']
      · rw [hf] at hk he
        rw [hkeep i' m' hm' (hsym i' m' hm' hk')] at he'
        have h1 := (hl.slot e hk he).1
        have h2 := h.slot_lt i' m' e' hm' hk' he'
        omega
    · rw [hkeep i m hm (hsym i m hm hk)] at he
      rcases hc.cases hm' with ⟨-, hf⟩ | ⟨-, hm'⟩
      · rw [hf] at hk' he'
        have h1 := (hl.slot e' hk' he').1
        have h2 := h.slot_lt i m e hm hk he
        omega
      · rw [hkeep i' m' hm' (hsym i' m' hm' hk')] at he'
        exact h.slot_inj i i' m m' e e' hm hm' hk hk' he he' hs
  · obtain ⟨m, hm, hk, hp⟩ := h.memo
    rw [hc.memoId, hc.memoPath]
    by_cases hi : b.memoId = id
    · rcases hdir with hdir | ⟨hno, -⟩
      · exact ⟨n', by rw [hi]; exact hc.self, hdir, hc.path_iff.mpr hp⟩
      · exact absurd hi hno
    · exact ⟨m, by rw [hc.other hi]; exact hm, hk, hc.path_iff.mpr hp⟩

theorem Changed.models (h : b.Ok) (hc : Changed b id n n' b')
    (hmetas : ∀ (i : Nat) (m : EntryMeta), b.metas[i]? = some m → b'.metas[i]? = some m)
    {T : Tree} (hm : Models b T) {p : List Bytes} (hp : PathOf b.nodes b.names id p) :
    Models b' (T.set p (infoOf b'.metas n')) := by
  refine ⟨fun i m q hi hq => ?_, fun q hq => ?_⟩
  · have hq' := hc.path_iff.mp hq
    rcases hc.cases hi with ⟨he, hf⟩ | ⟨hne, hi⟩
    · subst he
      rw [hq'.path_unique hp, Tree.set_self, hf]
    · have hqp : q ≠ p := by
        intro he
        subst he
        exact hne (hq'.node_unique h.unique hp)
      rw [Tree.set_ne _ _ hqp, hm.at_node i m q hi hq']
      cases hs : m.synthetic with
      | true => rw [infoOf, infoOf, hs, if_pos rfl, if_pos rfl]
      | false =>
          have hlt := h.claimed i m hi hs
          rw [infoOf, infoOf, hmetas _ _ (List.getElem?_eq_getElem hlt),
            List.getElem?_eq_getElem hlt]
  · rw [hc.length]
    by_cases hqp : q = p
    · exact ⟨id, hp.lt h, hc.path_iff.mpr (hqp ▸ hp)⟩
    · rw [Tree.set_ne _ _ hqp] at hq
      obtain ⟨i, hi, hpath⟩ := hm.reached q hq
      exact ⟨i, hi, hc.path_iff.mpr hpath⟩

end Changed

end ZipFs
