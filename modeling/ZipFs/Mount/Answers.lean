import ZipFs.Mount.Readdir
import ZipFs.Index.Rank
import Mathlib.Algebra.BigOperators.Finprod

/-!
# Answers from the tree

The operations of `src/fs.rs` that need neither the archive nor a lock: `lookup`,
`getattr`, `opendir`, `access` and `statfs`. They read the index and the configuration,
which do not change while the mount runs, so each is a function.

The kernel resolves a path by one `lookup` for each name, in the inode that the one
before it gave. What that comes to is said here in the terms of the tree that the
accepted entries make, where there are paths and no inodes: which paths there are, what
`stat` shows of each, how many links a directory has, and what `statfs` adds up.
-/

namespace ZipFs

open Cli (Settings)

/-! ## The operations -/

/-- What these operations reply. -/
inductive TreeReply where
  | entry (ttl : Nat) (attr : FileAttr) (generation : Nat)
  | attr (ttl : Nat) (attr : FileAttr)
  | opened (fh : Nat)
  | ok
  | statfs (blocks bfree bavail files ffree bsize namelen frsize : Nat)
  | error (errno : Nat)
  deriving DecidableEq, Repr

namespace Index

variable (idx : Index) (c : Settings)

/-- Attributes for an inode that is known to exist. -/
def attr (ino : Nat) : Option FileAttr := (idx.node ino).map fun n => fileAttr idx ino n c

/-- `ZipFs::lookup`. -/
def lookupEntry (parent : Nat) (name : Bytes) : Checked TreeReply := do
  match ← idx.lookup parent name with
  | some ino =>
      match idx.attr c ino with
      | some a => return .entry c.attrTtl a 0
      | none => return .error ENOENT
  | none => return .error ENOENT

def getattr (ino : Nat) : TreeReply :=
  match idx.attr c ino with
  | some a => .attr c.attrTtl a
  | none => .error ENOENT

def opendir (ino : Nat) : TreeReply :=
  match idx.node ino with
  | some n => if n.kind = .dir then .opened 0 else .error ENOTDIR
  | none => .error ENOENT

/-- The kernel checks the mode bits, so existing is all that is left to confirm. -/
def access (ino : Nat) : TreeReply :=
  match idx.node ino with
  | some _ => .ok
  | none => .error ENOENT

def statfs : TreeReply :=
  .statfs ((idx.totalUncompressed + 511) / 512) 0 0 idx.len 0 512 255 0

/-- The kernel's walk along a path, with a `getattr` of what it ends at. -/
def statPath : List Bytes → Nat → Checked TreeReply
  | [], ino => some (idx.getattr c ino)
  | name :: rest, ino => do
      match ← idx.lookupEntry c ino name with
      | .entry _ a _ => statPath rest a.ino
      | refused => return refused

end Index

/-! ## What `stat` should say of a path -/

/-- What the permission bits come from: the entry if it records any, else the configuration. -/
def Info.mode (c : Settings) (i : Info) : Nat :=
  let recorded := (i.entry.map EntryMeta.mode).getD 0 % 512
  if recorded = 0 then (if i.kind = .dir then c.dirMode else c.fileMode) % 512 else recorded

/-- The names directly below a path that are directories. -/
def Tree.subdirs (T : Tree) (p : List Bytes) : Set Bytes :=
  {name | ∃ i, T (p ++ [name]) = some i ∧ i.kind = .dir}

/-- The attributes of the path `p` of a tree, at which it has `i`. -/
structure StatOk (T : Tree) (c : Settings) (p : List Bytes) (i : Info) (a : FileAttr) : Prop where
  kind : a.kind = i.kind.fileType
  /-- A directory has no size, whatever its entry declares. -/
  size : a.size = if i.kind = .dir then 0 else (i.entry.map EntryMeta.uncompressedSize).getD 0
  blocks : a.size ≤ 512 * a.blocks ∧ 512 * a.blocks < a.size + 512
  mtime : a.mtime = (i.entry.map fun m => toSystemTime m.mtimeSec m.mtimeNsec).getD (0, 0)
  /-- No bit above the nine permission bits, so neither set-user-id nor anything like it. -/
  perm : a.perm = i.mode c ∧ a.perm < 512
  links : a.nlink = if i.kind = .dir then 2 + (T.subdirs p).ncard else 1
  owner : a.uid = c.uid ∧ a.gid = c.gid

theorem permissions_eq (n : Node) (m : Option EntryMeta) (c : Settings) :
    permissions n m c = Info.mode c ⟨n.kind, m.map EntryMeta.bare⟩ := by
  have hand : ∀ x : Nat, x &&& 0o777 = x % 512 := fun x => Nat.and_two_pow_sub_one_eq_mod x 9
  have hmode : (m.map EntryMeta.bare).map EntryMeta.mode = m.map EntryMeta.mode := by
    cases m with
    | none => rfl
    | some m => rfl
  unfold permissions Info.mode
  simp only [hand, hmode, ne_eq, ite_not]
  split
  · rfl
  · exact Nat.mod_mod _ _

theorem mode_lt (c : Settings) (i : Info) : i.mode c < 512 := by
  unfold Info.mode
  dsimp only
  split
  · exact Nat.mod_lt _ (by decide)
  · exact Nat.mod_lt _ (by decide)

section Built

variable {entries : List Entry} {idx : Index} {b : Builder} {order : List Nat} {c : Settings}

/-- The directories below a path are counted by name. -/
theorem ncard_subdirs {T : Tree} (h : b.Ok) (hm : Models b T) {id : Nat} {p : List Bytes}
    (hp : PathOf b.nodes b.names id p) :
    (T.subdirs p).ncard = ((sortedKids b.nodes b.names id).map (kindOf b.nodes)).count .dir := by
  set kids := sortedKids b.nodes b.names id with hkids
  set dirs := kids.filter fun k => kindOf b.nodes k = .dir with hdirs
  have hkind : ∀ k ∈ kids, ∃ i, T (p ++ [nameOf b.nodes b.names k]) = some i ∧
      i.kind = kindOf b.nodes k := by
    intro k hk
    have hlt := (mem_sortedKids.mp hk).1.2
    have hget := List.getElem?_eq_getElem hlt
    refine ⟨_, hm.at_node k _ _ hget (pathOf_kid h hp hk), ?_⟩
    rw [kindOf, hget]
    rfl
  have hset : T.subdirs p = {x | x ∈ dirs.map (nameOf b.nodes b.names)} := by
    ext name
    simp only [List.mem_map, hdirs, List.mem_filter, decide_eq_true_eq]
    constructor
    · rintro ⟨i, hi, hd⟩
      have hsome : (T (p ++ [name])).isSome := by rw [hi]; rfl
      obtain ⟨k, hk, rfl⟩ := List.mem_map.mp ((mem_kidNames h hm hp name).mpr hsome)
      obtain ⟨j, hj, hkj⟩ := hkind k hk
      rw [hi] at hj
      obtain rfl := Option.some.inj hj
      exact ⟨k, ⟨hk, hkj.symm.trans hd⟩, rfl⟩
    · rintro ⟨k, ⟨hk, hd⟩, rfl⟩
      obtain ⟨j, hj, hkj⟩ := hkind k hk
      exact ⟨j, hj, hkj.trans hd⟩
  have hsorted := h.treelike.sortedKids_sorted id
  have hnodup : (dirs.map (nameOf b.nodes b.names)).Nodup := by
    refine List.Nodup.map_on ?_ ((sortedKids_nodup id).filter _)
    intro x hx y hy hxy
    obtain ⟨i, hi⟩ := List.mem_iff_getElem?.mp (List.mem_of_mem_filter hx)
    obtain ⟨j, hj⟩ := List.mem_iff_getElem?.mp (List.mem_of_mem_filter hy)
    obtain rfl := hsorted.unique hi hj hxy
    exact Option.some.inj (hi.symm.trans hj)
  rw [hset, show {x | x ∈ dirs.map (nameOf b.nodes b.names)} =
    ((dirs.map (nameOf b.nodes b.names)).toFinset : Set Bytes) by ext; simp,
    Set.ncard_coe_finset, List.toFinset_card_of_nodup hnodup, List.length_map, List.count_eq_countP,
    List.countP_map, List.countP_eq_length_filter]
  rfl

/-- What a node of the index shows is what the tree has at its path. -/
theorem fileAttr_ok (hb : Built entries idx b order) (hroom : b.metas.length ≤ NO_META)
    {j id : Nat} {t : TmpNode} {N : Node} {p : List Bytes} (ht : b.nodes[id]? = some t)
    (hp : PathOf b.nodes b.names id p) (hfin : FinalNode b order j id t N) (ino : Nat) :
    StatOk (treeOf (accepted entries)) c p (infoOf b.metas t) (fileAttr idx ino N c) := by
  have hinfo := hb.finished.info_eq hb.ok hroom ht hfin
  have hentry : ∀ {α : Type} (f : EntryMeta → α) (d : α), (∀ m, f m.bare = f m) →
      ((idx.metaOf N).map f).getD d = (((idx.metaOf N).map EntryMeta.bare).map f).getD d := by
    intro α f d hbare
    cases idx.metaOf N with
    | none => rfl
    | some m => exact (hbare m).symm
  rw [hinfo]
  refine ⟨rfl, ?_, ?_, ?_, ?_, ?_, rfl, rfl⟩
  · dsimp only [fileAttr]
    rw [hentry _ _ fun _ => rfl]
  · dsimp only [fileAttr]
    omega
  · dsimp only [fileAttr]
    rw [hentry _ _ fun _ => rfl]
  · dsimp only [fileAttr]
    rw [permissions_eq]
    exact ⟨rfl, mode_lt ..⟩
  · dsimp only [fileAttr, Node.nlink]
    rw [hfin.subdirCount, ncard_subdirs hb.ok hb.models hp]

/-- A walk of the kernel ends where a walk of the index does. -/
theorem statPath_eq (hb : Built entries idx b order) (p : List Bytes) {ino : Nat} {N : Node}
    (hN : idx.node ino = some N) :
    idx.statPath c p ino = (idx.walk p ino).map
      fun r => r.elim (.error ENOENT) fun x => idx.getattr c x := by
  induction p generalizing ino N with
  | nil => rfl
  | cons name rest ih =>
      obtain ⟨r, hr, hiff⟩ := hb.finished.lookup_spec hb.ok hN name
      rw [Index.statPath, Index.lookupEntry, Index.walk, hr]
      cases r with
      | none => rfl
      | some x =>
          obtain ⟨-, C, hC, -⟩ := (hiff x).mp rfl
          have hattr : idx.attr c x = some (fileAttr idx x C c) := by
            rw [Index.attr, hC]
            rfl
          simp only [Option.bind_eq_bind, Option.bind_some, hattr, Option.pure_def]
          exact ih hC

/-- Where a walk that ends has ended. -/
theorem walk_of_statPath (hb : Built entries idx b order) {root : Node}
    (hroot : idx.node ROOT_INO = some root) {p : List Bytes} {ttl : Nat} {a : FileAttr}
    (h : idx.statPath c p ROOT_INO = some (.attr ttl a)) :
    idx.walk p ROOT_INO = some (some a.ino) := by
  rw [statPath_eq hb p hroot] at h
  obtain ⟨r, hr, hreply⟩ := Option.map_eq_some_iff.mp h
  cases r with
  | none => exact absurd hreply (by simp)
  | some x =>
      rw [hr]
      simp only [Option.elim_some, Index.getattr, Index.attr] at hreply
      cases hn : idx.node x with
      | none =>
          rw [hn] at hreply
          exact absurd hreply (by simp)
      | some N =>
          rw [hn] at hreply
          simp only [Option.map_some, TreeReply.attr.injEq] at hreply
          rw [← hreply.2]
          rfl

end Built

/--
**A path resolves to what the archive has there.** In every mount of fewer than
`2 ^ 32 - 1` entries, the kernel's walk along a path finds nothing where the tree of the
accepted entries has nothing. Where the tree has something, the walk ends in an inode of
its own, which can be accessed, which can be opened as a directory exactly if it is one,
and of which `stat` shows what the tree says.
-/
theorem stat_follows_tree {hint : Nat} {entries : List Entry} {idx : Index} {stats : BuildStats}
    (hlen : entries.length < 2 ^ 32 - 1) (hbuild : build hint entries = .ok (idx, stats))
    (c : Settings) :
    (∀ p, treeOf (accepted entries) p = none →
      idx.statPath c p ROOT_INO = some (.error ENOENT)) ∧
    (∀ p i, treeOf (accepted entries) p = some i →
      ∃ a, idx.statPath c p ROOT_INO = some (.attr c.attrTtl a) ∧
        StatOk (treeOf (accepted entries)) c p i a ∧ idx.access a.ino = .ok ∧
        (idx.opendir a.ino = .opened 0 ↔ i.kind = .dir)) ∧
    (∀ p q a a', idx.statPath c p ROOT_INO = some (.attr c.attrTtl a) →
      idx.statPath c q ROOT_INO = some (.attr c.attrTtl a') → a.ino = a'.ino → p = q) := by
  obtain ⟨b, order, hb⟩ := (build_spec hint entries).elim hbuild
  have hroom := hb.room hlen
  obtain ⟨root, hroot, -⟩ := hb.finished.root_node hb.ok
  refine ⟨?_, ?_, ?_⟩
  · intro p hp
    obtain ⟨r, hr, hsome, -⟩ := hb.finished.walk_tree hb.ok hb.models p
    cases r with
    | none => rw [statPath_eq hb p hroot, hr]; rfl
    | some x =>
        rw [hp] at hsome
        exact absurd (hsome.mp rfl) (by simp)
  · intro p i hi
    obtain ⟨id, hlt, hpath⟩ := hb.models.reached p (by rw [hi]; rfl)
    obtain ⟨k, hk⟩ := hb.finished.place_of hlt
    obtain ⟨t, N, ht, hN, hfin⟩ := hb.finished.node_at hk
    obtain ⟨r, hr, hiff⟩ := hb.finished.walk_root hb.ok p
    obtain rfl := (hiff (k + 1)).mpr ⟨k, id, rfl, hk, hpath⟩
    obtain rfl := Option.some.inj (hi.symm.trans (hb.models.at_node id t p ht hpath))
    refine ⟨fileAttr idx (k + 1) N c, ?_, fileAttr_ok hb hroom ht hpath hfin (k + 1), ?_, ?_⟩
    · rw [statPath_eq hb p hroot, hr]
      simp only [Option.map_some, Option.elim_some, Index.getattr, Index.attr, hN]
    · simp only [Index.access, fileAttr, hN]
    · have hkind : N.kind = (infoOf b.metas t).kind := hfin.kind
      simp only [Index.opendir, fileAttr, hN, hkind]
      split
      · rename_i hd
        exact ⟨fun _ => hd, fun _ => rfl⟩
      · rename_i hd
        exact ⟨fun h => absurd h (by simp), fun h => absurd h hd⟩
  · intro p q a a' hp hq heq
    have hp' := walk_of_statPath hb hroot hp
    rw [heq] at hp'
    exact hb.finished.walk_inj hb.ok hp' (walk_of_statPath hb hroot hq)

/-- The defaults of the command line, with everything owned by root. -/
def sampleSettings : Settings :=
  ⟨⟨true, 524288, 4, 64, 8⟩, 0, 0, 0o644, 0o755, 0, false, false, false⟩

/-- `b/y` resolves, and `y` does not. -/
theorem stat_follows_tree_sample : ∃ idx stats a, build 3 sampleEntries = .ok (idx, stats) ∧
    idx.statPath sampleSettings [[121]] ROOT_INO = some (.error ENOENT) ∧
    idx.statPath sampleSettings [[98], [121]] ROOT_INO = some (.attr 0 a) ∧
    StatOk (treeOf (accepted sampleEntries)) sampleSettings [[98], [121]]
      ⟨.file, some (storedMeta 3 0o100644)⟩ a := by
  have hrun : (build 3 sampleEntries).toOption.map (fun _ => ()) = some () := by decide +kernel
  obtain ⟨⟨idx, stats⟩, hb, -⟩ := exists_ok_of_map hrun
  obtain ⟨habsent, hthere, -⟩ := stat_follows_tree (by decide) hb sampleSettings
  obtain ⟨a, ha, hok, -⟩ := hthere [[98], [121]] ⟨.file, some (storedMeta 3 0o100644)⟩
    (by decide +kernel)
  exact ⟨idx, stats, a, hb, habsent [[121]] (by decide +kernel), ha, hok⟩

/-! ## One inode, one answer -/

theorem lookupEntry_some {idx : Index} {c : Settings} {d x : Nat} {name : Bytes} {N : Node}
    (h : idx.lookup d name = some (some x)) (hN : idx.node x = some N) :
    idx.lookupEntry c d name = some (.entry c.attrTtl (fileAttr idx x N c) 0) := by
  rw [Index.lookupEntry, h]
  simp only [Option.bind_eq_bind, Option.bind_some, Index.attr, hN, Option.map_some,
    Option.pure_def]

theorem getattr_some {idx : Index} {c : Settings} {x : Nat} {N : Node} (hN : idx.node x = some N) :
    idx.getattr c x = .attr c.attrTtl (fileAttr idx x N c) := by
  rw [Index.getattr, Index.attr, hN]
  rfl

/-- What a page of a directory says of one inode agrees with `getattr` and `lookup`. -/
def DirentOk (idx : Index) (c : Settings) (dir : Nat) (e : Dirent) : Prop :=
  ∃ a, idx.getattr c e.shown.ino = .attr c.attrTtl a ∧ a.kind = e.shown.kind ∧
    (∀ ino cursor name attr, e = .plus ino cursor name attr → attr = a) ∧
    (2 < e.shown.cursor → idx.lookupEntry c dir e.shown.name = some (.entry c.attrTtl a 0))

/-- An entry of a page shows the node with this number, with its attributes if it has any. -/
inductive Dirent.Shows (idx : Index) (c : Settings) : Dirent → Nat → Node → Prop
  | plus (ino cursor : Nat) (name : Bytes) (N : Node) :
      Shows idx c (.plus ino cursor name (fileAttr idx ino N c)) ino N
  | plain (ino cursor : Nat) (name : Bytes) {kind : FileType} {N : Node}
      (hkind : kind = N.kind.fileType) : Shows idx c (.plain ino cursor kind name) ino N

theorem Dirent.Shows.direntOk {idx : Index} {c : Settings} {dir ino : Nat} {e : Dirent} {N : Node}
    (h : e.Shows idx c ino N) (hN : idx.node ino = some N)
    (hlook : 2 < e.shown.cursor → idx.lookup dir e.shown.name = some (some ino)) :
    DirentOk idx c dir e := by
  cases h with
  | plus =>
      refine ⟨_, getattr_some hN, rfl, ?_, fun hc => lookupEntry_some (hlook hc) hN⟩
      intro ino' cursor' name' attr heq
      exact (Dirent.plus.inj heq).2.2.2.symm
  | plain _ _ _ hkind =>
      exact ⟨_, getattr_some hN, hkind.symm, by simp, fun hc => lookupEntry_some (hlook hc) hN⟩

/-- What fits on a page is some of the entries. -/
theorem mem_fillDir {idx : Index} {node : Node} {kids : List Node}
    {full : List Dirent → Dirent → Bool} {offset : Nat} {dot dotdot e : Dirent}
    {entry : Nat → Node → Bytes → Dirent} {page : List Dirent}
    (hkids : idx.children node = some kids) (hnames : ∀ k ∈ kids, (idx.name k).isSome)
    (h : idx.fillDir full offset node dot dotdot entry = some page) (he : e ∈ page) :
    e = dot ∨ e = dotdot ∨
      ∃ (i : Nat) (C : Node), kids[i]? = some C ∧ e = entry i C ((idx.name C).getD []) := by
  rw [fillDir_eq hkids hnames] at h
  obtain rfl := Option.some.inj h
  obtain ⟨m, hm⟩ := Lib.fill_eq_append_take full []
    ((dot :: dotdot :: childEntries idx entry 0 kids).drop offset)
  rw [hm, List.nil_append] at he
  have hmem := List.mem_of_mem_drop (List.mem_of_mem_take he)
  rcases List.mem_cons.mp hmem with rfl | hmem
  · exact .inl rfl
  · rcases List.mem_cons.mp hmem with rfl | hmem
    · exact .inr (.inl rfl)
    · obtain ⟨i, hi⟩ := List.mem_iff_getElem?.mp hmem
      rw [childEntries, List.getElem?_mapIdx] at hi
      obtain ⟨C, hC, rfl⟩ := Option.map_eq_some_iff.mp hi
      exact .inr (.inr ⟨i, C, hC, by rw [Nat.zero_add]⟩)

section Pages

variable {entries : List Entry} {idx : Index} {b : Builder} {order : List Nat} {c : Settings}

/-- A lookup in the index comes to an end, and what it gives is an inode of the index. -/
theorem Built.lookup_node (hb : Built entries idx b order) (d : Nat) (name : Bytes) :
    ∃ r, idx.lookup d name = some r ∧ ∀ x, r = some x → ∃ N, idx.node x = some N := by
  cases hd : idx.node d with
  | none =>
      refine ⟨none, ?_, by simp⟩
      rw [Index.lookup, hd]
  | some D =>
      obtain ⟨r, hr, hiff⟩ := hb.finished.lookup_spec hb.ok hd name
      refine ⟨r, hr, ?_⟩
      intro x hx
      obtain ⟨-, C, hC, -⟩ := (hiff x).mp hx
      exact ⟨C, hC⟩

/-- A page of a directory is made of its two dot entries and of those that `lookup` finds. -/
theorem Built.page_ok (hb : Built entries idx b order) {full : List Dirent → Dirent → Bool}
    {dir offset : Nat} {node up : Node} {dot dotdot : Dirent}
    {entry : Nat → Node → Bytes → Dirent} {page : List Dirent}
    (hnode : idx.node dir = some node) (hdir : node.kind = .dir)
    (hup : idx.node node.parent = some up)
    (hpage : idx.fillDir full offset node dot dotdot entry = some page)
    (hdot : dot.Shows idx c dir node ∧ dot.shown.cursor ≤ 2)
    (hdotdot : dotdot.Shows idx c node.parent up ∧ dotdot.shown.cursor ≤ 2)
    (hentry : ∀ i C name, (entry i C name).Shows idx c (node.firstChild + i) C ∧
      (entry i C name).shown.name = name) :
    ∀ e ∈ page, DirentOk idx c dir e := by
  obtain ⟨kids, hkids, hlen, -, hat⟩ := hb.finished.children_spec hb.ok hnode hdir
  have hnames : ∀ k ∈ kids, (idx.name k).isSome := by
    intro k hk
    obtain ⟨i, hi⟩ := List.mem_iff_getElem?.mp hk
    exact (hat i k hi).2
  intro e he
  rcases mem_fillDir hkids hnames hpage he with rfl | rfl | ⟨i, C, hC, rfl⟩
  · exact hdot.1.direntOk hnode fun h => absurd h (by omega)
  · exact hdotdot.1.direntOk hup fun h => absurd h (by omega)
  · obtain ⟨hC', hname⟩ := hat i C hC
    obtain ⟨nm, hnm⟩ := Option.isSome_iff_exists.mp hname
    obtain ⟨hshows, hshown⟩ := hentry i C ((idx.name C).getD [])
    refine hshows.direntOk hC' fun _ => ?_
    -- the name of a child is found where the child is
    have hi := (List.getElem?_eq_some_iff.mp hC).1
    have hrange : node.InRange (node.firstChild + i) := ⟨by omega, by omega⟩
    have h2 := (hb.finished.exists_inRange_iff.mp ⟨dir, node, hnode, hrange⟩).1
    rw [hshown, hnm, Option.getD_some, ← hb.finished.parent_of_inRange hnode hrange hC']
    exact hb.finished.lookup_parent hb.ok h2 hC' hnm

/-- What either operation puts on a page is as `getattr` and `lookup` have it. -/
theorem Built.dirents_ok (hb : Built entries idx b order) {call : DirCall} {dir offset : Nat}
    {page : List Dirent} (hrun : call.run idx c dir offset = some (.ok page)) :
    ∀ e ∈ page, DirentOk idx c dir e := by
  unfold DirCall.run Index.readdirplus Index.readdir at hrun
  cases hnode : idx.node dir with
  | none =>
      rw [hnode] at hrun
      split at hrun
      · exact absurd hrun (by simp)
      · exact absurd hrun (by simp)
  | some node =>
      by_cases hdir : node.kind = .dir
      · obtain ⟨up, hup, hupdir⟩ := hb.finished.parent_node hb.ok hnode
        simp only [hnode, hdir, ne_eq, not_true_eq_false, if_false, Option.bind_eq_bind,
          Option.pure_def, hup, Option.getD_some] at hrun
        split at hrun
        · obtain ⟨page', hpage, heq⟩ := Option.bind_eq_some_iff.mp hrun
          obtain rfl := Except.ok.inj (Option.some.inj heq)
          exact hb.page_ok hnode hdir hup hpage ⟨.plus .., by simp [Dirent.shown]⟩
            ⟨.plus .., by simp [Dirent.shown]⟩ fun i C name => ⟨.plus .., rfl⟩
        · obtain ⟨page', hpage, heq⟩ := Option.bind_eq_some_iff.mp hrun
          obtain rfl := Except.ok.inj (Option.some.inj heq)
          exact hb.page_ok hnode hdir hup hpage
            ⟨.plain _ _ _ (by rw [hdir]; rfl), by simp [Dirent.shown]⟩
            ⟨.plain _ _ _ (by rw [hupdir]; rfl), by simp [Dirent.shown]⟩
            fun i C name => ⟨.plain _ _ _ rfl, rfl⟩
      · simp only [hnode, ne_eq, hdir, not_false_eq_true, if_true] at hrun
        split at hrun
        · exact absurd hrun (by simp)
        · exact absurd hrun (by simp)

end Pages

/--
**All operations say the same of an inode.** For every index that is built: what `lookup`
replies for a name is what `getattr` replies for the inode it gives. What a page of a
directory says of an inode, in `readdir` or in `readdirplus`, at any offset and however
much fits, agrees with `getattr` of that inode, and below the two dot entries with
`lookup` of the name in that directory.
-/
theorem attrs_agree {hint : Nat} {entries : List Entry} {idx : Index} {stats : BuildStats}
    (hbuild : build hint entries = .ok (idx, stats)) (c : Settings) :
    (∀ d name ttl a generation, idx.lookupEntry c d name = some (.entry ttl a generation) →
      idx.getattr c a.ino = .attr ttl a ∧ generation = 0) ∧
    (∀ d name, ∃ reply, idx.lookupEntry c d name = some reply ∧
      ((∃ a, reply = .entry c.attrTtl a 0) ∨ reply = .error ENOENT)) ∧
    (∀ (call : DirCall) dir offset page, call.run idx c dir offset = some (.ok page) →
      ∀ e ∈ page, DirentOk idx c dir e) := by
  obtain ⟨b, order, hb⟩ := (build_spec hint entries).elim hbuild
  refine ⟨?_, ?_, ?_⟩
  · intro d name ttl a generation h
    obtain ⟨r, hr, hnode⟩ := hb.lookup_node d name
    cases r with
    | none =>
        rw [Index.lookupEntry, hr] at h
        exact absurd h (by simp)
    | some x =>
        obtain ⟨N, hN⟩ := hnode x rfl
        rw [lookupEntry_some hr hN] at h
        obtain ⟨rfl, rfl, rfl⟩ := TreeReply.entry.inj (Option.some.inj h)
        exact ⟨getattr_some hN, rfl⟩
  · intro d name
    obtain ⟨r, hr, hnode⟩ := hb.lookup_node d name
    cases r with
    | none =>
        refine ⟨.error ENOENT, ?_, .inr rfl⟩
        rw [Index.lookupEntry, hr]
        rfl
    | some x =>
        obtain ⟨N, hN⟩ := hnode x rfl
        exact ⟨_, lookupEntry_some hr hN, .inl ⟨_, rfl⟩⟩
  · intro call dir offset page hrun
    exact hb.dirents_ok hrun

/-- The root of the sample, read from the start by a kernel with room for everything. -/
theorem attrs_agree_sample : ∃ idx stats page, build 3 sampleEntries = .ok (idx, stats) ∧
    DirCall.run ⟨true, fun _ _ => false⟩ idx sampleSettings ROOT_INO 0 = some (.ok page) ∧
    page.length = 4 ∧ ∀ e ∈ page, DirentOk idx sampleSettings ROOT_INO e := by
  have hrun : (build 3 sampleEntries).toOption.map (fun r =>
      (DirCall.run ⟨true, fun _ _ => false⟩ r.1 sampleSettings ROOT_INO 0).map
        fun reply => reply.toOption.map List.length) = some (some (some 4)) := by decide +kernel
  obtain ⟨⟨idx, stats⟩, hb, hpage⟩ := exists_ok_of_map hrun
  obtain ⟨reply, hreply, hlen⟩ := Option.map_eq_some_iff.mp hpage
  cases reply with
  | error e => exact absurd hlen (by simp [Except.toOption])
  | ok page =>
      obtain ⟨-, -, hdirents⟩ := attrs_agree hb sampleSettings
      exact ⟨idx, stats, page, hb, hreply, Option.some.inj hlen, hdirents _ _ _ _ hreply⟩

/-! ## The filesystem as a whole -/

/-- The size that the entry at a path declares, a directory's included. -/
def Info.bytes (i : Info) : Nat := (i.entry.map EntryMeta.uncompressedSize).getD 0

section Total

variable {entries : List Entry} {idx : Index} {b : Builder} {order : List Nat}

/-- What the node with this number adds to the total. -/
def nodeBytes (b : Builder) (id : Nat) : Nat :=
  (b.nodes[id]?.map fun t => (infoOf b.metas t).bytes).getD 0

/-- The sum saturates. -/
theorem foldlM_addSize (h : b.Ok) (hroom : b.metas.length ≤ NO_META) {ids : List Nat}
    (hids : ∀ id ∈ ids, id < b.nodes.length) {acc : Nat} (hacc : acc ≤ 2 ^ 64 - 1) :
    ids.foldlM (addSize b.nodes b.metas) acc =
      .ok (min (acc + (ids.map (nodeBytes b)).sum) (2 ^ 64 - 1)) := by
  induction ids generalizing acc with
  | nil =>
      rw [List.foldlM_nil, List.map_nil, List.sum_nil, Nat.add_zero, Nat.min_eq_left hacc]
      rfl
  | cons id ids ih =>
      have hid := hids id List.mem_cons_self
      have hget := List.getElem?_eq_getElem hid
      have hstep : addSize b.nodes b.metas acc id =
          .ok (min (acc + nodeBytes b id) (2 ^ 64 - 1)) := by
        rw [addSize_eq h hroom hget, nodeBytes, hget]
        simp only [Option.map_some, Option.getD_some, Info.bytes, saturatingAdd64]
        cases (infoOf b.metas b.nodes[id]).entry with
        | none =>
            simp only [Option.map_none, Option.getD_none, Nat.add_zero]
            rw [Nat.min_eq_left hacc]
        | some m => rfl
      rw [List.foldlM_cons, hstep]
      show ids.foldlM (addSize b.nodes b.metas) _ = _
      rw [ih (fun x hx => hids x (List.mem_cons_of_mem id hx)) (Nat.min_le_right ..),
        List.map_cons, List.sum_cons]
      congr 1
      omega

/-- The nodes and the paths of the tree are in correspondence. -/
theorem Built.paths (hb : Built entries idx b order) :
    ∃ path : Nat → List Bytes, (order.map path).Nodup ∧
      (∀ p, p ∈ (treeOf (accepted entries)).paths ↔ p ∈ order.map path) ∧
      ∀ id ∈ order,
        ((treeOf (accepted entries)) (path id)).elim 0 Info.bytes = nodeBytes b id := by
  obtain ⟨path, hpath⟩ := hb.ok.exists_paths
  have hat : ∀ id ∈ order, PathOf b.nodes b.names id (path id) := fun id hid =>
    hpath id ((hb.finished.mem_iff id).mp hid)
  refine ⟨path, ?_, ?_, ?_⟩
  · refine List.Nodup.map_on ?_ hb.finished.nodup
    intro x hx y hy hxy
    have hpx := hat x hx
    rw [hxy] at hpx
    exact hpx.node_unique hb.ok.unique (hat y hy)
  · intro p
    constructor
    · intro hp
      obtain ⟨id, hid, hp'⟩ := hb.models.reached p hp
      have hmem := (hb.finished.mem_iff id).mpr hid
      exact List.mem_map.mpr ⟨id, hmem, (hat id hmem).path_unique hp'⟩
    · intro hp
      obtain ⟨id, hid, rfl⟩ := List.mem_map.mp hp
      have hget := List.getElem?_eq_getElem ((hb.finished.mem_iff id).mp hid)
      show ((treeOf (accepted entries)) (path id)).isSome
      rw [hb.models.at_node id _ _ hget (hat id hid)]
      rfl
  · intro id hid
    have hget := List.getElem?_eq_getElem ((hb.finished.mem_iff id).mp hid)
    rw [hb.models.at_node id _ _ hget (hat id hid), nodeBytes, hget]
    rfl

end Total

/--
**What `statfs` adds up.** In every mount of fewer than `2 ^ 32 - 1` entries, the blocks
are those of the sizes that the entries at all paths of the tree declare, each path once
whatever the number of entries that claimed it, cut off at the largest 64-bit number. The
number of files is that of the paths and one more, for the inode that is never used.
-/
theorem statfs_adds_up {hint : Nat} {entries : List Entry} {idx : Index} {stats : BuildStats}
    (hlen : entries.length < 2 ^ 32 - 1) (hbuild : build hint entries = .ok (idx, stats)) :
    (treeOf (accepted entries)).paths.Finite ∧
      idx.statfs = .statfs
        ((min (∑ᶠ p, (treeOf (accepted entries) p).elim 0 Info.bytes) (2 ^ 64 - 1) + 511) / 512)
        0 0 ((treeOf (accepted entries)).paths.ncard + 1) 0 512 255 0 := by
  obtain ⟨b, order, hb⟩ := (build_spec hint entries).elim hbuild
  have hroom := hb.room hlen
  obtain ⟨path, hnodup, hmem, hbytes⟩ := hb.paths
  have hpaths : (treeOf (accepted entries)).paths =
      ((order.map path).toFinset : Set (List Bytes)) := by
    ext p
    rw [hmem p]
    simp
  have hcount : (treeOf (accepted entries)).paths.ncard = order.length := by
    rw [hpaths, Set.ncard_coe_finset, List.toFinset_card_of_nodup hnodup, List.length_map]
  have hsum : ∑ᶠ p, (treeOf (accepted entries) p).elim 0 Info.bytes =
      (order.map (nodeBytes b)).sum := by
    rw [finsum_eq_finsetSum_of_support_subset (s := (order.map path).toFinset),
      List.sum_toFinset _ hnodup, List.map_map]
    · congr 1
      exact List.map_congr_left hbytes
    · intro p hp
      rw [← hpaths]
      cases hT : treeOf (accepted entries) p with
      | none => exact absurd (by simp [hT]) hp
      | some i =>
          show (treeOf (accepted entries) p).isSome
          rw [hT]
          rfl
  have htotal : idx.totalUncompressed = min (order.map (nodeBytes b)).sum (2 ^ 64 - 1) := by
    have h := hb.finished.total
    rw [foldlM_addSize hb.ok hroom (fun id hid => (hb.finished.mem_iff id).mp hid)
      (Nat.zero_le _), Nat.zero_add] at h
    exact (Except.ok.inj h).symm
  refine ⟨?_, ?_⟩
  · rw [hpaths]
    exact Finset.finite_toSet _
  · rw [Index.statfs, hcount, hsum, ← htotal, Index.len, hb.finished.length]

/-- Five paths with six bytes between them. -/
theorem statfs_adds_up_sample : ∃ idx stats, build 3 sampleEntries = .ok (idx, stats) ∧
    idx.statfs = .statfs 1 0 0 6 0 512 255 0 ∧
    (treeOf (accepted sampleEntries)).paths.ncard = 5 := by
  have hrun : (build 3 sampleEntries).toOption.map (fun r => r.1.statfs) =
      some (.statfs 1 0 0 6 0 512 255 0) := by decide +kernel
  obtain ⟨⟨idx, stats⟩, hb, hreply⟩ := exists_ok_of_map hrun
  have hsum := (statfs_adds_up (by decide) hb).2
  rw [hreply] at hsum
  obtain ⟨-, -, -, hfiles, -⟩ := TreeReply.statfs.inj hsum
  exact ⟨idx, stats, hb, hreply, Nat.succ.inj hfiles.symm⟩

end ZipFs
