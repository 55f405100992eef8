import ZipFs.Lib.Paging
import ZipFs.Index.Invariant
import ZipFs.Cli.Options

/-!
# Listing a directory

`readdir` and `readdirplus` of `src/fs.rs`, with the attributes of `src/attr.rs`. Both
answer from the index alone, so nothing here depends on the archive or on other threads.

The kernel reads a directory in pages. `reply.add` belongs to fuser: it returns true if
the entry did not fit, and then it was not added. How much fits depends on the buffer the
kernel offers and on the names, so a page is given by an arbitrary test, and the two
operations may be mixed from page to page.
-/

namespace ZipFs

open Cli (Settings)

def ENOTDIR : Nat := 20

/-! ## Attributes -/

inductive FileType where
  | directory
  | regularFile
  | symlink
  deriving DecidableEq, Repr

def NodeKind.fileType : NodeKind → FileType
  | .dir => .directory
  | .file => .regularFile
  | .symlink => .symlink

/-- The block size reported by `stat`. -/
def BLOCK_SIZE : Nat := 4096

/-- Seconds and nanoseconds. Every `i64` of seconds fits the platform's time. -/
def toSystemTime (secs : Int) (nanos : Nat) : Int × Nat := (secs, min nanos 999999999)

/-- What is used of fuser's `FileAttr`. The four times are the same. -/
structure FileAttr where
  ino : Nat
  size : Nat
  blocks : Nat
  mtime : Int × Nat
  kind : FileType
  perm : Nat
  nlink : Nat
  uid : Nat
  gid : Nat
  blksize : Nat
  deriving DecidableEq, Repr

/-- The permission bits for a node. -/
def permissions (n : Node) (m : Option EntryMeta) (c : Settings) : Nat :=
  let recorded := (m.map EntryMeta.mode).getD 0 &&& 0o777
  let mode :=
    if recorded ≠ 0 then recorded else if n.kind = .dir then c.dirMode else c.fileMode
  mode &&& 0o777

/-- A directory links to itself, to its parent, and once per subdirectory. -/
def Node.nlink (n : Node) : Nat := if n.kind = .dir then 2 + n.subdirCount else 1

/-- Builds the attributes for one inode. -/
def fileAttr (idx : Index) (ino : Nat) (n : Node) (c : Settings) : FileAttr :=
  let m := idx.metaOf n
  let size := if n.kind = .dir then 0 else (m.map EntryMeta.uncompressedSize).getD 0
  { ino := ino
    size := size
    blocks := (size + 511) / 512
    mtime := (m.map fun m => toSystemTime m.mtimeSec m.mtimeNsec).getD (0, 0)
    kind := n.kind.fileType
    perm := permissions n m c
    nlink := n.nlink
    uid := c.uid
    gid := c.gid
    blksize := BLOCK_SIZE }

/-! ## The two operations -/

/-- What one `reply.add` hands over: `readdir` gives the type, `readdirplus` attributes. -/
inductive Dirent where
  | plain (ino cursor : Nat) (kind : FileType) (name : Bytes)
  | plus (ino cursor : Nat) (name : Bytes) (attr : FileAttr)
  deriving DecidableEq, Repr

/-- `reply.add`: the page, and whether the entry did not fit. -/
def Dirent.add (full : List Dirent → Dirent → Bool) (page : List Dirent) (e : Dirent) :
    List Dirent × Bool :=
  if full page e then (page, true) else (page ++ [e], false)

namespace Index

/-- The loop over the children from position `i` on. -/
def addChildren (idx : Index) (full : List Dirent → Dirent → Bool)
    (entry : Nat → Node → Bytes → Dirent) : Nat → List Node → List Dirent → Checked (List Dirent)
  | _, [], page => some page
  | i, child :: rest, page => do
      let name ← idx.name child
      let (page, stop) := Dirent.add full page (entry i child name)
      if stop then return page else addChildren idx full entry (i + 1) rest page

/--
What `readdir` and `readdirplus` have in common: the two dot entries, each only below its
own offset, then the children from the offset on.
-/
def fillDir (idx : Index) (full : List Dirent → Dirent → Bool) (offset : Nat) (node : Node)
    (dot dotdot : Dirent) (entry : Nat → Node → Bytes → Dirent) : Checked (List Dirent) := do
  let (page, stop) := if offset < 1 then Dirent.add full [] dot else ([], false)
  if stop then
    return page
  else
    let (page, stop) := if offset < 2 then Dirent.add full page dotdot else (page, false)
    if stop then
      return page
    else
      let start := offset - 2
      let children ← idx.children node
      addChildren idx full entry start (children.drop start) page

def readdir (idx : Index) (full : List Dirent → Dirent → Bool) (ino offset : Nat) :
    Checked (Except Nat (List Dirent)) :=
  match idx.node ino with
  | none => some (.error ENOENT)
  | some node =>
      if node.kind ≠ .dir then some (.error ENOTDIR)
      else do
        let page ← idx.fillDir full offset node
          (.plain ino 1 .directory DOT) (.plain node.parent 2 .directory DOTDOT)
          fun i child name => .plain (node.firstChild + i) (3 + i) child.kind.fileType name
        return .ok page

def readdirplus (idx : Index) (c : Settings) (full : List Dirent → Dirent → Bool)
    (ino offset : Nat) : Checked (Except Nat (List Dirent)) :=
  match idx.node ino with
  | none => some (.error ENOENT)
  | some node =>
      if node.kind ≠ .dir then some (.error ENOTDIR)
      else do
        let pnode := (idx.node node.parent).getD node
        let page ← idx.fillDir full offset node
          (.plus ino 1 DOT (fileAttr idx ino node c))
          (.plus node.parent 2 DOTDOT (fileAttr idx node.parent pnode c))
          fun i child name =>
            .plus (node.firstChild + i) (3 + i) name (fileAttr idx (node.firstChild + i) child c)
        return .ok page

end Index

/-- One call of the kernel: which of the two, and what fits on its page. -/
structure DirCall where
  withAttrs : Bool
  full : List Dirent → Dirent → Bool

/-- The page holds at least one entry. -/
def DirCall.Roomy (call : DirCall) : Prop := ∀ e, call.full [] e = false

def DirCall.run (call : DirCall) (idx : Index) (c : Settings) (ino offset : Nat) :
    Checked (Except Nat (List Dirent)) :=
  if call.withAttrs then idx.readdirplus c call.full ino offset
  else idx.readdir call.full ino offset

/-- What both operations tell about a name. -/
structure Shown where
  ino : Nat
  cursor : Nat
  name : Bytes
  kind : FileType
  deriving DecidableEq, Repr

def Dirent.shown : Dirent → Shown
  | .plain ino cursor kind name => ⟨ino, cursor, name, kind⟩
  | .plus ino cursor name attr => ⟨ino, cursor, name, attr.kind⟩

/-- What one call shows. A failed call shows nothing. -/
def DirCall.shownPage (idx : Index) (c : Settings) (ino : Nat) (call : DirCall) (offset : Nat) :
    List Shown :=
  (((call.run idx c ino offset).bind Except.toOption).getD []).map Dirent.shown

/-- Calls one after the other, each resumed at the cursor of the last entry received, up to
the first empty page. The second part tells whether there was one. -/
def browseDir (idx : Index) (c : Settings) (ino : Nat) :
    List DirCall → Nat → Checked (Except Nat (List Dirent × Bool))
  | [], _ => some (.ok ([], false))
  | call :: calls, offset => do
      match ← call.run idx c ino offset with
      | .error e => return .error e
      | .ok page =>
        match page.getLast? with
        | none => return .ok ([], true)
        | some e =>
          match ← browseDir idx c ino calls e.shown.cursor with
          | .error e => return .error e
          | .ok rest => return .ok (page ++ rest.1, rest.2)

/-! ## A page is a stretch of one list -/

section Pages

variable {idx : Index} {full : List Dirent → Dirent → Bool} {entry : Nat → Node → Bytes → Dirent}

/-- The entries of the children from position `i` on. -/
def childEntries {β : Type} (idx : Index) (entry : Nat → Node → Bytes → β) (i : Nat)
    (kids : List Node) : List β :=
  kids.mapIdx fun j k => entry (i + j) k ((idx.name k).getD [])

theorem childEntries_cons {β : Type} (entry : Nat → Node → Bytes → β) (i : Nat) (k : Node)
    (kids : List Node) :
    childEntries idx entry i (k :: kids) =
      entry i k ((idx.name k).getD []) :: childEntries idx entry (i + 1) kids := by
  unfold childEntries
  rw [List.mapIdx_cons]
  simp only [Nat.add_zero, Nat.add_assoc, Nat.add_comm 1]

theorem childEntries_drop {β : Type} (entry : Nat → Node → Bytes → β) (n : Nat)
    (kids : List Node) :
    childEntries idx entry n (kids.drop n) = (childEntries idx entry 0 kids).drop n := by
  refine List.ext_getElem? fun j => ?_
  unfold childEntries
  rw [List.getElem?_mapIdx, List.getElem?_drop, List.getElem?_drop, List.getElem?_mapIdx,
    Nat.zero_add]

theorem childEntries_map {β : Type} (entry : Nat → Node → Bytes → Dirent) (f : Dirent → β) (i : Nat)
    (kids : List Node) :
    (childEntries idx entry i kids).map f =
      childEntries idx (fun i k nm => f (entry i k nm)) i kids := by
  refine List.ext_getElem? fun j => ?_
  unfold childEntries
  rw [List.getElem?_map, List.getElem?_mapIdx, List.getElem?_mapIdx, Option.map_map]
  rfl

theorem addChildren_eq {kids : List Node} (hnames : ∀ k ∈ kids, (idx.name k).isSome) (i : Nat)
    (page : List Dirent) :
    idx.addChildren full entry i kids page =
      some (Lib.fill full page (childEntries idx entry i kids)) := by
  induction kids generalizing i page with
  | nil => rfl
  | cons k kids ih =>
      obtain ⟨nm, hnm⟩ := Option.isSome_iff_exists.mp (hnames k List.mem_cons_self)
      rw [Index.addChildren, childEntries_cons, Lib.fill, hnm]
      simp only [Option.bind_eq_bind, Option.bind_some, Option.getD_some, Dirent.add]
      split
      · rfl
      · exact ih (fun k hk => hnames k (List.mem_cons_of_mem _ hk)) (i + 1) _

/-- The three ranges of offsets are one: the page starts at the offset in the whole list. -/
theorem fillDir_eq {node : Node} {kids : List Node} (hkids : idx.children node = some kids)
    (hnames : ∀ k ∈ kids, (idx.name k).isSome) (offset : Nat) (dot dotdot : Dirent) :
    idx.fillDir full offset node dot dotdot entry =
      some (Lib.fill full [] ((dot :: dotdot :: childEntries idx entry 0 kids).drop offset)) := by
  have hrest : ∀ page, (idx.addChildren full entry (offset - 2) (kids.drop (offset - 2)) page) =
      some (Lib.fill full page ((childEntries idx entry 0 kids).drop (offset - 2))) := by
    intro page
    rw [addChildren_eq (fun k hk => hnames k (List.mem_of_mem_drop hk)), childEntries_drop]
  rw [Index.fillDir, hkids]
  rcases offset with _ | _ | n
  · have h2 : 0 < 2 := by omega
    simp only [Nat.lt_add_one, if_true, if_pos h2, Dirent.add, List.drop_zero, Lib.fill]
    split
    · rfl
    · simp only [List.nil_append, Bool.false_eq_true, if_false, Option.bind_eq_bind,
        Option.bind_some]
      split
      · rfl
      · simpa using hrest [dot, dotdot]
  · have h1 : ¬ 0 + 1 < 1 := by omega
    have h2 : 0 + 1 < 2 := by omega
    simp only [h1, h2, if_false, if_true, Bool.false_eq_true, Dirent.add, List.drop_succ_cons,
      List.drop_zero, Lib.fill, List.nil_append, Option.bind_eq_bind, Option.bind_some]
    split
    · rfl
    · simpa using hrest [dotdot]
  · have h1 : ¬ n + 1 + 1 < 1 := by omega
    have h2 : ¬ n + 1 + 1 < 2 := by omega
    simp only [h1, h2, if_false, Bool.false_eq_true, Option.bind_eq_bind, Option.bind_some,
      List.drop_succ_cons]
    exact hrest []

end Pages

/-! ## What a directory shows -/

/-- The child at position `i`, as both operations show it. -/
def shownChild (node : Node) (i : Nat) (child : Node) (name : Bytes) : Shown :=
  ⟨node.firstChild + i, 3 + i, name, child.kind.fileType⟩

/-- The children of a directory, as both operations show them. -/
def shownChildren (idx : Index) (node : Node) (kids : List Node) : List Shown :=
  childEntries idx (shownChild node) 0 kids

/-- The whole directory. -/
def shownDir (idx : Index) (ino : Nat) (node : Node) (kids : List Node) : List Shown :=
  ⟨ino, 1, DOT, .directory⟩ :: ⟨node.parent, 2, DOTDOT, .directory⟩ :: shownChildren idx node kids

section Dir

variable {idx : Index} {c : Settings} {ino : Nat} {node : Node} {kids : List Node}

/-- Cursors are dense. -/
theorem cursor_shownDir (i : Nat) (s : Shown) (h : (shownDir idx ino node kids)[i]? = some s) :
    s.cursor = i + 1 := by
  rcases i with _ | _ | i
  · injection h with h
    rw [← h]
  · injection h with h
    rw [← h]
  · simp only [shownDir, List.getElem?_cons_succ, shownChildren, childEntries,
      List.getElem?_mapIdx] at h
    obtain ⟨k, -, hk⟩ := Option.map_eq_some_iff.mp h
    rw [← hk]
    simp only [shownChild]
    omega

/-- **A page of either operation, at any offset and whatever fits on it.** -/
theorem run_page (hnode : idx.node ino = some node) (hdir : node.kind = .dir)
    (hup : ((idx.node node.parent).getD node).kind = .dir)
    (hkids : idx.children node = some kids) (hnames : ∀ k ∈ kids, (idx.name k).isSome)
    (call : DirCall) (offset : Nat) :
    ∃ page m, call.run idx c ino offset = some (.ok page) ∧
      page.map Dirent.shown = ((shownDir idx ino node kids).drop offset).take m ∧
      (call.Roomy → (shownDir idx ino node kids).drop offset ≠ [] → 0 < m) := by
  -- the two operations show the same list
  have hpage : ∀ (dot dotdot : Dirent) (entry : Nat → Node → Bytes → Dirent),
      dot.shown = ⟨ino, 1, DOT, .directory⟩ →
      dotdot.shown = ⟨node.parent, 2, DOTDOT, .directory⟩ →
      (∀ i k nm, (entry i k nm).shown = shownChild node i k nm) →
      ∃ page m, idx.fillDir call.full offset node dot dotdot entry = some page ∧
        page.map Dirent.shown = ((shownDir idx ino node kids).drop offset).take m ∧
        (call.Roomy → (shownDir idx ino node kids).drop offset ≠ [] → 0 < m) := by
    intro dot dotdot entry h1 h2 h3
    have hall : (dot :: dotdot :: childEntries idx entry 0 kids).map Dirent.shown =
        shownDir idx ino node kids := by
      rw [List.map_cons, List.map_cons, h1, h2, childEntries_map]
      simp only [h3]
      rfl
    by_cases hroomy : call.Roomy
    · obtain ⟨m, hm, hpos⟩ := Lib.fill_nil_eq_take hroomy
        ((dot :: dotdot :: childEntries idx entry 0 kids).drop offset)
      refine ⟨_, m, fillDir_eq hkids hnames offset dot dotdot, ?_, fun _ hne => hpos fun hnil => ?_⟩
      · rw [hm, List.map_take, List.map_drop, hall]
      · rw [← hall, ← List.map_drop, hnil] at hne
        exact hne rfl
    · obtain ⟨m, hm⟩ := Lib.fill_eq_append_take call.full []
        ((dot :: dotdot :: childEntries idx entry 0 kids).drop offset)
      refine ⟨_, m, fillDir_eq hkids hnames offset dot dotdot, ?_, fun h => absurd h hroomy⟩
      rw [hm, List.nil_append, List.map_take, List.map_drop, hall]
  have hkind : ¬ node.kind ≠ .dir := not_not_intro hdir
  rw [DirCall.run]
  split
  · have hself : (fileAttr idx ino node c).kind = .directory := by
      simp only [fileAttr, hdir, NodeKind.fileType]
    have hparent : (fileAttr idx node.parent ((idx.node node.parent).getD node) c).kind =
        .directory := by
      simp only [fileAttr, hup, NodeKind.fileType]
    obtain ⟨page, m, hp, hs, hpos⟩ := hpage (.plus ino 1 DOT (fileAttr idx ino node c))
      (.plus node.parent 2 DOTDOT (fileAttr idx node.parent ((idx.node node.parent).getD node) c))
      (fun i child name => .plus (node.firstChild + i) (3 + i) name
        (fileAttr idx (node.firstChild + i) child c))
      (by rw [Dirent.shown, hself]) (by rw [Dirent.shown, hparent]) (fun _ _ _ => rfl)
    refine ⟨page, m, ?_, hs, hpos⟩
    simp only [Index.readdirplus, hnode, if_neg hkind, hp, Option.bind_eq_bind, Option.bind_some,
      Option.pure_def]
  · obtain ⟨page, m, hp, hs, hpos⟩ := hpage (.plain ino 1 .directory DOT)
      (.plain node.parent 2 .directory DOTDOT)
      (fun i child name => .plain (node.firstChild + i) (3 + i) child.kind.fileType name)
      rfl rfl (fun _ _ _ => rfl)
    refine ⟨page, m, ?_, hs, hpos⟩
    simp only [Index.readdir, hnode, if_neg hkind, hp, Option.bind_eq_bind, Option.bind_some,
      Option.pure_def]

theorem shownPage_eq {call : DirCall} {offset : Nat} {page : List Dirent}
    (h : call.run idx c ino offset = some (.ok page)) :
    call.shownPage idx c ino offset = page.map Dirent.shown := by
  rw [DirCall.shownPage, h]
  rfl

/-- Paging through a directory is paging through the one list that it shows. -/
theorem browseDir_eq (hrun : ∀ (call : DirCall) (offset : Nat),
      ∃ page, call.run idx c ino offset = some (.ok page)) (calls : List DirCall) (offset : Nat) :
    ∃ r, browseDir idx c ino calls offset = some (.ok r) ∧
      (r.1.map Dirent.shown, r.2) =
        Lib.browse (DirCall.shownPage idx c ino) Shown.cursor calls offset := by
  induction calls generalizing offset with
  | nil => exact ⟨([], false), rfl, rfl⟩
  | cons call calls ih =>
      obtain ⟨page, hpage⟩ := hrun call offset
      rw [browseDir, hpage, Lib.browse, shownPage_eq hpage, List.getLast?_map]
      cases hlast : page.getLast? with
      | none => exact ⟨([], true), by simp [hlast], rfl⟩
      | some e =>
          obtain ⟨r, hr, hrest⟩ := ih e.shown.cursor
          refine ⟨(page ++ r.1, r.2), ?_, ?_⟩
          · simp [hlast, hr]
          · simp only [Option.map_some, ← hrest, List.map_append]

end Dir

/-! ## What an index shows -/

section Children

variable {b : Builder} {idx : Index} {order : List Nat} {ino : Nat} {node : Node}

/-- The slice of a directory's children: each is the node its position says, and has a name. -/
theorem Finished.children_spec (hf : Finished b idx order) (h : b.Ok)
    (hnode : idx.node ino = some node) (hdir : node.kind = .dir) :
    ∃ kids, idx.children node = some kids ∧ kids.length = node.childLen ∧
      Lib.StrictSorted (fun C => (idx.name C).getD []) kids ∧
      ∀ (i : Nat) (C : Node), kids[i]? = some C → idx.node (node.firstChild + i) = some C ∧
        (idx.name C).isSome := by
  obtain ⟨j, id, t, rfl, hj, ht, hfin⟩ := hf.node_cases hnode
  obtain ⟨kids, hslice, hlen, hat⟩ := hf.kids_slice hj hfin
  refine ⟨kids, ?_, by rw [hlen, hfin.childLen], hf.kids_sorted h hj hfin hslice, ?_⟩
  · rw [Index.children, if_neg (not_not_intro hdir)]
    exact hslice
  · intro i C hC
    have hi := (List.getElem?_eq_some_iff.mp hC).1
    obtain ⟨-, C', -, hC', hnode', -⟩ := hat i (hlen ▸ hi)
    rw [hC] at hC'
    injection hC' with hC'
    subst hC'
    refine ⟨hnode', hf.name_isSome h ?_⟩
    rw [Index.node] at hnode'
    split at hnode'
    · exact absurd hnode' (by simp)
    · exact List.mem_of_getElem? hnode'

variable {kids : List Node}

theorem mem_shownChildren {s : Shown} :
    s ∈ shownChildren idx node kids ↔
      ∃ (i : Nat) (C : Node), kids[i]? = some C ∧
        s = shownChild node i C ((idx.name C).getD []) := by
  unfold shownChildren childEntries
  rw [List.mem_iff_getElem?]
  constructor
  · rintro ⟨i, hi⟩
    rw [List.getElem?_mapIdx] at hi
    obtain ⟨C, hC, hs⟩ := Option.map_eq_some_iff.mp hi
    exact ⟨i, C, hC, by rw [← hs, Nat.zero_add]⟩
  · rintro ⟨i, C, hC, rfl⟩
    exact ⟨i, by rw [List.getElem?_mapIdx, hC, Option.map_some, Nat.zero_add]⟩

theorem shownChildren_sorted (hs : Lib.StrictSorted (fun C => (idx.name C).getD []) kids) :
    (shownChildren idx node kids).Pairwise (fun a b => compare a.name b.name = .lt) := by
  rw [List.pairwise_iff_getElem]
  intro i j hi hj hij
  simp only [shownChildren, childEntries, List.length_mapIdx] at hi hj
  simp only [shownChildren, childEntries, List.getElem_mapIdx, shownChild]
  exact List.pairwise_iff_getElem.mp hs i j hi hj hij

end Children

/--
**Directory paging is lossless.** For every directory of every index that is built: what
it shows below the two dot entries is every child once, in the order of the names, under
the inode `lookup` finds and as what that node is. Any mixture of `readdir` and
`readdirplus` calls whose pages hold at least one entry, started at offset 0 and resumed
at the last cursor, receives a piece of that from its start; it has received all of it
when a page comes back empty, and one does after at most as many calls as there are
entries. A call at any offset, whatever fits on its page, ends normally.
-/
theorem readdir_lossless {hint : Nat} {entries : List Entry} {idx : Index} {stats : BuildStats}
    (hbuild : build hint entries = .ok (idx, stats)) (c : Settings) {ino : Nat} {node : Node}
    (hnode : idx.node ino = some node) (hdir : node.kind = .dir) :
    ∃ kids : List Shown,
      kids.Pairwise (fun a b => compare a.name b.name = .lt) ∧
      (∀ x, x ∈ kids.map Shown.ino ↔ 2 ≤ x ∧ ∃ ch, idx.node x = some ch ∧ ch.parent = ino) ∧
      (∀ k ∈ kids, idx.lookup ino k.name = some (some k.ino) ∧ ∃ ch, idx.node k.ino = some ch ∧
        idx.name ch = some k.name ∧ k.kind = ch.kind.fileType) ∧
      (∀ calls : List DirCall, (∀ call ∈ calls, call.Roomy) →
        ∃ received done, browseDir idx c ino calls 0 = some (.ok (received, done)) ∧
          received.map Dirent.shown <+:
            ⟨ino, 1, DOT, .directory⟩ :: ⟨node.parent, 2, DOTDOT, .directory⟩ :: kids ∧
          (done = true → received.map Dirent.shown =
            ⟨ino, 1, DOT, .directory⟩ :: ⟨node.parent, 2, DOTDOT, .directory⟩ :: kids) ∧
          (kids.length + 2 < calls.length → done = true)) ∧
      ∀ (call : DirCall) (offset : Nat), ∃ page, call.run idx c ino offset = some (.ok page) := by
  obtain ⟨b, order, hb⟩ := (build_spec hint entries).elim hbuild
  have hf := hb.finished
  have hok := hb.ok
  obtain ⟨kids, hkids, hlen, hsorted, hat⟩ := hf.children_spec hok hnode hdir
  have hrange : ∀ (i : Nat) (C : Node), kids[i]? = some C → node.InRange (node.firstChild + i) :=
    fun i C hC => by
      have := (List.getElem?_eq_some_iff.mp hC).1
      exact ⟨by omega, by omega⟩
  have hup : ((idx.node node.parent).getD node).kind = .dir := by
    obtain ⟨p, hp, hpd⟩ := hf.parent_node hok hnode
    rw [hp]
    exact hpd
  have hnames : ∀ k ∈ kids, (idx.name k).isSome := fun k hk => by
    obtain ⟨i, hi⟩ := List.mem_iff_getElem?.mp hk
    exact (hat i k hi).2
  have hpages := run_page (c := c) hnode hdir hup hkids hnames
  have hrun : ∀ (call : DirCall) (offset : Nat),
      ∃ page, call.run idx c ino offset = some (.ok page) := fun call offset => by
    obtain ⟨page, -, hp, -⟩ := hpages call offset
    exact ⟨page, hp⟩
  refine ⟨shownChildren idx node kids, shownChildren_sorted hsorted, fun x => ⟨?_, ?_⟩, ?_, ?_, ?_⟩
  · -- what is shown is a child
    intro hx
    obtain ⟨s, hs, rfl⟩ := List.mem_map.mp hx
    obtain ⟨i, C, hC, rfl⟩ := mem_shownChildren.mp hs
    obtain ⟨hnode', -⟩ := hat i C hC
    have h2 := (hf.exists_inRange_iff.mp ⟨ino, node, hnode, hrange i C hC⟩).1
    exact ⟨h2, C, hnode', hf.parent_of_inRange hnode (hrange i C hC) hnode'⟩
  · -- and every child is shown
    rintro ⟨h2, ch, hch, hparent⟩
    obtain ⟨d, n, hn, hx⟩ := hf.exists_inRange_iff.mpr ⟨h2, by
      rw [Index.node, if_neg (by omega)] at hch
      exact (List.getElem?_eq_some_iff.mp hch).1⟩
    rw [← hparent, hf.parent_of_inRange hn hx hch, hn] at hnode
    injection hnode with hnode
    subst hnode
    obtain ⟨i, rfl⟩ := Nat.exists_eq_add_of_le hx.1
    have hi : i < kids.length := by
      have := hx.2
      omega
    refine List.mem_map.mpr ⟨_, mem_shownChildren.mpr ⟨i, _, List.getElem?_eq_getElem hi, rfl⟩, rfl⟩
  · intro k hk
    obtain ⟨i, C, hC, rfl⟩ := mem_shownChildren.mp hk
    obtain ⟨hnode', hsome⟩ := hat i C hC
    obtain ⟨nm, hnm⟩ := Option.isSome_iff_exists.mp hsome
    have h2 := (hf.exists_inRange_iff.mp ⟨ino, node, hnode, hrange i C hC⟩).1
    have hparent := hf.parent_of_inRange hnode (hrange i C hC) hnode'
    simp only [shownChild, hnm, Option.getD_some]
    refine ⟨?_, C, hnode', hnm, rfl⟩
    rw [← hparent]
    exact hf.lookup_parent hok h2 hnode' hnm
  · intro calls hroomy
    obtain ⟨⟨received, done⟩, hbrowse, hshown⟩ := browseDir_eq hrun calls 0
    obtain ⟨h1, h2, h3⟩ := Lib.browse_spec (shownDir idx ino node kids)
      (DirCall.shownPage idx c ino) calls cursor_shownDir
      (fun call hcall k => by
        obtain ⟨page, m, hp, hs, hpos⟩ := hpages call k
        exact ⟨m, (shownPage_eq hp).trans hs, hpos (hroomy call hcall)⟩) 0
    rw [← hshown, List.drop_zero] at h1 h2 h3
    refine ⟨received, done, hbrowse, h1, h2, fun hlen' => h3 ?_⟩
    simp only [shownDir, List.length_cons]
    omega
  · exact hrun

/-- The root of a small archive, one entry a page. -/
theorem readdir_lossless_sample :
    ∃ idx stats node, build 3 sampleEntries = .ok (idx, stats) ∧ idx.node ROOT_INO = some node ∧
      node.kind = .dir ∧ ∃ received done,
        browseDir idx ⟨⟨true, 524288, 4, 64, 8⟩, 0, 0, 0o644, 0o755, 0, false, false, false⟩
          ROOT_INO (List.replicate 9 ⟨true, fun page _ => !page.isEmpty⟩) 0 =
            some (.ok (received, done)) := by
  have hrun : (build 3 sampleEntries).toOption.map
      (fun r => (r.1.node ROOT_INO).map Node.kind) = some (some .dir) := by decide +kernel
  obtain ⟨⟨idx, stats⟩, hb, hk⟩ := exists_ok_of_map hrun
  obtain ⟨node, hnode, hdir⟩ := Option.map_eq_some_iff.mp hk
  obtain ⟨kids, -, -, -, hbrowse, -⟩ := readdir_lossless hb
    ⟨⟨true, 524288, 4, 64, 8⟩, 0, 0, 0o644, 0o755, 0, false, false, false⟩ hnode hdir
  obtain ⟨received, done, h, -⟩ := hbrowse (List.replicate 9 ⟨true, fun page _ => !page.isEmpty⟩)
    (fun call hcall => by
      rw [List.eq_of_mem_replicate hcall]
      exact fun _ => rfl)
  exact ⟨idx, stats, node, hb, hnode, hdir, received, done, h⟩

end ZipFs
