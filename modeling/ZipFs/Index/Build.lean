import ZipFs.Index.Path
import ZipFs.Index.Intern
import Mathlib.Data.List.Sort

/-!
# Building the tree

The two passes of `src/index/build.rs`. The first walks the central directory
once, validating paths and interning every component, which discovers nodes in
archive order. The second sorts siblings and relabels the tree breadth first,
which is what makes each directory's children contiguous.

The counters of `BuildStats` are natural numbers, and logging is left out: a
`Warner` is kept because `add` carries it, but nothing reads what it allows.
-/

namespace ZipFs

/-- How many of each kind of complaint to log before falling back to a count. -/
def MAX_WARNINGS : Nat := 16

/-- The largest number of entries preallocated for. -/
def MAX_PREALLOC : Nat := 2 ^ 20

/-- What the build had to skip or work around. -/
structure BuildStats where
  entries : Nat
  rejectedPaths : Nat
  rejectedSizes : Nat
  duplicates : Nat
  encrypted : Nat
  unsupported : Nat
  syntheticDirs : Nat
  symlinks : Nat
  deriving DecidableEq, Repr

def BuildStats.default : BuildStats := ⟨0, 0, 0, 0, 0, 0, 0, 0⟩

structure Warner where
  seen : Nat
  deriving DecidableEq, Repr

/-- True while complaints should still be logged one by one. -/
def Warner.allow (w : Warner) : Warner × Bool :=
  ({ seen := w.seen + 1 }, w.seen + 1 ≤ MAX_WARNINGS)

/-- One record of the central directory, as `build` hands it to `add`. -/
structure Entry where
  path : Bytes
  isDir : Bool
  info : EntryMeta
  deriving DecidableEq, Repr

structure Builder where
  nodes : List TmpNode
  names : Bytes
  metas : List EntryMeta
  interner : Interner
  /-- The parent directory the previous entry resolved to. -/
  memoPath : Bytes
  memoId : Nat
  symlinkCount : Nat
  stats : BuildStats
  dupWarner : Warner
  rejectWarner : Warner
  deriving DecidableEq, Repr

/-- The root. It is its own parent, which is what `..` should report. -/
def rootNode : TmpNode :=
  { nameOff := 0, nameLen := 0, kind := .dir, synthetic := true, parent := 0, metaIdx := NO_META }

def isSymlinkMode (mode : Nat) : Bool := mode &&& 0o170000 == 0o120000

/-- What an entry asks its node to be. -/
def Entry.kind (e : Entry) : NodeKind :=
  if e.isDir then .dir else if isSymlinkMode e.info.mode then .symlink else .file

/-- A stored entry whose two sizes do not define the same byte range. -/
def storedSizesDiffer (m : EntryMeta) : Bool :=
  !m.encrypted && m.methodRaw == 0 && m.compressedSize != m.uncompressedSize

/-- An entry without a trustworthy compressed length. -/
def compressedSizeZero (m : EntryMeta) : Bool :=
  decide (m.uncompressedSize > 0) && m.compressedSize == 0

namespace Builder

def new (hint : Nat) : Builder where
  nodes := [rootNode]
  names := []
  metas := []
  interner := Interner.withCapacity hint
  memoPath := []
  memoId := 0
  symlinkCount := 0
  stats := BuildStats.default
  dupWarner := ⟨0⟩
  rejectWarner := ⟨0⟩

/--
Interns a component under a parent, appending it to the name blob only if it is
new. Returns the node and whether it is fresh.
-/
def intern (b : Builder) (parent : Nat) (name : Bytes) : Build (Builder × Nat × Bool) := do
  match ← b.interner.find b.nodes b.names parent name with
  | some id => return (b, id, false)
  | none =>
      let nameOff ← toU32 b.names.length "name blob"
      let names := b.names ++ name
      let id ← toU32 b.nodes.length "node count"
      let nameLen ← toU16 name.length "path component length"
      let nodes := b.nodes ++ [{
        nameOff := nameOff, nameLen := nameLen, kind := .dir, synthetic := true,
        parent := parent, metaIdx := NO_META }]
      let interner ← b.interner.insert nodes names id
      return ({ b with nodes := nodes, names := names, interner := interner }, id, true)

/-- Turns a node that was indexed as a file into a directory. -/
def takeOverAsDir (b : Builder) (id : Nat) : Build Builder := do
  let node ← at! b.nodes id
  let nodes ← put! b.nodes id { node with kind := .dir, synthetic := true, metaIdx := NO_META }
  return { b with
    nodes := nodes
    dupWarner := b.dupWarner.allow.1
    stats := { b.stats with
      duplicates := b.stats.duplicates + 1
      syntheticDirs := b.stats.syntheticDirs + 1 } }

/-- One turn of the loop in `resolve_parent`: the component below `cur`, made a directory. -/
def resolveComponent (b : Builder) (cur : Nat) (comp : Bytes) : Build (Builder × Nat) := do
  let (b, id, fresh) ← b.intern cur comp
  if fresh then
    return ({ b with stats := { b.stats with syntheticDirs := b.stats.syntheticDirs + 1 } }, id)
  else
    let node ← at! b.nodes id
    if node.kind ≠ .dir then
      -- An entry claimed this as a file. The directory wins, because dropping
      -- it would orphan everything underneath.
      return (← b.takeOverAsDir id, id)
    else
      return (b, id)

def resolveLoop : List Bytes → Builder → Nat → Build (Builder × Nat)
  | [], b, cur => .ok (b, cur)
  | comp :: rest, b, cur => do
      let (b, id) ← b.resolveComponent cur comp
      resolveLoop rest b id

/-- Resolves the directory a path lives in, creating what is missing. -/
def resolveParent (b : Builder) (parentPath : Bytes) : Build (Builder × Nat) := do
  if parentPath = b.memoPath then
    return (b, b.memoId)
  else
    let (b, cur) ← resolveLoop (components parentPath) b 0
    return ({ b with memoPath := parentPath, memoId := cur }, cur)

def reject (b : Builder) : Builder :=
  { b with
    rejectWarner := b.rejectWarner.allow.1
    stats := { b.stats with rejectedPaths := b.stats.rejectedPaths + 1 } }

def rejectSize (b : Builder) : Builder :=
  { b with
    rejectWarner := b.rejectWarner.allow.1
    stats := { b.stats with rejectedSizes := b.stats.rejectedSizes + 1 } }

/-- An entry that lost its name, with or without a line in the log. -/
def duplicate (b : Builder) (warn : Bool) : Builder :=
  { b with
    dupWarner := if warn then b.dupWarner.allow.1 else b.dupWarner
    stats := { b.stats with duplicates := b.stats.duplicates + 1 } }

/-- The counters an attached entry moves. -/
def countEntry (stats : BuildStats) (kind : NodeKind) (info : EntryMeta) : BuildStats :=
  { stats with
    entries := stats.entries + 1
    encrypted := if info.encrypted then stats.encrypted + 1 else stats.encrypted
    unsupported :=
      if !info.encrypted && info.method.isNone then stats.unsupported + 1 else stats.unsupported
    symlinks := if kind = .symlink then stats.symlinks + 1 else stats.symlinks }

/-- Gives a symlink the next target cell. Other entries keep their metadata as it is. -/
def takeSlot (b : Builder) (kind : NodeKind) (info : EntryMeta) : Build (EntryMeta × Nat) :=
  if kind = .symlink then
    if b.symlinkCount + 1 < 2 ^ 32 then
      .ok ({ info with symlinkSlot := b.symlinkCount }, b.symlinkCount + 1)
    else
      .error (.indexTooLarge "symlink count")
  else
    .ok (info, b.symlinkCount)

/-- The end of `add`: the node becomes what the entry says. -/
def attach (b : Builder) (id : Nat) (kind : NodeKind) (info : EntryMeta) : Build Builder := do
  let (info, symlinkCount) ← b.takeSlot kind info
  let metaIdx ← toU32 b.metas.length "metadata count"
  let node ← at! b.nodes id
  let nodes ← put! b.nodes id { node with kind := kind, synthetic := false, metaIdx := metaIdx }
  return { b with
    nodes := nodes
    metas := b.metas ++ [info]
    symlinkCount := symlinkCount
    stats := countEntry b.stats kind info }

/-- The part of `add` after the leaf is interned: who gets the node. -/
def claim (b : Builder) (id : Nat) (fresh : Bool) (kind : NodeKind) (info : EntryMeta) :
    Build Builder := do
  if fresh then
    b.attach id kind info
  else
    let existing ← at! b.nodes id
    if existing.kind = .dir ∧ kind ≠ .dir then
      -- The directory wins over a file of the same name.
      return b.duplicate true
    else if ¬ existing.synthetic then
      -- First entry wins.
      return b.duplicate true
    else if kind ≠ .dir then
      return b.duplicate false
    else
      -- The node exists only because a deeper path needed it. This entry is
      -- the real declaration of that directory.
      let stats := { b.stats with syntheticDirs := b.stats.syntheticDirs - 1 }
      { b with stats := stats }.attach id kind info

def add (b : Builder) (e : Entry) : Build Builder := do
  if (rejectReason e.path).isSome then
    return b.reject
  else if storedSizesDiffer e.info then
    return b.rejectSize
  else if compressedSizeZero e.info then
    return b.rejectSize
  else
    let (parentPath, leaf) := splitParent (normalizePath e.path)
    let (b, parent) ← b.resolveParent parentPath
    let (b, id, fresh) ← b.intern parent leaf
    b.claim id fresh e.kind e.info

end Builder

/-! ## The second pass -/

def checkedAdd32 (a b : Nat) (what : String) : Build Nat := toU32 (a + b) what

/-- `xs[lo..hi]`. -/
def range! {α : Type} (xs : List α) (lo hi : Nat) : Build (List α) :=
  if lo ≤ hi then slice! xs lo (hi - lo) else .error .panic

/-- Counts the children of node `p` into `counts[p + 1]`. -/
def countChildren (tmp : List TmpNode) : Build (List Nat) :=
  tmp.tail.foldlM (fun counts node => do
    let count ← at! counts (node.parent + 1)
    put! counts (node.parent + 1) (← checkedAdd32 count 1 "child count"))
    (List.replicate (tmp.length + 1) 0)

/-- Turns counts into the positions where each group starts. -/
def prefixSums (n : Nat) (counts : List Nat) : Build (List Nat) :=
  (List.range n).foldlM (fun counts i => do
    let next ← at! counts (i + 1)
    put! counts (i + 1) (← checkedAdd32 next (← at! counts i) "node count")) counts

/-- Puts every node but the root into the next free place of its parent's group. -/
def scatter (tmp : List TmpNode) (starts : List Nat) : Build (List Nat × List Nat) :=
  (List.range' 1 (tmp.length - 1)).foldlM (fun (cursor, kids) i => do
    let node ← at! tmp i
    let slot ← at! cursor node.parent
    let kids ← put! kids slot (← toU32 i "node count")
    let cursor ← put! cursor node.parent (← checkedAdd32 slot 1 "child count")
    return (cursor, kids)) (starts, List.replicate (tmp.length - 1) 0)

/-- The order of a group: bytewise, by name. -/
def nameLE (a b : Bytes × Nat) : Prop := (compare a.1 b.1).isLE = true

instance (a b : Bytes × Nat) : Decidable (nameLE a b) := inferInstanceAs (Decidable (_ = true))

/--
`sort_unstable_by` on names. Siblings have different names, so it does not matter
which sort it is. A group of fewer than two is left alone.
-/
def sortByName (tmp : List TmpNode) (names : Bytes) (group : List Nat) : Build (List Nat) := do
  if group.length < 2 then
    return group
  else
    let keyed ← group.mapM (fun id => do return (← nodeName (← at! tmp id) names, id))
    return (keyed.insertionSort nameLE).map Prod.snd

def sortGroups (tmp : List TmpNode) (names : Bytes) (starts kids : List Nat) : Build (List Nat) :=
  (List.range tmp.length).foldlM (fun kids i => do
    let lo ← at! starts i
    let hi ← at! starts (i + 1)
    let sorted ← sortByName tmp names (← range! kids lo hi)
    return kids.take lo ++ sorted ++ kids.drop hi) kids

/-- Groups child nodes by parent and sorts each group by name. -/
def groupChildren (tmp : List TmpNode) (names : Bytes) : Build (List Nat × List Nat) := do
  let counts ← countChildren tmp
  let starts ← prefixSums tmp.length counts
  let (_, kids) ← scatter tmp starts
  return (starts, ← sortGroups tmp names starts kids)

/-- The labels the children of one node get, and the queue after them. -/
def enqueue (group : List Nat) (order finalOf : List Nat) : Build (List Nat × List Nat) :=
  group.foldlM (fun (order, finalOf) k => do
    let finalOf ← put! finalOf k (← toU32 (order.length + 1) "node count")
    return (order ++ [k], finalOf)) (order, finalOf)

/--
The queue loop of `breadth_first_order`. Every turn converts `order.len() + 1` to
`u32`, so it cannot take more than `2 ^ 32` turns.
-/
def bfsLoop (starts kids : List Nat) :
    Nat → Nat → List Nat → List Nat → List Nat → Build (List Nat × List Nat × List Nat)
  | 0, _, _, _, _ => .error .diverge
  | fuel + 1, i, order, firstChild, finalOf =>
      if i < order.length then do
        let t ← at! order i
        let lo ← at! starts t
        let hi ← at! starts (t + 1)
        let firstChild ← put! firstChild t (← toU32 (order.length + 1) "node count")
        let (order, finalOf) ← enqueue (← range! kids lo hi) order finalOf
        bfsLoop starts kids fuel (i + 1) order firstChild finalOf
      else
        .ok (order, firstChild, finalOf)

/-- Relabels nodes in breadth-first order so children are contiguous. -/
def breadthFirstOrder (tmp : List TmpNode) (starts kids : List Nat) :
    Build (List Nat × List Nat × List Nat) := do
  let n := tmp.length
  let finalOf ← put! (List.replicate n 0) 0 1
  bfsLoop starts kids (2 ^ 32 + 1) 0 [0] (List.replicate n 0) finalOf

/-- Index 0 is never a valid inode, so it holds a dead node. -/
def sentinel : Node :=
  { nameOff := 0, nameLen := 0, kind := .dir, synthetic := true, parent := 1, firstChild := 0,
    childLen := 0, subdirCount := 0, metaIdx := NO_META }

/-- The final inode of a node's parent. The root is its own. -/
def finalParent (finalOf : List Nat) (tid parent : Nat) : Build Nat :=
  if tid = 0 then .ok 1 else at! finalOf parent

/-- The final node for the node `tid` of the first pass. -/
def finalNode (tmp : List TmpNode) (starts kids firstChild finalOf : List Nat) (tid : Nat) :
    Build Node := do
  let t ← at! tmp tid
  let lo ← at! starts tid
  let hi ← at! starts (tid + 1)
  let kinds ← (← range! kids lo hi).mapM (fun k => do return (← at! tmp k).kind)
  let subdirCount ← toU32 (kinds.count .dir) "subdirectory count"
  let parent ← finalParent finalOf tid t.parent
  let firstChild ← at! firstChild tid
  let childLen ← toU32 (hi - lo) "child count"
  return {
    nameOff := t.nameOff, nameLen := t.nameLen, kind := t.kind, synthetic := t.synthetic,
    parent := parent, firstChild := firstChild, childLen := childLen,
    subdirCount := subdirCount, metaIdx := t.metaIdx }

/-- `saturating_add` on `u64`. -/
def saturatingAdd64 (a b : Nat) : Nat := min (a + b) (2 ^ 64 - 1)

def addSize (tmp : List TmpNode) (metas : List EntryMeta) (total tid : Nat) : Build Nat := do
  let t ← at! tmp tid
  if t.metaIdx ≠ NO_META then
    return saturatingAdd64 total (← at! metas t.metaIdx).uncompressedSize
  else
    return total

/-- Sorts siblings and relabels the tree so children are contiguous. -/
def Builder.finish (b : Builder) : Build Index := do
  let (starts, kids) ← groupChildren b.nodes b.names
  let (order, firstChild, finalOf) ← breadthFirstOrder b.nodes starts kids
  let nodes ← order.mapM (finalNode b.nodes starts kids firstChild finalOf)
  let total ← order.foldlM (addSize b.nodes b.metas) 0
  return {
    nodes := sentinel :: nodes
    metas := b.metas
    names := b.names
    symlinks := b.symlinkCount
    totalUncompressed := total }

/-- The first pass over a whole central directory. -/
def addAll (hint : Nat) (entries : List Entry) : Build Builder :=
  entries.foldlM Builder.add (Builder.new (min hint MAX_PREALLOC))

/-- Builds the tree from the records of the central directory. -/
def build (hint : Nat) (entries : List Entry) : Build (Index × BuildStats) := do
  let b ← addAll hint entries
  let index ← b.finish
  let synthetic := ((index.nodes.drop 2).filter (fun n => n.synthetic)).length
  return (index, { b.stats with syntheticDirs := synthetic })

end ZipFs
