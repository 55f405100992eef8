import ZipFs.Lib.Search
import Mathlib.Algebra.Group.Nat.Defs

/-!
# The finished index

The immutable directory tree of `src/index.rs`: an array of nodes addressed
directly by inode number, a blob of name bytes, and the per-entry metadata.
`nodes[0]` is a dead sentinel, so the root sits at inode 1 where FUSE expects it.

Machine integers are `Nat`. The 32-bit limits matter only where the builder
converts, and it does so through `toU32`, so they are explicit there.

A slice or an index out of bounds is a panic in the source. Here it is `none` of
`Checked`, so that "this never panics" is a statement about the model.
-/

namespace ZipFs

abbrev Bytes := List UInt8

/-- The result of code that may panic: `none` is the panic. -/
abbrev Checked (α : Type) := Option α

/-- `&xs[off..off + len]`. -/
def slice {α : Type} (xs : List α) (off len : Nat) : Checked (List α) :=
  if off + len ≤ xs.length then some ((xs.drop off).take len) else none

/-- The inode of the root directory. FUSE fixes this value. -/
def ROOT_INO : Nat := 1

/-- Marks a node that has no entry in the archive. -/
def NO_META : Nat := 2 ^ 32 - 1

/-- The largest symlink target that is accepted. -/
def MAX_SYMLINK : Nat := 4096

/-- What a node is. -/
inductive NodeKind where
  | dir
  | file
  | symlink
  deriving DecidableEq, Repr

/-- A compression method this filesystem can read. -/
inductive Method where
  | store
  | deflate
  | zstd
  deriving DecidableEq, Repr

/-- Maps a raw method value, or `none` if this build cannot read it. -/
def Method.fromRaw (raw : Nat) : Option Method :=
  if raw = 0 then some .store
  else if raw = 8 then some .deflate
  else if raw = 93 ∨ raw = 20 then some .zstd
  else none

/-- One name in the tree. -/
structure Node where
  nameOff : Nat
  nameLen : Nat
  kind : NodeKind
  /-- The `FLAG_SYNTHETIC` bit, the only flag there is. -/
  synthetic : Bool
  /-- The containing directory. The root is its own parent. -/
  parent : Nat
  firstChild : Nat
  childLen : Nat
  subdirCount : Nat
  /-- An index into `Index.metas`, or `NO_META`. -/
  metaIdx : Nat
  deriving DecidableEq, Repr

/--
Everything needed to read one archive entry.

The two atomic cells of the source's record, the cached data start and the
verify state, change while the mount runs. They live in the state of the running
mount and not here.
-/
structure EntryMeta where
  /-- Names the entry to rawzip. Nothing here looks inside it. -/
  wayfinder : Nat
  uncompressedSize : Nat
  compressedSize : Nat
  mtimeSec : Int
  mtimeNsec : Nat
  crc32 : Nat
  methodRaw : Nat
  mode : Nat
  encrypted : Bool
  symlinkSlot : Nat
  deriving DecidableEq, Repr

/-- The method, or `none` if this build cannot read it. -/
def EntryMeta.method (m : EntryMeta) : Option Method := Method.fromRaw m.methodRaw

/-- The whole directory tree, immutable once built. -/
structure Index where
  nodes : List Node
  metas : List EntryMeta
  names : Bytes
  /-- How many symlink target cells there are. -/
  symlinks : Nat
  totalUncompressed : Nat
  deriving DecidableEq, Repr

namespace Index

/-- The node for an inode, or `none` if the inode does not exist. -/
def node (idx : Index) (ino : Nat) : Option Node :=
  if ino = 0 then none else idx.nodes[ino]?

/-- The entry behind a node, if it has one. -/
def metaOf (idx : Index) (n : Node) : Option EntryMeta :=
  if n.metaIdx = NO_META then none else idx.metas[n.metaIdx]?

/-- A node's own name component. -/
def name (idx : Index) (n : Node) : Checked Bytes := slice idx.names n.nameOff n.nameLen

/-- A directory's children, sorted by name. -/
def children (idx : Index) (n : Node) : Checked (List Node) :=
  if n.kind ≠ .dir then some [] else slice idx.nodes n.firstChild n.childLen

/-- Finds a name in a directory, by a binary search over its children. -/
def lookup (idx : Index) (parent : Nat) (name : Bytes) : Checked (Option Nat) :=
  match idx.node parent with
  | none => some none
  | some dir =>
      if dir.kind ≠ .dir then some none
      else do
        let kids ← slice idx.nodes dir.firstChild dir.childLen
        let found ← Lib.binarySearchBy (fun c => (idx.name c).map (compare · name)) kids
        return found.map (dir.firstChild + ·)

/-- The number of nodes, including the root and the sentinel. -/
def len (idx : Index) : Nat := idx.nodes.length

end Index

/-! ## How a build ends -/

/-- The ways a build stops without an index. -/
inductive BuildStop where
  /-- `Error::IndexTooLarge`, the only error `Builder` returns. -/
  | indexTooLarge (what : String)
  /-- An index or a slice out of bounds. -/
  | panic
  /-- A probe loop that has come round to where it started. -/
  | diverge
  deriving DecidableEq, Repr

abbrev Build := Except BuildStop

/-- `u32::try_from`, with the error the source maps a failure to. -/
def toU32 (n : Nat) (what : String) : Build Nat :=
  if n < 2 ^ 32 then .ok n else .error (.indexTooLarge what)

/-- `u16::try_from`, likewise. -/
def toU16 (n : Nat) (what : String) : Build Nat :=
  if n < 2 ^ 16 then .ok n else .error (.indexTooLarge what)

/-- `xs[i]`. -/
def at! {α : Type} (xs : List α) (i : Nat) : Build α :=
  match xs[i]? with
  | some a => .ok a
  | none => .error .panic

/-- `xs[i] = a`. -/
def put! {α : Type} (xs : List α) (i : Nat) (a : α) : Build (List α) :=
  if i < xs.length then .ok (xs.set i a) else .error .panic

/-- A slice taken while building. -/
def slice! {α : Type} (xs : List α) (off len : Nat) : Build (List α) :=
  match slice xs off len with
  | some ys => .ok ys
  | none => .error .panic

theorem at!_ok {α : Type} {xs : List α} {i : Nat} {a : α} (h : xs[i]? = some a) :
    at! xs i = .ok a := by
  rw [at!, h]

theorem put!_ok {α : Type} {xs : List α} {i : Nat} (a : α) (h : i < xs.length) :
    put! xs i a = .ok (xs.set i a) := if_pos h

theorem slice!_ok {α : Type} {xs ys : List α} {off len : Nat} (h : slice xs off len = some ys) :
    slice! xs off len = .ok ys := by
  rw [slice!, h]

theorem toU32_ok {n : Nat} {what : String} (h : n < 2 ^ 32) : toU32 n what = .ok n := if_pos h

theorem toU32_eq_ok {n m : Nat} {what : String} (h : toU32 n what = .ok m) :
    m = n ∧ n < 2 ^ 32 := by
  unfold toU32 at h
  split at h
  · injection h with h
    exact ⟨h.symm, by assumption⟩
  · exact absurd h (by simp)

/-- A slice is in bounds exactly when it exists, and then has the length asked for. -/
theorem slice_eq_some {α : Type} {xs : List α} {off len : Nat} (h : off + len ≤ xs.length) :
    slice xs off len = some ((xs.drop off).take len) := if_pos h

/-- Appending does not disturb a slice that was in bounds. -/
theorem slice_append {α : Type} {xs ys zs : List α} {off len : Nat}
    (h : slice xs off len = some zs) :
    slice (xs ++ ys) off len = some zs := by
  unfold slice at h
  split at h
  · rename_i hle
    rw [slice_eq_some (by rw [List.length_append]; omega), ← h,
      List.drop_append_of_le_length (by omega), List.take_append_of_le_length]
    rw [List.length_drop]; omega
  · exact absurd h (by simp)

/-! ## Reasoning about a build -/

/-- The computation ends with `P`, or gives up with `IndexTooLarge` while `L` holds: it does
not panic and it ends. -/
def SatIf {α : Type} (L : Prop) (P : α → Prop) : Build α → Prop
  | .ok a => P a
  | .error (.indexTooLarge _) => L
  | .error _ => False

/-- The computation ends with `P` or with `IndexTooLarge`. -/
abbrev Sat {α : Type} (P : α → Prop) : Build α → Prop := SatIf True P

section Sat

variable {α β : Type} {L : Prop} {P Q : α → Prop} {R : β → Prop}

theorem SatIf.ok {a : α} (h : P a) : SatIf L P (.ok a) := h

theorem SatIf.mono {x : Build α} (h : SatIf L P x) (hpq : ∀ a, P a → Q a) : SatIf L Q x := by
  match x, h with
  | .ok a, h => exact hpq a h
  | .error (.indexTooLarge _), h => exact h

theorem SatIf.bind {x : Build α} {f : α → Build β} (h : SatIf L P x)
    (hf : ∀ a, P a → SatIf L R (f a)) : SatIf L R (x >>= f) := by
  match x, h with
  | .ok a, h => exact hf a h
  | .error (.indexTooLarge _), h => exact h

theorem SatIf.of_eq_ok {x : Build α} {a : α} (hx : x = .ok a) (h : P a) : SatIf L P x := hx ▸ h

/-- A step whose result is known. -/
theorem SatIf.bind_ok {x : Build α} {f : α → Build β} {a : α} (hx : x = .ok a)
    (h : SatIf L R (f a)) : SatIf L R (x >>= f) := by
  rw [hx]
  exact h

/-- A result is known to be one. -/
theorem SatIf.and_ok {x : Build α} (h : SatIf L P x) (hq : ∀ a, x = .ok a → Q a) :
    SatIf L (fun a => P a ∧ Q a) x := by
  match x, h with
  | .ok a, h => exact ⟨h, hq a rfl⟩
  | .error (.indexTooLarge _), h => exact h

/-- What a finished computation satisfies. -/
theorem SatIf.elim {x : Build α} {a : α} (h : SatIf L P x) (hx : x = .ok a) : P a := by
  rw [hx] at h; exact h

/-- A computation that keeps clear of `IndexTooLarge` has a result. -/
theorem SatIf.exists_ok {x : Build α} (h : SatIf False P x) : ∃ a, x = .ok a ∧ P a := by
  match x, h with
  | .ok a, h => exact ⟨a, rfl, h⟩

theorem Sat.exists_ok {x : Build α} (h : Sat P x) (hx : ∀ what, x ≠ .error (.indexTooLarge what)) :
    ∃ a, x = .ok a ∧ P a := by
  match x, h with
  | .ok a, h => exact ⟨a, rfl, h⟩
  | .error (.indexTooLarge what), _ => exact absurd rfl (hx what)

/-- Reading a result off an evaluated build. -/
theorem exists_ok_of_map {x : Build α} {f : α → β} {v : β} (h : x.toOption.map f = some v) :
    ∃ a, x = .ok a ∧ f a = v := by
  cases x with
  | ok a => exact ⟨a, rfl, Option.some.inj h⟩
  | error e => exact absurd h (by simp [Except.toOption])

/-- The conversion fits unless the limit is reached. -/
theorem satIf_toU32 {n : Nat} (what : String) (h : L ∨ n < 2 ^ 32) :
    SatIf L (fun m => m = n ∧ n < 2 ^ 32) (toU32 n what) := by
  unfold toU32
  split
  · exact ⟨rfl, by assumption⟩
  · rename_i hn
    exact h.resolve_right hn

theorem sat_toU32 (n : Nat) (what : String) : Sat (fun m => m = n ∧ n < 2 ^ 32) (toU32 n what) :=
  satIf_toU32 what (.inl trivial)

theorem satIf_toU16 {n : Nat} (what : String) (h : L ∨ n < 2 ^ 16) :
    SatIf L (fun m => m = n ∧ n < 2 ^ 16) (toU16 n what) := by
  unfold toU16
  split
  · exact ⟨rfl, by assumption⟩
  · rename_i hn
    exact h.resolve_right hn

/-- A loop over a list, with an invariant on what has been done so far. -/
theorem sat_foldlM {f : β → α → Build β} {I : List α → β → Prop} {xs : List α} {b : β}
    (h0 : I [] b)
    (hstep : ∀ done a rest b, xs = done ++ a :: rest → I done b →
      SatIf L (I (done ++ [a])) (f b a)) :
    SatIf L (I xs) (xs.foldlM f b) := by
  suffices ∀ (todo done : List α) (b : β), xs = done ++ todo → I done b →
      SatIf L (I xs) (todo.foldlM f b) from this xs [] b rfl h0
  intro todo
  induction todo with
  | nil =>
      intro done b hxs hI
      rw [List.append_nil] at hxs
      exact hxs ▸ hI
  | cons a todo ih =>
      intro done b hxs hI
      rw [List.foldlM_cons]
      refine (hstep done a todo b hxs hI).bind (fun b' hI' => ih (done ++ [a]) b' ?_ hI')
      rw [hxs]; simp

/-- A loop that counts up, with an invariant on the counter. -/
theorem sat_foldlM_range {f : β → Nat → Build β} {I : Nat → β → Prop} {n : Nat} {b : β}
    (h0 : I 0 b) (hstep : ∀ i b, i < n → I i b → SatIf L (I (i + 1)) (f b i)) :
    SatIf L (I n) ((List.range n).foldlM f b) := by
  have h : SatIf L (I (List.range n).length) ((List.range n).foldlM f b) :=
    sat_foldlM (I := fun done b => I done.length b) h0 (fun done a rest b hsplit hI => by
      have hlt : done.length < n := by
        have := congrArg List.length hsplit
        rw [List.length_range, List.length_append, List.length_cons] at this
        omega
      have ha : a = done.length := by
        have := congrArg (fun l => l[done.length]?) hsplit
        simpa [hlt] using this.symm
      rw [List.length_append, List.length_singleton, ha]
      exact hstep _ b hlt hI)
  simpa using h

/-- Mapping over a list, when every element maps without incident. -/
theorem sat_mapM {f : α → Build β} {g : α → β} {xs : List α}
    (h : ∀ a ∈ xs, SatIf L (fun b => b = g a) (f a)) :
    SatIf L (fun ys => ys = xs.map g) (xs.mapM f) := by
  induction xs with
  | nil => exact rfl
  | cons a xs ih =>
      rw [List.mapM_cons]
      refine (h a List.mem_cons_self).bind (fun b hb => ?_)
      refine (ih (fun c hc => h c (List.mem_cons_of_mem _ hc))).bind (fun bs hbs => ?_)
      rw [hb, hbs]
      exact rfl

end Sat

end ZipFs
