import ZipFs.Index.Basic

/-!
# The interner

The build-time map from `(parent, name component)` to a node, after
`src/index/intern.rs` and the hasher of `src/hash.rs`. It is an open-addressing
table whose keys live in the node array and the name blob, both of which grow
between calls.

Both loops of the source run until a probe meets a slot it can stop at. Here they
have the table's length for fuel: a probe that has gone round once is back where
it started with nothing changed, so the source's loop never ends.

Arithmetic on `u32` wraps, as in a release build. The one place where that can
happen is the `id + 1` that `place` stores.
-/

namespace ZipFs

/-! ## The hash -/

def FxHasher.SEED : UInt64 := 0x517cc1b727220a95

def FxHasher.add (hash word : UInt64) : UInt64 :=
  ((hash <<< 5 ||| hash >>> 59) ^^^ word) * FxHasher.SEED

/-- `u64::from_le_bytes` of at most eight bytes, padded with zeros. -/
def fromLeBytes (bytes : Bytes) : UInt64 :=
  bytes.foldr (fun b acc => acc <<< 8 ||| b.toUInt64) 0

def FxHasher.write (hash : UInt64) : Bytes → UInt64
  | b0 :: b1 :: b2 :: b3 :: b4 :: b5 :: b6 :: b7 :: rest =>
      FxHasher.write (FxHasher.add hash (fromLeBytes [b0, b1, b2, b3, b4, b5, b6, b7])) rest
  | [] => hash
  | rest => FxHasher.add hash (fromLeBytes rest)

def hashKey (parent : Nat) (name : Bytes) : UInt64 :=
  FxHasher.write (FxHasher.add 0 (UInt64.ofNat parent)) name

def bucket (hash : UInt64) (mask : Nat) : Nat := hash.toNat &&& mask

/-! ## The table -/

/-- A node as it exists while the tree is being discovered. -/
structure TmpNode where
  nameOff : Nat
  nameLen : Nat
  kind : NodeKind
  /-- The `FLAG_SYNTHETIC` bit, the only flag there is. -/
  synthetic : Bool
  parent : Nat
  metaIdx : Nat
  deriving DecidableEq, Repr

structure Interner where
  /-- Each slot holds a node index plus one; zero means empty. -/
  slots : List Nat
  mask : Nat
  len : Nat
  deriving DecidableEq, Repr

def nodeName (n : TmpNode) (names : Bytes) : Build Bytes := slice! names n.nameOff n.nameLen

namespace Interner

def withCapacity (cap : Nat) : Interner :=
  let size := (max cap 16 * 2).nextPowerOfTwo
  { slots := List.replicate size 0, mask := size - 1, len := 0 }

def findLoop (t : Interner) (nodes : List TmpNode) (names : Bytes) (parent : Nat) (name : Bytes) :
    Nat → Nat → Build (Option Nat)
  | 0, _ => .error .diverge
  | fuel + 1, idx => do
      let slot ← at! t.slots idx
      if slot = 0 then
        return none
      let id := slot - 1
      let n ← at! nodes id
      let same ← if n.parent = parent then (do return (← nodeName n names) == name) else pure false
      if same then
        return some id
      findLoop t nodes names parent name fuel ((idx + 1) &&& t.mask)

/-- Finds the node with this parent and name. -/
def find (t : Interner) (nodes : List TmpNode) (names : Bytes) (parent : Nat) (name : Bytes) :
    Build (Option Nat) :=
  t.findLoop nodes names parent name t.slots.length (bucket (hashKey parent name) t.mask)

def placeLoop (t : Interner) : Nat → Nat → Build Nat
  | 0, _ => .error .diverge
  | fuel + 1, idx => do
      if (← at! t.slots idx) ≠ 0 then
        placeLoop t fuel ((idx + 1) &&& t.mask)
      else
        return idx

def place (t : Interner) (nodes : List TmpNode) (names : Bytes) (id : Nat) : Build Interner := do
  let n ← at! nodes id
  let idx ← t.placeLoop t.slots.length (bucket (hashKey n.parent (← nodeName n names)) t.mask)
  return { t with slots := ← put! t.slots idx ((id + 1) % 2 ^ 32) }

def grow (t : Interner) (nodes : List TmpNode) (names : Bytes) : Build Interner :=
  let size := t.slots.length * 2
  t.slots.foldlM (fun t slot => if slot ≠ 0 then t.place nodes names (slot - 1) else pure t)
    { t with slots := List.replicate size 0, mask := size - 1 }

/-- The start of `insert`: room for one more node below the load factor. -/
def reserve (t : Interner) (nodes : List TmpNode) (names : Bytes) : Build Interner :=
  if (t.len + 1) * 2 > t.slots.length then t.grow nodes names else .ok t

/-- Records a node that `find` did not turn up. -/
def insert (t : Interner) (nodes : List TmpNode) (names : Bytes) (id : Nat) : Build Interner := do
  let t ← t.reserve nodes names
  let t ← t.place nodes names id
  return { t with len := t.len + 1 }

end Interner

end ZipFs
