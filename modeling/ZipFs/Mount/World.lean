import ZipFs.Lib.Threads
import ZipFs.Mount.Codec
import Mathlib.Data.List.Perm.Basic

/-!
# The state of a running mount

What the FUSE worker threads share, and every atomic step that they take on it.
The values the source keeps in atomics, behind mutexes or in thread-local storage
are fields of `World`; a lock that is held over several steps is a field too, and
an operation that needs it does not happen while another thread holds it.

`det` gives the answer and the effect of each operation. What can also happen,
because the kernel or the network answers otherwise, is `Fails`.

Some fields record what happened and are read by no operation: `seen`, `hands`,
`minted`, `serials`, `retired` and `differed`, with the `serial` and the `failed` of
a decoder, what a cell knows about its pool or its tracker, and the blocks that the
tracker has observed. They are what statements about runs are made of.
-/

namespace ZipFs

/-! ## Errors -/

def ENOENT : Nat := 2
def EIO : Nat := 5
def EBADF : Nat := 9
def EACCES : Nat := 13
def EISDIR : Nat := 21
def EINVAL : Nat := 22
def EROFS : Nat := 30
def EOVERFLOW : Nat := 75
def EOPNOTSUPP : Nat := 95
def ESTALE : Nat := 116

/-- `u64::MAX`, which marks a data start that is not known yet. -/
def U64_MAX : Nat := 2 ^ 64 - 1

/-- The kinds of `io::ErrorKind` that the program tells apart. -/
inductive ErrorKind where
  | notFound
  | invalidInput
  | invalidData
  | unexpectedEof
  | other
  deriving DecidableEq, Repr

/-- `io::Error`: an error number of the system, or a kind with a message. -/
inductive IoError where
  | os (errno : Nat)
  | custom (kind : ErrorKind) (text : String)
  deriving DecidableEq, Repr

namespace IoError

/-- No error number has the kind `InvalidData` or `UnexpectedEof`. -/
def kind : IoError → ErrorKind
  | .os errno =>
      if errno = ENOENT then .notFound else if errno = EINVAL then .invalidInput else .other
  | .custom kind _ => kind

def rawOsError : IoError → Option Nat
  | .os errno => some errno
  | .custom _ _ => none

def text : IoError → String
  | .os errno => "os error " ++ toString errno
  | .custom _ text => text

end IoError

/-! ## What the archive is -/

/-- What identifies one version of a file. -/
structure Stamp where
  dev : Nat
  ino : Nat
  len : Nat
  mtime : Int × Int
  deriving DecidableEq, Repr

def Stamp.sameFile (a b : Stamp) : Bool := (a.dev, a.ino) == (b.dev, b.ino)

/-- Whether nothing was written since the other stamp. -/
def Stamp.unchanged (a b : Stamp) : Bool := (a.len, a.mtime) == (b.len, b.mtime)

/-- Why the archive is no longer the one the index describes. -/
inductive Change where
  | removed
  | replaced
  | modified
  deriving DecidableEq, Repr

/-- What a check of the archive found. -/
inductive Freshness where
  | current
  | stale
  | unknown
  deriving DecidableEq, Repr

/-! ## Configuration -/

def MIN_SOURCE_BUFFER : Nat := 4 * 1024
def MAX_SOURCE_BUFFER : Nat := 16 * 1024 * 1024
def SKIP_BUFFER : Nat := 64 * 1024

/-- The settings that the read path looks at. -/
structure Config where
  verify : Bool
  sourceBuffer : Nat
  decodersPerFile : Nat
  maxRetainedDecoders : Nat
  threads : Nat
  deriving DecidableEq, Repr

namespace Config

/-- Brings every field into its permitted range. -/
def clamp (c : Config) : Config :=
  let maxRetained := max c.maxRetainedDecoders 1
  { c with
    sourceBuffer := max MIN_SOURCE_BUFFER (min c.sourceBuffer MAX_SOURCE_BUFFER)
    threads := max c.threads 1
    maxRetainedDecoders := maxRetained
    decodersPerFile := max 1 (min c.decodersPerFile maxRetained) }

/-- Recyclable decoder cores the mount keeps around. -/
def maxCores (c : Config) : Nat := c.threads * 2

theorem clamp_sourceBuffer_pos (c : Config) : 0 < c.clamp.sourceBuffer := by
  have : 0 < MIN_SOURCE_BUFFER := by decide
  simp only [clamp]
  omega

end Config

/-! ## The archive reader that rawzip sees -/

/-- `ReaderAt::read_at` with a buffer of `len` bytes. -/
structure ReadAt where
  len : Nat
  offset : Nat

/-- The bytes read, which may be fewer than asked for. -/
abbrev ReadAt.Answer (_ : ReadAt) : Type := Except IoError Bytes

/-- What is fixed when the mount starts. -/
structure Mount where
  /-- The bytes of the archive when it was opened. -/
  archive : Bytes
  /-- Its stamp then. -/
  opened : Stamp
  /-- The path is examined too, because the descriptor can follow it to another file. -/
  named : Bool
  index : Index
  /-- The configuration as given; `ZipFs::new` clamps it. -/
  given : Config
  /-- rawzip's `get_entry` followed by `compressed_data_range`, a program that reads the
  archive through the reader it is given. -/
  getEntry : Nat → Lib.Prog ReadAt.Answer (Except String (Nat × Nat))

def Mount.config (M : Mount) : Config := M.given.clamp

/-! ## Decoders, pools and open files -/

/-- Where an entry's compressed bytes are and how to read them. -/
structure EntryLocation where
  dataStart : Nat
  compressedSize : Nat
  method : Method
  deriving DecidableEq, Repr

/-- Reads one entry's compressed bytes in large positional chunks. -/
structure BufSource where
  start : Nat
  len : Nat
  /-- Bytes of the range that have already left the buffer. -/
  consumed : Nat
  buf : Bytes
  filled : Nat
  pos : Nat

/-- The parts of a decoder that do not depend on which entry it reads. -/
structure CoreParts (δ ζ : Type) where
  codec : Codec δ ζ
  buf : Bytes
  skip : Bytes
  serial : Nat

/-- A decoder together with the offset it has reached. -/
structure PositionedDecoder (δ ζ : Type) where
  /-- The next uncompressed offset this decoder will produce. -/
  pos : Nat
  /-- The codec has reported the end of the stream. -/
  finished : Bool
  /-- Set once the entry has been checked, so it is not checked twice. -/
  verified : Bool
  crc : Option Crc
  codec : Codec δ ζ
  src : BufSource
  skip : Bytes
  serial : Nat
  /-- The codec has failed since it was last reset. -/
  failed : Bool

/-- The decoders belonging to one open file. `id` is the cell that holds the idle ones. -/
structure EntryPool where
  id : Nat
  perHandleCap : Nat
  loc : EntryLocation
  deriving DecidableEq, Repr

/-- Follows a stored entry's checksum while reads arrive in order. -/
structure StoreVerify where
  crc : Crc
  pos : Nat
  disabled : Bool
  deriving DecidableEq, Repr

def StoreVerify.new : StoreVerify := ⟨Crc.new, 0, false⟩

/-- How an open file gets at its bytes. -/
inductive OpenKind where
  | empty
  | store (dataStart compressedSize : Nat) (verify : Option Nat)
  | coded (pool : EntryPool)
  deriving DecidableEq, Repr

/-- The cell of the pool of an open file, if it has one. -/
def OpenKind.pools : OpenKind → List Nat
  | .coded pool => [pool.id]
  | .empty | .store .. => []

/-- One open file. -/
structure OpenFile where
  ino : Nat
  metaIdx : Nat
  size : Nat
  kind : OpenKind
  /-- The location the file was opened with, whatever its kind. -/
  loc : EntryLocation
  deriving DecidableEq, Repr

/-- The result of a completed CRC check. -/
inductive VerifyState where
  | unknown
  | ok
  | bad
  deriving DecidableEq, Repr

/-! ## The idle list -/

section Idle

variable {δ ζ : Type}

/-- `Vec::swap_remove`: the last element takes the place of the one removed. -/
def swapRemove {α : Type} (xs : List α) (i : Nat) : Option (α × List α) :=
  match xs[i]?, xs.getLast? with
  | some x, some last => some (x, (xs.set i last).dropLast)
  | _, _ => none

/-- `max_by_key` on the position, which keeps the last of several maxima. -/
def furthest (xs : List (PositionedDecoder δ ζ × Nat)) : Option Nat :=
  (xs.foldl (fun best x =>
    match best with
    | none => some x
    | some b => if b.1.pos ≤ x.1.pos then some x else some b) none).map (·.2)

/-- The decoder of the idle list that `checkout` wants, if one need not be rewound. -/
def usable (idle : List (PositionedDecoder δ ζ)) (offset : Nat) : Option Nat :=
  match idle.findIdx? fun d => d.pos == offset && !d.finished with
  | some i => some i
  | none => furthest (idle.zipIdx.filter fun x => x.1.pos ≤ offset && !x.1.finished)

/-- What `checkout` does under the lock: the decoder and whether it must be rewound. -/
def pickIdle (idle : List (PositionedDecoder δ ζ)) (offset : Nat) :
    Option (PositionedDecoder δ ζ × Bool) × List (PositionedDecoder δ ζ) :=
  match usable idle offset with
  | some i =>
      match swapRemove idle i with
      | some (d, rest) => (some (d, false), rest)
      | none => (none, idle)
  | none =>
      match (furthest idle.zipIdx).bind (swapRemove idle) with
      | some (d, rest) => (some (d, true), rest)
      | none => (none, idle)

theorem swapRemove_perm {α : Type} {xs rest : List α} {i : Nat} {x : α}
    (h : swapRemove xs i = some (x, rest)) : xs[i]? = some x ∧ xs.Perm (x :: rest) := by
  unfold swapRemove at h
  split at h
  · rename_i y last hy hlast
    obtain ⟨rfl, rfl⟩ := Prod.mk.inj (Option.some.inj h)
    refine ⟨hy, ?_⟩
    obtain ⟨init, rfl⟩ := List.getLast?_eq_some_iff.mp hlast
    by_cases hi : i < init.length
    · -- inside: the last element takes the place of the removed one
      rw [List.getElem?_append_left hi] at hy
      obtain ⟨_, rfl⟩ := List.getElem?_eq_some_iff.mp hy
      rw [List.set_append_left _ _ hi, List.dropLast_concat]
      calc init ++ [last]
          |>.Perm (last :: init) := List.perm_append_singleton last init
        _ |>.Perm (last :: init[i] :: init.eraseIdx i) :=
            (List.getElem_cons_eraseIdx_perm hi).symm.cons last
        _ |>.Perm (init[i] :: last :: init.eraseIdx i) := .swap ..
        _ |>.Perm (init[i] :: init.set i last) := (List.set_perm_cons_eraseIdx hi last).symm.cons _
    · -- the last element is the one removed
      have hlen := (List.getElem?_eq_some_iff.mp hy).1
      obtain rfl : i = init.length := by simp at hlen; omega
      rw [List.getElem?_concat_length] at hy
      obtain rfl := Option.some.inj hy
      rw [List.set_append_right _ _ (Nat.le_refl _), Nat.sub_self, List.set_cons_zero,
        List.dropLast_concat]
      exact List.perm_append_singleton _ init
  · exact absurd h (by simp)

theorem furthest_mem {xs : List (PositionedDecoder δ ζ × Nat)} {i : Nat}
    (h : furthest xs = some i) : ∃ d, (d, i) ∈ xs := by
  -- the best so far is always one of those passed
  have key :
    ∀ (ys : List (PositionedDecoder δ ζ × Nat)) (best : Option (PositionedDecoder δ ζ × Nat))
      (x : PositionedDecoder δ ζ × Nat),
      ys.foldl (fun best x =>
        match best with
        | none => some x
        | some b => if b.1.pos ≤ x.1.pos then some x else some b) best = some x →
      x ∈ ys ∨ best = some x := by
    intro ys
    induction ys with
    | nil => exact fun best x h => .inr h
    | cons y ys ih =>
        intro best x h
        rcases ih _ x h with h | h
        · exact .inl (List.mem_cons_of_mem y h)
        · dsimp only at h
          split at h
          · obtain rfl := Option.some.inj h
            exact .inl List.mem_cons_self
          · split at h
            · obtain rfl := Option.some.inj h
              exact .inl List.mem_cons_self
            · exact .inr h
  unfold furthest at h
  obtain ⟨⟨d, j⟩, hd, rfl⟩ := Option.map_eq_some_iff.mp h
  rcases key xs none (d, j) hd with h | h
  · exact ⟨d, h⟩
  · exact absurd h (by simp)

theorem usable_spec {idle : List (PositionedDecoder δ ζ)} {offset i : Nat}
    (h : usable idle offset = some i) :
    ∃ d, idle[i]? = some d ∧ d.pos ≤ offset ∧ d.finished = false := by
  unfold usable at h
  split at h
  · rename_i j hj
    obtain rfl := Option.some.inj h
    obtain ⟨hlt, hp, -⟩ := List.findIdx?_eq_some_iff_getElem.mp hj
    simp only [Bool.and_eq_true, beq_iff_eq, Bool.not_eq_true'] at hp
    exact ⟨idle[j], List.getElem?_eq_getElem hlt, by omega, hp.2⟩
  · obtain ⟨d, hd⟩ := furthest_mem h
    obtain ⟨hmem, hp⟩ := List.mem_filter.mp hd
    simp only [Bool.and_eq_true, decide_eq_true_eq, Bool.not_eq_true'] at hp
    exact ⟨d, List.mk_mem_zipIdx_iff_getElem?.mp hmem, hp⟩

/-- What `checkout` takes leaves the list, and need not be rewound unless it says so. -/
theorem pickIdle_spec {idle rest : List (PositionedDecoder δ ζ)} {offset : Nat}
    {d : PositionedDecoder δ ζ} {rewind : Bool}
    (h : pickIdle idle offset = (some (d, rewind), rest)) :
    idle.Perm (d :: rest) ∧ (rewind = false → d.pos ≤ offset ∧ d.finished = false) := by
  unfold pickIdle at h
  split at h
  · rename_i i hi
    obtain ⟨d', hd', hpos⟩ := usable_spec hi
    split at h
    · rename_i d'' rest' hs
      obtain ⟨hget, hperm⟩ := swapRemove_perm hs
      obtain ⟨hsome, rfl⟩ := Prod.mk.inj h
      obtain ⟨rfl, rfl⟩ := Prod.mk.inj (Option.some.inj hsome)
      obtain rfl := Option.some.inj (hd'.symm.trans hget)
      exact ⟨hperm, fun _ => hpos⟩
    · exact absurd h (by simp)
  · split at h
    · rename_i d'' rest' hs
      obtain ⟨i, -, hs⟩ := Option.bind_eq_some_iff.mp hs
      obtain ⟨hsome, rfl⟩ := Prod.mk.inj h
      obtain ⟨rfl, rfl⟩ := Prod.mk.inj (Option.some.inj hsome)
      exact ⟨(swapRemove_perm hs).2, fun hfalse => absurd hfalse (by simp)⟩
    · exact absurd h (by simp)

end Idle

/-! ## The shared state -/

/-- What is recorded while a call runs. -/
inductive Note where
  /-- A read of the guarded file returned these bytes for this offset. -/
  | guarded (offset : Nat) (data : Bytes)
  /-- A source handed these bytes, of this offset of the archive, to its codec. -/
  | fed (offset : Nat) (data : Bytes)
  /-- `step` is called on a codec, and whether that codec has failed since its last `reinit`. -/
  | stepping (failed : Bool)
  /-- `read_at` for the entry with this index, whose data starts there, delivered `n` bytes into
  a buffer of `len`. -/
  | delivered (metaIdx dataStart offset len n : Nat)
  /-- `read_at` found its decoder past the requested offset. -/
  | pastOffset
  /-- `verify` found its decoder, of the entry with this index, verified already. -/
  | verifiedShortcut (metaIdx : Nat)
  /-- The tracker took in a block, and whether the entry may still match its checksum. -/
  | observed (id offset len : Nat) (fine : Bool)
  /-- The call found the open file behind its handle. -/
  | handleFound
  /-- The call found no cached target of its symlink. -/
  | targetMissing
  /-- The stamps were compared. -/
  | compared (found : Except IoError (Option Change))
  /-- An error is about to be diagnosed. -/
  | diagnosing

/-- The cell behind the lock of a pool. -/
structure PoolCell (τ δ ζ : Type) where
  idle : List (PositionedDecoder δ ζ)
  /-- The thread that holds the lock over several steps. -/
  lock : Option τ
  loc : EntryLocation
  perHandleCap : Nat
  /-- The entry the pool was made for. -/
  metaIdx : Nat
  /-- The thread that keeps the pool to itself, if it is not for an open file. -/
  keeper : Option τ

/-- An open file, counted. -/
structure FileCell where
  file : OpenFile
  refs : Nat
  /-- Still in the handle table. -/
  listed : Bool

structure StoreCell (τ : Type) where
  state : StoreVerify
  lock : Option τ
  loc : EntryLocation
  /-- The entry the tracker was made for. -/
  metaIdx : Nat
  /-- The offset and the length of each block observed, in the order of the lock. -/
  observed : List (Nat × Nat)

structure CoreStore (δ ζ : Type) where
  codecs : Method → List (Codec δ ζ)
  buffers : List Bytes
  skips : List Bytes

/-- What a thread holds between two steps. -/
structure Hand where
  /-- Slots of the budget that it has claimed or not released yet. -/
  slots : Nat
  /-- The serials of the decoders that it has taken. -/
  decoders : List Nat
  /-- The handles whose open files it has a reference to. -/
  files : List Nat
  /-- The pools that are its own: not behind a handle yet, or no longer. -/
  pools : List Nat

structure World (τ δ ζ : Type) where
  -- the archive file
  content : Bytes
  stamp : Stamp
  /-- The stamp of what the path names, if it names anything. -/
  path : Option Stamp
  -- the guard
  stale : Bool
  unsure : Bool
  -- the cells of the index
  dataStart : Nat → Nat
  verifyState : Nat → VerifyState
  symlinks : Nat → Option Bytes
  -- the handle table
  /-- How many handles have been drawn, and one more; `wrappingMount` has the counter wrap. -/
  next : Nat
  files : Nat → Option FileCell
  stores : List (StoreCell τ)
  -- the pools and the budget
  pools : List (PoolCell τ δ ζ)
  retained : Nat
  cores : CoreStore δ ζ
  -- thread-local
  scratch : τ → Bytes
  -- what is only recorded
  seen : τ → List Note
  hands : τ → Hand
  minted : Nat → Option τ
  serials : Nat
  retired : List Nat
  /-- Some examination of the stamps was answered, and differed from the mount. -/
  differed : Bool

/-! ## The operations -/

inductive Op (δ ζ : Type) where
  /-- One byte of the archive, or nothing past its end. -/
  | cell (i : Nat)
  /-- Whether `pread` stops before the end of its buffer. -/
  | short
  | fstat
  | statNamed
  | loadStale
  | swapStale
  | loadUnsure
  | swapUnsure (b : Bool)
  | loadDataStart (i : Nat)
  | storeDataStart (i start : Nat)
  | loadVerify (i : Nat)
  | storeVerify (i : Nat) (state : VerifyState)
  | getSymlink (slot : Nat)
  | setSymlink (slot : Nat) (target : Bytes)
  | nextHandle
  | insertHandle (fh : Nat) (file : OpenFile)
  | getHandle (fh : Nat)
  | removeHandle (fh : Nat)
  /-- Drops one reference to an open file, and says whether it was the last. -/
  | dropFile (fh : Nat)
  | newStore (loc : EntryLocation) (metaIdx : Nat)
  | lockStore (id : Nat)
  /-- Records a block, and does nothing else. -/
  | record (id offset len : Nat)
  | unlockStore (id : Nat) (state : StoreVerify)
  /-- A pool that is `kept` is not for an open file. -/
  | newPool (loc : EntryLocation) (cap metaIdx : Nat) (kept : Bool)
  | pick (id offset : Nat)
  /-- Locks the idle list and looks at its length. -/
  | lockIdle (id : Nat)
  | pushIdle (id : Nat) (d : PositionedDecoder δ ζ)
  | unlockIdle (id : Nat)
  | takeIdle (id : Nat)
  | tryRetain
  | releaseRetain
  | takeCore (m : Method)
  | recycleCore (parts : CoreParts δ ζ)
  | getScratch
  | putScratch (buf : Bytes)
  | note (n : Note)
  /-- Never answered: a panic, or a loop without an end. -/
  | halt

def Res {δ ζ : Type} : Op δ ζ → Type
  | .cell _ => Except IoError (Option UInt8)
  | .fstat | .statNamed => Except IoError Stamp
  | .short | .loadStale | .swapStale | .loadUnsure | .swapUnsure _ | .tryRetain => Bool
  | .loadDataStart _ | .nextHandle | .newStore .. | .newPool .. | .lockIdle _ => Nat
  | .loadVerify _ => VerifyState
  | .getSymlink _ | .setSymlink .. => Option Bytes
  | .getHandle _ | .removeHandle _ => Option OpenFile
  | .dropFile _ => Bool
  | .lockStore _ => StoreVerify
  | .pick .. => Option (PositionedDecoder δ ζ × Bool)
  | .takeIdle _ => List (PositionedDecoder δ ζ)
  | .takeCore _ => CoreParts δ ζ
  | .getScratch => Bytes
  | .storeDataStart .. | .storeVerify .. | .insertHandle .. | .record .. | .unlockStore ..
  | .pushIdle ..
  | .unlockIdle _ | .releaseRetain | .recycleCore _ | .putScratch _ | .note _ => Unit
  | .halt => Empty

/-- What a thread runs. -/
abbrev Act (δ ζ : Type) : Type → Type := Lib.Prog (@Res δ ζ)

/-! Each operation as a program, with the type of its answer. -/

namespace Act

variable {δ ζ : Type}

def cell (i : Nat) : Act δ ζ (Except IoError (Option UInt8)) := .op (.cell i) .ret
def short : Act δ ζ Bool := .op .short .ret
def fstat : Act δ ζ (Except IoError Stamp) := .op .fstat .ret
def statNamed : Act δ ζ (Except IoError Stamp) := .op .statNamed .ret
def loadStale : Act δ ζ Bool := .op .loadStale .ret
def swapStale : Act δ ζ Bool := .op .swapStale .ret
def loadUnsure : Act δ ζ Bool := .op .loadUnsure .ret
def swapUnsure (b : Bool) : Act δ ζ Bool := .op (.swapUnsure b) .ret
def loadDataStart (i : Nat) : Act δ ζ Nat := .op (.loadDataStart i) .ret
def storeDataStart (i start : Nat) : Act δ ζ Unit := .op (.storeDataStart i start) .ret
def loadVerify (i : Nat) : Act δ ζ VerifyState := .op (.loadVerify i) .ret
def storeVerify (i : Nat) (state : VerifyState) : Act δ ζ Unit := .op (.storeVerify i state) .ret
def getSymlink (slot : Nat) : Act δ ζ (Option Bytes) := .op (.getSymlink slot) .ret
def setSymlink (slot : Nat) (target : Bytes) : Act δ ζ (Option Bytes) :=
  .op (.setSymlink slot target) .ret
def nextHandle : Act δ ζ Nat := .op .nextHandle .ret
def insertHandle (fh : Nat) (file : OpenFile) : Act δ ζ Unit := .op (.insertHandle fh file) .ret
def getHandle (fh : Nat) : Act δ ζ (Option OpenFile) := .op (.getHandle fh) .ret
def removeHandle (fh : Nat) : Act δ ζ (Option OpenFile) := .op (.removeHandle fh) .ret
def dropFile (fh : Nat) : Act δ ζ Bool := .op (.dropFile fh) .ret
def newStore (loc : EntryLocation) (metaIdx : Nat) : Act δ ζ Nat :=
  .op (.newStore loc metaIdx) .ret
def lockStore (id : Nat) : Act δ ζ StoreVerify := .op (.lockStore id) .ret
def record (id offset len : Nat) : Act δ ζ Unit := .op (.record id offset len) .ret
def unlockStore (id : Nat) (state : StoreVerify) : Act δ ζ Unit := .op (.unlockStore id state) .ret
def newPool (loc : EntryLocation) (cap metaIdx : Nat) (kept : Bool) : Act δ ζ Nat :=
  .op (.newPool loc cap metaIdx kept) .ret
def pick (id offset : Nat) : Act δ ζ (Option (PositionedDecoder δ ζ × Bool)) :=
  .op (.pick id offset) .ret
def lockIdle (id : Nat) : Act δ ζ Nat := .op (.lockIdle id) .ret
def pushIdle (id : Nat) (d : PositionedDecoder δ ζ) : Act δ ζ Unit := .op (.pushIdle id d) .ret
def unlockIdle (id : Nat) : Act δ ζ Unit := .op (.unlockIdle id) .ret
def takeIdle (id : Nat) : Act δ ζ (List (PositionedDecoder δ ζ)) := .op (.takeIdle id) .ret
def tryRetain : Act δ ζ Bool := .op .tryRetain .ret
def releaseRetain : Act δ ζ Unit := .op .releaseRetain .ret
def takeCore (m : Method) : Act δ ζ (CoreParts δ ζ) := .op (.takeCore m) .ret
def recycleCore (parts : CoreParts δ ζ) : Act δ ζ Unit := .op (.recycleCore parts) .ret
def getScratch : Act δ ζ Bytes := .op .getScratch .ret
def putScratch (buf : Bytes) : Act δ ζ Unit := .op (.putScratch buf) .ret
def note (n : Note) : Act δ ζ Unit := .op (.note n) .ret

def halt {α : Type} : Act δ ζ α := .op .halt fun r : Empty => nomatch r

end Act

/-! ## What the operations do -/

namespace World

variable {τ δ ζ : Type}

def setPool (w : World τ δ ζ) (id : Nat) (cell : PoolCell τ δ ζ) : World τ δ ζ :=
  { w with pools := w.pools.set id cell }

def setFile (w : World τ δ ζ) (fh : Nat) (cell : FileCell) : World τ δ ζ :=
  { w with files := Function.update w.files fh (some cell) }

def setStore (w : World τ δ ζ) (id : Nat) (cell : StoreCell τ) : World τ δ ζ :=
  { w with stores := w.stores.set id cell }

def setHand [DecidableEq τ] (w : World τ δ ζ) (t : τ) (hand : Hand) : World τ δ ζ :=
  { w with hands := Function.update w.hands t hand }

def holdFile [DecidableEq τ] (w : World τ δ ζ) (t : τ) (fh : Nat) : World τ δ ζ :=
  w.setHand t { w.hands t with files := fh :: (w.hands t).files }

theorem setPool_self {w : World τ δ ζ} {id : Nat} {cell : PoolCell τ δ ζ}
    (h : w.pools[id]? = some cell) (cell' : PoolCell τ δ ζ) :
    (w.setPool id cell').pools[id]? = some cell' :=
  List.getElem?_set_self (List.getElem?_eq_some_iff.mp h).1

theorem setPool_ne (w : World τ δ ζ) {id id' : Nat} (h : id' ≠ id) (cell : PoolCell τ δ ζ) :
    (w.setPool id cell).pools[id']? = w.pools[id']? :=
  List.getElem?_set_ne h.symm

@[simp] theorem setFile_self (w : World τ δ ζ) (fh : Nat) (cell : FileCell) :
    (w.setFile fh cell).files fh = some cell :=
  Function.update_self ..

theorem setFile_ne (w : World τ δ ζ) {fh fh' : Nat} (h : fh' ≠ fh) (cell : FileCell) :
    (w.setFile fh cell).files fh' = w.files fh' :=
  Function.update_of_ne h ..

end World

section Det

variable {τ δ ζ : Type} [DecidableEq τ] (K : Codecs δ ζ) (M : Mount)

/-- `Vec::pop` with a default. -/
def popOr {α : Type} (xs : List α) (a : α) : α × List α :=
  match xs.getLast? with
  | some x => (x, xs.dropLast)
  | none => (a, xs)

/-- `Vec::push` while there is room. -/
def pushUnder {α : Type} (cap : Nat) (xs : List α) (a : α) : List α :=
  if xs.length < cap then xs ++ [a] else xs

theorem popOr_spec {α : Type} {P : α → Prop} {xs : List α} {a : α} (hxs : ∀ x ∈ xs, P x)
    (ha : P a) : P (popOr xs a).1 ∧ ∀ x ∈ (popOr xs a).2, P x := by
  unfold popOr
  split
  · rename_i x hx
    exact ⟨hxs x (List.mem_of_getLast? hx), fun y hy => hxs y (List.dropLast_subset xs hy)⟩
  · exact ⟨ha, hxs⟩

theorem pushUnder_spec {α : Type} {P : α → Prop} {cap : Nat} {xs : List α} {a : α}
    (hxs : ∀ x ∈ xs, P x) (ha : P a) : ∀ x ∈ pushUnder cap xs a, P x := by
  unfold pushUnder
  split
  · intro x hx
    rcases List.mem_append.mp hx with hx | hx
    · exact hxs x hx
    · rw [List.mem_singleton.mp hx]
      exact ha
  · exact hxs

theorem popOr_length {α : Type} (xs : List α) (a : α) : (popOr xs a).2.length ≤ xs.length := by
  unfold popOr
  split
  · rw [List.length_dropLast]
    exact Nat.sub_le ..
  · exact Nat.le_refl _

theorem pushUnder_length {α : Type} {cap : Nat} {xs : List α} (h : xs.length ≤ cap) (a : α) :
    (pushUnder cap xs a).length ≤ cap := by
  unfold pushUnder
  split
  · rw [List.length_append, List.length_singleton]
    omega
  · exact h

/-- Takes the expensive parts of a decoder, recycling them when possible. -/
def takeCore (m : Method) (w : World τ δ ζ) : CoreParts δ ζ × World τ δ ζ :=
  let (codec, codecs) := popOr (w.cores.codecs m) (Codec.new K m)
  let (buf, buffers) := popOr w.cores.buffers (List.replicate M.config.sourceBuffer 0)
  let (skip, skips) := popOr w.cores.skips (List.replicate SKIP_BUFFER 0)
  (⟨codec, buf, skip, w.serials⟩,
    { w with
      cores := ⟨Function.update w.cores.codecs m codecs, buffers, skips⟩
      serials := w.serials + 1 })

/-- Puts the expensive parts back, or drops them if enough are already kept. -/
def recycleCore (parts : CoreParts δ ζ) (w : World τ δ ζ) : World τ δ ζ :=
  let cap := M.config.maxCores
  let slot := parts.codec.method
  { w with
    cores :=
      ⟨Function.update w.cores.codecs slot (pushUnder cap (w.cores.codecs slot) parts.codec),
        pushUnder cap w.cores.buffers parts.buf, pushUnder cap w.cores.skips parts.skip⟩
    retired := parts.serial :: w.retired }

/-- The answer and the effect of an operation, or `none` while it has to wait. -/
def det (t : τ) : (o : Op δ ζ) → World τ δ ζ → Option (Res o × World τ δ ζ)
  | .cell i, w => some (.ok w.content[i]?, w)
  | .short, w => some (false, w)
  | .fstat, w =>
      some (.ok w.stamp, { w with differed := w.differed || !w.stamp.unchanged M.opened })
  | .statNamed, w =>
      match w.path with
      | none => some (.error (.os ENOENT), { w with differed := true })
      | some st =>
          some (.ok st,
            { w with
              differed :=
                w.differed || !st.sameFile M.opened || !st.unchanged M.opened })
  | .loadStale, w => some (w.stale, w)
  | .swapStale, w => some (w.stale, { w with stale := true })
  | .loadUnsure, w => some (w.unsure, w)
  | .swapUnsure b, w => some (w.unsure, { w with unsure := b })
  | .loadDataStart i, w => some (w.dataStart i, w)
  | .storeDataStart i start, w =>
      some ((), { w with dataStart := Function.update w.dataStart i start })
  | .loadVerify i, w => some (w.verifyState i, w)
  | .storeVerify i state, w =>
      some ((), { w with verifyState := Function.update w.verifyState i state })
  | .getSymlink slot, w =>
      some (if slot < M.index.symlinks then w.symlinks slot else none, w)
  | .setSymlink slot target, w =>
      if slot < M.index.symlinks then
        match w.symlinks slot with
        | some old => some (some old, w)
        | none =>
            some (some target, { w with symlinks := Function.update w.symlinks slot (some target) })
      else some (none, w)
  | .nextHandle, w =>
      some (w.next,
        { w with next := w.next + 1, minted := Function.update w.minted w.next (some t) })
  | .insertHandle fh file, w =>
      let hand := w.hands t
      some ((), (w.setFile fh ⟨file, 1, true⟩).setHand t
        { hand with pools := hand.pools.diff file.kind.pools })
  | .getHandle fh, w =>
      match w.files fh with
      | some cell =>
          if cell.listed then
            some (some cell.file, (w.setFile fh { cell with refs := cell.refs + 1 }).holdFile t fh)
          else some (none, w)
      | none => some (none, w)
  | .removeHandle fh, w =>
      match w.files fh with
      | some cell =>
          if cell.listed then
            some (some cell.file, (w.setFile fh { cell with listed := false }).holdFile t fh)
          else some (none, w)
      | none => some (none, w)
  | .dropFile fh, w =>
      match w.files fh with
      | some cell =>
          let hand := w.hands t
          let own := if cell.refs = 1 then cell.file.kind.pools else []
          some (cell.refs == 1, (w.setFile fh { cell with refs := cell.refs - 1 }).setHand t
            { hand with files := hand.files.erase fh, pools := own ++ hand.pools })
      | none => none
  | .newStore loc metaIdx, w =>
      some (w.stores.length,
        { w with stores := w.stores ++ [⟨StoreVerify.new, none, loc, metaIdx, []⟩] })
  | .lockStore id, w =>
      match w.stores[id]? with
      | some cell =>
          if cell.lock.isSome then none
          else some (cell.state, w.setStore id { cell with lock := some t })
      | none => none
  | .record id offset len, w =>
      match w.stores[id]? with
      | some cell =>
          some ((), w.setStore id { cell with observed := cell.observed ++ [(offset, len)] })
      | none => none
  | .unlockStore id state, w =>
      match w.stores[id]? with
      | some cell => some ((), w.setStore id { cell with state := state, lock := none })
      | none => none
  | .newPool loc cap metaIdx kept, w =>
      let hand := w.hands t
      let cell := ⟨[], none, loc, cap, metaIdx, if kept then some t else none⟩
      some (w.pools.length,
        ({ w with pools := w.pools ++ [cell] } : World τ δ ζ).setHand t
          { hand with pools := w.pools.length :: hand.pools })
  | .pick id offset, w =>
      match w.pools[id]? with
      | some cell =>
          if cell.lock.isSome then none
          else
            match pickIdle cell.idle offset with
            | (some (d, rewind), rest) =>
                let hand := w.hands t
                some (some (d, rewind),
                  (w.setPool id { cell with idle := rest }).setHand t
                    { hand with slots := hand.slots + 1, decoders := d.serial :: hand.decoders })
            | (none, _) => some (none, w)
      | none => none
  | .lockIdle id, w =>
      match w.pools[id]? with
      | some cell =>
          if cell.lock.isSome then none
          else some (cell.idle.length, w.setPool id { cell with lock := some t })
      | none => none
  | .pushIdle id d, w =>
      match w.pools[id]? with
      | some cell =>
          let hand := w.hands t
          some ((), (w.setPool id { cell with idle := cell.idle ++ [d] }).setHand t
            { hand with slots := hand.slots - 1, decoders := hand.decoders.erase d.serial })
      | none => none
  | .unlockIdle id, w =>
      match w.pools[id]? with
      | some cell => some ((), w.setPool id { cell with lock := none })
      | none => none
  | .takeIdle id, w =>
      match w.pools[id]? with
      | some cell =>
          if cell.lock.isSome then none
          else
            let hand := w.hands t
            some (cell.idle, (w.setPool id { cell with idle := [] }).setHand t
              { hand with
                slots := hand.slots + cell.idle.length
                decoders := cell.idle.map (·.serial) ++ hand.decoders
                pools := hand.pools.erase id })
      | none => none
  | .tryRetain, w =>
      if w.retained < M.config.maxRetainedDecoders then
        let hand := w.hands t
        some (true, { w with retained := w.retained + 1 }.setHand t
          { hand with slots := hand.slots + 1 })
      else some (false, w)
  | .releaseRetain, w =>
      -- `fetch_sub` wraps around at zero
      let retained := if w.retained = 0 then 2 ^ 64 - 1 else w.retained - 1
      let hand := w.hands t
      some ((), { w with retained := retained }.setHand t { hand with slots := hand.slots - 1 })
  | .takeCore m, w =>
      let (parts, w) := takeCore K M m w
      let hand := w.hands t
      some (parts, w.setHand t { hand with decoders := parts.serial :: hand.decoders })
  | .recycleCore parts, w =>
      let hand := w.hands t
      some ((), (recycleCore M parts w).setHand t
        { hand with decoders := hand.decoders.erase parts.serial })
  | .getScratch, w => some (w.scratch t, w)
  | .putScratch buf, w => some ((), { w with scratch := Function.update w.scratch t buf })
  | .note n, w => some ((), { w with seen := Function.update w.seen t (w.seen t ++ [n]) })
  | .halt, _ => none

/-- The other answers an operation can get. They change nothing. -/
def Fails : (o : Op δ ζ) → Res o → Prop
  | .cell _, r => ∃ e, r = .error e
  | .short, r => r = true
  | .fstat, r => ∃ e, r = .error e
  | .statNamed, r => ∃ e : IoError, e.kind ≠ .notFound ∧ r = .error e
  | _, _ => False

/-- One atomic step of thread `t`. -/
def exec (t : τ) (o : Op δ ζ) (w : World τ δ ζ) (r : Res o) (w' : World τ δ ζ) : Prop :=
  det K M t o w = some (r, w') ∨ Fails o r ∧ w' = w

/-- The mount before its first call. -/
def World.start (path : Option Stamp) : World τ δ ζ where
  content := M.archive
  stamp := M.opened
  path := path
  stale := false
  unsure := false
  dataStart := fun _ => U64_MAX
  verifyState := fun _ => .unknown
  symlinks := fun _ => none
  next := 1
  files := fun _ => none
  stores := []
  pools := []
  retained := 0
  cores := ⟨fun _ => [], [], []⟩
  scratch := fun _ => []
  seen := fun _ => []
  hands := fun _ => ⟨0, [], [], []⟩
  minted := fun _ => none
  serials := 0
  retired := []
  differed := false

end Det

end ZipFs
