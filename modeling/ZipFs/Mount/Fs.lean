import ZipFs.Mount.Decode

/-!
# The filesystem

The operations of `src/fs.rs` that reach the archive: `open`, `read`, `readlink`
and `release`, with the open files of `src/handle.rs`. The operations on the tree
alone need no state and are not here.

An open file is reference counted. A read holds a reference for as long as it runs,
and whoever drops the last one drops the file's pool.
-/

namespace ZipFs

variable {δ ζ : Type} (K : Codecs δ ζ) (M : Mount)

/-! ## Open files -/

/--
Feeds in a block that was just read. Returns the tracker, whether the entry is not
known to mismatch, and the verdict if this block completed it.
-/
def StoreVerify.observe (v : StoreVerify) (offset : Nat) (data : Bytes) (m : EntryMeta) :
    StoreVerify × Bool × Option VerifyState :=
  if v.disabled ∨ offset ≠ v.pos then ({ v with disabled := true }, true, none)
  else
    let v := { v with crc := v.crc.update data, pos := v.pos + data.length }
    if v.pos < m.uncompressedSize then (v, true, none)
    else
      let same := v.crc.finalize == m.crc32
      ({ v with disabled := true }, same, some (if same then .ok else .bad))

namespace OpenFile

/-- A file for the entry `m` with index `i`. -/
def new (ino i : Nat) (m : EntryMeta) (loc : EntryLocation) : Act δ ζ OpenFile := do
  let size := m.uncompressedSize
  if size = 0 then pure ⟨ino, i, size, .empty, loc⟩
  else if loc.method = .store then
    if M.config.verify then
      let id ← Act.newStore loc i
      pure ⟨ino, i, size, .store loc.dataStart loc.compressedSize (some id), loc⟩
    else pure ⟨ino, i, size, .store loc.dataStart loc.compressedSize none, loc⟩
  else
    let pool ← EntryPool.new loc M.config.decodersPerFile i false
    pure ⟨ino, i, size, .coded pool, loc⟩

/-- Records a block of a stored entry against its checksum, in the tracker `id`. -/
def observeLocked (id offset : Nat) (data : Bytes) (i : Nat) (m : EntryMeta) : Act δ ζ Bool := do
  let v ← Act.lockStore id
  let (v, fine, verdict) := v.observe offset data m
  Act.record id offset data.length
  Act.note (.observed id offset data.length fine)
  match verdict with
  | some state =>
      Act.storeVerify i state
      Act.unlockStore id v
      pure fine
  | none =>
      Act.unlockStore id v
      pure fine

/-- Records a block of a stored entry. Returns false once the entry is known not to match. -/
def observeStore (verify : Option Nat) (offset : Nat) (data : Bytes) (i : Nat) (m : EntryMeta) :
    Act δ ζ Bool :=
  match verify with
  | none => pure true
  | some id => observeLocked id offset data i m

/-- Drops a reference to the file behind `fh`, and with the last one its pool. -/
def release (fh : Nat) (file : OpenFile) : Act δ ζ Unit := do
  if ← Act.dropFile fh then
    match file.kind with
    | .coded pool => pool.drop
    | _ => pure ()
  else pure ()

end OpenFile

/-- `HandleTable::insert`. -/
def HandleTable.insert (file : OpenFile) : Act δ ζ Nat := do
  let fh ← Act.nextHandle
  Act.insertHandle fh file
  pure fh

/-! ## Helpers of the filesystem -/

namespace Fs

/-- Checks that an entry can be read at all. -/
def readable (m : EntryMeta) : Except Nat Method :=
  if m.encrypted then .error EACCES
  else
    match m.method with
    | none => .error EOPNOTSUPP
    | some method => .ok method

/-- The error to report when an operation on the archive fails. -/
def diagnose (errno : Nat) : Act δ ζ Nat := do
  if errno = EIO then
    Act.note .diagnosing
    let found ← Archive.check M
    pure (if found = .stale then ESTALE else errno)
  else pure errno

/-- Where the compressed bytes of the entry with index `i` live. -/
def locate (i : Nat) (m : EntryMeta) : Act δ ζ (Except Nat EntryLocation) := do
  if ← GuardedFile.isStale then pure (.error ESTALE)
  else
    match readable m with
    | .error errno => pure (.error errno)
    | .ok method =>
        if method = .store ∧ m.compressedSize ≠ m.uncompressedSize then pure (.error EIO)
        else
          match ← Archive.dataStart M i m with
          | .error e => pure (.error e.errno)
          | .ok start => pure (.ok ⟨start, m.compressedSize, method⟩)

/-- `u64::checked_add`. -/
def checkedAdd (a b : Nat) : Option Nat := if a + b < 2 ^ 64 then some (a + b) else none

/-- Reads a part of a stored entry into the buffer. -/
def readDirect (loc : EntryLocation) (offset : Nat) (buf : Bytes) :
    Act δ ζ (Bytes × Except IoError Unit) :=
  match checkedAdd offset buf.length with
  | none => pure (buf, .error (.custom .invalidInput "read offset overflow"))
  | some stop =>
      if loc.compressedSize < stop then
        pure (buf, .error (.custom .invalidInput "read is outside the entry"))
      else
        match checkedAdd loc.dataStart offset with
        | none => pure (buf, .error (.custom .invalidInput "archive offset overflow"))
        | some absolute =>
            match checkedAdd absolute buf.length with
            | none => pure (buf, .error (.custom .invalidInput "archive read overflow"))
            | some _ => Archive.readAt M buf absolute

def verifyStored (i : Nat) (m : EntryMeta) (data : Bytes) : Act δ ζ (Except Nat Unit) :=
  if M.config.verify then
    if crc32 data = m.crc32 then do
      Act.storeVerify i .ok
      pure (.ok ())
    else do
      Act.storeVerify i .bad
      pure (.error EIO)
  else pure (.ok ())

/-- The errno of a failed decoder read. -/
def errnoOf (e : IoError) : Nat := e.rawOsError.getD EIO

/-- Reads from offset zero with a decoder of a pool of its own, both dropped at the end. -/
def readOnce (loc : EntryLocation) (out : Bytes) (i : Nat) (m : EntryMeta) :
    Act δ ζ (Bytes × Except IoError Nat) := do
  let pool ← EntryPool.new loc 1 i true
  let d ← pool.checkout K M 0
  let (d, out, r) ← d.readAt K M 0 out i m
  pool.giveBack d
  pool.drop
  pure (out, r)

/-- Decompresses a whole entry, refusing anything over `limit`. -/
def readAll (i : Nat) (m : EntryMeta) (limit : Nat) : Act δ ζ (Except Nat Bytes) := do
  if (← Act.loadVerify i) = .bad then pure (.error EIO)
  else
    match ← locate M i m with
    | .error errno => pure (.error errno)
    | .ok loc =>
        let size := m.uncompressedSize
        if limit < size then pure (.error EIO)
        else
          let out := List.replicate size 0
          if size = 0 then
            if loc.method = .store then
              let checked ← verifyStored M i m out
              pure (checked.map fun _ => out)
            else
              let (out, r) ← readOnce K M loc out i m
              match r with
              | .error e => pure (.error (errnoOf e))
              | .ok _ => pure (.ok out)
          else if loc.method = .store then
            let (out, r) ← readDirect M loc 0 out
            match r with
            | .error _ => pure (.error EIO)
            | .ok () =>
                let checked ← verifyStored M i m out
                pure (checked.map fun _ => out)
          else
            let (out, r) ← readOnce K M loc out i m
            match r with
            | .error e => pure (.error (errnoOf e))
            | .ok n => if n ≠ size then pure (.error EIO) else pure (.ok out)

end Fs

/-! ## The calls -/

/-- The access mode of an `open`. -/
inductive AccMode where
  | rdonly
  | wronly
  | rdwr
  deriving DecidableEq, Repr

inductive Reply where
  | data (bytes : Bytes)
  | opened (fh : Nat)
  | error (errno : Nat)
  | ok
  /-- What a read of the guarded file returned. -/
  | bytes (r : Except IoError Bytes)
  deriving DecidableEq

namespace Fs

def readlink (ino : Nat) : Act δ ζ Reply := do
  match M.index.node ino with
  | none => pure (.error ENOENT)
  | some node =>
      if node.kind ≠ .symlink then pure (.error EINVAL)
      else
        match M.index.metaOf node with
        | none => pure (.error EIO)
        | some m =>
            match ← Act.getSymlink m.symlinkSlot with
            | some target => pure (.data target)
            | none =>
                Act.note .targetMissing
                match ← readAll K M node.metaIdx m MAX_SYMLINK with
                | .ok target =>
                    match ← Act.setSymlink m.symlinkSlot target with
                    | some target => pure (.data target)
                    | none => pure (.error EIO)
                | .error e =>
                    let errno ← diagnose M e
                    pure (.error errno)

def openFile (ino : Nat) (mode : AccMode) : Act δ ζ Reply := do
  match M.index.node ino with
  | none => pure (.error ENOENT)
  | some node =>
      if node.kind = .dir then pure (.error EISDIR)
      else if mode ≠ .rdonly then pure (.error EROFS)
      else
        match M.index.metaOf node with
        | none => pure (.error EIO)
        | some m =>
            match ← locate M node.metaIdx m with
            | .error e =>
                let errno ← diagnose M e
                pure (.error errno)
            | .ok loc =>
                let file ← OpenFile.new M ino node.metaIdx m loc
                let fh ← HandleTable.insert file
                pure (.opened fh)

/-- What `read` does with the buffer it was lent: the buffer and how many bytes, or an errno. -/
def readInto (file : OpenFile) (m : EntryMeta) (offset : Nat) (buf : Bytes) :
    Act δ ζ (Bytes × Except Nat Nat) := do
  match file.kind with
  | .empty => pure (buf, .ok 0)
  | .store dataStart compressedSize verify =>
      let (buf, r) ← readDirect M ⟨dataStart, compressedSize, .store⟩ offset buf
      match r with
      | .error e => pure (buf, .error (errnoOf e))
      | .ok () =>
          if ← OpenFile.observeStore verify offset buf file.metaIdx m then
            pure (buf, .ok buf.length)
          else pure (buf, .error EIO)
  | .coded pool =>
      let d ← pool.checkout K M offset
      let (d, buf, r) ← d.readAt K M offset buf file.metaIdx m
      pool.giveBack d
      pure (buf, r.mapError errnoOf)

/-- Lends the thread's buffer, at least `len` bytes long, and takes it back. -/
def withScratch {α : Type} (len : Nat) (f : Bytes → Act δ ζ (Bytes × α)) :
    Act δ ζ (Bytes × α) := do
  let scratch ← Act.getScratch
  let scratch := scratch ++ List.replicate (len - scratch.length) 0
  let (buf, a) ← f (scratch.take len)
  Act.putScratch (buf ++ scratch.drop len)
  pure (buf, a)

/-- `read` once it has found the open file. -/
def readFile (file : OpenFile) (offset size : Nat) : Act δ ζ Reply := do
  if ← GuardedFile.isStale then pure (.error ESTALE)
  else
    match M.index.metas[file.metaIdx]? with
    | none => Act.halt
    | some m =>
        if (← Act.loadVerify file.metaIdx) = .bad then
          let errno ← diagnose M EIO
          pure (.error errno)
        else
          let want := min size (file.size - offset)
          if want = 0 then pure (.data [])
          else
            let (buf, r) ← withScratch want fun buf => readInto K M file m offset buf
            match r with
            | .ok n => pure (.data (buf.take n))
            | .error e =>
                let errno ← diagnose M e
                pure (.error errno)

def read (fh offset size : Nat) : Act δ ζ Reply := do
  match ← Act.getHandle fh with
  | none => pure (.error EBADF)
  | some file =>
      Act.note .handleFound
      let reply ← readFile K M file offset size
      file.release fh
      pure reply

def release (fh : Nat) : Act δ ζ Reply := do
  match ← Act.removeHandle fh with
  | none => pure .ok
  | some file =>
      file.release fh
      pure .ok

end Fs

/-- What a thread can be asked to do. The last two are reads of the guarded file by itself. -/
inductive Call where
  | openFile (ino : Nat) (mode : AccMode)
  | read (fh offset size : Nat)
  | readlink (ino : Nat)
  | release (fh : Nat)
  | readAt (len offset : Nat)
  | readExactAt (buf : Bytes) (offset : Nat)

def Call.prog : Call → Act δ ζ Reply
  | .openFile ino mode => Fs.openFile M ino mode
  | .read fh offset size => Fs.read K M fh offset size
  | .readlink ino => Fs.readlink K M ino
  | .release fh => Fs.release fh
  | .readAt len offset => do
      let r ← GuardedFile.readAt M len offset
      pure (.bytes r)
  | .readExactAt buf offset => do
      let (buf, r) ← GuardedFile.readExactAt M buf offset
      pure (.bytes (r.map fun _ => buf))

/-! ## The running mount -/

section System

variable {τ : Type} [DecidableEq τ]

/-- A call begins with nothing recorded of it. -/
def arrive {κ : Type} (t : τ) (_ : κ) (w : World τ δ ζ) : World τ δ ζ :=
  { w with seen := Function.update w.seen t [] }

/-- The mount served by any number of threads, with the archive changed as `env` allows. -/
def mountSystem (env : World τ δ ζ → World τ δ ζ → Prop) :
    Lib.System τ (World τ δ ζ) Call Reply (@Res δ ζ) where
  exec := exec K M
  env := env
  arrive := arrive
  prog := Call.prog K M

/--
Writers that show what they do: a write to the archive comes after the stamp has
changed, and the stamp of the mount does not come back. What the path names may
change at any time.
-/
inductive Writer : World τ δ ζ → World τ δ ζ → Prop where
  | touch (w : World τ δ ζ) (stamp : Stamp) : stamp.unchanged M.opened = false →
      Writer w { w with stamp := stamp }
  | write (w : World τ δ ζ) (content : Bytes) : w.stamp.unchanged M.opened = false →
      Writer w { w with content := content }
  | path (w : World τ δ ζ) (path : Option Stamp) : Writer w { w with path := path }

/-- The configurations of a mount whose archive is changed by such writers only. -/
abbrev MountRun (K : Codecs δ ζ) (M : Mount) (path : Option Stamp)
    (c : Lib.Config τ (World τ δ ζ) Call Reply (@Res δ ζ)) : Prop :=
  Lib.Reachable (mountSystem K M (Writer M)) (World.start M path) c

/-- Any change of the archive file and of what its path names. -/
def AnyChange (w w' : World τ δ ζ) : Prop :=
  ∃ content stamp path, w' = { w with content := content, stamp := stamp, path := path }

end System

end ZipFs
