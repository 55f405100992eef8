import ZipFs.Mount.World

/-!
# Reading the archive

`src/guard.rs`, `src/source.rs` and the read side of `src/archive.rs`. A read of
the archive is a read of the file, cell by cell and not atomic, followed by
`verify`, which compares the stamps with those of the mount. Everything else reads
the archive through it: a source refilling its buffer, and rawzip looking for an
entry's local header.

Log messages are left out.
-/

namespace ZipFs

variable {δ ζ : Type} (M : Mount)

/-! ## The file -/

/--
`File::read_exact_at`. Returns the buffer as it is left, which a read that failed
may have overwritten in part.
-/
def File.readExactAt : Bytes → Nat → Act δ ζ (Bytes × Except IoError Unit)
  | [], _ => pure ([], .ok ())
  | b :: buf, offset => do
      match ← Act.cell offset with
      | .error e => pure (b :: buf, .error e)
      | .ok none =>
          pure (b :: buf, .error (.custom .unexpectedEof "failed to fill whole buffer"))
      | .ok (some c) =>
          let (rest, r) ← File.readExactAt buf (offset + 1)
          pure (c :: rest, r)

/-- `File::read_at` with a buffer of `len` bytes. -/
def File.readAt : Nat → Nat → Act δ ζ (Except IoError Bytes)
  | 0, _ => pure (.ok [])
  | len + 1, offset => do
      match ← Act.cell offset with
      | .error e => pure (.error e)
      | .ok none => pure (.ok [])
      | .ok (some c) =>
          if ← Act.short then pure (.ok [c])
          else
            let r ← File.readAt len (offset + 1)
            pure (r.map (c :: ·))

/-! ## The guard -/

/-- The error of a changed archive. -/
def staleError : IoError := .os ESTALE

namespace GuardedFile

def isStale : Act δ ζ Bool := Act.loadStale

def compareStamps : Act δ ζ (Except IoError (Option Change)) := do
  match ← Act.fstat with
  | .error e => pure (.error e)
  | .ok stamp =>
      if stamp.unchanged M.opened then
        if M.named then
          match ← Act.statNamed with
          | .error e => if e.kind = .notFound then pure (.ok (some .removed)) else pure (.error e)
          | .ok named =>
              if named.sameFile M.opened then
                if named.unchanged M.opened then pure (.ok none)
                else pure (.ok (some .modified))
              else pure (.ok (some .replaced))
        else pure (.ok none)
      else pure (.ok (some .modified))

/-- Records a change. It is permanent. -/
def mark : Act δ ζ Unit := do
  let _ ← Act.swapStale
  pure ()

/--
Fails unless the archive is still the one that was opened. When the answer is not
known, this fails too, but that failure is not permanent.
-/
def verify : Act δ ζ (Except IoError Unit) := do
  if ← isStale then pure (.error staleError)
  else
    let found ← compareStamps M
    Act.note (.compared found)
    match found with
    | .ok none =>
        if ← Act.loadUnsure then
          let _ ← Act.swapUnsure false
          pure (.ok ())
        else pure (.ok ())
    | .ok (some _) =>
        mark
        pure (.error staleError)
    | .error e =>
        let _ ← Act.swapUnsure true
        pure (.error (.custom .other ("cannot examine the archive: " ++ e.text)))

/-- Compares the stamps again. -/
def check : Act δ ζ Freshness := do
  match ← verify M with
  | .ok () => pure .current
  | .error _ => if ← isStale then pure .stale else pure .unknown

/-- Reads and then verifies. A read that failed is verified too. -/
def readAt (len offset : Nat) : Act δ ζ (Except IoError Bytes) := do
  let read ← File.readAt len offset
  match ← verify M with
  | .error e => pure (.error e)
  | .ok () =>
      match read with
      | .error e => pure (.error e)
      | .ok data =>
          Act.note (.guarded offset data)
          pure (.ok data)

/-- Reads all of the buffer and then verifies it once. -/
def readExactAt (buf : Bytes) (offset : Nat) : Act δ ζ (Bytes × Except IoError Unit) := do
  let (buf, read) ← File.readExactAt buf offset
  match ← verify M with
  | .error e => pure (buf, .error e)
  | .ok () =>
      match read with
      | .error e => pure (buf, .error e)
      | .ok () =>
          Act.note (.guarded offset buf)
          pure (buf, .ok ())

end GuardedFile

/-! ## The buffered source -/

namespace BufSource

/-- Wraps `[start, start + len)` of the file. -/
def new (start len : Nat) (buf : Bytes) : BufSource := ⟨start, len, 0, buf, 0, 0⟩

/-- Goes back to the start of the range. -/
def rewind (s : BufSource) : BufSource := { s with consumed := 0, filled := 0, pos := 0 }

/-- Points the reader at a different range and starts over. -/
def retarget (s : BufSource) (start len : Nat) : BufSource :=
  { s with start := start, len := len }.rewind

/-- Bytes of the range that have not been handed out yet. -/
def remaining (s : BufSource) : Nat := s.len - s.consumed - s.pos

/-- `&self.buf[self.pos..self.filled]`. -/
def window (s : BufSource) : Bytes := (s.buf.take s.filled).drop s.pos

/-- What `fill_buf` forgets before it refills the buffer. -/
def drained (s : BufSource) : BufSource :=
  { s with consumed := s.consumed + s.filled, pos := 0, filled := 0 }

/-- The start and the length of a range come from rawzip, whose range ends within 64 bits. -/
def fillBuf (s : BufSource) : Act δ ζ (BufSource × Except IoError Bytes) :=
  if s.pos = s.filled then
    let s := s.drained
    let remaining := s.len - s.consumed
    if remaining = 0 then pure (s, .ok [])
    else do
      let want := min remaining s.buf.length
      let (got, r) ← GuardedFile.readExactAt M (s.buf.take want) (s.start + s.consumed)
      let s := { s with buf := got ++ s.buf.drop want }
      match r with
      | .error e => pure (s, .error e)
      | .ok () =>
          let s := { s with filled := want }
          pure (s, .ok s.window)
  else pure (s, .ok s.window)

def consume (s : BufSource) (amount : Nat) : BufSource :=
  { s with pos := min (s.pos + amount) s.filled }

end BufSource

/-! ## The start of an entry's data -/

/-- Errors that can occur while opening an archive or serving a request. -/
inductive Error where
  | zip (text : String)
  | io (e : IoError)
  | encrypted
  | unsupported (methodRaw : Nat)
  | corrupt (what : String)
  | indexTooLarge (what : String)
  deriving DecidableEq, Repr

/-- The errno to report to the kernel for this error. -/
def Error.errno : Error → Nat
  | .encrypted => EACCES
  | .unsupported _ => EOPNOTSUPP
  | .io e => e.rawOsError.getD EIO
  | .zip _ | .corrupt _ => EIO
  | .indexTooLarge _ => EOVERFLOW

namespace Archive

/-- Examines the archive again, for a read that failed. -/
def check : Act δ ζ Freshness := GuardedFile.check M

/-- Reads bytes straight out of the file. -/
def readAt (buf : Bytes) (offset : Nat) : Act δ ζ (Bytes × Except IoError Unit) :=
  GuardedFile.readExactAt M buf offset

/-- rawzip's `get_entry`, reading the archive through the guard. -/
def getEntry (wayfinder : Nat) : Act δ ζ (Except String (Nat × Nat)) :=
  (M.getEntry wayfinder).handle fun r => GuardedFile.readAt M r.len r.offset

/-- Where an entry's compressed bytes begin, cached on the entry with index `i`. -/
def dataStart (i : Nat) (m : EntryMeta) : Act δ ζ (Except Error Nat) := do
  let cached ← Act.loadDataStart i
  if cached ≠ U64_MAX then pure (.ok cached)
  else
    match ← getEntry M m.wayfinder with
    | .error e => pure (.error (.zip e))
    | .ok (start, stop) =>
        if stop < start then
          pure (.error (.corrupt "local header has an invalid compressed data range"))
        else if stop - start ≠ m.compressedSize then
          pure (.error (.corrupt "local header disagrees with the central directory"))
        else do
          Act.storeDataStart i start
          pure (.ok start)

end Archive

end ZipFs
