import ZipFs.Mount.Guard

/-!
# Positioned decoders and their pools

`src/decode.rs` and `src/pool.rs`. A decoder starts at offset zero and only moves
forward; `read_at` skips to an offset by decompressing and discarding, and checks
the whole entry when it has produced its last byte. A pool lends decoders to reads
and keeps a few of them idle between reads.

The loops of the source become recursions over a number that bounds their turns.
When it is used up although the loop would go round again, the program halts. For
`Pump::step` that takes a codec that claims to consume from an empty input; the
skip and the delivery loop advance at every turn and always stay below their bound.
-/

namespace ZipFs

variable {δ ζ : Type} (K : Codecs δ ζ) (M : Mount)

/-- Whether an error shows that the entry itself is bad. -/
def provesBad (e : IoError) : Bool := e.kind = .invalidData || e.kind = .unexpectedEof

def truncated : IoError :=
  .custom .unexpectedEof "entry is shorter than the central directory says"

namespace PositionedDecoder

/-- Builds a decoder at offset zero from recycled parts. -/
def new (loc : EntryLocation) (parts : CoreParts δ ζ) (verify : Bool) :
    PositionedDecoder δ ζ where
  pos := 0
  finished := false
  verified := false
  crc := if verify then some Crc.new else none
  codec := parts.codec.reinit K
  src := BufSource.new loc.dataStart loc.compressedSize parts.buf
  skip := parts.skip
  serial := parts.serial
  failed := false

/-- Returns to offset zero, keeping the codec context and both buffers. -/
def reinit (d : PositionedDecoder δ ζ) (loc : EntryLocation) : PositionedDecoder δ ζ :=
  { d with
    codec := d.codec.reinit K
    src := d.src.retarget loc.dataStart loc.compressedSize
    pos := 0
    finished := false
    verified := false
    crc := d.crc.map fun _ => Crc.new
    failed := false }

/-- Gives the expensive parts back for another decoder to use. -/
def intoParts (d : PositionedDecoder δ ζ) : CoreParts δ ζ :=
  ⟨d.codec, d.src.buf, d.skip, d.serial⟩

/-! ## Pump -/

/-- What a step that produced `data` does to the rest of the decoder. -/
def advance (d : PositionedDecoder δ ζ) (data : Bytes) (done : Bool) : PositionedDecoder δ ζ :=
  { d with
    crc := d.crc.map (·.update data)
    pos := d.pos + data.length
    finished := d.finished || done }

/-- The loop of `Pump::step`: the decoder, the output buffer and the result. -/
def pumpLoop : Nat → PositionedDecoder δ ζ → Bytes →
    Act δ ζ (PositionedDecoder δ ζ × Bytes × Except IoError Nat)
  | 0, _, _ => Act.halt
  | turns + 1, d, out => do
      let (src, filled) ← d.src.fillBuf M
      let d := { d with src := src }
      match filled with
      | .error e => pure (d, out, .error e)
      | .ok input =>
          Act.note (.fed (src.start + src.consumed + src.pos) input)
          Act.note (.stepping d.failed)
          match d.codec.step K input out with
          | (codec, out, .error e) =>
              pure ({ d with codec := codec, failed := true }, out,
                .error (.custom .invalidData e.text))
          | (codec, out, .ok step) =>
              let d := { d with codec := codec, src := src.consume step.consumed }
              if 0 < step.produced then
                pure (d.advance (out.take step.produced) step.done, out, .ok step.produced)
              else if step.done then pure ({ d with finished := true }, out, .ok 0)
              else if step.consumed = 0 then
                -- stored entries never announce an end; they simply run out
                if input = [] then pure ({ d with finished := true }, out, .ok 0)
                else pure (d, out, .error (.custom .invalidData "decompressor stalled"))
              else pumpLoop turns d out

/-- `Pump::step`: produces at least one byte into `out`, or zero at the end of the stream. -/
def pump (d : PositionedDecoder δ ζ) (out : Bytes) :
    Act δ ζ (PositionedDecoder δ ζ × Bytes × Except IoError Nat) :=
  if out = [] ∨ d.finished then pure (d, out, .ok 0)
  else pumpLoop K M (d.src.remaining + 1) d out

/-! ## Reading -/

/-- Checks the finished entry, whose index is `i`, against the central directory. -/
def verify (i : Nat) (m : EntryMeta) (d : PositionedDecoder δ ζ) :
    Act δ ζ (PositionedDecoder δ ζ × Except IoError Unit) := do
  if d.verified then
    Act.note (.verifiedShortcut i)
    pure (d, .ok ())
  else
    let d := { d with verified := true }
    if d.pos ≠ m.uncompressedSize then
      Act.storeVerify i .bad
      pure (d, .error truncated)
    else
      match d.crc with
      | none => pure (d, .ok ())
      | some crc =>
          let sum := crc.finalize
          -- look for one more byte before accepting the entry
          let (d, _, r) ← d.pump K M [0]
          match r with
          | .error e =>
              if provesBad e then
                Act.storeVerify i .bad
                pure (d, .error e)
              else pure ({ d with verified := false }, .error e)
          | .ok n =>
              if sum ≠ m.crc32 ∨ 0 < n then
                Act.storeVerify i .bad
                pure (d, .error (.custom .invalidData "entry does not match its checksum"))
              else
                Act.storeVerify i .ok
                pure (d, .ok ())

/-- Skips to `offset` by decompressing into the skip buffer. -/
def skipLoop : Nat → PositionedDecoder δ ζ → Nat →
    Act δ ζ (PositionedDecoder δ ζ × Except IoError Unit)
  | 0, d, offset => if d.pos < offset then Act.halt else pure (d, .ok ())
  | turns + 1, d, offset =>
      if d.pos < offset then do
        let want := min (offset - d.pos) d.skip.length
        let (d, got, r) ← d.pump K M (d.skip.take want)
        let d := { d with skip := got ++ d.skip.drop want }
        match r with
        | .error e => pure (d, .error e)
        | .ok n => if n = 0 then pure (d, .error truncated) else skipLoop turns d offset
      else pure (d, .ok ())

/-- Fills `out` from `written` on, up to the declared size of the entry. -/
def deliverLoop : Nat → PositionedDecoder δ ζ → Nat → Bytes → Nat →
    Act δ ζ (PositionedDecoder δ ζ × Bytes × Except IoError Nat)
  | 0, d, total, out, written =>
      if written < out.length ∧ d.pos < total then Act.halt else pure (d, out, .ok written)
  | turns + 1, d, total, out, written =>
      if written < out.length ∧ d.pos < total then do
        let room := min (total - d.pos) (out.length - written)
        let (d, got, r) ← d.pump K M ((out.drop written).take room)
        let out := out.take written ++ got ++ out.drop (written + room)
        match r with
        | .error e => pure (d, out, .error e)
        | .ok n =>
            if n = 0 then pure (d, out, .ok written)
            else deliverLoop turns d total out (written + n)
      else pure (d, out, .ok written)

/--
Fills `out` with the entry's bytes starting at `offset`, which must not be behind
the decoder's position. Returns the decoder, the buffer and how much of it was filled.
-/
def readAt (d : PositionedDecoder δ ζ) (offset : Nat) (out : Bytes) (i : Nat) (m : EntryMeta) :
    Act δ ζ (PositionedDecoder δ ζ × Bytes × Except IoError Nat) := do
  if offset < d.pos then
    Act.note .pastOffset
    pure (d, out, .error (.custom .invalidInput "decoder is past the requested offset"))
  else
    let total := m.uncompressedSize
    let (d, skipped) ← d.skipLoop K M (offset - d.pos) offset
    match skipped with
    | .error e => pure (d, out, .error e)
    | .ok () =>
        let (d, out, delivered) ← d.deliverLoop K M out.length total out 0
        match delivered with
        | .error e => pure (d, out, .error e)
        | .ok written =>
            if total ≤ d.pos then
              let (d, verified) ← d.verify K M i m
              match verified with
              | .error e => pure (d, out, .error e)
              | .ok () =>
                  Act.note (.delivered i d.src.start offset out.length written)
                  pure (d, out, .ok written)
            else
              Act.note (.delivered i d.src.start offset out.length written)
              pure (d, out, .ok written)

end PositionedDecoder

/-! ## Pools -/

namespace EntryPool

/-- A new pool, for the entry with index `i`; it goes behind a handle unless it is `kept`. -/
def new (loc : EntryLocation) (perHandleCap i : Nat) (kept : Bool) : Act δ ζ EntryPool := do
  let id ← Act.newPool loc perHandleCap i kept
  pure ⟨id, perHandleCap, loc⟩

/-- Borrows a decoder that can reach `offset` without going backwards. -/
def checkout (pool : EntryPool) (offset : Nat) : Act δ ζ (PositionedDecoder δ ζ) := do
  match ← Act.pick pool.id offset with
  | some (d, rewind) =>
      Act.releaseRetain
      pure (if rewind then d.reinit K pool.loc else d)
  | none =>
      let parts ← Act.takeCore pool.loc.method
      pure (.new K pool.loc parts M.config.verify)

/-- What a checkout does when it goes out of scope. -/
def giveBack (pool : EntryPool) (d : PositionedDecoder δ ζ) : Act δ ζ Unit := do
  let len ← Act.lockIdle pool.id
  if len < pool.perHandleCap then
    if ← Act.tryRetain then
      Act.pushIdle pool.id d
      Act.unlockIdle pool.id
    else
      Act.unlockIdle pool.id
      Act.recycleCore d.intoParts
  else
    Act.unlockIdle pool.id
    Act.recycleCore d.intoParts

def recycleAll : List (PositionedDecoder δ ζ) → Act δ ζ Unit
  | [] => pure ()
  | d :: rest => do
      Act.releaseRetain
      Act.recycleCore d.intoParts
      recycleAll rest

/-- What a pool does when it goes out of scope. -/
def drop (pool : EntryPool) : Act δ ζ Unit := do
  let idle ← Act.takeIdle pool.id
  recycleAll idle

end EntryPool

end ZipFs
