import ZipFs.Mount.Sound
import ZipFs.Mount.Tracker

/-!
# What holds while the mount runs

The invariant of the shared state under writers that show what they do, and the
protocol the threads keep: what a step needs (`OpOk`) so that it keeps the
invariant, and what every step leaves alone for the others.

The archive may answer a read with an error that the program takes for a fault of the
entry. `B` says whether it may: what is proved for every `B` holds of a mount on any
file, and with `B` false of one whose reads only ever fail for other reasons. A checkout
may hand out a decoder whose codec has failed. `G` says that none does, and with it goes
the contract of the codecs: what is said of the content of a compressed entry is said
under `G`, and what is proved for every `G` holds in every run and of any codec.

The heart of it is `DecoderOk`. It ties together the four parts of a decoder that
have to agree: the window of the compressed range that its buffer holds, how much
of the range its codec has been fed, the position it has reached in the decoded
stream, and the checksum of what it has produced. Without `G` there is still its
`DecoderShape`: the window is one of the mounted range.
-/

namespace ZipFs

variable {τ δ ζ : Type} (B G : Prop) (K : Codecs δ ζ) (M : Mount)

/-! ## What the archive answers -/

/-- A read of the archive fails with an error that proves an entry bad only if `B`. -/
def Answers : (o : Op δ ζ) → Res o → Prop
  | .cell _, r => ∀ e, r = .error e → provesBad e = true → B
  | _, _ => True

/-- One atomic step of thread `t`, answered like that, and a checkout only of a sound decoder if
`G`. -/
def execIf [DecidableEq τ] (t : τ) (o : Op δ ζ) (w : World τ δ ζ) (r : Res o)
    (w' : World τ δ ζ) : Prop :=
  exec K M t o w r w' ∧ Answers B o r ∧ (G → PicksSound o w = true)

/-! ## What the bytes of an entry are -/

/-- `[start, start + len)` of the archive as it was mounted. -/
def Mount.range (start len : Nat) : Bytes := (M.archive.drop start).take len

/-- An entry's own byte range. -/
def EntryLocation.range (loc : EntryLocation) : Bytes := M.range loc.dataStart loc.compressedSize

/-- What an entry's byte range decodes to. -/
def EntryLocation.stream (loc : EntryLocation) : Stream := K.stream loc.method (loc.range M)

/-- The answers that a reader of the mounted bytes can give. -/
def MountAnswer (r : ReadAt) : ReadAt.Answer r → Prop
  | .error _ => True
  | .ok data => data <+: M.range r.offset r.len

/-- What rawzip can find to be the start of an entry's data, reading the mounted bytes. -/
def EntryStart (m : EntryMeta) (start : Nat) : Prop :=
  ∃ stop, start ≤ stop ∧ stop - start = m.compressedSize ∧
    (M.getEntry m.wayfinder).Runs (MountAnswer M) (.ok (start, stop))

/-- A location of the readable entry `m` with index `i`. -/
structure LocationOk (i : Nat) (m : EntryMeta) (loc : EntryLocation) : Prop where
  entry : M.index.metas[i]? = some m
  size : loc.compressedSize = m.compressedSize
  method : m.method = some loc.method
  start : EntryStart M m loc.dataStart
  stored : loc.method = .store → m.compressedSize = m.uncompressedSize

/-! ## Decoders -/

/-- The buffer of a source holds a window of the range, and its cursors lie inside. -/
structure SourceOk (loc : EntryLocation) (s : BufSource) : Prop where
  start : s.start = loc.dataStart
  len : s.len = loc.compressedSize
  pos : s.pos ≤ s.filled
  filled : s.filled ≤ s.buf.length
  inside : s.consumed + s.filled ≤ (loc.range M).length
  held : s.buf.take s.filled = ((loc.range M).drop s.consumed).take s.filled
  room : 0 < s.buf.length

/-- A codec that has never been fed anything but pieces of the archive as it was mounted, with room
for so many bytes. -/
inductive FedOnly : Codec δ ζ → Prop where
  | new (m : Method) : FedOnly (Codec.new K m)
  | reinit {c : Codec δ ζ} : FedOnly c → FedOnly (c.reinit K)
  | step {c : Codec δ ζ} (inp : Bytes) (room : Nat) : FedOnly c → inp <:+: M.archive →
      FedOnly (c.step K inp (List.replicate room 0)).1

/-- Bytes put together from what such codecs make of pieces of the archive as it was mounted. -/
inductive Made : Bytes → Prop where
  | nil : Made []
  | piece {bs inp : Bytes} {c : Codec δ ζ} {room : Nat} {st : Step} : Made bs → FedOnly K M c →
      inp <:+: M.archive → (c.step K inp (List.replicate room 0)).2.2 = .ok st →
      Made (bs ++ (c.step K inp (List.replicate room 0)).2.1.take st.produced)

/-- **A decoder of an entry of `total` bytes**, whatever its codec does. -/
structure DecoderShape (loc : EntryLocation) (total : Nat) (d : PositionedDecoder δ ζ) :
    Prop where
  src : SourceOk M loc d.src
  method : d.codec.method = loc.method
  fed : K.Blind → FedOnly K M d.codec
  verified : d.verified = true → total ≤ d.pos
  skip : K.Lawful → 0 < d.skip.length

/-- **A decoder of an entry of `total` bytes**, wherever it has got to. -/
structure DecoderOk (loc : EntryLocation) (total : Nat) (d : PositionedDecoder δ ζ) : Prop
    extends DecoderShape K M loc total d where
  pos : d.pos ≤ (loc.stream K M).bytes.length
  /-- The checksum covers every byte up to the position. -/
  crc : d.crc =
    if M.config.verify then some (Crc.new.update ((loc.stream K M).bytes.take d.pos)) else none
  /-- Before the end, the codec has been fed what left the source, unless it has failed. -/
  running : d.failed = false → d.finished = false →
    d.codec.Fed K (loc.range M) (d.src.consumed + d.src.pos) ((loc.stream K M).bytes.take d.pos)
  finished : d.finished = true →
    d.pos = (loc.stream K M).bytes.length ∧ (loc.stream K M).clean = true

/-- A decoder that a pool has. -/
structure PooledOk (loc : EntryLocation) (total : Nat) (d : PositionedDecoder δ ζ) : Prop where
  shape : DecoderShape K M loc total d
  good : G → DecoderOk K M loc total d

/-- A codec for a method, which may have served other entries before. -/
structure CodecOf (m : Method) (c : Codec δ ζ) : Prop where
  method : c.method = m
  fed : K.Blind → FedOnly K M c

/-- The parts that a decoder is built from. -/
structure PartsOk (m : Method) (parts : CoreParts δ ζ) : Prop where
  codec : CodecOf K M m parts.codec
  buf : 0 < parts.buf.length
  skip : K.Lawful → 0 < parts.skip.length

/-- The decoded stream has the declared size and the recorded checksum, and ends there. -/
structure StreamOk (loc : EntryLocation) (m : EntryMeta) : Prop where
  size : (loc.stream K M).bytes.length = m.uncompressedSize
  crc : crc32 (loc.stream K M).bytes = m.crc32
  clean : (loc.stream K M).clean = true

/-- An entry whose stream is not what the central directory says, or that cannot be read. -/
def Spoilt (loc : EntryLocation) (m : EntryMeta) : Prop :=
  B ∨ M.archive.length < loc.dataStart + loc.compressedSize ∨ (K.Live → ¬ StreamOk K M loc m)

/-- What a verdict on the entry `m` with index `i` says: nothing, if a codec that may have done
anything had a part in it. -/
def VerdictOk (i : Nat) (m : EntryMeta) : VerifyState → Prop
  | .unknown => True
  | .ok => G ∨ m.method = some .store → ∃ loc, LocationOk M i m loc ∧ StreamOk K M loc m
  | .bad => G ∨ m.method = some .store → ∃ loc, LocationOk M i m loc ∧
      m.uncompressedSize ≤ (loc.stream K M).bytes.length ∧ Spoilt B K M loc m

/-- The decoded stream comes to its end after the offset, but before the bytes asked for and
before the declared size. -/
def EndsEarly (loc : EntryLocation) (m : EntryMeta) (offset len : Nat) : Prop :=
  (loc.stream K M).clean = true ∧ offset ≤ (loc.stream K M).bytes.length ∧
    (loc.stream K M).bytes.length < min (offset + len) m.uncompressedSize

/-- What a read of `len` bytes at `offset` may say that it delivered. -/
structure Delivered (loc : EntryLocation) (m : EntryMeta) (offset len n : Nat) : Prop where
  room : n ≤ len
  inside : offset + n ≤ (loc.stream K M).bytes.length
  declared : offset ≤ m.uncompressedSize → offset + n ≤ m.uncompressedSize
  /-- All that was asked for, unless the stream ends before. -/
  full : offset ≤ m.uncompressedSize →
    n = min len (m.uncompressedSize - offset) ∨
      offset + n = (loc.stream K M).bytes.length ∧ EndsEarly K M loc m offset len
  /-- A read that delivers the last byte has checked the whole entry. -/
  checked : m.uncompressedSize ≤ offset + n → 0 < m.uncompressedSize →
    M.config.verify = true → StreamOk K M loc m

/-! ## The shared state -/

/-- The stamp of the archive shows a change. -/
def Altered (w : World τ δ ζ) : Prop := w.stamp.unchanged M.opened = false

/-- The pool's cell was made for the entry with index `i`. -/
def PoolFor (pool : EntryPool) (i : Nat) (w : World τ δ ζ) : Prop :=
  ∃ cell, w.pools[pool.id]? = some cell ∧ cell.loc = pool.loc ∧ cell.metaIdx = i

/-- The pool is there, and that is who keeps it. -/
def KeptBy (id : Nat) (keeper : Option τ) (w : World τ δ ζ) : Prop :=
  ∃ cell, w.pools[id]? = some cell ∧ cell.keeper = keeper

/-- The tracker's cell was made for the entry with index `i`, at this location. -/
def StoreFor (id : Nat) (loc : EntryLocation) (i : Nat) (w : World τ δ ζ) : Prop :=
  ∃ cell, w.stores[id]? = some cell ∧ cell.loc = loc ∧ cell.metaIdx = i

/-- The open file behind a handle, open or closed by now. -/
def FileAt (fh : Nat) (f : OpenFile) (w : World τ δ ζ) : Prop :=
  ∃ cell, w.files fh = some cell ∧ cell.file = f

theorem FileAt.unique {fh : Nat} {f f' : OpenFile} {w : World τ δ ζ} (h : FileAt fh f w)
    (h' : FileAt fh f' w) : f = f' := by
  obtain ⟨cell, hcell, rfl⟩ := h
  obtain ⟨cell', hcell', rfl⟩ := h'
  rw [Option.some.inj (hcell.symm.trans hcell')]

/-- What an open file's kind says agrees with the location it was opened with. -/
def KindOk (f : OpenFile) (w : World τ δ ζ) : Prop :=
  match f.kind with
  | .empty => f.size = 0
  | .store start size verify =>
      start = f.loc.dataStart ∧ size = f.loc.compressedSize ∧ f.loc.method = .store ∧
        ∀ id, verify = some id → StoreFor id f.loc f.metaIdx w
  | .coded pool => pool.loc = f.loc ∧ f.loc.method ≠ .store ∧ PoolFor pool f.metaIdx w ∧
      KeptBy pool.id none w

structure FileOk (f : OpenFile) (w : World τ δ ζ) : Prop where
  entry : ∃ m, LocationOk M f.metaIdx m f.loc ∧ f.size = m.uncompressedSize
  kind : KindOk f w

structure PoolOk (cell : PoolCell τ δ ζ) : Prop where
  coded : cell.loc.method ≠ .store
  entry : ∃ m, LocationOk M cell.metaIdx m cell.loc ∧
    ∀ d ∈ cell.idle, PooledOk G K M cell.loc m.uncompressedSize d

/-- A tracker of a stored entry has observed blocks of its range, and unless it is just at it,
it is what these blocks make of it. -/
structure StoreOk (cell : StoreCell τ) : Prop where
  stored : cell.loc.method = .store
  inside : ∀ b ∈ cell.observed, BlockIn (cell.loc.range M).length b
  entry : ∃ m, LocationOk M cell.metaIdx m cell.loc ∧ 0 < m.uncompressedSize ∧
    (cell.lock = none → cell.state = .replay (cell.loc.range M) m cell.observed)

structure CoresOk (c : CoreStore δ ζ) : Prop where
  codecs : ∀ m, ∀ x ∈ c.codecs m, CodecOf K M m x
  buffers : ∀ b ∈ c.buffers, 0 < b.length
  skips : K.Lawful → ∀ b ∈ c.skips, 0 < b.length

/-- The blocks of a stored entry, in this order, complete it and it does not match. -/
def Mismatch (loc : EntryLocation) (m : EntryMeta) (bs : List (Nat × Nat)) : Prop :=
  reach 0 bs = some m.uncompressedSize ∧ crc32 (loc.range M) ≠ m.crc32

/-- What is recorded is never a byte that the archive did not have, no decoder is ever past the
offset of a read, only an empty entry is ever found verified already, and a tracker refuses
exactly the block that completes an entry which does not match. What a decoder says that it
delivered counts under `G` only. -/
def NoteOk (w : World τ δ ζ) : Note → Prop
  | .guarded offset data => data <+: M.archive.drop offset
  | .fed offset data => data <+: M.archive.drop offset
  | .delivered i start offset len n => G → ∃ m loc, LocationOk M i m loc ∧
      loc.dataStart = start ∧ Delivered K M loc m offset len n
  | .pastOffset => False
  | .verifiedShortcut i => ∃ m, M.index.metas[i]? = some m ∧ m.uncompressedSize = 0
  | .observed id offset len fine => ∃ cell m bs, w.stores[id]? = some cell ∧
      M.index.metas[cell.metaIdx]? = some m ∧ bs ++ [(offset, len)] <+: cell.observed ∧
      (fine = false ↔ Mismatch M cell.loc m (bs ++ [(offset, len)]))
  | _ => True

/-- **The invariant of the mount.** -/
structure MountInv (w : World τ δ ζ) : Prop where
  /-- While the stamp shows no change, there is none. -/
  honest : w.stamp.unchanged M.opened = true → w.content = M.archive
  starts : ∀ i m, M.index.metas[i]? = some m → w.dataStart i ≠ U64_MAX →
    EntryStart M m (w.dataStart i)
  verdicts : ∀ i m, M.index.metas[i]? = some m → VerdictOk B G K M i m (w.verifyState i)
  files : ∀ fh cell, w.files fh = some cell → FileOk M cell.file w
  pools : ∀ (id : Nat) (cell : PoolCell τ δ ζ), w.pools[id]? = some cell → PoolOk G K M cell
  stores : ∀ (id : Nat) (cell : StoreCell τ), w.stores[id]? = some cell → StoreOk M cell
  cores : CoresOk K M w.cores
  notes : ∀ t, ∀ n ∈ w.seen t, NoteOk G K M w n
  /-- Handles are handed out once. -/
  fresh : ∀ fh, w.next ≤ fh → w.files fh = none ∧ w.minted fh = none

/-- A tracker's cell stays the same tracker's, and observes more. -/
structure CellGrows (cell cell' : StoreCell τ) : Prop where
  loc : cell'.loc = cell.loc
  metaIdx : cell'.metaIdx = cell.metaIdx
  observed : cell.observed <+: cell'.observed

/-- How the state develops: a change stays, neither open files nor pools nor trackers are
replaced, and an entry that was judged is not forgotten. -/
structure Grows (w w' : World τ δ ζ) : Prop where
  changed : Altered M w → Altered M w'
  files : ∀ fh f, FileAt fh f w → FileAt fh f w'
  pools : ∀ pool i, PoolFor pool i w → PoolFor pool i w'
  kept : ∀ id keeper, KeptBy id keeper w → KeptBy id keeper w'
  stores : ∀ (id : Nat) cell, w.stores[id]? = some cell →
    ∃ cell', w'.stores[id]? = some cell' ∧ CellGrows cell cell'
  judged : ∀ i, w.verifyState i ≠ .unknown → w'.verifyState i ≠ .unknown

/-- What a thread relies on: a handle it drew stays its own until it is used, a tracker it has
locked stays as it is, and nobody else records anything for it. -/
structure Others (t : τ) (w w' : World τ δ ζ) : Prop where
  grows : Grows M w w'
  minted : ∀ fh, w.minted fh = some t → w.files fh = none →
    w'.minted fh = some t ∧ w'.files fh = none
  locked : ∀ (id : Nat) cell, w.stores[id]? = some cell → cell.lock = some t →
    w'.stores[id]? = some cell
  seen : w'.seen t = w.seen t

theorem CellGrows.refl (cell : StoreCell τ) : CellGrows cell cell := ⟨rfl, rfl, List.prefix_refl _⟩

theorem CellGrows.trans {c₁ c₂ c₃ : StoreCell τ} (h : CellGrows c₁ c₂) (h' : CellGrows c₂ c₃) :
    CellGrows c₁ c₃ :=
  ⟨h'.loc.trans h.loc, h'.metaIdx.trans h.metaIdx, h.observed.trans h'.observed⟩

variable {M} in
theorem Grows.refl (w : World τ δ ζ) : Grows M w w :=
  ⟨id, fun _ _ => id, fun _ _ => id, fun _ _ => id, fun _ cell h => ⟨cell, h, .refl cell⟩,
    fun _ => id⟩

variable {M} in
theorem Grows.trans {w₁ w₂ w₃ : World τ δ ζ} (h : Grows M w₁ w₂) (h' : Grows M w₂ w₃) :
    Grows M w₁ w₃ where
  changed := h'.changed ∘ h.changed
  files fh f := h'.files fh f ∘ h.files fh f
  pools pool i := h'.pools pool i ∘ h.pools pool i
  kept id keeper := h'.kept id keeper ∘ h.kept id keeper
  stores id cell hc := by
    obtain ⟨c₂, hc₂, hg⟩ := h.stores id cell hc
    obtain ⟨c₃, hc₃, hg'⟩ := h'.stores id c₂ hc₂
    exact ⟨c₃, hc₃, hg.trans hg'⟩
  judged i := h'.judged i ∘ h.judged i

variable {M} in
theorem Others.refl (t : τ) (w : World τ δ ζ) : Others M t w w :=
  ⟨.refl w, fun _ h h' => ⟨h, h'⟩, fun _ _ h _ => h, rfl⟩

variable {M} in
theorem Others.trans {t : τ} {w₁ w₂ w₃ : World τ δ ζ} (h : Others M t w₁ w₂)
    (h' : Others M t w₂ w₃) : Others M t w₁ w₃ where
  grows := h.grows.trans h'.grows
  minted fh hm hf := by
    obtain ⟨hm, hf⟩ := h.minted fh hm hf
    exact h'.minted fh hm hf
  locked id cell hc hl := h'.locked id cell (h.locked id cell hc hl) hl
  seen := h'.seen.trans h.seen

/-- The protocol of the mount. -/
def mountProtocol : Lib.Protocol τ (World τ δ ζ) where
  inv := MountInv B G K M
  rely := Others M
  grow := Grows M
  rely_refl := .refl
  rely_trans _ _ _ _ h h' := h.trans h'
  grow_refl := .refl
  grow_trans _ _ _ h h' := h.trans h'
  grow_of_rely _ _ _ h := h.grows

variable {B G K M}

theorem lasting_altered_or (P : Prop) :
    (mountProtocol (τ := τ) B G K M).Lasting fun w => Altered M w ∨ P :=
  fun _ _ h => Or.imp_left h.changed

theorem lasting_fileAt (fh : Nat) (f : OpenFile) :
    (mountProtocol (τ := τ) B G K M).Lasting (FileAt fh f) := fun _ _ h => h.files fh f

theorem lasting_poolFor (pool : EntryPool) (i : Nat) :
    (mountProtocol (τ := τ) B G K M).Lasting (PoolFor pool i) := fun _ _ h => h.pools pool i

theorem StoreFor.grows {id i : Nat} {loc : EntryLocation} {w w' : World τ δ ζ}
    (h : StoreFor id loc i w) (hg : Grows M w w') : StoreFor id loc i w' := by
  obtain ⟨cell, hcell, hl, hx⟩ := h
  obtain ⟨cell', hcell', hc⟩ := hg.stores id cell hcell
  exact ⟨cell', hcell', hc.loc.trans hl, hc.metaIdx.trans hx⟩

theorem FileOk.grows {f : OpenFile} {w w' : World τ δ ζ} (h : FileOk M f w)
    (hg : Grows M w w') : FileOk M f w' := by
  refine ⟨h.entry, ?_⟩
  have hk := h.kind
  unfold KindOk at hk ⊢
  split at hk
  · exact hk
  · exact ⟨hk.1, hk.2.1, hk.2.2.1, fun id hid => (hk.2.2.2 id hid).grows hg⟩
  · exact ⟨hk.1, hk.2.1, hg.pools _ _ hk.2.2.1, hg.kept _ _ hk.2.2.2⟩

theorem NoteOk.grows {n : Note} {w w' : World τ δ ζ} (h : NoteOk G K M w n) (hg : Grows M w w') :
    NoteOk G K M w' n := by
  cases n with
  | observed id offset len fine =>
      obtain ⟨cell, m, bs, hcell, hm, hpre, hfine⟩ := h
      obtain ⟨cell', hcell', hc⟩ := hg.stores id cell hcell
      refine ⟨cell', m, bs, hcell', by rw [hc.metaIdx]; exact hm, hpre.trans hc.observed, ?_⟩
      rw [hc.loc]
      exact hfine
  | _ => exact h

/-- What holds of sound checkouts and lawful codecs includes what holds of any. -/
theorem MountInv.anyhow {w : World τ δ ζ} (hi : MountInv B G K M w) : MountInv B False K M w where
  honest := hi.honest
  starts := hi.starts
  verdicts i m hm := by
    have hv := hi.verdicts i m hm
    cases hs : w.verifyState i with
    | unknown => trivial
    | ok =>
        rw [hs] at hv
        exact fun h => hv (.inr (h.resolve_left not_false))
    | bad =>
        rw [hs] at hv
        exact fun h => hv (.inr (h.resolve_left not_false))
  files := hi.files
  pools id cell hcell := by
    obtain ⟨hcoded, m, hloc, hidle⟩ := hi.pools id cell hcell
    exact ⟨hcoded, m, hloc, fun d hd => ⟨(hidle d hd).shape, False.elim⟩⟩
  stores := hi.stores
  cores := hi.cores
  notes t n hn := by
    have hok := hi.notes t n hn
    cases n with
    | delivered i start offset len k => exact False.elim
    | _ => exact hok
  fresh := hi.fresh

/-- Where an open file is behind a handle, it is in order. -/
theorem fileOk_of_fileAt {fh : Nat} {f : OpenFile} {w : World τ δ ζ} (hi : MountInv B G K M w)
    (h : FileAt fh f w) : FileOk M f w := by
  obtain ⟨cell, hcell, rfl⟩ := h
  exact hi.files fh cell hcell

/-! ## What a step needs -/

section Steps

variable (B G K M) in
/-- What an operation of thread `t` needs so that it keeps the invariant. -/
def OpOk (t : τ) (w : World τ δ ζ) : Op δ ζ → Prop
  | .storeDataStart i start => ∀ m, M.index.metas[i]? = some m → EntryStart M m start
  | .storeVerify i state => state ≠ .unknown ∧
      ∀ m, M.index.metas[i]? = some m → VerdictOk B G K M i m state
  | .insertHandle fh file => w.minted fh = some t ∧ w.files fh = none ∧ FileOk M file w
  | .newStore loc i => loc.method = .store ∧ ∃ m, LocationOk M i m loc ∧ 0 < m.uncompressedSize
  | .record id offset len => ∃ cell, w.stores[id]? = some cell ∧ cell.lock = some t ∧
      BlockIn (cell.loc.range M).length (offset, len)
  | .unlockStore id state => ∃ cell, w.stores[id]? = some cell ∧ cell.lock = some t ∧
      ∀ m, M.index.metas[cell.metaIdx]? = some m →
        state = .replay (cell.loc.range M) m cell.observed
  | .newPool loc _ i _ => loc.method ≠ .store ∧ ∃ m, LocationOk M i m loc
  | .pushIdle id d => ∀ cell, w.pools[id]? = some cell → ∀ m,
    M.index.metas[cell.metaIdx]? = some m →
      PooledOk G K M cell.loc m.uncompressedSize d
  | .recycleCore parts => 0 < parts.buf.length ∧ (K.Lawful → 0 < parts.skip.length) ∧
      (K.Blind → FedOnly K M parts.codec)
  | .note n => NoteOk G K M w n
  | _ => True

variable (B G K M) in
/-- What every step of thread `t` has to keep. -/
def Keeps (t : τ) (w w' : World τ δ ζ) : Prop :=
  MountInv B G K M w' ∧ Grows M w w' ∧ ∀ u, u ≠ t → Others M u w w'

/-- The part of the state that the invariant looks at. -/
def World.shown (w : World τ δ ζ) :=
  (w.content, w.stamp, w.dataStart, w.verifyState, w.files, w.pools, w.stores, w.cores, w.seen,
    w.next, w.minted)

variable {t : τ} {w w' : World τ δ ζ}

/-- What nobody relies on has changed. -/
theorem Others.of_grows {u : τ} (hg : Grows M w w') (hm : w'.minted = w.minted)
    (hf : w'.files = w.files) (hs : w'.stores = w.stores) (hn : w'.seen u = w.seen u) :
    Others M u w w' := by
  refine ⟨hg, ?_, ?_, hn⟩
  · rw [hm, hf]
    exact fun _ h h' => ⟨h, h'⟩
  · rw [hs]
    exact fun _ _ h _ => h

/-- A step of which the invariant sees nothing keeps it. -/
theorem keeps_of_shown (hi : MountInv B G K M w) (h : w'.shown = w.shown) :
    Keeps B G K M t w w' := by
  simp only [World.shown, Prod.mk.injEq] at h
  obtain ⟨hc, hs, hd, hv, hf, hp, ht, hk, hn, hx, hm⟩ := h
  have hg : Grows M w w' := by
    refine ⟨?_, ?_, ?_, ?_, ?_, ?_⟩
    · unfold Altered
      rw [hs]
      exact id
    · unfold FileAt
      rw [hf]
      exact fun _ _ => id
    · unfold PoolFor
      rw [hp]
      exact fun _ _ => id
    · unfold KeptBy
      rw [hp]
      exact fun _ _ => id
    · rw [ht]
      exact fun _ cell h => ⟨cell, h, .refl cell⟩
    · rw [hv]
      exact fun _ => id
  refine ⟨⟨?_, ?_, ?_, ?_, ?_, ?_, ?_, ?_, ?_⟩,
    hg, fun u _ => .of_grows hg hm hf ht (congrFun hn u)⟩
  · rw [hs, hc]
    exact hi.honest
  · rw [hd]
    exact hi.starts
  · rw [hv]
    exact hi.verdicts
  · rw [hf]
    exact fun fh cell h => (hi.files fh cell h).grows hg
  · rw [hp]
    exact hi.pools
  · rw [ht]
    exact hi.stores
  · rw [hk]
    exact hi.cores
  · rw [hn]
    exact fun t n h => (hi.notes t n h).grows hg
  · rw [hx, hf, hm]
    exact hi.fresh

/-- Only what a step shows matters. -/
theorem Keeps.shown {w'' : World τ δ ζ} (h : Keeps B G K M t w w') (hs : w''.shown = w'.shown) :
    Keeps B G K M t w w'' := by
  obtain ⟨hi, hg, ho⟩ := keeps_of_shown (t := t) h.1 hs
  exact ⟨hi, h.2.1.trans hg, fun u hu => (h.2.2 u hu).trans (ho u hu)⟩

/-- The step that `det` computes. -/
theorem Keeps.of_some {ρ : Type} {r r' : ρ} {w₁ : World τ δ ζ}
    (h : some (r', w₁) = some (r, w')) (hk : Keeps B G K M t w w₁) : Keeps B G K M t w w' := by
  obtain ⟨-, rfl⟩ := Prod.mk.inj (Option.some.inj h)
  exact hk

/-- Changing what a pool keeps idle. -/
theorem keeps_setPool (hi : MountInv B G K M w) {id : Nat} {cell cell' : PoolCell τ δ ζ}
    (hcell : w.pools[id]? = some cell) (hloc : cell'.loc = cell.loc)
    (hidx : cell'.metaIdx = cell.metaIdx) (hkeeper : cell'.keeper = cell.keeper)
    (hidle : ∀ m, LocationOk M cell.metaIdx m cell.loc →
      (∀ d ∈ cell.idle, PooledOk G K M cell.loc m.uncompressedSize d) →
      ∀ d ∈ cell'.idle, PooledOk G K M cell.loc m.uncompressedSize d) :
    Keeps B G K M t w (w.setPool id cell') := by
  have hg : Grows M w (w.setPool id cell') := by
    refine ⟨fun h => h, fun _ _ h => h, ?_, ?_, fun _ c h => ⟨c, h, .refl c⟩, fun _ h => h⟩
    · intro pool i h
      rcases h with ⟨c, hc, hl, hx⟩
      by_cases hid : pool.id = id
      · subst hid
        obtain rfl := Option.some.inj (hcell.symm.trans hc)
        exact ⟨cell', World.setPool_self hcell cell', hloc.trans hl, hidx.trans hx⟩
      · exact ⟨c, (World.setPool_ne w hid cell').trans hc, hl, hx⟩
    · intro id' keeper h
      rcases h with ⟨c, hc, hk⟩
      by_cases hid : id' = id
      · subst hid
        obtain rfl := Option.some.inj (hcell.symm.trans hc)
        exact ⟨cell', World.setPool_self hcell cell', hkeeper.trans hk⟩
      · exact ⟨c, (World.setPool_ne w hid cell').trans hc, hk⟩
  refine ⟨⟨hi.honest, hi.starts, hi.verdicts, ?_, ?_, hi.stores, hi.cores,
    fun v n h => (hi.notes v n h).grows hg, hi.fresh⟩, hg,
    fun u _ => .of_grows hg rfl rfl rfl rfl⟩
  · exact fun fh c h => (hi.files fh c h).grows hg
  · intro j c hc
    by_cases hid : j = id
    · subst hid
      rw [World.setPool_self hcell] at hc
      obtain rfl := Option.some.inj hc
      obtain ⟨hcoded, m, hm, hd⟩ := hi.pools j cell hcell
      exact ⟨by rw [hloc]; exact hcoded, m, by rw [hloc, hidx]; exact hm,
        by rw [hloc]; exact hidle m hm hd⟩
    · rw [World.setPool_ne w hid] at hc
      exact hi.pools j c hc

/-- The pools that a step only rearranges. -/
theorem keeps_pools (hi : MountInv B G K M w) {id : Nat} {cell : PoolCell τ δ ζ}
    (hcell : w.pools[id]? = some cell) {idle : List (PositionedDecoder δ ζ)} {lock : Option τ}
    (hidle : ∀ d ∈ idle, d ∈ cell.idle) :
    Keeps B G K M t w (w.setPool id { cell with idle := idle, lock := lock }) :=
  keeps_setPool hi hcell rfl rfl rfl fun _ _ h d hd => h d (hidle d hd)

/-- Changing how an open file is counted and listed. -/
theorem keeps_setFile (hi : MountInv B G K M w) {fh : Nat} {cell : FileCell}
    (hcell : w.files fh = some cell) (cell' : FileCell) (hfile : cell'.file = cell.file) :
    Keeps B G K M t w (w.setFile fh cell') := by
  have hne : ∀ fh', w.files fh' = none → fh' ≠ fh := by
    intro fh' hnone h
    rw [h, hcell] at hnone
    exact absurd hnone (by simp)
  have hg : Grows M w (w.setFile fh cell') := by
    refine ⟨fun h => h, ?_, fun _ _ h => h, fun _ _ h => h, fun _ c h => ⟨c, h, .refl c⟩,
      fun _ h => h⟩
    intro fh' f h
    rcases h with ⟨c, hc, hf⟩
    by_cases h : fh' = fh
    · subst h
      obtain rfl := Option.some.inj (hcell.symm.trans hc)
      exact ⟨cell', World.setFile_self .., hfile.trans hf⟩
    · exact ⟨c, (World.setFile_ne w h cell').trans hc, hf⟩
  refine ⟨⟨hi.honest, hi.starts, hi.verdicts, ?_, hi.pools, hi.stores, hi.cores,
    fun v n h => (hi.notes v n h).grows hg, ?_⟩, hg,
    fun u _ => ⟨hg, ?_, fun _ _ h _ => h, rfl⟩⟩
  · intro fh' c hc
    by_cases h : fh' = fh
    · subst h
      rw [World.setFile_self] at hc
      obtain rfl := Option.some.inj hc
      rw [hfile]
      exact (hi.files fh' cell hcell).grows hg
    · rw [World.setFile_ne w h] at hc
      exact (hi.files fh' c hc).grows hg
  · intro fh' h
    obtain ⟨hf, hm⟩ := hi.fresh fh' h
    exact ⟨(World.setFile_ne w (hne fh' hf) cell').trans hf, hm⟩
  · intro fh' hm hf
    exact ⟨hm, (World.setFile_ne w (hne fh' hf) cell').trans hf⟩

theorem keeps_storeDataStart (hi : MountInv B G K M w) {i start : Nat}
    (hok : OpOk B G K M t w (.storeDataStart i start)) :
    Keeps B G K M t w { w with dataStart := Function.update w.dataStart i start } := by
  have hg : Grows M w { w with dataStart := Function.update w.dataStart i start } :=
    ⟨fun h => h, fun _ _ h => h, fun _ _ h => h, fun _ _ h => h, fun _ c h => ⟨c, h, .refl c⟩,
      fun _ h => h⟩
  refine ⟨⟨hi.honest, ?_, hi.verdicts, fun fh c h => (hi.files fh c h).grows hg, hi.pools,
    hi.stores,
    hi.cores, fun v n h => (hi.notes v n h).grows hg, hi.fresh⟩, hg,
    fun u _ => .of_grows hg rfl rfl rfl rfl⟩
  intro j m hm hj
  dsimp only at hj ⊢
  by_cases h : j = i
  · subst h
    rw [Function.update_self]
    exact hok m hm
  · rw [Function.update_of_ne h] at hj ⊢
    exact hi.starts j m hm hj

theorem keeps_storeVerify (hi : MountInv B G K M w) {i : Nat} {state : VerifyState}
    (hok : OpOk B G K M t w (.storeVerify i state)) :
    Keeps B G K M t w { w with verifyState := Function.update w.verifyState i state } := by
  have hg : Grows M w { w with verifyState := Function.update w.verifyState i state } := by
    refine ⟨fun h => h, fun _ _ h => h, fun _ _ h => h, fun _ _ h => h,
      fun _ c h => ⟨c, h, .refl c⟩, ?_⟩
    intro j hj
    dsimp only
    by_cases h : j = i
    · subst h
      rw [Function.update_self]
      exact hok.1
    · rw [Function.update_of_ne h]
      exact hj
  refine ⟨⟨hi.honest, hi.starts, ?_, fun fh c h => (hi.files fh c h).grows hg, hi.pools, hi.stores,
    hi.cores, fun v n h => (hi.notes v n h).grows hg, hi.fresh⟩, hg,
    fun u _ => .of_grows hg rfl rfl rfl rfl⟩
  intro j m hm
  dsimp only
  by_cases h : j = i
  · subst h
    rw [Function.update_self]
    exact hok.2 m hm
  · rw [Function.update_of_ne h]
    exact hi.verdicts j m hm

/-- Drawing a handle: it is the thread's own, and nobody else's changes. -/
theorem keeps_nextHandle (hi : MountInv B G K M w) :
    Keeps B G K M t w
      { w with next := w.next + 1, minted := Function.update w.minted w.next (some t) } := by
  have hg : Grows M w
      { w with next := w.next + 1, minted := Function.update w.minted w.next (some t) } :=
    ⟨fun h => h, fun _ _ h => h, fun _ _ h => h, fun _ _ h => h, fun _ c h => ⟨c, h, .refl c⟩,
      fun _ h => h⟩
  have hne : ∀ fh (u : τ), w.minted fh = some u → fh ≠ w.next := by
    intro fh u hm h
    rw [h, (hi.fresh w.next (Nat.le_refl _)).2] at hm
    exact absurd hm (by simp)
  refine ⟨⟨hi.honest, hi.starts, hi.verdicts, fun fh c h => (hi.files fh c h).grows hg, hi.pools,
    hi.stores, hi.cores, fun v n h => (hi.notes v n h).grows hg, ?_⟩,
      hg, fun u _ => ⟨hg, ?_, fun _ _ h _ => h, rfl⟩⟩
  · intro fh h
    dsimp only at h ⊢
    obtain ⟨hf, hm⟩ := hi.fresh fh (by omega)
    rw [Function.update_of_ne (show fh ≠ w.next by omega)]
    exact ⟨hf, hm⟩
  · intro fh hm hf
    dsimp only
    rw [Function.update_of_ne (hne fh u hm)]
    exact ⟨hm, hf⟩

/-- Inserting a file under a handle the thread drew. -/
theorem keeps_insertHandle (hi : MountInv B G K M w) {fh : Nat} {file : OpenFile}
    (hok : OpOk B G K M t w (.insertHandle fh file)) (cell : FileCell) (hcell : cell.file = file) :
    Keeps B G K M t w (w.setFile fh cell) := by
  obtain ⟨hmine, hnone, hfile⟩ := hok
  have hg : Grows M w (w.setFile fh cell) := by
    refine ⟨fun h => h, ?_, fun _ _ h => h, fun _ _ h => h, fun _ c h => ⟨c, h, .refl c⟩,
      fun _ h => h⟩
    intro fh' f h
    rcases h with ⟨c, hc, hf⟩
    have hne : fh' ≠ fh := by
      intro h
      rw [h, hnone] at hc
      exact absurd hc (by simp)
    exact ⟨c, (World.setFile_ne w hne cell).trans hc, hf⟩
  refine ⟨⟨hi.honest, hi.starts, hi.verdicts, ?_, hi.pools, hi.stores, hi.cores,
    fun v n h => (hi.notes v n h).grows hg, ?_⟩, hg,
    fun u hu => ⟨hg, ?_, fun _ _ h _ => h, rfl⟩⟩
  · intro fh' c hc
    by_cases h : fh' = fh
    · subst h
      rw [World.setFile_self] at hc
      obtain rfl := Option.some.inj hc
      rw [hcell]
      exact hfile.grows hg
    · rw [World.setFile_ne w h] at hc
      exact (hi.files fh' c hc).grows hg
  · intro fh' h
    obtain ⟨hf, hm⟩ := hi.fresh fh' h
    have hne : fh' ≠ fh := by
      intro heq
      rw [heq, hmine] at hm
      exact absurd hm (by simp)
    exact ⟨(World.setFile_ne w hne cell).trans hf, hm⟩
  · intro fh' hm hf
    have hne : fh' ≠ fh := by
      intro heq
      rw [heq, hmine] at hm
      exact hu (Option.some.inj hm).symm
    exact ⟨hm, (World.setFile_ne w hne cell).trans hf⟩

theorem keeps_newPool (hi : MountInv B G K M w) {loc : EntryLocation} {cap i : Nat} {kept : Bool}
    (keeper : Option τ) (hok : OpOk B G K M t w (.newPool loc cap i kept)) :
    Keeps B G K M t w { w with pools := w.pools ++ [⟨[], none, loc, cap, i, keeper⟩] } := by
  have hold : ∀ (j : Nat) c, w.pools[j]? = some c →
      (w.pools ++ [⟨[], none, loc, cap, i, keeper⟩])[j]? = some c := by
    intro j c hc
    rw [List.getElem?_append_left (List.getElem?_eq_some_iff.mp hc).1]
    exact hc
  have hg : Grows M w { w with pools := w.pools ++ [⟨[], none, loc, cap, i, keeper⟩] } := by
    refine ⟨fun h => h, fun _ _ h => h, ?_, ?_, fun _ c h => ⟨c, h, .refl c⟩, fun _ h => h⟩
    · intro pool j h
      rcases h with ⟨c, hc, hl, hx⟩
      exact ⟨c, hold _ c hc, hl, hx⟩
    · intro id k h
      rcases h with ⟨c, hc, hk⟩
      exact ⟨c, hold _ c hc, hk⟩
  refine ⟨⟨hi.honest, hi.starts, hi.verdicts, fun fh c h => (hi.files fh c h).grows hg, ?_,
    hi.stores, hi.cores, fun v n h => (hi.notes v n h).grows hg, hi.fresh⟩, hg,
    fun u _ => .of_grows hg rfl rfl rfl rfl⟩
  intro id cell hc
  dsimp only at hc
  rcases Nat.lt_or_ge id w.pools.length with hlt | hge
  · rw [List.getElem?_append_left hlt] at hc
    exact hi.pools id cell hc
  · rw [List.getElem?_append_right hge] at hc
    obtain rfl := List.mem_singleton.mp (List.mem_of_getElem? hc)
    obtain ⟨hcoded, m, hm⟩ := hok
    exact ⟨hcoded, m, hm, by simp⟩

theorem keeps_cores (hi : MountInv B G K M w) {cores : CoreStore δ ζ} (hc : CoresOk K M cores) :
    Keeps B G K M t w { w with cores := cores } := by
  have hg : Grows M w { w with cores := cores } :=
    ⟨fun h => h, fun _ _ h => h, fun _ _ h => h, fun _ _ h => h, fun _ c h => ⟨c, h, .refl c⟩,
      fun _ h => h⟩
  exact ⟨⟨hi.honest, hi.starts, hi.verdicts, fun fh c h => (hi.files fh c h).grows hg, hi.pools,
    hi.stores, hc, fun v n h => (hi.notes v n h).grows hg, hi.fresh⟩, hg,
    fun u _ => .of_grows hg rfl rfl rfl rfl⟩

theorem keeps_newStore (hi : MountInv B G K M w) {loc : EntryLocation} {i : Nat}
    (hok : OpOk B G K M t w (.newStore loc i)) :
    Keeps B G K M t w { w with stores := w.stores ++ [⟨StoreVerify.new, none, loc, i, []⟩] } := by
  have hold : ∀ (id : Nat) (cell : StoreCell τ), w.stores[id]? = some cell →
      (w.stores ++ [⟨StoreVerify.new, none, loc, i, []⟩])[id]? = some cell := by
    intro id cell hc
    rw [List.getElem?_append_left (List.getElem?_eq_some_iff.mp hc).1]
    exact hc
  have hg : Grows M w
      { w with stores := w.stores ++ [⟨StoreVerify.new, none, loc, i, []⟩] } :=
    ⟨fun h => h, fun _ _ h => h, fun _ _ h => h, fun _ _ h => h,
      fun id c h => ⟨c, hold id c h, .refl c⟩, fun _ h => h⟩
  refine ⟨⟨hi.honest, hi.starts, hi.verdicts, fun fh c h => (hi.files fh c h).grows hg, hi.pools,
    ?_, hi.cores, fun v n h => (hi.notes v n h).grows hg, hi.fresh⟩, hg,
    fun u _ => ⟨hg, fun _ h h' => ⟨h, h'⟩, fun id c h _ => hold id c h, rfl⟩⟩
  intro id cell hc
  dsimp only at hc
  rcases Nat.lt_or_ge id w.stores.length with hlt | hge
  · rw [List.getElem?_append_left hlt] at hc
    exact hi.stores id cell hc
  · rw [List.getElem?_append_right hge] at hc
    obtain rfl := List.mem_singleton.mp (List.mem_of_getElem? hc)
    obtain ⟨hs, m, hm, hpos⟩ := hok
    exact ⟨hs, by simp, m, hm, hpos, fun _ => rfl⟩

/-- Changing a tracker's cell that no other thread has locked. -/
theorem keeps_setStore (hi : MountInv B G K M w) {id : Nat} {cell cell' : StoreCell τ}
    (hcell : w.stores[id]? = some cell) (hfree : ∀ u, u ≠ t → cell.lock ≠ some u)
    (hgrow : CellGrows cell cell') (hok : StoreOk M cell → StoreOk M cell') :
    Keeps B G K M t w (w.setStore id cell') := by
  have hself : (w.setStore id cell').stores[id]? = some cell' :=
    List.getElem?_set_self (List.getElem?_eq_some_iff.mp hcell).1
  have hne : ∀ j, j ≠ id → (w.setStore id cell').stores[j]? = w.stores[j]? := fun j hj =>
    List.getElem?_set_ne hj.symm
  have hg : Grows M w (w.setStore id cell') := by
    refine ⟨fun h => h, fun _ _ h => h, fun _ _ h => h, fun _ _ h => h, ?_, fun _ h => h⟩
    intro j c hc
    by_cases hj : j = id
    · subst hj
      obtain rfl := Option.some.inj (hcell.symm.trans hc)
      exact ⟨cell', hself, hgrow⟩
    · exact ⟨c, (hne j hj).trans hc, .refl c⟩
  refine ⟨⟨hi.honest, hi.starts, hi.verdicts, fun fh c h => (hi.files fh c h).grows hg, hi.pools,
    ?_, hi.cores, fun v n h => (hi.notes v n h).grows hg, hi.fresh⟩, hg,
    fun u hu => ⟨hg, fun _ h h' => ⟨h, h'⟩, ?_, rfl⟩⟩
  · intro j c hc
    by_cases hj : j = id
    · subst hj
      rw [hself] at hc
      obtain rfl := Option.some.inj hc
      exact hok (hi.stores j cell hcell)
    · rw [hne j hj] at hc
      exact hi.stores j c hc
  · intro j c hc hl
    by_cases hj : j = id
    · subst hj
      obtain rfl := Option.some.inj (hcell.symm.trans hc)
      exact absurd hl (hfree u hu)
    · exact (hne j hj).trans hc

/-! ## The cores -/

theorem CodecOf.new (m : Method) : CodecOf K M m (Codec.new K m) :=
  ⟨Codec.method_new m, fun _ => .new m⟩

theorem takeCore_parts (hc : CoresOk K M w.cores) (m : Method) :
    PartsOk K M m (takeCore K M m w).1 := by
  have hb : 0 < (List.replicate M.config.sourceBuffer (0 : UInt8)).length := by
    rw [List.length_replicate]
    exact M.given.clamp_sourceBuffer_pos
  have hs : 0 < (List.replicate SKIP_BUFFER (0 : UInt8)).length := by
    rw [List.length_replicate]
    decide
  exact ⟨(popOr_spec (hc.codecs m) (.new m)).1, (popOr_spec hc.buffers hb).1,
    fun hK => (popOr_spec (hc.skips hK) hs).1⟩

theorem takeCore_cores (hc : CoresOk K M w.cores) (m : Method) :
    CoresOk K M (takeCore K M m w).2.cores := by
  have hb : 0 < (List.replicate M.config.sourceBuffer (0 : UInt8)).length := by
    rw [List.length_replicate]
    exact M.given.clamp_sourceBuffer_pos
  have hs : 0 < (List.replicate SKIP_BUFFER (0 : UInt8)).length := by
    rw [List.length_replicate]
    decide
  refine ⟨?_, (popOr_spec hc.buffers hb).2, fun hK => (popOr_spec (hc.skips hK) hs).2⟩
  intro m' x hx
  by_cases h : m' = m
  · subst h
    simp only [takeCore, Function.update_self] at hx
    exact (popOr_spec (hc.codecs m') (.new m')).2 x hx
  · simp only [takeCore, Function.update_of_ne h] at hx
    exact hc.codecs m' x hx

theorem recycleCore_cores (hc : CoresOk K M w.cores) {parts : CoreParts δ ζ}
    (hb : 0 < parts.buf.length) (hs : K.Lawful → 0 < parts.skip.length)
    (hf : K.Blind → FedOnly K M parts.codec) :
    CoresOk K M (recycleCore M parts w).cores := by
  refine ⟨?_, pushUnder_spec hc.buffers hb, fun hK => pushUnder_spec (hc.skips hK) (hs hK)⟩
  intro m x hx
  by_cases h : m = parts.codec.method
  · subst h
    simp only [recycleCore, Function.update_self] at hx
    exact pushUnder_spec (hc.codecs _) ⟨rfl, hf⟩ x hx
  · simp only [recycleCore, Function.update_of_ne h] at hx
    exact hc.codecs m x hx

variable [DecidableEq τ]

theorem keeps_seen (hi : MountInv B G K M w) {notes : List Note}
    (hn : ∀ n ∈ notes, NoteOk G K M w n) :
    Keeps B G K M t w { w with seen := Function.update w.seen t notes } := by
  have hg : Grows M w { w with seen := Function.update w.seen t notes } :=
    ⟨fun h => h, fun _ _ h => h, fun _ _ h => h, fun _ _ h => h, fun _ c h => ⟨c, h, .refl c⟩,
      fun _ h => h⟩
  refine ⟨⟨hi.honest, hi.starts, hi.verdicts, fun fh c h => (hi.files fh c h).grows hg, hi.pools,
    hi.stores, hi.cores, ?_, hi.fresh⟩, hg,
    fun u hu => .of_grows hg rfl rfl rfl (Function.update_of_ne hu ..)⟩
  intro v n hv
  dsimp only at hv
  by_cases h : v = t
  · subst h
    rw [Function.update_self] at hv
    exact (hn n hv).grows hg
  · rw [Function.update_of_ne h] at hv
    exact (hi.notes v n hv).grows hg

/-! ## Every step -/

/-- **Every step keeps the invariant**, and looks to the others like what they rely on. -/
theorem exec_keeps {o : Op δ ζ} {r : Res o} (hi : MountInv B G K M w) (hok : OpOk B G K M t w o)
    (h : exec K M t o w r w') : Keeps B G K M t w w' := by
  rcases h with h | ⟨-, rfl⟩
  swap
  · exact keeps_of_shown hi rfl
  cases o with
  | cell i => exact .of_some h (keeps_of_shown hi rfl)
  | short => exact .of_some h (keeps_of_shown hi rfl)
  | fstat => exact .of_some h (keeps_of_shown hi rfl)
  | statNamed =>
      simp only [det] at h
      split at h
      · exact .of_some h (keeps_of_shown hi rfl)
      · exact .of_some h (keeps_of_shown hi rfl)
  | loadStale => exact .of_some h (keeps_of_shown hi rfl)
  | swapStale => exact .of_some h (keeps_of_shown hi rfl)
  | loadUnsure => exact .of_some h (keeps_of_shown hi rfl)
  | swapUnsure b => exact .of_some h (keeps_of_shown hi rfl)
  | loadDataStart i => exact .of_some h (keeps_of_shown hi rfl)
  | storeDataStart i start => exact .of_some h (keeps_storeDataStart hi hok)
  | loadVerify i => exact .of_some h (keeps_of_shown hi rfl)
  | storeVerify i state => exact .of_some h (keeps_storeVerify hi hok)
  | getSymlink slot => exact .of_some h (keeps_of_shown hi rfl)
  | setSymlink slot target =>
      simp only [det] at h
      split at h
      · split at h
        · exact .of_some h (keeps_of_shown hi rfl)
        · exact .of_some h (keeps_of_shown hi rfl)
      · exact .of_some h (keeps_of_shown hi rfl)
  | nextHandle => exact .of_some h (keeps_nextHandle hi)
  | insertHandle fh file =>
      exact .of_some h ((keeps_insertHandle hi hok ⟨file, 1, true⟩ rfl).shown rfl)
  | getHandle fh =>
      simp only [det] at h
      split at h
      · rename_i cell hcell
        split at h
        · exact .of_some h
            ((keeps_setFile hi hcell { cell with refs := cell.refs + 1 } rfl).shown rfl)
        · exact .of_some h (keeps_of_shown hi rfl)
      · exact .of_some h (keeps_of_shown hi rfl)
  | removeHandle fh =>
      simp only [det] at h
      split at h
      · rename_i cell hcell
        split at h
        · exact .of_some h ((keeps_setFile hi hcell { cell with listed := false } rfl).shown rfl)
        · exact .of_some h (keeps_of_shown hi rfl)
      · exact .of_some h (keeps_of_shown hi rfl)
  | dropFile fh =>
      simp only [det] at h
      split at h
      · rename_i cell hcell
        exact .of_some h
          ((keeps_setFile hi hcell { cell with refs := cell.refs - 1 } rfl).shown rfl)
      · exact absurd h (by simp)
  | newStore loc i => exact .of_some h (keeps_newStore hi hok)
  | lockStore id =>
      simp only [det] at h
      split at h
      · rename_i cell hcell
        split at h
        · exact absurd h (by simp)
        · rename_i hfree
          have hlock : cell.lock = none := by simpa using hfree
          refine .of_some h
            (keeps_setStore hi hcell (by simp [hlock]) ⟨rfl, rfl, List.prefix_refl _⟩ ?_)
          intro hs
          obtain ⟨m, hm, hpos, -⟩ := hs.entry
          exact ⟨hs.stored, hs.inside, m, hm, hpos, by simp⟩
      · exact absurd h (by simp)
  | record id offset len =>
      obtain ⟨cell, hcell, hlock, hin⟩ := hok
      simp only [det, hcell] at h
      refine .of_some h (keeps_setStore hi hcell ?_ ⟨rfl, rfl, List.prefix_append _ _⟩ ?_)
      · intro u hu heq
        rw [hlock] at heq
        exact hu (Option.some.inj heq).symm
      · intro hs
        obtain ⟨m, hm, hpos, -⟩ := hs.entry
        refine ⟨hs.stored, ?_, m, hm, hpos, fun hnone => ?_⟩
        · intro b hb
          rcases List.mem_append.mp hb with hb | hb
          · exact hs.inside b hb
          · rw [List.mem_singleton.mp hb]
            exact hin
        · exact absurd (hlock.symm.trans hnone) (by simp)
  | unlockStore id state =>
      obtain ⟨cell, hcell, hlock, hstate⟩ := hok
      simp only [det, hcell] at h
      refine .of_some h (keeps_setStore hi hcell ?_ ⟨rfl, rfl, List.prefix_refl _⟩ ?_)
      · intro u hu heq
        rw [hlock] at heq
        exact hu (Option.some.inj heq).symm
      · intro hs
        obtain ⟨m, hm, hpos, -⟩ := hs.entry
        exact ⟨hs.stored, hs.inside, m, hm, hpos, fun _ => hstate m hm.entry⟩
  | newPool loc cap i kept => exact .of_some h ((keeps_newPool hi _ hok).shown rfl)
  | pick id offset =>
      simp only [det] at h
      split at h
      · rename_i cell hcell
        split at h
        · exact absurd h (by simp)
        · split at h
          · rename_i d rewind rest hpick
            have hsub : ∀ x ∈ rest, x ∈ cell.idle := fun x hx =>
              (pickIdle_spec hpick).1.mem_iff.mpr (List.mem_cons_of_mem d hx)
            exact .of_some h ((keeps_pools hi hcell hsub).shown rfl)
          · exact .of_some h (keeps_of_shown hi rfl)
      · exact absurd h (by simp)
  | lockIdle id =>
      simp only [det] at h
      split at h
      · rename_i cell hcell
        split at h
        · exact absurd h (by simp)
        · exact .of_some h (keeps_pools hi hcell fun _ hd => hd)
      · exact absurd h (by simp)
  | pushIdle id d =>
      simp only [det] at h
      split at h
      · rename_i cell hcell
        have hk : Keeps B G K M t w (w.setPool id { cell with idle := cell.idle ++ [d] }) := by
          refine keeps_setPool hi hcell rfl rfl rfl ?_
          intro m hm hall x hx
          rcases List.mem_append.mp hx with hx | hx
          · exact hall x hx
          · rw [List.mem_singleton.mp hx]
            exact hok cell hcell m hm.entry
        exact .of_some h (hk.shown rfl)
      · exact absurd h (by simp)
  | unlockIdle id =>
      simp only [det] at h
      split at h
      · rename_i cell hcell
        exact .of_some h (keeps_pools hi hcell fun _ hd => hd)
      · exact absurd h (by simp)
  | takeIdle id =>
      simp only [det] at h
      split at h
      · rename_i cell hcell
        split at h
        · exact absurd h (by simp)
        · exact .of_some h ((keeps_pools hi hcell (by simp)).shown rfl)
      · exact absurd h (by simp)
  | tryRetain =>
      simp only [det] at h
      split at h
      · exact .of_some h (keeps_of_shown hi rfl)
      · exact .of_some h (keeps_of_shown hi rfl)
  | releaseRetain => exact .of_some h (keeps_of_shown hi rfl)
  | takeCore m => exact .of_some h ((keeps_cores hi (takeCore_cores hi.cores m)).shown rfl)
  | recycleCore parts =>
      exact .of_some h
        ((keeps_cores hi (recycleCore_cores hi.cores hok.1 hok.2.1 hok.2.2)).shown rfl)
  | getScratch => exact .of_some h (keeps_of_shown hi rfl)
  | putScratch buf => exact .of_some h (keeps_of_shown hi rfl)
  | note n =>
      refine .of_some h (keeps_seen hi ?_)
      intro x hx
      rcases List.mem_append.mp hx with hx | hx
      · exact hi.notes t x hx
      · rw [List.mem_singleton.mp hx]
        exact hok
  | halt => exact absurd h (by simp [det])

end Steps

end ZipFs
