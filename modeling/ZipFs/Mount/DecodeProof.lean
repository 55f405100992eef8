import ZipFs.Mount.GuardProof

/-!
# What decoders produce

One specification for each function of `src/source.rs` and `src/decode.rs`, all of
them about `DecoderOk`: a decoder stays one whatever happens to it, also when the
archive cannot be read or the codec fails in the middle of a step, and what it
writes into its output is what comes next in the decoded stream.

None of this depends on the state of the mount. The source reads the archive through
the guard, so it has only mounted bytes to work with.
-/

namespace ZipFs

open Lib (Safe Meets lasting_true)

variable {τ δ ζ : Type} [DecidableEq τ] {B G : Prop} {K : Codecs δ ζ} {M : Mount}

/-! ## Ranges -/

/-- A piece of the range further on is a piece of the archive. -/
theorem range_drop (start len k : Nat) :
    (M.range start len).drop k = (M.archive.drop (start + k)).take (len - k) := by
  unfold Mount.range
  rw [List.drop_take, List.drop_drop]

theorem length_range (start len : Nat) :
    (M.range start len).length = min len (M.archive.length - start) := by
  unfold Mount.range
  rw [List.length_take, List.length_drop]

/-! ## The source -/

namespace SourceOk

variable {loc : EntryLocation} {s : BufSource}

theorem length_window (h : SourceOk M loc s) : s.window.length = s.filled - s.pos := by
  have := h.filled
  unfold BufSource.window
  rw [List.length_drop, List.length_take]
  omega

/-- The window is what comes next in the range. -/
theorem window_range (h : SourceOk M loc s) :
    s.window <+: (loc.range M).drop (s.consumed + s.pos) := by
  unfold BufSource.window
  rw [h.held, List.drop_take, List.drop_drop]
  exact List.take_prefix _ _

/-- So it is a piece of the archive. -/
theorem window_archive (h : SourceOk M loc s) :
    s.window <+: M.archive.drop (s.start + s.consumed + s.pos) := by
  refine h.window_range.trans ?_
  unfold EntryLocation.range
  rw [range_drop, h.start, Nat.add_assoc]
  exact List.take_prefix _ _

theorem window_infix (h : SourceOk M loc s) : s.window <:+: M.archive :=
  h.window_archive.isInfix.trans (List.drop_suffix _ _).isInfix

theorem drained (h : SourceOk M loc s) : SourceOk M loc s.drained :=
  ⟨h.start, h.len, Nat.le_refl _, Nat.zero_le _, h.inside, by simp [BufSource.drained], h.room⟩

theorem consume (h : SourceOk M loc s) (n : Nat) : SourceOk M loc (s.consume n) :=
  ⟨h.start, h.len, Nat.min_le_right _ _, h.filled, h.inside, h.held, h.room⟩

/-- Consuming no more than the window moves the cursor that far. -/
theorem cursor_consume (h : SourceOk M loc s) {n : Nat} (hn : n ≤ s.window.length) :
    (s.consume n).consumed + (s.consume n).pos = s.consumed + s.pos + n := by
  rw [h.length_window] at hn
  have := h.pos
  simp only [BufSource.consume]
  omega

/-- A source over a buffer, whatever the buffer holds. -/
theorem new (loc : EntryLocation) {buf : Bytes} (hb : 0 < buf.length) :
    SourceOk M loc (BufSource.new loc.dataStart loc.compressedSize buf) :=
  ⟨rfl, rfl, Nat.le_refl _, Nat.zero_le _, Nat.zero_le _, by simp [BufSource.new], hb⟩

theorem retarget (loc : EntryLocation) (hb : 0 < s.buf.length) :
    SourceOk M loc (s.retarget loc.dataStart loc.compressedSize) :=
  ⟨rfl, rfl, Nat.le_refl _, Nat.zero_le _, Nat.zero_le _,
    by simp [BufSource.retarget, BufSource.rewind], hb⟩

/-- A refill that succeeded: the buffer holds the next bytes of the range. -/
theorem refilled (h : SourceOk M loc s) (hempty : s.filled = 0) (hpos : s.pos = 0) {want : Nat}
    {got : Bytes} (hwant : want = min (s.len - s.consumed) s.buf.length)
    (hlen : got.length = want) (hgot : got <+: M.archive.drop (s.start + s.consumed)) :
    SourceOk M loc { s with buf := got ++ s.buf.drop want, filled := want } := by
  have hl : got.length ≤ M.archive.length - (s.start + s.consumed) := by
    have := hgot.length_le
    rwa [List.length_drop] at this
  have hroom := h.room
  have hrange := length_range (M := M) loc.dataStart loc.compressedSize
  have hstart := h.start
  have hslen := h.len
  have hinside := h.inside
  unfold EntryLocation.range at hinside
  refine ⟨hstart, hslen, by dsimp only; omega, ?_, ?_, ?_, ?_⟩
  · simp only [List.length_append, List.length_drop]
    omega
  · dsimp only
    unfold EntryLocation.range
    omega
  · dsimp only
    unfold EntryLocation.range
    rw [range_drop, List.take_take, List.take_left' hlen, ← hstart, ← hslen,
      Nat.min_eq_left (by omega), ← hlen]
    exact List.prefix_iff_eq_take.mp hgot
  · simp only [List.length_append, List.length_drop]
    omega

/-- A refill that failed may have overwritten the buffer, which holds nothing anyway. -/
theorem spoiled (h : SourceOk M loc s) (hempty : s.filled = 0) {want : Nat} {got : Bytes}
    (hlen : got.length = want) (hwant : want ≤ s.buf.length) :
    SourceOk M loc { s with buf := got ++ s.buf.drop want } := by
  have hroom := h.room
  refine ⟨h.start, h.len, h.pos, ?_, h.inside, ?_, ?_⟩
  · dsimp only
    omega
  · dsimp only
    rw [hempty, List.take_zero, List.take_zero]
  · simp only [List.length_append, List.length_drop]
    omega

end SourceOk

variable (B M) in
/-- What `fill_buf` leaves and returns. -/
structure FillOk (loc : EntryLocation) (s : BufSource) (x : BufSource × Except IoError Bytes) :
    Prop where
  src : SourceOk M loc x.1
  /-- Nothing is lost or repeated. -/
  cursor : x.1.consumed + x.1.pos = s.consumed + s.pos
  window : ∀ input, x.2 = .ok input → input = x.1.window
  /-- An empty window means that the range has run out. -/
  dry : x.2 = .ok [] → (loc.range M).length ≤ s.consumed + s.pos
  /-- It fails for good only where the range sticks out of the archive. -/
  failed : ∀ e, x.2 = .error e → provesBad e = true →
    B ∨ M.archive.length < loc.dataStart + loc.compressedSize

theorem fillBuf_does {loc : EntryLocation} {s : BufSource} (hs : SourceOk M loc s) :
    Does B G K M (Anywhere (τ := τ)) (s.fillBuf M) (FillOk B M loc s) := by
  unfold BufSource.fillBuf
  split
  · rename_i hpos
    have hd := hs.drained
    have hcur : s.drained.consumed + s.drained.pos = s.consumed + s.pos := by
      simp only [BufSource.drained]
      omega
    have hsize : (loc.range M).length ≤ s.len := by
      unfold EntryLocation.range
      rw [length_range, hs.len]
      exact Nat.min_le_left _ _
    dsimp only
    split
    · rename_i hrem
      refine .pure ⟨hd, hcur, ?_, ?_, by simp⟩
      · intro input h
        obtain rfl := Except.ok.inj h
        simp [BufSource.window, BufSource.drained]
      · intro _
        simp only [BufSource.drained] at hrem
        omega
    · rename_i hrem
      have hroom := hs.room
      have htake : (s.drained.buf.take
          (min (s.drained.len - s.drained.consumed) s.drained.buf.length)).length =
            min (s.drained.len - s.drained.consumed) s.drained.buf.length := by
        rw [List.length_take]
        omega
      refine Meets.bind lasting_true (readExactAt_does _ _) ?_
      intro x h
      rcases x with ⟨got, r⟩
      rcases h with ⟨hlen, hgot, hfailed⟩
      rw [htake] at hlen hfailed
      cases r with
      | error e =>
          refine .pure ⟨hd.spoiled rfl hlen (Nat.min_le_right _ _), hcur, by simp, by simp, ?_⟩
          intro e' he hb
          refine (hfailed e (by rw [Except.error.inj he]) (Except.error.inj he ▸ hb)).imp_right ?_
          -- the piece that was asked for lies inside the range
          have hstart : s.drained.start = loc.dataStart := hs.start
          have hslen : s.drained.len = loc.compressedSize := hs.len
          omega
      | ok _ =>
          refine .pure ⟨hd.refilled rfl rfl rfl hlen (hgot rfl), hcur, ?_, ?_, by simp⟩
          · intro input h
            exact (Except.ok.inj h).symm
          · intro h
            have hw := (hd.refilled rfl rfl rfl hlen (hgot rfl)).length_window
            have hnil := congrArg List.length (Except.ok.inj h)
            simp only [List.length_nil] at hnil
            have : 0 < s.drained.buf.length := hroom
            have hp : s.drained.pos = 0 := rfl
            dsimp only at hw hnil
            omega
  · rename_i hpos
    refine .pure ⟨hs, rfl, ?_, ?_, by simp⟩
    · intro input h
      exact (Except.ok.inj h).symm
    · intro h
      have hw := hs.length_window
      have hle := hs.pos
      have hnil := congrArg List.length (Except.ok.inj h)
      simp only [List.length_nil] at hnil
      omega

/-! ## Where bytes come from -/

/-- Whatever the output buffer holds, a codec that is fed a piece of the archive has been fed only
such pieces. -/
theorem FedOnly.stepped (hb : K.Blind) {c : Codec δ ζ} (h : FedOnly K M c) {inp : Bytes}
    (hinp : inp <:+: M.archive) (out : Bytes) : FedOnly K M (c.step K inp out).1 := by
  have hlen : out.length = (List.replicate out.length (0 : UInt8)).length := by simp
  rw [(Codec.step_blind hb c inp hlen).1]
  exact .step inp out.length h hinp

/-! ## Decoders made and reset -/

namespace DecoderShape

variable {loc : EntryLocation} {total : Nat} {d : PositionedDecoder δ ζ}

theorem new {parts : CoreParts δ ζ} (h : PartsOk K M loc.method parts) :
    DecoderShape K M loc total (.new K loc parts M.config.verify) :=
  ⟨.new loc h.buf, (Codec.method_reinit _).trans h.codec.method,
    fun hb => .reinit (h.codec.fed hb), fun hv => absurd hv (by simp [PositionedDecoder.new]),
    h.skip⟩

theorem reinit (h : DecoderShape K M loc total d) :
    DecoderShape K M loc total (d.reinit K loc) :=
  ⟨.retarget loc h.src.room, (Codec.method_reinit _).trans h.method, fun hb => .reinit (h.fed hb),
    fun hv => absurd hv (by simp [PositionedDecoder.reinit]), h.skip⟩

theorem withSource (h : DecoderShape K M loc total d) {src : BufSource}
    (hsrc : SourceOk M loc src) : DecoderShape K M loc total { d with src := src } :=
  ⟨hsrc, h.method, h.fed, h.verified, h.skip⟩

/-- The decoder after a step of its codec, however that went. -/
theorem stepped (h : DecoderShape K M loc total d) {src : BufSource} (hsrc : SourceOk M loc src)
    {inp out out' : Bytes} {codec : Codec δ ζ} {r : Except CodecError Step}
    (hinp : inp <:+: M.archive) (hstep : d.codec.step K inp out = (codec, out', r)) :
    DecoderShape K M loc total { d with src := src, codec := codec } := by
  have hcodec : codec = (d.codec.step K inp out).1 := by rw [hstep]
  refine ⟨hsrc, ?_, fun hb => ?_, h.verified, h.skip⟩
  · rw [hcodec]
    exact (Codec.method_step ..).trans h.method
  · rw [hcodec]
    exact (h.fed hb).stepped hb hinp out

theorem advance (h : DecoderShape K M loc total d) (data : Bytes) (done : Bool) :
    DecoderShape K M loc total (d.advance data done) :=
  ⟨h.src, h.method, h.fed, fun hv => Nat.le_trans (h.verified hv) (Nat.le_add_right _ _),
    h.skip⟩

end DecoderShape

namespace DecoderOk

variable {loc : EntryLocation} {total : Nat} {d : PositionedDecoder δ ζ}

/-- A new decoder, whatever its parts were used for before. -/
theorem new {parts : CoreParts δ ζ} (h : PartsOk K M loc.method parts) :
    DecoderOk K M loc total (.new K loc parts M.config.verify) := by
  refine ⟨.new h, Nat.zero_le _, ?_, ?_, ?_⟩
  · simp only [PositionedDecoder.new, List.take_zero]
    rfl
  · intro _ _
    simp only [PositionedDecoder.new, List.take_zero]
    exact Codec.fed_reinit _ _
  · intro h
    exact absurd h (by simp [PositionedDecoder.new])

/-- A rewound decoder, wherever it was and whatever happened to it. -/
theorem reinit (h : DecoderOk K M loc total d) : DecoderOk K M loc total (d.reinit K loc) := by
  refine ⟨h.toDecoderShape.reinit, Nat.zero_le _, ?_, ?_, ?_⟩
  · simp only [PositionedDecoder.reinit, h.crc, List.take_zero]
    split
    · rfl
    · rfl
  · intro _ _
    simp only [PositionedDecoder.reinit, List.take_zero]
    exact Codec.fed_reinit _ _
  · intro h
    exact absurd h (by simp [PositionedDecoder.reinit])

theorem withSkip (h : DecoderOk K M loc total d) (skip : Bytes)
    (hs : K.Lawful → 0 < skip.length) : DecoderOk K M loc total { d with skip := skip } :=
  ⟨⟨h.src, h.method, h.fed, h.verified, hs⟩, h.pos, h.crc, h.running, h.finished⟩

theorem withVerified (h : DecoderOk K M loc total d) {b : Bool} (hb : b = true → total ≤ d.pos) :
    DecoderOk K M loc total { d with verified := b } :=
  ⟨⟨h.src, h.method, h.fed, hb, h.skip⟩, h.pos, h.crc, h.running, h.finished⟩

end DecoderOk

theorem PooledOk.new {loc : EntryLocation} {total : Nat} {parts : CoreParts δ ζ}
    (h : PartsOk K M loc.method parts) :
    PooledOk G K M loc total (.new K loc parts M.config.verify) :=
  ⟨.new h, fun _ => .new h⟩

theorem PooledOk.reinit {loc : EntryLocation} {total : Nat} {d : PositionedDecoder δ ζ}
    (h : PooledOk G K M loc total d) : PooledOk G K M loc total (d.reinit K loc) :=
  ⟨h.shape.reinit, fun g => (h.good g).reinit⟩

/-! ## One step of the pump -/

variable (B K M) in
/-- A location whose bytes cannot be read to the end, whatever is tried. -/
def Unreadable (loc : EntryLocation) : Prop :=
  B ∨ M.archive.length < loc.dataStart + loc.compressedSize ∨
    (K.Live → (loc.stream K M).clean = false)

theorem Unreadable.spoilt {loc : EntryLocation} (h : Unreadable B K M loc) (m : EntryMeta) :
    Spoilt B K M loc m := by
  refine h.imp_right (Or.imp_right fun hl hlive hok => ?_)
  exact absurd (hok.clean.symm.trans (hl hlive)) (by simp)

variable (B K M) in
/-- What a step of the pump on `d` with the output buffer `out` leaves and returns. -/
structure PumpOk (loc : EntryLocation) (total : Nat) (d : PositionedDecoder δ ζ) (out : Bytes)
    (x : PositionedDecoder δ ζ × Bytes × Except IoError Nat) : Prop where
  decoder : DecoderOk K M loc total x.1
  room : x.2.1.length = out.length
  verified : x.1.verified = d.verified
  skip : x.1.skip = d.skip
  failed : ∀ e, x.2.2 = .error e →
    x.1.pos = d.pos ∧ (provesBad e = true → Unreadable B K M loc)
  /-- The bytes produced are the next ones of the stream, and none only at its end. -/
  produced : ∀ n, x.2.2 = .ok n → n ≤ out.length ∧ x.1.pos = d.pos + n ∧
    x.2.1.take n = ((loc.stream K M).bytes.drop d.pos).take n ∧ (n = 0 → x.1.finished = true)
  sound : ∀ n, x.2.2 = .ok n → x.1.failed = false

section Pump

variable {loc : EntryLocation} {total : Nat} {d : PositionedDecoder δ ζ}

/-- What follows a prefix of a list. -/
theorem take_add_of_isPrefix_append {xs ys : Bytes} {k : Nat} (hk : k ≤ xs.length)
    (h : xs.take k ++ ys <+: xs) :
    xs.take (k + ys.length) = xs.take k ++ ys ∧ (xs.drop k).take ys.length = ys := by
  have hlen : (xs.take k ++ ys).length = k + ys.length := by
    rw [List.length_append, List.length_take, Nat.min_eq_left hk]
  have htake : xs.take (k + ys.length) = xs.take k ++ ys := by
    rw [← hlen]
    exact (List.prefix_iff_eq_take.mp h).symm
  refine ⟨htake, ?_⟩
  rw [List.take_add] at htake
  exact List.append_cancel_left htake

/-- The decoder after a step that produced nothing and did not end the stream. -/
theorem DecoderOk.stepped (h : DecoderOk K M loc total d) (hfin : d.finished = false)
    {src : BufSource} {codec : Codec δ ζ}
    (hshape : DecoderShape K M loc total { d with src := src, codec := codec })
    (hcodec : d.failed = false → codec.Fed K (loc.range M) (src.consumed + src.pos)
      ((loc.stream K M).bytes.take d.pos)) :
    DecoderOk K M loc total { d with src := src, codec := codec } :=
  ⟨hshape, h.pos, h.crc, fun hf _ => hcodec hf, fun hf => absurd hf (by simp [hfin])⟩

/-- The decoder after a step that failed. Of its codec nothing is known any more. -/
theorem DecoderOk.broken (h : DecoderOk K M loc total d) (hfin : d.finished = false)
    {src : BufSource} {codec : Codec δ ζ}
    (hshape : DecoderShape K M loc total { d with src := src, codec := codec }) :
    DecoderOk K M loc total { d with src := src, codec := codec, failed := true } :=
  ⟨⟨hshape.src, hshape.method, hshape.fed, hshape.verified, hshape.skip⟩, h.pos, h.crc,
    fun hf => absurd hf (by simp), fun hf => absurd hf (by simp [hfin])⟩

/-- The decoder after a step that ended the stream without producing anything. -/
theorem DecoderOk.ended (h : DecoderOk K M loc total d) {src : BufSource} {codec : Codec δ ζ}
    (hshape : DecoderShape K M loc total { d with src := src, codec := codec })
    (hend : (loc.stream K M).bytes.take d.pos = (loc.stream K M).bytes)
    (hclean : (loc.stream K M).clean = true) :
    DecoderOk K M loc total { d with src := src, codec := codec, finished := true } := by
  refine ⟨⟨hshape.src, hshape.method, hshape.fed, hshape.verified, hshape.skip⟩, h.pos,
    h.crc, by simp,
    fun _ => ⟨?_, hclean⟩⟩
  have hlen := congrArg List.length hend
  rw [List.length_take] at hlen
  have := h.pos
  dsimp only
  omega

/-- The decoder after a step that produced `data`. -/
theorem DecoderOk.advance (h : DecoderOk K M loc total d) (hfin : d.finished = false)
    {src : BufSource} {codec : Codec δ ζ}
    (hshape : DecoderShape K M loc total { d with src := src, codec := codec }) {data : Bytes}
    {done : Bool}
    (hout : (loc.stream K M).bytes.take d.pos ++ data <+: (loc.stream K M).bytes)
    (hdone : done = true → (loc.stream K M).bytes.take d.pos ++ data = (loc.stream K M).bytes ∧
      (loc.stream K M).clean = true)
    (hmore : done = false → codec.Fed K (loc.range M) (src.consumed + src.pos)
      ((loc.stream K M).bytes.take d.pos ++ data)) :
    DecoderOk K M loc total
      (({ d with src := src, codec := codec } : PositionedDecoder δ ζ).advance data done) := by
  obtain ⟨htake, -⟩ := take_add_of_isPrefix_append h.pos hout
  have hlen : d.pos + data.length ≤ (loc.stream K M).bytes.length := by
    have := hout.length_le
    rw [List.length_append, List.length_take, Nat.min_eq_left h.pos] at this
    exact this
  refine ⟨hshape.advance data done, hlen, ?_, ?_, ?_⟩
  · simp only [PositionedDecoder.advance, h.crc, htake]
    split
    · rw [Option.map_some, Crc.update_append]
    · rfl
  · simp only [PositionedDecoder.advance, htake, hfin, Bool.false_or]
    exact fun _ hnot => hmore hnot
  · simp only [PositionedDecoder.advance, hfin, Bool.false_or]
    intro hd
    obtain ⟨hend, hclean⟩ := hdone hd
    have hlen := congrArg List.length hend
    rw [List.length_append, List.length_take, Nat.min_eq_left h.pos] at hlen
    exact ⟨hlen, hclean⟩

/-- What the codec has been fed is what has left the source, once the source has been filled. -/
theorem DecoderOk.fed_filled (hd : DecoderOk K M loc total d) (hf : d.failed = false)
    (hfin : d.finished = false) {x : BufSource × Except IoError Bytes}
    (hx : FillOk B M loc d.src x) :
    d.codec.Fed K (loc.range M) (x.1.consumed + x.1.pos) ((loc.stream K M).bytes.take d.pos) := by
  rw [hx.cursor]
  exact hd.running hf hfin

/-- The codec is offered nothing only when the range has run out. -/
theorem FillOk.empty {s src : BufSource} (hx : FillOk B M loc s (src, .ok src.window)) :
    src.window = [] → (loc.range M).length ≤ src.consumed + src.pos := by
  intro hnil
  have hcur : src.consumed + src.pos = s.consumed + s.pos := hx.cursor
  rw [hcur]
  exact hx.dry (by rw [hnil])

/-- What a successful step of the codec achieves, once the source has been filled. -/
structure CodecOk (loc : EntryLocation) (total : Nat) (d : PositionedDecoder δ ζ)
    (src : BufSource) (out out' : Bytes) (codec : Codec δ ζ) (step : Step) : Prop where
  ok : Decompressor.StepOk (loc.stream K M) ((loc.stream K M).bytes.take d.pos) src.window out out'
    step
  room : out'.length = out.length
  shape : DecoderShape K M loc total { d with src := src.consume step.consumed, codec := codec }
  fed : step.done = false → (src.window = [] → 0 < step.produced) → codec.Fed K (loc.range M)
    ((src.consume step.consumed).consumed + (src.consume step.consumed).pos)
    ((loc.stream K M).bytes.take d.pos ++ out'.take step.produced)

theorem DecoderOk.codec_ok (hK : K.Lawful) (hd : DecoderOk K M loc total d)
    (hf : d.failed = false) (hfin : d.finished = false) {src : BufSource}
    (hfill : FillOk B M loc d.src (src, .ok src.window)) {out out' : Bytes} (hout : out ≠ [])
    {codec : Codec δ ζ} {step : Step}
    (hstep : d.codec.step K src.window out = (codec, out', .ok step)) :
    CodecOk (K := K) (M := M) loc total d src out out' codec step := by
  have hroom := Codec.step_room hK d.codec src.window out
  rw [hstep] at hroom
  obtain ⟨hok, hmore⟩ := Codec.step_ok hK (hd.fed_filled hf hfin hfill) hfill.src.window_range
    hfill.empty hout hstep
  rw [hd.method] at hok
  rw [← hfill.src.cursor_consume hok.consumed] at hmore
  exact ⟨hok, hroom, hd.toDecoderShape.stepped (hfill.src.consume step.consumed)
    hfill.src.window_infix hstep, hmore⟩

/-- On a range that decodes cleanly a codec neither fails nor stalls. -/
theorem DecoderOk.unclean (hd : DecoderOk K M loc total d) (hf : d.failed = false)
    (hfin : d.finished = false) {src : BufSource}
    (hfill : FillOk B M loc d.src (src, .ok src.window)) {out : Bytes} (hout : out ≠ [])
    (hnot : ∀ codec out' step, d.codec.step K src.window out = (codec, out', .ok step) →
      step.done = false ∧ step.consumed = 0 ∧ step.produced = 0 ∧ src.window ≠ []) :
    K.Live → (loc.stream K M).clean = false := by
  intro hl
  by_contra hclean
  have hclean' : (K.stream d.codec.method (loc.range M)).clean = true := by
    rw [hd.method]
    exact (Bool.not_eq_false _).mp hclean
  obtain ⟨codec, out', step, hstep, hgo⟩ := Codec.step_live hl (hd.fed_filled hf hfin hfill)
    hfill.src.window_range hfill.empty hout hclean'
  obtain ⟨hdone, hzero, hnone, hne⟩ := hnot codec out' step hstep
  exact hne (hgo hdone hzero hnone)

/-- The decoder after a step that only consumed some of its input. -/
theorem CodecOk.consumed {src : BufSource} {out out' : Bytes} {codec : Codec δ ζ} {step : Step}
    (hc : CodecOk (K := K) (M := M) loc total d src out out' codec step)
    (hd : DecoderOk K M loc total d) (hfin : d.finished = false) (hzero : step.produced = 0)
    (hdone : step.done = false) (hin : src.window ≠ []) :
    DecoderOk K M loc total { d with src := src.consume step.consumed, codec := codec } := by
  refine hd.stepped hfin hc.shape fun _ => ?_
  have hfed := hc.fed hdone fun hnil => absurd hnil hin
  rw [hzero, List.take_zero, List.append_nil] at hfed
  exact hfed

/-- A step that consumed something had some input. -/
theorem CodecOk.ne_window {src : BufSource} {out out' : Bytes} {codec : Codec δ ζ} {step : Step}
    (hc : CodecOk (K := K) (M := M) loc total d src out out' codec step)
    (hsome : step.consumed ≠ 0) : src.window ≠ [] := by
  intro hnil
  have hle := hc.ok.consumed
  rw [hnil, List.length_nil] at hle
  exact hsome (Nat.le_zero.mp hle)

theorem CodecOk.ne_nil {src : BufSource} {out out' : Bytes} {codec : Codec δ ζ} {step : Step}
    (hc : CodecOk (K := K) (M := M) loc total d src out out' codec step) (hout : out ≠ []) :
    out' ≠ [] := by
  intro hnil
  have hroom := hc.room
  rw [hnil] at hroom
  exact hout (List.length_eq_zero_iff.mp hroom.symm)

/-- A step that produced some bytes. -/
theorem CodecOk.pump_produced {src : BufSource} {out out' : Bytes} {codec : Codec δ ζ}
    {step : Step} (hc : CodecOk (K := K) (M := M) loc total d src out out' codec step)
    (hd : DecoderOk K M loc total d) (hf : d.failed = false) (hfin : d.finished = false)
    (hpos : 0 < step.produced) :
    PumpOk B K M loc total d out
      (({ d with codec := codec, src := src.consume step.consumed } :
        PositionedDecoder δ ζ).advance (out'.take step.produced) step.done, out',
        .ok step.produced) := by
  have hlen : (out'.take step.produced).length = step.produced := by
    rw [List.length_take, hc.room]
    exact Nat.min_eq_left hc.ok.produced
  refine ⟨hd.advance hfin hc.shape hc.ok.output hc.ok.done fun hdone => hc.fed hdone fun _ => hpos,
    hc.room, rfl, rfl, by simp, ?_, fun _ _ => hf⟩
  intro n hn
  obtain rfl := Except.ok.inj hn
  refine ⟨hc.ok.produced, ?_, ?_, by omega⟩
  · simp only [PositionedDecoder.advance, hlen]
  · have hnext := (take_add_of_isPrefix_append hd.pos hc.ok.output).2
    rw [hlen] at hnext
    exact hnext.symm

/-- A step that found the end of the stream. -/
theorem CodecOk.pump_ended {src : BufSource} {out out' : Bytes} {codec : Codec δ ζ}
    {step : Step} (hc : CodecOk (K := K) (M := M) loc total d src out out' codec step)
    (hd : DecoderOk K M loc total d) (hf : d.failed = false)
    (hend : (loc.stream K M).bytes.take d.pos = (loc.stream K M).bytes)
    (hclean : (loc.stream K M).clean = true) :
    PumpOk B K M loc total d out
      ({ d with codec := codec, src := src.consume step.consumed, finished := true }, out',
        .ok 0) := by
  refine ⟨hd.ended hc.shape hend hclean, hc.room, rfl, rfl, by simp, ?_, fun _ _ => hf⟩
  intro n hn
  obtain rfl := Except.ok.inj hn
  exact ⟨Nat.zero_le _, rfl, rfl, fun _ => rfl⟩

/-- The loop, from a decoder that is in order and has not reached the end of its stream. -/
theorem pumpLoop_does (hK : K.Lawful) (turns : Nat) (hd : DecoderOk K M loc total d)
    (hf : d.failed = false) (hfin : d.finished = false) {out : Bytes} (hout : out ≠ []) :
    Does B G K M (Anywhere (τ := τ)) (PositionedDecoder.pumpLoop K M turns d out)
      (PumpOk B K M loc total d out) := by
  induction turns generalizing d out with
  | zero => exact meets_halt
  | succ turns ih =>
      unfold PositionedDecoder.pumpLoop
      refine Meets.bind lasting_true (fillBuf_does hd.src) ?_
      intro x hfill
      have hcodec := hd.fed_filled hf hfin hfill
      rcases x with ⟨src, filled⟩
      have hsrc : SourceOk M loc src := hfill.src
      cases filled with
      | error e =>
          refine .pure ⟨hd.stepped hfin (hd.withSource hsrc) fun _ => hcodec, rfl, rfl, rfl, ?_,
            by simp, by simp⟩
          intro e' he
          refine ⟨rfl, fun hb => ?_⟩
          exact (hfill.failed e' (by rw [Except.error.inj he]) hb).imp_right .inl
      | ok input =>
          obtain rfl : input = src.window := hfill.window input rfl
          refine Meets.bind lasting_true (meets_note fun _ => hsrc.window_archive) fun _ _ => ?_
          refine Meets.bind lasting_true (meets_note fun _ => trivial) fun _ _ => ?_
          rcases hstep : d.codec.step K src.window out with ⟨codec, out', e | step⟩
          · have hroom := Codec.step_room hK d.codec src.window out
            rw [hstep] at hroom
            have hbad : Unreadable B K M loc := by
              refine .inr (.inr (hd.unclean hf hfin hfill hout ?_))
              intro codec' out'' step' hstep'
              exact absurd (hstep.symm.trans hstep') (by simp)
            have hd' := hd.broken hfin (hd.toDecoderShape.stepped hsrc hsrc.window_infix hstep)
            exact .pure ⟨hd', hroom, rfl, rfl, fun _ _ => ⟨rfl, fun _ => hbad⟩, by simp, by simp⟩
          · have hc := hd.codec_ok hK hf hfin hfill hout hstep
            dsimp only
            split
            · rename_i hpos
              exact .pure (hc.pump_produced hd hf hfin hpos)
            rename_i hnone
            have hzero : step.produced = 0 := by omega
            split
            · -- the codec announced the end
              rename_i hdone
              obtain ⟨hend, hclean⟩ := hc.ok.done hdone
              rw [hzero, List.take_zero, List.append_nil] at hend
              exact .pure (hc.pump_ended hd hf hend hclean)
            rename_i hnot
            have hnot : step.done = false := by simpa using hnot
            split
            · split
              · -- the range ran out
                rename_i hnil
                obtain ⟨hend, hclean⟩ := hc.ok.dry hnil hzero
                exact .pure (hc.pump_ended hd hf hend hclean)
              · rename_i hstall hinput
                have hbad : Unreadable B K M loc := by
                  refine .inr (.inr (hd.unclean hf hfin hfill hout ?_))
                  intro codec' out'' step' hstep'
                  obtain ⟨-, -, hok⟩ :=
                    Prod.mk.inj (hstep.symm.trans hstep') |>.imp_right Prod.mk.inj
                  obtain rfl := Except.ok.inj hok
                  exact ⟨hnot, hstall, hzero, hinput⟩
                exact .pure ⟨hc.consumed hd hfin hzero hnot hinput, hc.room, rfl, rfl,
                  fun _ _ => ⟨rfl, fun _ => hbad⟩, by simp, by simp⟩
            · -- only input was consumed: go round again
              rename_i hsome
              have hd' := hc.consumed hd hfin hzero hnot (hc.ne_window hsome)
              refine (ih hd' hf hfin (hc.ne_nil hout)).mono ?_
              intro x hx
              exact ⟨hx.decoder, hx.room.trans hc.room, hx.verified, hx.skip, hx.failed,
                hc.room ▸ hx.produced, hx.sound⟩

/-- **A step of the pump** produces the next bytes of the stream, or reports its end. -/
theorem pump_does (hK : K.Lawful) (hd : DecoderOk K M loc total d) (hf : d.failed = false)
    {out : Bytes} (hout : out ≠ []) :
    Does B G K M (Anywhere (τ := τ)) (d.pump K M out)
      (PumpOk B K M loc total d out) := by
  unfold PositionedDecoder.pump
  split
  · rename_i h
    have hfin : d.finished = true := h.resolve_left hout
    refine .pure ⟨hd, rfl, rfl, rfl, by simp, ?_, fun _ _ => hf⟩
    intro n hn
    obtain rfl := Except.ok.inj hn
    exact ⟨Nat.zero_le _, rfl, rfl, fun _ => hfin⟩
  · rename_i h
    have hfin : d.finished = false := by
      have := (not_or.mp h).2
      simpa using this
    exact pumpLoop_does hK _ hd hf hfin hout

/-! ## Skipping and delivering -/

/-- The part of the skip buffer that is used towards the offset. -/
theorem DecoderOk.length_skip (hK : K.Lawful) (hd : DecoderOk K M loc total d) {offset : Nat}
    (hlt : d.pos < offset) :
    (d.skip.take (min (offset - d.pos) d.skip.length)).length =
      min (offset - d.pos) d.skip.length ∧
      d.skip.take (min (offset - d.pos) d.skip.length) ≠ [] := by
  have hskip := hd.skip hK
  have hlen : (d.skip.take (min (offset - d.pos) d.skip.length)).length =
      min (offset - d.pos) d.skip.length := by
    rw [List.length_take]
    omega
  refine ⟨hlen, fun hnil => ?_⟩
  rw [hnil, List.length_nil] at hlen
  omega

/-- The decoder after a step into its skip buffer. -/
theorem PumpOk.skipped (hK : K.Lawful) (hd : DecoderOk K M loc total d) {offset : Nat}
    (hlt : d.pos < offset)
    {d' : PositionedDecoder δ ζ} {got : Bytes} {r : Except IoError Nat}
    (hx : PumpOk B K M loc total d
      (d.skip.take (min (offset - d.pos) d.skip.length)) (d', got, r)) :
    DecoderOk K M loc total
      { d' with skip := got ++ d'.skip.drop (min (offset - d.pos) d.skip.length) } := by
  have hskip := hd.skip hK
  have hroom : got.length = min (offset - d.pos) d.skip.length :=
    hx.room.trans (hd.length_skip hK hlt).1
  refine hx.decoder.withSkip _ fun _ => ?_
  rw [List.length_append]
  omega

/-- Skipping stops at the offset or fails. -/
theorem skipLoop_does (hK : K.Lawful) (turns : Nat) (hd : DecoderOk K M loc total d)
    (hf : d.failed = false) {offset : Nat} (hpos : d.pos ≤ offset) :
    Does B G K M (Anywhere (τ := τ)) (PositionedDecoder.skipLoop K M turns d offset) fun x =>
      DecoderOk K M loc total x.1 ∧ x.1.verified = d.verified ∧
        (x.2 = .ok () → x.1.pos = offset ∧ x.1.failed = false) := by
  induction turns generalizing d with
  | zero =>
      unfold PositionedDecoder.skipLoop
      split
      · exact meets_halt
      · exact .pure ⟨hd, rfl, fun _ => ⟨by dsimp only; omega, hf⟩⟩
  | succ turns ih =>
      unfold PositionedDecoder.skipLoop
      split
      · rename_i hlt
        obtain ⟨hlen, hne⟩ := hd.length_skip hK hlt
        refine Meets.bind lasting_true (pump_does hK hd hf hne) ?_
        intro x hx
        rcases x with ⟨d', got, r⟩
        have hd' := hx.skipped hK hd hlt
        have hver : d'.verified = d.verified := hx.verified
        cases r with
        | error e => exact .pure ⟨hd', hver, by simp⟩
        | ok n =>
            obtain ⟨hn, hpos', -, -⟩ := hx.produced n rfl
            rw [hlen] at hn
            dsimp only at hpos' ⊢
            split
            · exact .pure ⟨hd', hver, by simp⟩
            · refine (ih hd' (hx.sound n rfl) (by dsimp only; omega)).mono ?_
              intro x hx
              rcases hx with ⟨h, hv, ho⟩
              exact ⟨h, hv.trans hver, ho⟩
      · exact .pure ⟨hd, rfl, fun _ => ⟨by dsimp only; omega, hf⟩⟩

/-- What delivering from `offset` leaves and returns. -/
structure DeliverOk (loc : EntryLocation) (total : Nat) (d : PositionedDecoder δ ζ)
    (offset : Nat) (out : Bytes) (x : PositionedDecoder δ ζ × Bytes × Except IoError Nat) :
    Prop where
  decoder : DecoderOk K M loc total x.1
  room : x.2.1.length = out.length
  verified : x.1.verified = d.verified
  delivered : ∀ n, x.2.2 = .ok n → n ≤ out.length ∧ x.1.pos = offset + n ∧
    x.2.1.take n = ((loc.stream K M).bytes.drop offset).take n ∧
    (offset ≤ total → offset + n ≤ total) ∧
    (n = out.length ∨ total ≤ offset + n ∨ x.1.finished = true)
  sound : ∀ n, x.2.2 = .ok n → x.1.failed = false

/-- Writing a piece behind what is written already. -/
theorem take_splice {out got : Bytes} {written room n : Nat} (hw : written ≤ out.length)
    (hn : n ≤ got.length) :
    (out.take written ++ got ++ out.drop (written + room)).take (written + n) =
      out.take written ++ got.take n := by
  have hlen : (out.take written).length = written := by
    rw [List.length_take]
    omega
  rw [List.append_assoc, List.take_add, List.take_left' hlen, List.drop_left' hlen,
    List.take_append_of_le_length hn]

/-- The part of the output that is filled next. -/
theorem length_room {out : Bytes} {written pos total : Nat}
    (h : written < out.length ∧ pos < total) :
    ((out.drop written).take (min (total - pos) (out.length - written))).length =
      min (total - pos) (out.length - written) ∧
      (out.drop written).take (min (total - pos) (out.length - written)) ≠ [] := by
  have hlen : ((out.drop written).take (min (total - pos) (out.length - written))).length =
      min (total - pos) (out.length - written) := by
    rw [List.length_take, List.length_drop]
    omega
  refine ⟨hlen, fun hnil => ?_⟩
  rw [hnil, List.length_nil] at hlen
  omega

theorem deliverLoop_does (hK : K.Lawful) (turns offset written : Nat) {out : Bytes}
    (hd : DecoderOk K M loc total d) (hf : d.failed = false) (hw : written ≤ out.length)
    (hpos : d.pos = offset + written) (htotal : offset ≤ total → offset + written ≤ total)
    (hout : out.take written = ((loc.stream K M).bytes.drop offset).take written) :
    Does B G K M (Anywhere (τ := τ)) (PositionedDecoder.deliverLoop K M turns d total out written)
      (DeliverOk (K := K) (M := M) loc total d offset out) := by
  induction turns generalizing d out written with
  | zero =>
      unfold PositionedDecoder.deliverLoop
      split
      · exact meets_halt
      · rename_i hstop
        refine .pure ⟨hd, rfl, rfl, fun n hn => ?_, fun _ _ => hf⟩
        obtain rfl := Except.ok.inj hn
        exact ⟨hw, hpos, hout, htotal, by omega⟩
  | succ turns ih =>
      unfold PositionedDecoder.deliverLoop
      split
      · rename_i hgo
        obtain ⟨hlen, hne⟩ := length_room hgo
        refine Meets.bind lasting_true (pump_does hK hd hf hne) ?_
        intro x hx
        rcases x with ⟨d', got, r⟩
        have hroom : got.length = min (total - d.pos) (out.length - written) := hx.room.trans hlen
        have hlen' : (out.take written ++ got ++
            out.drop (written + min (total - d.pos) (out.length - written))).length =
              out.length := by
          rw [List.length_append, List.length_append, List.length_take, List.length_drop, hroom]
          omega
        have hver : d'.verified = d.verified := hx.verified
        cases r with
        | error e => exact .pure ⟨hx.decoder, hlen', hver, by simp, by simp⟩
        | ok n =>
            obtain ⟨hn, hpos', hgot, hend⟩ := hx.produced n rfl
            have hf' := hx.sound n rfl
            rw [hlen] at hn
            -- the buffer now holds the stream up to what was produced
            have hnext : (out.take written ++ got ++
                out.drop (written + min (total - d.pos) (out.length - written))).take
                  (written + n) = ((loc.stream K M).bytes.drop offset).take (written + n) := by
              have hgot' : got.take n = ((loc.stream K M).bytes.drop d.pos).take n := hgot
              rw [take_splice hw (by omega), hout, hgot', hpos, List.take_add, List.drop_drop]
            dsimp only at hpos' ⊢
            split
            · rename_i hzero
              subst hzero
              refine .pure ⟨hx.decoder, hlen', hver, fun n' hn' => ?_, fun _ _ => hf'⟩
              obtain rfl := Except.ok.inj hn'
              exact ⟨by omega, by dsimp only; omega, hnext, htotal, .inr (.inr (hend rfl))⟩
            · refine (ih (written + n) hx.decoder hf' (by omega) (by dsimp only; omega) (by omega)
                hnext).mono ?_
              intro x hx'
              exact ⟨hx'.decoder, hx'.room.trans hlen', hx'.verified.trans hver,
                hlen' ▸ hx'.delivered, hx'.sound⟩
      · rename_i hstop
        refine .pure ⟨hd, rfl, rfl, fun n hn => ?_, fun _ _ => hf⟩
        obtain rfl := Except.ok.inj hn
        exact ⟨hw, hpos, hout, htotal, by omega⟩

end Pump

/-! ## The whole entry -/

section Verify

variable {loc : EntryLocation} {i : Nat} {m : EntryMeta} {d : PositionedDecoder δ ζ}

theorem storeVerify_bad (hloc : LocationOk M i m loc)
    (hlen : m.uncompressedSize ≤ (loc.stream K M).bytes.length) (h : Spoilt B K M loc m) :
    Does B G K M (Anywhere (τ := τ)) (Act.storeVerify i .bad) fun _ => True := by
  refine meets_plain (o := .storeVerify i .bad) fun _ _ => ⟨by simp, fun m' hm' => ?_⟩
  obtain rfl := Option.some.inj (hloc.entry.symm.trans hm')
  exact fun _ => ⟨loc, hloc, hlen, h⟩

theorem storeVerify_ok (hloc : LocationOk M i m loc) (h : StreamOk K M loc m) :
    Does B G K M (Anywhere (τ := τ)) (Act.storeVerify i .ok) fun _ => True := by
  refine meets_plain (o := .storeVerify i .ok) fun _ _ => ⟨by simp, fun m' hm' => ?_⟩
  obtain rfl := Option.some.inj (hloc.entry.symm.trans hm')
  exact fun _ => ⟨loc, hloc, h⟩

/-- **Checking a decoder that has produced the declared size** accepts only a whole entry. -/
theorem verify_does (hK : K.Lawful) (hloc : LocationOk M i m loc)
    (hd : DecoderOk K M loc m.uncompressedSize d) (hf : d.failed = false)
    (hpos : m.uncompressedSize ≤ d.pos) (hver : d.verified = true → m.uncompressedSize = 0) :
    Does B G K M (Anywhere (τ := τ)) (d.verify K M i m) fun x =>
      DecoderOk K M loc m.uncompressedSize x.1 ∧ (x.2 = .ok () →
        0 < m.uncompressedSize → M.config.verify = true → StreamOk K M loc m) := by
  have hd' : DecoderOk K M loc m.uncompressedSize { d with verified := true } :=
    hd.withVerified fun _ => hpos
  have hlong := Nat.le_trans hpos hd.pos
  unfold PositionedDecoder.verify
  split
  · rename_i hv
    have hzero := hver hv
    refine Meets.bind lasting_true (meets_note fun _ => ⟨m, hloc.entry, hzero⟩) fun _ _ =>
      .pure ⟨hd, ?_⟩
    intro _ hlt
    omega
  dsimp only
  split
  · rename_i hsize
    -- a decoder past the declared size has more than it should
    have hbad : Spoilt B K M loc m := by
      refine .inr (.inr fun _ hok => ?_)
      have := hd.pos
      rw [hok.size] at this
      omega
    exact Meets.bind lasting_true (storeVerify_bad hloc hlong hbad) fun _ _ => .pure ⟨hd', by simp⟩
  · rename_i hsize
    have hcrc := hd.crc
    split
    · rename_i hnone
      refine .pure ⟨hd', fun _ _ hv => ?_⟩
      rw [hnone, hv] at hcrc
      exact absurd hcrc (by simp)
    · rename_i crc hsome
      have hsum : crc = Crc.new.update ((loc.stream K M).bytes.take d.pos) := by
        rw [hsome] at hcrc
        split at hcrc
        · exact Option.some.inj hcrc
        · exact absurd hcrc (by simp)
      refine Meets.bind lasting_true (pump_does hK hd' hf (by simp)) ?_
      intro x hx
      rcases x with ⟨d₂, _, r⟩
      have hpos₂ : m.uncompressedSize ≤ d₂.pos := by
        cases r with
        | error e =>
            have : d₂.pos = d.pos := (hx.failed e rfl).1
            omega
        | ok n =>
            have : d₂.pos = d.pos + n := (hx.produced n rfl).2.1
            omega
      cases r with
      | error e =>
          dsimp only
          split
          · rename_i hb
            have hbad := ((hx.failed e rfl).2 hb).spoilt m
            exact Meets.bind lasting_true (storeVerify_bad hloc hlong hbad) fun _ _ =>
              .pure ⟨hx.decoder, by simp⟩
          · exact .pure ⟨hx.decoder.withVerified (by simp), by simp⟩
      | ok n =>
          dsimp only
          split
          · rename_i hwrong
            have hbad : Spoilt B K M loc m := by
              refine .inr (.inr fun _ hok => ?_)
              have hlen := hok.size
              rcases hwrong with hcrc | hmore
              · -- a stream of the declared size has been summed to its end
                refine hcrc ?_
                rw [hsum, List.take_of_length_le (by omega)]
                exact hok.crc
              · have hp : d₂.pos = d.pos + n := (hx.produced n rfl).2.1
                have hle : d₂.pos ≤ _ := hx.decoder.pos
                omega
            exact Meets.bind lasting_true (storeVerify_bad hloc hlong hbad) fun _ _ =>
              .pure ⟨hx.decoder, by simp⟩
          · rename_i hgood
            -- no extra byte: the stream ends at the declared size
            have hn : n = 0 := by omega
            subst hn
            obtain ⟨-, hp, -, hfin⟩ := hx.produced 0 rfl
            obtain ⟨hend, hclean⟩ := hx.decoder.finished (hfin rfl)
            dsimp only at hp hend
            have hall : (loc.stream K M).bytes.length = d.pos := by omega
            have hok : StreamOk K M loc m := by
              refine ⟨by omega, ?_, hclean⟩
              have hfull : (loc.stream K M).bytes.take d.pos = (loc.stream K M).bytes :=
                List.take_of_length_le (by omega)
              rw [hfull] at hsum
              rw [hsum] at hgood
              unfold crc32
              by_contra hne
              exact hgood (.inl hne)
            exact Meets.bind lasting_true (storeVerify_ok hloc hok) fun _ _ =>
              .pure ⟨hx.decoder, fun _ _ _ => hok⟩

end Verify

/-! ## Reading -/

/-- What `read_at` for an entry leaves and returns. -/
structure ReadOk (loc : EntryLocation) (m : EntryMeta) (offset : Nat) (out : Bytes)
    (x : PositionedDecoder δ ζ × Bytes × Except IoError Nat) : Prop where
  decoder : DecoderOk K M loc m.uncompressedSize x.1
  room : x.2.1.length = out.length
  delivered : ∀ n, x.2.2 = .ok n → Delivered K M loc m offset out.length n
  /-- The bytes delivered are those of the stream at the offset. -/
  bytes : ∀ n, x.2.2 = .ok n →
    x.2.1.take n = ((loc.stream K M).bytes.drop offset).take n

/-- What the delivery loop returned was all there was to deliver. -/
theorem DeliverOk.full {loc : EntryLocation} {m : EntryMeta} {offset n : Nat} {out : Bytes}
    {d : PositionedDecoder δ ζ} {x : PositionedDecoder δ ζ × Bytes × Except IoError Nat}
    (hx : DeliverOk (K := K) (M := M) loc m.uncompressedSize d offset out x)
    (hn : x.2.2 = .ok n) (hle : offset ≤ m.uncompressedSize) :
    n = min out.length (m.uncompressedSize - offset) ∨
      offset + n = (loc.stream K M).bytes.length ∧ EndsEarly K M loc m offset out.length := by
  obtain ⟨hlen, hpos, -, htotal, hstop⟩ := hx.delivered n hn
  have hbound := htotal hle
  rcases hstop with h | h | h
  · left
    omega
  · left
    omega
  · obtain ⟨hend, hclean⟩ := hx.decoder.finished h
    rw [hpos] at hend
    by_cases hshort : n = min out.length (m.uncompressedSize - offset)
    · exact .inl hshort
    · exact .inr ⟨hend, hclean, by omega, by omega⟩

/-- **Reading from a decoder that is not past the offset.** -/
theorem decoderReadAt_does (hK : K.Lawful) {loc : EntryLocation} {i : Nat} {m : EntryMeta}
    {d : PositionedDecoder δ ζ} (hloc : LocationOk M i m loc)
    (hd : DecoderOk K M loc m.uncompressedSize d) (hf : d.failed = false) {offset : Nat}
    (hpos : d.pos ≤ offset) (hver : d.verified = true → m.uncompressedSize = 0) (out : Bytes) :
    Does B G K M (Anywhere (τ := τ)) (d.readAt K M offset out i m)
      (ReadOk (K := K) (M := M) loc m offset out) := by
  unfold PositionedDecoder.readAt
  rw [if_neg (by omega)]
  refine Meets.bind lasting_true (skipLoop_does hK _ hd hf hpos) ?_
  intro x h
  rcases x with ⟨d₁, skipped⟩
  rcases h with ⟨hd₁, hver₁, hskipped⟩
  cases skipped with
  | error e => exact .pure ⟨hd₁, rfl, by simp, by simp⟩
  | ok _ =>
      obtain ⟨hpos₁, hf₁⟩ := hskipped rfl
      refine Meets.bind lasting_true (deliverLoop_does hK _ offset 0 hd₁ hf₁ (Nat.zero_le _)
        hpos₁ (fun h => h) (by simp)) ?_
      intro x hx
      rcases x with ⟨d₂, out₂, delivered⟩
      cases delivered with
      | error e => exact .pure ⟨hx.decoder, hx.room, by simp, by simp⟩
      | ok n =>
          obtain ⟨hn, hpos₂, hbytes, htotal, -⟩ := hx.delivered n rfl
          dsimp only at hpos₂ hbytes
          have hinside : offset + n ≤ (loc.stream K M).bytes.length := by
            have : d₂.pos ≤ _ := hx.decoder.pos
            omega
          have hroom : out₂.length = out.length := hx.room
          -- either way of ending is recorded, and returns what was delivered
          have hend : ∀ d₃, DecoderOk K M loc m.uncompressedSize d₃ →
              Delivered K M loc m offset out.length n →
              Does B G K M (Anywhere (τ := τ)) (do
                Act.note (.delivered i d₃.src.start offset out₂.length n)
                pure (d₃, out₂, .ok n)) (ReadOk (K := K) (M := M) loc m offset out) := by
            intro d₃ hd₃ hdel
            rw [hroom]
            refine Meets.bind lasting_true
              (meets_note fun _ _ => ⟨m, loc, hloc, hd₃.src.start.symm, hdel⟩) fun _ _ => .pure ?_
            refine ⟨hd₃, hroom, ?_, ?_⟩
            · intro n' hn'
              obtain rfl := Except.ok.inj hn'
              exact hdel
            · intro n' hn'
              obtain rfl := Except.ok.inj hn'
              exact hbytes
          dsimp only
          split
          · rename_i hle
            have hver₂ : d₂.verified = true → m.uncompressedSize = 0 := fun h =>
              hver ((hver₁.symm.trans hx.verified.symm).trans h)
            refine Meets.bind lasting_true
              (verify_does hK hloc hx.decoder (hx.sound n rfl) hle hver₂) ?_
            intro x h
            rcases x with ⟨d₃, verified⟩
            rcases h with ⟨hd₃, hchecked⟩
            cases verified with
            | error e => exact .pure ⟨hd₃, hx.room, by simp, by simp⟩
            | ok _ =>
                exact hend d₃ hd₃ ⟨hn, hinside, htotal, hx.full rfl, fun _ => hchecked rfl⟩
          · rename_i hlt
            exact hend d₂ hx.decoder ⟨hn, hinside, htotal, hx.full rfl, fun hle => by omega⟩

end ZipFs
