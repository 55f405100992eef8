import ZipFs.Index.Basic
import Mathlib.Data.List.Infix

/-!
# Decompressors

`src/codec.rs` and the two wrappers under `src/codec/`. The crates they wrap,
flate2 and zstd, are not part of the repository: `Codecs` holds the functions of
theirs that the wrappers call, and `Codecs.Lawful` says what is relied on.

What is relied on is the contract of a stream decoder that is fed a byte range in
pieces. After `reinit`, whatever pieces of the range it is offered in order and
whatever room it gets for output, the bytes it has produced are a prefix of one
fixed stream, `decode`; and it announces an end, or goes dry on an empty input, only
when it has produced that stream to its end. Nothing is said of a context that has
failed, or has gone dry, until the next `reinit`: its state is undefined, and zstd goes
on with it.
-/

namespace ZipFs

/-- What one call to `Decompressor.step` achieved. -/
structure Step where
  /-- Compressed bytes taken from the input. -/
  consumed : Nat
  /-- Uncompressed bytes written to the output. -/
  produced : Nat
  /-- The stream ended. -/
  done : Bool
  deriving DecidableEq, Repr

/-- A decompressor could not make sense of its input. -/
structure CodecError where
  text : String
  deriving DecidableEq, Repr

/--
Turns compressed bytes into uncompressed ones. `step` takes the input and the
output buffer, and returns the context, the buffer as it is left, and the result.
-/
structure Decompressor (C : Type) where
  reinit : C → C
  step : C → Bytes → Bytes → C × Bytes × Except CodecError Step

/-! ## The crates behind the wrappers -/

/-- `flate2::Status`. -/
inductive Status where
  | ok
  | bufError
  | streamEnd
  deriving DecidableEq, Repr

/-- What is used of `flate2::Decompress`, made with `false` for no zlib header. -/
structure Flate (δ : Type) where
  new : δ
  reset : δ → δ
  totalIn : δ → Nat
  totalOut : δ → Nat
  /-- With `FlushDecompress::None`. -/
  decompress : δ → Bytes → Bytes → δ × Bytes × Except String Status

/-- The status of `zstd::stream::raw::Operation::run_on_buffers`. -/
structure RunStatus where
  bytesRead : Nat
  bytesWritten : Nat
  remaining : Nat
  deriving DecidableEq, Repr

/-- What is used of `zstd::stream::raw::Decoder`. The result of `reinit` is ignored. -/
structure ZstdRaw (ζ : Type) where
  new : ζ
  reinit : ζ → ζ
  runOnBuffers : ζ → Bytes → Bytes → ζ × Bytes × Except String RunStatus

/-- What a byte range decodes to. -/
structure Stream where
  bytes : Bytes
  /-- The stream comes to an end, announced or because the range runs out, and not to an error. -/
  clean : Bool
  deriving DecidableEq, Repr

structure Codecs (δ ζ : Type) where
  flate : Flate δ
  zstd : ZstdRaw ζ
  /-- The stream of a range, for each method that compresses. Nothing of the program calls
  it; it is what the decoded stream of a range means. -/
  decode : Method → Bytes → Stream

/-- What a range of a method decodes to. A stored range is its own content. -/
def Codecs.stream {δ ζ : Type} (K : Codecs δ ζ) (m : Method) (range : Bytes) : Stream :=
  match m with
  | .store => ⟨range, true⟩
  | .deflate | .zstd => K.decode m range

/-! ## The wrappers -/

/-- `usize::try_from` of a 64-bit count. -/
def toUsize (n : Nat) (what : String) : Except CodecError Nat :=
  if n < 2 ^ 64 then .ok n else .error ⟨what⟩

/-- The identity decompressor used for stored entries. -/
def Store.decompressor : Decompressor Unit where
  reinit := id
  step := fun _ input output =>
    let n := min input.length output.length
    ((), input.take n ++ output.drop n, .ok ⟨n, n, false⟩)

namespace Deflate

variable {δ : Type} (F : Flate δ)

def step (inner : δ) (input output : Bytes) : δ × Bytes × Except CodecError Step :=
  let beforeIn := F.totalIn inner
  let beforeOut := F.totalOut inner
  match F.decompress inner input output with
  | (inner, output, .error e) => (inner, output, .error ⟨"deflate: " ++ e⟩)
  | (inner, output, .ok status) =>
      (inner, output, do
        let consumed ← toUsize (F.totalIn inner - beforeIn) "deflate input count overflow"
        let produced ← toUsize (F.totalOut inner - beforeOut) "deflate output count overflow"
        pure ⟨consumed, produced, status = .streamEnd⟩)

def decompressor : Decompressor δ where
  reinit := F.reset
  step := step F

end Deflate

namespace Zstd

variable {ζ : Type} (Z : ZstdRaw ζ)

def step (inner : ζ) (input output : Bytes) : ζ × Bytes × Except CodecError Step :=
  match Z.runOnBuffers inner input output with
  | (inner, output, .error e) => (inner, output, .error ⟨"zstd: " ++ e⟩)
  | (inner, output, .ok status) =>
      -- no hint for further input means that the one frame of the entry is complete
      (inner, output, .ok ⟨status.bytesRead, status.bytesWritten, status.remaining = 0⟩)

def decompressor : Decompressor ζ where
  reinit := Z.reinit
  step := step Z

end Zstd

/-- A decompressor for one of the supported methods. -/
inductive Codec (δ ζ : Type) where
  | store
  | deflate (inner : δ)
  | zstd (inner : ζ)

namespace Codec

variable {δ ζ : Type} (K : Codecs δ ζ)

def new : Method → Codec δ ζ
  | .store => .store
  | .deflate => .deflate K.flate.new
  | .zstd => .zstd K.zstd.new

/-- Which method this decoder currently reads. -/
def method : Codec δ ζ → Method
  | .store => .store
  | .deflate _ => .deflate
  | .zstd _ => .zstd

def reinit : Codec δ ζ → Codec δ ζ
  | .store => .store
  | .deflate c => .deflate ((Deflate.decompressor K.flate).reinit c)
  | .zstd c => .zstd ((Zstd.decompressor K.zstd).reinit c)

def step (c : Codec δ ζ) (input output : Bytes) :
    Codec δ ζ × Bytes × Except CodecError Step :=
  match c with
  | .store =>
      let (_, output, r) := Store.decompressor.step () input output
      (.store, output, r)
  | .deflate c =>
      let (c, output, r) := (Deflate.decompressor K.flate).step c input output
      (.deflate c, output, r)
  | .zstd c =>
      let (c, output, r) := (Zstd.decompressor K.zstd).step c input output
      (.zstd c, output, r)

end Codec

/-! ## The checksum -/

/-- `crc32fast::Hasher`: the running register. -/
structure Crc where
  register : UInt32
  deriving DecidableEq, Repr

namespace Crc

def new : Crc := ⟨0xFFFFFFFF⟩

/-- One bit of the division by the reflected CRC-32 polynomial. -/
def shift (x : UInt32) : UInt32 :=
  if x &&& 1 = 1 then (x >>> 1) ^^^ 0xEDB88320 else x >>> 1

def byte (x : UInt32) (b : UInt8) : UInt32 :=
  shift (shift (shift (shift (shift (shift (shift (shift (x ^^^ b.toUInt32))))))))

def update (c : Crc) (data : Bytes) : Crc := ⟨data.foldl byte c.register⟩

def finalize (c : Crc) : Nat := (c.register ^^^ 0xFFFFFFFF).toNat

theorem update_append (c : Crc) (a b : Bytes) : c.update (a ++ b) = (c.update a).update b := by
  unfold update
  rw [List.foldl_append]

end Crc

/-- The CRC-32 of some bytes. -/
def crc32 (data : Bytes) : Nat := (Crc.new.update data).finalize

example : crc32 "123456789".toUTF8.toList = 0xCBF43926 := by decide +kernel

/-! ## The contract of a stream decoder -/

namespace Decompressor

variable {C : Type} (D : Decompressor C)

/--
The context has been fed the first `k` bytes of the range since it was
reinitialised, has produced `o`, and has neither failed, nor announced an end, nor gone
dry: a step without input has produced something.
-/
inductive Fed (range : Bytes) : C → Nat → Bytes → Prop where
  | reinit (c : C) : Fed range (D.reinit c) 0 []
  | step {c c' : C} {k : Nat} {o inp out out' : Bytes} {st : Step} : Fed range c k o →
      inp <+: range.drop k → (inp = [] → range.length ≤ k) → out ≠ [] →
      D.step c inp out = (c', out', .ok st) → st.done = false →
      (inp = [] → 0 < st.produced) →
      Fed range c' (k + st.consumed) (o ++ out'.take st.produced)

/-- What `step` promises of a successful call. -/
structure StepOk (stream : Stream) (o inp out out' : Bytes) (st : Step) : Prop where
  consumed : st.consumed ≤ inp.length
  produced : st.produced ≤ out.length
  /-- Everything produced so far is the beginning of the stream. -/
  output : o ++ out'.take st.produced <+: stream.bytes
  /-- An announced end is the end of the stream. -/
  done : st.done = true → o ++ out'.take st.produced = stream.bytes ∧ stream.clean = true
  /-- So is a step that does nothing although there is no more input. -/
  dry : inp = [] → st.produced = 0 → o = stream.bytes ∧ stream.clean = true

/-- The contract of a decompressor whose streams are given by `decode`. -/
structure Lawful (decode : Bytes → Stream) : Prop where
  /-- The output buffer is a slice: it keeps its length. -/
  room : ∀ c inp out, (D.step c inp out).2.1.length = out.length
  step : ∀ {range c c' k o inp out out' st}, D.Fed range c k o →
    inp <+: range.drop k → (inp = [] → range.length ≤ k) → out ≠ [] →
    D.step c inp out = (c', out', .ok st) → StepOk (decode range) o inp out out' st

/-- On a range that decodes cleanly the decompressor does not fail up to its first dry step, and
given input and room it gets on. -/
structure Live (decode : Bytes → Stream) : Prop where
  step : ∀ {range c k o inp out}, D.Fed range c k o → inp <+: range.drop k →
    (inp = [] → range.length ≤ k) → out ≠ [] → (decode range).clean = true →
    ∃ c' out' st, D.step c inp out = (c', out', .ok st) ∧
      (st.done = false → st.consumed = 0 → st.produced = 0 → inp = [])

/-- The output buffer is only written: a step stays inside it, and does not depend on what was in
it before. -/
structure Blind : Prop where
  room : ∀ c inp out, (D.step c inp out).2.1.length = out.length
  produced : ∀ c inp out st, out ≠ [] → (D.step c inp out).2.2 = .ok st →
    st.produced ≤ out.length
  same : ∀ c inp out₁ out₂, out₁.length = out₂.length →
    (D.step c inp out₁).1 = (D.step c inp out₂).1 ∧
      (D.step c inp out₁).2.2 = (D.step c inp out₂).2.2 ∧
      ∀ st, (D.step c inp out₁).2.2 = .ok st →
        (D.step c inp out₁).2.1.take st.produced = (D.step c inp out₂).2.1.take st.produced

end Decompressor

/-- What is relied on of the crates. -/
structure Codecs.Lawful {δ ζ : Type} (K : Codecs δ ζ) : Prop where
  deflate : (Deflate.decompressor K.flate).Lawful (K.decode .deflate)
  zstd : (Zstd.decompressor K.zstd).Lawful (K.decode .zstd)

/-- What is relied on where a result says that something can happen. -/
structure Codecs.Live {δ ζ : Type} (K : Codecs δ ζ) : Prop where
  deflate : (Deflate.decompressor K.flate).Live (K.decode .deflate)
  zstd : (Zstd.decompressor K.zstd).Live (K.decode .zstd)

/-- What is relied on where only the origin of some bytes matters. -/
structure Codecs.Blind {δ ζ : Type} (K : Codecs δ ζ) : Prop where
  deflate : (Deflate.decompressor K.flate).Blind
  zstd : (Zstd.decompressor K.zstd).Blind

/-! ## The stored method keeps the contract -/

namespace Store

/-- One step copies the beginning of its input. -/
theorem step_copies {range : Bytes} {k : Nat} {inp out out' : Bytes} {st : Step} {c c' : Unit}
    (hk : k ≤ range.length) (hinp : inp <+: range.drop k)
    (hstep : decompressor.step c inp out = (c', out', .ok st)) :
    k + st.consumed ≤ range.length ∧
      range.take k ++ out'.take st.produced = range.take (k + st.consumed) := by
  simp only [decompressor, Prod.mk.injEq, Except.ok.injEq] at hstep
  obtain ⟨-, rfl, rfl⟩ := hstep
  obtain ⟨rest, hrest⟩ := hinp
  have hlen : k + inp.length ≤ range.length := by
    have := congrArg List.length hrest
    simp only [List.length_append, List.length_drop] at this
    omega
  have hn : (inp.take (min inp.length out.length)).length = min inp.length out.length := by
    rw [List.length_take]
    omega
  refine ⟨by dsimp only; omega, ?_⟩
  dsimp only
  rw [List.take_add, ← hrest, List.take_left' hn, List.take_append_of_le_length (by omega)]

/-- A stored entry has produced exactly what it was fed. -/
theorem fed_iff {range : Bytes} {c : Unit} {k : Nat} {o : Bytes}
    (h : decompressor.Fed range c k o) : k ≤ range.length ∧ o = range.take k := by
  induction h with
  | reinit => simp
  | step _ hinp _ _ hstep _ _ ih =>
      obtain ⟨hk, rfl⟩ := ih
      exact step_copies hk hinp hstep

theorem lawful : decompressor.Lawful fun range => ⟨range, true⟩ where
  room c inp out := by
    simp only [decompressor, List.length_append, List.length_take, List.length_drop]
    omega
  step {range c c' k o inp out out' st} hfed hinp hempty hout hstep := by
    obtain ⟨hk, rfl⟩ := fed_iff hfed
    have hnext := (step_copies hk hinp hstep).2
    simp only [decompressor, Prod.mk.injEq, Except.ok.injEq] at hstep
    obtain ⟨-, hout', rfl⟩ := hstep
    refine ⟨by dsimp only; omega, by dsimp only; omega, ?_, by simp, ?_⟩
    · rw [hnext]
      exact List.take_prefix _ _
    · intro hnil _
      exact ⟨List.take_of_length_le (hempty hnil), rfl⟩

theorem blind : decompressor.Blind where
  room := lawful.room
  produced c inp out st _ hst := by
    obtain rfl := Except.ok.inj hst
    exact Nat.min_le_right _ _
  same c inp out₁ out₂ hlen := by
    refine ⟨rfl, by simp only [decompressor, hlen], fun st hst => ?_⟩
    obtain rfl := Except.ok.inj hst
    have hn : (inp.take (min inp.length out₁.length)).length = min inp.length out₁.length := by
      rw [List.length_take]
      omega
    simp only [decompressor, ← hlen]
    rw [List.take_left' hn, List.take_left' hn]

end Store

/-! ## The contract, whatever the method -/

namespace Codec

variable {δ ζ : Type} (K : Codecs δ ζ)

def Fed (range : Bytes) : Codec δ ζ → Nat → Bytes → Prop
  | .store => Store.decompressor.Fed range ()
  | .deflate c => (Deflate.decompressor K.flate).Fed range c
  | .zstd c => (Zstd.decompressor K.zstd).Fed range c

variable {K}

@[simp] theorem method_new (m : Method) : (new K m).method = m := by cases m <;> rfl

@[simp] theorem method_reinit (c : Codec δ ζ) : (c.reinit K).method = c.method := by
  cases c <;> rfl

theorem method_step (c : Codec δ ζ) (inp out : Bytes) :
    (c.step K inp out).1.method = c.method := by
  cases c <;> rfl

theorem fed_reinit (range : Bytes) (c : Codec δ ζ) : Fed K range (c.reinit K) 0 [] := by
  cases c with
  | store => exact .reinit ()
  | deflate c => exact .reinit c
  | zstd c => exact .reinit c

theorem step_room (hK : K.Lawful) (c : Codec δ ζ) (inp out : Bytes) :
    (c.step K inp out).2.1.length = out.length := by
  cases c with
  | store => exact Store.lawful.room () inp out
  | deflate c => exact hK.deflate.room c inp out
  | zstd c => exact hK.zstd.room c inp out

/-- What a successful step of a codec that has been fed the range achieves. -/
theorem step_ok (hK : K.Lawful) {range : Bytes} {c c' : Codec δ ζ} {k : Nat}
    {o inp out out' : Bytes} {st : Step} (hfed : Fed K range c k o)
    (hinp : inp <+: range.drop k) (hempty : inp = [] → range.length ≤ k) (hout : out ≠ [])
    (hstep : c.step K inp out = (c', out', .ok st)) :
    Decompressor.StepOk (K.stream c.method range) o inp out out' st ∧
      (st.done = false → (inp = [] → 0 < st.produced) →
        Fed K range c' (k + st.consumed) (o ++ out'.take st.produced)) := by
  cases c with
  | store =>
      obtain ⟨rfl, h⟩ := Prod.mk.inj hstep
      have hstep : Store.decompressor.step () inp out = ((), out', .ok st) := by rw [← h]
      exact ⟨Store.lawful.step hfed hinp hempty hout hstep, .step hfed hinp hempty hout hstep⟩
  | deflate c =>
      obtain ⟨rfl, h⟩ := Prod.mk.inj hstep
      have hstep : (Deflate.decompressor K.flate).step c inp out = (_, out', .ok st) :=
        Prod.ext rfl h
      exact ⟨hK.deflate.step hfed hinp hempty hout hstep, .step hfed hinp hempty hout hstep⟩
  | zstd c =>
      obtain ⟨rfl, h⟩ := Prod.mk.inj hstep
      have hstep : (Zstd.decompressor K.zstd).step c inp out = (_, out', .ok st) :=
        Prod.ext rfl h
      exact ⟨hK.zstd.step hfed hinp hempty hout hstep, .step hfed hinp hempty hout hstep⟩

/-- On a clean range a codec gets on, and does not fail. -/
theorem step_live (hl : K.Live) {range : Bytes} {c : Codec δ ζ} {k : Nat} {o inp out : Bytes}
    (hfed : Fed K range c k o) (hinp : inp <+: range.drop k)
    (hempty : inp = [] → range.length ≤ k) (hout : out ≠ [])
    (hclean : (K.stream c.method range).clean = true) :
    ∃ c' out' st, c.step K inp out = (c', out', .ok st) ∧
      (st.done = false → st.consumed = 0 → st.produced = 0 → inp = []) := by
  cases c with
  | store =>
      refine ⟨_, _, _, rfl, fun _ h _ => ?_⟩
      have hroom : 0 < out.length := List.length_pos_iff.mpr hout
      exact List.length_eq_zero_iff.mp (show inp.length = 0 by dsimp only at h; omega)
  | deflate c =>
      obtain ⟨c', out', st, hstep, hgo⟩ := hl.deflate.step hfed hinp hempty hout hclean
      exact ⟨.deflate c', out', st, by simp only [step, hstep], hgo⟩
  | zstd c =>
      obtain ⟨c', out', st, hstep, hgo⟩ := hl.zstd.step hfed hinp hempty hout hclean
      exact ⟨.zstd c', out', st, by simp only [step, hstep], hgo⟩

/-- What is in the output buffer beforehand makes no difference to a step. -/
theorem step_blind (hb : K.Blind) (c : Codec δ ζ) (inp : Bytes) {out₁ out₂ : Bytes}
    (hlen : out₁.length = out₂.length) :
    (c.step K inp out₁).1 = (c.step K inp out₂).1 ∧
      (c.step K inp out₁).2.2 = (c.step K inp out₂).2.2 ∧
      ∀ st, (c.step K inp out₁).2.2 = .ok st →
        (c.step K inp out₁).2.1.take st.produced = (c.step K inp out₂).2.1.take st.produced := by
  cases c with
  | store => exact ⟨rfl, (Store.blind.same () inp out₁ out₂ hlen).2⟩
  | deflate c =>
      obtain ⟨hc, hrest⟩ := hb.deflate.same c inp out₁ out₂ hlen
      exact ⟨congrArg Codec.deflate hc, hrest⟩
  | zstd c =>
      obtain ⟨hc, hrest⟩ := hb.zstd.same c inp out₁ out₂ hlen
      exact ⟨congrArg Codec.zstd hc, hrest⟩

/-- A step writes inside the output buffer. -/
theorem step_inside (hb : K.Blind) (c : Codec δ ζ) (inp : Bytes) {out : Bytes} (hout : out ≠ []) :
    (c.step K inp out).2.1.length = out.length ∧
      ∀ st, (c.step K inp out).2.2 = .ok st → st.produced ≤ out.length := by
  cases c with
  | store => exact ⟨Store.blind.room () inp out, fun st => Store.blind.produced () inp out st hout⟩
  | deflate c =>
      exact ⟨hb.deflate.room c inp out, fun st => hb.deflate.produced c inp out st hout⟩
  | zstd c => exact ⟨hb.zstd.room c inp out, fun st => hb.zstd.produced c inp out st hout⟩

end Codec

end ZipFs
