import ZipFs.Mount.Invariant
import ZipFs.Mount.Sample

/-!
# A decoder that goes on after an error

An archive with one zstd entry whose last block is of the reserved type. The frame is read in
two pieces, and the end of the first lies inside a block. The first read of the entry fails at the
end of the second piece, and its decoder goes back to the pool at the position it had reached.
The next read takes it as it is, and offers the second piece again from its start, where the codec
now expects the header of a block: it finds one in the middle of the old block, and what
follows is the content of neither.
-/

namespace ZipFs
variable {τ δ ζ : Type} [DecidableEq τ] {K : Codecs δ ζ} {M : Mount} {t : τ} {w : World τ δ ζ}

theorem run_fileReadExactAt {buf : Bytes} {offset : Nat}
    (h : offset + buf.length ≤ w.content.length) :
    Lib.run (det K M t) (File.readExactAt buf offset) w =
      some (((w.content.drop offset).take buf.length, .ok ()), w) := by
  induction buf generalizing offset with
  | nil => rfl
  | cons b buf ih =>
      rw [List.length_cons] at h
      have hlt : offset < w.content.length := by omega
      have hrest := @ih (offset + 1) (by omega)
      have hcell : Lib.run (det K M t) (Act.cell offset) w =
          some (.ok (some w.content[offset]), w) := by
        rw [← List.getElem?_eq_getElem hlt]
        rfl
      unfold File.readExactAt
      rw [Lib.run_seq hcell]
      dsimp only
      rw [Lib.run_seq hrest, List.drop_eq_getElem_cons hlt, List.length_cons, List.take_succ_cons]
      rfl

/-- The archive is what was mounted, and the guard has seen nothing else. -/
structure Pristine (M : Mount) (w : World τ δ ζ) : Prop where
  content : w.content = M.archive
  stamp : w.stamp.unchanged M.opened = true
  stale : w.stale = false
  unsure : w.unsure = false
  unnamed : M.named = false

/-- The thread has recorded some more. -/
def World.noted (t : τ) (ns : List Note) (w : World τ δ ζ) : World τ δ ζ :=
  { w with seen := Function.update w.seen t (w.seen t ++ ns) }

theorem noted_noted (w : World τ δ ζ) (ns ns' : List Note) :
    (w.noted t ns).noted t ns' = w.noted t (ns ++ ns') := by
  simp [World.noted]

omit [DecidableEq τ] in
theorem Pristine.of_eq {w' : World τ δ ζ} (h : Pristine M w) (hcontent : w'.content = w.content)
    (hstamp : w'.stamp = w.stamp) (hstale : w'.stale = w.stale) (hunsure : w'.unsure = w.unsure) :
    Pristine M w' :=
  ⟨hcontent.trans h.content, hstamp ▸ h.stamp, hstale.trans h.stale, hunsure.trans h.unsure,
    h.unnamed⟩

theorem Pristine.noted (h : Pristine M w) (ns : List Note) : Pristine M (w.noted t ns) :=
  ⟨h.content, h.stamp, h.stale, h.unsure, h.unnamed⟩

theorem run_note (n : Note) :
    Lib.run (det K M t) (Act.note n) w = some ((), w.noted t [n]) := rfl

theorem run_guardVerify (h : Pristine M w) :
    Lib.run (det K M t) (GuardedFile.verify M) w =
      some (.ok (), w.noted t [.compared (.ok none)]) := by
  have hload : ∀ w : World τ δ ζ, w.stale = false →
      Lib.run (det K M t) GuardedFile.isStale w = some (false, w) := by
    intro w hw
    rw [← hw]
    rfl
  have hunsure : ∀ w : World τ δ ζ, w.unsure = false →
      Lib.run (det K M t) Act.loadUnsure w = some (false, w) := by
    intro w hw
    rw [← hw]
    rfl
  have hstat : Lib.run (det K M t) Act.fstat w = some (.ok w.stamp, w) := by
    have heq : { w with differed := w.differed || !w.stamp.unchanged M.opened } = w := by
      rw [h.stamp, Bool.not_true, Bool.or_false]
    exact congrArg (fun w' => some (Except.ok w.stamp, w')) heq
  have hcompare : Lib.run (det K M t) (GuardedFile.compareStamps M) w = some (.ok none, w) := by
    unfold GuardedFile.compareStamps
    rw [Lib.run_seq hstat]
    simp only [h.stamp, h.unnamed, if_true]
    rfl
  unfold GuardedFile.verify
  rw [Lib.run_seq (hload w h.stale), if_neg Bool.false_ne_true, Lib.run_seq hcompare,
    Lib.run_seq (run_note _)]
  dsimp only
  rw [Lib.run_seq (hunsure (w.noted t _) h.unsure), if_neg Bool.false_ne_true]
  rfl

theorem run_guardedReadExactAt (buf : Bytes) {offset : Nat} (h : Pristine M w)
    (hin : offset + buf.length ≤ M.archive.length) :
    Lib.run (det K M t) (GuardedFile.readExactAt M buf offset) w =
      some ((M.range offset buf.length, .ok ()),
        w.noted t [.compared (.ok none), .guarded offset (M.range offset buf.length)]) := by
  unfold GuardedFile.readExactAt
  rw [← h.content] at hin
  rw [Lib.run_seq (run_fileReadExactAt hin), h.content]
  dsimp only
  rw [Lib.run_seq (run_guardVerify h)]
  dsimp only
  rw [Lib.run_seq (run_note _), noted_noted]
  rfl

/-- What a refill finds. -/
def BufSource.next (s : BufSource) (M : Mount) : Bytes :=
  M.range (s.start + s.drained.consumed) (min (s.len - s.drained.consumed) s.buf.length)

theorem run_refill {s : BufSource} (h : Pristine M w) (hpos : s.pos = s.filled)
    (hrest : s.drained.consumed < s.len)
    (hin : s.start + s.len ≤ M.archive.length) :
    Lib.run (det K M t) (s.fillBuf M) w =
      some (({ s.drained with
          buf := s.next M ++ s.buf.drop (min (s.len - s.drained.consumed) s.buf.length)
          filled := min (s.len - s.drained.consumed) s.buf.length }, .ok (s.next M)),
        w.noted t [.compared (.ok none), .guarded (s.start + s.drained.consumed) (s.next M)]) := by
  set want := min (s.len - s.drained.consumed) s.buf.length with hwant
  have hlen : (s.buf.take want).length = want := by
    rw [List.length_take]
    omega
  have hnext : s.next M = M.range (s.start + s.drained.consumed) want := rfl
  have hroom : (s.next M).length = want := by
    rw [hnext, Mount.range, List.length_take, List.length_drop]
    omega
  have hread := run_guardedReadExactAt (K := K) (t := t) (s.buf.take want) h
    (show s.start + s.drained.consumed + (s.buf.take want).length ≤ _ by omega)
  rw [hlen, ← hnext] at hread
  have hkept : s.drained.len = s.len ∧ s.drained.buf = s.buf ∧ s.drained.start = s.start :=
    ⟨rfl, rfl, rfl⟩
  unfold BufSource.fillBuf
  rw [if_pos hpos]
  dsimp only
  rw [hkept.1, hkept.2.1, hkept.2.2, if_neg (by omega), ← hwant, Lib.run_seq hread]
  have hwindow : BufSource.window { s.drained with
      buf := s.next M ++ s.buf.drop want, filled := want } = s.next M := by
    simp only [BufSource.window, BufSource.drained, List.drop_zero]
    exact List.take_left' hroom
  dsimp only
  exact congrArg (fun input => some ((_, Except.ok input), _)) hwindow

section Pump

variable {d : PositionedDecoder δ ζ} {src : BufSource} {input out out' : Bytes}
variable {codec : Codec δ ζ} {w' : World τ δ ζ}

/-- One turn of a pump whose codec produces something. -/
theorem run_pump_produced {st : Step} (hout : out ≠ []) (hfin : d.finished = false)
    (hfill : Lib.run (det K M t) (d.src.fillBuf M) w = some ((src, .ok input), w'))
    (hstep : d.codec.step K input out = (codec, out', .ok st)) (hprod : 0 < st.produced) :
    Lib.run (det K M t) (d.pump K M out) w =
      some ((PositionedDecoder.advance { d with codec := codec, src := src.consume st.consumed }
          (out'.take st.produced) st.done, out', .ok st.produced),
        w'.noted t [.fed (src.start + src.consumed + src.pos) input, .stepping d.failed]) := by
  unfold PositionedDecoder.pump
  rw [if_neg (by simp [hout, hfin])]
  unfold PositionedDecoder.pumpLoop
  rw [Lib.run_seq hfill]
  dsimp only
  rw [Lib.run_seq (run_note _), Lib.run_seq (run_note _), noted_noted, hstep]
  dsimp only
  rw [if_pos hprod]
  rfl

/-- One turn of a pump whose codec fails. -/
theorem run_pump_failed {e : CodecError} (hout : out ≠ []) (hfin : d.finished = false)
    (hfill : Lib.run (det K M t) (d.src.fillBuf M) w = some ((src, .ok input), w'))
    (hstep : d.codec.step K input out = (codec, out', .error e)) :
    Lib.run (det K M t) (d.pump K M out) w =
      some (({ d with src := src, codec := codec, failed := true }, out',
          .error (.custom .invalidData e.text)),
        w'.noted t [.fed (src.start + src.consumed + src.pos) input, .stepping d.failed]) := by
  unfold PositionedDecoder.pump
  rw [if_neg (by simp [hout, hfin])]
  unfold PositionedDecoder.pumpLoop
  rw [Lib.run_seq hfill]
  dsimp only
  rw [Lib.run_seq (run_note _), Lib.run_seq (run_note _), noted_noted, hstep]
  rfl

end Pump

end ZipFs

namespace ZipFs.Sample.Torn

/-- The frame up to the first byte of its last sound block: the frame header, empty blocks, and
the header of a block of four bytes. -/
def head : Bytes :=
  [0x28, 0xB5, 0x2F, 0xFD, 0x00, 0x00] ++ (List.replicate 4086 0x00 ++ [0x20, 0x00, 0x00, 0x61])

/-- The rest of that block, and the header of one of the reserved type. Read as blocks it is the
last block of a frame, of three bytes. -/
def tail : Bytes := [0x19, 0x00, 0x00, 0x07, 0x00, 0x00]

/-- How far a zstd context has got with the frame. -/
inductive Phase where
  | fresh
  | inside
  /-- After the error it expects the header of a block. -/
  | torn
  | ended
  deriving DecidableEq

def corrupted : String := "Data corruption detected"

def runOnBuffers : Phase → Bytes → Bytes → Phase × Bytes × Except String RunStatus
  | .fresh, input, output =>
      if head <+: input ∧ output ≠ [] then
        (.inside, [0x61] ++ output.drop 1, .ok ⟨head.length, 1, 6⟩)
      else (.ended, output, .error corrupted)
  | .inside, _, output => (.torn, output, .error corrupted)
  | .torn, input, output =>
      if input = tail ∧ 3 ≤ output.length then
        (.ended, [0x07, 0x00, 0x00] ++ output.drop 3, .ok ⟨6, 3, 0⟩)
      else (.ended, output, .error corrupted)
  | .ended, _, output => (.ended, output, .error corrupted)

def zstd : ZstdRaw Phase where
  new := .fresh
  reinit := fun _ => .fresh
  runOnBuffers := runOnBuffers

def codecs : Codecs Inflater Phase where
  flate := flate
  zstd := zstd
  decode
    | .store, range => ⟨range, true⟩
    | .deflate, range => inflate range
    | .zstd, range =>
        if head ++ tail <+: range then ⟨[0x61, 0x19, 0x00, 0x00], false⟩
        else if head <+: range then ⟨[0x61], false⟩
        else ⟨[], false⟩

/-! ## It keeps the contract -/

theorem length_runOnBuffers (s : Phase) (input output : Bytes) :
    (runOnBuffers s input output).2.1.length = output.length := by
  cases s with
  | fresh =>
      simp only [runOnBuffers]
      split
      · rename_i h
        have := List.length_pos_iff.mpr h.2
        simp only [List.length_append, List.length_cons, List.length_nil, List.length_drop]
        omega
      · rfl
  | torn =>
      simp only [runOnBuffers]
      split
      · simp only [List.length_append, List.length_cons, List.length_nil, List.length_drop]
        omega
      · rfl
  | inside | ended => rfl

/-- What a context that is neither failed nor at the end of the frame has been fed. -/
theorem fed_head {range : Bytes} {s : Phase} {k : Nat} {o : Bytes}
    (h : (Zstd.decompressor zstd).Fed range s k o) :
    s = .fresh ∧ k = 0 ∧ o = [] ∨ s = .inside := by
  induction h with
  | reinit => exact .inl ⟨rfl, rfl, rfl⟩
  | @step s s' k o inp out out' st _ _ _ _ hstep _ _ ih =>
      refine .inr ?_
      rcases ih with ⟨rfl, -⟩ | rfl
      · simp only [Zstd.decompressor, Zstd.step, zstd, runOnBuffers] at hstep
        split at hstep
        · rename_i h
          split at h
          · exact absurd h (by simp)
          · exact absurd hstep (by simp)
        · rename_i h
          split at h
          · obtain ⟨rfl, -⟩ := Prod.mk.inj h
            exact (Prod.mk.inj hstep).1.symm
          · exact absurd h (by simp)
      · exact absurd hstep (by simp [Zstd.decompressor, Zstd.step, zstd, runOnBuffers])

theorem zstd_lawful : (Zstd.decompressor zstd).Lawful (codecs.decode .zstd) where
  room s inp out := by
    simp only [Zstd.decompressor, Zstd.step, zstd]
    split <;> rename_i h <;> rw [← length_runOnBuffers s inp out, h]
  step {range s s' k o inp out out' st} hfed hinp _ hout hstep := by
    rcases fed_head hfed with ⟨rfl, rfl, rfl⟩ | rfl
    · by_cases hc : head <+: inp ∧ out ≠ []
      · simp only [Zstd.decompressor, Zstd.step, zstd, runOnBuffers, if_pos hc] at hstep
        obtain ⟨-, rfl, hst⟩ := Prod.mk.inj hstep |>.imp_right Prod.mk.inj
        obtain rfl := Except.ok.inj hst
        have hrange : head <+: range := hc.1.trans hinp
        have hone : [0x61] <+: (codecs.decode .zstd range).bytes := by
          simp only [codecs, if_pos hrange]
          split
          · exact ⟨[0x19, 0x00, 0x00], rfl⟩
          · exact List.prefix_refl _
        exact ⟨hc.1.length_le, List.length_pos_iff.mpr hout, hone, by simp, by simp⟩
      · simp only [Zstd.decompressor, Zstd.step, zstd, runOnBuffers, if_neg hc] at hstep
        exact absurd (Prod.mk.inj hstep |>.imp_right Prod.mk.inj).2.2 (by simp)
    · exact absurd hstep (by simp [Zstd.decompressor, Zstd.step, zstd, runOnBuffers])

theorem codecs_lawful : codecs.Lawful where
  deflate := deflate_lawful
  zstd := zstd_lawful

/-- No range decodes cleanly, so nothing is promised that zstd would have to keep. -/
theorem codecs_live : codecs.Live where
  deflate := deflate_live
  zstd :=
    { step := by
        intro range c k o inp out _ _ _ _ hclean
        simp only [codecs] at hclean
        repeat' split at hclean
        all_goals exact absurd hclean (by simp) }

/-! ## Its archive -/

theorem length_head : head.length = 4096 := by
  simp only [head, List.length_append, List.length_replicate, List.length_cons, List.length_nil]

def localHeader : Bytes :=
  [0x50, 0x4B, 0x03, 0x04, 0x14, 0x00, 0x00, 0x00, 0x5D, 0x00, 0x00, 0x00, 0x21, 0x00, 0xFF, 0x59,
    0x91, 0xA7, 0x06, 0x10, 0x00, 0x00, 0x04, 0x00, 0x00, 0x00, 0x01, 0x00, 0x00, 0x00, 0x66]

/-- The entry declares what the two reads deliver together. -/
def entry : EntryMeta := { Sample.entry 4 0xA79159FF with compressedSize := 4102, methodRaw := 93 }

def loc : EntryLocation := ⟨31, 4102, .zstd⟩

def mount : Mount where
  archive := localHeader ++ (head ++ tail)
  opened := ⟨1, 2, 4133, (1000, 0)⟩
  named := false
  index := { index 4 0xA79159FF with metas := [entry] }
  given := ⟨true, 4096, 4, 64, 1⟩
  getEntry := getEntry

theorem meta_eq {i : Nat} {m : EntryMeta} (h : mount.index.metas[i]? = some m) :
    i = 0 ∧ m = entry := by
  obtain ⟨hi, rfl⟩ := List.getElem?_eq_some_iff.mp h
  obtain rfl := Nat.lt_one_iff.mp hi
  exact ⟨rfl, rfl⟩

theorem length_archive : mount.archive.length = 4133 := by
  simp only [mount, List.length_append, length_head]
  rfl

theorem drop_header : mount.archive.drop 31 = head ++ tail := List.drop_left' rfl

theorem range_head : mount.range 31 4096 = head := by
  rw [Mount.range, drop_header]
  exact List.take_left' length_head

theorem range_tail : mount.range 4127 6 = tail := by
  have hdrop : mount.archive.drop 4127 = tail := by
    rw [show 4127 = 31 + 4096 from rfl, ← List.drop_drop, drop_header]
    exact List.drop_left' length_head
  rw [Mount.range, hdrop]
  rfl

/-- The bytes of the entry are the whole frame. -/
theorem range_loc : loc.range mount = head ++ tail := by
  simp only [EntryLocation.range, loc, Mount.range, drop_header]
  refine List.take_of_length_le ?_
  rw [List.length_append, length_head]
  decide

theorem stream_loc : loc.stream codecs mount = ⟨[0x61, 0x19, 0x00, 0x00], false⟩ := by
  unfold EntryLocation.stream
  rw [range_loc]
  simp only [Codecs.stream, loc, codecs, if_pos (List.prefix_refl _)]

/-! ## The read that fails -/

/-- A decoder that has taken the first piece, and one that has failed in the second. -/
def begun (skip : Bytes) (serial : Nat) : PositionedDecoder Inflater Phase where
  pos := 1
  finished := false
  verified := false
  crc := some (Crc.new.update [0x61])
  codec := .zstd .inside
  src := ⟨31, 4102, 0, head, 4096, 4096⟩
  skip := skip
  serial := serial
  failed := false

def failed (skip : Bytes) (serial : Nat) : PositionedDecoder Inflater Phase :=
  { begun skip serial with
    codec := .zstd .torn
    src := ⟨31, 4102, 4096, tail ++ head.drop 6, 6, 0⟩
    failed := true }

theorem step_head {out : Bytes} (hout : out ≠ []) :
    (Codec.zstd Phase.fresh : Codec Inflater Phase).step codecs head out =
      (.zstd .inside, [0x61] ++ out.drop 1, .ok ⟨4096, 1, false⟩) := by
  have hif : head <+: head ∧ out ≠ [] := ⟨List.prefix_refl _, hout⟩
  simp only [Codec.step, codecs, Zstd.decompressor, Zstd.step, zstd, runOnBuffers, if_pos hif,
    length_head]
  rfl

theorem step_tail (out : Bytes) :
    (Codec.zstd Phase.inside : Codec Inflater Phase).step codecs tail out =
      (.zstd .torn, out, .error ⟨"zstd: " ++ corrupted⟩) := rfl

section Reads

variable {env : World Unit Inflater Phase → World Unit Inflater Phase → Prop}
variable {w : World Unit Inflater Phase} {skip out : Bytes} {serial : Nat}

abbrev answers : (o : Op Inflater Phase) → World Unit Inflater Phase →
    Option (Res o × World Unit Inflater Phase) :=
  det codecs mount ()

/-- What the thread records while it takes a piece. -/
def pieceNotes (offset : Nat) (data : Bytes) : List Note :=
  [.compared (.ok none), .guarded offset data, .fed offset data, .stepping false]

theorem run_fill_head {buf : Bytes} (h : Pristine mount w) (hbuf : buf.length = 4096) :
    Lib.run answers (BufSource.fillBuf mount ⟨31, 4102, 0, buf, 0, 0⟩) w =
      some ((⟨31, 4102, 0, head, 4096, 0⟩, .ok head),
        w.noted () [.compared (.ok none), .guarded 31 head]) := by
  have hnext : BufSource.next ⟨31, 4102, 0, buf, 0, 0⟩ mount = head := by
    simp only [BufSource.next, BufSource.drained, hbuf]
    exact range_head
  have hfill := run_refill (K := codecs) (t := ()) (s := ⟨31, 4102, 0, buf, 0, 0⟩) h rfl
    (by simp [BufSource.drained]) (by simp [length_archive])
  rw [hnext] at hfill
  simp only [BufSource.drained, hbuf] at hfill
  rw [List.drop_of_length_le (by rw [hbuf]; decide), List.append_nil] at hfill
  exact hfill

theorem run_fill_tail (h : Pristine mount w) :
    Lib.run answers (BufSource.fillBuf mount ⟨31, 4102, 0, head, 4096, 4096⟩) w =
      some ((⟨31, 4102, 4096, tail ++ head.drop 6, 6, 0⟩, .ok tail),
        w.noted () [.compared (.ok none), .guarded 4127 tail]) := by
  have hnext : BufSource.next ⟨31, 4102, 0, head, 4096, 4096⟩ mount = tail := by
    simp only [BufSource.next, BufSource.drained, length_head]
    exact range_tail
  have hfill := run_refill (K := codecs) (t := ()) (s := ⟨31, 4102, 0, head, 4096, 4096⟩) h rfl
    (by simp [BufSource.drained]) (by simp [length_archive])
  rw [hnext] at hfill
  simp only [BufSource.drained, length_head] at hfill
  exact hfill

theorem run_pump_head (skip : Bytes) (serial : Nat) {buf : Bytes} (h : Pristine mount w)
    (hbuf : buf.length = 4096) (hout : out ≠ []) :
    Lib.run answers (PositionedDecoder.pump codecs mount
      (.new codecs loc ⟨.zstd .fresh, buf, skip, serial⟩ true) out) w =
      some ((begun skip serial, [0x61] ++ out.drop 1, .ok 1), w.noted () (pieceNotes 31 head)) := by
  rw [run_pump_produced hout rfl (run_fill_head h hbuf) (step_head hout) Nat.one_pos, noted_noted]
  rfl

theorem run_pump_tail (skip : Bytes) (serial : Nat) (h : Pristine mount w) (hout : out ≠ []) :
    Lib.run answers (PositionedDecoder.pump codecs mount (begun skip serial) out) w =
      some ((failed skip serial, out, .error (.custom .invalidData ("zstd: " ++ corrupted))),
        w.noted () (pieceNotes 4127 tail)) := by
  have hfill : Lib.run answers (BufSource.fillBuf mount (begun skip serial).src) w = _ :=
    run_fill_tail h
  rw [run_pump_failed hout rfl hfill (step_tail out), noted_noted]
  rfl

theorem run_readAt_fails (skip : Bytes) (serial : Nat) {buf : Bytes} (h : Pristine mount w)
    (hbuf : buf.length = 4096) (hout : out.length = 4) :
    Lib.run answers (PositionedDecoder.readAt codecs mount
      (.new codecs loc ⟨.zstd .fresh, buf, skip, serial⟩ true) 0 out 0 entry) w =
      some ((failed skip serial, [0x61] ++ out.drop 1,
          .error (.custom .invalidData ("zstd: " ++ corrupted))),
        w.noted () (pieceNotes 31 head ++ pieceNotes 4127 tail)) := by
  obtain ⟨a, b, c, d, rfl⟩ : ∃ a b c d, out = [a, b, c, d] := by
    match out, hout with
    | [a, b, c, d], _ => exact ⟨a, b, c, d, rfl⟩
  have hfirst := run_pump_head skip serial h hbuf (show [a, b, c, d] ≠ [] by simp)
  have hsecond := run_pump_tail skip serial (h.noted (t := ()) (pieceNotes 31 head))
    (show [b, c, d] ≠ [] by simp)
  rw [noted_noted] at hsecond
  have hskip : Lib.run answers ((PositionedDecoder.new codecs loc
      ⟨.zstd .fresh, buf, skip, serial⟩ true).skipLoop codecs mount 0 0) w =
        some ((.new codecs loc ⟨.zstd .fresh, buf, skip, serial⟩ true, .ok ()), w) := rfl
  have hdeliver : Lib.run answers (PositionedDecoder.deliverLoop codecs mount 4
      (.new codecs loc ⟨.zstd .fresh, buf, skip, serial⟩ true) 4 [a, b, c, d] 0) w =
      some ((failed skip serial, [0x61, b, c, d],
          .error (.custom .invalidData ("zstd: " ++ corrupted))),
        w.noted () (pieceNotes 31 head ++ pieceNotes 4127 tail)) := by
    unfold PositionedDecoder.deliverLoop
    rw [if_pos (by simp [PositionedDecoder.new])]
    refine (Lib.run_seq hfirst).trans ?_
    dsimp only
    rw [if_neg (by simp)]
    unfold PositionedDecoder.deliverLoop
    rw [if_pos (by simp [begun])]
    exact (Lib.run_seq hsecond).trans rfl
  unfold PositionedDecoder.readAt
  rw [if_neg (by simp [PositionedDecoder.new])]
  exact (Lib.run_seq hskip).trans ((Lib.run_seq hdeliver).trans rfl)

/-! ## Around it -/

def pool : EntryPool := ⟨0, 4, loc⟩

def file : OpenFile := ⟨2, 0, 4, .coded pool, loc⟩

/-- The entry is open with so many references, and so many decoders are retained, which are idle
in its pool. -/
structure Held (refs : Nat) (idle : List (PositionedDecoder Inflater Phase)) (lock : Option Unit)
    (retained : Nat) (state : VerifyState) (cores : CoreStore Inflater Phase)
    (w : World Unit Inflater Phase) : Prop where
  pristine : Pristine mount w
  file : w.files 1 = some ⟨file, refs, true⟩
  pools : w.pools = [⟨idle, lock, loc, 4, 0, none⟩]
  retained : w.retained = retained
  state : w.verifyState 0 = state
  cores : w.cores = cores

variable {refs n : Nat} {idle : List (PositionedDecoder Inflater Phase)} {lock : Option Unit}
variable {state : VerifyState} {cores : CoreStore Inflater Phase}

theorem Held.noted (h : Held refs idle lock n state cores w) (ns : List Note) :
    Held refs idle lock n state cores (w.noted () ns) :=
  ⟨h.pristine.noted _, h.file, h.pools, h.retained, h.state, h.cores⟩

theorem Held.arrive (h : Held refs idle lock n state cores w) (c : Call) :
    Held refs idle lock n state cores (ZipFs.arrive () c w) :=
  ⟨h.pristine.of_eq rfl rfl rfl rfl, h.file, h.pools, h.retained, h.state, h.cores⟩

/-- Alone, in the mount of the sample. -/
abbrev Gives {α : Type} (I : World Unit Inflater Phase → Prop) (p : Act Inflater Phase α) (a : α)
    (J : World Unit Inflater Phase → Prop) : Prop :=
  Lib.Gives answers I p a J

theorem gives_note (k : Note) :
    Gives (Held refs idle lock n state cores) (Act.note k) () (Held refs idle lock n state cores) :=
  fun w h => ⟨w.noted () [k], run_note k, h.noted [k]⟩

theorem gives_isStale :
    Gives (Held refs idle lock n state cores) GuardedFile.isStale false
      (Held refs idle lock n state cores) := by
  refine Lib.Gives.op Op.loadStale fun w h => ⟨w, ?_, h⟩
  rw [← h.pristine.stale]
  rfl

theorem gives_loadVerify :
    Gives (Held refs idle lock n state cores) (Act.loadVerify 0) state
      (Held refs idle lock n state cores) := by
  refine Lib.Gives.op (Op.loadVerify 0) fun w h => ⟨w, ?_, h⟩
  rw [← h.state]
  rfl

theorem gives_storeVerify (state' : VerifyState) :
    Gives (Held refs idle lock n state cores) (Act.storeVerify 0 state') ()
      (Held refs idle lock n state' cores) := by
  refine Lib.Gives.op (Op.storeVerify 0 state') fun w h => ⟨_, rfl, ?_⟩
  exact ⟨h.pristine.of_eq rfl rfl rfl rfl, h.file, h.pools, h.retained, rfl, h.cores⟩

theorem gives_getHandle :
    Gives (Held refs idle lock n state cores) (Act.getHandle 1) (some file)
      (Held (refs + 1) idle lock n state cores) := by
  refine Lib.Gives.op (Op.getHandle 1) fun w h => ?_
  simp only [det, h.file]
  exact ⟨_, rfl, h.pristine.of_eq rfl rfl rfl rfl, rfl, h.pools, h.retained, h.state, h.cores⟩

theorem gives_release :
    Gives (Held 2 idle lock n state cores) (file.release 1) ()
      (Held 1 idle lock n state cores) := by
  refine Lib.Gives.seq (a := false) (J := Held 1 idle lock n state cores)
    (Lib.Gives.op (Op.dropFile 1) fun w h => ?_) (.pure fun _ h => h)
  simp only [det, h.file]
  exact ⟨_, rfl, h.pristine.of_eq rfl rfl rfl rfl, rfl, h.pools, h.retained, h.state, h.cores⟩

theorem gives_putScratch (buf : Bytes) :
    Gives (Held refs idle lock n state cores) (Act.putScratch buf) ()
      (Held refs idle lock n state cores) :=
  fun _ h =>
    ⟨_, rfl, h.pristine.of_eq rfl rfl rfl rfl, h.file, h.pools, h.retained, h.state, h.cores⟩

theorem gives_giveBack (d : PositionedDecoder Inflater Phase) :
    Gives (Held refs [] none 0 state cores) (pool.giveBack d) ()
      (Held refs [d] none 1 state cores) := by
  refine Lib.Gives.seq (a := 0) (J := Held refs [] (some ()) 0 state cores)
    (Lib.Gives.op (Op.lockIdle 0) fun w h => ?_) ?_
  · simp only [det, h.pools]
    exact ⟨_, rfl, h.pristine.of_eq rfl rfl rfl rfl, h.file, by simp [World.setPool, h.pools],
      h.retained, h.state, h.cores⟩
  refine Lib.Gives.seq (a := true) (J := Held refs [] (some ()) 1 state cores)
    (Lib.Gives.op Op.tryRetain fun w h => ?_) ?_
  · simp only [det, h.retained]
    exact ⟨_, rfl, h.pristine.of_eq rfl rfl rfl rfl, h.file, h.pools, rfl, h.state, h.cores⟩
  refine Lib.Gives.seq (a := ()) (J := Held refs [d] (some ()) 1 state cores)
    (Lib.Gives.op (Op.pushIdle 0 d) fun w h => ?_) ?_
  · simp only [det, h.pools]
    exact ⟨_, rfl, h.pristine.of_eq rfl rfl rfl rfl, h.file,
      by simp [World.setPool, World.setHand, h.pools], h.retained, h.state, h.cores⟩
  · refine Lib.Gives.op (Op.unlockIdle 0) fun w h => ?_
    simp only [det, h.pools]
    exact ⟨_, rfl, h.pristine.of_eq rfl rfl rfl rfl, h.file, by simp [World.setPool, h.pools],
      h.retained, h.state, h.cores⟩

/-- With nothing idle a checkout makes a decoder, from new parts while there are no others. -/
theorem run_checkout_new (h : Held refs [] none 0 state ⟨fun _ => [], [], []⟩ w) :
    ∃ buf skip serial w', buf.length = 4096 ∧
      Lib.run answers (pool.checkout codecs mount 0) w =
        some (.new codecs loc ⟨.zstd .fresh, buf, skip, serial⟩ true, w') ∧
      Held refs [] none 0 state w'.cores w' := by
  have hpick : Lib.run answers (Act.pick 0 0) w = some (none, w) := by
    refine (Lib.run_op answers (Op.pick 0 0) w).trans ?_
    simp only [det, h.pools]
    rfl
  have htake := Lib.run_op answers (Op.takeCore .zstd) w
  simp only [det, takeCore, h.cores] at htake
  refine ⟨_, _, _, _, ?_, (Lib.run_seq hpick).trans ((Lib.run_seq htake).trans rfl), ?_⟩
  · exact List.length_replicate
  · exact ⟨h.pristine.of_eq rfl rfl rfl rfl, h.file, h.pools, h.retained, h.state, rfl⟩

/-- The decoder that has failed is taken as it is. -/
theorem gives_checkout_failed :
    Gives (Held refs [failed skip serial] none 1 state cores) (pool.checkout codecs mount 1)
      (failed skip serial) (Held refs [] none 0 state cores) := by
  refine Lib.Gives.seq (a := some (failed skip serial, false))
    (J := Held refs [] none 1 state cores)
    (Lib.Gives.op (Op.pick 0 1) fun w h => ?_) ?_
  · simp only [det, h.pools]
    exact ⟨_, rfl, h.pristine.of_eq rfl rfl rfl rfl, h.file,
      by simp [World.setPool, World.setHand, h.pools], h.retained, h.state, h.cores⟩
  · refine Lib.Gives.seq (a := ()) (J := Held refs [] none 0 state cores)
      (Lib.Gives.op Op.releaseRetain fun w h => ?_) (.pure fun _ h => h)
    simp only [det, h.retained]
    exact ⟨_, rfl, h.pristine.of_eq rfl rfl rfl rfl, h.file, h.pools, rfl, h.state, h.cores⟩

/-! ## The read that goes on -/

/-- The decoder at the end of a frame that nobody wrote. -/
def resumed (skip : Bytes) (serial : Nat) : PositionedDecoder Inflater Phase :=
  { failed skip serial with
    pos := 4
    finished := true
    crc := some (Crc.new.update [0x61, 0x07, 0x00, 0x00])
    codec := .zstd .ended
    src := ⟨31, 4102, 4096, tail ++ head.drop 6, 6, 6⟩ }

/-- The bytes have the checksum that the central directory records. -/
theorem crc_resumed : (Crc.new.update [0x61, 0x07, 0x00, 0x00]).finalize = 0xA79159FF := by
  decide +kernel

theorem gives_pump_resumed (hout : out.length = 3) :
    Gives (Held refs idle lock n state cores)
      (PositionedDecoder.pump codecs mount (failed skip serial) out)
      (resumed skip serial, [0x07, 0x00, 0x00], .ok 3) (Held refs idle lock n state cores) := by
  obtain ⟨a, b, c, rfl⟩ : ∃ a b c, out = [a, b, c] := by
    match out, hout with
    | [a, b, c], _ => exact ⟨a, b, c, rfl⟩
  intro w h
  have hfill : Lib.run answers (BufSource.fillBuf mount (failed skip serial).src) w =
      some (((failed skip serial).src, .ok tail), w) := rfl
  have hstep : (failed skip serial).codec.step codecs tail [a, b, c] =
      (.zstd .ended, [0x07, 0x00, 0x00], .ok ⟨6, 3, true⟩) := rfl
  have hpump := run_pump_produced (by simp) rfl hfill hstep (by decide)
  exact ⟨_, hpump.trans rfl, h.noted _⟩

theorem gives_verify_resumed :
    Gives (Held refs idle lock n state cores)
      (PositionedDecoder.verify codecs mount 0 entry (resumed skip serial))
      ({ resumed skip serial with verified := true }, .ok ())
      (Held refs idle lock n .ok cores) := by
  have hpump : Gives (Held refs idle lock n state cores)
      (PositionedDecoder.pump codecs mount { resumed skip serial with verified := true } [0])
      ({ resumed skip serial with verified := true }, [0], .ok 0)
      (Held refs idle lock n state cores) :=
    .pure fun _ h => h
  unfold PositionedDecoder.verify
  rw [if_neg (by simp [resumed, failed, begun])]
  dsimp only
  rw [if_neg (show ¬ (resumed skip serial).pos ≠ entry.uncompressedSize from not_not.mpr rfl)]
  refine hpump.seq ?_
  dsimp only
  rw [if_neg (by simp [crc_resumed, entry, Sample.entry])]
  exact (gives_storeVerify .ok).seq (.pure fun _ h => h)

theorem gives_readAt_resumed (hout : out.length = 3) :
    Gives (Held refs idle lock n state cores)
      ((failed skip serial).readAt codecs mount 1 out 0 entry)
      ({ resumed skip serial with verified := true }, [0x07, 0x00, 0x00], .ok 3)
      (Held refs idle lock n .ok cores) := by
  have hskip : Gives (Held refs idle lock n state cores)
      ((failed skip serial).skipLoop codecs mount 0 1) (failed skip serial, .ok ())
      (Held refs idle lock n state cores) := .pure fun _ h => h
  have hdeliver : Gives (Held refs idle lock n state cores)
      ((failed skip serial).deliverLoop codecs mount 3 4 out 0)
      (resumed skip serial, [0x07, 0x00, 0x00], .ok 3) (Held refs idle lock n state cores) := by
    obtain ⟨a, b, c, rfl⟩ : ∃ a b c, out = [a, b, c] := by
      match out, hout with
      | [a, b, c], _ => exact ⟨a, b, c, rfl⟩
    unfold PositionedDecoder.deliverLoop
    rw [if_pos (by simp [failed, begun])]
    exact (gives_pump_resumed hout).seq (.pure fun _ h => h)
  unfold PositionedDecoder.readAt
  rw [if_neg (show ¬ 1 < (failed skip serial).pos from Nat.lt_irrefl 1)]
  dsimp only
  rw [hout]
  refine hskip.seq (hdeliver.seq ?_)
  exact gives_verify_resumed.seq ((gives_note _).seq (.pure fun _ h => h))

/-! ## The calls -/

theorem gives_guardVerify :
    Gives (Held refs idle lock n state cores) (GuardedFile.verify mount) (.ok ())
      (Held refs idle lock n state cores) :=
  fun _ h => ⟨_, run_guardVerify h.pristine, h.noted _⟩

theorem gives_diagnose :
    Gives (Held refs idle lock n state cores) (Fs.diagnose mount EIO) EIO
      (Held refs idle lock n state cores) := by
  have hcheck : Gives (Held refs idle lock n state cores) (Archive.check mount) .current
      (Held refs idle lock n state cores) := gives_guardVerify.seq (.pure fun _ h => h)
  unfold Fs.diagnose
  rw [if_pos rfl]
  exact (gives_note _).seq (hcheck.seq (.pure fun _ h => h))

/-- The entry is opened. -/
theorem run_open : ∃ w : World Unit Inflater Phase,
    Lib.run answers (Call.prog codecs mount (.openFile 2 .rdonly))
      (arrive () (Call.openFile 2 .rdonly) (World.start mount none)) = some (.opened 1, w) ∧
      Held 1 [] none 0 .unknown ⟨fun _ => [], [], []⟩ w :=
  ⟨_, rfl, ⟨rfl, rfl, rfl, rfl, rfl⟩, rfl, rfl, rfl, rfl, rfl⟩

/-- What a read answers that fails only with an error of the entry. -/
def replyOf (got : Bytes) : Except Nat Nat → Reply
  | .ok k => .data (got.take k)
  | .error _ => .error EIO

/-- A read of the file is what `readInto` does between the start of the call and its end. -/
theorem run_read (offset size : Nat) (h : Held 1 idle none n .unknown cores w)
    (hsize : min size (4 - offset) ≠ 0) :
    ∃ w' buf, buf.length = min size (4 - offset) ∧ Held 2 idle none n .unknown cores w' ∧
      ∀ {got r w'' idle' n' state' cores'},
        Lib.run answers (Fs.readInto codecs mount file entry offset buf) w' =
          some ((got, r), w'') →
        (∀ e, r = .error e → e = EIO) → Held 2 idle' none n' state' cores' w'' →
        ∃ w''', Lib.run answers (Fs.read codecs mount 1 offset size) w =
            some (replyOf got r, w''') ∧ Held 1 idle' none n' state' cores' w''' := by
  obtain ⟨w₁, hget, h₁⟩ := gives_getHandle w h
  obtain ⟨w₂, hnote, h₂⟩ := gives_note .handleFound w₁ h₁
  obtain ⟨w₃, hstale, h₃⟩ := gives_isStale w₂ h₂
  obtain ⟨w₄, hload, h₄⟩ := gives_loadVerify w₃ h₃
  have hscratch : Lib.run answers Act.getScratch w₄ = some (w₄.scratch (), w₄) := rfl
  set want := min size (4 - offset) with hwant
  set scratch := w₄.scratch () ++ List.replicate (want - (w₄.scratch ()).length) 0 with hs
  have hlen : (scratch.take want).length = want := by
    rw [List.length_take, hs, List.length_append, List.length_replicate]
    omega
  refine ⟨w₄, scratch.take want, hlen, h₄, ?_⟩
  intro got r w₅ idle' n' state' cores' hinto hr h₅
  obtain ⟨w₆, hput, h₆⟩ := gives_putScratch (got ++ scratch.drop want) w₅ h₅
  have hlent : Lib.run answers (Fs.withScratch want fun buf =>
      Fs.readInto codecs mount file entry offset buf) w₄ = some ((got, r), w₆) :=
    (Lib.run_seq hscratch).trans ((Lib.run_seq hinto).trans ((Lib.run_seq hput).trans rfl))
  have hanswer : ∃ w₇, Lib.run answers
      (match r with
        | .ok k => pure (.data (got.take k))
        | .error e => do
            let errno ← Fs.diagnose mount e
            pure (.error errno)) w₆ = some (replyOf got r, w₇) ∧
        Held 2 idle' none n' state' cores' w₇ := by
    cases r with
    | ok k => exact ⟨w₆, rfl, h₆⟩
    | error e =>
        obtain rfl := hr e rfl
        exact (gives_diagnose.seq (f := fun errno => pure (Reply.error errno))
          (.pure fun _ h => h)) w₆ h₆
  obtain ⟨w₇, hanswer, h₇⟩ := hanswer
  have hfile : Lib.run answers (Fs.readFile codecs mount file offset size) w₂ =
      some (replyOf got r, w₇) := by
    have hentry : mount.index.metas[file.metaIdx]? = some entry := rfl
    have hnonempty : ¬ min size (file.size - offset) = 0 := hsize
    unfold Fs.readFile
    rw [Lib.run_seq hstale, if_neg Bool.false_ne_true, hentry]
    dsimp only
    refine (Lib.run_seq hload).trans ?_
    rw [if_neg (by simp), if_neg hnonempty]
    exact (Lib.run_seq hlent).trans hanswer
  obtain ⟨w₈, hdrop, h₈⟩ := gives_release w₇ h₇
  refine ⟨w₈, ?_, h₈⟩
  unfold Fs.read
  rw [Lib.run_seq hget]
  dsimp only
  rw [Lib.run_seq hnote, Lib.run_seq hfile, Lib.run_seq hdrop]
  rfl

/-- The first read: the decoder fails in the second piece and is put back. -/
theorem run_read_fails (h : Held 1 [] none 0 .unknown ⟨fun _ => [], [], []⟩ w) :
    ∃ skip serial cores w', Lib.run answers (Fs.read codecs mount 1 0 4) w =
      some (.error EIO, w') ∧ Held 1 [failed skip serial] none 1 .unknown cores w' := by
  obtain ⟨w₁, buf, hbuf, h₁, hread⟩ := run_read 0 4 h (by decide)
  obtain ⟨window, skip, serial, w₂, hwindow, hcheckout, h₂⟩ := run_checkout_new h₁
  have hfails := run_readAt_fails skip serial h₂.pristine hwindow hbuf
  obtain ⟨w₃, hgive, h₃⟩ := gives_giveBack (failed skip serial) _
    (h₂.noted (pieceNotes 31 head ++ pieceNotes 4127 tail))
  have hinto : Lib.run answers (Fs.readInto codecs mount file entry 0 buf) w₁ =
      some (([0x61] ++ buf.drop 1, .error EIO), w₃) :=
    (Lib.run_seq hcheckout).trans ((Lib.run_seq hfails).trans ((Lib.run_seq hgive).trans rfl))
  obtain ⟨w₄, hcall, h₄⟩ := hread hinto (fun e he => (Except.error.inj he).symm) h₃
  exact ⟨skip, serial, _, w₄, hcall, h₄⟩

/-- The second read: the decoder is taken as it is, and goes on. -/
theorem run_read_resumed (h : Held 1 [failed skip serial] none 1 .unknown cores w) :
    ∃ w', Lib.run answers (Fs.read codecs mount 1 1 3) w = some (.data [0x07, 0x00, 0x00], w') ∧
      Held 1 [{ resumed skip serial with verified := true }] none 1 .ok cores w' := by
  obtain ⟨w₁, buf, hbuf, h₁, hread⟩ := run_read 1 3 h (by decide)
  obtain ⟨w₂, hcheckout, h₂⟩ := gives_checkout_failed w₁ h₁
  obtain ⟨w₃, hresumes, h₃⟩ := gives_readAt_resumed hbuf w₂ h₂
  obtain ⟨w₄, hgive, h₄⟩ := gives_giveBack _ w₃ h₃
  have hinto : Lib.run answers (Fs.readInto codecs mount file entry 1 buf) w₁ =
      some (([0x07, 0x00, 0x00], .ok 3), w₄) :=
    (Lib.run_seq hcheckout).trans ((Lib.run_seq hresumes).trans ((Lib.run_seq hgive).trans rfl))
  exact hread hinto (fun e he => nomatch he) h₄

end Reads

def calls : List Call := [.openFile 2 .rdonly, .read 1 0 4, .read 1 1 3]

/-- **The first read fails, and the second delivers bytes that the entry does not decode to.** -/
theorem calls_answered
    {S : Lib.System Unit (World Unit Inflater Phase) Call Reply (@Res Inflater Phase)}
    (hprog : S.prog = Call.prog codecs mount) (harrive : S.arrive = arrive) :
    ∃ w : World Unit Inflater Phase,
      Lib.runCalls S (det codecs mount ()) () calls (World.start mount none) =
          some ([.opened 1, .error EIO, .data [0x07, 0x00, 0x00]], w) ∧
        w.verifyState 0 = .ok ∧
        (w.files 1).map (fun cell => (cell.file.loc, cell.file.metaIdx)) = some (loc, 0) := by
  obtain ⟨w₁, hopen, h₁⟩ := run_open
  obtain ⟨skip, serial, cores, w₂, hfails, h₂⟩ := run_read_fails (h₁.arrive (.read 1 0 4))
  obtain ⟨w₃, hresumed, h₃⟩ := run_read_resumed (h₂.arrive (.read 1 1 3))
  refine ⟨w₃, ?_, h₃.state, by rw [h₃.file]; rfl⟩
  simp only [calls, Lib.runCalls, hprog, harrive, hopen]
  simp only [Call.prog, hfails, hresumed, Option.map_some]

end ZipFs.Sample.Torn
