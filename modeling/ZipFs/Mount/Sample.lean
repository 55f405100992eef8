import ZipFs.Mount.Sound

/-!
# A mount small enough to run

One archive with one deflated entry, and codecs that behave on it as the real ones do.
The deflate codec knows a single stream, the one that a deflater makes of the letter
`a`; fed anything else it fails, as it does on a stream that is not deflate at all. It
keeps the contract of a stream decoder, whatever range it is fed, so it serves to show
that what is proved of all mounts says something about one.
-/

namespace ZipFs.Sample

/-! ## A codec for one stream -/

/-- The raw deflate stream of `a`. -/
def code : Bytes := [0x4B, 0x04, 0x00]

def text : Bytes := [0x61]

structure Inflater where
  /-- How much of the stream has been matched, or `none` after a failure. -/
  matched : Option Nat
  totalIn : Nat
  totalOut : Nat

def Inflater.decompress (s : Inflater) (input output : Bytes) :
    Inflater × Bytes × Except String Status :=
  match s.matched with
  | none => (s, output, .error "invalid stream")
  | some k =>
      if code.drop k <+: input then
        (⟨some code.length, s.totalIn + (code.drop k).length, s.totalOut + 1⟩,
          text.take output.length ++ output.drop 1, .ok .streamEnd)
      else if input <+: code.drop k then
        (⟨some (k + input.length), s.totalIn + input.length, s.totalOut⟩, output, .ok .ok)
      else (⟨none, s.totalIn, s.totalOut⟩, output, .error "invalid stream")

def flate : Flate Inflater where
  new := ⟨some 0, 0, 0⟩
  reset := fun _ => ⟨some 0, 0, 0⟩
  totalIn := Inflater.totalIn
  totalOut := Inflater.totalOut
  decompress := Inflater.decompress

/-- A zstd decoder that is offered no zstd stream. -/
def zstd : ZstdRaw Unit where
  new := ()
  reinit := id
  runOnBuffers := fun _ _ output => ((), output, .error "unknown frame descriptor")

def inflate (range : Bytes) : Stream :=
  if code <+: range then ⟨text, true⟩
  else if range <+: code then ⟨[], true⟩
  else ⟨[], false⟩

def codecs : Codecs Inflater Unit where
  flate := flate
  zstd := zstd
  decode
    | .store, range => ⟨range, true⟩
    | .deflate, range => inflate range
    | .zstd, _ => ⟨[], false⟩

/-! ## It keeps the contract -/

/-- What the wrapper makes of a call that completes the stream. -/
theorem step_complete {s : Inflater} {k : Nat} {inp out : Bytes} (hs : s.matched = some k)
    (h : code.drop k <+: inp) :
    (Deflate.decompressor flate).step s inp out =
      (⟨some 3, s.totalIn + (code.drop k).length, s.totalOut + 1⟩,
        text.take out.length ++ out.drop 1, .ok ⟨(code.drop k).length, 1, true⟩) := by
  have hlen : (code.drop k).length < 2 ^ 64 := by
    rw [List.length_drop]
    exact Nat.lt_of_le_of_lt (Nat.sub_le _ _) (by decide)
  simp only [Deflate.decompressor, Deflate.step, flate, Inflater.decompress, hs, if_pos h]
  rw [Nat.add_sub_cancel_left, Nat.add_sub_cancel_left]
  unfold toUsize
  rw [if_pos hlen]
  rfl

/-- A call that matches all of its input without completing the stream. -/
theorem step_matching {s : Inflater} {k : Nat} {inp out : Bytes} (hs : s.matched = some k)
    (hnot : ¬ code.drop k <+: inp) (h : inp <+: code.drop k) :
    (Deflate.decompressor flate).step s inp out =
      (⟨some (k + inp.length), s.totalIn + inp.length, s.totalOut⟩, out,
        .ok ⟨inp.length, 0, false⟩) := by
  have hlen : inp.length < 2 ^ 64 := by
    have := h.length_le
    rw [List.length_drop] at this
    exact Nat.lt_of_le_of_lt this (Nat.lt_of_le_of_lt (Nat.sub_le _ _) (by decide))
  simp only [Deflate.decompressor, Deflate.step, flate, Inflater.decompress, hs, if_neg hnot,
    if_pos h]
  rw [Nat.add_sub_cancel_left, Nat.sub_self]
  unfold toUsize
  rw [if_pos hlen]
  rfl

/-- Any other call fails. -/
theorem step_invalid {s : Inflater} {k : Nat} {inp out : Bytes} (hs : s.matched = some k)
    (hnot : ¬ code.drop k <+: inp) (h : ¬ inp <+: code.drop k) :
    (Deflate.decompressor flate).step s inp out =
      (⟨none, s.totalIn, s.totalOut⟩, out, .error ⟨"deflate: " ++ "invalid stream"⟩) := by
  simp only [Deflate.decompressor, Deflate.step, flate, Inflater.decompress, hs, if_neg hnot,
    if_neg h]

theorem step_failed {s : Inflater} {inp out : Bytes} (hs : s.matched = none) :
    (Deflate.decompressor flate).step s inp out =
      (s, out, .error ⟨"deflate: " ++ "invalid stream"⟩) := by
  simp only [Deflate.decompressor, Deflate.step, flate, Inflater.decompress, hs]

/-- What a context that has been fed `k` bytes of a range has matched. -/
structure Matched (range : Bytes) (s : Inflater) (k : Nat) (o : Bytes) : Prop where
  matched : s.matched = some k
  short : k < code.length
  inside : k ≤ range.length
  same : range.take k = code.take k
  nothing : o = []

theorem fed_matched {range : Bytes} {s : Inflater} {k : Nat} {o : Bytes}
    (h : (Deflate.decompressor flate).Fed range s k o) : Matched range s k o := by
  induction h with
  | reinit => exact ⟨rfl, by decide, Nat.zero_le _, rfl, rfl⟩
  | @step s s' k o inp out out' st _ hinp _ _ hstep hdone _ ih =>
      by_cases hc : code.drop k <+: inp
      · rw [step_complete ih.matched hc] at hstep
        obtain ⟨-, -, hst⟩ := Prod.mk.inj hstep |>.imp_right Prod.mk.inj
        rw [← Except.ok.inj hst] at hdone
        exact absurd hdone (by simp)
      · by_cases hp : inp <+: code.drop k
        · rw [step_matching ih.matched hc hp] at hstep
          obtain ⟨rfl, rfl, hst⟩ := Prod.mk.inj hstep |>.imp_right Prod.mk.inj
          obtain rfl := Except.ok.inj hst
          have hlt : inp.length < (code.drop k).length := by
            rcases Nat.lt_or_ge inp.length (code.drop k).length with h | h
            · exact h
            · exact absurd ((hp.eq_of_length_le h) ▸ List.prefix_refl _) hc
          have hle := hinp.length_le
          have := ih.short
          have := ih.inside
          rw [List.length_drop] at hlt hle
          refine ⟨rfl, by dsimp only; omega, by dsimp only; omega, ?_, ?_⟩
          · dsimp only
            rw [List.take_add, List.take_add, ih.same, ← List.prefix_iff_eq_take.mp hinp,
              ← List.prefix_iff_eq_take.mp hp]
          · rw [ih.nothing]
            rfl
        · rw [step_invalid ih.matched hc hp] at hstep
          exact absurd (Prod.mk.inj hstep |>.imp_right Prod.mk.inj).2.2 (by simp)

/-- Two lists that begin alike are prefixes of one another as their rests are. -/
theorem prefix_iff_drop {xs ys : Bytes} {k : Nat} (h : xs.take k = ys.take k) :
    xs <+: ys ↔ xs.drop k <+: ys.drop k := by
  have hi : xs.take k ++ xs.drop k <+: xs.take k ++ ys.drop k ↔ xs.drop k <+: ys.drop k :=
    List.prefix_append_right_inj (xs.take k)
  rw [List.take_append_drop, h, List.take_append_drop] at hi
  exact hi

theorem inflate_complete {range inp : Bytes} {s : Inflater} {k : Nat} {o : Bytes}
    (h : Matched range s k o) (hinp : inp <+: range.drop k) (hc : code.drop k <+: inp) :
    inflate range = ⟨text, true⟩ :=
  if_pos ((prefix_iff_drop h.same.symm).mpr (hc.trans hinp))

/-- A range that has run out before the code was complete decodes to nothing. -/
theorem inflate_dry {range : Bytes} {s : Inflater} {k : Nat} {o : Bytes}
    (h : Matched range s k o) (hdry : range.length ≤ k) : inflate range = ⟨[], true⟩ := by
  have hlong : ¬ code <+: range := by
    intro hp
    have := hp.length_le
    have := h.short
    omega
  have hshort : range <+: code := by
    rw [← List.take_of_length_le hdry, h.same]
    exact List.take_prefix k code
  unfold inflate
  rw [if_neg hlong, if_pos hshort]

theorem deflate_lawful : (Deflate.decompressor flate).Lawful inflate where
  room s inp out := by
    have hone : (text.take out.length ++ out.drop 1).length = out.length := by
      simp only [List.length_append, List.length_take, List.length_drop, text, List.length_cons,
        List.length_nil]
      omega
    cases hs : s.matched with
    | none => rw [step_failed hs]
    | some k =>
        by_cases hc : code.drop k <+: inp
        · rw [step_complete hs hc]
          exact hone
        · by_cases hp : inp <+: code.drop k
          · rw [step_matching hs hc hp]
          · rw [step_invalid hs hc hp]
  step {range s s' k o inp out out' st} hfed hinp hempty hout hstep := by
    have hm := fed_matched hfed
    obtain rfl := hm.nothing
    have hroom : 0 < out.length := List.length_pos_iff.mpr hout
    by_cases hc : code.drop k <+: inp
    · rw [step_complete hm.matched hc] at hstep
      obtain ⟨-, rfl, hst⟩ := Prod.mk.inj hstep |>.imp_right Prod.mk.inj
      obtain rfl := Except.ok.inj hst
      have htext : (text.take out.length ++ out.drop 1).take 1 = text := by
        rw [List.take_of_length_le (show text.length ≤ out.length from hroom)]
        exact List.take_left' rfl
      rw [inflate_complete hm hinp hc]
      refine ⟨hc.length_le, hroom, ⟨[], ?_⟩, fun _ => ⟨htext, rfl⟩, ?_⟩
      · rw [List.append_nil]
        exact htext
      · intro _ h
        exact absurd h (by simp)
    · by_cases hp : inp <+: code.drop k
      · rw [step_matching hm.matched hc hp] at hstep
        obtain ⟨-, rfl, hst⟩ := Prod.mk.inj hstep |>.imp_right Prod.mk.inj
        obtain rfl := Except.ok.inj hst
        refine ⟨Nat.le_refl _, Nat.zero_le _, List.nil_prefix, by simp, ?_⟩
        intro hnil _
        rw [inflate_dry hm (hempty hnil)]
        exact ⟨rfl, rfl⟩
      · rw [step_invalid hm.matched hc hp] at hstep
        exact absurd (Prod.mk.inj hstep |>.imp_right Prod.mk.inj).2.2 (by simp)

theorem deflate_live : (Deflate.decompressor flate).Live inflate where
  step {range s k o inp out} hfed hinp hempty hout hclean := by
    have hm := fed_matched hfed
    by_cases hc : code.drop k <+: inp
    · exact ⟨_, _, _, step_complete hm.matched hc, fun h => absurd h (by simp)⟩
    · by_cases hp : inp <+: code.drop k
      · exact ⟨_, _, _, step_matching hm.matched hc hp, fun _ h _ => List.length_eq_zero_iff.mp h⟩
      · -- on a clean range one of the two is a prefix of the other
        exfalso
        unfold inflate at hclean
        split at hclean
        · rename_i hcode
          have hcode := (prefix_iff_drop hm.same.symm).mp hcode
          exact (List.prefix_or_prefix_of_prefix hcode hinp).elim hc hp
        · split at hclean
          · rename_i hrange
            exact hp (hinp.trans ((prefix_iff_drop hm.same).mp hrange))
          · exact absurd hclean (by simp)

theorem zstd_step (c : Unit) (inp out : Bytes) :
    (Zstd.decompressor zstd).step c inp out =
      (c, out, .error ⟨"zstd: " ++ "unknown frame descriptor"⟩) := rfl

theorem codecs_lawful : codecs.Lawful where
  deflate := deflate_lawful
  zstd :=
    { room := fun _ _ _ => rfl
      step := fun _ _ _ _ h => absurd (Prod.mk.inj h |>.imp_right Prod.mk.inj).2.2 (by simp) }

theorem codecs_live : codecs.Live where
  deflate := deflate_live
  zstd := { step := fun _ _ _ _ h => absurd h (by simp [codecs]) }

/-! ## An archive with one entry -/

/-- The local header of the entry `f`, and its data. -/
def archive : Bytes :=
  [0x50, 0x4B, 0x03, 0x04, 0x14, 0x00, 0x00, 0x00, 0x08, 0x00, 0x00, 0x00, 0x21, 0x00,
    0x43, 0xBE, 0xB7, 0xE8, 0x03, 0x00, 0x00, 0x00, 0x01, 0x00, 0x00, 0x00, 0x01, 0x00,
    0x00, 0x00, 0x66] ++ code

/-- A little-endian number of two bytes. -/
def u16 (header : Bytes) (i : Nat) : Nat :=
  (header[i]?.getD 0).toNat + 256 * (header[i + 1]?.getD 0).toNat

/-- Reads the local header at the offset and finds the data behind its name and extra field. -/
def getEntry (offset : Nat) : Lib.Prog ReadAt.Answer (Except String (Nat × Nat)) :=
  .op ⟨30, offset⟩ fun r =>
    match r with
    | .error _ => .ret (.error "cannot read the local header")
    | .ok header =>
        if header.length = 30 ∧ header.take 4 = [0x50, 0x4B, 0x03, 0x04] then
          let start := offset + 30 + u16 header 26 + u16 header 28
          .ret (.ok (start, start + u16 header 18))
        else .ret (.error "invalid local header")

/-- The entry, with the size and the checksum that the central directory declares. -/
def entry (size crc : Nat) : EntryMeta where
  wayfinder := 0
  uncompressedSize := size
  compressedSize := 3
  mtimeSec := 0
  mtimeNsec := 0
  crc32 := crc
  methodRaw := 8
  mode := 0o644
  encrypted := false
  symlinkSlot := 0

def index (size crc : Nat) : Index where
  nodes :=
    [⟨0, 0, .dir, false, 0, 0, 0, 0, NO_META⟩, ⟨0, 0, .dir, true, 1, 2, 1, 0, NO_META⟩,
      ⟨0, 1, .file, false, 1, 0, 0, 0, 0⟩]
  metas := [entry size crc]
  names := [0x66]
  symlinks := 0
  totalUncompressed := size

def mount (size crc : Nat) : Mount where
  archive := archive
  opened := ⟨1, 2, 34, (1000, 0)⟩
  named := false
  index := index size crc
  given := ⟨true, 4096, 4, 64, 1⟩
  getEntry := getEntry

/-- An archive whose entry is the stored letter `a`, with the checksum that the central directory
declares. -/
def stored (crc : Nat) : Mount where
  archive := archive.take 8 ++ [0x00, 0x00] ++ (archive.drop 10).take 8 ++ [0x01] ++
    (archive.drop 19).take 12 ++ text
  opened := ⟨1, 2, 32, (1000, 0)⟩
  named := false
  index := { index 1 crc with metas := [{ entry 1 crc with compressedSize := 1, methodRaw := 0 }] }
  given := ⟨true, 4096, 4, 64, 1⟩
  getEntry := getEntry

theorem meta_eq {size crc i : Nat} {m : EntryMeta}
    (h : (mount size crc).index.metas[i]? = some m) : m = entry size crc :=
  List.mem_singleton.mp (List.mem_of_getElem? h)

/-! ## Serving calls -/

/-- The checksum of the entry's content. -/
def checksum : Nat := 0xE8B7BE43

example : crc32 text = checksum := by decide +kernel

/-- One thread answering one call after the other, with sound decoders, and the state it leaves. -/
def serve (size crc : Nat) (calls : List Call) : Option (List Reply × World Unit Inflater Unit) :=
  Lib.runCalls (soundMount Unit codecs (mount size crc)) (detSound codecs (mount size crc) ()) ()
    calls (World.start (mount size crc) none)

/-- Its replies are in the history of a run. -/
theorem served (size crc : Nat) (calls : List Call) (replies : List Reply)
    (h : (serve size crc calls).map (·.1) = some replies) :
    ∃ c : Lib.Config Unit (World Unit Inflater Unit) Call Reply (@Res Inflater Unit),
      SoundRun codecs (mount size crc) none c ∧
        ∀ x ∈ calls.zip replies, ∃ e ∈ c.history, e.call = x.1 ∧ e.reply = x.2 := by
  obtain ⟨⟨as, w⟩, hserve, rfl⟩ := Option.map_eq_some_iff.mp h
  obtain ⟨c, hc, -, -, -, hall⟩ := Lib.reachable_runCalls
    (fun o w r w' h => by
      obtain ⟨hdet, hsound⟩ := detSound_exec h
      exact ⟨.inl hdet, hsound⟩) Lib.Reachable.init rfl hserve
  exact ⟨c, hc, hall⟩

end ZipFs.Sample
