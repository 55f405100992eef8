import ZipFs.Mount.FsProof

/-!
# What a mount can do

The specifications so far say what a program returns if it returns. Here is the other
half, for a thread that is left alone while the stamps of the archive are those of the
mount: its checks pass, its reads of the archive succeed, and a decoder of a stream that
decodes cleanly gets to every offset of the stream and delivers what is left of it.

The bounds on the turns of the loops are used here: none of them runs out.
-/

namespace ZipFs

open Lib (Alone Can)

/-! ## The guard passes -/

section Guard

variable {τ δ ζ : Type}

/-- The stamps are those of the mount, and the guard has found nothing else so far. -/
structure Intact (M : Mount) (w : World τ δ ζ) : Prop where
  stamp : w.stamp.unchanged M.opened = true
  path : M.named = true → ∃ named, w.path = some named ∧ named.sameFile M.opened = true ∧
    named.unchanged M.opened = true
  stale : w.stale = false

/-- Nothing has changed but what is recorded of checks. -/
def Untouched (w w' : World τ δ ζ) : Prop :=
  w' = { w with seen := w'.seen, differed := w'.differed, unsure := w'.unsure }

theorem Untouched.refl (w : World τ δ ζ) : Untouched w w := rfl

theorem Untouched.trans {w₁ w₂ w₃ : World τ δ ζ} (h : Untouched w₁ w₂) (h' : Untouched w₂ w₃) :
    Untouched w₁ w₃ := by
  unfold Untouched at h h' ⊢
  rw [h] at h'
  exact h'

variable {K : Codecs δ ζ} {M : Mount}

theorem Untouched.intact {w w' : World τ δ ζ} (h : Untouched w w') (hi : Intact M w) :
    Intact M w' := by
  unfold Untouched at h
  rw [h]
  exact ⟨hi.stamp, hi.path, hi.stale⟩

variable [DecidableEq τ] {t : τ} {w₀ : World τ δ ζ}

/-- An operation that is answered, and touches nothing. -/
theorem can_op {o : Op δ ζ} {Q : Res o → Prop}
    (h : ∀ w, Untouched w₀ w → ∃ r w', det K M t o w = some (r, w') ∧ Untouched w w' ∧ Q r) :
    Can (exec K M t) (Untouched w₀) (.op o .ret) Q := by
  refine Can.op fun w hw => ?_
  obtain ⟨r, w', hdet, hw', hq⟩ := h w hw
  exact ⟨r, w', .inl hdet, hw.trans hw', hq⟩

theorem can_note (n : Note) :
    Can (exec K M t) (Untouched w₀) (Act.note n) fun _ => True :=
  can_op (o := .note n) fun _ _ => ⟨(), _, rfl, rfl, trivial⟩

theorem can_compareStamps (h : Intact M w₀) :
    Can (exec K M t) (Untouched w₀) (GuardedFile.compareStamps M) (· = .ok none) := by
  have hstat : Can (exec K M t) (Untouched w₀) Act.fstat
      fun r => ∃ stamp, r = .ok stamp ∧ stamp.unchanged M.opened = true :=
    can_op (o := .fstat) fun w hw => ⟨_, _, rfl, rfl, w.stamp, rfl, (hw.intact h).stamp⟩
  have hnamed : M.named = true → Can (exec K M t) (Untouched w₀) Act.statNamed
      fun r => ∃ named, r = .ok named ∧ named.sameFile M.opened = true ∧
        named.unchanged M.opened = true := by
    intro hn
    refine can_op (o := .statNamed) fun w hw => ?_
    obtain ⟨named, hpath, hsame, hun⟩ := (hw.intact h).path hn
    refine ⟨.ok named,
      { w with differed := w.differed || !named.sameFile M.opened || !named.unchanged M.opened },
      ?_, rfl, named, rfl, hsame, hun⟩
    simp only [det, hpath]
  unfold GuardedFile.compareStamps
  refine Can.bind hstat ?_
  intro r hr
  obtain ⟨stamp, rfl, hstamp⟩ := hr
  dsimp only
  rw [if_pos hstamp]
  by_cases hn : M.named = true
  · rw [if_pos hn]
    refine Can.bind (hnamed hn) ?_
    intro r hr
    obtain ⟨named, rfl, hsame, hun⟩ := hr
    dsimp only
    rw [if_pos hsame, if_pos hun]
    exact .pure rfl
  · rw [if_neg hn]
    exact .pure rfl

/-- A check passes while the stamps are those of the mount, also after one that did not finish. -/
theorem can_verify (h : Intact M w₀) :
    Can (exec K M t) (Untouched w₀) (GuardedFile.verify M) (· = .ok ()) := by
  have hstale : Can (exec K M t) (Untouched w₀) GuardedFile.isStale (· = false) :=
    can_op (o := .loadStale) fun w hw => ⟨w.stale, w, rfl, rfl, (hw.intact h).stale⟩
  unfold GuardedFile.verify
  refine Can.bind hstale ?_
  intro stale hs
  rw [hs]
  refine Can.bind (can_compareStamps h) ?_
  intro found hfound
  rw [hfound]
  refine Can.bind (can_note _) fun _ _ => ?_
  refine Can.bind (can_op (o := .loadUnsure) (Q := fun _ => True)
    fun w _ => ⟨w.unsure, w, rfl, rfl, trivial⟩) ?_
  intro unsure _
  split
  · exact Can.bind (can_op (o := .swapUnsure false) (Q := fun _ => True)
      fun w _ => ⟨w.unsure, _, rfl, rfl, trivial⟩) fun _ _ => .pure rfl
  · exact .pure rfl

/-- Reading the file inside its bounds. -/
theorem can_fileReadExactAt (buf : Bytes) (offset : Nat)
    (hlen : offset + buf.length ≤ w₀.content.length) :
    Can (exec K M t) (Untouched w₀) (File.readExactAt buf offset) (fun x => x.2 = .ok ()) := by
  induction buf generalizing offset with
  | nil => exact .pure rfl
  | cons b buf ih =>
      rw [List.length_cons] at hlen
      have hcell : Can (exec K M t) (Untouched w₀) (Act.cell offset)
          fun r => ∃ c, r = .ok (some c) := by
        refine can_op (o := .cell offset) fun w hw => ?_
        have hc : w.content = w₀.content := by rw [hw]
        refine ⟨_, w, rfl, rfl, w₀.content[offset], ?_⟩
        rw [hc, List.getElem?_eq_getElem]
      unfold File.readExactAt
      refine Can.bind hcell ?_
      intro r hr
      obtain ⟨c, rfl⟩ := hr
      refine Can.bind (ih (offset + 1) (by omega)) ?_
      intro x hx
      exact .pure hx

/-- **A guarded read inside the file succeeds.** -/
theorem can_readExactAt (h : Intact M w₀) (buf : Bytes) (offset : Nat)
    (hlen : offset + buf.length ≤ w₀.content.length) :
    Can (exec K M t) (Untouched w₀) (GuardedFile.readExactAt M buf offset)
      (fun x => x.2 = .ok ()) := by
  unfold GuardedFile.readExactAt
  refine Can.bind (can_fileReadExactAt buf offset hlen) ?_
  intro x hx
  rcases x with ⟨got, read⟩
  refine Can.bind (can_verify h) ?_
  intro verified hv
  rw [hv, show read = .ok () from hx]
  exact Can.bind (can_note _) fun _ _ => .pure rfl

end Guard

/-! ## Decoders get on -/

section Decoder

variable {τ δ ζ : Type} [DecidableEq τ] {α : Type} (K : Codecs δ ζ) (M : Mount) (t : τ)

/-- Left alone in a mount that is in order and whose archive is as mounted, the program can end
with a result that has `Q`. -/
abbrev Able (p : Act δ ζ α) (Q : α → Prop) : Prop :=
  Can (exec K M t) (fun w : World τ δ ζ => MountInv True False K M w ∧ Intact M w) p Q

variable {K M t}

/-- A program that can run without touching anything is able to. -/
theorem able_of_untouched {p : Act δ ζ α} {Q T : α → Prop}
    (h : ∀ w : World τ δ ζ, MountInv True False K M w → Intact M w →
      Can (exec K M t) (Untouched w) p Q)
    (hm : Does True False K M (Anywhere (τ := τ)) p T) : Able K M t p fun a => Q a ∧ T a := by
  intro w hw
  obtain ⟨a, w', hrun, hw', hq⟩ := h w hw.1 hw.2 w (.refl w)
  obtain ⟨ht, hi⟩ := (hm.anyhow t w hw.1 trivial).alone hw.1 hrun
  exact ⟨a, w', hrun, ⟨hi, hw'.intact hw.2⟩, hq, ht⟩

theorem able_note {n : Note} (h : ∀ w : World τ δ ζ, NoteOk False K M w n) :
    Able K M t (Act.note n) fun _ => True := by
  intro w hw
  have hcan : ∀ w : World τ δ ζ, MountInv True False K M w → Intact M w →
      Can (exec K M t) (Untouched w) (Act.note n) fun _ => True := fun _ _ _ => can_note n
  obtain ⟨a, w', hrun, hw', -⟩ := able_of_untouched hcan (meets_note h) w hw
  exact ⟨a, w', hrun, hw', trivial⟩

variable {loc : EntryLocation} {total : Nat} {d : PositionedDecoder δ ζ}

/-- A source refills its buffer from a range inside the archive. -/
theorem able_fillBuf {s : BufSource} (hs : SourceOk M loc s)
    (hrange : loc.dataStart + loc.compressedSize ≤ M.archive.length) :
    Able K M t (s.fillBuf M) fun x =>
      (∃ input, x.2 = .ok input) ∧ FillOk True M loc s x := by
  refine able_of_untouched ?_ (fillBuf_does hs)
  intro w hi hw
  have hc : w.content = M.archive := hi.honest hw.stamp
  unfold BufSource.fillBuf
  split
  · dsimp only
    split
    · exact .pure ⟨_, rfl⟩
    · refine Can.bind (can_readExactAt hw _ _ ?_) ?_
      · have hstart : s.drained.start = loc.dataStart := hs.start
        have hlen : s.drained.len = loc.compressedSize := hs.len
        rw [hc, List.length_take, hstart, hlen]
        omega
      · intro x hx
        rcases x with ⟨got, r⟩
        rw [show r = .ok () from hx]
        exact .pure ⟨_, rfl⟩
  · exact .pure ⟨_, rfl⟩

/-- The loop of the pump, given a turn for every byte that is left and one more. -/
theorem able_pumpLoop (hK : K.Lawful) (hl : K.Live) (turns : Nat)
    (hd : DecoderOk K M loc total d) (hf : d.failed = false) (hfin : d.finished = false)
    (hclean : (loc.stream K M).clean = true)
    (hrange : loc.dataStart + loc.compressedSize ≤ M.archive.length) {out : Bytes}
    (hout : out ≠ []) (hturns : d.src.remaining < turns) :
    Able K M t (PositionedDecoder.pumpLoop K M turns d out) fun x => ∃ n, x.2.2 = .ok n := by
  induction turns generalizing d out with
  | zero => omega
  | succ turns ih =>
      unfold PositionedDecoder.pumpLoop
      refine Can.bind (able_fillBuf hd.src hrange) ?_
      intro x hx
      obtain ⟨⟨input, hinput⟩, hfill⟩ := hx
      have hfed := hd.fed_filled hf hfin hfill
      rcases x with ⟨src, filled⟩
      obtain rfl : filled = .ok input := hinput
      obtain rfl : input = src.window := hfill.window input rfl
      have hsrc : SourceOk M loc src := hfill.src
      refine Can.bind (able_note fun _ => hsrc.window_archive) fun _ _ => ?_
      refine Can.bind (able_note fun _ => trivial) fun _ _ => ?_
      have hclean' : (K.stream d.codec.method (loc.range M)).clean = true := by
        rw [hd.method]
        exact hclean
      obtain ⟨codec, out', step, hstep, hgo⟩ :=
        Codec.step_live hl hfed hsrc.window_range hfill.empty hout hclean'
      have hc := hd.codec_ok hK hf hfin hfill hout hstep
      rw [hstep]
      dsimp only
      split
      · exact .pure ⟨_, rfl⟩
      rename_i hnone
      have hzero : step.produced = 0 := by omega
      split
      · exact .pure ⟨_, rfl⟩
      rename_i hnot
      have hdone : step.done = false := by simpa using hnot
      split
      · rename_i hstall
        rw [if_pos (hgo hdone hstall hzero)]
        exact .pure ⟨_, rfl⟩
      · rename_i hsome
        refine ih (hc.consumed hd hfin hzero hdone (hc.ne_window hsome)) hf hfin (hc.ne_nil hout) ?_
        -- what was consumed is no longer left
        have hcur : src.consumed + src.pos = d.src.consumed + d.src.pos := hfill.cursor
        have hmove := hsrc.cursor_consume hc.ok.consumed
        have hlen : src.len = d.src.len := hsrc.len.trans hd.src.len.symm
        have hwindow := hsrc.length_window
        have hin : step.consumed ≤ src.window.length := hc.ok.consumed
        have hinside := hsrc.inside
        have hrl : (loc.range M).length = loc.compressedSize := by
          unfold EntryLocation.range
          rw [length_range]
          omega
        have hsl := hsrc.len
        have hle := hsrc.pos
        unfold BufSource.remaining at hturns ⊢
        simp only [BufSource.consume] at hmove ⊢
        omega

/-- A step of the pump is answered. -/
theorem able_pump (hK : K.Lawful) (hl : K.Live) (hd : DecoderOk K M loc total d)
    (hf : d.failed = false) (hclean : (loc.stream K M).clean = true)
    (hrange : loc.dataStart + loc.compressedSize ≤ M.archive.length) {out : Bytes}
    (hout : out ≠ []) :
    Able K M t (d.pump K M out) fun x =>
      (∃ n, x.2.2 = .ok n) ∧ PumpOk True K M loc total d out x := by
  refine Can.meets ?_ (pump_does hK hd hf hout).anyhow fun _ _ _ => trivial
  unfold PositionedDecoder.pump
  split
  · exact .pure ⟨_, rfl⟩
  · rename_i h
    have hfin : d.finished = false := by
      have := (not_or.mp h).2
      simpa using this
    exact able_pumpLoop hK hl _ hd hf hfin hclean hrange hout (Nat.lt_succ_self _)

/-- Skipping to an offset inside the stream. -/
theorem able_skipLoop (hK : K.Lawful) (hl : K.Live) (turns : Nat)
    (hd : DecoderOk K M loc total d) (hf : d.failed = false)
    (hclean : (loc.stream K M).clean = true)
    (hrange : loc.dataStart + loc.compressedSize ≤ M.archive.length) {offset : Nat}
    (hpos : d.pos ≤ offset) (hoffset : offset ≤ (loc.stream K M).bytes.length)
    (hturns : offset - d.pos ≤ turns) :
    Able K M t (PositionedDecoder.skipLoop K M turns d offset) fun x => x.2 = .ok () := by
  induction turns generalizing d with
  | zero =>
      unfold PositionedDecoder.skipLoop
      rw [if_neg (by omega)]
      exact .pure rfl
  | succ turns ih =>
      unfold PositionedDecoder.skipLoop
      split
      · rename_i hlt
        obtain ⟨hlen, hne⟩ := hd.length_skip hK hlt
        refine Can.bind (able_pump hK hl hd hf hclean hrange hne) ?_
        intro x hx
        rcases x with ⟨d', got, r⟩
        obtain ⟨⟨n, hn⟩, hx⟩ := hx
        obtain rfl : r = .ok n := hn
        obtain ⟨hroom, hpos', -, hend⟩ := hx.produced n rfl
        rw [hlen] at hroom
        dsimp only at hpos' hend ⊢
        split
        · -- before its end the stream has another byte
          rename_i hzero
          have hfull := (hx.decoder.finished (hend hzero)).1
          dsimp only at hfull
          omega
        · exact ih (hx.skipped hK hd hlt) (hx.sound n rfl) (by dsimp only; omega)
            (by dsimp only; omega)
      · exact .pure rfl

/-- Delivering ends with all that was asked for, or at the end of the stream. -/
theorem able_deliverLoop (hK : K.Lawful) (hl : K.Live) (turns : Nat)
    (hd : DecoderOk K M loc total d) (hf : d.failed = false)
    (hclean : (loc.stream K M).clean = true)
    (hrange : loc.dataStart + loc.compressedSize ≤ M.archive.length) {out : Bytes} {written : Nat}
    (hturns : out.length - written ≤ turns) :
    Able K M t (PositionedDecoder.deliverLoop K M turns d total out written) fun x =>
      ∃ n, x.2.2 = .ok n := by
  induction turns generalizing d out written with
  | zero =>
      unfold PositionedDecoder.deliverLoop
      rw [if_neg (by omega)]
      exact .pure ⟨_, rfl⟩
  | succ turns ih =>
      unfold PositionedDecoder.deliverLoop
      split
      · rename_i hgo
        obtain ⟨hlen, hne⟩ := length_room hgo
        refine Can.bind (able_pump hK hl hd hf hclean hrange hne) ?_
        intro x hx
        rcases x with ⟨d', got, r⟩
        obtain ⟨⟨n, hn⟩, hx⟩ := hx
        obtain rfl : r = .ok n := hn
        have hroom : got.length = min (total - d.pos) (out.length - written) := hx.room.trans hlen
        dsimp only
        split
        · exact .pure ⟨_, rfl⟩
        · refine ih hx.decoder (hx.sound n rfl) ?_
          rw [List.length_append, List.length_append, List.length_take, List.length_drop, hroom]
          omega
      · exact .pure ⟨_, rfl⟩

/-- **A read at an offset inside a clean stream that is shorter than declared succeeds.** -/
theorem able_decoderReadAt (hK : K.Lawful) (hl : K.Live) {i : Nat} {m : EntryMeta}
    (hd : DecoderOk K M loc m.uncompressedSize d) (hf : d.failed = false) {offset : Nat}
    (hpos : d.pos ≤ offset) {out : Bytes} (hearly : EndsEarly K M loc m offset out.length)
    (hrange : loc.dataStart + loc.compressedSize ≤ M.archive.length) :
    Able K M t (d.readAt K M offset out i m) fun x => ∃ n, x.2.2 = .ok n := by
  obtain ⟨hclean, hoffset, hshort⟩ := hearly
  unfold PositionedDecoder.readAt
  rw [if_neg (by omega)]
  refine Can.bind ((able_skipLoop hK hl _ hd hf hclean hrange hpos hoffset (Nat.le_refl _)).meets
    (skipLoop_does hK _ hd hf hpos).anyhow fun _ _ _ => trivial) ?_
  intro x hx
  rcases x with ⟨d₁, skipped⟩
  obtain ⟨hs, hd₁, -, hskipped⟩ := hx
  obtain rfl : skipped = .ok () := hs
  obtain ⟨hpos₁, hf₁⟩ := hskipped rfl
  refine Can.bind ((able_deliverLoop hK hl _ hd₁ hf₁ hclean hrange (Nat.sub_le _ _)).meets
    (deliverLoop_does hK _ offset 0 hd₁ hf₁ (Nat.zero_le _) hpos₁ (fun h => h) (by simp)).anyhow
    fun _ _ _ => trivial) ?_
  intro x hx
  rcases x with ⟨d₂, out₂, delivered⟩
  obtain ⟨⟨n, hn⟩, hx⟩ := hx
  obtain rfl : delivered = .ok n := hn
  obtain ⟨hroom, hpos₂, hbytes, htotal, -⟩ := hx.delivered n rfl
  have hend : d₂.pos ≤ (loc.stream K M).bytes.length := hx.decoder.pos
  dsimp only at hpos₂ ⊢
  -- the declared size is not reached, so nothing is checked
  rw [if_neg (by omega)]
  have hout₂ : out₂.length = out.length := hx.room
  refine Can.bind (able_note fun _ => False.elim) fun _ _ => ?_
  exact .pure ⟨n, rfl⟩

end Decoder

end ZipFs
