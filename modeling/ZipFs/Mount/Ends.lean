import ZipFs.Mount.Source

/-!
# Decoding always ends

The loop of `Pump::step` has no counter. It goes round again only after a step that consumed
something, so what it uses up is the part of the range that has not been handed out, which is
refilled behind its back. That bounds it for any codec that consumes no more than its input,
also one that never produces anything or produces out of nothing. The loops around it move
the position forward at every turn.

In the model a loop that runs out of its bound halts, and a program that halts is never
answered. So it is shown that a read only performs operations that are answered at once:
whatever the answers are, it comes to its end.
-/

namespace ZipFs

open Lib (Logic)

variable {δ ζ : Type}

/-! ## What is asked of a codec -/

/-- A decompressor that consumes at most its input and, given any room, produces at most its
output. -/
def Decompressor.Bounded {C : Type} (D : Decompressor C) : Prop :=
  ∀ c inp out, (D.step c inp out).2.1.length = out.length ∧
    (out ≠ [] → ∀ st, (D.step c inp out).2.2 = .ok st →
      st.consumed ≤ inp.length ∧ st.produced ≤ out.length)

structure Codecs.Bounded (K : Codecs δ ζ) : Prop where
  deflate : (Deflate.decompressor K.flate).Bounded
  zstd : (Zstd.decompressor K.zstd).Bounded

theorem Store.bounded : Store.decompressor.Bounded := by
  intro c inp out
  refine ⟨Store.lawful.room c inp out, ?_⟩
  intro _ st hst
  obtain rfl := Except.ok.inj hst
  exact ⟨Nat.min_le_left _ _, Nat.min_le_right _ _⟩

theorem Codecs.Bounded.step {K : Codecs δ ζ} (hK : K.Bounded) (c : Codec δ ζ) (inp out : Bytes) :
    (c.step K inp out).2.1.length = out.length ∧ (out ≠ [] → ∀ st,
      (c.step K inp out).2.2 = .ok st → st.consumed ≤ inp.length ∧ st.produced ≤ out.length) := by
  cases c with
  | store => exact Store.bounded () inp out
  | deflate c => exact hK.deflate c inp out
  | zstd c => exact hK.zstd c inp out

/-! ## Operations that are answered at once -/

/-- In every state of a mount, whichever thread performs it. -/
def Op.Prompt (K : Codecs δ ζ) (M : Mount) (o : Op δ ζ) : Prop :=
  ∀ (τ : Type) [DecidableEq τ] (t : τ) (w : World τ δ ζ), (det K M t o w).isSome

/-- The judgement that a program performs only such operations. -/
abbrev prompt (K : Codecs δ ζ) (M : Mount) : Logic (@Res δ ζ) := Lib.always (Op.Prompt K M)

section Pump

variable {K : Codecs δ ζ} {M : Mount}

theorem prompt_note (n : Note) : (prompt K M).Accepts (.op (.note n) .ret) :=
  Lib.always_op fun _ _ _ _ => rfl

theorem prompt_storeVerify (i : Nat) (state : VerifyState) :
    (prompt K M).Accepts (Act.storeVerify i state) :=
  Lib.always_op fun _ _ _ _ => rfl

theorem prompt_guard : PermitsGuard (prompt K M) M := by
  refine always_guard ?_ fun _ _ _ _ _ _ => rfl
  intro o ho τ _ t w
  cases o with
  | fstat | loadStale | swapStale | loadUnsure | swapUnsure _ | note _ => rfl
  | statNamed =>
      simp only [det]
      split
      · rfl
      · rfl
  | _ => exact ho.elim

theorem prompt_fillBuf {s : BufSource} (hs : s.Valid) :
    (prompt K M).Holds (s.fillBuf M) (Refilled s) :=
  holds_fillBuf prompt_guard hs fun _ _ _ => Lib.always_op fun _ _ _ _ => rfl

/-! ## One step of the pump -/

/-- What a step of the pump leaves and returns. -/
structure Pumped (d : PositionedDecoder δ ζ) (out : Bytes)
    (x : PositionedDecoder δ ζ × Bytes × Except IoError Nat) : Prop where
  source : x.1.src.Valid
  room : x.2.1.length = out.length
  /-- Nothing is produced only into no room, or at the end. -/
  zero : x.2.2 = .ok 0 → out = [] ∨ x.1.finished = true
  moved : ∀ n, x.2.2 = .ok n → x.1.pos = d.pos + n ∧ n ≤ out.length
  stayed : ∀ e, x.2.2 = .error e → x.1.pos = d.pos

/-- A turn that consumes leaves less of the range. -/
theorem Refilled.remaining_lt {s src : BufSource} {input : Bytes}
    (h : Refilled s (src, .ok input)) {consumed : Nat} (hpos : 0 < consumed)
    (hle : consumed ≤ input.length) : (src.consume consumed).remaining < s.remaining := by
  have hvalid := h.valid
  have hcursor := h.cursor
  have hlen := h.len
  rw [h.window input rfl, hvalid.length_window] at hle
  have h₁ := hvalid.pos
  have h₂ := hvalid.inside
  simp only [BufSource.remaining, BufSource.consume] at *
  omega

theorem prompt_pumpLoop (hK : K.Bounded) {turns : Nat} {d : PositionedDecoder δ ζ} {out : Bytes}
    (hs : d.src.Valid) (hout : out ≠ []) (hturns : d.src.remaining < turns) :
    (prompt K M).Holds (PositionedDecoder.pumpLoop K M turns d out) (Pumped d out) := by
  induction turns generalizing d out with
  | zero => exact absurd hturns (Nat.not_lt_zero _)
  | succ turns ih =>
      unfold PositionedDecoder.pumpLoop
      refine (prompt K M).bind (prompt_fillBuf hs) ?_
      intro x hx
      rcases x with ⟨src, filled⟩
      dsimp only
      cases filled with
      | error e => exact (prompt K M).pure ⟨hx.valid, rfl, by simp, by simp, fun _ _ => rfl⟩
      | ok input =>
          refine Logic.seq (prompt_note _) fun _ => Logic.seq (prompt_note _) fun _ => ?_
          obtain ⟨hroom, hstep⟩ := hK.step d.codec input out
          rcases heq : d.codec.step K input out with ⟨codec, out', r⟩
          rw [heq] at hroom hstep
          dsimp only at hroom hstep ⊢
          cases r with
          | error e => exact (prompt K M).pure ⟨hx.valid, hroom, by simp, by simp, fun _ _ => rfl⟩
          | ok step =>
              obtain ⟨hconsumed, hproduced⟩ := hstep hout step rfl
              have hvalid := hx.valid.consume step.consumed
              dsimp only
              split
              · rename_i hpos
                refine (prompt K M).pure ⟨hvalid, hroom, ?_, ?_, by simp⟩
                · intro hzero
                  have := Except.ok.inj hzero
                  omega
                · intro n hn
                  obtain rfl := Except.ok.inj hn
                  refine ⟨?_, hproduced⟩
                  simp only [PositionedDecoder.advance, List.length_take]
                  omega
              · have hended : Pumped d out ({ d with
                    codec := codec, src := src.consume step.consumed, finished := true },
                    out', .ok 0) := by
                  refine ⟨hvalid, hroom, fun _ => .inr rfl, ?_, by simp⟩
                  intro n hn
                  obtain rfl := Except.ok.inj hn
                  exact ⟨rfl, Nat.zero_le _⟩
                split
                · exact (prompt K M).pure hended
                · split
                  · split
                    · exact (prompt K M).pure hended
                    · exact (prompt K M).pure ⟨hvalid, hroom, by simp, by simp, fun _ _ => rfl⟩
                  · -- the loop goes round again, with less of the range before it
                    have hless := hx.remaining_lt (by omega) hconsumed
                    have hout' : out' ≠ [] := by
                      rw [← List.length_pos_iff, hroom]
                      exact List.length_pos_iff.mpr hout
                    refine Logic.mono (ih hvalid hout' (by dsimp only; omega)) ?_
                    intro x h
                    refine ⟨h.source, h.room.trans hroom, ?_, ?_, h.stayed⟩
                    · exact fun hzero => .inr ((h.zero hzero).resolve_left hout')
                    · intro n hn
                      rw [← hroom]
                      exact h.moved n hn

theorem prompt_pump (hK : K.Bounded) {d : PositionedDecoder δ ζ} (hs : d.src.Valid) (out : Bytes) :
    (prompt K M).Holds (d.pump K M out) (Pumped d out) := by
  unfold PositionedDecoder.pump
  split
  · rename_i hstop
    refine (prompt K M).pure ⟨hs, rfl, fun _ => hstop, ?_, by simp⟩
    intro n hn
    obtain rfl := Except.ok.inj hn
    exact ⟨rfl, Nat.zero_le _⟩
  · rename_i hgo
    exact prompt_pumpLoop hK hs (fun hnil => hgo (.inl hnil)) (Nat.lt_succ_self _)

/-! ## Reads -/

/-- Each turn moves the decoder, so there are no more of them than bytes to skip. -/
theorem prompt_skipLoop (hK : K.Bounded) {turns offset : Nat} {d : PositionedDecoder δ ζ}
    (hs : d.src.Valid) (hturns : offset - d.pos ≤ turns) :
    (prompt K M).Holds (PositionedDecoder.skipLoop K M turns d offset) fun x => x.1.src.Valid := by
  induction turns generalizing d with
  | zero =>
      unfold PositionedDecoder.skipLoop
      rw [if_neg (by omega)]
      exact (prompt K M).pure hs
  | succ turns ih =>
      unfold PositionedDecoder.skipLoop
      split
      · refine (prompt K M).bind (prompt_pump hK hs _) ?_
        intro x hx
        rcases x with ⟨d', got, r⟩
        dsimp only
        cases r with
        | error e => exact (prompt K M).pure hx.source
        | ok n =>
            dsimp only
            split
            · exact (prompt K M).pure hx.source
            · have hmoved : d'.pos = d.pos + n := (hx.moved n rfl).1
              exact ih hx.source (by dsimp only; omega)
      · exact (prompt K M).pure hs

/-- Each turn fills some of the buffer. -/
theorem prompt_deliverLoop (hK : K.Bounded) {turns total written : Nat}
    {d : PositionedDecoder δ ζ} {out : Bytes} (hs : d.src.Valid)
    (hturns : out.length - written ≤ turns) :
    (prompt K M).Holds (PositionedDecoder.deliverLoop K M turns d total out written)
      fun x => x.1.src.Valid := by
  induction turns generalizing d out written with
  | zero =>
      unfold PositionedDecoder.deliverLoop
      rw [if_neg (by omega)]
      exact (prompt K M).pure hs
  | succ turns ih =>
      unfold PositionedDecoder.deliverLoop
      split
      · refine (prompt K M).bind (prompt_pump hK hs _) ?_
        intro x hx
        rcases x with ⟨d', got, r⟩
        dsimp only
        cases r with
        | error e => exact (prompt K M).pure hx.source
        | ok n =>
            dsimp only
            split
            · exact (prompt K M).pure hx.source
            · -- the buffer is as long as before
              have hroom : got.length = _ := hx.room
              rw [List.length_take, List.length_drop] at hroom
              refine ih hx.source ?_
              simp only [List.length_append, List.length_take, List.length_drop]
              omega
      · exact (prompt K M).pure hs

theorem prompt_verify (hK : K.Bounded) {d : PositionedDecoder δ ζ} (hs : d.src.Valid) (i : Nat)
    (m : EntryMeta) : (prompt K M).Holds (d.verify K M i m) fun x => x.1.src.Valid := by
  unfold PositionedDecoder.verify
  split
  · exact Logic.seq (prompt_note _) fun _ => (prompt K M).pure hs
  · dsimp only
    split
    · exact Logic.seq (prompt_storeVerify i .bad) fun _ => (prompt K M).pure hs
    · split
      · exact (prompt K M).pure hs
      · refine (prompt K M).bind (prompt_pump hK (by exact hs) _) ?_
        intro x hx
        rcases x with ⟨d', got, r⟩
        dsimp only
        cases r with
        | error e =>
            dsimp only
            split
            · exact Logic.seq (prompt_storeVerify i .bad) fun _ => (prompt K M).pure hx.source
            · exact (prompt K M).pure hx.source
        | ok n =>
            dsimp only
            split
            · exact Logic.seq (prompt_storeVerify i .bad) fun _ => (prompt K M).pure hx.source
            · exact Logic.seq (prompt_storeVerify i .ok) fun _ => (prompt K M).pure hx.source

theorem prompt_readAt (hK : K.Bounded) {d : PositionedDecoder δ ζ} (hs : d.src.Valid)
    (offset : Nat) (out : Bytes) (i : Nat) (m : EntryMeta) :
    (prompt K M).Holds (d.readAt K M offset out i m) fun x => x.1.src.Valid := by
  unfold PositionedDecoder.readAt
  split
  · exact Logic.seq (prompt_note _) fun _ => (prompt K M).pure hs
  · dsimp only
    refine (prompt K M).bind (prompt_skipLoop hK hs (Nat.le_refl _)) ?_
    intro x hx
    rcases x with ⟨d₁, skipped⟩
    dsimp only
    split
    · exact (prompt K M).pure hx
    · refine (prompt K M).bind (prompt_deliverLoop hK (by exact hx) (Nat.sub_le _ _)) ?_
      intro x hx
      rcases x with ⟨d₂, out₂, delivered⟩
      dsimp only
      split
      · exact (prompt K M).pure hx
      · split
        · refine (prompt K M).bind (prompt_verify hK (by exact hx) i m) ?_
          intro x hx
          rcases x with ⟨d₃, verified⟩
          dsimp only
          split
          · exact (prompt K M).pure hx
          · exact Logic.seq (prompt_note _) fun _ => (prompt K M).pure hx
        · exact Logic.seq (prompt_note _) fun _ => (prompt K M).pure hx

/--
**Decoding always ends**, for every codec that consumes at most its input and produces at
most its output, and every decoder whose source is valid. Whatever the archive answers, a
step of the pump performs only operations that are answered at once. It returns nothing only
into an empty output or when the stream is now marked finished; otherwise it returns some
number of bytes and moves the decoder by that number, or it fails. So a read comes to its end
for every offset, buffer and entry, and its source is valid again.
-/
theorem decoding_ends (hK : K.Bounded) (d : PositionedDecoder δ ζ) (hs : d.src.Valid) :
    (∀ out, (d.pump K M out).Always (Op.Prompt K M) (Pumped d out)) ∧
    (∀ offset out i m,
      (d.readAt K M offset out i m).Always (Op.Prompt K M) fun x => x.1.src.Valid) ∧
    ∀ (τ : Type) [DecidableEq τ] (t : τ) (w : World τ δ ζ) offset out i m,
      ∃ x w', Lib.run (det K M t) (d.readAt K M offset out i m) w = some (x, w') := by
  refine ⟨prompt_pump hK hs, prompt_readAt hK hs, ?_⟩
  intro τ _ t w offset out i m
  have hends : (d.readAt K M offset out i m).Always (Op.Prompt K M) fun x => x.1.src.Valid :=
    prompt_readAt hK hs offset out i m
  obtain ⟨x, w', hrun, -⟩ := hends.run (fun o s ho => ho τ t s) w
  exact ⟨x, w', hrun⟩

end Pump

theorem Sample.codecs_bounded : Sample.codecs.Bounded where
  deflate s inp out := by
    refine ⟨Sample.deflate_lawful.room s inp out, ?_⟩
    intro hout st hst
    change ((Deflate.decompressor Sample.flate).step s inp out).2.2 = .ok st at hst
    cases hs : s.matched with
    | none =>
        rw [Sample.step_failed hs] at hst
        exact absurd hst (by simp)
    | some k =>
        by_cases hc : Sample.code.drop k <+: inp
        · rw [Sample.step_complete hs hc] at hst
          obtain rfl := Except.ok.inj hst
          exact ⟨hc.length_le, List.length_pos_iff.mpr hout⟩
        · by_cases hp : inp <+: Sample.code.drop k
          · rw [Sample.step_matching hs hc hp] at hst
            obtain rfl := Except.ok.inj hst
            exact ⟨Nat.le_refl _, Nat.zero_le _⟩
          · rw [Sample.step_invalid hs hc hp] at hst
            exact absurd hst (by simp)
  zstd c inp out := by
    refine ⟨rfl, ?_⟩
    intro _ st hst
    change ((Zstd.decompressor Sample.zstd).step c inp out).2.2 = .ok st at hst
    rw [Sample.zstd_step] at hst
    exact absurd hst (by simp)

/-- A new decoder for the sample comes to the end of every read. -/
theorem decoding_ends_sample :
    let M := Sample.mount 1 Sample.checksum
    let d : PositionedDecoder Sample.Inflater Unit :=
      .new Sample.codecs ⟨31, 3, .deflate⟩ ⟨.deflate Sample.flate.new, [0, 0], [0], 0⟩ true
    ∀ offset out i m, ∃ x w', Lib.run (det Sample.codecs M ())
      (d.readAt Sample.codecs M offset out i m) (World.start M none) = some (x, w') :=
  (decoding_ends Sample.codecs_bounded _ (BufSource.Valid.new ..)).2.2 Unit () _

end ZipFs
