import ZipFs.Mount.DecodeProof

/-!
# What a read is made of

What holds of decoders whatever their codecs do, also after they have failed. A decoder
keeps its `DecoderShape`: its source holds a window of the mounted range. So its codec
is only ever fed pieces of the archive as it was mounted, and what a read delivers is
put together from what the codec made of them. Which bytes these are, only the contract of
the codec can say.
-/

namespace ZipFs

open Lib (Meets lasting_true)

variable {τ δ ζ : Type} [DecidableEq τ] {B G : Prop} {K : Codecs δ ζ} {M : Mount}

/-! ## Where bytes come from -/

/-- What a codec produces that was fed pieces of the archive is made of the archive. -/
theorem FedOnly.made (hb : K.Blind) {c c' : Codec δ ζ} (h : FedOnly K M c) {inp : Bytes}
    (hinp : inp <:+: M.archive) {out out' : Bytes} {st : Step}
    (hstep : c.step K inp out = (c', out', .ok st)) : Made K M (out'.take st.produced) := by
  have hlen : out.length = (List.replicate out.length (0 : UInt8)).length := by simp
  obtain ⟨-, hres, hsame⟩ := Codec.step_blind hb c inp hlen
  rw [hstep] at hres hsame
  have hpiece := Made.piece .nil h hinp hres.symm
  rw [List.nil_append, ← hsame st rfl] at hpiece
  exact hpiece

theorem Made.append {xs ys : Bytes} (hx : Made K M xs) (hy : Made K M ys) :
    Made K M (xs ++ ys) := by
  induction hy with
  | nil => rwa [List.append_nil]
  | piece _ hfed hinp hstep ih =>
      rw [← List.append_assoc]
      exact .piece ih hfed hinp hstep

variable (K M) in
/-- A result for the output buffer `out` says only what was produced into it. -/
def MadeInto (out : Bytes) (x : Bytes × Except IoError Nat) : Prop :=
  x.1.length = out.length ∧ ∀ n, x.2 = .ok n → n ≤ out.length ∧ Made K M (x.1.take n)

theorem MadeInto.error (out : Bytes) {out' : Bytes} (h : out'.length = out.length) (e : IoError) :
    MadeInto K M out (out', .error e) :=
  ⟨h, fun n hn => absurd hn (by simp)⟩

theorem MadeInto.zero (out : Bytes) {out' : Bytes} (h : out'.length = out.length) :
    MadeInto K M out (out', .ok 0) := by
  refine ⟨h, fun n hn => ?_⟩
  obtain rfl := Except.ok.inj hn
  exact ⟨Nat.zero_le _, .nil⟩

/-! ## The pump -/

variable (K M) in
/-- What reading with `d` into `out` leaves and returns, whatever its codec does. -/
structure DecoderKept (loc : EntryLocation) (total : Nat) (d : PositionedDecoder δ ζ) (out : Bytes)
    (x : PositionedDecoder δ ζ × Bytes × Except IoError Nat) : Prop where
  shape : DecoderShape K M loc total x.1
  verified : x.1.verified = d.verified
  room : K.Lawful → x.2.1.length = out.length
  made : K.Blind → MadeInto K M out x.2

section Pump

variable {loc : EntryLocation} {total : Nat} {d : PositionedDecoder δ ζ}

/-- Nothing in the shape speaks of failures and ends. -/
theorem DecoderShape.marked (h : DecoderShape K M loc total d) (failed finished : Bool) :
    DecoderShape K M loc total { d with failed := failed, finished := finished } :=
  ⟨h.src, h.method, h.fed, h.verified, h.skip⟩

theorem DecoderShape.withSkip (h : DecoderShape K M loc total d) (skip : Bytes)
    (hs : K.Lawful → 0 < skip.length) : DecoderShape K M loc total { d with skip := skip } :=
  ⟨h.src, h.method, h.fed, h.verified, hs⟩

theorem pumpLoop_keeps (turns : Nat) (hd : DecoderShape K M loc total d) {out : Bytes}
    (hout : K.Blind → out ≠ []) :
    Does B G K M (Anywhere (τ := τ)) (PositionedDecoder.pumpLoop K M turns d out)
      (DecoderKept K M loc total d out) := by
  induction turns generalizing d out with
  | zero => exact meets_halt
  | succ turns ih =>
      unfold PositionedDecoder.pumpLoop
      refine Meets.bind lasting_true (fillBuf_does hd.src) ?_
      intro x hfill
      rcases x with ⟨src, filled⟩
      have hsrc : SourceOk M loc src := hfill.src
      cases filled with
      | error e =>
          exact .pure ⟨hd.withSource hsrc, rfl, fun _ => rfl, fun _ => .error out rfl e⟩
      | ok input =>
          obtain rfl : input = src.window := hfill.window input rfl
          refine Meets.bind lasting_true (meets_note fun _ => hsrc.window_archive) fun _ _ => ?_
          refine Meets.bind lasting_true (meets_note fun _ => trivial) fun _ _ => ?_
          have hlen := fun hK : K.Lawful => Codec.step_room hK d.codec src.window out
          rcases hstep : d.codec.step K src.window out with ⟨codec, out', e | step⟩
          · have hshape := hd.stepped hsrc hsrc.window_infix hstep
            rw [hstep] at hlen
            refine .pure ⟨hshape.marked true _, rfl, hlen, fun hb => .error out ?_ _⟩
            have hroom := (Codec.step_inside hb d.codec src.window (hout hb)).1
            rw [hstep] at hroom
            exact hroom
          · have hshape := hd.stepped (hsrc.consume step.consumed) hsrc.window_infix hstep
            rw [hstep] at hlen
            -- what the codec says it wrote lies inside the buffer, and it made it of its input
            have hstepped : K.Blind → out'.length = out.length ∧ step.produced ≤ out.length ∧
                Made K M (out'.take step.produced) := by
              intro hb
              have hin := Codec.step_inside hb d.codec src.window (hout hb)
              rw [hstep] at hin
              exact ⟨hin.1, hin.2 step rfl, (hd.fed hb).made hb hsrc.window_infix hstep⟩
            dsimp only
            split
            · refine .pure ⟨hshape.advance _ _, rfl, hlen,
                fun hb => ⟨(hstepped hb).1, fun n hn => ?_⟩⟩
              obtain rfl := Except.ok.inj hn
              exact (hstepped hb).2
            split
            · exact .pure ⟨hshape.marked _ true, rfl, hlen, fun hb => .zero out (hstepped hb).1⟩
            split
            · split
              · exact .pure ⟨hshape.marked _ true, rfl, hlen, fun hb => .zero out (hstepped hb).1⟩
              · exact .pure ⟨hshape, rfl, hlen, fun hb => .error out (hstepped hb).1 _⟩
            · -- only input was consumed: go round again
              refine (ih hshape fun hb hnil => ?_).mono ?_
              · have hroom := (hstepped hb).1
                rw [hnil] at hroom
                exact hout hb (List.length_eq_zero_iff.mp hroom.symm)
              · intro x hx
                refine ⟨hx.shape, hx.verified, fun hK => (hx.room hK).trans (hlen hK), fun hb => ?_⟩
                rw [MadeInto, ← (hstepped hb).1]
                exact hx.made hb

/-- **A step of the pump**, whatever the codec does. -/
theorem pump_keeps (hd : DecoderShape K M loc total d) (out : Bytes) :
    Does B G K M (Anywhere (τ := τ)) (d.pump K M out) (DecoderKept K M loc total d out) := by
  unfold PositionedDecoder.pump
  split
  · exact .pure ⟨hd, rfl, fun _ => rfl, fun _ => .zero out rfl⟩
  · rename_i h
    exact pumpLoop_keeps _ hd fun _ => (not_or.mp h).1

/-! ## Skipping and delivering -/

theorem skipLoop_keeps (turns : Nat) (hd : DecoderShape K M loc total d) (offset : Nat) :
    Does B G K M (Anywhere (τ := τ)) (PositionedDecoder.skipLoop K M turns d offset) fun x =>
      DecoderShape K M loc total x.1 ∧ x.1.verified = d.verified := by
  induction turns generalizing d with
  | zero =>
      unfold PositionedDecoder.skipLoop
      split
      · exact meets_halt
      · exact .pure ⟨hd, rfl⟩
  | succ turns ih =>
      unfold PositionedDecoder.skipLoop
      split
      · rename_i hlt
        refine Meets.bind lasting_true (pump_keeps hd _) ?_
        intro x hx
        rcases x with ⟨d', got, r⟩
        have hver : d'.verified = d.verified := hx.verified
        have hd' : DecoderShape K M loc total
            { d' with skip := got ++ d'.skip.drop (min (offset - d.pos) d.skip.length) } := by
          refine hx.shape.withSkip _ fun hK => ?_
          have hskip := hd.skip hK
          have hgot := hx.room hK
          rw [List.length_take] at hgot
          rw [List.length_append, hgot]
          omega
        cases r with
        | error e => exact .pure ⟨hd', hver⟩
        | ok n =>
            dsimp only
            split
            · exact .pure ⟨hd', hver⟩
            · refine (ih hd').mono ?_
              intro x hx'
              exact ⟨hx'.1, hx'.2.trans hver⟩
      · exact .pure ⟨hd, rfl⟩

/-- What has been delivered so far is a result. -/
theorem DecoderKept.written {written : Nat} {out : Bytes} (hd : DecoderShape K M loc total d)
    (hm : K.Blind → written ≤ out.length ∧ Made K M (out.take written)) :
    DecoderKept K M loc total d out (d, out, .ok written) := by
  refine ⟨hd, rfl, fun _ => rfl, fun hb => ⟨rfl, fun n hn => ?_⟩⟩
  obtain rfl := Except.ok.inj hn
  exact hm hb

/-- The output with a piece in its place. -/
theorem length_splice {out got : Bytes} {written room : Nat} (hgot : got.length = room)
    (hroom : written + room ≤ out.length) :
    (out.take written ++ got ++ out.drop (written + room)).length = out.length := by
  rw [List.length_append, List.length_append, List.length_take, List.length_drop, hgot]
  omega

theorem deliverLoop_keeps (turns written : Nat) {out : Bytes} (hd : DecoderShape K M loc total d)
    (hm : K.Blind → written ≤ out.length ∧ Made K M (out.take written)) :
    Does B G K M (Anywhere (τ := τ)) (PositionedDecoder.deliverLoop K M turns d total out written)
      (DecoderKept K M loc total d out) := by
  induction turns generalizing d out written with
  | zero =>
      unfold PositionedDecoder.deliverLoop
      split
      · exact meets_halt
      · exact .pure (.written hd hm)
  | succ turns ih =>
      unfold PositionedDecoder.deliverLoop
      split
      · rename_i hgo
        obtain ⟨hlen, -⟩ := length_room hgo
        refine Meets.bind lasting_true (pump_keeps hd _) ?_
        intro x hx
        rcases x with ⟨d', got, r⟩
        have hver : d'.verified = d.verified := hx.verified
        have hlaw : K.Lawful → (out.take written ++ got ++
            out.drop (written + min (total - d.pos) (out.length - written))).length = out.length :=
          fun hK => length_splice ((hx.room hK).trans hlen) (by omega)
        have hgot : K.Blind → got.length = min (total - d.pos) (out.length - written) :=
          fun hb => (hx.made hb).1.trans hlen
        have hroom : K.Blind → (out.take written ++ got ++
            out.drop (written + min (total - d.pos) (out.length - written))).length = out.length :=
          fun hb => length_splice (hgot hb) (by omega)
        cases r with
        | error e => exact .pure ⟨hx.shape, hver, hlaw, fun hb => .error out (hroom hb) e⟩
        | ok n =>
            -- the buffer now holds what was made before, and what was made in this step
            have hnext : K.Blind → written + n ≤ (out.take written ++ got ++
                out.drop (written + min (total - d.pos) (out.length - written))).length ∧
                  Made K M ((out.take written ++ got ++
                    out.drop (written + min (total - d.pos) (out.length - written))).take
                      (written + n)) := by
              intro hb
              obtain ⟨hn, hpiece⟩ := (hx.made hb).2 n rfl
              have hgot := hgot hb
              rw [hlen] at hn
              rw [hroom hb, take_splice (hm hb).1 (by omega)]
              exact ⟨by omega, (hm hb).2.append hpiece⟩
            have hinto : ∀ x : Bytes × Except IoError Nat, K.Blind →
              MadeInto K M (out.take written ++
                got ++ out.drop (written + min (total - d.pos) (out.length - written))) x →
                  MadeInto K M out x := by
              intro x hb hx
              rwa [MadeInto, hroom hb] at hx
            dsimp only
            split
            · rename_i hzero
              subst hzero
              rw [Nat.add_zero] at hnext
              have hkept := DecoderKept.written hx.shape hnext
              exact .pure ⟨hx.shape, hver, hlaw, fun hb => hinto _ hb (hkept.made hb)⟩
            · refine (ih (written + n) hx.shape hnext).mono ?_
              intro x hx'
              exact ⟨hx'.shape, hx'.verified.trans hver, fun hK => (hx'.room hK).trans (hlaw hK),
                fun hb => hinto _ hb (hx'.made hb)⟩
      · exact .pure (.written hd hm)

end Pump

/-! ## Reading -/

section Read

variable {loc : EntryLocation} {i : Nat} {m : EntryMeta} {d : PositionedDecoder δ ζ}

/-- A codec that may have done anything says nothing by its verdict. -/
theorem storeVerify_anyhow (hentry : M.index.metas[i]? = some m)
    (hg : ¬ (G ∨ m.method = some .store)) (state : VerifyState) (hs : state ≠ .unknown) :
    Does B G K M (Anywhere (τ := τ)) (Act.storeVerify i state) fun _ => True := by
  refine meets_plain (o := .storeVerify i state) fun _ _ => ⟨hs, fun m' hm' => ?_⟩
  obtain rfl := Option.some.inj (hentry.symm.trans hm')
  cases state with
  | unknown => trivial
  | ok => exact fun h => absurd h hg
  | bad => exact fun h => absurd h hg

theorem verify_keeps (hentry : M.index.metas[i]? = some m) (hg : ¬ (G ∨ m.method = some .store))
    (hd : DecoderShape K M loc m.uncompressedSize d) (hpos : m.uncompressedSize ≤ d.pos)
    (hver : d.verified = true → m.uncompressedSize = 0) :
    Does B G K M (Anywhere (τ := τ)) (d.verify K M i m) fun x =>
      DecoderShape K M loc m.uncompressedSize x.1 := by
  have hd' : DecoderShape K M loc m.uncompressedSize { d with verified := true } :=
    ⟨hd.src, hd.method, hd.fed, fun _ => hpos, hd.skip⟩
  have hbad := storeVerify_anyhow (τ := τ) (B := B) (K := K) hentry hg .bad (by simp)
  have hok := storeVerify_anyhow (τ := τ) (B := B) (K := K) hentry hg .ok (by simp)
  unfold PositionedDecoder.verify
  split
  · rename_i hv
    exact Meets.bind lasting_true (meets_note fun _ => ⟨m, hentry, hver hv⟩) fun _ _ => .pure hd
  dsimp only
  split
  · exact Meets.bind lasting_true hbad fun _ _ => .pure hd'
  split
  · exact .pure hd'
  · refine Meets.bind lasting_true (pump_keeps hd' _) ?_
    intro x hx
    rcases x with ⟨d₂, _, r⟩
    have hd₂ : DecoderShape K M loc m.uncompressedSize d₂ := hx.shape
    cases r with
    | error e =>
        dsimp only
        split
        · exact Meets.bind lasting_true hbad fun _ _ => .pure hd₂
        · exact .pure ⟨hd₂.src, hd₂.method, hd₂.fed, by simp, hd₂.skip⟩
    | ok n =>
        dsimp only
        split
        · exact Meets.bind lasting_true hbad fun _ _ => .pure hd₂
        · exact Meets.bind lasting_true hok fun _ _ => .pure hd₂

/-- **Reading from a decoder that is not past the offset**, whatever its codec does. -/
theorem decoderReadAt_keeps (hentry : M.index.metas[i]? = some m)
    (hg : ¬ (G ∨ m.method = some .store)) (hd : DecoderShape K M loc m.uncompressedSize d)
    {offset : Nat} (hpos : d.pos ≤ offset) (hver : d.verified = true → m.uncompressedSize = 0)
    (out : Bytes) :
    Does B G K M (Anywhere (τ := τ)) (d.readAt K M offset out i m) fun x =>
      DecoderShape K M loc m.uncompressedSize x.1 ∧ (K.Blind → MadeInto K M out x.2) := by
  unfold PositionedDecoder.readAt
  rw [if_neg (by omega)]
  refine Meets.bind lasting_true (skipLoop_keeps _ hd offset) ?_
  intro x h
  rcases x with ⟨d₁, skipped⟩
  rcases h with ⟨hd₁, hver₁⟩
  cases skipped with
  | error e => exact .pure ⟨hd₁, fun _ => .error out rfl e⟩
  | ok _ =>
      refine Meets.bind lasting_true
        (deliverLoop_keeps _ 0 hd₁ fun _ => ⟨Nat.zero_le _, .nil⟩) ?_
      intro x hx
      rcases x with ⟨d₂, out₂, delivered⟩
      cases delivered with
      | error e => exact .pure ⟨hx.shape, hx.made⟩
      | ok n =>
          have hnote : ∀ (start len : Nat), Does B G K M (Anywhere (τ := τ))
              (Act.note (.delivered i start offset len n)) fun _ => True :=
            fun _ _ => meets_note fun _ g => absurd (.inl g) hg
          dsimp only
          split
          · rename_i hle
            have hver₂ : d₂.verified = true → m.uncompressedSize = 0 := fun h =>
              hver ((hver₁.symm.trans hx.verified.symm).trans h)
            refine Meets.bind lasting_true (verify_keeps hentry hg hx.shape hle hver₂) ?_
            intro x hd₃
            rcases x with ⟨d₃, verified⟩
            cases verified with
            | error e => exact .pure ⟨hd₃, fun hb => .error out (hx.made hb).1 e⟩
            | ok _ => exact Meets.bind lasting_true (hnote _ _) fun _ _ => .pure ⟨hd₃, hx.made⟩
          · exact Meets.bind lasting_true (hnote _ _) fun _ _ => .pure ⟨hx.shape, hx.made⟩

end Read

end ZipFs
