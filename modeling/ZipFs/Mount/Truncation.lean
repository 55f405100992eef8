import ZipFs.Mount.Progress
import ZipFs.Mount.Runs

/-!
# Reads that end early

A compressed entry whose stream comes to its end before the declared size is read short
without an error: the skip loop reports a stream that ends too soon, and so does
`read_all`, but the delivery loop takes the end of the stream for the end of its work,
and the check of the whole entry is made only when the declared size is reached.

What follows says exactly when that happens, in runs whose checkouts find sound decoders. A
read of a compressed entry that succeeds delivers all that it can promise unless the
stream ends early; if it does, every read that succeeds is short, and a read left alone
while the archive is as mounted succeeds.
-/

namespace ZipFs

open Lib (Alone)

variable {τ δ ζ : Type} [DecidableEq τ] {K : Codecs δ ζ} {M : Mount}

/-- Exactly the reads of streams that end early are short. -/
theorem Delivered.full_iff {loc : EntryLocation} {m : EntryMeta} {offset len n : Nat}
    (h : Delivered K M loc m offset len n) (hlt : offset < m.uncompressedSize) :
    n = min len (m.uncompressedSize - offset) ↔ ¬ EndsEarly K M loc m offset len := by
  have hinside := h.inside
  refine ⟨?_, ?_⟩
  · intro hfull hearly
    obtain ⟨-, -, hshort⟩ := hearly
    omega
  · intro hnot
    rcases h.full (by omega) with hfull | ⟨-, hearly⟩
    · exact hfull
    · exact absurd hearly hnot

/-- What `read` asks of the decoder is what it was asked for, inside the entry. -/
theorem endsEarly_want {loc : EntryLocation} {m : EntryMeta} {offset size : Nat}
    (hlt : offset < m.uncompressedSize) :
    EndsEarly K M loc m offset (min size (m.uncompressedSize - offset)) ↔
      EndsEarly K M loc m offset size := by
  unfold EndsEarly
  have h : min (offset + min size (m.uncompressedSize - offset)) m.uncompressedSize =
      min (offset + size) m.uncompressedSize := by omega
  rw [h]

/-- A sound decoder that a pool lends, and the state after lending it. -/
theorem lent_ok {t : τ} {w w' : World τ δ ζ} {pool : EntryPool} {i : Nat} {m : EntryMeta}
    {offset : Nat} {d : PositionedDecoder δ ζ} (hi : MountInv True True K M w)
    (hloc : LocationOk M i m pool.loc) (hpool : PoolFor pool i w)
    (hrun : Alone ((soundMount τ K M).exec t) (pool.checkout K M offset) w d w') :
    LentOk True K M pool.loc m.uncompressedSize offset d ∧ MountInv True True K M w' :=
  ((checkout_does hloc offset).soundly t w hi hpool).alone hi hrun

/--
**When a read is short.** In every run whose checkouts find sound decoders, a read of a
compressed entry that is answered with data, and every call of `read_at` that succeeds,
delivers all of the bytes asked for that the declared size promises if and only if the
stream does not end early. And of a decoder that a pool lends at any moment of such a
run, while the archive is as mounted and the range of the entry lies inside it: `read_at`
never succeeds with fewer bytes if and only if the stream does not end early.
-/
theorem read_full_iff (hK : K.Lawful) (hl : K.Live) {path : Option Stamp}
    {c : Lib.Config τ (World τ δ ζ) Call Reply (@Res δ ζ)} (h : SoundRun K M path c) :
    (∀ e ∈ c.history, ∀ fh offset size bs, e.call = .read fh offset size → e.reply = .data bs →
      ∃ f m, FileAt fh f c.world ∧ LocationOk M f.metaIdx m f.loc ∧
        (f.loc.method ≠ .store → offset < m.uncompressedSize → 0 < size →
          (bs.length = min size (m.uncompressedSize - offset) ↔
            ¬ EndsEarly K M f.loc m offset size))) ∧
    (∀ t i start offset len n, Note.delivered i start offset len n ∈ c.world.seen t →
      ∃ m loc, LocationOk M i m loc ∧ loc.dataStart = start ∧
        (offset < m.uncompressedSize → 0 < len →
          (n = min len (m.uncompressedSize - offset) ↔ ¬ EndsEarly K M loc m offset len))) ∧
    (∀ t pool i m offset out d w, LocationOk M i m pool.loc → PoolFor pool i c.world →
      Alone ((soundMount τ K M).exec t) (pool.checkout K M offset) c.world d w → Intact M w →
      pool.loc.dataStart + pool.loc.compressedSize ≤ M.archive.length →
      offset < m.uncompressedSize → out ≠ [] →
      ((∀ d' out' n w', Alone (exec K M t) (d.readAt K M offset out i m) w (d', out', .ok n) w' →
          n = min out.length (m.uncompressedSize - offset)) ↔
        ¬ EndsEarly K M pool.loc m offset out.length)) := by
  have hg := soundRun_good hK h
  refine ⟨?_, ?_, ?_⟩
  · intro e he fh offset size bs hcall hreply
    obtain ⟨f, hat, hf, hd⟩ := read_answered hg he hcall hreply
    obtain ⟨m, hloc, hsize⟩ := hf.entry
    refine ⟨f, m, hat, hloc, fun hne hlt hpos => ?_⟩
    have hb := hd.bytes (.inl trivial)
    rw [hsize] at hb
    have hbytes := hb.content
    rw [content_of_coded hne] at hbytes
    -- what was delivered lies inside the stream
    have hinside : bs.length ≤ (f.loc.stream K M).bytes.length - offset := by
      have hlen := congrArg List.length hbytes
      rw [List.length_take, List.length_drop] at hlen
      omega
    refine ⟨?_, ?_⟩
    · intro hfull hearly
      obtain ⟨-, -, hshort⟩ := hearly
      omega
    · intro hnot
      rcases hb.full with hfull | ⟨-, hearly⟩
      · exact hfull
      · exact absurd ((endsEarly_want hlt).mp (hearly m hloc.entry).2) hnot
  · intro t i start offset len n hmem
    obtain ⟨m, loc, hloc, hstart, hdel⟩ := hg.inv.notes t _ hmem trivial
    exact ⟨m, loc, hloc, hstart, fun hlt _ => hdel.full_iff hlt⟩
  · intro t pool i m offset out d w hloc hpool hrun hintact hrange hlt hout
    obtain ⟨hlent, hgood⟩ := lent_ok hg.inv hloc hpool hrun
    have hi := hgood.anyhow
    have hd := hlent.good trivial
    have hf := hlent.sound trivial
    have hver : d.verified = true → m.uncompressedSize = 0 := by
      intro hv
      have := hd.verified hv
      have := hlent.pos
      omega
    have hspec := decoderReadAt_does (τ := τ) (B := True) (G := False) hK hloc hd hf hlent.pos
      hver out
    refine ⟨?_, ?_⟩
    · intro hall hearly
      obtain ⟨x, w', hread, -, n, hn⟩ :=
        able_decoderReadAt (t := t) (i := i) hK hl hd hf hlent.pos hearly hrange w ⟨hi, hintact⟩
      rcases x with ⟨d', out', r⟩
      obtain rfl : r = .ok n := hn
      have hdel := ((hspec.anyhow t w hi trivial).alone hi hread).1.delivered n rfl
      exact (hdel.full_iff hlt).mp (hall d' out' n w' hread) hearly
    · intro hnot d' out' n w' hread
      have hdel := ((hspec.anyhow t w hi trivial).alone hi hread).1.delivered n rfl
      exact (hdel.full_iff hlt).mpr hnot

/-- The sample delivers all of its entry, which does not end early. -/
theorem read_full_iff_sample :
    ∃ c : Lib.Config Unit (World Unit Sample.Inflater Unit) Call Reply (@Res Sample.Inflater Unit),
      SoundRun Sample.codecs (Sample.mount 1 Sample.checksum) none c ∧
      ∃ e ∈ c.history, e.call = .read 1 0 10 ∧ e.reply = .data [0x61] ∧
        ∃ f, FileAt 1 f c.world ∧
          ¬ EndsEarly Sample.codecs (Sample.mount 1 Sample.checksum) f.loc
            (Sample.entry 1 Sample.checksum) 0 10 := by
  obtain ⟨c, hc, hall⟩ := Sample.served 1 Sample.checksum [.openFile 2 .rdonly, .read 1 0 10]
    [.opened 1, .data [0x61]] (by decide +kernel)
  obtain ⟨e, he, hcall, hreply⟩ := hall (.read 1 0 10, .data [0x61]) (by simp)
  obtain ⟨f, m, hat, hloc, hiff⟩ :=
    (read_full_iff Sample.codecs_lawful Sample.codecs_live hc).1 e he 1 0 10 [0x61] hcall hreply
  obtain rfl := Sample.meta_eq hloc.entry
  have hmethod : Method.deflate = f.loc.method := Option.some.inj hloc.method
  exact ⟨c, hc, e, he, hcall, hreply, f, hat,
    (hiff (by simp [← hmethod]) (by decide) (by decide)).mp rfl⟩

/-- **A read that is short without an error**: the entry declares two bytes, its stream has one,
and a read of both succeeds with one. Checksums are verified on this mount. -/
theorem read_short_of_declared :
    (Sample.mount 2 Sample.checksum).config.verify = true ∧
    (Sample.entry 2 Sample.checksum).uncompressedSize = 2 ∧
    ∃ c : Lib.Config Unit (World Unit Sample.Inflater Unit) Call Reply (@Res Sample.Inflater Unit),
      SoundRun Sample.codecs (Sample.mount 2 Sample.checksum) none c ∧
      ∃ e ∈ c.history, e.call = .read 1 0 10 ∧ ∃ bs, e.reply = .data bs ∧
        bs.length < min 10 (2 - 0) := by
  obtain ⟨c, hc, hall⟩ := Sample.served 2 Sample.checksum [.openFile 2 .rdonly, .read 1 0 10]
    [.opened 1, .data [0x61]] (by decide +kernel)
  obtain ⟨e, he, hcall, hreply⟩ := hall (.read 1 0 10, .data [0x61]) (by simp)
  exact ⟨rfl, rfl, c, hc, e, he, hcall, [0x61], hreply, by decide⟩

end ZipFs
