import ZipFs.Mount.FsProof
import ZipFs.Mount.Resumed

/-!
# What a mount replies, over whole runs

The results about every run of a mount whose archive is changed only by writers that
show what they do. They hold in every reachable configuration: for any number of
threads, any interleaving of their calls, any failure of the archive to answer, and
any number of handles on an entry. Those about the content of compressed entries are
about the runs whose checkouts find sound decoders.
-/

namespace ZipFs

open Lib (Safe Meets)

variable {τ δ ζ : Type} {B G : Prop} {K : Codecs δ ζ} {M : Mount}

/-- What each call promises: of the state it finished in, and of its reply. -/
def CallOk (G : Prop) (K : Codecs δ ζ) (M : Mount) (_ : τ) (call : Call) (_ : World τ δ ζ)
    (reply : Reply) (w : World τ δ ζ) : Prop :=
  match call with
  | .read fh offset size => ∀ bs, reply = .data bs → ∃ f, FileAt fh f w ∧ FileOk M f w ∧
      DataOk G K M f offset (min size (f.size - offset)) bs w
  | .openFile ino _ => ∀ fh, reply = .opened fh → ∃ f, FileAt fh f w ∧ f.ino = ino ∧
      ∃ node, M.index.node ino = some node ∧ f.metaIdx = node.metaIdx
  | .readAt len offset => ∀ data, reply = .bytes (.ok data) → data <+: M.range offset len
  | .readExactAt buf offset => ∀ data, reply = .bytes (.ok data) → data.length = buf.length ∧
      data = M.range offset buf.length
  | .readlink _ | .release _ => True

/-- Writers that show what they do keep the invariant. -/
theorem writer_keeps {w w' : World τ δ ζ} (hi : MountInv B G K M w) (h : Writer M w w') :
    MountInv B G K M w' ∧ Grows M w w' ∧ ∀ u, Others M u w w' := by
  have hold : ∀ {w' : World τ δ ζ}, w'.files = w.files → w'.pools = w.pools →
      w'.stores = w.stores → w'.verifyState = w.verifyState → (Altered M w → Altered M w') →
      Grows M w w' := by
    intro w' hf hp hs hv hch
    refine ⟨hch, ?_, ?_, ?_, ?_, ?_⟩
    · unfold FileAt
      rw [hf]
      exact fun _ _ h => h
    · unfold PoolFor
      rw [hp]
      exact fun _ _ h => h
    · unfold KeptBy
      rw [hp]
      exact fun _ _ h => h
    · rw [hs]
      exact fun _ c h => ⟨c, h, .refl c⟩
    · rw [hv]
      exact fun _ h => h
  cases h with
  | touch stamp hstamp =>
      have hg : Grows M w { w with stamp := stamp } := hold rfl rfl rfl rfl fun _ => hstamp
      refine ⟨⟨?_, hi.starts, hi.verdicts, fun fh c h => (hi.files fh c h).grows hg, hi.pools,
        hi.stores, hi.cores, fun t n h => (hi.notes t n h).grows hg, hi.fresh⟩, hg,
        fun u => .of_grows hg rfl rfl rfl rfl⟩
      intro h
      exact absurd (hstamp.symm.trans h) (by simp)
  | write content hstamp =>
      have hg : Grows M w { w with content := content } := hold rfl rfl rfl rfl fun h => h
      refine ⟨⟨?_, hi.starts, hi.verdicts, fun fh c h => (hi.files fh c h).grows hg, hi.pools,
        hi.stores, hi.cores, fun t n h => (hi.notes t n h).grows hg, hi.fresh⟩, hg,
        fun u => .of_grows hg rfl rfl rfl rfl⟩
      intro h
      exact absurd (hstamp.symm.trans h) (by simp)
  | path path =>
      have hg : Grows M w { w with path := path } := hold rfl rfl rfl rfl fun h => h
      exact ⟨⟨hi.honest, hi.starts, hi.verdicts, fun fh c h => (hi.files fh c h).grows hg, hi.pools,
        hi.stores, hi.cores, fun t n h => (hi.notes t n h).grows hg, hi.fresh⟩, hg,
        fun u => .of_grows hg rfl rfl rfl rfl⟩

theorem start_inv (path : Option Stamp) : MountInv B G K M (World.start (τ := τ) M path) where
  honest _ := rfl
  starts _ _ _ h := absurd rfl h
  verdicts _ _ _ := trivial
  files _ _ h := absurd h (by simp [World.start])
  pools _ _ h := absurd h (by simp [World.start])
  stores _ _ h := absurd h (by simp [World.start])
  cores := ⟨by simp [World.start], by simp [World.start], by simp [World.start]⟩
  notes _ _ h := absurd h (by simp [World.start])
  fresh _ _ := ⟨rfl, rfl⟩

variable [DecidableEq τ]

theorem arrive_keeps {κ : Type} {w : World τ δ ζ} (t : τ) (call : κ) (hi : MountInv B G K M w) :
    Keeps B G K M t w (arrive t call w) :=
  keeps_seen hi (by simp)

/-- Every call keeps its promise, whatever the other threads and the writers do meanwhile. -/
theorem safe_call (hG : G → K.Lawful) (t : τ) (call : Call) {w₀ w : World τ δ ζ}
    (hi : MountInv B G K M w) :
    Safe (mountProtocol B G K M) (execIf B G K M) t (CallOk G K M t call w₀) (call.prog K M) w := by
  cases call with
  | openFile ino mode => exact safe_openFile hi ino mode
  | read fh offset size => exact safe_read hG hi fh offset size
  | readlink ino => exact (readlink_does hG ino t w hi trivial).mono fun _ _ _ _ => trivial
  | release fh => exact (releaseCall_does fh t w hi trivial).mono fun _ _ _ _ => trivial
  | readAt len offset =>
      refine Safe.bind hi ((readAt_does len offset t w hi trivial).mono ?_)
      intro r w₁ _ hr
      refine .ret fun _ _ _ data h => ?_
      rw [Reply.bytes.inj h] at hr
      exact hr
  | readExactAt buf offset =>
      refine Safe.bind hi ((readExactAt_does buf offset t w hi trivial).mono ?_)
      intro x w₁ _ h
      rcases x with ⟨got, r⟩
      rcases h with ⟨hlen, hgot, -⟩
      refine .ret fun _ _ _ data h => ?_
      cases r with
      | error e => exact absurd (Reply.bytes.inj h) (by simp [Except.map])
      | ok _ =>
          obtain rfl := Except.ok.inj (Reply.bytes.inj h)
          refine ⟨hlen, ?_⟩
          have hpre := List.prefix_iff_eq_take.mp (hgot rfl)
          dsimp only at hlen hpre
          rw [hlen] at hpre
          exact hpre

/-- The mount whose archive answers as `B` allows, and whose checkouts find sound decoders if
`G`. -/
abbrev answeredSystem (B G : Prop) (K : Codecs δ ζ) (M : Mount)
    (env : World τ δ ζ → World τ δ ζ → Prop) :
    Lib.System τ (World τ δ ζ) Call Reply (@Res δ ζ) :=
  (mountSystem K M env).only fun _ o w r => Answers B o r ∧ (G → PicksSound o w = true)

/-- A call keeps its promise, and finishes in a mount that is in order. -/
def Served (B G : Prop) (K : Codecs δ ζ) (M : Mount) (t : τ) (call : Call) (w₀ : World τ δ ζ)
    (reply : Reply) (w : World τ δ ζ) : Prop :=
  CallOk G K M t call w₀ reply w ∧ MountInv B G K M w

theorem answered_respects (hG : G → K.Lawful) {env : World τ δ ζ → World τ δ ζ → Prop}
    (henv : ∀ w w', env w w' → Writer M w w') :
    Lib.Respects (answeredSystem B G K M env) (mountProtocol B G K M) (Served B G K M) where
  arrive t call _ hi := arrive_keeps t call hi
  env _ _ h hi := writer_keeps hi (henv _ _ h)
  calls t call _ hi :=
    (safe_call hG t call (arrive_keeps t call hi).1).mono fun _ _ hi' h => ⟨h, hi'⟩

/-- What holds whatever the codecs do and whatever the checkouts find. -/
theorem mount_respects :
    Lib.Respects (mountSystem (τ := τ) K M (Writer M)) (mountProtocol True False K M)
      (Served True False K M) where
  arrive t call _ hi := arrive_keeps t call hi
  env _ _ h hi := writer_keeps hi h
  calls t call w hi :=
    ((answered_respects (τ := τ) (B := True) (G := False) False.elim fun _ _ h => h).calls
      t call w hi).restrict fun _ _ r _ he => ⟨he, .anyhow r, False.elim⟩

/-- What holds of lawful codecs where the checkouts find sound decoders. -/
theorem sound_respects (hK : K.Lawful) :
    Lib.Respects (soundMount τ K M) (mountProtocol True True K M) (Served True True K M) where
  arrive t call _ hi := arrive_keeps t call hi
  env _ _ h hi := writer_keeps hi h
  calls t call w hi :=
    ((answered_respects (τ := τ) (B := True) (G := True) (fun _ => hK) fun _ _ h => h).calls
      t call w hi).restrict fun _ _ r _ he => ⟨he.1, .anyhow r, fun _ => he.2⟩

theorem mountRun_good {path : Option Stamp}
    {c : Lib.Config τ (World τ δ ζ) Call Reply (@Res δ ζ)} (h : MountRun K M path c) :
    Lib.Good (mountSystem K M (Writer M)) (mountProtocol True False K M)
      (Served True False K M) c :=
  Lib.sound mount_respects (start_inv path) h

theorem soundRun_good (hK : K.Lawful) {path : Option Stamp}
    {c : Lib.Config τ (World τ δ ζ) Call Reply (@Res δ ζ)} (h : SoundRun K M path c) :
    Lib.Good (soundMount τ K M) (mountProtocol True True K M) (Served True True K M) c :=
  Lib.sound (sound_respects hK) (start_inv path) h

omit [DecidableEq τ] in
/-- The reads that were answered with data, and the open files they were answered from. -/
theorem read_answered {S : Lib.System τ (World τ δ ζ) Call Reply (@Res δ ζ)}
    {c : Lib.Config τ (World τ δ ζ) Call Reply (@Res δ ζ)}
    (hg : Lib.Good S (mountProtocol B G K M) (Served B G K M) c)
    {e : Lib.Event τ (World τ δ ζ) Call Reply} (he : e ∈ c.history) {fh offset size : Nat}
    {bs : Bytes} (hcall : e.call = .read fh offset size) (hreply : e.reply = .data bs) :
    ∃ f, FileAt fh f c.world ∧ FileOk M f c.world ∧
      DataOk G K M f offset (min size (f.size - offset)) bs c.world := by
  have hq := (hg.history e he).1
  unfold CallOk at hq
  rw [hcall] at hq
  obtain ⟨f, hat, hf, hb⟩ := hq bs hreply
  exact ⟨f, (hg.past e he).files fh f hat, hf.grows (hg.past e he),
    lasting_dataOk (B := B) f offset _ bs _ _ (hg.past e he) hb⟩

omit [DecidableEq τ] in
/-- The opens that were answered with a handle. -/
theorem opened_file {S : Lib.System τ (World τ δ ζ) Call Reply (@Res δ ζ)}
    {c : Lib.Config τ (World τ δ ζ) Call Reply (@Res δ ζ)}
    (hg : Lib.Good S (mountProtocol B G K M) (Served B G K M) c)
    {e : Lib.Event τ (World τ δ ζ) Call Reply} (he : e ∈ c.history) {ino fh : Nat}
    {mode : AccMode} (hcall : e.call = .openFile ino mode) (hreply : e.reply = .opened fh) :
    ∃ f, FileAt fh f c.world ∧ f.ino = ino ∧
      ∃ node, M.index.node ino = some node ∧ f.metaIdx = node.metaIdx := by
  have hq := (hg.history e he).1
  unfold CallOk at hq
  rw [hcall] at hq
  obtain ⟨f, hat, hino, hnode⟩ := hq fh hreply
  exact ⟨f, (hg.past e he).files fh f hat, hino, hnode⟩

/-- The second read of the torn sample is in the history of a run. -/
theorem Sample.Torn.served :
    ∃ c : Lib.Config Unit (World Unit Sample.Inflater Sample.Torn.Phase) Call Reply
        (@Res Sample.Inflater Sample.Torn.Phase),
      MountRun Sample.Torn.codecs Sample.Torn.mount none c ∧
      ∃ e ∈ c.history, e.call = .read 1 1 3 ∧ e.reply = .data [0x07, 0x00, 0x00] ∧
        ∃ f m, FileAt 1 f c.world ∧ LocationOk Sample.Torn.mount f.metaIdx m f.loc ∧
          m = Sample.Torn.entry ∧ f.loc = Sample.Torn.loc ∧ f.metaIdx = 0 ∧
          c.world.verifyState 0 = .ok := by
  obtain ⟨w, hrun, hstate, hfile⟩ := Sample.Torn.calls_answered
    (S := mountSystem Sample.Torn.codecs Sample.Torn.mount (Writer Sample.Torn.mount)) rfl rfl
  obtain ⟨c, hc, rfl, -, -, hall⟩ :=
    Lib.reachable_runCalls (fun _ _ _ _ h => Or.inl h) Lib.Reachable.init rfl hrun
  obtain ⟨e, he, hcall, hreply⟩ :=
    hall (.read 1 1 3, .data [0x07, 0x00, 0x00]) (by simp [Sample.Torn.calls])
  obtain ⟨f, hat, hok, -⟩ := read_answered (mountRun_good hc) he hcall hreply
  obtain ⟨m, hloc, -⟩ := hok.entry
  obtain ⟨cell, hcell, hx⟩ := Option.map_eq_some_iff.mp hfile
  obtain ⟨hf, hi⟩ := Prod.mk.inj hx
  obtain rfl := hat.unique ⟨cell, hcell, rfl⟩
  exact ⟨c, hc, e, he, hcall, hreply, _, m, hat, hloc, (Sample.Torn.meta_eq hloc.entry).2, hf, hi,
    hstate⟩

/-! ## Reads are right -/

/--
**Every reply with data carries the bytes of the entry**, in every run whose checkouts find
sound decoders. The handle stands for one
open file, on one entry at one place of the archive; a read of it at an offset inside
the entry delivers the content of the entry from that offset on, and all that was asked
for if the content is as long as declared. No decoder that a pool lends is ever past
the offset of its read.
-/
theorem read_correct (hK : K.Lawful) {path : Option Stamp}
    {c : Lib.Config τ (World τ δ ζ) Call Reply (@Res δ ζ)} (h : SoundRun K M path c) :
    (∀ e ∈ c.history, ∀ fh offset size bs, e.call = .read fh offset size → e.reply = .data bs →
      ∃ f m, FileAt fh f c.world ∧ LocationOk M f.metaIdx m f.loc ∧ f.size = m.uncompressedSize ∧
        (offset < m.uncompressedSize → ∃ n, n ≤ min size (m.uncompressedSize - offset) ∧
          bs.length = n ∧ bs = ((f.loc.content K M).drop offset).take n ∧
          (m.uncompressedSize ≤ (f.loc.content K M).length →
            n = min size (m.uncompressedSize - offset)))) ∧
    (∀ e ∈ c.history, ∀ ino mode fh, e.call = .openFile ino mode → e.reply = .opened fh →
      ∃ f, FileAt fh f c.world ∧ f.ino = ino ∧
        ∃ node, M.index.node ino = some node ∧ f.metaIdx = node.metaIdx) ∧
    (∀ t, Note.pastOffset ∉ c.world.seen t) := by
  have hg := soundRun_good hK h
  refine ⟨?_, ?_, ?_⟩
  · intro e he fh offset size bs hcall hreply
    obtain ⟨f, hat, hf, hd⟩ := read_answered hg he hcall hreply
    have hb := hd.bytes (.inl trivial)
    obtain ⟨m, hloc, hsize⟩ := hf.entry
    refine ⟨f, m, hat, hloc, hsize, fun hlt => ⟨bs.length, ?_, rfl, hb.content, fun hlong => ?_⟩⟩
    · rw [← hsize]
      exact hb.len
    · rcases hb.full with hfull | ⟨hne, hearly⟩
      · rw [← hsize]
        exact hfull
      · -- a stream that ends early is shorter than declared
        obtain ⟨-, -, -, hshort⟩ := hearly m hloc.entry
        rw [content_of_coded hne] at hlong
        omega
  · intro e he ino mode fh hcall hreply
    exact opened_file hg he hcall hreply
  · intro t hmem
    exact hg.inv.notes t _ hmem

/-- A read of the sample delivers the letter that its entry decodes to. -/
theorem read_correct_sample :
    ∃ c : Lib.Config Unit (World Unit Sample.Inflater Unit) Call Reply (@Res Sample.Inflater Unit),
      SoundRun Sample.codecs (Sample.mount 1 Sample.checksum) none c ∧
      ∃ e ∈ c.history, e.call = .read 1 0 10 ∧ e.reply = .data [0x61] ∧
        ∃ f, FileAt 1 f c.world ∧
          [0x61] =
            ((f.loc.content Sample.codecs (Sample.mount 1 Sample.checksum)).drop 0).take 1 := by
  obtain ⟨c, hc, hall⟩ := Sample.served 1 Sample.checksum [.openFile 2 .rdonly, .read 1 0 10]
    [.opened 1, .data [0x61]] (by decide +kernel)
  obtain ⟨e, he, hcall, hreply⟩ := hall (.read 1 0 10, .data [0x61]) (by simp)
  obtain ⟨f, m, hat, hloc, -, hread⟩ :=
    (read_correct Sample.codecs_lawful hc).1 e he 1 0 10 [0x61] hcall hreply
  obtain rfl := Sample.meta_eq hloc.entry
  obtain ⟨n, -, rfl, hbytes, -⟩ := hread (by decide)
  exact ⟨c, hc, e, he, hcall, hreply, f, hat, hbytes⟩

/-- **A read after a failed one delivers other bytes than the entry has**: its decoder goes on
from where its codec failed. -/
theorem read_resumed_incorrect :
    ∃ c : Lib.Config Unit (World Unit Sample.Inflater Sample.Torn.Phase) Call Reply
        (@Res Sample.Inflater Sample.Torn.Phase),
      Sample.Torn.codecs.Lawful ∧ MountRun Sample.Torn.codecs Sample.Torn.mount none c ∧
      ∃ e ∈ c.history, ∃ bs, e.call = .read 1 1 3 ∧ e.reply = .data bs ∧
        ∃ f m, FileAt 1 f c.world ∧ LocationOk Sample.Torn.mount f.metaIdx m f.loc ∧
          1 < m.uncompressedSize ∧
          ∀ n, bs ≠ ((f.loc.content Sample.Torn.codecs Sample.Torn.mount).drop 1).take n := by
  obtain ⟨c, hc, e, he, hcall, hreply, f, m, hat, hloc, rfl, hf, -⟩ := Sample.Torn.served
  refine ⟨c, Sample.Torn.codecs_lawful, hc, e, he, _, hcall, hreply, f, _, hat, hloc, by decide, ?_⟩
  intro n
  rw [hf, content_of_coded (by decide), Sample.Torn.stream_loc]
  cases n <;> simp

/-! ## The last byte certifies the entry -/

/--
**A read that delivers the last byte certifies the whole entry**, in every run whose
checkouts find sound decoders. The checksum of an idle decoder is that of the stream up to
its position; an entry is marked good only when its stream has the declared size and the
recorded checksum; and no entry with any bytes is ever accepted because its decoder was
verified before.
-/
theorem last_byte_certifies (hK : K.Lawful) (hverify : M.config.verify = true)
    {path : Option Stamp} {c : Lib.Config τ (World τ δ ζ) Call Reply (@Res δ ζ)}
    (h : SoundRun K M path c) :
    (∀ e ∈ c.history, ∀ fh offset size bs, e.call = .read fh offset size → e.reply = .data bs →
      ∃ f m, FileAt fh f c.world ∧ LocationOk M f.metaIdx m f.loc ∧
        (f.loc.method ≠ .store → offset < m.uncompressedSize →
          offset + bs.length = m.uncompressedSize →
          (f.loc.stream K M).bytes.length = m.uncompressedSize ∧
            crc32 (f.loc.stream K M).bytes = m.crc32)) ∧
    (∀ t i start offset len n, Note.delivered i start offset len n ∈ c.world.seen t →
      ∃ m loc, LocationOk M i m loc ∧ loc.dataStart = start ∧
        (offset < m.uncompressedSize → offset + n = m.uncompressedSize →
          (loc.stream K M).bytes.length = m.uncompressedSize ∧
            crc32 (loc.stream K M).bytes = m.crc32)) ∧
    (∀ i m, M.index.metas[i]? = some m → m.method ≠ some .store →
      c.world.verifyState i = .ok → ∃ loc, LocationOk M i m loc ∧
        (loc.stream K M).bytes.length = m.uncompressedSize ∧
          crc32 (loc.stream K M).bytes = m.crc32) ∧
    (∀ (id : Nat) cell, c.world.pools[id]? = some cell → ∀ d ∈ cell.idle,
      d.crc = some (Crc.new.update ((cell.loc.stream K M).bytes.take d.pos))) ∧
    (∀ t i, Note.verifiedShortcut i ∈ c.world.seen t →
      ∃ m, M.index.metas[i]? = some m ∧ m.uncompressedSize = 0) := by
  have hg := soundRun_good hK h
  have hi := hg.inv
  refine ⟨?_, ?_, ?_, ?_, ?_⟩
  · intro e he fh offset size bs hcall hreply
    obtain ⟨f, hat, hf, hd⟩ := read_answered hg he hcall hreply
    obtain ⟨m, hloc, hsize⟩ := hf.entry
    refine ⟨f, m, hat, hloc, fun hne hlt hlast => ?_⟩
    have hok := (hd.bytes (.inl trivial)).checked hne hverify (by omega) (by omega) m hloc.entry
    exact ⟨hok.size, hok.crc⟩
  · intro t i start offset len n hmem
    obtain ⟨m, loc, hloc, hstart, hdel⟩ := hi.notes t _ hmem trivial
    refine ⟨m, loc, hloc, hstart, fun hlt hlast => ?_⟩
    have hok := hdel.checked (by omega) (by omega) hverify
    exact ⟨hok.size, hok.crc⟩
  · intro i m hm _ hstate
    have hv := hi.verdicts i m hm
    rw [hstate] at hv
    obtain ⟨loc, hloc, hok⟩ := hv (.inl trivial)
    exact ⟨loc, hloc, hok.size, hok.crc⟩
  · intro id cell hcell d hd
    obtain ⟨m, -, hidle⟩ := (hi.pools id cell hcell).entry
    rw [((hidle d hd).good trivial).crc, if_pos hverify]
  · intro t i hmem
    exact hi.notes t _ hmem

/-- The read of the sample delivers its last byte, so the entry is whole. -/
theorem last_byte_certifies_sample :
    ∃ c : Lib.Config Unit (World Unit Sample.Inflater Unit) Call Reply (@Res Sample.Inflater Unit),
      SoundRun Sample.codecs (Sample.mount 1 Sample.checksum) none c ∧
      ∃ e ∈ c.history, e.call = .read 1 0 10 ∧ e.reply = .data [0x61] ∧
        ∃ f, FileAt 1 f c.world ∧
          (f.loc.stream Sample.codecs (Sample.mount 1 Sample.checksum)).bytes.length = 1 ∧
          crc32 (f.loc.stream Sample.codecs (Sample.mount 1 Sample.checksum)).bytes =
            Sample.checksum := by
  obtain ⟨c, hc, hall⟩ := Sample.served 1 Sample.checksum [.openFile 2 .rdonly, .read 1 0 10]
    [.opened 1, .data [0x61]] (by decide +kernel)
  obtain ⟨e, he, hcall, hreply⟩ := hall (.read 1 0 10, .data [0x61]) (by simp)
  obtain ⟨f, m, hat, hloc, hread⟩ :=
    (last_byte_certifies Sample.codecs_lawful rfl hc).1 e he 1 0 10 [0x61] hcall hreply
  obtain rfl := Sample.meta_eq hloc.entry
  have hmethod : Method.deflate = f.loc.method := Option.some.inj hloc.method
  exact ⟨c, hc, e, he, hcall, hreply, f, hat, hread (by simp [← hmethod]) (by decide) rfl⟩

/-- **A read after a failed one delivers the last byte of an entry that has another checksum**, and
the entry is marked good. Checksums are verified on this mount. -/
theorem last_byte_uncertified :
    Sample.Torn.mount.config.verify = true ∧
    ∃ c : Lib.Config Unit (World Unit Sample.Inflater Sample.Torn.Phase) Call Reply
        (@Res Sample.Inflater Sample.Torn.Phase),
      Sample.Torn.codecs.Lawful ∧ MountRun Sample.Torn.codecs Sample.Torn.mount none c ∧
      ∃ e ∈ c.history, ∃ bs, e.call = .read 1 1 3 ∧ e.reply = .data bs ∧
        ∃ f m, FileAt 1 f c.world ∧ LocationOk Sample.Torn.mount f.metaIdx m f.loc ∧
          f.loc.method ≠ .store ∧ 1 + bs.length = m.uncompressedSize ∧
          crc32 (f.loc.stream Sample.Torn.codecs Sample.Torn.mount).bytes ≠ m.crc32 ∧
          c.world.verifyState f.metaIdx = .ok := by
  obtain ⟨c, hc, e, he, hcall, hreply, f, m, hat, hloc, rfl, hf, hi, hstate⟩ := Sample.Torn.served
  refine ⟨rfl, c, Sample.Torn.codecs_lawful, hc, e, he, _, hcall, hreply, f, _, hat, hloc, ?_,
    rfl, ?_, ?_⟩
  · rw [hf]
    decide
  · rw [hf, Sample.Torn.stream_loc]
    decide +kernel
  · rw [hi]
    exact hstate

/-! ## Only mounted bytes -/

/--
**No byte of a changed archive is used.** Every guarded read that succeeds returned the
mounted bytes of its range; so did every window that a source handed to a codec, however
many refills and changes lie between two of them; and every cached data start is one that
rawzip finds in the mounted bytes. A reply with data on a stored entry is a piece of its mounted
range, and one on a compressed entry is made of what codecs that have never been fed
anything but mounted bytes produced. Where codecs keep their contract and checkouts find
sound decoders, it is a piece of what the mounted range decodes to.
-/
theorem snapshot_safe {path : Option Stamp}
    {c : Lib.Config τ (World τ δ ζ) Call Reply (@Res δ ζ)} (h : MountRun K M path c) :
    (∀ e ∈ c.history, ∀ buf offset data, e.call = .readExactAt buf offset →
      e.reply = .bytes (.ok data) → data.length = buf.length ∧ data = M.range offset buf.length) ∧
    (∀ e ∈ c.history, ∀ len offset data, e.call = .readAt len offset →
      e.reply = .bytes (.ok data) → data.length ≤ len ∧ data = M.range offset data.length) ∧
    (∀ t offset data, Note.guarded offset data ∈ c.world.seen t →
      data = M.range offset data.length) ∧
    (∀ t offset data, Note.fed offset data ∈ c.world.seen t →
      data = M.range offset data.length) ∧
    (∀ i m, M.index.metas[i]? = some m → c.world.dataStart i ≠ U64_MAX →
      EntryStart M m (c.world.dataStart i)) ∧
    (∀ e ∈ c.history, ∀ fh offset size bs, e.call = .read fh offset size → e.reply = .data bs →
      ∃ f m, FileAt fh f c.world ∧ LocationOk M f.metaIdx m f.loc ∧
        (f.loc.method = .store → bs = ((f.loc.range M).drop offset).take bs.length) ∧
        (f.loc.method ≠ .store → K.Blind → Made K M bs) ∧
        (K.Lawful → SoundRun K M path c →
          bs = ((f.loc.content K M).drop offset).take bs.length)) := by
  have hg := mountRun_good h
  refine ⟨?_, ?_, ?_, ?_, ?_, ?_⟩
  · intro e he buf offset data hcall hreply
    have hq := (hg.history e he).1
    unfold CallOk at hq
    rw [hcall] at hq
    exact hq data hreply
  · intro e he len offset data hcall hreply
    have hq := (hg.history e he).1
    unfold CallOk at hq
    rw [hcall] at hq
    obtain ⟨hpre, hlen⟩ := List.prefix_take_iff.mp (hq data hreply)
    exact ⟨hlen, List.prefix_iff_eq_take.mp hpre⟩
  · intro t offset data hmem
    exact List.prefix_iff_eq_take.mp (hg.inv.notes t _ hmem)
  · intro t offset data hmem
    exact List.prefix_iff_eq_take.mp (hg.inv.notes t _ hmem)
  · exact hg.inv.starts
  · intro e he fh offset size bs hcall hreply
    obtain ⟨f, hat, hf, hd⟩ := read_answered hg he hcall hreply
    obtain ⟨m, hloc, -⟩ := hf.entry
    refine ⟨f, m, hat, hloc, fun hstore => ?_, fun hne hb => (hd.made not_false hne hb).2, ?_⟩
    · rw [← content_of_stored (K := K) hstore]
      exact (hd.bytes (.inr hstore)).content
    · intro hK hs
      obtain ⟨f', hat', -, hd'⟩ := read_answered (soundRun_good hK hs) he hcall hreply
      obtain rfl := hat.unique hat'
      exact (hd'.bytes (.inl trivial)).content

/-- A guarded read of the sample returns the compressed bytes of its entry. -/
theorem snapshot_safe_sample :
    ∃ c : Lib.Config Unit (World Unit Sample.Inflater Unit) Call Reply (@Res Sample.Inflater Unit),
      MountRun Sample.codecs (Sample.mount 1 Sample.checksum) none c ∧
      ∃ e ∈ c.history, e.call = .readExactAt [0, 0, 0] 31 ∧
        e.reply = .bytes (.ok Sample.code) ∧
        Sample.code = (Sample.mount 1 Sample.checksum).range 31 3 := by
  obtain ⟨c, hc, hall⟩ := Sample.served 1 Sample.checksum [.readExactAt [0, 0, 0] 31]
    [.bytes (.ok Sample.code)] (by decide +kernel)
  obtain ⟨e, he, hcall, hreply⟩ :=
    hall (.readExactAt [0, 0, 0] 31, .bytes (.ok Sample.code)) (by simp)
  exact ⟨c, hc.mountRun, e, he, hcall, hreply,
    ((snapshot_safe hc.mountRun).1 e he [0, 0, 0] 31 _ hcall hreply).2⟩

end ZipFs
