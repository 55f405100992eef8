import ZipFs.Mount.Pieces

/-!
# The calls keep the protocol

Pools lend only decoders of their own entry that are not past the offset asked for;
open files know the location of the entry they were opened on; and a `read` that
replies with data replies with bytes of that entry. Where a codec has a part in that it
takes checkouts that are sound and codecs that keep their contract; without them it still
replies only with what the codec made of the mounted archive.
-/

namespace ZipFs

open Lib (Safe Meets Leaves lasting_true)

variable {τ δ ζ : Type} [DecidableEq τ] {B G : Prop} {K : Codecs δ ζ} {M : Mount}

/-! ## Pools -/

section Pool

variable {pool : EntryPool} {i : Nat} {m : EntryMeta}

variable (G K M) in
/-- A decoder that a pool lends for a read at `offset`. -/
structure LentOk (loc : EntryLocation) (total offset : Nat) (d : PositionedDecoder δ ζ) : Prop
    extends PooledOk G K M loc total d where
  pos : d.pos ≤ offset
  sound : G → d.failed = false

/-- What `pick` takes out of a pool is a decoder of the pool's entry. -/
theorem pick_does (hloc : LocationOk M i m pool.loc) (offset : Nat) :
    Does B G K M (PoolFor (τ := τ) pool i) (Act.pick pool.id offset) fun r =>
      ∀ d rewind, r = some (d, rewind) → PooledOk G K M pool.loc m.uncompressedSize d ∧
        (rewind = false → LentOk G K M pool.loc m.uncompressedSize offset d) := by
  refine meets_opIf (o := .pick pool.id offset) (lasting_poolFor pool i)
    (fun _ _ _ _ => trivial) ?_
  intro t w r w' hi h he d rewind hr
  rcases h with ⟨cell, hcell, hl, hx⟩
  subst hr
  obtain ⟨he, -, hsound⟩ := he
  rcases he with he | ⟨he, -⟩
  swap
  · exact he.elim
  simp only [det, hcell] at he
  split at he
  · exact absurd he (by simp)
  split at he
  · rename_i d' rewind' rest hpick
    obtain ⟨hsome, -⟩ := Prod.mk.inj (Option.some.inj he)
    obtain ⟨rfl, rfl⟩ := Prod.mk.inj (Option.some.inj hsome)
    obtain ⟨hperm, hpos⟩ := pickIdle_spec hpick
    obtain ⟨m', hloc', hidle⟩ := (hi.pools pool.id cell hcell).entry
    rw [hx] at hloc'
    obtain rfl := Option.some.inj (hloc.entry.symm.trans hloc'.entry)
    rw [hl] at hidle
    have hd := hidle _ (hperm.mem_iff.mpr List.mem_cons_self)
    refine ⟨hd, fun hr => ⟨hd, (hpos hr).1, fun g => ?_⟩⟩
    have hs := hsound g
    simp only [PicksSound, hcell, Option.all_some] at hs
    exact pickIdle_sound hs (hr ▸ hpick)
  · exact absurd (Prod.mk.inj (Option.some.inj he)).1 (by simp)

theorem takeCore_does {I : World τ δ ζ → Prop} (method : Method) :
    Does B G K M I (Act.takeCore method) (PartsOk K M method) := by
  refine Meets.anywhere ?_
  refine meets_op (o := .takeCore method) lasting_true (fun _ _ _ _ => trivial) ?_
  intro t w r w' hi _ he
  rcases he with he | ⟨he, -⟩
  · obtain ⟨rfl, -⟩ := Prod.mk.inj (Option.some.inj he)
    exact takeCore_parts hi.cores method
  · exact he.elim

/-- **A checkout is a decoder of the entry that is not past the offset.** -/
theorem checkout_does (hloc : LocationOk M i m pool.loc) (offset : Nat) :
    Does B G K M (PoolFor (τ := τ) pool i) (pool.checkout K M offset)
      (LentOk G K M pool.loc m.uncompressedSize offset) := by
  have hl := lasting_poolFor (τ := τ) (B := B) (G := G) (K := K) (M := M) pool i
  unfold EntryPool.checkout
  refine Meets.bind hl (pick_does hloc offset) ?_
  intro picked hpicked
  match picked, hpicked with
  | some (d, rewind), hpicked =>
      obtain ⟨hd, hlent⟩ := hpicked d rewind rfl
      refine Meets.bind hl (meets_plain (o := .releaseRetain) fun _ _ => trivial) fun _ _ => ?_
      refine .pure ?_
      cases rewind with
      | true => exact ⟨hd.reinit, Nat.zero_le _, fun _ => rfl⟩
      | false => exact hlent rfl
  | none, _ =>
      refine Meets.bind hl (takeCore_does pool.loc.method) fun parts hparts => .pure ?_
      exact ⟨.new hparts, Nat.zero_le _, fun _ => rfl⟩

theorem recycleCore_does {I : World τ δ ζ → Prop} {d : PositionedDecoder δ ζ}
    {loc : EntryLocation} {total : Nat} (hd : PooledOk G K M loc total d) :
    Does B G K M I (Act.recycleCore d.intoParts) fun _ => True :=
  meets_plain (o := .recycleCore d.intoParts) fun _ _ =>
    ⟨hd.shape.src.room, hd.shape.skip, hd.shape.fed⟩

theorem giveBack_does (hloc : LocationOk M i m pool.loc) {d : PositionedDecoder δ ζ}
    (hd : PooledOk G K M pool.loc m.uncompressedSize d) :
    Does B G K M (PoolFor (τ := τ) pool i) (pool.giveBack d) fun _ => True := by
  have hl := lasting_poolFor (τ := τ) (B := B) (G := G) (K := K) (M := M) pool i
  have hunlock : Does B G K M (PoolFor (τ := τ) pool i) (Act.unlockIdle pool.id) fun _ => True :=
    meets_plain (o := .unlockIdle pool.id) fun _ _ => trivial
  have hrecycle : Does B G K M (PoolFor (τ := τ) pool i) (do
      Act.unlockIdle pool.id
      Act.recycleCore d.intoParts) fun _ => True :=
    Meets.bind hl hunlock fun _ _ => recycleCore_does hd
  have hpush : Does B G K M (PoolFor (τ := τ) pool i) (Act.pushIdle pool.id d) fun _ => True := by
    refine meets_op (o := .pushIdle pool.id d) hl ?_ fun _ _ _ _ _ _ _ => trivial
    intro t w _ h cell' hcell' m' hm'
    rcases h with ⟨cell, hcell, hcl, hx⟩
    obtain rfl := Option.some.inj (hcell.symm.trans hcell')
    rw [hx] at hm'
    obtain rfl := Option.some.inj (hloc.entry.symm.trans hm')
    rw [hcl]
    exact hd
  unfold EntryPool.giveBack
  refine Meets.bind hl (meets_plain (o := .lockIdle pool.id) fun _ _ => trivial) ?_
  intro len _
  split
  · refine Meets.bind hl (meets_plain (o := .tryRetain) fun _ _ => trivial) ?_
    intro retained _
    split
    · exact Meets.bind hl hpush fun _ _ => hunlock
    · exact hrecycle
  · exact hrecycle

theorem recycleAll_does {I : World τ δ ζ → Prop} (hl : (mountProtocol B G K M).Lasting I)
    (ds : List (PositionedDecoder δ ζ)) (h : ∀ d ∈ ds, ∃ loc total, PooledOk G K M loc total d) :
    Does B G K M I (EntryPool.recycleAll ds) fun _ => True := by
  induction ds with
  | nil => exact .pure trivial
  | cons d ds ih =>
      obtain ⟨loc, total, hd⟩ := h d List.mem_cons_self
      unfold EntryPool.recycleAll
      refine Meets.bind hl (meets_plain (o := .releaseRetain) fun _ _ => trivial) fun _ _ => ?_
      refine Meets.bind hl (recycleCore_does hd) fun _ _ => ?_
      exact ih fun d hd => h d (List.mem_cons_of_mem _ hd)

theorem drop_does {I : World τ δ ζ → Prop} (hl : (mountProtocol B G K M).Lasting I)
    (pool : EntryPool) : Does B G K M I pool.drop fun _ => True := by
  unfold EntryPool.drop
  have htake : Does B G K M I (Act.takeIdle pool.id) fun ds =>
      ∀ d ∈ ds, ∃ loc total, PooledOk G K M loc total d := by
    refine meets_op (o := .takeIdle pool.id) hl (fun _ _ _ _ => trivial) ?_
    intro t w r w' hi _ he d hd
    rcases he with he | ⟨he, -⟩
    swap
    · exact he.elim
    simp only [det] at he
    split at he
    · rename_i cell hcell
      split at he
      · exact absurd he (by simp)
      obtain ⟨rfl, -⟩ := Prod.mk.inj (Option.some.inj he)
      obtain ⟨m, -, hidle⟩ := (hi.pools pool.id cell hcell).entry
      exact ⟨_, _, hidle d hd⟩
    · exact absurd he (by simp)
  exact Meets.bind hl htake fun ds hds => recycleAll_does hl ds hds

/-- A new pool is there for the entry it was made for, kept by its thread or by nobody. -/
theorem safe_newPool {t : τ} {w : World τ δ ζ} {loc : EntryLocation} (cap : Nat) (kept : Bool)
    (hi : MountInv B G K M w) (hcoded : loc.method ≠ .store) (hloc : LocationOk M i m loc) :
    Safe (mountProtocol B G K M) (execIf B G K M) t
      (fun pool w' => pool.loc = loc ∧ PoolFor pool i w' ∧
        KeptBy pool.id (if kept then some t else none) w') (EntryPool.new loc cap i kept) w := by
  unfold EntryPool.new
  have hnew : Safe (mountProtocol B G K M) (execIf B G K M) t
      (fun id w' => PoolFor ⟨id, cap, loc⟩ i w' ∧ KeptBy id (if kept then some t else none) w')
      (Act.newPool loc cap i kept : Act δ ζ _) w := by
    refine safe_op (o := .newPool loc cap i kept) (fun _ _ _ => ⟨hcoded, m, hloc⟩) ?_
    intro w₁ r w₂ w₃ _ _ he ho _
    rcases he with he | ⟨he, -⟩
    swap
    · exact he.elim
    obtain ⟨rfl, rfl⟩ := Prod.mk.inj (Option.some.inj he)
    exact ⟨ho.grows.pools _ _ ⟨_, List.getElem?_concat_length, rfl, rfl⟩,
      ho.grows.kept _ _ ⟨_, List.getElem?_concat_length, rfl⟩⟩
  refine Safe.bind hi (hnew.mono ?_)
  intro id w₁ hi₁ h
  obtain ⟨hpool, hkept⟩ := h
  exact .ret fun w₂ ho _ => ⟨rfl, ho.grows.pools _ _ hpool, ho.grows.kept _ _ hkept⟩

/-- What reading with a lent decoder leaves and returns. -/
structure LentRead (G : Prop) (K : Codecs δ ζ) (M : Mount) (loc : EntryLocation) (m : EntryMeta)
    (offset : Nat) (out : Bytes) (x : PositionedDecoder δ ζ × Bytes × Except IoError Nat) :
    Prop where
  decoder : PooledOk G K M loc m.uncompressedSize x.1
  good : G → ReadOk (K := K) (M := M) loc m offset out x
  made : ¬ G → K.Blind → MadeInto K M out x.2

/-- **Reading with a lent decoder**: under `G` the codec keeps its contract, and without it what is
delivered is still made of the archive. -/
theorem lentRead_does (hG : G → K.Lawful) {loc : EntryLocation} (hloc : LocationOk M i m loc)
    (hcoded : loc.method ≠ .store) {d : PositionedDecoder δ ζ} {offset : Nat}
    (hd : LentOk G K M loc m.uncompressedSize offset d)
    (hinside : offset < m.uncompressedSize ∨ offset = 0) (out : Bytes) :
    Does B G K M (Anywhere (τ := τ)) (d.readAt K M offset out i m)
      (LentRead G K M loc m offset out) := by
  have hver : d.verified = true → m.uncompressedSize = 0 := by
    intro hv
    have := hd.shape.verified hv
    have := hd.pos
    omega
  by_cases g : G
  · refine (decoderReadAt_does (hG g) hloc (hd.good g) (hd.sound g) hd.pos hver out).mono ?_
    intro x hx
    exact ⟨⟨hx.decoder.toDecoderShape, fun _ => hx.decoder⟩, fun _ => hx, fun h => absurd g h⟩
  · have hnot : ¬ (G ∨ m.method = some .store) := by
      rw [hloc.method]
      rintro (h | h)
      · exact g h
      · exact hcoded (Option.some.inj h)
    refine (decoderReadAt_keeps hloc.entry hnot hd.shape hd.pos hver out).mono ?_
    intro x hx
    exact ⟨⟨hx.1, fun h => absurd h g⟩, fun h => absurd h g, fun _ => hx.2⟩

end Pool

/-! ## Finding an entry -/

theorem diagnose_does {I : World τ δ ζ → Prop} (errno : Nat) :
    Does B G K M I (Fs.diagnose M errno) fun _ => True := by
  refine Meets.anywhere ?_
  unfold Fs.diagnose
  split
  · refine Meets.bind lasting_true (meets_note fun _ => trivial) fun _ _ => ?_
    have hverify : Does B G K M (Anywhere (τ := τ)) (GuardedFile.verify M) fun _ => True :=
      fun t w hi _ => (verify_meets True t w hi (.inr trivial)).mono fun _ _ _ _ => trivial
    have hcheck : Does B G K M (Anywhere (τ := τ)) (Archive.check M) fun _ => True := by
      unfold Archive.check GuardedFile.check
      refine Meets.bind lasting_true hverify ?_
      intro r _
      cases r with
      | ok _ => exact .pure trivial
      | error e =>
          refine Meets.bind lasting_true meets_isStale ?_
          intro stale _
          split
          · exact .pure trivial
          · exact .pure trivial
    exact Meets.bind lasting_true hcheck fun _ _ => .pure trivial
  · exact .pure trivial

theorem locate_does {i : Nat} {m : EntryMeta} (hm : M.index.metas[i]? = some m) :
    Does B G K M (Anywhere (τ := τ)) (Fs.locate M i m) fun r =>
      ∀ loc, r = .ok loc → LocationOk M i m loc := by
  unfold Fs.locate
  refine Meets.bind lasting_true meets_isStale ?_
  intro stale _
  split
  · exact .pure (by simp)
  · cases hread : Fs.readable m with
    | error errno => exact .pure (by simp)
    | ok method =>
        have hmethod : m.method = some method := by
          unfold Fs.readable at hread
          split at hread
          · exact absurd hread (by simp)
          · split at hread
            · exact absurd hread (by simp)
            · rename_i h
              rw [h, Except.ok.inj hread]
        dsimp only
        split
        · exact .pure (by simp)
        · rename_i hstored
          refine Meets.bind lasting_true (dataStart_does hm) ?_
          intro found hfound
          cases found with
          | error e => exact .pure (by simp)
          | ok start =>
              refine .pure fun loc h => ?_
              obtain rfl := Except.ok.inj h
              exact ⟨hm, rfl, hmethod, hfound start rfl, fun hs => by
                by_contra hne
                exact hstored ⟨hs, hne⟩⟩

/-! ## Opening -/

theorem index_meta {idx : Index} {node : Node} {m : EntryMeta} (h : idx.metaOf node = some m) :
    idx.metas[node.metaIdx]? = some m := by
  unfold Index.metaOf at h
  split at h
  · exact absurd h (by simp)
  · exact h

/-- A new tracker is there for the entry it was made for. -/
theorem safe_newStore {t : τ} {w : World τ δ ζ} {i : Nat} {m : EntryMeta} {loc : EntryLocation}
    (hloc : LocationOk M i m loc) (hstore : loc.method = .store) (hpos : 0 < m.uncompressedSize) :
    Safe (mountProtocol B G K M) (execIf B G K M) t (fun id w' => StoreFor id loc i w')
      (Act.newStore loc i : Act δ ζ _) w := by
  refine safe_op (o := .newStore loc i) (fun _ _ _ => ⟨hstore, m, hloc, hpos⟩) ?_
  intro w₁ r w₂ w₃ _ _ he ho _
  rcases he with he | ⟨he, -⟩
  swap
  · exact he.elim
  obtain ⟨rfl, rfl⟩ := Prod.mk.inj (Option.some.inj he)
  have hnew : StoreFor w₁.stores.length loc i
      { w₁ with stores := w₁.stores ++ [⟨StoreVerify.new, none, loc, i, []⟩] } :=
    ⟨_, List.getElem?_concat_length, rfl, rfl⟩
  exact hnew.grows ho.grows

/-- The open file of an entry knows where the entry is. -/
theorem safe_openFileNew {t : τ} {w : World τ δ ζ} {i : Nat} {m : EntryMeta} {loc : EntryLocation}
    (ino : Nat) (hi : MountInv B G K M w) (hloc : LocationOk M i m loc) :
    Safe (mountProtocol B G K M) (execIf B G K M) t
      (fun f w' => FileOk M f w' ∧ f.ino = ino ∧ f.metaIdx = i) (OpenFile.new M ino i m loc) w := by
  unfold OpenFile.new
  dsimp only
  split
  · rename_i hzero
    exact .ret fun w' _ _ => ⟨⟨⟨m, hloc, rfl⟩, hzero⟩, rfl, rfl⟩
  · split
    · rename_i hstore
      split
      · refine Safe.bind hi ((safe_newStore hloc hstore (by omega)).mono ?_)
        intro id w₁ _ hnew
        refine .ret fun w' ho _ => ⟨⟨⟨m, hloc, rfl⟩, rfl, rfl, hstore, ?_⟩, rfl, rfl⟩
        intro id' h
        obtain rfl := Option.some.inj h
        exact hnew.grows ho.grows
      · exact .ret fun w' _ _ => ⟨⟨⟨m, hloc, rfl⟩, rfl, rfl, hstore, by simp⟩, rfl, rfl⟩
    · rename_i hstore
      refine Safe.bind hi ((safe_newPool _ false hi hstore hloc).mono ?_)
      intro pool w₁ _ h
      rcases h with ⟨hpl, hpool, hkept⟩
      exact .ret fun w' ho _ =>
        ⟨⟨⟨m, hloc, rfl⟩, hpl, hstore, ho.grows.pools _ _ hpool, ho.grows.kept _ _ hkept⟩,
          rfl, rfl⟩

/-- A file inserted into the handle table is found behind its handle. -/
theorem safe_insert {t : τ} {w : World τ δ ζ} {f : OpenFile} (hi : MountInv B G K M w)
    (hf : FileOk M f w) :
    Safe (mountProtocol B G K M) (execIf B G K M) t (fun fh w' => FileAt fh f w')
      (HandleTable.insert f : Act δ ζ _) w := by
  have hlast : (mountProtocol B G K M).Lasting (FileOk (τ := τ) (δ := δ) (ζ := ζ) M f) :=
    fun _ _ hg h => h.grows hg
  have hdraw : Safe (mountProtocol B G K M) (execIf B G K M) t
      (fun fh w' => w'.minted fh = some t ∧ w'.files fh = none)
      (Act.nextHandle : Act δ ζ _) w := by
    refine safe_op (o := .nextHandle) (fun _ _ _ => trivial) ?_
    intro w₁ r w₂ w₃ _ hi₁ he ho _
    rcases he with he | ⟨he, -⟩
    swap
    · exact he.elim
    obtain ⟨rfl, rfl⟩ := Prod.mk.inj (Option.some.inj he)
    exact ho.minted w₁.next (Function.update_self ..) (hi₁.fresh _ (Nat.le_refl _)).1
  unfold HandleTable.insert
  refine Safe.bind hi ((hdraw.lasting hlast hf).mono ?_)
  intro fh w₁ hi₁ h
  rcases h with ⟨⟨hmine, hnone⟩, hf₁⟩
  have hput : Safe (mountProtocol B G K M) (execIf B G K M) t (fun _ w' => FileAt fh f w')
      (Act.insertHandle fh f : Act δ ζ _) w₁ := by
    refine safe_op (o := .insertHandle fh f) ?_ ?_
    · intro w₂ ho _
      obtain ⟨hm, hn⟩ := ho.minted fh hmine hnone
      exact ⟨hm, hn, hf₁.grows ho.grows⟩
    · intro w₂ r w₃ w₄ _ _ he ho _
      rcases he with he | ⟨he, -⟩
      swap
      · exact he.elim
      obtain ⟨-, rfl⟩ := Prod.mk.inj (Option.some.inj he)
      exact ho.grows.files fh f ⟨_, World.setFile_self .., rfl⟩
  refine Safe.bind hi₁ (hput.mono ?_)
  intro _ w₂ _ hat
  exact .ret fun w₃ ho _ => ho.grows.files fh f hat

/-! ## Stored entries -/

variable (K M) in
/-- The bytes of an entry: its own range if it is stored, else what the range decodes to. -/
def EntryLocation.content (loc : EntryLocation) : Bytes :=
  match loc.method with
  | .store => loc.range M
  | .deflate | .zstd => (loc.stream K M).bytes

theorem content_of_coded {loc : EntryLocation} (h : loc.method ≠ .store) :
    loc.content K M = (loc.stream K M).bytes := by
  unfold EntryLocation.content
  split
  · rename_i hs
    exact absurd hs h
  · rfl
  · rfl

theorem content_of_stored {loc : EntryLocation} (h : loc.method = .store) :
    loc.content K M = loc.range M := by
  unfold EntryLocation.content
  rw [h]

theorem checkedAdd_some {a b c : Nat} (h : Fs.checkedAdd a b = some c) : c = a + b := by
  unfold Fs.checkedAdd at h
  split at h
  · exact (Option.some.inj h).symm
  · exact absurd h (by simp)

/-- A direct read returns the bytes of the range at the offset. -/
theorem readDirect_does {I : World τ δ ζ → Prop} (loc : EntryLocation) (offset : Nat)
    (buf : Bytes) :
    Does B G K M I (Fs.readDirect M loc offset buf) fun x =>
      x.1.length = buf.length ∧ (x.2 = .ok () → offset + buf.length ≤ loc.compressedSize ∧
        x.1 = ((loc.range M).drop offset).take buf.length) := by
  refine Meets.anywhere ?_
  unfold Fs.readDirect
  cases hstop : Fs.checkedAdd offset buf.length with
  | none => exact .pure ⟨rfl, by simp⟩
  | some stop =>
      have hstop := checkedAdd_some hstop
      dsimp only
      split
      · exact .pure ⟨rfl, by simp⟩
      · rename_i hle
        cases habs : Fs.checkedAdd loc.dataStart offset with
        | none => exact .pure ⟨rfl, by simp⟩
        | some absolute =>
            have habs := checkedAdd_some habs
            dsimp only
            split
            · exact .pure ⟨rfl, by simp⟩
            · refine (readExactAt_does buf absolute).mono ?_
              intro x h
              rcases h with ⟨hlen, hx, -⟩
              refine ⟨hlen, fun hok => ⟨by omega, ?_⟩⟩
              have hpre := List.prefix_iff_eq_take.mp (hx hok)
              unfold EntryLocation.range
              rw [range_drop, List.take_take, Nat.min_eq_left (by omega), ← habs, ← hlen]
              exact hpre

/-! ### The verdict on a stored entry -/

section Stored

variable {i : Nat} {m : EntryMeta} {loc : EntryLocation}

/-- A stored entry decodes to its own bytes. -/
theorem stream_of_stored (h : loc.method = .store) : loc.stream K M = ⟨loc.range M, true⟩ := by
  unfold EntryLocation.stream
  rw [h]
  rfl

theorem LocationOk.length_stored (hloc : LocationOk M i m loc) (h : loc.method = .store) :
    (loc.range M).length ≤ m.uncompressedSize := by
  unfold EntryLocation.range
  rw [length_range, hloc.size, hloc.stored h]
  exact Nat.min_le_left _ _

/-- The verdict that the checksum of a whole stored entry gives. -/
theorem verdict_stored (hloc : LocationOk M i m loc) (h : loc.method = .store)
    (hall : m.uncompressedSize ≤ (loc.range M).length) :
    VerdictOk B G K M i m (if crc32 (loc.range M) = m.crc32 then .ok else .bad) := by
  have hle := hloc.length_stored h
  have hstream := stream_of_stored (K := K) (M := M) h
  split
  · rename_i hcrc
    exact fun _ => ⟨loc, hloc, by rw [hstream]; dsimp only; omega, by rw [hstream]; exact hcrc,
      by rw [hstream]⟩
  · rename_i hcrc
    refine fun _ => ⟨loc, hloc, by rw [hstream]; exact hall, .inr (.inr fun _ hok => hcrc ?_)⟩
    have := hok.crc
    rwa [hstream] at this

theorem storeVerify_does {I : World τ δ ζ → Prop} (hm : M.index.metas[i]? = some m)
    {state : VerifyState} (hne : state ≠ .unknown) (h : VerdictOk B G K M i m state) :
    Does B G K M I (Act.storeVerify i state) fun _ => True := by
  refine meets_plain (o := .storeVerify i state) fun _ _ => ⟨hne, fun m' hm' => ?_⟩
  obtain rfl := Option.some.inj (hm.symm.trans hm')
  exact h

theorem verifyStored_does {I : World τ δ ζ → Prop} (hl : (mountProtocol B G K M).Lasting I)
    (hloc : LocationOk M i m loc) (h : loc.method = .store) {data : Bytes}
    (hdata : data = loc.range M) (hall : m.uncompressedSize ≤ data.length) :
    Does B G K M I (Fs.verifyStored M i m data) fun _ => True := by
  subst hdata
  have hv := verdict_stored (B := B) (G := G) (K := K) hloc h hall
  unfold Fs.verifyStored
  split
  · split
    · rename_i hcrc
      rw [if_pos hcrc] at hv
      exact Meets.bind hl (storeVerify_does hloc.entry (by simp) hv) fun _ _ => .pure trivial
    · rename_i hcrc
      rw [if_neg hcrc] at hv
      exact Meets.bind hl (storeVerify_does hloc.entry (by simp) hv) fun _ _ => .pure trivial
  · exact .pure trivial

/-! ### The tracker of a stored entry -/

/-- Thread `t` has the tracker locked, and it has observed these blocks. -/
def Locked (t : τ) (id : Nat) (loc : EntryLocation) (i : Nat) (bs : List (Nat × Nat))
    (w : World τ δ ζ) : Prop :=
  ∃ cell, w.stores[id]? = some cell ∧ cell.lock = some t ∧ cell.loc = loc ∧ cell.metaIdx = i ∧
    cell.observed = bs

variable (M) in
/-- The tracker has observed the block, which did not complete an entry that does not match. -/
def Observed (id : Nat) (loc : EntryLocation) (m : EntryMeta) (b : Nat × Nat)
    (w : World τ δ ζ) : Prop :=
  ∃ cell bs, w.stores[id]? = some cell ∧ bs ++ [b] <+: cell.observed ∧
    ¬ Mismatch M loc m (bs ++ [b])

omit [DecidableEq τ] in
theorem lasting_observed (id : Nat) (loc : EntryLocation) (m : EntryMeta) (b : Nat × Nat) :
    (mountProtocol (τ := τ) B G K M).Lasting (Observed M id loc m b) := by
  intro w w' hg h
  obtain ⟨cell, bs, hcell, hpre, hnot⟩ := h
  obtain ⟨cell', hcell', hc⟩ := hg.stores id cell hcell
  exact ⟨cell', bs, hcell', hpre.trans hc.observed, hnot⟩

variable {t : τ} {id : Nat} {bs : List (Nat × Nat)} {w : World τ δ ζ}

omit [DecidableEq τ] in
theorem Locked.others {w' : World τ δ ζ} (h : Locked t id loc i bs w) (ho : Others M t w w') :
    Locked t id loc i bs w' := by
  obtain ⟨cell, hcell, hlock, hrest⟩ := h
  exact ⟨cell, ho.locked id cell hcell hlock, hlock, hrest⟩

/-- An operation on something else, while the tracker is locked. -/
theorem safe_locked {o : Op δ ζ} (hlocked : Locked t id loc i bs w)
    (hok : ∀ w₁, Locked t id loc i bs w₁ → MountInv B G K M w₁ → OpOk B G K M t w₁ o)
    (hsame : ∀ (w₁ : World τ δ ζ) r w₂, exec K M t o w₁ r w₂ → w₂.stores = w₁.stores) :
    Safe (mountProtocol B G K M) (execIf B G K M) t (fun _ w' => Locked t id loc i bs w')
      (.op o .ret) w := by
  refine safe_op (fun w₁ ho hi => hok w₁ (hlocked.others ho) hi) ?_
  intro w₁ r w₂ w₃ ho _ he ho₃ _
  refine Locked.others ?_ ho₃
  unfold Locked
  rw [hsame w₁ r w₂ he]
  exact hlocked.others ho

/-- Locking the tracker of an entry: it is what the blocks so far make of it. -/
theorem safe_lockStore (hstore : StoreFor id loc i w) (hloc : LocationOk M i m loc) :
    Safe (mountProtocol B G K M) (execIf B G K M) t
      (fun v w' => ∃ bs, Locked t id loc i bs w' ∧ v = .replay (loc.range M) m bs ∧
        ∀ b ∈ bs, BlockIn (loc.range M).length b)
      (Act.lockStore id : Act δ ζ _) w := by
  refine safe_op (o := .lockStore id) (fun _ _ _ => trivial) ?_
  intro w₁ r w₂ w₃ ho hi he ho₃ _
  obtain ⟨cell, hcell, rfl, rfl⟩ := hstore.grows ho.grows
  rcases he with he | ⟨he, -⟩
  swap
  · exact he.elim
  simp only [det, hcell] at he
  split at he
  · exact absurd he (by simp)
  rename_i hfree
  obtain ⟨rfl, rfl⟩ := Prod.mk.inj (Option.some.inj he)
  have hs := hi.stores id cell hcell
  obtain ⟨m', hm', -, hstate⟩ := hs.entry
  obtain rfl := Option.some.inj (hloc.entry.symm.trans hm'.entry)
  refine ⟨cell.observed, Locked.others ?_ ho₃, hstate (by simpa using hfree), hs.inside⟩
  exact ⟨_, List.getElem?_set_self (List.getElem?_eq_some_iff.mp hcell).1, rfl, rfl, rfl, rfl⟩

/-- Recording a block. -/
theorem safe_record (hlocked : Locked t id loc i bs w) {b : Nat × Nat}
    (hb : BlockIn (loc.range M).length b) :
    Safe (mountProtocol B G K M) (execIf B G K M) t
      (fun _ w' => Locked t id loc i (bs ++ [b]) w') (Act.record id b.1 b.2 : Act δ ζ _) w := by
  refine safe_op (o := .record id b.1 b.2) ?_ ?_
  · intro w₁ ho _
    obtain ⟨cell, hcell, hlock, rfl, -⟩ := hlocked.others ho
    exact ⟨cell, hcell, hlock, hb⟩
  · intro w₁ r w₂ w₃ ho _ he ho₃ _
    obtain ⟨cell, hcell, hlock, hl, hx, hobs⟩ := hlocked.others ho
    rcases he with he | ⟨he, -⟩
    swap
    · exact he.elim
    simp only [det, hcell] at he
    obtain ⟨-, rfl⟩ := Prod.mk.inj (Option.some.inj he)
    refine Locked.others ?_ ho₃
    exact ⟨_, List.getElem?_set_self (List.getElem?_eq_some_iff.mp hcell).1, hlock, hl, hx,
      by rw [← hobs]⟩

/-- Unlocking the tracker in the state that its blocks make of it. -/
theorem safe_unlockStore (hlocked : Locked t id loc i bs w) (hm : M.index.metas[i]? = some m)
    {v : StoreVerify} (hv : v = .replay (loc.range M) m bs) :
    Safe (mountProtocol B G K M) (execIf B G K M) t
      (fun _ w' => ∃ cell, w'.stores[id]? = some cell ∧ bs <+: cell.observed)
      (Act.unlockStore id v : Act δ ζ _) w := by
  refine safe_op (o := .unlockStore id v) ?_ ?_
  · intro w₁ ho _
    obtain ⟨cell, hcell, hlock, rfl, rfl, rfl⟩ := hlocked.others ho
    refine ⟨cell, hcell, hlock, fun m' hm' => ?_⟩
    obtain rfl := Option.some.inj (hm.symm.trans hm')
    exact hv
  · intro w₁ r w₂ w₃ ho _ he ho₃ _
    obtain ⟨cell, hcell, hlock, -, -, hobs⟩ := hlocked.others ho
    rcases he with he | ⟨he, -⟩
    swap
    · exact he.elim
    simp only [det, hcell] at he
    obtain ⟨-, rfl⟩ := Prod.mk.inj (Option.some.inj he)
    obtain ⟨cell', hcell', hg⟩ := ho₃.grows.stores id { cell with state := v, lock := none }
      (List.getElem?_set_self (List.getElem?_eq_some_iff.mp hcell).1)
    exact ⟨cell', hcell', hobs ▸ hg.observed⟩

/-- **Observing a block of a stored entry**: the tracker judges the entry only by the whole of its
content, and a block that it lets pass is not the one that completes a mismatch. -/
theorem safe_observeLocked (hi : MountInv B G K M w) (hstore : StoreFor id loc i w)
    (hloc : LocationOk M i m loc) (hmethod : loc.method = .store) {offset : Nat} {data : Bytes}
    (hb : BlockIn (loc.range M).length (offset, data.length))
    (hdata : data = blockOf (loc.range M) (offset, data.length)) :
    Safe (mountProtocol B G K M) (execIf B G K M) t
      (fun fine w' => fine = true → Observed M id loc m (offset, data.length) w')
      (OpenFile.observeLocked id offset data i m : Act δ ζ _) w := by
  have hle := hloc.length_stored hmethod
  have hpos : 0 < m.uncompressedSize := by
    have := hb.1
    have := hb.2
    omega
  unfold OpenFile.observeLocked
  refine Safe.bind hi ((safe_lockStore hstore hloc).mono ?_)
  intro v w₁ hi₁ h
  obtain ⟨bs, hlocked, rfl, hbs⟩ := h
  have hnext := StoreVerify.next_eq hle hpos hbs hb
  have hreplay := StoreVerify.replay_concat (loc.range M) m bs (offset, data.length)
  unfold StoreVerify.next at hnext
  dsimp only at hnext hreplay
  rw [← hdata] at hnext hreplay
  -- what is false of the block exactly when it completes a mismatch
  have hfine : ((StoreVerify.replay (loc.range M) m bs).observe offset data m).2.1 = false ↔
      Mismatch M loc m (bs ++ [(offset, data.length)]) := by
    rw [hnext]
    unfold Mismatch
    split
    · rename_i hr
      simp [hr]
    · rename_i hr
      simp [hr]
  dsimp only
  refine Safe.bind hi₁ ((safe_record hlocked hb).mono ?_)
  intro _ w₂ hi₂ hlocked₂
  have hnote : Safe (mountProtocol B G K M) (execIf B G K M) t
      (fun _ w' => Locked t id loc i (bs ++ [(offset, data.length)]) w')
      (Act.note (.observed id offset data.length
        ((StoreVerify.replay (loc.range M) m bs).observe offset data m).2.1) : Act δ ζ _) w₂ := by
    refine safe_locked (o := .note _) hlocked₂ ?_ ?_
    · intro w₃ hw₃ _
      obtain ⟨cell, hcell, -, rfl, rfl, hobs⟩ := hw₃
      exact ⟨cell, m, bs, hcell, hloc.entry, hobs ▸ List.prefix_refl _, hfine⟩
    · intro w₃ r w₄ he
      rcases he with he | ⟨he, -⟩
      · obtain ⟨-, rfl⟩ := Prod.mk.inj (Option.some.inj he)
        rfl
      · exact he.elim
  refine Safe.bind hi₂ (hnote.mono ?_)
  intro _ w₃ hi₃ hlocked₃
  -- either way the tracker is unlocked, and the block is in its list
  have hunlock : ∀ {w' : World τ δ ζ}, MountInv B G K M w' →
      Locked t id loc i (bs ++ [(offset, data.length)]) w' →
      Safe (mountProtocol B G K M) (execIf B G K M) t
        (fun fine w'' => fine = true → Observed M id loc m (offset, data.length) w'') (do
          Act.unlockStore id ((StoreVerify.replay (loc.range M) m bs).observe offset data m).1
          pure ((StoreVerify.replay (loc.range M) m bs).observe offset data m).2.1) w' := by
    intro w' hi' hlocked'
    refine Safe.bind hi' ((safe_unlockStore hlocked' hloc.entry hreplay.symm).mono ?_)
    intro _ w₅ _ h
    obtain ⟨cell, hcell, hpre⟩ := h
    refine .ret fun w₆ ho _ htrue => ?_
    refine lasting_observed (B := B) (G := G) (K := K) id loc m _ _ _ ho.grows
      ⟨cell, bs, hcell, hpre, ?_⟩
    intro hbad
    exact absurd (htrue.symm.trans (hfine.mpr hbad)) (by simp)
  have hverdict := congrArg Prod.snd hnext
  split
  · rename_i state hstate
    rw [hverdict] at hstate
    split at hstate
    · rename_i hr
      obtain rfl := Option.some.inj hstate
      -- an entry whose blocks reach its declared size is all there
      have hall := reach_le (q := m.uncompressedSize) (fun b hbm => by
        rcases List.mem_append.mp hbm with h | h
        · exact hbs b h
        · rw [List.mem_singleton.mp h]
          exact hb) hr
      have hne : (if crc32 (loc.range M) = m.crc32 then VerifyState.ok else .bad) ≠ .unknown := by
        split <;> simp
      refine Safe.bind hi₃ ((safe_locked (o := .storeVerify i _) hlocked₃ ?_ ?_).mono ?_)
      · refine fun _ _ _ => ⟨hne, fun m' hm' => ?_⟩
        obtain rfl := Option.some.inj (hloc.entry.symm.trans hm')
        exact verdict_stored hloc hmethod hall
      · intro w₄ r w₅ he
        rcases he with he | ⟨he, -⟩
        · obtain ⟨-, rfl⟩ := Prod.mk.inj (Option.some.inj he)
          rfl
        · exact he.elim
      · exact fun _ w₄ hi₄ hlocked₄ => hunlock hi₄ hlocked₄
    · exact absurd hstate (by simp)
  · exact hunlock hi₃ hlocked₃

end Stored

/-! ## Reading into a buffer -/

variable (K M) in
/-- What a read of `want` bytes at `offset` of an open file may deliver. -/
structure BytesOk (f : OpenFile) (offset want : Nat) (bs : Bytes) : Prop where
  len : bs.length ≤ want
  /-- They are the bytes of the entry at the offset. -/
  content : bs = ((f.loc.content K M).drop offset).take bs.length
  /-- They are all of them, unless the decoded stream ends before. -/
  full : bs.length = want ∨ f.loc.method ≠ .store ∧ ∀ m, M.index.metas[f.metaIdx]? = some m →
    offset + bs.length = (f.loc.stream K M).bytes.length ∧ EndsEarly K M f.loc m offset want
  /-- With the last byte of a compressed entry, the whole entry has been checked. -/
  checked : f.loc.method ≠ .store → M.config.verify = true → offset < f.size →
    f.size ≤ offset + bs.length → ∀ m, M.index.metas[f.metaIdx]? = some m →
      StreamOk K M f.loc m

variable (M) in
/-- What was read of a stored file with a tracker has been observed by it. -/
def Tracked (f : OpenFile) (offset n : Nat) (w : World τ δ ζ) : Prop :=
  ∀ start size id m, f.kind = .store start size (some id) → M.index.metas[f.metaIdx]? = some m →
    0 < n → Observed M id f.loc m (offset, n) w

omit [DecidableEq τ] in
theorem lasting_tracked (f : OpenFile) (offset n : Nat) :
    (mountProtocol (τ := τ) B G K M).Lasting (Tracked M f offset n) :=
  fun w w' hg h start size id m hk hm hn =>
    lasting_observed (B := B) (G := G) (K := K) id f.loc m _ w w' hg (h start size id m hk hm hn)

theorem observeStore_leaves {f : OpenFile} {m : EntryMeta} {start size : Nat}
    {verify : Option Nat} (hloc : LocationOk M f.metaIdx m f.loc) (hmethod : f.loc.method = .store)
    (hkind : f.kind = .store start size verify) {offset : Nat} {data : Bytes}
    (hb : BlockIn (f.loc.range M).length (offset, data.length))
    (hdata : data = blockOf (f.loc.range M) (offset, data.length)) :
    Leaves (mountProtocol B G K M) (execIf B G K M)
      (fun w : World τ δ ζ => ∀ id, verify = some id → StoreFor id f.loc f.metaIdx w)
      (OpenFile.observeStore verify offset data f.metaIdx m)
      fun fine w => fine = true → Tracked M f offset data.length w := by
  intro t w hi hstore
  unfold OpenFile.observeStore
  cases verify with
  | none =>
      refine .ret fun _ _ _ _ start size id m hk => ?_
      rw [hkind] at hk
      exact absurd hk (by simp)
  | some id =>
      refine (safe_observeLocked hi (hstore id rfl) hloc hmethod hb hdata).mono ?_
      intro fine w' _ h htrue start size id' m' hk hm' _
      rw [hkind] at hk
      obtain ⟨-, -, hid⟩ := OpenKind.store.inj hk
      obtain rfl := Option.some.inj hid
      obtain rfl := Option.some.inj (hloc.entry.symm.trans hm')
      exact h htrue

variable (G K M) in
/-- What a read of `want` bytes at `offset` of an open file delivers, where `w` is the state
afterwards. -/
structure DataOk (f : OpenFile) (offset want : Nat) (bs : Bytes) (w : World τ δ ζ) : Prop where
  bytes : G ∨ f.loc.method = .store → BytesOk K M f offset want bs
  /-- Whatever the codec of a compressed entry does, it does it with the mounted archive. -/
  made : ¬ G → f.loc.method ≠ .store → K.Blind → bs.length ≤ want ∧ Made K M bs
  tracked : Tracked M f offset bs.length w

omit [DecidableEq τ] in
theorem lasting_dataOk (f : OpenFile) (offset want : Nat) (bs : Bytes) :
    (mountProtocol (τ := τ) B G K M).Lasting (DataOk G K M f offset want bs) :=
  fun w w' hg h => ⟨h.bytes, h.made,
    lasting_tracked (B := B) (G := G) (K := K) f offset _ w w' hg h.tracked⟩

/-- Reading a part of a stored file. -/
theorem readInto_stored {f : OpenFile} {m : EntryMeta} {offset : Nat} {buf : Bytes}
    {start size : Nat} {verify : Option Nat} (hloc : LocationOk M f.metaIdx m f.loc)
    (hk : f.kind = .store start size verify) (hbuf : 0 < buf.length) :
    Leaves (mountProtocol B G K M) (execIf B G K M) (fun w : World τ δ ζ => KindOk f w)
      (Fs.readInto K M f m offset buf) fun x w => ∀ n, x.2 = .ok n →
        DataOk G K M f offset buf.length (x.1.take n) w := by
  have hlast : (mountProtocol (τ := τ) B G K M).Lasting
      fun w => ∀ id, verify = some id → StoreFor id f.loc f.metaIdx w :=
    fun w w' hg h id hid => (h id hid).grows hg
  intro t w hi hkind
  unfold KindOk at hkind
  rw [hk] at hkind
  obtain ⟨rfl, rfl, hstore, htracker⟩ := hkind
  have hrange : (⟨f.loc.dataStart, f.loc.compressedSize, .store⟩ : EntryLocation) = f.loc := by
    rw [← hstore]
  unfold Fs.readInto
  rw [hk]
  dsimp only
  rw [hrange]
  refine Leaves.bind hlast
    (Meets.leaves hlast (readDirect_does f.loc offset buf)) ?_ t w hi htracker
  intro x
  rcases x with ⟨got, r⟩
  intro t w hi h
  obtain ⟨htracker, -, hlen, hgot⟩ := h
  cases r with
  | error e => exact .ret fun _ _ _ => by simp
  | ok _ =>
      obtain ⟨-, hbytes⟩ := hgot rfl
      dsimp only at hlen hbytes
      have hinside : got.length ≤ (f.loc.range M).length - offset := by
        have := congrArg List.length hbytes
        rw [List.length_take, List.length_drop] at this
        omega
      have hb : BlockIn (f.loc.range M).length (offset, got.length) :=
        ⟨by dsimp only; omega, by dsimp only; omega⟩
      have hdata : got = blockOf (f.loc.range M) (offset, got.length) := by
        unfold blockOf
        rw [hlen]
        exact hbytes
      refine Safe.bind hi ((observeStore_leaves hloc hstore hk hb hdata t w hi htracker).mono ?_)
      intro fine w₁ _ htracked
      split
      · rename_i hfine
        refine .ret fun w₂ ho _ n hn => ?_
        obtain rfl := Except.ok.inj hn
        dsimp only
        rw [List.take_length]
        refine ⟨fun _ => ⟨by omega, ?_, .inl hlen, fun hne => absurd hstore hne⟩,
          fun _ hne => absurd hstore hne,
          lasting_tracked (B := B) (G := G) (K := K) f offset _ _ _ ho.grows (htracked hfine)⟩
        rw [content_of_stored hstore, hlen]
        exact hbytes
      · exact .ret fun _ _ _ => by simp

/-- What a lent decoder delivered is what the read of the file delivers. -/
theorem ReadOk.bytesOk {f : OpenFile} {m : EntryMeta} {loc : EntryLocation} {offset n : Nat}
    {buf : Bytes} {x : PositionedDecoder δ ζ × Bytes × Except IoError Nat}
    (hx : ReadOk (K := K) (M := M) loc m offset buf x) (hn : x.2.2 = .ok n)
    (hm : M.index.metas[f.metaIdx]? = some m) (hloc : loc = f.loc) (hne : f.loc.method ≠ .store)
    (hsize : f.size = m.uncompressedSize) (hwant : buf.length ≤ f.size - offset)
    (hbuf : 0 < buf.length) : BytesOk K M f offset buf.length (x.2.1.take n) := by
  subst hloc
  have hdel := hx.delivered n hn
  have hroom := hdel.room
  have hlen : (x.2.1.take n).length = n := by
    rw [List.length_take, hx.room]
    omega
  refine ⟨by omega, ?_, ?_, ?_⟩
  · rw [hlen, content_of_coded hne]
    exact hx.bytes n hn
  · rw [hlen]
    rcases hdel.full (by omega) with h | h
    · left
      omega
    · refine .inr ⟨hne, fun m' hm' => ?_⟩
      obtain rfl := Option.some.inj (hm.symm.trans hm')
      exact h
  · intro _ hv _ hlast m' hm'
    obtain rfl := Option.some.inj (hm.symm.trans hm')
    exact hdel.checked (by omega) (by omega) hv

/-- Reading a part of a compressed file, with a decoder that its pool lends. -/
theorem readInto_coded (hG : G → K.Lawful) {f : OpenFile} {m : EntryMeta} {offset : Nat}
    {buf : Bytes} {pool : EntryPool} (hloc : LocationOk M f.metaIdx m pool.loc)
    (hpl : pool.loc = f.loc) (hne : f.loc.method ≠ .store) (hsize : f.size = m.uncompressedSize)
    (hbuf : 0 < buf.length) (hwant : buf.length ≤ f.size - offset) :
    Does B G K M (PoolFor (τ := τ) pool f.metaIdx) (do
      let d ← pool.checkout K M offset
      let (d, buf, r) ← d.readAt K M offset buf f.metaIdx m
      pool.giveBack d
      pure (buf, r.mapError Fs.errnoOf)) fun x => ∀ n, x.2 = .ok n →
        (G → BytesOk K M f offset buf.length (x.1.take n)) ∧
          (¬ G → K.Blind → (x.1.take n).length ≤ buf.length ∧ Made K M (x.1.take n)) := by
  have hlp := lasting_poolFor (τ := τ) (B := B) (G := G) (K := K) (M := M) pool f.metaIdx
  refine Meets.bind hlp (checkout_does hloc offset) ?_
  intro d hd
  have hcoded : pool.loc.method ≠ .store := by rwa [hpl]
  refine Meets.bind hlp
    (lentRead_does hG hloc hcoded hd (.inl (by omega)) buf).anywhere ?_
  intro x hx
  rcases x with ⟨d', got, r⟩
  refine Meets.bind hlp (giveBack_does hloc hx.decoder) fun _ _ => .pure ?_
  intro n hn
  cases r with
  | error e => exact absurd hn (by simp [Except.mapError])
  | ok n' =>
      obtain rfl := Except.ok.inj hn
      refine ⟨fun g => (hx.good g).bytesOk rfl hloc.entry hpl hne hsize hwant hbuf,
        fun g hb => ?_⟩
      obtain ⟨hn, hmade⟩ := (hx.made g hb).2 n' rfl
      exact ⟨Nat.le_trans (List.length_take_le _ _) hn, hmade⟩

theorem readInto_leaves (hG : G → K.Lawful) (fh offset : Nat) (buf : Bytes) {f : OpenFile}
    {m : EntryMeta} (hm : M.index.metas[f.metaIdx]? = some m) (hbuf : 0 < buf.length)
    (hwant : buf.length ≤ f.size - offset) :
    Leaves (mountProtocol B G K M) (execIf B G K M) (FileAt (τ := τ) fh f)
      (Fs.readInto K M f m offset buf) fun x w => ∀ n, x.2 = .ok n →
        DataOk G K M f offset buf.length (x.1.take n) w := by
  intro t w hi hat
  obtain ⟨⟨m', hloc, hsize⟩, hkind⟩ := fileOk_of_fileAt hi hat
  obtain rfl := Option.some.inj (hm.symm.trans hloc.entry)
  cases hk : f.kind with
  | empty =>
      unfold KindOk at hkind
      rw [hk] at hkind
      dsimp only at hkind
      omega
  | store start size verify => exact readInto_stored hloc hk hbuf t w hi hkind
  | coded pool =>
      unfold KindOk at hkind
      rw [hk] at hkind
      obtain ⟨hpl, hne, hpool, -⟩ := hkind
      rw [← hpl] at hloc
      have hcoded := readInto_coded (τ := τ) (B := B) hG hloc hpl hne hsize hbuf hwant
      unfold Fs.readInto
      rw [hk]
      refine (hcoded t w hi hpool).mono ?_
      intro x w' _ h n hn
      obtain ⟨hbytes, hmade⟩ := h n hn
      refine ⟨fun h => hbytes (h.resolve_right hne), fun g _ => hmade g, ?_⟩
      intro start size id m' hk'
      rw [hk] at hk'
      exact absurd hk' (by simp)

/-! ## `read` -/

/-- What a `read` of an open file may reply, where `w` is the state afterwards. -/
def ReadReply (G : Prop) (K : Codecs δ ζ) (M : Mount) (f : OpenFile) (offset size : Nat) (r : Reply)
    (w : World τ δ ζ) : Prop :=
  ∀ bs, r = .data bs → DataOk G K M f offset (min size (f.size - offset)) bs w

omit [DecidableEq τ] in
theorem lasting_readReply (f : OpenFile) (offset size : Nat) (r : Reply) :
    (mountProtocol (τ := τ) B G K M).Lasting (ReadReply G K M f offset size r) :=
  fun w w' hg h bs hr => lasting_dataOk (B := B) f offset _ bs w w' hg (h bs hr)

theorem withScratch_leaves {α : Type} {I : World τ δ ζ → Prop}
    (hl : (mountProtocol B G K M).Lasting I) {len : Nat} {f : Bytes → Act δ ζ (Bytes × α)}
    {Q : Bytes × α → World τ δ ζ → Prop} (hQ : ∀ x, (mountProtocol B G K M).Lasting (Q x))
    (hf : ∀ buf, buf.length = len → Leaves (mountProtocol B G K M) (execIf B G K M) I (f buf) Q) :
    Leaves (mountProtocol B G K M) (execIf B G K M) I (Fs.withScratch len f) Q := by
  unfold Fs.withScratch
  refine Leaves.bind hl (Meets.leaves hl (meets_plain (o := .getScratch) fun _ _ => trivial)) ?_
  intro (scratch : Bytes) t w hi h
  have hlen : ((scratch ++ List.replicate (len - scratch.length) 0).take len).length = len := by
    rw [List.length_take, List.length_append, List.length_replicate]
    omega
  refine Leaves.bind hl (hf _ hlen) ?_ t w hi h.1
  intro x
  rcases x with ⟨buf, a⟩
  have hlQ := hl.and (hQ (buf, a))
  refine Leaves.bind hlQ (Meets.leaves hlQ (meets_plain (o := .putScratch _) fun _ _ => trivial)) ?_
  intro _ t w hi h
  exact .ret fun w' ho _ => hQ _ _ _ ho.grows h.1.2

theorem error_reply {I : World τ δ ζ → Prop} (hl : (mountProtocol B G K M).Lasting I) (e : Nat)
    {Q : Reply → Prop} (hq : ∀ errno, Q (.error errno)) :
    Does B G K M I (do
      let errno ← Fs.diagnose M e
      pure (.error errno)) Q :=
  Meets.bind hl (diagnose_does e) fun errno _ => .pure (hq errno)

/-- **A read of an open file replies with the bytes of its entry**, or with an error. -/
theorem readFile_leaves (hG : G → K.Lawful) {fh : Nat} (f : OpenFile) (offset size : Nat) :
    Leaves (mountProtocol B G K M) (execIf B G K M) (FileAt (τ := τ) fh f)
      (Fs.readFile K M f offset size) (ReadReply G K M f offset size) := by
  have hlf := lasting_fileAt (τ := τ) (B := B) (G := G) (K := K) (M := M) fh f
  have herr : ∀ errno (w : World τ δ ζ), ReadReply G K M f offset size (.error errno) w := by
    intro errno w bs h
    exact absurd h (by simp)
  have hfail : ∀ {I : World τ δ ζ → Prop}, (mountProtocol B G K M).Lasting I → ∀ e,
      Leaves (mountProtocol B G K M) (execIf B G K M) I (do
        let errno ← Fs.diagnose M e
        pure (.error errno)) (ReadReply G K M f offset size) := by
    intro I hl e
    refine (Meets.leaves hl (error_reply hl e (Q := fun r => ∃ errno, r = .error errno)
      fun errno => ⟨errno, rfl⟩)).mono ?_
    intro r w _ h
    obtain ⟨-, errno, rfl⟩ := h
    exact herr errno w
  unfold Fs.readFile
  refine Leaves.bind hlf (Meets.leaves hlf meets_isStale) ?_
  intro stale t w hi h
  split
  · exact .ret fun w' _ _ => herr _ w'
  · cases hm : M.index.metas[f.metaIdx]? with
    | none => exact (meets_halt (I := Anywhere) (Q := fun _ => False) t w hi trivial).mono (by simp)
    | some m =>
        refine Leaves.bind hlf (Meets.leaves hlf
          (meets_plain (o := .loadVerify f.metaIdx) fun _ _ => trivial)) ?_ t w hi h.1
        intro state t w hi h
        split
        · exact hfail hlf _ t w hi h.1
        · dsimp only
          split
          · rename_i hzero
            refine .ret fun w' _ _ bs h => ?_
            obtain rfl := Reply.data.inj h
            refine ⟨fun _ => ⟨Nat.zero_le _, rfl, .inl hzero.symm, ?_⟩,
              fun _ _ _ => ⟨Nat.zero_le _, .nil⟩, ?_⟩
            · intro _ _ hlt hlast
              exact absurd hlast (by simp only [List.length_nil]; omega)
            · intro _ _ _ _ _ _ hpos
              exact absurd hpos (by simp)
          · rename_i hpos
            -- the bytes that were filled in, and that the tracker knows of
            have hinto : ∀ buf : Bytes, buf.length = min size (f.size - offset) →
                Leaves (mountProtocol B G K M) (execIf B G K M) (FileAt (τ := τ) fh f)
                  (Fs.readInto K M f m offset buf) fun x w => ∀ n, x.2 = .ok n →
                    DataOk G K M f offset (min size (f.size - offset)) (x.1.take n) w := by
              intro buf hbuf
              have h := readInto_leaves (τ := τ) (B := B) hG fh offset buf hm (by omega) (by omega)
              rwa [hbuf] at h
            have hQ : ∀ x : Bytes × Except Nat Nat, (mountProtocol (τ := τ) B G K M).Lasting
                fun w => ∀ n, x.2 = .ok n →
                  DataOk G K M f offset (min size (f.size - offset)) (x.1.take n) w :=
              fun x w w' hg h n hn => lasting_dataOk (B := B) f offset _ _ w w' hg (h n hn)
            refine Leaves.bind hlf (withScratch_leaves hlf hQ hinto) ?_ t w hi h.1
            intro x
            rcases x with ⟨buf, r⟩
            intro t w hi hx
            cases r with
            | error e => exact hfail hlf _ t w hi hx.1
            | ok n =>
                refine .ret fun w' ho _ bs h => ?_
                obtain rfl := Reply.data.inj h
                exact hQ (buf, .ok n) _ _ ho.grows hx.2 n rfl

theorem release_does {I : World τ δ ζ → Prop} (hl : (mountProtocol B G K M).Lasting I) (fh : Nat)
    (f : OpenFile) : Does B G K M I (f.release fh) fun _ => True := by
  unfold OpenFile.release
  refine Meets.bind hl (meets_plain (o := .dropFile fh) fun _ _ => trivial) ?_
  intro last _
  split
  · split
    · exact drop_does hl _
    · exact .pure trivial
  · exact .pure trivial

theorem safe_getHandle {t : τ} {w : World τ δ ζ} (fh : Nat) :
    Safe (mountProtocol B G K M) (execIf B G K M) t (fun r w' => ∀ f, r = some f → FileAt fh f w')
      (Act.getHandle fh : Act δ ζ _) w := by
  refine safe_op (o := .getHandle fh) (fun _ _ _ => trivial) ?_
  intro w₁ r w₂ w₃ _ _ he ho _ f hf
  subst hf
  rcases he with he | ⟨he, -⟩
  swap
  · exact he.elim
  refine ho.grows.files fh f ?_
  simp only [det] at he
  split at he
  · split at he
    · obtain ⟨hfile, rfl⟩ := Prod.mk.inj (Option.some.inj he)
      exact ⟨_, World.setFile_self .., Option.some.inj hfile⟩
    · exact absurd (Prod.mk.inj (Option.some.inj he)).1 (by simp)
  · exact absurd (Prod.mk.inj (Option.some.inj he)).1 (by simp)

/-- **`read`**: data comes from the entry that the handle was opened on. -/
theorem safe_read (hG : G → K.Lawful) {t : τ} {w : World τ δ ζ} (hi : MountInv B G K M w)
    (fh offset size : Nat) :
    Safe (mountProtocol B G K M) (execIf B G K M) t
      (fun r w' => ∀ bs, r = .data bs → ∃ f, FileAt fh f w' ∧ FileOk M f w' ∧
        DataOk G K M f offset (min size (f.size - offset)) bs w')
      (Fs.read K M fh offset size) w := by
  unfold Fs.read
  refine Safe.bind hi ((safe_getHandle fh).mono ?_)
  intro found w₁ hi₁ hfound
  cases found with
  | none => exact .ret fun _ _ _ bs h => absurd h (by simp)
  | some f =>
      have hat := hfound f rfl
      have hlf := lasting_fileAt (τ := τ) (B := B) (G := G) (K := K) (M := M) fh f
      have hprog : Leaves (mountProtocol B G K M) (execIf B G K M) (FileAt (τ := τ) fh f) (do
          Act.note .handleFound
          let reply ← Fs.readFile K M f offset size
          f.release fh
          pure reply) (ReadReply G K M f offset size) := by
        refine Leaves.bind hlf (Meets.leaves hlf (meets_note fun _ => trivial)) fun _ t w hi h => ?_
        refine Leaves.bind hlf (readFile_leaves hG f offset size) ?_ t w hi h.1
        intro reply
        have hlr :=
          hlf.and (lasting_readReply (B := B) (G := G) (K := K) (M := M) f offset size reply)
        refine Leaves.bind hlr (Meets.leaves hlr (release_does hlr fh f)) fun _ t w hi h => ?_
        exact .ret fun w' ho _ => (hlr _ _ ho.grows h.1).2
      refine ((hprog t w₁ hi₁ hat).lasting hlf hat).mono ?_
      intro r w₂ hi₂ h bs hbs
      rcases h with ⟨hr, hat₂⟩
      exact ⟨f, hat₂, fileOk_of_fileAt hi₂ hat₂, hr bs hbs⟩

/-! ## The other calls -/

/-- A private pool, with a decoder read once. -/
theorem readOnce_does (hG : G → K.Lawful) {i : Nat} {m : EntryMeta} {loc : EntryLocation}
    (hloc : LocationOk M i m loc) (hcoded : loc.method ≠ .store) (out : Bytes) :
    Does B G K M (Anywhere (τ := τ)) (Fs.readOnce K M loc out i m) fun _ => True := by
  intro t w hi _
  unfold Fs.readOnce
  refine Safe.bind hi ((safe_newPool 1 true hi hcoded hloc).mono ?_)
  intro pool w₁ hi₁ h
  rcases h with ⟨hpl, hpool, -⟩
  subst hpl
  have hlp := lasting_poolFor (τ := τ) (B := B) (G := G) (K := K) (M := M) pool i
  refine Meets.bind hlp (checkout_does hloc 0) ?_ t w₁ hi₁ hpool
  intro d hd
  refine Meets.bind hlp (lentRead_does hG hloc hcoded hd (.inr rfl) out).anywhere ?_
  intro x hx
  rcases x with ⟨d', _, _⟩
  refine Meets.bind hlp (giveBack_does hloc hx.decoder) fun _ _ => ?_
  exact Meets.bind hlp (drop_does hlp pool) fun _ _ => .pure trivial

theorem readAll_does (hG : G → K.Lawful) {i : Nat} {m : EntryMeta}
    (hm : M.index.metas[i]? = some m) (limit : Nat) :
    Does B G K M (Anywhere (τ := τ)) (Fs.readAll K M i m limit) fun _ => True := by
  unfold Fs.readAll
  refine Meets.bind lasting_true (meets_plain (o := .loadVerify i) fun _ _ => trivial) ?_
  intro state _
  split
  · exact .pure trivial
  · refine Meets.bind lasting_true (locate_does hm) ?_
    intro found hfound
    cases found with
    | error e => exact .pure trivial
    | ok loc =>
        have hloc := hfound loc rfl
        dsimp only
        split
        · exact .pure trivial
        · split
          · rename_i hzero
            split
            · rename_i hstore
              have hempty : List.replicate m.uncompressedSize 0 = loc.range M := by
                have hlen := hloc.length_stored hstore
                rw [hzero] at hlen ⊢
                exact (List.length_eq_zero_iff.mp (Nat.le_zero.mp hlen)).symm
              exact Meets.bind lasting_true (verifyStored_does lasting_true hloc hstore hempty
                (by simp)) fun _ _ => .pure trivial
            · rename_i hcoded
              refine Meets.bind lasting_true (readOnce_does hG hloc hcoded _) ?_
              intro x _
              rcases x with ⟨_, r⟩
              cases r with
              | error e => exact .pure trivial
              | ok n => exact .pure trivial
          · split
            · rename_i hstore
              refine Meets.bind lasting_true (readDirect_does loc 0 _) ?_
              intro x h
              rcases x with ⟨got, r⟩
              cases r with
              | error e => exact .pure trivial
              | ok _ =>
                  obtain ⟨hlen, hgot⟩ := h
                  obtain ⟨-, hbytes⟩ := hgot rfl
                  rw [List.length_replicate] at hlen hbytes
                  dsimp only at hlen hbytes
                  have hwhole : got = loc.range M := by
                    rw [hbytes, List.drop_zero]
                    exact List.take_of_length_le (hloc.length_stored hstore)
                  exact Meets.bind lasting_true (verifyStored_does lasting_true hloc hstore hwhole
                    (Nat.le_of_eq hlen.symm)) fun _ _ => .pure trivial
            · rename_i hcoded
              refine Meets.bind lasting_true (readOnce_does hG hloc hcoded _) ?_
              intro x _
              rcases x with ⟨_, r⟩
              cases r with
              | error e => exact .pure trivial
              | ok n =>
                  dsimp only
                  split
                  · exact .pure trivial
                  · exact .pure trivial

theorem readlink_does (hG : G → K.Lawful) (ino : Nat) :
    Does B G K M (Anywhere (τ := τ)) (Fs.readlink K M ino) fun _ => True := by
  unfold Fs.readlink
  cases M.index.node ino with
  | none => exact .pure trivial
  | some node =>
      dsimp only
      split
      · exact .pure trivial
      · cases hm : M.index.metaOf node with
        | none => exact .pure trivial
        | some m =>
            refine Meets.bind lasting_true
              (meets_plain (o := .getSymlink m.symlinkSlot) fun _ _ => trivial) ?_
            intro (cached : Option Bytes) _
            cases cached with
            | some target => exact .pure trivial
            | none =>
                refine Meets.bind lasting_true (meets_note fun _ => trivial) fun _ _ => ?_
                refine Meets.bind lasting_true (readAll_does hG (index_meta hm) _) ?_
                intro found _
                cases found with
                | error e => exact error_reply lasting_true e fun _ => trivial
                | ok target =>
                    refine Meets.bind lasting_true (meets_plain
                      (o := .setSymlink m.symlinkSlot target) fun _ _ => trivial) ?_
                    intro (kept : Option Bytes) _
                    cases kept with
                    | some target => exact .pure trivial
                    | none => exact .pure trivial

/-- **`open`**: the handle stands for a file of the entry behind the inode. -/
theorem safe_openFile {t : τ} {w : World τ δ ζ} (hi : MountInv B G K M w) (ino : Nat)
    (mode : AccMode) :
    Safe (mountProtocol B G K M) (execIf B G K M) t
      (fun r w' => ∀ fh, r = .opened fh → ∃ f, FileAt fh f w' ∧ f.ino = ino ∧
        ∃ node, M.index.node ino = some node ∧ f.metaIdx = node.metaIdx)
      (Fs.openFile M ino mode : Act δ ζ _) w := by
  unfold Fs.openFile
  cases hnode : M.index.node ino with
  | none => exact .ret fun _ _ _ fh h => absurd h (by simp)
  | some node =>
      dsimp only
      split
      · exact .ret fun _ _ _ fh h => absurd h (by simp)
      split
      · exact .ret fun _ _ _ fh h => absurd h (by simp)
      cases hm : M.index.metaOf node with
      | none => exact .ret fun _ _ _ fh h => absurd h (by simp)
      | some m =>
          refine Safe.bind hi ((locate_does (index_meta hm) t w hi trivial).mono ?_)
          intro found w₁ hi₁ hfound
          cases found with
          | error e =>
              exact (error_reply lasting_true e (Q := fun r => ∀ fh, r ≠ .opened fh)
                (by simp) t w₁ hi₁ trivial).mono fun r _ _ hr fh h => absurd h (hr fh)
          | ok loc =>
              refine Safe.bind hi₁ ((safe_openFileNew ino hi₁ (hfound loc rfl)).mono ?_)
              intro f w₂ hi₂ h
              rcases h with ⟨hf, hino, hidx⟩
              refine Safe.bind hi₂ ((safe_insert hi₂ hf).mono ?_)
              intro fh w₃ _ hat
              refine .ret fun w₄ ho _ fh' h => ?_
              obtain rfl := Reply.opened.inj h
              exact ⟨f, ho.grows.files _ _ hat, hino, node, rfl, hidx⟩

theorem releaseCall_does (fh : Nat) :
    Does B G K M (Anywhere (τ := τ)) (Fs.release fh) fun _ => True := by
  unfold Fs.release
  refine Meets.bind lasting_true (meets_plain (o := .removeHandle fh) fun _ _ => trivial) ?_
  intro found _
  match found with
  | none => exact .pure trivial
  | some f =>
      exact Meets.bind lasting_true (release_does lasting_true fh f) fun _ _ => .pure trivial

end ZipFs
