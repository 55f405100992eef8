import ZipFs.Lib.Logic
import ZipFs.Mount.Fs

/-!
# What the functions are built from

One walk through the text of the program, for an arbitrary judgement. A function is
accepted if the operations it performs are, where a check of the archive counts as
one operation: it is the only function that may mark the archive as changed, and most
judgements have something to say about that. On the way two things are said of
decoders: they keep their serial, and one whose codec has failed is not stepped again
by the function in which it failed.
-/

namespace ZipFs

open Lib (Logic)

variable {δ ζ : Type}

/-! ## What an operation changes -/

section Framed

variable {τ : Type} [DecidableEq τ] {K : Codecs δ ζ} {M : Mount} {t : τ}

/-- What an operation records of its call. -/
def Op.notes : Op δ ζ → List Note
  | .note n => [n]
  | _ => []

/-- What every operation leaves as it is, or changes in one way only. -/
structure Framed (t : τ) (o : Op δ ζ) (w w' : World τ δ ζ) : Prop where
  seen : w'.seen = Function.update w.seen t (w.seen t ++ o.notes)
  stale : o ≠ .swapStale → w'.stale = w.stale
  differed : w.differed = true → w'.differed = true
  verdict : (∀ i state, o ≠ .storeVerify i state) → w'.verifyState = w.verifyState

theorem Framed.refl {o : Op δ ζ} (w : World τ δ ζ) (ho : o.notes = []) : Framed t o w w where
  seen := by rw [ho, List.append_nil, Function.update_eq_self]
  stale _ := rfl
  differed h := h
  verdict _ := rfl

/-- Every operation that is answered stays inside its frame. -/
theorem det_framed {o : Op δ ζ} {w w' : World τ δ ζ} {r : Res o}
    (h : det K M t o w = some (r, w')) : Framed t o w w' := by
  have hseen : Function.update w.seen t (w.seen t ++ []) = w.seen := by
    rw [List.append_nil, Function.update_eq_self]
  cases o with
  | storeVerify i state =>
      obtain rfl := (Prod.mk.inj (Option.some.inj h)).2
      exact ⟨hseen.symm, fun _ => rfl, id, fun hne => absurd rfl (hne i state)⟩
  | swapStale =>
      obtain rfl := (Prod.mk.inj (Option.some.inj h)).2
      exact ⟨hseen.symm, fun hne => absurd rfl hne, id, fun _ => rfl⟩
  | note n =>
      obtain rfl := (Prod.mk.inj (Option.some.inj h)).2
      exact ⟨rfl, fun _ => rfl, id, fun _ => rfl⟩
  | fstat =>
      obtain rfl := (Prod.mk.inj (Option.some.inj h)).2
      exact ⟨hseen.symm, fun _ => rfl, fun h => by simp [h], fun _ => rfl⟩
  | statNamed =>
      simp only [det] at h
      split at h
      · obtain rfl := (Prod.mk.inj (Option.some.inj h)).2
        exact ⟨hseen.symm, fun _ => rfl, fun h => rfl, fun _ => rfl⟩
      · obtain rfl := (Prod.mk.inj (Option.some.inj h)).2
        exact ⟨hseen.symm, fun _ => rfl, fun h => by simp [h], fun _ => rfl⟩
  | halt => exact absurd h (by simp [det])
  | cell _ | short | loadStale | loadUnsure | swapUnsure _ | loadDataStart _ | storeDataStart _ _
  | loadVerify _ | getSymlink _ | nextHandle | insertHandle _ _ | newStore _ _ | newPool _ _ _ _
  | releaseRetain | takeCore _ | recycleCore _ | getScratch | putScratch _ =>
      obtain rfl := (Prod.mk.inj (Option.some.inj h)).2
      exact ⟨hseen.symm, fun _ => rfl, id, fun _ => rfl⟩
  | _ =>
      -- what is left waits for a lock or looks something up, and changes nothing of all this
      simp only [det] at h
      repeat' split at h
      all_goals first
        | (obtain rfl := (Prod.mk.inj (Option.some.inj h)).2
           exact ⟨hseen.symm, fun _ => rfl, id, fun _ => rfl⟩)
        | cases h

/-- So does one that fails. -/
theorem exec_framed {o : Op δ ζ} {w w' : World τ δ ζ} {r : Res o} (h : exec K M t o w r w') :
    Framed t o w w' := by
  rcases h with h | ⟨hf, rfl⟩
  · exact det_framed h
  · refine .refl w' ?_
    cases o with
    | note n => exact hf.elim
    | _ => rfl

end Framed

/-! ## Kinds of operations -/

/-- What a read of the archive performs besides its check. -/
def Op.Reads : Op δ ζ → Prop
  | .cell _ | .short | .note (.guarded ..) => True
  | _ => False

/-- What a check of the archive performs. -/
def Op.Checks : Op δ ζ → Prop
  | .fstat | .statNamed | .loadStale | .swapStale | .loadUnsure | .swapUnsure _
  | .note (.compared _) => True
  | _ => False

/-- What finding an entry performs. -/
def Op.Locates : Op δ ζ → Prop
  | .loadStale | .loadDataStart _ | .storeDataStart .. => True
  | o => o.Reads

/-- What a step of the pump performs, on codecs for which `F` says whether they have failed. -/
def Op.Pumps (F : Bool → Prop) : Op δ ζ → Prop
  | .note (.fed ..) | .halt => True
  | .note (.stepping failed) => F failed
  | o => o.Reads

/-- What a read through a decoder performs. -/
def Op.Decodes (F : Bool → Prop) : Op δ ζ → Prop
  | .storeVerify .. | .note .pastOffset | .note (.delivered ..)
  | .note (.verifiedShortcut _) => True
  | o => o.Pumps F

/-- What a pool performs besides its choice of a decoder, and the reads that it serves. -/
def Op.Pools (F : Bool → Prop) : Op δ ζ → Prop
  | .newPool .. | .lockIdle _ | .pushIdle .. | .unlockIdle _ | .takeIdle _ | .tryRetain
  | .releaseRetain | .takeCore _ | .recycleCore _ => True
  | o => o.Decodes F

/-- What the tracker of a stored entry performs. -/
def Op.Tracks : Op δ ζ → Prop
  | .lockStore _ | .record .. | .unlockStore .. | .storeVerify .. | .note (.observed ..) => True
  | _ => False

/-- What a call performs besides its checks, its choice of a decoder and its diagnosis. -/
def Op.Serves (F : Bool → Prop) : Op δ ζ → Prop
  | .swapStale | .pick .. | .note (.compared _) | .note .diagnosing => False
  | .note (.stepping failed) => F failed
  | _ => True

theorem Op.Reads.locates {o : Op δ ζ} (h : o.Reads) : o.Locates := by
  cases o with
  | loadStale | loadDataStart _ | storeDataStart _ _ => trivial
  | _ => exact h

theorem Op.Reads.pumps {F : Bool → Prop} {o : Op δ ζ} (h : o.Reads) : o.Pumps F := by
  cases o with
  | halt => trivial
  | note n =>
      cases n with
      | fed _ _ => trivial
      | stepping _ => exact h.elim
      | _ => exact h
  | _ => exact h

theorem Op.Pumps.decodes {F : Bool → Prop} {o : Op δ ζ} (h : o.Pumps F) : o.Decodes F := by
  cases o with
  | storeVerify _ _ => trivial
  | note n =>
      cases n with
      | pastOffset | delivered _ _ _ _ _ | verifiedShortcut _ => trivial
      | _ => exact h
  | _ => exact h

theorem Op.Decodes.pools {F : Bool → Prop} {o : Op δ ζ} (h : o.Decodes F) : o.Pools F := by
  cases o with
  | newPool _ _ _ _ | lockIdle _ | pushIdle _ _ | unlockIdle _ | takeIdle _ | tryRetain
  | releaseRetain | takeCore _ | recycleCore _ => trivial
  | _ => exact h

theorem Op.Pools.serves {F : Bool → Prop} {o : Op δ ζ} (h : o.Pools F) : o.Serves F := by
  cases o with
  | swapStale | pick _ _ => exact h
  | note n =>
      cases n with
      | compared _ | diagnosing | stepping _ => exact h
      | _ => trivial
  | _ => trivial

theorem Op.Locates.serves {F : Bool → Prop} {o : Op δ ζ} (h : o.Locates) : o.Serves F := by
  cases o with
  | swapStale | pick _ _ => exact h
  | note n =>
      cases n with
      | compared _ | diagnosing => exact h
      | stepping _ => exact h.elim
      | _ => trivial
  | _ => trivial

theorem Op.Tracks.serves {F : Bool → Prop} {o : Op δ ζ} (h : o.Tracks) : o.Serves F := by
  cases o with
  | swapStale | pick _ _ => exact h
  | note n =>
      cases n with
      | compared _ | diagnosing => exact h
      | stepping _ => exact h.elim
      | _ => trivial
  | _ => trivial

/-- What a call performs that is a matter neither of handles nor of the targets of symlinks. -/
def Op.Inner (F : Bool → Prop) : Op δ ζ → Prop
  | .getSymlink _ | .setSymlink .. | .nextHandle | .insertHandle .. | .getHandle _
  | .removeHandle _ | .dropFile _ => False
  | o => o.Serves F

theorem Op.Inner.serves {F : Bool → Prop} {o : Op δ ζ} (h : o.Inner F) : o.Serves F := by
  cases o with
  | getSymlink _ | setSymlink _ _ | nextHandle | insertHandle _ _ | getHandle _ | removeHandle _
  | dropFile _ => trivial
  | _ => exact h

theorem Op.Pools.inner {F : Bool → Prop} {o : Op δ ζ} (h : o.Pools F) : o.Inner F := by
  have hs : o.Serves F := h.serves
  cases o with
  | getSymlink _ | setSymlink _ _ | nextHandle | insertHandle _ _ | getHandle _ | removeHandle _
  | dropFile _ => exact h
  | _ => exact hs

theorem Op.Locates.inner {F : Bool → Prop} {o : Op δ ζ} (h : o.Locates) : o.Inner F := by
  have hs : o.Serves F := h.serves
  cases o with
  | getSymlink _ | setSymlink _ _ | nextHandle | insertHandle _ _ | getHandle _ | removeHandle _
  | dropFile _ => exact h
  | _ => exact hs

theorem Op.Tracks.inner {F : Bool → Prop} {o : Op δ ζ} (h : o.Tracks) : o.Inner F := by
  have hs : o.Serves F := h.serves
  cases o with
  | getSymlink _ | setSymlink _ _ | nextHandle | insertHandle _ _ | getHandle _ | removeHandle _
  | dropFile _ => exact h
  | _ => exact hs

/-- The judgement accepts checks of the archive, and the operations of this kind. -/
structure Permits (L : Logic (@Res δ ζ)) (M : Mount) (A : Op δ ζ → Prop) : Prop where
  verify : L.Accepts (GuardedFile.verify M)
  op : ∀ o, A o → L.Accepts (.op o .ret)

section Walk

variable {L : Logic (@Res δ ζ)} {K : Codecs δ ζ} {M : Mount} {F : Bool → Prop}
variable {buf : Bytes} {offset : Nat}

theorem Permits.weaken {A A' : Op δ ζ → Prop} (h : Permits L M A) (ha : ∀ o, A' o → A o) :
    Permits L M A' :=
  ⟨h.verify, fun o ho => h.op o (ha o ho)⟩

theorem Permits.pumps (h : Permits L M (Op.Decodes F)) : Permits L M (Op.Pumps F) :=
  h.weaken fun _ => Op.Pumps.decodes

/-- A program that halts has any result. -/
theorem holds_halt {α : Type} {Q : α → Prop} (h : L.Accepts (.op .halt .ret)) :
    L.Holds (Act.halt : Act δ ζ α) Q :=
  Logic.never h (fun r : Empty => nomatch r) _

/-! ## Reading the archive -/

/-- A check of the archive, walked through once for every judgement. -/
theorem accepts_guardVerify (h : ∀ o : Op δ ζ, o.Checks → L.Accepts (.op o .ret)) :
    L.Accepts (GuardedFile.verify M) := by
  have hcompare : L.Accepts (GuardedFile.compareStamps M) := by
    unfold GuardedFile.compareStamps
    refine Logic.seq (h .fstat trivial) fun r => ?_
    split
    · exact L.pure trivial
    · split
      · split
        · refine Logic.seq (h .statNamed trivial) fun r => ?_
          split
          · split
            · exact L.pure trivial
            · exact L.pure trivial
          · split
            · split
              · exact L.pure trivial
              · exact L.pure trivial
            · exact L.pure trivial
        · exact L.pure trivial
      · exact L.pure trivial
  unfold GuardedFile.verify
  refine Logic.seq (h .loadStale trivial) fun stale => ?_
  split
  · exact L.pure trivial
  · refine Logic.seq hcompare fun found => ?_
    refine Logic.seq (h (.note (.compared found)) trivial) fun _ => ?_
    split
    · refine Logic.seq (h .loadUnsure trivial) fun unsure => ?_
      split
      · exact Logic.seq (h (.swapUnsure false) trivial) fun _ => L.pure trivial
      · exact L.pure trivial
    · refine Logic.seq ?_ fun _ => L.pure trivial
      exact Logic.seq (h .swapStale trivial) fun _ => L.pure trivial
    · exact Logic.seq (h (.swapUnsure true) trivial) fun _ => L.pure trivial

/-- The buffer is a slice, so it keeps its length. -/
theorem holds_fileReadExactAt
    (h : ∀ i, offset ≤ i → i < offset + buf.length → L.Accepts (.op (.cell i) .ret)) :
    L.Holds (File.readExactAt buf offset) fun x => x.1.length = buf.length := by
  induction buf generalizing offset with
  | nil => exact L.pure rfl
  | cons b buf ih =>
      simp only [List.length_cons] at h
      unfold File.readExactAt
      refine Logic.seq (h offset (Nat.le_refl _) (by omega)) fun r => ?_
      split
      · exact L.pure rfl
      · exact L.pure rfl
      · refine L.bind (ih fun i hle hlt => h i (by omega) (by omega)) fun x hx => L.pure ?_
        simp [hx]

theorem accepts_fileReadExactAt (h : Permits L M Op.Reads) (buf : Bytes) (offset : Nat) :
    L.Accepts (File.readExactAt buf offset) :=
  Logic.accepts (holds_fileReadExactAt fun i _ _ => h.op (.cell i) trivial)

theorem accepts_fileReadAt (h : Permits L M Op.Reads) (len offset : Nat) :
    L.Accepts (File.readAt len offset) := by
  induction len generalizing offset with
  | zero => exact L.pure trivial
  | succ len ih =>
      unfold File.readAt
      refine Logic.seq (h.op (.cell offset) trivial) fun r => ?_
      split
      · exact L.pure trivial
      · exact L.pure trivial
      · refine Logic.seq (h.op .short trivial) fun short => ?_
        split
        · exact L.pure trivial
        · exact Logic.seq (ih (offset + 1)) fun _ => L.pure trivial

/-- A guarded read that may stop early. -/
theorem accepts_readAt (h : Permits L M Op.Reads) (len offset : Nat) :
    L.Accepts (GuardedFile.readAt M len offset) := by
  unfold GuardedFile.readAt
  refine Logic.seq (accepts_fileReadAt h len offset) fun read => ?_
  refine Logic.seq h.verify fun verified => ?_
  split
  · exact L.pure trivial
  · split
    · exact L.pure trivial
    · exact Logic.seq (h.op (.note (.guarded ..)) trivial) fun _ => L.pure trivial

/-- What a read of exactly a buffer performs, apart from the cells it reads. -/
structure PermitsGuard (L : Logic (@Res δ ζ)) (M : Mount) : Prop where
  verify : L.Accepts (GuardedFile.verify M)
  note : ∀ offset data, L.Accepts (.op (.note (.guarded offset data)) .ret)

theorem Permits.guard (h : Permits L M Op.Reads) : PermitsGuard L M :=
  ⟨h.verify, fun _ _ => h.op (.note (.guarded ..)) trivial⟩

/-- A guarded read of exactly the buffer, which keeps its length. -/
theorem holds_readExactAt (hg : PermitsGuard L M)
    (h : ∀ i, offset ≤ i → i < offset + buf.length → L.Accepts (.op (.cell i) .ret)) :
    L.Holds (GuardedFile.readExactAt M buf offset) fun x => x.1.length = buf.length := by
  unfold GuardedFile.readExactAt
  refine L.bind (holds_fileReadExactAt h) fun x hx => ?_
  refine Logic.seq hg.verify fun verified => ?_
  split
  · exact L.pure hx
  · split
    · exact L.pure hx
    · exact Logic.seq (hg.note ..) fun _ => L.pure hx

theorem accepts_readExactAt (h : Permits L M Op.Reads) (buf : Bytes) (offset : Nat) :
    L.Accepts (GuardedFile.readExactAt M buf offset) :=
  Logic.accepts (holds_readExactAt h.guard fun i _ _ => h.op (.cell i) trivial)

/-- A refill reads the archive at most once. -/
theorem accepts_fillBuf (h : Permits L M Op.Reads) (s : BufSource) :
    L.Accepts (s.fillBuf M) := by
  unfold BufSource.fillBuf
  split
  · dsimp only
    split
    · exact L.pure trivial
    · refine Logic.seq (accepts_readExactAt h _ _) fun x => ?_
      split
      · exact L.pure trivial
      · exact L.pure trivial
  · exact L.pure trivial

/-! ## Finding an entry -/

theorem accepts_getEntry (h : Permits L M Op.Reads) (wayfinder : Nat) :
    L.Accepts (Archive.getEntry M wayfinder) := by
  unfold Archive.getEntry
  exact Logic.handle (fun r : ReadAt => accepts_readAt h r.len r.offset) _

/-- The data of an entry is looked for once, and its place cached. -/
theorem accepts_dataStart (h : Permits L M Op.Locates) (i : Nat) (m : EntryMeta) :
    L.Accepts (Archive.dataStart M i m) := by
  have hreads := h.weaken fun _ => Op.Reads.locates
  unfold Archive.dataStart
  refine Logic.seq (h.op (.loadDataStart i) trivial) fun cached => ?_
  split
  · exact L.pure trivial
  · refine Logic.seq (accepts_getEntry hreads m.wayfinder) fun found => ?_
    split
    · exact L.pure trivial
    · split
      · exact L.pure trivial
      · split
        · exact L.pure trivial
        · exact Logic.seq (h.op (.storeDataStart ..) trivial) fun _ => L.pure trivial

/-- Finding an entry looks at the flag before the cache. -/
theorem accepts_locate (h : Permits L M Op.Locates) (i : Nat) (m : EntryMeta) :
    L.Accepts (Fs.locate M i m) := by
  unfold Fs.locate
  refine Logic.seq (h.op .loadStale trivial) fun stale => ?_
  split
  · exact L.pure trivial
  · split
    · exact L.pure trivial
    · split
      · exact L.pure trivial
      · refine Logic.seq (accepts_dataStart h i m) fun found => ?_
        split
        · exact L.pure trivial
        · exact L.pure trivial

/-- A stored entry is read from the archive without a decoder. -/
theorem accepts_readDirect (h : Permits L M Op.Reads) (loc : EntryLocation) (offset : Nat)
    (buf : Bytes) : L.Accepts (Fs.readDirect M loc offset buf) := by
  unfold Fs.readDirect
  split
  · exact L.pure trivial
  · split
    · exact L.pure trivial
    · split
      · exact L.pure trivial
      · split
        · exact L.pure trivial
        · exact accepts_readExactAt h buf _

/-! ## Decoding -/

/-- What a function makes of a decoder: it keeps its serial, and unless the function fails its
codec is as before. -/
def Lends (F : Bool → Prop) (d d' : PositionedDecoder δ ζ) {α : Type} (r : Except IoError α) :
    Prop :=
  d'.serial = d.serial ∧ ∀ a, r = .ok a → F d'.failed

/-- The loop of the pump steps a codec of which `F` holds, and only a failing step changes that. -/
theorem holds_pumpLoop (h : Permits L M (Op.Pumps F)) (turns : Nat) (d : PositionedDecoder δ ζ)
    (out : Bytes) (hd : F d.failed) :
    L.Holds (PositionedDecoder.pumpLoop K M turns d out) fun x => Lends F d x.1 x.2.2 := by
  have hreads := h.weaken fun _ => Op.Reads.pumps
  induction turns generalizing d out with
  | zero => exact holds_halt (h.op .halt trivial)
  | succ turns ih =>
      unfold PositionedDecoder.pumpLoop
      refine Logic.seq (accepts_fillBuf hreads d.src) fun x => ?_
      rcases x with ⟨src, filled⟩
      dsimp only
      split
      · exact L.pure ⟨rfl, nofun⟩
      · refine Logic.seq (h.op (.note (.fed ..)) trivial) fun _ => ?_
        refine Logic.seq (h.op (.note (.stepping d.failed)) hd) fun _ => ?_
        split
        · exact L.pure ⟨rfl, nofun⟩
        · split
          · exact L.pure ⟨rfl, fun _ _ => hd⟩
          · split
            · exact L.pure ⟨rfl, fun _ _ => hd⟩
            · split
              · split
                · exact L.pure ⟨rfl, fun _ _ => hd⟩
                · exact L.pure ⟨rfl, nofun⟩
              · exact ih _ _ hd

/-- A step of the pump, likewise. -/
theorem holds_pump (h : Permits L M (Op.Pumps F)) (d : PositionedDecoder δ ζ) (out : Bytes)
    (hd : F d.failed) : L.Holds (d.pump K M out) fun x => Lends F d x.1 x.2.2 := by
  unfold PositionedDecoder.pump
  split
  · exact L.pure ⟨rfl, fun _ _ => hd⟩
  · exact holds_pumpLoop h _ d out hd

/-- Skipping stops at the first step that fails. -/
theorem holds_skipLoop (h : Permits L M (Op.Pumps F)) (turns : Nat) (d : PositionedDecoder δ ζ)
    (offset : Nat) (hd : F d.failed) :
    L.Holds (PositionedDecoder.skipLoop K M turns d offset) fun x => Lends F d x.1 x.2 := by
  induction turns generalizing d with
  | zero =>
      unfold PositionedDecoder.skipLoop
      split
      · exact holds_halt (h.op .halt trivial)
      · exact L.pure ⟨rfl, fun _ _ => hd⟩
  | succ turns ih =>
      unfold PositionedDecoder.skipLoop
      split
      · refine L.bind (holds_pump h d _ hd) fun x hx => ?_
        rcases x with ⟨d', got, r⟩
        obtain ⟨hserial, hok⟩ := hx
        dsimp only at hserial hok ⊢
        split
        · exact L.pure ⟨hserial, nofun⟩
        · split
          · exact L.pure ⟨hserial, nofun⟩
          · refine Logic.mono (ih { d' with skip := _ } (hok _ rfl)) ?_
            intro x hx
            exact ⟨hx.1.trans hserial, hx.2⟩
      · exact L.pure ⟨rfl, fun _ _ => hd⟩

/-- So does delivering. -/
theorem holds_deliverLoop (h : Permits L M (Op.Pumps F)) (turns : Nat)
    (d : PositionedDecoder δ ζ) (total : Nat) (out : Bytes) (written : Nat) (hd : F d.failed) :
    L.Holds (PositionedDecoder.deliverLoop K M turns d total out written)
      fun x => Lends F d x.1 x.2.2 := by
  induction turns generalizing d out written with
  | zero =>
      unfold PositionedDecoder.deliverLoop
      split
      · exact holds_halt (h.op .halt trivial)
      · exact L.pure ⟨rfl, fun _ _ => hd⟩
  | succ turns ih =>
      unfold PositionedDecoder.deliverLoop
      split
      · refine L.bind (holds_pump h d _ hd) fun x hx => ?_
        rcases x with ⟨d', got, r⟩
        obtain ⟨hserial, hok⟩ := hx
        dsimp only at hserial hok ⊢
        split
        · exact L.pure ⟨hserial, nofun⟩
        · split
          · exact L.pure ⟨hserial, fun _ _ => hok _ rfl⟩
          · refine Logic.mono (ih d' _ _ (hok _ rfl)) ?_
            intro x hx
            exact ⟨hx.1.trans hserial, hx.2⟩
      · exact L.pure ⟨rfl, fun _ _ => hd⟩

/-- The check of a whole entry steps the codec at most once more. -/
theorem holds_decoderVerify (h : Permits L M (Op.Decodes F)) (i : Nat) (m : EntryMeta)
    (d : PositionedDecoder δ ζ) (hd : F d.failed) :
    L.Holds (d.verify K M i m) fun x => Lends F d x.1 x.2 := by
  unfold PositionedDecoder.verify
  split
  · exact Logic.seq (h.op (.note (.verifiedShortcut i)) trivial) fun _ =>
      L.pure ⟨rfl, fun _ _ => hd⟩
  · dsimp only
    split
    · exact Logic.seq (h.op (.storeVerify ..) trivial) fun _ => L.pure ⟨rfl, nofun⟩
    · split
      · exact L.pure ⟨rfl, fun _ _ => hd⟩
      · refine L.bind (holds_pump h.pumps { d with verified := true } [0] hd) fun x hx => ?_
        rcases x with ⟨d', out, r⟩
        obtain ⟨hserial, hok⟩ := hx
        dsimp only at hserial hok ⊢
        split
        · split
          · exact Logic.seq (h.op (.storeVerify ..) trivial) fun _ => L.pure ⟨hserial, nofun⟩
          · exact L.pure ⟨hserial, nofun⟩
        · split
          · exact Logic.seq (h.op (.storeVerify ..) trivial) fun _ => L.pure ⟨hserial, nofun⟩
          · exact Logic.seq (h.op (.storeVerify ..) trivial) fun _ =>
              L.pure ⟨hserial, fun _ _ => hok _ rfl⟩

/-- A read through a decoder: it skips, delivers and checks, in this order. -/
theorem holds_decoderReadAt (h : Permits L M (Op.Decodes F)) (d : PositionedDecoder δ ζ)
    (offset : Nat) (out : Bytes) (i : Nat) (m : EntryMeta) (hd : F d.failed) :
    L.Holds (d.readAt K M offset out i m) fun x => Lends F d x.1 x.2.2 := by
  unfold PositionedDecoder.readAt
  split
  · exact Logic.seq (h.op (.note .pastOffset) trivial) fun _ => L.pure ⟨rfl, nofun⟩
  · dsimp only
    refine L.bind (holds_skipLoop h.pumps _ d offset hd) fun x hx => ?_
    rcases x with ⟨d₁, skipped⟩
    obtain ⟨hserial₁, hok₁⟩ := hx
    dsimp only at hserial₁ hok₁ ⊢
    split
    · exact L.pure ⟨hserial₁, nofun⟩
    · refine L.bind (holds_deliverLoop h.pumps _ d₁ _ _ _ (hok₁ _ rfl)) fun x hx => ?_
      rcases x with ⟨d₂, out₂, delivered⟩
      obtain ⟨hserial₂, hok₂⟩ := hx
      dsimp only at hserial₂ hok₂ ⊢
      split
      · exact L.pure ⟨hserial₂.trans hserial₁, nofun⟩
      · split
        · refine L.bind (holds_decoderVerify h i m d₂ (hok₂ _ rfl)) fun x hx => ?_
          rcases x with ⟨d₃, verified⟩
          obtain ⟨hserial₃, hok₃⟩ := hx
          have hserial := (hserial₃.trans hserial₂).trans hserial₁
          dsimp only at hserial hok₃ ⊢
          split
          · exact L.pure ⟨hserial, nofun⟩
          · exact Logic.seq (h.op (.note (.delivered ..)) trivial) fun _ =>
              L.pure ⟨hserial, fun _ _ => hok₃ _ rfl⟩
        · exact Logic.seq (h.op (.note (.delivered ..)) trivial) fun _ =>
            L.pure ⟨hserial₂.trans hserial₁, fun _ _ => hok₂ _ rfl⟩

/-! ## Pools -/

/-- The judgement also accepts that a pool chooses a decoder, of which `F` holds if it need not
be rewound. -/
structure PermitsPick (L : Logic (@Res δ ζ)) (M : Mount) (F : Bool → Prop) (A : Op δ ζ → Prop) :
    Prop extends Permits L M A where
  fresh : F false
  pick : ∀ id offset, L.Holds (Act.pick id offset) fun r => ∀ d, r = some (d, false) → F d.failed

theorem PermitsPick.pools (h : PermitsPick L M F (Op.Serves F)) : PermitsPick L M F (Op.Pools F) :=
  ⟨h.weaken fun _ => Op.Pools.serves, h.fresh, h.pick⟩

theorem PermitsPick.inner (h : PermitsPick L M F (Op.Serves F)) : PermitsPick L M F (Op.Inner F) :=
  ⟨h.weaken fun _ => Op.Inner.serves, h.fresh, h.pick⟩

theorem PermitsPick.innerPools (h : PermitsPick L M F (Op.Inner F)) :
    PermitsPick L M F (Op.Pools F) :=
  ⟨h.weaken fun _ => Op.Pools.inner, h.fresh, h.pick⟩

theorem PermitsPick.decodes (h : PermitsPick L M F (Op.Pools F)) : Permits L M (Op.Decodes F) :=
  h.weaken fun _ => Op.Decodes.pools

/-- A checkout lends a codec of which `F` holds: chosen so, rewound or new. -/
theorem holds_checkout (h : PermitsPick L M F (Op.Pools F)) (pool : EntryPool) (offset : Nat) :
    L.Holds (pool.checkout K M offset) fun d => F d.failed := by
  unfold EntryPool.checkout
  refine L.bind (h.pick pool.id offset) fun r hr => ?_
  split
  · rename_i d rewind
    refine Logic.seq (h.op .releaseRetain trivial) fun _ => ?_
    cases rewind with
    | true => exact L.pure h.fresh
    | false => exact L.pure (hr d rfl)
  · exact Logic.seq (h.op (.takeCore _) trivial) fun parts => L.pure h.fresh

/-- A decoder that is given back is kept idle or taken to pieces. -/
theorem accepts_giveBack (h : ∀ o : Op δ ζ, o.Pools F → L.Accepts (.op o .ret)) (pool : EntryPool)
    (d : PositionedDecoder δ ζ) : L.Accepts (pool.giveBack d) := by
  unfold EntryPool.giveBack
  refine Logic.seq (h (.lockIdle _) trivial) fun len => ?_
  split
  · refine Logic.seq (h .tryRetain trivial) fun retained => ?_
    split
    · exact Logic.seq (h (.pushIdle ..) trivial) fun _ => h (.unlockIdle _) trivial
    · exact Logic.seq (h (.unlockIdle _) trivial) fun _ => h (.recycleCore _) trivial
  · exact Logic.seq (h (.unlockIdle _) trivial) fun _ => h (.recycleCore _) trivial

theorem accepts_recycleAll (h : ∀ o : Op δ ζ, o.Pools F → L.Accepts (.op o .ret))
    (ds : List (PositionedDecoder δ ζ)) :
    L.Accepts (EntryPool.recycleAll ds) := by
  induction ds with
  | nil => exact L.pure trivial
  | cons d ds ih =>
      unfold EntryPool.recycleAll
      refine Logic.seq (h .releaseRetain trivial) fun _ => ?_
      exact Logic.seq (h (.recycleCore _) trivial) fun _ => ih

/-- A pool that is dropped takes its idle decoders to pieces. -/
theorem accepts_drop (h : ∀ o : Op δ ζ, o.Pools F → L.Accepts (.op o .ret)) (pool : EntryPool) :
    L.Accepts (pool.drop : Act δ ζ Unit) := by
  unfold EntryPool.drop
  exact Logic.seq (h (.takeIdle _) trivial) fun idle => accepts_recycleAll h idle

/-- A pool of its own for one read. -/
theorem accepts_readOnce (h : PermitsPick L M F (Op.Pools F)) (loc : EntryLocation) (out : Bytes)
    (i : Nat) (m : EntryMeta) : L.Accepts (Fs.readOnce K M loc out i m) := by
  unfold Fs.readOnce EntryPool.new
  refine Logic.seq (Logic.seq (h.op (.newPool ..) trivial) fun _ => L.pure trivial) fun pool => ?_
  refine L.bind (holds_checkout h pool 0) fun d hd => ?_
  refine Logic.seq (Logic.accepts (holds_decoderReadAt h.decodes d 0 out i m hd)) fun x => ?_
  refine Logic.seq (accepts_giveBack h.op pool x.1) fun _ => ?_
  exact Logic.seq (accepts_drop h.op pool) fun _ => L.pure trivial

/-- A read through the pool of an open file. -/
theorem accepts_readCoded (h : PermitsPick L M F (Op.Pools F)) {file : OpenFile} {pool : EntryPool}
    (hkind : file.kind = .coded pool) (m : EntryMeta) (offset : Nat) (buf : Bytes) :
    L.Accepts (Fs.readInto K M file m offset buf) := by
  unfold Fs.readInto
  rw [hkind]
  refine L.bind (holds_checkout h pool offset) fun d hd => ?_
  refine Logic.seq (Logic.accepts (holds_decoderReadAt h.decodes d offset buf _ m hd)) fun x => ?_
  exact Logic.seq (accepts_giveBack h.op pool x.1) fun _ => L.pure trivial

/-! ## Open files and whole entries -/

theorem accepts_verifyStored {i : Nat}
    (h : ∀ state, L.Accepts (.op (.storeVerify i state) .ret)) (m : EntryMeta) (data : Bytes) :
    L.Accepts (Fs.verifyStored M i m data : Act δ ζ _) := by
  unfold Fs.verifyStored
  split
  · split
    · exact Logic.seq (h .ok) fun _ => L.pure trivial
    · exact Logic.seq (h .bad) fun _ => L.pure trivial
  · exact L.pure trivial

/-- `read_all`, from what it is built of. -/
theorem walk_readAll {i limit : Nat} {m : EntryMeta} (hload : L.Accepts (.op (.loadVerify i) .ret))
    (hlocate : L.Accepts (Fs.locate M i m))
    (hmark : ∀ state, L.Accepts (.op (.storeVerify i state) .ret))
    (hdirect : ∀ loc out, L.Accepts (Fs.readDirect M loc 0 out))
    (honce : ∀ loc out, L.Accepts (Fs.readOnce K M loc out i m)) :
    L.Accepts (Fs.readAll K M i m limit) := by
  unfold Fs.readAll
  refine Logic.seq hload fun state => ?_
  split
  · exact L.pure trivial
  · refine Logic.seq hlocate fun found => ?_
    split
    · exact L.pure trivial
    · dsimp only
      split
      · exact L.pure trivial
      · split
        · split
          · exact Logic.seq (accepts_verifyStored hmark m _) fun _ => L.pure trivial
          · refine Logic.seq (honce _ _) fun x => ?_
            split
            · exact L.pure trivial
            · exact L.pure trivial
        · split
          · refine Logic.seq (hdirect _ _) fun x => ?_
            split
            · exact L.pure trivial
            · exact Logic.seq (accepts_verifyStored hmark m _) fun _ => L.pure trivial
          · refine Logic.seq (honce _ _) fun x => ?_
            split
            · exact L.pure trivial
            · split
              · exact L.pure trivial
              · exact L.pure trivial

/-- Reading a whole entry. -/
theorem inner_readAll (h : PermitsPick L M F (Op.Inner F)) (i : Nat) (m : EntryMeta)
    (limit : Nat) : L.Accepts (Fs.readAll K M i m limit) :=
  walk_readAll (h.op (.loadVerify i) trivial)
    (accepts_locate (h.weaken fun _ => Op.Locates.inner) i m) (fun _ => h.op _ trivial)
    (fun loc out =>
      accepts_readDirect (h.weaken fun o (ho : o.Reads) => (ho.locates).inner) loc 0 out)
    fun loc out => accepts_readOnce h.innerPools loc out i m

theorem accepts_readAll (h : PermitsPick L M F (Op.Serves F)) (i : Nat) (m : EntryMeta)
    (limit : Nat) : L.Accepts (Fs.readAll K M i m limit) :=
  inner_readAll h.inner i m limit

/-- The tracker of a stored entry is locked for one block. -/
theorem accepts_observeLocked (h : ∀ o : Op δ ζ, o.Tracks → L.Accepts (.op o .ret))
    (id offset : Nat) (data : Bytes) (i : Nat) (m : EntryMeta) :
    L.Accepts (OpenFile.observeLocked id offset data i m : Act δ ζ _) := by
  unfold OpenFile.observeLocked
  refine Logic.seq (h (.lockStore id) trivial) fun v => ?_
  refine Logic.seq (h (.record ..) trivial) fun _ => ?_
  refine Logic.seq (h (.note (.observed ..)) trivial) fun _ => ?_
  split
  · refine Logic.seq (h (.storeVerify ..) trivial) fun _ => ?_
    exact Logic.seq (h (.unlockStore ..) trivial) fun _ => L.pure trivial
  · exact Logic.seq (h (.unlockStore ..) trivial) fun _ => L.pure trivial

theorem accepts_observeStore (h : ∀ o : Op δ ζ, o.Tracks → L.Accepts (.op o .ret))
    (verify : Option Nat) (offset : Nat) (data : Bytes) (i : Nat) (m : EntryMeta) :
    L.Accepts (OpenFile.observeStore verify offset data i m : Act δ ζ _) := by
  unfold OpenFile.observeStore
  split
  · exact L.pure trivial
  · exact accepts_observeLocked h ..

/-- A read of an open file, from what its kind needs. -/
theorem walk_readInto {file : OpenFile} {m : EntryMeta} {offset : Nat} {buf : Bytes}
    (hdirect : ∀ loc, L.Accepts (Fs.readDirect M loc offset buf))
    (hobserve : ∀ start size verify data, file.kind = .store start size verify →
      L.Accepts (OpenFile.observeStore verify offset data file.metaIdx m))
    (hcoded : ∀ pool, file.kind = .coded pool → L.Accepts (Fs.readInto K M file m offset buf)) :
    L.Accepts (Fs.readInto K M file m offset buf) := by
  cases hkind : file.kind with
  | empty =>
      unfold Fs.readInto
      rw [hkind]
      exact L.pure trivial
  | store dataStart compressedSize verify =>
      unfold Fs.readInto
      rw [hkind]
      refine Logic.seq (hdirect _) fun x => ?_
      rcases x with ⟨got, r⟩
      dsimp only
      split
      · exact L.pure trivial
      · refine Logic.seq (hobserve _ _ _ _ hkind) fun fine => ?_
        split
        · exact L.pure trivial
        · exact L.pure trivial
  | coded pool => exact hcoded pool hkind

/-- Reading a part of an open file. -/
theorem inner_readInto (h : PermitsPick L M F (Op.Inner F)) (file : OpenFile) (m : EntryMeta)
    (offset : Nat) (buf : Bytes) : L.Accepts (Fs.readInto K M file m offset buf) := by
  have hreads := h.weaken fun o (ho : o.Reads) => (ho.locates).inner
  refine walk_readInto (fun loc => accepts_readDirect hreads loc offset buf) ?_ ?_
  · intro _ _ verify data _
    exact accepts_observeStore (fun o ho => h.op o ho.inner) ..
  · intro pool hkind
    exact accepts_readCoded h.innerPools hkind m offset buf

theorem accepts_readInto (h : PermitsPick L M F (Op.Serves F)) (file : OpenFile) (m : EntryMeta)
    (offset : Nat) (buf : Bytes) : L.Accepts (Fs.readInto K M file m offset buf) :=
  inner_readInto h.inner file m offset buf

theorem walk_withScratch {α : Type} {len : Nat} {f : Bytes → Act δ ζ (Bytes × α)}
    (hget : L.Accepts (.op .getScratch .ret)) (hput : ∀ buf, L.Accepts (.op (.putScratch buf) .ret))
    (hf : ∀ buf, L.Accepts (f buf)) : L.Accepts (Fs.withScratch len f) := by
  unfold Fs.withScratch
  refine Logic.seq hget fun scratch => ?_
  refine Logic.seq (hf _) fun x => ?_
  exact Logic.seq (hput _) fun _ => L.pure trivial

theorem accepts_withScratch {α : Type} (h : ∀ o : Op δ ζ, o.Serves F → L.Accepts (.op o .ret))
    (len : Nat) {f : Bytes → Act δ ζ (Bytes × α)} (hf : ∀ buf, L.Accepts (f buf)) :
    L.Accepts (Fs.withScratch len f) :=
  walk_withScratch (h .getScratch trivial) (fun _ => h _ trivial) hf

theorem inner_newFile (h : ∀ o : Op δ ζ, o.Inner F → L.Accepts (.op o .ret)) (ino i : Nat)
    (m : EntryMeta) (loc : EntryLocation) : L.Accepts (OpenFile.new M ino i m loc : Act δ ζ _) := by
  unfold OpenFile.new EntryPool.new
  dsimp only
  split
  · exact L.pure trivial
  · split
    · split
      · exact Logic.seq (h (.newStore ..) trivial) fun _ => L.pure trivial
      · exact L.pure trivial
    · exact Logic.seq (Logic.seq (h (.newPool ..) trivial) fun _ => L.pure trivial)
        fun _ => L.pure trivial

theorem accepts_newFile (h : ∀ o : Op δ ζ, o.Serves F → L.Accepts (.op o .ret)) (ino i : Nat)
    (m : EntryMeta) (loc : EntryLocation) : L.Accepts (OpenFile.new M ino i m loc : Act δ ζ _) :=
  inner_newFile (fun o ho => h o ho.serves) ino i m loc

/-- A handle is drawn before the file is put behind it. -/
theorem accepts_insert (h : ∀ o : Op δ ζ, o.Serves F → L.Accepts (.op o .ret)) (file : OpenFile) :
    L.Accepts (HandleTable.insert file : Act δ ζ _) := by
  unfold HandleTable.insert
  refine Logic.seq (h .nextHandle trivial) fun fh => ?_
  exact Logic.seq (h (.insertHandle ..) trivial) fun _ => L.pure trivial

/-- The last to let go of a file drops its pool. -/
theorem accepts_releaseFile (h : ∀ o : Op δ ζ, o.Serves F → L.Accepts (.op o .ret)) (fh : Nat)
    (file : OpenFile) : L.Accepts (file.release fh : Act δ ζ Unit) := by
  unfold OpenFile.release
  refine Logic.seq (h (.dropFile fh) trivial) fun last => ?_
  split
  · split
    · exact accepts_drop (fun o ho => h o ho.serves) _
    · exact L.pure trivial
  · exact L.pure trivial

/-! ## Calls -/

/-- Only a failure that may come from a change is diagnosed. -/
theorem accepts_diagnose (h : Permits L M Op.Locates)
    (hd : L.Accepts (Act.note .diagnosing : Act δ ζ Unit)) (errno : Nat) :
    L.Accepts (Fs.diagnose M errno : Act δ ζ Nat) := by
  unfold Fs.diagnose Archive.check GuardedFile.check
  split
  · refine Logic.seq hd fun _ => Logic.seq ?_ fun _ => L.pure trivial
    refine Logic.seq h.verify fun verified => ?_
    split
    · exact L.pure trivial
    · refine Logic.seq (h.op .loadStale trivial) fun stale => ?_
      split
      · exact L.pure trivial
      · exact L.pure trivial
  · exact L.pure trivial

/-- `open`: the entry is found before anything is made for it. -/
theorem accepts_openFile (h : Permits L M (Op.Serves F))
    (hd : L.Accepts (Act.note .diagnosing : Act δ ζ Unit)) (ino : Nat) (mode : AccMode) :
    L.Accepts (Fs.openFile M ino mode : Act δ ζ Reply) := by
  unfold Fs.openFile
  split
  · exact L.pure trivial
  · split
    · exact L.pure trivial
    · split
      · exact L.pure trivial
      · split
        · exact L.pure trivial
        · refine Logic.seq
            (accepts_locate (h.weaken fun _ => Op.Locates.serves) _ _) fun found => ?_
          split
          · exact Logic.seq
              (accepts_diagnose (h.weaken fun _ => Op.Locates.serves) hd _) fun _ => L.pure trivial
          · refine Logic.seq (accepts_newFile h.op _ _ _ _) fun file => ?_
            exact Logic.seq (accepts_insert h.op file) fun _ => L.pure trivial

/-- A read once it has found its open file, from what it is built of. -/
theorem walk_readFile {file : OpenFile} {offset size : Nat}
    (hstale : L.Accepts (.op .loadStale .ret))
    (hhalt : M.index.metas[file.metaIdx]? = none → L.Accepts (.op .halt .ret))
    (hload : L.Accepts (.op (.loadVerify file.metaIdx) .ret))
    (hget : L.Accepts (.op .getScratch .ret)) (hput : ∀ buf, L.Accepts (.op (.putScratch buf) .ret))
    (hinto : ∀ m buf, L.Accepts (Fs.readInto K M file m offset buf))
    (hdiag : ∀ errno, L.Accepts (Fs.diagnose M errno : Act δ ζ Nat)) :
    L.Accepts (Fs.readFile K M file offset size) := by
  unfold Fs.readFile
  refine Logic.seq hstale fun stale => ?_
  split
  · exact L.pure trivial
  · split
    · rename_i hnone
      exact holds_halt (hhalt hnone)
    · refine Logic.seq hload fun state => ?_
      split
      · exact Logic.seq (hdiag _) fun _ => L.pure trivial
      · dsimp only
        split
        · exact L.pure trivial
        · refine Logic.seq (walk_withScratch hget hput (hinto _)) fun x => ?_
          split
          · exact L.pure trivial
          · exact Logic.seq (hdiag _) fun _ => L.pure trivial

/-- `read`, with the file in hand. -/
theorem inner_readFile (h : PermitsPick L M F (Op.Inner F))
    (hd : L.Accepts (Act.note .diagnosing : Act δ ζ Unit)) (file : OpenFile) (offset size : Nat) :
    L.Accepts (Fs.readFile K M file offset size) :=
  walk_readFile (h.op .loadStale trivial) (fun _ => h.op .halt trivial) (h.op _ trivial)
    (h.op .getScratch trivial) (fun _ => h.op _ trivial)
    (fun m buf => inner_readInto h file m offset buf)
    (accepts_diagnose (h.weaken fun _ => Op.Locates.inner) hd)

theorem accepts_readFile (h : PermitsPick L M F (Op.Serves F))
    (hd : L.Accepts (Act.note .diagnosing : Act δ ζ Unit)) (file : OpenFile) (offset size : Nat) :
    L.Accepts (Fs.readFile K M file offset size) :=
  inner_readFile h.inner hd file offset size

/-- `readlink`: the cache is looked at first, and filled last. -/
theorem accepts_readlink (h : PermitsPick L M F (Op.Serves F))
    (hd : L.Accepts (Act.note .diagnosing : Act δ ζ Unit)) (ino : Nat) :
    L.Accepts (Fs.readlink K M ino) := by
  unfold Fs.readlink
  split
  · exact L.pure trivial
  · split
    · exact L.pure trivial
    · split
      · exact L.pure trivial
      · refine Logic.seq (h.op (.getSymlink _) trivial) fun cached => ?_
        split
        · exact L.pure trivial
        · refine Logic.seq (h.op (.note .targetMissing) trivial) fun _ => ?_
          refine Logic.seq (accepts_readAll h _ _ _) fun found => ?_
          split
          · refine Logic.seq (h.op (.setSymlink ..) trivial) fun kept => ?_
            split
            · exact L.pure trivial
            · exact L.pure trivial
          · exact Logic.seq
              (accepts_diagnose (h.weaken fun _ => Op.Locates.serves) hd _) fun _ => L.pure trivial

theorem accepts_release (h : ∀ o : Op δ ζ, o.Serves F → L.Accepts (.op o .ret)) (fh : Nat) :
    L.Accepts (Fs.release fh : Act δ ζ Reply) := by
  unfold Fs.release
  refine Logic.seq (h (.removeHandle fh) trivial) fun found => ?_
  split
  · exact L.pure trivial
  · exact Logic.seq (accepts_releaseFile h fh _) fun _ => L.pure trivial

/-- Every call is built from checks, choices of a decoder, diagnoses and what else serves it. -/
theorem accepts_prog (h : PermitsPick L M F (Op.Serves F))
    (hd : L.Accepts (Act.note .diagnosing : Act δ ζ Unit)) (call : Call) :
    L.Accepts (call.prog K M) := by
  have hreads := h.weaken fun o (ho : o.Reads) => (ho.locates).serves
  cases call with
  | openFile ino mode => exact accepts_openFile h.toPermits hd ino mode
  | read fh offset size =>
      refine Logic.seq (h.op (.getHandle fh) trivial) fun found => ?_
      split
      · exact L.pure trivial
      · refine Logic.seq (h.op (.note .handleFound) trivial) fun _ => ?_
        refine Logic.seq (accepts_readFile h hd _ offset size) fun reply => ?_
        exact Logic.seq (accepts_releaseFile h.op fh _) fun _ => L.pure trivial
  | readlink ino => exact accepts_readlink h hd ino
  | release fh => exact accepts_release h.op fh
  | readAt len offset => exact Logic.seq (accepts_readAt hreads len offset) fun _ => L.pure trivial
  | readExactAt buf offset =>
      exact Logic.seq (accepts_readExactAt hreads buf offset) fun _ => L.pure trivial

end Walk

end ZipFs
