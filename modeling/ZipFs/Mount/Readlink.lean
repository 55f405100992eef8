import ZipFs.Index.Invariant
import ZipFs.Lib.Extend
import ZipFs.Lib.Order
import ZipFs.Mount.Calls
import ZipFs.Mount.Kept

/-!
# Targets of symlinks

A target is read as a whole, checked and put into a slot that is written once; every
`readlink` that finds its slot written answers from it, without a look at the archive.
So what is in a slot has to be right for good. The slots are an addition to the protocol
of the mount: nothing but `readlink` touches them, and all else that is known of the mount
stays as it is.
-/

namespace ZipFs

open Lib (Safe Meets CalledBetween lasting_true)

variable {τ δ ζ : Type} {B G : Prop} {K : Codecs δ ζ} {M : Mount}

/-! ## Whole entries -/

variable (K M) in
/-- The content of the entry `m` at `loc`, as far as its declared size goes; all of it, with the
recorded checksum, if entries are verified. -/
structure WholeAt (m : EntryMeta) (loc : EntryLocation) (out : Bytes) : Prop where
  size : out.length = m.uncompressedSize
  content : out = (loc.content K M).take m.uncompressedSize
  checked : M.config.verify = true → 0 < m.uncompressedSize →
    out = loc.content K M ∧ crc32 out = m.crc32

variable (K M) in
/-- What `read_all` returns of the entry `m` with index `i`. -/
structure ReadWhole (i : Nat) (m : EntryMeta) (out : Bytes) (loc : EntryLocation) : Prop where
  location : LocationOk M i m loc
  whole : K.Lawful ∨ loc.method = .store → WholeAt K M m loc out
  made : loc.method ≠ .store → K.Blind → out.length = m.uncompressedSize ∧ Made K M out

section ReadAll

variable [DecidableEq τ] {i : Nat} {m : EntryMeta} {loc : EntryLocation}

/-- Data that passes its check has the recorded checksum, if there is a check. -/
theorem verifyStored_checks (hloc : LocationOk M i m loc) (hstore : loc.method = .store)
    {data : Bytes} (hdata : data = loc.range M) (hall : m.uncompressedSize ≤ data.length) :
    Does True False K M (Anywhere (τ := τ)) (Fs.verifyStored M i m data) fun r =>
      r = .ok () → M.config.verify = true → crc32 data = m.crc32 := by
  intro t w hi hI
  refine ((verifyStored_does lasting_true hloc hstore hdata hall t w hi hI).always
    (A := fun _ => True) ?_).mono fun _ _ _ h => h.2
  unfold Fs.verifyStored
  split
  · split
    · rename_i hcrc
      exact ⟨trivial, fun _ _ _ => hcrc⟩
    · exact ⟨trivial, fun _ h => absurd h (by simp)⟩
  · rename_i hverify
    exact fun _ h => absurd h hverify

/-- A stored entry that was read as a whole and passed its check. -/
theorem ReadWhole.of_stored (hloc : LocationOk M i m loc) (hstore : loc.method = .store)
    {out : Bytes} (hout : out = loc.range M) (hsize : out.length = m.uncompressedSize)
    (hcrc : M.config.verify = true → crc32 out = m.crc32) : ReadWhole K M i m out loc where
  location := hloc
  whole _ :=
    { size := hsize
      content := by rw [content_of_stored hstore, ← hout, ← hsize, List.take_length]
      checked := fun hv _ => ⟨hout.trans (content_of_stored hstore).symm, hcrc hv⟩ }
  made hne := absurd hstore hne

/-- A compressed entry of which all declared bytes were delivered. -/
theorem WholeAt.of_coded (hcoded : loc.method ≠ .store) {out : Bytes}
    (hsize : out.length = m.uncompressedSize)
    (hd : Delivered K M loc m 0 out.length m.uncompressedSize)
    (hbytes : out.take m.uncompressedSize = (loc.stream K M).bytes.take m.uncompressedSize) :
    WholeAt K M m loc out := by
  have hout : out = (loc.stream K M).bytes.take m.uncompressedSize := by
    rw [← hbytes, ← hsize, List.take_length]
  refine ⟨hsize, by rw [content_of_coded hcoded]; exact hout, fun hv hpos => ?_⟩
  have hok := hd.checked (by omega) hpos hv
  have hall : out = (loc.stream K M).bytes := by
    rw [hout, ← hok.size, List.take_length]
  exact ⟨by rw [content_of_coded hcoded]; exact hall, by rw [hall]; exact hok.crc⟩

/-- A compressed entry that was read once into a buffer of its declared size. -/
theorem ReadWhole.of_once (hloc : LocationOk M i m loc) (hcoded : loc.method ≠ .store)
    {x : Bytes × Except IoError Nat} {n : Nat} {out : Bytes}
    (hout : out.length = m.uncompressedSize)
    (h : OnceRead K M loc m out x) (hn : x.2 = .ok n)
    (hall : n ≤ out.length → n = m.uncompressedSize) : ReadWhole K M i m x.1 loc := by
  refine ⟨hloc, fun hK => ?_, fun _ hb => ?_⟩
  · obtain ⟨hroom, hdel⟩ := h.good (hK.resolve_right hcoded)
    obtain ⟨hd, hbytes⟩ := hdel n hn
    obtain rfl := hall hd.room
    rw [hout] at hd hroom
    exact .of_coded hcoded hroom (by rw [hroom]; exact hd) hbytes
  · obtain ⟨hroom, hmade⟩ := h.made hb
    obtain ⟨hle, hm⟩ := hmade n hn
    obtain rfl := hall hle
    rw [hout] at hroom
    rw [List.take_of_length_le (Nat.le_of_eq hroom)] at hm
    exact ⟨hroom, hm⟩

/-- **`read_all`** returns whole entries. -/
theorem readAll_whole (hm : M.index.metas[i]? = some m) (limit : Nat) :
    Meets (keptProtocol K M) (execKept K M) (Anywhere (τ := τ)) (Fs.readAll K M i m limit) fun r =>
      ∀ out, r = .ok out → m.uncompressedSize ≤ limit ∧ ∃ loc, ReadWhole K M i m out loc := by
  have hfail : ∀ e : Nat, Meets (keptProtocol K M) (execKept K M) (Anywhere (τ := τ))
      (pure (.error e) : Act δ ζ (Except Nat Bytes)) fun r => ∀ out, r = .ok out →
        m.uncompressedSize ≤ limit ∧ ∃ loc, ReadWhole K M i m out loc :=
    fun e => .pure fun out h => absurd h (by simp)
  unfold Fs.readAll
  have hload : Does True False K M (Anywhere (τ := τ)) (Act.loadVerify i : Act δ ζ _)
      fun _ => True := meets_plain (o := .loadVerify i) fun _ _ => trivial
  refine Meets.bind lasting_true hload.kept ?_
  intro state _
  split
  · exact hfail _
  refine Meets.bind lasting_true (Does.kept (locate_does hm)) ?_
  intro found hfound
  cases found with
  | error e => exact hfail _
  | ok loc =>
      have hloc := hfound loc rfl
      dsimp only
      split
      · exact hfail _
      rename_i hlimit
      have hfits : m.uncompressedSize ≤ limit := by omega
      have hlen : (List.replicate m.uncompressedSize (0 : UInt8)).length = m.uncompressedSize :=
        List.length_replicate
      -- a stored entry, read to its end and checked
      have hstored : ∀ out : Bytes, loc.method = .store → out = loc.range M →
          out.length = m.uncompressedSize →
          Meets (keptProtocol K M) (execKept K M) (Anywhere (τ := τ)) (do
            let checked ← Fs.verifyStored M i m out
            pure (checked.map fun _ => out)) fun r => ∀ out, r = .ok out →
              m.uncompressedSize ≤ limit ∧ ∃ loc, ReadWhole K M i m out loc := by
        intro out hstore hout hsize
        refine Meets.bind lasting_true (Does.kept (verifyStored_checks hloc hstore hout
          (Nat.le_of_eq hsize.symm))) ?_
        intro checked hchecked
        refine .pure fun out' h => ?_
        cases checked with
        | error e => exact absurd h (by simp [Except.map])
        | ok u =>
            obtain rfl := Except.ok.inj h
            exact ⟨hfits, loc, .of_stored hloc hstore hout hsize (hchecked rfl)⟩
      split
      · rename_i hzero
        split
        · rename_i hstore
          refine hstored _ hstore ?_ hlen
          have hshort := hloc.length_stored hstore
          rw [hzero] at hshort ⊢
          exact (List.length_eq_zero_iff.mp (Nat.le_zero.mp hshort)).symm
        · rename_i hcoded
          refine Meets.bind lasting_true (readOnce_delivers hloc hcoded _) ?_
          intro x hx
          obtain ⟨got, r⟩ := x
          cases r with
          | error e => exact hfail _
          | ok n =>
              refine .pure fun out h => ?_
              obtain rfl := Except.ok.inj h
              exact ⟨hfits, loc, .of_once hloc hcoded hlen hx rfl fun hn => by omega⟩
      · split
        · rename_i hstore
          refine Meets.bind lasting_true (Does.kept (readDirect_does loc 0 _)) ?_
          intro x h
          obtain ⟨got, r⟩ := x
          cases r with
          | error e => exact hfail _
          | ok _ =>
              obtain ⟨hlen, hgot⟩ := h
              obtain ⟨-, hbytes⟩ := hgot rfl
              rw [List.length_replicate] at hlen hbytes
              dsimp only at hlen hbytes
              refine hstored got hstore ?_ hlen
              rw [hbytes, List.drop_zero]
              exact List.take_of_length_le (hloc.length_stored hstore)
        · rename_i hcoded
          refine Meets.bind lasting_true (readOnce_delivers hloc hcoded _) ?_
          intro x hx
          obtain ⟨got, r⟩ := x
          cases r with
          | error e => exact hfail _
          | ok n =>
              dsimp only
              split
              · exact hfail _
              · rename_i hn
                refine .pure fun out h => ?_
                obtain rfl := Except.ok.inj h
                have hn : n = m.uncompressedSize := by simpa using hn
                exact ⟨hfits, loc, .of_once hloc hcoded hlen hx rfl fun _ => hn⟩

end ReadAll

/-! ## The slots -/

variable (M) in
/-- The inode is a symlink, with this node and this entry. -/
structure SymlinkAt (ino : Nat) (n : Node) (m : EntryMeta) : Prop where
  found : M.index.node ino = some n
  kind : n.kind = .symlink
  entry : M.index.metaOf n = some m

variable (K M) in
/-- What may be in the slot of a symlink: its entry as a whole, if that is not too long. -/
structure TargetOf (ino : Nat) (n : Node) (m : EntryMeta) (target : Bytes) : Prop where
  symlink : SymlinkAt M ino n m
  short : m.uncompressedSize ≤ MAX_SYMLINK
  whole : ∃ loc, ReadWhole K M n.metaIdx m target loc

variable (K M) in
/-- There is a symlink with this slot and this target. -/
def SlotOk (slot : Nat) (target : Bytes) : Prop :=
  slot < M.index.symlinks ∧ ∃ ino n m, m.symlinkSlot = slot ∧ TargetOf K M ino n m target

/-- A slot that is written stays as it is. -/
def SlotsGrow (w w' : World τ δ ζ) : Prop :=
  ∀ slot target, w.symlinks slot = some target → w'.symlinks slot = some target

theorem SlotsGrow.trans {w w' w₂ : World τ δ ζ} (h : SlotsGrow w w') (h' : SlotsGrow w' w₂) :
    SlotsGrow w w₂ :=
  fun slot target hs => h' slot target (h slot target hs)

variable (K M) in
/-- A slot is written once, with a target. -/
def targets : Lib.Protocol τ (World τ δ ζ) where
  inv w := ∀ slot target, w.symlinks slot = some target → SlotOk K M slot target
  rely _ := SlotsGrow
  grow := SlotsGrow
  rely_refl _ _ _ _ h := h
  rely_trans _ _ _ _ := .trans
  grow_refl _ _ _ h := h
  grow_trans _ _ _ := .trans
  grow_of_rely _ _ _ h := h

theorem targets_kept {t : τ} {w w' : World τ δ ζ} (h : w'.symlinks = w.symlinks) :
    (targets K M).Kept t w w' := by
  have hgrow : SlotsGrow w w' := fun slot target hs => (congrFun h slot).trans hs
  refine fun hi => ⟨fun slot target hs => ?_, hgrow, fun _ _ => hgrow⟩
  exact hi slot target ((congrFun h slot).symm.trans hs)

section Ops

variable [DecidableEq τ] {t : τ} {w w' : World τ δ ζ}

theorem symlinks_same {o : Op δ ζ} {r : Res o} (ho : ∀ slot target, o ≠ .setSymlink slot target)
    (h : exec K M t o w r w') : w'.symlinks = w.symlinks := by
  rcases h with h | ⟨-, rfl⟩
  · cases o with
    | setSymlink slot target => exact absurd rfl (ho slot target)
    | halt => exact absurd h (by simp [det])
    | cell _ | short | fstat | loadStale | swapStale | loadUnsure | swapUnsure _
    | loadDataStart _ | storeDataStart _ _ | loadVerify _ | storeVerify _ _ | getSymlink _
    | nextHandle | insertHandle _ _ | newStore _ _ | newPool _ _ _ _ | releaseRetain | takeCore _
    | recycleCore _ | getScratch | putScratch _ | note _ =>
        obtain rfl := (Prod.mk.inj (Option.some.inj h)).2
        rfl
    | _ =>
        simp only [det] at h
        repeat' split at h
        all_goals first
          | (obtain rfl := (Prod.mk.inj (Option.some.inj h)).2
             rfl)
          | cases h
  · rfl

theorem getSymlink_spec {slot : Nat} {r : Option Bytes}
    (h : exec K M t (.getSymlink slot) w r w') :
    w' = w ∧ r = if slot < M.index.symlinks then w.symlinks slot else none := by
  rcases h with h | ⟨hf, -⟩
  · obtain ⟨rfl, rfl⟩ := Prod.mk.inj (Option.some.inj h)
    exact ⟨rfl, rfl⟩
  · exact hf.elim

/-- Writing a slot: the first to do so decides what everybody gets. -/
theorem setSymlink_spec {slot : Nat} {target : Bytes} {r : Option Bytes}
    (h : exec K M t (.setSymlink slot target) w r w') :
    (∀ kept, r = some kept → w'.symlinks slot = some kept) ∧
      ((slot < M.index.symlinks → SlotOk K M slot target) → (targets K M).Kept t w w') := by
  rcases h with h | ⟨hf, -⟩
  · simp only [det] at h
    split at h
    · rename_i hroom
      split at h
      · rename_i old hold
        obtain ⟨rfl, rfl⟩ := Prod.mk.inj (Option.some.inj h)
        refine ⟨fun kept hk => ?_, fun _ => targets_kept rfl⟩
        obtain rfl := Option.some.inj hk
        exact hold
      · rename_i hnone
        obtain ⟨rfl, rfl⟩ := Prod.mk.inj (Option.some.inj h)
        have hself : Function.update w.symlinks slot (some target) slot = some target :=
          Function.update_self ..
        have hgrow : SlotsGrow w
            { w with symlinks := Function.update w.symlinks slot (some target) } := by
          intro slot' target' hs
          have hne : slot' ≠ slot := by
            rintro rfl
            exact absurd (hs.symm.trans hnone) (by simp)
          exact (Function.update_of_ne hne ..).trans hs
        refine ⟨fun kept hk => ?_, fun htarget hi => ⟨?_, hgrow, fun _ _ => hgrow⟩⟩
        · obtain rfl := Option.some.inj hk
          exact hself
        · intro slot' target' hs
          by_cases heq : slot' = slot
          · subst heq
            obtain rfl := Option.some.inj (hself.symm.trans hs)
            exact htarget hroom
          · exact hi slot' target' ((Function.update_of_ne heq ..).symm.trans hs)
    · obtain ⟨rfl, rfl⟩ := Prod.mk.inj (Option.some.inj h)
      exact ⟨fun kept hk => absurd hk (by simp), fun _ => targets_kept rfl⟩
  · exact hf.elim

end Ops

/-! ## Calls -/

variable (K M) in
/-- The protocol of the mount, slots included. -/
abbrev linkProtocol : Lib.Protocol τ (World τ δ ζ) := (keptProtocol K M).plus (targets K M)

variable (M) in
/-- What each call promises about targets. -/
def LinkOk (_ : τ) (call : Call) (w₀ : World τ δ ζ) (reply : Reply) (w : World τ δ ζ) : Prop :=
  match call with
  | .readlink ino =>
      (∀ target, reply = .data target → ∃ n m, SymlinkAt M ino n m ∧
        w.symlinks m.symlinkSlot = some target) ∧
      ∀ n m target, SymlinkAt M ino n m → w₀.symlinks m.symlinkSlot = some target →
        reply = .data target
  | _ => True

section Calls

variable [DecidableEq τ] {t : τ} {α : Type}

/-- Nothing below the calls touches a slot. -/
theorem Safe.inward {p : Act δ ζ α} {Q : α → World τ δ ζ → Prop} {w : World τ δ ζ}
    (h : Safe (keptProtocol K M) (execKept K M) t Q p w)
    (hp : (Lib.always Op.Inward).Accepts p) :
    Safe (linkProtocol K M) (execKept K M) t Q p w := by
  refine Lib.Safe.plus h hp fun o w r w' ho he => targets_kept (symlinks_same ?_ he.1)
  rintro slot target rfl
  exact ho

/-- One operation that needs nothing of the mount. -/
theorem safe_linkOp {o : Op δ ζ} {Q : Res o → World τ δ ζ → Prop} {w : World τ δ ζ}
    (hok : ∀ w, OpOk True False K M t w o)
    (hkept : ∀ w r w', exec K M t o w r w' → (targets K M).Kept t w w')
    (hq : ∀ w₁ r w₂ w₃, (linkProtocol K M).rely t w w₁ → (linkProtocol K M).inv w₁ →
      exec K M t o w₁ r w₂ → (linkProtocol K M).rely t w₂ w₃ → Q r w₃) :
    Safe (linkProtocol K M) (execKept K M) t Q (.op o .ret) w := by
  intro w₁ h₁ hi r w₂ he
  obtain ⟨hi₂, hg, hu⟩ := (hkept w₁ r w₂ he.1).plus (exec_kept (hok w₁) he) hi
  exact ⟨hi₂, hg, hu, fun w₃ h₃ _ => hq w₁ r w₂ w₃ h₁ hi he.1 h₃⟩

/-- A target that is not cached is read as a whole, and cached unless another thread was first. -/
theorem safe_uncached {w : World τ δ ζ} (hi : (linkProtocol K M).inv w) {ino : Nat}
    {n : Node} {m : EntryMeta} (hat : SymlinkAt M ino n m) :
    Safe (linkProtocol K M) (execKept K M) t
      (fun r w' => ∀ target, r = .data target → w'.symlinks m.symlinkSlot = some target) (do
        Act.note .targetMissing
        match ← Fs.readAll K M n.metaIdx m MAX_SYMLINK with
        | .ok target =>
            match ← Act.setSymlink m.symlinkSlot target with
            | some target => pure (.data target)
            | none => pure (.error EIO)
        | .error e =>
            let errno ← Fs.diagnose M e
            pure (.error errno) : Act δ ζ Reply) w := by
  have hp := inward_permits (M := M) fun (o : Op δ ζ) ho => ho
  have hlocates := hp.weaken fun _ (ho : Op.Locates _) => Op.Locates.inner (F := fun _ => True) ho
  have hd : (Lib.always Op.Inward).Accepts (Act.note .diagnosing : Act δ ζ Unit) :=
    Lib.always_op trivial
  have hnote : Does True False K M (Anywhere (τ := τ)) (Act.note .targetMissing) fun _ => True :=
    meets_note fun _ => trivial
  refine Safe.bind hi ((Safe.inward (hnote.kept t w hi.1 trivial)
    (Lib.always_op trivial)).mono ?_)
  intro _ w₁ hi₁ _
  refine Safe.bind hi₁ ((Safe.inward (readAll_whole (index_meta hat.entry) MAX_SYMLINK
    t w₁ hi₁.1 trivial) (inner_readAll hp _ _ _)).mono ?_)
  intro got w₂ hi₂ hgot
  cases got with
  | error e =>
      have hdiagnose : Does True False K M (Anywhere (τ := τ)) (Fs.diagnose M e) fun _ => True :=
        (diagnose_does e).mono fun _ _ => trivial
      refine Safe.bind hi₂ ((Safe.inward (hdiagnose.kept t w₂ hi₂.1 trivial)
        (accepts_diagnose hlocates hd e)).mono ?_)
      exact fun errno w₃ _ _ => .ret fun _ _ _ target h => absurd h (by simp)
  | ok target =>
      obtain ⟨hshort, hwhole⟩ := hgot target rfl
      refine Safe.bind hi₂ ((safe_linkOp (o := .setSymlink m.symlinkSlot target)
        (Q := fun (kept : Option Bytes) w' => ∀ target, kept = some target →
          w'.symlinks m.symlinkSlot = some target) (fun _ => trivial) ?_ ?_).mono ?_)
      · intro w₃ r w₄ he
        exact (setSymlink_spec he).2 fun hroom => ⟨hroom, ino, n, m, rfl, hat, hshort, hwhole⟩
      · intro w₃ r w₄ w₅ _ _ he h₅ kept hk
        exact h₅.2 _ _ ((setSymlink_spec he).1 kept hk)
      · intro (kept : Option Bytes) w₃ _ hkept
        cases kept with
        | none => exact .ret fun _ _ _ target h => absurd h (by simp)
        | some target =>
            refine .ret fun w₄ h₄ _ target' heq => ?_
            obtain rfl := Reply.data.inj heq
            exact h₄.2 _ _ (hkept _ rfl)

/-- **`readlink`** answers from the slot of its symlink. -/
theorem safe_readlink {w : World τ δ ζ} (hi : (linkProtocol K M).inv w)
    (ino : Nat) :
    Safe (linkProtocol K M) (execKept K M) t (LinkOk M t (.readlink ino) w)
      (Fs.readlink K M ino) w := by
  -- an inode that is no symlink has no slot
  have hnot : ∀ errno, (∀ n m, ¬ SymlinkAt M ino n m) → Safe (linkProtocol K M) (execKept K M) t
      (LinkOk M t (.readlink ino) w) (pure (.error errno) : Act δ ζ Reply) w := by
    intro errno hno
    exact .ret fun _ _ _ => ⟨fun _ h => absurd h (by simp), fun n m _ h => absurd h (hno n m)⟩
  unfold Fs.readlink
  cases hnode : M.index.node ino with
  | none => exact hnot _ fun n m h => absurd (hnode.symm.trans h.found) (by simp)
  | some node =>
      have hsame : ∀ n m, SymlinkAt M ino n m → n = node :=
        fun n m h => Option.some.inj (h.found.symm.trans hnode)
      dsimp only
      split
      · rename_i hkind
        exact hnot _ fun n m h => hkind (hsame n m h ▸ h.kind)
      rename_i hkind
      cases hm : M.index.metaOf node with
      | none =>
          refine hnot _ fun n m h => ?_
          obtain rfl := hsame n m h
          exact absurd (hm.symm.trans h.entry) (by simp)
      | some m =>
          have hat : SymlinkAt M ino node m := ⟨hnode, not_not.mp hkind, hm⟩
          have honly : ∀ n m', SymlinkAt M ino n m' → m' = m := by
            intro n m' h
            obtain rfl := hsame n m' h
            exact Option.some.inj (h.entry.symm.trans hm)
          refine Safe.bind hi ((safe_linkOp (o := .getSymlink m.symlinkSlot)
            (Q := fun (found : Option Bytes) w' =>
              (∀ target, found = some target → w'.symlinks m.symlinkSlot = some target) ∧
              ∀ target, w.symlinks m.symlinkSlot = some target → found = some target)
            (fun _ => trivial) (fun _ _ _ he => targets_kept (symlinks_same (by simp) he))
            ?_).mono ?_)
          · intro w₁ (found : Option Bytes) w₂ w₃ h₁ hi₁ he h₃
            obtain ⟨rfl, hfound⟩ := getSymlink_spec he
            refine ⟨fun target h => ?_, fun target h => ?_⟩
            · rw [h] at hfound
              split at hfound
              · exact h₃.2 _ _ hfound.symm
              · exact absurd hfound (by simp)
            · have hs := h₁.2 _ _ h
              rw [if_pos (hi₁.2 _ _ hs).1] at hfound
              exact hfound.trans hs
          · intro (found : Option Bytes) w₁ hi₁ h
            obtain ⟨hfound, hcached⟩ := h
            cases found with
            | some target =>
                refine .ret fun w₂ h₂ _ => ⟨fun target' heq => ?_, fun n m' target' h hs => ?_⟩
                · obtain rfl := Reply.data.inj heq
                  exact ⟨node, m, hat, h₂.2 _ _ (hfound _ rfl)⟩
                · rw [honly n m' h] at hs
                  rw [Option.some.inj (hcached target' hs)]
            | none =>
                refine (safe_uncached hi₁ hat).mono ?_
                intro r w₂ _ hr
                refine ⟨fun target h => ⟨node, m, hat, hr target h⟩, fun n m' target h hs => ?_⟩
                rw [honly n m' h] at hs
                exact absurd (hcached target hs) (by simp)

/-- Every call keeps the slots. -/
theorem link_respects :
    Lib.Respects (keptMount τ K M) (linkProtocol K M) (LinkOk M) := by
  have hbase : Lib.Respects (keptMount τ K M) (keptProtocol K M) (Served True False K M) :=
    kept_respects
  refine hbase.plus (fun t call w => targets_kept rfl) ?_ ?_
  · intro w w' h hi
    have hsame : w'.symlinks = w.symlinks := by
      cases h with
      | touch | write | path => rfl
    have hgrow : SlotsGrow w w' := fun slot target hs => (congrFun hsame slot).trans hs
    refine ⟨fun slot target hs => ?_, hgrow, fun _ => hgrow⟩
    exact hi slot target ((congrFun hsame slot).symm.trans hs)
  · intro t call w hi
    have hkept : (targets K M).Kept t w (arrive t call w) := targets_kept rfl
    have hi' := (hkept.plus (hbase.arrive t call w) hi).1
    cases call with
    | readlink ino => exact safe_readlink hi' ino
    | openFile | read | release | readAt | readExactAt =>
        refine (Lib.Safe.plus (hbase.calls t _ w hi.1) (prog_performs K M _)
          fun o w r w' ho he => targets_kept (symlinks_same ?_ he.1)).mono fun _ _ _ _ => trivial
        rintro slot target rfl
        obtain ⟨ino, h⟩ := ho
        exact absurd h (by simp)

/-! ## Whole runs -/

omit [DecidableEq τ] in
theorem start_targets (path : Option Stamp) :
    (linkProtocol K M).inv (World.start (τ := τ) M path) :=
  ⟨⟨start_inv path, trivial⟩, fun _ _ h => absurd h (by simp [World.start])⟩

omit [DecidableEq τ] in
/-- What an answered `readlink` has found, or left, in the slot of its symlink. -/
theorem readlink_slot {S : Lib.System τ (World τ δ ζ) Call Reply (@Res δ ζ)}
    {c : Lib.Config τ (World τ δ ζ) Call Reply (@Res δ ζ)}
    (hg : Lib.Good S (linkProtocol K M) (LinkOk M) c)
    {e : Lib.Event τ (World τ δ ζ) Call Reply} (he : e ∈ c.history) {ino : Nat} {target : Bytes}
    (hcall : e.call = .readlink ino) (hreply : e.reply = .data target) :
    ∃ n m, SymlinkAt M ino n m ∧ c.world.symlinks m.symlinkSlot = some target := by
  have hq := hg.history e he
  unfold LinkOk at hq
  rw [hcall] at hq
  obtain ⟨n, m, hat, hs⟩ := hq.1 target hreply
  exact ⟨n, m, hat, (hg.past e he).2 _ _ hs⟩

theorem SymlinkAt.unique {ino : Nat} {n n' : Node} {m m' : EntryMeta} (h : SymlinkAt M ino n m)
    (h' : SymlinkAt M ino n' m') : n = n' ∧ m = m' := by
  obtain rfl := Option.some.inj (h.found.symm.trans h'.found)
  exact ⟨rfl, Option.some.inj (h.entry.symm.trans h'.entry)⟩

omit [DecidableEq τ] in
/-- What an answered `readlink` was given is the entry of its inode. -/
theorem readlink_target (hidx : M.index.Ok)
    {S : Lib.System τ (World τ δ ζ) Call Reply (@Res δ ζ)}
    {c : Lib.Config τ (World τ δ ζ) Call Reply (@Res δ ζ)}
    (hg : Lib.Good S (linkProtocol K M) (LinkOk M) c)
    {e : Lib.Event τ (World τ δ ζ) Call Reply} (he : e ∈ c.history) {ino : Nat} {target : Bytes}
    (hcall : e.call = .readlink ino) (hreply : e.reply = .data target) :
    ∃ n m, TargetOf K M ino n m target := by
  obtain ⟨n, m, hat, hs⟩ := readlink_slot hg he hcall hreply
  obtain ⟨-, ino', n', m', hslot, htarget⟩ := hg.inv.2 _ _ hs
  -- no other symlink has this slot
  obtain rfl := hidx.slots_inj ino' ino n' n m' m htarget.symlink.found hat.found
    htarget.symlink.kind hat.kind htarget.symlink.entry hat.entry hslot
  exact ⟨n', m', htarget⟩

/--
**A symlink has one target.** In every run of a mount whose archive is changed only by
writers that show what they do: what `readlink` is answered with is the entry of its inode
as a whole, with the recorded checksum if entries are verified, and never longer than a
path can be. No two answers for one inode differ, whichever threads read the target at the
same time. And once a target has been given, every `readlink` of that inode that is called
afterwards gives it too, even when the archive is gone or has changed.

That a target is the entry as a whole takes, where the entry is compressed, codecs that keep
their contract; of other codecs it is still made of what they produced that were never fed
anything but mounted bytes. What earlier reads have done to their decoders does not matter.
-/
theorem readlink_stable {hint : Nat} {entries : List Entry} {stats : BuildStats}
    (hlen : entries.length < 2 ^ 32 - 1) (hbuild : build hint entries = .ok (M.index, stats))
    {path : Option Stamp} {c : Lib.Config τ (World τ δ ζ) Call Reply (@Res δ ζ)}
    (h : MountRun K M path c) :
    (∀ e ∈ c.history, ∀ ino target, e.call = .readlink ino → e.reply = .data target →
      ∃ n m loc, SymlinkAt M ino n m ∧ m.uncompressedSize ≤ MAX_SYMLINK ∧
        LocationOk M n.metaIdx m loc ∧
        (K.Lawful ∨ loc.method = .store → WholeAt K M m loc target) ∧
        (loc.method ≠ .store → K.Blind →
          target.length = m.uncompressedSize ∧ Made K M target)) ∧
    (∀ e ∈ c.history, ∀ e' ∈ c.history, ∀ ino target target', e.call = .readlink ino →
      e.reply = .data target → e'.call = .readlink ino → e'.reply = .data target' →
        target = target') ∧
    (∀ e ∈ c.history, ∀ ino target, e.call = .readlink ino → e.reply = .data target →
      ∀ c' e', Lib.Steps (mountSystem K M (Writer M)) c c' → CalledBetween c c' e' →
        e'.call = .readlink ino → e'.reply = .data target) := by
  have hidx : M.index.Ok := by
    obtain ⟨b, order, hbuilt⟩ := (build_spec hint entries).elim hbuild
    exact hbuilt.finished.index_ok hbuilt.ok (hbuilt.room hlen)
  have hr := link_respects (τ := τ) (K := K) (M := M)
  have hw := start_targets (τ := τ) (K := K) (M := M) path
  have hg := Lib.sound hr hw h.kept
  refine ⟨?_, ?_, ?_⟩
  · intro e he ino target hcall hreply
    obtain ⟨n, m, hat, hshort, loc, htarget⟩ := readlink_target hidx hg he hcall hreply
    exact ⟨n, m, loc, hat, hshort, htarget.location, htarget.whole, htarget.made⟩
  · intro e he e' he' ino target target' hcall hreply hcall' hreply'
    obtain ⟨n, m, hat, hs⟩ := readlink_slot hg he hcall hreply
    obtain ⟨n', m', hat', hs'⟩ := readlink_slot hg he' hcall' hreply'
    obtain ⟨-, rfl⟩ := hat.unique hat'
    exact Option.some.inj (hs.symm.trans hs')
  · intro e he ino target hcall hreply c' e' hsteps hb hcall'
    obtain ⟨n, m, hat, hs⟩ := readlink_slot hg he hcall hreply
    have hkept := steps_kept h hsteps
    have hstart := (hb.grow hr hw h.kept hkept).2 _ _ hs
    have hq := (Lib.sound hr hw (h.kept.steps hkept)).history e' hb.mem
    unfold LinkOk at hq
    rw [hcall'] at hq
    exact hq.2 n m target hat hstart

/-- The entry of the sample, with the mode of a symlink. -/
def Sample.linkEntries : List Entry :=
  [⟨[0x66], false, { Sample.entry 1 Sample.checksum with mode := 0o120777 }⟩]

/-- The archive of the sample, with what is built from that entry. -/
def Sample.linked : Mount :=
  { Sample.mount 1 Sample.checksum with
    index := ((build 1 Sample.linkEntries).toOption.map Prod.fst).getD (Sample.index 1 0) }

/-- The symlink of the sample leads to `a`. -/
theorem readlink_stable_sample :
    ∃ c : Lib.Config Unit (World Unit Sample.Inflater Unit) Call Reply (@Res Sample.Inflater Unit),
      MountRun Sample.codecs Sample.linked none c ∧
      ∃ n m loc, SymlinkAt Sample.linked 2 n m ∧ LocationOk Sample.linked n.metaIdx m loc ∧
        WholeAt Sample.codecs Sample.linked m loc [0x61] := by
  have hbuilds : (build 1 Sample.linkEntries).toOption.map (fun _ => ()) = some () := by
    decide +kernel
  obtain ⟨⟨idx, stats⟩, hb, -⟩ := exists_ok_of_map hbuilds
  have hidx : Sample.linked.index = idx := by
    unfold Sample.linked
    rw [hb]
    rfl
  have hserve : (Lib.runCalls (mountSystem (τ := Unit) Sample.codecs Sample.linked
      (Writer Sample.linked))
      (det Sample.codecs Sample.linked ()) () [.readlink 2]
      (World.start Sample.linked none)).map (·.1) = some [.data [0x61]] := by decide +kernel
  obtain ⟨⟨as, w⟩, hrun, has⟩ := Option.map_eq_some_iff.mp hserve
  obtain rfl : as = [.data [0x61]] := has
  obtain ⟨c, hc, -, -, -, hall⟩ :=
    Lib.reachable_runCalls (fun _ _ _ _ h => Or.inl h) Lib.Reachable.init rfl hrun
  obtain ⟨e, he, hcall, hreply⟩ := hall (.readlink 2, .data [0x61]) (by simp)
  rw [← hidx] at hb
  obtain ⟨hwhole, -, -⟩ := readlink_stable (by decide) hb hc
  obtain ⟨n, m, loc, hat, -, hloc, htarget, -⟩ := hwhole e he 2 [0x61] hcall hreply
  exact ⟨c, hc, n, m, loc, hat, hloc, htarget (.inl Sample.codecs_lawful)⟩

end Calls

end ZipFs
