import ZipFs.Lib.Extend
import ZipFs.Mount.FsProof
import ZipFs.Mount.Waits

/-!
# Pools of one's own

A whole entry is read through a pool that is made for this one read. No other thread knows
of that pool, so it is empty when the read asks it for a decoder, and the decoder is a new
one. What such a read returns does not depend on what other reads have left in the pools of
open files, and so not on a codec that has failed before.

That nobody touches a pool that another thread keeps is a matter of the discipline of the
mount. A run can therefore be followed under one more condition on its steps, and under
that condition a thread may rely on its own pools.
-/

namespace ZipFs

open Lib (Safe Meets lasting_true)

variable {τ δ ζ : Type}

/-! ## Steps that keep off other threads' pools -/

/-- The operation is on no pool that another thread keeps. -/
def Op.KeepsOff (t : τ) (w : World τ δ ζ) : Op δ ζ → Prop
  | .pick id _ | .lockIdle id | .pushIdle id _ | .unlockIdle id | .takeIdle id => PoolOpen t id w
  | _ => True

theorem MayDo.keepsOff {H : Prop} {t : τ} {w : World τ δ ζ} {held : Set Lock} {o : Op δ ζ}
    (h : MayDo H t w held o) : o.KeepsOff t w := by
  cases o with
  | pick _ _ | lockIdle _ | pushIdle _ _ | unlockIdle _ | takeIdle _ => exact h.2
  | _ => trivial

variable [DecidableEq τ] {K : Codecs δ ζ} {M : Mount} {t : τ} {w w' : World τ δ ζ}

variable (τ K M) in
/-- The runs of the mount in which nobody touches a pool that another thread keeps. -/
abbrev keptMount : Lib.System τ (World τ δ ζ) Call Reply (@Res δ ζ) :=
  (mountSystem K M (Writer M)).only fun t o w _ => o.KeepsOff t w

/-- **These are all its runs.** -/
theorem steps_kept {path : Option Stamp}
    {c c' : Lib.Config τ (World τ δ ζ) Call Reply (@Res δ ζ)} (hc : MountRun K M path c)
    (h : Lib.Steps (mountSystem K M (Writer M)) c c') : Lib.Steps (keptMount τ K M) c c' := by
  refine Lib.Steps.only ?_ hc h
  intro c₁ hreach t call start o r w' k hsome _
  have hmay : MayDo True t c₁.world (locksOf t c₁.world) o :=
    Lib.disciplined_op mount_respects (locks_kept (.inl trivial)) (start_inv path)
      (start_unlocked path) hreach hsome
  exact hmay.keepsOff

theorem MountRun.kept {path : Option Stamp}
    {c : Lib.Config τ (World τ δ ζ) Call Reply (@Res δ ζ)} (h : MountRun K M path c) :
    Lib.Reachable (keptMount τ K M) (World.start M path) c :=
  Lib.Reachable.init.steps (steps_kept .init h.from_init)

/-! ## What a thread may rely on -/

/-- The pools that a thread keeps are left as they are. -/
def ownPools : Lib.Protocol τ (World τ δ ζ) where
  inv _ := True
  rely t w w' := ∀ (id : Nat) cell, w.pools[id]? = some cell → cell.keeper = some t →
    w'.pools[id]? = some cell
  grow _ _ := True
  rely_refl _ _ _ _ h _ := h
  rely_trans _ _ _ _ h h' id cell hcell hk := h' id cell (h id cell hcell hk) hk
  grow_refl _ := trivial
  grow_trans _ _ _ _ _ := trivial
  grow_of_rely _ _ _ _ := trivial

omit [DecidableEq τ] in
theorem ownPools_same (h : w'.pools = w.pools) : ownPools.Kept t w w' := by
  refine fun _ => ⟨trivial, trivial, fun u _ id cell hcell _ => ?_⟩
  rw [h]
  exact hcell

omit [DecidableEq τ] in
/-- A pool that is open to a thread is not one that another thread keeps. -/
theorem ownPools_setPool {id : Nat} (hopen : PoolOpen t id w) (cell' : PoolCell τ δ ζ)
    (hw : w'.pools = (w.setPool id cell').pools) : ownPools.Kept t w w' := by
  refine fun _ => ⟨trivial, trivial, fun u hu id' cell hcell hk => ?_⟩
  have hne : id' ≠ id := by
    rintro rfl
    rcases hopen with ⟨cell₁, hcell₁, hk₁⟩ | ⟨cell₁, hcell₁, hk₁⟩
    · obtain rfl := Option.some.inj (hcell.symm.trans hcell₁)
      exact absurd (hk.symm.trans hk₁) (by simp)
    · obtain rfl := Option.some.inj (hcell.symm.trans hcell₁)
      exact hu (Option.some.inj (hk.symm.trans hk₁))
  rw [hw, World.setPool_ne w hne]
  exact hcell

/-- **A step that keeps off other threads' pools** leaves them as they are. -/
theorem exec_ownPools {o : Op δ ζ} {r : Res o} (hoff : o.KeepsOff t w)
    (h : exec K M t o w r w') : ownPools.Kept t w w' := by
  rcases h with h | ⟨-, rfl⟩
  swap
  · exact ownPools_same rfl
  cases o with
  | newPool loc cap i kept =>
      obtain rfl := (Prod.mk.inj (Option.some.inj h)).2
      refine fun _ => ⟨trivial, trivial, fun u _ id cell hcell _ => ?_⟩
      exact (List.getElem?_append_left (List.getElem?_eq_some_iff.mp hcell).1).trans hcell
  | halt => exact absurd h (by simp [det])
  | pick id offset =>
      simp only [det] at h
      split at h
      · split at h
        · exact absurd h (by simp)
        · split at h
          · obtain rfl := (Prod.mk.inj (Option.some.inj h)).2
            exact ownPools_setPool hoff _ rfl
          · obtain rfl := (Prod.mk.inj (Option.some.inj h)).2
            exact ownPools_same rfl
      · exact absurd h (by simp)
  | lockIdle id | pushIdle id _ | unlockIdle id | takeIdle id =>
      simp only [det] at h
      repeat' split at h
      all_goals first
        | (obtain rfl := (Prod.mk.inj (Option.some.inj h)).2
           exact ownPools_setPool hoff _ rfl)
        | exact absurd h (by simp)
  | cell _ | short | fstat | loadStale | swapStale | loadUnsure | swapUnsure _
  | loadDataStart _ | storeDataStart _ _ | loadVerify _ | storeVerify _ _ | getSymlink _
  | nextHandle | insertHandle _ _ | newStore _ _ | releaseRetain | takeCore _
  | recycleCore _ | getScratch | putScratch _ | note _ =>
      obtain rfl := (Prod.mk.inj (Option.some.inj h)).2
      exact ownPools_same rfl
  | _ =>
      simp only [det] at h
      repeat' split at h
      all_goals first
        | (obtain rfl := (Prod.mk.inj (Option.some.inj h)).2
           exact ownPools_same rfl)
        | cases h

variable (K M) in
/-- The protocol of the mount, with what a thread may rely on besides. -/
abbrev keptProtocol : Lib.Protocol τ (World τ δ ζ) := (mountProtocol True False K M).plus ownPools

variable (K M) in
/-- One step of a thread that keeps off other threads' pools. -/
abbrev execKept : τ → (o : Op δ ζ) → World τ δ ζ → Res o → World τ δ ζ → Prop :=
  (keptMount τ K M).exec

/-- What is safe in the mount is safe there. -/
theorem Safe.kept {α : Type} {p : Act δ ζ α} {Q : α → World τ δ ζ → Prop}
    (h : Safe (mountProtocol True False K M) (execIf True False K M) t Q p w) :
    Safe (keptProtocol K M) (execKept K M) t Q p w := by
  have hexec : Safe (mountProtocol True False K M) (execKept K M) t Q p w :=
    h.restrict fun _ _ r _ he => ⟨he.1, .anyhow r, False.elim⟩
  exact hexec.plus p.always_true fun _ _ _ _ _ he => exec_ownPools he.2 he.1

theorem Does.kept {α : Type} {I : World τ δ ζ → Prop} {p : Act δ ζ α} {Q : α → Prop}
    (h : Does True False K M I p Q) : Meets (keptProtocol K M) (execKept K M) I p Q :=
  fun t w hi hI => Safe.kept (h t w hi.1 hI)

/-- Every call respects it. -/
theorem kept_respects :
    Lib.Respects (keptMount τ K M) (keptProtocol K M) (Served True False K M) where
  arrive t call w hi := by
    have hown : ownPools.Kept t w (arrive t call w) := ownPools_same rfl
    exact hown.plus (P := mountProtocol True False K M) (arrive_keeps t call) hi
  env w w' h hi := by
    obtain ⟨hi', hg, ho⟩ := writer_keeps hi.1 h
    refine ⟨⟨hi', trivial⟩, ⟨hg, trivial⟩, fun u => ⟨ho u, ?_⟩⟩
    cases h with
    | touch | write | path => exact ownPools.rely_refl u _
  calls t call _ hi :=
    Safe.kept ((safe_call False.elim t call (arrive_keeps t call hi.1).1).mono
      fun _ _ hi' h => ⟨h, hi'⟩)

/-! ## One read through a pool of one's own -/

/-- The pool is as thread `t` has made it. -/
def PoolFresh (t : τ) (pool : EntryPool) (i : Nat) (w : World τ δ ζ) : Prop :=
  w.pools[pool.id]? = some ⟨[], none, pool.loc, pool.perHandleCap, i, some t⟩

variable (K M) in
/-- What one read at offset zero delivers: of a codec that keeps its contract the first bytes of the
entry's stream, and of any codec bytes that it was never told. -/
structure OnceRead (loc : EntryLocation) (m : EntryMeta) (out : Bytes)
    (x : Bytes × Except IoError Nat) : Prop where
  good : K.Lawful → x.1.length = out.length ∧ ∀ n, x.2 = .ok n →
    Delivered K M loc m 0 out.length n ∧ x.1.take n = (loc.stream K M).bytes.take n
  made : K.Blind → MadeInto K M out x

section ReadOnce

variable {i : Nat} {m : EntryMeta} {loc : EntryLocation} {pool : EntryPool}

/-- A step does what its operation may, and keeps off other threads' pools. -/
theorem exec_kept {o : Op δ ζ} {r : Res o} (hok : OpOk True False K M t w o)
    (h : execKept K M t o w r w') : (keptProtocol K M).Kept t w w' := by
  have hown : ownPools.Kept t w w' := exec_ownPools h.2 h.1
  exact hown.plus (P := mountProtocol True False K M) fun hi => exec_keeps hi hok h.1

/-- One operation, among threads that keep off one's pools. -/
theorem safe_keptOp {o : Op δ ζ} {Q : Res o → World τ δ ζ → Prop}
    (hok : ∀ w₁, OpOk True False K M t w₁ o)
    (hq : ∀ w₁ r w₂ w₃, (keptProtocol K M).rely t w w₁ → exec K M t o w₁ r w₂ →
      (keptProtocol K M).rely t w₂ w₃ → Q r w₃) :
    Safe (keptProtocol K M) (execKept K M) t Q (.op o .ret) w := by
  intro w₁ h₁ hi r w₂ he
  obtain ⟨hi₂, hg, hu⟩ := exec_kept (hok w₁) he hi
  exact ⟨hi₂, hg, hu, fun w₃ h₃ _ => hq w₁ r w₂ w₃ h₁ he.1 h₃⟩

/-- A new pool is empty, and stays so until its thread puts something in. -/
theorem safe_freshPool (hi : (keptProtocol K M).inv w) (cap : Nat) (hcoded : loc.method ≠ .store)
    (hloc : LocationOk M i m loc) :
    Safe (keptProtocol K M) (execKept K M) t (fun pool w' => pool.loc = loc ∧ PoolFresh t pool i w')
      (EntryPool.new loc cap i true) w := by
  have hnew : Safe (keptProtocol K M) (execKept K M) t
      (fun (id : Nat) w' => PoolFresh t ⟨id, cap, loc⟩ i w')
      (Act.newPool loc cap i true : Act δ ζ _) w := by
    refine safe_keptOp (o := .newPool loc cap i true) (fun _ => ⟨hcoded, m, hloc⟩) ?_
    intro w₁ r w₂ w₃ _ he h₃
    rcases he with he | ⟨he, -⟩
    swap
    · exact he.elim
    obtain ⟨rfl, rfl⟩ := Prod.mk.inj (Option.some.inj he)
    exact h₃.2 _ _ List.getElem?_concat_length rfl
  refine Safe.bind hi (hnew.mono ?_)
  intro id w₁ hi₁ hfresh
  exact .ret fun w₂ h₂ _ => ⟨rfl, h₂.2 _ _ hfresh rfl⟩

/-- **A checkout from a pool that nobody else knows is a new decoder.** -/
theorem safe_freshCheckout (hi : (keptProtocol K M).inv w) (hfresh : PoolFresh t pool i w)
    (total offset : Nat) :
    Safe (keptProtocol K M) (execKept K M) t (fun d _ => LentOk True K M pool.loc total offset d)
      (pool.checkout K M offset) w := by
  have hpick : Safe (keptProtocol K M) (execKept K M) t
      (fun (r : Option (PositionedDecoder δ ζ × Bool)) _ => r = none)
      (Act.pick pool.id offset) w := by
    refine safe_keptOp (o := .pick pool.id offset) (fun _ => trivial) ?_
    intro w₁ r w₂ w₃ h₁ he _
    rcases he with he | ⟨he, -⟩
    swap
    · exact he.elim
    have hcell : w₁.pools[pool.id]? = _ := h₁.2 _ _ hfresh rfl
    simp only [det, hcell] at he
    exact (Prod.mk.inj (Option.some.inj he)).1.symm
  unfold EntryPool.checkout
  refine Safe.bind hi (hpick.mono ?_)
  intro picked w₁ hi₁ hnone
  subst hnone
  have htake : Does True False K M (Anywhere (τ := τ)) (Act.takeCore pool.loc.method)
      (PartsOk K M pool.loc.method) := takeCore_does pool.loc.method
  refine Safe.bind hi₁ ((htake.kept t w₁ hi₁ trivial).mono ?_)
  intro parts w₂ _ hparts
  exact .ret fun _ _ _ => ⟨.new hparts, Nat.zero_le _, fun _ => rfl⟩

/-- Reading with a new decoder, which is then dropped with its pool. -/
theorem freshRead_does (hloc : LocationOk M i m pool.loc) (hcoded : pool.loc.method ≠ .store)
    {d : PositionedDecoder δ ζ} (hd : LentOk True K M pool.loc m.uncompressedSize 0 d)
    (out : Bytes) :
    Does True False K M (PoolFor (τ := τ) pool i) (do
      let (d, out, r) ← d.readAt K M 0 out i m
      pool.giveBack d
      pool.drop
      pure (out, r)) (OnceRead K M pool.loc m out) := by
  have hver : d.verified = true → m.uncompressedSize = 0 := by
    intro hv
    have := hd.shape.verified hv
    have := hd.pos
    omega
  have hnot : ¬ (False ∨ m.method = some .store) := by
    rw [hloc.method]
    rintro (h | h)
    · exact h
    · exact hcoded (Option.some.inj h)
  have hkeeps : Does True False K M (Anywhere (τ := τ)) (d.readAt K M 0 out i m) fun x =>
      DecoderShape K M pool.loc m.uncompressedSize x.1 ∧ (K.Blind → MadeInto K M out x.2) :=
    decoderReadAt_keeps hloc.entry hnot hd.shape hd.pos hver out
  have hread : Does True False K M (Anywhere (τ := τ)) (d.readAt K M 0 out i m) fun x =>
      DecoderShape K M pool.loc m.uncompressedSize x.1 ∧ OnceRead K M pool.loc m out x.2 := by
    by_cases hK : K.Lawful
    · intro t w hi hI
      refine ((hkeeps t w hi hI).and (decoderReadAt_does hK hloc (hd.good trivial)
        (hd.sound trivial) hd.pos hver out t w hi hI)).mono ?_
      intro x _ _ h
      obtain ⟨⟨hshape, hmade⟩, hok⟩ := h
      exact ⟨hshape, fun _ => ⟨hok.room, fun n hn => ⟨hok.delivered n hn, hok.bytes n hn⟩⟩, hmade⟩
    · exact hkeeps.mono fun x h => ⟨h.1, fun h => absurd h hK, h.2⟩
  have hlp := lasting_poolFor (τ := τ) (B := True) (G := False) (K := K) (M := M) pool i
  refine Meets.bind hlp hread.anywhere ?_
  intro x hx
  obtain ⟨d', got, r⟩ := x
  obtain ⟨hshape, honce⟩ := hx
  refine Meets.bind hlp (giveBack_does hloc ⟨hshape, False.elim⟩) fun _ _ => ?_
  exact Meets.bind hlp (drop_does hlp pool) fun _ _ => .pure honce

/-- **`read_once` does not depend on the pools of others.** -/
theorem readOnce_delivers (hloc : LocationOk M i m loc) (hcoded : loc.method ≠ .store)
    (out : Bytes) :
    Meets (keptProtocol K M) (execKept K M) (Anywhere (τ := τ)) (Fs.readOnce K M loc out i m)
      (OnceRead K M loc m out) := by
  intro t w hi _
  unfold Fs.readOnce
  refine Safe.bind hi ((safe_freshPool hi 1 hcoded hloc).mono ?_)
  intro pool w₁ hi₁ h
  obtain ⟨rfl, hfresh⟩ := h
  have hfor : (keptProtocol K M).Lasting (PoolFor (τ := τ) pool i) :=
    fun _ _ hg h => hg.1.pools pool i h
  refine Safe.bind hi₁ (((safe_freshCheckout hi₁ hfresh m.uncompressedSize 0).lasting hfor
    ⟨_, hfresh, rfl, rfl⟩).mono ?_)
  intro d w₂ hi₂ h
  exact (freshRead_does hloc hcoded h.1 out).kept t w₂ hi₂ h.2

end ReadOnce

end ZipFs
