import ZipFs.Lib.Extend
import ZipFs.Lib.Order
import ZipFs.Mount.Calls
import ZipFs.Mount.Stale

/-!
# The table of handles

A handle is drawn from a counter and put into the table in two steps, between which other
threads may draw, look up and take out handles of their own. What the kernel relies on is
stated over whole runs: no two opens get the same handle, zero is nobody's, a handle works
from the reply that gave it to the call that releases it, and never again after that.

None of this depends on the archive, so it may change in any way, nor on what rawzip and
the codecs do.
-/

namespace ZipFs

open Lib (Safe Logic CalledBetween)

variable {τ δ ζ : Type}

/-! ## The protocol of the table -/

/-- What holds of the table. -/
structure TableOk (w : World τ δ ζ) : Prop where
  fresh : ∀ fh, w.next ≤ fh → w.files fh = none ∧ w.minted fh = none
  /-- Zero is what the kernel sends for a handle that was never set. -/
  zero : w.files 0 = none ∧ w.minted 0 = none ∧ 0 < w.next

/-- How the table develops: a handle keeps who drew it and its file, and what was taken out does
not come back. -/
structure TableGrows (w w' : World τ δ ζ) : Prop where
  next : w.next ≤ w'.next
  minted : ∀ fh t, w.minted fh = some t → w'.minted fh = some t
  files : ∀ fh cell, w.files fh = some cell → ∃ cell', w'.files fh = some cell' ∧
    cell'.file = cell.file ∧ (cell.listed = false → cell'.listed = false)

/-- What a thread relies on: nobody else puts a file behind a handle that it drew. -/
structure TableOthers (t : τ) (w w' : World τ δ ζ) : Prop where
  grows : TableGrows w w'
  minted : ∀ fh, w.minted fh = some t → w.files fh = none → w'.files fh = none
  seen : w'.seen t = w.seen t

theorem TableGrows.refl (w : World τ δ ζ) : TableGrows w w :=
  ⟨Nat.le_refl _, fun _ _ h => h, fun _ cell h => ⟨cell, h, rfl, id⟩⟩

theorem TableGrows.trans {w₁ w₂ w₃ : World τ δ ζ} (h : TableGrows w₁ w₂) (h' : TableGrows w₂ w₃) :
    TableGrows w₁ w₃ where
  next := Nat.le_trans h.next h'.next
  minted fh t hm := h'.minted fh t (h.minted fh t hm)
  files fh cell hc := by
    obtain ⟨c₂, hc₂, hf, hl⟩ := h.files fh cell hc
    obtain ⟨c₃, hc₃, hf', hl'⟩ := h'.files fh c₂ hc₂
    exact ⟨c₃, hc₃, hf'.trans hf, hl' ∘ hl⟩

def tableProtocol (τ δ ζ : Type) : Lib.Protocol τ (World τ δ ζ) where
  inv := TableOk
  rely := TableOthers
  grow := TableGrows
  rely_refl _ w := ⟨.refl w, fun _ _ h => h, rfl⟩
  rely_trans _ _ _ _ h h' := by
    refine ⟨h.grows.trans h'.grows, fun fh hm hf => ?_, h'.seen.trans h.seen⟩
    exact h'.minted fh (h.grows.minted fh _ hm) (h.minted fh hm hf)
  grow_refl := .refl
  grow_trans _ _ _ h h' := h.trans h'
  grow_of_rely _ _ _ h := h.grows

/-- The handle was in the table and no longer is. -/
def Unlisted (fh : Nat) (w : World τ δ ζ) : Prop :=
  ∃ cell, w.files fh = some cell ∧ cell.listed = false

/-- There is or was a file behind the handle. -/
def Backed (fh : Nat) (w : World τ δ ζ) : Prop := ∃ cell, w.files fh = some cell

/-- Thread `t` drew the handle, when the counter had got to `low` or further. -/
structure Drawn (t : τ) (low fh : Nat) (w : World τ δ ζ) : Prop where
  low : low ≤ fh
  below : fh < w.next
  pos : 0 < fh
  minted : w.minted fh = some t

theorem drawn_lasting (t : τ) (low fh : Nat) : (tableProtocol τ δ ζ).Lasting (Drawn t low fh) :=
  fun _ _ hg h =>
    ⟨h.low, Nat.lt_of_lt_of_le h.below hg.next, h.pos, hg.minted fh t h.minted⟩

theorem unlisted_lasting (fh : Nat) : (tableProtocol τ δ ζ).Lasting (Unlisted fh) := by
  intro w w' hg h
  obtain ⟨cell, hcell, hl⟩ := h
  obtain ⟨cell', hcell', -, hl'⟩ := hg.files fh cell hcell
  exact ⟨cell', hcell', hl' hl⟩

theorem backed_lasting (fh : Nat) : (tableProtocol τ δ ζ).Lasting (Backed fh) := by
  intro w w' hg h
  obtain ⟨cell, hcell⟩ := h
  obtain ⟨cell', hcell', -⟩ := hg.files fh cell hcell
  exact ⟨cell', hcell'⟩

/-! ## Steps -/

section Steps

variable {K : Codecs δ ζ} {M : Mount} {t : τ} {w w' : World τ δ ζ}

/-- A step of thread `t` that keeps the protocol. -/
abbrev TableStep (t : τ) (w w' : World τ δ ζ) : Prop :=
  TableOk w' ∧ TableGrows w w' ∧ ∀ u, u ≠ t → TableOthers u w w'

/-- A step that leaves the table as it is. -/
theorem tableStep_same (hi : TableOk w) (hn : w'.next = w.next) (hm : w'.minted = w.minted)
    (hf : w'.files = w.files) (hs : ∀ u, u ≠ t → w'.seen u = w.seen u) : TableStep t w w' := by
  have hg : TableGrows w w' := by
    refine ⟨Nat.le_of_eq hn.symm, ?_, ?_⟩
    · rw [hm]
      exact fun _ _ h => h
    · rw [hf]
      exact fun _ cell h => ⟨cell, h, rfl, id⟩
  refine ⟨⟨?_, ?_⟩, hg, fun u hu => ⟨hg, ?_, hs u hu⟩⟩
  · rw [hn, hm, hf]
    exact hi.fresh
  · rw [hn, hm, hf]
    exact hi.zero
  · rw [hf]
    exact fun _ _ h => h

/-- A step that changes what is known of one file, which may be taken out. -/
theorem tableStep_setFile (hi : TableOk w) {fh : Nat} {cell cell' : FileCell}
    (hcell : w.files fh = some cell) (hf : w'.files = Function.update w.files fh (some cell'))
    (hfile : cell'.file = cell.file) (hlisted : cell.listed = false → cell'.listed = false)
    (hn : w'.next = w.next) (hm : w'.minted = w.minted)
    (hs : ∀ u, u ≠ t → w'.seen u = w.seen u) : TableStep t w w' := by
  have hnone : ∀ fh', w.files fh' = none → w'.files fh' = none := by
    intro fh' h
    have hne : fh' ≠ fh := by
      rintro rfl
      exact absurd (hcell.symm.trans h) (by simp)
    rw [hf, Function.update_of_ne hne]
    exact h
  have hg : TableGrows w w' := by
    refine ⟨Nat.le_of_eq hn.symm, ?_, ?_⟩
    · rw [hm]
      exact fun _ _ h => h
    · intro fh' c hc
      rw [hf]
      by_cases heq : fh' = fh
      · subst heq
        obtain rfl := Option.some.inj (hcell.symm.trans hc)
        exact ⟨cell', Function.update_self .., hfile, hlisted⟩
      · rw [Function.update_of_ne heq]
        exact ⟨c, hc, rfl, id⟩
  refine ⟨⟨fun fh' hle => ?_, ?_⟩, hg, fun u hu => ⟨hg, fun fh' _ => hnone fh', hs u hu⟩⟩
  · rw [hn] at hle
    rw [hm]
    exact ⟨hnone fh' (hi.fresh fh' hle).1, (hi.fresh fh' hle).2⟩
  · rw [hn, hm]
    exact ⟨hnone 0 hi.zero.1, hi.zero.2⟩

variable [DecidableEq τ]

theorem inward_table {o : Op δ ζ} {r : Res o} (ho : o.Inward) (h : exec K M t o w r w') :
    w'.next = w.next ∧ w'.minted = w.minted ∧ w'.files = w.files := by
  rcases h with h | ⟨-, rfl⟩
  · cases o with
    | getSymlink _ | setSymlink _ _ | nextHandle | insertHandle _ _ | getHandle _
    | removeHandle _ | dropFile _ => exact ho.elim
    | halt => exact absurd h (by simp [det])
    | cell _ | short | fstat | loadStale | swapStale | loadUnsure | swapUnsure _
    | loadDataStart _ | storeDataStart _ _ | loadVerify _ | storeVerify _ _ | newStore _ _
    | newPool _ _ _ _ | releaseRetain | takeCore _ | recycleCore _ | getScratch | putScratch _
    | note _ =>
        obtain rfl := (Prod.mk.inj (Option.some.inj h)).2
        exact ⟨rfl, rfl, rfl⟩
    | _ =>
        -- what is left looks something up, or waits for a lock
        simp only [det] at h
        repeat' split at h
        all_goals first
          | (obtain rfl := (Prod.mk.inj (Option.some.inj h)).2
             exact ⟨rfl, rfl, rfl⟩)
          | cases h
  · exact ⟨rfl, rfl, rfl⟩

/-- **Every step keeps the protocol**, if a file is put only behind a handle that the thread drew
and that has none. -/
theorem exec_tableStep {o : Op δ ζ} {r : Res o} (hi : TableOk w)
    (hins : ∀ fh f, o = .insertHandle fh f → w.minted fh = some t ∧ w.files fh = none)
    (h : exec K M t o w r w') : TableStep t w w' := by
  have hseen : ∀ u, u ≠ t → w'.seen u = w.seen u := by
    intro u hu
    rw [(exec_framed h).seen, Function.update_of_ne hu]
  by_cases ho : o.Inward
  · obtain ⟨hn, hm, hf⟩ := inward_table ho h
    exact tableStep_same hi hn hm hf hseen
  · rcases h with h | ⟨hfails, rfl⟩
    · cases o with
      | getSymlink slot =>
          obtain rfl := (Prod.mk.inj (Option.some.inj h)).2
          exact tableStep_same hi rfl rfl rfl hseen
      | setSymlink slot target =>
          simp only [det] at h
          repeat' split at h
          all_goals
            obtain rfl := (Prod.mk.inj (Option.some.inj h)).2
            exact tableStep_same hi rfl rfl rfl hseen
      | nextHandle =>
          obtain rfl := (Prod.mk.inj (Option.some.inj h)).2
          have hold : ∀ fh u, w.minted fh = some u →
              Function.update w.minted w.next (some t) fh = some u := by
            intro fh u hu
            have hne : fh ≠ w.next := by
              rintro rfl
              exact absurd (hu.symm.trans (hi.fresh w.next (Nat.le_refl _)).2) (by simp)
            rw [Function.update_of_ne hne]
            exact hu
          have hg : TableGrows w
              { w with next := w.next + 1, minted := Function.update w.minted w.next (some t) } :=
            ⟨Nat.le_succ _, hold, fun _ cell hc => ⟨cell, hc, rfl, id⟩⟩
          have hpos := hi.zero.2.2
          refine ⟨⟨fun fh hle => ?_, hi.zero.1, ?_, Nat.succ_pos _⟩, hg, fun u hu =>
            ⟨hg, fun _ _ hf => hf, hseen u hu⟩⟩
          · have hlt : w.next < fh := hle
            obtain ⟨hf, hm⟩ := hi.fresh fh (by omega)
            refine ⟨hf, ?_⟩
            dsimp only
            rw [Function.update_of_ne (by omega)]
            exact hm
          · dsimp only
            rw [Function.update_of_ne (by omega)]
            exact hi.zero.2.1
      | insertHandle fh file =>
          obtain ⟨hmine, hempty⟩ := hins fh file rfl
          obtain rfl := (Prod.mk.inj (Option.some.inj h)).2
          have hother : ∀ fh', fh' ≠ fh →
              Function.update w.files fh (some ⟨file, 1, true⟩) fh' = w.files fh' :=
            fun fh' hne => Function.update_of_ne hne ..
          have hkept : ∀ fh' cell, w.files fh' = some cell → ∃ cell',
              Function.update w.files fh (some ⟨file, 1, true⟩) fh' = some cell' ∧
                cell'.file = cell.file ∧ (cell.listed = false → cell'.listed = false) := by
            intro fh' cell hc
            have hne : fh' ≠ fh := by
              rintro rfl
              exact absurd (hc.symm.trans hempty) (by simp)
            exact ⟨cell, (hother fh' hne).trans hc, rfl, id⟩
          have hlt : fh < w.next := by
            by_contra hle
            exact absurd (hmine.symm.trans (hi.fresh fh (by omega)).2) (by simp)
          have hpos : fh ≠ 0 := by
            rintro rfl
            exact absurd (hmine.symm.trans hi.zero.2.1) (by simp)
          refine ⟨⟨fun fh' hle => ?_, ?_, hi.zero.2⟩, ⟨Nat.le_refl _, fun _ _ hm => hm, ?_⟩,
            fun u hu => ⟨⟨Nat.le_refl _, fun _ _ hm => hm, ?_⟩, ?_, hseen u hu⟩⟩
          · have hle' : w.next ≤ fh' := hle
            exact ⟨(hother fh' (by omega)).trans (hi.fresh fh' hle').1, (hi.fresh fh' hle').2⟩
          · exact (hother 0 hpos.symm).trans hi.zero.1
          · exact hkept
          · exact hkept
          · intro fh' hm hf
            have hne : fh' ≠ fh := by
              rintro rfl
              exact hu (Option.some.inj (hm.symm.trans hmine))
            exact (hother fh' hne).trans hf
      | getHandle fh =>
          simp only [det] at h
          split at h
          · rename_i cell hcell
            split at h
            · obtain rfl := (Prod.mk.inj (Option.some.inj h)).2
              exact tableStep_setFile hi hcell rfl rfl id rfl rfl hseen
            · obtain rfl := (Prod.mk.inj (Option.some.inj h)).2
              exact tableStep_same hi rfl rfl rfl hseen
          · obtain rfl := (Prod.mk.inj (Option.some.inj h)).2
            exact tableStep_same hi rfl rfl rfl hseen
      | removeHandle fh =>
          simp only [det] at h
          split at h
          · rename_i cell hcell
            split at h
            · obtain rfl := (Prod.mk.inj (Option.some.inj h)).2
              exact tableStep_setFile hi hcell rfl rfl (fun _ => rfl) rfl rfl hseen
            · obtain rfl := (Prod.mk.inj (Option.some.inj h)).2
              exact tableStep_same hi rfl rfl rfl hseen
          · obtain rfl := (Prod.mk.inj (Option.some.inj h)).2
            exact tableStep_same hi rfl rfl rfl hseen
      | dropFile fh =>
          simp only [det] at h
          split at h
          · rename_i cell hcell
            obtain rfl := (Prod.mk.inj (Option.some.inj h)).2
            exact tableStep_setFile hi hcell rfl rfl id rfl rfl hseen
          · exact absurd h (by simp)
      | _ => exact absurd trivial ho
    · exact tableStep_same hi rfl rfl rfl hseen

end Steps

/-! ## Calls -/

theorem anything_stable {t : τ} : (tableProtocol τ δ ζ).Stable t fun _ => True :=
  fun _ _ _ _ _ => trivial

/-- The call has found the file behind its handle. -/
def FileFound (t : τ) (w : World τ δ ζ) : Prop := Note.handleFound ∈ w.seen t

theorem found_stable {t : τ} : (tableProtocol τ δ ζ).Stable t (FileFound t) := by
  intro w w' hr _ h
  unfold FileFound
  rw [hr.seen]
  exact h

section Calls

variable [DecidableEq τ] {K : Codecs δ ζ} {M : Mount} {t : τ} {α : Type}

/-- Among other threads, under the protocol of the table. -/
abbrev TableSafe (K : Codecs δ ζ) (M : Mount) (t : τ) (Q : α → World τ δ ζ → Prop)
    (p : Act δ ζ α) (w : World τ δ ζ) : Prop :=
  Safe (tableProtocol τ δ ζ) (exec K M) t Q p w

/-- One operation, with what is known after it whatever the others do. -/
theorem safe_tableOp {o : Op δ ζ} {w : World τ δ ζ} {Q : Res o → World τ δ ζ → Prop}
    (hins : ∀ w₁, TableOthers t w w₁ → ∀ fh f, o = .insertHandle fh f →
      w₁.minted fh = some t ∧ w₁.files fh = none)
    (hq : ∀ w₁ r w₂ w₃, TableOthers t w w₁ → TableOk w₁ → exec K M t o w₁ r w₂ →
      TableOthers t w₂ w₃ → TableOk w₃ → Q r w₃) :
    TableSafe K M t Q (.op o .ret) w := by
  intro w₁ h₁ hi r w₂ he
  obtain ⟨hi₂, hg, hu⟩ := exec_tableStep hi (hins w₁ h₁) he
  exact ⟨hi₂, hg, hu, fun w₃ h₃ hi₃ => hq w₁ r w₂ w₃ h₁ hi he h₃ hi₃⟩

section Keeping

variable {I : World τ δ ζ → Prop}

/-- A judgement about the programs of one thread, among others that respect the table. -/
abbrev tableKeeping (K : Codecs δ ζ) (M : Mount) {t : τ}
    (hI : (tableProtocol τ δ ζ).Stable t I) : Logic (@Res δ ζ) :=
  Lib.keeping (tableProtocol τ δ ζ) (exec K M) t hI

theorem table_accepts (hI : (tableProtocol τ δ ζ).Stable t I)
    (hop : ∀ (o : Op δ ζ) w r w', I w → exec K M t o w r w' → I w') {o : Op δ ζ}
    (ho : ∀ fh f, o ≠ .insertHandle fh f) : (tableKeeping K M hI).Accepts (.op o .ret) := by
  refine Lib.keeping_op hI ?_
  intro w hi hw r w' he
  obtain ⟨hi', hg, hu⟩ := exec_tableStep hi (fun fh f h => absurd h (ho fh f)) he
  exact ⟨hi', hg, hu, trivial, hop o w r w' hw he⟩

theorem Op.Inward.not_insert {o : Op δ ζ} (h : o.Inward) : ∀ fh f, o ≠ .insertHandle fh f := by
  rintro fh f rfl
  exact h

theorem table_permits (hI : (tableProtocol τ δ ζ).Stable t I)
    (hop : ∀ (o : Op δ ζ) w r w', I w → exec K M t o w r w' → I w') :
    PermitsPick (tableKeeping K M hI) M (fun _ => True) (Op.Inner fun _ => True) where
  verify := accepts_guardVerify fun _ ho => table_accepts hI hop ho.inward.not_insert
  op _ ho := table_accepts hI hop ho.inward.not_insert
  fresh := trivial
  pick id offset := Lib.Logic.mono (table_accepts hI hop (o := .pick id offset) (by simp))
    fun _ _ _ _ => trivial

end Keeping

/-- Below the calls nothing is said of the table but that it is kept. -/
theorem inner_tableSafe {p : Act δ ζ α} {w : World τ δ ζ} (hi : TableOk w)
    (h : (tableKeeping K M (t := t) anything_stable).Accepts p) :
    TableSafe K M t (fun _ _ => True) p w :=
  (h w hi trivial).mono fun _ _ _ _ => trivial

/-- What each call promises of the table. -/
def HandleOk (t : τ) (call : Call) (w₀ : World τ δ ζ) (reply : Reply) (w : World τ δ ζ) : Prop :=
  match call with
  | .openFile _ _ => ∀ fh, reply = .opened fh → Drawn t w₀.next fh w ∧ Backed fh w
  | .read fh _ _ => (Unlisted fh w₀ ∨ fh = 0 → reply = .error EBADF) ∧
      (Note.handleFound ∉ w.seen t → reply = .error EBADF ∧ (Backed fh w₀ → Unlisted fh w))
  | .release fh => Backed fh w₀ → Unlisted fh w
  | _ => True

/-- **`insert`** draws a handle that nobody has drawn. -/
theorem safe_tableInsert {w : World τ δ ζ} (hi : TableOk w) (file : OpenFile) :
    TableSafe K M t (fun fh w' => Drawn t w.next fh w' ∧ Backed fh w')
      (HandleTable.insert file : Act δ ζ Nat) w := by
  unfold HandleTable.insert
  refine Safe.bind hi ((safe_tableOp (o := .nextHandle)
    (Q := fun (fh : Nat) w' => Drawn t w.next fh w' ∧ w'.files fh = none) (by simp) ?_).mono ?_)
  · intro w₁ (fh : Nat) w₂ w₃ h₁ hi₁ he h₃ _
    rcases he with he | ⟨hf, -⟩
    · obtain ⟨rfl, rfl⟩ := Prod.mk.inj (Option.some.inj he)
      have hmine : Function.update w₁.minted w₁.next (some t) w₁.next = some t :=
        Function.update_self ..
      refine ⟨⟨h₁.grows.next, h₃.grows.next, hi₁.zero.2.2, h₃.grows.minted _ t hmine⟩, ?_⟩
      exact h₃.minted _ hmine (hi₁.fresh _ (Nat.le_refl _)).1
    · exact hf.elim
  · intro (fh : Nat) w₁ hi₁ h
    obtain ⟨hdrawn, hempty⟩ := h
    have hlast := drawn_lasting (δ := δ) (ζ := ζ) t w.next fh
    refine Safe.bind hi₁ ((Safe.lasting (safe_tableOp (o := .insertHandle fh file)
      (Q := fun _ w' => Backed fh w') ?_ ?_) hlast hdrawn).mono ?_)
    · intro w₂ h₂ fh' f heq
      obtain ⟨rfl, -⟩ := Op.insertHandle.inj heq
      exact ⟨h₂.grows.minted _ t hdrawn.minted, h₂.minted _ hdrawn.minted hempty⟩
    · intro w₂ _ w₃ w₄ h₂ _ he h₄ _
      rcases he with he | ⟨hf, -⟩
      · obtain rfl := (Prod.mk.inj (Option.some.inj he)).2
        exact backed_lasting fh _ _ h₄.grows ⟨_, Function.update_self ..⟩
      · exact hf.elim
    · intro _ w₂ _ h
      exact .ret fun w₃ h₃ _ => ⟨hlast _ _ h₃.grows h.2, backed_lasting fh _ _ h₃.grows h.1⟩

theorem safe_tableOpen {w : World τ δ ζ} (hi : TableOk w) (ino : Nat) (mode : AccMode) :
    TableSafe K M t (HandleOk t (.openFile ino mode) w) (Fs.openFile M ino mode) w := by
  have hp := table_permits (K := K) (M := M) (t := t) anything_stable fun _ _ _ _ _ _ => trivial
  have hlocates := hp.weaken fun _ (ho : Op.Locates _) => Op.Locates.inner (F := fun _ => True) ho
  have hd := table_accepts (K := K) (M := M) (t := t) anything_stable
    (fun _ _ _ _ _ _ => trivial) (o := .note .diagnosing) (by simp)
  have hlast : (tableProtocol τ δ ζ).Lasting fun w' => w.next ≤ w'.next :=
    fun _ _ hg h => Nat.le_trans h hg.next
  have hother : ∀ (reply : Reply) w₁, (∀ fh, reply ≠ .opened fh) →
      TableSafe K M t (HandleOk t (.openFile ino mode) w) (pure reply) w₁ :=
    fun reply w₁ hne => .ret fun _ _ _ fh h => absurd h (hne fh)
  unfold Fs.openFile
  split
  · exact hother _ _ (by simp)
  split
  · exact hother _ _ (by simp)
  split
  · exact hother _ _ (by simp)
  split
  · exact hother _ _ (by simp)
  refine Safe.bind hi (((inner_tableSafe hi (accepts_locate hlocates _ _)).lasting hlast
    (Nat.le_refl _)).mono ?_)
  intro found w₁ hi₁ h₁
  split
  · refine Safe.bind hi₁ ((inner_tableSafe hi₁ (accepts_diagnose hlocates hd _)).mono ?_)
    exact fun errno w₂ _ _ => hother _ _ (by simp)
  · refine Safe.bind hi₁ (((inner_tableSafe hi₁ (inner_newFile hp.op _ _ _ _)).lasting hlast
      h₁.2).mono ?_)
    intro file w₂ hi₂ h₂
    refine Safe.bind hi₂ ((safe_tableInsert hi₂ file).mono ?_)
    intro fh w₃ _ h
    obtain ⟨hdrawn, hback⟩ := h
    refine .ret fun w₄ h₄ _ fh' heq => ?_
    obtain rfl := Reply.opened.inj heq
    have hdrawn' := drawn_lasting t _ _ _ _ h₄.grows hdrawn
    exact ⟨⟨Nat.le_trans h₂.2 hdrawn.low, hdrawn'.below, hdrawn'.pos, hdrawn'.minted⟩,
      backed_lasting _ _ _ h₄.grows hback⟩

/-- A lookup finds a handle exactly if it is listed. -/
theorem getHandle_spec {fh : Nat} {found : Option OpenFile} {w w' : World τ δ ζ}
    (h : exec K M t (.getHandle fh) w found w') :
    (Unlisted fh w ∨ w.files fh = none → found = none) ∧
      (found = none → Backed fh w → Unlisted fh w') := by
  rcases h with h | ⟨hf, -⟩
  · simp only [det] at h
    split at h
    · rename_i cell hcell
      split at h
      · rename_i hlisted
        obtain ⟨rfl, -⟩ := Prod.mk.inj (Option.some.inj h)
        refine ⟨?_, fun hnone => absurd hnone (by simp)⟩
        rintro (⟨cell', hcell', hl⟩ | hnone)
        · obtain rfl := Option.some.inj (hcell.symm.trans hcell')
          exact absurd (hl.symm.trans hlisted) (by simp)
        · exact absurd (hcell.symm.trans hnone) (by simp)
      · rename_i hlisted
        obtain ⟨rfl, rfl⟩ := Prod.mk.inj (Option.some.inj h)
        exact ⟨fun _ => rfl, fun _ _ => ⟨cell, hcell, by simpa using hlisted⟩⟩
    · rename_i hnone
      obtain ⟨rfl, rfl⟩ := Prod.mk.inj (Option.some.inj h)
      refine ⟨fun _ => rfl, fun _ hb => ?_⟩
      obtain ⟨cell, hcell⟩ := hb
      exact absurd (hcell.symm.trans hnone) (by simp)
  · exact hf.elim

/-- Taking a handle out leaves it out. -/
theorem removeHandle_spec {fh : Nat} {found : Option OpenFile} {w w' : World τ δ ζ}
    (h : exec K M t (.removeHandle fh) w found w') (hb : Backed fh w) : Unlisted fh w' := by
  obtain ⟨cell, hcell⟩ := hb
  rcases h with h | ⟨hf, -⟩
  · simp only [det, hcell] at h
    split at h
    · obtain rfl := (Prod.mk.inj (Option.some.inj h)).2
      exact ⟨_, Function.update_self .., rfl⟩
    · rename_i hlisted
      obtain rfl := (Prod.mk.inj (Option.some.inj h)).2
      exact ⟨cell, hcell, by simpa using hlisted⟩
  · exact hf.elim

theorem found_kept (o : Op δ ζ) (w : World τ δ ζ) (r : Res o) (w' : World τ δ ζ) (h : FileFound t w)
    (he : exec K M t o w r w') : FileFound t w' := by
  unfold FileFound
  rw [(exec_framed he).seen, Function.update_self]
  exact List.mem_append_left _ h

theorem safe_tableRead {w : World τ δ ζ} (hi : TableOk w) (fh offset size : Nat) :
    TableSafe K M t (HandleOk t (.read fh offset size) w) (Fs.read K M fh offset size) w := by
  have hp := table_permits (K := K) (M := M) (t := t) found_stable found_kept
  have haccept := fun {o : Op δ ζ} =>
    table_accepts (K := K) (M := M) (t := t) found_stable found_kept (o := o)
  unfold Fs.read
  refine Safe.bind hi ((safe_tableOp (o := .getHandle fh)
    (Q := fun (found : Option OpenFile) w' => (Unlisted fh w ∨ fh = 0 → found = none) ∧
      (found = none → Backed fh w → Unlisted fh w')) (by simp) ?_).mono ?_)
  · intro w₁ (found : Option OpenFile) w₂ w₃ h₁ hi₁ he h₃ _
    obtain ⟨hfound, hgone⟩ := getHandle_spec he
    refine ⟨fun h => hfound ?_, fun hnone hb => ?_⟩
    · rcases h with h | rfl
      · exact .inl (unlisted_lasting fh _ _ h₁.grows h)
      · exact .inr hi₁.zero.1
    · exact unlisted_lasting fh _ _ h₃.grows
        (hgone hnone (backed_lasting fh _ _ h₁.grows hb))
  · intro (found : Option OpenFile) w₁ hi₁ h
    cases found with
    | none => exact .ret fun w₂ h₂ _ => ⟨fun _ => rfl, fun _ =>
        ⟨rfl, fun hb => unlisted_lasting fh _ _ h₂.grows (h.2 rfl hb)⟩⟩
    | some file =>
        -- from here on the call has found its file
        refine Safe.bind hi₁ ((safe_tableOp (o := .note .handleFound)
          (Q := fun _ w' => FileFound t w') (by simp) ?_).mono ?_)
        · intro w₂ r w₃ w₄ _ _ he h₄ hi₄
          refine found_stable _ _ h₄ hi₄ ?_
          unfold FileFound
          rw [(exec_framed he).seen, Function.update_self]
          exact List.mem_append_right _ List.mem_cons_self
        · intro _ w₂ hi₂ hfound
          have hrest : (tableKeeping K M (t := t) found_stable).Accepts (do
              let reply ← Fs.readFile K M file offset size
              file.release fh
              pure reply) := by
            refine Lib.Logic.seq (inner_readFile hp (haccept (by simp)) file offset size)
              fun reply => ?_
            refine Lib.Logic.seq (walk_releaseFile (haccept (by simp))
              fun pool _ => accepts_drop hp.innerPools.op pool) fun _ => ?_
            exact Lib.Logic.pure _ trivial
          refine (hrest w₂ hi₂ hfound).mono ?_
          intro reply w₃ _ h₃
          exact ⟨fun hu => absurd (h.1 hu) (by simp), fun hn => absurd h₃.2 hn⟩

theorem safe_tableRelease {w : World τ δ ζ} (hi : TableOk w) (fh : Nat) :
    TableSafe K M t (HandleOk t (.release fh) w) (Fs.release fh) w := by
  have hp := table_permits (K := K) (M := M) (t := t) anything_stable fun _ _ _ _ _ _ => trivial
  have hdrop := table_accepts (K := K) (M := M) (t := t) anything_stable
    (fun _ _ _ _ _ _ => trivial) (o := .dropFile fh) (by simp)
  have hlast : (tableProtocol τ δ ζ).Lasting fun w' => Backed fh w → Unlisted fh w' :=
    fun _ _ hg h hb => unlisted_lasting fh _ _ hg (h hb)
  unfold Fs.release
  refine Safe.bind hi ((safe_tableOp (o := .removeHandle fh)
    (Q := fun _ w' => Backed fh w → Unlisted fh w') (by simp) ?_).mono ?_)
  · intro w₁ found w₂ w₃ h₁ _ he h₃ _ hb
    exact unlisted_lasting fh _ _ h₃.grows
      (removeHandle_spec he (backed_lasting fh _ _ h₁.grows hb))
  · intro (found : Option OpenFile) w₁ hi₁ hgone
    cases found with
    | none => exact .ret fun w₂ h₂ _ => hlast _ _ h₂.grows hgone
    | some file =>
        have hrest : (tableKeeping K M (t := t) anything_stable).Accepts (do
            file.release fh
            pure Reply.ok) :=
          Lib.Logic.seq (walk_releaseFile hdrop fun pool _ => accepts_drop hp.innerPools.op pool)
            fun _ => Lib.Logic.pure _ trivial
        exact ((inner_tableSafe hi₁ hrest).lasting hlast hgone).mono fun _ _ _ h => h.2

/-- **Every call keeps the table**, and what it promises of it. -/
theorem safe_tableCall {w : World τ δ ζ} (hi : TableOk w) (call : Call) :
    TableSafe K M t (HandleOk t call w) (call.prog K M) w := by
  cases call with
  | openFile ino mode => exact safe_tableOpen hi ino mode
  | read fh offset size => exact safe_tableRead hi fh offset size
  | release fh => exact safe_tableRelease hi fh
  | readlink ino | readAt len offset | readExactAt buf offset =>
      -- no other call puts a file behind a handle
      refine inner_tableSafe hi ((prog_performs K M _).accepts fun o ho => ?_)
      refine table_accepts anything_stable (fun _ _ _ _ _ _ => trivial) ?_
      rintro fh f rfl
      obtain ⟨ino', mode, h⟩ := ho
      exact absurd h (by simp)

theorem table_respects :
    Lib.Respects (mountSystem (τ := τ) K M AnyChange) (tableProtocol τ δ ζ) HandleOk where
  arrive t call w hi := tableStep_same hi rfl rfl rfl fun u hu => Function.update_of_ne hu ..
  env w w' h hi := by
    obtain ⟨content, stamp, path, rfl⟩ := h
    have hg : TableGrows w { w with content := content, stamp := stamp, path := path } :=
      ⟨Nat.le_refl _, fun _ _ h => h, fun _ cell h => ⟨cell, h, rfl, id⟩⟩
    exact ⟨⟨hi.fresh, hi.zero⟩, hg, fun u => ⟨hg, fun _ _ h => h, rfl⟩⟩
  calls t call w hi := by
    have hi' : TableOk (arrive t call w) := ⟨hi.fresh, hi.zero⟩
    exact safe_tableCall hi' call

omit [DecidableEq τ] in
theorem start_table (path : Option Stamp) :
    TableOk (World.start (τ := τ) (δ := δ) (ζ := ζ) M path) :=
  ⟨fun _ _ => ⟨rfl, rfl⟩, rfl, rfl, Nat.one_pos⟩

/-! ## Whole runs -/

/-- A release of the handle has been called. -/
def ReleaseCalled (fh : Nat) (c : Lib.Config τ (World τ δ ζ) Call Reply (@Res δ ζ)) : Prop :=
  (∃ e ∈ c.history, e.call = .release fh) ∨ ∃ t r, c.running t = some r ∧ r.call = .release fh

omit [DecidableEq τ] in
/-- What is known of one file has changed, and it was not taken out. -/
theorem unlisted_of_setFile {fh fh' : Nat} {cell : FileCell} {w w' : World τ δ ζ}
    (hf : w'.files = Function.update w.files fh' (some cell)) (hu : Unlisted fh w')
    (hl : cell.listed = false → Unlisted fh' w) : Unlisted fh w := by
  obtain ⟨c, hc, hlisted⟩ := hu
  rw [hf] at hc
  by_cases heq : fh = fh'
  · subst heq
    rw [Function.update_self] at hc
    obtain rfl := Option.some.inj hc
    exact hl hlisted
  · rw [Function.update_of_ne heq] at hc
    exact ⟨c, hc, hlisted⟩

/-- Only taking a handle out makes it unlisted. -/
theorem unlisted_of_step {o : Op δ ζ} {r : Res o} {fh : Nat} {w w' : World τ δ ζ}
    (h : exec K M t o w r w') (hu : Unlisted fh w') : Unlisted fh w ∨ o = .removeHandle fh := by
  have hsame : w'.files = w.files → Unlisted fh w := by
    intro hf
    unfold Unlisted at hu ⊢
    rwa [hf] at hu
  by_cases ho : o.Inward
  · exact .inl (hsame (inward_table ho h).2.2)
  · rcases h with h | ⟨-, rfl⟩
    · cases o with
      | getSymlink slot | nextHandle =>
          obtain rfl := (Prod.mk.inj (Option.some.inj h)).2
          exact .inl (hsame rfl)
      | setSymlink slot target =>
          simp only [det] at h
          repeat' split at h
          all_goals
            obtain rfl := (Prod.mk.inj (Option.some.inj h)).2
            exact .inl (hsame rfl)
      | insertHandle fh' file =>
          obtain rfl := (Prod.mk.inj (Option.some.inj h)).2
          exact .inl (unlisted_of_setFile rfl hu fun hl => absurd hl (by simp))
      | getHandle fh' =>
          simp only [det] at h
          split at h
          · rename_i cell hcell
            split at h
            · obtain rfl := (Prod.mk.inj (Option.some.inj h)).2
              refine .inl (unlisted_of_setFile rfl hu ?_)
              exact fun hl => ⟨cell, hcell, hl⟩
            · obtain rfl := (Prod.mk.inj (Option.some.inj h)).2
              exact .inl (hsame rfl)
          · obtain rfl := (Prod.mk.inj (Option.some.inj h)).2
            exact .inl (hsame rfl)
      | removeHandle fh' =>
          by_cases heq : fh = fh'
          · exact .inr (by rw [heq])
          · simp only [det] at h
            split at h
            · rename_i cell hcell
              split at h
              · obtain rfl := (Prod.mk.inj (Option.some.inj h)).2
                obtain ⟨c, hc, hl⟩ := hu
                refine .inl ⟨c, ?_, hl⟩
                rwa [show World.files _ fh = w.files fh from Function.update_of_ne heq ..] at hc
              · obtain rfl := (Prod.mk.inj (Option.some.inj h)).2
                exact .inl (hsame rfl)
            · obtain rfl := (Prod.mk.inj (Option.some.inj h)).2
              exact .inl (hsame rfl)
      | dropFile fh' =>
          simp only [det] at h
          split at h
          · rename_i cell hcell
            obtain rfl := (Prod.mk.inj (Option.some.inj h)).2
            refine .inl (unlisted_of_setFile rfl hu ?_)
            exact fun hl => ⟨cell, hcell, hl⟩
          · exact absurd h (by simp)
      | _ => exact absurd trivial ho
    · exact .inl hu

theorem ReleaseCalled.step {S : Lib.System τ (World τ δ ζ) Call Reply (@Res δ ζ)} {fh : Nat}
    {c c' : Lib.Config τ (World τ δ ζ) Call Reply (@Res δ ζ)} (h : ReleaseCalled fh c)
    (hs : Lib.Step S c c') : ReleaseCalled fh c' := by
  rcases h with ⟨e, he, hcall⟩ | ⟨t, r, hr, hcall⟩
  · cases hs with
    | ret u hsome => exact .inl ⟨e, List.mem_cons_of_mem _ he, hcall⟩
    | call u k hidle => exact .inl ⟨e, he, hcall⟩
    | op u hsome hexec => exact .inl ⟨e, he, hcall⟩
    | env henv => exact .inl ⟨e, he, hcall⟩
  · cases hs with
    | call u k hidle =>
        have hne : t ≠ u := by
          rintro rfl
          exact absurd (hr.symm.trans hidle) (by simp)
        exact .inr ⟨t, r, (Function.update_of_ne hne ..).trans hr, hcall⟩
    | op u hsome hexec =>
        by_cases hne : t = u
        · subst hne
          obtain rfl := Option.some.inj (hsome.symm.trans hr)
          exact .inr ⟨t, _, Function.update_self .., hcall⟩
        · exact .inr ⟨t, r, (Function.update_of_ne hne ..).trans hr, hcall⟩
    | ret u hsome =>
        by_cases hne : t = u
        · subst hne
          obtain rfl := Option.some.inj (hsome.symm.trans hr)
          exact .inl ⟨_, List.mem_cons_self, hcall⟩
        · exact .inr ⟨t, r, (Function.update_of_ne hne ..).trans hr, hcall⟩
    | env henv => exact .inr ⟨t, r, hr, hcall⟩

/-- **A handle leaves the table only because it is released.** -/
theorem unlisted_released {path : Option Stamp}
    {c : Lib.Config τ (World τ δ ζ) Call Reply (@Res δ ζ)} (h : AnyRun K M path c) {fh : Nat}
    (hu : Unlisted fh c.world) : ReleaseCalled fh c := by
  induction h with
  | init =>
      obtain ⟨cell, hcell, -⟩ := hu
      exact absurd hcell (by simp [Lib.initial, World.start])
  | step hreach hstep ih =>
      have hold := fun hu => (ih hu).step hstep
      cases hstep with
      | call t k hidle => exact hold hu
      | ret t hsome => exact hold hu
      | env henv =>
          obtain ⟨content, stamp, path, rfl⟩ := henv
          exact hold hu
      | op t hsome hexec =>
          rcases unlisted_of_step hexec hu with hu | rfl
          · exact hold hu
          · have hcall := (Lib.running_always (prog_performs K M) hreach t _ hsome).1
            exact .inr ⟨t, _, Function.update_self .., hcall⟩

/-- What an answered open has left in the table. -/
theorem opened_drawn {path : Option Stamp}
    {c : Lib.Config τ (World τ δ ζ) Call Reply (@Res δ ζ)} (h : AnyRun K M path c)
    {e : Lib.Event τ (World τ δ ζ) Call Reply} (he : e ∈ c.history) {ino fh : Nat} {mode : AccMode}
    (hcall : e.call = .openFile ino mode) (hreply : e.reply = .opened fh) :
    Drawn e.thread e.start.next fh e.finish ∧ Backed fh c.world := by
  have hg := Lib.sound table_respects (start_table path) h
  have hq := hg.history e he
  unfold HandleOk at hq
  rw [hcall] at hq
  obtain ⟨hdrawn, hback⟩ := hq fh hreply
  exact ⟨hdrawn, backed_lasting fh _ _ (hg.past e he) hback⟩

/-- What `handle_lifecycle` says of the runs in which the counter is unbounded. -/
theorem unbounded_lifecycle {path : Option Stamp}
    {c : Lib.Config τ (World τ δ ζ) Call Reply (@Res δ ζ)} (h : AnyRun K M path c) :
    (c.history.Pairwise fun e e' => ∀ ino mode fh ino' mode' fh', e.call = .openFile ino mode →
      e.reply = .opened fh → e'.call = .openFile ino' mode' → e'.reply = .opened fh' →
        fh ≠ fh') ∧
    (∀ e ∈ c.history, ∀ offset size, e.call = .read 0 offset size → e.reply = .error EBADF) ∧
    (∀ e ∈ c.history, ∀ ino mode fh, e.call = .openFile ino mode → e.reply = .opened fh →
      0 < fh ∧ fh < c.world.next ∧ ∀ c', Lib.Steps (mountSystem K M AnyChange) c c' →
        (∀ e', CalledBetween c c' e' → ∀ offset size, e'.call = .read fh offset size →
          FileFound e'.thread e'.finish ∨ e'.reply = .error EBADF ∧ ReleaseCalled fh c') ∧
        ∀ e', CalledBetween c c' e' → e'.call = .release fh →
          ∀ c'' e'', Lib.Steps (mountSystem K M AnyChange) c' c'' → CalledBetween c' c'' e'' →
            ∀ offset size, e''.call = .read fh offset size → e''.reply = .error EBADF) := by
  have hr := table_respects (τ := τ) (K := K) (M := M)
  have hw := start_table (τ := τ) (δ := δ) (ζ := ζ) (M := M) path
  have hread : ∀ {c : Lib.Config τ (World τ δ ζ) Call Reply (@Res δ ζ)}, AnyRun K M path c →
      ∀ e ∈ c.history, ∀ {fh offset size},
      e.call = .read fh offset size → HandleOk e.thread (.read fh offset size) e.start e.reply
        e.finish := by
    intro c hc e he fh offset size hcall
    have hq := (Lib.sound hr hw hc).history e he
    rwa [hcall] at hq
  refine ⟨?_, ?_, ?_⟩
  · -- two opens of one thread are in order, and two threads never draw the same handle
    refine (Lib.thread_order hr hw h).2.imp_of_mem ?_
    intro e e' he he' horder ino mode fh ino' mode' fh' hcall hreply hcall' hreply'
    have hdrawn := (opened_drawn h he hcall hreply).1
    have hdrawn' := (opened_drawn h he' hcall' hreply').1
    by_cases ht : e'.thread = e.thread
    · have hle : e'.finish.next ≤ e.start.next := (horder ht).next
      have hlow := hdrawn.low
      have hbelow := hdrawn'.below
      omega
    · rintro rfl
      have hg := Lib.sound hr hw h
      have hmine := (hg.past e he).minted fh _ hdrawn.minted
      have hmine' := (hg.past e' he').minted fh _ hdrawn'.minted
      exact ht (Option.some.inj (hmine'.symm.trans hmine))
  · intro e he offset size hcall
    exact (hread h e he hcall).1 (.inr rfl)
  · intro e he ino mode fh hcall hreply
    obtain ⟨hdrawn, hback⟩ := opened_drawn h he hcall hreply
    have hbelow : fh < c.world.next :=
      Nat.lt_of_lt_of_le hdrawn.below ((Lib.sound hr hw h).past e he).next
    refine ⟨hdrawn.pos, hbelow, fun c' hsteps => ⟨?_, ?_⟩⟩
    · intro e' hb offset size hcall'
      have hc' := h.steps hsteps
      by_cases hfound : FileFound e'.thread e'.finish
      · exact .inl hfound
      · obtain ⟨hbad, hgone⟩ := (hread hc' e' hb.mem hcall').2 hfound
        have hstart := backed_lasting fh _ _ (hb.grow hr hw h hsteps) hback
        refine .inr ⟨hbad, unlisted_released hc' ?_⟩
        exact unlisted_lasting fh _ _ ((Lib.sound hr hw hc').past e' hb.mem) (hgone hstart)
    · intro e' hb hrelease c'' e'' hsteps' hb' offset size hcall''
      have hc' := h.steps hsteps
      have hq := (Lib.sound hr hw hc').history e' hb.mem
      rw [hrelease] at hq
      have hstart := backed_lasting fh _ _ (hb.grow hr hw h hsteps) hback
      have hgone := unlisted_lasting fh _ _ ((Lib.sound hr hw hc').past e' hb.mem) (hq hstart)
      have hlate := unlisted_lasting fh _ _ (hb'.grow hr hw hc' hsteps') hgone
      exact (hread (hc'.steps hsteps') e'' hb'.mem hcall'').1 (.inl hlate)

/-! ## The counter wraps -/

/-- `HandleTable::next` is an `AtomicU64`, and `fetch_add` wraps around; `next` counts the draws. -/
def fetchAddHandle (t : τ) (w : World τ δ ζ) : Nat × World τ δ ζ :=
  let fh := w.next % 2 ^ 64
  (fh, { w with next := w.next + 1, minted := Function.update w.minted fh (some t) })

/-- The answer and the effect of an operation, with the counter as the program has it. -/
def wrappingDet (K : Codecs δ ζ) (M : Mount) (t : τ) :
    (o : Op δ ζ) → World τ δ ζ → Option (Res o × World τ δ ζ)
  | .nextHandle, w => some (fetchAddHandle t w)
  | o, w => det K M t o w

def wrappingExec (K : Codecs δ ζ) (M : Mount) (t : τ) (o : Op δ ζ) (w : World τ δ ζ) (r : Res o)
    (w' : World τ δ ζ) : Prop :=
  wrappingDet K M t o w = some (r, w') ∨ Fails o r ∧ w' = w

/-- A mount whose archive may change in any way, with the counter as the program has it. -/
def wrappingMount (K : Codecs δ ζ) (M : Mount) :
    Lib.System τ (World τ δ ζ) Call Reply (@Res δ ζ) :=
  { mountSystem K M AnyChange with exec := wrappingExec K M }

/-- Fewer than `2 ^ 64` handles have been drawn, of which the first was 1. -/
def HandlesLeft (w : World τ δ ζ) : Prop := w.next ≤ 2 ^ 64

/-- No step takes a draw back. -/
theorem next_le_of_exec {o : Op δ ζ} {r : Res o} {w w' : World τ δ ζ}
    (h : exec K M t o w r w') : w.next ≤ w'.next := by
  by_cases ho : o.Inward
  · exact Nat.le_of_eq (inward_table ho h).1.symm
  · rcases h with h | ⟨-, rfl⟩
    · cases o with
      | getSymlink _ | insertHandle _ _ =>
          obtain rfl := (Prod.mk.inj (Option.some.inj h)).2
          exact Nat.le_refl _
      | nextHandle =>
          obtain rfl := (Prod.mk.inj (Option.some.inj h)).2
          exact Nat.le_succ _
      | setSymlink _ _ | getHandle _ | removeHandle _ | dropFile _ =>
          simp only [det] at h
          repeat' split at h
          all_goals first
            | (obtain rfl := (Prod.mk.inj (Option.some.inj h)).2
               exact Nat.le_refl _)
            | cases h
      | _ => exact absurd trivial ho
    · exact Nat.le_refl _

/-- Every other operation is what it was. -/
theorem exec_of_wrapping_ne {o : Op δ ζ} {r : Res o} {w w' : World τ δ ζ} (ho : o ≠ .nextHandle)
    (h : wrappingExec K M t o w r w') : exec K M t o w r w' := by
  cases o with
  | nextHandle => exact absurd rfl ho
  | _ => exact h

theorem next_le_of_wrapping {o : Op δ ζ} {r : Res o} {w w' : World τ δ ζ}
    (h : wrappingExec K M t o w r w') : w.next ≤ w'.next := by
  by_cases ho : o = .nextHandle
  · subst ho
    rcases h with h | ⟨hfails, -⟩
    · obtain rfl := (Prod.mk.inj (Option.some.inj h)).2
      exact Nat.le_succ _
    · exact hfails.elim
  · exact next_le_of_exec (exec_of_wrapping_ne ho h)

/-- While handles are left, the counter has not wrapped. -/
theorem exec_of_wrapping {o : Op δ ζ} {r : Res o} {w w' : World τ δ ζ} (hn : HandlesLeft w')
    (h : wrappingExec K M t o w r w') : exec K M t o w r w' := by
  by_cases ho : o = .nextHandle
  · subst ho
    rcases h with h | ⟨hfails, -⟩
    · obtain ⟨rfl, rfl⟩ := Prod.mk.inj (Option.some.inj h)
      have hlt : w.next < 2 ^ 64 := hn
      refine .inl ?_
      rw [Nat.mod_eq_of_lt hlt]
      rfl
    · exact hfails.elim
  · exact exec_of_wrapping_ne ho h

theorem handlesLeft_back {c c' : Lib.Config τ (World τ δ ζ) Call Reply (@Res δ ζ)}
    (h : Lib.Step (wrappingMount K M) c c') (hn : HandlesLeft c'.world) : HandlesLeft c.world := by
  cases h with
  | call t k hidle => exact hn
  | ret t hrun => exact hn
  | op t hrun he => exact Nat.le_trans (next_le_of_wrapping he) hn
  | env henv =>
      obtain ⟨content, stamp, path, rfl⟩ := henv
      exact hn

/-- **While handles are left, the mount is the one with the unbounded counter.** -/
theorem steps_of_wrapping {c c' : Lib.Config τ (World τ δ ζ) Call Reply (@Res δ ζ)}
    (h : Lib.Steps (wrappingMount K M) c c') (hn : HandlesLeft c'.world) :
    Lib.Steps (mountSystem K M AnyChange) c c' :=
  Lib.Steps.within (S := mountSystem K M AnyChange) (fun _ _ _ _ _ hn he => exec_of_wrapping hn he)
    (fun _ _ hstep => handlesLeft_back hstep) h hn

theorem anyRun_of_wrapping {path : Option Stamp}
    {c : Lib.Config τ (World τ δ ζ) Call Reply (@Res δ ζ)}
    (h : Lib.Reachable (wrappingMount K M) (World.start M path) c) (hn : HandlesLeft c.world) :
    AnyRun K M path c :=
  Lib.Reachable.init.steps (steps_of_wrapping h.from_init hn)

/--
**The life of a handle.** In every run of a mount, for any number of threads and whatever
happens to the archive, while fewer than `2 ^ 64` handles have been drawn: no two opens are
answered with the same handle, and none with zero, which no read finds. Once an open is
answered with a handle, a `read` of it finds its file unless a `release` of it has been called;
and once a `release` of it is answered that was called since, every `read` of it that is called
after that is answered with `EBADF`. The draw after that many is zero again.
-/
theorem handle_lifecycle {path : Option Stamp}
    {c : Lib.Config τ (World τ δ ζ) Call Reply (@Res δ ζ)}
    (h : Lib.Reachable (wrappingMount K M) (World.start M path) c) (hn : HandlesLeft c.world) :
    (c.history.Pairwise fun e e' => ∀ ino mode fh ino' mode' fh', e.call = .openFile ino mode →
      e.reply = .opened fh → e'.call = .openFile ino' mode' → e'.reply = .opened fh' →
        fh ≠ fh') ∧
    (∀ e ∈ c.history, ∀ offset size, e.call = .read 0 offset size → e.reply = .error EBADF) ∧
    (∀ e ∈ c.history, ∀ ino mode fh, e.call = .openFile ino mode → e.reply = .opened fh →
      0 < fh ∧ fh < 2 ^ 64 ∧
      ∀ c', Lib.Steps (wrappingMount K M) c c' → HandlesLeft c'.world →
        (∀ e', CalledBetween c c' e' → ∀ offset size, e'.call = .read fh offset size →
          FileFound e'.thread e'.finish ∨ e'.reply = .error EBADF ∧ ReleaseCalled fh c') ∧
        ∀ e', CalledBetween c c' e' → e'.call = .release fh →
          ∀ c'' e'', Lib.Steps (wrappingMount K M) c' c'' → HandlesLeft c''.world →
            CalledBetween c' c'' e'' →
            ∀ offset size, e''.call = .read fh offset size → e''.reply = .error EBADF) ∧
    ∀ t fh w', wrappingDet K M t .nextHandle c.world = some (fh, w') →
      fh = if c.world.next = 2 ^ 64 then 0 else c.world.next := by
  obtain ⟨hdistinct, hzero, hlife⟩ := unbounded_lifecycle (anyRun_of_wrapping h hn)
  refine ⟨hdistinct, hzero, ?_, ?_⟩
  · intro e he ino mode fh hcall hreply
    obtain ⟨hpos, hbelow, hafter⟩ := hlife e he ino mode fh hcall hreply
    refine ⟨hpos, Nat.lt_of_lt_of_le hbelow hn, fun c' hsteps hn' => ?_⟩
    obtain ⟨hfound, hgone⟩ := hafter c' (steps_of_wrapping hsteps hn')
    refine ⟨hfound, fun e' hb hrelease c'' e'' hsteps' hn'' => ?_⟩
    exact hgone e' hb hrelease c'' e'' (steps_of_wrapping hsteps' hn'')
  · intro t fh w' he
    obtain rfl := (Prod.mk.inj (Option.some.inj he)).1
    have hle : c.world.next ≤ 2 ^ 64 := hn
    split
    · rename_i heq
      rw [heq, Nat.mod_self]
    · exact Nat.mod_eq_of_lt (by omega)

/-- A handle of the sample, and a read of the one that nobody has. -/
theorem handle_lifecycle_sample :
    ∃ c : Lib.Config Unit (World Unit Sample.Inflater Unit) Call Reply (@Res Sample.Inflater Unit),
      Lib.Reachable (wrappingMount Sample.codecs (Sample.mount 1 Sample.checksum))
        (World.start (Sample.mount 1 Sample.checksum) none) c ∧ HandlesLeft c.world ∧
      (∃ e ∈ c.history, e.call = .openFile 2 .rdonly ∧ e.reply = .opened 1) ∧
      ∃ e ∈ c.history, e.call = .read 0 0 10 ∧ e.reply = .error EBADF := by
  set M := Sample.mount 1 Sample.checksum
  set S := wrappingMount (τ := Unit) Sample.codecs M
  have hserve : (Lib.runCalls S (wrappingDet Sample.codecs M ()) ()
      [.openFile 2 .rdonly, .read 0 0 10] (World.start M none)).map (fun x => (x.1, x.2.next)) =
      some ([.opened 1, .error EBADF], 2) := by decide +kernel
  obtain ⟨⟨as, w⟩, hrun, hw⟩ := Option.map_eq_some_iff.mp hserve
  obtain ⟨rfl, hnext⟩ : as = [.opened 1, .error EBADF] ∧ w.next = 2 := Prod.mk.inj hw
  obtain ⟨c, hc, hworld, -, -, hall⟩ :=
    Lib.reachable_runCalls (fun _ _ _ _ h => Or.inl h) Lib.Reachable.init rfl hrun
  have hleft : HandlesLeft c.world := by
    rw [hworld]
    unfold HandlesLeft
    omega
  obtain ⟨e, he, hcall, hreply⟩ := hall (.openFile 2 .rdonly, .opened 1) (by simp)
  obtain ⟨e', he', hcall', -⟩ := hall (.read 0 0 10, .error EBADF) (by simp)
  exact ⟨c, hc, hleft, ⟨e, he, hcall, hreply⟩, e', he', hcall',
    (handle_lifecycle hc hleft).2.1 e' he' 0 10 hcall'⟩

end Calls

end ZipFs
