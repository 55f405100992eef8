import ZipFs.Lib.Order
import ZipFs.Mount.Parts
import ZipFs.Mount.Progress
import ZipFs.Mount.Sample

/-!
# Staleness is permanent

What the guard's flag does over whole runs, when the archive file and what its path
names may change in any way at any time, also back to what they were. Once a check has
found the archive changed the flag is up, it stays up, and every call that starts
afterwards and needs the archive is answered with `ESTALE`. It goes up only because an
examination of the stamps was answered, and differed.
-/

namespace ZipFs

open Lib (Safe Logic)

variable {τ δ ζ : Type}

/-- What everybody keeps of the guard's flag: it is not up without a reason, and stays up. -/
def staleProtocol (τ δ ζ : Type) : Lib.Protocol τ (World τ δ ζ) where
  inv w := w.stale = true → w.differed = true
  rely t w w' := (w.stale = true → w'.stale = true) ∧ (w.differed = true → w'.differed = true) ∧
    w'.seen t = w.seen t
  grow w w' := (w.stale = true → w'.stale = true) ∧ (w.differed = true → w'.differed = true)
  rely_refl _ _ := ⟨id, id, rfl⟩
  rely_trans _ _ _ _ h h' := ⟨h'.1 ∘ h.1, h'.2.1 ∘ h.2.1, h'.2.2.trans h.2.2⟩
  grow_refl _ := ⟨id, id⟩
  grow_trans _ _ _ h h' := ⟨h'.1 ∘ h.1, h'.2 ∘ h.2⟩
  grow_of_rely _ _ _ h := ⟨h.1, h.2.1⟩

section Ops

variable [DecidableEq τ] {K : Codecs δ ζ} {M : Mount} {t : τ} {α : Type}

/-- Among other threads, under the protocol of the flag. -/
abbrev StaleSafe (K : Codecs δ ζ) (M : Mount) (t : τ) (Q : α → World τ δ ζ → Prop)
    (p : Act δ ζ α) (w : World τ δ ζ) : Prop :=
  Safe (staleProtocol τ δ ζ) (exec K M) t Q p w

/-- Every operation but raising the flag keeps the protocol. -/
theorem stale_keeps {o : Op δ ζ} {w w' : World τ δ ζ} {r : Res o} (ho : o ≠ .swapStale)
    (hi : (staleProtocol τ δ ζ).inv w) (h : exec K M t o w r w') :
    (staleProtocol τ δ ζ).inv w' ∧ (staleProtocol τ δ ζ).grow w w' ∧
      ∀ u, u ≠ t → (staleProtocol τ δ ζ).rely u w w' := by
  have hf := exec_framed h
  have hstale : w.stale = true → w'.stale = true := fun hs => (hf.stale ho).trans hs
  refine ⟨fun hs => hf.differed (hi ((hf.stale ho).symm.trans hs)), ⟨hstale, hf.differed⟩, ?_⟩
  intro u hu
  refine ⟨hstale, hf.differed, ?_⟩
  rw [hf.seen, Function.update_of_ne hu]

/-- One operation, with what is known after it whatever the others do. -/
theorem safe_staleOp {o : Op δ ζ} {w : World τ δ ζ} {Q : Res o → World τ δ ζ → Prop}
    (ho : o ≠ .swapStale)
    (h : ∀ w₁ r w₂ w₃, (staleProtocol τ δ ζ).rely t w w₁ → exec K M t o w₁ r w₂ →
      (staleProtocol τ δ ζ).rely t w₂ w₃ → w₃.seen t = w.seen t ++ o.notes → Q r w₃) :
    StaleSafe K M t Q (.op o .ret) w := by
  intro w₁ h₁ hi r w₂ he
  obtain ⟨hi₂, hg, hu⟩ := stale_keeps ho hi he
  refine ⟨hi₂, hg, hu, fun w₃ h₃ _ => h w₁ r w₂ w₃ h₁ he h₃ ?_⟩
  rw [h₃.2.2, (exec_framed he).seen, Function.update_self, h₁.2.2]

/-- An operation that records nothing. -/
theorem safe_quietOp {o : Op δ ζ} {w : World τ δ ζ} (ho : o ≠ .swapStale) (hn : o.notes = []) :
    StaleSafe K M t (fun _ w' => w'.seen t = w.seen t) (.op o .ret) w := by
  refine safe_staleOp ho ?_
  intro w₁ r w₂ w₃ _ _ _ hseen
  rw [hseen, hn, List.append_nil]

/-! ## Checks -/

/-- A comparison that finds a change was answered with a stamp that differs. -/
theorem safe_compareStamps {w : World τ δ ζ} (hi : (staleProtocol τ δ ζ).inv w) :
    StaleSafe K M t (fun found w' => w'.seen t = w.seen t ∧
      ∀ change, found = .ok (some change) → w'.differed = true)
      (GuardedFile.compareStamps M) w := by
  unfold GuardedFile.compareStamps
  have hstat : StaleSafe K M t (fun r w' => w'.seen t = w.seen t ∧
      ∀ stamp, r = .ok stamp → stamp.unchanged M.opened = false → w'.differed = true)
      Act.fstat w := by
    refine safe_staleOp (o := .fstat) (by simp) ?_
    intro w₁ r w₂ w₃ _ he h₃ hseen
    refine ⟨hseen.trans (List.append_nil _), fun stamp hr hne => h₃.2.1 ?_⟩
    subst hr
    rcases he with he | ⟨⟨e, he⟩, -⟩
    · obtain ⟨hr, rfl⟩ := Prod.mk.inj (Option.some.inj he)
      obtain rfl := Except.ok.inj hr
      simp [hne]
    · exact absurd he (by simp)
  have hnamed : ∀ {w₀ : World τ δ ζ}, w₀.seen t = w.seen t →
      StaleSafe K M t (fun r w' => w'.seen t = w.seen t ∧
        ((∃ e : IoError, e.kind = .notFound ∧ r = .error e) ∨
          (∃ st, r = .ok st ∧ (st.sameFile M.opened && st.unchanged M.opened) = false) →
          w'.differed = true)) Act.statNamed w₀ := by
    intro w₀ h₀
    refine safe_staleOp (o := .statNamed) (by simp) ?_
    intro w₁ r w₂ w₃ _ he h₃ hseen
    refine ⟨(hseen.trans (List.append_nil _)).trans h₀, fun hr => h₃.2.1 ?_⟩
    rcases he with he | ⟨⟨e, hkind, rfl⟩, rfl⟩
    · simp only [det] at he
      split at he
      · obtain ⟨-, rfl⟩ := Prod.mk.inj (Option.some.inj he)
        rfl
      · obtain ⟨rfl, rfl⟩ := Prod.mk.inj (Option.some.inj he)
        rcases hr with ⟨e, -, he⟩ | ⟨st, hst, hne⟩
        · exact absurd he (by simp)
        · obtain rfl := Except.ok.inj hst
          rcases Bool.and_eq_false_iff.mp hne with hne | hne
          · simp [hne]
          · simp [hne]
    · rcases hr with ⟨e', hkind', he⟩ | ⟨st, hst, -⟩
      · exact absurd (Except.error.inj he ▸ hkind') hkind
      · exact absurd hst (by simp)
  refine Safe.bind hi (hstat.mono ?_)
  intro r w₁ hi₁ hpost
  obtain ⟨hseen₁, hdiff₁⟩ := hpost
  split
  · exact .ret fun w₂ h₂ _ => ⟨h₂.2.2.trans hseen₁, (by simp)⟩
  · split
    · split
      · refine Safe.bind hi₁ ((hnamed hseen₁).mono ?_)
        intro r w₂ hi₂ hpost
        obtain ⟨hseen₂, hdiff₂⟩ := hpost
        split
        · rename_i e
          split
          · rename_i hkind
            exact .ret fun w₃ h₃ _ =>
              ⟨h₃.2.2.trans hseen₂, fun _ _ => h₃.2.1 (hdiff₂ (.inl ⟨e, hkind, rfl⟩))⟩
          · exact .ret fun w₃ h₃ _ => ⟨h₃.2.2.trans hseen₂, (by simp)⟩
        · rename_i named
          split
          · split
            · exact .ret fun w₃ h₃ _ => ⟨h₃.2.2.trans hseen₂, (by simp)⟩
            · rename_i hun
              refine .ret fun w₃ h₃ _ => ⟨h₃.2.2.trans hseen₂, fun _ _ => h₃.2.1 (hdiff₂ ?_)⟩
              exact .inr ⟨named, rfl, by simp [hun]⟩
          · rename_i hsame
            refine .ret fun w₃ h₃ _ => ⟨h₃.2.2.trans hseen₂, fun _ _ => h₃.2.1 (hdiff₂ ?_)⟩
            exact .inr ⟨named, rfl, by simp [hsame]⟩
      · exact .ret fun w₂ h₂ _ => ⟨h₂.2.2.trans hseen₁, (by simp)⟩
    · rename_i stamp hun
      exact .ret fun w₂ h₂ _ =>
        ⟨h₂.2.2.trans hseen₁, fun _ _ => h₂.2.1 (hdiff₁ stamp rfl (by simpa using hun))⟩

/-- What a check of the archive with result `r` adds to the record `xs` of its call. -/
def CheckNoted (t : τ) (xs : List Note) (r : Except IoError Unit) (w : World τ δ ζ) : Prop :=
  ∃ extra, w.seen t = xs ++ extra ∧ Note.diagnosing ∉ extra ∧
    ∀ change, Note.compared (.ok (some change)) ∈ extra → w.stale = true ∧ r = .error staleError

omit [DecidableEq τ] in
theorem CheckNoted.of_compared {xs : List Note} {r : Except IoError Unit} {w : World τ δ ζ}
    {found : Except IoError (Option Change)} (hseen : w.seen t = xs ++ [.compared found])
    (hfound : ∀ change, found = .ok (some change) → w.stale = true ∧ r = .error staleError) :
    CheckNoted t xs r w := by
  refine ⟨_, hseen, by simp, fun change hc => ?_⟩
  rw [List.mem_singleton] at hc
  exact hfound change (Note.compared.inj hc).symm

/-- Raising the flag, for a reason. -/
theorem safe_mark {w : World τ δ ζ} (hd : w.differed = true) :
    StaleSafe K M t (fun _ w' => w'.seen t = w.seen t ∧ w'.stale = true)
      (GuardedFile.mark : Act δ ζ Unit) w := by
  intro w₁ h₁ hi₁ r w₂ he
  have hf := exec_framed he
  have hseen : w₂.seen t = w₁.seen t := by
    rw [hf.seen, Function.update_self]
    exact List.append_nil _
  have hd₂ : w₂.differed = true := hf.differed (h₁.2.1 hd)
  have hup : w₂.stale = true := by
    rcases he with he | ⟨he, -⟩
    · obtain rfl := (Prod.mk.inj (Option.some.inj he)).2
      rfl
    · exact he.elim
  refine ⟨fun _ => hd₂,
    ⟨fun _ => hup, fun _ => hd₂⟩, fun u hu => ⟨fun _ => hup, fun _ => hd₂, ?_⟩, ?_⟩
  · rw [hf.seen, Function.update_of_ne hu]
  · exact fun w₃ h₃ _ => ⟨h₃.2.2.trans (hseen.trans h₁.2.2), h₃.1 hup⟩

/-- **A check that finds a change leaves the flag up.** -/
theorem safe_guardVerify {w : World τ δ ζ} (hi : (staleProtocol τ δ ζ).inv w) :
    StaleSafe K M t (fun r w' => CheckNoted t (w.seen t) r w') (GuardedFile.verify M) w := by
  unfold GuardedFile.verify
  refine Safe.bind hi ((safe_quietOp (o := .loadStale) (by simp) rfl).mono ?_)
  intro stale w₁ hi₁ hseen₁
  split
  · exact .ret fun w₂ h₂ _ => ⟨[], by rw [h₂.2.2, hseen₁, List.append_nil], by simp, by simp⟩
  · refine Safe.bind hi₁ ((safe_compareStamps hi₁).mono ?_)
    intro found w₂ hi₂ hpost
    obtain ⟨hseen₂, hdiff₂⟩ := hpost
    have hnote : StaleSafe K M t (fun _ w' => w'.seen t = w.seen t ++ [.compared found] ∧
        ∀ change, found = .ok (some change) → w'.differed = true)
          (Act.note (.compared found)) w₂ := by
      refine safe_staleOp (o := .note (.compared found)) (by simp) ?_
      intro w₃ r w₄ w₅ h₃ he h₅ hseen
      refine ⟨?_, fun change hc => h₅.2.1 ((exec_framed he).differed (h₃.2.1 (hdiff₂ change hc)))⟩
      rw [hseen, hseen₂, hseen₁]
      rfl
    refine Safe.bind hi₂ (hnote.mono ?_)
    intro _ w₃ hi₃ hpost
    obtain ⟨hseen₃, hdiff₃⟩ := hpost
    split
    · have hnone : ∀ {w' : World τ δ ζ}, w'.seen t = w₃.seen t →
          CheckNoted t (w.seen t) (.ok ()) w' :=
        fun hs => .of_compared (hs.trans hseen₃) (by simp)
      refine Safe.bind hi₃ ((safe_quietOp (o := .loadUnsure) (by simp) rfl).mono ?_)
      intro unsure w₄ hi₄ hseen₄
      split
      · refine Safe.bind hi₄ ((safe_quietOp (o := .swapUnsure false) (by simp) rfl).mono ?_)
        intro _ w₅ _ hseen₅
        exact .ret fun w₆ h₆ _ => hnone (h₆.2.2.trans (hseen₅.trans hseen₄))
      · exact .ret fun w₅ h₅ _ => hnone (h₅.2.2.trans hseen₄)
    · rename_i change
      refine Safe.bind hi₃
        (Safe.mono (Q := fun _ w' => w'.seen t = w₃.seen t ∧ w'.stale = true) ?_ ?_)
      · exact safe_mark (hdiff₃ change rfl)
      · intro _ w₄ _ hpost
        obtain ⟨hseen₄, hstale₄⟩ := hpost
        exact .ret fun w₅ h₅ _ =>
          .of_compared (h₅.2.2.trans (hseen₄.trans hseen₃)) fun _ _ => ⟨h₅.1 hstale₄, rfl⟩
    · refine Safe.bind hi₃ ((safe_quietOp (o := .swapUnsure true) (by simp) rfl).mono ?_)
      intro _ w₄ _ hseen₄
      exact .ret fun w₅ h₅ _ => .of_compared (h₅.2.2.trans (hseen₄.trans hseen₃)) (by simp)

/-! ## Calls that keep a condition -/

/-- Not an operation of a check or of a diagnosis. -/
def Op.Quiet (o : Op δ ζ) : Prop :=
  o ≠ .swapStale ∧ Note.diagnosing ∉ o.notes ∧ ∀ found, Note.compared found ∉ o.notes

theorem Op.Serves.quiet {F : Bool → Prop} {o : Op δ ζ} (h : o.Serves F) : o.Quiet := by
  refine ⟨?_, ?_, ?_⟩
  · rintro rfl
    exact h
  · cases o with
    | note n =>
        rintro hn
        obtain rfl := List.mem_singleton.mp hn
        exact h
    | _ => exact List.not_mem_nil
  · cases o with
    | note n =>
        rintro found hn
        obtain rfl := List.mem_singleton.mp hn
        exact h
    | _ => exact fun _ => List.not_mem_nil

section Keeping

variable {I : World τ δ ζ → Prop}

/-- A judgement about the programs of one thread, among others that respect the flag. -/
abbrev staleKeeping (K : Codecs δ ζ) (M : Mount) {t : τ}
    (hI : (staleProtocol τ δ ζ).Stable t I) : Logic (@Res δ ζ) :=
  Lib.keeping (staleProtocol τ δ ζ) (exec K M) t hI

theorem holds_staleOp (hI : (staleProtocol τ δ ζ).Stable t I) {o : Op δ ζ} {Q : Res o → Prop}
    (ho : o ≠ .swapStale) (h : ∀ w r w', I w → exec K M t o w r w' → Q r ∧ I w') :
    (staleKeeping K M hI).Holds (.op o .ret) Q := by
  refine Lib.keeping_op hI ?_
  intro w hi hw r w' he
  obtain ⟨hi', hg, hu⟩ := stale_keeps ho hi he
  exact ⟨hi', hg, hu, h w r w' hw he⟩

/-- What a condition must withstand for the program's functions to keep it. -/
theorem stale_permits (hI : (staleProtocol τ δ ζ).Stable t I)
    (hv : (staleKeeping K M hI).Accepts (GuardedFile.verify M))
    (ho : ∀ (o : Op δ ζ) w r w', o.Quiet → I w → exec K M t o w r w' → I w') :
    PermitsPick (staleKeeping K M hI) M (fun _ => True) (Op.Serves fun _ => True) where
  verify := hv
  op o hserves := by
    refine holds_staleOp hI hserves.quiet.1 ?_
    exact fun w r w' hw he => ⟨trivial, ho o w r w' hserves.quiet hw he⟩
  fresh := trivial
  pick id offset := by
    refine holds_staleOp (o := .pick id offset) hI (by simp) ?_
    intro w r w' hw he
    exact ⟨fun _ _ => trivial,
      ho _ w r w' ⟨(by simp), List.not_mem_nil, fun _ => List.not_mem_nil⟩ hw he⟩

end Keeping

/-! ## Calls that start after the flag is up -/

/-- The flag is up. -/
def Up (w : World τ δ ζ) : Prop := w.stale = true

omit [DecidableEq τ] in
theorem up_stable : (staleProtocol τ δ ζ).Stable t Up := fun _ _ hr _ h => hr.1 h

theorem holds_isStale :
    (staleKeeping K M (t := t) up_stable).Holds GuardedFile.isStale (· = true) := by
  refine holds_staleOp (o := .loadStale) up_stable (by simp) ?_
  intro w r w' hw he
  rcases he with he | ⟨he, -⟩
  · obtain ⟨rfl, rfl⟩ := Prod.mk.inj (Option.some.inj he)
    exact ⟨hw, hw⟩
  · exact he.elim

theorem holds_verify_up :
    (staleKeeping K M (t := t) up_stable).Holds (GuardedFile.verify M) (· = .error staleError) := by
  unfold GuardedFile.verify
  refine Logic.bind _ holds_isStale fun stale hstale => ?_
  rw [if_pos hstale]
  exact Logic.pure _ rfl

theorem up_permits :
    PermitsPick (staleKeeping K M (t := t) up_stable) M (fun _ => True) (Op.Serves fun _ => True) :=
  stale_permits up_stable (Logic.accepts holds_verify_up) fun _ _ _ _ ho hw he =>
    ((exec_framed he).stale ho.1).trans hw

theorem accepts_diagnosing :
    (staleKeeping K M (t := t) up_stable).Accepts (Act.note .diagnosing) := by
  refine holds_staleOp (o := .note .diagnosing) up_stable (by simp) ?_
  exact fun w r w' hw he => ⟨trivial, ((exec_framed he).stale (by simp)).trans hw⟩

theorem holds_locate_up (i : Nat) (m : EntryMeta) :
    (staleKeeping K M (t := t) up_stable).Holds (Fs.locate M i m) (· = .error ESTALE) := by
  unfold Fs.locate
  refine Logic.bind _ holds_isStale fun stale hstale => ?_
  rw [if_pos hstale]
  exact Logic.pure _ rfl

/-- An error is reported as a change, if it says so or is diagnosed. -/
theorem holds_diagnose_up {errno : Nat} (h : errno = EIO ∨ errno = ESTALE) :
    (staleKeeping K M (t := t) up_stable).Holds (Fs.diagnose M errno) (· = ESTALE) := by
  unfold Fs.diagnose
  split
  · refine Logic.seq accepts_diagnosing fun _ => ?_
    unfold Archive.check GuardedFile.check
    refine Logic.bind _ (Q := (· = .stale)) ?_ fun found hfound => ?_
    · refine Logic.bind _ holds_verify_up fun r hr => ?_
      rw [hr]
      refine Logic.bind _ holds_isStale fun stale hstale => ?_
      rw [if_pos hstale]
      exact Logic.pure _ rfl
    · rw [if_pos hfound]
      exact Logic.pure _ rfl
  · rename_i hne
    exact Logic.pure _ (h.resolve_left hne)

theorem holds_readAll_up (i : Nat) (m : EntryMeta) (limit : Nat) :
    (staleKeeping K M (t := t) up_stable).Holds (Fs.readAll K M i m limit)
      fun r => r = .error EIO ∨ r = .error ESTALE := by
  unfold Fs.readAll
  refine Logic.seq (up_permits.op (.loadVerify i) trivial) fun state => ?_
  split
  · exact Logic.pure _ (.inl rfl)
  · refine Logic.bind _ (holds_locate_up i m) fun found hfound => ?_
    rw [hfound]
    exact Logic.pure _ (.inr rfl)

/-- What a call that starts with the flag up replies. -/
def Refused (M : Mount) (t : τ) (call : Call) (reply : Reply) (w : World τ δ ζ) : Prop :=
  match call with
  | .openFile ino mode => mode = .rdonly → ∀ node m, M.index.node ino = some node →
      node.kind ≠ .dir → M.index.metaOf node = some m → reply = .error ESTALE
  | .read _ _ _ => Note.handleFound ∈ w.seen t → reply = .error ESTALE
  | .readlink _ => Note.targetMissing ∈ w.seen t → reply = .error ESTALE
  | .release _ => True
  | .readAt _ _ | .readExactAt _ _ => reply = .bytes (.error staleError)

theorem holds_openFile_up {ino : Nat} {node : Node} {m : EntryMeta}
    (hnode : M.index.node ino = some node) (hkind : node.kind ≠ .dir)
    (hmeta : M.index.metaOf node = some m) :
    (staleKeeping K M (t := t) up_stable).Holds (Fs.openFile M ino .rdonly)
      (· = .error ESTALE) := by
  unfold Fs.openFile
  rw [hnode]
  dsimp only
  rw [if_neg hkind, if_neg (by simp), hmeta]
  refine Logic.bind _ (holds_locate_up node.metaIdx m) fun found hfound => ?_
  rw [hfound]
  refine Logic.bind _ (holds_diagnose_up (.inr rfl)) fun errno herrno => ?_
  rw [herrno]
  exact Logic.pure _ rfl

theorem holds_readFile_up (file : OpenFile) (offset size : Nat) :
    (staleKeeping K M (t := t) up_stable).Holds (Fs.readFile K M file offset size)
      (· = .error ESTALE) := by
  unfold Fs.readFile
  refine Logic.bind _ holds_isStale fun stale hstale => ?_
  rw [if_pos hstale]
  exact Logic.pure _ rfl

/-- What `readlink` does when the target is not cached. -/
theorem holds_uncached_up (i : Nat) (m : EntryMeta) :
    (staleKeeping K M (t := t) up_stable).Holds (do
      Act.note .targetMissing
      match ← Fs.readAll K M i m MAX_SYMLINK with
      | .ok target =>
          match ← Act.setSymlink m.symlinkSlot target with
          | some target => pure (.data target)
          | none => pure (.error EIO)
      | .error e =>
          let errno ← Fs.diagnose M e
          pure (.error errno)) (· = Reply.error ESTALE) := by
  refine Logic.seq (up_permits.op (.note .targetMissing) trivial) fun _ => ?_
  refine Logic.bind _ (holds_readAll_up i m MAX_SYMLINK) fun r hr => ?_
  have herrno : ∃ errno, r = .error errno ∧ (errno = EIO ∨ errno = ESTALE) := by
    rcases hr with rfl | rfl
    · exact ⟨ EIO, rfl, .inl rfl⟩
    · exact ⟨ESTALE, rfl, .inr rfl⟩
  obtain ⟨errno, rfl, herrno⟩ := herrno
  refine Logic.bind _ (holds_diagnose_up herrno) fun errno' h => ?_
  rw [h]
  exact Logic.pure _ rfl

/-- The first operation of a call that has recorded nothing yet. -/
theorem safe_first {o : Op δ ζ} {w : World τ δ ζ} (ho : o ≠ .swapStale) (hn : o.notes = [])
    (hup : Up w) (hseen : w.seen t = []) :
    StaleSafe K M t (fun _ w' => Up w' ∧ w'.seen t = []) (.op o .ret) w := by
  refine safe_staleOp ho ?_
  intro w₁ r w₂ w₃ h₁ he h₃ hs
  refine ⟨h₃.1 (((exec_framed he).stale ho).trans (h₁.1 hup)), ?_⟩
  rw [hs, hseen, hn]
  rfl

/-- **Calls that start with the flag up are refused.** -/
theorem safe_refused (call : Call) {w : World τ δ ζ} (hi : (staleProtocol τ δ ζ).inv w)
    (hup : Up w) (hseen : w.seen t = []) :
    StaleSafe K M t (fun reply w' => Refused M t call reply w') (call.prog K M) w := by
  have hp := up_permits (K := K) (M := M) (t := t)
  have hserves := hp.op
  have hreads := hp.weaken fun o (ho : o.Reads) => (ho.locates).serves
  have hany := fun call => accepts_prog (K := K) hp accepts_diagnosing call
  cases call with
  | openFile ino mode =>
      by_cases hok : mode = .rdonly ∧ ∃ node m, M.index.node ino = some node ∧ node.kind ≠ .dir ∧
          M.index.metaOf node = some m
      · obtain ⟨rfl, node, m, hnode, hkind, hmeta⟩ := hok
        refine ((holds_openFile_up hnode hkind hmeta) w hi hup).mono ?_
        exact fun reply w' _ h _ _ _ _ _ _ => h.1
      · refine Safe.mono (Q := fun _ _ => True) ?_ ?_
        · exact (hany (.openFile ino mode) w hi hup).mono fun _ _ _ _ => trivial
        · intro reply w' _ _ hmode node m hnode hkind hmeta
          exact absurd ⟨hmode, node, m, hnode, hkind, hmeta⟩ hok
  | read fh offset size =>
      refine Safe.bind hi ((safe_first (o := .getHandle fh) (by simp) rfl hup hseen).mono ?_)
      intro found w₁ hi₁ h₁
      split
      · refine .ret fun w₂ h₂ _ hfound => ?_
        rw [h₂.2.2, h₁.2] at hfound
        exact absurd hfound (by simp)
      · rename_i file
        have hrest : (staleKeeping K M (t := t) up_stable).Holds (do
            Act.note .handleFound
            let reply ← Fs.readFile K M file offset size
            file.release fh
            pure reply) (· = .error ESTALE) := by
          refine Logic.seq (hserves (.note .handleFound) trivial) fun _ => ?_
          refine Logic.bind _ (holds_readFile_up file offset size) fun reply hreply => ?_
          exact Logic.seq (accepts_releaseFile hserves fh file) fun _ => Logic.pure _ hreply
        exact (hrest w₁ hi₁ h₁.1).mono fun reply w' _ h _ => h.1
  | readlink ino =>
      have hquiet : ∀ reply : Reply, StaleSafe K M t
          (fun reply w' => Refused M t (.readlink ino) reply w') (pure reply) w := by
        refine fun reply => .ret fun w₁ h₁ _ hmissing => ?_
        rw [h₁.2.2, hseen] at hmissing
        exact absurd hmissing (by simp)
      change StaleSafe K M t _ (Fs.readlink K M ino) w
      unfold Fs.readlink
      split
      · exact hquiet _
      · rename_i node _
        split
        · exact hquiet _
        · split
          · exact hquiet _
          · rename_i m _
            refine Safe.bind hi
              ((safe_first (o := .getSymlink m.symlinkSlot) (by simp) rfl hup hseen).mono ?_)
            intro cached w₁ hi₁ h₁
            split
            · refine .ret fun w₂ h₂ _ hmissing => ?_
              rw [h₂.2.2, h₁.2] at hmissing
              exact absurd hmissing (by simp)
            · refine (holds_uncached_up node.metaIdx m w₁ hi₁ h₁.1).mono ?_
              exact fun reply w' _ h _ => h.1
  | release fh => exact (hany (.release fh) w hi hup).mono fun _ _ _ _ => trivial
  | readAt len offset =>
      have hrest : (staleKeeping K M (t := t) up_stable).Holds ((Call.readAt len offset).prog K M)
          (· = .bytes (.error staleError)) := by
        refine Logic.bind _ (Q := (· = .error staleError)) ?_ fun r hr => ?_
        · unfold GuardedFile.readAt
          refine Logic.seq (accepts_fileReadAt hreads len offset) fun read => ?_
          refine Logic.bind _ holds_verify_up fun verified hverified => ?_
          rw [hverified]
          exact Logic.pure _ rfl
        · rw [hr]
          exact Logic.pure _ rfl
      exact (hrest w hi hup).mono fun reply w' _ h => h.1
  | readExactAt buf offset =>
      have hrest : (staleKeeping K M (t := t) up_stable).Holds
          ((Call.readExactAt buf offset).prog K M) (· = .bytes (.error staleError)) := by
        refine Logic.bind _ (Q := fun x => x.2 = .error staleError) ?_ fun x hx => ?_
        · unfold GuardedFile.readExactAt
          refine Logic.seq (accepts_fileReadExactAt hreads buf offset) fun read => ?_
          refine Logic.bind _ holds_verify_up fun verified hverified => ?_
          rw [hverified]
          exact Logic.pure _ rfl
        · rcases x with ⟨got, r⟩
          obtain rfl : r = .error staleError := hx
          exact Logic.pure _ rfl
      exact (hrest w hi hup).mono fun reply w' _ h => h.1

/-! ## Diagnoses -/

/-- No error of the call has been diagnosed, and every change that it found is known. -/
def Undiagnosed (t : τ) (w : World τ δ ζ) : Prop :=
  Note.diagnosing ∉ w.seen t ∧
    ∀ change, Note.compared (.ok (some change)) ∈ w.seen t → w.stale = true

/-- Every change that the call found is known, and one that its diagnosis found is its reply. -/
def Settled (t : τ) (reply : Reply) (w : World τ δ ζ) : Prop :=
  (∀ change, Note.compared (.ok (some change)) ∈ w.seen t → w.stale = true) ∧
    ∀ xs extra change, w.seen t = xs ++ .diagnosing :: extra →
      Note.compared (.ok (some change)) ∈ extra → reply = .error ESTALE

omit [DecidableEq τ] in
theorem known_lasting (xs : List Note) : (staleProtocol τ δ ζ).Lasting fun w =>
    ∀ change, Note.compared (.ok (some change)) ∈ xs → w.stale = true :=
  fun _ _ hg h change hc => hg.1 (h change hc)

omit [DecidableEq τ] in
theorem undiagnosed_stable : (staleProtocol τ δ ζ).Stable t (Undiagnosed t) := by
  intro w w' hr _ h
  unfold Undiagnosed
  rw [hr.2.2]
  exact ⟨h.1, fun change hc => hr.1 (h.2 change hc)⟩

omit [DecidableEq τ] in
theorem settled_stable (reply : Reply) : (staleProtocol τ δ ζ).Stable t (Settled t reply) := by
  intro w w' hr _ h
  unfold Settled
  rw [hr.2.2]
  exact ⟨fun change hc => hr.1 (h.1 change hc), h.2⟩

omit [DecidableEq τ] in
theorem Undiagnosed.settled {reply : Reply} {w : World τ δ ζ} (h : Undiagnosed t w) :
    Settled t reply w := by
  refine ⟨h.2, fun xs extra change hseen _ => absurd ?_ h.1⟩
  rw [hseen]
  simp

/-- Quiet operations add nothing that matters here. -/
theorem Undiagnosed.op {o : Op δ ζ} {w w' : World τ δ ζ} {r : Res o} (h : Undiagnosed t w)
    (ho : o.Quiet) (he : exec K M t o w r w') : Undiagnosed t w' := by
  have hf := exec_framed he
  have hseen : w'.seen t = w.seen t ++ o.notes := by rw [hf.seen, Function.update_self]
  refine ⟨?_, fun change hc => (hf.stale ho.1).trans (h.2 change ?_)⟩
  · rw [hseen, List.mem_append]
    exact fun hd => hd.elim h.1 ho.2.1
  · rw [hseen, List.mem_append] at hc
    exact hc.resolve_right (ho.2.2 _)

theorem Settled.op {reply : Reply} {o : Op δ ζ} {w w' : World τ δ ζ} {r : Res o}
    (h : Settled t reply w) (ho : o.Quiet) (he : exec K M t o w r w') : Settled t reply w' := by
  have hf := exec_framed he
  have hseen : w'.seen t = w.seen t ++ o.notes := by rw [hf.seen, Function.update_self]
  refine ⟨fun change hc => (hf.stale ho.1).trans (h.1 change ?_), ?_⟩
  · rw [hseen, List.mem_append] at hc
    exact hc.resolve_right (ho.2.2 _)
  · intro xs extra change hsplit hc
    rw [hseen] at hsplit
    rcases List.append_eq_append_iff.mp hsplit with ⟨ys, -, hys⟩ | ⟨ys, hxs, hys⟩
    · exact absurd (hys ▸ List.mem_append_right ys List.mem_cons_self) ho.2.1
    · cases ys with
      | nil =>
          rw [List.nil_append] at hys
          exact absurd (hys ▸ List.mem_cons_self) ho.2.1
      | cons y ys =>
          obtain ⟨rfl, rfl⟩ := List.cons.inj hys
          rcases List.mem_append.mp hc with hc | hc
          · exact h.2 xs ys change hxs hc
          · exact absurd hc (ho.2.2 _)

theorem undiagnosed_permits : PermitsPick (staleKeeping K M (t := t) undiagnosed_stable) M
    (fun _ => True) (Op.Serves fun _ => True) := by
  refine stale_permits undiagnosed_stable ?_ fun o w r w' ho h he => h.op ho he
  intro w hi hw
  refine ((safe_guardVerify hi).lasting (known_lasting (w.seen t)) hw.2).mono ?_
  intro r w' _ hpost
  obtain ⟨⟨extra, hseen, hno, hfound⟩, hold⟩ := hpost
  refine ⟨trivial, ?_, ?_⟩
  · rw [hseen, List.mem_append]
    exact fun hd => hd.elim hw.1 hno
  · intro change hc
    rw [hseen, List.mem_append] at hc
    exact hc.elim (hold change) fun hc => (hfound change hc).1

/-- A check says what it found, and adds to the record `xs` of its call that it did. -/
theorem safe_check {w : World τ δ ζ} (hi : (staleProtocol τ δ ζ).inv w) :
    StaleSafe K M t (fun found w' => ∃ extra, w'.seen t = w.seen t ++ extra ∧
      Note.diagnosing ∉ extra ∧ ∀ change, Note.compared (.ok (some change)) ∈ extra →
        w'.stale = true ∧ found = .stale) (Archive.check M) w := by
  unfold Archive.check GuardedFile.check
  refine Safe.bind hi ((safe_guardVerify hi).mono ?_)
  intro r w₁ hi₁ hpost
  obtain ⟨extra, hseen₁, hno, hfound⟩ := hpost
  split
  · refine .ret fun w₂ h₂ _ => ⟨extra, h₂.2.2.trans hseen₁, hno, fun change hc => ?_⟩
    exact absurd (hfound change hc).2 (by simp)
  · have hload : StaleSafe K M t (fun b w' => w'.seen t = w₁.seen t ∧
        (w₁.stale = true → w'.stale = true ∧ b = true)) GuardedFile.isStale w₁ := by
      refine safe_staleOp (o := .loadStale) (by simp) ?_
      intro w₂ b w₃ w₄ h₂ he h₄ hseen
      refine ⟨hseen.trans (List.append_nil _), fun hs => ?_⟩
      rcases he with he | ⟨he, -⟩
      · obtain ⟨rfl, rfl⟩ := Prod.mk.inj (Option.some.inj he)
        exact ⟨h₄.1 (h₂.1 hs), h₂.1 hs⟩
      · exact he.elim
    refine Safe.bind hi₁ (hload.mono ?_)
    intro b w₂ _ hpost
    obtain ⟨hseen₂, hup⟩ := hpost
    split
    · exact .ret fun w₃ h₃ _ => ⟨extra, h₃.2.2.trans (hseen₂.trans hseen₁), hno,
        fun change hc => ⟨h₃.1 (hup (hfound change hc).1).1, rfl⟩⟩
    · rename_i hdown
      refine .ret fun w₃ h₃ _ => ⟨extra, h₃.2.2.trans (hseen₂.trans hseen₁), hno, ?_⟩
      exact fun change hc => absurd (hup (hfound change hc).1).2 hdown

/-- **A diagnosis that finds a change reports it.** -/
theorem safe_diagnose {w : World τ δ ζ} (hi : (staleProtocol τ δ ζ).inv w)
    (hw : Undiagnosed t w) (errno : Nat) :
    StaleSafe K M t (fun errno w' => Settled t (.error errno) w') (Fs.diagnose M errno) w := by
  unfold Fs.diagnose
  split
  · have hnote : StaleSafe K M t (fun _ w' => w'.seen t = w.seen t ++ [.diagnosing] ∧
        ∀ change, Note.compared (.ok (some change)) ∈ w.seen t → w'.stale = true)
        (Act.note .diagnosing) w := by
      refine safe_staleOp (o := .note .diagnosing) (by simp) ?_
      intro w₁ r w₂ w₃ h₁ he h₃ hseen
      refine ⟨hseen, fun change hc => h₃.1 (((exec_framed he).stale (by simp)).trans (h₁.1 ?_))⟩
      exact hw.2 change hc
    refine Safe.bind hi (hnote.mono ?_)
    intro _ w₁ hi₁ hpost
    obtain ⟨hseen₁, hold₁⟩ := hpost
    refine Safe.bind hi₁ (((safe_check hi₁).lasting (known_lasting (w.seen t)) hold₁).mono ?_)
    intro found w₂ _ hpost
    obtain ⟨⟨extra, hseen₂, hno, hfound⟩, hold₂⟩ := hpost
    rw [hseen₁, List.append_assoc, List.singleton_append] at hseen₂
    refine .ret fun w₃ h₃ _ => ⟨?_, ?_⟩
    · intro change hc
      rw [h₃.2.2, hseen₂, List.mem_append, List.mem_cons] at hc
      rcases hc with hc | hc | hc
      · exact h₃.1 (hold₂ change hc)
      · exact absurd hc (by simp)
      · exact h₃.1 (hfound change hc).1
    · intro xs extra' change hsplit hc
      rw [h₃.2.2, hseen₂] at hsplit
      obtain ⟨-, -, rfl⟩ := (List.append_cons_inj_of_notMem hw.1 hno).mp hsplit
      rw [if_pos (hfound change hc).2]
  · exact .ret fun w₁ h₁ hi₁ => (undiagnosed_stable w w₁ h₁ hi₁ hw).settled

section Settled

variable {β : Type} {w : World τ δ ζ}

/-- A program of an undiagnosed call, followed by another. -/
theorem safe_then {p : Act δ ζ β} {f : β → Act δ ζ α} {Q : α → World τ δ ζ → Prop}
    (hp : (staleKeeping K M (t := t) undiagnosed_stable).Accepts p)
    (hi : (staleProtocol τ δ ζ).inv w) (hw : Undiagnosed t w)
    (hf : ∀ a w', (staleProtocol τ δ ζ).inv w' → Undiagnosed t w' → StaleSafe K M t Q (f a) w') :
    StaleSafe K M t Q (p >>= f) w :=
  Safe.bind hi ((hp w hi hw).mono fun a w' hi' h => hf a w' hi' h.2)

/-- A call that returns undiagnosed. -/
theorem safe_settled_ret (hw : Undiagnosed t w) (reply : Reply) :
    StaleSafe K M t (Settled t) (pure reply) w :=
  .ret fun w' h' hi' => (undiagnosed_stable w w' h' hi' hw).settled

/-- A call that returns what the diagnosis says. -/
theorem safe_settled_error (hi : (staleProtocol τ δ ζ).inv w) (hw : Undiagnosed t w)
    (errno : Nat) :
    StaleSafe K M t (Settled t) (do
      let errno ← Fs.diagnose M errno
      pure (Reply.error errno)) w := by
  refine Safe.bind hi ((safe_diagnose hi hw errno).mono ?_)
  intro errno w' _ h
  exact .ret fun w'' h'' hi'' => settled_stable _ w' w'' h'' hi'' h

theorem safe_openFile_settled (hi : (staleProtocol τ δ ζ).inv w) (hw : Undiagnosed t w)
    (ino : Nat) (mode : AccMode) :
    StaleSafe K M t (Settled t) (Fs.openFile M ino mode) w := by
  have hp := undiagnosed_permits (K := K) (M := M) (t := t)
  unfold Fs.openFile
  split
  · exact safe_settled_ret hw _
  · split
    · exact safe_settled_ret hw _
    · split
      · exact safe_settled_ret hw _
      · split
        · exact safe_settled_ret hw _
        · refine safe_then (accepts_locate (hp.weaken fun _ => Op.Locates.serves) _ _) hi hw ?_
          intro found w₁ hi₁ hw₁
          split
          · exact safe_settled_error hi₁ hw₁ _
          · refine safe_then (accepts_newFile hp.op _ _ _ _) hi₁ hw₁ ?_
            intro file w₂ hi₂ hw₂
            refine safe_then (accepts_insert hp.op file) hi₂ hw₂ ?_
            exact fun fh w₃ _ hw₃ => safe_settled_ret hw₃ _

theorem safe_readFile_settled (hi : (staleProtocol τ δ ζ).inv w) (hw : Undiagnosed t w)
    (file : OpenFile) (offset size : Nat) :
    StaleSafe K M t (Settled t) (Fs.readFile K M file offset size) w := by
  have hp := undiagnosed_permits (K := K) (M := M) (t := t)
  unfold Fs.readFile
  refine safe_then (hp.op .loadStale trivial) hi hw ?_
  intro stale w₁ hi₁ hw₁
  split
  · exact safe_settled_ret hw₁ _
  · split
    · exact (holds_halt (Q := fun _ : Reply => False) (hp.op .halt trivial) w₁ hi₁ hw₁).mono
        fun _ _ _ h => h.1.elim
    · refine safe_then (hp.op (.loadVerify _) trivial) hi₁ hw₁ ?_
      intro state w₂ hi₂ hw₂
      split
      · exact safe_settled_error hi₂ hw₂ _
      · dsimp only
        split
        · exact safe_settled_ret hw₂ _
        · refine safe_then (accepts_withScratch hp.op _ fun buf =>
            accepts_readInto hp file _ offset buf) hi₂ hw₂ ?_
          intro x w₃ hi₃ hw₃
          split
          · exact safe_settled_ret hw₃ _
          · exact safe_settled_error hi₃ hw₃ _

theorem safe_readlink_settled (hi : (staleProtocol τ δ ζ).inv w) (hw : Undiagnosed t w)
    (ino : Nat) : StaleSafe K M t (Settled t) (Fs.readlink K M ino) w := by
  have hp := undiagnosed_permits (K := K) (M := M) (t := t)
  unfold Fs.readlink
  split
  · exact safe_settled_ret hw _
  · split
    · exact safe_settled_ret hw _
    · split
      · exact safe_settled_ret hw _
      · refine safe_then (hp.op (.getSymlink _) trivial) hi hw ?_
        intro cached w₁ hi₁ hw₁
        split
        · exact safe_settled_ret hw₁ _
        · refine safe_then (hp.op (.note .targetMissing) trivial) hi₁ hw₁ ?_
          intro _ w₂ hi₂ hw₂
          refine safe_then (accepts_readAll hp _ _ _) hi₂ hw₂ ?_
          intro found w₃ hi₃ hw₃
          split
          · refine safe_then (hp.op (.setSymlink ..) trivial) hi₃ hw₃ ?_
            intro kept w₄ _ hw₄
            split
            · exact safe_settled_ret hw₄ _
            · exact safe_settled_ret hw₄ _
          · exact safe_settled_error hi₃ hw₃ _

/-- **Every change that a call finds is known when it ends, and reported by its diagnosis.** -/
theorem safe_settled (call : Call) (hi : (staleProtocol τ δ ζ).inv w) (hw : Undiagnosed t w) :
    StaleSafe K M t (Settled t) (call.prog K M) w := by
  have hp := undiagnosed_permits (K := K) (M := M) (t := t)
  have hreads := hp.weaken fun o (ho : o.Reads) => (ho.locates).serves
  cases call with
  | openFile ino mode => exact safe_openFile_settled hi hw ino mode
  | read fh offset size =>
      refine safe_then (hp.op (.getHandle fh) trivial) hi hw ?_
      intro found w₁ hi₁ hw₁
      split
      · exact safe_settled_ret hw₁ _
      · rename_i file
        refine safe_then (hp.op (.note .handleFound) trivial) hi₁ hw₁ ?_
        intro _ w₂ hi₂ hw₂
        refine Safe.bind hi₂ ((safe_readFile_settled hi₂ hw₂ file offset size).mono ?_)
        intro reply w₃ hi₃ hw₃
        -- dropping the file is quiet, so what was settled stays so
        have hop : ∀ o : Op δ ζ, (o.Serves fun _ => True) →
            (staleKeeping K M (t := t) (settled_stable reply)).Accepts (.op o .ret) := by
          intro o ho
          refine holds_staleOp (settled_stable reply) ho.quiet.1 ?_
          exact fun w r w' h he => ⟨trivial, h.op ho.quiet he⟩
        refine Safe.bind hi₃ ((accepts_releaseFile hop fh file w₃ hi₃ hw₃).mono ?_)
        intro _ w₄ _ h₄
        exact .ret fun w₅ h₅ hi₅ => settled_stable reply w₄ w₅ h₅ hi₅ h₄.2
  | readlink ino => exact safe_readlink_settled hi hw ino
  | release fh =>
      exact (accepts_release hp.op fh w hi hw).mono fun _ _ _ h => h.2.settled
  | readAt len offset =>
      refine safe_then (accepts_readAt hreads len offset) hi hw ?_
      exact fun r w₁ _ hw₁ => safe_settled_ret hw₁ _
  | readExactAt buf offset =>
      refine safe_then (accepts_readExactAt hreads buf offset) hi hw ?_
      exact fun x w₁ _ hw₁ => safe_settled_ret hw₁ _

end Settled

/-! ## Reads that succeed again -/

section Again

open Lib (Alone)

/-- What a thread has recorded stays recorded. -/
theorem alone_seen {p : Act δ ζ α} {w w' : World τ δ ζ} {a : α}
    (h : Alone (exec K M t) p w a w') : w.seen t <+: w'.seen t := by
  induction p generalizing w with
  | ret b =>
      obtain ⟨-, rfl⟩ := h
      exact List.prefix_refl _
  | op o k ih =>
      obtain ⟨r, w₁, he, hrest⟩ := h
      refine List.IsPrefix.trans ?_ (ih r hrest)
      rw [(exec_framed he).seen, Function.update_self]
      exact List.prefix_append ..

/-- An operation that is answered. -/
theorem alone_det {o : Op δ ζ} {w w' : World τ δ ζ} {r : Res o}
    (h : det K M t o w = some (r, w')) : Alone (exec K M t) (.op o .ret) w r w' :=
  .op (.inl h)

/-- Nobody holds the lock of the tracker, if there is one. -/
def Free (tracker : Option Nat) (w : World τ δ ζ) : Prop :=
  ∀ id, tracker = some id → ∃ cell, w.stores[id]? = some cell ∧ cell.lock = none

theorem alone_observeStore {w : World τ δ ζ} {tracker : Option Nat} (hfree : Free tracker w)
    (hw : Intact M w) (offset : Nat) (data : Bytes) (i : Nat) (m : EntryMeta) :
    ∃ fine w', Alone (exec K M t) (OpenFile.observeStore tracker offset data i m) w fine w' ∧
      Intact M w' ∧ w'.files = w.files ∧
      (fine = false → ∃ id, Note.observed id offset data.length false ∈ w'.seen t) := by
  cases tracker with
  | none => exact ⟨true, w, ⟨rfl, rfl⟩, hw, rfl, (by simp)⟩
  | some id =>
      obtain ⟨cell, hcell, hlock⟩ := hfree id rfl
      have hlen := (List.getElem?_eq_some_iff.mp hcell).1
      set w₁ := w.setStore id { cell with lock := some t } with hw₁
      have hcell₁ : w₁.stores[id]? = some { cell with lock := some t } :=
        List.getElem?_set_self hlen
      set w₂ := w₁.setStore id
        { cell with lock := some t, observed := cell.observed ++ [(offset, data.length)] } with hw₂
      have hcell₂ : w₂.stores[id]? = some
          { cell with lock := some t, observed := cell.observed ++ [(offset, data.length)] } :=
        List.getElem?_set_self (List.getElem?_eq_some_iff.mp hcell₁).1
      have hlockStore : Alone (exec K M t) (Act.lockStore id) w cell.state w₁ := by
        refine alone_det (o := .lockStore id) ?_
        simp only [det, hcell, hlock]
        rfl
      have hrecord : Alone (exec K M t) (Act.record id offset data.length) w₁ () w₂ := by
        refine alone_det (o := .record id offset data.length) ?_
        simp only [det, hcell₁]
        rfl
      unfold OpenFile.observeStore OpenFile.observeLocked
      rcases hobs : cell.state.observe offset data m with ⟨v, fine, verdict⟩
      set w₃ : World τ δ ζ := { w₂ with
        seen := Function.update w₂.seen t
          (w₂.seen t ++ [.observed id offset data.length fine]) } with hw₃
      have hnote : Alone (exec K M t) (Act.note (.observed id offset data.length fine)) w₂ () w₃ :=
        alone_det (o := .note _) rfl
      have hseen : Note.observed id offset data.length fine ∈ w₃.seen t := by
        rw [hw₃]
        simp
      -- the rest of the critical section touches neither the guard nor the files
      set done : StoreCell τ := { cell with
        state := v, lock := none, observed := cell.observed ++ [(offset, data.length)] }
      have hunlock : ∀ w₄ : World τ δ ζ, w₄.stores = w₃.stores →
          Alone (exec K M t) (Act.unlockStore id v) w₄ () (w₄.setStore id done) := by
        intro w₄ hstores
        have hcell₄ : w₄.stores[id]? = _ := (congrArg (fun l => l[id]?) hstores).trans hcell₂
        refine alone_det (o := .unlockStore id v) ?_
        simp only [det, hcell₄]
        rfl
      cases verdict with
      | some state =>
          set w₄ : World τ δ ζ := { w₃ with verifyState := Function.update w₃.verifyState i state }
          have hstore : Alone (exec K M t) (Act.storeVerify i state) w₃ () w₄ :=
            alone_det (o := .storeVerify i state) rfl
          refine ⟨fine, w₄.setStore id done, hlockStore.bind ?_, ?_, rfl, ?_⟩
          · rw [hobs]
            exact hrecord.bind (hnote.bind (hstore.bind ((hunlock w₄ rfl).bind ⟨rfl, rfl⟩)))
          · exact ⟨hw.stamp, hw.path, hw.stale⟩
          · rintro rfl
            exact ⟨id, hseen⟩
      | none =>
          refine ⟨fine, w₃.setStore id done, hlockStore.bind ?_, ?_, rfl, ?_⟩
          · rw [hobs]
            exact hrecord.bind (hnote.bind ((hunlock w₃ rfl).bind ⟨rfl, rfl⟩))
          · exact ⟨hw.stamp, hw.path, hw.stale⟩
          · rintro rfl
            exact ⟨id, hseen⟩

/-- A check that passes. -/
theorem alone_diagnose {w : World τ δ ζ} (hw : Intact M w) (errno : Nat) :
    ∃ errno' w', Alone (exec K M t) (Fs.diagnose M errno) w errno' w' ∧ Untouched w w' := by
  have hcan : Lib.Can (exec K M t) (Untouched w) (Fs.diagnose M errno) fun _ => True := by
    unfold Fs.diagnose Archive.check GuardedFile.check
    split
    · refine Lib.Can.bind (can_note _) fun _ _ => Lib.Can.bind (Q := fun _ => True) ?_ fun _ _ => ?_
      · refine Lib.Can.bind (can_verify hw) fun r hr => ?_
        rw [hr]
        exact .pure trivial
      · exact .pure trivial
    · exact .pure trivial
  obtain ⟨errno', w', hrun, hw', -⟩ := hcan w (.refl w)
  exact ⟨errno', w', hrun, hw'⟩

/-- **A read of a stored entry, left alone with an archive as mounted, is answered with data**, or
has found that the entry does not match its checksum. -/
theorem alone_readStored {w : World τ δ ζ} (hw : Intact M w) {fh offset size : Nat}
    {cell : FileCell} (hcell : w.files fh = some cell) (hlisted : cell.listed = true)
    {dataStart compressedSize : Nat} {tracker : Option Nat}
    (hkind : cell.file.kind = .store dataStart compressedSize tracker) (hfree : Free tracker w)
    {m : EntryMeta} (hm : M.index.metas[cell.file.metaIdx]? = some m)
    (hv : w.verifyState cell.file.metaIdx ≠ .bad) {want : Nat}
    (hwant : want = min size (cell.file.size - offset)) (hpos : want ≠ 0)
    (hin : offset + want ≤ compressedSize) (harch : dataStart + offset + want ≤ w.content.length)
    (hbound : dataStart + offset + want < 2 ^ 64) :
    ∃ reply w', Alone (exec K M t) (Fs.read K M fh offset size) w reply w' ∧
      ((∃ bs, reply = .data bs) ∨
        ∃ id len, Note.observed id offset len false ∈ w'.seen t) := by
  set w₁ := (w.setFile fh { cell with refs := cell.refs + 1 }).holdFile t fh
  have hget : Alone (exec K M t) (Act.getHandle fh) w (some cell.file) w₁ := by
    refine alone_det (o := .getHandle fh) ?_
    simp only [det, hcell]
    exact if_pos hlisted
  set w₂ : World τ δ ζ :=
    { w₁ with seen := Function.update w₁.seen t (w₁.seen t ++ [.handleFound]) }
  have hnote : Alone (exec K M t) (Act.note .handleFound) w₁ () w₂ :=
    alone_det (o := .note .handleFound) rfl
  have hstale : Alone (exec K M t) GuardedFile.isStale w₂ false w₂ := by
    refine alone_det (o := .loadStale) ?_
    exact congrArg (fun b => some (b, w₂)) hw.stale
  have hload : Alone (exec K M t) (Act.loadVerify cell.file.metaIdx) w₂
      (w.verifyState cell.file.metaIdx) w₂ := alone_det (o := .loadVerify _) rfl
  -- the buffer, the read and the tracker
  set scratch := w.scratch t ++ List.replicate (want - (w.scratch t).length) 0 with hscratch
  set buf := scratch.take want
  have hbuf : buf.length = want := by
    rw [List.length_take, hscratch, List.length_append, List.length_replicate]
    omega
  have hw₂ : Intact M w₂ := ⟨hw.stamp, hw.path, hw.stale⟩
  obtain ⟨⟨got, r⟩, w₃, hrun, hw₃, hr⟩ := can_readExactAt (K := K) (t := t) hw₂ buf
    (dataStart + offset) (by rw [hbuf]; exact harch) w₂ (.refl w₂)
  obtain rfl : r = .ok () := hr
  have hdirect : Alone (exec K M t)
      (Fs.readDirect M ⟨dataStart, compressedSize, .store⟩ offset buf) w₂ (got, .ok ()) w₃ := by
    unfold Fs.readDirect Fs.checkedAdd
    rw [hbuf, if_pos (by omega)]
    dsimp only
    rw [if_neg (by omega), if_pos (by omega)]
    dsimp only
    rw [if_pos (by omega)]
    exact hrun
  have hfree₃ : Free tracker w₃ := by
    rw [hw₃]
    exact hfree
  obtain ⟨fine, w₄, hobs, hw₄, hfiles₄, hbad⟩ := alone_observeStore (K := K) (t := t) hfree₃
    (hw₃.intact hw₂) offset got cell.file.metaIdx m
  have hfiles : w₄.files fh = some { cell with refs := cell.refs + 1 } := by
    rw [hfiles₄, hw₃]
    exact World.setFile_self ..
  set result : Except Nat Nat := if fine then .ok got.length else .error EIO with hresult
  have hinto : Alone (exec K M t) (Fs.readInto K M cell.file m offset buf) w₂ (got, result) w₄ := by
    unfold Fs.readInto
    rw [hkind]
    refine hdirect.bind (hobs.bind ?_)
    cases fine with
    | true => exact ⟨rfl, rfl⟩
    | false => exact ⟨rfl, rfl⟩
  obtain ⟨w₅, hlent, hw₅, hfiles₅, hseen₅⟩ : ∃ w₅, Alone (exec K M t)
      (Fs.withScratch want fun buf => Fs.readInto K M cell.file m offset buf) w₂ (got, result) w₅ ∧
      Intact M w₅ ∧ w₅.files = w₄.files ∧ w₅.seen = w₄.seen := by
    refine ⟨{ w₄ with scratch := Function.update w₄.scratch t (got ++ scratch.drop want) }, ?_,
      ⟨hw₄.stamp, hw₄.path, hw₄.stale⟩, rfl, rfl⟩
    · refine Alone.bind (alone_det (o := .getScratch) rfl) (hinto.bind ?_)
      exact Alone.bind (alone_det (o := .putScratch _) rfl) ⟨rfl, rfl⟩
  have hdrop : ∀ w₆ : World τ δ ζ, w₆.files fh = some { cell with refs := cell.refs + 1 } →
      ∃ w₇, Alone (exec K M t) (cell.file.release fh) w₆ () w₇ := by
    intro w₆ h₆
    obtain ⟨last, w₇, hdet⟩ : ∃ last w₇, det K M t (.dropFile fh) w₆ = some (last, w₇) := by
      simp only [det, h₆]
      exact ⟨_, _, rfl⟩
    refine ⟨w₇, Alone.bind (alone_det hdet) ?_⟩
    rw [hkind]
    split
    · exact ⟨rfl, rfl⟩
    · exact ⟨rfl, rfl⟩
  -- what the read makes of the result
  obtain ⟨reply, w₆, hread, hfiles₆, hgood⟩ : ∃ reply w₆, Alone (exec K M t)
      (Fs.readFile K M cell.file offset size) w₂ reply w₆ ∧ w₆.files = w₅.files ∧
      ((∃ bs, reply = .data bs) ∨ ∃ id len, Note.observed id offset len false ∈ w₆.seen t) := by
    have hpre : ∀ reply w₆, (∀ n, result = .ok n → reply = .data (got.take n) ∧ w₆ = w₅) →
        (∀ e, result = .error e → Alone (exec K M t) (do
          let errno ← Fs.diagnose M e
          pure (.error errno)) w₅ reply w₆) →
        Alone (exec K M t) (Fs.readFile K M cell.file offset size) w₂ reply w₆ := by
      intro reply w₆ hok herr
      unfold Fs.readFile
      refine hstale.bind ?_
      rw [if_neg (by simp), hm]
      refine hload.bind ?_
      rw [if_neg hv]
      dsimp only
      rw [← hwant, if_neg hpos]
      refine hlent.bind ?_
      cases hr : result with
      | ok n =>
          obtain ⟨rfl, rfl⟩ := hok n hr
          exact ⟨rfl, rfl⟩
      | error e => exact herr e hr
    cases hfine : fine with
    | true =>
        rw [hfine] at hresult
        refine ⟨_, w₅, hpre (.data (got.take got.length)) w₅ ?_ ?_, rfl, .inl ⟨_, rfl⟩⟩
        · intro n hn
          obtain rfl := Except.ok.inj (hresult.symm.trans hn)
          exact ⟨rfl, rfl⟩
        · intro e he
          exact absurd (hresult.symm.trans he) (by simp)
    | false =>
        rw [hfine] at hresult
        obtain ⟨errno, w₆, hdiag, hw₆⟩ := alone_diagnose (K := K) (t := t) hw₅ EIO
        obtain ⟨id, hid⟩ := hbad hfine
        refine ⟨_, w₆, hpre (.error errno) w₆ ?_ ?_, by rw [hw₆], .inr ⟨id, got.length, ?_⟩⟩
        · intro n hn
          exact absurd (hresult.symm.trans hn) (by simp)
        · intro e he
          obtain rfl := Except.error.inj (hresult.symm.trans he)
          exact hdiag.bind ⟨rfl, rfl⟩
        · exact (alone_seen hdiag).subset (hseen₅ ▸ hid)
  obtain ⟨w₇, hdropped⟩ := hdrop w₆ (by rw [hfiles₆, hfiles₅]; exact hfiles)
  refine ⟨reply, w₇, hget.bind (hnote.bind (hread.bind (hdropped.bind ⟨rfl, rfl⟩))), ?_⟩
  rcases hgood with hdata | ⟨id, len, hmem⟩
  · exact .inl hdata
  · exact .inr ⟨id, len, (alone_seen hdropped).subset hmem⟩

end Again

/-! ## Over whole runs -/

/-- What each call does about a changed archive. -/
def Reported (M : Mount) (t : τ) (call : Call) (w₀ : World τ δ ζ) (reply : Reply)
    (w : World τ δ ζ) : Prop :=
  (Up w₀ → Refused M t call reply w) ∧ Settled t reply w

theorem stale_respects :
    Lib.Respects (mountSystem (τ := τ) K M AnyChange) (staleProtocol τ δ ζ) (Reported M) where
  arrive t call w hi := by
    refine ⟨hi, ⟨id, id⟩, fun u hu => ⟨id, id, ?_⟩⟩
    exact Function.update_of_ne hu ..
  env w w' h hi := by
    obtain ⟨content, stamp, path, rfl⟩ := h
    exact ⟨hi, ⟨id, id⟩, fun _ => ⟨id, id, rfl⟩⟩
  calls t call w hi := by
    have hi' : (staleProtocol τ δ ζ).inv (arrive t call w) := hi
    have hseen : (arrive t call w).seen t = [] := Function.update_self ..
    have hw : Undiagnosed t (arrive t call w) := by
      unfold Undiagnosed
      rw [hseen]
      exact ⟨by simp, by simp⟩
    have hsettled := safe_settled (K := K) (M := M) call hi' hw
    refine Safe.and ?_ hsettled
    by_cases hup : Up (arrive t call w)
    · exact (safe_refused call hi' hup hseen).mono fun _ _ _ h _ => h
    · exact hsettled.mono fun _ _ _ _ h => absurd h hup

/-- A mount whose archive may change in any way. -/
abbrev AnyRun (K : Codecs δ ζ) (M : Mount) (path : Option Stamp)
    (c : Lib.Config τ (World τ δ ζ) Call Reply (@Res δ ζ)) : Prop :=
  Lib.Reachable (mountSystem K M AnyChange) (World.start M path) c

theorem anyRun_good {path : Option Stamp} {c : Lib.Config τ (World τ δ ζ) Call Reply (@Res δ ζ)}
    (h : AnyRun K M path c) :
    Lib.Good (mountSystem K M AnyChange) (staleProtocol τ δ ζ) (Reported M) c :=
  Lib.sound stale_respects (fun h => absurd h (by simp [World.start])) h

/--
**Staleness is permanent, and reported.** In every run of a mount, whatever happens to
the archive file and to its path:

* the flag stays up once it is up;
* it is up when a call has ended in which a check found the archive changed;
* a read-only open of anything but a directory, a read that finds its handle and a
  `readlink` that finds no cached target reply `ESTALE` if they start with the flag up;
* a call whose diagnosis finds the archive changed replies `ESTALE`;
* the flag is up only if some examination was answered and differed from the mount;
* and while it is not up and the stamps are those of the mount, whatever checks have
  failed before, a thread left alone reads the archive, and through the handle of a stored
  entry its data.
-/
theorem staleness_permanent {path : Option Stamp}
    {c : Lib.Config τ (World τ δ ζ) Call Reply (@Res δ ζ)} (h : AnyRun K M path c) :
    (∀ c', Relation.ReflTransGen (Lib.Step (mountSystem K M AnyChange)) c c' →
      c.world.stale = true → c'.world.stale = true) ∧
    (∀ e ∈ c.history, ∀ change, Note.compared (.ok (some change)) ∈ e.finish.seen e.thread →
      e.finish.stale = true) ∧
    (∀ e ∈ c.history, e.start.stale = true →
      (∀ ino node m, e.call = .openFile ino .rdonly → M.index.node ino = some node →
        node.kind ≠ .dir → M.index.metaOf node = some m → e.reply = .error ESTALE) ∧
      (∀ fh offset size, e.call = .read fh offset size →
        Note.handleFound ∈ e.finish.seen e.thread → e.reply = .error ESTALE) ∧
      (∀ ino, e.call = .readlink ino → Note.targetMissing ∈ e.finish.seen e.thread →
        e.reply = .error ESTALE)) ∧
    (∀ e ∈ c.history, ∀ xs extra change, e.finish.seen e.thread = xs ++ .diagnosing :: extra →
      Note.compared (.ok (some change)) ∈ extra → e.reply = .error ESTALE) ∧
    (c.world.stale = true → c.world.differed = true) ∧
    (∀ t, c.running t = none → Intact M c.world →
      (∀ buf offset, offset + buf.length ≤ c.world.content.length →
        ∃ c' e, Lib.Steps (mountSystem K M AnyChange) c c' ∧ Lib.CalledBetween c c' e ∧
          e.call = .readExactAt buf offset ∧ ∃ data, e.reply = .bytes (.ok data)) ∧
      (∀ fh offset size cell dataStart compressedSize tracker m, c.world.files fh = some cell →
        cell.listed = true → cell.file.kind = .store dataStart compressedSize tracker →
        Free tracker c.world → M.index.metas[cell.file.metaIdx]? = some m →
        c.world.verifyState cell.file.metaIdx ≠ .bad → 0 < min size (cell.file.size - offset) →
        offset + min size (cell.file.size - offset) ≤ compressedSize →
        dataStart + offset + min size (cell.file.size - offset) ≤ c.world.content.length →
        dataStart + offset + min size (cell.file.size - offset) < 2 ^ 64 →
        ∃ c' e, Lib.Steps (mountSystem K M AnyChange) c c' ∧ Lib.CalledBetween c c' e ∧
          e.call = .read fh offset size ∧ ((∃ bs, e.reply = .data bs) ∨
            ∃ id len, Note.observed id offset len false ∈ e.finish.seen e.thread))) := by
  have hg := anyRun_good h
  refine ⟨?_, ?_, ?_, ?_, hg.inv, ?_⟩
  · intro c' hsteps hup
    have key : AnyRun K M path c' ∧ c'.world.stale = true := by
      induction hsteps with
      | refl => exact ⟨h, hup⟩
      | tail _ hstep ih =>
          exact ⟨ih.1.step hstep, ((anyRun_good ih.1).grow stale_respects hstep).1 ih.2⟩
    exact key.2
  · intro e he change hc
    exact (hg.history e he).2.1 change hc
  · intro e he hup
    have hrefused := (hg.history e he).1 hup
    refine ⟨?_, ?_, ?_⟩
    · intro ino node m hcall hnode hkind hmeta
      rw [hcall] at hrefused
      exact hrefused rfl node m hnode hkind hmeta
    · intro fh offset size hcall
      rw [hcall] at hrefused
      exact hrefused
    · intro ino hcall
      rw [hcall] at hrefused
      exact hrefused
  · intro e he
    exact (hg.history e he).2.2
  · intro t hidle hintact
    have hstart : ∀ call : Call, Intact M (arrive t call c.world) :=
      fun _ => ⟨hintact.stamp, hintact.path, hintact.stale⟩
    refine ⟨?_, ?_⟩
    · intro buf offset hlen
      obtain ⟨⟨got, r⟩, w', hrun, -, hr⟩ := can_readExactAt (K := K) (t := t)
        (hstart (.readExactAt buf offset)) buf offset hlen _ (.refl _)
      obtain rfl : r = .ok () := hr
      obtain ⟨run, hsteps, -⟩ := Lib.steps_alone (S := mountSystem K M AnyChange) hidle
        (.readExactAt buf offset) (hrun.bind ⟨rfl, rfl⟩)
      exact ⟨_, _, hsteps, .first hidle, rfl, got, rfl⟩
    · intro fh offset size cell dataStart compressedSize tracker m hcell hlisted hkind hfree hm hv
        hpos hin harch hbound
      obtain ⟨reply, w', hrun, hgood⟩ := alone_readStored (K := K) (t := t)
        (hstart (.read fh offset size)) hcell hlisted hkind hfree hm hv rfl (by omega) hin harch
        hbound
      obtain ⟨run, hsteps, -⟩ := Lib.steps_alone (S := mountSystem K M AnyChange) hidle
        (.read fh offset size) hrun
      exact ⟨_, _, hsteps, .first hidle, rfl, hgood⟩

end Ops

/-- The archive of the sample is touched, a read of it finds that, and it is touched back: the
open that starts then is refused. -/
theorem staleness_permanent_sample :
    ∃ c : Lib.Config Unit (World Unit Sample.Inflater Unit) Call Reply (@Res Sample.Inflater Unit),
      AnyRun Sample.codecs (Sample.mount 1 Sample.checksum) none c ∧
      ∃ e ∈ c.history, e.call = .openFile 2 .rdonly ∧ e.start.stale = true ∧
        e.start.stamp = (Sample.mount 1 Sample.checksum).opened ∧ e.reply = .error ESTALE := by
  set M := Sample.mount 1 Sample.checksum
  set S := mountSystem (τ := Unit) Sample.codecs M AnyChange
  set respond := det (τ := Unit) Sample.codecs M ()
  have hexec :
    ∀ o w r w', respond o w = some (r, w') → S.exec () o w r w' := fun _ _ _ _ h => .inl h
  have htouched := Lib.Reachable.init.step
    (.env (S := S) (w := World.start M none) ⟨M.archive, ⟨1, 2, 35, (2000, 0)⟩, none, rfl⟩)
  have hcheck : (Lib.run respond (S.prog (.readExactAt [0] 0))
      (S.arrive () (.readExactAt [0] 0)
        { World.start M none with
          content := M.archive, stamp := ⟨1, 2, 35, (2000, 0)⟩, path := none })).map
            (fun x => x.2.stale) =
      some true := by decide +kernel
  obtain ⟨⟨reply, w⟩, hrun, hstale⟩ := Option.map_eq_some_iff.mp hcheck
  obtain ⟨run, hfound, hidle, -⟩ :=
    Lib.reachable_alone htouched rfl _ (Lib.alone_of_run hexec hrun)
  have hback := hfound.step (.env (S := S) ⟨w.content, M.opened, none, rfl⟩)
  -- with the flag up, the open ends after its first operation
  have hopen : Lib.Alone (S.exec ()) (S.prog (.openFile 2 .rdonly))
      (S.arrive () (.openFile 2 .rdonly)
        { w with content := w.content, stamp := M.opened, path := none })
      (.error ESTALE)
      (S.arrive () (.openFile 2 .rdonly)
        { w with content := w.content, stamp := M.opened, path := none }) := by
    refine ⟨true, _, .inl ?_, rfl, rfl⟩
    exact congrArg (fun b => some (b, _)) hstale
  obtain ⟨run', hend, -⟩ := Lib.reachable_alone hback hidle _ hopen
  refine ⟨_, hend, _, List.mem_cons_self, rfl, hstale, rfl, ?_⟩
  exact ((staleness_permanent hend).2.2.1 _ List.mem_cons_self hstale).1 2 _ _ rfl rfl
    (by decide) rfl

end ZipFs
