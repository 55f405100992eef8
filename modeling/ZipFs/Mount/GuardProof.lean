import ZipFs.Mount.Invariant

/-!
# Reads of the archive return the mounted bytes

A read of the file sees each cell at another moment. What makes its bytes good is
the comparison that follows: a stamp that is still the one of the mount was so at
every earlier moment too, because the stamp of the mount does not come back, and as
long as it was, no cell had changed. So "the stamp shows a change, or these bytes are
the mounted ones" holds from the moment a byte is read, it lasts, and `verify` turns it
into "these bytes are the mounted ones".

From there on nothing depends on the state of the archive any more: what a source
hands to its codec, and where rawzip finds an entry's data.
-/

namespace ZipFs

open Lib (Safe Meets lasting_true)

variable {τ δ ζ : Type} [DecidableEq τ] {B G : Prop} {K : Codecs δ ζ} {M : Mount} {α β : Type}

/-! ## Operations of the mount -/

variable (B G K M) in
/-- From every state of the mount that has `I`, the program is safe and its result has `Q`. -/
abbrev Does (I : World τ δ ζ → Prop) (p : Act δ ζ α) (Q : α → Prop) : Prop :=
  Meets (mountProtocol B G K M) (execIf B G K M) I p Q

theorem Answers.anyhow {o : Op δ ζ} (r : Res o) : Answers True o r := by
  cases o with
  | cell i => exact fun _ _ _ => trivial
  | _ => trivial

/-- A mount whose archive may answer, and whose pools may lend, in any way. -/
theorem Does.anyhow {I : World τ δ ζ → Prop} {p : Act δ ζ α} {Q : α → Prop}
    (h : Does True False K M I p Q) : Meets (mountProtocol True False K M) (exec K M) I p Q :=
  fun t w hi hI => (h t w hi hI).restrict fun _ _ r _ he => ⟨he, .anyhow r, False.elim⟩

/-- A mount whose pools lend only sound decoders as they are. -/
theorem Does.soundly {I : World τ δ ζ → Prop} {p : Act δ ζ α} {Q : α → Prop}
    (h : Does True True K M I p Q) :
    Meets (mountProtocol True True K M) (soundMount τ K M).exec I p Q :=
  fun t w hi hI => (h t w hi hI).restrict fun _ _ r _ he => ⟨he.1, .anyhow r, fun _ => he.2⟩

/-- No condition on the state. -/
abbrev Anywhere : World τ δ ζ → Prop := fun _ => True

/-- One operation, with what is known of the state before and after it and of its answer. -/
theorem safe_opIf {t : τ} {w : World τ δ ζ} {o : Op δ ζ} {Q : Res o → World τ δ ζ → Prop}
    (hok : ∀ w₁, Others M t w w₁ → MountInv B G K M w₁ → OpOk B G K M t w₁ o)
    (hq : ∀ w₁ r w₂ w₃, Others M t w w₁ → MountInv B G K M w₁ → execIf B G K M t o w₁ r w₂ →
      Others M t w₂ w₃ → MountInv B G K M w₃ → Q r w₃) :
    Safe (mountProtocol B G K M) (execIf B G K M) t Q (.op o .ret) w := by
  intro w₁ ho hi r w₂ he
  obtain ⟨hi₂, hg, hk⟩ := exec_keeps hi (hok w₁ ho hi) he.1
  exact ⟨hi₂, hg, hk, fun w₃ ho₃ hi₃ => hq w₁ r w₂ w₃ ho hi he ho₃ hi₃⟩

/-- One operation that may be answered in any way. -/
theorem safe_op {t : τ} {w : World τ δ ζ} {o : Op δ ζ} {Q : Res o → World τ δ ζ → Prop}
    (hok : ∀ w₁, Others M t w w₁ → MountInv B G K M w₁ → OpOk B G K M t w₁ o)
    (hq : ∀ w₁ r w₂ w₃, Others M t w w₁ → MountInv B G K M w₁ → exec K M t o w₁ r w₂ →
      Others M t w₂ w₃ → MountInv B G K M w₃ → Q r w₃) :
    Safe (mountProtocol B G K M) (execIf B G K M) t Q (.op o .ret) w :=
  safe_opIf hok fun w₁ r w₂ w₃ ho hi he => hq w₁ r w₂ w₃ ho hi he.1

/-- One operation that needs nothing but what lasts, and whose answer is known by itself. -/
theorem meets_opIf {I : World τ δ ζ → Prop} (hl : (mountProtocol B G K M).Lasting I) {o : Op δ ζ}
    {Q : Res o → Prop} (hok : ∀ t w, MountInv B G K M w → I w → OpOk B G K M t w o)
    (hq : ∀ t w r w', MountInv B G K M w → I w → execIf B G K M t o w r w' → Q r) :
    Does B G K M I (.op o .ret) Q := by
  intro t w _ hI
  refine safe_opIf ?_ ?_
  · exact fun w₁ ho hi => hok t w₁ hi (hl _ _ ho.grows hI)
  · exact fun w₁ r w₂ _ ho hi he _ _ => hq t w₁ r w₂ hi (hl _ _ ho.grows hI) he

theorem meets_op {I : World τ δ ζ → Prop} (hl : (mountProtocol B G K M).Lasting I) {o : Op δ ζ}
    {Q : Res o → Prop} (hok : ∀ t w, MountInv B G K M w → I w → OpOk B G K M t w o)
    (hq : ∀ t w r w', MountInv B G K M w → I w → exec K M t o w r w' → Q r) :
    Does B G K M I (.op o .ret) Q :=
  meets_opIf hl hok fun t w r w' hi hI he => hq t w r w' hi hI he.1

/-- An operation of which nothing needs to be known. -/
theorem meets_plain {I : World τ δ ζ → Prop} {o : Op δ ζ}
    (hok : ∀ (t : τ) (w : World τ δ ζ), OpOk B G K M t w o) :
    Does B G K M I (.op o .ret) fun _ => True :=
  (meets_op lasting_true (fun t w _ _ => hok t w) fun _ _ _ _ _ _ _ => trivial).anywhere

theorem meets_note {I : World τ δ ζ → Prop} {n : Note} (h : ∀ w : World τ δ ζ, NoteOk G K M w n) :
    Does B G K M I (Act.note n) fun _ => True :=
  meets_plain (o := .note n) fun _ w => h w

theorem meets_halt {I : World τ δ ζ → Prop} {Q : α → Prop} :
    Does B G K M I (Act.halt : Act δ ζ α) Q :=
  fun _ _ _ _ _ _ _ r _ _ => nomatch (show Empty from r)

theorem meets_isStale {I : World τ δ ζ → Prop} :
    Does B G K M I (GuardedFile.isStale : Act δ ζ Bool) fun _ => True :=
  meets_plain (o := .loadStale) fun _ _ => trivial

/-! ## The guard -/

theorem unchanged_of_fstat {t : τ} {w w' : World τ δ ζ} {st : Stamp}
    (h : exec K M t .fstat w (.ok st) w') : st = w.stamp := by
  rcases h with h | ⟨h, -⟩
  · obtain ⟨h, -⟩ := Prod.mk.inj (Option.some.inj h)
    exact (Except.ok.inj h).symm
  · obtain ⟨e, he⟩ := h
    exact absurd he (by simp)

/-- A comparison that finds no change turns what holds until a change into what holds. -/
theorem compareStamps_meets (P : Prop) :
    Does B G K M (fun w : World τ δ ζ => Altered M w ∨ P)
      (GuardedFile.compareStamps M : Act δ ζ _) fun r => r = .ok none → P := by
  have hl := lasting_altered_or (τ := τ) (B := B) (G := G) (K := K) (M := M) P
  have hstat : Does B G K M (fun w : World τ δ ζ => Altered M w ∨ P)
      (Act.fstat : Act δ ζ _) fun r => ∀ st, r = .ok st → st.unchanged M.opened = true → P := by
    refine meets_op (o := .fstat) hl (fun _ _ _ _ => trivial) ?_
    intro t w r w' _ hI he st hr hun
    subst hr
    obtain rfl := unchanged_of_fstat he
    rcases hI with hI | hP
    · exact absurd hun (by rw [show w.stamp.unchanged M.opened = false from hI]; simp)
    · exact hP
  unfold GuardedFile.compareStamps
  refine Meets.bind hl hstat ?_
  intro r hr
  cases r with
  | error e => exact .pure (by simp)
  | ok st =>
      dsimp only
      split
      · rename_i hun
        have hP : P := hr st rfl hun
        split
        · refine Meets.bind hl (meets_plain (o := .statNamed) fun _ _ => trivial) ?_
          intro r' _
          cases r' with
          | error e =>
              dsimp only
              split
              · exact .pure fun _ => hP
              · exact .pure fun _ => hP
          | ok named =>
              dsimp only
              split
              · split
                · exact .pure fun _ => hP
                · exact .pure fun _ => hP
              · exact .pure fun _ => hP
        · exact .pure fun _ => hP
      · exact .pure (by simp)

/-- No failure of the guard itself is taken for a fault of an entry. -/
theorem provesBad_staleError : provesBad staleError = false := by decide

/-- **What holds until a change holds once `verify` has succeeded.** -/
theorem verify_meets (P : Prop) :
    Does B G K M (fun w : World τ δ ζ => Altered M w ∨ P)
      (GuardedFile.verify M : Act δ ζ _) fun r =>
        (r = .ok () → P) ∧ ∀ e, r = .error e → provesBad e = false := by
  have hl := lasting_altered_or (τ := τ) (B := B) (G := G) (K := K) (M := M) P
  have hstale : ((Except.error staleError : Except IoError Unit) = .ok () → P) ∧
      ∀ e, (Except.error staleError : Except IoError Unit) = .error e → provesBad e = false := by
    refine ⟨by simp, fun e he => ?_⟩
    rw [← Except.error.inj he]
    exact provesBad_staleError
  unfold GuardedFile.verify
  refine Meets.bind hl meets_isStale ?_
  intro stale _
  cases stale with
  | true => exact .pure hstale
  | false =>
      refine Meets.bind hl (compareStamps_meets P) ?_
      intro found hfound
      refine Meets.bind hl (meets_note fun _ => trivial) ?_
      intro _ _
      match found, hfound with
      | .ok none, hfound =>
          refine Meets.bind hl (meets_plain (o := .loadUnsure) fun _ _ => trivial) ?_
          intro unsure _
          cases unsure with
          | true =>
              refine Meets.bind hl (meets_plain (o := .swapUnsure false) fun _ _ => trivial) ?_
              exact fun _ _ => .pure ⟨fun _ => hfound rfl, by simp⟩
          | false => exact .pure ⟨fun _ => hfound rfl, by simp⟩
      | .ok (some _), _ =>
          unfold GuardedFile.mark
          refine Meets.bind (Q := fun _ => True) hl ?_ fun _ _ => .pure hstale
          refine Meets.bind hl (meets_plain (o := .swapStale) fun _ _ => trivial) ?_
          exact fun _ _ => .pure trivial
      | .error _, _ =>
          refine Meets.bind hl (meets_plain (o := .swapUnsure true) fun _ _ => trivial) ?_
          refine fun _ _ => .pure ⟨by simp, fun e he => ?_⟩
          rw [← Except.error.inj he]
          rfl

/-! ## Reading the file -/

theorem archive_cell {t : τ} {w w' : World τ δ ζ} {i : Nat} {c : Option UInt8}
    (hi : MountInv B G K M w) (h : exec K M t (.cell i) w (.ok c) w') :
    w' = w ∧ (Altered M w ∨ M.archive[i]? = c) := by
  rcases h with h | ⟨h, -⟩
  · obtain ⟨hc, rfl⟩ := Prod.mk.inj (Option.some.inj h)
    refine ⟨rfl, ?_⟩
    by_cases hch : w.stamp.unchanged M.opened = true
    · right
      rw [← hi.honest hch]
      exact Except.ok.inj hc
    · left
      unfold Altered
      simpa using hch
  · obtain ⟨e, he⟩ := h
    exact absurd he (by simp)

/-- What a cell holds, good until a change, and when it may fail for good. -/
theorem safe_cell {t : τ} {w : World τ δ ζ} (i : Nat) :
    Safe (mountProtocol B G K M) (execIf B G K M) t
      (fun r w' => (∀ c, r = .ok c → Altered M w' ∨ M.archive[i]? = c) ∧
        ∀ e, r = .error e → provesBad e = true → B)
      (Act.cell i : Act δ ζ _) w := by
  refine safe_opIf (o := .cell i) (fun _ _ _ => trivial) ?_
  intro w₁ r w₂ w₃ _ hi he ho _
  refine ⟨?_, he.2.1⟩
  intro c hr
  subst hr
  obtain ⟨rfl, h⟩ := archive_cell hi he.1
  exact Or.imp_left ho.grows.changed h

theorem cons_isPrefix_drop {xs rest : Bytes} {i : Nat} {c : UInt8} (hc : xs[i]? = some c)
    (h : rest <+: xs.drop (i + 1)) : c :: rest <+: xs.drop i := by
  obtain ⟨hlt, rfl⟩ := List.getElem?_eq_some_iff.mp hc
  rw [List.drop_eq_getElem_cons hlt]
  exact (List.prefix_cons_inj _).mpr h

variable (B M) in
/-- What reading exactly leaves and returns, where `w` is the state afterwards: the buffer keeps
its length, what was read is good until a change, and it fails for good only beyond the end. -/
structure FileReadOk (buf : Bytes) (offset : Nat) (x : Bytes × Except IoError Unit)
    (w : World τ δ ζ) : Prop where
  room : x.1.length = buf.length
  bytes : x.2 = .ok () → Altered M w ∨ x.1 <+: M.archive.drop offset
  failed : ∀ e, x.2 = .error e → provesBad e = true →
    B ∨ Altered M w ∨ M.archive.length < offset + buf.length

theorem safe_fileReadExactAt {t : τ} (buf : Bytes) (offset : Nat) {w : World τ δ ζ}
    (hi : MountInv B G K M w) :
    Safe (mountProtocol B G K M) (execIf B G K M) t (FileReadOk B M buf offset)
      (File.readExactAt buf offset : Act δ ζ _) w := by
  induction buf generalizing offset w with
  | nil => exact .ret fun w' _ _ => ⟨rfl, fun _ => .inr (List.nil_prefix), by simp⟩
  | cons b buf ih =>
      unfold File.readExactAt
      refine Safe.bind hi ((safe_cell offset).mono ?_)
      intro r w₁ hi₁ h
      rcases h with ⟨hr, hbad⟩
      match r, hr, hbad with
      | .error e, _, hbad =>
          refine .ret fun _ _ _ => ⟨rfl, by simp, fun e' he hb => .inl (hbad e' ?_ hb)⟩
          rw [Except.error.inj he]
      | .ok none, hr, _ =>
          refine .ret fun _ ho _ => ⟨rfl, by simp, fun _ _ _ => ?_⟩
          -- there is no such cell
          rcases hr none rfl with h | h
          · exact .inr (.inl (ho.grows.changed h))
          · have := List.getElem?_eq_none_iff.mp h
            rw [List.length_cons]
            exact .inr (.inr (by omega))
      | .ok (some c), hr, _ =>
          have hl := lasting_altered_or (τ := τ) (B := B) (G := G) (K := K) (M := M)
            (M.archive[offset]? = some c)
          refine Safe.bind hi₁ (((ih (offset + 1) hi₁).lasting hl (hr (some c) rfl)).mono ?_)
          intro x w₂ _ h
          rcases x with ⟨rest, res⟩
          rcases h with ⟨hread, hc⟩
          refine .ret fun w₃ ho _ => ⟨?_, ?_, ?_⟩
          · have := hread.room
            simpa using this
          · intro hok
            rcases hread.bytes hok with h | h
            · exact .inl (ho.grows.changed h)
            · rcases hc with hc | hc
              · exact .inl (ho.grows.changed hc)
              · exact .inr (cons_isPrefix_drop hc h)
          · intro e he hb
            rcases hread.failed e he hb with h | h | h
            · exact .inl h
            · exact .inr (.inl (ho.grows.changed h))
            · rw [List.length_cons]
              exact .inr (.inr (by omega))

/-- Reading what there is, likewise. -/
theorem safe_fileReadAt {t : τ} (len offset : Nat) {w : World τ δ ζ} (hi : MountInv B G K M w) :
    Safe (mountProtocol B G K M) (execIf B G K M) t
      (fun r w' => ∀ data, r = .ok data → data.length ≤ len ∧
        (Altered M w' ∨ data <+: M.archive.drop offset))
      (File.readAt len offset : Act δ ζ _) w := by
  induction len generalizing offset w with
  | zero =>
      refine .ret fun w' _ _ data h => ?_
      obtain rfl := Except.ok.inj h
      exact ⟨Nat.le_refl _, .inr List.nil_prefix⟩
  | succ len ih =>
      unfold File.readAt
      refine Safe.bind hi ((safe_cell offset).mono ?_)
      intro r w₁ hi₁ h
      rcases h with ⟨hr, -⟩
      match r, hr with
      | .error e, _ => exact .ret fun _ _ _ _ h => absurd h (by simp)
      | .ok none, _ =>
          refine .ret fun _ _ _ data h => ?_
          obtain rfl := Except.ok.inj h
          exact ⟨Nat.zero_le _, .inr List.nil_prefix⟩
      | .ok (some c), hr =>
          have hl := lasting_altered_or (τ := τ) (B := B) (G := G) (K := K) (M := M)
            (M.archive[offset]? = some c)
          have hshort :=
            meets_plain (τ := τ) (B := B) (G := G) (K := K) (M := M) (I := Anywhere) (o := .short)
            fun _ _ => trivial
          refine Safe.bind hi₁ (((hshort t w₁ hi₁ trivial).lasting hl (hr (some c) rfl)).mono ?_)
          intro short w₂ hi₂ h
          rcases h with ⟨_, hc⟩
          cases short with
          | true =>
              refine .ret fun w₃ ho _ data h => ?_
              obtain rfl := Except.ok.inj h
              exact ⟨Nat.le_add_left 1 len, hc.imp ho.grows.changed fun hc =>
                cons_isPrefix_drop hc List.nil_prefix⟩
          | false =>
              refine Safe.bind hi₂ (((ih (offset + 1) hi₂).lasting hl hc).mono ?_)
              intro r w₃ _ h
              rcases h with ⟨hrest, hc⟩
              refine .ret fun w₄ ho _ data h => ?_
              cases r with
              | error e => exact absurd h (by simp [Except.map])
              | ok rest =>
                  obtain rfl := Except.ok.inj h
                  obtain ⟨hlen, hrest⟩ := hrest rest rfl
                  refine ⟨by simpa using hlen, ?_⟩
                  rcases hrest with h | h
                  · exact .inl (ho.grows.changed h)
                  · exact hc.imp ho.grows.changed fun hc => cons_isPrefix_drop hc h

/-! ## Guarded reads -/

variable (B M) in
/-- What a guarded read of exactly the buffer leaves and returns. -/
structure ReadExactOk (buf : Bytes) (offset : Nat) (x : Bytes × Except IoError Unit) : Prop where
  room : x.1.length = buf.length
  bytes : x.2 = .ok () → x.1 <+: M.archive.drop offset
  /-- It fails for good only beyond the end of the archive. -/
  failed : ∀ e, x.2 = .error e → provesBad e = true →
    B ∨ M.archive.length < offset + buf.length

/-- **A guarded read that returns bytes returns the mounted ones.** -/
theorem readExactAt_does (buf : Bytes) (offset : Nat) :
    Does B G K M (Anywhere (τ := τ)) (GuardedFile.readExactAt M buf offset)
      (ReadExactOk B M buf offset) := by
  intro t w hi _
  unfold GuardedFile.readExactAt
  refine Safe.bind hi ((safe_fileReadExactAt buf offset hi).mono ?_)
  intro x w₁ hi₁ hread
  -- what is known of the read is good until a change
  have hB : Altered M w₁ ∨ ReadExactOk B M buf offset x := by
    by_cases hch : Altered M w₁
    · exact .inl hch
    · refine .inr ⟨hread.room, fun hok => (hread.bytes hok).resolve_left hch, fun e he hb => ?_⟩
      rcases hread.failed e he hb with h | h | h
      · exact .inl h
      · exact absurd h hch
      · exact .inr h
  rcases x with ⟨got, read⟩
  have hlen := hread.room
  have hl := lasting_altered_or (τ := τ) (B := B) (G := G) (K := K) (M := M)
    (ReadExactOk B M buf offset (got, read))
  refine Meets.bind (T := ReadExactOk B M buf offset) hl (verify_meets _) ?_ t w₁ hi₁ hB
  intro verified hverified
  cases verified with
  | error e =>
      refine .pure ⟨hlen, by simp, fun e' he hb => ?_⟩
      rw [← Except.error.inj he, hverified.2 e rfl] at hb
      exact absurd hb (by simp)
  | ok _ =>
      have hgood := hverified.1 rfl
      cases read with
      | error e => exact .pure hgood
      | ok _ =>
          refine Meets.bind hl (meets_note fun _ => hgood.bytes rfl) ?_
          exact fun _ _ => .pure hgood

/-- The same for a read that may stop early. -/
theorem readAt_does (len offset : Nat) :
    Does B G K M (Anywhere (τ := τ)) (GuardedFile.readAt M len offset)
      (MountAnswer M ⟨len, offset⟩) := by
  intro t w hi _
  unfold GuardedFile.readAt
  refine Safe.bind hi ((safe_fileReadAt len offset hi).mono ?_)
  intro read w₁ hi₁ hread
  have hB : Altered M w₁ ∨ MountAnswer M ⟨len, offset⟩ read := by
    cases read with
    | error e => exact .inr trivial
    | ok data =>
        obtain ⟨hlen, h⟩ := hread data rfl
        exact h.imp_right fun h => List.prefix_take_iff.mpr ⟨h, hlen⟩
  have hl := lasting_altered_or (τ := τ) (B := B) (G := G) (K := K) (M := M)
    (MountAnswer M ⟨len, offset⟩ read)
  refine Meets.bind (T := MountAnswer M ⟨len, offset⟩) hl (verify_meets _) ?_ t w₁ hi₁ hB
  intro verified hverified
  cases verified with
  | error e => exact .pure trivial
  | ok _ =>
      have hgood := hverified.1 rfl
      cases read with
      | error e => exact .pure trivial
      | ok data =>
          refine Meets.bind hl (meets_note fun _ => (List.prefix_take_iff.mp hgood).1) ?_
          exact fun _ _ => .pure hgood

/-! ## The start of an entry's data -/

/-- Whatever rawzip finds, it found reading the mounted bytes. -/
theorem getEntry_does (wayfinder : Nat) :
    Does B G K M (Anywhere (τ := τ)) (Archive.getEntry M wayfinder)
      ((M.getEntry wayfinder).Runs (MountAnswer M)) :=
  Meets.handle lasting_true (fun r : ReadAt => readAt_does r.len r.offset) _

theorem dataStart_does {i : Nat} {m : EntryMeta} (hm : M.index.metas[i]? = some m) :
    Does B G K M (Anywhere (τ := τ)) (Archive.dataStart M i m) fun r =>
      ∀ start, r = .ok start → EntryStart M m start := by
  have hload : Does B G K M (Anywhere (τ := τ)) (Act.loadDataStart i) fun cached =>
      cached ≠ U64_MAX → EntryStart M m cached := by
    refine meets_op (o := .loadDataStart i) lasting_true (fun _ _ _ _ => trivial) ?_
    intro t w r w' hi _ he hr
    rcases he with he | ⟨he, -⟩
    · obtain ⟨rfl, -⟩ := Prod.mk.inj (Option.some.inj he)
      exact hi.starts i m hm hr
    · exact he.elim
  unfold Archive.dataStart
  refine Meets.bind lasting_true hload ?_
  intro cached hcached
  split
  · rename_i hne
    refine .pure fun start h => ?_
    obtain rfl := Except.ok.inj h
    exact hcached hne
  · refine Meets.bind lasting_true (getEntry_does m.wayfinder) ?_
    intro found hfound
    match found, hfound with
    | .error e, _ => exact .pure (by simp)
    | .ok (start, stop), hfound =>
        dsimp only
        split
        · exact .pure (by simp)
        · rename_i hle
          split
          · exact .pure (by simp)
          · rename_i hsize
            have hstart : EntryStart M m start :=
              ⟨stop, by omega, by omega, hfound⟩
            have hstore :
              Does B G K M (Anywhere (τ := τ)) (Act.storeDataStart i start) fun _ => True := by
              refine meets_plain (o := .storeDataStart i start) fun _ _ m' hm' => ?_
              obtain rfl := Option.some.inj (hm.symm.trans hm')
              exact hstart
            refine Meets.bind lasting_true hstore fun _ _ => .pure fun s h => ?_
            obtain rfl := Except.ok.inj h
            exact hstart

end ZipFs
