import ZipFs.Lib.Trace
import ZipFs.Mount.Stale
import ZipFs.Mount.Runs

/-!
# Refused reads

What the text of a read says about its reply, whatever the answers to its operations
are: one that loads a bad verdict, or whose block the tracker of a stored file refuses,
fails with `EIO`, or with `ESTALE` if it has seen that the archive is stale. In the
same way, which of the functions that read an entry store a verdict on it, and after
what.
-/

namespace ZipFs

open Lib (Answered)

variable {δ ζ : Type} {K : Codecs δ ζ} {M : Mount}

/-- The operations that a program has performed, with their answers. -/
abbrev Trace (δ ζ : Type) : Type := List (Answered (@Res δ ζ))

/-! ## Operations that say nothing about an entry -/

/-- No verdict was stored. -/
def Unjudged (xs : Trace δ ζ) : Prop := ∀ i state, .storeVerify i state ∉ xs.map Sigma.fst

/-- No tracker was asked. -/
def Unobserved (xs : Trace δ ζ) : Prop :=
  ∀ id offset len fine, .note (.observed id offset len fine) ∉ xs.map Sigma.fst

/-- Neither stores a verdict nor asks a tracker. -/
def Op.Mute : Op δ ζ → Prop
  | .storeVerify .. | .note (.observed ..) => False
  | _ => True

/-- Does not ask a tracker. -/
def Op.Untracked : Op δ ζ → Prop
  | .note (.observed ..) => False
  | _ => True

theorem Op.Mute.untracked {o : Op δ ζ} (h : o.Mute) : o.Untracked := by
  cases o with
  | note n =>
      cases n with
      | observed => exact h
      | _ => trivial
  | _ => trivial

theorem unjudged_of_mute {xs : Trace δ ζ} (h : ∀ o ∈ xs.map Sigma.fst, o.Mute) : Unjudged xs :=
  fun _ _ hx => h _ hx

theorem unobserved_of_untracked {xs : Trace δ ζ} (h : ∀ o ∈ xs.map Sigma.fst, o.Untracked) :
    Unobserved xs :=
  fun _ _ _ _ hx => h _ hx

theorem unjudged_append {xs ys : Trace δ ζ} (hx : Unjudged xs) (hy : Unjudged ys) :
    Unjudged (xs ++ ys) := by
  intro i state h
  rw [List.map_append, List.mem_append] at h
  exact h.elim (hx i state) (hy i state)

theorem Op.Checks.mute {o : Op δ ζ} (h : o.Checks) : o.Mute := by
  cases o with
  | storeVerify => exact h
  | note n =>
      cases n with
      | observed => exact h
      | _ => trivial
  | _ => trivial

theorem Op.Locates.mute {o : Op δ ζ} (h : o.Locates) : o.Mute := by
  cases o with
  | storeVerify => exact h
  | note n =>
      cases n with
      | observed => exact h
      | _ => trivial
  | _ => trivial

theorem Op.Pumps.mute {F : Bool → Prop} {o : Op δ ζ} (h : o.Pumps F) : o.Mute := by
  cases o with
  | storeVerify => exact h
  | note n =>
      cases n with
      | observed => exact h
      | _ => trivial
  | _ => trivial

theorem Op.Pools.untracked {F : Bool → Prop} {o : Op δ ζ} (h : o.Pools F) : o.Untracked := by
  cases o with
  | note n =>
      cases n with
      | observed => exact h
      | _ => trivial
  | _ => trivial

/-- Programs that perform operations of these kinds only. -/
theorem always_permits {A A' : Op δ ζ → Prop} (hcheck : ∀ o, o.Mute → A o)
    (hop : ∀ o, A' o → A o) : Permits (Lib.always A) M A' where
  verify := accepts_guardVerify fun _ ho => Lib.always_op (hcheck _ ho.mute)
  op _ ho := Lib.always_op (hop _ ho)

theorem mute_permits {A : Op δ ζ → Prop} (h : ∀ o, A o → o.Mute) :
    Permits (Lib.always Op.Mute) M A :=
  always_permits (fun _ => id) h

theorem readDirect_mute (loc : EntryLocation) (offset : Nat) (buf : Bytes) {xs : Trace δ ζ}
    {x : Bytes × Except IoError Unit} (h : (Fs.readDirect M loc offset buf).Traced xs x) :
    ∀ o ∈ xs.map Sigma.fst, o.Mute := by
  refine (Lib.Prog.Always.traced (Q := fun _ => True) ?_ h).1
  exact accepts_readDirect (mute_permits fun o ho => (Op.Reads.locates ho).mute) loc offset buf

theorem diagnose_mute (errno : Nat) {xs : Trace δ ζ} {e : Nat}
    (h : (Fs.diagnose M errno).Traced xs e) : ∀ o ∈ xs.map Sigma.fst, o.Mute := by
  refine (Lib.Prog.Always.traced (Q := fun _ => True) ?_ h).1
  exact accepts_diagnose (mute_permits fun _ ho => ho.mute) (Lib.always_op trivial) errno

variable (δ ζ M) in
theorem untracked_permits : PermitsPick (Lib.always (@Op.Untracked δ ζ)) M (fun _ => True)
    (Op.Pools fun _ => True) where
  toPermits := always_permits (fun _ ho => ho.untracked) fun _ ho => ho.untracked
  fresh := trivial
  pick id offset :=
    Lib.Logic.mono (Lib.always_op (o := Op.pick id offset) trivial) fun _ _ _ _ => trivial

theorem readCoded_untracked {file : OpenFile} {pool : EntryPool} (hkind : file.kind = .coded pool)
    (m : EntryMeta) (offset : Nat) (buf : Bytes) {xs : Trace δ ζ} {x : Bytes × Except Nat Nat}
    (h : (Fs.readInto K M file m offset buf).Traced xs x) : Unobserved xs := by
  refine unobserved_of_untracked (Lib.Prog.Always.traced (Q := fun _ => True) ?_ h).1
  exact accepts_readCoded (untracked_permits δ ζ M) hkind m offset buf

theorem release_untracked (fh : Nat) (file : OpenFile) {xs : Trace δ ζ} {u : Unit}
    (h : (file.release fh).Traced xs u) : Unobserved xs := by
  refine unobserved_of_untracked (Lib.Prog.Always.traced (Q := fun _ => True) ?_ h).1
  unfold OpenFile.release
  refine Lib.Logic.seq (Lib.always_op (o := Op.dropFile fh) trivial) fun last => ?_
  split
  · split
    · exact accepts_drop (F := fun _ => True) (fun _ ho => Lib.always_op ho.untracked) _
    · exact (Lib.always _).pure trivial
  · exact (Lib.always _).pure trivial

/-! ## What a refused read replies -/

/-- The reply of a read that is refused: that the entry is bad, or that the archive is stale. -/
def Refuses (xs : Trace δ ζ) (reply : Reply) : Prop :=
  reply = .error EIO ∨ reply = .error ESTALE ∧ ⟨.loadStale, true⟩ ∈ xs

theorem Refuses.mono {xs ys : Trace δ ζ} {reply : Reply} (h : Refuses xs reply) (hs : xs ⊆ ys) :
    Refuses ys reply :=
  h.imp id fun h => ⟨h.1, hs h.2⟩

/-- A check finds the archive stale only if it has loaded the flag. -/
theorem check_traced {xs : Trace δ ζ} (h : (Archive.check M).Traced xs .stale) :
    ⟨.loadStale, true⟩ ∈ xs := by
  unfold Archive.check GuardedFile.check at h
  obtain ⟨ys, zs, verified, rfl, -, h⟩ := Lib.Prog.traced_bind.mp h
  cases verified with
  | ok _ => exact absurd h.2 (by simp)
  | error e =>
      obtain ⟨us, vs, stale, rfl, hload, hfound⟩ := Lib.Prog.traced_bind.mp h
      obtain rfl := Lib.Prog.traced_op.mp hload
      cases stale with
      | true => simp
      | false =>
          rw [if_neg (by simp)] at hfound
          exact absurd hfound.2 (by simp)

theorem diagnose_traced {xs : Trace δ ζ} {errno : Nat} (h : (Fs.diagnose M EIO).Traced xs errno) :
    Refuses xs (.error errno) := by
  unfold Fs.diagnose at h
  rw [if_pos rfl] at h
  obtain ⟨ys, zs, _, rfl, -, h⟩ := Lib.Prog.traced_bind.mp h
  obtain ⟨us, vs, found, rfl, hcheck, h⟩ := Lib.Prog.traced_bind.mp h
  obtain ⟨rfl, rfl⟩ := h
  by_cases hfound : found = .stale
  · subst hfound
    exact .inr ⟨by rw [if_pos rfl], by simp [check_traced hcheck]⟩
  · exact .inl (by rw [if_neg hfound])

/-- The reply of a call that fails. -/
theorem failed_traced {e : Nat} {xs : Trace δ ζ} {reply : Reply}
    (h : (do
      let errno ← Fs.diagnose M e
      pure (Reply.error errno)).Traced xs reply) :
    Unobserved xs ∧ (e = EIO → Refuses xs reply) := by
  obtain ⟨ys, zs, errno, rfl, hdiag, rfl, rfl⟩ := Lib.Prog.traced_bind.mp h
  rw [List.append_nil]
  refine ⟨unobserved_of_untracked fun o ho => (diagnose_mute e hdiag o ho).untracked, ?_⟩
  intro he
  subst he
  exact diagnose_traced hdiag

/-! ## Trackers -/

/-- A tracker that refuses a block marks the entry bad. -/
theorem observe_refused {v : StoreVerify} {offset : Nat} {data : Bytes} {m : EntryMeta}
    (h : (v.observe offset data m).2.1 = false) : (v.observe offset data m).2.2 = some .bad := by
  unfold StoreVerify.observe at h ⊢
  split
  · rename_i hoff
    rw [if_pos hoff] at h
    exact absurd h (by simp)
  · rename_i hon
    rw [if_neg hon] at h
    dsimp only at h ⊢
    split
    · rename_i hlt
      rw [if_pos hlt] at h
      exact absurd h (by simp)
    · rename_i hge
      rw [if_neg hge] at h
      dsimp only at h ⊢
      rw [h]
      rfl

/-- What is recorded of a tracker is what it said, and it marks the entry bad if it refuses. -/
theorem observeStore_traced {verify : Option Nat} {offset : Nat} {data : Bytes} {i : Nat}
    {m : EntryMeta} {xs : Trace δ ζ} {fine : Bool}
    (h : (OpenFile.observeStore verify offset data i m).Traced xs fine) {id off len : Nat}
    {said : Bool} (hx : .note (.observed id off len said) ∈ xs.map Sigma.fst) :
    verify = some id ∧ fine = said ∧ (said = false → .storeVerify i .bad ∈ xs.map Sigma.fst) := by
  unfold OpenFile.observeStore at h
  cases verify with
  | none =>
      obtain ⟨rfl, -⟩ := h
      exact absurd hx (by simp)
  | some id' =>
      dsimp only at h
      unfold OpenFile.observeLocked at h
      obtain ⟨_, ys₁, v, rfl, hlock, h₁⟩ := Lib.Prog.traced_bind.mp h
      obtain rfl := Lib.Prog.traced_op.mp hlock
      have hbad : (v.observe offset data m).2.1 = false → _ := observe_refused
      generalize v.observe offset data m = answer at h₁ hbad
      obtain ⟨v', fine', verdict⟩ := answer
      obtain ⟨_, ys₂, _, rfl, hrecord, h₂⟩ := Lib.Prog.traced_bind.mp h₁
      obtain rfl := Lib.Prog.traced_op.mp hrecord
      obtain ⟨_, ys₃, _, rfl, hnote, h₃⟩ := Lib.Prog.traced_bind.mp h₂
      obtain rfl := Lib.Prog.traced_op.mp hnote
      cases verdict with
      | some state =>
          obtain ⟨_, ys₄, _, rfl, hstore, h₄⟩ := Lib.Prog.traced_bind.mp h₃
          obtain rfl := Lib.Prog.traced_op.mp hstore
          obtain ⟨_, _, _, rfl, hunlock, rfl, rfl⟩ := Lib.Prog.traced_bind.mp h₄
          obtain rfl := Lib.Prog.traced_op.mp hunlock
          obtain ⟨rfl, -, -, rfl⟩ : id = id' ∧ off = offset ∧ len = data.length ∧ said = fine := by
            simpa using hx
          refine ⟨rfl, rfl, fun hfalse => ?_⟩
          obtain rfl := Option.some.inj (hbad hfalse)
          simp
      | none =>
          obtain ⟨_, _, _, rfl, hunlock, rfl, rfl⟩ := Lib.Prog.traced_bind.mp h₃
          obtain rfl := Lib.Prog.traced_op.mp hunlock
          obtain ⟨rfl, -, -, rfl⟩ : id = id' ∧ off = offset ∧ len = data.length ∧ said = fine := by
            simpa using hx
          exact ⟨rfl, rfl, fun hfalse => absurd (hbad hfalse) (by simp)⟩

theorem readInto_traced {file : OpenFile} {m : EntryMeta} {offset : Nat} {buf : Bytes}
    {xs : Trace δ ζ} {x : Bytes × Except Nat Nat}
    (h : (Fs.readInto K M file m offset buf).Traced xs x) {id off len : Nat} {said : Bool}
    (hx : .note (.observed id off len said) ∈ xs.map Sigma.fst) :
    (∃ start size, file.kind = .store start size (some id)) ∧
      (said = false → x.2 = .error EIO ∧ .storeVerify file.metaIdx .bad ∈ xs.map Sigma.fst) := by
  cases hkind : file.kind with
  | empty =>
      unfold Fs.readInto at h
      rw [hkind] at h
      obtain ⟨rfl, -⟩ := h
      exact absurd hx (by simp)
  | coded pool => exact absurd hx (readCoded_untracked hkind m offset buf h id off len said)
  | store start size verify =>
      unfold Fs.readInto at h
      rw [hkind] at h
      obtain ⟨ys, zs, got, rfl, hread, h⟩ := Lib.Prog.traced_bind.mp h
      have hmute := unobserved_of_untracked fun o ho => (readDirect_mute _ _ _ hread o ho).untracked
      rw [List.map_append, List.mem_append] at hx
      have hx := hx.resolve_left (hmute id off len said)
      rcases got with ⟨got, r⟩
      cases r with
      | error e =>
          obtain ⟨rfl, -⟩ := h
          exact absurd hx (by simp)
      | ok _ =>
          obtain ⟨us, vs, fine, rfl, hobs, hend⟩ := Lib.Prog.traced_bind.mp h
          obtain rfl : vs = [] := by
            split at hend
            · exact hend.1
            · exact hend.1
          rw [List.append_nil] at hx ⊢
          obtain ⟨rfl, rfl, hbad⟩ := observeStore_traced hobs hx
          refine ⟨⟨start, size, rfl⟩, fun hfalse => ⟨?_, ?_⟩⟩
          · rw [if_neg (by simp [hfalse])] at hend
            rw [hend.2]
          · rw [List.map_append]
            exact List.mem_append_right _ (hbad hfalse)

/-- What is done with a lent buffer, and nothing else that matters. -/
theorem withScratch_traced {α : Type} {len : Nat} {f : Bytes → Act δ ζ (Bytes × α)}
    {xs : Trace δ ζ} {x : Bytes × α} (h : (Fs.withScratch len f).Traced xs x) :
    ∃ buf ys, (f buf).Traced ys x ∧ ys ⊆ xs ∧ ∀ id off len said,
      .note (.observed id off len said) ∈ xs.map Sigma.fst →
        .note (.observed id off len said) ∈ ys.map Sigma.fst := by
  unfold Fs.withScratch at h
  obtain ⟨_, ys₁, (scratch : Bytes), rfl, hget, h₁⟩ := Lib.Prog.traced_bind.mp h
  obtain rfl := Lib.Prog.traced_op.mp hget
  obtain ⟨ys, ys₂, ⟨buf, a⟩, rfl, hf, h₂⟩ := Lib.Prog.traced_bind.mp h₁
  obtain ⟨_, _, _, rfl, hput, rfl, rfl⟩ := Lib.Prog.traced_bind.mp h₂
  obtain rfl := Lib.Prog.traced_op.mp hput
  refine ⟨_, ys, hf, by simp, ?_⟩
  intro id off len said hx
  simpa using hx

/-! ## Reads -/

/-- What the operations of a read of an open file say about its reply. -/
structure ReadTraced (file : OpenFile) (xs : Trace δ ζ) (reply : Reply) : Prop where
  /-- It has found the archive stale, or has loaded the verdict. -/
  loaded : (reply = .error ESTALE ∧ ⟨.loadStale, true⟩ ∈ xs) ∨
    ∃ state, ⟨.loadVerify file.metaIdx, state⟩ ∈ xs ∧ (state = .bad → Refuses xs reply)
  /-- A block that its tracker refuses is not delivered, and the entry is marked bad. -/
  tracked : ∀ id off len said, .note (.observed id off len said) ∈ xs.map Sigma.fst →
    (∃ start size, file.kind = .store start size (some id)) ∧
      (said = false → Refuses xs reply ∧ .storeVerify file.metaIdx .bad ∈ xs.map Sigma.fst)

/-- Operations that ask no tracker may come before and after. -/
theorem ReadTraced.mono {file : OpenFile} {xs ys : Trace δ ζ} {reply : Reply}
    (h : ReadTraced file xs reply) (hsub : xs ⊆ ys)
    (hobs : ∀ id off len said, .note (.observed id off len said) ∈ ys.map Sigma.fst →
      .note (.observed id off len said) ∈ xs.map Sigma.fst) : ReadTraced file ys reply where
  loaded := by
    rcases h.loaded with ⟨hstale, hmem⟩ | ⟨state, hmem, hbad⟩
    · exact .inl ⟨hstale, hsub hmem⟩
    · exact .inr ⟨state, hsub hmem, fun hb => (hbad hb).mono hsub⟩
  tracked id off len said hx := by
    obtain ⟨hkind, hbad⟩ := h.tracked id off len said (hobs id off len said hx)
    refine ⟨hkind, fun hfalse => ⟨(hbad hfalse).1.mono hsub, ?_⟩⟩
    exact List.map_subset Sigma.fst hsub (hbad hfalse).2

theorem readFile_traced {file : OpenFile} {offset size : Nat} {xs : Trace δ ζ} {reply : Reply}
    (h : (Fs.readFile K M file offset size).Traced xs reply) : ReadTraced file xs reply := by
  unfold Fs.readFile at h
  obtain ⟨_, ys₁, (stale : Bool), rfl, hload, h₁⟩ := Lib.Prog.traced_bind.mp h
  obtain rfl := Lib.Prog.traced_op.mp hload
  split at h₁
  · rename_i hstale
    obtain ⟨rfl, rfl⟩ := h₁
    subst hstale
    exact ⟨.inl ⟨rfl, by simp⟩, by simp⟩
  · split at h₁
    · obtain ⟨r, -⟩ := h₁
      exact (r : Empty).elim
    · rename_i m hm
      obtain ⟨_, ys₂, (state : VerifyState), rfl, hverdict, h₂⟩ := Lib.Prog.traced_bind.mp h₁
      obtain rfl := Lib.Prog.traced_op.mp hverdict
      -- what comes first asks no tracker, and the verdict has been loaded
      have hfront : ∀ id off len said, .note (.observed id off len said) ∈
          ([⟨.loadStale, stale⟩] ++ ([⟨.loadVerify file.metaIdx, state⟩] ++ ys₂) :
            Trace δ ζ).map Sigma.fst → .note (.observed id off len said) ∈ ys₂.map Sigma.fst := by
        simp
      have hback : ys₂ ⊆ ([⟨.loadStale, stale⟩] ++ ([⟨.loadVerify file.metaIdx, state⟩] ++ ys₂) :
          Trace δ ζ) := by simp
      split at h₂
      · obtain ⟨hquiet, hrefuses⟩ := failed_traced h₂
        refine ⟨.inr ⟨state, by simp, fun _ => (hrefuses rfl).mono hback⟩, ?_⟩
        intro id off len said hx
        exact absurd (hfront id off len said hx) (hquiet id off len said)
      · rename_i hnot
        refine ⟨.inr ⟨state, by simp, fun hbad => absurd hbad hnot⟩, ?_⟩
        intro id off len said hx
        have hx := hfront id off len said hx
        dsimp only at h₂
        split at h₂
        · obtain ⟨rfl, -⟩ := h₂
          exact absurd hx (by simp)
        · obtain ⟨ys, zs, x, rfl, hscratch, h₃⟩ := Lib.Prog.traced_bind.mp h₂
          obtain ⟨buf, us, hinto, hsub, hkept⟩ := withScratch_traced hscratch
          rcases x with ⟨got, r⟩
          have hquiet : Unobserved zs ∧ (r = .error EIO → Refuses zs reply) := by
            cases r with
            | ok n =>
                obtain ⟨rfl, -⟩ := h₃
                exact ⟨fun _ _ _ _ => by simp, by simp⟩
            | error e =>
                obtain ⟨hquiet, hrefuses⟩ := failed_traced h₃
                exact ⟨hquiet, fun he => hrefuses (Except.error.inj he)⟩
          rw [List.map_append, List.mem_append] at hx
          have hx := hkept id off len said (hx.resolve_right (hquiet.1 id off len said))
          obtain ⟨hkind, hbad⟩ := readInto_traced hinto hx
          refine ⟨hkind, fun hfalse => ?_⟩
          obtain ⟨hr, hstore⟩ := hbad hfalse
          refine ⟨(hquiet.2 hr).mono fun y hy => hback (List.mem_append_right ys hy), ?_⟩
          exact List.map_subset Sigma.fst
            (fun y hy => hback (List.mem_append_left zs (hsub hy))) hstore

/-- **A read that has found its handle** reads the file behind it. -/
theorem read_traced {fh offset size : Nat} {xs : Trace δ ζ} {reply : Reply}
    (h : (Fs.read K M fh offset size).Traced xs reply) :
    (∃ file, ⟨.getHandle fh, some file⟩ ∈ xs ∧ ReadTraced file xs reply) ∨
      .note .handleFound ∉ xs.map Sigma.fst ∧ Unobserved xs := by
  unfold Fs.read at h
  obtain ⟨_, ys₁, (found : Option OpenFile), rfl, hget, h₁⟩ := Lib.Prog.traced_bind.mp h
  obtain rfl := Lib.Prog.traced_op.mp hget
  cases found with
  | none =>
      obtain ⟨rfl, -⟩ := h₁
      exact .inr ⟨by simp, fun _ _ _ _ => by simp⟩
  | some file =>
      obtain ⟨_, ys₂, _, rfl, hnote, h₂⟩ := Lib.Prog.traced_bind.mp h₁
      obtain rfl := Lib.Prog.traced_op.mp hnote
      obtain ⟨ys, ys₃, reply', rfl, hread, h₃⟩ := Lib.Prog.traced_bind.mp h₂
      obtain ⟨zs, _, _, rfl, hrel, rfl, rfl⟩ := Lib.Prog.traced_bind.mp h₃
      have hquiet := release_untracked fh file hrel
      refine .inl ⟨file, by simp, (readFile_traced hread).mono ?_ ?_⟩
      · intro y hy
        simp [hy]
      · intro id off len said hx
        have hx : .note (.observed id off len said) ∈ ys.map Sigma.fst ∨
            .note (.observed id off len said) ∈ zs.map Sigma.fst := by simpa using hx
        exact hx.resolve_right (hquiet id off len said)

/-- A `readlink` that has found no cached target loads the verdict, and fails if it is bad. -/
theorem readlink_traced {ino : Nat} {xs : Trace δ ζ} {reply : Reply}
    (h : (Fs.readlink K M ino).Traced xs reply) (hx : .note .targetMissing ∈ xs.map Sigma.fst) :
    ∃ node m state, M.index.node ino = some node ∧ M.index.metas[node.metaIdx]? = some m ∧
      ⟨.loadVerify node.metaIdx, state⟩ ∈ xs ∧ (state = .bad → Refuses xs reply) := by
  unfold Fs.readlink at h
  split at h
  · obtain ⟨rfl, -⟩ := h
    exact absurd hx (by simp)
  · rename_i node hnode
    split at h
    · obtain ⟨rfl, -⟩ := h
      exact absurd hx (by simp)
    · split at h
      · obtain ⟨rfl, -⟩ := h
        exact absurd hx (by simp)
      · rename_i m hm
        obtain ⟨_, ys₁, (cached : Option Bytes), rfl, hget, h₁⟩ := Lib.Prog.traced_bind.mp h
        obtain rfl := Lib.Prog.traced_op.mp hget
        cases cached with
        | some target =>
            obtain ⟨rfl, -⟩ := h₁
            exact absurd hx (by simp)
        | none =>
            obtain ⟨_, ys₂, _, rfl, hnote, h₂⟩ := Lib.Prog.traced_bind.mp h₁
            obtain rfl := Lib.Prog.traced_op.mp hnote
            obtain ⟨ys, zs, found, rfl, hall, h₃⟩ := Lib.Prog.traced_bind.mp h₂
            unfold Fs.readAll at hall
            obtain ⟨_, us, (state : VerifyState), rfl, hload, hrest⟩ := Lib.Prog.traced_bind.mp hall
            obtain rfl := Lib.Prog.traced_op.mp hload
            refine ⟨node, m, state, hnode, index_meta hm, by simp, fun hbad => ?_⟩
            split at hrest
            · obtain ⟨rfl, rfl⟩ := hrest
              refine ((failed_traced h₃).2 rfl).mono ?_
              intro y hy
              simp [hy]
            · rename_i hnot
              exact absurd hbad hnot

/-! ## Verdicts that are stored -/

theorem pump_mute {d : PositionedDecoder δ ζ} {out : Bytes} {xs : Trace δ ζ}
    {x : PositionedDecoder δ ζ × Bytes × Except IoError Nat} (h : (d.pump K M out).Traced xs x) :
    Unjudged xs := by
  refine unjudged_of_mute (Lib.Prog.Always.traced (Q := fun _ => True) ?_ h).1
  exact Lib.Logic.accepts (holds_pump (F := fun _ => True) (mute_permits fun _ ho => ho.mute) d out
    trivial)

theorem skipLoop_mute {turns : Nat} {d : PositionedDecoder δ ζ} {offset : Nat} {xs : Trace δ ζ}
    {x : PositionedDecoder δ ζ × Except IoError Unit}
    (h : (d.skipLoop K M turns offset).Traced xs x) : Unjudged xs := by
  refine unjudged_of_mute (Lib.Prog.Always.traced (Q := fun _ => True) ?_ h).1
  exact Lib.Logic.accepts
    (holds_skipLoop (F := fun _ => True) (mute_permits fun _ ho => ho.mute) _ d
    offset trivial)

theorem deliverLoop_mute {turns : Nat} {d : PositionedDecoder δ ζ} {total written : Nat}
    {out : Bytes} {xs : Trace δ ζ} {x : PositionedDecoder δ ζ × Bytes × Except IoError Nat}
    (h : (d.deliverLoop K M turns total out written).Traced xs x) : Unjudged xs := by
  refine unjudged_of_mute (Lib.Prog.Always.traced (Q := fun _ => True) ?_ h).1
  exact Lib.Logic.accepts
    (holds_deliverLoop (F := fun _ => True) (mute_permits fun _ ho => ho.mute) _
    d total out written trivial)

/-- A check of the whole entry that fails for another reason than the entry stores nothing. -/
theorem verify_transient {i : Nat} {m : EntryMeta} {d d' : PositionedDecoder δ ζ}
    {xs : Trace δ ζ} {e : IoError} (h : (d.verify K M i m).Traced xs (d', .error e))
    (he : provesBad e = false) : Unjudged xs := by
  unfold PositionedDecoder.verify at h
  split at h
  · obtain ⟨_, _, _, -, -, -, hr⟩ := Lib.Prog.traced_bind.mp h
    exact absurd (Prod.mk.inj hr).2 (by simp)
  · dsimp only at h
    split at h
    · obtain ⟨_, _, _, -, -, -, hr⟩ := Lib.Prog.traced_bind.mp h
      obtain rfl := Except.error.inj (Prod.mk.inj hr).2
      exact absurd he (by decide)
    · split at h
      · exact absurd (Prod.mk.inj h.2).2 (by simp)
      · obtain ⟨ys, zs, ⟨d₁, out, r⟩, rfl, hpump, h⟩ := Lib.Prog.traced_bind.mp h
        have hquiet := pump_mute hpump
        cases r with
        | error e' =>
            dsimp only at h
            split at h
            · rename_i hbad
              obtain ⟨_, _, _, -, -, -, hr⟩ := Lib.Prog.traced_bind.mp h
              obtain rfl := Except.error.inj (Prod.mk.inj hr).2
              exact absurd (he.symm.trans hbad) (by simp)
            · obtain ⟨rfl, -⟩ := h
              rw [List.append_nil]
              exact hquiet
        | ok n =>
            dsimp only at h
            split at h
            · obtain ⟨_, _, _, -, -, -, hr⟩ := Lib.Prog.traced_bind.mp h
              obtain rfl := Except.error.inj (Prod.mk.inj hr).2
              exact absurd he (by decide)
            · obtain ⟨_, _, _, -, -, -, hr⟩ := Lib.Prog.traced_bind.mp h
              exact absurd (Prod.mk.inj hr).2 (by simp)

/-- **A read through a decoder that fails for another reason than the entry stores nothing.** -/
theorem readAt_transient {i : Nat} {m : EntryMeta} {d d' : PositionedDecoder δ ζ} {offset : Nat}
    {out out' : Bytes} {xs : Trace δ ζ} {e : IoError}
    (h : (d.readAt K M offset out i m).Traced xs (d', out', .error e))
    (he : provesBad e = false) : Unjudged xs := by
  unfold PositionedDecoder.readAt at h
  split at h
  · obtain ⟨_, _, _, rfl, hnote, rfl, -⟩ := Lib.Prog.traced_bind.mp h
    obtain rfl := Lib.Prog.traced_op.mp hnote
    exact fun _ _ => by simp
  · dsimp only at h
    obtain ⟨ys₁, zs₁, ⟨d₁, skipped⟩, rfl, hskip, h₁⟩ := Lib.Prog.traced_bind.mp h
    have hquiet₁ := skipLoop_mute hskip
    cases skipped with
    | error e₁ =>
        obtain ⟨rfl, -⟩ := h₁
        rw [List.append_nil]
        exact hquiet₁
    | ok _ =>
        obtain ⟨ys₂, zs₂, ⟨d₂, out₂, delivered⟩, rfl, hdeliver, h₂⟩ := Lib.Prog.traced_bind.mp h₁
        have hquiet₂ := deliverLoop_mute hdeliver
        refine unjudged_append hquiet₁ (unjudged_append hquiet₂ ?_)
        cases delivered with
        | error e₂ =>
            obtain ⟨rfl, -⟩ := h₂
            exact fun _ _ => by simp
        | ok written =>
            dsimp only at h₂
            split at h₂
            · obtain ⟨ys₃, zs₃, ⟨d₃, verified⟩, rfl, hverify, h₃⟩ := Lib.Prog.traced_bind.mp h₂
              cases verified with
              | error e₃ =>
                  obtain ⟨rfl, hr⟩ := h₃
                  obtain rfl := Except.error.inj (Prod.mk.inj (Prod.mk.inj hr).2).2
                  rw [List.append_nil]
                  exact verify_transient hverify he
              | ok _ =>
                  obtain ⟨_, _, _, -, -, -, hr⟩ := Lib.Prog.traced_bind.mp h₃
                  exact absurd (Prod.mk.inj (Prod.mk.inj hr).2).2 (by simp)
            · obtain ⟨_, _, _, -, -, -, hr⟩ := Lib.Prog.traced_bind.mp h₂
              exact absurd (Prod.mk.inj (Prod.mk.inj hr).2).2 (by simp)

variable (M) in
/-- A verdict was stored only after a direct read of the archive had succeeded. -/
def AfterRead (xs : Trace δ ζ) : Prop :=
  Unjudged xs ∨ ∃ before reading after loc offset buf got, xs = before ++ (reading ++ after) ∧
    Unjudged before ∧ Unjudged reading ∧
    (Fs.readDirect M loc offset buf).Traced reading (got, .ok ())

/-- A read of a stored file stores a verdict only after the block was read. -/
theorem readInto_afterRead {file : OpenFile} (hkind : ∀ pool, file.kind ≠ .coded pool)
    {m : EntryMeta} {offset : Nat} {buf : Bytes} {xs : Trace δ ζ} {x : Bytes × Except Nat Nat}
    (h : (Fs.readInto K M file m offset buf).Traced xs x) : AfterRead M xs := by
  unfold Fs.readInto at h
  split at h
  · obtain ⟨rfl, -⟩ := h
    exact .inl fun _ _ => by simp
  · obtain ⟨ys, zs, ⟨got, r⟩, rfl, hread, h⟩ := Lib.Prog.traced_bind.mp h
    have hquiet := unjudged_of_mute (readDirect_mute _ _ _ hread)
    cases r with
    | error e =>
        obtain ⟨rfl, -⟩ := h
        rw [List.append_nil]
        exact .inl hquiet
    | ok _ => exact .inr ⟨[], ys, zs, _, _, _, got, rfl, fun _ _ => by simp, hquiet, hread⟩
  · rename_i pool hpool
    exact absurd hpool (hkind pool)

theorem locate_traced {i : Nat} {m : EntryMeta} {xs : Trace δ ζ}
    {r : Except Nat EntryLocation} (h : (Fs.locate M i m).Traced xs r) :
    Unjudged xs ∧ ∀ loc, r = .ok loc → m.method = some loc.method := by
  refine ⟨unjudged_of_mute (Lib.Prog.Always.traced (Q := fun _ => True) ?_ h).1, ?_⟩
  · exact accepts_locate (mute_permits fun _ ho => ho.mute) i m
  · intro loc hloc
    subst hloc
    unfold Fs.locate at h
    obtain ⟨_, _, (stale : Bool), -, -, h⟩ := Lib.Prog.traced_bind.mp h
    split at h
    · exact absurd h.2 (by simp)
    · split at h
      · exact absurd h.2 (by simp)
      · rename_i method hread
        split at h
        · exact absurd h.2 (by simp)
        · obtain ⟨_, _, found, -, -, h⟩ := Lib.Prog.traced_bind.mp h
          cases found with
          | error e => exact absurd h.2 (by simp)
          | ok start =>
              obtain rfl := Except.ok.inj h.2
              unfold Fs.readable at hread
              split at hread
              · exact absurd hread (by simp)
              · split at hread
                · exact absurd hread (by simp)
                · rename_i hmethod
                  rw [hmethod, Except.ok.inj hread]

/-- So does a read of a whole stored entry. -/
theorem readAll_afterRead {i : Nat} {m : EntryMeta} {limit : Nat} (hstore : m.method = some .store)
    (hpos : 0 < m.uncompressedSize) {xs : Trace δ ζ} {r : Except Nat Bytes}
    (h : (Fs.readAll K M i m limit).Traced xs r) : AfterRead M xs := by
  unfold Fs.readAll at h
  obtain ⟨_, ys₁, (state : VerifyState), rfl, hload, h₁⟩ := Lib.Prog.traced_bind.mp h
  obtain rfl := Lib.Prog.traced_op.mp hload
  have hfirst : Unjudged ([⟨.loadVerify i, state⟩] : Trace δ ζ) := fun _ _ => by simp
  split at h₁
  · obtain ⟨rfl, -⟩ := h₁
    exact .inl hfirst
  · obtain ⟨ys₂, ys₃, found, rfl, hlocate, h₂⟩ := Lib.Prog.traced_bind.mp h₁
    obtain ⟨hquiet, hmethod⟩ := locate_traced hlocate
    have hfront := unjudged_append hfirst hquiet
    cases found with
    | error e =>
        obtain ⟨rfl, -⟩ := h₂
        rw [List.append_nil]
        exact .inl hfront
    | ok loc =>
        have hloc : loc.method = .store := by
          have := hmethod loc rfl
          rw [hstore] at this
          exact (Option.some.inj this).symm
        dsimp only at h₂
        split at h₂
        · obtain ⟨rfl, -⟩ := h₂
          rw [List.append_nil]
          exact .inl hfront
        · rw [if_neg (by omega)] at h₂
          obtain ⟨ys, zs, ⟨got, r'⟩, rfl, hread, h₃⟩ := Lib.Prog.traced_bind.mp h₂
          have hreading := unjudged_of_mute (readDirect_mute _ _ _ hread)
          cases r' with
          | error e =>
              obtain ⟨rfl, -⟩ := h₃
              rw [List.append_nil, ← List.append_assoc]
              exact .inl (unjudged_append hfront hreading)
          | ok _ =>
              refine .inr ⟨_, ys, zs, _, _, _, got, ?_, hfront, hreading, hread⟩
              rw [List.append_assoc]

/-! ## Over runs -/

section Runs

variable {τ : Type} [DecidableEq τ]

/-- The systems that serve the calls of the mount: their operations are among its operations, and
the archive may change in any way. -/
structure MountLike (K : Codecs δ ζ) (M : Mount)
    (S : Lib.System τ (World τ δ ζ) Call Reply (@Res δ ζ)) : Prop where
  exec : ∀ {t o w r w'}, S.exec t o w r w' → ZipFs.exec K M t o w r w'
  env : ∀ {w w'}, S.env w w' → AnyChange w w'
  arrive : S.arrive = ZipFs.arrive
  prog : S.prog = Call.prog K M

omit [DecidableEq τ] in
theorem writer_anyChange {w w' : World τ δ ζ} (h : Writer M w w') : AnyChange w w' := by
  cases h with
  | touch stamp _ => exact ⟨w.content, stamp, w.path, rfl⟩
  | write content _ => exact ⟨content, w.stamp, w.path, rfl⟩
  | path path => exact ⟨w.content, w.stamp, path, rfl⟩

variable {S : Lib.System τ (World τ δ ζ) Call Reply (@Res δ ζ)}

/-- What a thread has recorded of its call. -/
theorem MountLike.seen (hS : MountLike K M S) :
    Lib.Private S (fun t w => w.seen t) fun o v => v ++ o.notes where
  own h := by
    rw [(exec_framed (hS.exec h)).seen, Function.update_self]
  other h hne := by
    rw [(exec_framed (hS.exec h)).seen, Function.update_of_ne hne.symm]
  arrive hne := by
    rw [hS.arrive]
    exact Function.update_of_ne hne.symm ..
  env h := by
    obtain ⟨content, stamp, path, rfl⟩ := hS.env h
    rfl

/-- The flag of the guard stays up there too. -/
theorem MountLike.stale (hS : MountLike K M S) :
    Lib.Respects S (staleProtocol τ δ ζ) (Reported M) where
  arrive t call w hi := by
    rw [hS.arrive]
    exact stale_respects (K := K) (M := M).arrive t call w hi
  env w w' h hi := stale_respects (K := K) (M := M).env w w' (hS.env h) hi
  calls t call w hi := by
    rw [hS.arrive, hS.prog]
    exact (stale_respects (K := K).calls t call w hi).restrict fun o s r s' he => hS.exec he

/-- What the operations of an answered call tell about the states that it went through. -/
structure Spanned (B G : Prop) (K : Codecs δ ζ) (M : Mount)
    (e : Lib.Event τ (World τ δ ζ) Call Reply) (xs : Trace δ ζ) : Prop where
  noted : ∀ n ∈ e.finish.seen e.thread, .note n ∈ xs.map Sigma.fst
  stale : ⟨.loadStale, true⟩ ∈ xs → e.finish.stale = true
  handle : ∀ fh f, ⟨.getHandle fh, some f⟩ ∈ xs → FileAt fh f e.finish
  verdicts : ∀ i m, M.index.metas[i]? = some m → VerdictOk B G K M i m (e.start.verifyState i)
  /-- A verdict that was there at the start was there when it was loaded. -/
  loaded : ∀ i state, ⟨.loadVerify i, state⟩ ∈ xs →
    (e.start.verifyState i ≠ .unknown → state ≠ .unknown) ∧
      ∀ m, M.index.metas[i]? = some m → VerdictOk B G K M i m state
  judged : ∀ i state, .storeVerify i state ∈ xs.map Sigma.fst → state ≠ .unknown →
    e.finish.verifyState i ≠ .unknown

theorem mem_foldl_notes {n : Note} {xs : Trace δ ζ} {v : List Note}
    (h : n ∈ xs.foldl (fun v x => v ++ x.1.notes) v) : n ∈ v ∨ .note n ∈ xs.map Sigma.fst := by
  induction xs generalizing v with
  | nil => exact .inl h
  | cons x xs ih =>
      rcases ih h with h | h
      · rcases List.mem_append.mp h with h | h
        · exact .inl h
        · refine .inr (List.mem_cons.mpr (.inl ?_))
          cases hx : x.1 with
          | note n' =>
              rw [hx] at h
              rw [List.mem_singleton.mp h]
          | _ =>
              rw [hx] at h
              exact absurd h List.not_mem_nil
      · exact .inr (List.mem_cons_of_mem _ h)

/-- **What an answered call has performed**, and what its operations tell. -/
theorem event_spanned {B G : Prop} (hS : MountLike K M S)
    (hm : Lib.Respects S (mountProtocol B G K M) (Served B G K M)) {path : Option Stamp}
    {c : Lib.Config τ (World τ δ ζ) Call Reply (@Res δ ζ)}
    (h : Lib.Reachable S (World.start M path) c) {e : Lib.Event τ (World τ δ ζ) Call Reply}
    (he : e ∈ c.history) :
    ∃ xs, (e.call.prog K M).Traced xs e.reply ∧ Spanned B G K M e xs := by
  obtain ⟨c₀, c₁, xs, hhas, hfin, -, htr⟩ := Lib.event_traced hS.seen h e he
  rw [hS.prog] at htr
  -- the states of the run are in order, and grow
  have hinv : ∀ {d}, Lib.Steps S c₀ d → MountInv B G K M d.world := fun hd =>
    (Lib.sound hm (start_inv path) (hhas.reachable.steps hd)).inv
  have hgrow : ∀ {d d'}, Lib.Steps S c₀ d → Lib.Steps S d d' → Grows M d.world d'.world :=
    fun hd hd' => (hhas.reachable.steps hd).grow hm (start_inv path) hd'
  have hdet : ∀ {x : Answered (@Res δ ζ)}, x ∈ xs → ∃ d d', Lib.Steps S c₀ d ∧ Lib.Step S d d' ∧
      ZipFs.exec K M e.thread x.1 d.world x.2 d'.world ∧ Lib.Steps S d' c₁ := by
    intro x hx
    obtain ⟨d, d', hto, hstep, hexec, hfrom⟩ := hhas.performed x hx
    exact ⟨d, d', hto, hstep, hS.exec hexec, hfrom⟩
  refine ⟨xs, htr, ?_, ?_, ?_, ?_, ?_, ?_⟩
  · intro n hn
    rw [hfin, hhas.view, hhas.arrived, hS.arrive] at hn
    rcases mem_foldl_notes hn with hn | hn
    · exact absurd hn (by simp [ZipFs.arrive])
    · exact hn
  · intro hx
    obtain ⟨d, d', hto, hstep, hexec, hfrom⟩ := hdet hx
    have hup : d'.world.stale = true := by
      rcases hexec with hexec | ⟨hexec, -⟩
      · obtain ⟨hload, hw⟩ := Prod.mk.inj (Option.some.inj hexec)
        rw [← hw]
        exact hload
      · exact hexec.elim
    have hflag : (staleProtocol τ δ ζ).inv (World.start M path) :=
      fun h => absurd h (by simp [World.start])
    rw [hfin]
    exact ((hhas.reachable.steps (hto.tail hstep)).grow hS.stale hflag hfrom).1 hup
  · intro fh f hx
    obtain ⟨d, d', hto, hstep, hexec, hfrom⟩ := hdet hx
    rw [hfin]
    refine (hgrow (hto.tail hstep) hfrom).files fh f ?_
    rcases hexec with hexec | ⟨hexec, -⟩
    swap
    · exact hexec.elim
    simp only [det] at hexec
    split at hexec
    · split at hexec
      · obtain ⟨hfile, hw⟩ := Prod.mk.inj (Option.some.inj hexec)
        rw [← hw]
        exact ⟨_, World.setFile_self .., Option.some.inj hfile⟩
      · exact absurd (Prod.mk.inj (Option.some.inj hexec)).1 (by simp)
    · exact absurd (Prod.mk.inj (Option.some.inj hexec)).1 (by simp)
  · rw [hhas.arrived, hS.arrive]
    exact (hinv .refl).verdicts
  · intro i state hx
    obtain ⟨d, d', hto, hstep, hexec, hfrom⟩ := hdet hx
    have hstate : d.world.verifyState i = state := by
      rcases hexec with hexec | ⟨hexec, -⟩
      · exact (Prod.mk.inj (Option.some.inj hexec)).1
      · exact hexec.elim
    subst hstate
    refine ⟨?_, (hinv hto).verdicts i⟩
    rw [hhas.arrived, hS.arrive]
    exact (hgrow .refl hto).judged i
  · intro i state hx hne
    obtain ⟨y, hy, hfst⟩ := List.mem_map.mp hx
    obtain ⟨d, d', hto, hstep, hexec, hfrom⟩ := hdet hy
    rw [hfin]
    refine (hgrow (hto.tail hstep) hfrom).judged i ?_
    obtain ⟨o, r⟩ := y
    obtain rfl : o = .storeVerify i state := hfst
    rcases hexec with hexec | ⟨hexec, -⟩
    · obtain ⟨-, hw⟩ := Prod.mk.inj (Option.some.inj hexec)
      rw [← hw]
      dsimp only
      rw [Function.update_self]
      exact hne
    · exact hexec.elim

end Runs

end ZipFs
