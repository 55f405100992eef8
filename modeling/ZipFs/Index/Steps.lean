import ZipFs.Index.AddProof

/-!
# What one `add` can do

`AddProof.lean` says what an entry does to the tree. This file says what it does to
the builder, move by move: `Walked` is the walk to the parent directory, which makes
directories and turns files into directories, and `Claimed` is what happens at the leaf.
The counters, the name blob and the metadata array are all followed from here, so that
nothing after this file looks inside `add` again.

The nodes a walk turned into directories are collected on the way. They are the ones
whose entries the finished index does not show, and the list has at most one element,
though nothing here depends on that.
-/

namespace ZipFs

/-- Peels the first computation off a sequence that ended well. -/
theorem bind_eq_ok {α β : Type} {x : Build α} {f : α → Build β} {r : β}
    (h : x >>= f = .ok r) : ∃ a, x = .ok a ∧ f a = .ok r := by
  cases x with
  | ok a => exact ⟨a, rfl, h⟩
  | error e => exact absurd h (by simp [bind, Except.bind])

namespace Builder

/-- A directory made on the way. -/
def countDir (b : Builder) : Builder :=
  { b with stats := { b.stats with syntheticDirs := b.stats.syntheticDirs + 1 } }

/-- One implied directory less. -/
def uncountDir (b : Builder) : Builder :=
  { b with stats := { b.stats with syntheticDirs := b.stats.syntheticDirs - 1 } }

/-- The builder after `take_over_as_dir` on the node `n`. -/
def tookOver (b : Builder) (id : Nat) (n : TmpNode) : Builder :=
  { b with
    nodes := b.nodes.set id { n with kind := .dir, synthetic := true, metaIdx := NO_META }
    dupWarner := b.dupWarner.allow.1
    stats := { b.stats with
      duplicates := b.stats.duplicates + 1
      syntheticDirs := b.stats.syntheticDirs + 1 } }

/-- The builder after `attach` on the node `n`, with the metadata as it is stored. -/
def attached (b : Builder) (id : Nat) (n : TmpNode) (kind : NodeKind) (info : EntryMeta)
    (count : Nat) : Builder :=
  { b with
    nodes := b.nodes.set id { n with kind := kind, synthetic := false, metaIdx := b.metas.length }
    metas := b.metas ++ [info]
    symlinkCount := count
    stats := countEntry b.stats kind info }

end Builder

/-- The walk to a parent directory, through components out of `comps`. -/
inductive Walked (comps : List Bytes) : Builder → List TmpNode → Builder → Prop where
  | here {b : Builder} : Walked comps b [] b
  | made {b b₁ b' : Builder} {parent : Nat} {name : Bytes} {lost : List TmpNode} :
      b.Ok → name ∈ comps → Grown b parent name b₁ → b₁.stats = b.stats →
      Walked comps b₁.countDir lost b' → Walked comps b lost b'
  | taken {b b' : Builder} {id : Nat} {n : TmpNode} {lost : List TmpNode} :
      b.Ok → b.nodes[id]? = some n → n.kind ≠ .dir → Walked comps (b.tookOver id n) lost b' →
      Walked comps b (n :: lost) b'
  | remembered {b b' : Builder} {path : Bytes} {id : Nat} {lost : List TmpNode} :
      Walked comps { b with memoPath := path, memoId := id } lost b' → Walked comps b lost b'

/-- What an accepted entry does once the directory of its leaf is there. -/
inductive Claimed (e : Entry) (leaf : Bytes) (b : Builder) : Builder → Prop where
  /-- Somebody else keeps the name. -/
  | beaten (warn : Bool) : Claimed e leaf b (b.duplicate warn)
  /-- The first declaration of a directory that was only implied so far. -/
  | declared {id : Nat} {n : TmpNode} {info : EntryMeta} {count : Nat} :
      b.nodes[id]? = some n → n.synthetic = true → n.kind = .dir → e.kind = .dir →
      info.bare = e.info.bare →
      Claimed e leaf b (b.uncountDir.attached id n e.kind info count)
  | fresh {b₁ : Builder} {parent : Nat} {info : EntryMeta} {count : Nat} :
      Grown b parent leaf b₁ → b₁.stats = b.stats → info.bare = e.info.bare →
      Claimed e leaf b (b₁.attached b.nodes.length (freshNode b parent leaf) e.kind info count)

/-! ## `add` does nothing else -/

section Moves

variable {b b' b'' : Builder} {comps : List Bytes} {lost lost' : List TmpNode}

theorem Walked.trans (h : Walked comps b lost b') (h' : Walked comps b' lost' b'') :
    Walked comps b (lost ++ lost') b'' := by
  induction h with
  | here => exact h'
  | made hok hname hg hs _ ih => exact .made hok hname hg hs (ih h')
  | taken hok hn hk _ ih => exact .taken hok hn hk (ih h')
  | remembered _ ih => exact .remembered (ih h')

theorem Walked.mono {comps' : List Bytes} (hsub : ∀ c ∈ comps, c ∈ comps')
    (h : Walked comps b lost b') : Walked comps' b lost b' := by
  induction h with
  | here => exact .here
  | made hok hname hg hs _ ih => exact .made hok (hsub _ hname) hg hs ih
  | taken hok hn hk _ ih => exact .taken hok hn hk ih
  | remembered _ ih => exact .remembered ih

/-- Interning moves no counter. -/
theorem intern_stats {parent : Nat} {name : Bytes} {r : Builder × Nat × Bool}
    (h : b.intern parent name = .ok r) : r.1.stats = b.stats := by
  rw [Builder.intern] at h
  obtain ⟨found, -, h⟩ := bind_eq_ok h
  cases found with
  | some id =>
      injection h with h
      rw [← h]
  | none =>
      obtain ⟨_, -, h⟩ := bind_eq_ok h
      obtain ⟨_, -, h⟩ := bind_eq_ok h
      obtain ⟨_, -, h⟩ := bind_eq_ok h
      obtain ⟨_, -, h⟩ := bind_eq_ok h
      injection h with h
      rw [← h]

theorem takeOverAsDir_eq {id : Nat} {n : TmpNode} (hn : b.nodes[id]? = some n) :
    b.takeOverAsDir id = .ok (b.tookOver id n) := by
  rw [Builder.takeOverAsDir, at!_ok hn]
  simp only [bind, Except.bind]
  rw [put!_ok _ (List.getElem?_eq_some_iff.mp hn).1]
  rfl

theorem attach_eq_ok {id : Nat} {n : TmpNode} (hn : b.nodes[id]? = some n) {kind : NodeKind}
    {info : EntryMeta} (h : b.attach id kind info = .ok b') :
    ∃ info' count, info'.bare = info.bare ∧ b' = b.attached id n kind info' count := by
  rw [Builder.attach] at h
  obtain ⟨⟨info', count⟩, hslot, h⟩ := bind_eq_ok h
  obtain ⟨i, hi, h⟩ := bind_eq_ok h
  obtain ⟨rfl, -⟩ := toU32_eq_ok hi
  rw [at!_ok hn] at h
  obtain ⟨n', hn', h⟩ := bind_eq_ok h
  injection hn' with hn'
  subst hn'
  rw [put!_ok _ (List.getElem?_eq_some_iff.mp hn).1] at h
  obtain ⟨nodes, hnodes, h⟩ := bind_eq_ok h
  injection hnodes with hnodes
  injection h with h
  refine ⟨info', count, ?_, ?_⟩
  · rw [Builder.takeSlot] at hslot
    split at hslot
    · split at hslot
      · injection hslot with hslot
        injection hslot with hslot
        rw [← hslot]
        rfl
      · exact absurd hslot (by simp)
    · injection hslot with hslot
      injection hslot with hslot
      rw [hslot]
  · rw [← h, ← hnodes]
    rfl

theorem resolveComponent_walked (h : b.Ok) {cur id : Nat} {comp : Bytes}
    (hr : b.resolveComponent cur comp = .ok (b', id)) : ∃ lost, Walked [comp] b lost b' := by
  rw [Builder.resolveComponent] at hr
  obtain ⟨⟨b₁, id₁, fresh⟩, hintern, hrest⟩ := bind_eq_ok hr
  clear hr
  have hstats := intern_stats hintern
  rcases (intern_spec h cur comp).elim hintern with ⟨hf, hb, hid, hk⟩ | ⟨hf, hid, hg⟩
  · -- the component was there
    simp only at hf hb hk
    subst hf hb
    obtain ⟨n, hn, -⟩ := hk
    simp only [Bool.false_eq_true, if_false] at hrest
    obtain ⟨n', hn', hrest⟩ := bind_eq_ok hrest
    rw [at!_ok hn] at hn'
    injection hn' with hn'
    subst hn'
    by_cases hkd : n.kind = .dir
    · rw [if_neg (by simp [hkd])] at hrest
      injection hrest with hrest
      injection hrest with hrest
      exact ⟨[], hrest ▸ .here⟩
    · rw [if_pos hkd, takeOverAsDir_eq hn] at hrest
      injection hrest with hrest
      injection hrest with hrest
      exact ⟨[n], .taken h hn hkd (hrest ▸ .here)⟩
  · -- the component is new
    simp only at hf hg hstats
    subst hf
    simp only [if_true] at hrest
    injection hrest with hrest
    injection hrest with hrest
    exact ⟨[], .made h List.mem_cons_self hg hstats (hrest ▸ .here)⟩

theorem resolveLoop_walked {T : Tree} (h : b.Ok) (hm : Models b T) {cur id : Nat}
    {cn : TmpNode} (hcn : b.nodes[cur]? = some cn) (hd : cn.kind = .dir) {p : List Bytes}
    (hp : PathOf b.nodes b.names cur p) (hr : Builder.resolveLoop comps b cur = .ok (b', id)) :
    ∃ lost, Walked comps b lost b' := by
  induction comps generalizing b T cur cn p with
  | nil =>
      injection hr with hr
      injection hr with hr
      exact ⟨[], hr ▸ .here⟩
  | cons c cs ih =>
      rw [Builder.resolveLoop] at hr
      obtain ⟨⟨b₁, id₁⟩, hc, hr⟩ := bind_eq_ok hr
      obtain ⟨h1, h2, h3, ⟨n, hn, hk⟩, -⟩ := (resolveComponent_spec h hm hcn hd hp c).elim hc
      obtain ⟨lost, hw⟩ := resolveComponent_walked h hc
      obtain ⟨lost', hw'⟩ := ih h1 h2 hn hk h3 hr
      refine ⟨lost ++ lost', (hw.mono ?_).trans (hw'.mono ?_)⟩
      · intro d hd
        rw [List.mem_singleton] at hd
        exact hd ▸ List.mem_cons_self
      · exact fun d hd => List.mem_cons_of_mem _ hd

theorem resolveParent_walked {T : Tree} (h : b.Ok) (hm : Models b T)
    (hnames : ∀ c ∈ comps, IsName c) {id : Nat}
    (hr : b.resolveParent (parentBytes comps) = .ok (b', id)) :
    ∃ lost, Walked comps b lost b' := by
  have hcomps := components_parentBytes (fun c hc => (hnames c hc).toIsComponent)
  rw [Builder.resolveParent] at hr
  by_cases hmemo : parentBytes comps = b.memoPath
  · rw [if_pos hmemo] at hr
    injection hr with hr
    injection hr with hr
    exact ⟨[], hr ▸ .here⟩
  · rw [if_neg hmemo, hcomps] at hr
    obtain ⟨⟨b₁, cur⟩, hloop, hr⟩ := bind_eq_ok hr
    injection hr with hr
    injection hr with hr
    obtain ⟨lost, hw⟩ := resolveLoop_walked h hm h.root rfl .root hloop
    subst hr
    exact ⟨lost ++ [], hw.trans (.remembered .here)⟩

theorem claim_claimed (h : b.Ok) {e : Entry} {parent id : Nat} {leaf : Bytes} {fresh : Bool}
    {b₁ : Builder} (hintern : b.intern parent leaf = .ok (b₁, id, fresh))
    (hr : b₁.claim id fresh e.kind e.info = .ok b') : Claimed e leaf b b' := by
  have hstats := intern_stats hintern
  rw [Builder.claim] at hr
  rcases (intern_spec h parent leaf).elim hintern with ⟨hf, hb, -, hk⟩ | ⟨hf, hid, hg⟩
  · -- the leaf was there
    simp only at hf hb hk
    subst hf hb
    obtain ⟨n, hn, -⟩ := hk
    simp only [Bool.false_eq_true, if_false, at!_ok hn] at hr
    obtain ⟨n', hn', hr⟩ := bind_eq_ok hr
    injection hn' with hn'
    subst hn'
    by_cases h1 : n.kind = .dir ∧ e.kind ≠ .dir
    · rw [if_pos h1] at hr
      injection hr with hr
      exact hr ▸ .beaten true
    rw [if_neg h1] at hr
    by_cases h2 : ¬ n.synthetic = true
    · rw [if_pos h2] at hr
      injection hr with hr
      exact hr ▸ .beaten true
    rw [if_neg h2] at hr
    by_cases h3 : e.kind ≠ .dir
    · rw [if_pos h3] at hr
      injection hr with hr
      exact hr ▸ .beaten false
    rw [if_neg h3] at hr
    obtain ⟨info, count, hbare, rfl⟩ := attach_eq_ok (b := b₁.uncountDir) hn hr
    have hsyn : n.synthetic = true := by simpa using h2
    exact .declared hn hsyn (h.implied id n hn hsyn).1 (by simpa using h3) hbare
  · -- the leaf is new
    simp only at hf hid hg hstats
    subst hf hid
    simp only [if_true] at hr
    obtain ⟨info, count, hbare, rfl⟩ := attach_eq_ok hg.new hr
    exact .fresh hg hstats hbare

end Moves

/-! ## One entry and all of them -/

/-- What one `add` did: it turned the entry away, or walked to the parent and dealt with the
leaf. -/
inductive Added (e : Entry) (b : Builder) : List TmpNode → Builder → Prop where
  | rejected : e.accepted = false → Added e b [] b.reject
  | rejectedSize : e.accepted = false → Added e b [] b.rejectSize
  | placed {cs : List Bytes} {leaf : Bytes} {lost : List TmpNode} {b₁ b' : Builder} :
      e.accepted = true → components e.path = cs ++ [leaf] → Walked cs b lost b₁ → b₁.Ok →
      Claimed e leaf b₁ b' → Added e b lost b'

section Add

variable {b b' : Builder} {T : Tree} {e : Entry}

/-- The two halves of an `add` that was not turned away. The parent is older than the leaf. -/
theorem add_halves (h : b.Ok) (hm : Models b T) (he : e.accepted = true)
    (hadd : b.add e = .ok b') :
    ∃ cs leaf b₁ parent, components e.path = cs ++ [leaf] ∧ (∀ c ∈ cs, IsName c) ∧
      splitParent (normalizePath e.path) = (parentBytes cs, leaf) ∧
      b.resolveParent (parentBytes cs) = .ok (b₁, parent) ∧ b₁.memoId = parent ∧
      Claimed e leaf b₁ b' ∧ parent + 1 < 2 ^ 32 := by
  simp only [Entry.accepted, Bool.and_eq_true, Bool.not_eq_true', Option.isNone_iff_eq_none] at he
  obtain ⟨⟨h1, h2⟩, h3⟩ := he
  obtain ⟨cs, l, hcs, hl, hnames, hsplit⟩ := splitParent_normalizePath h1
  rw [Builder.add, h1, h2, h3, hsplit] at hadd
  simp only [Option.isSome_none, Bool.false_eq_true, if_false] at hadd
  obtain ⟨⟨b₁, parent⟩, hparent, hadd⟩ := bind_eq_ok hadd
  obtain ⟨⟨b₂, id, fresh⟩, hintern, hadd⟩ := bind_eq_ok hadd
  obtain ⟨hok₁, -, hpath, -, -, hmemo⟩ := (resolveParent_spec h hm hnames).elim hparent
  refine ⟨cs, l, b₁, parent, hcs, hnames, hsplit, hparent, hmemo,
    claim_claimed hok₁ hintern hadd, ?_⟩
  have hsize := hok₁.size
  rcases (intern_spec hok₁ parent l).elim hintern with ⟨-, -, hid, n, hn, hpar, -⟩ | ⟨-, -, hg⟩
  · have hlt := hok₁.parent_lt _ n hid hn
    have := (List.getElem?_eq_some_iff.mp hn).1
    omega
  · have hlt : parent < b₁.nodes.length := hpath.lt hok₁
    have hroom : b₁.nodes.length < 2 ^ 32 := hg.room
    omega

theorem add_turned_away (he : e.accepted = false) (hadd : b.add e = .ok b') :
    b' = b.reject ∨ b' = b.rejectSize := by
  rw [Builder.add] at hadd
  by_cases h1 : (rejectReason e.path).isSome = true
  · rw [if_pos h1] at hadd
    injection hadd with hadd
    exact .inl hadd.symm
  rw [if_neg h1] at hadd
  by_cases h2 : storedSizesDiffer e.info = true
  · rw [if_pos h2] at hadd
    injection hadd with hadd
    exact .inr hadd.symm
  rw [if_neg h2] at hadd
  by_cases h3 : compressedSizeZero e.info = true
  · rw [if_pos h3] at hadd
    injection hadd with hadd
    exact .inr hadd.symm
  · rw [Option.not_isSome_iff_eq_none] at h1
    rw [Bool.not_eq_true] at h2 h3
    rw [Entry.accepted, h1, h2, h3] at he
    exact absurd he (by simp)

/-- **`add` walks and claims, and does nothing else.** -/
theorem add_added (h : b.Ok) (hm : Models b T) (hadd : b.add e = .ok b') :
    ∃ lost, Added e b lost b' := by
  cases he : e.accepted with
  | false =>
      rcases add_turned_away he hadd with rfl | rfl
      · exact ⟨[], .rejected he⟩
      · exact ⟨[], .rejectedSize he⟩
  | true =>
      obtain ⟨cs, leaf, b₁, parent, hcs, hnames, -, hparent, -, hclaim, -⟩ :=
        add_halves h hm he hadd
      obtain ⟨lost, hw⟩ := resolveParent_walked h hm hnames hparent
      have hok₁ := ((resolveParent_spec h hm hnames).elim hparent).1
      exact ⟨lost, .placed he hcs hw hok₁ hclaim⟩

/-- The claims after one more entry. -/
theorem accepted_snoc (done : List Entry) (e : Entry) :
    accepted (done ++ [e]) =
      if e.accepted then accepted done ++ [e.toClaim] else accepted done := by
  cases he : e.accepted with
  | true => simp [accepted, List.filter_append, he]
  | false => simp [accepted, List.filter_append, he]

/-- An entry keeps the builder in order and in step with its tree. -/
theorem add_keeps {done : List Entry} (h : b.Ok) (hm : Models b (treeOf (accepted done)))
    (hadd : b.add e = .ok b') : b'.Ok ∧ Models b' (treeOf (accepted (done ++ [e]))) := by
  rw [accepted_snoc]
  cases he : e.accepted with
  | true =>
      obtain ⟨h1, h2, -⟩ := (add_accepted h hm he).elim hadd
      rw [if_pos rfl, treeOf_snoc]
      exact ⟨h1, h2⟩
  | false =>
      obtain ⟨b'', hb'', hsame⟩ := add_rejected (b := b) he
      rw [hadd] at hb''
      injection hb'' with hb''
      subst hb''
      rw [if_neg (by simp)]
      exact ⟨hsame.ok h, hsame.models hm⟩

end Add

/-- **Induction over the first pass.** What holds of a new builder and survives every `add`
holds of every builder that is reached; an `add` may rely on the tree being built right. -/
theorem addAll_induction {I : List Entry → Builder → Prop} {hint : Nat} {entries : List Entry}
    {b : Builder} (hrun : addAll hint entries = .ok b)
    (h0 : I [] (Builder.new (min hint MAX_PREALLOC)))
    (hstep : ∀ done e b b', b.Ok → Models b (treeOf (accepted done)) → b.add e = .ok b' →
      I done b → I (done ++ [e]) b') :
    I entries b := by
  have hall : Sat (fun b => b.Ok ∧ Models b (treeOf (accepted entries)) ∧ I entries b)
      (addAll hint entries) := by
    refine sat_foldlM (I := fun done b => b.Ok ∧ Models b (treeOf (accepted done)) ∧ I done b)
      ⟨new_ok _, new_models _, h0⟩ ?_
    intro done e rest b hsplit hI
    obtain ⟨h1, h2, h3⟩ := hI
    have hsat : Sat (fun _ => True) (b.add e) := by
      cases he : e.accepted with
      | true => exact (add_accepted h1 h2 he).mono fun _ _ => trivial
      | false =>
          obtain ⟨b', hb', -⟩ := add_rejected (b := b) he
          exact SatIf.of_eq_ok hb' trivial
    refine (hsat.and_ok fun b' hb' => ?_).mono fun b' hb' => hb'.2
    obtain ⟨g1, g2⟩ := add_keeps h1 h2 hb'
    exact ⟨g1, g2, hstep done e b b' h1 h2 hb' h3⟩
  exact (hall.elim hrun).2.2

/-! ## What stays -/

/-- Nothing loses its place or stops being a directory. -/
structure Kept (b b' : Builder) : Prop where
  key : ∀ id p nm, HasKey b.nodes b.names id p nm → HasKey b'.nodes b'.names id p nm
  dir : ∀ (id : Nat) (n : TmpNode), b.nodes[id]? = some n → n.kind = .dir →
    ∃ n', b'.nodes[id]? = some n' ∧ n'.kind = .dir

namespace Kept

variable {b b' b'' : Builder}

theorem refl (b : Builder) : Kept b b := ⟨fun _ _ _ h => h, fun _ n hn hd => ⟨n, hn, hd⟩⟩

theorem of_same (hn : b'.nodes = b.nodes) (hb : b'.names = b.names) : Kept b b' := by
  refine ⟨fun id p nm h => ?_, fun id n h hd => ⟨n, ?_, hd⟩⟩
  · rw [hn, hb]
    exact h
  · rw [hn]
    exact h

theorem trans (h : Kept b b') (h' : Kept b' b'') : Kept b b'' := by
  refine ⟨fun id p nm hk => h'.key id p nm (h.key id p nm hk), fun id n hn hd => ?_⟩
  obtain ⟨n', hn', hd'⟩ := h.dir id n hn hd
  exact h'.dir id n' hn' hd'

theorem path (h : Kept b b') {id : Nat} {p : List Bytes} (hp : PathOf b.nodes b.names id p) :
    PathOf b'.nodes b'.names id p := hp.mono h.key

theorem of_grown {parent : Nat} {name : Bytes} (hg : Grown b parent name b') : Kept b b' := by
  refine ⟨fun _ _ _ hk => hg.key_old hk, fun id n hn hd => ⟨n, ?_, hd⟩⟩
  rw [hg.old (List.getElem?_eq_some_iff.mp hn).1]
  exact hn

theorem of_changed {id : Nat} {n n' : TmpNode} (hc : Changed b id n n' b')
    (hd : n.kind = .dir → n'.kind = .dir) : Kept b b' := by
  refine ⟨fun _ _ _ hk => hc.key_iff.mpr hk, fun i m hm hk => ?_⟩
  by_cases hi : i = id
  · subst hi
    rw [hc.node] at hm
    injection hm with hm
    exact ⟨n', hc.self, hd (hm ▸ hk)⟩
  · exact ⟨m, by rw [hc.other hi]; exact hm, hk⟩

end Kept

section Moves

variable {b b' : Builder} {comps : List Bytes} {lost : List TmpNode} {id : Nat} {n : TmpNode}

theorem tookOver_changed (hn : b.nodes[id]? = some n) :
    Changed b id n { n with kind := .dir, synthetic := true, metaIdx := NO_META }
      (b.tookOver id n) :=
  ⟨hn, rfl, rfl, rfl, rfl, rfl, rfl, rfl, rfl⟩

theorem attached_changed (hn : b.nodes[id]? = some n) (kind : NodeKind) (info : EntryMeta)
    (count : Nat) :
    Changed b id n { n with kind := kind, synthetic := false, metaIdx := b.metas.length }
      (b.attached id n kind info count) :=
  ⟨hn, rfl, rfl, rfl, rfl, rfl, rfl, rfl, rfl⟩

theorem Walked.kept (h : Walked comps b lost b') : Kept b b' := by
  induction h with
  | here => exact .refl _
  | made _ _ hg _ _ ih => exact (Kept.of_grown hg).trans ⟨ih.key, ih.dir⟩
  | taken _ hn _ _ ih => exact (Kept.of_changed (tookOver_changed hn) fun _ => rfl).trans ih
  | remembered _ ih => exact ⟨ih.key, ih.dir⟩

theorem Claimed.kept {e : Entry} {leaf : Bytes} (h : Claimed e leaf b b') : Kept b b' := by
  cases h with
  | beaten warn => exact .of_same rfl rfl
  | @declared id n info count hn _ _ hd _ =>
      have hc := Kept.of_changed (attached_changed (b := b.uncountDir) hn e.kind info count)
        fun _ => hd
      exact ⟨hc.key, hc.dir⟩
  | fresh hg _ _ =>
      -- the leaf starts as a directory and becomes what the entry says, but it is new
      refine ⟨fun id p nm hk => ?_, fun id n hn hd => ⟨n, ?_, hd⟩⟩
      · exact (attached_changed hg.new _ _ _).key_iff.mpr (hg.key_old hk)
      · have hlt := (List.getElem?_eq_some_iff.mp hn).1
        rw [(attached_changed hg.new _ _ _).other (Nat.ne_of_lt hlt), hg.old hlt]
        exact hn

theorem Added.kept {e : Entry} (h : Added e b lost b') : Kept b b' := by
  cases h with
  | rejected => exact .of_same rfl rfl
  | rejectedSize => exact .of_same rfl rfl
  | placed _ _ hw _ hc => exact hw.kept.trans hc.kept

end Moves

end ZipFs
