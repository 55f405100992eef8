import ZipFs.Index.Steps
import ZipFs.Index.Lookup
import ZipFs.Index.Closure

/-!
# The build statistics

Every entry should be counted once: as indexed, or as rejected for its path or its sizes,
or as a duplicate. It is, with one exception. A file that is already indexed and then has
to make room for a directory counts as a duplicate from then on, but is not taken back out
of the indexed ones. So the counters balance exactly when that never happens, and then
they agree with what the finished index shows.
-/

namespace ZipFs

/-! ## The statement -/

/-- How many nodes below the root carry an archive entry of this kind. -/
def Index.carrying (idx : Index) (test : NodeKind → EntryMeta → Bool) : Nat :=
  (idx.nodes.drop 2).countP fun n => !n.synthetic && (idx.metas[n.metaIdx]?).any (test n.kind)

/-- The entries that are accounted for, each once. -/
def BuildStats.total (s : BuildStats) : Nat :=
  s.entries + s.rejectedPaths + s.rejectedSizes + s.duplicates

def isUnsupported (m : EntryMeta) : Bool := !m.encrypted && m.method.isNone

/-- The statistics account for every entry and agree with the index. -/
structure Accounted (entries : List Entry) (idx : Index) (stats : BuildStats) : Prop where
  balance : entries.length = stats.total
  entries : stats.entries = idx.carrying fun _ _ => true
  symlinks : stats.symlinks = idx.carrying fun k _ => k == .symlink
  encrypted : stats.encrypted = idx.carrying fun _ m => m.encrypted
  unsupported : stats.unsupported = idx.carrying fun _ m => isUnsupported m

/-- Some file or symlink is indexed, as the first entry at or below its path, and a later
entry lies below it. -/
def Overtaken (A : List Claim) : Prop :=
  ∃ pre f post, A = pre ++ f :: post ∧ f.kind ≠ .dir ∧ (∀ d ∈ pre, ¬ f.comps <+: d.comps) ∧
    ∃ c ∈ post, Above f.comps c.comps

/-! ## Files that make room, path by path -/

section Overtaken

variable {A : List Claim} {c : Claim}

/-- A path that is no directory was claimed by its first entry. -/
theorem treeOf_file {q : List Bytes} {i : Info} (hi : treeOf A q = some i) (hk : i.kind ≠ .dir) :
    ∃ pre f post, A = pre ++ f :: post ∧ f.comps = q ∧ f.kind ≠ .dir ∧
      ∀ d ∈ pre, ¬ q <+: d.comps := by
  have hq : q ≠ [] := by
    rintro rfl
    obtain ⟨j, hj, hd⟩ := treeOf_nil A
    rw [hi] at hj
    injection hj with hj
    exact hk (hj ▸ hd)
  have hsome : ∃ c ∈ A, q <+: c.comps := by
    have := treeOf_isSome.mp (show (treeOf A q).isSome by rw [hi]; rfl)
    exact this.resolve_left hq
  -- the first entry at or below `q`
  have hfind : (A.find? fun c => decide (q <+: c.comps)).isSome := by
    rw [List.find?_isSome]
    obtain ⟨c, hc, hpre⟩ := hsome
    exact ⟨c, hc, by simpa using hpre⟩
  obtain ⟨f, hf⟩ := Option.isSome_iff_exists.mp hfind
  obtain ⟨hfq, pre, post, rfl, hpre⟩ := List.find?_eq_some_iff_append.mp hf
  have hfq' : q <+: f.comps := by simpa using hfq
  have hnone : ∀ d ∈ pre, ¬ q <+: d.comps := fun d hd => by simpa using hpre d hd
  have heq : q = f.comps := by
    by_contra hne
    obtain ⟨j, hj, hd⟩ := treeOf_above (A := pre ++ f :: post) (by simp) ⟨hfq', hne⟩
    rw [hi] at hj
    injection hj with hj
    exact hk (hj ▸ hd)
  refine ⟨pre, f, post, rfl, heq.symm, fun hfk => ?_, hnone⟩
  have hempty : treeOf pre q = none := by
    cases hT : treeOf pre q with
    | none => rfl
    | some j =>
        rcases treeOf_isSome.mp (show (treeOf pre q).isSome by rw [hT]; rfl) with h | ⟨d, hd, h⟩
        · exact absurd h hq
        · exact absurd h (hnone d hd)
  rw [treeOf_append, List.foldl_cons, hempty, heq, stepAt_self] at hi
  obtain ⟨j, hj, hd⟩ := foldl_dir (p := f.comps) post (i := Info.claimed f none) hfk
  rw [hi] at hj
  injection hj with hj
  exact hk (hj ▸ hd)

theorem Overtaken.snoc (h : Overtaken A) (c : Claim) : Overtaken (A ++ [c]) := by
  obtain ⟨pre, f, post, rfl, hk, hpre, d, hd, hab⟩ := h
  exact ⟨pre, f, post ++ [c], by simp, hk, hpre, d, List.mem_append_left _ hd, hab⟩

/-- The step at which a file first makes room. -/
theorem overtaken_snoc_iff (hA : ∀ d ∈ A, d.comps ≠ []) (hnot : ¬ Overtaken A) :
    Overtaken (A ++ [c]) ↔ ∃ q i, Above q c.comps ∧ treeOf A q = some i ∧ i.kind ≠ .dir := by
  constructor
  · rintro ⟨pre, f, post, hsplit, hk, hpre, d, hd, hab⟩
    rcases List.eq_nil_or_concat post with rfl | ⟨post', c', rfl⟩
    · exact absurd hd (by simp)
    rw [List.concat_eq_append, ← List.cons_append, ← List.append_assoc] at hsplit
    obtain ⟨rfl, hc⟩ := List.append_inj' hsplit rfl
    injection hc with hc
    subst hc
    -- nobody before `c` lies below the file
    have hpost : ∀ e ∈ post', ¬ Above f.comps e.comps := fun e he hea =>
      hnot ⟨pre, f, post', rfl, hk, hpre, e, he, hea⟩
    rw [List.concat_eq_append, List.mem_append, List.mem_singleton] at hd
    have hdc : d = c := hd.resolve_left fun hd => hpost d hd hab
    subst hdc
    refine ⟨f.comps, ⟨f.kind, some f.info.bare⟩, hab, ?_, hk⟩
    refine treeOf_first (hA f (by simp)) (fun e he heq => hpre e he (heq ▸ List.prefix_refl _)) ?_
    intro e he hea
    rw [List.mem_append, List.mem_cons] at he
    rcases he with he | rfl | he
    · exact hpre e he hea.1
    · exact hea.2 rfl
    · exact hpost e he hea
  · rintro ⟨q, i, hab, hi, hk⟩
    obtain ⟨pre, f, post, rfl, rfl, hfk, hpre⟩ := treeOf_file hi hk
    exact ⟨pre, f, post ++ [c], by simp, hfk, hpre, c, by simp, hab⟩

end Overtaken

/-! ## What the moves do to the counters -/

/-- Whether a node shows an entry of this kind. -/
def shows (metas : List EntryMeta) (test : NodeKind → EntryMeta → Bool) (n : TmpNode) : Bool :=
  !n.synthetic && (metas[n.metaIdx]?).any (test n.kind)

/-- How many nodes of a builder show an entry of this kind. -/
def Builder.held (b : Builder) (test : NodeKind → EntryMeta → Bool) : Nat :=
  b.nodes.countP (shows b.metas test)

/-- One of the four counters, with what it counts. -/
structure Counter where
  of : BuildStats → Nat
  test : NodeKind → EntryMeta → Bool
  start : of BuildStats.default = 0
  /-- An attached entry moves the counter exactly if it is of that kind. -/
  count : ∀ s k m, of (Builder.countEntry s k m) = of s + if test k m then 1 else 0
  /-- Nothing else does. -/
  other : ∀ (s s' : BuildStats), s'.entries = s.entries → s'.encrypted = s.encrypted →
    s'.unsupported = s.unsupported → s'.symlinks = s.symlinks → of s' = of s

namespace Counter

def entries : Counter :=
  ⟨BuildStats.entries, fun _ _ => true, rfl, fun _ _ _ => rfl, fun _ _ h _ _ _ => h⟩

def symlinks : Counter where
  of := BuildStats.symlinks
  test k _ := k == .symlink
  start := rfl
  count s k m := by
    simp only [Builder.countEntry, beq_iff_eq]
    split
    · rfl
    · rfl
  other _ _ _ _ _ h := h

def encrypted : Counter where
  of := BuildStats.encrypted
  test _ m := m.encrypted
  start := rfl
  count s k m := by
    simp only [Builder.countEntry]
    split
    · rfl
    · rfl
  other _ _ _ h _ _ := h

def unsupported : Counter where
  of := BuildStats.unsupported
  test _ m := isUnsupported m
  start := rfl
  count s k m := by
    have h : (Builder.countEntry s k m).unsupported =
        if isUnsupported m then s.unsupported + 1 else s.unsupported := rfl
    rw [h]
    split
    · rfl
    · rfl
  other _ _ _ _ h _ := h

end Counter

section Ledger

variable {b b' : Builder} {comps : List Bytes} {lost : List TmpNode} {C : Counter}

/-- A counter runs ahead of what the builder shows by the same amount before and after. -/
def Counter.Level (C : Counter) (b b' : Builder) : Prop :=
  C.of b'.stats + b.held C.test = C.of b.stats + b'.held C.test

/-- A walk counts the files that made room, and nothing else. -/
theorem Walked.total (h : Walked comps b lost b') :
    b'.stats.total = b.stats.total + lost.length := by
  induction h with
  | here => rfl
  | made _ _ _ hs _ ih =>
      rw [ih]
      simp only [Builder.countDir, BuildStats.total, hs]
  | taken _ _ _ _ ih =>
      rw [ih]
      simp only [Builder.tookOver, BuildStats.total, List.length_cons]
      omega
  | remembered _ ih => exact ih

theorem held_grown {parent : Nat} {name : Bytes} (hg : Grown b parent name b')
    (test : NodeKind → EntryMeta → Bool) : b'.held test = b.held test := by
  unfold Builder.held
  rw [hg.nodes, hg.metas, List.countP_append]
  simp [shows, freshNode]

/-- While no file makes room, a walk moves neither the counters nor what they count. -/
theorem Walked.level (h : Walked comps b lost b') (hlost : lost = []) :
    C.of b'.stats = C.of b.stats ∧ b'.held C.test = b.held C.test := by
  induction h with
  | here => exact ⟨rfl, rfl⟩
  | made _ _ hg hs _ ih =>
      obtain ⟨h1, h2⟩ := ih hlost
      refine ⟨h1.trans ?_, h2.trans (held_grown hg C.test)⟩
      refine C.other _ _ ?_ ?_ ?_ ?_
      all_goals simp only [Builder.countDir, hs]
  | taken => exact absurd hlost (by simp)
  | remembered _ ih => exact ih hlost

/-- Attaching to an implied node counts it and shows it. -/
theorem attached_level
    (h : ∀ (i : Nat) (m : TmpNode), b.nodes[i]? = some m → m.synthetic = false →
      m.metaIdx < b.metas.length) {id : Nat} {n : TmpNode} (hn : b.nodes[id]? = some n)
    (hs : n.synthetic = true) (kind : NodeKind) (info : EntryMeta) (count : Nat) :
    C.Level b (b.attached id n kind info count) := by
  obtain ⟨hlt, hget⟩ := List.getElem?_eq_some_iff.mp hn
  -- the nodes that were there show what they showed
  have hold : b.nodes.countP (shows (b.metas ++ [info]) C.test) = b.held C.test := by
    refine List.countP_congr fun m hm => ?_
    obtain ⟨i, hi⟩ := List.mem_iff_getElem?.mp hm
    unfold shows
    cases hsm : m.synthetic with
    | true => simp
    | false => rw [List.getElem?_append_left (h i m hi hsm)]
  have hnew : (b.attached id n kind info count).held C.test =
      b.held C.test + if C.test kind info then 1 else 0 := by
    unfold Builder.held Builder.attached
    simp only
    rw [List.countP_set hlt, hold, hget]
    simp [shows, hs, Builder.held]
  unfold Counter.Level
  rw [hnew]
  simp only [Builder.attached, C.count]
  omega

/-- One entry more is accounted for at the leaf, whoever gets it. -/
theorem Claimed.total {e : Entry} {leaf : Bytes} (h : Claimed e leaf b b') :
    b'.stats.total = b.stats.total + 1 := by
  cases h with
  | beaten warn =>
      simp only [Builder.duplicate, BuildStats.total]
      omega
  | declared =>
      simp only [Builder.attached, Builder.uncountDir, Builder.countEntry, BuildStats.total]
      omega
  | fresh _ hs _ =>
      simp only [Builder.attached, Builder.countEntry, BuildStats.total, hs]
      omega

theorem Claimed.level {e : Entry} {leaf : Bytes} (hok : b.Ok) (h : Claimed e leaf b b') :
    C.Level b b' := by
  cases h with
  | beaten warn =>
      have : C.of (b.duplicate warn).stats = C.of b.stats := C.other _ _ rfl rfl rfl rfl
      unfold Counter.Level
      rw [this]
      rfl
  | @declared id n info count hn hs _ _ _ =>
      have hl := attached_level (C := C) (b := b.uncountDir) hok.claimed hn hs e.kind info count
      have : C.of b.uncountDir.stats = C.of b.stats := C.other _ _ rfl rfl rfl rfl
      unfold Counter.Level at hl ⊢
      rw [this] at hl
      exact hl
  | @fresh b₁ parent info count hg hs _ =>
      have hclaimed : ∀ (i : Nat) (m : TmpNode), b₁.nodes[i]? = some m → m.synthetic = false →
          m.metaIdx < b₁.metas.length := by
        intro i m hm hsm
        rcases hg.cases hm with ⟨-, rfl⟩ | ⟨-, hm⟩
        · exact absurd hsm (by simp [freshNode])
        · rw [hg.metas]
          exact hok.claimed i m hm hsm
      have hl := attached_level (C := C) hclaimed hg.new rfl e.kind info count
      unfold Counter.Level at hl ⊢
      rw [held_grown hg, hs] at hl
      exact hl

end Ledger

/-! ## One entry -/

section Entry

variable {b b' : Builder} {T : Tree} {comps : List Bytes} {lost : List TmpNode} {e : Entry}

/-- While no file makes room, a walk leaves the nodes as they were. -/
theorem Walked.old (h : Walked comps b lost b') (hlost : lost = []) {id : Nat} {n : TmpNode}
    (hn : b.nodes[id]? = some n) : b'.nodes[id]? = some n := by
  induction h with
  | here => exact hn
  | made _ _ hg _ _ ih =>
      refine ih hlost ?_
      rw [Builder.countDir, hg.old (List.getElem?_eq_some_iff.mp hn).1]
      exact hn
  | taken => exact absurd hlost (by simp)
  | remembered _ ih => exact ih hlost hn

/-- A file that makes room was there before, and is a directory after. -/
theorem Walked.lost_node (h : Walked comps b lost b') (hlost : lost ≠ []) :
    ∃ (id : Nat) (n n' : TmpNode), b.nodes[id]? = some n ∧ n.kind ≠ .dir ∧
      b'.nodes[id]? = some n' ∧ n'.kind = .dir := by
  induction h with
  | here => exact absurd rfl hlost
  | made _ _ hg _ _ ih =>
      obtain ⟨id, n, n', hn, hk, hn', hk'⟩ := ih hlost
      rcases hg.cases hn with ⟨-, rfl⟩ | ⟨-, hn⟩
      · exact absurd rfl hk
      · exact ⟨id, n, n', hn, hk, hn', hk'⟩
  | @taken b b' id n lost _ hn hk hw _ =>
      obtain ⟨n', hn', hk'⟩ := hw.kept.dir id _ (tookOver_changed hn).self rfl
      exact ⟨id, n, n', hn, hk, hn', hk'⟩
  | remembered _ ih => exact ih hlost

/-- What is not a directory is not touched at the leaf. -/
theorem Claimed.old {leaf : Bytes} (h : Claimed e leaf b b') {id : Nat} {n : TmpNode}
    (hn : b.nodes[id]? = some n) (hk : n.kind ≠ .dir) : b'.nodes[id]? = some n := by
  cases h with
  | beaten warn => exact hn
  | @declared id' m info count hm _ hmk _ _ =>
      have hne : id ≠ id' := by
        rintro rfl
        rw [hn] at hm
        injection hm with hm
        exact hk (hm ▸ hmk)
      rw [(attached_changed (b := b.uncountDir) hm e.kind info count).other hne]
      exact hn
  | @fresh b₁ parent info count hg _ _ =>
      have hlt := (List.getElem?_eq_some_iff.mp hn).1
      rw [(attached_changed hg.new e.kind info count).other (Nat.ne_of_lt hlt), hg.old hlt]
      exact hn

/-- **A file makes room exactly when the new entry lies below one.** -/
theorem lost_eq_nil_iff {cs : List Bytes} {leaf : Bytes} {b₁ : Builder} (h : b.Ok)
    (hm : Models b T) (hm' : Models b' (T.add e.toClaim)) (hw : Walked cs b lost b₁)
    (hc : Claimed e leaf b₁ b') :
    lost = [] ↔ ∀ q i, Above q e.toClaim.comps → T q = some i → i.kind = .dir := by
  have hkept := hw.kept.trans hc.kept
  constructor
  · intro hlost q i hab hi
    by_contra hk
    obtain ⟨id, hid, hpath⟩ := hm.reached q (by rw [hi]; rfl)
    have hn : b.nodes[id]? = some b.nodes[id] := List.getElem?_eq_getElem hid
    have hinfo := hm.at_node id _ q hn hpath
    rw [hi] at hinfo
    injection hinfo with hinfo
    have hnk : b.nodes[id].kind ≠ .dir := fun hd => hk (by rw [hinfo]; exact hd)
    -- the node is what it was, but the path has become a directory
    have hn' := hc.old (hw.old hlost hn) hnk
    have hinfo' := hm'.at_node id _ q hn' (hkept.path hpath)
    rw [Tree.add, stepAt_above hab] at hinfo'
    injection hinfo' with hinfo'
    have hdir := asDir_kind (T q)
    rw [hinfo'] at hdir
    exact hnk hdir
  · intro hall
    by_contra hlost
    obtain ⟨id, n, n', hn, hk, hn', hk'⟩ := hw.lost_node hlost
    obtain ⟨q, hpath⟩ := h.exists_path id (List.getElem?_eq_some_iff.mp hn).1
    have hinfo := hm.at_node id n q hn hpath
    obtain ⟨n'', hn'', hk''⟩ := hc.kept.dir id n' hn' hk'
    have hinfo' := hm'.at_node id n'' q hn'' (hkept.path hpath)
    -- only an entry below turns a file into a directory
    rw [Tree.add, hinfo] at hinfo'
    by_cases hab : Above q e.toClaim.comps
    · exact hk (hall q _ hab hinfo)
    have hsame : stepAt q (some (infoOf b.metas n)) e.toClaim = some (infoOf b.metas n) := by
      rw [stepAt, if_neg hab]
      split
      · rw [Info.claimed, if_neg]
        rintro ⟨himp, -⟩
        exact hk (congrArg Info.kind himp)
      · rfl
    rw [hsame] at hinfo'
    injection hinfo' with hinfo'
    exact hk ((congrArg Info.kind hinfo').trans hk'')

end Entry

/-! ## The whole central directory -/

/-- What is known of the counters along the first pass: how many files made room, and that
as long as none did every counter shows what the builder holds. -/
structure Counted (done : List Entry) (b : Builder) (lost : Nat) : Prop where
  total : b.stats.total = done.length + lost
  lost_iff : lost = 0 ↔ ¬ Overtaken (accepted done)
  held : lost = 0 → ∀ C : Counter, C.of b.stats = b.held C.test

theorem accepted_ne_nil (entries : List Entry) : ∀ c ∈ accepted entries, c.comps ≠ [] := by
  intro c hc
  obtain ⟨e, he, rfl⟩ := List.mem_map.mp hc
  exact components_ne_nil he

/-- An entry that is turned away is counted, and changes nothing that is shown. -/
theorem Counted.rejected {done : List Entry} {b b' : Builder} {lost : Nat}
    (h : Counted done b lost) {e : Entry} (he : e.accepted = false)
    (hb : b' = b.reject ∨ b' = b.rejectSize) : Counted (done ++ [e]) b' lost := by
  have hacc : accepted (done ++ [e]) = accepted done := by
    rw [accepted_snoc, he]
    exact if_neg (by simp)
  refine ⟨?_, by rw [hacc]; exact h.lost_iff, fun hz C => ?_⟩
  · have := h.total
    rw [List.length_append, List.length_singleton]
    rcases hb with rfl | rfl
    · simp only [Builder.reject, BuildStats.total] at this ⊢
      omega
    · simp only [Builder.rejectSize, BuildStats.total] at this ⊢
      omega
  · have hsame : C.of b'.stats = C.of b.stats := by
      rcases hb with rfl | rfl
      · exact C.other _ _ rfl rfl rfl rfl
      · exact C.other _ _ rfl rfl rfl rfl
    rw [hsame, h.held hz C]
    rcases hb with rfl | rfl
    · rfl
    · rfl

theorem Counted.step {done : List Entry} {b b' : Builder} {lost : Nat} (h : Counted done b lost)
    (hok : b.Ok) (hm : Models b (treeOf (accepted done))) {e : Entry} (hadd : b.add e = .ok b') :
    ∃ lost', Counted (done ++ [e]) b' lost' := by
  obtain ⟨lostNow, hadded⟩ := add_added hok hm hadd
  obtain ⟨hok', hm'⟩ := add_keeps hok hm hadd
  cases hadded with
  | rejected he => exact ⟨lost, h.rejected he (.inl rfl)⟩
  | rejectedSize he => exact ⟨lost, h.rejected he (.inr rfl)⟩
  | @placed cs leaf _ b₁ _ he _ hw hok₁ hc =>
      have hacc : accepted (done ++ [e]) = accepted done ++ [e.toClaim] := by
        rw [accepted_snoc, he]
        exact if_pos rfl
      rw [hacc, treeOf_snoc] at hm'
      have hnow := lost_eq_nil_iff hok hm hm' hw hc
      refine ⟨lost + lostNow.length, ?_, ?_, fun hz C => ?_⟩
      · rw [hc.total, hw.total, h.total, List.length_append, List.length_singleton]
        omega
      · rw [hacc]
        constructor
        · intro hz hov
          have hnot := h.lost_iff.mp (by omega)
          obtain ⟨q, i, hab, hi, hk⟩ := (overtaken_snoc_iff (accepted_ne_nil done) hnot).mp hov
          exact hk (hnow.mp (List.length_eq_zero_iff.mp (by omega)) q i hab hi)
        · intro hnot
          have hnot₀ : ¬ Overtaken (accepted done) := fun hov => hnot (hov.snoc _)
          have hnil : lostNow = [] := by
            rw [hnow]
            intro q i hab hi
            by_contra hk
            exact hnot ((overtaken_snoc_iff (accepted_ne_nil done) hnot₀).mpr ⟨q, i, hab, hi, hk⟩)
          rw [hnil, h.lost_iff.mpr hnot₀]
          rfl
      · have hnil : lostNow = [] := List.length_eq_zero_iff.mp (by omega)
        obtain ⟨h1, h2⟩ := hw.level (C := C) hnil
        have hlevel := hc.level (C := C) hok₁
        unfold Counter.Level at hlevel
        rw [h1, h2, h.held (by omega) C] at hlevel
        omega

/-- **The counters along every first pass.** -/
theorem addAll_counted {hint : Nat} {entries : List Entry} {b : Builder}
    (hrun : addAll hint entries = .ok b) : ∃ lost, Counted entries b lost := by
  refine addAll_induction (I := fun done b => ∃ lost, Counted done b lost) hrun ?_ ?_
  · refine ⟨0, rfl, ⟨fun _ => ?_, fun _ => rfl⟩, fun _ C => ?_⟩
    · rintro ⟨pre, f, post, hsplit, -⟩
      exact absurd hsplit (by simp [accepted])
    · rw [Builder.new, C.start]
      rfl
  · intro done e b b' hok hm hadd hI
    obtain ⟨lost, h⟩ := hI
    exact h.step hok hm hadd

/-! ## The finished index -/

/-- A list, read off position by position. -/
theorem eq_map_range {α : Type} (xs : List α) (d : α) :
    xs = (List.range xs.length).map fun i => (xs[i]?).getD d := by
  refine List.ext_getElem? fun i => ?_
  rw [List.getElem?_map]
  by_cases hi : i < xs.length
  · rw [List.getElem?_range hi, Option.map_some, List.getElem?_eq_getElem hi, Option.getD_some]
  · rw [List.getElem?_eq_none (Nat.not_lt.mp hi),
      List.getElem?_eq_none (by rw [List.length_range]; omega)]
    rfl

theorem countP_eq_range {α : Type} (xs : List α) (d : α) (P : α → Bool) :
    xs.countP P = (List.range xs.length).countP fun i => P ((xs[i]?).getD d) := by
  rw [eq_map_range xs d, List.countP_map, ← eq_map_range xs d]
  rfl

/-- Counting over the final nodes is counting over the nodes of the first pass. -/
theorem Finished.countP_eq {b : Builder} {idx : Index} {order : List Nat}
    (hf : Finished b idx order) {P : Node → Bool} {Q : TmpNode → Bool}
    (hPQ : ∀ j id t N, FinalNode b order j id t N → P N = Q t) :
    (idx.nodes.drop 1).countP P = b.nodes.countP Q := by
  have hlen : (idx.nodes.drop 1).length = order.length := by
    rw [List.length_drop, hf.length, Nat.add_sub_cancel]
  calc (idx.nodes.drop 1).countP P
      = (List.range order.length).countP fun j =>
          Q ((b.nodes[(order[j]?).getD 0]?).getD rootNode) := by
        rw [countP_eq_range _ ZipFs.sentinel, hlen]
        refine List.countP_congr fun j hj => ?_
        have hlt := List.mem_range.mp hj
        have hget : order[j]? = some order[j] := List.getElem?_eq_getElem hlt
        obtain ⟨t, N, ht, hN, hfin⟩ := hf.node j _ hget
        rw [List.getElem?_drop, Nat.add_comm 1 j, hN, hget, Option.getD_some, Option.getD_some,
          ht, Option.getD_some, hPQ j _ t N hfin]
    _ = order.countP fun id => Q ((b.nodes[id]?).getD rootNode) :=
        (countP_eq_range order 0 fun id => Q ((b.nodes[id]?).getD rootNode)).symm
    _ = (List.range b.nodes.length).countP fun id => Q ((b.nodes[id]?).getD rootNode) :=
        hf.order_perm.countP_eq _
    _ = b.nodes.countP Q := (countP_eq_range b.nodes rootNode Q).symm

/-- The index carries what the builder holds. -/
theorem Built.carrying {entries : List Entry} {idx : Index} {b : Builder} {order : List Nat}
    (h : Built entries idx b order) (test : NodeKind → EntryMeta → Bool) :
    idx.carrying test = b.held test := by
  have hf := h.finished
  have hall : (idx.nodes.drop 1).countP
      (fun n => !n.synthetic && (idx.metas[n.metaIdx]?).any (test n.kind)) = b.held test := by
    refine hf.countP_eq fun j id t N hN => ?_
    rw [hN.synthetic, hN.metaIdx, hN.kind, hf.metas]
    rfl
  -- the root shows nothing
  obtain ⟨t, N, ht, hN, hfin⟩ := hf.node 0 0 hf.root_at
  have hroot : N.synthetic = true := by
    rw [h.ok.root] at ht
    injection ht with ht
    rw [hfin.synthetic, ← ht]
    rfl
  obtain ⟨hlt, hget⟩ := List.getElem?_eq_some_iff.mp hN
  rw [Index.carrying, ← hall, List.drop_eq_getElem_cons (i := 1) (by omega), List.countP_cons]
  simp [hget, hroot]

/-- The two passes of a build that returns. -/
theorem build_passes {hint : Nat} {entries : List Entry} {idx : Index} {stats : BuildStats}
    (hb : build hint entries = .ok (idx, stats)) :
    ∃ b order, addAll hint entries = .ok b ∧ Built entries idx b order ∧
      stats = { b.stats with
        syntheticDirs := ((idx.nodes.drop 2).filter (fun n => n.synthetic)).length } := by
  obtain ⟨b, hrun, hrest⟩ := bind_eq_ok hb
  obtain ⟨idx', hidx, hrest⟩ := bind_eq_ok hrest
  obtain ⟨rfl, rfl⟩ := Prod.mk.inj (Except.ok.inj hrest)
  obtain ⟨hok, hm, hmetas⟩ := (addAll_spec hint entries).elim hrun
  obtain ⟨order, hf⟩ := (finish_spec (.inl trivial) hok).elim hidx
  exact ⟨b, order, hrun, ⟨hok, hm, hmetas, hf⟩, rfl⟩

/--
**When the statistics account for every entry.** They balance and agree with the index
exactly when no file or symlink that is already indexed has to make room for a directory.
-/
theorem build_accounted_iff {hint : Nat} {entries : List Entry} {idx : Index} {stats : BuildStats}
    (hrun : build hint entries = .ok (idx, stats)) :
    Accounted entries idx stats ↔ ¬ Overtaken (accepted entries) := by
  obtain ⟨b, order, hb, hbuilt, rfl⟩ := build_passes hrun
  obtain ⟨lost, hc⟩ := addAll_counted hb
  constructor
  · intro hacc
    have hbal : entries.length = b.stats.total := hacc.balance
    have := hc.total
    exact hc.lost_iff.mp (by omega)
  · intro hnot
    have hz := hc.lost_iff.mpr hnot
    have hheld : ∀ C : Counter, C.of b.stats = idx.carrying C.test := fun C => by
      rw [hc.held hz C, hbuilt.carrying]
    refine ⟨?_, hheld .entries, hheld .symlinks, hheld .encrypted, hheld .unsupported⟩
    have := hc.total
    show entries.length = b.stats.total
    omega

theorem build_accounted_iff_sample :
    ∃ idx stats, build 3 sampleEntries = .ok (idx, stats) ∧ stats.entries = 3 ∧
      (Accounted sampleEntries idx stats ↔ ¬ Overtaken (accepted sampleEntries)) := by
  obtain ⟨⟨idx, stats⟩, hb, hs⟩ := exists_ok_of_map
    (show (build 3 sampleEntries).toOption.map (fun r => r.2.entries) = some 3 by decide +kernel)
  exact ⟨idx, stats, hb, hs, build_accounted_iff hb⟩

/-- The file `a`, and the file `a/b`. -/
def fileA : Entry := ⟨[97], false, storedMeta 2 0o100644⟩
def fileAB : Entry := ⟨[97, 47, 98], false, storedMeta 2 0o100644⟩

/-- Two entries, of which one is counted twice: as indexed and as a duplicate. The other way
round they are counted once each. -/
theorem file_then_deeper_unaccounted :
    (∃ idx stats, build 2 [fileA, fileAB] = .ok (idx, stats) ∧ stats.entries = 2 ∧
      stats.duplicates = 1 ∧ ¬ Accounted [fileA, fileAB] idx stats) ∧
    (∃ idx stats, build 2 [fileAB, fileA] = .ok (idx, stats) ∧ stats.entries = 1 ∧
      stats.duplicates = 1) := by
  refine ⟨?_, ?_⟩
  · obtain ⟨⟨idx, stats⟩, hb, hs⟩ := exists_ok_of_map
      (show (build 2 [fileA, fileAB]).toOption.map (fun r => (r.2.entries, r.2.duplicates)) =
        some (2, 1) by decide +kernel)
    injection hs with h1 h2
    refine ⟨idx, stats, hb, h1, h2, fun hacc => ?_⟩
    have hbal : 2 = stats.entries + stats.rejectedPaths + stats.rejectedSizes + stats.duplicates :=
      hacc.balance
    simp only at h1 h2
    omega
  · obtain ⟨⟨idx, stats⟩, hb, hs⟩ := exists_ok_of_map
      (show (build 2 [fileAB, fileA]).toOption.map (fun r => (r.2.entries, r.2.duplicates)) =
        some (1, 1) by decide +kernel)
    injection hs with h1 h2
    exact ⟨idx, stats, hb, h1, h2⟩

end ZipFs
