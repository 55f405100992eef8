import ZipFs.Index.Stats

/-!
# Which entries leave a metadata record

An entry gets a metadata record if its path is free, or if it declares a directory that was
only implied so far. Nothing ever takes a record back: a file that makes room for a
directory leaves its record behind. So the records are counted on the tree, entry by entry,
and the count is what the builder has, as long as it has not failed.
-/

namespace ZipFs

/-! ## On the tree -/

/-- Whether an entry gets a metadata record: its path is free, or it declares a directory that
is only implied so far. -/
def Tree.attaches (T : Tree) (c : Claim) : Bool :=
  decide (T c.comps = none ∨ (T c.comps = some .implied ∧ c.kind = .dir))

/-- How many of the entries get a metadata record, with those of `pre` before them. -/
def attachedAfter : List Claim → List Claim → Nat
  | _, [] => 0
  | pre, c :: rest =>
      (if (treeOf pre).attaches c then 1 else 0) + attachedAfter (pre ++ [c]) rest

def attachedCount (A : List Claim) : Nat := attachedAfter [] A

theorem attachedAfter_append (pre A B : List Claim) :
    attachedAfter pre (A ++ B) = attachedAfter pre A + attachedAfter (pre ++ A) B := by
  induction A generalizing pre with
  | nil => rw [List.nil_append, List.append_nil, attachedAfter, Nat.zero_add]
  | cons c A ih =>
      rw [List.cons_append, attachedAfter, attachedAfter, ih, List.append_assoc,
        List.singleton_append, Nat.add_assoc]

theorem attachedCount_snoc (A : List Claim) (c : Claim) :
    attachedCount (A ++ [c]) = attachedCount A + if (treeOf A).attaches c then 1 else 0 := by
  rw [attachedCount, attachedAfter_append, List.nil_append, attachedAfter, attachedAfter]
  rfl

/-! ## One entry -/

section Add

variable {b b' : Builder} {T : Tree} {e : Entry}

/-- Attaching needs an index that fits, and gives it to the node. -/
theorem attach_grows {id : Nat} {n : TmpNode} (hn : b.nodes[id]? = some n) {kind : NodeKind}
    {info : EntryMeta} (h : b.attach id kind info = .ok b') :
    b.metas.length < 2 ^ 32 ∧ b'.metas.length = b.metas.length + 1 ∧
      ∃ n', b'.nodes[id]? = some n' ∧ n'.synthetic = false ∧ n'.metaIdx = b.metas.length := by
  have hfit : b.metas.length < 2 ^ 32 := by
    rw [Builder.attach] at h
    obtain ⟨slot, -, h⟩ := bind_eq_ok h
    obtain ⟨i, hi, -⟩ := bind_eq_ok h
    exact (toU32_eq_ok hi).2
  obtain ⟨info', count, -, rfl⟩ := attach_eq_ok hn h
  refine ⟨hfit, ?_, _, (attached_changed hn kind info' count).self, rfl, rfl⟩
  rw [Builder.attached, List.length_append]
  rfl

/-- What an entry can do to the metadata: it adds a record and a node that points at it, or
nothing at all, and then no entry loses its node either. -/
inductive Recording (T : Tree) (e : Entry) (b b' : Builder) : Prop where
  | attached (id : Nat) (n : TmpNode) : T.attaches e.toClaim = true → b.metas.length < 2 ^ 32 →
      b'.metas.length = b.metas.length + 1 → b'.nodes[id]? = some n → n.synthetic = false →
      n.metaIdx = b.metas.length → Recording T e b b'
  | skipped : T.attaches e.toClaim = false → b'.metas = b.metas →
      (∀ (id : Nat) (n : TmpNode), b.nodes[id]? = some n → n.synthetic = false →
        b'.nodes[id]? = some n) → Recording T e b b'

/-- The walk to the parent does not touch the leaf. -/
theorem mkDirs_leaf (cs : List Bytes) (l : Bytes) : T.mkDirs [] cs (cs ++ [l]) = T (cs ++ [l]) := by
  rw [mkDirs_apply, if_neg]
  intro h
  have := h.2.2.length_le
  rw [List.nil_append, List.length_append, List.length_singleton] at this
  omega

/-- What has something at its path is below directories only. -/
theorem dir_above (h : b.Ok) (hm : Models b T) {p q : List Bytes} (hp : (T p).isSome)
    (hab : Above q p) {i : Info} (hi : T q = some i) : i.kind = .dir := by
  obtain ⟨id, hlt, hpath⟩ := hm.reached p hp
  obtain ⟨⟨r, rfl⟩, hne⟩ := hab
  -- the last step down is from a directory, and everything above that one is a directory
  obtain ⟨r, c, rfl⟩ : ∃ r' c, r = r' ++ [c] := by
    rcases List.eq_nil_or_concat r with rfl | ⟨r', c, rfl⟩
    · exact absurd (List.append_nil q).symm hne
    · exact ⟨r', c, List.concat_eq_append⟩
  rw [← List.append_assoc] at hpath
  obtain ⟨hpos, parent, hkey, hpar⟩ := pathOf_snoc hpath
  obtain ⟨n, hn, rfl, -⟩ := hkey
  have hpn := List.getElem?_eq_getElem (hpar.lt h)
  obtain ⟨j, m, hj, hk, hjq, -⟩ := hpar.ancestor_dir h hpn (h.parent_dir id n _ hpos hn hpn)
  rw [hm.at_node j m q hj hjq] at hi
  rw [← Option.some.inj hi]
  exact hk

/-- **An entry attaches exactly when the tree says so.** -/
theorem add_recording (h : b.Ok) (hm : Models b T) (he : e.accepted = true)
    (hadd : b.add e = .ok b') : Recording T e b b' := by
  have hm' := ((add_accepted h hm he).elim hadd).2.1
  have hacc := he
  simp only [Entry.accepted, Bool.and_eq_true, Bool.not_eq_true', Option.isNone_iff_eq_none] at he
  obtain ⟨⟨h1, h2⟩, h3⟩ := he
  obtain ⟨cs, l, hcs, hl, hnames, hsplit⟩ := splitParent_normalizePath h1
  rw [Builder.add, h1, h2, h3, hsplit] at hadd
  simp only [Option.isSome_none, Bool.false_eq_true, if_false] at hadd
  obtain ⟨⟨b₁, parent⟩, hparent, hrest⟩ := bind_eq_ok hadd
  obtain ⟨⟨b₂, id, fresh⟩, hintern, hclaim⟩ := bind_eq_ok hrest
  clear hadd hrest
  obtain ⟨g1, g2, g3, -, g5, -⟩ := (resolveParent_spec h hm hnames).elim hparent
  obtain ⟨lost, hw⟩ := resolveParent_walked h hm hnames hparent
  dsimp only at g1 g2 g3 g5 hclaim
  have hleaf : T.mkDirs [] cs (cs ++ [l]) = T (components e.path) := by rw [mkDirs_leaf, hcs]
  have hclaimed := claim_claimed g1 hintern hclaim
  rcases (intern_spec g1 parent l).elim hintern with ⟨hf, hb, hid, hk⟩ | ⟨hf, hid, hg⟩
  · -- the leaf was there
    dsimp only at hf hb hid hk
    subst hf hb
    have hpath : PathOf b₂.nodes b₂.names id (cs ++ [l]) := .child hid hk g3
    obtain ⟨n, hn, -⟩ := hk
    have hinfo := g2.at_node id n _ hn hpath
    rw [hleaf] at hinfo
    rw [Builder.claim] at hclaim
    simp only [Bool.false_eq_true, if_false] at hclaim
    rw [at!_ok hn] at hclaim
    have hskip : (T.attaches e.toClaim = false) → ∀ warn, b₂.duplicate warn = b' →
        Recording T e b b' := by
      rintro hno warn rfl
      refine .skipped hno g5 fun id n hn hs => ?_
      have hnil : lost = [] := by
        rw [lost_eq_nil_iff h hm hm' hw hclaimed]
        intro q i hab hi
        exact dir_above h hm (by rw [show T e.toClaim.comps = _ from hinfo]; rfl) hab hi
      exact hw.old hnil hn
    have hattaches : T.attaches e.toClaim =
        decide (infoOf b₂.metas n = .implied ∧ e.kind = .dir) := by
      rw [Tree.attaches, show T e.toClaim.comps = _ from hinfo]
      simp only [reduceCtorEq, Option.some.injEq, false_or]
      rfl
    by_cases c1 : n.kind = .dir ∧ e.kind ≠ .dir
    · refine hskip ?_ true (Except.ok.inj ((if_pos c1).symm.trans hclaim))
      rw [hattaches, decide_eq_false_iff_not]
      exact fun hi => c1.2 hi.2
    replace hclaim := (if_neg c1).symm.trans hclaim
    by_cases c2 : ¬ n.synthetic = true
    · refine hskip ?_ true (Except.ok.inj ((if_pos c2).symm.trans hclaim))
      obtain ⟨m, -, hi⟩ := infoOf_claimed g1 hn (by simpa using c2)
      rw [hattaches, hi, decide_eq_false_iff_not]
      rintro ⟨hi, -⟩
      exact absurd (congrArg Info.entry hi) (by simp [Info.implied])
    replace hclaim := (if_neg c2).symm.trans hclaim
    by_cases c3 : e.kind ≠ .dir
    · refine hskip ?_ false (Except.ok.inj ((if_pos c3).symm.trans hclaim))
      rw [hattaches, decide_eq_false_iff_not]
      exact fun hi => c3 hi.2
    replace hclaim := (if_neg c3).symm.trans hclaim
    obtain ⟨a1, a2, n', a3, a4, a5⟩ := attach_grows (b := b₂.uncountDir) hn hclaim
    have hmetas : b₂.uncountDir.metas = b.metas := g5
    rw [hmetas] at a1 a2 a5
    refine .attached id n' ?_ a1 a2 a3 a4 a5
    rw [hattaches, infoOf_implied g1 hn (by simpa using c2), decide_eq_true_iff]
    exact ⟨rfl, by simpa using c3⟩
  · -- the leaf is new
    dsimp only at hf hid hg
    subst hf hid
    obtain ⟨-, hnone⟩ := hg.models g1 g2 g3
    rw [hleaf] at hnone
    rw [Builder.claim] at hclaim
    simp only [if_true] at hclaim
    obtain ⟨a1, a2, n', a3, a4, a5⟩ := attach_grows hg.new hclaim
    rw [hg.metas, g5] at a1 a2 a5
    refine .attached _ n' ?_ a1 a2 a3 a4 a5
    rw [Tree.attaches, show T e.toClaim.comps = none from hnone]
    rfl

end Add

/-! ## Every entry -/

/-- What is known of the metadata along the first pass. A full array has left its mark. -/
structure Recorder (done : List Entry) (b : Builder) : Prop where
  count : b.metas.length = attachedCount (accepted done)
  le : b.metas.length ≤ 2 ^ 32
  mark : b.metas.length = 2 ^ 32 → ∃ (id : Nat) (n : TmpNode), b.nodes[id]? = some n ∧
    n.synthetic = false ∧ n.metaIdx = NO_META

theorem Recorder.step {done : List Entry} {b b' : Builder} {e : Entry} (hr : Recorder done b)
    (h : b.Ok) (hm : Models b (treeOf (accepted done))) (hadd : b.add e = .ok b') :
    Recorder (done ++ [e]) b' := by
  cases he : e.accepted with
  | false =>
      obtain ⟨b'', hb'', hsame⟩ := add_rejected (b := b) he
      obtain rfl := Except.ok.inj (hadd.symm.trans hb'')
      have hacc : accepted (done ++ [e]) = accepted done := by
        rw [accepted_snoc, he]
        exact if_neg (by simp)
      refine ⟨?_, ?_, ?_⟩
      · rw [hsame.metas, hacc]
        exact hr.count
      · rw [hsame.metas]
        exact hr.le
      · rw [hsame.metas, hsame.nodes]
        exact hr.mark
  | true =>
      have hacc : accepted (done ++ [e]) = accepted done ++ [e.toClaim] := by
        rw [accepted_snoc, he]
        exact if_pos rfl
      cases add_recording h hm he hadd with
      | attached id n hyes hfit hlen hn hs hidx =>
          refine ⟨?_, by omega, fun hfull => ⟨id, n, hn, hs, ?_⟩⟩
          · rw [hacc, attachedCount_snoc, hyes, hlen, hr.count]
            rfl
          · rw [hidx, NO_META]
            omega
      | skipped hno hmetas hkept =>
          refine ⟨?_, by rw [hmetas]; exact hr.le, fun hfull => ?_⟩
          · rw [hacc, attachedCount_snoc, hno, hmetas, hr.count]
            rfl
          · obtain ⟨id, n, hn, hs, hidx⟩ := hr.mark (hmetas ▸ hfull)
            exact ⟨id, n, hkept id n hn hs, hs, hidx⟩

theorem addAll_recorder {hint : Nat} {entries : List Entry} {b : Builder}
    (hrun : addAll hint entries = .ok b) : Recorder entries b := by
  refine addAll_induction (I := Recorder) hrun ?_ ?_
  · exact ⟨rfl, Nat.zero_le _, fun hfull => absurd hfull (by simp [Builder.new])⟩
  · intro done e b b' h hm hadd hr
    exact hr.step h hm hadd

end ZipFs
