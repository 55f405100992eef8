import ZipFs.Index.BuildProof
import Mathlib.Data.List.Induction

/-!
# `add` refines the tree

Each function of the first pass, from `take_over_as_dir` up to the whole loop over
the central directory, against what it does to the tree. The invariant is the pair
of `Builder.Ok` and `Models` throughout, so every lemma here has the same shape: it
starts from that pair and ends in it, with the tree changed in the way named.
-/

namespace ZipFs

variable {b b' : Builder} {T : Tree}

/-- A tree where `q` has to be a directory. -/
def Tree.mkDir (T : Tree) (q : List Bytes) : Tree := T.set q (Info.asDir (T q))

/-- What `q` says already is left alone by writing it again. -/
theorem Tree.set_same {q : List Bytes} {i : Info} (h : T q = some i) : T.set q i = T := by
  funext p
  by_cases hp : p = q
  · rw [hp, Tree.set_self, h]
  · rw [Tree.set_ne _ _ hp]

theorem Tree.set_set (q : List Bytes) (i j : Info) : (T.set q i).set q j = T.set q j := by
  funext p
  by_cases hp : p = q
  · rw [hp, Tree.set_self, Tree.set_self]
  · rw [Tree.set_ne _ _ hp, Tree.set_ne _ _ hp, Tree.set_ne _ _ hp]

/-! ## Directories on the way -/

/-- A file that has to be a directory becomes one, and forgets its entry. -/
theorem takeOverAsDir_spec (h : b.Ok) (hm : Models b T) {id : Nat} (hid : 0 < id) {n : TmpNode}
    (hn : b.nodes[id]? = some n) {p : List Bytes} (hp : PathOf b.nodes b.names id p) :
    Sat (fun b' => b'.Ok ∧ Models b' (T.set p .implied) ∧ PathOf b'.nodes b'.names id p ∧
      (∃ n', b'.nodes[id]? = some n' ∧ n'.kind = .dir) ∧ b'.metas = b.metas)
      (b.takeOverAsDir id) := by
  have hlt := (List.getElem?_eq_some_iff.mp hn).1
  rw [Builder.takeOverAsDir]
  refine (SatIf.of_eq_ok (at!_ok hn) rfl : Sat (fun a => a = n) _).bind (fun a ha => ?_)
  subst ha
  refine (SatIf.of_eq_ok (put!_ok _ hlt) rfl : Sat (fun x => x = _) _).bind (fun nodes hnodes => ?_)
  subst hnodes
  let n' : TmpNode := { a with kind := .dir, synthetic := true, metaIdx := NO_META }
  let b' : Builder := { b with
    nodes := b.nodes.set id n'
    dupWarner := b.dupWarner.allow.1
    stats := { b.stats with
      duplicates := b.stats.duplicates + 1
      syntheticDirs := b.stats.syntheticDirs + 1 } }
  have hc : Changed b id a n' b' := ⟨hn, rfl, rfl, rfl, rfl, rfl, rfl, rfl, rfl⟩
  have hl : Changed.Links b id n' b' :=
    ⟨fun _ => ⟨rfl, rfl⟩, fun hs => absurd hs (by simp [n']), fun hs => absurd hs (by simp [n']),
      fun _ _ hi => hi, Nat.le_refl _, fun _ hk => absurd hk (by simp [n']),
      fun hk => absurd hk (by simp [n'])⟩
  exact ⟨hc.ok h hl hid (Or.inl rfl), hc.models h (fun _ _ hi => hi) hm hp, hc.path_iff.mpr hp,
    ⟨n', hc.self, rfl⟩, rfl⟩

/-- One component of a parent path: the node below `cur`, made a directory. -/
theorem resolveComponent_spec (h : b.Ok) (hm : Models b T) {cur : Nat} {cn : TmpNode}
    (hcn : b.nodes[cur]? = some cn) (hd : cn.kind = .dir) {p : List Bytes}
    (hp : PathOf b.nodes b.names cur p) (comp : Bytes) :
    Sat (fun r => r.1.Ok ∧ Models r.1 (T.mkDir (p ++ [comp])) ∧
      PathOf r.1.nodes r.1.names r.2 (p ++ [comp]) ∧
      (∃ n, r.1.nodes[r.2]? = some n ∧ n.kind = .dir) ∧ r.1.metas = b.metas)
      (b.resolveComponent cur comp) := by
  rw [Builder.resolveComponent]
  refine (intern_spec h cur _).bind (fun r hr => ?_)
  obtain ⟨b1, id, fresh⟩ := r
  rcases hr with ⟨hf, hb, hid, hk⟩ | ⟨hf, hid, hg⟩
  · -- the component was there
    simp only at hf hb hid hk
    subst hf hb
    have hpath : PathOf b1.nodes b1.names id (p ++ [comp]) := .child hid hk hp
    obtain ⟨n, hn, -, -⟩ := hk
    have hinfo := hm.at_node id n _ hn hpath
    simp only [Bool.false_eq_true, if_false]
    refine (SatIf.of_eq_ok (at!_ok hn) rfl : Sat (fun a => a = n) _).bind (fun a ha => ?_)
    subst ha
    by_cases hkd : a.kind = .dir
    · rw [if_neg (by simp [hkd])]
      refine ⟨h, ?_, hpath, ⟨a, hn, hkd⟩, rfl⟩
      rw [Tree.mkDir, hinfo, asDir_of_dir hkd, Tree.set_same hinfo]
      exact hm
    · rw [if_pos hkd]
      refine (takeOverAsDir_spec h hm hid hn hpath).bind (fun b2 hb2 => ?_)
      obtain ⟨h1, h2, h3, h4, h5⟩ := hb2
      refine ⟨h1, ?_, h3, h4, h5⟩
      have : Info.asDir (T (p ++ [comp])) = .implied := by
        rw [hinfo]; exact if_neg hkd
      rw [Tree.mkDir, this]
      exact h2
  · -- the component is new
    simp only at hf hid hg
    subst hf hid
    obtain ⟨hm1, hnone⟩ := hg.models h hm hp
    have hsame : SameTree b1 { b1 with
        stats := { b1.stats with syntheticDirs := b1.stats.syntheticDirs + 1 } } :=
      ⟨rfl, rfl, rfl, rfl, rfl, rfl, rfl⟩
    have h0 : 0 < b.nodes.length := (List.getElem?_eq_some_iff.mp h.root).1
    refine ⟨hsame.ok (hg.ok h hcn hd), ?_, .child h0 hg.key_new (hg.path_old hp),
      ⟨_, hg.new, rfl⟩, hg.metas⟩
    rw [Tree.mkDir, hnone]
    exact hsame.models hm1

/-- The directories `comps` needs below `p`. -/
def Tree.mkDirs (T : Tree) (p : List Bytes) : List Bytes → Tree
  | [] => T
  | c :: cs => (T.mkDir (p ++ [c])).mkDirs (p ++ [c]) cs

theorem resolveLoop_spec {comps : List Bytes} (h : b.Ok) (hm : Models b T) {cur : Nat}
    {cn : TmpNode} (hcn : b.nodes[cur]? = some cn) (hd : cn.kind = .dir) {p : List Bytes}
    (hp : PathOf b.nodes b.names cur p) :
    Sat (fun r => r.1.Ok ∧ Models r.1 (T.mkDirs p comps) ∧
      PathOf r.1.nodes r.1.names r.2 (p ++ comps) ∧
      (∃ n, r.1.nodes[r.2]? = some n ∧ n.kind = .dir) ∧ r.1.metas = b.metas)
      (Builder.resolveLoop comps b cur) := by
  induction comps generalizing b T cur cn p with
  | nil => exact ⟨h, hm, by simpa using hp, ⟨cn, hcn, hd⟩, rfl⟩
  | cons c cs ih =>
      rw [Builder.resolveLoop]
      refine (resolveComponent_spec h hm hcn hd hp c).bind (fun r hr => ?_)
      obtain ⟨h1, h2, h3, ⟨n, hn, hk⟩, h5⟩ := hr
      refine (ih h1 h2 hn hk h3).mono (fun r' hr' => ?_)
      obtain ⟨g1, g2, g3, g4, g5⟩ := hr'
      refine ⟨g1, g2, ?_, g4, g5.trans h5⟩
      rw [List.append_assoc] at g3
      exact g3

/-- The loop made directories of exactly the prefixes it went through. -/
theorem mkDirs_apply (p cs : List Bytes) (q : List Bytes) :
    T.mkDirs p cs q =
      if p <+: q ∧ p ≠ q ∧ q <+: p ++ cs then some (Info.asDir (T q)) else T q := by
  induction cs generalizing T p with
  | nil =>
      rw [Tree.mkDirs, if_neg]
      rintro ⟨h1, h2, h3⟩
      rw [List.append_nil] at h3
      exact h2 (h1.eq_of_length_le (h3.length_le))
  | cons c cs ih =>
      have hassoc : p ++ [c] ++ cs = p ++ c :: cs := by simp
      rw [Tree.mkDirs, ih, hassoc]
      by_cases hq : q = p ++ [c]
      · subst hq
        rw [if_neg (fun h => h.2.1 rfl), if_pos, Tree.mkDir, Tree.set_self]
        refine ⟨List.prefix_append _ _, by simp, ?_⟩
        exact ⟨cs, by simp⟩
      · rw [Tree.mkDir, Tree.set_ne _ _ hq]
        congr 1
        rw [eq_iff_iff]
        constructor
        · rintro ⟨h1, h2, h3⟩
          refine ⟨(List.prefix_append p [c]).trans h1, ?_, h3⟩
          rintro rfl
          have := h1.length_le
          rw [List.length_append, List.length_singleton] at this
          omega
        · rintro ⟨h1, h2, h3⟩
          refine ⟨?_, Ne.symm hq, h3⟩
          have hlt : p.length < q.length := by
            rcases Nat.lt_or_ge p.length q.length with hlt | hge
            · exact hlt
            · exact absurd (h1.eq_of_length_le hge) h2
          have : p ++ [c] <+: p ++ c :: cs := ⟨cs, by simp⟩
          exact List.prefix_of_prefix_length_le this h3 (by simp; omega)

/-- Everything above a directory is a directory, and was made before it. -/
theorem PathOf.ancestor_dir (h : b.Ok) {q r : List Bytes} {id : Nat} {n : TmpNode}
    (hn : b.nodes[id]? = some n) (hd : n.kind = .dir) (hp : PathOf b.nodes b.names id (q ++ r)) :
    ∃ j m, b.nodes[j]? = some m ∧ m.kind = .dir ∧ PathOf b.nodes b.names j q ∧ j ≤ id := by
  induction r using List.reverseRecOn generalizing id n with
  | nil => exact ⟨id, n, hn, hd, by simpa using hp, Nat.le_refl _⟩
  | append_singleton r c ih =>
      rw [← List.append_assoc] at hp
      obtain ⟨hpos, parent, hkey, hpar⟩ := pathOf_snoc hp
      obtain ⟨n', hn', hparent, -⟩ := hkey
      rw [hn] at hn'
      injection hn' with hn'
      subst hn'
      have hplt := hpar.lt h
      have hpn : b.nodes[parent]? = some b.nodes[parent] := List.getElem?_eq_getElem hplt
      have hpdir := h.parent_dir id n _ hpos hn (by rw [hparent]; exact hpn)
      obtain ⟨j, m, h1, h2, h3, h4⟩ := ih hpn hpdir hpar
      have hlt := h.parent_lt id n hpos hn
      exact ⟨j, m, h1, h2, h3, by omega⟩

/-- The memo never changes the answer: a remembered parent is a directory already. -/
theorem mkDirs_of_dir {p : List Bytes} {id : Nat} {n : TmpNode} (h : b.Ok) (hm : Models b T)
    (hn : b.nodes[id]? = some n) (hd : n.kind = .dir) (hp : PathOf b.nodes b.names id p) :
    T.mkDirs [] p = T := by
  funext q
  rw [mkDirs_apply, List.nil_append]
  split
  · rename_i hq
    obtain ⟨r, rfl⟩ := hq.2.2
    obtain ⟨j, m, hj, hk, hpath, -⟩ := hp.ancestor_dir h hn hd
    have hinfo := hm.at_node j m q hj hpath
    rw [hinfo, asDir_of_dir hk]
  · rfl

theorem resolveParent_spec (h : b.Ok) (hm : Models b T) {cs : List Bytes}
    (hnames : ∀ c ∈ cs, IsName c) :
    Sat (fun r => r.1.Ok ∧ Models r.1 (T.mkDirs [] cs) ∧ PathOf r.1.nodes r.1.names r.2 cs ∧
      (∃ n, r.1.nodes[r.2]? = some n ∧ n.kind = .dir) ∧ r.1.metas = b.metas ∧ r.1.memoId = r.2)
      (b.resolveParent (parentBytes cs)) := by
  have hcomps := components_parentBytes (fun c hc => (hnames c hc).toIsComponent)
  rw [Builder.resolveParent]
  by_cases hmemo : parentBytes cs = b.memoPath
  · rw [if_pos hmemo]
    obtain ⟨n, hn, hd, hp⟩ := h.memo
    rw [← hmemo, hcomps] at hp
    refine ⟨h, ?_, hp, ⟨n, hn, hd⟩, rfl, rfl⟩
    rw [mkDirs_of_dir h hm hn hd hp]
    exact hm
  · rw [if_neg hmemo, hcomps]
    refine (resolveLoop_spec h hm h.root rfl .root).bind (fun r hr => ?_)
    obtain ⟨h1, h2, h3, ⟨n, hn, hd⟩, h5⟩ := hr
    rw [List.nil_append] at h3
    refine ⟨⟨h1.root, h1.parent_lt, h1.named, h1.parent_dir, h1.unique, h1.interner, h1.size,
      h1.implied, h1.claimed, h1.meta_inj, h1.slot_lt, h1.slot_inj, ?_⟩,
      ⟨h2.at_node, h2.reached⟩, h3, ⟨n, hn, hd⟩, h5, rfl⟩
    exact ⟨n, hn, hd, by rw [hcomps]; exact h3⟩

/-! ## The entry itself -/

/-- A node takes an entry's kind and metadata. -/
theorem attach_spec (h : b.Ok) (hm : Models b T) {id : Nat} (hid : 0 < id) {n : TmpNode}
    (hn : b.nodes[id]? = some n) {p : List Bytes} (hp : PathOf b.nodes b.names id p)
    (kind : NodeKind) (info : EntryMeta)
    (hdir : kind = .dir ∨
      (b.memoId ≠ id ∧ ∀ i m, 0 < i → b.nodes[i]? = some m → m.parent ≠ id)) :
    Sat (fun b' => b'.Ok ∧ Models b' (T.set p ⟨kind, some info.bare⟩) ∧
      b'.metas.length = b.metas.length + 1) (b.attach id kind info) := by
  have hlt := (List.getElem?_eq_some_iff.mp hn).1
  -- a symlink gets a slot of its own, everything else is left as it is
  have hslot : Sat (fun r => r.1.bare = info.bare ∧ b.symlinkCount ≤ r.2 ∧
      (kind = .symlink → b.symlinkCount ≤ r.1.symlinkSlot ∧ r.1.symlinkSlot < r.2))
      (b.takeSlot kind info) := by
    rw [Builder.takeSlot]
    split
    · split
      · exact ⟨rfl, Nat.le_succ _, fun _ => ⟨Nat.le_refl _, Nat.lt_succ_self _⟩⟩
      · trivial
    · rename_i hk
      exact ⟨rfl, Nat.le_refl _, fun hk' => absurd hk' hk⟩
  rw [Builder.attach]
  refine hslot.bind (fun r hr => ?_)
  obtain ⟨info', count⟩ := r
  obtain ⟨hbare, hcount, hlink⟩ := hr
  refine (sat_toU32 _ _).bind (fun i hi => ?_)
  obtain ⟨rfl, -⟩ := hi
  refine (SatIf.of_eq_ok (at!_ok hn) rfl : Sat (fun a => a = n) _).bind (fun a ha => ?_)
  subst ha
  refine (SatIf.of_eq_ok (put!_ok _ hlt) rfl : Sat (fun x => x = _) _).bind (fun nodes hnodes => ?_)
  subst hnodes
  let n' : TmpNode := { a with kind := kind, synthetic := false, metaIdx := b.metas.length }
  let b' : Builder := { b with
    nodes := b.nodes.set id n'
    metas := b.metas ++ [info']
    symlinkCount := count
    stats := Builder.countEntry b.stats kind info' }
  have hc : Changed b id a n' b' := ⟨hn, rfl, rfl, rfl, rfl, rfl, rfl, rfl, rfl⟩
  have hlast : b'.metas[n'.metaIdx]? = some info' := List.getElem?_concat_length
  have hgrow : b'.metas.length = b.metas.length + 1 := by simp [b']
  have hmetas : ∀ (i : Nat) (m : EntryMeta), b.metas[i]? = some m → b'.metas[i]? = some m := by
    intro i m hi
    rw [← hi]
    exact List.getElem?_append_left (List.getElem?_eq_some_iff.mp hi).1
  have hl : Changed.Links b id n' b' := by
    refine ⟨fun hs => absurd hs (by simp [n']), fun _ => ?_, fun _ => rfl, hmetas, hcount,
      fun m hk hm' => ?_, fun _ => rfl⟩
    · rw [hgrow]; exact Nat.lt_succ_self _
    · rw [hlast] at hm'
      injection hm' with hm'
      exact hm' ▸ hlink hk
  refine ⟨hc.ok h hl hid hdir, ?_, hgrow⟩
  have hinfo : infoOf b'.metas n' = ⟨kind, some info.bare⟩ := by
    rw [infoOf, hlast, ← hbare]
    rfl
  rw [← hinfo]
  exact hc.models h hmetas hm hp

/-- The claim an entry makes, once it is accepted. -/
def Entry.toClaim (e : Entry) : Claim := ⟨components e.path, e.kind, e.info⟩

/-- Only a metadata record more, if any. -/
def AddsTo (b : Builder) (T : Tree) (b' : Builder) : Prop :=
  b'.Ok ∧ Models b' T ∧ b'.metas.length ≤ b.metas.length + 1

/-- Who gets a node that was there already. -/
theorem claim_spec (h : b.Ok) (hm : Models b T) {id : Nat} (hid : 0 < id) {n : TmpNode}
    (hn : b.nodes[id]? = some n) {p : List Bytes} (hp : PathOf b.nodes b.names id p) (c : Claim) :
    Sat (AddsTo b (T.set p (Info.claimed c (T p)))) (b.claim id false c.kind c.info) := by
  have hinfo := hm.at_node id n p hn hp
  -- the entry lost: nothing but counters moved
  have hlost : ∀ warn, Info.claimed c (T p) = infoOf b.metas n →
      AddsTo b (T.set p (Info.claimed c (T p))) (b.duplicate warn) := by
    intro warn he
    have hsame : SameTree b (b.duplicate warn) := ⟨rfl, rfl, rfl, rfl, rfl, rfl, rfl⟩
    rw [he, Tree.set_same hinfo]
    exact ⟨hsame.ok h, hsame.models hm, Nat.le_succ _⟩
  rw [Builder.claim]
  simp only [Bool.false_eq_true, if_false]
  refine (SatIf.of_eq_ok (at!_ok hn) rfl : Sat (fun a => a = n) _).bind (fun a ha => ?_)
  subst ha
  by_cases h1 : a.kind = .dir ∧ c.kind ≠ .dir
  · rw [if_pos h1]
    refine hlost true ?_
    rw [hinfo, Info.claimed, if_neg (fun hi => h1.2 hi.2)]
  rw [if_neg h1]
  by_cases h2 : ¬ a.synthetic = true
  · rw [if_pos h2]
    refine hlost true ?_
    obtain ⟨m, -, hi⟩ := infoOf_claimed h hn (by simpa using h2)
    rw [hinfo, hi, Info.claimed, if_neg]
    rintro ⟨hi, -⟩
    injection hi with _ hi
    exact absurd hi (by simp)
  rw [if_neg h2]
  by_cases h3 : c.kind ≠ .dir
  · rw [if_pos h3]
    refine hlost false ?_
    rw [hinfo, Info.claimed, if_neg (fun hi => h3 hi.2)]
  rw [if_neg h3]
  -- the first declaration of a directory that was only implied so far
  have hkind : c.kind = .dir := by simpa using h3
  have himp := infoOf_implied h hn (by simpa using h2)
  have hset : Info.claimed c (T p) = ⟨c.kind, some c.info.bare⟩ := by
    rw [hinfo, himp, Info.claimed, if_pos ⟨rfl, hkind⟩, hkind]
  rw [hset]
  have hsame : SameTree b { b with
      stats := { b.stats with syntheticDirs := b.stats.syntheticDirs - 1 } } :=
    ⟨rfl, rfl, rfl, rfl, rfl, rfl, rfl⟩
  refine (attach_spec (hsame.ok h) (hsame.models hm) hid hn hp c.kind c.info
    (Or.inl hkind)).mono (fun b' hb' => ?_)
  exact ⟨hb'.1, hb'.2.1, Nat.le_of_eq hb'.2.2⟩

/-- Making the parents and then the leaf is what adding to the tree means. -/
theorem Tree.add_eq (hroot : T [] = some .implied) {c : Claim} {cs : List Bytes} {l : Bytes}
    (hc : c.comps = cs ++ [l]) :
    T.add c = (T.mkDirs [] cs).set (cs ++ [l])
      (Info.claimed c (T.mkDirs [] cs (cs ++ [l]))) := by
  have hnot : ¬ cs ++ [l] <+: cs := fun h => by
    have := h.length_le
    rw [List.length_append, List.length_singleton] at this
    omega
  have hleaf : T.mkDirs [] cs (cs ++ [l]) = T (cs ++ [l]) := by
    rw [mkDirs_apply, if_neg (fun h => hnot h.2.2)]
  funext p
  rw [Tree.add, hleaf]
  by_cases hp : p = cs ++ [l]
  · subst hp
    rw [Tree.set_self, ← hc, stepAt_self]
  · rw [Tree.set_ne _ _ hp, mkDirs_apply, List.nil_append]
    by_cases hab : Above p c.comps
    · rw [stepAt_above hab]
      have hpre : p <+: cs := by
        rw [hc] at hab
        rcases List.prefix_concat_iff.mp hab.1 with he | he
        · exact absurd he hp
        · exact he
      by_cases hnil : p = []
      · rw [if_neg (fun h => h.2.1 hnil.symm), hnil, hroot]
        rfl
      · rw [if_pos ⟨List.nil_prefix, Ne.symm hnil, hpre⟩]
    · rw [stepAt_elsewhere hab (by rw [hc]; exact hp), if_neg]
      rintro ⟨-, -, h3⟩
      exact hab ⟨by rw [hc]; exact h3.trans (List.prefix_append _ _), by rw [hc]; exact hp⟩

/-- The entries that `add` does not turn away. -/
def Entry.accepted (e : Entry) : Bool :=
  (rejectReason e.path).isNone && !storedSizesDiffer e.info && !compressedSizeZero e.info

/-- **An accepted entry does to the builder what it does to the tree.** -/
theorem add_accepted (h : b.Ok) (hm : Models b T) {e : Entry}
    (he : e.accepted = true) : Sat (AddsTo b (T.add e.toClaim)) (b.add e) := by
  simp only [Entry.accepted, Bool.and_eq_true, Bool.not_eq_true', Option.isNone_iff_eq_none] at he
  obtain ⟨⟨h1, h2⟩, h3⟩ := he
  obtain ⟨cs, l, hcs, hl, hnames, hsplit⟩ := splitParent_normalizePath h1
  have hroot : T [] = some .implied := by
    rw [hm.at_node 0 rootNode [] h.root .root, infoOf_implied h h.root rfl]
  rw [Builder.add, h1, h2, h3, hsplit, Tree.add_eq hroot (c := e.toClaim) hcs]
  simp only [Option.isSome_none, Bool.false_eq_true, if_false]
  refine (resolveParent_spec h hm hnames).bind (fun r hr => ?_)
  obtain ⟨b1, parent⟩ := r
  obtain ⟨g1, g2, g3, ⟨pn, g4, g5⟩, g6, g7⟩ := hr
  simp only at g1 g2 g3 g4 g5 g6 g7
  refine (intern_spec g1 parent _).bind (fun r hr => ?_)
  obtain ⟨b2, id, fresh⟩ := r
  have hlen : ∀ T b', AddsTo b1 T b' → AddsTo b T b' := fun _ _ ha => by
    obtain ⟨a1, a2, a3⟩ := ha
    exact ⟨a1, a2, g6 ▸ a3⟩
  rcases hr with ⟨hf, hb, hid, hk⟩ | ⟨hf, hid, hg⟩
  · -- the leaf was there
    simp only at hf hb hid hk
    subst hf hb
    have hpath : PathOf b2.nodes b2.names id (cs ++ [l]) := .child hid hk g3
    obtain ⟨n, hn, -, -⟩ := hk
    exact (claim_spec g1 g2 hid hn hpath e.toClaim).mono (hlen _)
  · -- the leaf is new
    simp only at hf hid hg
    subst hf hid
    obtain ⟨hm2, hnone⟩ := hg.models g1 g2 g3
    have h0 : 0 < b1.nodes.length := (List.getElem?_eq_some_iff.mp g1.root).1
    have hpath : PathOf b2.nodes b2.names b1.nodes.length (cs ++ [l]) :=
      .child h0 hg.key_new (hg.path_old g3)
    rw [Builder.claim]
    simp only [if_true]
    rw [hnone]
    refine (attach_spec (hg.ok g1 g4 g5) hm2 h0 hg.new hpath
      e.kind e.info (Or.inr ⟨?_, fun i m hi him => ?_⟩)).mono (fun b' hb' => ?_)
    · rw [hg.memoId, g7]
      exact Nat.ne_of_lt (g3.lt g1)
    · rcases hg.cases him with ⟨-, hf⟩ | ⟨hlt, him⟩
      · rw [hf]
        exact Nat.ne_of_lt (g3.lt g1)
      · exact Nat.ne_of_lt (Nat.lt_trans (g1.parent_lt i m hi him) hlt)
    · obtain ⟨a1, a2, a3⟩ := hb'
      rw [Tree.set_set] at a2
      refine ⟨a1, a2, ?_⟩
      rw [a3, hg.metas, g6]

/-- An entry that is turned away moves counters only. -/
theorem add_rejected {e : Entry} (he : e.accepted = false) :
    ∃ b', b.add e = .ok b' ∧ SameTree b b' := by
  rw [Builder.add]
  by_cases h1 : (rejectReason e.path).isSome = true
  · rw [if_pos h1]
    exact ⟨_, rfl, ⟨rfl, rfl, rfl, rfl, rfl, rfl, rfl⟩⟩
  rw [if_neg h1]
  by_cases h2 : storedSizesDiffer e.info = true
  · rw [if_pos h2]
    exact ⟨_, rfl, ⟨rfl, rfl, rfl, rfl, rfl, rfl, rfl⟩⟩
  rw [if_neg h2]
  by_cases h3 : compressedSizeZero e.info = true
  · rw [if_pos h3]
    exact ⟨_, rfl, ⟨rfl, rfl, rfl, rfl, rfl, rfl, rfl⟩⟩
  · rw [Option.not_isSome_iff_eq_none] at h1
    rw [Bool.not_eq_true] at h2 h3
    rw [Entry.accepted, h1, h2, h3] at he
    exact absurd he (by simp)

/-! ## The whole central directory -/

/-- The claims of the entries that pass `reject_reason` and the two size checks, in order. -/
def accepted (entries : List Entry) : List Claim :=
  (entries.filter Entry.accepted).map Entry.toClaim

theorem new_ok (hint : Nat) : (Builder.new hint).Ok := by
  have hnodes : ∀ (id : Nat) (n : TmpNode), (Builder.new hint).nodes[id]? = some n →
      id = 0 ∧ n = rootNode := by
    intro id n hn
    have hlt := (List.getElem?_eq_some_iff.mp hn).1
    simp only [Builder.new, List.length_singleton] at hlt
    have h0 : id = 0 := by omega
    subst h0
    simp only [Builder.new, List.getElem?_cons_zero, Option.some.injEq] at hn
    exact ⟨rfl, hn.symm⟩
  refine ⟨rfl, ?_, ?_, ?_, ?_, ?_, ?_, ?_, ?_, ?_, ?_, ?_, ⟨rootNode, rfl, rfl, ?_⟩⟩
  · intro id n hid hn
    have := (hnodes id n hn).1
    omega
  · intro id n hn
    rw [(hnodes id n hn).2]
    exact ⟨[], rfl⟩
  · intro id n pn hid hn _
    have := (hnodes id n hn).1
    omega
  · rintro id id' p nm hid - ⟨n, hn, -⟩ -
    have := (hnodes id n hn).1
    omega
  · refine (Interner.withCapacity_ok hint _ _).congr_mem (fun id => ?_)
    simp only [Recorded, Builder.new, List.length_singleton]
    constructor
    · rintro ⟨h1, h2, -⟩
      omega
    · exact False.elim
  · simp only [Builder.new, List.length_singleton]
    omega
  · intro id n hn _
    rw [(hnodes id n hn).2]
    exact ⟨rfl, rfl⟩
  · intro id n hn hs
    rw [(hnodes id n hn).2] at hs
    exact absurd hs (by simp [rootNode])
  · intro id id' n n' hn _ hs _ _
    rw [(hnodes id n hn).2] at hs
    exact absurd hs (by simp [rootNode])
  · intro id n m hn hk _
    rw [(hnodes id n hn).2] at hk
    exact absurd hk (by simp [rootNode])
  · intro id id' n n' m m' hn _ hk _ _ _ _
    rw [(hnodes id n hn).2] at hk
    exact absurd hk (by simp [rootNode])
  · exact .root

theorem new_models (hint : Nat) : Models (Builder.new hint) (treeOf []) := by
  have hok := new_ok hint
  refine ⟨fun id n p hn hp => ?_, fun p hp => ?_⟩
  · have hlt := hp.lt hok
    have h0 : id = 0 := by simpa [Builder.new] using hlt
    subst h0
    have hpe := hp.path_unique .root
    rw [hok.root] at hn
    injection hn with hn
    rw [hpe, ← hn]
    rfl
  · by_cases hnil : p = []
    · exact ⟨0, by simp [Builder.new], hnil ▸ .root⟩
    · simp [treeOf, Tree.root, hnil] at hp

/-- **The first pass builds the tree of the accepted entries.** -/
theorem addAll_spec (hint : Nat) (entries : List Entry) :
    Sat (fun b => b.Ok ∧ Models b (treeOf (accepted entries)) ∧ b.metas.length ≤ entries.length)
      (addAll hint entries) := by
  refine sat_foldlM (I := fun done b => b.Ok ∧ Models b (treeOf (accepted done)) ∧
    b.metas.length ≤ done.length) ⟨new_ok _, new_models _, Nat.le_refl _⟩ ?_
  intro done e rest b hsplit hI
  obtain ⟨h1, h2, h3⟩ := hI
  rw [List.length_append, List.length_singleton]
  cases he : e.accepted with
  | true =>
      have hcl : accepted (done ++ [e]) = accepted done ++ [e.toClaim] := by
        simp [accepted, List.filter_append, he]
      rw [hcl, treeOf_snoc]
      refine (add_accepted h1 h2 he).mono (fun b' hb' => ?_)
      obtain ⟨a1, a2, a3⟩ := hb'
      exact ⟨a1, a2, by omega⟩
  | false =>
      have hcl : accepted (done ++ [e]) = accepted done := by
        simp [accepted, List.filter_append, he]
      obtain ⟨b', hb', hsame⟩ := add_rejected (b := b) he
      rw [hcl, hb']
      refine ⟨hsame.ok h1, hsame.models h2, ?_⟩
      rw [hsame.metas]
      omega

end ZipFs
