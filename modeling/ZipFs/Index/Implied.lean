import ZipFs.Index.Stats

/-!
# The running count of implied directories

A directory that no entry has declared yet is flagged synthetic and counted. The count
moves in three places: a directory made on the way to a leaf raises it, a file that makes
room for a directory raises it, and the entry that declares an implied directory lowers it.
A leaf is flagged for a moment too, before its entry is attached, and is not counted then.
-/

namespace ZipFs

/-- How many nodes below the root are flagged synthetic. -/
def Builder.implied (b : Builder) : Nat := (b.nodes.drop 1).countP (·.synthetic)

/-- The counter is the number of implied directories. -/
def Builder.Exact (b : Builder) : Prop := b.stats.syntheticDirs = b.implied

section Moves

variable {b b' : Builder} {comps : List Bytes} {lost : List TmpNode} {id : Nat} {n : TmpNode}

theorem implied_grown {parent : Nat} {name : Bytes} (hok : b.Ok) (hg : Grown b parent name b') :
    b'.implied = b.implied + 1 := by
  have hpos : 1 ≤ b.nodes.length := (List.getElem?_eq_some_iff.mp hok.root).1
  unfold Builder.implied
  rw [hg.nodes, List.drop_append_of_le_length hpos, List.countP_append]
  rfl

/-- What replacing one node other than the root does to the number of implied directories. -/
theorem implied_set (hn : b.nodes[id]? = some n) (hid : 0 < id) {n' : TmpNode}
    (hnodes : b'.nodes = b.nodes.set id n') :
    b'.implied + (if n.synthetic then 1 else 0) = b.implied + if n'.synthetic then 1 else 0 := by
  obtain ⟨k, rfl⟩ : ∃ k, id = k + 1 := ⟨id - 1, by omega⟩
  have hget : (b.nodes.drop 1)[k]? = some n := by
    rw [List.getElem?_drop, Nat.add_comm 1 k]
    exact hn
  obtain ⟨hlt, hk⟩ := List.getElem?_eq_some_iff.mp hget
  have hset : b'.nodes.drop 1 = (b.nodes.drop 1).set k n' := by
    rw [hnodes, List.drop_set, if_neg (by omega)]
    rfl
  -- a node that is flagged is one of those counted
  have hone : (if n.synthetic then 1 else 0) ≤ (b.nodes.drop 1).countP (·.synthetic) := by
    split
    · rename_i hs
      exact List.countP_pos_iff.mpr ⟨n, List.mem_of_getElem? hget, hs⟩
    · exact Nat.zero_le _
  unfold Builder.implied
  rw [hset, List.countP_set hlt, hk]
  omega

/-- Anything but the root is below the root. -/
theorem pos_of_node (hok : b.Ok) (hn : b.nodes[id]? = some n) (hne : n ≠ rootNode) : 0 < id := by
  rcases Nat.eq_zero_or_pos id with rfl | hpos
  · exact absurd (Option.some.inj (hn.symm.trans hok.root)) hne
  · exact hpos

/-- A walk counts every directory that it implies. -/
theorem Walked.exact (h : Walked comps b lost b') (hexact : b.Exact) : b'.Exact := by
  induction h with
  | here => exact hexact
  | @made b b₁ b' parent name lost hok _ hg hs _ ih =>
      refine ih ?_
      have himp := implied_grown hok hg
      unfold Builder.Exact at hexact ⊢
      change b₁.stats.syntheticDirs + 1 = b₁.implied
      rw [hs, himp, hexact]
  | @taken b b' id n lost hok hn hk _ ih =>
      refine ih ?_
      have hdeclared : n.synthetic = false := by
        cases hs : n.synthetic with
        | false => rfl
        | true => exact absurd (hok.implied id n hn hs).1 hk
      have hid : 0 < id := pos_of_node hok hn fun hroot => hk (by rw [hroot]; rfl)
      have himp := implied_set hn hid (tookOver_changed hn).nodes
      rw [hdeclared] at himp
      simp only [Bool.false_eq_true, if_false, if_true, Nat.add_zero] at himp
      unfold Builder.Exact at hexact ⊢
      change b.stats.syntheticDirs + 1 = (b.tookOver id n).implied
      rw [himp, hexact]
  | remembered _ ih => exact ih hexact

/-- **The count is above zero when it is lowered.** -/
theorem Builder.Exact.pos (hexact : b.Exact) (hid : 0 < id) (hn : b.nodes[id]? = some n)
    (hs : n.synthetic = true) : 0 < b.stats.syntheticDirs := by
  have hmem : n ∈ b.nodes.drop 1 := by
    obtain ⟨k, rfl⟩ : ∃ k, id = k + 1 := ⟨id - 1, by omega⟩
    refine List.mem_of_getElem? (i := k) ?_
    rw [List.getElem?_drop, Nat.add_comm 1 k]
    exact hn
  rw [hexact]
  exact List.countP_pos_iff.mpr ⟨n, hmem, hs⟩

/-- At the leaf, only the declaration of an implied directory moves the count. -/
theorem Claimed.exact {e : Entry} {leaf : Bytes} (hok : b.Ok) (hok' : b'.Ok)
    (h : Claimed e leaf b b') (hexact : b.Exact) : b'.Exact := by
  cases h with
  | beaten warn => exact hexact
  | @declared id n info count hn hs _ _ _ =>
      have hchanged := attached_changed (b := b.uncountDir) hn e.kind info count
      -- the root stays undeclared
      have hid : 0 < id := by
        rcases Nat.eq_zero_or_pos id with rfl | hpos
        · have := congrArg TmpNode.synthetic (Option.some.inj (hchanged.self.symm.trans hok'.root))
          exact absurd this (by simp [rootNode])
        · exact hpos
      have hpos := hexact.pos hid hn hs
      have himp := implied_set (b := b) hn hid hchanged.nodes
      rw [hs] at himp
      simp only [Bool.false_eq_true, if_false, if_true, Nat.add_zero] at himp
      unfold Builder.Exact at hexact ⊢
      change b.stats.syntheticDirs - 1 = _
      omega
  | @fresh b₁ parent info count hg hs _ =>
      have hpos : 0 < b.nodes.length := (List.getElem?_eq_some_iff.mp hok.root).1
      have hchanged := attached_changed (b := b₁) hg.new e.kind info count
      have himp := implied_set hg.new hpos hchanged.nodes
      have hflag : (freshNode b parent leaf).synthetic = true := rfl
      rw [implied_grown hok hg, hflag] at himp
      simp only [Bool.false_eq_true, if_false, if_true, Nat.add_zero] at himp
      unfold Builder.Exact at hexact ⊢
      change b₁.stats.syntheticDirs = _
      rw [hs]
      omega

/-- **An entry keeps the count exact.** -/
theorem Added.exact {e : Entry} (hok' : b'.Ok) (h : Added e b lost b') (hexact : b.Exact) :
    b'.Exact := by
  cases h with
  | rejected => exact hexact
  | rejectedSize => exact hexact
  | placed _ _ hw hok₁ hc => exact hc.exact hok₁ hok' (hw.exact hexact)

/-- An entry brings at most one metadata record. -/
theorem Walked.metas (h : Walked comps b lost b') : b'.metas = b.metas := by
  induction h with
  | here => rfl
  | made _ _ hg _ _ ih => exact ih.trans hg.metas
  | taken _ _ _ _ ih => exact ih
  | remembered _ ih => exact ih

theorem Added.metas {e : Entry} (h : Added e b lost b') :
    b'.metas.length ≤ b.metas.length + 1 := by
  cases h with
  | rejected => exact Nat.le_succ _
  | rejectedSize => exact Nat.le_succ _
  | placed _ _ hw _ hc =>
      rw [← hw.metas]
      cases hc with
      | beaten warn => exact Nat.le_succ _
      | declared => exact Nat.le_of_eq (List.length_append ..)
      | fresh hg _ _ =>
          rw [← hg.metas]
          exact Nat.le_of_eq (List.length_append ..)

end Moves

/-! ## The whole first pass -/

theorem addAll_exact {hint : Nat} {entries : List Entry} {b : Builder}
    (hrun : addAll hint entries = .ok b) : b.Exact ∧ b.metas.length ≤ entries.length := by
  refine addAll_induction (I := fun done b => b.Exact ∧ b.metas.length ≤ done.length) hrun ?_ ?_
  · exact ⟨rfl, Nat.le_refl _⟩
  · intro done e b b' hok hm hadd hI
    obtain ⟨lost, hadded⟩ := add_added hok hm hadd
    refine ⟨hadded.exact (add_keeps hok hm hadd).1 hI.1, ?_⟩
    have := hadded.metas
    rw [List.length_append, List.length_singleton]
    omega

/-- Every part of a central directory that is added without an error is added without one. -/
theorem addAll_append {hint : Nat} {done rest : List Entry} {b : Builder}
    (hrun : addAll hint (done ++ rest) = .ok b) : ∃ b₁, addAll hint done = .ok b₁ := by
  unfold addAll at hrun ⊢
  rw [List.foldlM_append] at hrun
  obtain ⟨b₁, hb₁, -⟩ := bind_eq_ok hrun
  exact ⟨b₁, hb₁⟩

/-- What the count of a builder stands for. -/
structure Builder.ImpliedExact (b : Builder) : Prop where
  count : b.stats.syntheticDirs = ((b.nodes.drop 1).filter (·.synthetic)).length
  synthetic : ∀ (id : Nat) n, 0 < id → b.nodes[id]? = some n → n.synthetic = true →
    n.kind = .dir ∧ n.metaIdx = NO_META
  declared : ∀ (id : Nat) n, 0 < id → b.nodes[id]? = some n → n.synthetic = false →
    n.metaIdx ≠ NO_META ∧ n.metaIdx < b.metas.length
  /-- An entry that declares an implied directory finds the count above zero. -/
  lowered : ∀ (e : Entry) parentPath leaf b₁ parent b₂ id n, e.accepted = true →
    splitParent (normalizePath e.path) = (parentPath, leaf) →
    b.resolveParent parentPath = .ok (b₁, parent) → b₁.intern parent leaf = .ok (b₂, id, false) →
    b₂.nodes[id]? = some n → n.synthetic = true → 0 < b₂.stats.syntheticDirs
  /-- Counting again in the finished index gives the same number. -/
  recount : ∀ idx, b.finish = .ok idx →
    ((idx.nodes.drop 2).filter (·.synthetic)).length = b.stats.syntheticDirs

/-- Counting the flags of the finished index, past the sentinel and the root. -/
theorem Finished.recount {b : Builder} {idx : Index} {order : List Nat} (hok : b.Ok)
    (hf : Finished b idx order) : (idx.nodes.drop 2).countP (·.synthetic) = b.implied := by
  have hall : (idx.nodes.drop 1).countP (·.synthetic) = b.nodes.countP (·.synthetic) :=
    hf.countP_eq fun j id t N hN => hN.synthetic
  obtain ⟨t, N, ht, hN, hfin⟩ := hf.node 0 0 hf.root_at
  obtain rfl := Option.some.inj (ht.symm.trans hok.root)
  obtain ⟨hlt, hget⟩ := List.getElem?_eq_some_iff.mp hN
  obtain ⟨hlt', hget'⟩ := List.getElem?_eq_some_iff.mp hok.root
  -- the root is flagged on both sides
  have hleft : (idx.nodes.drop 1).countP (·.synthetic) =
      (idx.nodes.drop 2).countP (·.synthetic) + 1 := by
    rw [List.drop_eq_getElem_cons (by omega : 1 < idx.nodes.length), List.countP_cons]
    simp [hget, hfin.synthetic, rootNode]
  have hright : b.nodes.countP (·.synthetic) = b.implied + 1 := by
    rw [← List.drop_zero (l := b.nodes), List.drop_eq_getElem_cons hlt', List.countP_cons, hget']
    rfl
  omega

/--
**The count of implied directories is exact after every entry.** After every part of a
central directory it is the number of nodes below the root that are flagged synthetic; these
are directories without metadata, and every other node has an index of the metadata; it is
above zero when it is lowered; and counting again in the finished index changes nothing.
-/
theorem synthetic_dirs_exact {hint : Nat} {entries : List Entry} {b : Builder}
    (hrun : addAll hint entries = .ok b) (hfew : entries.length < 2 ^ 32 - 1) :
    ∀ done, done <+: entries → ∃ b, addAll hint done = .ok b ∧ b.ImpliedExact := by
  rintro done ⟨rest, rfl⟩
  obtain ⟨b, hb⟩ := addAll_append hrun
  obtain ⟨hexact, hmetas⟩ := addAll_exact hb
  obtain ⟨hok, hm, -⟩ := (addAll_spec hint done).elim hb
  refine ⟨b, hb, ?_, fun id n _ => hok.implied id n, ?_, ?_, ?_⟩
  · rw [← List.countP_eq_length_filter]
    exact hexact
  · intro id n _ hn hs
    have hlt := hok.claimed id n hn hs
    refine ⟨?_, hlt⟩
    rw [List.length_append] at hfew
    unfold NO_META
    omega
  · intro e parentPath leaf b₁ parent b₂ id n he hsplit hparent hintern hn hs
    simp only [Entry.accepted, Bool.and_eq_true, Option.isNone_iff_eq_none] at he
    obtain ⟨cs, l, -, hl, hnames, hsplit'⟩ := splitParent_normalizePath he.1.1
    obtain ⟨rfl, rfl⟩ := Prod.mk.inj (hsplit'.symm.trans hsplit)
    obtain ⟨lost, hw⟩ := resolveParent_walked hok hm hnames hparent
    have hok₁ := ((resolveParent_spec hok hm hnames).elim hparent).1
    rcases (intern_spec hok₁ parent l).elim hintern with ⟨-, hsame, hid, -⟩ | ⟨hf, -⟩
    · dsimp only at hsame hid
      subst hsame
      exact (hw.exact hexact).pos hid hn hs
    · exact absurd hf (by simp)
  · intro idx hidx
    obtain ⟨order, hf⟩ := (finish_spec (.inl trivial) hok).elim hidx
    rw [← List.countP_eq_length_filter, hf.recount hok]
    exact hexact.symm

/-- The file `a`, then `a/b`: the count is zero after the first and one after the second. -/
theorem synthetic_dirs_exact_sample :
    ∃ b₁ b₂, addAll 2 [fileA] = .ok b₁ ∧ addAll 2 [fileA, fileAB] = .ok b₂ ∧
      b₁.stats.syntheticDirs = 0 ∧ b₂.stats.syntheticDirs = 1 ∧
      ((b₂.nodes.drop 1).filter (·.synthetic)).length = 1 := by
  obtain ⟨b, hb, hs⟩ := exists_ok_of_map
    (show (addAll 2 [fileA, fileAB]).toOption.map (fun b => b.stats.syntheticDirs) = some 1 by
      decide +kernel)
  obtain ⟨b', hb', hs'⟩ := exists_ok_of_map
    (show (addAll 2 [fileA]).toOption.map (fun b => b.stats.syntheticDirs) = some 0 by
      decide +kernel)
  obtain ⟨b₂, hb₂, hexact⟩ :=
    synthetic_dirs_exact hb (by decide) [fileA, fileAB] (List.prefix_refl _)
  obtain rfl := Except.ok.inj (hb.symm.trans hb₂)
  exact ⟨b', b, hb', hb, hs', hs, hexact.count.symm.trans hs⟩

end ZipFs
