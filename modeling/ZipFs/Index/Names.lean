import ZipFs.Index.Closure

/-!
# No hostile names

Paths are validated as they come out of the archive, while nodes are made from a
normalised copy that is split again, partly through a memo. That all of these agree
on the components of a path is `Builder.Ok` and `Models`; here it is turned into what
a mount shows: which names there are and how deep they lie, and that an entry that is
refused leaves no trace but a count.
-/

namespace ZipFs

/-- Following parents up from an inode, `d` times. -/
def Index.up (idx : Index) : Nat → Nat → Option Nat
  | 0, ino => some ino
  | d + 1, ino =>
      match idx.node ino with
      | none => none
      | some n => idx.up d n.parent

/-- The root is reached after exactly `d` steps up, and not before. -/
def Index.HasDepth (idx : Index) (ino d : Nat) : Prop :=
  idx.up d ino = some ROOT_INO ∧ ∀ d', d' < d → idx.up d' ino ≠ some ROOT_INO

/-- A name that a mount can show. -/
def SafeName (nm : Bytes) : Prop :=
  1 ≤ nm.length ∧ nm.length ≤ MAX_COMPONENT ∧ SEP ∉ nm ∧ (0 : UInt8) ∉ nm ∧ nm ≠ DOT ∧ nm ≠ DOTDOT

section

variable {entries : List Entry} {idx : Index} {b : Builder} {order : List Nat}

/-- A node is as deep as its path is long. -/
theorem Finished.hasDepth (hf : Finished b idx order) {id : Nat} {p : List Bytes}
    (hp : PathOf b.nodes b.names id p) {j : Nat} (hj : order[j]? = some id) :
    idx.HasDepth (j + 1) p.length := by
  induction hp generalizing j with
  | root =>
      rw [hf.place_unique hj hf.root_at]
      exact ⟨rfl, fun d' hd => absurd hd (Nat.not_lt_zero d')⟩
  | @child id parent name q hpos hk _ ih =>
      obtain ⟨t, N, ht, hN, hfin⟩ := hf.node_at hj
      obtain ⟨t', ht', hpar, -⟩ := hk
      rw [ht] at ht'
      injection ht' with ht'
      subst ht'
      obtain ⟨j', hj', he⟩ := hfin.parent
      rw [hpar] at hj'
      obtain ⟨h1, h2⟩ := ih hj'
      rw [List.length_append, List.length_singleton]
      refine ⟨?_, fun d' hd => ?_⟩
      · rw [Index.up, hN]
        simp only [he]
        exact h1
      · cases d' with
        | zero =>
            rw [Index.up]
            intro hroot
            injection hroot with hroot
            have h0 : j = 0 := by
              rw [ROOT_INO] at hroot
              omega
            subst h0
            rw [hf.root_at] at hj
            injection hj with hj
            omega
        | succ d' =>
            rw [Index.up, hN]
            simp only [he]
            exact h2 d' (by omega)

/-- Every path of the tree is made of names of accepted entries. -/
theorem names_of_treeOf {p : List Bytes} (hp : (treeOf (accepted entries) p).isSome) :
    p.length ≤ MAX_DEPTH ∧ ∀ c ∈ p, IsName c := by
  rcases treeOf_isSome.mp hp with rfl | ⟨c, hc, hpre⟩
  · exact ⟨Nat.zero_le _, fun c hc => absurd hc List.not_mem_nil⟩
  · obtain ⟨e, he, rfl⟩ := mem_accepted.mp hc
    have hacc := (List.mem_filter.mp he).2
    simp only [Entry.accepted, Bool.and_eq_true, Option.isNone_iff_eq_none] at hacc
    refine ⟨Nat.le_trans hpre.length_le (depth_of_accepted hacc.1.1).2, fun c hc => ?_⟩
    exact isName_of_accepted hacc.1.1 (hpre.subset hc)

theorem safeName_of_isName {nm : Bytes} (h : IsName nm) : SafeName nm := by
  refine ⟨?_, h.length_le, h.sep_not_mem, h.nul_not_mem, h.ne_dot, h.ne_dotdot⟩
  exact List.length_pos_iff.mpr h.ne_nil

theorem Built.safe (h : Built entries idx b order) {ino : Nat} {n : Node}
    (hn : idx.node ino = some n) (hroot : ino ≠ ROOT_INO) :
    (∃ nm, idx.name n = some nm ∧ SafeName nm) ∧
      ∃ d, 1 ≤ d ∧ d ≤ MAX_DEPTH ∧ idx.HasDepth ino d := by
  have hf := h.finished
  obtain ⟨j, id, t, rfl, hj, ht, hfin⟩ := hf.node_cases hn
  have hlt := (hf.mem_iff id).mp (List.mem_of_getElem? hj)
  obtain ⟨p, hp⟩ := h.ok.exists_path id hlt
  have hsome : (treeOf (accepted entries) p).isSome := by
    rw [h.models.at_node id t p ht hp]
    rfl
  obtain ⟨hlen, hnames⟩ := names_of_treeOf hsome
  have hdepth := hf.hasDepth hp hj
  cases hp with
  | root => exact absurd (by rw [hf.place_unique hj hf.root_at]; rfl) hroot
  | @child _ parent name q hpos hk hq =>
      refine ⟨⟨name, ?_, safeName_of_isName (hnames name (by simp))⟩, _, ?_, hlen, hdepth⟩
      · rw [hf.name_eq h.ok hj ht hfin, (hk.unique (h.ok.treelike.nameOf_spec hlt)).2]
      · rw [List.length_append, List.length_singleton]
        omega

end

/-! ## A refused entry leaves nothing behind -/

section Reject

variable {b : Builder}

/-- Nothing that the first pass does looks at what has been refused so far. -/
theorem intern_reject (parent : Nat) (name : Bytes) :
    b.reject.intern parent name = (fun r => (r.1.reject, r.2)) <$> b.intern parent name := by
  rw [Builder.intern, Builder.intern, map_bind]
  refine bind_congr (fun r => ?_)
  cases r with
  | some id => rfl
  | none => simp only [map_bind, map_pure]; rfl

theorem takeOverAsDir_reject (id : Nat) :
    b.reject.takeOverAsDir id = Builder.reject <$> b.takeOverAsDir id := by
  rw [Builder.takeOverAsDir, Builder.takeOverAsDir]
  simp only [map_bind, map_pure]
  rfl

theorem resolveComponent_reject (cur : Nat) (comp : Bytes) :
    b.reject.resolveComponent cur comp =
      (fun r => (r.1.reject, r.2)) <$> b.resolveComponent cur comp := by
  rw [Builder.resolveComponent, Builder.resolveComponent, intern_reject, bind_map_left, map_bind]
  refine bind_congr (fun r => ?_)
  obtain ⟨b1, id, fresh⟩ := r
  simp only
  split
  · rfl
  · rw [map_bind]
    refine bind_congr (fun node => ?_)
    split
    · rw [takeOverAsDir_reject, bind_map_left, map_bind]
      rfl
    · rfl

theorem resolveLoop_reject (comps : List Bytes) (cur : Nat) :
    Builder.resolveLoop comps b.reject cur =
      (fun r => (r.1.reject, r.2)) <$> Builder.resolveLoop comps b cur := by
  induction comps generalizing b cur with
  | nil => rfl
  | cons c cs ih =>
      rw [Builder.resolveLoop, Builder.resolveLoop, resolveComponent_reject, bind_map_left,
        map_bind]
      exact bind_congr (fun r => ih r.2)

theorem resolveParent_reject (path : Bytes) :
    b.reject.resolveParent path = (fun r => (r.1.reject, r.2)) <$> b.resolveParent path := by
  rw [Builder.resolveParent, Builder.resolveParent]
  show (if path = b.memoPath then _ else _) = _
  split
  · rfl
  · rw [resolveLoop_reject, bind_map_left, map_bind]
    rfl

theorem attach_reject (id : Nat) (kind : NodeKind) (info : EntryMeta) :
    b.reject.attach id kind info = Builder.reject <$> b.attach id kind info := by
  rw [Builder.attach, Builder.attach]
  simp only [map_bind, map_pure]
  rfl

theorem claim_reject (id : Nat) (fresh : Bool) (kind : NodeKind) (info : EntryMeta) :
    b.reject.claim id fresh kind info = Builder.reject <$> b.claim id fresh kind info := by
  rw [Builder.claim, Builder.claim]
  split
  · exact attach_reject id kind info
  · rw [map_bind]
    refine bind_congr (fun existing => ?_)
    split
    · rfl
    split
    · rfl
    split
    · rfl
    · exact attach_reject
        (b := { b with stats := { b.stats with syntheticDirs := b.stats.syntheticDirs - 1 } })
        id kind info

theorem add_reject (e : Entry) : b.reject.add e = Builder.reject <$> b.add e := by
  rw [Builder.add, Builder.add]
  split
  · rfl
  split
  · rfl
  split
  · rfl
  · simp only
    rw [resolveParent_reject, bind_map_left, map_bind]
    refine bind_congr (fun r => ?_)
    simp only
    rw [intern_reject, bind_map_left, map_bind]
    refine bind_congr (fun r' => ?_)
    exact claim_reject _ _ _ _

theorem foldlM_add_reject (entries : List Entry) :
    entries.foldlM Builder.add b.reject = Builder.reject <$> entries.foldlM Builder.add b := by
  induction entries generalizing b with
  | nil => rfl
  | cons e entries ih =>
      rw [List.foldlM_cons, List.foldlM_cons, add_reject, bind_map_left, map_bind]
      exact bind_congr (fun b' => ih)

theorem add_hostile {e : Entry} (he : Hostile e.path) : b.add e = .ok b.reject := by
  have hsome : (rejectReason e.path).isSome = true := by
    rw [← Option.ne_none_iff_isSome]
    exact fun hnone => rejectReason_eq_none_iff.mp hnone he
  rw [Builder.add, if_pos hsome]
  rfl

/-- One more refused path. -/
def BuildStats.oneRejected (stats : BuildStats) : BuildStats :=
  { stats with rejectedPaths := stats.rejectedPaths + 1 }

theorem addAll_hostile (hint : Nat) (pre post : List Entry) {e : Entry} (he : Hostile e.path) :
    addAll hint (pre ++ e :: post) = Builder.reject <$> addAll hint (pre ++ post) := by
  rw [addAll, addAll, List.foldlM_append, List.foldlM_append, map_bind]
  refine bind_congr (fun b => ?_)
  rw [List.foldlM_cons, add_hostile he]
  exact foldlM_add_reject post

theorem build_hostile (hint : Nat) (pre post : List Entry) {e : Entry} (he : Hostile e.path) :
    build hint (pre ++ e :: post) =
      (fun r => (r.1, r.2.oneRejected)) <$> build hint (pre ++ post) := by
  rw [build, build, addAll_hostile hint pre post he, bind_map_left, map_bind]
  refine bind_congr (fun b => ?_)
  rw [map_bind]
  rfl

end Reject

/--
**No archive can put a hostile name in the mount.** Every node has a safe name and a
bounded depth, and a hostile entry might as well not be there: leaving it out of the
archive changes nothing but the number of refused paths.
-/
theorem build_names_safe (hint : Nat) (entries : List Entry) :
    (∀ idx stats, build hint entries = .ok (idx, stats) → ∀ ino n, idx.node ino = some n →
      ino ≠ ROOT_INO → (∃ nm, idx.name n = some nm ∧ SafeName nm) ∧
        ∃ d, 1 ≤ d ∧ d ≤ MAX_DEPTH ∧ idx.HasDepth ino d) ∧
    (∀ pre e post, entries = pre ++ e :: post → Hostile e.path →
      build hint entries = (fun r => (r.1, r.2.oneRejected)) <$> build hint (pre ++ post)) := by
  refine ⟨fun idx stats hb ino n hn hroot => ?_, fun pre e post hsplit he => ?_⟩
  · obtain ⟨b, order, hbuilt⟩ := (build_spec hint entries).elim hb
    exact hbuilt.safe hn hroot
  · rw [hsplit]
    exact build_hostile hint pre post he

/-- `../a` among good entries. -/
theorem build_names_safe_sample : ∃ idx stats,
    build 3 (sampleEntries ++ [⟨[46, 46, 47, 97], false, storedMeta 1 0o100644⟩]) =
      .ok (idx, stats) ∧
    stats.rejectedPaths = 1 ∧
      (∃ n, idx.node 2 = some n ∧ ∃ nm, idx.name n = some nm ∧ SafeName nm) ∧
    build 3 (sampleEntries ++ []) = .ok (idx, { stats with rejectedPaths := 0 }) := by
  have hsafe := build_names_safe 3
    (sampleEntries ++ [⟨[46, 46, 47, 97], false, storedMeta 1 0o100644⟩])
  have hrun : (build 3 sampleEntries).toOption.map (fun r => (r.2.rejectedPaths, r.1.len)) =
      some (0, 6) := by decide +kernel
  obtain ⟨⟨idx, stats⟩, hb, hr⟩ := exists_ok_of_map hrun
  injection hr with hr hl
  have hfull := hsafe.2 sampleEntries _ [] rfl (Or.inl (by decide +kernel))
  rw [List.append_nil, hb] at hfull
  refine ⟨idx, stats.oneRejected, hfull, congrArg (· + 1) hr, ?_, ?_⟩
  · have hlen : idx.nodes.length = 6 := hl
    have hlt : 2 < idx.nodes.length := by omega
    have hn : idx.node 2 = some idx.nodes[2] := List.getElem?_eq_getElem hlt
    exact ⟨_, hn, (hsafe.1 idx _ hfull 2 _ hn (by decide)).1⟩
  · rw [List.append_nil, hb, ← hr]
    rfl

end ZipFs
