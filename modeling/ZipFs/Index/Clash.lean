import ZipFs.Index.Records

/-!
# A directory and a file of one name

What becomes of a name that one entry makes a file and another a directory: when the
directory comes out on top, and when it does not.
-/

namespace ZipFs

/-- An explicit directory entry for `p`. -/
def Entry.isDirAt (p : List Bytes) (e : Entry) : Bool := e.isDir && components e.path == p

/-- Some entry makes `p` a directory: one of its own, or one below it. -/
def MadeDir (A : List Entry) (p : List Bytes) : Prop :=
  (∃ e ∈ A, e.isDirAt p = true) ∨ ∃ e ∈ A, Above p (components e.path)

/-- `p` is a directory, with the metadata of the first explicit directory entry for it. -/
def DirKept (A : List Entry) (idx : Index) (p : List Bytes) : Prop :=
  ∃ ino n, idx.walk p ROOT_INO = some (some ino) ∧ idx.node ino = some n ∧ n.kind = .dir ∧
    (idx.metaOf n).map EntryMeta.bare = (A.find? (Entry.isDirAt p)).map (fun e => e.info.bare)

/--
The directory entry comes in time. When the first explicit directory entry for
`p` is reached, no file or symlink holds the name, or an entry below `p` has already
turned it into a directory. The last case is an accident: the entry is lost, an entry
below makes the directory anyway, and the next explicit entry after that says the
same as the lost one.
-/
def DirInTime (A : List Entry) (p : List Bytes) : Prop :=
  ∀ pre e post, A = pre ++ e :: post → e.isDirAt p = true → (∀ d ∈ pre, d.isDirAt p = false) →
    (∀ d ∈ pre, components d.path ≠ p) ∨ (∃ d ∈ pre, Above p (components d.path)) ∨
    (((post.dropWhile (fun d => decide (¬ Above p (components d.path)))).tail).find?
      (Entry.isDirAt p)).map (fun d => d.info.bare) = some e.info.bare

section

variable {p : List Bytes} {A : List Entry}

theorem declares_toClaim (p : List Bytes) (e : Entry) : e.toClaim.declares p = e.isDirAt p := by
  have hk : e.kind = .dir ↔ e.isDir = true := by
    rw [Entry.kind]
    split
    · simp [*]
    · split <;> simp [*]
  rw [Claim.declares, Entry.isDirAt, Bool.eq_iff_iff]
  simp [Entry.toClaim, hk]

theorem find?_toClaim (p : List Bytes) (A : List Entry) :
    (A.map Entry.toClaim).find? (Claim.declares p) =
    (A.find? (Entry.isDirAt p)).map Entry.toClaim := by
  rw [List.find?_map]
  congr 2
  funext e
  exact declares_toClaim p e

/-- The accident, on entries and on claims. -/
theorem afterBelow_map (p : List Bytes) (post : List Entry) :
    afterBelow p (post.map Entry.toClaim) =
      ((post.dropWhile (fun d => decide (¬ Above p (components d.path)))).tail).map
        Entry.toClaim := by
  rw [afterBelow, List.dropWhile_map, List.map_tail]
  rfl

/-- What the tree has at a path that some entry makes a directory. -/
theorem treeOf_kept_iff (hA : ∀ e ∈ A, components e.path ≠ []) (hmade : MadeDir A p) :
    treeOf (A.map Entry.toClaim) p =
        some ⟨.dir, (A.find? (Entry.isDirAt p)).map (fun e => e.info.bare)⟩ ↔ DirInTime A p := by
  -- for one way of splitting at the first directory entry
  have hsplit : ∀ pre e post, A = pre ++ e :: post → e.isDirAt p = true →
      (∀ d ∈ pre, d.isDirAt p = false) →
      A.find? (Entry.isDirAt p) = some e ∧
      (treeOf (A.map Entry.toClaim) p = some ⟨.dir, some e.info.bare⟩ ↔
        (∀ d ∈ pre, components d.path ≠ p) ∨ (∃ d ∈ pre, Above p (components d.path)) ∨
        (((post.dropWhile (fun d => decide (¬ Above p (components d.path)))).tail).find?
          (Entry.isDirAt p)).map (fun d => d.info.bare) = some e.info.bare) := by
    intro pre e post hAe he hpre
    refine ⟨?_, ?_⟩
    · rw [hAe, List.find?_append, List.find?_eq_none.mpr (by simpa using hpre),
        List.find?_cons_of_pos he]
      rfl
    · have hp : p ≠ [] := by
        have hc : components e.path = p := by
          simpa [Entry.isDirAt] using (Bool.and_eq_true_iff.mp he).2
        rw [← hc]
        exact hA e (by rw [hAe]; simp)
      rw [hAe, List.map_append, List.map_cons, show e.info.bare = e.toClaim.info.bare from rfl,
        treeOf_declared hp (fun c hc => ?_) (by rw [declares_toClaim]; exact he), afterBelow_map,
        find?_toClaim, Option.map_map]
      · rw [List.forall_mem_map]
        simp only [List.mem_map, exists_exists_and_eq_and]
        rfl
      · obtain ⟨d, hd, rfl⟩ := List.mem_map.mp hc
        rw [declares_toClaim]
        exact hpre d hd
  constructor
  · intro hT pre e post hAe he hpre
    obtain ⟨hfind, hiff⟩ := hsplit pre e post hAe he hpre
    rw [hfind] at hT
    exact hiff.mp hT
  · intro hin
    cases hfind : A.find? (Entry.isDirAt p) with
    | some e =>
        obtain ⟨he, pre, post, hAe, hpre⟩ := List.find?_eq_some_iff_append.mp hfind
        have hpre' : ∀ d ∈ pre, d.isDirAt p = false := fun d hd => by simpa using hpre d hd
        exact (hsplit pre e post hAe he hpre').2.mpr (hin pre e post hAe he hpre')
    | none =>
        have hnone := List.find?_eq_none.mp hfind
        rcases hmade with ⟨e, he, hd⟩ | ⟨e, he, hab⟩
        · exact absurd hd (hnone e he)
        · refine treeOf_undeclared (fun c hc => ?_) (List.mem_map_of_mem he) hab
          obtain ⟨d, hd, rfl⟩ := List.mem_map.mp hc
          rw [declares_toClaim]
          simpa using hnone d hd

end

/-- A directory that a walk finds with metadata is what the tree has there. -/
theorem Built.tree_of_kept {entries : List Entry} {idx : Index} {b : Builder} {order : List Nat}
    (h : Built entries idx b order) {p : List Bytes}
    (hk : DirKept (entries.filter Entry.accepted) idx p) {e : Entry}
    (he : (entries.filter Entry.accepted).find? (Entry.isDirAt p) = some e) :
    treeOf (accepted entries) p = some ⟨.dir, some e.info.bare⟩ := by
  obtain ⟨ino, n, hw, hn, hkind, hmeta⟩ := hk
  rw [he] at hmeta
  obtain ⟨r, hr, hiff⟩ := h.finished.walk_root h.ok p
  rw [hw] at hr
  injection hr with hr
  obtain ⟨j, id, rfl, hj, hp⟩ := (hiff ino).mp hr.symm
  obtain ⟨t, N, ht, hN, hfin⟩ := h.finished.node_at hj
  rw [hn] at hN
  injection hN with hN
  subst hN
  rw [h.models.at_node id t p ht hp, infoOf, ← hfin.kind, hkind]
  -- a node with metadata is not an implied one
  rw [Index.metaOf, hfin.metaIdx, h.finished.metas] at hmeta
  split at hmeta
  · exact absurd hmeta (by simp)
  rename_i hne
  cases hs : t.synthetic with
  | true => exact absurd (h.ok.implied id t ht hs).2 hne
  | false => rw [if_neg (by simp), hmeta]; rfl

/--
**When a directory wins.** A path that some accepted entry makes a directory is
kept as one, with the metadata of its first explicit entry, exactly when that entry
comes in time. Only the "if" needs fewer than `2 ^ 32` entries to be given a metadata
record: the last of so many gets the index that means "none".
-/
theorem build_dir_kept_iff {hint : Nat} {entries : List Entry} {idx : Index} {stats : BuildStats}
    (hb : build hint entries = .ok (idx, stats)) {p : List Bytes}
    (hmade : MadeDir (entries.filter Entry.accepted) p) :
    (DirKept (entries.filter Entry.accepted) idx p →
      DirInTime (entries.filter Entry.accepted) p) ∧
    (attachedCount (accepted entries) < 2 ^ 32 → DirInTime (entries.filter Entry.accepted) p →
      DirKept (entries.filter Entry.accepted) idx p) := by
  obtain ⟨b, order, hrun, hbuilt, -⟩ := build_passes hb
  have hiff := treeOf_kept_iff (fun e he => components_ne_nil he) hmade
  constructor
  · intro hk
    cases hfind : (entries.filter Entry.accepted).find? (Entry.isDirAt p) with
    | none =>
        -- no explicit entry, so none that could be late
        intro pre e post hsplit he _
        have := List.find?_eq_none.mp hfind e (by rw [hsplit]; simp)
        exact absurd he this
    | some e =>
        rw [hfind] at hiff
        exact hiff.mp (hbuilt.tree_of_kept hk hfind)
  · intro hfew hin
    have hroom : b.metas.length ≤ NO_META := by
      rw [(addAll_recorder hrun).count, NO_META]
      omega
    obtain ⟨ino, n, hw, hn, hk, hm⟩ := hbuilt.at_path hroom (hiff.mpr hin)
    exact ⟨ino, n, hw, hn, hk, hm⟩

/-- A directory that wants the name of the file `a`. -/
def dirA : Entry := ⟨[97, 47], true, storedMeta 0 0o040755⟩

theorem build_dir_kept_iff_dir_first : ∃ idx stats, build 2 [dirA, fileA] = .ok (idx, stats) ∧
    DirKept ([dirA, fileA].filter Entry.accepted) idx [[97]] := by
  have hrun : (build 2 [dirA, fileA]).toOption.map (fun _ => ()) = some () := by decide +kernel
  obtain ⟨⟨idx, stats⟩, hb, -⟩ := exists_ok_of_map hrun
  have hacc : [dirA, fileA].filter Entry.accepted = [dirA, fileA] := by decide +kernel
  have hat : dirA.isDirAt [[97]] = true := by decide +kernel
  refine ⟨idx, stats, hb, (build_dir_kept_iff hb ?_).2 (by decide) ?_⟩
  · rw [hacc]
    exact Or.inl ⟨dirA, by simp, hat⟩
  · rw [hacc]
    intro pre e post hsplit he hpre
    -- the directory entry is the very first
    cases pre with
    | nil => exact Or.inl (by simp)
    | cons d pre =>
        injection hsplit with h1 _
        have := hpre d List.mem_cons_self
        rw [← h1, hat] at this
        exact absurd this (by simp)

/-- A directory entry that comes after a file of that name is dropped, and the file is kept. -/
theorem dir_after_file_lost : ∃ idx stats, build 2 [fileA, dirA] = .ok (idx, stats) ∧
    MadeDir ([fileA, dirA].filter Entry.accepted) [[97]] ∧
    ¬ DirKept ([fileA, dirA].filter Entry.accepted) idx [[97]] := by
  have hrun : (build 2 [fileA, dirA]).toOption.map
      (fun r => (r.1.walk [[97]] ROOT_INO, (r.1.node 2).map Node.kind)) =
      some (some (some 2), some .file) := by decide +kernel
  obtain ⟨⟨idx, stats⟩, hb, hw⟩ := exists_ok_of_map hrun
  injection hw with hw hn
  refine ⟨idx, stats, hb, ?_, ?_⟩
  · refine Or.inl ⟨dirA, ?_, by decide +kernel⟩
    rw [show [fileA, dirA].filter Entry.accepted = [fileA, dirA] by decide +kernel]
    simp
  · rintro ⟨ino, n, hw', hn', hk, -⟩
    rw [hw] at hw'
    injection hw' with hw'
    injection hw' with hw'
    rw [← hw'] at hn'
    rw [hn', Option.map_some] at hn
    injection hn with hn
    rw [hk] at hn
    exact absurd hn (by simp)

end ZipFs
