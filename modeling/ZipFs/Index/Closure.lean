import ZipFs.Index.Invariant

/-!
# Which paths there are, and what is at them

The tree a walk through the finished index sees, in terms of the entries of the
central directory. `PrefixClosure` says which component lists lead somewhere and
what they lead to.
-/

namespace ZipFs

/-- The index holds the prefix closure of the entries `A`. -/
structure PrefixClosure (A : List Entry) (idx : Index) : Prop where
  /-- A walk never fails, and leads somewhere exactly along the prefixes. -/
  walk_iff : ∀ p, ∃ r, idx.walk p ROOT_INO = some r ∧
    (r.isSome ↔ p = [] ∨ ∃ e ∈ A, p <+: components e.path)
  walk_inj : ∀ p q ino, idx.walk p ROOT_INO = some (some ino) →
    idx.walk q ROOT_INO = some (some ino) → p = q
  walk_surj : ∀ ino, 1 ≤ ino → ino < idx.len → ∃ p, idx.walk p ROOT_INO = some (some ino)
  /-- Above an entry there are directories. -/
  above : ∀ p ino, idx.walk p ROOT_INO = some (some ino) →
    (∃ e ∈ A, Above p (components e.path)) → ∃ n, idx.node ino = some n ∧ n.kind = .dir
  /-- Elsewhere the first entry decides. -/
  first : ∀ pre e post, A = pre ++ e :: post →
    (∀ d ∈ pre, components d.path ≠ components e.path) →
    (∀ d ∈ A, ¬ Above (components e.path) (components d.path)) →
    ∃ ino n, idx.walk (components e.path) ROOT_INO = some (some ino) ∧ idx.node ino = some n ∧
      n.kind = e.kind ∧ (idx.metaOf n).map EntryMeta.bare = some e.info.bare

section

variable {entries : List Entry} {idx : Index} {b : Builder} {order : List Nat}

theorem mem_accepted {c : Claim} :
    c ∈ accepted entries ↔ ∃ e ∈ entries.filter Entry.accepted, e.toClaim = c := List.mem_map

/-- No accepted entry names the root. -/
theorem components_ne_nil {e : Entry} (he : e ∈ entries.filter Entry.accepted) :
    components e.path ≠ [] := by
  have := (List.mem_filter.mp he).2
  simp only [Entry.accepted, Bool.and_eq_true, Option.isNone_iff_eq_none] at this
  exact (depth_of_accepted this.1.1).1

/-- The node at the end of a walk, and what the tree has there. -/
theorem Built.at_path (h : Built entries idx b order) (hroom : b.metas.length ≤ NO_META)
    {p : List Bytes} {i : Info} (hi : treeOf (accepted entries) p = some i) :
    ∃ ino n, idx.walk p ROOT_INO = some (some ino) ∧ idx.node ino = some n ∧ n.kind = i.kind ∧
      (idx.metaOf n).map EntryMeta.bare = i.entry := by
  obtain ⟨r, hr, hsome, hat⟩ := h.finished.walk_tree h.ok h.models p
  obtain ⟨ino, rfl⟩ := Option.isSome_iff_exists.mp (hsome.mpr (by rw [hi]; rfl))
  obtain ⟨n, hn, hT⟩ := hat ino rfl
  have heq := hT hroom
  rw [hi] at heq
  injection heq with heq
  exact ⟨ino, n, hr, hn, by rw [heq], by rw [heq]⟩

theorem Built.prefixClosure (h : Built entries idx b order) (hlen : entries.length < 2 ^ 32 - 1) :
    PrefixClosure (entries.filter Entry.accepted) idx := by
  refine ⟨fun p => ?_, fun p q ino hp hq => h.finished.walk_inj h.ok hp hq,
    fun ino h1 hlt => h.finished.walk_surj h.ok h1 hlt, fun p ino hw hab => ?_,
    fun pre e post hA hfirst hno => ?_⟩
  · obtain ⟨r, hr, hsome, -⟩ := h.finished.walk_tree h.ok h.models p
    refine ⟨r, hr, hsome.trans (treeOf_isSome.trans (or_congr_right ?_))⟩
    simp only [mem_accepted]
    constructor
    · rintro ⟨c, ⟨e, he, rfl⟩, hp⟩
      exact ⟨e, he, hp⟩
    · rintro ⟨e, he, hp⟩
      exact ⟨e.toClaim, ⟨e, he, rfl⟩, hp⟩
  · obtain ⟨e, he, hab⟩ := hab
    obtain ⟨i, hi, hd⟩ := treeOf_above (mem_accepted.mpr ⟨e, he, rfl⟩) hab
    obtain ⟨ino', n, hw', hn, hk, -⟩ := h.at_path (h.room hlen) hi
    rw [hw] at hw'
    injection hw' with hw'
    injection hw' with hw'
    exact ⟨n, hw' ▸ hn, hk.trans hd⟩
  · have he : e ∈ entries.filter Entry.accepted := by rw [hA]; simp
    have hsplit :
      accepted entries = pre.map Entry.toClaim ++ e.toClaim :: post.map Entry.toClaim := by
      rw [accepted, hA, List.map_append, List.map_cons]
    have hT : treeOf (accepted entries) e.toClaim.comps =
        some ⟨e.toClaim.kind, some e.toClaim.info.bare⟩ := by
      rw [hsplit]
      refine treeOf_first (components_ne_nil he) (fun d hd => ?_) (fun d hd => ?_)
      · obtain ⟨d', hd', rfl⟩ := List.mem_map.mp hd
        exact hfirst d' hd'
      · rw [← hsplit] at hd
        obtain ⟨d', hd', rfl⟩ := mem_accepted.mp hd
        exact hno d' hd'
    exact h.at_path (h.room hlen) hT

end

/--
**The tree is the prefix closure of the accepted entries.** An archive that fits
is indexed, and what it is indexed as depends on the accepted entries alone.
-/
theorem build_prefix_closure (hint : Nat) {entries : List Entry}
    (hlen : entries.length < 2 ^ 32 - 1)
    (hfit : ∀ what, build hint entries ≠ .error (.indexTooLarge what)) :
    ∃ idx stats, build hint entries = .ok (idx, stats) ∧
      PrefixClosure (entries.filter Entry.accepted) idx := by
  obtain ⟨⟨idx, stats⟩, hb, b, order, hbuilt⟩ := (build_spec hint entries).exists_ok hfit
  exact ⟨idx, stats, hb, hbuilt.prefixClosure hlen⟩

theorem build_prefix_closure_sample : ∃ idx stats, build 3 sampleEntries = .ok (idx, stats) ∧
    PrefixClosure (sampleEntries.filter Entry.accepted) idx := by
  refine build_prefix_closure 3 (by decide) (fun what hw => ?_)
  have hrun : (build 3 sampleEntries).toOption.map (fun _ => ()) = some () := by decide +kernel
  obtain ⟨r, hr, -⟩ := exists_ok_of_map hrun
  rw [hr] at hw
  exact absurd hw (by simp)

end ZipFs
