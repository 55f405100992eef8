import ZipFs.Index.Fits
import ZipFs.Index.Records
import Mathlib.Algebra.GroupWithZero.Nat

/-!
# The 32-bit limits

Everything the index stores in 32 bits is checked before it is stored, with one gap. A
metadata index may be any number that fits, and the largest of them also means "no
metadata". Nodes cannot get that far, but metadata records can outnumber the nodes: a file
that made room for a directory leaves its record behind, and the directory may get another.
So the index is sound, or the build says that it is too large, unless exactly `2 ^ 32`
records were made; then one node is left with an entry and without its metadata.
-/

namespace ZipFs

/-! ## The finished index -/

/-- No 32-bit number of the index, or of the builder it was made from, has wrapped around or
come out as a sentinel. -/
structure Unwrapped (b : Builder) (idx : Index) : Prop where
  claimed : ∀ ino n, idx.node ino = some n → n.synthetic = false →
    n.metaIdx ≠ NO_META ∧ n.metaIdx < idx.metas.length
  /-- The inodes fit, and the parent of each is one. -/
  inode : ∀ ino n, idx.node ino = some n → ino < 2 ^ 32 ∧ (idx.node n.parent).isSome
  /-- The range of a node is inside the array and holds exactly its children. -/
  range : ∀ ino n, idx.node ino = some n → n.firstChild + n.childLen ≤ idx.len ∧
    idx.len < 2 ^ 32 ∧ ∀ x c, 2 ≤ x → idx.node x = some c → (n.InRange x ↔ c.parent = ino)
  /-- The interner holds every node below the root, under a number that did not wrap. -/
  interned : ∀ id, 0 < id → id < b.nodes.length → id + 1 < 2 ^ 32 ∧ id + 1 ∈ b.interner.slots
  links : ∀ ino n, idx.node ino = some n → 2 + n.subdirCount < 2 ^ 32

section Finish

variable {b : Builder} {idx : Index} {order : List Nat}

/-- The range of a node holds exactly its children. -/
theorem Finished.inRange_iff_parent (hf : Finished b idx order) {ino x : Nat} {n c : Node}
    (hn : idx.node ino = some n) (hx : 2 ≤ x) (hc : idx.node x = some c) :
    n.InRange x ↔ c.parent = ino := by
  refine ⟨fun hin => hf.parent_of_inRange hn hin hc, fun hpar => ?_⟩
  have hlt : x < idx.len := by
    obtain ⟨k, child, t, rfl, hk, -⟩ := hf.node_cases hc
    have := (List.getElem?_eq_some_iff.mp hk).1
    rw [Index.len, hf.length]
    omega
  -- some node has the child in its range, and that node is its parent
  obtain ⟨d, m, hm, hin⟩ := hf.exists_inRange_iff.mpr ⟨hx, hlt⟩
  obtain rfl : d = ino := (hf.parent_of_inRange hm hin hc).symm.trans hpar
  obtain rfl := Option.some.inj (hm.symm.trans hn)
  exact hin

/-- **Only the metadata can go wrong.** -/
theorem Finished.unwrapped_iff (hf : Finished b idx order) (h : b.Ok) :
    Unwrapped b idx ↔ ∀ ino n, idx.node ino = some n → n.synthetic = false →
      n.metaIdx ≠ NO_META ∧ n.metaIdx < idx.metas.length := by
  refine ⟨fun hu => hu.claimed, fun hclaimed => ?_⟩
  have hroom := hf.room
  have hlen : idx.len = order.length + 1 := hf.length
  refine ⟨hclaimed, fun ino n hn => ?_, fun ino n hn => ?_, fun id hpos hid => ?_,
    fun ino n hn => ?_⟩
  · obtain ⟨p, hp, -⟩ := hf.parent_node h hn
    obtain ⟨j, id, t, rfl, hj, -⟩ := hf.node_cases hn
    have := (List.getElem?_eq_some_iff.mp hj).1
    exact ⟨by omega, by rw [hp]; rfl⟩
  · exact ⟨hf.range_le hn, by omega, fun x c hx hc => hf.inRange_iff_parent hn hx hc⟩
  · have hfit : id + 1 < 2 ^ 32 := by
      have := hf.length_order
      omega
    exact ⟨hfit, (h.interner.mem_slots id).mpr ⟨hpos, hid, hfit⟩⟩
  · have hle := hf.range_le hn
    obtain ⟨j, id, t, rfl, hj, ht, hfin⟩ := hf.node_cases hn
    have hsub : n.subdirCount ≤ n.childLen := by
      rw [hfin.subdirCount, hfin.childLen]
      exact List.count_le_length.trans_eq (List.length_map _)
    have hfirst : 2 ≤ n.firstChild := by
      rw [hfin.firstChild, Lib.firstPos]
      omega
    omega

theorem Built.unwrapped_iff {entries : List Entry} (h : Built entries idx b order)
    (hr : Recorder entries b) : Unwrapped b idx ↔ attachedCount (accepted entries) < 2 ^ 32 := by
  rw [h.finished.unwrapped_iff h.ok, ← hr.count]
  constructor
  · intro hclaimed
    by_contra hfull
    obtain ⟨id, t, ht, hs, hidx⟩ := hr.mark (Nat.le_antisymm hr.le (Nat.not_lt.mp hfull))
    obtain ⟨j, hj⟩ := h.finished.place_of (List.getElem?_eq_some_iff.mp ht).1
    obtain ⟨t', N, ht', hN, hfin⟩ := h.finished.node_at hj
    obtain rfl := Option.some.inj (ht.symm.trans ht')
    exact (hclaimed _ N hN (hfin.synthetic.trans hs)).1 (hfin.metaIdx.trans hidx)
  · intro hfew ino N hN hs
    obtain ⟨j, id, t, rfl, hj, ht, hfin⟩ := h.finished.node_cases hN
    have hlt := h.ok.claimed id t ht (hfin.synthetic.symm.trans hs)
    rw [hfin.metaIdx, h.finished.metas]
    refine ⟨?_, hlt⟩
    rw [NO_META]
    omega

end Finish

/--
**When the limits fail cleanly.** A build that does not say that the index is too large
returns an index without a wrapped number or a sentinel in the wrong place exactly when
fewer than `2 ^ 32` entries were given a metadata record.
-/
theorem limits_clean_iff (hint : Nat) (entries : List Entry) :
    (∃ what, build hint entries = .error (.indexTooLarge what)) ∨
      ∃ b idx stats, addAll hint entries = .ok b ∧ build hint entries = .ok (idx, stats) ∧
        (Unwrapped b idx ↔ attachedCount (accepted entries) < 2 ^ 32) := by
  by_cases hlarge : ∃ what, build hint entries = .error (.indexTooLarge what)
  · exact .inl hlarge
  · refine .inr ?_
    obtain ⟨⟨idx, stats⟩, hb, -⟩ :=
      (build_spec hint entries).exists_ok fun what hw => hlarge ⟨what, hw⟩
    obtain ⟨b, order, hrun, h, -⟩ := build_passes hb
    exact ⟨b, idx, stats, hrun, hb, h.unwrapped_iff (addAll_recorder hrun)⟩

/-! ## The gap can be reached -/

/-- A byte that no check on paths objects to. -/
def floodByte (n : Nat) : UInt8 := UInt8.ofNat (128 + n % 128)

/-- The names of one such byte. -/
def floodNames : List Bytes := (List.range 128).map fun n => [floodByte n]

/-- Five names: the digits of `n`. -/
def floodPath (n : Nat) : List Bytes :=
  [[floodByte (n / 128 ^ 4)], [floodByte (n / 128 ^ 3)], [floodByte (n / 128 ^ 2)],
    [floodByte (n / 128)], [floodByte n]]

/-- A file. -/
def floodFile (n : Nat) : Entry := ⟨[SEP].intercalate (floodPath n), false, storedMeta 0 0o100644⟩

/-- Another file below it, so that the first has to make room for a directory. -/
def floodBelow (n : Nat) : Entry :=
  ⟨[SEP].intercalate (floodPath n ++ [[floodByte 0]]), false, storedMeta 0 0o100644⟩

/-- The declaration of that directory. -/
def floodDir (n : Nat) : Entry := ⟨parentBytes (floodPath n), true, storedMeta 0 0o040755⟩

/-- The first `m` files, and `k` of them once more. -/
def flood (m k : Nat) : List Entry :=
  (List.range m).map floodFile ++
    ((List.range k).map floodBelow ++ (List.range k).map floodDir)

section Flood

theorem floodByte_mod (n : Nat) : floodByte n = floodByte (n % 128) := by
  rw [floodByte, floodByte, Nat.mod_mod]

theorem mem_floodNames (n : Nat) : [floodByte n] ∈ floodNames := by
  rw [floodByte_mod]
  exact List.mem_map.mpr ⟨n % 128, List.mem_range.mpr (Nat.mod_lt _ (by decide)), rfl⟩

theorem floodPath_names (n : Nat) : ∀ c ∈ floodPath n, c ∈ floodNames := by
  intro c hc
  simp only [floodPath, List.mem_cons, List.not_mem_nil, or_false] at hc
  rcases hc with rfl | rfl | rfl | rfl | rfl
  all_goals exact mem_floodNames _

theorem floodByte_inj {n m : Nat} (h : floodByte n = floodByte m) : n % 128 = m % 128 := by
  have := congrArg UInt8.toNat h
  simp only [floodByte, UInt8.toNat_ofNat'] at this
  omega

/-- The digits give the number back. -/
theorem floodPath_inj {n m : Nat} (hn : n < 128 ^ 5) (hm : m < 128 ^ 5)
    (h : floodPath n = floodPath m) : n = m := by
  simp only [floodPath, List.cons.injEq, and_true] at h
  obtain ⟨h4, h3, h2, h1, h0⟩ := h
  have d4 := floodByte_inj h4
  have d3 := floodByte_inj h3
  have d2 := floodByte_inj h2
  have d1 := floodByte_inj h1
  have d0 := floodByte_inj h0
  omega

/-- Each of the names is one that an archive may use. -/
theorem isName_flood : ∀ c ∈ floodNames, IsName c ∧ c.length = 1 := by
  have hall : ∀ c ∈ floodNames, c ≠ [] ∧ c ≠ DOT ∧ SEP ∉ c ∧ c ≠ DOTDOT ∧ c.length = 1 ∧
      (0 : UInt8) ∉ c := by decide +kernel
  intro c hc
  obtain ⟨h1, h2, h3, h4, h5, h6⟩ := hall c hc
  exact ⟨⟨⟨h1, h2, h3⟩, h4, by rw [h5]; decide, h6⟩, h5⟩

/-- No check objects to a path of such names. -/
theorem rejectReason_flood {path c : Bytes} {cs : List Bytes} (hpath : c <+: path)
    (hcomps : components path = c :: cs) (hnames : ∀ d ∈ c :: cs, d ∈ floodNames)
    (hdepth : cs.length < MAX_DEPTH) (hnul : (0 : UInt8) ∉ path) : rejectReason path = none := by
  have hfirst :
    ∀ d ∈ floodNames, ∀ x, d = [x] → x ≠ SEP ∧ x ≠ 92 ∧ isAsciiAlphabetic x = false := by
    have hall : ∀ d ∈ floodNames, ∀ x ∈ d, x ≠ SEP ∧ x ≠ 92 ∧ isAsciiAlphabetic x = false := by
      decide +kernel
    intro d hd x hx
    exact hall d hd x (by rw [hx]; exact List.mem_singleton_self x)
  have hc := hnames c List.mem_cons_self
  obtain ⟨x, rfl⟩ := List.length_eq_one_iff.mp (isName_flood c hc).2
  obtain ⟨h1, h2, h3⟩ := hfirst [x] hc x rfl
  obtain ⟨rest, rfl⟩ := hpath
  rw [rejectReason_eq_none_iff]
  rintro (h | h | h | ⟨drive, tail, h, hdrive⟩ | h | ⟨d, hd, hlong⟩ | h | h)
  · rw [hcomps] at h
    exact (isName_flood _ (hnames _ h)).1.ne_dotdot rfl
  · exact h1 (Option.some.inj h)
  · exact h2 (Option.some.inj h)
  · rw [← (List.cons.inj h).1, h3] at hdrive
    exact absurd hdrive (by simp)
  · exact hnul h
  · rw [hcomps] at hd
    exact absurd (isName_flood d (hnames d hd)).1.length_le (Nat.not_le.mpr hlong)
  · rw [hcomps, List.length_cons] at h
    omega
  · rw [hcomps] at h
    exact absurd h (by simp)

theorem floodPath_components (n : Nat) : ∀ c ∈ floodPath n, IsComponent c :=
  fun c hc => (isName_flood c (floodPath_names n c hc)).1.toIsComponent

theorem floodBelow_names (n : Nat) : ∀ c ∈ floodPath n ++ [[floodByte 0]], c ∈ floodNames := by
  intro c hc
  rcases List.mem_append.mp hc with hc | hc
  · exact floodPath_names n c hc
  · rw [List.mem_singleton.mp hc]
    exact mem_floodNames 0

theorem components_floodFile (n : Nat) : components (floodFile n).path = floodPath n :=
  components_intercalate (floodPath_components n)

theorem components_floodBelow (n : Nat) :
    components (floodBelow n).path = floodPath n ++ [[floodByte 0]] :=
  components_intercalate fun c hc => (isName_flood c (floodBelow_names n c hc)).1.toIsComponent

theorem components_floodDir (n : Nat) : components (floodDir n).path = floodPath n :=
  components_parentBytes (floodPath_components n)

theorem floodByte_ne_zero (n : Nat) : (0 : UInt8) ≠ floodByte n := by
  intro h
  have := congrArg UInt8.toNat h
  simp only [floodByte, UInt8.toNat_ofNat', UInt8.toNat_zero] at this
  omega

theorem kind_floodFile (n : Nat) : (floodFile n).kind = .file := by
  simp [Entry.kind, floodFile, storedMeta, isSymlinkMode]

theorem kind_floodBelow (n : Nat) : (floodBelow n).kind = .file := by
  simp [Entry.kind, floodBelow, storedMeta, isSymlinkMode]

theorem kind_floodDir (n : Nat) : (floodDir n).kind = .dir := by
  simp [Entry.kind, floodDir]

theorem accepted_floodFile (n : Nat) : (floodFile n).accepted = true := by
  have hreason : rejectReason (floodFile n).path = none := by
    refine rejectReason_flood (c := [floodByte (n / 128 ^ 4)]) ?_ (components_floodFile n)
      (floodPath_names n) (show 4 < 256 by decide) ?_
    · exact ⟨_, (intercalate_cons _ _).symm⟩
    · simp [floodFile, floodPath, SEP, floodByte_ne_zero]
  rw [Entry.accepted, hreason]
  rfl

theorem accepted_floodBelow (n : Nat) : (floodBelow n).accepted = true := by
  have hreason : rejectReason (floodBelow n).path = none := by
    refine rejectReason_flood (c := [floodByte (n / 128 ^ 4)]) ?_ (components_floodBelow n)
      (floodBelow_names n) (show 5 < 256 by decide) ?_
    · exact ⟨_, (intercalate_cons _ _).symm⟩
    · simp [floodBelow, floodPath, SEP, floodByte_ne_zero]
  rw [Entry.accepted, hreason]
  rfl

theorem accepted_floodDir (n : Nat) : (floodDir n).accepted = true := by
  have hreason : rejectReason (floodDir n).path = none := by
    refine rejectReason_flood (c := [floodByte (n / 128 ^ 4)]) ?_ (components_floodDir n)
      (floodPath_names n) (show 4 < 256 by decide) ?_
    · exact ⟨_, rfl⟩
    · simp [floodDir, floodPath, parentBytes, SEP, floodByte_ne_zero]
  rw [Entry.accepted, hreason]
  rfl

theorem mem_flood {m k : Nat} {e : Entry} (h : e ∈ flood m k) :
    (∃ n, n < m ∧ e = floodFile n) ∨ (∃ n, n < k ∧ e = floodBelow n) ∨
      ∃ n, n < k ∧ e = floodDir n := by
  rw [flood, List.mem_append, List.mem_append] at h
  simp only [List.mem_map, List.mem_range] at h
  rcases h with ⟨n, hn, rfl⟩ | ⟨n, hn, rfl⟩ | ⟨n, hn, rfl⟩
  · exact .inl ⟨n, hn, rfl⟩
  · exact .inr (.inl ⟨n, hn, rfl⟩)
  · exact .inr (.inr ⟨n, hn, rfl⟩)

theorem accepted_flood (m k : Nat) :
    accepted (flood m k) = (List.range m).map (fun n => (floodFile n).toClaim) ++
      ((List.range k).map (fun n => (floodBelow n).toClaim) ++
        (List.range k).map (fun n => (floodDir n).toClaim)) := by
  have hall : (flood m k).filter Entry.accepted = flood m k := by
    refine List.filter_eq_self.mpr fun e he => ?_
    rcases mem_flood he with ⟨n, -, rfl⟩ | ⟨n, -, rfl⟩ | ⟨n, -, rfl⟩
    · exact accepted_floodFile n
    · exact accepted_floodBelow n
    · exact accepted_floodDir n
  rw [accepted, hall, flood, List.map_append, List.map_append, List.map_map, List.map_map,
    List.map_map]
  rfl

/-! Every one of the entries gets a record. -/

theorem attachedAfter_range {pre : List Claim} {f : Nat → Claim} {k : Nat}
    (h : ∀ i, i < k → (treeOf (pre ++ (List.range i).map f)).attaches (f i) = true) :
    attachedAfter pre ((List.range k).map f) = k := by
  induction k with
  | zero => rfl
  | succ k ih =>
      rw [List.range_succ, List.map_append, attachedAfter_append,
        ih fun i hi => h i (Nat.lt_succ_of_lt hi), List.map_singleton, attachedAfter,
        h k (Nat.lt_succ_self k)]
      rfl

/-- A path that no entry so far leads to or through is free. -/
theorem attaches_free {A : List Claim} {c : Claim} (hne : c.comps ≠ [])
    (h : ∀ d ∈ A, ¬ c.comps <+: d.comps) : (treeOf A).attaches c = true := by
  have hnone : treeOf A c.comps = none := by
    rw [← Option.not_isSome_iff_eq_none, treeOf_isSome]
    rintro (hnil | ⟨d, hd, hpre⟩)
    · exact hne hnil
    · exact h d hd hpre
  rw [Tree.attaches, hnone]
  rfl

variable {m k : Nat}

theorem attached_files (hm : m ≤ 128 ^ 5) :
    attachedAfter [] ((List.range m).map fun n => (floodFile n).toClaim) = m := by
  refine attachedAfter_range fun i hi => attaches_free ?_ fun d hd hpre => ?_
  · rw [Entry.toClaim, components_floodFile]
    exact List.cons_ne_nil _ _
  · rw [List.nil_append] at hd
    obtain ⟨j, hj, rfl⟩ := List.mem_map.mp hd
    have hji := List.mem_range.mp hj
    rw [Entry.toClaim, Entry.toClaim, components_floodFile, components_floodFile] at hpre
    have := floodPath_inj (by omega) (by omega) (hpre.eq_of_length rfl)
    omega

theorem attached_below (hk : k ≤ 128 ^ 5) :
    attachedAfter ((List.range m).map fun n => (floodFile n).toClaim)
      ((List.range k).map fun n => (floodBelow n).toClaim) = k := by
  refine attachedAfter_range fun i hi => attaches_free ?_ fun d hd hpre => ?_
  · rw [Entry.toClaim, components_floodBelow]
    exact List.cons_ne_nil _ _
  · rw [Entry.toClaim, components_floodBelow] at hpre
    rcases List.mem_append.mp hd with hd | hd
    · obtain ⟨j, -, rfl⟩ := List.mem_map.mp hd
      rw [Entry.toClaim, components_floodFile] at hpre
      exact absurd hpre.length_le (show ¬ 6 ≤ 5 by decide)
    · obtain ⟨j, hj, rfl⟩ := List.mem_map.mp hd
      have hji := List.mem_range.mp hj
      rw [Entry.toClaim, components_floodBelow] at hpre
      have hpath := (List.append_inj (hpre.eq_of_length rfl) rfl).1
      have := floodPath_inj (by omega) (by omega) hpath
      omega

theorem attached_dirs (hk : k ≤ 128 ^ 5) :
    attachedAfter ((List.range m).map (fun n => (floodFile n).toClaim) ++
        (List.range k).map fun n => (floodBelow n).toClaim)
      ((List.range k).map fun n => (floodDir n).toClaim) = k := by
  refine attachedAfter_range fun i hi => ?_
  have hcomps : (floodDir i).toClaim.comps = floodPath i := components_floodDir i
  -- no directory of that path has been declared, and one is needed
  have himplied : treeOf (((List.range m).map (fun n => (floodFile n).toClaim) ++
      (List.range k).map fun n => (floodBelow n).toClaim) ++
        (List.range i).map fun n => (floodDir n).toClaim) (floodPath i) = some .implied := by
    refine treeOf_undeclared (c := (floodBelow i).toClaim) (fun c hc => ?_) ?_ ?_
    · rw [Bool.eq_false_iff]
      intro hdecl
      obtain ⟨hkind, hpath⟩ := declares_iff.mp hdecl
      rcases List.mem_append.mp hc with hc | hc
      · rcases List.mem_append.mp hc with hc | hc
        · obtain ⟨j, -, rfl⟩ := List.mem_map.mp hc
          exact absurd ((kind_floodFile j).symm.trans hkind) (by decide)
        · obtain ⟨j, -, rfl⟩ := List.mem_map.mp hc
          exact absurd ((kind_floodBelow j).symm.trans hkind) (by decide)
      · obtain ⟨j, hj, rfl⟩ := List.mem_map.mp hc
        have hji := List.mem_range.mp hj
        rw [Entry.toClaim, components_floodDir] at hpath
        have := floodPath_inj (by omega) (by omega) hpath
        omega
    · refine List.mem_append_left _ (List.mem_append_right _ ?_)
      exact List.mem_map.mpr ⟨i, List.mem_range.mpr hi, rfl⟩
    · rw [Entry.toClaim, components_floodBelow]
      exact ⟨List.prefix_append _ _, fun heq => absurd (congrArg List.length heq) (by
        rw [List.length_append]; simp)⟩
  rw [Tree.attaches, hcomps, himplied]
  rfl

theorem attachedCount_flood (hk : k ≤ m) (hm : m ≤ 128 ^ 5) :
    attachedCount (accepted (flood m k)) = m + (k + k) := by
  rw [accepted_flood, attachedCount, attachedAfter_append, List.nil_append, attachedAfter_append,
    attached_files hm, attached_below (hk.trans hm), attached_dirs (hk.trans hm)]

/-! There is room for all of them. -/

/-- The paths of `d` names. -/
def floodWords : Nat → List (List Bytes)
  | 0 => [[]]
  | d + 1 => (floodWords d).flatMap fun w => floodNames.map fun c => w ++ [c]

theorem length_floodWords (d : Nat) : (floodWords d).length = 128 ^ d := by
  induction d with
  | zero => rfl
  | succ d ih =>
      have hnames : floodNames.length = 128 := by
        rw [floodNames, List.length_map, List.length_range]
      simp only [floodWords, List.length_flatMap, List.length_map, hnames, List.map_const',
        List.sum_replicate_nat, ih, Nat.pow_succ]

theorem mem_floodWords {w : List Bytes} (h : ∀ c ∈ w, c ∈ floodNames) :
    w ∈ floodWords w.length := by
  induction w using List.reverseRecOn with
  | nil => exact List.mem_singleton_self _
  | append_singleton w c ih =>
      rw [List.length_append, List.length_singleton, floodWords]
      refine List.mem_flatMap.mpr ⟨w, ih fun d hd => h d (List.mem_append_left _ hd), ?_⟩
      exact List.mem_map.mpr ⟨c, h c (List.mem_append_right _ List.mem_cons_self), rfl⟩

/-- The paths of fewer than `d` names. -/
def floodShort : Nat → List (List Bytes)
  | 0 => []
  | d + 1 => floodShort d ++ floodWords d

theorem length_floodShort (d : Nat) : 127 * (floodShort d).length + 1 = 128 ^ d := by
  induction d with
  | zero => rfl
  | succ d ih =>
      rw [floodShort, List.length_append, length_floodWords, Nat.pow_succ]
      omega

theorem mem_floodShort {w : List Bytes} (h : ∀ c ∈ w, c ∈ floodNames) {d : Nat}
    (hd : w.length < d) : w ∈ floodShort d := by
  induction d with
  | zero => exact absurd hd (Nat.not_lt_zero _)
  | succ d ih =>
      rw [floodShort, List.mem_append]
      rcases Nat.lt_or_ge w.length d with hlt | hge
      · exact .inl (ih hlt)
      · obtain rfl : w.length = d := by omega
        exact .inr (mem_floodWords h)

/-- Every path that the flood leads to or through. -/
def floodPaths (m k : Nat) : List (List Bytes) :=
  floodShort 5 ++ ((List.range m).map floodPath ++
    (List.range k).map fun n => floodPath n ++ [[floodByte 0]])

theorem length_floodPaths (m k : Nat) :
    127 * (floodPaths m k).length + 1 = 128 ^ 5 + 127 * (m + k) := by
  have hshort := length_floodShort 5
  rw [floodPaths, List.length_append, List.length_append, List.length_map, List.length_map,
    List.length_range, List.length_range]
  generalize (floodShort 5).length = short at hshort ⊢
  omega

theorem mem_floodPaths {n : Nat} (hn : n < m) {p : List Bytes} (hp : p <+: floodPath n) :
    p ∈ floodPaths m k := by
  rcases Nat.lt_or_ge p.length 5 with hlt | hge
  · refine List.mem_append_left _ (mem_floodShort (fun c hc => ?_) hlt)
    exact floodPath_names n c (hp.subset hc)
  · rw [hp.eq_of_length_le hge]
    exact List.mem_append_right _ (List.mem_append_left _
      (List.mem_map.mpr ⟨n, List.mem_range.mpr hn, rfl⟩))

theorem flood_fitsIn (hk : k ≤ m) (hroom : m + k + 270549377 ≤ 2 ^ 32)
    (hfew : m + (k + k) ≤ 2 ^ 32) : FitsIn (flood m k) (floodPaths m k) 1 := by
  refine ⟨Nat.one_pos, fun e he c hc => ?_, fun e he => ?_, ?_, fun e he p hp => ?_,
    fun e he => ?_, ?_, ?_⟩
  · refine Nat.le_of_eq (isName_flood c ?_).2
    rcases mem_flood he with ⟨n, -, rfl⟩ | ⟨n, -, rfl⟩ | ⟨n, -, rfl⟩
    · exact floodPath_names n c (components_floodFile n ▸ hc)
    · exact floodBelow_names n c (components_floodBelow n ▸ hc)
    · exact floodPath_names n c (components_floodDir n ▸ hc)
  · rcases mem_flood he with ⟨n, -, rfl⟩ | ⟨n, -, rfl⟩ | ⟨n, -, rfl⟩
    · rw [kind_floodFile]
      decide
    · rw [kind_floodBelow]
      decide
    · rw [kind_floodDir]
      decide
  · exact List.mem_append_left _ (mem_floodShort (fun c hc => absurd hc List.not_mem_nil)
      (show 0 < 5 by decide))
  · rcases mem_flood he with ⟨n, hn, rfl⟩ | ⟨n, hn, rfl⟩ | ⟨n, hn, rfl⟩
    · exact mem_floodPaths hn (components_floodFile n ▸ hp)
    · rw [components_floodBelow] at hp
      rcases List.prefix_concat_iff.mp hp with rfl | hp
      · exact List.mem_append_right _ (List.mem_append_right _
          (List.mem_map.mpr ⟨n, List.mem_range.mpr hn, rfl⟩))
      · exact mem_floodPaths (by omega) hp
    · exact mem_floodPaths (by omega) (components_floodDir n ▸ hp)
  · rcases mem_flood he with ⟨n, -, rfl⟩ | ⟨n, -, rfl⟩ | ⟨n, -, rfl⟩
    · rw [components_floodFile]
      exact (by decide : 5 ≤ MAX_DEPTH)
    · rw [components_floodBelow]
      exact (by decide : 6 ≤ MAX_DEPTH)
    · rw [components_floodDir]
      exact (by decide : 5 ≤ MAX_DEPTH)
  · have hlen := length_floodPaths m k
    rw [Nat.mul_one]
    show (floodPaths m k).length + 256 ≤ 2 ^ 32
    omega
  · rw [flood, List.length_append, List.length_append, List.length_map, List.length_map,
      List.length_map, List.length_range, List.length_range]
    exact hfew

end Flood

/-- Either the build says that the index is too large, or the index is sound. -/
def LimitsClean (hint : Nat) (entries : List Entry) : Prop :=
  (∃ what, build hint entries = .error (.indexTooLarge what)) ∨
    ∃ b idx stats, addAll hint entries = .ok b ∧ build hint entries = .ok (idx, stats) ∧
      Unwrapped b idx

/-- `2 ^ 31` files, of which `2 ^ 30` make room for a directory that is then declared. The
last of these gets the index that means "no metadata". -/
theorem flood_not_clean : ¬ LimitsClean 0 (flood (2 ^ 31) (2 ^ 30)) := by
  obtain ⟨idx, stats, hb⟩ := build_fits 0 (flood_fitsIn (m := 2 ^ 31) (k := 2 ^ 30)
    (by decide) (by decide) (by decide))
  obtain ⟨b, order, hrun, h, -⟩ := build_passes hb
  have hiff := h.unwrapped_iff (addAll_recorder hrun)
  rw [attachedCount_flood (by decide) (by decide)] at hiff
  rintro (⟨what, hlarge⟩ | ⟨b', idx', stats', hrun', hb', hun⟩)
  · rw [hb] at hlarge
    exact absurd hlarge (by simp)
  · obtain rfl := Except.ok.inj (hrun.symm.trans hrun')
    obtain ⟨rfl, -⟩ := Prod.mk.inj (Except.ok.inj (hb.symm.trans hb'))
    exact absurd (hiff.mp hun) (by decide)

end ZipFs
