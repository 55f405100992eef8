import ZipFs.Index.Basic

/-!
# Paths out of the central directory

Validation, normalisation and splitting of the raw bytes an archive gives for a
path, after `reject_reason`, `components`, `split_parent` and `normalize_path` of
`src/index/build.rs`.

The four functions look at a path in four different ways: the first two split it
at every separator, the third joins what is left, and the last searches the
joined bytes backwards. The tree is right only because they agree, so the second
half of this file says what each of them does in terms of the component list.
-/

namespace ZipFs

/-- How many path components deep an entry may be. -/
def MAX_DEPTH : Nat := 256

/-- The longest single path component, matching `NAME_MAX`. -/
def MAX_COMPONENT : Nat := 255

/-- `/` -/
def SEP : UInt8 := 47

/-- `.` -/
def DOT : Bytes := [46]

/-- `..` -/
def DOTDOT : Bytes := [46, 46]

/-- A component that means something: neither empty nor `.`. -/
def meaningful (c : Bytes) : Bool := !c.isEmpty && c != DOT

/-- The meaningful components of a path. -/
def components (path : Bytes) : List Bytes := (path.splitOn SEP).filter meaningful

def isAsciiAlphabetic (b : UInt8) : Bool := (65 ≤ b && b ≤ 90) || (97 ≤ b && b ≤ 122)

/-- The loop of `reject_reason`: the depth reached, or why the path is refused. -/
def rejectLoop : List Bytes → Nat → Except String Nat
  | [], depth => .ok depth
  | comp :: rest, depth =>
      if comp = DOTDOT then .error "path escapes the archive root"
      else if comp.length > MAX_COMPONENT then .error "path component is too long"
      else if depth + 1 > MAX_DEPTH then .error "path is too deep"
      else rejectLoop rest (depth + 1)

/-- Why a path cannot become a node. -/
def rejectReason (path : Bytes) : Option String :=
  match path with
  | [] => some "empty path"
  | first :: rest =>
      if path.contains 0 then some "path contains a NUL byte"
      else if first = SEP ∨ first = 92 then some "absolute path"
      else if rest.head? = some 58 ∧ isAsciiAlphabetic first then some "path has a drive prefix"
      else
        match rejectLoop (components path) 0 with
        | .error why => some why
        | .ok depth => if depth = 0 then some "path has no components" else none

/-- The position of the last element that satisfies `p`. -/
def rposition {α : Type} (p : α → Bool) (xs : List α) : Option Nat :=
  (xs.reverse.findIdx? p).map (fun j => xs.length - 1 - j)

/-- Splits a path into the bytes naming its parent and its own last component. -/
def splitParent (path : Bytes) : Bytes × Bytes :=
  let body := if path.getLast? = some SEP then path.dropLast else path
  match rposition (· == SEP) body with
  | some i => (body.take (i + 1), body.drop (i + 1))
  | none => ([], body)

/-- One canonical path made from the meaningful components. -/
def normalizePath (path : Bytes) : Bytes :=
  (components path).foldl
    (fun normalized component =>
      (if normalized.isEmpty then normalized else normalized ++ [SEP]) ++ component) []

/-! ## Components -/

/-- What `components` can return: no separator, not empty, not `.`. -/
structure IsComponent (c : Bytes) : Prop where
  ne_nil : c ≠ []
  ne_dot : c ≠ DOT
  sep_not_mem : SEP ∉ c

theorem meaningful_iff {c : Bytes} : meaningful c = true ↔ c ≠ [] ∧ c ≠ DOT := by
  simp [meaningful]

theorem IsComponent.meaningful {c : Bytes} (h : IsComponent c) : meaningful c = true :=
  meaningful_iff.mpr ⟨h.ne_nil, h.ne_dot⟩

/-- Splitting leaves no separator in any piece. -/
theorem sep_not_mem_of_mem_splitOn {sep : UInt8} {path c : Bytes} (h : c ∈ path.splitOn sep) :
    sep ∉ c := by
  induction path generalizing c with
  | nil =>
      rw [List.splitOn_nil, List.mem_singleton] at h
      rw [h]; simp
  | cons b path ih =>
      rw [List.splitOn_cons_eq_if_modifyHead] at h
      split at h
      · rcases List.mem_cons.mp h with h | h
        · rw [h]; simp
        · exact ih h
      · rename_i hb
        cases hq : path.splitOn sep with
        | nil => exact absurd hq (List.splitOn_ne_nil _ _)
        | cons p ps =>
            rw [hq] at h ih
            rcases List.mem_cons.mp h with h | h
            · rw [h]
              intro hs
              rcases List.mem_cons.mp hs with hs | hs
              · exact hb (by simp [hs])
              · exact ih List.mem_cons_self hs
            · exact ih (List.mem_cons_of_mem _ h)

/-! Two readings of a join: the separators before the later pieces, or after the earlier ones. -/

theorem intercalate_cons (c : Bytes) (cs : List Bytes) :
    [SEP].intercalate (c :: cs) = c ++ cs.flatMap (fun d => SEP :: d) := by
  induction cs generalizing c with
  | nil => simp
  | cons d ds ih => rw [List.intercalate_cons_cons, ih]; simp

theorem intercalate_snoc (cs : List Bytes) (l : Bytes) :
    [SEP].intercalate (cs ++ [l]) = cs.flatMap (fun c => c ++ [SEP]) ++ l := by
  induction cs with
  | nil => simp
  | cons c cs ih =>
      cases cs with
      | nil => simp [List.intercalate]
      | cons d ds =>
          rw [List.cons_append, List.cons_append, List.intercalate_cons_cons,
            ← List.cons_append, ih]
          simp

theorem mem_intercalate {cs : List Bytes} {c : Bytes} {b : UInt8} (h : c ∈ cs) (hb : b ∈ c) :
    b ∈ [SEP].intercalate cs := by
  cases cs with
  | nil => exact absurd h (by simp)
  | cons d ds =>
      rw [intercalate_cons]
      rcases List.mem_cons.mp h with h | h
      · exact List.mem_append_left _ (h ▸ hb)
      · exact List.mem_append_right _
          (List.mem_flatMap.mpr ⟨c, h, List.mem_cons_of_mem _ hb⟩)

/-- A piece of a path holds only bytes of that path. -/
theorem mem_of_mem_splitOn {path c : Bytes} {b : UInt8} (h : c ∈ path.splitOn SEP) (hb : b ∈ c) :
    b ∈ path := by
  have := mem_intercalate h hb
  rwa [List.intercalate_splitOn] at this

theorem isComponent_of_mem {path c : Bytes} (h : c ∈ components path) : IsComponent c := by
  obtain ⟨h1, h2⟩ := List.mem_filter.mp h
  obtain ⟨h3, h4⟩ := meaningful_iff.mp h2
  exact ⟨h3, h4, sep_not_mem_of_mem_splitOn h1⟩

/-- Joining components and splitting them again gives the components back. -/
theorem components_intercalate {cs : List Bytes} (h : ∀ c ∈ cs, IsComponent c) :
    components ([SEP].intercalate cs) = cs := by
  by_cases hnil : cs = []
  · subst hnil; decide
  · rw [components, List.splitOn_intercalate SEP (fun c hc => (h c hc).sep_not_mem) hnil]
    exact List.filter_eq_self.mpr (fun c hc => (h c hc).meaningful)

/-! ## Normalisation -/

/-- The accumulator of `normalizePath` is what is already joined. -/
theorem normalize_fold {cs : List Bytes} (h : ∀ c ∈ cs, IsComponent c) {acc : Bytes}
    (hacc : acc ≠ []) :
    cs.foldl
        (fun normalized component =>
          (if normalized.isEmpty then normalized else normalized ++ [SEP]) ++ component) acc
      = acc ++ cs.flatMap (fun c => SEP :: c) := by
  induction cs generalizing acc with
  | nil => simp
  | cons c cs ih =>
      rw [List.foldl_cons, if_neg (by simpa using hacc),
        ih (fun d hd => h d (List.mem_cons_of_mem _ hd)) (by simp)]
      simp

/-- Normalising a path joins its components with single separators. -/
theorem normalizePath_eq (path : Bytes) :
    normalizePath path = [SEP].intercalate (components path) := by
  unfold normalizePath
  have h : ∀ c ∈ components path, IsComponent c := fun c hc => isComponent_of_mem hc
  cases hcs : components path with
  | nil => rfl
  | cons c cs =>
      rw [hcs] at h
      have hc := (h c List.mem_cons_self).ne_nil
      rw [List.foldl_cons, intercalate_cons]
      exact normalize_fold (fun d hd => h d (List.mem_cons_of_mem _ hd)) (by simpa using hc)

/-- Normalising keeps the components. -/
theorem components_normalizePath (path : Bytes) :
    components (normalizePath path) = components path := by
  rw [normalizePath_eq]
  exact components_intercalate (fun c hc => isComponent_of_mem hc)

/-! ## Splitting off the parent -/

/-- The bytes `splitParent` returns for a parent: every component closed by a separator. -/
def parentBytes (cs : List Bytes) : Bytes := cs.flatMap (fun c => c ++ [SEP])

theorem rposition_last {α : Type} {p : α → Bool} {xs ys : List α} {a : α} (ha : p a = true)
    (hys : ∀ y ∈ ys, p y = false) : rposition p (xs ++ a :: ys) = some xs.length := by
  have hrev : (xs ++ a :: ys).reverse = ys.reverse ++ a :: xs.reverse := by simp
  have hidx : (ys.reverse ++ a :: xs.reverse).findIdx? p = some ys.length := by
    rw [List.findIdx?_append]
    have hnone : ys.reverse.findIdx? p = none := by
      rw [List.findIdx?_eq_none_iff]
      intro y hy
      exact hys y (List.mem_reverse.mp hy)
    rw [hnone, List.findIdx?_cons, if_pos ha]
    simp
  rw [rposition, hrev, hidx]
  simp

theorem rposition_none {α : Type} {p : α → Bool} {xs : List α} (h : ∀ x ∈ xs, p x = false) :
    rposition p xs = none := by
  rw [rposition, List.findIdx?_eq_none_iff.mpr]
  · rfl
  · intro x hx
    exact h x (List.mem_reverse.mp hx)

/-- The parent bytes determine the components and the other way round. -/
theorem components_parentBytes {cs : List Bytes} (h : ∀ c ∈ cs, IsComponent c) :
    components (parentBytes cs) = cs := by
  unfold components parentBytes
  induction cs with
  | nil => decide
  | cons c cs ih =>
      have hc := h c List.mem_cons_self
      rw [List.flatMap_cons, List.append_assoc, List.singleton_append,
        List.splitOn_append_cons_self_of_not_mem hc.sep_not_mem, List.filter_cons,
        if_pos hc.meaningful, ih (fun d hd => h d (List.mem_cons_of_mem _ hd))]

/-- Splitting a joined path gives its last component and the rest of its components. -/
theorem splitParent_intercalate {cs : List Bytes} {l : Bytes} (hl : IsComponent l) :
    splitParent ([SEP].intercalate (cs ++ [l])) = (parentBytes cs, l) := by
  have hlast : ([SEP].intercalate (cs ++ [l])).getLast? ≠ some SEP := by
    rw [intercalate_snoc, List.getLast?_append]
    cases hq : l.getLast? with
    | none => exact absurd (List.getLast?_eq_none_iff.mp hq) hl.ne_nil
    | some b =>
        intro hb
        simp only [Option.some_or, Option.some.injEq] at hb
        exact hl.sep_not_mem (hb ▸ List.mem_of_getLast? hq)
  have hno : ∀ b ∈ l, (b == SEP) = false := by
    intro b hb
    rw [beq_eq_false_iff_ne]
    intro he
    exact hl.sep_not_mem (he ▸ hb)
  unfold splitParent
  dsimp only
  rw [if_neg hlast, intercalate_snoc]
  rcases List.eq_nil_or_concat cs with hcs | ⟨ds, d, hcs⟩
  · subst hcs
    rw [List.flatMap_nil, List.nil_append, rposition_none hno]
    rfl
  · rw [List.concat_eq_append] at hcs
    subst hcs
    -- everything before the last separator, and what follows it
    have hsplit : (ds ++ [d]).flatMap (fun c => c ++ [SEP]) ++ l
        = (ds.flatMap (fun c => c ++ [SEP]) ++ d) ++ SEP :: l := by simp
    have hparent : parentBytes (ds ++ [d]) = (ds.flatMap (fun c => c ++ [SEP]) ++ d) ++ [SEP] := by
      simp [parentBytes]
    rw [hsplit, hparent]
    generalize ds.flatMap (fun c => c ++ [SEP]) ++ d = before
    rw [rposition_last (by simp) hno]
    dsimp only
    rw [show before ++ SEP :: l = (before ++ [SEP]) ++ l by simp]
    refine Prod.ext ?_ ?_
    · exact List.take_left' (by simp)
    · exact List.drop_left' (by simp)

/-! ## What an accepted path looks like -/

/-- A component that can become a name: what the mount may show. -/
structure IsName (c : Bytes) : Prop extends IsComponent c where
  ne_dotdot : c ≠ DOTDOT
  length_le : c.length ≤ MAX_COMPONENT
  nul_not_mem : (0 : UInt8) ∉ c

/-- The loop of `reject_reason` passes exactly when every component is fit and the depth is. -/
theorem rejectLoop_ok_iff {cs : List Bytes} {depth n : Nat} (hd : depth ≤ MAX_DEPTH) :
    rejectLoop cs depth = .ok n ↔
      (∀ c ∈ cs, c ≠ DOTDOT ∧ c.length ≤ MAX_COMPONENT) ∧ n = depth + cs.length ∧
        n ≤ MAX_DEPTH := by
  induction cs generalizing depth with
  | nil =>
      simp only [rejectLoop, Except.ok.injEq, List.length_nil, Nat.add_zero]
      constructor
      · intro h; exact ⟨by simp, h.symm, h ▸ hd⟩
      · intro h; exact h.2.1.symm
  | cons c cs ih =>
      rw [rejectLoop]
      by_cases h1 : c = DOTDOT
      · rw [if_pos h1]
        constructor
        · intro h; exact absurd h (by simp)
        · intro h; exact absurd h1 (h.1 c List.mem_cons_self).1
      · rw [if_neg h1]
        by_cases h2 : c.length > MAX_COMPONENT
        · rw [if_pos h2]
          constructor
          · intro h; exact absurd h (by simp)
          · intro h; exact absurd (h.1 c List.mem_cons_self).2 (Nat.not_le.mpr h2)
        · rw [if_neg h2]
          by_cases h3 : depth + 1 > MAX_DEPTH
          · rw [if_pos h3]
            constructor
            · intro h; exact absurd h (by simp)
            · rintro ⟨-, hn, hle⟩
              rw [List.length_cons] at hn
              omega
          · rw [if_neg h3, ih (by omega), List.length_cons]
            constructor
            · rintro ⟨ha, hn, hle⟩
              refine ⟨?_, by omega, hle⟩
              intro e he
              rcases List.mem_cons.mp he with he | he
              · exact he ▸ ⟨h1, Nat.not_lt.mp h2⟩
              · exact ha e he
            · rintro ⟨ha, hn, hle⟩
              exact ⟨fun e he => ha e (List.mem_cons_of_mem _ he), by omega, hle⟩

/-- A path that leaves the archive or cannot be turned into names. -/
def Hostile (path : Bytes) : Prop :=
  DOTDOT ∈ components path
    ∨ path.head? = some SEP ∨ path.head? = some 92
    ∨ (∃ drive rest, path = drive :: 58 :: rest ∧ isAsciiAlphabetic drive = true)
    ∨ (0 : UInt8) ∈ path
    ∨ (∃ c ∈ components path, MAX_COMPONENT < c.length)
    ∨ MAX_DEPTH < (components path).length
    ∨ components path = []

/-- The loop refuses a path only for a component or for the depth. -/
theorem rejectLoop_error {path : Bytes} {why : String}
    (h : rejectLoop (components path) 0 = .error why) : Hostile path := by
  by_contra hh
  simp only [Hostile, not_or, not_exists, not_and, Nat.not_lt] at hh
  obtain ⟨h1, -, -, -, -, h6, h7, -⟩ := hh
  have hok : rejectLoop (components path) 0 = .ok (components path).length := by
    refine (rejectLoop_ok_iff (Nat.zero_le _)).mpr ⟨fun c hc => ⟨?_, h6 c hc⟩, by simp, h7⟩
    intro he
    exact h1 (he ▸ hc)
  rw [h] at hok
  exact absurd hok (by simp)

/-- **`reject_reason` accepts exactly the paths that are not hostile.** -/
theorem rejectReason_eq_none_iff {path : Bytes} : rejectReason path = none ↔ ¬ Hostile path := by
  cases path with
  | nil =>
      refine ⟨fun h => absurd h (by simp [rejectReason]), fun h => absurd ?_ h⟩
      right; right; right; right; right; right; right
      decide
  | cons first rest =>
      rw [rejectReason]
      split
      · rename_i h0
        refine ⟨fun h => absurd h (by simp), fun h => absurd ?_ h⟩
        right; right; right; right; left
        simpa using h0
      split
      · rename_i _ h1
        refine ⟨fun h => absurd h (by simp), fun h => absurd ?_ h⟩
        rcases h1 with h1 | h1
        · right; left; simp [h1]
        · right; right; left; simp [h1]
      split
      · rename_i _ _ h2
        refine ⟨fun h => absurd h (by simp), fun h => absurd ?_ h⟩
        obtain ⟨h2, h3⟩ := h2
        cases rest with
        | nil => exact absurd h2 (by simp)
        | cons b rest =>
            simp only [List.head?_cons, Option.some.injEq] at h2
            right; right; right; left
            exact ⟨first, rest, by rw [h2], h3⟩
      rename_i h0 h1 h2
      split
      · rename_i why hwhy
        exact ⟨fun h => absurd h (by simp), fun h => absurd (rejectLoop_error hwhy) h⟩
      · rename_i depth hdepth
        obtain ⟨hcs, hn, hle⟩ := (rejectLoop_ok_iff (Nat.zero_le _)).mp hdepth
        rw [Nat.zero_add] at hn
        split
        · rename_i hz
          refine ⟨fun h => absurd h (by simp), fun h => absurd ?_ h⟩
          right; right; right; right; right; right; right
          exact List.eq_nil_of_length_eq_zero (by omega)
        · rename_i hz
          refine ⟨fun _ => ?_, fun _ => rfl⟩
          rintro (h | h | h | ⟨drive, rest', h, h'⟩ | h | ⟨c, hc, h⟩ | h | h)
          · exact (hcs _ h).1 rfl
          · exact h1 (Or.inl (by simpa using h))
          · exact h1 (Or.inr (by simpa using h))
          · injection h with h3 h4
            exact h2 ⟨by rw [h4]; rfl, h3 ▸ h'⟩
          · exact h0 (by simpa using h)
          · exact absurd (hcs c hc).2 (Nat.not_le.mpr h)
          · omega
          · rw [h] at hn; exact hz hn

/-- The components of an accepted path can all become names. -/
theorem isName_of_accepted {path c : Bytes} (h : rejectReason path = none)
    (hc : c ∈ components path) : IsName c := by
  have hh := rejectReason_eq_none_iff.mp h
  simp only [Hostile, not_or, not_exists, not_and, Nat.not_lt] at hh
  obtain ⟨h1, -, -, -, h5, h6, -, -⟩ := hh
  refine ⟨isComponent_of_mem hc, fun he => h1 (he ▸ hc), h6 c hc, fun h0 => h5 ?_⟩
  exact mem_of_mem_splitOn (List.mem_filter.mp hc).1 h0

/-- An accepted path has between one and `MAX_DEPTH` components. -/
theorem depth_of_accepted {path : Bytes} (h : rejectReason path = none) :
    components path ≠ [] ∧ (components path).length ≤ MAX_DEPTH := by
  have hh := rejectReason_eq_none_iff.mp h
  simp only [Hostile, not_or, Nat.not_lt] at hh
  exact ⟨hh.2.2.2.2.2.2.2, hh.2.2.2.2.2.2.1⟩

/-- What `add` works with: the parent's bytes and the leaf of an accepted path. -/
theorem splitParent_normalizePath {path : Bytes} (h : rejectReason path = none) :
    ∃ cs l, components path = cs ++ [l] ∧ IsName l ∧ (∀ c ∈ cs, IsName c)
      ∧ splitParent (normalizePath path) = (parentBytes cs, l) := by
  rcases List.eq_nil_or_concat (components path) with hnil | ⟨cs, l, hcs⟩
  · exact absurd hnil (depth_of_accepted h).1
  · rw [List.concat_eq_append] at hcs
    have hname : ∀ c ∈ cs ++ [l], IsName c := fun c hc => isName_of_accepted h (hcs ▸ hc)
    have hl := hname l (by simp)
    refine ⟨cs, l, hcs, hl, fun c hc => hname c (List.mem_append_left _ hc), ?_⟩
    rw [normalizePath_eq, hcs]
    exact splitParent_intercalate hl.toIsComponent

/-! ## Normal forms -/

/-- Normalised bytes are the same when the components are. -/
theorem normalizePath_eq_iff {p q : Bytes} :
    normalizePath p = normalizePath q ↔ components p = components q := by
  constructor
  · intro h
    rw [← components_normalizePath p, h, components_normalizePath]
  · intro h
    rw [normalizePath_eq, h, ← normalizePath_eq]

/--
**Normalising is canonical.** For every path that is accepted:

* it keeps the components, and normalising again changes nothing;
* accepted paths have the same normal form exactly when they have the same components;
* splitting the normal form gives a leaf with a byte in it and the bytes of a parent whose
  components, with the leaf, are those of the path;
* and the bytes of two parents are the same exactly when their components are.
-/
theorem path_canonical {p : Bytes} (h : rejectReason p = none) :
    components (normalizePath p) = components p ∧
    normalizePath (normalizePath p) = normalizePath p ∧
    (∀ q, rejectReason q = none →
      (normalizePath p = normalizePath q ↔ components p = components q)) ∧
    (∀ parent leaf, splitParent (normalizePath p) = (parent, leaf) →
      leaf ≠ [] ∧ components parent ++ [leaf] = components p) ∧
    (∀ q, rejectReason q = none → ∀ parent leaf parent' leaf',
      splitParent (normalizePath p) = (parent, leaf) →
      splitParent (normalizePath q) = (parent', leaf') →
      (parent = parent' ↔ components parent = components parent')) := by
  obtain ⟨cs, l, hcs, hl, hnames, hsplit⟩ := splitParent_normalizePath h
  refine ⟨components_normalizePath p, normalizePath_eq_iff.mpr (components_normalizePath p),
    fun q _ => normalizePath_eq_iff, ?_, ?_⟩
  · intro parent leaf hparts
    obtain ⟨rfl, rfl⟩ := Prod.mk.inj (hsplit.symm.trans hparts)
    refine ⟨hl.ne_nil, ?_⟩
    rw [components_parentBytes fun c hc => (hnames c hc).toIsComponent, hcs]
  · intro q hq parent leaf parent' leaf' hparts hparts'
    obtain ⟨ds, l', -, -, hnames', hsplit'⟩ := splitParent_normalizePath hq
    obtain ⟨rfl, rfl⟩ := Prod.mk.inj (hsplit.symm.trans hparts)
    obtain ⟨rfl, rfl⟩ := Prod.mk.inj (hsplit'.symm.trans hparts')
    rw [components_parentBytes fun c hc => (hnames c hc).toIsComponent,
      components_parentBytes fun c hc => (hnames' c hc).toIsComponent]
    constructor
    · intro hbytes
      rw [← components_parentBytes fun c hc => (hnames c hc).toIsComponent, hbytes,
        components_parentBytes fun c hc => (hnames' c hc).toIsComponent]
    · intro hcomps
      rw [hcomps]

/-- `a//./b/` and `a/b` have one normal form. -/
theorem path_canonical_sample :
    normalizePath [97, 47, 47, 46, 47, 98, 47] = normalizePath [97, 47, 98] ∧
      components (splitParent (normalizePath [97, 47, 47, 46, 47, 98, 47])).1 ++ [[98]] =
        [[97], [98]] := by
  have h := path_canonical (p := [97, 47, 47, 46, 47, 98, 47]) (by decide)
  exact ⟨(h.2.2.1 [97, 47, 98] (by decide)).mpr (by decide), (h.2.2.2.1 _ [98] (by decide)).2⟩

end ZipFs
