import ZipFs.Index.Build
import Mathlib.Data.List.TakeWhile

/-!
# What the tree is for

The builder keeps nodes, a name blob and a hash table. What it means to keep is
simpler: for every path, a list of components, whether there is something there,
what kind of thing, and which entry it came from. That is `Tree`, and this file
says how one entry changes it, path by path.

Everything about duplicates and clashes is decided here, by a small automaton that
runs separately at every path. An entry does one of three things to a path: the
path lies strictly above the entry's own and has to be a directory; it is the
entry's own; or it is somewhere else.
-/

namespace ZipFs

/-- What is at a path. -/
structure Info where
  kind : NodeKind
  /-- The entry that declared it. A directory that a deeper path implied has none. -/
  entry : Option EntryMeta
  deriving DecidableEq, Repr

/-- A directory no entry has declared. -/
def Info.implied : Info := ⟨.dir, none⟩

/-- The metadata as the archive gave it, before a symlink is given a target cell. -/
def EntryMeta.bare (m : EntryMeta) : EntryMeta := { m with symlinkSlot := 0 }

/-- An accepted entry: where it goes, what it asks to be, and its metadata. -/
structure Claim where
  comps : List Bytes
  kind : NodeKind
  info : EntryMeta
  deriving DecidableEq, Repr

/-- `p` is a proper prefix of `q`. -/
def Above (p q : List Bytes) : Prop := p <+: q ∧ p ≠ q

instance (p q : List Bytes) : Decidable (Above p q) := inferInstanceAs (Decidable (_ ∧ _))

/-- A path that has to be a directory: the directory wins over anything else. -/
def Info.asDir : Option Info → Info
  | some i => if i.kind = .dir then i else .implied
  | none => .implied

/-- A path that an entry claims. -/
def Info.claimed (c : Claim) : Option Info → Info
  | none => ⟨c.kind, some c.info.bare⟩
  | some i => if i = .implied ∧ c.kind = .dir then ⟨.dir, some c.info.bare⟩ else i

/-- What one entry does to one path. -/
def stepAt (p : List Bytes) (s : Option Info) (c : Claim) : Option Info :=
  if Above p c.comps then some (Info.asDir s)
  else if p = c.comps then some (Info.claimed c s)
  else s

abbrev Tree := List Bytes → Option Info

/-- An empty archive has a root directory and nothing else. -/
def Tree.root : Tree := fun p => if p = [] then some .implied else none

def Tree.add (T : Tree) (c : Claim) : Tree := fun p => stepAt p (T p) c

/-- The tree that a list of accepted entries makes. -/
def treeOf (A : List Claim) : Tree := A.foldl Tree.add .root

/-! ## One path at a time -/

theorem foldl_add (A : List Claim) (T : Tree) (p : List Bytes) :
    A.foldl Tree.add T p = A.foldl (stepAt p) (T p) := by
  induction A generalizing T with
  | nil => rfl
  | cons c A ih => rw [List.foldl_cons, List.foldl_cons, ih]; rfl

theorem treeOf_append (A B : List Claim) (p : List Bytes) :
    treeOf (A ++ B) p = B.foldl (stepAt p) (treeOf A p) := by
  unfold treeOf
  rw [List.foldl_append, foldl_add]

theorem treeOf_snoc (A : List Claim) (c : Claim) : treeOf (A ++ [c]) = (treeOf A).add c := by
  unfold treeOf
  rw [List.foldl_append]
  rfl

theorem stepAt_above {p : List Bytes} {c : Claim} (h : Above p c.comps) (s : Option Info) :
    stepAt p s c = some (Info.asDir s) := if_pos h

theorem stepAt_self (c : Claim) (s : Option Info) :
    stepAt c.comps s c = some (Info.claimed c s) := by
  rw [stepAt, if_neg (fun h => h.2 rfl), if_pos rfl]

theorem stepAt_elsewhere {p : List Bytes} {c : Claim} (h : ¬ Above p c.comps) (hne : p ≠ c.comps)
    (s : Option Info) : stepAt p s c = s := by
  rw [stepAt, if_neg h, if_neg hne]

theorem asDir_kind (s : Option Info) : (Info.asDir s).kind = .dir := by
  cases s with
  | none => rfl
  | some i =>
      rw [Info.asDir]
      split
      · assumption
      · rfl

theorem asDir_of_dir {i : Info} (h : i.kind = .dir) : Info.asDir (some i) = i := if_pos h

/-- Once a directory, always a directory. -/
theorem stepAt_dir {p : List Bytes} {i : Info} (h : i.kind = .dir) (c : Claim) :
    ∃ j, stepAt p (some i) c = some j ∧ j.kind = .dir := by
  rw [stepAt]
  split
  · exact ⟨_, rfl, asDir_kind _⟩
  split
  · refine ⟨_, rfl, ?_⟩
    rw [Info.claimed]
    split
    · rfl
    · exact h
  · exact ⟨i, rfl, h⟩

/-- A declared directory does not change any more. -/
theorem stepAt_declared {p : List Bytes} {m : EntryMeta} (c : Claim) :
    stepAt p (some ⟨.dir, some m⟩) c = some ⟨.dir, some m⟩ := by
  rw [stepAt]
  split
  · rfl
  split
  · simp [Info.claimed, Info.implied]
  · rfl

theorem foldl_dir {p : List Bytes} (A : List Claim) {i : Info} (h : i.kind = .dir) :
    ∃ j, A.foldl (stepAt p) (some i) = some j ∧ j.kind = .dir := by
  induction A generalizing i with
  | nil => exact ⟨i, rfl, h⟩
  | cons c A ih =>
      obtain ⟨j, hj, hd⟩ := stepAt_dir (p := p) h c
      rw [List.foldl_cons, hj]
      exact ih hd

theorem foldl_declared {p : List Bytes} (A : List Claim) {m : EntryMeta} :
    A.foldl (stepAt p) (some ⟨.dir, some m⟩) = some ⟨.dir, some m⟩ := by
  induction A with
  | nil => rfl
  | cons c A ih => rw [List.foldl_cons, stepAt_declared, ih]

/-- Entries that are neither here nor below leave a path alone. -/
theorem foldl_elsewhere {p : List Bytes} {A : List Claim}
    (h : ∀ c ∈ A, ¬ Above p c.comps ∧ p ≠ c.comps) (s : Option Info) :
    A.foldl (stepAt p) s = s := by
  induction A generalizing s with
  | nil => rfl
  | cons c A ih =>
      obtain ⟨h1, h2⟩ := h c List.mem_cons_self
      rw [List.foldl_cons, stepAt_elsewhere h1 h2]
      exact ih (fun d hd => h d (List.mem_cons_of_mem _ hd)) s

/-! ## Which paths there are -/

theorem stepAt_isSome {p : List Bytes} {s : Option Info} {c : Claim} :
    (stepAt p s c).isSome ↔ p <+: c.comps ∨ s.isSome := by
  rw [stepAt]
  by_cases h : Above p c.comps
  · rw [if_pos h]; simp [h.1]
  · rw [if_neg h]
    by_cases he : p = c.comps
    · rw [if_pos he]; simp [he]
    · rw [if_neg he]
      refine ⟨Or.inr, fun hs => hs.resolve_left (fun hp => h ⟨hp, he⟩)⟩

theorem foldl_isSome {p : List Bytes} (A : List Claim) (s : Option Info) :
    (A.foldl (stepAt p) s).isSome ↔ (∃ c ∈ A, p <+: c.comps) ∨ s.isSome := by
  induction A generalizing s with
  | nil => simp
  | cons c A ih =>
      rw [List.foldl_cons, ih, stepAt_isSome]
      simp only [List.mem_cons, exists_eq_or_imp]
      rw [or_left_comm, or_assoc]

/-- **The tree is the prefix closure of its entries.** -/
theorem treeOf_isSome {A : List Claim} {p : List Bytes} :
    (treeOf A p).isSome ↔ p = [] ∨ ∃ c ∈ A, p <+: c.comps := by
  rw [treeOf, foldl_add, foldl_isSome, Tree.root]
  by_cases h : p = []
  · simp [h]
  · simp [h]

/-! ## What is at a path -/

/-- A path above some entry is a directory. -/
theorem treeOf_above {A : List Claim} {c : Claim} (hc : c ∈ A) {p : List Bytes}
    (h : Above p c.comps) : ∃ i, treeOf A p = some i ∧ i.kind = .dir := by
  obtain ⟨pre, post, rfl⟩ := List.append_of_mem hc
  rw [treeOf_append, List.foldl_cons, stepAt_above h]
  exact foldl_dir post (asDir_kind _)

/-- So is the root. -/
theorem treeOf_nil (A : List Claim) : ∃ i, treeOf A [] = some i ∧ i.kind = .dir := by
  rw [treeOf, foldl_add, Tree.root, if_pos rfl]
  exact foldl_dir A rfl

/-- An entry that finds its path taken by a declared one changes nothing. -/
theorem foldl_taken {p : List Bytes} {A : List Claim} (h : ∀ c ∈ A, ¬ Above p c.comps)
    {k : NodeKind} {m : EntryMeta} : A.foldl (stepAt p) (some ⟨k, some m⟩) = some ⟨k, some m⟩ := by
  induction A with
  | nil => rfl
  | cons c A ih =>
      have hstep : stepAt p (some ⟨k, some m⟩) c = some ⟨k, some m⟩ := by
        rw [stepAt, if_neg (h c List.mem_cons_self)]
        split
        · simp [Info.claimed, Info.implied]
        · rfl
      rw [List.foldl_cons, hstep]
      exact ih (fun d hd => h d (List.mem_cons_of_mem _ hd))

/-- **With nothing below it, a path is what its first entry says.** -/
theorem treeOf_first {pre post : List Claim} {c : Claim} (hne : c.comps ≠ [])
    (hfirst : ∀ d ∈ pre, d.comps ≠ c.comps)
    (habove : ∀ d ∈ pre ++ c :: post, ¬ Above c.comps d.comps) :
    treeOf (pre ++ c :: post) c.comps = some ⟨c.kind, some c.info.bare⟩ := by
  rw [treeOf_append, List.foldl_cons]
  have hpre : treeOf pre c.comps = none := by
    rw [treeOf, foldl_add, Tree.root, if_neg hne]
    exact foldl_elsewhere (fun d hd => ⟨habove d (List.mem_append_left _ hd),
      fun he => hfirst d hd he.symm⟩) none
  rw [hpre, stepAt_self]
  exact foldl_taken (fun d hd => habove d (List.mem_append_right _ (List.mem_cons_of_mem _ hd)))

/-! ## Clashes between a file and a directory -/

/-- `c` declares `p` as a directory. -/
def Claim.declares (p : List Bytes) (c : Claim) : Bool := decide (c.kind = .dir ∧ c.comps = p)

theorem declares_iff {p : List Bytes} {c : Claim} :
    c.declares p = true ↔ c.kind = .dir ∧ c.comps = p := by
  rw [Claim.declares, decide_eq_true_eq]

section Clash

variable {p : List Bytes} {A : List Claim}

/-- A directory that nobody has declared stays so until somebody does. -/
theorem foldl_implied (h : ∀ c ∈ A, c.declares p = false) :
    A.foldl (stepAt p) (some .implied) = some .implied := by
  induction A with
  | nil => rfl
  | cons c A ih =>
      have hstep : stepAt p (some .implied) c = some .implied := by
        rw [stepAt]
        split
        · rfl
        split
        · rename_i he
          have hk : c.kind ≠ .dir := fun hk => by
            have := h c List.mem_cons_self
            rw [declares_iff.mpr ⟨hk, he.symm⟩] at this
            exact absurd this (by simp)
          rw [Info.claimed, if_neg (fun hi => hk hi.2)]
        · rfl
      rw [List.foldl_cons, hstep]
      exact ih (fun d hd => h d (List.mem_cons_of_mem _ hd))

/-- The first declaration after that is the one that counts. -/
theorem foldl_implied_find (A : List Claim) :
    A.foldl (stepAt p) (some .implied) =
      some ⟨.dir, (A.find? (Claim.declares p)).map (fun c => c.info.bare)⟩ := by
  cases hfind : A.find? (Claim.declares p) with
  | none =>
      rw [foldl_implied (fun c hc => by simpa using List.find?_eq_none.mp hfind c hc)]
      rfl
  | some e =>
      obtain ⟨he, pre, post, rfl, hpre⟩ := List.find?_eq_some_iff_append.mp hfind
      obtain ⟨hk, rfl⟩ := declares_iff.mp he
      rw [List.foldl_append, foldl_implied (fun c hc => by simpa using hpre c hc), List.foldl_cons,
        stepAt_self, Info.claimed, if_pos ⟨rfl, hk⟩, foldl_declared]
      rfl

/-- Without a declaration, a path above an entry is an implied directory. -/
theorem treeOf_undeclared (h : ∀ c ∈ A, c.declares p = false) {c : Claim} (hc : c ∈ A)
    (hab : Above p c.comps) : treeOf A p = some .implied := by
  obtain ⟨i, hi, hd⟩ := treeOf_above hc hab
  -- such a directory can only have come from a path below
  have hinv : ∀ (B : List Claim) (s : Option Info), (∀ d ∈ B, d.declares p = false) →
      (∀ j, s = some j → j.kind = .dir → j = .implied) →
      ∀ j, B.foldl (stepAt p) s = some j → j.kind = .dir → j = .implied := by
    intro B
    induction B with
    | nil => exact fun s _ hs => hs
    | cons d B ih =>
        intro s hB hs
        rw [List.foldl_cons]
        refine ih _ (fun e he => hB e (List.mem_cons_of_mem _ he)) (fun j hj hjd => ?_)
        rw [stepAt] at hj
        split at hj
        · injection hj with hj
          rw [← hj]
          cases s with
          | none => rfl
          | some i =>
              rw [Info.asDir]
              split
              · rename_i hk
                exact hs i rfl hk
              · rfl
        split at hj
        · rename_i he
          injection hj with hj
          have hk : d.kind ≠ .dir := fun hk => by
            have := hB d List.mem_cons_self
            rw [declares_iff.mpr ⟨hk, he.symm⟩] at this
            exact absurd this (by simp)
          cases s with
          | none =>
              rw [← hj] at hjd
              exact absurd hjd hk
          | some i =>
              rw [Info.claimed, if_neg (fun hi => hk hi.2)] at hj
              exact hs j (congrArg some hj) hjd
        · exact hs j hj hjd
  rw [hi, hinv A (Tree.root p) h (fun j hj _ => ?_) i (by rw [← hi, treeOf, foldl_add]) hd]
  rw [Tree.root] at hj
  split at hj
  · injection hj with hj
    exact hj.symm
  · exact absurd hj (by simp)

/-- What is left of `post` after the first entry below `p`. -/
def afterBelow (p : List Bytes) (post : List Claim) : List Claim :=
  (post.dropWhile (fun c => decide (¬ Above p c.comps))).tail

/--
When a file already has the name, a directory entry is lost. Only an entry below
turns the name into a directory, and then it is the next directory entry that
counts, if there is one.
-/
theorem foldl_file {k : NodeKind} {m : EntryMeta} (hk : k ≠ .dir) (post : List Claim)
    (e : Option EntryMeta) :
    post.foldl (stepAt p) (some ⟨k, some m⟩) = some ⟨.dir, e⟩ ↔
      (∃ c ∈ post, Above p c.comps) ∧
        ((afterBelow p post).find? (Claim.declares p)).map (fun c => c.info.bare) = e := by
  by_cases hab : ∃ c ∈ post, Above p c.comps
  · -- split at the first entry below
    obtain ⟨c, mid, rest, hpost, hmid, hc⟩ : ∃ c mid rest, post = mid ++ c :: rest ∧
        (∀ d ∈ mid, ¬ Above p d.comps) ∧ Above p c.comps := by
      obtain ⟨c0, hc0, hab0⟩ := hab
      have hfind : (post.find? (fun c => decide (Above p c.comps))).isSome :=
        List.find?_isSome.mpr ⟨c0, hc0, by simpa using hab0⟩
      obtain ⟨c, hc⟩ := Option.isSome_iff_exists.mp hfind
      obtain ⟨h1, mid, rest, h2, h3⟩ := List.find?_eq_some_iff_append.mp hc
      exact ⟨c, mid, rest, h2, fun d hd => by simpa using h3 d hd, by simpa using h1⟩
    have hafter : afterBelow p post = rest := by
      rw [afterBelow, hpost, List.dropWhile_append_of_pos (fun d hd => by simpa using hmid d hd),
        List.dropWhile_cons_of_neg (by simpa using hc)]
      rfl
    have himp : Info.asDir (some ⟨k, some m⟩) = .implied := if_neg hk
    rw [hafter, hpost, List.foldl_append, foldl_taken hmid, List.foldl_cons, stepAt_above hc, himp,
      foldl_implied_find]
    simp only [Option.some.injEq, Info.mk.injEq, true_and]
    exact ⟨fun h => ⟨⟨c, by simp, hc⟩, h⟩, fun h => h.2⟩
  · have hno : ∀ c ∈ post, ¬ Above p c.comps := fun c hc h => hab ⟨c, hc, h⟩
    rw [foldl_taken hno]
    refine ⟨fun h => ?_, fun h => absurd h.1 hab⟩
    injection h with h
    injection h with h
    exact absurd h hk

/-- **When the first directory entry for `p` is kept.** -/
theorem treeOf_declared {pre post : List Claim} {e : Claim} (hp : p ≠ [])
    (hpre : ∀ c ∈ pre, c.declares p = false) (he : e.declares p = true) :
    treeOf (pre ++ e :: post) p = some ⟨.dir, some e.info.bare⟩ ↔
      (∀ c ∈ pre, c.comps ≠ p) ∨ (∃ c ∈ pre, Above p c.comps) ∨
        ((afterBelow p post).find? (Claim.declares p)).map (fun c => c.info.bare)
          = some e.info.bare := by
  obtain ⟨hk, rfl⟩ := declares_iff.mp he
  rw [treeOf_append, List.foldl_cons, stepAt_self]
  by_cases hab : ∃ c ∈ pre, Above e.comps c.comps
  · -- a directory already, by the entries below it
    obtain ⟨c, hc, h⟩ := hab
    rw [treeOf_undeclared hpre hc h, Info.claimed, if_pos ⟨rfl, hk⟩, foldl_declared]
    exact ⟨fun _ => Or.inr (Or.inl ⟨c, hc, h⟩), fun _ => rfl⟩
  have hno : ∀ c ∈ pre, ¬ Above e.comps c.comps := fun c hc h => hab ⟨c, hc, h⟩
  by_cases hfree : ∀ c ∈ pre, c.comps ≠ e.comps
  · -- nothing there yet
    have hnone : treeOf pre e.comps = none := by
      rw [treeOf, foldl_add, Tree.root, if_neg hp]
      exact foldl_elsewhere (fun d hd => ⟨hno d hd, fun h => hfree d hd h.symm⟩) none
    rw [hnone, Info.claimed, hk, foldl_declared]
    exact ⟨fun _ => Or.inl hfree, fun _ => rfl⟩
  · -- a file has the name
    obtain ⟨f, hf, mid, rest, hsplit, hmid⟩ : ∃ f, f.comps = e.comps ∧ ∃ mid rest,
        pre = mid ++ f :: rest ∧ ∀ d ∈ mid, d.comps ≠ e.comps := by
      have hfind : (pre.find? (fun c => decide (c.comps = e.comps))).isSome := by
        rw [List.find?_isSome]
        by_contra hc
        exact hfree (fun c hcm he' => hc ⟨c, hcm, by simpa using he'⟩)
      obtain ⟨f, hf⟩ := Option.isSome_iff_exists.mp hfind
      obtain ⟨h1, mid, rest, h2, h3⟩ := List.find?_eq_some_iff_append.mp hf
      exact ⟨f, by simpa using h1, mid, rest, h2, fun d hd => by simpa using h3 d hd⟩
    have hfk : f.kind ≠ .dir := fun hfk => by
      have := hpre f (by rw [hsplit]; simp)
      rw [declares_iff.mpr ⟨hfk, hf⟩] at this
      exact absurd this (by simp)
    have hfile : treeOf pre e.comps = some ⟨f.kind, some f.info.bare⟩ := by
      rw [hsplit, ← hf]
      exact treeOf_first (hf ▸ hp) (fun d hd => hf ▸ hmid d hd)
        (fun d hd => hf ▸ hno d (hsplit ▸ hd))
    have hlost : Info.claimed e (some ⟨f.kind, some f.info.bare⟩) = ⟨f.kind, some f.info.bare⟩ := by
      simp [Info.claimed, Info.implied]
    rw [hfile, hlost, foldl_file hfk]
    constructor
    · exact fun h => Or.inr (Or.inr h.2)
    · rintro (h | h | h)
      · exact absurd h hfree
      · exact absurd h hab
      · refine ⟨?_, h⟩
        -- something is left after an entry below, so there is one
        by_contra hnone
        have hdrop : post.dropWhile (fun c => decide (¬ Above e.comps c.comps)) = [] := by
          rw [List.dropWhile_eq_nil_iff]
          intro c hc
          simpa using fun hcab => hnone ⟨c, hc, hcab⟩
        rw [afterBelow, hdrop] at h
        exact absurd h (by simp)

end Clash

end ZipFs
