import ZipFs.Index.Steps
import ZipFs.Index.Invariant

/-!
# The parent memo is invisible

`resolve_parent` remembers the last directory it resolved, and answers the same bytes
from memory. That skips the interner, the check that every component is a directory and
the take-over of files, so it is right only if the walk would have found the very same
directory and changed nothing.

There is one builder in which it would not: one where the directory has the last
identifier there is, because the interner does not find that node again. Such a builder
is not reached. A directory is remembered only by an `add` that then finds or makes a
leaf in it, and the leaf is younger.
-/

namespace ZipFs

/-- `resolve_parent` without its shortcut: from the root, component by component. -/
def Builder.walkParent (b : Builder) (parentPath : Bytes) : Build (Builder × Nat) := do
  let (b, cur) ← resolveLoop (components parentPath) b 0
  return ({ b with memoPath := parentPath, memoId := cur }, cur)

section Walk

variable {b : Builder}

/-- A node the interner knows is found, and nothing else happens. -/
theorem intern_found (h : b.Ok) {id parent : Nat} {name : Bytes} (hid : 0 < id)
    (hroom : id + 1 < 2 ^ 32) (hk : HasKey b.nodes b.names id parent name) :
    b.intern parent name = .ok (b, id, false) := by
  obtain ⟨r, hfind, hsome, hnone⟩ := Interner.find_spec h.interner parent name
  rw [Builder.intern, hfind]
  have hk₀ := hk
  obtain ⟨n, hn, -⟩ := hk₀
  have hrec : Recorded b.nodes id := ⟨hid, (List.getElem?_eq_some_iff.mp hn).1, hroom⟩
  cases r with
  | none => exact absurd hk (hnone rfl id hrec)
  | some id' =>
      obtain ⟨hrec', hk'⟩ := hsome id' rfl
      rw [h.unique id' id parent name hrec'.1 hid hk' hk]
      rfl

theorem resolveComponent_found (h : b.Ok) {cur id : Nat} {comp : Bytes} (hid : 0 < id)
    (hroom : id + 1 < 2 ^ 32) (hk : HasKey b.nodes b.names id cur comp) {n : TmpNode}
    (hn : b.nodes[id]? = some n) (hd : n.kind = .dir) :
    b.resolveComponent cur comp = .ok (b, id) := by
  rw [Builder.resolveComponent, intern_found h hid hroom hk]
  simp only [bind, Except.bind, Bool.false_eq_true, if_false, at!_ok hn, hd, ne_eq,
    not_true_eq_false]
  rfl

/-- A walk to a directory that is there leaves everything as it was. -/
theorem resolveLoop_found (h : b.Ok) {comps : List Bytes} {cur id : Nat} {p : List Bytes}
    {n : TmpNode} (hcur : PathOf b.nodes b.names cur p) (hn : b.nodes[id]? = some n)
    (hd : n.kind = .dir) (hp : PathOf b.nodes b.names id (p ++ comps))
    (hroom : id + 1 < 2 ^ 32) : Builder.resolveLoop comps b cur = .ok (b, id) := by
  induction comps generalizing cur p with
  | nil =>
      rw [List.append_nil] at hp
      rw [hp.node_unique h.unique hcur]
      rfl
  | cons c cs ih =>
      have happ : p ++ c :: cs = p ++ [c] ++ cs := by simp
      rw [happ] at hp
      -- the directory for the first component lies on the way
      obtain ⟨j, m, hm, hmd, hj, hle⟩ := hp.ancestor_dir h hn hd
      obtain ⟨hpos, parent, hkey, hpar⟩ := pathOf_snoc hj
      rw [hpar.node_unique h.unique hcur] at hkey
      rw [Builder.resolveLoop, resolveComponent_found h hpos (by omega) hkey hm hmd]
      exact ih hj hp

/-- The memo answers as the walk does. -/
theorem resolveParent_eq_walk (h : b.Ok) (hroom : b.memoId + 1 < 2 ^ 32) (parentPath : Bytes) :
    b.resolveParent parentPath = b.walkParent parentPath := by
  rw [Builder.resolveParent, Builder.walkParent]
  by_cases hmemo : parentPath = b.memoPath
  · obtain ⟨n, hn, hd, hp⟩ := h.memo
    rw [if_pos hmemo, hmemo,
      resolveLoop_found h .root hn hd (by rw [List.nil_append]; exact hp) hroom]
    rfl
  · rw [if_neg hmemo]

end Walk

section Runs

variable {b b' : Builder}

theorem Claimed.memoId {e : Entry} {leaf : Bytes} (h : Claimed e leaf b b') :
    b'.memoId = b.memoId := by
  cases h with
  | beaten warn => rfl
  | declared => rfl
  | fresh hg _ _ => exact hg.memoId

/-- The remembered directory is one that the interner finds again. -/
theorem addAll_memoId {hint : Nat} {entries : List Entry} (hrun : addAll hint entries = .ok b) :
    b.memoId + 1 < 2 ^ 32 := by
  refine addAll_induction (I := fun _ b => b.memoId + 1 < 2 ^ 32) hrun (by simp [Builder.new]) ?_
  intro done e b b' hok hm hadd hroom
  cases he : e.accepted with
  | false =>
      rcases add_turned_away he hadd with rfl | rfl
      · exact hroom
      · exact hroom
  | true =>
      obtain ⟨cs, leaf, b₁, parent, -, -, -, -, hmemo, hclaim, hlt⟩ := add_halves hok hm he hadd
      rw [hclaim.memoId, hmemo]
      exact hlt

/-- Whatever entries follow, nothing stops being a directory. -/
theorem foldlM_add_kept {done later : List Entry} (h : b.Ok)
    (hm : Models b (treeOf (accepted done))) (hrun : later.foldlM Builder.add b = .ok b') :
    Kept b b' := by
  induction later generalizing b done with
  | nil =>
      injection hrun with hrun
      exact hrun ▸ .refl b
  | cons e later ih =>
      rw [List.foldlM_cons] at hrun
      obtain ⟨b₁, hadd, hrun⟩ := bind_eq_ok hrun
      obtain ⟨lost, hadded⟩ := add_added h hm hadd
      obtain ⟨h₁, hm₁⟩ := add_keeps h hm hadd
      exact hadded.kept.trans (ih h₁ hm₁ hrun)

end Runs

/--
**The parent memo is invisible.** In every builder that some entries lead to,
`resolve_parent` does for every parent path exactly what the walk from the root does: the
same node, the same builder, or the same error. And the node that an entry's parent
resolves to is a directory then, and still is after that entry and any entries after it.
-/
theorem parent_memo_invisible {hint : Nat} {entries : List Entry} {b : Builder}
    (hrun : addAll hint entries = .ok b) :
    (∀ path : Bytes,
      b.resolveParent (splitParent (normalizePath path)).1 =
        b.walkParent (splitParent (normalizePath path)).1) ∧
    (∀ (e : Entry) (b₁ : Builder) (id : Nat), e.accepted = true →
      b.resolveParent (splitParent (normalizePath e.path)).1 = .ok (b₁, id) →
      (∃ n, b₁.nodes[id]? = some n ∧ n.kind = .dir) ∧
      ∀ (later : List Entry) (b₂ : Builder), (e :: later).foldlM Builder.add b = .ok b₂ →
        ∃ n, b₂.nodes[id]? = some n ∧ n.kind = .dir) := by
  obtain ⟨hok, hm, -⟩ := (addAll_spec hint entries).elim hrun
  refine ⟨fun path => resolveParent_eq_walk hok (addAll_memoId hrun) _, ?_⟩
  intro e b₁ id he hresolve
  have hacc := he
  simp only [Entry.accepted, Bool.and_eq_true, Option.isNone_iff_eq_none] at hacc
  obtain ⟨cs, leaf, -, -, hnames, hsplit⟩ := splitParent_normalizePath hacc.1.1
  rw [hsplit] at hresolve
  obtain ⟨-, -, -, ⟨n, hn, hd⟩, -, -⟩ := (resolveParent_spec hok hm hnames).elim hresolve
  refine ⟨⟨n, hn, hd⟩, fun later b₂ hlater => ?_⟩
  rw [List.foldlM_cons] at hlater
  obtain ⟨b', hadd, hlater⟩ := bind_eq_ok hlater
  -- the entry's own `add` resolved the same parent before it dealt with the leaf
  obtain ⟨cs', leaf', b₁', parent, -, -, hsplit', hresolve', -, hclaim, -⟩ :=
    add_halves hok hm he hadd
  rw [hsplit] at hsplit'
  injection hsplit' with hcs
  rw [← hcs, hresolve] at hresolve'
  injection hresolve' with hresolve'
  injection hresolve' with hb hid
  subst hb
  obtain ⟨hok', hm'⟩ := add_keeps hok hm hadd
  exact (hclaim.kept.trans (foldlM_add_kept hok' hm' hlater)).dir id n hn hd

/-- Two files of one directory, and a third that the memo answers for. -/
theorem parent_memo_invisible_sample :
    ∃ b, addAll 3 sampleEntries = .ok b ∧
      b.resolveParent (splitParent (normalizePath sampleEntries[0].path)).1 =
        b.walkParent (splitParent (normalizePath sampleEntries[0].path)).1 := by
  obtain ⟨b, hb, -⟩ := exists_ok_of_map
    (show (addAll 3 sampleEntries).toOption.map (fun _ => ()) = some () by decide +kernel)
  exact ⟨b, hb, (parent_memo_invisible hb).1 _⟩

end ZipFs
