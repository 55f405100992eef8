import ZipFs.Index.Order

/-!
# An archive that fits is indexed

`build` gives up only when a number it stores does not fit. The limits are checked in the
middle of both passes, on counts that depend on what came before. Here they are bounded in
advance: by a list of the paths the tree can have, by the longest name and by the number of
entries.
-/

namespace ZipFs

/-- The computation does not run into a limit. -/
def Fits {α : Type} (x : Build α) : Prop := ∀ what, x ≠ .error (.indexTooLarge what)

section Rules

variable {α β : Type} {x : Build α}

theorem fits_ok (a : α) : Fits (.ok a : Build α) := by
  intro what h
  exact absurd h (by simp)

theorem Fits.bind {f : α → Build β} (hx : Fits x) (hf : ∀ a, x = .ok a → Fits (f a)) :
    Fits (x >>= f) := by
  cases x with
  | ok a => exact hf a rfl
  | error e =>
      intro what h
      exact hx what (congrArg Except.error (Except.error.inj h))

theorem fits_at! (xs : List α) (i : Nat) : Fits (at! xs i) := by
  intro what h
  rw [at!] at h
  split at h
  · exact absurd h (by simp)
  · exact absurd h (by simp)

theorem fits_put! (xs : List α) (i : Nat) (a : α) : Fits (put! xs i a) := by
  intro what h
  rw [put!] at h
  split at h
  · exact absurd h (by simp)
  · exact absurd h (by simp)

theorem SatIf.fits {P : α → Prop} (h : SatIf False P x) : Fits x := by
  intro what hx
  rw [hx] at h
  exact h

end Rules

/-! ## One entry -/

/-- There is room for `k` more nodes with names of at most `w` bytes. -/
structure Builder.Room (b : Builder) (k w : Nat) : Prop where
  nodes : b.nodes.length + k ≤ 2 ^ 32
  names : b.names.length + k * w ≤ 2 ^ 32

section Add

variable {b : Builder} {T : Tree} {k w : Nat}

theorem Builder.Room.mono {k' : Nat} (h : b.Room k w) (hle : k' ≤ k) : b.Room k' w := by
  have := Nat.mul_le_mul_right w hle
  exact ⟨by have := h.nodes; omega, by have := h.names; omega⟩

/-- What a name may be: not empty for the bound, and short enough for its length field. -/
theorem intern_room (h : b.Ok) (hroom : b.Room (k + 1) w) (hw : 0 < w) {name : Bytes}
    (hname : name.length ≤ w) (hlen : name.length ≤ MAX_COMPONENT) (parent : Nat) :
    Fits (b.intern parent name) ∧ ∀ r, b.intern parent name = .ok r → r.1.Room k w := by
  have hnodes := hroom.nodes
  have hnames := hroom.names
  rw [Nat.succ_mul] at hnames
  rw [MAX_COMPONENT] at hlen
  have hpos : 0 < b.nodes.length := (List.getElem?_eq_some_iff.mp h.root).1
  refine ⟨(intern_satIf (L := False) h.interner hpos parent name
    (.inr ⟨by omega, by omega, by omega⟩)).fits, fun r hr => ?_⟩
  rcases (intern_spec h parent name).elim hr with ⟨-, hsame, -⟩ | ⟨-, -, hg⟩
  · rw [hsame]
    exact hroom.mono (Nat.le_succ k)
  · refine ⟨?_, ?_⟩
    · rw [hg.nodes, List.length_append, List.length_singleton]
      omega
    · rw [hg.names, List.length_append]
      omega

theorem resolveComponent_room (h : b.Ok) (hroom : b.Room (k + 1) w) (hw : 0 < w) {comp : Bytes}
    (hname : comp.length ≤ w) (hlen : comp.length ≤ MAX_COMPONENT) (cur : Nat) :
    Fits (b.resolveComponent cur comp) ∧
      ∀ r, b.resolveComponent cur comp = .ok r → r.1.Room k w := by
  obtain ⟨hfits, hafter⟩ := intern_room h hroom hw hname hlen cur
  rw [Builder.resolveComponent]
  refine ⟨hfits.bind fun r hr => ?_, fun r hr => ?_⟩
  · obtain ⟨b₁, id, fresh⟩ := r
    cases fresh with
    | true => exact fits_ok _
    | false =>
        refine (fits_at! _ _).bind fun n _ => ?_
        split
        · refine Fits.bind ?_ fun b₂ _ => fits_ok _
          exact (fits_at! _ _).bind fun _ _ => (fits_put! _ _ _).bind fun _ _ => fits_ok _
        · exact fits_ok _
  · obtain ⟨⟨b₁, id, fresh⟩, hintern, hrest⟩ := bind_eq_ok hr
    have hroom₁ := hafter _ hintern
    cases fresh with
    | true =>
        obtain rfl := Except.ok.inj hrest
        exact ⟨hroom₁.nodes, hroom₁.names⟩
    | false =>
        obtain ⟨n, hn, hrest⟩ := bind_eq_ok hrest
        split at hrest
        · obtain ⟨b₂, htake, hrest⟩ := bind_eq_ok hrest
          obtain rfl := Except.ok.inj hrest
          obtain ⟨n', -, htake⟩ := bind_eq_ok htake
          obtain ⟨nodes, hput, htake⟩ := bind_eq_ok htake
          obtain rfl := Except.ok.inj htake
          have hlen' : nodes.length = b₁.nodes.length := by
            rw [put!] at hput
            split at hput
            · obtain rfl := Except.ok.inj hput
              exact List.length_set
            · exact absurd hput (by simp)
          refine ⟨?_, hroom₁.names⟩
          show nodes.length + k ≤ 2 ^ 32
          rw [hlen']
          exact hroom₁.nodes
        · obtain rfl := Except.ok.inj hrest
          exact hroom₁

theorem resolveLoop_room {comps : List Bytes} (h : b.Ok) (hm : Models b T) {cur : Nat}
    {cn : TmpNode} (hcn : b.nodes[cur]? = some cn) (hd : cn.kind = .dir) {p : List Bytes}
    (hp : PathOf b.nodes b.names cur p) (hw : 0 < w)
    (hcomps : ∀ c ∈ comps, c.length ≤ w ∧ c.length ≤ MAX_COMPONENT)
    (hroom : b.Room (comps.length + k) w) :
    Fits (Builder.resolveLoop comps b cur) ∧
      ∀ r, Builder.resolveLoop comps b cur = .ok r → r.1.Room k w := by
  induction comps generalizing b T cur cn p with
  | nil =>
      refine ⟨fits_ok _, fun r hr => ?_⟩
      obtain rfl := Except.ok.inj hr
      exact hroom.mono (by rw [List.length_nil]; omega)
  | cons c cs ih =>
      obtain ⟨hc1, hc2⟩ := hcomps c List.mem_cons_self
      have hroom' : b.Room (cs.length + k + 1) w :=
        hroom.mono (by rw [List.length_cons]; omega)
      obtain ⟨hfits, hafter⟩ := resolveComponent_room h hroom' hw hc1 hc2 cur
      -- the rest starts from the directory of this component
      have hnext : ∀ r, b.resolveComponent cur c = .ok r →
          Fits (Builder.resolveLoop cs r.1 r.2) ∧
            ∀ r', Builder.resolveLoop cs r.1 r.2 = .ok r' → r'.1.Room k w := by
        intro r hr
        obtain ⟨h1, h2, h3, ⟨n, hn, hk⟩, -⟩ := (resolveComponent_spec h hm hcn hd hp c).elim hr
        exact ih h1 h2 hn hk h3 (fun d hd => hcomps d (List.mem_cons_of_mem _ hd)) (hafter r hr)
      rw [Builder.resolveLoop]
      refine ⟨hfits.bind fun r hr => (hnext r hr).1, fun r hr => ?_⟩
      obtain ⟨r₁, hr₁, hrest⟩ := bind_eq_ok hr
      exact (hnext r₁ hr₁).2 r hrest

theorem attach_fits (hmetas : b.metas.length < 2 ^ 32) (id : Nat) {kind : NodeKind}
    (hkind : kind ≠ .symlink) (info : EntryMeta) : Fits (b.attach id kind info) := by
  rw [Builder.attach]
  refine Fits.bind ?_ fun _ _ => Fits.bind ?_ fun _ _ => (fits_at! _ _).bind fun _ _ =>
    (fits_put! _ _ _).bind fun _ _ => fits_ok _
  · rw [Builder.takeSlot, if_neg hkind]
    exact fits_ok _
  · rw [toU32_ok hmetas]
    exact fits_ok _

theorem claim_fits (hmetas : b.metas.length < 2 ^ 32) (id : Nat) (fresh : Bool) {kind : NodeKind}
    (hkind : kind ≠ .symlink) (info : EntryMeta) : Fits (b.claim id fresh kind info) := by
  rw [Builder.claim]
  split
  · exact attach_fits hmetas id hkind info
  · refine (fits_at! _ _).bind fun n _ => ?_
    split
    · exact fits_ok _
    split
    · exact fits_ok _
    split
    · exact fits_ok _
    · exact attach_fits (b := b.uncountDir) hmetas id hkind info

/-- **An entry that there is room for runs into no limit.** -/
theorem add_fits (h : b.Ok) (hm : Models b T) {e : Entry} (hw : 0 < w)
    (hcomps : ∀ c ∈ components e.path, c.length ≤ w)
    (hroom : b.Room (components e.path).length w) (hmetas : b.metas.length < 2 ^ 32)
    (hkind : e.kind ≠ .symlink) : Fits (b.add e) := by
  rw [Builder.add]
  split
  · exact fits_ok _
  split
  · exact fits_ok _
  split
  · exact fits_ok _
  rename_i hgood _ _
  obtain ⟨cs, l, hcs, hl, hnames, hsplit⟩ :=
    splitParent_normalizePath (Option.not_isSome_iff_eq_none.mp hgood)
  rw [hsplit]
  rw [hcs, List.length_append, List.length_singleton] at hroom
  rw [hcs] at hcomps
  have hshort : ∀ c ∈ cs, c.length ≤ w ∧ c.length ≤ MAX_COMPONENT :=
    fun c hc => ⟨hcomps c (List.mem_append_left _ hc), (hnames c hc).length_le⟩
  have hparent : Fits (b.resolveParent (parentBytes cs)) ∧
      ∀ r, b.resolveParent (parentBytes cs) = .ok r → r.1.Room 1 w := by
    rw [Builder.resolveParent, components_parentBytes fun c hc => (hnames c hc).toIsComponent]
    split
    · refine ⟨fits_ok _, fun r hr => ?_⟩
      obtain rfl := Except.ok.inj hr
      exact hroom.mono (Nat.le_add_left ..)
    · obtain ⟨hfits, hafter⟩ := resolveLoop_room h hm h.root rfl .root hw hshort hroom
      refine ⟨hfits.bind fun r _ => fits_ok _, fun r hr => ?_⟩
      obtain ⟨r₁, hr₁, hrest⟩ := bind_eq_ok hr
      obtain rfl := Except.ok.inj hrest
      exact ⟨(hafter r₁ hr₁).nodes, (hafter r₁ hr₁).names⟩
  refine hparent.1.bind fun r hr => ?_
  obtain ⟨g1, -, -, -, g5, -⟩ := (resolveParent_spec h hm hnames).elim hr
  have hleaf := hcomps l (List.mem_append_right _ List.mem_cons_self)
  refine (intern_room g1 (hparent.2 r hr) hw hleaf hl.length_le r.2).1.bind fun r' hr' => ?_
  have hmetas' : r'.1.metas = b.metas := by
    rcases (intern_spec g1 r.2 l).elim hr' with ⟨-, hsame, -⟩ | ⟨-, -, hg⟩
    · rw [hsame, g5]
    · rw [hg.metas, g5]
  exact claim_fits (by rw [hmetas']; exact hmetas) _ _ hkind _

end Add

/-! ## The whole central directory -/

section Run

variable {b b' : Builder} {w : Nat}

/-- The blob is no longer than its names. -/
def Builder.Short (b : Builder) (w : Nat) : Prop := b.names.length ≤ b.nodes.length * w

theorem Grown.short {parent : Nat} {name : Bytes} (hg : Grown b parent name b')
    (hname : name.length ≤ w) (h : b.Short w) : b'.Short w := by
  unfold Builder.Short at h ⊢
  rw [hg.nodes, hg.names, List.length_append, List.length_append, List.length_singleton,
    Nat.succ_mul]
  omega

theorem Changed.short {id : Nat} {n n' : TmpNode} (hc : Changed b id n n' b') (h : b.Short w) :
    b'.Short w := by
  unfold Builder.Short at h ⊢
  rw [hc.names, hc.length]
  exact h

theorem Walked.short {comps : List Bytes} {lost : List TmpNode} (h : Walked comps b lost b')
    (hcomps : ∀ c ∈ comps, c.length ≤ w) (hs : b.Short w) : b'.Short w := by
  induction h with
  | here => exact hs
  | made _ hname hg _ _ ih => exact ih (hg.short (hcomps _ hname) hs)
  | taken _ hn _ _ ih => exact ih ((tookOver_changed hn).short hs)
  | remembered _ ih => exact ih hs

theorem Added.short {e : Entry} {lost : List TmpNode} (h : Added e b lost b')
    (hcomps : ∀ c ∈ components e.path, c.length ≤ w) (hs : b.Short w) : b'.Short w := by
  cases h with
  | rejected => exact hs
  | rejectedSize => exact hs
  | @placed cs leaf _ b₁ _ _ hcs hw _ hc =>
      rw [hcs] at hcomps
      have hs₁ := hw.short (fun c hc => hcomps c (List.mem_append_left _ hc)) hs
      cases hc with
      | beaten warn => exact hs₁
      | declared hn => exact (attached_changed (b := b₁.uncountDir) hn _ _ _).short hs₁
      | fresh hg =>
          have hleaf := hcomps leaf (List.mem_append_right _ List.mem_cons_self)
          exact (attached_changed hg.new _ _ _).short (hg.short hleaf hs₁)

/-- A builder has no more nodes than its tree can have paths. -/
theorem nodes_le_paths {T : Tree} (h : b.Ok) (hm : Models b T) {paths : List (List Bytes)}
    (hpaths : ∀ p, (T p).isSome → p ∈ paths) : b.nodes.length ≤ paths.length := by
  choose! path hpath using h.exists_path
  have hnodup : ((List.range b.nodes.length).map path).Nodup := by
    refine List.Nodup.map_on (fun id hid id' hid' heq => ?_) List.nodup_range
    have h1 := hpath id (List.mem_range.mp hid)
    have h2 := hpath id' (List.mem_range.mp hid')
    exact h1.node_unique h.unique (heq ▸ h2)
  have hsub : (List.range b.nodes.length).map path ⊆ paths := by
    intro p hp
    obtain ⟨id, hid, rfl⟩ := List.mem_map.mp hp
    have hlt := List.mem_range.mp hid
    exact hpaths _ (by rw [hm.at_node id _ _ (List.getElem?_eq_getElem hlt) (hpath id hlt)]; rfl)
  have hle := (List.subperm_of_subset hnodup hsub).length_le
  rwa [List.length_map, List.length_range] at hle

/-- What the entries may be for the index to have room for them. -/
structure FitsIn (entries : List Entry) (paths : List (List Bytes)) (w : Nat) : Prop where
  width : 0 < w
  short : ∀ e ∈ entries, ∀ c ∈ components e.path, c.length ≤ w
  plain : ∀ e ∈ entries, e.kind ≠ .symlink
  /-- The list has the root, and every path on the way to an entry. -/
  root : [] ∈ paths
  covered : ∀ e ∈ entries, ∀ p, p <+: components e.path → p ∈ paths
  depth : ∀ e ∈ entries, (components e.path).length ≤ MAX_DEPTH
  room : (paths.length + MAX_DEPTH) * w ≤ 2 ^ 32
  few : entries.length ≤ 2 ^ 32

theorem FitsIn.mem_paths {entries : List Entry} {paths : List (List Bytes)}
    (h : FitsIn entries paths w) {done : List Entry} (hdone : done ⊆ entries) {p : List Bytes}
    (hp : (treeOf (accepted done) p).isSome) : p ∈ paths := by
  rcases treeOf_isSome.mp hp with rfl | ⟨c, hc, hpre⟩
  · exact h.root
  · obtain ⟨e, he, rfl⟩ := mem_accepted.mp hc
    exact h.covered e (hdone (List.mem_filter.mp he).1) p hpre

/-- **An archive that fits is indexed.** -/
theorem build_fits (hint : Nat) {entries : List Entry} {paths : List (List Bytes)}
    (h : FitsIn entries paths w) : ∃ idx stats, build hint entries = .ok (idx, stats) := by
  have hroom := h.room
  have hwide : paths.length + 256 ≤ 2 ^ 32 := (Nat.le_mul_of_pos_right _ h.width).trans hroom
  have hfirst : SatIf False (fun b => b.Ok ∧ Models b (treeOf (accepted entries)) ∧ b.Short w ∧
      b.metas.length ≤ entries.length) (addAll hint entries) := by
    refine sat_foldlM (I := fun done b => b.Ok ∧ Models b (treeOf (accepted done)) ∧ b.Short w ∧
      b.metas.length ≤ done.length) ⟨new_ok _, new_models _, Nat.zero_le _, Nat.le_refl _⟩ ?_
    intro done e rest b hsplit hI
    obtain ⟨hok, hm, hshort, hmetas⟩ := hI
    have he : e ∈ entries := by rw [hsplit]; simp
    have hdone : done ⊆ entries := by rw [hsplit]; exact List.subset_append_left ..
    have hnodes := nodes_le_paths hok hm fun p => h.mem_paths hdone
    have hfew : done.length < entries.length := by rw [hsplit]; simp
    have hfits : Fits (b.add e) := by
      have hdepth : (components e.path).length ≤ 256 := h.depth e he
      have hcap : (b.nodes.length + (components e.path).length) * w ≤ 2 ^ 32 :=
        (Nat.mul_le_mul_right w (Nat.add_le_add hnodes hdepth)).trans hroom
      refine add_fits hok hm h.width (h.short e he) ⟨by omega, ?_⟩ ?_ (h.plain e he)
      · unfold Builder.Short at hshort
        rw [Nat.add_mul] at hcap
        omega
      · have := h.few
        omega
    -- nothing else can stop it
    obtain ⟨b', hb'⟩ : ∃ b', b.add e = .ok b' := by
      cases hacc : e.accepted with
      | true =>
          obtain ⟨b', hb', -⟩ := (add_accepted hok hm hacc).exists_ok hfits
          exact ⟨b', hb'⟩
      | false =>
          obtain ⟨b', hb', -⟩ := add_rejected (b := b) hacc
          exact ⟨b', hb'⟩
    obtain ⟨hok', hm'⟩ := add_keeps hok hm hb'
    obtain ⟨lost, hadded⟩ := add_added hok hm hb'
    have hone := hadded.metas
    refine SatIf.of_eq_ok hb' ⟨hok', hm', hadded.short (h.short e he) hshort, ?_⟩
    rw [List.length_append, List.length_singleton]
    omega
  have hfits : Fits (build hint entries) := by
    refine hfirst.fits.bind fun b hb => ?_
    obtain ⟨hok, hm, -, -⟩ := hfirst.elim hb
    have hnodes := nodes_le_paths hok hm fun p => h.mem_paths (List.Subset.refl _)
    exact (finish_spec (L := False) (.inr (by omega)) hok).fits.bind fun _ _ => fits_ok _
  obtain ⟨⟨idx, stats⟩, hb, -⟩ := (build_spec hint entries).exists_ok hfits
  exact ⟨idx, stats, hb⟩

end Run

end ZipFs
