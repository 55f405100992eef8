import ZipFs.Mount.Refusal

/-!
# The verdict on an entry

Three parts of the program store a verdict on an entry, each when it has seen all of its
content: a decoder that has reached the end, `verify_stored` for a stored symlink, and
the tracker of a stored file whose blocks came in order. None of them looks at what is
stored already. What follows shows that they need not: whoever stores a verdict stores
the same one.
-/

namespace ZipFs

open Lib (Alone)

variable {τ δ ζ : Type} [DecidableEq τ] {K : Codecs δ ζ} {M : Mount}

/-! ## The calls of one tracker -/

section Tracker

variable {t : τ} {id i : Nat} {m : EntryMeta} {content : Bytes}

/-- How a call of `observe_store` ends. -/
theorem alone_unlock {w w' : World τ δ ζ} {cell : StoreCell τ} {v : StoreVerify} {said fine : Bool}
    (hcell : w.stores[id]? = some cell)
    (h : Alone (exec K M t) (do
      Act.unlockStore id v
      pure said) w fine w') :
    fine = said ∧ w'.stores[id]? = some { cell with state := v, lock := none } ∧
      w'.verifyState = w.verifyState := by
  obtain ⟨_, w₁, ⟨_, _, hunlock, rfl, rfl⟩, rfl, rfl⟩ := h.of_bind
  rcases hunlock with hunlock | ⟨hunlock, -⟩
  swap
  · exact hunlock.elim
  simp only [det, hcell] at hunlock
  obtain ⟨-, rfl⟩ := Prod.mk.inj (Option.some.inj hunlock)
  exact ⟨rfl, List.getElem?_set_self (List.getElem?_eq_some_iff.mp hcell).1, rfl⟩

/-- What an `observe_store` that is left alone does to its tracker and to the verdict. -/
theorem alone_observe {w w' : World τ δ ζ} {cell : StoreCell τ} {offset : Nat} {data : Bytes}
    {fine : Bool} (hcell : w.stores[id]? = some cell)
    (h : Alone (exec K M t) (OpenFile.observeStore (some id) offset data i m) w fine w') :
    cell.lock = none ∧ fine = (cell.state.observe offset data m).2.1 ∧
      w'.stores[id]? = some { cell with
        state := (cell.state.observe offset data m).1
        observed := cell.observed ++ [(offset, data.length)] } ∧
      w'.verifyState = (cell.state.observe offset data m).2.2.elim w.verifyState
        (Function.update w.verifyState i) := by
  have hlen := (List.getElem?_eq_some_iff.mp hcell).1
  unfold OpenFile.observeStore OpenFile.observeLocked at h
  obtain ⟨v, w₁, ⟨_, _, hlock, rfl, rfl⟩, h₁⟩ := h.of_bind
  rcases hlock with hlock | ⟨hlock, -⟩
  swap
  · exact hlock.elim
  simp only [det, hcell] at hlock
  split at hlock
  · exact absurd hlock (by simp)
  rename_i hfree
  have hfree : cell.lock = none := by simpa using hfree
  obtain ⟨rfl, rfl⟩ := Prod.mk.inj (Option.some.inj hlock)
  generalize cell.state.observe offset data m = answer at h₁ ⊢
  obtain ⟨v, said, verdict⟩ := answer
  have hcell₁ : (w.setStore id { cell with lock := some t }).stores[id]? =
      some { cell with lock := some t } := List.getElem?_set_self hlen
  obtain ⟨_, w₂, ⟨_, _, hrecord, rfl, rfl⟩, h₂⟩ := h₁.of_bind
  rcases hrecord with hrecord | ⟨hrecord, -⟩
  swap
  · exact hrecord.elim
  simp only [det, hcell₁] at hrecord
  obtain ⟨-, rfl⟩ := Prod.mk.inj (Option.some.inj hrecord)
  obtain ⟨_, w₃, ⟨_, _, hnote, rfl, rfl⟩, h₃⟩ := h₂.of_bind
  rcases hnote with hnote | ⟨hnote, -⟩
  swap
  · exact hnote.elim
  obtain ⟨-, rfl⟩ := Prod.mk.inj (Option.some.inj hnote)
  have hcell₂ : ((w.setStore id { cell with lock := some t }).setStore id
      { cell with
        lock := some t, observed := cell.observed ++ [(offset, data.length)] }).stores[id]? =
      some { cell with lock := some t, observed := cell.observed ++ [(offset, data.length)] } :=
    List.getElem?_set_self (List.getElem?_eq_some_iff.mp hcell₁).1
  cases verdict with
  | none =>
      obtain ⟨hsaid, hstores, hstate⟩ := alone_unlock (by exact hcell₂) h₃
      refine ⟨hfree, hsaid, ?_, hstate⟩
      rw [hstores, ← hfree]
  | some state =>
      obtain ⟨_, w₄, ⟨_, _, hstore, rfl, rfl⟩, h₄⟩ := h₃.of_bind
      rcases hstore with hstore | ⟨hstore, -⟩
      swap
      · exact hstore.elim
      obtain ⟨-, rfl⟩ := Prod.mk.inj (Option.some.inj hstore)
      obtain ⟨hsaid, hstores, hstate⟩ := alone_unlock (by exact hcell₂) h₄
      refine ⟨hfree, hsaid, ?_, hstate⟩
      rw [hstores, ← hfree]

variable (K M id i m content) in
/--
The calls of `observe_store` on the tracker `id` of an entry with this content, from any
threads, one after the other as its lock has it: the blocks that they were given and what
they returned. In between anything may happen that leaves the tracker alone.
-/
inductive TrackerRun : World τ δ ζ → List ((Nat × Nat) × Bool) → Prop where
  | opened {w : World τ δ ζ} {loc : EntryLocation} :
      w.stores[id]? = some ⟨StoreVerify.new, none, loc, i, []⟩ → TrackerRun w []
  | apart {w w' : World τ δ ζ} {calls : List ((Nat × Nat) × Bool)} : TrackerRun w calls →
      w'.stores[id]? = w.stores[id]? → TrackerRun w' calls
  | observe {w w' : World τ δ ζ} {calls : List ((Nat × Nat) × Bool)} (t : τ) (b : Nat × Nat)
      (fine : Bool) : TrackerRun w calls → BlockIn content.length b →
      Alone (exec K M t) (OpenFile.observeStore (some id) b.1 (blockOf content b) i m) w fine w' →
      TrackerRun w' (calls ++ [(b, fine)])

/-- A tracker that refuses a block has nothing left to do. -/
theorem observe_refused_disabled {v : StoreVerify} {offset : Nat} {data : Bytes}
    (h : (v.observe offset data m).2.1 = false) : (v.observe offset data m).1.disabled = true := by
  unfold StoreVerify.observe at h ⊢
  split
  · rfl
  · rename_i hon
    rw [if_neg hon] at h
    dsimp only at h ⊢
    split
    · rename_i hlt
      rw [if_pos hlt] at h
      exact absurd h (by simp)
    · rfl

/-- What a tracker is after its calls, and what they have returned. -/
structure TrackerOk (m : EntryMeta) (content : Bytes) (calls : List ((Nat × Nat) × Bool))
    (cell : StoreCell τ) : Prop where
  free : cell.lock = none
  inside : ∀ b ∈ calls.map Prod.fst, BlockIn content.length b
  state : cell.state = .replay content m (calls.map Prod.fst)
  once : calls.countP (fun x => !x.2) ≤ 1
  refused : (∃ x ∈ calls, x.2 = false) → cell.state.disabled = true ∧ crc32 content ≠ m.crc32

omit [DecidableEq τ] in
/-- One more call. -/
theorem TrackerOk.observe {calls : List ((Nat × Nat) × Bool)} {cell : StoreCell τ}
    (h : TrackerOk m content calls cell) (hsize : content.length = m.uncompressedSize)
    (hpos : 0 < m.uncompressedSize) {b : Nat × Nat} (hb : BlockIn content.length b)
    {observed : List (Nat × Nat)} :
    TrackerOk m content
      (calls ++ [(b, (cell.state.observe b.1 (blockOf content b) m).2.1)])
      { cell with
        state := (cell.state.observe b.1 (blockOf content b) m).1, observed := observed } := by
  have hnext := StoreVerify.next_eq (Nat.le_of_eq hsize) hpos h.inside hb
  unfold StoreVerify.next at hnext
  rw [← h.state] at hnext
  refine ⟨h.free, ?_, ?_, ?_, ?_⟩
  · intro x hx
    rw [List.map_append, List.mem_append] at hx
    rcases hx with hx | hx
    · exact h.inside x hx
    · rw [List.mem_singleton.mp hx]
      exact hb
  · dsimp only
    rw [List.map_append, h.state]
    exact (StoreVerify.replay_concat content m _ b).symm
  · -- a tracker that has refused a block lets every other pass
    rw [List.countP_append]
    by_cases hany : ∃ x ∈ calls, x.2 = false
    · rw [StoreVerify.observe_disabled (h.refused hany).1]
      exact h.once
    · have hzero : calls.countP (fun x => !x.2) = 0 := by
        rw [List.countP_eq_zero]
        intro x hx hfalse
        exact hany ⟨x, hx, by simpa using hfalse⟩
      have := List.countP_le_length (p := fun x : (Nat × Nat) × Bool => !x.2)
        (l := [(b, (cell.state.observe b.1 (blockOf content b) m).2.1)])
      rw [List.length_singleton] at this
      omega
  · intro hany
    by_cases hold : ∃ x ∈ calls, x.2 = false
    · obtain ⟨hoff, hcrc⟩ := h.refused hold
      rw [StoreVerify.observe_disabled hoff]
      exact ⟨hoff, hcrc⟩
    · have hsaid : (cell.state.observe b.1 (blockOf content b) m).2.1 = false := by
        obtain ⟨x, hx, hfalse⟩ := hany
        rcases List.mem_append.mp hx with hx | hx
        · exact absurd ⟨x, hx, hfalse⟩ hold
        · rw [List.mem_singleton.mp hx] at hfalse
          exact hfalse
      refine ⟨observe_refused_disabled hsaid, fun hcrc => ?_⟩
      rw [hnext, hcrc] at hsaid
      split at hsaid
      · exact absurd hsaid (by simp)
      · exact absurd hsaid (by simp)

/-- **After any calls** a tracker is what their blocks make of it. -/
theorem TrackerRun.ok {w : World τ δ ζ} {calls : List ((Nat × Nat) × Bool)}
    (h : TrackerRun K M id i m content w calls) (hsize : content.length = m.uncompressedSize)
    (hpos : 0 < m.uncompressedSize) :
    ∃ cell, w.stores[id]? = some cell ∧ TrackerOk m content calls cell := by
  induction h with
  | opened hcell => exact ⟨_, hcell, rfl, by simp, rfl, by simp, by simp⟩
  | apart _ hsame ih =>
      obtain ⟨cell, hcell, hok⟩ := ih
      exact ⟨cell, hsame.trans hcell, hok⟩
  | observe t b fine _ hb hrun ih =>
      obtain ⟨cell, hcell, hok⟩ := ih
      obtain ⟨-, rfl, hcell', -⟩ := alone_observe hcell hrun
      exact ⟨_, hcell', hok.observe hsize hpos hb⟩

/-- **What the next call does**: it stores a verdict exactly if its block completes the entry in
order, that of the whole content, and refuses the block exactly if that is bad. -/
theorem TrackerRun.next {w w' : World τ δ ζ} {calls : List ((Nat × Nat) × Bool)}
    (h : TrackerRun K M id i m content w calls) (hsize : content.length = m.uncompressedSize)
    (hpos : 0 < m.uncompressedSize) {b : Nat × Nat} (hb : BlockIn content.length b) {fine : Bool}
    (hrun : Alone (exec K M t) (OpenFile.observeStore (some id) b.1 (blockOf content b) i m) w
      fine w') :
    if reach 0 (calls.map Prod.fst ++ [b]) = some m.uncompressedSize then
      fine = (crc32 content == m.crc32) ∧ w'.verifyState = Function.update w.verifyState i
        (if crc32 content = m.crc32 then .ok else .bad)
    else fine = true ∧ w'.verifyState = w.verifyState := by
  obtain ⟨cell, hcell, hok⟩ := h.ok hsize hpos
  obtain ⟨-, rfl, -, hstate⟩ := alone_observe hcell hrun
  have hnext := StoreVerify.next_eq (Nat.le_of_eq hsize) hpos hok.inside hb
  unfold StoreVerify.next at hnext
  rw [← hok.state] at hnext
  rw [hnext] at hstate ⊢
  split
  · rename_i hreach
    rw [if_pos hreach] at hstate
    exact ⟨rfl, hstate⟩
  · rename_i hreach
    rw [if_neg hreach] at hstate
    exact ⟨rfl, hstate⟩

end Tracker

/-! ## One verdict for each entry -/

/-- rawzip finds the data of an entry in one place. -/
def Mount.Definite (M : Mount) : Prop :=
  ∀ (i : Nat) m start start', M.index.metas[i]? = some m → EntryStart M m start →
    EntryStart M m start' →
    start = start'

/-- There, an entry has one location. -/
theorem LocationOk.unique (hone : M.Definite) {i : Nat} {m m' : EntryMeta}
    {loc loc' : EntryLocation} (h : LocationOk M i m loc) (h' : LocationOk M i m' loc') :
    loc = loc' := by
  obtain rfl := Option.some.inj (h.entry.symm.trans h'.entry)
  have hstart := hone i m _ _ h.entry h.start h'.start
  have hsize := h.size.trans h'.size.symm
  have hmethod := Option.some.inj (h.method.symm.trans h'.method)
  cases loc
  cases loc'
  simp only at hstart hsize hmethod
  rw [hstart, hsize, hmethod]

/-- What is judged and not good is bad. -/
theorem bad_of_not_ok {B G : Prop} {i : Nat} {m : EntryMeta} {state : VerifyState}
    (hne : state ≠ .unknown) (hv : VerdictOk B G K M i m state)
    (hnot : ¬ VerdictOk B G K M i m .ok) :
    state = .bad := by
  cases state with
  | unknown => exact absurd rfl hne
  | ok => exact absurd hv hnot
  | bad => rfl

/-! ## Reads that are refused -/

/-- The reply says that the entry is bad, or that the archive was found changed. -/
def RefusedRead (e : Lib.Event τ (World τ δ ζ) Call Reply) : Prop :=
  e.reply = .error EIO ∨ e.reply = .error ESTALE ∧ e.finish.stale = true

omit [DecidableEq τ] in
theorem Refuses.event {B G : Prop} {e : Lib.Event τ (World τ δ ζ) Call Reply} {xs : Trace δ ζ}
    (h : Refuses xs e.reply) (hs : Spanned B G K M e xs) : RefusedRead e :=
  h.imp id fun h => ⟨h.1, hs.stale h.2⟩

section Refused

variable {B G : Prop} {S : Lib.System τ (World τ δ ζ) Call Reply (@Res δ ζ)} {path : Option Stamp}
variable {c : Lib.Config τ (World τ δ ζ) Call Reply (@Res δ ζ)}
variable {e : Lib.Event τ (World τ δ ζ) Call Reply}

/-- **A read of an entry that cannot be found good is refused** if the entry has been judged when
it starts. -/
theorem read_refused (hS : MountLike K M S)
    (hm : Lib.Respects S (mountProtocol B G K M) (Served B G K M))
    (h : Lib.Reachable S (World.start M path) c) (he : e ∈ c.history) {fh offset size : Nat}
    (hcall : e.call = .read fh offset size) (hfound : .handleFound ∈ e.finish.seen e.thread)
    {f : OpenFile} (hat : FileAt fh f c.world) (hstart : e.start.verifyState f.metaIdx ≠ .unknown)
    {m : EntryMeta} (hentry : M.index.metas[f.metaIdx]? = some m)
    (hnot : ¬ VerdictOk B G K M f.metaIdx m .ok) : RefusedRead e := by
  obtain ⟨xs, htr, hspan⟩ := event_spanned hS hm h he
  rw [hcall] at htr
  rcases read_traced htr with ⟨file, hget, hread⟩ | ⟨hno, -⟩
  · -- the file behind the handle is still the one that the read has found
    have hgrow := (Lib.sound hm (start_inv path) h).past e he
    obtain ⟨cell, hcell, rfl⟩ := hgrow.files fh file (hspan.handle fh file hget)
    obtain ⟨cell', hcell', rfl⟩ := hat
    obtain rfl := Option.some.inj (hcell.symm.trans hcell')
    rcases hread.loaded with ⟨hstale, hup⟩ | ⟨state, hload, hbad⟩
    · exact .inr ⟨hstale, hspan.stale hup⟩
    · obtain ⟨hne, hv⟩ := hspan.loaded _ _ hload
      exact (hbad (bad_of_not_ok (hne hstart) (hv m hentry) hnot)).event hspan
  · exact absurd (hspan.noted _ hfound) hno

end Refused

/-! ## Stored entries -/

section Stable

variable (K M) in
/-- What makes an entry bad: its content has the wrong checksum or runs past its declared size, or
the codec fails right after that size. -/
def EntryLocation.Faulty (loc : EntryLocation) (m : EntryMeta) : Prop :=
  crc32 (loc.stream K M).bytes ≠ m.crc32 ∨ m.uncompressedSize < (loc.stream K M).bytes.length ∨
    (loc.stream K M).bytes.length = m.uncompressedSize ∧ (loc.stream K M).clean = false

variable (M) in
/-- The range of every entry lies inside the archive. -/
def Mount.Contained : Prop :=
  ∀ i m loc, LocationOk M i m loc → loc.dataStart + loc.compressedSize ≤ M.archive.length

/-- A good entry is not faulty. -/
theorem StreamOk.not_faulty {loc : EntryLocation} {m : EntryMeta} (h : StreamOk K M loc m) :
    ¬ loc.Faulty K M m := by
  intro hf
  rcases hf with hcrc | hlong | ⟨-, hclean⟩
  · exact hcrc h.crc
  · have := h.size
    omega
  · exact absurd (h.clean.symm.trans hclean) (by simp)

/-- An entry that reaches its declared size and is not good is faulty. -/
theorem faulty_of_not_ok {loc : EntryLocation} {m : EntryMeta}
    (hlen : m.uncompressedSize ≤ (loc.stream K M).bytes.length) (h : ¬ StreamOk K M loc m) :
    loc.Faulty K M m := by
  unfold EntryLocation.Faulty
  by_cases hlong : m.uncompressedSize < (loc.stream K M).bytes.length
  · exact .inr (.inl hlong)
  · have hsize : (loc.stream K M).bytes.length = m.uncompressedSize := by omega
    by_cases hcrc : crc32 (loc.stream K M).bytes = m.crc32
    · refine .inr (.inr ⟨hsize, ?_⟩)
      by_contra hclean
      exact h ⟨hsize, hcrc, by simpa using hclean⟩
    · exact .inl hcrc

/-- **A verdict says whether the entry is faulty**, and nothing else. -/
theorem verdict_iff_faulty (hl : K.Live) (hone : M.Definite) (hin : M.Contained) {i : Nat}
    {m : EntryMeta} {state : VerifyState} (h : VerdictOk False True K M i m state)
    (hne : state ≠ .unknown) :
    (∃ loc, LocationOk M i m loc) ∧
      ∀ loc, LocationOk M i m loc → (state = .bad ↔ loc.Faulty K M m) := by
  cases state with
  | unknown => exact absurd rfl hne
  | ok =>
      obtain ⟨loc, hloc, hok⟩ := h (.inl trivial)
      refine ⟨⟨loc, hloc⟩, fun loc' hloc' => ?_⟩
      obtain rfl := hloc.unique hone hloc'
      exact ⟨fun hbad => absurd hbad (by simp), fun hf => absurd hf hok.not_faulty⟩
  | bad =>
      obtain ⟨loc, hloc, hlen, hspoilt⟩ := h (.inl trivial)
      refine ⟨⟨loc, hloc⟩, fun loc' hloc' => ?_⟩
      obtain rfl := hloc.unique hone hloc'
      refine ⟨fun _ => ?_, fun _ => rfl⟩
      rcases hspoilt with hB | hout | hnot
      · exact hB.elim
      · have := hin i m loc hloc
        omega
      · exact faulty_of_not_ok hlen (hnot hl)

/-- Two verdicts on one entry are the same. -/
theorem verdict_unique (hl : K.Live) (hone : M.Definite) (hin : M.Contained) {i : Nat}
    {m : EntryMeta} {state state' : VerifyState} (h : VerdictOk False True K M i m state)
    (h' : VerdictOk False True K M i m state') (hne : state ≠ .unknown) (hne' : state' ≠ .unknown) :
    state' = state := by
  obtain ⟨⟨loc, hloc⟩, hiff⟩ := verdict_iff_faulty hl hone hin h hne
  obtain ⟨-, hiff'⟩ := verdict_iff_faulty hl hone hin h' hne'
  have hboth := (hiff' loc hloc).trans (hiff loc hloc).symm
  cases state with
  | unknown => exact absurd rfl hne
  | bad => exact hboth.mpr rfl
  | ok =>
      cases state' with
      | unknown => exact absurd rfl hne'
      | bad => exact absurd (hboth.mp rfl) (by simp)
      | ok => rfl

theorem answered_like {B G : Prop} :
    MountLike (τ := τ) K M (answeredSystem B G K M (Writer M)) where
  exec h := h.1
  env h := writer_anyChange h
  arrive := rfl
  prog := rfl

/--
**The verdict on an entry is stable.** On a mount whose archive reads fail only transiently,
with every entry's range inside the archive, in every run whose checkouts find sound decoders:

* an entry has no verdict, or the one that its content alone decides: bad exactly if it is
  faulty;
* a verdict that is there stays as it is;
* a read through a decoder that ends in a transient failure stores none, and a read of a
  stored file or of a whole stored entry stores one only after it has read the archive;
* every read that has found its handle and every `readlink` that has found no cached target is
  refused if the entry was bad when it started.
-/
theorem verdict_stable (hK : K.Lawful) (hl : K.Live) (hone : M.Definite) (hin : M.Contained)
    {path : Option Stamp} {c : Lib.Config τ (World τ δ ζ) Call Reply (@Res δ ζ)}
    (h : Lib.Reachable (answeredSystem False True K M (Writer M)) (World.start M path) c) :
    (∀ i m, M.index.metas[i]? = some m → c.world.verifyState i ≠ .unknown →
      (∃ loc, LocationOk M i m loc) ∧
        ∀ loc, LocationOk M i m loc → (c.world.verifyState i = .bad ↔ loc.Faulty K M m)) ∧
    (∀ i m c', M.index.metas[i]? = some m → c.world.verifyState i ≠ .unknown →
      Lib.Steps (answeredSystem False True K M (Writer M)) c c' →
      c'.world.verifyState i = c.world.verifyState i) ∧
    (∀ (d : PositionedDecoder δ ζ) offset out i m xs d' out' e,
      (d.readAt K M offset out i m).Traced xs (d', out', .error e) → provesBad e = false →
      Unjudged xs) ∧
    (∀ f m offset buf xs x, (∀ pool, f.kind ≠ .coded pool) →
      (Fs.readInto K M f m offset buf).Traced xs x → AfterRead M xs) ∧
    (∀ i m limit xs r, m.method = some .store → 0 < m.uncompressedSize →
      (Fs.readAll K M i m limit).Traced xs r → AfterRead M xs) ∧
    (∀ e ∈ c.history, ∀ fh offset size f, e.call = .read fh offset size →
      .handleFound ∈ e.finish.seen e.thread → FileAt fh f c.world →
      e.start.verifyState f.metaIdx = .bad → RefusedRead e) ∧
    (∀ e ∈ c.history, ∀ ino node, e.call = .readlink ino →
      .targetMissing ∈ e.finish.seen e.thread → M.index.node ino = some node →
      e.start.verifyState node.metaIdx = .bad → RefusedRead e) := by
  have hm : Lib.Respects (answeredSystem (τ := τ) False True K M (Writer M))
    (mountProtocol False True K M)
      (Served False True K M) := answered_respects (fun _ => hK) fun _ _ h => h
  have hg := Lib.sound hm (start_inv path) h
  refine ⟨?_, ?_, fun _ _ _ _ _ _ _ _ _ => readAt_transient, fun _ _ _ _ _ _ hk =>
    readInto_afterRead hk,
    fun _ _ _ _ _ hs hp => readAll_afterRead hs hp, ?_, ?_⟩
  · intro i m hentry hne
    exact verdict_iff_faulty hl hone hin (hg.inv.verdicts i m hentry) hne
  · intro i m c' hentry hne hsteps
    have hg' := Lib.sound hm (start_inv path) (h.steps hsteps)
    exact verdict_unique hl hone hin (hg.inv.verdicts i m hentry) (hg'.inv.verdicts i m hentry) hne
      ((h.grow hm (start_inv path) hsteps).judged i hne)
  · intro e he fh offset size f hcall hfound hat hbad
    obtain ⟨m, hloc, -⟩ := (fileOk_of_fileAt hg.inv hat).entry
    obtain ⟨xs, -, hspan⟩ := event_spanned answered_like hm h he
    have hv := hspan.verdicts _ m hloc.entry
    refine read_refused answered_like hm h he hcall hfound hat (by simp [hbad]) hloc.entry ?_
    intro hok
    rw [hbad] at hv
    exact absurd (verdict_unique hl hone hin hv hok (by simp) (by simp)) (by simp)
  · intro e he ino node hcall hmissing hnode hbad
    obtain ⟨xs, htr, hspan⟩ := event_spanned answered_like hm h he
    rw [hcall] at htr
    obtain ⟨node', m, state, hnode', hentry, hload, hrefuses⟩ :=
      readlink_traced htr (hspan.noted _ hmissing)
    obtain rfl := Option.some.inj (hnode.symm.trans hnode')
    obtain ⟨hne, hv⟩ := hspan.loaded _ _ hload
    have hstart := hspan.verdicts _ m hentry
    rw [hbad] at hstart
    have hstate := verdict_unique hl hone hin hstart (hv m hentry) (by simp) (hne (by simp [hbad]))
    exact (hrefuses hstate).event hspan

end Stable

/-! ## Samples -/

/-- Where the samples find the data of an entry. -/
theorem Sample.start_eq (hget : M.getEntry = Sample.getEntry) {m : EntryMeta} {start : Nat}
    (h : EntryStart M m start) :
    start = m.wayfinder + 30 + Sample.u16 (M.range m.wayfinder 30) 26 +
      Sample.u16 (M.range m.wayfinder 30) 28 := by
  unfold EntryStart at h
  rw [hget] at h
  obtain ⟨stop, -, -, r, hr, hrun⟩ := h
  cases r with
  | error e => exact absurd hrun (by simp [Lib.Prog.Runs])
  | ok header =>
      dsimp only at hrun
      split at hrun
      · rename_i hheader
        obtain ⟨rfl, -⟩ := Prod.mk.inj (Except.ok.inj hrun)
        have hpre : header <+: M.range m.wayfinder 30 := hr
        have hlen : (M.range m.wayfinder 30).length ≤ header.length := by
          rw [hheader.1]
          unfold Mount.range
          rw [List.length_take]
          exact Nat.min_le_left _ _
        rw [hpre.eq_of_length_le hlen]
      · exact absurd hrun (by simp [Lib.Prog.Runs])

theorem Sample.definite (hget : M.getEntry = Sample.getEntry) : M.Definite := by
  intro i m start start' _ h h'
  rw [Sample.start_eq hget h, Sample.start_eq hget h']

/-- Where the stored sample has its entry. -/
theorem Sample.stored_location {i : Nat} {m : EntryMeta} {loc : EntryLocation}
    (h : LocationOk (Sample.stored 0) i m loc) :
    m = { Sample.entry 1 0 with compressedSize := 1, methodRaw := 0 } ∧ loc.dataStart = 31 ∧
      loc.compressedSize = 1 := by
  obtain rfl := List.mem_singleton.mp (List.mem_of_getElem? h.entry)
  refine ⟨rfl, ?_, h.size⟩
  rw [Sample.start_eq rfl h.start]
  decide +kernel

/-- What a note says of a tracker. -/
def Note.tracker : Note → Option (Nat × Nat × Nat × Bool)
  | .observed id offset len fine => some (id, offset, len, fine)
  | _ => none

/-- It has its entry inside the archive. -/
theorem Sample.contained : (Sample.stored 0).Contained := by
  intro i m loc hloc
  obtain ⟨-, hat, hlen⟩ := Sample.stored_location hloc
  rw [hat, hlen]
  decide +kernel

/-- The stored sample with a wrong checksum again: the read that comes after the first finds the
entry bad, and is refused. -/
theorem verdict_stable_sample :
    ∃ c : Lib.Config Unit (World Unit Sample.Inflater Unit) Call Reply (@Res Sample.Inflater Unit),
      Lib.Reachable
        (answeredSystem False True Sample.codecs (Sample.stored 0) (Writer (Sample.stored 0)))
        (World.start (Sample.stored 0) none) c ∧
      ∃ e ∈ c.history, e.call = .read 1 0 10 ∧ e.start.verifyState 0 = .bad ∧ RefusedRead e := by
  set M := Sample.stored 0
  set S := answeredSystem (τ := Unit) False True Sample.codecs M (Writer M)
  set respond := detSound (τ := Unit) Sample.codecs M ()
  have hexec : ∀ o w r w', respond o w = some (r, w') → S.exec () o w r w' := by
    intro o w r w' h
    obtain ⟨h, hsound⟩ := detSound_exec h
    refine ⟨.inl h, ?_, fun _ => hsound⟩
    cases o with
    | cell i =>
        intro e he
        obtain ⟨hr, -⟩ := Prod.mk.inj (Option.some.inj h)
        exact absurd (hr.trans he) (by simp)
    | _ => trivial
  have hcheck : ((Lib.runCalls S respond () [.openFile 2 .rdonly, .read 1 0 10]
      (World.start M none)).bind fun x =>
        (Lib.run respond (S.prog (.read 1 0 10)) (S.arrive () (.read 1 0 10) x.2)).map fun y =>
          (x.2.verifyState 0, (y.2.seen ()).any (· matches .handleFound),
            (y.2.files 1).map (·.file.metaIdx))) = some (.bad, true, some 0) := by
    decide +kernel
  obtain ⟨⟨as, w⟩, hfirst, hcheck⟩ := Option.bind_eq_some_iff.mp hcheck
  obtain ⟨⟨reply, w'⟩, hread, hcheck⟩ := Option.map_eq_some_iff.mp hcheck
  obtain ⟨hbad, hcheck⟩ := Prod.mk.inj hcheck
  obtain ⟨hseen, hfile⟩ := Prod.mk.inj hcheck
  obtain ⟨c, hc, rfl, hidle, -⟩ := Lib.reachable_runCalls hexec Lib.Reachable.init rfl hfirst
  obtain ⟨run, hend, -⟩ := Lib.reachable_alone hc hidle _ (Lib.alone_of_run hexec hread)
  obtain ⟨cell, hcell, hidx⟩ := Option.map_eq_some_iff.mp hfile
  obtain ⟨n, hn, hmatch⟩ := List.any_eq_true.mp hseen
  have hfound : Note.handleFound ∈ w'.seen () := by
    cases n with
    | handleFound => exact hn
    | _ => exact absurd hmatch (by simp)
  have hstart : (S.arrive () (.read 1 0 10) c.world).verifyState 0 = .bad := hbad
  refine ⟨_, hend, _, List.mem_cons_self, rfl, hstart, ?_⟩
  refine (verdict_stable Sample.codecs_lawful Sample.codecs_live (Sample.definite rfl)
    Sample.contained hend).2.2.2.2.2.1 _ List.mem_cons_self 1 0 10 cell.file rfl hfound
    ⟨cell, hcell, rfl⟩ ?_
  rw [hidx]
  exact hstart

/-- The torn sample finds its entry where its local header says. -/
theorem Sample.torn_location {i : Nat} {m : EntryMeta} {loc : EntryLocation}
    (h : LocationOk Sample.Torn.mount i m loc) :
    i = 0 ∧ m = Sample.Torn.entry ∧ loc = Sample.Torn.loc := by
  obtain ⟨rfl, rfl⟩ := Sample.Torn.meta_eq h.entry
  refine ⟨rfl, rfl, ?_⟩
  rcases loc with ⟨start, len, method⟩
  obtain rfl : len = 4102 := h.size
  obtain rfl : method = .zstd := (Option.some.inj h.method).symm
  have hstart : start = _ := Sample.start_eq rfl h.start
  obtain rfl : start = 31 := hstart.trans (by decide +kernel)
  rfl

/-- **A read after a failed one marks a faulty entry good.** Every archive read of the run
succeeds. -/
theorem verdict_not_stable :
    ∃ c : Lib.Config Unit (World Unit Sample.Inflater Sample.Torn.Phase) Call Reply
        (@Res Sample.Inflater Sample.Torn.Phase),
      Sample.Torn.codecs.Lawful ∧ Sample.Torn.codecs.Live ∧ Sample.Torn.mount.Definite ∧
      Sample.Torn.mount.Contained ∧
      Lib.Reachable
        (answeredSystem False False Sample.Torn.codecs Sample.Torn.mount (Writer Sample.Torn.mount))
        (World.start Sample.Torn.mount none) c ∧
      c.world.verifyState 0 = .ok ∧ ∃ m, Sample.Torn.mount.index.metas[0]? = some m ∧
        (∃ loc, LocationOk Sample.Torn.mount 0 m loc) ∧
        ∀ loc, LocationOk Sample.Torn.mount 0 m loc →
          loc.Faulty Sample.Torn.codecs Sample.Torn.mount m := by
  set S := answeredSystem (τ := Unit) False False Sample.Torn.codecs Sample.Torn.mount
    (Writer Sample.Torn.mount)
  obtain ⟨w, hrun, hstate, hfile⟩ := Sample.Torn.calls_answered (S := S) rfl rfl
  have hexec : ∀ o w r w', det Sample.Torn.codecs Sample.Torn.mount () o w = some (r, w') →
      S.exec () o w r w' := by
    intro o w r w' h
    refine ⟨.inl h, ?_, False.elim⟩
    cases o with
    | cell i =>
        intro e he
        obtain ⟨hr, -⟩ := Prod.mk.inj (Option.some.inj h)
        exact absurd (hr.trans he) (by simp)
    | _ => trivial
  obtain ⟨c, hc, rfl, -, -, hall⟩ := Lib.reachable_runCalls hexec Lib.Reachable.init rfl hrun
  obtain ⟨c', hc', e, he, hcall, hreply, f, m, hat, hloc, rfl, hf, hi, -⟩ := Sample.Torn.served
  rw [hi] at hloc
  refine ⟨c, Sample.Torn.codecs_lawful, Sample.Torn.codecs_live, Sample.definite rfl, ?_,
    hc, hstate,
    _, hloc.entry, ⟨f.loc, hloc⟩, ?_⟩
  · intro i m loc h
    obtain ⟨-, -, rfl⟩ := Sample.torn_location h
    decide +kernel
  · intro loc h
    obtain ⟨-, -, rfl⟩ := Sample.torn_location h
    refine .inl ?_
    rw [Sample.Torn.stream_loc]
    decide +kernel

end ZipFs
