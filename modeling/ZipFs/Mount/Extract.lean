import ZipFs.Lib.Order
import ZipFs.Lib.Extend
import ZipFs.Mount.Answers
import ZipFs.Mount.Verdict
import ZipFs.Mount.Runs
import ZipFs.Mount.Calls

/-!
# A mount is an extracted archive

The index is built from the central directory, the kernel resolves a path in it, `open`
gives a handle for the inode that it comes to, and reads of the handle go through pools,
decoders and a checked archive file. Here the parts are put together. Of what is between the
central directory and the bytes nothing is left in the statement: at a path of the tree that
the accepted entries make, a program sees the entry that the tree has there, and what it
reads of it is the content of that entry, through any number of handles, in any order, with
any other calls going on. Of a stored entry that holds in every run, and of a compressed one
in those whose checkouts find sound decoders.
-/

namespace ZipFs

open Cli (Settings)
open Lib (Logic)

variable {τ δ ζ : Type} {K : Codecs δ ζ} {M : Mount}

/-! ## What is at a path -/

/-- What an `open` of an entry for reading may reply. -/
structure EntryReply (m : EntryMeta) (r : Reply) : Prop where
  encrypted : m.encrypted = true → r = .error ESTALE ∨ r = .error EACCES
  unsupported : m.encrypted = false → m.method = none →
    r = .error ESTALE ∨ r = .error EOPNOTSUPP
  shape : (∃ fh, r = .opened fh) ∨ ∃ errno, r = .error errno

/-- What an `open` of something that is at a path may reply. -/
def OpenReply (i : Info) (mode : AccMode) (r : Reply) : Prop :=
  if i.kind = .dir then r = .error EISDIR
  else if mode ≠ .rdonly then r = .error EROFS
  else (i.entry = none → r = .error EIO) ∧ ∀ m, i.entry = some m → EntryReply m r

/-- The node behind an inode, and what the tree has at its path. -/
structure NodeAt (M : Mount) (ino : Nat) (i : Info) (n : Node) : Prop where
  node : M.index.node ino = some n
  kind : n.kind = i.kind
  entry : (M.index.metaOf n).map EntryMeta.bare = i.entry

/-- Nothing is asked of the operations. -/
abbrev anyOps : Logic (@Res δ ζ) := Lib.always fun _ => True

theorem anyOps_locates : Permits (anyOps (δ := δ) (ζ := ζ)) M Op.Locates where
  verify := accepts_guardVerify fun _ _ => Lib.always_op trivial
  op _ _ := Lib.always_op trivial

/-- An entry that cannot be read is not located. -/
theorem locate_unreadable {m : EntryMeta} {errno : Nat} (h : Fs.readable m = .error errno)
    (j : Nat) : (anyOps (δ := δ) (ζ := ζ)).Holds (Fs.locate M j m) fun r =>
      r = .error ESTALE ∨ r = .error errno := by
  unfold Fs.locate
  refine Logic.seq (Lib.always_op (o := Op.loadStale) trivial) fun stale => ?_
  split
  · exact Logic.pure _ (.inl rfl)
  · rw [h]
    exact Logic.pure _ (.inr rfl)

/-- Only an input or output error is looked into. -/
theorem diagnose_other {errno : Nat} (h : errno ≠ EIO) :
    (anyOps (δ := δ) (ζ := ζ)).Holds (Fs.diagnose M errno) fun e => e = errno := by
  unfold Fs.diagnose
  rw [if_neg h]
  exact Logic.pure _ rfl

theorem readable_error {m : EntryMeta} {errno : Nat} (h : Fs.readable m = .error errno) :
    (m.encrypted = true ∧ errno = EACCES) ∨
      (m.encrypted = false ∧ m.method = none ∧ errno = EOPNOTSUPP) := by
  unfold Fs.readable at h
  split at h
  · rename_i henc
    exact .inl ⟨henc, (Except.error.inj h).symm⟩
  · rename_i henc
    split at h
    · rename_i hm
      exact .inr ⟨by simpa using henc, hm, (Except.error.inj h).symm⟩
    · exact absurd h (by simp)

theorem readable_ok {m : EntryMeta} {method : Method} (h : Fs.readable m = .ok method) :
    m.encrypted = false ∧ m.method = some method := by
  unfold Fs.readable at h
  split at h
  · exact absurd h (by simp)
  · rename_i henc
    split at h
    · exact absurd h (by simp)
    · rename_i hm
      obtain rfl := Except.ok.inj h
      exact ⟨by simpa using henc, hm⟩

theorem EntryReply.of_error {m : EntryMeta} {errno e : Nat} (h : Fs.readable m = .error errno)
    (he : e = ESTALE ∨ e = errno) : EntryReply m (.error e) := by
  have hreply : Reply.error e = .error ESTALE ∨ Reply.error e = .error errno :=
    he.imp (congrArg _) (congrArg _)
  refine ⟨?_, ?_, .inr ⟨e, rfl⟩⟩
  · intro henc
    rcases readable_error h with ⟨-, rfl⟩ | ⟨hno, -⟩
    · exact hreply
    · exact absurd (henc.symm.trans hno) (by simp)
  · intro henc _
    rcases readable_error h with ⟨hyes, -⟩ | ⟨-, -, rfl⟩
    · exact absurd (henc.symm.trans hyes) (by simp)
    · exact hreply

theorem EntryReply.of_ok {m : EntryMeta} {method : Method} {r : Reply}
    (h : Fs.readable m = .ok method) (hr : (∃ fh, r = .opened fh) ∨ ∃ errno, r = .error errno) :
    EntryReply m r := by
  obtain ⟨henc, hmethod⟩ := readable_ok h
  exact ⟨fun h => absurd (h.symm.trans henc) (by simp),
    fun _ h => absurd (h.symm.trans hmethod) (by simp), hr⟩

/-- **What an `open` replies is decided by what is at the path**, whatever the archive answers. -/
theorem openFile_replies {ino : Nat} {i : Info} {n : Node} (h : NodeAt M ino i n)
    (mode : AccMode) :
    (anyOps (δ := δ) (ζ := ζ)).Holds (Fs.openFile M ino mode) (OpenReply i mode) := by
  unfold Fs.openFile OpenReply
  rw [h.node]
  dsimp only
  rw [h.kind]
  split
  · exact Logic.pure _ rfl
  split
  · exact Logic.pure _ rfl
  have hentry := h.entry
  cases hof : M.index.metaOf n with
  | none =>
      rw [hof] at hentry
      exact Logic.pure _ ⟨fun _ => rfl, fun m hm => absurd (hentry.trans hm) (by simp)⟩
  | some m =>
      rw [hof] at hentry
      -- the metadata at the path, but for the cell of a target
      have hbare : ∀ {r}, EntryReply m r → (i.entry = none → r = .error EIO) ∧
          ∀ m', i.entry = some m' → EntryReply m' r := by
        intro r hr
        refine ⟨fun hnone => absurd (hentry.trans hnone) (by simp), fun m' hm' => ?_⟩
        obtain rfl := Option.some.inj (hentry.trans hm')
        exact ⟨hr.encrypted, hr.unsupported, hr.shape⟩
      cases hread : Fs.readable m with
      | error errno =>
          refine Logic.bind _ (locate_unreadable hread n.metaIdx) ?_
          intro found hfound
          obtain ⟨e, rfl, he⟩ : ∃ e, found = .error e ∧ (e = ESTALE ∨ e = errno) := by
            rcases hfound with rfl | rfl
            · exact ⟨_, rfl, .inl rfl⟩
            · exact ⟨_, rfl, .inr rfl⟩
          have hother : e ≠ EIO := by
            rcases he with rfl | rfl
            · decide
            · rcases readable_error hread with ⟨-, rfl⟩ | ⟨-, -, rfl⟩
              · decide
              · decide
          refine Logic.bind _ (diagnose_other hother) ?_
          intro e' he'
          rw [he']
          exact Logic.pure _ (hbare (.of_error hread he))
      | ok method =>
          refine Logic.seq (accepts_locate anyOps_locates _ _) fun found => ?_
          cases found with
          | error e =>
              refine Logic.seq (accepts_diagnose anyOps_locates (Lib.always_op trivial) e) ?_
              exact fun errno => Logic.pure _ (hbare (.of_ok hread (.inr ⟨errno, rfl⟩)))
          | ok loc =>
              have hop : ∀ o : Op δ ζ, o.Serves (fun _ => True) → anyOps.Accepts (.op o .ret) :=
                fun _ _ => Lib.always_op trivial
              refine Logic.seq (accepts_newFile hop _ _ _ _) fun file => ?_
              refine Logic.seq (accepts_insert hop file) fun fh => ?_
              exact Logic.pure _ (hbare (.of_ok hread (.inl ⟨fh, rfl⟩)))

/-! ## Reading -/

/-- A read was answered with these bytes, of a handle that an `open` of the inode gave. -/
def Answered (c : Lib.Config τ (World τ δ ζ) Call Reply (@Res δ ζ)) (ino offset size : Nat)
    (bs : Bytes) : Prop :=
  ∃ fh mode, (∃ e ∈ c.history, e.call = .openFile ino mode ∧ e.reply = .opened fh) ∧
    ∃ e ∈ c.history, e.call = .read fh offset size ∧ e.reply = .data bs

theorem OpenReply.opened {i : Info} {mode : AccMode} {fh : Nat}
    (h : OpenReply i mode (.opened fh)) : i.kind ≠ .dir ∧ i.entry ≠ none := by
  unfold OpenReply at h
  split at h
  · exact absurd h (by simp)
  split at h
  · exact absurd h (by simp)
  rename_i hdir _
  exact ⟨hdir, fun hnone => absurd (h.1 hnone) (by simp)⟩

section Run

variable [DecidableEq τ] {path : Option Stamp}
variable {c : Lib.Config τ (World τ δ ζ) Call Reply (@Res δ ζ)}

/-- Every `open` of an inode was answered as what is at its path allows. -/
theorem open_answered (h : MountRun K M path c) {ino : Nat} {i : Info} {n : Node}
    (hnode : NodeAt M ino i n) {e : Lib.Event τ (World τ δ ζ) Call Reply} (he : e ∈ c.history)
    {mode : AccMode} (hcall : e.call = .openFile ino mode) : OpenReply i mode e.reply := by
  have hall : ∀ call : Call, (call.prog K M).Always (fun _ => True) fun r =>
      ∀ mode, call = .openFile ino mode → OpenReply i mode r := by
    intro call
    by_cases hopen : ∃ mode, call = .openFile ino mode
    · obtain ⟨mode, rfl⟩ := hopen
      have hreplies : (anyOps (δ := δ) (ζ := ζ)).Holds (Fs.openFile M ino mode) _ :=
        openFile_replies hnode mode
      refine Logic.mono (L := anyOps) hreplies ?_
      intro r hr mode' heq
      obtain ⟨-, rfl⟩ := Call.openFile.inj heq
      exact hr
    · refine Logic.mono (L := anyOps) (p := call.prog K M) (Q := fun _ => True) ?_ ?_
      · exact (prog_performs K M call).accepts fun _ _ => Lib.always_op trivial
      · exact fun r _ mode heq => absurd ⟨mode, heq⟩ hopen
  exact Lib.history_always hall h e he mode hcall

/-- A read of a node was answered with what its entry has at the offset. -/
def EntryRead (K : Codecs δ ζ) (M : Mount) (i : Info) (n : Node) (offset size : Nat)
    (bs : Bytes) : Prop :=
  i.kind ≠ .dir ∧ ∃ m loc, M.index.metaOf n = some m ∧ i.entry = some m.bare ∧
    LocationOk M n.metaIdx m loc ∧ bs.length ≤ min size (m.uncompressedSize - offset) ∧
    bs = ((loc.content K M).drop offset).take bs.length ∧
    (m.uncompressedSize ≤ (loc.content K M).length →
      bs.length = min size (m.uncompressedSize - offset))

/-- A read of an inode, in terms of what is at its path. -/
theorem Answered.bytes {B G : Prop} {S : Lib.System τ (World τ δ ζ) Call Reply (@Res δ ζ)}
    (hg : Lib.Good S (mountProtocol B G K M) (Served B G K M) c) (h : MountRun K M path c)
    {ino : Nat} {i : Info} {n : Node} (hnode : NodeAt M ino i n)
    (hsure : G ∨ ∃ m, i.entry = some m ∧ m.method = some .store) {offset size : Nat} {bs : Bytes}
    (ha : Answered c ino offset size bs) : EntryRead K M i n offset size bs := by
  obtain ⟨fh, mode, ⟨e, he, hcall, hreply⟩, e', he', hcall', hreply'⟩ := ha
  have hopened := open_answered h hnode he hcall
  rw [hreply] at hopened
  obtain ⟨hdir, hsome⟩ := hopened.opened
  -- the file behind the handle is the one that was opened
  obtain ⟨f, hat, -, n', hn', hidx⟩ := opened_file hg he hcall hreply
  obtain rfl := Option.some.inj (hnode.node.symm.trans hn')
  obtain ⟨f', hat', hf, hd⟩ := read_answered hg he' hcall' hreply'
  obtain rfl := hat.unique hat'
  obtain ⟨m, hloc, hsize⟩ := hf.entry
  have hof : M.index.metaOf n = some m := by
    have hentry := hnode.entry
    unfold Index.metaOf at hentry ⊢
    split
    · rename_i hno
      rw [if_pos hno] at hentry
      exact absurd hentry.symm hsome
    · rw [← hidx]
      exact hloc.entry
  have hbare : i.entry = some m.bare := by
    rw [← hnode.entry, hof]
    rfl
  have hb : BytesOk K M f offset (min size (f.size - offset)) bs := by
    refine hd.bytes (hsure.imp_right fun hstored => ?_)
    obtain ⟨m', hm', hstore⟩ := hstored
    obtain rfl := Option.some.inj (hbare.symm.trans hm')
    exact Option.some.inj (hloc.method.symm.trans hstore)
  refine ⟨hdir, m, f.loc, hof, hbare, ?_, ?_, hb.content, ?_⟩
  · rw [← hidx]
    exact hloc
  · rw [← hsize]
    exact hb.len
  · intro hlong
    rw [← hsize]
    rcases hb.full with hfull | ⟨hne, hearly⟩
    · exact hfull
    · obtain ⟨-, -, -, hshort⟩ := hearly m hloc.entry
      rw [content_of_coded hne] at hlong
      omega

/-- What a run needs so that reads of what is at a path are decided by the archive: nothing of a
stored entry, and of a compressed one codecs that keep their contract and checkouts that find
sound decoders. -/
def Decided (K : Codecs δ ζ) (M : Mount) (path : Option Stamp)
    (c : Lib.Config τ (World τ δ ζ) Call Reply (@Res δ ζ)) (i : Info) : Prop :=
  (K.Lawful ∧ SoundRun K M path c) ∨ ∃ m, i.entry = some m ∧ m.method = some .store

theorem Decided.read {i : Info} (hsure : Decided K M path c i) (h : MountRun K M path c) {ino : Nat}
    {n : Node} (hnode : NodeAt M ino i n) {offset size : Nat} {bs : Bytes}
    (ha : Answered c ino offset size bs) : EntryRead K M i n offset size bs := by
  rcases hsure with ⟨hK, hs⟩ | hstored
  · exact ha.bytes (soundRun_good hK hs) h hnode (.inl trivial)
  · exact ha.bytes (mountRun_good h) h hnode (.inr hstored)

end Run

def Sample.directory : List Entry := [⟨[0x66], false, Sample.entry 1 Sample.checksum⟩]

end ZipFs
