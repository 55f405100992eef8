import ZipFs.Mount.Parts

/-!
# Which call touches what

The table of handles and the cached targets of symlinks are each touched by the calls
that they are for, and by nothing below them: whatever the answers are, only `open` draws
a handle and puts a file behind it, only a `read` of a handle looks it up, only its
`release` takes it out, and only `readlink` has to do with targets.
-/

namespace ZipFs

variable {δ ζ : Type} {K : Codecs δ ζ} {M : Mount}

/-- Neither a matter of handles nor of the targets of symlinks. -/
def Op.Inward : Op δ ζ → Prop
  | .getSymlink _ | .setSymlink .. | .nextHandle | .insertHandle .. | .getHandle _
  | .removeHandle _ | .dropFile _ => False
  | _ => True

/-- What a call may do to handles and targets. -/
def Call.Performs (call : Call) : Op δ ζ → Prop
  | .getSymlink _ | .setSymlink .. => ∃ ino, call = .readlink ino
  | .nextHandle | .insertHandle .. => ∃ ino mode, call = .openFile ino mode
  | .getHandle fh => ∃ offset size, call = .read fh offset size
  | .removeHandle fh => call = .release fh
  | .dropFile fh => call = .release fh ∨ ∃ offset size, call = .read fh offset size
  | _ => True

theorem Op.Inward.performs {o : Op δ ζ} (h : o.Inward) (call : Call) : call.Performs o := by
  cases o with
  | getSymlink _ | setSymlink _ _ | nextHandle | insertHandle _ _ | getHandle _ | removeHandle _
  | dropFile _ => exact h.elim
  | _ => trivial

theorem Op.Inner.inward {F : Bool → Prop} {o : Op δ ζ} (h : o.Inner F) : o.Inward := by
  cases o with
  | getSymlink _ | setSymlink _ _ | nextHandle | insertHandle _ _ | getHandle _ | removeHandle _
  | dropFile _ => exact h
  | _ => trivial

theorem Op.Checks.inward {o : Op δ ζ} (h : o.Checks) : o.Inward := by
  cases o with
  | getSymlink _ | setSymlink _ _ | nextHandle | insertHandle _ _ | getHandle _ | removeHandle _
  | dropFile _ => exact h
  | _ => trivial

/-- What is built below the calls performs nothing of this kind. -/
theorem inward_permits {A : Op δ ζ → Prop} (h : ∀ o, o.Inward → A o) :
    PermitsPick (Lib.always A) M (fun _ => True) (Op.Inner fun _ => True) where
  verify := accepts_guardVerify fun o ho => Lib.always_op (h o ho.inward)
  op o ho := Lib.always_op (h o ho.inward)
  fresh := trivial
  pick id offset :=
    Lib.Logic.mono (Lib.always_op (o := Op.pick id offset) (h _ trivial)) fun _ _ _ _ => trivial

/-! ## The calls, from what they are built of -/

section Walk

open Lib (Logic)

variable {L : Logic (@Res δ ζ)}

/-- Dropping a reference to an open file, and its pool with the last one. -/
theorem walk_releaseFile {fh : Nat} {file : OpenFile} (hdrop : L.Accepts (.op (.dropFile fh) .ret))
    (hpool : ∀ pool, file.kind = .coded pool → L.Accepts (pool.drop : Act δ ζ Unit)) :
    L.Accepts (file.release fh : Act δ ζ Unit) := by
  unfold OpenFile.release
  refine Logic.seq hdrop fun last => ?_
  split
  · split
    · rename_i pool hkind
      exact hpool pool hkind
    · exact L.pure trivial
  · exact L.pure trivial

theorem walk_openFile {ino : Nat} {mode : AccMode} (hlocate : ∀ i m, L.Accepts (Fs.locate M i m))
    (hnew : ∀ i m loc, L.Accepts (OpenFile.new M ino i m loc : Act δ ζ _))
    (hnext : L.Accepts (.op .nextHandle .ret))
    (hinsert : ∀ fh file, L.Accepts (.op (.insertHandle fh file) .ret))
    (hdiag : ∀ errno, L.Accepts (Fs.diagnose M errno : Act δ ζ Nat)) :
    L.Accepts (Fs.openFile M ino mode : Act δ ζ Reply) := by
  unfold Fs.openFile
  split
  · exact L.pure trivial
  split
  · exact L.pure trivial
  split
  · exact L.pure trivial
  split
  · exact L.pure trivial
  refine Logic.seq (hlocate _ _) fun found => ?_
  split
  · exact Logic.seq (hdiag _) fun _ => L.pure trivial
  · refine Logic.seq (hnew _ _ _) fun file => ?_
    refine Logic.seq ?_ fun fh => L.pure trivial
    refine Logic.seq hnext fun fh => ?_
    exact Logic.seq (hinsert fh file) fun _ => L.pure trivial

theorem walk_readlink {ino : Nat} (hget : ∀ slot, L.Accepts (.op (.getSymlink slot) .ret))
    (hmissing : L.Accepts (.op (.note .targetMissing) .ret))
    (hread : ∀ i m limit, L.Accepts (Fs.readAll K M i m limit))
    (hset : ∀ slot target, L.Accepts (.op (.setSymlink slot target) .ret))
    (hdiag : ∀ errno, L.Accepts (Fs.diagnose M errno : Act δ ζ Nat)) :
    L.Accepts (Fs.readlink K M ino) := by
  unfold Fs.readlink
  split
  · exact L.pure trivial
  split
  · exact L.pure trivial
  split
  · exact L.pure trivial
  refine Logic.seq (hget _) fun cached => ?_
  split
  · exact L.pure trivial
  · refine Logic.seq hmissing fun _ => ?_
    refine Logic.seq (hread _ _ _) fun found => ?_
    split
    · refine Logic.seq (hset _ _) fun kept => ?_
      split
      · exact L.pure trivial
      · exact L.pure trivial
    · exact Logic.seq (hdiag _) fun _ => L.pure trivial

end Walk

variable (K M) in
/-- **A call performs only what it is for.** -/
theorem prog_performs (call : Call) :
    (call.prog K M : Act δ ζ Reply).Always call.Performs fun _ => True := by
  have hp := inward_permits (M := M) fun (o : Op δ ζ) ho => ho.performs call
  have hd : (Lib.always call.Performs).Accepts (Act.note .diagnosing : Act δ ζ Unit) :=
    Lib.always_op trivial
  have hlocates := hp.weaken fun _ (ho : Op.Locates _) => Op.Locates.inner (F := fun _ => True) ho
  have hreads := hlocates.weaken fun _ ho => Op.Reads.locates ho
  change (Lib.always call.Performs).Accepts (call.prog K M)
  cases call with
  | openFile ino mode =>
      exact walk_openFile (accepts_locate hlocates) (fun _ _ _ => inner_newFile hp.op _ _ _ _)
        (Lib.always_op ⟨ino, mode, rfl⟩) (fun _ _ => Lib.always_op ⟨ino, mode, rfl⟩)
        (accepts_diagnose hlocates hd)
  | read fh offset size =>
      change (Lib.always _).Accepts (Fs.read K M fh offset size)
      unfold Fs.read
      refine Lib.Logic.seq (Lib.always_op (o := Op.getHandle fh) ⟨offset, size, rfl⟩)
        fun found => ?_
      split
      · exact Lib.Logic.pure _ trivial
      · refine Lib.Logic.seq (Lib.always_op (o := Op.note .handleFound) trivial) fun _ => ?_
        refine Lib.Logic.seq (inner_readFile hp hd _ offset size) fun reply => ?_
        refine Lib.Logic.seq ?_ fun _ => Lib.Logic.pure _ trivial
        exact walk_releaseFile (Lib.always_op (o := Op.dropFile fh) (.inr ⟨offset, size, rfl⟩))
          fun pool _ => accepts_drop hp.innerPools.op pool
  | readlink ino =>
      exact walk_readlink (fun _ => Lib.always_op ⟨ino, rfl⟩) (Lib.always_op trivial)
        (inner_readAll hp) (fun _ _ => Lib.always_op ⟨ino, rfl⟩) (accepts_diagnose hlocates hd)
  | release fh =>
      change (Lib.always _).Accepts (Fs.release fh)
      unfold Fs.release
      refine Lib.Logic.seq (Lib.always_op (o := Op.removeHandle fh) rfl) fun found => ?_
      split
      · exact Lib.Logic.pure _ trivial
      · refine Lib.Logic.seq ?_ fun _ => Lib.Logic.pure _ trivial
        exact walk_releaseFile (Lib.always_op (o := Op.dropFile fh) (.inl rfl))
          fun pool _ => accepts_drop hp.innerPools.op pool
  | readAt len offset =>
      exact Lib.Logic.seq (accepts_readAt hreads len offset) fun _ => Lib.Logic.pure _ trivial
  | readExactAt buf offset =>
      exact Lib.Logic.seq (accepts_readExactAt hreads buf offset) fun _ =>
        Lib.Logic.pure _ trivial

end ZipFs
