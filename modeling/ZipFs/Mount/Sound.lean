import ZipFs.Mount.Fs

/-!
# Checkouts that find a sound decoder

A decoder goes back to its pool also when its read has failed, with nothing in it that says
so, and `checkout` hands it out again at the position where it failed if that suits the next
read. What its codec does then nobody promises: the contract of a stream decoder ends at
its first error. So what is said of the content of entries is said of the runs in which no
checkout does that.
-/

namespace ZipFs

variable {τ δ ζ : Type}

/-- The idle decoder that a checkout would take as it is has not failed. -/
def Sound (idle : List (PositionedDecoder δ ζ)) (offset : Nat) : Bool :=
  match usable idle offset with
  | some i => (idle[i]?).all fun d => !d.failed
  | none => true

/-- Before a checkout, the decoder that would be taken as it is has not failed. -/
def PicksSound (o : Op δ ζ) (w : World τ δ ζ) : Bool :=
  match o with
  | .pick id offset => (w.pools[id]?).all fun cell => Sound cell.idle offset
  | _ => true

/-- What a checkout takes without rewinding is the usable one. -/
theorem pickIdle_sound {idle rest : List (PositionedDecoder δ ζ)} {offset : Nat}
    {d : PositionedDecoder δ ζ} (hs : Sound idle offset = true)
    (h : pickIdle idle offset = (some (d, false), rest)) : d.failed = false := by
  unfold pickIdle at h
  split at h
  · rename_i i hi
    split at h
    · rename_i d' rest' hremove
      obtain ⟨hsome, -⟩ := Prod.mk.inj h
      obtain ⟨rfl, -⟩ := Prod.mk.inj (Option.some.inj hsome)
      unfold Sound at hs
      rw [hi] at hs
      dsimp only at hs
      rw [(swapRemove_perm hremove).1] at hs
      simpa using hs
    · exact absurd h (by simp)
  · split at h
    · obtain ⟨hsome, -⟩ := Prod.mk.inj h
      exact absurd (Prod.mk.inj (Option.some.inj hsome)).2 (by simp)
    · exact absurd h (by simp)

section Runs

variable [DecidableEq τ] {K : Codecs δ ζ} {M : Mount}

/-- The mount under writers that show what they do, where every checkout finds a sound decoder, or
none that it need not rewind. -/
abbrev soundMount (τ : Type) [DecidableEq τ] (K : Codecs δ ζ) (M : Mount) :
    Lib.System τ (World τ δ ζ) Call Reply (@Res δ ζ) :=
  (mountSystem K M (Writer M)).only fun _ o w _ => PicksSound o w = true

/-- The configurations of such a mount. -/
abbrev SoundRun (K : Codecs δ ζ) (M : Mount) (path : Option Stamp)
    (c : Lib.Config τ (World τ δ ζ) Call Reply (@Res δ ζ)) : Prop :=
  Lib.Reachable (soundMount τ K M) (World.start M path) c

theorem SoundRun.mountRun {path : Option Stamp}
    {c : Lib.Config τ (World τ δ ζ) Call Reply (@Res δ ζ)} (h : SoundRun K M path c) :
    MountRun K M path c :=
  Lib.Reachable.of_only h

/-- The step that `det` computes, unless it is a checkout that finds no sound decoder. -/
def detSound (K : Codecs δ ζ) (M : Mount) (t : τ) (o : Op δ ζ) (w : World τ δ ζ) :
    Option (Res o × World τ δ ζ) :=
  if PicksSound o w then det K M t o w else none

theorem detSound_exec {t : τ} {o : Op δ ζ} {w w' : World τ δ ζ} {r : Res o}
    (h : detSound K M t o w = some (r, w')) :
    det K M t o w = some (r, w') ∧ PicksSound o w = true := by
  unfold detSound at h
  split at h
  · rename_i hsound
    exact ⟨h, hsound⟩
  · exact absurd h (by simp)

end Runs

end ZipFs
