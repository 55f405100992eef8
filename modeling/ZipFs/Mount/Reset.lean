import ZipFs.Mount.Parts
import ZipFs.Mount.Sample
import ZipFs.Mount.Sound

/-!
# Codecs that have failed

A codec that has reported an error must be reset before it is stepped again. The law holds
over the runs whose checkouts find sound decoders, and a corrupt entry that is read twice
breaks it.
-/

namespace ZipFs

open Lib (Safe Logic)

variable {τ δ ζ : Type}

section Runs

variable [DecidableEq τ] {K : Codecs δ ζ} {M : Mount}

/-- The runs in which every checkout finds a sound decoder, or none that it need not rewind. -/
abbrev soundSystem (τ : Type) [DecidableEq τ] (K : Codecs δ ζ) (M : Mount) :
    Lib.System τ (World τ δ ζ) Call Reply (@Res δ ζ) :=
  (mountSystem K M AnyChange).only fun _ o w _ => PicksSound o w = true

/-- No thread has stepped a codec that had failed. -/
def StepsSound (w : World τ δ ζ) : Prop := ∀ t, Note.stepping true ∉ w.seen t

/-- Nothing is assumed of the others. -/
def resetProtocol (τ δ ζ : Type) : Lib.Protocol τ (World τ δ ζ) where
  inv := StepsSound
  rely _ _ _ := True
  grow _ _ := True
  rely_refl _ _ := trivial
  rely_trans _ _ _ _ _ _ := trivial
  grow_refl _ := trivial
  grow_trans _ _ _ _ _ := trivial
  grow_of_rely _ _ _ _ := trivial

/-- Programs of one thread that never step a codec that has failed. -/
def resetLogic (K : Codecs δ ζ) (M : Mount) (t : τ) : Logic (@Res δ ζ) :=
  Lib.keeping (resetProtocol τ δ ζ) (soundSystem τ K M).exec t (I := fun _ => True)
    fun _ _ _ _ _ => trivial

/-- Operations that do not note such a step. -/
theorem reset_op {t : τ} {o : Op δ ζ} {Q : Res o → Prop} (ho : Note.stepping true ∉ o.notes)
    (hq : ∀ w r w', (soundSystem τ K M).exec t o w r w' → Q r) :
    (resetLogic K M t).Holds (.op o .ret) Q := by
  refine Lib.keeping_op _ ?_
  intro w hi _ r w' he
  refine ⟨?_, trivial, fun _ _ => trivial, hq w r w' he, trivial⟩
  intro u hu
  rw [(exec_framed he.1).seen] at hu
  by_cases h : u = t
  · subst h
    rw [Function.update_self, List.mem_append] at hu
    exact hu.elim (hi u) ho
  · rw [Function.update_of_ne h] at hu
    exact hi u hu

theorem reset_permits (t : τ) : PermitsPick (resetLogic K M t) M (· = false)
    (Op.Serves (· = false)) where
  verify := by
    refine accepts_guardVerify fun o ho => reset_op ?_ fun _ _ _ _ => trivial
    cases o with
    | note n =>
        intro hn
        obtain rfl := List.mem_singleton.mp hn
        exact ho
    | _ => exact List.not_mem_nil
  op o ho := by
    refine reset_op ?_ fun _ _ _ _ => trivial
    cases o with
    | note n =>
        intro hn
        obtain rfl := List.mem_singleton.mp hn
        exact absurd ho (by simp [Op.Serves])
    | _ => exact List.not_mem_nil
  fresh := rfl
  pick id offset := by
    refine reset_op (o := .pick id offset) List.not_mem_nil ?_
    intro w r w' he d hr
    subst hr
    obtain ⟨he | ⟨he, -⟩, hsound⟩ := he
    · simp only [det] at he
      split at he
      · rename_i cell hcell
        simp only [PicksSound, hcell] at hsound
        split at he
        · exact absurd he (by simp)
        · split at he
          · rename_i d' rewind rest hpick
            obtain ⟨rfl, rfl⟩ := Prod.mk.inj (Option.some.inj (Prod.mk.inj (Option.some.inj he)).1)
            exact pickIdle_sound (by simpa using hsound) hpick
          · exact absurd (Prod.mk.inj (Option.some.inj he)).1 (by simp)
      · exact absurd he (by simp)
    · exact he.elim

theorem arrive_sound {w : World τ δ ζ} (t : τ) (call : Call) (hi : StepsSound w) :
    StepsSound (arrive t call w) := by
  intro u hu
  by_cases h : u = t
  · subst h
    simp [arrive] at hu
  · have hseen : (arrive t call w).seen u = w.seen u := Function.update_of_ne h ..
    exact hi u (hseen ▸ hu)

theorem reset_respects :
    Lib.Respects (soundSystem τ K M) (resetProtocol τ δ ζ) fun _ _ _ _ w => StepsSound w where
  arrive t call w hi := by
    exact ⟨arrive_sound t call hi, trivial, fun _ _ => trivial⟩
  env w w' h hi := by
    obtain ⟨content, stamp, path, rfl⟩ := h
    exact ⟨hi, trivial, fun _ => trivial⟩
  calls t call w hi := by
    have hd : (resetLogic K M t).Accepts (Act.note .diagnosing) :=
      reset_op (o := .note .diagnosing) (by simp [Op.notes]) fun _ _ _ _ => trivial
    exact (accepts_prog (reset_permits t) hd call _ (arrive_sound t call hi) trivial).mono
      fun _ _ hi'' _ => hi''

/--
**A codec that has failed is reset before it is stepped again**, in every run in which each
checkout that takes an idle decoder as it is (one that stands at the offset, or else the
furthest one that is not past it) finds that one's codec in order.
-/
theorem failed_codec_reset {path : Option Stamp}
    {c : Lib.Config τ (World τ δ ζ) Call Reply (@Res δ ζ)}
    (h : Lib.Reachable (soundSystem τ K M) (World.start M path) c) :
    (∀ t, Note.stepping true ∉ c.world.seen t) ∧
      ∀ e ∈ c.history, ∀ t, Note.stepping true ∉ e.finish.seen t := by
  have hstart : (resetProtocol τ δ ζ).inv (World.start M path) := by
    intro t ht
    exact absurd ht (by simp [World.start])
  have hg := Lib.sound reset_respects hstart h
  exact ⟨hg.inv, hg.history⟩

end Runs

namespace Sample

/-- The sample with an entry whose data is no deflate stream. -/
def corrupt : Mount :=
  { mount 1 checksum with archive := archive.take 31 ++ [0xFF, 0xFF, 0xFF] }

/-- Whether a step of a codec is noted that has failed, or one that has not. -/
def stepped (failed : Bool) (notes : List Note) : Bool :=
  notes.any fun n =>
    match n with
    | .stepping f => f == failed
    | _ => false

theorem stepped_mem {failed : Bool} {notes : List Note} (h : stepped failed notes = true) :
    Note.stepping failed ∈ notes := by
  obtain ⟨n, hn, hf⟩ := List.any_eq_true.mp h
  cases n with
  | stepping f =>
      obtain rfl := eq_of_beq hf
      exact hn
  | _ => exact absurd hf (by simp)

end Sample

/-- A read of the sample steps a codec that is in order. -/
theorem failed_codec_reset_sample :
    ∃ c : Lib.Config Unit (World Unit Sample.Inflater Unit) Call Reply (@Res Sample.Inflater Unit),
      Lib.Reachable (soundSystem Unit Sample.codecs (Sample.mount 1 Sample.checksum))
        (World.start (Sample.mount 1 Sample.checksum) none) c ∧
      Note.stepping false ∈ c.world.seen () ∧ Note.stepping true ∉ c.world.seen () := by
  have hrun : (Lib.runCalls (soundSystem Unit Sample.codecs (Sample.mount 1 Sample.checksum))
      (detSound Sample.codecs (Sample.mount 1 Sample.checksum) ()) ()
      [.openFile 2 .rdonly, .read 1 0 10] (World.start (Sample.mount 1 Sample.checksum) none)).map
        (fun x => Sample.stepped false (x.2.seen ())) = some true := by decide +kernel
  obtain ⟨⟨replies, w⟩, hserve, hstep⟩ := Option.map_eq_some_iff.mp hrun
  obtain ⟨c, hc, rfl, -⟩ := Lib.reachable_runCalls
    (fun o w r w' h => by
      obtain ⟨hdet, hsound⟩ := detSound_exec h
      exact ⟨.inl hdet, hsound⟩) Lib.Reachable.init rfl hserve
  exact ⟨c, hc, Sample.stepped_mem hstep, (failed_codec_reset hc).1 ()⟩

/-- **Two reads of a corrupt entry step a codec that has failed and was not reset.** -/
theorem failed_codec_stepped :
    ∃ c : Lib.Config Unit (World Unit Sample.Inflater Unit) Call Reply (@Res Sample.Inflater Unit),
      Lib.Reachable (mountSystem Sample.codecs Sample.corrupt AnyChange)
        (World.start Sample.corrupt none) c ∧ Note.stepping true ∈ c.world.seen () := by
  have hrun : (Lib.runCalls (mountSystem Sample.codecs Sample.corrupt AnyChange)
      (det Sample.codecs Sample.corrupt ()) ()
      [.openFile 2 .rdonly, .read 1 0 10, .read 1 0 10] (World.start Sample.corrupt none)).map
        (fun x => Sample.stepped true (x.2.seen ())) = some true := by decide +kernel
  obtain ⟨⟨replies, w⟩, hserve, hstep⟩ := Option.map_eq_some_iff.mp hrun
  obtain ⟨c, hc, rfl, -⟩ :=
    Lib.reachable_runCalls (fun _ _ _ _ h => Or.inl h) Lib.Reachable.init rfl hserve
  exact ⟨c, hc, Sample.stepped_mem hstep⟩

end ZipFs
