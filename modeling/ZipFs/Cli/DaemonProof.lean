import ZipFs.Cli.Daemon
import Mathlib.Logic.Relation

/-!
# The exit code is the child's verdict

Each step of either process keeps what holds of the descriptors of both, of what the child has
said and of what the first process has heard. A run keeps it too, and what the caller sees
follows.
-/

namespace ZipFs.Cli

section Proof

variable {strerror : Nat → Bytes} {lossy : Bytes → Bytes} {capacity : Nat} {p : Process}
variable {s s' : Pair} {k : Kind}

/-- The text of an error is not mistaken for a child that is ready. -/
theorem errorText_head (hs : ∀ errno, 0 ∉ strerror errno) (errno : Nat) :
    (errorText strerror errno).head? ≠ some READY := by
  unfold errorText
  cases htext : strerror errno with
  | nil =>
      rw [List.nil_append, ascii, String.toList_append, String.toList_append, List.flatMap_append,
        List.flatMap_append, List.append_assoc]
      have hspace : (" (os error ".toList.flatMap String.utf8EncodeChar).head? = some 0x20 := by
        decide
      rw [List.head?_append, hspace, Option.some_or]
      decide
  | cons b bs =>
      have hne : (0 : UInt8) ≠ b := by
        intro heq
        exact hs errno (by rw [htext, heq]; exact List.mem_cons_self)
      simp [READY, hne.symm]

theorem head_eq_of_starts {xs ys : Bytes} (h : xs <+: ys) (hne : xs ≠ []) :
    xs.head? = ys.head? := by
  obtain ⟨zs, rfl⟩ := h
  cases xs with
  | nil => exact absurd rfl hne
  | cons x xs => rfl

/-- Only a child that is ready says so. -/
theorem Said.ready (hs : ∀ errno, 0 ∉ strerror errno) (h : Said strerror s)
    (hhead : s.sent.head? = some READY) : s.verdict = some (.ok ()) ∧ s.sent = [READY] := by
  have hne : s.sent ≠ [] := by
    intro hnil
    rw [hnil] at hhead
    exact absurd hhead (by simp)
  cases hv : s.verdict with
  | none => exact absurd (h.quiet hv) hne
  | some v =>
      have hpre := h.part v hv
      rw [head_eq_of_starts hpre hne] at hhead
      cases v with
      | error errno => exact absurd hhead (errorText_head hs errno)
      | ok u => exact ⟨rfl, hpre.eq_of_length (by
          have hlen := hpre.length_le
          have hpos := List.length_pos_iff.mpr hne
          simp only [verdictText, List.length_singleton] at hlen ⊢
          omega)⟩

/-! ## Descriptors -/

theorem Process.gone_fds (q : Process) (fd : Nat) : q.gone.fds fd = none := rfl

theorem Process.setFd_self (q : Process) (fd : Nat) (file : Option File) :
    (q.setFd fd file).fds fd = file := Function.update_self ..

theorem Process.setFd_ne (q : Process) {fd fd' : Nat} (h : fd' ≠ fd) (file : Option File) :
    (q.setFd fd file).fds fd' = q.fds fd' := Function.update_of_ne h ..

theorem ParentFds.ended {r w : Nat} {q : Process} {parentAt : Parent}
    (h : ¬(parentAt = .closing ∨ ∃ m, parentAt = .waiting m)) : ParentFds r w q.gone parentAt where
  read h' := absurd h' h
  write fd h' := absurd h' (by simp [Process.gone_fds])

/-- A step of the first process leaves alone what is not its own. -/
theorem ParentStep.frame (h : ParentStep lossy k s s') :
    s'.readFd = s.readFd ∧ s'.writeFd = s.writeFd ∧ s'.child = s.child ∧ s'.childAt = s.childAt ∧
      s'.verdict = s.verdict ∧ s'.sent = s.sent ∧ (s.broken = true → s'.broken = true) := by
  cases h with
  | read message taken rest _ _ _ _ _ =>
      unfold Pair.receive
      split
      · exact ⟨rfl, rfl, rfl, rfl, rfl, rfl, id⟩
      · exact ⟨rfl, rfl, rfl, rfl, rfl, rfl, id⟩
  | fail message _ => exact ⟨rfl, rfl, rfl, rfl, rfl, rfl, fun _ => rfl⟩
  | close | eof | interrupted | kill => exact ⟨rfl, rfl, rfl, rfl, rfl, rfl, id⟩

theorem ParentStep.fds (h : ParentStep lossy k s s') (hne : s.readFd ≠ s.writeFd)
    (hf : ParentFds s.readFd s.writeFd s.parent s.parentAt) :
    ParentFds s'.readFd s'.writeFd s'.parent s'.parentAt := by
  cases h with
  | close hat =>
      refine ⟨fun _ => ?_, fun fd hfd => ?_⟩
      · dsimp only
        rw [Process.setFd_ne _ hne]
        exact hf.read (.inl hat)
      · dsimp only at hfd
        by_cases heq : fd = s.writeFd
        · rw [heq, Process.setFd_self] at hfd
          exact absurd hfd (by simp)
        · rw [Process.setFd_ne _ heq] at hfd
          exact absurd (hf.write fd hfd).1 heq
  | read message taken rest hat _ _ _ _ =>
      unfold Pair.receive
      split
      · exact .ended (by simp [Pair.exit])
      · refine ⟨fun _ => hf.read (.inr ⟨_, hat⟩), fun fd hfd => ?_⟩
        exact absurd ((hf.write fd hfd).2.symm.trans hat) (by simp)
  | eof message _ _ _ _ _ => exact .ended (by simp [Pair.exit])
  | fail message _ => exact .ended (by simp [Pair.exit])
  | interrupted message _ => exact hf
  | kill _ _ => exact .ended (by simp)

/-- A step of the child leaves alone what is not its own. -/
theorem ChildStep.frame (h : ChildStep strerror capacity k s s') :
    s'.readFd = s.readFd ∧ s'.writeFd = s.writeFd ∧ s'.parent = s.parent ∧
      s'.parentAt = s.parentAt ∧ (s.broken = true → s'.broken = true) := by
  cases h with
  | writeFail => exact ⟨rfl, rfl, rfl, rfl, fun _ => rfl⟩
  | _ => exact ⟨rfl, rfl, rfl, rfl, id⟩

section Child

variable {r w : Nat} {child : Process} {childAt : Child} {v : Option (Except Nat Unit)}

/-- What a child that was killed has open. -/
theorem ChildFds.killed (hf : ChildFds p r w child childAt v) :
    ChildFds p r w child.gone .killed v where
  low := hf.low
  free := hf.free
  talks h := absurd h (by simp [Child.talking])
  only fd h := absurd h (by simp [Process.gone_fds])
  null n h := absurd h (by simp [Child.null])
  streams h := absurd rfl h
  others h := absurd rfl h
  stage := trivial
  early h := absurd h (by simp [Child.early])
  done _ h := absurd rfl h

/-- What the child does that is no matter of descriptors. -/
theorem ChildFds.goes (hf : ChildFds p r w child childAt v) {childAt' : Child} {child' : Process}
    {v' : Option (Except Nat Unit)} (hfds : child'.fds = child.fds) (hat : childAt ≠ .killed)
    (hno : childAt ≠ .closing) (hnull : childAt'.null = childAt.null)
    (htalk : childAt'.talking = childAt.talking) (hstage : childAt'.Stage child')
    (hearly : childAt'.early = true → v' = none)
    (hdone : v' = some (.ok ()) → Detached p w child') : ChildFds p r w child' childAt' v' where
  low := hf.low
  free := hf.free
  talks h := by
    rw [hfds]
    exact hf.talks (htalk.symm.trans h)
  only fd h := by
    rw [hfds] at h
    rw [htalk]
    exact hf.only fd h
  null n h := by
    rw [hfds]
    exact hf.null n (hnull.symm.trans h)
  streams _ n hn := by
    rw [hfds]
    exact hf.streams hat n hn
  others _ fd hlow hw hn _ := by
    rw [hfds]
    exact hf.others hat fd hlow hw (hnull ▸ hn) fun hc => absurd hc hno
  stage := hstage
  early := hearly
  done h _ := hdone h

/-- Closing `/dev/null` again leaves what there was before. -/
theorem ChildFds.closeNull (hf : ChildFds p r w child childAt v) {null : Nat}
    (hnull : childAt.null = some null) (hat : childAt ≠ .killed) (htalk : childAt.talking = true)
    {rest : Bytes} {verdict : Except Nat Unit}
    (hdone : verdict = .ok () → Detached p w (child.setFd null none)) :
    ChildFds p r w (child.setFd null none) (.sending rest verdict) (some verdict) := by
  obtain ⟨hlow, hw, hfree, -⟩ := hf.null null hnull
  refine ⟨hf.low, hf.free, fun _ => ?_, ?_, fun n h => absurd h (by simp [Child.null]), ?_, ?_,
    trivial, fun h => absurd h (by simp [Child.early]), fun h _ => hdone (Option.some.inj h)⟩
  · rw [Process.setFd_ne _ (Ne.symm hw)]
    exact hf.talks htalk
  · intro fd h
    by_cases heq : fd = null
    · rw [heq, Process.setFd_self] at h
      exact absurd h (by simp)
    · rw [Process.setFd_ne _ heq] at h
      exact ⟨(hf.only fd h).1, rfl⟩
  · intro _ n hn
    rw [Process.setFd_ne _ (by omega)]
    exact hf.streams hat n hn
  · intro _ fd hfd hne _ _
    by_cases heq : fd = null
    · rw [heq, Process.setFd_self]
      exact hfree.symm
    · rw [Process.setFd_ne _ heq]
      refine hf.others hat fd hfd hne ?_ ?_
      · rw [hnull]
        exact fun h => heq (Option.some.inj h).symm
      · intro hc
        rw [hc] at hnull
        exact absurd hnull (by simp [Child.null])

/-- A descriptor other than the pipe's own is pointed elsewhere. -/
theorem ChildFds.set (hf : ChildFds p r w child childAt v) (htalk : childAt.talking = true)
    {fd : Nat} (file : Option File) (hfd : fd ≠ w) (hfile : file ≠ some .pipeWrite) :
    (child.setFd fd file).fds w = some .pipeWrite ∧
      (∀ fd', (child.setFd fd file).fds fd' = some .pipeWrite → fd' = w) ∧
      ∀ fd', fd' ≠ fd → (child.setFd fd file).fds fd' = child.fds fd' := by
  refine ⟨?_, ?_, fun fd' hne => Process.setFd_ne _ hne _⟩
  · rw [Process.setFd_ne _ hfd.symm]
    exact hf.talks htalk
  · intro fd' h
    by_cases heq : fd' = fd
    · rw [heq, Process.setFd_self] at h
      exact absurd h hfile
    · rw [Process.setFd_ne _ heq] at h
      exact (hf.only fd' h).1

end Child

theorem ChildStep.fds (h : ChildStep strerror capacity k s s') (hne : s.readFd ≠ s.writeFd)
    (hf : ChildFds p s.readFd s.writeFd s.child s.childAt s.verdict) :
    ChildFds p s'.readFd s'.writeFd s'.child s'.childAt s'.verdict := by
  have hstage := hf.stage
  have hearly := hf.early
  cases h with
  | close hat =>
      rw [hat] at hf hearly
      obtain ⟨htalks, honly, hsame⟩ := hf.set rfl none hne (by simp)
      refine ⟨hf.low, hf.free, fun _ => htalks, fun fd h => ⟨honly fd h, rfl⟩,
        fun n h => absurd h (by simp [Child.null]), ?_, ?_, trivial, fun _ => hearly rfl,
        fun hv => absurd ((hearly rfl).symm.trans hv) (by simp)⟩
      · intro _ n hn
        have := hf.low.1
        rw [hsame n (by omega)]
        exact hf.streams (by simp) n hn
      · intro _ fd hlow hw _ _
        by_cases heq : fd = s.readFd
        · rw [heq]
          exact (Process.setFd_self ..).trans hf.free.symm
        · rw [hsame fd heq]
          exact hf.others (by simp) fd hlow hw (by simp [Child.null]) fun _ => heq
  | setsid hat =>
      rw [hat] at hf hearly
      refine hf.goes rfl (by simp) (by simp) rfl rfl rfl (fun _ => hearly rfl) ?_
      exact fun hv => absurd ((hearly rfl).symm.trans hv) (by simp)
  | setsidFail errno hat =>
      rw [hat] at hf
      exact hf.goes rfl (by simp) (by simp) rfl rfl trivial (by simp [Pair.detached, Child.early])
        (by simp [Pair.detached])
  | chdir hat =>
      rw [hat] at hf hearly hstage
      refine hf.goes rfl (by simp) (by simp) rfl rfl ⟨hstage, rfl⟩ (fun _ => hearly rfl) ?_
      exact fun hv => absurd ((hearly rfl).symm.trans hv) (by simp)
  | chdirFail errno hat =>
      rw [hat] at hf
      exact hf.goes rfl (by simp) (by simp) rfl rfl trivial (by simp [Pair.detached, Child.early])
        (by simp [Pair.detached])
  | openNull null hat hfree =>
      rw [hat] at hf hearly hstage
      have hw : null ≠ s.writeFd := by
        intro heq
        rw [heq, hf.talks rfl] at hfree
        exact absurd hfree (by simp)
      have hlow : STDERR_FILENO < null := by
        by_contra hle
        exact hf.streams (by simp) null (by omega) hfree
      obtain ⟨htalks, honly, hsame⟩ := hf.set rfl (some .null) hw (by simp)
      have hp : p.fds null = none :=
        (hf.others (by simp) null hlow hw (by simp [Child.null]) (by simp)).symm.trans hfree
      refine ⟨hf.low, hf.free, fun _ => htalks, fun fd h => ⟨honly fd h, rfl⟩, ?_, ?_, ?_,
        ⟨hstage.1, hstage.2, List.suffix_refl _, ?_⟩, fun _ => hearly rfl,
        fun hv => absurd ((hearly rfl).symm.trans hv) (by simp)⟩
      · intro n h
        obtain rfl := Option.some.inj h
        exact ⟨hlow, hw, hp, Process.setFd_self ..⟩
      · intro _ n hn
        rw [hsame n (by omega)]
        exact hf.streams (by simp) n hn
      · intro _ fd hfd hne' hnull _
        have heq : fd ≠ null := fun h => hnull (congrArg some h.symm)
        rw [hsame fd heq]
        exact hf.others (by simp) fd hfd hne' (by simp [Child.null]) (by simp)
      · intro n hn hmem
        have h2 : STDERR_FILENO = 2 := rfl
        simp only [List.mem_cons, List.not_mem_nil, or_false, not_or] at hmem
        omega
  | openFail errno hat =>
      rw [hat] at hf
      exact hf.goes rfl (by simp) (by simp) rfl rfl trivial (by simp [Pair.detached, Child.early])
        (by simp [Pair.detached])
  | dup null target targets hat =>
      rw [hat] at hf hearly hstage
      obtain ⟨hleader, hroot, hsuffix, hnulls⟩ := hstage
      obtain ⟨hlow, hw, hp, hnull⟩ := hf.null null rfl
      have htarget : target ≤ STDERR_FILENO := by
        have hmem := hsuffix.subset (List.mem_cons_self (a := target) (l := targets))
        have h2 : STDERR_FILENO = 2 := rfl
        simp only [List.mem_cons, List.not_mem_nil, or_false] at hmem
        omega
      have hwrite := hf.low.2
      rw [hnull]
      obtain ⟨htalks, honly, hsame⟩ :=
        hf.set rfl (some .null) (show target ≠ s.writeFd by omega) (by simp)
      refine ⟨hf.low, hf.free, fun _ => htalks, fun fd h => ⟨honly fd h, rfl⟩, ?_, ?_, ?_,
        ⟨hleader, hroot, (List.suffix_cons target targets).trans hsuffix, ?_⟩, fun _ => hearly rfl,
        fun hv => absurd ((hearly rfl).symm.trans hv) (by simp)⟩
      · intro n h
        obtain rfl := Option.some.inj h
        refine ⟨hlow, hw, hp, ?_⟩
        rw [hsame null (by omega)]
        exact hnull
      · intro _ n hn
        by_cases heq : n = target
        · rw [heq]
          exact fun h => absurd ((Process.setFd_self ..).symm.trans h) (by simp)
        · rw [hsame n heq]
          exact hf.streams (by simp) n hn
      · intro _ fd hfd hne' hnot _
        rw [hsame fd (by omega)]
        exact hf.others (by simp) fd hfd hne' hnot (by simp)
      · intro n hn hmem
        by_cases heq : n = target
        · rw [heq]
          exact Process.setFd_self ..
        · rw [hsame n heq]
          exact hnulls n hn fun h => (List.mem_cons.mp h).elim heq hmem
  | dupFail null target targets errno hat =>
      rw [hat] at hf hearly
      refine hf.goes rfl (by simp) (by simp) rfl rfl trivial (fun _ => hearly rfl) ?_
      exact fun hv => absurd ((hearly rfl).symm.trans hv) (by simp)
  | abandon null errno hat =>
      rw [hat] at hf
      exact hf.closeNull rfl (by simp) rfl (by simp)
  | redirected null hat =>
      rw [hat] at hf hstage
      obtain ⟨hleader, hroot, -, hnulls⟩ := hstage
      obtain ⟨hlow, hw, hfree, -⟩ := hf.null null rfl
      dsimp only [Pair.detached]
      rw [if_pos hlow]
      refine hf.closeNull rfl (by simp) rfl fun _ => ⟨hleader, hroot, ?_, ?_⟩
      · intro n hn
        rw [Process.setFd_ne _ (by omega)]
        exact hnulls n hn (by simp)
      · intro fd hfd hne'
        by_cases heq : fd = null
        · rw [heq, Process.setFd_self]
          exact hfree.symm
        · rw [Process.setFd_ne _ heq]
          refine hf.others (by simp) fd hfd hne' ?_ (by simp)
          exact fun h => heq (Option.some.inj h).symm
  | write rest v n hat _ _ _ _ _ =>
      rw [hat] at hf
      exact hf.goes rfl (by simp) (by simp) rfl rfl trivial (by simp [Child.early])
        fun hv => hf.done hv (by simp)
  | writeElsewhere rest v hat _ _ =>
      rw [hat] at hf
      exact hf.goes rfl (by simp) (by simp) rfl rfl trivial (by simp [Child.early])
        fun hv => hf.done hv (by simp)
  | writeFail rest v hat _ =>
      rw [hat] at hf
      exact hf.goes rfl (by simp) (by simp) rfl rfl trivial (by simp [Child.early])
        fun hv => hf.done hv (by simp)
  | writeInterrupted rest v hat => exact hf
  | written v hat =>
      rw [hat] at hf
      exact hf.goes rfl (by simp) (by simp) rfl rfl trivial (by simp [Child.early])
        fun hv => hf.done hv (by simp)
  | closePipe v hat =>
      rw [hat] at hf
      have hlow := hf.low.2
      refine ⟨hf.low, hf.free, fun h => absurd h (by simp [Child.talking]), ?_,
        fun n h => absurd h (by simp [Child.null]), ?_, ?_, trivial,
        fun h => absurd h (by simp [Child.early]), ?_⟩
      · intro fd h
        by_cases heq : fd = s.writeFd
        · rw [heq] at h
          exact absurd ((Process.setFd_self ..).symm.trans h) (by simp)
        · dsimp only at h
          rw [Process.setFd_ne _ heq] at h
          exact absurd (hf.only fd h).1 heq
      · intro _ n hn
        dsimp only
        rw [Process.setFd_ne _ (by omega)]
        exact hf.streams (by simp) n hn
      · intro _ fd hfd hne' _ _
        dsimp only
        rw [Process.setFd_ne _ hne']
        exact hf.others (by simp) fd hfd hne' (by simp [Child.null]) (by simp)
      · intro hv _
        have hd := hf.done hv (by simp)
        refine ⟨hd.leader, hd.atRoot, ?_, ?_⟩
        · intro n hn
          dsimp only
          rw [Process.setFd_ne _ (by omega)]
          exact hd.streams n hn
        · intro fd hfd hne'
          dsimp only
          rw [Process.setFd_ne _ hne']
          exact hd.others fd hfd hne'
  | kill hat => exact hf.killed

/-! ## What is said and heard -/

theorem ParentStep.said (h : ParentStep lossy k s s') (hsaid : Said strerror s) :
    Said strerror s' := by
  obtain ⟨-, -, -, hat, hverdict, hsent, hbroken⟩ := h.frame
  refine ⟨?_, ?_, ?_, ?_⟩
  · rw [hverdict, hsent]
    exact hsaid.quiet
  · rw [hverdict, hsent]
    exact hsaid.part
  · rw [hat, hverdict, hsent]
    exact hsaid.sending
  · rw [hat, hverdict, hsent]
    intro v hv
    obtain ⟨hv, hfull⟩ := hsaid.closed v hv
    refine ⟨hv, fun hfine => hfull ?_⟩
    by_contra hb
    have hb' := hbroken (by simpa using hb)
    exact absurd (hfine.symm.trans hb') (by simp)

/-- Where a child can be that has something to say, or has said it. -/
theorem Said.of_early (hsaid : Said strerror s) {s' : Pair} (hv : s'.verdict = s.verdict)
    (hsent : s'.sent = s.sent) (hat : s'.childAt.early = true ∨ s'.childAt = .killed) :
    Said strerror s' := by
  refine ⟨?_, ?_, ?_, ?_⟩
  · rw [hv, hsent]
    exact hsaid.quiet
  · rw [hv, hsent]
    exact hsaid.part
  · intro rest v h
    rw [h] at hat
    exact absurd hat (by simp [Child.early])
  · intro v h
    rcases h with h | h
    · rw [h] at hat
      exact absurd hat (by simp [Child.early])
    · rw [h] at hat
      exact absurd hat (by simp [Child.early])

/-- `detach` has just returned, so nothing has been said. -/
theorem Said.detached (hsaid : Said strerror s) (hquiet : s.verdict = none)
    (v : Except Nat Unit) : Said strerror (s.detached strerror v) := by
  have hsent := hsaid.quiet hquiet
  refine ⟨fun h => absurd h (by simp [Pair.detached]), ?_, ?_, ?_⟩
  · intro v' _
    simp only [Pair.detached, hsent]
    exact List.nil_prefix
  · intro rest v' h
    simp only [Pair.detached, Child.sending.injEq] at h
    obtain ⟨rfl, rfl⟩ := h
    refine ⟨rfl, ?_⟩
    simp only [Pair.detached, hsent, List.nil_append]
  · intro v' h
    exact absurd h (by simp [Pair.detached])

/-- What a child that has closed the pipe has said, if that was not that it is ready. -/
theorem Said.whole (h : Said strerror s) (htalk : s.childAt.talking = false)
    (hkilled : s.childAt ≠ .killed) (hb : s.broken = false)
    (hhead : s.sent.head? ≠ some READY) :
    ∃ errno, s.verdict = some (.error errno) ∧ s.sent = errorText strerror errno ∧
      s.childAt = .returned (.error errno) := by
  cases hc : s.childAt with
  | returned v =>
      obtain ⟨hv, hfull⟩ := h.closed v (.inr hc)
      rw [hfull hb] at hhead ⊢
      cases v with
      | ok u => exact absurd rfl hhead
      | error errno => exact ⟨errno, hv, rfl, rfl⟩
  | killed => exact absurd hc hkilled
  | _ =>
      rw [hc] at htalk
      exact absurd htalk (by simp [Child.talking])

/-- A part of what the child has said, if that was not that it is ready. -/
theorem Said.part_of_words (h : Said strerror s) {m : Bytes} (hpre : m <+: s.sent)
    (hhead : m.head? ≠ some READY) :
    m = [] ∨ ∃ errno, s.verdict = some (.error errno) ∧ m <+: errorText strerror errno := by
  by_cases hm : m = []
  · exact .inl hm
  refine .inr ?_
  cases hv : s.verdict with
  | none =>
      rw [h.quiet hv] at hpre
      exact absurd (List.prefix_nil.mp hpre) hm
  | some v =>
      have hwords := hpre.trans (h.part v hv)
      cases v with
      | ok u => exact absurd (head_eq_of_starts hwords hm) hhead
      | error errno => exact ⟨errno, rfl, hwords⟩

theorem ChildStep.said (h : ChildStep strerror capacity k s s')
    (hf : ChildFds p s.readFd s.writeFd s.child s.childAt s.verdict) (hsaid : Said strerror s) :
    Said strerror s' := by
  have hearly := hf.early
  cases h with
  | close hat => exact hsaid.of_early rfl rfl (.inl rfl)
  | setsid hat => exact hsaid.of_early rfl rfl (.inl rfl)
  | chdir hat => exact hsaid.of_early rfl rfl (.inl rfl)
  | openNull null hat hfree => exact hsaid.of_early rfl rfl (.inl rfl)
  | dup null target targets hat => exact hsaid.of_early rfl rfl (.inl rfl)
  | dupFail null target targets errno hat => exact hsaid.of_early rfl rfl (.inl rfl)
  | kill hat => exact hsaid.of_early rfl rfl (.inr rfl)
  | setsidFail errno hat | chdirFail errno hat | openFail errno hat =>
      exact hsaid.detached (hearly (by rw [hat]; rfl)) _
  | abandon null errno hat =>
      have hquiet := hearly (by rw [hat]; rfl)
      exact Said.detached (s := { s with child := s.child.setFd null none })
        ⟨hsaid.quiet, hsaid.part, hsaid.sending, hsaid.closed⟩ hquiet _
  | redirected null hat =>
      have hquiet := hearly (by rw [hat]; rfl)
      exact Said.detached
        (s := { s with child := if STDERR_FILENO < null then s.child.setFd null none else s.child })
        ⟨hsaid.quiet, hsaid.part, hsaid.sending, hsaid.closed⟩ hquiet _
  | write rest v n hat _ _ _ _ _ =>
      obtain ⟨hv, htext⟩ := hsaid.sending rest v hat
      have hnow : s.sent ++ rest.take n ++ rest.drop n = verdictText strerror v := by
        rw [List.append_assoc, List.take_append_drop]
        exact htext
      refine ⟨fun h => absurd (hv.symm.trans h) (by simp), ?_, ?_, fun v' h => absurd h (by simp)⟩
      · intro v' hv'
        obtain rfl := Option.some.inj (hv.symm.trans hv')
        exact ⟨_, hnow⟩
      · intro rest' v' h
        obtain ⟨rfl, rfl⟩ := Child.sending.inj h
        exact ⟨hv, hnow⟩
  | writeElsewhere rest v hat helse _ =>
      -- the pipe is where it was
      exact absurd (hf.talks (by rw [hat]; rfl)) helse
  | writeFail rest v hat _ =>
      obtain ⟨hv, htext⟩ := hsaid.sending rest v hat
      refine ⟨hsaid.quiet, hsaid.part, fun rest' v' h => absurd h (by simp), ?_⟩
      intro v' h
      obtain rfl : v = v' := by simpa using h
      exact ⟨hv, fun hb => absurd hb (by simp)⟩
  | writeInterrupted rest v hat _ => exact hsaid
  | written v hat =>
      obtain ⟨hv, htext⟩ := hsaid.sending [] v hat
      refine ⟨hsaid.quiet, hsaid.part, fun rest' v' h => absurd h (by simp), ?_⟩
      intro v' h
      obtain rfl : v = v' := by simpa using h
      exact ⟨hv, fun _ => by simpa using htext⟩
  | closePipe v hat =>
      refine ⟨hsaid.quiet, hsaid.part, fun rest' v' h => absurd h (by simp), ?_⟩
      intro v' h
      obtain rfl : v = v' := by simpa using h
      exact hsaid.closed v (.inl hat)

theorem ParentStep.heard (hs : ∀ errno, 0 ∉ strerror errno) (h : ParentStep lossy k s s')
    (hf : ChildFds p s.readFd s.writeFd s.child s.childAt s.verdict) (hsaid : Said strerror s)
    (hheard : Heard lossy s) : Heard lossy s' := by
  cases h with
  | close hat =>
      refine ⟨fun h => absurd h (by simp), ?_, fun _ h => absurd h (by simp),
        fun _ _ h => absurd h (by simp)⟩
      intro m hm
      obtain rfl := Parent.waiting.inj hm
      exact ⟨hheard.closing hat, by simp⟩
  | read message taken rest hat hfd hpipe hne hlen =>
      obtain ⟨hsent, hhead⟩ := hheard.waiting message hat
      rw [hpipe] at hsent
      unfold Pair.receive
      split
      · rename_i hready
        obtain ⟨rfl, hready⟩ := hready
        have hfirst : s.sent.head? = some READY := by
          rw [hsent, List.nil_append, List.head?_append, hready]
          rfl
        have hdone := hsaid.ready hs hfirst
        refine ⟨fun h => absurd h (by simp [Pair.exit]), fun _ h => absurd h (by simp [Pair.exit]),
          ?_, fun code printed h hcode => ?_⟩
        · intro printed h
          obtain ⟨-, rfl⟩ := Parent.exited.inj h
          exact ⟨rfl, hdone⟩
        · exact absurd (Parent.exited.inj h).1.symm hcode
      · rename_i hready
        refine ⟨fun h => absurd h (by simp), ?_, fun _ h => absurd h (by simp),
          fun _ _ h => absurd h (by simp)⟩
        intro m hm
        obtain rfl := Parent.waiting.inj hm
        refine ⟨by rw [List.append_assoc]; exact hsent, ?_⟩
        cases message with
        | nil => exact fun h => hready ⟨rfl, h⟩
        | cons b bs => exact hhead
  | eof message hat hfd hpipe hnone hnone' =>
      obtain ⟨hsent, hhead⟩ := hheard.waiting message hat
      rw [hpipe, List.append_nil] at hsent
      refine ⟨fun h => absurd h (by simp [Pair.exit]), fun _ h => absurd h (by simp [Pair.exit]),
        fun _ h => absurd h (by simp [Pair.exit]), ?_⟩
      intro code printed h _
      obtain ⟨rfl, rfl⟩ := Parent.exited.inj h
      refine ⟨rfl, message, rfl, ?_, hhead, fun _ => ⟨hsent.symm, ?_⟩⟩
      · exact hsent ▸ List.prefix_refl _
      · change s.childAt.talking = false
        by_contra htalk
        exact hnone' ⟨s.writeFd, hf.talks (by simpa using htalk)⟩
  | fail message hat =>
      obtain ⟨hsent, hhead⟩ := hheard.waiting message hat
      refine ⟨fun h => absurd h (by simp [Pair.exit]), fun _ h => absurd h (by simp [Pair.exit]),
        fun _ h => absurd h (by simp [Pair.exit]), ?_⟩
      intro code printed h _
      obtain ⟨rfl, rfl⟩ := Parent.exited.inj h
      exact ⟨rfl, message, rfl, ⟨_, hsent.symm⟩, hhead, fun hb => absurd hb (by simp [Pair.exit])⟩
  | interrupted message _ => exact hheard
  | kill _ _ =>
      exact ⟨fun h => absurd h (by simp), fun _ h => absurd h (by simp),
        fun _ h => absurd h (by simp), fun _ _ h => absurd h (by simp)⟩

/-- What the child writes goes into the pipe. -/
theorem ChildStep.grows (h : ChildStep strerror capacity k s s') :
    ∃ more, s'.sent = s.sent ++ more ∧ s'.pipe = s.pipe ++ more ∧
      (more ≠ [] → ∃ rest v, s.childAt = .sending rest v ∧ more <+: rest) := by
  cases h with
  | write rest v n hat _ _ _ _ _ =>
      exact ⟨rest.take n, rfl, rfl, fun _ => ⟨rest, v, hat, List.take_prefix n rest⟩⟩
  | _ => exact ⟨[], (List.append_nil _).symm, (List.append_nil _).symm, fun h => absurd rfl h⟩

/-- A child that has closed the pipe says nothing more. -/
theorem ChildStep.silent (h : ChildStep strerror capacity k s s')
    (ht : s.childAt.talking = false) : s'.childAt.talking = false ∧ s'.sent = s.sent := by
  cases h with
  | kill _ => exact ⟨rfl, rfl⟩
  | _ =>
      rename_i hat
      simp_all [Child.talking]

/-- `detach` returns once. -/
theorem ChildStep.verdict (h : ChildStep strerror capacity k s s')
    (hf : ChildFds p s.readFd s.writeFd s.child s.childAt s.verdict) {v : Except Nat Unit}
    (hv : s.verdict = some v) : s'.verdict = some v := by
  have hlate : s.childAt.early = true → False := by
    intro hearly
    exact absurd ((hf.early hearly).symm.trans hv) (by simp)
  cases h with
  | setsidFail errno hat | chdirFail errno hat | openFail errno hat =>
      exact (hlate (by rw [hat]; rfl)).elim
  | abandon null errno hat => exact (hlate (by rw [hat]; rfl)).elim
  | redirected null hat => exact (hlate (by rw [hat]; rfl)).elim
  | _ => exact hv

theorem ChildStep.heard (h : ChildStep strerror capacity k s s')
    (hf : ChildFds p s.readFd s.writeFd s.child s.childAt s.verdict) (hsaid : Said strerror s)
    (hheard : Heard lossy s) : Heard lossy s' := by
  obtain ⟨-, -, -, hat, hbroken⟩ := h.frame
  obtain ⟨more, hsent, hpipe, hmore⟩ := h.grows
  refine ⟨?_, ?_, ?_, ?_⟩
  · intro hc
    rw [hsent, hpipe, hheard.closing (hat.symm.trans hc)]
  · intro m hm
    obtain ⟨heq, hhead⟩ := hheard.waiting m (hat.symm.trans hm)
    refine ⟨?_, hhead⟩
    rw [hsent, hpipe, heq, List.append_assoc]
  · intro printed hp
    obtain ⟨hnone, hv, heq⟩ := hheard.zero printed (hat.symm.trans hp)
    refine ⟨hnone, h.verdict hf hv, ?_⟩
    -- a child that is ready has said all it has to say
    have hnil : more = [] := by
      by_contra hne
      obtain ⟨rest, v, hat', hpre⟩ := hmore hne
      obtain ⟨hv', htext⟩ := hsaid.sending rest v hat'
      obtain rfl := Option.some.inj (hv.symm.trans hv')
      rw [heq] at htext
      have hrest : rest = [] := by simpa [verdictText] using htext
      rw [hrest] at hpre
      exact hne (List.prefix_nil.mp hpre)
    rw [hsent, hnil, List.append_nil]
    exact heq
  · intro code printed hp hcode
    obtain ⟨hone, m, hm, hpre, hhead, hfine⟩ :=
      hheard.other code printed (hat.symm.trans hp) hcode
    refine ⟨hone, m, hm, ?_, hhead, ?_⟩
    · rw [hsent]
      exact hpre.trans (List.prefix_append _ _)
    · intro hb
      have hb' : s.broken = false := by
        by_contra hb'
        exact absurd (hb.symm.trans (hbroken (by simpa using hb'))) (by simp)
      obtain ⟨heq, htalk⟩ := hfine hb'
      obtain ⟨htalk', hsame⟩ := h.silent htalk
      exact ⟨heq.trans hsame.symm, htalk'⟩

/-! ## Whole runs -/

/-- What holds of each state of a run that began with the process `p`. -/
def DaemonOk (strerror : Nat → Bytes) (lossy : Bytes → Bytes) (p : Process) : Daemon → Prop
  | .start q => q = p
  | .piped q r w => r ≠ w ∧ p.fds r = none ∧ p.fds w = none ∧
      q = (p.setFd r (some .pipeRead)).setFd w (some .pipeWrite)
  | .failed q _ => q = p
  | .forked s => s.readFd ≠ s.writeFd ∧ PairOk strerror lossy p s

theorem PairOk.fresh (hp : p.Fit) {r w : Nat} (hne : r ≠ w) (hr : p.fds r = none)
    (hw : p.fds w = none) :
    PairOk strerror lossy p
      (.fresh ((p.setFd r (some .pipeRead)).setFd w (some .pipeWrite)) r w) := by
  have hfds : ∀ fd, ((p.setFd r (some .pipeRead)).setFd w (some .pipeWrite)).fds fd =
      if fd = w then some .pipeWrite else if fd = r then some .pipeRead else p.fds fd := by
    intro fd
    simp only [Process.setFd, Function.update_apply]
  have honly : ∀ fd, ((p.setFd r (some .pipeRead)).setFd w (some .pipeWrite)).fds fd =
      some .pipeWrite → fd = w := by
    intro fd h
    rw [hfds] at h
    by_contra hfd
    rw [if_neg hfd] at h
    split at h
    · exact absurd h (by simp)
    · exact hp.noWrite ⟨fd, h⟩
  have hlow : ∀ fd, p.fds fd = none → STDERR_FILENO < fd := by
    intro fd h
    by_contra hle
    exact hp.streams fd (by omega) h
  have hlr := hlow r hr
  have hlw := hlow w hw
  refine ⟨⟨fun _ => ?_, fun fd h => ⟨honly fd h, rfl⟩⟩, ⟨⟨hlr, hlw⟩, hr, fun _ => ?_,
    fun fd h => ⟨honly fd h, rfl⟩, fun n h => absurd h (by simp [Pair.fresh, Child.null]), ?_, ?_,
    trivial, fun _ => rfl, fun h => absurd h (by simp [Pair.fresh])⟩,
    ⟨fun _ => rfl, fun _ h => absurd h (by simp [Pair.fresh]),
      fun _ _ h => absurd h (by simp [Pair.fresh]), fun _ h => absurd h (by simp [Pair.fresh])⟩,
    ⟨fun _ => rfl, fun _ h => absurd h (by simp [Pair.fresh]),
      fun _ h => absurd h (by simp [Pair.fresh]), fun _ _ h => absurd h (by simp [Pair.fresh])⟩⟩
  · exact (hfds r).trans (by rw [if_neg hne, if_pos rfl])
  · exact (hfds w).trans (if_pos rfl)
  · intro _ n hn h
    have h' := (hfds n).symm.trans h
    rw [if_neg (by omega), if_neg (by omega)] at h'
    exact hp.streams n hn h'
  · intro _ fd _ (hfw : fd ≠ w) _ hfr
    have hfr' : fd ≠ r := hfr rfl
    exact (hfds fd).trans (by rw [if_neg hfw, if_neg hfr'])

/-- Both ends closed again, the process has open what it had. -/
theorem close_both {r w : Nat} (hr : p.fds r = none) (hw : p.fds w = none) :
    ((((p.setFd r (some .pipeRead)).setFd w (some .pipeWrite)).setFd r none).setFd w none) = p := by
  have hfds : ((((p.setFd r (some .pipeRead)).setFd w (some .pipeWrite)).setFd r none).setFd w
      none).fds = p.fds := by
    funext fd
    simp only [Process.setFd, Function.update_apply]
    split
    · rename_i heq
      rw [heq, hw]
    · split
      · rename_i heq
        rw [heq, hr]
      · rfl
  cases p
  simp only [Process.setFd] at hfds ⊢
  rw [hfds]

theorem DaemonStep.ok (hs : ∀ errno, 0 ∉ strerror errno) (hp : p.Fit) {d d' : Daemon}
    (h : DaemonStep strerror lossy capacity k d d') (hd : DaemonOk strerror lossy p d) :
    DaemonOk strerror lossy p d' := by
  cases h with
  | pipe q r w hne hr hw =>
      obtain rfl : q = p := hd
      exact ⟨hne, hr, hw, rfl⟩
  | pipeFail q errno => exact hd
  | fork q r w =>
      obtain ⟨hne, hr, hw, rfl⟩ := hd
      exact ⟨hne, .fresh hp hne hr hw⟩
  | forkFail q r w errno =>
      obtain ⟨hne, hr, hw, rfl⟩ := hd
      exact close_both hr hw
  | parent h =>
      obtain ⟨hne, hok⟩ := hd
      obtain ⟨hr, hw, hc, hat, hv, -, -⟩ := h.frame
      refine ⟨by rw [hr, hw]; exact hne, h.fds hne hok.parentFds, ?_, h.said hok.said,
        h.heard hs hok.childFds hok.said hok.heard⟩
      rw [hr, hw, hc, hat, hv]
      exact hok.childFds
  | child h =>
      obtain ⟨hne, hok⟩ := hd
      obtain ⟨hr, hw, hq, hat, -⟩ := h.frame
      refine ⟨by rw [hr, hw]; exact hne, ?_, h.fds hne hok.childFds,
        h.said hok.childFds hok.said, h.heard hok.childFds hok.said hok.heard⟩
      rw [hr, hw, hq, hat]
      exact hok.parentFds

/-- A run of any number of steps. -/
abbrev DaemonRun (strerror : Nat → Bytes) (lossy : Bytes → Bytes) (capacity : Nat) :
    Daemon → Daemon → Prop :=
  Relation.ReflTransGen fun d d' => ∃ k, DaemonStep strerror lossy capacity k d d'

/-- What a code other than zero says. -/
theorem PairOk.fault (hok : PairOk strerror lossy p s) {code : Nat} {printed : Option Bytes}
    (hat : s.parentAt = .exited code printed) (hcode : code ≠ 0) :
    code = 1 ∧ ∃ m, printed = some (lastWords lossy m) ∧
      (m = [] ∨ ∃ errno, s.verdict = some (.error errno) ∧ m <+: errorText strerror errno) ∧
      (s.broken = false → s.childAt ≠ .killed → ∃ errno, s.verdict = some (.error errno) ∧
        m = errorText strerror errno ∧ s.childAt = .returned (.error errno)) := by
  obtain ⟨hone, m, hm, hpre, hhead, hfine⟩ := hok.heard.other code printed hat hcode
  refine ⟨hone, m, hm, hok.said.part_of_words hpre hhead, fun hb hkilled => ?_⟩
  obtain ⟨rfl, htalk⟩ := hfine hb
  exact hok.said.whole htalk hkilled hb hhead

/-- A run in which no call fails and no process is killed. -/
abbrev CleanRun (strerror : Nat → Bytes) (lossy : Bytes → Bytes) (capacity : Nat) :
    Daemon → Daemon → Prop :=
  Relation.ReflTransGen fun d d' =>
    ∃ k, (k = .runs ∨ k = .interrupted) ∧ DaemonStep strerror lossy capacity k d d'

theorem DaemonRun.ok (hs : ∀ errno, 0 ∉ strerror errno) (hp : p.Fit) {d : Daemon}
    (h : DaemonRun strerror lossy capacity (.start p) d) : DaemonOk strerror lossy p d := by
  induction h with
  | refl => exact rfl
  | tail _ hstep ih =>
      obtain ⟨k, hstep⟩ := hstep
      exact hstep.ok hs hp ih

end Proof

/--
**The exit code is the child's verdict.** For every process with its standard streams open,
every order of the two processes' steps and every failure of a call or death of a process on
the way:

* if the fork does not come about there is one process, and it has open what it had;
* the first process leaves with zero only after the child has detached and has said so and
  nothing else, and then it says nothing itself;
* a child whose `detach` has succeeded leads a session of its own, is out of the caller's
  directory, has the standard streams pointed at `/dev/null`, and has kept and lost no other
  descriptor;
* if the first process leaves otherwise, it leaves with one and a message: that the child
  stopped, or what is there of the child's own words. They are all there if no call on the
  pipe has failed and the child was not killed, and then the child did not detach;
* a child that goes on to serve has its first process leave with zero, unless a call on the
  pipe has failed.
-/
theorem exit_code_is_verdict {strerror : Nat → Bytes} {lossy : Bytes → Bytes} {capacity : Nat}
    {p : Process} (hs : ∀ errno, 0 ∉ strerror errno) (hp : p.Fit) {d : Daemon}
    (h : DaemonRun strerror lossy capacity (.start p) d) :
    (∀ q errno, d = .failed q errno → q = p) ∧
    ∀ s, d = .forked s →
      (∀ printed, s.parentAt = .exited 0 printed →
        s.verdict = some (.ok ()) ∧ s.sent = [READY] ∧ printed = none) ∧
      (s.verdict = some (.ok ()) → s.childAt ≠ .killed → Detached p s.writeFd s.child) ∧
      (∀ code printed, s.parentAt = .exited code printed → code ≠ 0 →
        code = 1 ∧ ∃ m, printed = some (lastWords lossy m) ∧
          (m = [] ∨ ∃ errno, s.verdict = some (.error errno) ∧
            m <+: errorText strerror errno) ∧
          (s.broken = false → s.childAt ≠ .killed →
            ∃ errno, s.verdict = some (.error errno) ∧ m = errorText strerror errno)) ∧
      (s.childAt = .returned (.ok ()) → s.broken = false →
        ∀ code printed, s.parentAt = .exited code printed → code = 0) := by
  have hok := h.ok hs hp
  refine ⟨?_, ?_⟩
  · rintro q errno rfl
    exact hok
  rintro s rfl
  obtain ⟨-, hok⟩ := hok
  refine ⟨?_, hok.childFds.done, ?_, ?_⟩
  · intro printed hat
    obtain ⟨hnone, hv, hsent⟩ := hok.heard.zero printed hat
    exact ⟨hv, hsent, hnone⟩
  · intro code printed hat hcode
    obtain ⟨hone, m, hm, hwords, hwhole⟩ := hok.fault hat hcode
    refine ⟨hone, m, hm, hwords, fun hb hkilled => ?_⟩
    obtain ⟨errno, hv, htext, -⟩ := hwhole hb hkilled
    exact ⟨errno, hv, htext⟩
  · intro hc hb code printed hat
    by_contra hcode
    obtain ⟨-, m, -, -, hwhole⟩ := hok.fault hat hcode
    obtain ⟨errno, -, -, hret⟩ := hwhole hb (by rw [hc]; simp)
    exact absurd (hc.symm.trans hret) (by simp)

/-- A process with a terminal and nothing else. -/
def onTerminal : Process where
  fds n := if n ≤ STDERR_FILENO then some (.other n) else none
  leader := false
  atRoot := false

theorem onTerminal_fit : onTerminal.Fit where
  streams n hn := by simp [onTerminal, hn]
  room := ⟨3, fun fd h => if_neg (by simp only [STDERR_FILENO]; omega)⟩
  noRead h := by
    obtain ⟨fd, h⟩ := h
    simp [onTerminal] at h
  noWrite h := by
    obtain ⟨fd, h⟩ := h
    simp [onTerminal] at h

/-- The child runs to its end before the first process hears of it. -/
theorem onTerminal_run : ∃ s, CleanRun (fun _ => []) id 1 (.start onTerminal) (.forked s) ∧
    s.parentAt = .exited 0 none ∧ s.childAt = .returned (.ok ()) ∧ s.verdict = some (.ok ()) := by
  have run : CleanRun (fun _ => []) id 1 (.start onTerminal) (.start onTerminal) := .refl
  have run := run.tail ⟨.runs, .inl rfl, .pipe onTerminal 3 4 (by decide) rfl rfl⟩
  have run := run.tail ⟨.runs, .inl rfl, .fork _ 3 4⟩
  have run := run.tail ⟨.runs, .inl rfl, .child (.close rfl)⟩
  have run := run.tail ⟨.runs, .inl rfl, .child (.setsid rfl)⟩
  have run := run.tail ⟨.runs, .inl rfl, .child (.chdir rfl)⟩
  have run := run.tail ⟨.runs, .inl rfl, .child (.openNull 3 rfl rfl)⟩
  have run := run.tail ⟨.runs, .inl rfl, .child (.dup 3 0 [1, 2] rfl)⟩
  have run := run.tail ⟨.runs, .inl rfl, .child (.dup 3 1 [2] rfl)⟩
  have run := run.tail ⟨.runs, .inl rfl, .child (.dup 3 2 [] rfl)⟩
  have run := run.tail ⟨.runs, .inl rfl, .child (.redirected 3 rfl)⟩
  have run := run.tail ⟨.runs, .inl rfl, .child (.write [READY] (.ok ()) 1 rfl rfl ⟨3, rfl⟩
    (by decide) (by decide) (by decide))⟩
  have run := run.tail ⟨.runs, .inl rfl, .child (.written (.ok ()) rfl)⟩
  have run := run.tail ⟨.runs, .inl rfl, .child (.closePipe (.ok ()) rfl)⟩
  have run := run.tail ⟨.runs, .inl rfl, .parent (.close rfl)⟩
  have run := run.tail ⟨.runs, .inl rfl, .parent (.read [] [READY] [] rfl rfl rfl (by decide)
    (by decide))⟩
  exact ⟨_, run, rfl, rfl, rfl⟩

theorem exit_code_is_verdict_sample :
    ∃ s, DaemonRun (fun _ => []) id 1 (.start onTerminal) (.forked s) ∧
      s.parentAt = .exited 0 none ∧ s.sent = [READY] ∧ Detached onTerminal s.writeFd s.child := by
  obtain ⟨s, run, hat, hchild, hv⟩ := onTerminal_run
  have run' : DaemonRun (fun _ => []) id 1 (.start onTerminal) (.forked s) := by
    refine Relation.ReflTransGen.mono ?_ _ _ run
    intro d d' h
    obtain ⟨k, -, h⟩ := h
    exact ⟨k, h⟩
  obtain ⟨hzero, hdone, -, -⟩ :=
    (exit_code_is_verdict (fun _ => by simp) onTerminal_fit run').2 s rfl
  exact ⟨s, run', hat, (hzero none hat).2.1, hdone hv (by rw [hchild]; simp)⟩

end ZipFs.Cli
