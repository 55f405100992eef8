import ZipFs.Cli.DaemonProof
import Mathlib.Data.Prod.Lex
import Mathlib.Order.WellFounded

/-!
# The handshake comes to an end

Every step that is not a signal takes the two processes further, and as long as the first one is
there, one of them has a step to take.
-/

namespace ZipFs.Cli

/-! ## It comes to an end -/

def Parent.alive : Parent → Bool
  | .closing | .waiting _ => true
  | .exited _ _ | .killed => false

def Parent.rank : Parent → Nat
  | .closing => 2
  | .waiting _ => 1
  | .exited _ _ | .killed => 0

def Child.rank : Child → Nat
  | .closing => 12
  | .setsid => 11
  | .chdir => 10
  | .openNull => 9
  | .dup _ targets => 5 + targets.length
  | .abandon _ _ => 4
  | .sending _ _ => 3
  | .closingPipe _ => 2
  | .returned _ => 1
  | .killed => 0

/-- The bytes that the child has yet to write. -/
def Child.unsaid : Child → Nat
  | .sending rest _ => rest.length
  | _ => 0

/-- Where the child is comes first; then each byte counts twice until it is in the pipe. -/
def Daemon.measure : Daemon → Nat × Nat
  | .start _ => (14, 0)
  | .piped _ _ _ => (13, 0)
  | .failed _ _ => (0, 0)
  | .forked s => (s.childAt.rank, 2 * s.childAt.unsaid + s.pipe.length + s.parentAt.rank)

section Ends

variable {strerror : Nat → Bytes} {lossy : Bytes → Bytes} {capacity : Nat} {p : Process}
variable {s s' : Pair} {k : Kind}

theorem ParentStep.decreases (h : ParentStep lossy k s s') (hk : k ≠ .interrupted) :
    s'.childAt = s.childAt ∧
      s'.pipe.length + s'.parentAt.rank < s.pipe.length + s.parentAt.rank := by
  cases h with
  | close hat => exact ⟨rfl, by simp [hat, Parent.rank]⟩
  | read message taken rest hat _ hpipe hne _ =>
      have hpos := List.length_pos_iff.mpr hne
      unfold Pair.receive
      split
      · refine ⟨rfl, ?_⟩
        simp only [Pair.exit, hat, hpipe, Parent.rank, List.length_append]
        omega
      · refine ⟨rfl, ?_⟩
        simp only [hat, hpipe, Parent.rank, List.length_append]
        omega
  | eof message hat _ _ _ _ => exact ⟨rfl, by simp [hat, Pair.exit, Parent.rank]⟩
  | fail message hat => exact ⟨rfl, by simp [hat, Pair.exit, Parent.rank]⟩
  | interrupted message hat => exact absurd rfl hk
  | kill hexit hkill =>
      refine ⟨rfl, ?_⟩
      cases hat : s.parentAt with
      | closing | waiting m => simp [Parent.rank]
      | exited code printed => exact absurd hat (hexit code printed)
      | killed => exact absurd hat hkill

theorem ChildStep.decreases (h : ChildStep strerror capacity k s s') (hk : k ≠ .interrupted) :
    s'.childAt.rank < s.childAt.rank ∨ s'.childAt.rank = s.childAt.rank ∧
      2 * s'.childAt.unsaid + s'.pipe.length < 2 * s.childAt.unsaid + s.pipe.length := by
  cases h with
  | write rest v n hat _ _ hpos hle _ =>
      refine .inr ⟨by simp [hat, Child.rank], ?_⟩
      simp only [hat, Child.unsaid, List.length_append, List.length_take, List.length_drop]
      omega
  | writeElsewhere rest v hat _ hne =>
      have hpos := List.length_pos_iff.mpr hne
      refine .inr ⟨by simp [hat, Child.rank], ?_⟩
      simp only [hat, Child.unsaid, List.length_nil]
      omega
  | writeInterrupted rest v hat _ => exact absurd rfl hk
  | dup null target targets hat | dupFail null target targets errno hat =>
      left
      simp only [hat, Child.rank, List.length_cons]
      omega
  | kill hkill =>
      left
      cases hat : s.childAt with
      | killed => exact absurd hat hkill
      | dup null targets =>
          simp only [Child.rank]
          omega
      | _ => simp [Child.rank]
  | _ =>
      rename_i hat
      left
      simp_all [Child.rank, Pair.detached]

theorem DaemonStep.decreases {d d' : Daemon} (h : DaemonStep strerror lossy capacity k d d')
    (hk : k ≠ .interrupted) : Prod.Lex (· < ·) (· < ·) d'.measure d.measure := by
  cases h with
  | pipe q r w _ _ _ => exact .left _ _ (by decide)
  | pipeFail q errno => exact .left _ _ (by decide)
  | fork q r w => exact .left _ _ (by simp [Pair.fresh, Child.rank])
  | forkFail q r w errno => exact .left _ _ (by decide)
  | @parent _ s s' h =>
      obtain ⟨hat, hlt⟩ := h.decreases hk
      simp only [Daemon.measure, hat]
      exact .right _ (by omega)
  | @child _ s s' h =>
      have hparent := h.frame.2.2.2.1
      rcases h.decreases hk with hlt | ⟨heq, hlt⟩
      · exact .left _ _ hlt
      · simp only [Daemon.measure, heq, hparent]
        exact .right _ (by omega)

theorem decreases_wellFounded : WellFounded fun d' d : Daemon =>
    ∃ k, k ≠ .interrupted ∧ DaemonStep strerror lossy capacity k d d' := by
  refine Subrelation.wf ?_
    (InvImage.wf Daemon.measure (WellFounded.prod_lex Nat.lt_wfRel.wf Nat.lt_wfRel.wf))
  intro d' d h
  obtain ⟨k, hk, hstep⟩ := h
  exact hstep.decreases hk

/-! ## Nobody waits for the other -/

theorem Process.Fit.two_free (hp : p.Fit) : ∃ r w, r ≠ w ∧ p.fds r = none ∧ p.fds w = none := by
  obtain ⟨top, htop⟩ := hp.room
  exact ⟨top, top + 1, by omega, htop _ le_rfl, htop _ (by omega)⟩

/-- The child finds a descriptor for `/dev/null`. -/
theorem ChildFds.free_fd {r w : Nat} {child : Process} {v : Option (Except Nat Unit)}
    (hf : ChildFds p r w child .openNull v) (hp : p.Fit) : ∃ null, child.fds null = none := by
  obtain ⟨top, htop⟩ := hp.room
  have hlarge : top ≤ top + w + STDERR_FILENO + 1 := by omega
  refine ⟨top + w + STDERR_FILENO + 1, ?_⟩
  rw [hf.others (by simp) _ (by omega) (by omega) (by simp [Child.null]) (by simp)]
  exact htop _ hlarge

/-- A child that has not closed the pipe can go on, unless the pipe is full or the first process
has left. -/
theorem PairOk.child_goes (hok : PairOk strerror lossy p s) (hp : p.Fit) (hcap : 0 < capacity)
    (htalk : s.childAt.talking = true)
    (hpipe : ∀ rest v, s.childAt = .sending rest v → rest ≠ [] →
      s.pipe = [] ∧ s.parentAt.alive = true) :
    ∃ s', ChildStep strerror capacity .runs s s' := by
  cases hat : s.childAt with
  | closing => exact ⟨_, .close hat⟩
  | setsid => exact ⟨_, .setsid hat⟩
  | chdir => exact ⟨_, .chdir hat⟩
  | openNull =>
      have hf := hok.childFds
      rw [hat] at hf
      obtain ⟨null, hnull⟩ := hf.free_fd hp
      exact ⟨_, .openNull null hat hnull⟩
  | dup null targets =>
      cases targets with
      | nil => exact ⟨_, .redirected null hat⟩
      | cons target targets => exact ⟨_, .dup null target targets hat⟩
  | abandon null errno => exact ⟨_, .abandon null errno hat⟩
  | sending rest v =>
      cases rest with
      | nil => exact ⟨_, .written v hat⟩
      | cons b rest =>
          obtain ⟨hempty, halive⟩ := hpipe _ v hat (by simp)
          have hread : s.parent.Open .pipeRead := by
            refine ⟨s.readFd, hok.parentFds.read ?_⟩
            cases hp : s.parentAt with
            | closing => exact .inl rfl
            | waiting m => exact .inr ⟨m, rfl⟩
            | exited code printed | killed => simp [hp, Parent.alive] at halive
          refine ⟨_, .write (b :: rest) v 1 hat (hok.childFds.talks htalk) hread Nat.one_pos ?_ ?_⟩
          · simp
          · simp only [hempty, List.length_nil]
            omega
  | closingPipe v => exact ⟨_, .closePipe v hat⟩
  | returned v | killed => simp [hat, Child.talking] at htalk

/-- While the first process is there, one of the two can go on. -/
theorem PairOk.goes (hok : PairOk strerror lossy p s) (hp : p.Fit) (hcap : 0 < capacity)
    (halive : s.parentAt.alive = true) :
    ∃ s', ParentStep lossy .runs s s' ∨ ChildStep strerror capacity .runs s s' := by
  cases hat : s.parentAt with
  | closing => exact ⟨_, .inl (.close hat)⟩
  | waiting m =>
      have hread := hok.parentFds.read (.inr ⟨m, hat⟩)
      cases hpipe : s.pipe with
      | cons b rest =>
          exact ⟨_, .inl (.read m [b] rest hat hread hpipe (by simp) (by simp))⟩
      | nil =>
          cases htalk : s.childAt.talking with
          | true =>
              obtain ⟨s', h⟩ :=
                hok.child_goes hp hcap htalk fun _ _ _ _ => ⟨hpipe, halive⟩
              exact ⟨s', .inr h⟩
          | false =>
              -- the pipe is empty and both have closed their write end
              refine ⟨_, .inl (.eof m hat hread hpipe ?_ ?_)⟩
              · intro hopen
                obtain ⟨fd, hfd⟩ := hopen
                exact absurd ((hok.parentFds.write fd hfd).2.symm.trans hat) (by simp)
              · intro hopen
                obtain ⟨fd, hfd⟩ := hopen
                exact absurd ((hok.childFds.only fd hfd).2.symm.trans htalk) (by simp)
  | exited code printed | killed => simp [hat, Parent.alive] at halive

/-- The first process is still there. -/
def Daemon.waits : Daemon → Bool
  | .start _ | .piped _ _ _ => true
  | .failed _ _ => false
  | .forked s => s.parentAt.alive

theorem DaemonOk.goes {d : Daemon} (hd : DaemonOk strerror lossy p d) (hp : p.Fit)
    (hcap : 0 < capacity) (hwaits : d.waits = true) :
    ∃ d', DaemonStep strerror lossy capacity .runs d d' := by
  cases d with
  | start q =>
      obtain rfl : q = p := hd
      obtain ⟨r, w, hne, hr, hw⟩ := hp.two_free
      exact ⟨_, .pipe q r w hne hr hw⟩
  | piped q r w => exact ⟨_, .fork q r w⟩
  | failed q errno => exact absurd hwaits (by simp [Daemon.waits])
  | forked s =>
      obtain ⟨-, hok⟩ := hd
      obtain ⟨s', h | h⟩ := hok.goes hp hcap hwaits
      · exact ⟨_, .parent h⟩
      · exact ⟨_, .child h⟩

/-! ## When nothing goes wrong -/

/-- No call has failed, and nobody was killed. -/
def Daemon.Clean : Daemon → Prop
  | .start _ | .piped _ _ _ => True
  | .failed _ _ => False
  | .forked s => s.broken = false ∧ s.parentAt ≠ .killed ∧ s.childAt ≠ .killed ∧
      (∀ null errno, s.childAt ≠ .abandon null errno) ∧
      ∀ errno, s.verdict ≠ some (.error errno)

theorem DaemonStep.clean {d d' : Daemon} (h : DaemonStep strerror lossy capacity k d d')
    (hk : k = .runs ∨ k = .interrupted) (hd : d.Clean) : d'.Clean := by
  have hfails : k ≠ .fails := by
    rcases hk with rfl | rfl <;> simp
  have hkilled : k ≠ .killed := by
    rcases hk with rfl | rfl <;> simp
  cases h with
  | pipe q r w _ _ _ => trivial
  | pipeFail q errno => exact absurd rfl hfails
  | fork q r w => simp [Daemon.Clean, Pair.fresh]
  | forkFail q r w errno => exact absurd rfl hfails
  | parent h =>
      obtain ⟨hb, hparent, hchild, habandon, hv⟩ := hd
      cases h with
      | close hat => exact ⟨hb, by simp, hchild, habandon, hv⟩
      | read m taken rest hat _ _ _ _ =>
          unfold Pair.receive
          split
          · exact ⟨hb, by simp [Pair.exit], hchild, habandon, hv⟩
          · exact ⟨hb, by simp, hchild, habandon, hv⟩
      | eof m hat _ _ _ _ => exact ⟨hb, by simp [Pair.exit], hchild, habandon, hv⟩
      | fail m hat => exact absurd rfl hfails
      | interrupted m hat => exact ⟨hb, hparent, hchild, habandon, hv⟩
      | kill _ _ => exact absurd rfl hkilled
  | child h =>
      obtain ⟨hb, hparent, hchild, habandon, hv⟩ := hd
      cases h with
      | abandon null errno hat => exact absurd hat (habandon null errno)
      | redirected null hat => exact ⟨hb, hparent, by simp [Pair.detached], by simp [Pair.detached],
          by simp [Pair.detached]⟩
      | writeInterrupted rest v hat _ => exact ⟨hb, hparent, hchild, habandon, hv⟩
      | setsidFail | chdirFail | openFail | dupFail | writeFail => exact absurd rfl hfails
      | kill => exact absurd rfl hkilled
      | _ => exact ⟨hb, hparent, by simp, by simp, hv⟩

/-- The child of a process that has left with zero has nothing left to say. -/
theorem PairOk.nothing_left (hok : PairOk strerror lossy p s) {printed : Option Bytes}
    (hat : s.parentAt = .exited 0 printed) {rest : Bytes} {v : Except Nat Unit}
    (hchild : s.childAt = .sending rest v) : rest = [] := by
  obtain ⟨-, hv, hsent⟩ := hok.heard.zero printed hat
  obtain ⟨hv', htext⟩ := hok.said.sending rest v hchild
  obtain rfl := Option.some.inj (hv.symm.trans hv')
  rw [hsent] at htext
  simpa [verdictText] using htext

/-- Where nothing has gone wrong and nothing is left to do, the child serves. -/
theorem PairOk.settled (hok : PairOk strerror lossy p s) (hp : p.Fit) (hcap : 0 < capacity)
    (hclean : (Daemon.forked s).Clean)
    (hparent : ∀ s', ¬ ParentStep lossy .runs s s')
    (hchild : ∀ s', ¬ ChildStep strerror capacity .runs s s') :
    s.parentAt = .exited 0 none ∧ s.childAt = .returned (.ok ()) ∧
      Detached p s.writeFd s.child := by
  obtain ⟨hb, hpkill, hckill, -, hfine⟩ := hclean
  have hleft : s.parentAt.alive = false := by
    by_contra halive
    obtain ⟨s', h | h⟩ := hok.goes hp hcap (by simpa using halive)
    · exact hparent s' h
    · exact hchild s' h
  cases hat : s.parentAt with
  | closing | waiting m => simp [hat, Parent.alive] at hleft
  | killed => exact absurd hat hpkill
  | exited code printed =>
      obtain rfl : code = 0 := by
        by_contra hcode
        obtain ⟨-, m, -, -, hwhole⟩ := hok.fault hat hcode
        obtain ⟨errno, hv, -, -⟩ := hwhole hb hckill
        exact hfine errno hv
      obtain ⟨rfl, hv, -⟩ := hok.heard.zero printed hat
      have hquiet : s.childAt.talking = false := by
        by_contra htalk
        obtain ⟨s', h⟩ := hok.child_goes hp hcap (by simpa using htalk)
          fun rest v hsend hne => absurd (hok.nothing_left hat hsend) hne
        exact hchild s' h
      have hret : s.childAt = .returned (.ok ()) := by
        cases hc : s.childAt with
        | returned v =>
            obtain ⟨hv', -⟩ := hok.said.closed v (.inr hc)
            rw [Option.some.inj (hv.symm.trans hv')]
        | killed => exact absurd hc hckill
        | _ => simp [hc, Child.talking] at hquiet
      exact ⟨rfl, hret, hok.childFds.done hv hckill⟩

end Ends

theorem CleanRun.ok {strerror : Nat → Bytes} {lossy : Bytes → Bytes} {capacity : Nat}
    {p : Process} (hs : ∀ errno, 0 ∉ strerror errno) (hp : p.Fit) {d : Daemon}
    (h : CleanRun strerror lossy capacity (.start p) d) :
    DaemonOk strerror lossy p d ∧ d.Clean := by
  induction h with
  | refl => exact ⟨rfl, trivial⟩
  | tail _ hstep ih =>
      obtain ⟨k, hk, hstep⟩ := hstep
      exact ⟨hstep.ok hs hp ih.1, hstep.clean hk ih.2⟩

/--
**The caller is told.** For every process with its standard streams open, and whatever fails
and whoever is killed:

* there is no end of steps only if there is no end of signals;
* as long as the first process is there, one of the two processes can go on without any call
  failing, so the first process neither waits for a child that waits for it nor for one that
  has gone;
* if no call fails and nobody is killed, then all that is left in the end is a child that has
  detached and goes on to serve, and the first process has left with zero and without a word.
-/
theorem handshake_settles {strerror : Nat → Bytes} {lossy : Bytes → Bytes} {capacity : Nat}
    {p : Process} (hs : ∀ errno, 0 ∉ strerror errno) (hp : p.Fit) (hcap : 0 < capacity) :
    (WellFounded fun d' d : Daemon =>
      ∃ k, k ≠ .interrupted ∧ DaemonStep strerror lossy capacity k d d') ∧
    (∀ d, DaemonRun strerror lossy capacity (.start p) d → d.waits = true →
      ∃ d', DaemonStep strerror lossy capacity .runs d d') ∧
    ∀ d, CleanRun strerror lossy capacity (.start p) d →
      (∀ d', ¬ DaemonStep strerror lossy capacity .runs d d') →
      ∃ s, d = .forked s ∧ s.parentAt = .exited 0 none ∧ s.childAt = .returned (.ok ()) ∧
        Detached p s.writeFd s.child := by
  refine ⟨decreases_wellFounded, ?_, ?_⟩
  · intro d hrun hwaits
    exact (hrun.ok hs hp).goes hp hcap hwaits
  · intro d hrun hstuck
    obtain ⟨hok, hclean⟩ := hrun.ok hs hp
    have hover : d.waits = false := by
      by_contra hwaits
      obtain ⟨d', h⟩ := hok.goes hp hcap (by simpa using hwaits)
      exact hstuck d' h
    cases d with
    | start q | piped q r w => simp [Daemon.waits] at hover
    | failed q errno => exact hclean.elim
    | forked s =>
        refine ⟨s, rfl, ?_⟩
        exact hok.2.settled hp hcap hclean (fun s' h => hstuck _ (.parent h))
          fun s' h => hstuck _ (.child h)

/-- A child that serves and a first process that has left do nothing more here. -/
theorem Pair.ended {strerror : Nat → Bytes} {lossy : Bytes → Bytes} {capacity : Nat} {s : Pair}
    {code : Nat} {printed : Option Bytes} {v : Except Nat Unit}
    (hparent : s.parentAt = .exited code printed) (hchild : s.childAt = .returned v)
    (d : Daemon) : ¬ DaemonStep strerror lossy capacity .runs (.forked s) d := by
  intro h
  cases h with
  | parent h => cases h <;> simp_all
  | child h => cases h <;> simp_all

theorem handshake_settles_sample :
    ∃ s, CleanRun (fun _ => []) id 1 (.start onTerminal) (.forked s) ∧
      s.childAt = .returned (.ok ()) ∧ Detached onTerminal s.writeFd s.child := by
  obtain ⟨s, run, hat, hchild, -⟩ := onTerminal_run
  obtain ⟨t, heq, -, -, hdone⟩ :=
    (handshake_settles (fun _ => by simp) onTerminal_fit Nat.one_pos).2.2 _ run
      (Pair.ended hat hchild)
  obtain rfl : s = t := by injection heq
  exact ⟨s, run, hchild, hdone⟩

end ZipFs.Cli
