import ZipFs.Cli.Syslog
import Mathlib.Data.List.Nodup

/-!
# How often dropped lines are reported

The thread that moves `REPORTED` from another second to its own is the one that reports. If
`REPORTED` only moves forward, then nobody can move it to a second that it has been at, so no
second is reported twice. But the second that a thread compares and writes is the one it
read when its call began: a thread that is delayed after that can move `REPORTED` back, and
its second is then open again.
-/

namespace ZipFs.Cli

open Lib (Owns)

variable {τ : Type}

/-- A compare-exchange that goes through does not move `REPORTED` back. -/
def InOrder (_ : τ) : (o : LogOp) → LogWorld τ → LogRes o → Prop
  | .exchangeReported last now, w, _ => w.reported = last → w.reported ≤ now
  | _, _, _ => True

/-- The seconds of the reports so far. -/
def LogWorld.seconds (w : LogWorld τ) : List Int := w.reports.map (·.second)

/-- No second is reported twice, and none that a thread has claimed but not reported is
reported already or claimed by another. -/
structure Rated (w : LogWorld τ) : Prop where
  once : w.seconds.Nodup
  past : ∀ s ∈ w.seconds, s ≤ w.reported
  claimed : ∀ t s, (w.hands t).claimed = some s → s ≤ w.reported ∧ s ∉ w.seconds
  single : ∀ t u s, (w.hands t).claimed = some s → (w.hands u).claimed = some s → t = u

section Seconds

variable [DecidableEq τ] {t : τ} {w w' : LogWorld τ}

omit [DecidableEq τ] in
/-- A step that changes neither reports nor claims. -/
theorem Rated.same (h : Rated w) (hclaimed : ∀ u, (w'.hands u).claimed = (w.hands u).claimed)
    (hreported : w'.reported = w.reported) (hreports : w'.reports = w.reports) : Rated w' := by
  have hseconds : w'.seconds = w.seconds := by rw [LogWorld.seconds, hreports, LogWorld.seconds]
  refine ⟨hseconds ▸ h.once, ?_, ?_, ?_⟩
  · rw [hseconds, hreported]
    exact h.past
  · intro t s hs
    rw [hseconds, hreported]
    exact h.claimed t s ((hclaimed t).symm.trans hs)
  · intro t u s ht hu
    exact h.single t u s ((hclaimed t).symm.trans ht) ((hclaimed u).symm.trans hu)

/-- A claim is that of the thread whose hand is new, or another thread's old one. -/
theorem claimed_cases {hand : LogHand} (hhands : w'.hands = Function.update w.hands t hand) {u : τ}
    {s : Int} (hs : (w'.hands u).claimed = some s) :
    u = t ∧ hand.claimed = some s ∨ u ≠ t ∧ (w.hands u).claimed = some s := by
  rw [hhands] at hs
  by_cases hu : u = t
  · subst hu
    rw [Function.update_self] at hs
    exact .inl ⟨rfl, hs⟩
  · rw [Function.update_of_ne hu] at hs
    exact .inr ⟨hu, hs⟩

/-- A thread claims a second later than all others. -/
theorem Rated.claim (h : Rated w) {now : Int} (hnow : w.reported < now) {hand : LogHand}
    (hhands : w'.hands = Function.update w.hands t hand) (hclaim : hand.claimed = some now)
    (hreported : w'.reported = now) (hreports : w'.reports = w.reports) : Rated w' := by
  have hseconds : w'.seconds = w.seconds := by rw [LogWorld.seconds, hreports, LogWorld.seconds]
  have hnew : ∀ s, hand.claimed = some s → s = now := by
    intro s hs
    exact Option.some.inj (hs.symm.trans hclaim)
  refine ⟨hseconds ▸ h.once, ?_, ?_, ?_⟩
  · rw [hseconds, hreported]
    intro s hs
    have := h.past s hs
    omega
  · rw [hseconds, hreported]
    intro u s hs
    rcases claimed_cases hhands hs with ⟨-, hs⟩ | ⟨-, hs⟩
    · obtain rfl := hnew s hs
      refine ⟨Int.le_refl _, fun hmem => ?_⟩
      have := h.past s hmem
      omega
    · obtain ⟨hle, hnot⟩ := h.claimed u s hs
      exact ⟨by omega, hnot⟩
  · intro u v s hu hv
    -- an old claim is of an earlier second than the new one
    rcases claimed_cases hhands hu with ⟨rfl, hu⟩ | ⟨-, hu⟩
    · rcases claimed_cases hhands hv with ⟨rfl, -⟩ | ⟨-, hv⟩
      · rfl
      · have := (h.claimed v s hv).1
        have := hnew s hu
        omega
    · rcases claimed_cases hhands hv with ⟨-, hv⟩ | ⟨-, hv⟩
      · have := (h.claimed u s hu).1
        have := hnew s hv
        omega
      · exact h.single u v s hu hv

/-- A thread reports the second it has claimed. -/
theorem Rated.report (h : Rated w) (report : Report) {hand : LogHand}
    (hclaim : (w.hands t).claimed = some report.second)
    (hhands : w'.hands = Function.update w.hands t hand) (hdone : hand.claimed = none)
    (hreported : w'.reported = w.reported) (hreports : w'.reports = report :: w.reports) :
    Rated w' := by
  obtain ⟨hle, hnot⟩ := h.claimed t _ hclaim
  have hseconds : w'.seconds = report.second :: w.seconds := by
    rw [LogWorld.seconds, hreports, LogWorld.seconds, List.map_cons]
  have hold : ∀ {u s}, (w'.hands u).claimed = some s →
      u ≠ t ∧ (w.hands u).claimed = some s := by
    intro u s hs
    rcases claimed_cases hhands hs with ⟨-, hs⟩ | hs
    · exact absurd (hdone.symm.trans hs) (by simp)
    · exact hs
  refine ⟨?_, ?_, ?_, ?_⟩
  · rw [hseconds]
    exact List.nodup_cons.mpr ⟨hnot, h.once⟩
  · rw [hseconds, hreported]
    intro s hs
    rcases List.mem_cons.mp hs with rfl | hs
    · exact hle
    · exact h.past s hs
  · rw [hseconds, hreported]
    intro u s hs
    obtain ⟨hu, hs⟩ := hold hs
    obtain ⟨hle', hnot'⟩ := h.claimed u s hs
    refine ⟨hle', fun hmem => ?_⟩
    rcases List.mem_cons.mp hmem with rfl | hmem
    · exact hu (h.single u t _ hs hclaim)
    · exact hnot' hmem
  · intro u v s hu hv
    exact h.single u v s (hold hu).2 (hold hv).2

/-! ### One operation -/

variable {log : Syslog} {x : Option Int}

/-- Programs of a thread in the runs that keep the order, from and to the second it claims. -/
abbrev KeepsRate (log : Syslog) (t : τ) (x : Option Int) {α : Type} (p : LogAct α)
    (Q : α → Option Int → Prop) : Prop :=
  Owns (logProtocol Rated) ((logSystem τ log).only InOrder).exec t (fun w => (w.hands t).claimed)
    x p Q

theorem keepsRate_op {o : LogOp} {Q : LogRes o → Option Int → Prop}
    (h : ∀ w r, (w.hands t).claimed = x → Rated w → InOrder t o w r → logAnswers t o w r →
      Rated (logEffect t o r w) ∧ Q r ((logEffect t o r w).hands t).claimed) :
    KeepsRate log t x (.op o .ret) Q := by
  refine owns_op LogHand.claimed (fun _ _ _ he => he.1) ?_
  intro w r w' hrated hx he hr
  exact h w r hx hrated he.2 hr

/-- An operation that neither claims nor reports. -/
theorem keepsRate_same {o : LogOp}
    (h : ∀ (w : LogWorld τ) r, (∀ u, ((logEffect t o r w).hands u).claimed = (w.hands u).claimed) ∧
      (logEffect t o r w).reported = w.reported ∧ (logEffect t o r w).reports = w.reports) :
    KeepsRate log t x (.op o .ret) fun _ y => y = x := by
  refine keepsRate_op ?_
  intro w r hx hrated _ _
  obtain ⟨hclaimed, hreported, hreports⟩ := h w r
  exact ⟨hrated.same hclaimed hreported hreports, (hclaimed t).trans hx⟩

/-- A new hand with the old claim. -/
theorem claimed_update {hand : LogHand} (h : hand.claimed = (w.hands t).claimed) (u : τ) :
    (Function.update w.hands t hand u).claimed = (w.hands u).claimed := by
  by_cases hu : u = t
  · subst hu
    rw [Function.update_self]
    exact h
  · rw [Function.update_of_ne hu]

theorem keepsRate_sendLine (datagram : Bytes) (wait : Bool) :
    KeepsRate log t x (Syslog.sendLine datagram wait) fun _ y => y = x := by
  have hsend : KeepsRate log t x (LogAct.send datagram wait .line) fun _ y => y = x := by
    refine keepsRate_same ?_
    intro w taken
    cases taken with
    | true => exact ⟨fun _ => rfl, rfl, rfl⟩
    | false => exact ⟨claimed_update rfl, rfl, rfl⟩
  refine hsend.bind ?_
  rintro taken y rfl
  cases taken with
  | true => exact Owns.pure (fun _ _ hr => congrArg LogHand.claimed hr) rfl
  | false =>
      have hcount : KeepsRate log t y (LogAct.addDropped 1 .line) fun _ z => z = y :=
        keepsRate_same fun w _ => ⟨claimed_update rfl, rfl, rfl⟩
      refine hcount.bind ?_
      rintro - z rfl
      exact Owns.pure (fun _ _ hr => congrArg LogHand.claimed hr) rfl

/-- Whoever moves `REPORTED` to another second has claimed that second. -/
theorem keepsRate_exchange {last now : Int} (hne : last ≠ now) :
    KeepsRate log t x (LogAct.exchangeReported last now) fun won y =>
      won = true → y = some now := by
  refine keepsRate_op ?_
  intro w won hx hrated horder hr
  cases won with
  | true =>
      have hlast : w.reported = last := of_decide_eq_true hr.symm
      have hle : w.reported ≤ now := horder hlast
      refine ⟨hrated.claim (by omega) rfl rfl rfl rfl, fun _ => ?_⟩
      simp [logEffect]
  | false => exact ⟨hrated, by simp⟩

theorem keepsRate_send (datagram : Bytes) (wait : Bool) (now : Int) (dropped : Nat) :
    KeepsRate log t (some now) (LogAct.send datagram wait (.report now dropped))
      fun _ y => y = none := by
  refine keepsRate_op ?_
  intro w taken hx hrated _ _
  refine ⟨hrated.report ⟨now, dropped, taken⟩ hx rfl rfl rfl rfl, ?_⟩
  simp [logEffect]

/-! ### One record -/

/-- Programs that keep a condition on the claim. -/
def rateLogic (log : Syslog) (t : τ) (C : Option Int → Prop) : Lib.Logic LogRes :=
  Lib.keeping (logProtocol Rated) ((logSystem τ log).only InOrder).exec t
    (I := fun w => C (w.hands t).claimed) fun _ _ hr _ h =>
      (congrArg (fun hand : LogHand => C hand.claimed) hr).mpr h

theorem rateLogic_accepts {C : Option Int → Prop} {α : Type} {p : LogAct α}
    (h : ∀ x, C x → KeepsRate log t x p fun _ y => C y) : (rateLogic log t C).Accepts p :=
  fun w hi hC => (h _ hC w hi rfl).mono fun _ _ _ hy => ⟨trivial, hy⟩

theorem rateLogic_plain (C : Option Int → Prop) : PlainOps (rateLogic log t C) := by
  have hop : ∀ o : LogOp, (∀ (w : LogWorld τ) r, (logEffect t o r w).hands = w.hands ∧
      (logEffect t o r w).reported = w.reported ∧ (logEffect t o r w).reports = w.reports) →
      (rateLogic log t C).Accepts (.op o .ret) := by
    intro o ho
    refine rateLogic_accepts fun x hx => ?_
    refine fun w hi hw => (keepsRate_same ?_ w hi hw).mono ?_
    · intro w r
      obtain ⟨hhands, hreported, hreports⟩ := ho w r
      exact ⟨fun u => by rw [hhands], hreported, hreports⟩
    · rintro _ w' - rfl
      exact hx
  exact ⟨hop _ fun _ _ => ⟨rfl, rfl, rfl⟩, hop _ fun _ _ => ⟨rfl, rfl, rfl⟩,
    fun _ _ => hop _ fun _ _ => ⟨rfl, rfl, rfl⟩, hop _ fun _ _ => ⟨rfl, rfl, rfl⟩⟩

theorem keepsRate_reporting (now : Int) : KeepsRate log t x (log.report now) fun _ _ => True := by
  have hret : ∀ x, KeepsRate log t x (pure ()) fun _ _ => True :=
    fun x _ _ _ _ _ _ => trivial
  have hload : KeepsRate log t x LogAct.loadReported fun _ y => y = x :=
    keepsRate_same fun w _ => ⟨fun _ => rfl, rfl, rfl⟩
  refine hload.bind ?_
  rintro last y rfl
  split
  · exact hret _
  · rename_i hne
    refine (keepsRate_exchange hne).bind ?_
    intro won y hwon
    split
    · rename_i htrue
      obtain rfl := hwon htrue
      have hswap : KeepsRate log t (some now) LogAct.swapDropped fun _ y => y = some now :=
        keepsRate_same fun w _ => ⟨claimed_update rfl, rfl, rfl⟩
      refine hswap.bind ?_
      rintro dropped y rfl
      split
      · have hheader : KeepsRate log t (some now) (log.header LOG_WARNING now)
            fun _ y => y = some now := by
          have hplain : PlainOps (rateLogic log t (· = some now)) := rateLogic_plain _
          intro w hi hw
          exact (accepts_header log hplain LOG_WARNING now w hi hw).mono fun _ _ _ h => h.2
        refine hheader.bind ?_
        rintro header y rfl
        refine (keepsRate_send _ false now dropped).bind ?_
        rintro taken y rfl
        split
        · exact hret _
        · intro w hi hw
          refine (keepsRate_same (fun w _ => ?_) w hi hw).mono fun _ _ _ _ => trivial
          exact ⟨claimed_update rfl, rfl, rfl⟩
      · exact hret _
    · exact hret _

theorem keepsRate_sendRecord (record : Record) :
    KeepsRate log t x (log.sendRecord record) fun _ _ => True := by
  have haccepts : (rateLogic log t fun _ => True).Accepts (log.sendRecord record) := by
    refine accepts_sendRecord log (rateLogic_plain _) ?_ ?_ record
    · intro datagram wait
      refine rateLogic_accepts fun x _ w hi hw => ?_
      exact (keepsRate_sendLine datagram wait w hi hw).mono fun _ _ _ _ => trivial
    · exact fun now => rateLogic_accepts fun x _ => keepsRate_reporting now
  exact fun w hi _ => (haccepts w hi trivial).mono fun _ _ _ _ => trivial

/-! ### Whole runs -/

theorem rate_respected (log : Syslog) :
    Lib.Respects ((logSystem τ log).only InOrder) (logProtocol Rated) fun _ _ _ _ _ => True where
  arrive t record w hi := ⟨hi, trivial, fun _ _ => rfl⟩
  env w w' htick hi := by
    obtain ⟨clock, -, rfl⟩ := htick
    exact ⟨hi.same (fun _ => rfl) rfl rfl, trivial, fun _ => rfl⟩
  calls t record w hi := keepsRate_sendRecord record w hi rfl

omit [DecidableEq τ] in
theorem start_rated (clock : Int) : Rated (LogWorld.start clock : LogWorld τ) :=
  ⟨List.nodup_nil, by simp [LogWorld.start, LogWorld.seconds], by simp [LogWorld.start],
    by simp [LogWorld.start]⟩

/--
**A second is reported at most once** in every run in which no compare-exchange moves
`REPORTED` back, whether the daemon took the report or not.
-/
theorem reports_rate_limited {log : Syslog} {clock : Int}
    {c : Lib.Config τ (LogWorld τ) Record Unit LogRes}
    (h : Lib.Reachable ((logSystem τ log).only InOrder) (.start clock) c) (s : Int) :
    (c.world.reports.filter fun report => report.second = s).length ≤ 1 := by
  have hrated := (Lib.sound (rate_respected log) (start_rated clock) h).inv
  have hcount := List.nodup_iff_count_le_one.mp hrated.once s
  rw [LogWorld.seconds, List.count_eq_countP, List.countP_map] at hcount
  rw [← List.countP_eq_length_filter]
  refine le_of_eq_of_le (List.countP_congr fun report _ => ?_) hcount
  simp

/-- The answers of the daemon, where an exchange that moves `REPORTED` back does not happen. -/
def inOrderStep (takes : Bool) (t : τ) : (o : LogOp) → LogWorld τ → Option (LogRes o × LogWorld τ)
  | .exchangeReported last now, w =>
      if w.reported = last → w.reported ≤ now then
        daemonStep takes t (.exchangeReported last now) w
      else none
  | o, w => daemonStep takes t o w

end Seconds

/-- A line is dropped and the next one tells of it. -/
theorem reports_rate_limited_sample :
    ∃ c : Lib.Config Nat (LogWorld Nat) Record Unit LogRes,
      Lib.Reachable ((logSystem Nat sampleLog).only InOrder) (.start 5) c ∧
      c.world.reports = [⟨5, 1, true⟩] ∧
      (c.world.reports.filter fun report => report.second = 5).length ≤ 1 := by
  set S := (logSystem Nat sampleLog).only InOrder
  have hrun : (Lib.runMoves S inOrderStep nextSecond
      [.call 0 sampleRecord, .ops 0 5 false, .ret 0, .call 0 sampleRecord, .ops 0 9 true, .ret 0]
      (Lib.initial (LogWorld.start 5))).map (·.world.reports) = some [⟨5, 1, true⟩] := by
    decide +kernel
  obtain ⟨c, hmoves, hreports⟩ := Option.map_eq_some_iff.mp hrun
  have hc : Lib.Reachable S (.start 5) c := by
    refine Lib.reachable_runMoves ?_ ?_ .init hmoves
    · intro takes t o w r w' hstep
      unfold inOrderStep at hstep
      split at hstep
      · split at hstep
        · rename_i horder
          exact ⟨daemonStep_exec hstep, horder⟩
        · exact absurd hstep (by simp)
      · rename_i hne
        refine ⟨daemonStep_exec hstep, ?_⟩
        cases o with
        | exchangeReported last now => exact absurd rfl (hne last now)
        | _ => trivial
    · exact nextSecond_tick
  exact ⟨c, hc, hreports, reports_rate_limited hc 5⟩

/-- Thread 0 has its line taken in second 5 and is then delayed. Thread 1 reports second 5,
thread 2 reports second 6, and a line is dropped each time before. -/
def delayedMoves : List LogMove :=
  [.call 0 sampleRecord, .ops 0 4 true,
   .call 1 sampleRecord, .ops 1 5 false, .ret 1,
   .call 1 sampleRecord, .ops 1 9 true, .ret 1,
   .env,
   .call 1 sampleRecord, .ops 1 5 false, .ret 1,
   .call 2 sampleRecord, .ops 2 10 true, .ret 2,
   .call 1 sampleRecord, .ops 1 4 false, .ret 1]

/-- Thread 0 then moves `REPORTED` from 6 back to 5 and reports second 5 again. -/
theorem second_reported_twice :
    ∃ c : Lib.Config Nat (LogWorld Nat) Record Unit LogRes, LogRun sampleLog 5 c ∧
      c.world.reports = [⟨5, 1, true⟩, ⟨6, 1, true⟩, ⟨5, 1, true⟩] ∧
      ¬ (c.world.reports.filter fun report => report.second = 5).length ≤ 1 := by
  have hrun : (logMoves (delayedMoves ++ [.ops 0 6 true, .ret 0])).map (·.world.reports) =
      some [⟨5, 1, true⟩, ⟨6, 1, true⟩, ⟨5, 1, true⟩] := by decide +kernel
  obtain ⟨c, hmoves, hreports⟩ := Option.map_eq_some_iff.mp hrun
  refine ⟨c, logMoves_reachable hmoves, hreports, ?_⟩
  rw [hreports]
  decide

end ZipFs.Cli
