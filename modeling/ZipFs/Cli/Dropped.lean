import ZipFs.Cli.Syslog
import ZipFs.Lib.Ledger

/-!
# Where dropped lines are

A line that is counted is in `DROPPED`, in a report that the daemon took, or in the hand of
a thread that swapped it out, up to what `DROPPED` loses when it wraps around. This is an
invariant of what the threads share: a step moves lines from one of these places to another,
or counts a line that its thread has just failed to send.
-/

namespace ZipFs.Cli

open Lib (Owns)

variable {τ : Type}

/--
Where the lines are that the daemon did not take. Only the threads `ts` have any in hand, and
`DROPPED` may have lost `2 ^ 64` of them a number of times.
-/
structure LinesKept (ts : Finset τ) (w : LogWorld τ) : Prop where
  absent : ∀ t, t ∉ ts → (w.hands t).uncounted = 0 ∧ (w.hands t).inFlight = 0
  failed : w.failed = w.counted + ∑ t ∈ ts, (w.hands t).uncounted
  counted : ∃ laps, w.counted =
    w.dropped + w.takenLines + ∑ t ∈ ts, (w.hands t).inFlight + laps * 2 ^ 64

/-- The lines in a hand. -/
def LogHand.lines (hand : LogHand) : Nat × Nat := (hand.uncounted, hand.inFlight)

section Lines

variable [DecidableEq τ] {t : τ} {w w' : LogWorld τ}

/-- One thread more is looked at. -/
theorem LinesKept.include {ts : Finset τ} (h : LinesKept ts w) (t : τ) :
    LinesKept (insert t ts) w := by
  refine ⟨fun u hu => h.absent u fun hmem => hu (Finset.mem_insert_of_mem hmem), ?_, ?_⟩
  · rw [Lib.sum_insert_of_absent _ fun ht => (h.absent t ht).1]
    exact h.failed
  · rw [Lib.sum_insert_of_absent _ fun ht => (h.absent t ht).2]
    exact h.counted

/-- A step moves lines between the counts and the hand of its thread. -/
theorem LinesKept.step {ts : Finset τ} (h : LinesKept ts w) (ht : t ∈ ts) {hand : LogHand}
    (hhands : w'.hands = Function.update w.hands t hand)
    (hfailed : w'.failed + w.counted + (w.hands t).uncounted =
      w.failed + w'.counted + hand.uncounted)
    (hcounted : ∃ laps, w'.counted + w.dropped + w.takenLines + (w.hands t).inFlight =
      w.counted + w'.dropped + w'.takenLines + hand.inFlight + laps * 2 ^ 64) :
    LinesKept ts w' := by
  have huncounted := Lib.sum_update ht w.hands hand (·.uncounted)
  have hinFlight := Lib.sum_update ht w.hands hand (·.inFlight)
  refine ⟨?_, ?_, ?_⟩
  · intro u hu
    have hne : u ≠ t := fun heq => hu (heq ▸ ht)
    rw [hhands, Function.update_of_ne hne]
    exact h.absent u hu
  · rw [hhands]
    have := h.failed
    omega
  · obtain ⟨laps, hlaps⟩ := h.counted
    obtain ⟨more, hmore⟩ := hcounted
    refine ⟨laps + more, ?_⟩
    rw [hhands, Nat.add_mul]
    omega

omit [DecidableEq τ] in
/-- A step that leaves all counts and hands as they are. -/
theorem LinesKept.same {ts : Finset τ} (h : LinesKept ts w) (hhands : w'.hands = w.hands)
    (hfailed : w'.failed = w.failed) (hcounted : w'.counted = w.counted)
    (hdropped : w'.dropped = w.dropped) (hreports : w'.reports = w.reports) :
    LinesKept ts w' := by
  refine ⟨hhands ▸ h.absent, ?_, ?_⟩
  · rw [hhands, hfailed, hcounted]
    exact h.failed
  · rw [hhands, hcounted, hdropped, LogWorld.takenLines, hreports]
    exact h.counted

/-- Programs of a thread that keep the lines, from and to what it has in hand. -/
abbrev KeepsLines (t : τ) (x : Nat × Nat) {α : Type} (p : LogAct α) (Q : α → Nat × Nat → Prop) :
    Prop :=
  Owns (logProtocol fun w => ∃ ts, LinesKept ts w) logExec t (fun w => (w.hands t).lines) x p Q

theorem keepsLines_op {x : Nat × Nat} {o : LogOp} {Q : LogRes o → Nat × Nat → Prop}
    (h : ∀ w r ts, (w.hands t).lines = x → t ∈ ts → LinesKept ts w → logAnswers t o w r →
      LinesKept ts (logEffect t o r w) ∧ Q r ((logEffect t o r w).hands t).lines) :
    KeepsLines t x (.op o .ret) Q := by
  refine owns_op LogHand.lines (fun _ _ _ he => he) ?_
  intro w r w' hi hx _ hr
  obtain ⟨ts, hkept⟩ := hi
  obtain ⟨hkept', hq⟩ := h w r (insert t ts) hx (Finset.mem_insert_self ..) (hkept.include t) hr
  exact ⟨⟨_, hkept'⟩, hq⟩

/-! ### One operation -/

variable {u i : Nat}

/-- A line that is not taken is in the hand of its thread. -/
theorem keepsLines_send (datagram : Bytes) (wait : Bool) :
    KeepsLines t (u, i) (LogAct.send datagram wait .line)
      fun taken y => y = if taken then (u, i) else (u + 1, i) := by
  refine keepsLines_op ?_
  intro w taken ts hx ht hkept _
  obtain ⟨hu, hi⟩ := Prod.mk.inj hx
  cases taken with
  | true => exact ⟨hkept, hx⟩
  | false =>
      refine ⟨hkept.step ht rfl ?_ ⟨0, ?_⟩, ?_⟩
      · show w.failed + 1 + w.counted + (w.hands t).uncounted =
          w.failed + w.counted + ((w.hands t).uncounted + 1)
        omega
      · show w.counted + w.dropped + w.takenLines + (w.hands t).inFlight =
          w.counted + w.dropped + w.takenLines + (w.hands t).inFlight + 0 * 2 ^ 64
        omega
      · simp [logEffect, LogHand.lines, hu, hi]

/-- `DROPPED` takes it over. -/
theorem keepsLines_count :
    KeepsLines t (u + 1, i) (LogAct.addDropped 1 .line) fun _ y => y = (u, i) := by
  refine keepsLines_op ?_
  intro w r ts hx ht hkept _
  obtain ⟨hu, hi⟩ := Prod.mk.inj hx
  refine ⟨hkept.step ht rfl ?_ ⟨(w.dropped + 1) / 2 ^ 64, ?_⟩, ?_⟩
  · show w.failed + w.counted + (w.hands t).uncounted =
      w.failed + (w.counted + 1) + ((w.hands t).uncounted - 1)
    omega
  · show w.counted + 1 + w.dropped + w.takenLines + (w.hands t).inFlight =
      w.counted + (w.dropped + 1) % 2 ^ 64 + w.takenLines + (w.hands t).inFlight +
        (w.dropped + 1) / 2 ^ 64 * 2 ^ 64
    have := Nat.mod_add_div (w.dropped + 1) (2 ^ 64)
    omega
  · simp [logEffect, LogHand.lines, hu, hi]

/-- All of `DROPPED` goes into the hand. -/
theorem keepsLines_swap :
    KeepsLines t (u, i) LogAct.swapDropped fun dropped y => y = (u, i + dropped) := by
  refine keepsLines_op ?_
  intro w dropped ts hx ht hkept hr
  obtain ⟨hu, hi⟩ := Prod.mk.inj hx
  obtain rfl : dropped = w.dropped := hr
  refine ⟨hkept.step ht rfl ?_ ⟨0, ?_⟩, ?_⟩
  · show w.failed + w.counted + (w.hands t).uncounted =
      w.failed + w.counted + (w.hands t).uncounted
    rfl
  · show w.counted + w.dropped + w.takenLines + (w.hands t).inFlight =
      w.counted + 0 + w.takenLines + ((w.hands t).inFlight + w.dropped) + 0 * 2 ^ 64
    omega
  · simp [logEffect, LogHand.lines, hu, hi]

/-- A report that is taken tells of what is in the hand. -/
theorem keepsLines_report (datagram : Bytes) (wait : Bool) (second : Int) (dropped : Nat) :
    KeepsLines t (u, i + dropped) (LogAct.send datagram wait (.report second dropped))
      fun taken y => y = if taken then (u, i) else (u, i + dropped) := by
  refine keepsLines_op ?_
  intro w taken ts hx ht hkept _
  obtain ⟨hu, hi⟩ := Prod.mk.inj hx
  cases taken with
  | true =>
      refine ⟨hkept.step ht rfl rfl ⟨0, ?_⟩, ?_⟩
      · show w.counted + w.dropped + w.takenLines + (w.hands t).inFlight =
          w.counted + w.dropped + (dropped + w.takenLines) + ((w.hands t).inFlight - dropped) +
            0 * 2 ^ 64
        omega
      · simp [logEffect, LogHand.lines, hu, hi]
  | false =>
      refine ⟨hkept.step ht rfl rfl ⟨0, ?_⟩, ?_⟩
      · show w.counted + w.dropped + w.takenLines + (w.hands t).inFlight =
          w.counted + w.dropped + w.takenLines + (w.hands t).inFlight + 0 * 2 ^ 64
        omega
      · simp [logEffect, LogHand.lines, hu, hi]

/-- `DROPPED` takes it back. -/
theorem keepsLines_restore (second : Int) (dropped : Nat) :
    KeepsLines t (u, i + dropped) (LogAct.addDropped dropped (.report second dropped))
      fun _ y => y = (u, i) := by
  refine keepsLines_op ?_
  intro w r ts hx ht hkept _
  obtain ⟨hu, hi⟩ := Prod.mk.inj hx
  refine ⟨hkept.step ht rfl rfl ⟨(w.dropped + dropped) / 2 ^ 64, ?_⟩, ?_⟩
  · show w.counted + w.dropped + w.takenLines + (w.hands t).inFlight =
      w.counted + (w.dropped + dropped) % 2 ^ 64 + w.takenLines +
        ((w.hands t).inFlight - dropped) + (w.dropped + dropped) / 2 ^ 64 * 2 ^ 64
    have := Nat.mod_add_div (w.dropped + dropped) (2 ^ 64)
    omega
  · simp [logEffect, LogHand.lines, hu, hi]

/-- Who may report is no matter of lines. -/
theorem keepsLines_exchange {x : Nat × Nat} (last now : Int) :
    KeepsLines t x (LogAct.exchangeReported last now) fun _ y => y = x := by
  refine keepsLines_op ?_
  intro w won ts hx ht hkept _
  cases won with
  | true =>
      refine ⟨hkept.step ht rfl rfl ⟨0, ?_⟩, ?_⟩
      · show w.counted + w.dropped + w.takenLines + (w.hands t).inFlight =
          w.counted + w.dropped + w.takenLines + (w.hands t).inFlight + 0 * 2 ^ 64
        omega
      · simpa [logEffect, LogHand.lines] using hx
  | false => exact ⟨hkept, hx⟩

/-! ### One record -/

/-- Programs that give the lines in the hand back. -/
def linesLogic (t : τ) (x : Nat × Nat) : Lib.Logic LogRes :=
  Lib.keeping (logProtocol fun w => ∃ ts, LinesKept ts w) logExec t
    (I := fun w => (w.hands t).lines = x) fun _ _ hr _ h => (congrArg LogHand.lines hr).trans h

theorem linesLogic_accepts {x : Nat × Nat} {α : Type} {p : LogAct α} :
    (linesLogic t x).Accepts p ↔ KeepsLines t x p fun _ y => y = x := by
  refine ⟨?_, ?_⟩
  · exact fun h w hi hx => (h w hi hx).mono fun _ _ _ hy => hy.2
  · exact fun h w hi hx => (h w hi hx).mono fun _ _ _ hy => ⟨trivial, hy⟩

theorem linesLogic_plain (x : Nat × Nat) : PlainOps (linesLogic t x) := by
  have hop : ∀ o : LogOp, (∀ w r, logAnswers t o w r → (logEffect t o r w).hands = w.hands ∧
      (logEffect t o r w).failed = w.failed ∧ (logEffect t o r w).counted = w.counted ∧
      (logEffect t o r w).dropped = w.dropped ∧ (logEffect t o r w).reports = w.reports) →
      (linesLogic t x).Accepts (.op o .ret) := by
    intro o ho
    refine linesLogic_accepts.mpr (keepsLines_op ?_)
    intro w r ts hx _ hkept hr
    obtain ⟨hhands, hfailed, hcounted, hdropped, hreports⟩ := ho w r hr
    exact ⟨hkept.same hhands hfailed hcounted hdropped hreports, hhands ▸ hx⟩
  exact ⟨hop _ fun _ _ _ => ⟨rfl, rfl, rfl, rfl, rfl⟩, hop _ fun _ _ _ => ⟨rfl, rfl, rfl, rfl, rfl⟩,
    fun _ _ => hop _ fun _ _ _ => ⟨rfl, rfl, rfl, rfl, rfl⟩,
    hop _ fun _ _ _ => ⟨rfl, rfl, rfl, rfl, rfl⟩⟩

theorem keepsLines_sendLine (datagram : Bytes) (wait : Bool) :
    KeepsLines t (u, i) (Syslog.sendLine datagram wait) fun _ y => y = (u, i) := by
  refine (keepsLines_send datagram wait).bind ?_
  rintro taken y rfl
  cases taken with
  | true => exact Owns.pure (fun _ _ hr => congrArg LogHand.lines hr) rfl
  | false =>
      refine keepsLines_count.bind ?_
      rintro - y rfl
      exact Owns.pure (fun _ _ hr => congrArg LogHand.lines hr) rfl

theorem keepsLines_reporting (log : Syslog) (now : Int) :
    KeepsLines t (u, i) (log.report now) fun _ y => y = (u, i) := by
  have hret : ∀ x, KeepsLines t x (pure ()) fun _ y => y = x :=
    fun x => Owns.pure (fun _ _ hr => congrArg LogHand.lines hr) rfl
  have hload : KeepsLines t (u, i) LogAct.loadReported fun _ y => y = (u, i) := by
    refine keepsLines_op ?_
    intro w r ts hx _ hkept _
    exact ⟨hkept, hx⟩
  refine hload.bind ?_
  rintro last y rfl
  split
  · exact hret _
  · refine (keepsLines_exchange last now).bind ?_
    rintro won y rfl
    split
    · refine keepsLines_swap.bind ?_
      rintro dropped y rfl
      split
      · -- the report is in flight until it is taken, or its count is put back
        have hheader :=
          accepts_header log (linesLogic_plain (t := t) (u, i + dropped)) LOG_WARNING now
        refine (linesLogic_accepts.mp hheader).bind ?_
        rintro header y rfl
        refine (keepsLines_report _ false now dropped).bind ?_
        rintro taken y rfl
        cases taken with
        | true => exact hret _
        | false => exact keepsLines_restore now dropped
      · have hzero : dropped = 0 := by omega
        subst hzero
        exact hret _
    · exact hret _

theorem keepsLines_sendRecord (log : Syslog) (record : Record) (x : Nat × Nat) :
    KeepsLines t x (log.sendRecord record) fun _ y => y = x :=
  linesLogic_accepts.mp (accepts_sendRecord log (linesLogic_plain x)
    (fun datagram wait => linesLogic_accepts.mpr (keepsLines_sendLine datagram wait))
    (fun now => linesLogic_accepts.mpr (keepsLines_reporting log now)) record)

/-! ### Whole runs -/

/-- Every record leaves in its thread's hand the lines that it found there. -/
theorem lines_respected (log : Syslog) :
    Lib.Respects (logSystem τ log) (logProtocol fun w => ∃ ts, LinesKept ts w)
      fun t _ w₀ _ w => (w.hands t).lines = (w₀.hands t).lines where
  arrive t record w hi := ⟨hi, trivial, fun _ _ => rfl⟩
  env w w' htick hi := by
    obtain ⟨ts, hkept⟩ := hi
    obtain ⟨clock, -, rfl⟩ := htick
    exact ⟨⟨ts, hkept.same rfl rfl rfl rfl rfl⟩, trivial, fun _ => rfl⟩
  calls t record w hi := keepsLines_sendRecord log record (w.hands t).lines w hi rfl

omit [DecidableEq τ] in
theorem start_kept (clock : Int) : LinesKept ∅ (LogWorld.start clock : LogWorld τ) :=
  ⟨fun _ _ => ⟨rfl, rfl⟩, rfl, ⟨0, rfl⟩⟩

/--
**Dropped lines are neither lost nor counted twice.** At every moment of every run, the lines
that were counted as not taken are those in `DROPPED`, those told of in reports that the
daemon took and those swapped out by reports still in flight, up to a multiple of `2 ^ 64`,
the range of `DROPPED`; exactly so while fewer than `2 ^ 64` lines were counted. A line that
was not taken and is not counted yet is in the hand of its thread. A thread that logs nothing
has nothing in its hand.
-/
theorem dropped_lines_kept {log : Syslog} {clock : Int}
    {c : Lib.Config τ (LogWorld τ) Record Unit LogRes} (h : LogRun log clock c) :
    (∃ ts : Finset τ,
      (∀ t, t ∉ ts → (c.world.hands t).uncounted = 0 ∧ (c.world.hands t).inFlight = 0) ∧
      c.world.counted % 2 ^ 64 =
        (c.world.dropped + c.world.takenLines + ∑ t ∈ ts, (c.world.hands t).inFlight) % 2 ^ 64 ∧
      (c.world.counted < 2 ^ 64 → c.world.counted =
        c.world.dropped + c.world.takenLines + ∑ t ∈ ts, (c.world.hands t).inFlight) ∧
      c.world.failed = c.world.counted + ∑ t ∈ ts, (c.world.hands t).uncounted) ∧
    ∀ t, c.running t = none →
      (c.world.hands t).uncounted = 0 ∧ (c.world.hands t).inFlight = 0 := by
  have hstart : ∃ ts, LinesKept ts (LogWorld.start clock : LogWorld τ) := ⟨∅, start_kept clock⟩
  obtain ⟨ts, hkept⟩ := (Lib.sound (lines_respected log) hstart h).inv
  obtain ⟨laps, hlaps⟩ := hkept.counted
  refine ⟨⟨ts, hkept.absent, ?_, ?_, hkept.failed⟩, ?_⟩
  · rw [hlaps, Nat.add_mul_mod_self_right]
  · intro hlt
    have hzero : laps = 0 := by omega
    rw [hlaps, hzero, Nat.zero_mul, Nat.add_zero]
  · intro t hidle
    have hrests := Lib.sound_idle (J := fun (t : τ) (w : LogWorld τ) => (w.hands t).lines = (0, 0))
      (lines_respected log) hstart (fun _ => rfl)
      (fun t w w' hr hJ => (congrArg LogHand.lines hr).trans hJ) (fun _ _ _ hJ => hJ)
      (fun t record w a w' hq hJ => hq.trans hJ) h t
    rw [hidle] at hrests
    exact Prod.mk.inj hrests

/-- A line was dropped, and the report of it is in flight. -/
theorem dropped_lines_kept_sample :
    ∃ c : Lib.Config Nat (LogWorld Nat) Record Unit LogRes, LogRun sampleLog 5 c ∧
      c.world.failed = 1 ∧ c.world.dropped = 0 ∧ (c.world.hands 1).inFlight = 1 ∧
      ∃ ts : Finset Nat, c.world.counted =
        c.world.dropped + c.world.takenLines + ∑ t ∈ ts, (c.world.hands t).inFlight := by
  have hrun : (logMoves [.call 0 sampleRecord, .ops 0 5 false, .ret 0, .call 1 sampleRecord,
      .ops 1 8 true]).map (fun c => (c.world.failed, c.world.counted, c.world.dropped,
        (c.world.hands 1).inFlight)) = some (1, 1, 0, 1) := by decide +kernel
  obtain ⟨c, hmoves, hworld⟩ := Option.map_eq_some_iff.mp hrun
  obtain ⟨hfailed, hcounted, hdropped, hinFlight⟩ : c.world.failed = 1 ∧ c.world.counted = 1 ∧
      c.world.dropped = 0 ∧ (c.world.hands 1).inFlight = 1 := by
    simpa only [Prod.mk.injEq] using hworld
  obtain ⟨⟨ts, -, -, hexact, -⟩, -⟩ := dropped_lines_kept (logMoves_reachable hmoves)
  exact ⟨c, logMoves_reachable hmoves, hfailed, hdropped, hinFlight, ts,
    hexact (by rw [hcounted]; decide)⟩

/-! ### Around the range of the counter -/

/-- The state of a thread that has logged lines of which the daemon took none. -/
structure AllFailed (n : Nat) (t : τ) (w : LogWorld τ) : Prop where
  dropped : w.dropped = n % 2 ^ 64
  failed : w.failed = n
  counted : w.counted = n
  reports : w.reports = []
  hand : w.hands t = ⟨0, 0, none⟩

/-- Writing a header, left alone. -/
theorem header_alone (log : Syslog) (severity : Nat) (now : Int) (w : LogWorld τ) :
    ∃ header stamps, Lib.Alone (logExec t) (log.header severity now) w header
      { w with stamps := stamps } := by
  have hget : Lib.Alone (logExec t) LogAct.getStamp w (w.stamps t) w := .op ⟨rfl, rfl⟩
  by_cases hnow : (w.stamps t).1 ≠ now
  · refine ⟨Syslog.header.prio log severity (log.timestamp now),
      Function.update w.stamps t (now, log.timestamp now), hget.bind ?_⟩
    simp only [if_pos hnow]
    exact ⟨(), _, ⟨trivial, rfl⟩, rfl, rfl⟩
  · refine ⟨Syslog.header.prio log severity (w.stamps t).2, w.stamps, hget.bind ?_⟩
    simp only [if_neg hnow]
    exact ⟨rfl, rfl⟩

/-- A line, left alone with a daemon that does not take it. -/
theorem sendLine_alone {n : Nat} (h : AllFailed n t w) (datagram : Bytes) (wait : Bool) :
    ∃ w', Lib.Alone (logExec t) (Syslog.sendLine datagram wait) w false w' ∧
      AllFailed (n + 1) t w' := by
  refine ⟨_, ⟨false, _, ⟨trivial, rfl⟩, (), _, ⟨trivial, rfl⟩, rfl, rfl⟩, ?_, ?_, ?_, ?_, ?_⟩
  · show (w.dropped + 1) % 2 ^ 64 = (n + 1) % 2 ^ 64
    rw [h.dropped, Nat.mod_add_mod]
  · exact congrArg (· + 1) h.failed
  · exact congrArg (· + 1) h.counted
  · exact h.reports
  · simp [logEffect, h.hand]

/-- A record of one line, left alone with such a daemon. -/
theorem sendRecord_alone (log : Syslog) {n : Nat} (h : AllFailed n t w) :
    ∃ w', Lib.Alone (logExec t) (log.sendRecord sampleRecord) w () w' ∧
      AllFailed (n + 1) t w' := by
  have htime : Lib.Alone (logExec t) LogAct.time w w.clock w := .op ⟨rfl, rfl⟩
  obtain ⟨header, stamps, hheader⟩ := header_alone (t := t) log LOG_INFO w.clock w
  have hstamped : AllFailed n t { w with stamps := stamps } :=
    ⟨h.dropped, h.failed, h.counted, h.reports, h.hand⟩
  obtain ⟨w', hline, hfailed⟩ := sendLine_alone hstamped (header ++ sampleRecord.args) false
  exact ⟨w', htime.bind (hheader.bind (hline.bind ⟨rfl, rfl⟩)), hfailed⟩

theorem failures_reachable (log : Syslog) (clock : Int) (t : τ) (n : Nat) :
    ∃ c, LogRun log clock c ∧ c.running t = none ∧ AllFailed n t c.world := by
  induction n with
  | zero => exact ⟨_, .init, rfl, rfl, rfl, rfl, rfl, rfl⟩
  | succ n ih =>
      obtain ⟨c, hc, hidle, hfailed⟩ := ih
      obtain ⟨w', hrun, hfailed'⟩ := sendRecord_alone log hfailed
      obtain ⟨run, hreach, hidle', -⟩ := Lib.reachable_alone hc hidle _ hrun
      exact ⟨_, hreach, hidle', hfailed'⟩

/-- After `2 ^ 64` lines that the daemon did not take, `DROPPED` is zero again and all of them
are lost: no report tells of them, and none is in flight. -/
theorem dropped_wraps :
    ∃ c : Lib.Config Unit (LogWorld Unit) Record Unit LogRes,
      LogRun sampleLog 5 c ∧ c.world.failed = 2 ^ 64 ∧
      c.world.counted = 2 ^ 64 ∧ c.world.dropped = 0 ∧ c.world.reports = [] ∧
      (∀ t, (c.world.hands t).uncounted = 0 ∧ (c.world.hands t).inFlight = 0) ∧
      c.world.failed ≠
        c.world.dropped + c.world.takenLines + ∑ t, (c.world.hands t).inFlight := by
  obtain ⟨c, hc, -, h⟩ :=
    failures_reachable (τ := Unit) sampleLog 5 () (2 ^ 64)
  have hdropped : c.world.dropped = 0 := by
    rw [h.dropped, Nat.mod_self]
  have htaken : c.world.takenLines = 0 := by
    rw [LogWorld.takenLines, h.reports]
    rfl
  have hhand : ∀ t, c.world.hands t = ⟨0, 0, none⟩ := fun _ => h.hand
  refine ⟨c, hc, h.failed, h.counted, hdropped, h.reports, ?_, ?_⟩
  · intro t
    rw [hhand t]
    exact ⟨rfl, rfl⟩
  · rw [h.failed, hdropped, htaken]
    simp [hhand]

end Lines

end ZipFs.Cli
