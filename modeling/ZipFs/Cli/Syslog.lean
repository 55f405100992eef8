import ZipFs.Index.Basic
import ZipFs.Lib.Logic
import Mathlib.Algebra.GroupWithZero.Nat

/-!
# Records for the syslog daemon

`Syslog::send_record` of `src/main.rs`. Any number of threads log at once. A record is cut
into lines and each line is one datagram; a line that the daemon does not take is counted in
`DROPPED`, and a later record whose line is taken also sends a report of the lines dropped.
The thread that moves `REPORTED` to its own second is the one that reports: it swaps
`DROPPED` to zero, sends, and adds the count again if the report is not taken either.

The threads share the two atomics and the clock. Each operation on an atomic and each
`sendto` is one step, so steps of other threads come between any two of them. The loop of
`send` goes round only while a signal stops the wait, which changes nothing, so a send is one
step with the answer it ends with.

What a datagram is for (`Cause`), the counts of lines, the reports and the hands of the
threads record what happened and are read by no operation. `libc::localtime_r` is a
parameter. The buffer that a thread keeps for its datagrams is cleared before it is used, so
the datagrams are values here.
-/

namespace ZipFs.Cli

open Lib (Protocol Owns)

/-! ## Records and headers -/

/-- `log::Level`. -/
inductive Level where
  | error
  | warn
  | info
  | debug
  | trace
  deriving DecidableEq, Repr

def LOG_ERR : Nat := 3
def LOG_WARNING : Nat := 4
def LOG_INFO : Nat := 6
def LOG_DEBUG : Nat := 7
def LOG_DAEMON : Nat := 3 <<< 3

def Level.severity : Level → Nat
  | .error => LOG_ERR
  | .warn => LOG_WARNING
  | .info => LOG_INFO
  | .debug | .trace => LOG_DEBUG

/-- A `log::Record`: its level and its formatted arguments. -/
structure Record where
  level : Level
  args : Bytes
  deriving DecidableEq, Repr

/-- The fields of `libc::tm` that a stamp shows. -/
structure Tm where
  mon : Int
  mday : Int
  hour : Int
  min : Int
  sec : Int

/-- What is fixed when the daemon's socket is opened. -/
structure Syslog where
  pid : Nat
  localtime : Int → Tm

/-- The bytes of a text. -/
def ascii (text : String) : Bytes := text.toList.flatMap String.utf8EncodeChar

/-- A number, filled up on the left to two characters. -/
def padded (fill : Char) (n : Int) : String :=
  let digits := toString n
  String.ofList (List.replicate (2 - digits.length) fill) ++ digits

def MONTHS : List String :=
  ["Jan", "Feb", "Mar", "Apr", "May", "Jun", "Jul", "Aug", "Sep", "Oct", "Nov", "Dec"]

/-- `usize::try_from`, then `MONTHS.get`, then the first month. -/
def monthName (mon : Int) : String :=
  if 0 ≤ mon then MONTHS.getD mon.toNat "Jan" else "Jan"

/-- Formats the local time as RFC 3164 does, in fifteen bytes. What does not fit is cut. -/
def Syslog.timestamp (log : Syslog) (now : Int) : Bytes :=
  let tm := log.localtime now
  let text := ascii (monthName tm.mon ++ " " ++ padded ' ' tm.mday ++ " " ++ padded '0' tm.hour ++
    ":" ++ padded '0' tm.min ++ ":" ++ padded '0' tm.sec)
  (text ++ List.replicate 15 32).take 15

/-! ## What the threads share -/

/-- What a datagram is, or what a count belongs to. -/
inductive Cause where
  | line
  | report (second : Int) (dropped : Nat)
  deriving DecidableEq, Repr

/-- A report that a thread sent, and whether the daemon took it. -/
structure Report where
  second : Int
  dropped : Nat
  taken : Bool
  deriving DecidableEq, Repr

/-- What a thread has between two of its steps. -/
structure LogHand where
  /-- Lines that were not taken and that it has yet to count. -/
  uncounted : Nat
  /-- Lines it swapped out of `DROPPED` for a report that is not settled yet. -/
  inFlight : Nat
  /-- The second it moved `REPORTED` to, until it sends its report. -/
  claimed : Option Int
  deriving DecidableEq, Repr

structure LogWorld (τ : Type) where
  /-- What `libc::time` returns. -/
  clock : Int
  /-- `DROPPED`, an `AtomicUsize`. -/
  dropped : Nat
  /-- `REPORTED`, an `AtomicI64`. -/
  reported : Int
  /-- `STAMP` of each thread. -/
  stamps : τ → Int × Bytes
  /-- Lines that the daemon did not take. -/
  failed : Nat
  /-- Those of them that were added to `DROPPED`. -/
  counted : Nat
  /-- The reports so far, the newest first. -/
  reports : List Report
  hands : τ → LogHand

/-- The lines told of in reports that the daemon took. -/
def LogWorld.takenLines {τ : Type} (w : LogWorld τ) : Nat :=
  ((w.reports.filter (·.taken)).map (·.dropped)).sum

/-- Nothing logged yet, and the clock somewhere. -/
def LogWorld.start {τ : Type} (clock : Int) : LogWorld τ where
  clock := clock
  dropped := 0
  reported := 0
  stamps := fun _ => (-1, List.replicate 15 0)
  failed := 0
  counted := 0
  reports := []
  hands := fun _ => ⟨0, 0, none⟩

/-! ## The atomic steps -/

inductive LogOp where
  | time
  | getStamp
  | setStamp (second : Int) (stamp : Bytes)
  /-- One datagram, on the socket that waits or on the quick one. -/
  | send (datagram : Bytes) (wait : Bool) (cause : Cause)
  /-- `DROPPED.fetch_add`. -/
  | addDropped (n : Nat) (cause : Cause)
  | loadDropped
  /-- `DROPPED.swap(0)`. -/
  | swapDropped
  | loadReported
  /-- `REPORTED.compare_exchange`, answered with whether it succeeded. -/
  | exchangeReported (last now : Int)

abbrev LogRes : LogOp → Type
  | .time | .loadReported => Int
  | .getStamp => Int × Bytes
  | .send .. | .exchangeReported .. => Bool
  | .loadDropped | .swapDropped => Nat
  | .setStamp .. | .addDropped .. => Unit

/-- What a thread that logs runs. -/
abbrev LogAct : Type → Type := Lib.Prog LogRes

namespace LogAct

def time : LogAct Int := .op .time .ret
def getStamp : LogAct (Int × Bytes) := .op .getStamp .ret
def setStamp (second : Int) (stamp : Bytes) : LogAct Unit := .op (.setStamp second stamp) .ret
def send (datagram : Bytes) (wait : Bool) (cause : Cause) : LogAct Bool :=
  .op (.send datagram wait cause) .ret
def addDropped (n : Nat) (cause : Cause) : LogAct Unit := .op (.addDropped n cause) .ret
def loadDropped : LogAct Nat := .op .loadDropped .ret
def swapDropped : LogAct Nat := .op .swapDropped .ret
def loadReported : LogAct Int := .op .loadReported .ret
def exchangeReported (last now : Int) : LogAct Bool := .op (.exchangeReported last now) .ret

end LogAct

section Steps

variable {τ : Type} [DecidableEq τ]

def LogWorld.setHand (w : LogWorld τ) (t : τ) (hand : LogHand) : LogWorld τ :=
  { w with hands := Function.update w.hands t hand }

/-- The answers an operation can get. Only the daemon has a choice. -/
def logAnswers (t : τ) : (o : LogOp) → LogWorld τ → LogRes o → Prop
  | .time, w, r => r = w.clock
  | .getStamp, w, r => r = w.stamps t
  | .send .., _, _ => True
  | .loadDropped, w, r => r = w.dropped
  | .swapDropped, w, r => r = w.dropped
  | .loadReported, w, r => r = w.reported
  | .exchangeReported last _, w, r => r = decide (w.reported = last)
  | .setStamp .., _, _ | .addDropped .., _, _ => True

/-- What an operation with this answer leaves. -/
def logEffect (t : τ) : (o : LogOp) → LogRes o → LogWorld τ → LogWorld τ
  | .time, _, w | .getStamp, _, w | .loadDropped, _, w | .loadReported, _, w => w
  | .setStamp second stamp, _, w =>
      { w with stamps := Function.update w.stamps t (second, stamp) }
  | .send _ _ .line, true, w => w
  | .send _ _ .line, false, w =>
      let hand := w.hands t
      { w with failed := w.failed + 1 }.setHand t { hand with uncounted := hand.uncounted + 1 }
  | .send _ _ (.report second dropped), taken, w =>
      let hand := w.hands t
      { w with reports := ⟨second, dropped, taken⟩ :: w.reports }.setHand t
        { hand with
          inFlight := if taken then hand.inFlight - dropped else hand.inFlight
          claimed := none }
  | .addDropped n cause, _, w =>
      let hand := w.hands t
      let w := { w with dropped := (w.dropped + n) % 2 ^ 64 }
      match cause with
      | .line =>
          { w with counted := w.counted + n }.setHand t
            { hand with uncounted := hand.uncounted - n }
      | .report .. => w.setHand t { hand with inFlight := hand.inFlight - n }
  | .swapDropped, dropped, w =>
      let hand := w.hands t
      { w with dropped := 0 }.setHand t { hand with inFlight := hand.inFlight + dropped }
  | .exchangeReported _ now, true, w =>
      { w with reported := now }.setHand t { w.hands t with claimed := some now }
  | .exchangeReported .., false, w => w

/-- One atomic step of thread `t`. -/
def logExec (t : τ) (o : LogOp) (w : LogWorld τ) (r : LogRes o) (w' : LogWorld τ) : Prop :=
  logAnswers t o w r ∧ w' = logEffect t o r w

/-- The clock does not go back. -/
def Tick (w w' : LogWorld τ) : Prop := ∃ clock, w.clock ≤ clock ∧ w' = { w with clock := clock }

end Steps

/-! ## Sending a record -/

namespace Syslog

variable (log : Syslog)

/-- Writes the RFC 3164 header, as `syslog(3)` writes it. -/
def header (severity : Nat) (now : Int) : LogAct Bytes := do
  let (second, stamp) ← LogAct.getStamp
  if second ≠ now then
    let stamp := log.timestamp now
    LogAct.setStamp now stamp
    pure (prio stamp)
  else pure (prio stamp)
where
  prio (stamp : Bytes) : Bytes :=
    ascii ("<" ++ toString (LOG_DAEMON ||| severity) ++ ">") ++ stamp ++
      ascii (" zipfs[" ++ toString log.pid ++ "]: ")

/-- Sends a line, and counts it if the daemon did not take it. -/
def sendLine (datagram : Bytes) (wait : Bool) : LogAct Bool := do
  if ← LogAct.send datagram wait .line then pure true
  else
    LogAct.addDropped 1 .line
    pure false

/-- The loop over the lines of a message: whether the daemon took one. -/
def sendLines (header : Bytes) : List Bytes → Bool → Bool → LogAct Bool
  | [], _, sent => pure sent
  | line :: rest, wait, sent => do
      if ← sendLine (header ++ line.filter (· ≠ 0)) wait then sendLines header rest wait true
      -- the daemon did not take this line in a second, so the others do not wait
      else sendLines header rest false sent

/-- The end of `send_record`, once the daemon took a line and lines are known to be dropped. -/
def report (now : Int) : LogAct Unit := do
  let last ← LogAct.loadReported
  if last = now then pure ()
  else
    if ← LogAct.exchangeReported last now then
      let dropped ← LogAct.swapDropped
      if 0 < dropped then
        let header ← log.header LOG_WARNING now
        let text := ascii ("syslog did not take " ++ toString dropped ++ " log lines")
        if ← LogAct.send (header ++ text) false (.report now dropped) then pure ()
        else LogAct.addDropped dropped (.report now dropped)
      else pure ()
    else pure ()

/-- `\n` -/
def NEWLINE : UInt8 := 10

/-- Sends the lines of a message, without their NULs. Most messages go as they are. -/
def sendMessage (header message : Bytes) (wait : Bool) : LogAct Bool :=
  if message.any fun b => b = NEWLINE || b = 0 then
    sendLines header ((message.splitOn NEWLINE).filter (· ≠ [])) wait false
  else if message ≠ [] then sendLine (header ++ message) wait
  else pure false

def sendRecord (record : Record) : LogAct Unit := do
  -- an error waits for a busy daemon
  let wait := record.level = .error
  let now ← LogAct.time
  let header ← log.header record.level.severity now
  let sent ← sendMessage header record.args wait
  -- the daemon took a line, so it can probably take the report too
  if !sent then pure ()
  else
    let dropped ← LogAct.loadDropped
    if dropped = 0 then pure () else log.report now

end Syslog

/-- Any number of threads that log records. -/
def logSystem (τ : Type) [DecidableEq τ] (log : Syslog) :
    Lib.System τ (LogWorld τ) Record Unit LogRes where
  exec := logExec
  env := Tick
  arrive := fun _ _ w => w
  prog := log.sendRecord

abbrev LogRun {τ : Type} [DecidableEq τ] (log : Syslog) (clock : Int)
    (c : Lib.Config τ (LogWorld τ) Record Unit LogRes) : Prop :=
  Lib.Reachable (logSystem τ log) (.start clock) c

variable {τ : Type}

/-! ## What a record is sent with -/

section Walk

variable {L : Lib.Logic LogRes} (log : Syslog)

/-- The operations that neither send nor change what the threads share. -/
structure PlainOps (L : Lib.Logic LogRes) : Prop where
  time : L.Accepts LogAct.time
  getStamp : L.Accepts LogAct.getStamp
  setStamp : ∀ second stamp, L.Accepts (LogAct.setStamp second stamp)
  loadDropped : L.Accepts LogAct.loadDropped

theorem accepts_header (hops : PlainOps L) (severity : Nat) (now : Int) :
    L.Accepts (log.header severity now) := by
  refine L.seq hops.getStamp ?_
  intro cell
  dsimp only
  split
  · exact L.seq (hops.setStamp _ _) fun _ => L.pure trivial
  · exact L.pure trivial

theorem accepts_sendLines (hline : ∀ datagram wait, L.Accepts (Syslog.sendLine datagram wait))
    (header : Bytes) (lines : List Bytes) (wait sent : Bool) :
    L.Accepts (Syslog.sendLines header lines wait sent) := by
  induction lines generalizing wait sent with
  | nil => exact L.pure trivial
  | cons line rest ih =>
      refine L.seq (hline _ wait) ?_
      intro taken
      cases taken with
      | true => exact ih wait true
      | false => exact ih false sent

theorem accepts_sendMessage (hline : ∀ datagram wait, L.Accepts (Syslog.sendLine datagram wait))
    (header message : Bytes) (wait : Bool) :
    L.Accepts (Syslog.sendMessage header message wait) := by
  unfold Syslog.sendMessage
  split
  · exact accepts_sendLines hline _ _ _ _
  · split
    · exact hline _ _
    · exact L.pure trivial

/-- A record is sent by plain operations, by its lines and by a report. -/
theorem accepts_sendRecord (hops : PlainOps L)
    (hline : ∀ datagram wait, L.Accepts (Syslog.sendLine datagram wait))
    (hreport : ∀ now, L.Accepts (log.report now)) (record : Record) :
    L.Accepts (log.sendRecord record) := by
  refine L.seq hops.time fun now => L.seq (accepts_header log hops _ now) fun header => ?_
  refine L.seq (accepts_sendMessage hline header _ _) ?_
  intro sent
  split
  · exact L.pure trivial
  · refine L.seq hops.loadDropped fun dropped => ?_
    split
    · exact L.pure trivial
    · exact hreport now

end Walk

/-! ## What the threads keep -/

/-- Nobody touches the hand of another thread. -/
def logProtocol (inv : LogWorld τ → Prop) : Protocol τ (LogWorld τ) where
  inv := inv
  rely t w w' := w'.hands t = w.hands t
  grow _ _ := True
  rely_refl _ _ := rfl
  rely_trans _ _ _ _ h h' := h'.trans h
  grow_refl _ := trivial
  grow_trans _ _ _ _ _ := trivial
  grow_of_rely _ _ _ _ := trivial

section Steps

variable [DecidableEq τ] {t : τ} {w w' : LogWorld τ}

@[simp] theorem LogWorld.setHand_self (w : LogWorld τ) (t : τ) (hand : LogHand) :
    (w.setHand t hand).hands t = hand :=
  Function.update_self ..

/-- A step changes its own thread's hand only. -/
theorem logEffect_others {o : LogOp} {r : LogRes o} {u : τ} (hu : u ≠ t) :
    (logEffect t o r w).hands u = w.hands u := by
  have hset : ∀ (w : LogWorld τ) hand, (w.setHand t hand).hands u = w.hands u :=
    fun _ _ => Function.update_of_ne hu ..
  cases o with
  | time | getStamp | setStamp | loadDropped | loadReported => rfl
  | swapDropped => exact hset ..
  | send datagram wait cause =>
      cases cause with
      | line =>
          cases r with
          | true => rfl
          | false => exact hset ..
      | report => exact hset ..
  | addDropped n cause =>
      cases cause with
      | line => exact hset ..
      | report => exact hset ..
  | exchangeReported last now =>
      cases r with
      | true => exact hset ..
      | false => rfl

/-- One operation of a thread, among others that keep the same invariant. -/
theorem owns_op {η : Type} {inv : LogWorld τ → Prop} (own : LogHand → η) {x : η} {o : LogOp}
    {exec : τ → (o : LogOp) → LogWorld τ → LogRes o → LogWorld τ → Prop}
    {Q : LogRes o → η → Prop} (hexec : ∀ w r w', exec t o w r w' → logExec t o w r w')
    (h : ∀ w r w', inv w → own (w.hands t) = x → exec t o w r w' → logAnswers t o w r →
      inv (logEffect t o r w) ∧ Q r (own ((logEffect t o r w).hands t))) :
    Owns (logProtocol inv) exec t (fun w => own (w.hands t)) x (.op o .ret) Q := by
  refine Owns.op (fun w w' hr => congrArg own hr) ?_
  intro w hi hx r w' he
  obtain ⟨hr, rfl⟩ := hexec w r w' he
  obtain ⟨hi', hq⟩ := h w r _ hi hx he hr
  exact ⟨hi', trivial, fun u hu => logEffect_others hu, hq⟩

end Steps

/-! ## Runs that can be computed -/

section Sample

variable [DecidableEq τ]

/-- The answers of a daemon that takes everything, or nothing. -/
def daemon (takes : Bool) (t : τ) : (o : LogOp) → LogWorld τ → LogRes o
  | .time, w => w.clock
  | .getStamp, w => w.stamps t
  | .send .., _ => takes
  | .loadDropped, w => w.dropped
  | .swapDropped, w => w.dropped
  | .loadReported, w => w.reported
  | .exchangeReported last _, w => decide (w.reported = last)
  | .setStamp .., _ | .addDropped .., _ => ()

omit [DecidableEq τ] in
theorem daemon_answers (takes : Bool) (t : τ) (o : LogOp) (w : LogWorld τ) :
    logAnswers t o w (daemon takes t o w) := by
  cases o <;> simp [logAnswers, daemon]

def daemonStep (takes : Bool) (t : τ) (o : LogOp) (w : LogWorld τ) :
    Option (LogRes o × LogWorld τ) :=
  some (daemon takes t o w, logEffect t o (daemon takes t o w) w)

theorem daemonStep_exec {takes : Bool} {t : τ} {o : LogOp} {w w' : LogWorld τ} {r : LogRes o}
    (h : daemonStep takes t o w = some (r, w')) : logExec t o w r w' := by
  obtain ⟨rfl, rfl⟩ := Prod.mk.inj (Option.some.inj h)
  exact ⟨daemon_answers takes t o w, rfl⟩

/-- The next second. -/
def nextSecond (w : LogWorld τ) : LogWorld τ := { w with clock := w.clock + 1 }

omit [DecidableEq τ] in
theorem nextSecond_tick (w : LogWorld τ) : Tick w (nextSecond w) := ⟨w.clock + 1, by omega, rfl⟩

def sampleLog : Syslog := ⟨1, fun _ => ⟨0, 1, 0, 0, 0⟩⟩

def sampleRecord : Record := ⟨.info, [120]⟩

/-- The moves of threads that log the sample record. -/
abbrev LogMove := Lib.Move Nat Record Bool

/-- Where the moves lead, from second 5 on. -/
def logMoves (moves : List LogMove) : Option (Lib.Config Nat (LogWorld Nat) Record Unit LogRes) :=
  Lib.runMoves (logSystem Nat sampleLog) daemonStep nextSecond moves
    (Lib.initial (LogWorld.start 5))

theorem logMoves_reachable {moves : List LogMove}
    {c : Lib.Config Nat (LogWorld Nat) Record Unit LogRes} (h : logMoves moves = some c) :
    LogRun sampleLog 5 c :=
  Lib.reachable_runMoves (fun _ _ _ _ _ _ => daemonStep_exec) nextSecond_tick .init h

end Sample

end ZipFs.Cli
