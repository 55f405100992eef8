import ZipFs.Cli.Syslog
import ZipFs.Index.Path
import ZipFs.Lib.Order

/-!
# What the syslog daemon gets

A thread keeps the stamp of the last second that it formatted, because `localtime_r` takes a
lock. Nobody sees that it does: every datagram carries the stamp of the second in which its
record was logged. And whatever the daemon takes or refuses, a record comes to one datagram for
each of its lines, in order and with nothing in it that a daemon would cut a message at.

A cache that no second was put into yet says that it is of second -1. The clock must not have
been there.
-/

namespace ZipFs.Cli

open Lib (Answered)

variable {τ : Type}

/-! ## Text without line ends -/

/-- Neither a NUL nor a newline. -/
def Plain (bytes : Bytes) : Prop := 0 ∉ bytes ∧ Syslog.NEWLINE ∉ bytes

theorem Plain.append {xs ys : Bytes} (hx : Plain xs) (hy : Plain ys) : Plain (xs ++ ys) := by
  refine ⟨?_, ?_⟩
  · intro h
    exact (List.mem_append.mp h).elim hx.1 hy.1
  · intro h
    exact (List.mem_append.mp h).elim hx.2 hy.2

theorem Plain.take {xs : Bytes} (h : Plain xs) (n : Nat) : Plain (xs.take n) :=
  ⟨fun h' => h.1 (List.mem_of_mem_take h'), fun h' => h.2 (List.mem_of_mem_take h')⟩

/-- Characters from the space on, of one byte each. -/
def Printable (text : String) : Prop :=
  (text.toList.all fun c => Nat.ble 32 c.toNat && Nat.ble c.toNat 126) = true

instance (text : String) : Decidable (Printable text) := instDecidableEqBool _ _

theorem printable_iff {text : String} :
    Printable text ↔ ∀ c ∈ text.toList, 32 ≤ c.toNat ∧ c.toNat ≤ 126 := by
  simp only [Printable, List.all_eq_true, Bool.and_eq_true, Nat.ble_eq]

theorem Printable.append {s t : String} (hs : Printable s) (ht : Printable t) :
    Printable (s ++ t) := by
  rw [printable_iff] at *
  intro c hc
  rw [String.toList_append] at hc
  exact (List.mem_append.mp hc).elim (hs c) (ht c)

theorem printable_nat (n : Nat) : Printable (toString n) := by
  rw [printable_iff]
  intro c hc
  have hdigit : c.isDigit := by
    refine Nat.isDigit_of_mem_toDigits (n := n) (b := 10) (by decide) (by decide) ?_
    simpa [toString, Nat.repr] using hc
  simp only [Char.isDigit, Bool.and_eq_true, decide_eq_true_eq, UInt32.le_iff_toNat_le] at hdigit
  have h1 : 48 ≤ c.toNat := hdigit.1
  have h2 : c.toNat ≤ 57 := hdigit.2
  omega

theorem printable_int (n : Int) : Printable (toString n) := by
  cases n with
  | ofNat n => exact printable_nat n
  | negSucc n => exact Printable.append (s := "-") (by decide) (printable_nat (n + 1))

theorem printable_padded (fill : Char) (hfill : 32 ≤ fill.toNat ∧ fill.toNat ≤ 126) (n : Int) :
    Printable (padded fill n) := by
  refine Printable.append ?_ (printable_int n)
  rw [printable_iff]
  intro c hc
  rw [String.toList_ofList] at hc
  rw [List.eq_of_mem_replicate hc]
  exact hfill

theorem printable_monthName (mon : Int) : Printable (monthName mon) := by
  unfold monthName
  split
  · rw [List.getD_eq_getElem?_getD]
    cases hm : MONTHS[mon.toNat]? with
    | none => exact (by decide : Printable "Jan")
    | some name =>
        have hall : (MONTHS.all fun name => decide (Printable name)) = true := by decide
        exact of_decide_eq_true (List.all_eq_true.mp hall name (List.mem_of_getElem? hm))
  · decide

theorem Printable.plain {text : String} (h : Printable text) : Plain (ascii text) := by
  have hbyte : ∀ b ∈ ascii text, 32 ≤ b.toNat := by
    intro b hb
    obtain ⟨c, hc, hb⟩ := List.mem_flatMap.mp hb
    obtain ⟨hlo, hhi⟩ := printable_iff.mp h c hc
    have hsize : c.utf8Size = 1 := by
      have hval : c.val.toNat ≤ 127 := by
        have : c.val.toNat = c.toNat := rfl
        omega
      unfold Char.utf8Size
      rw [if_pos]
      exact UInt32.le_iff_toNat_le.mpr hval
    rw [String.utf8EncodeChar_eq_singleton hsize, List.mem_singleton] at hb
    have hval : c.val.toNat = c.toNat := rfl
    rw [hb, UInt32.toNat_toUInt8, hval, Nat.mod_eq_of_lt (by omega)]
    exact hlo
  refine ⟨fun h => ?_, fun h => ?_⟩
  · exact absurd (hbyte _ h) (by decide)
  · exact absurd (hbyte _ h) (by decide)

/-! ## Headers and lines -/

/-- The header with the stamp of this second. -/
def Syslog.stamped (log : Syslog) (severity : Nat) (now : Int) : Bytes :=
  Syslog.header.prio log severity (log.timestamp now)

theorem Syslog.timestamp_plain (log : Syslog) (now : Int) : Plain (log.timestamp now) := by
  have hmonth := printable_monthName (log.localtime now).mon
  have htext := ((((((((hmonth.append (t := " ") (by decide)).append
    (printable_padded ' ' (by decide) (log.localtime now).mday)).append
    (t := " ") (by decide)).append
    (printable_padded '0' (by decide) (log.localtime now).hour)).append
    (t := ":") (by decide)).append
    (printable_padded '0' (by decide) (log.localtime now).min)).append
    (t := ":") (by decide)).append
    (printable_padded '0' (by decide) (log.localtime now).sec)).plain
  unfold timestamp
  refine Plain.take (Plain.append htext ⟨?_, ?_⟩) 15
  · simp
  · simp [NEWLINE]

theorem Syslog.stamped_plain (log : Syslog) (severity : Nat) (now : Int) :
    Plain (log.stamped severity now) := by
  have hprio : Printable ("<" ++ toString (LOG_DAEMON ||| severity) ++ ">") :=
    (Printable.append (s := "<") (by decide) (printable_nat _)).append (by decide)
  have hname : Printable (" zipfs[" ++ toString log.pid ++ "]: ") :=
    (Printable.append (s := " zipfs[") (by decide) (printable_nat _)).append (by decide)
  exact (hprio.plain.append (log.timestamp_plain now)).append hname.plain

/-- The lines of a message that are not empty, without their NULs. -/
def messageLines (message : Bytes) : List Bytes :=
  ((message.splitOn Syslog.NEWLINE).filter (· ≠ [])).map fun line => line.filter (· ≠ 0)

theorem messageLines_plain {message line : Bytes} (h : line ∈ messageLines message) :
    Plain line := by
  obtain ⟨piece, hpiece, rfl⟩ := List.mem_map.mp h
  refine ⟨by simp, fun hmem => ?_⟩
  exact sep_not_mem_of_mem_splitOn (List.mem_filter.mp hpiece).1 (List.mem_filter.mp hmem).1

/-- A message with nothing to take out is a line. -/
theorem messageLines_whole {message : Bytes} (h : Plain message) (hne : message ≠ []) :
    messageLines message = [message] := by
  have hnul : message.filter (· ≠ 0) = message := by
    rw [List.filter_eq_self]
    intro b hb
    simp only [ne_eq, decide_eq_true_eq]
    exact fun heq => h.1 (heq ▸ hb)
  rw [messageLines, List.splitOn_eq_singleton h.2, List.filter_cons_of_pos (by simpa using hne)]
  simp only [List.filter_nil, List.map_cons, List.map_nil, hnul]

/-! ## What a record performs -/

/-- A datagram, whether its send waits for a busy daemon, and whether the daemon took it. -/
structure Sent where
  datagram : Bytes
  wait : Bool
  taken : Bool

def LogOp.sent : Answered LogRes → Option Sent
  | ⟨.send datagram wait _, taken⟩ => some ⟨datagram, wait, taken⟩
  | _ => none

/-- The datagrams among some operations. -/
def sends (xs : List (Answered LogRes)) : List Sent := xs.filterMap LogOp.sent

theorem sends_append (xs ys : List (Answered LogRes)) : sends (xs ++ ys) = sends xs ++ sends ys :=
  List.filterMap_append

/-- Once a send has waited in vain, no other waits. -/
def Patient : Bool → List Sent → Prop
  | _, [] => True
  | wait, x :: xs => x.wait = wait ∧ Patient (wait && x.taken) xs

theorem Patient.false {xs : List Sent} (h : Patient false xs) : ∀ x ∈ xs, x.wait = false := by
  induction xs with
  | nil => simp
  | cons x xs ih =>
      obtain ⟨hx, h⟩ := h
      exact List.forall_mem_cons.mpr ⟨hx, ih (by simpa using h)⟩

/-- What was sent in vain although it waited. -/
def inVain (xs : List Sent) : List Sent := xs.filter fun x => x.wait && !x.taken

theorem Patient.inVain {wait : Bool} {xs : List Sent} (h : Patient wait xs) :
    (inVain xs).length ≤ 1 := by
  induction xs generalizing wait with
  | nil => simp [Cli.inVain]
  | cons x xs ih =>
      obtain ⟨hx, h⟩ := h
      cases hv : x.wait && !x.taken with
      | false =>
          rw [Cli.inVain, List.filter_cons_of_neg (by simp [hv])]
          exact ih h
      | true =>
          simp only [Bool.and_eq_true, Bool.not_eq_true'] at hv
          have hrest : Cli.inVain xs = [] := by
            rw [Cli.inVain, List.filter_eq_nil_iff]
            intro y hy
            rw [hv.2, Bool.and_false] at h
            simp [h.false y hy]
          rw [Cli.inVain, List.filter_cons_of_pos (by simp [hv])]
          exact Nat.succ_le_succ (by rw [← Cli.inVain, hrest]; simp)

/-- A cache that holds what it says. -/
def StampOk (log : Syslog) (cell : Int × Bytes) : Prop :=
  cell.1 = -1 ∨ cell.2 = log.timestamp cell.1

/-- The caches among some answers held what they said. -/
def StampsOk (log : Syslog) (xs : List (Answered LogRes)) : Prop :=
  ∀ cell, (⟨.getStamp, cell⟩ : Answered LogRes) ∈ xs → StampOk log cell

section Traces

variable {log : Syslog} {xs : List (Answered LogRes)}

theorem StampsOk.left {ys : List (Answered LogRes)} (h : StampsOk log (xs ++ ys)) :
    StampsOk log xs := fun cell hc => h cell (List.mem_append_left _ hc)

theorem StampsOk.right {ys : List (Answered LogRes)} (h : StampsOk log (xs ++ ys)) :
    StampsOk log ys := fun cell hc => h cell (List.mem_append_right _ hc)

theorem traced_header {severity : Nat} {now : Int} {header : Bytes}
    (h : (log.header severity now).Traced xs header) (hs : StampsOk log xs) (hnow : 0 ≤ now) :
    sends xs = [] ∧ header = log.stamped severity now := by
  obtain ⟨ys, zs, cell, rfl, hget, hrest⟩ := Lib.Prog.traced_bind.mp h
  obtain rfl := Lib.Prog.traced_op.mp hget
  dsimp only at hrest
  split at hrest
  · obtain ⟨us, vs, u, rfl, hset, hret⟩ := Lib.Prog.traced_bind.mp hrest
    obtain rfl := Lib.Prog.traced_op.mp hset
    obtain ⟨rfl, rfl⟩ := Lib.Prog.traced_pure.mp hret
    exact ⟨rfl, rfl⟩
  · rename_i hsecond
    obtain ⟨rfl, rfl⟩ := Lib.Prog.traced_pure.mp hrest
    obtain rfl : cell.1 = now := not_not.mp hsecond
    refine ⟨rfl, ?_⟩
    -- the clock was never at the second of an empty cache
    rcases hs cell (by simp) with hempty | hstamp
    · omega
    · rw [Syslog.stamped, ← hstamp]

theorem traced_sendLine {datagram : Bytes} {wait taken : Bool}
    (h : (Syslog.sendLine datagram wait).Traced xs taken) :
    sends xs = [⟨datagram, wait, taken⟩] := by
  obtain ⟨ys, zs, r, rfl, hsend, hrest⟩ := Lib.Prog.traced_bind.mp h
  obtain rfl := Lib.Prog.traced_op.mp hsend
  cases r with
  | true =>
      obtain ⟨rfl, rfl⟩ := Lib.Prog.traced_pure.mp hrest
      rfl
  | false =>
      obtain ⟨us, vs, u, rfl, hadd, hret⟩ := Lib.Prog.traced_bind.mp hrest
      obtain rfl := Lib.Prog.traced_op.mp hadd
      obtain ⟨rfl, rfl⟩ := Lib.Prog.traced_pure.mp hret
      rfl

theorem traced_sendLines {header : Bytes} {lines : List Bytes} {wait sent sent' : Bool}
    (h : (Syslog.sendLines header lines wait sent).Traced xs sent') :
    (sends xs).map Sent.datagram = lines.map (fun line => header ++ line.filter (· ≠ 0)) ∧
      Patient wait (sends xs) := by
  induction lines generalizing xs wait sent with
  | nil =>
      obtain ⟨rfl, -⟩ := Lib.Prog.traced_pure.mp h
      exact ⟨rfl, trivial⟩
  | cons line rest ih =>
      obtain ⟨ys, zs, taken, rfl, hline, hrest⟩ := Lib.Prog.traced_bind.mp h
      rw [sends_append, traced_sendLine hline]
      cases taken with
      | true =>
          obtain ⟨hmap, hpatient⟩ := ih hrest
          exact ⟨by simp [hmap], rfl, by simpa using hpatient⟩
      | false =>
          obtain ⟨hmap, hpatient⟩ := ih hrest
          exact ⟨by simp [hmap], rfl, by simpa using hpatient⟩

theorem traced_sendMessage {header message : Bytes} {wait sent : Bool}
    (h : (Syslog.sendMessage header message wait).Traced xs sent) :
    (sends xs).map Sent.datagram = (messageLines message).map (header ++ ·) ∧
      Patient wait (sends xs) := by
  unfold Syslog.sendMessage at h
  split at h
  · obtain ⟨hmap, hpatient⟩ := traced_sendLines h
    refine ⟨?_, hpatient⟩
    rw [hmap, messageLines, List.map_map]
    rfl
  · rename_i hany
    have hplain : Plain message := by
      simp only [List.any_eq_true, Bool.or_eq_true, decide_eq_true_eq, not_exists, not_and,
        not_or] at hany
      exact ⟨fun hz => (hany 0 hz).2 rfl, fun hn => (hany _ hn).1 rfl⟩
    split at h
    · rename_i hne
      rw [traced_sendLine h, messageLines_whole hplain hne]
      exact ⟨rfl, rfl, trivial⟩
    · rename_i hne
      obtain ⟨rfl, -⟩ := Lib.Prog.traced_pure.mp h
      obtain rfl : message = [] := not_not.mp hne
      exact ⟨by simp [sends, messageLines], trivial⟩

/-- What a report of dropped lines says. -/
def reportText (dropped : Nat) : Bytes :=
  ascii ("syslog did not take " ++ toString dropped ++ " log lines")

theorem traced_report {now : Int} (h : (log.report now).Traced xs ()) (hs : StampsOk log xs)
    (hnow : 0 ≤ now) :
    sends xs = [] ∨ ∃ dropped taken, 0 < dropped ∧
      sends xs = [⟨log.stamped LOG_WARNING now ++ reportText dropped, false, taken⟩] := by
  obtain ⟨ys, zs, last, rfl, hload, hloaded⟩ := Lib.Prog.traced_bind.mp h
  obtain rfl := Lib.Prog.traced_op.mp hload
  split at hloaded
  · obtain ⟨rfl, -⟩ := Lib.Prog.traced_pure.mp hloaded
    exact .inl rfl
  obtain ⟨ys, zs, won, rfl, hcas, hclaimed⟩ := Lib.Prog.traced_bind.mp hloaded
  obtain rfl := Lib.Prog.traced_op.mp hcas
  cases won with
  | false =>
      obtain ⟨rfl, -⟩ := Lib.Prog.traced_pure.mp hclaimed
      exact .inl rfl
  | true =>
      obtain ⟨ys, zs, dropped, rfl, hswap, hswapped⟩ := Lib.Prog.traced_bind.mp hclaimed
      obtain rfl := Lib.Prog.traced_op.mp hswap
      split at hswapped
      · rename_i hpos
        obtain ⟨ys, zs, header, rfl, hheader, hrest⟩ := Lib.Prog.traced_bind.mp hswapped
        obtain ⟨hnone, rfl⟩ := traced_header hheader hs.right.right.right.left hnow
        obtain ⟨us, vs, taken, rfl, hsend, hsent⟩ := Lib.Prog.traced_bind.mp hrest
        obtain rfl := Lib.Prog.traced_op.mp hsend
        have hafter : sends vs = [] := by
          cases taken with
          | true =>
              obtain ⟨rfl, -⟩ := Lib.Prog.traced_pure.mp hsent
              rfl
          | false =>
              obtain rfl := Lib.Prog.traced_op.mp hsent
              rfl
        right
        refine ⟨dropped, taken, hpos, ?_⟩
        simp only [sends_append, hnone, hafter]
        rfl
      · obtain ⟨rfl, -⟩ := Lib.Prog.traced_pure.mp hswapped
        exact .inl rfl

/-- What a record comes to that is logged in this second. -/
structure RecordSent (log : Syslog) (record : Record) (now : Int) (xs : List (Answered LogRes)) :
    Prop where
  /-- One datagram for each line, and at most one report behind them. -/
  lines : ∃ body reports, sends xs = body ++ reports ∧
    body.map Sent.datagram =
      (messageLines record.args).map (log.stamped record.level.severity now ++ ·) ∧
    (reports = [] ∨ ∃ dropped taken, 0 < dropped ∧
      reports = [⟨log.stamped LOG_WARNING now ++ reportText dropped, false, taken⟩])
  plain : ∀ x ∈ sends xs, Plain x.datagram
  /-- Only an error waits for a busy daemon, and not again once it has waited in vain. -/
  waits : ∀ x ∈ sends xs, x.wait = true → record.level = .error
  once : (inVain (sends xs)).length ≤ 1

/-- A record, put together from its lines and its report. -/
theorem RecordSent.mk_of {record : Record} {now : Int} {body reports : List Sent}
    (hxs : sends xs = body ++ reports)
    (hbody : body.map Sent.datagram =
      (messageLines record.args).map (log.stamped record.level.severity now ++ ·))
    (hpatient : Patient (decide (record.level = .error)) body)
    (hreports : reports = [] ∨ ∃ dropped taken, 0 < dropped ∧
      reports = [⟨log.stamped LOG_WARNING now ++ reportText dropped, false, taken⟩]) :
    RecordSent log record now xs := by
  have hquick : ∀ x ∈ reports, x.wait = false ∧ Plain x.datagram := by
    intro x hx
    rcases hreports with rfl | ⟨dropped, taken, -, rfl⟩
    · exact absurd hx List.not_mem_nil
    · obtain rfl := List.mem_singleton.mp hx
      have htext : Printable ("syslog did not take " ++ toString dropped ++ " log lines") :=
        (Printable.append (s := "syslog did not take ") (by decide) (printable_nat _)).append
          (by decide)
      exact ⟨rfl, (log.stamped_plain _ _).append htext.plain⟩
  have hvain : inVain reports = [] := by
    rw [inVain, List.filter_eq_nil_iff]
    intro x hx
    simp [(hquick x hx).1]
  refine ⟨⟨body, reports, hxs, hbody, hreports⟩, ?_, ?_, ?_⟩
  · intro x hx
    rw [hxs] at hx
    rcases List.mem_append.mp hx with hx | hx
    · have hmem := List.mem_map_of_mem (f := Sent.datagram) hx
      rw [hbody] at hmem
      obtain ⟨line, hline, heq⟩ := List.mem_map.mp hmem
      rw [← heq]
      exact (log.stamped_plain _ _).append (messageLines_plain hline)
    · exact (hquick x hx).2
  · intro x hx hwait
    rw [hxs] at hx
    by_contra hlevel
    rcases List.mem_append.mp hx with hx | hx
    · rw [decide_eq_false hlevel] at hpatient
      exact absurd (hpatient.false x hx) (by simp [hwait])
    · exact absurd (hquick x hx).1 (by simp [hwait])
  · have hsplit : inVain (sends xs) = inVain body ++ inVain reports := by
      rw [hxs, inVain, List.filter_append]
      rfl
    rw [hsplit, hvain, List.append_nil]
    exact hpatient.inVain

theorem traced_sendRecord {record : Record} (h : (log.sendRecord record).Traced xs ())
    (hs : StampsOk log xs) :
    ∃ now, (⟨.time, now⟩ : Answered LogRes) ∈ xs ∧ (0 ≤ now → RecordSent log record now xs) := by
  obtain ⟨ys, zs, now, rfl, htime, hrest⟩ := Lib.Prog.traced_bind.mp h
  obtain rfl := Lib.Prog.traced_op.mp htime
  refine ⟨now, by simp, fun hnow => ?_⟩
  obtain ⟨ys, zs, header, rfl, hheader, hafter⟩ := Lib.Prog.traced_bind.mp hrest
  obtain ⟨hnone, rfl⟩ := traced_header hheader hs.right.left hnow
  obtain ⟨us, vs, sent, rfl, hmessage, hend⟩ := Lib.Prog.traced_bind.mp hafter
  obtain ⟨hlines, hpatient⟩ := traced_sendMessage hmessage
  have hreports : sends vs = [] ∨ ∃ dropped taken, 0 < dropped ∧
      sends vs = [⟨log.stamped LOG_WARNING now ++ reportText dropped, false, taken⟩] := by
    cases sent with
    | false =>
        obtain ⟨rfl, -⟩ := Lib.Prog.traced_pure.mp hend
        exact .inl rfl
    | true =>
        obtain ⟨ys', ws, dropped, rfl, hload, hlast⟩ := Lib.Prog.traced_bind.mp hend
        obtain rfl := Lib.Prog.traced_op.mp hload
        split at hlast
        · obtain ⟨rfl, -⟩ := Lib.Prog.traced_pure.mp hlast
          exact .inl rfl
        · have hreport := traced_report hlast hs.right.right.right.right hnow
          -- the look at the count before it sends nothing
          exact hreport
  refine .mk_of ?_ hlines hpatient hreports
  simp only [sends_append, hnone]
  rfl

end Traces

/-! ## Every cache holds what it says -/

/-- A cache is filled with the stamp of its second. -/
def LogOp.Stamps (log : Syslog) (o : LogOp) : Prop :=
  ∀ second stamp, o = .setStamp second stamp → stamp = log.timestamp second

section Caches

variable {log : Syslog}

abbrev stampLogic (log : Syslog) : Lib.Logic LogRes := Lib.always (LogOp.Stamps log)

theorem stamps_op {o : LogOp} (h : ∀ second stamp, o ≠ .setStamp second stamp) :
    (stampLogic log).Accepts (.op o .ret) :=
  Lib.always_op fun second stamp heq => absurd heq (h second stamp)

theorem stamps_header (severity : Nat) (now : Int) :
    (stampLogic log).Accepts (log.header severity now) := by
  refine Lib.Logic.seq (stamps_op (by simp)) ?_
  intro cell
  dsimp only
  split
  · refine Lib.Logic.seq (Lib.always_op ?_) fun _ => (stampLogic log).pure trivial
    intro second stamp heq
    obtain ⟨rfl, rfl⟩ := LogOp.setStamp.inj heq
    rfl
  · exact (stampLogic log).pure trivial

theorem stamps_sendLine (datagram : Bytes) (wait : Bool) :
    (stampLogic log).Accepts (Syslog.sendLine datagram wait) := by
  refine Lib.Logic.seq (stamps_op (by simp)) ?_
  intro taken
  split
  · exact (stampLogic log).pure trivial
  · exact Lib.Logic.seq (stamps_op (by simp)) fun _ => (stampLogic log).pure trivial

theorem stamps_report (now : Int) : (stampLogic log).Accepts (log.report now) := by
  refine Lib.Logic.seq (stamps_op (by simp)) fun last => ?_
  split
  · exact (stampLogic log).pure trivial
  refine Lib.Logic.seq (stamps_op (by simp)) fun won => ?_
  split
  · refine Lib.Logic.seq (stamps_op (by simp)) fun dropped => ?_
    split
    · refine Lib.Logic.seq (stamps_header _ _) fun header => ?_
      refine Lib.Logic.seq (stamps_op (by simp)) fun taken => ?_
      split
      · exact (stampLogic log).pure trivial
      · exact stamps_op (by simp)
    · exact (stampLogic log).pure trivial
  · exact (stampLogic log).pure trivial

theorem stamps_sendRecord (record : Record) :
    (stampLogic log).Accepts (log.sendRecord record) := by
  refine Lib.Logic.seq (stamps_op (by simp)) fun now => ?_
  refine Lib.Logic.seq (stamps_header _ _) fun header => ?_
  refine Lib.Logic.seq (accepts_sendMessage stamps_sendLine _ _ _) fun sent => ?_
  split
  · exact (stampLogic log).pure trivial
  · refine Lib.Logic.seq (stamps_op (by simp)) fun dropped => ?_
    split
    · exact (stampLogic log).pure trivial
    · exact stamps_report now

variable [DecidableEq τ] {t : τ} {w w' : LogWorld τ}

theorem logEffect_clock (o : LogOp) (r : LogRes o) : (logEffect t o r w).clock = w.clock := by
  cases o with
  | time | getStamp | loadDropped | loadReported | swapDropped | setStamp => rfl
  | send datagram wait cause => cases cause <;> cases r <;> rfl
  | addDropped n cause => cases cause <;> rfl
  | exchangeReported last now => cases r <;> rfl

/-- A step that fills no cache. -/
theorem logEffect_stamps {o : LogOp} (ho : ∀ second stamp, o ≠ .setStamp second stamp)
    (r : LogRes o) : (logEffect t o r w).stamps = w.stamps := by
  cases o with
  | setStamp second stamp => exact absurd rfl (ho second stamp)
  | time | getStamp | loadDropped | loadReported | swapDropped => rfl
  | send datagram wait cause => cases cause <;> cases r <;> rfl
  | addDropped n cause => cases cause <;> rfl
  | exchangeReported last now => cases r <;> rfl

/-- A step that fills a cache with the stamp of its second. -/
theorem StampOk.step {o : LogOp} (ho : o.Stamps log) (hw : ∀ u, StampOk log (w.stamps u))
    (r : LogRes o) (u : τ) : StampOk log ((logEffect t o r w).stamps u) := by
  by_cases hset : ∃ second stamp, o = .setStamp second stamp
  · obtain ⟨second, stamp, rfl⟩ := hset
    show StampOk log (Function.update w.stamps t (second, stamp) u)
    by_cases hu : u = t
    · rw [hu, Function.update_self]
      exact .inr (ho second stamp rfl)
    · rw [Function.update_of_ne hu]
      exact hw u
  · rw [logEffect_stamps fun second stamp heq => hset ⟨second, stamp, heq⟩]
    exact hw u

/-- In every run the caches hold what they say. -/
theorem LogRun.stamps {clock : Int} {c : Lib.Config τ (LogWorld τ) Record Unit LogRes}
    (h : LogRun log clock c) : ∀ t, StampOk log (c.world.stamps t) := by
  have halways : ∀ record, ((logSystem τ log).prog record).Always (LogOp.Stamps log)
      fun _ => True := stamps_sendRecord
  induction h with
  | init => exact fun t => .inl rfl
  | @step c c' hreach hstep ih =>
      cases hstep with
      | call t k hidle => exact ih
      | op t hsome hexec =>
          obtain ⟨ho, -⟩ :=
            Lib.running_always (A := fun _ => LogOp.Stamps log) halways hreach t _ hsome
          obtain ⟨-, rfl⟩ := hexec
          exact StampOk.step ho ih _
      | ret t hsome => exact ih
      | env henv =>
          obtain ⟨now, -, rfl⟩ := henv
          exact ih

/-- The clock does not go back. -/
theorem clock_le {c c' : Lib.Config τ (LogWorld τ) Record Unit LogRes}
    (hs : Lib.Steps (logSystem τ log) c c') : c.world.clock ≤ c'.world.clock := by
  induction hs with
  | refl => exact Int.le_refl _
  | @tail c₁ c₂ hs hstep ih =>
      refine Int.le_trans ih ?_
      cases hstep with
      | call t k hidle => exact Int.le_refl _
      | op t hsome hexec =>
          obtain ⟨-, rfl⟩ := hexec
          exact Int.le_of_eq (logEffect_clock ..).symm
      | ret t hsome => exact Int.le_refl _
      | env henv =>
          obtain ⟨now, hle, rfl⟩ := henv
          exact hle

/-- The clock of a run is where it began, or later. -/
theorem LogRun.clock_le {clock : Int} {c : Lib.Config τ (LogWorld τ) Record Unit LogRes}
    (h : LogRun log clock c) : clock ≤ c.world.clock := by
  induction h with
  | init => exact Int.le_refl _
  | step _ hstep ih => exact Int.le_trans ih (Cli.clock_le (.single hstep))

end Caches

/--
**What a record comes to.** However many threads log at once, whatever the daemon takes and
however the steps are interleaved, if the clock is not before the epoch: every record that was
logged has been sent, for some second between its call and its return, as one datagram for each
of its lines, in order, and at most one report of dropped lines behind them. Each datagram
begins with the header for that second, although a thread formats a second once only, and has
neither a NUL nor a newline in it. Only an error waits for a busy daemon, and after it has
waited in vain for a line it waits for no other.
-/
theorem record_is_lines {τ : Type} [DecidableEq τ] {log : Syslog} {clock : Int} (hclock : 0 ≤ clock)
    {c : Lib.Config τ (LogWorld τ) Record Unit LogRes} (h : LogRun log clock c) :
    ∀ e ∈ c.history, ∃ now c₀ c₁ xs, e.start = c₀.world ∧ e.finish = c₁.world ∧
      Lib.Reachable (logSystem τ log) (.start clock) c₀ ∧ Lib.Steps (logSystem τ log) c₀ c₁ ∧
      (∀ x ∈ xs, Lib.Performed (logSystem τ log) e.thread c₀ c₁ x) ∧
      (log.sendRecord e.call).Traced xs e.reply ∧
      e.start.clock ≤ now ∧ now ≤ e.finish.clock ∧ RecordSent log e.call now xs := by
  intro e he
  have hprivate : Lib.Private (logSystem τ log) (fun _ _ => ()) fun _ _ => () :=
    ⟨fun _ => rfl, fun _ _ => rfl, fun _ => rfl, fun _ => rfl⟩
  obtain ⟨c₀, c₁, xs, hhas, hfinish, -, htraced⟩ := Lib.event_traced hprivate h e he
  have hstart : e.start = c₀.world := hhas.arrived
  have hstamps : StampsOk log xs := by
    intro cell hcell
    obtain ⟨d₁, d₂, hto, -, hexec, -⟩ := hhas.performed _ hcell
    obtain ⟨heq, -⟩ := hexec
    rw [show cell = d₁.world.stamps e.thread from heq]
    exact LogRun.stamps (hhas.reachable.steps hto) e.thread
  obtain ⟨now, htime, hsent⟩ := traced_sendRecord htraced hstamps
  obtain ⟨d₁, d₂, hto, hstep, hexec, hfrom⟩ := hhas.performed _ htime
  obtain ⟨heq, -⟩ := hexec
  obtain rfl : now = d₁.world.clock := heq
  have hpos := LogRun.clock_le (hhas.reachable.steps hto)
  refine ⟨_, c₀, c₁, xs, hstart, hfinish, hhas.reachable, hhas.steps, hhas.performed, htraced,
    ?_, ?_, hsent (Int.le_trans hclock hpos)⟩
  · rw [hstart]
    exact clock_le hto
  · rw [hfinish]
    exact clock_le (hfrom.head hstep)

/-- Two lines, the second with a NUL in front. -/
theorem record_is_lines_sample :
    ∃ (c : Lib.Config Nat (LogWorld Nat) Record Unit LogRes) (xs : List (Answered LogRes)),
      LogRun sampleLog 5 c ∧
      (sampleLog.sendRecord ⟨.info, [120, 10, 0, 121]⟩).Traced xs () ∧
      [sampleLog.stamped LOG_INFO 5 ++ [120], sampleLog.stamped LOG_INFO 5 ++ [121]] <+:
        (sends xs).map Sent.datagram := by
  have hrun : (logMoves [.call 0 ⟨.info, [120, 10, 0, 121]⟩, .ops 0 6 true, .ret 0]).map
      (fun c => c.history.map fun e => (e.call, e.start.clock, e.finish.clock)) =
      some [(⟨.info, [120, 10, 0, 121]⟩, 5, 5)] := by decide +kernel
  obtain ⟨c, hmoves, hhistory⟩ := Option.map_eq_some_iff.mp hrun
  have hc := logMoves_reachable hmoves
  obtain ⟨e, he⟩ : ∃ e, e ∈ c.history := by
    cases hh : c.history with
    | nil => exact absurd hhistory (by simp [hh])
    | cons e es => exact ⟨e, List.mem_cons_self⟩
  have hmem := List.mem_map_of_mem (f := fun e : Lib.Event Nat (LogWorld Nat) Record Unit =>
    (e.call, e.start.clock, e.finish.clock)) he
  rw [hhistory, List.mem_singleton] at hmem
  obtain ⟨hcall, hstart, hfinish⟩ : e.call = ⟨.info, [120, 10, 0, 121]⟩ ∧ e.start.clock = 5 ∧
      e.finish.clock = 5 := by simpa only [Prod.mk.injEq] using hmem
  obtain ⟨now, c₀, c₁, xs, -, -, -, -, -, htraced, hlo, hhi, hsent⟩ :=
    record_is_lines (by decide) hc e he
  obtain rfl : now = 5 := by omega
  rw [hcall] at htraced hsent
  obtain ⟨body, reports, hxs, hbody, -⟩ := hsent.lines
  refine ⟨c, xs, hc, htraced, ?_⟩
  rw [hxs, List.map_append, hbody]
  exact List.prefix_append _ _

end ZipFs.Cli
