import ZipFs.Mount.Parts
import ZipFs.Mount.Runs

/-!
# The buffered source over whole runs

`BufSource` of `src/source.rs`, driven in any way: filled, consumed from, rewound and pointed
at other ranges. Its cursor is spread over three fields, of which `fill_buf` changes two
before the read that can fail. What survives a failure between the two is
`BufSource.Valid`, whatever the archive answers; what the bytes are is known because the
guard lets only mounted bytes through.
-/

namespace ZipFs

open Lib (Meets Safe Logic lasting_true)

variable {τ δ ζ : Type}

/-! ## The cursor -/

/-- The buffer holds a piece of the range, and the cursor is inside it. -/
structure BufSource.Valid (s : BufSource) : Prop where
  pos : s.pos ≤ s.filled
  filled : s.filled ≤ s.buf.length
  inside : s.consumed + s.filled ≤ s.len

namespace BufSource.Valid

variable {s : BufSource}

theorem new (start len : Nat) (buf : Bytes) : (BufSource.new start len buf).Valid :=
  ⟨Nat.le_refl _, Nat.zero_le _, Nat.zero_le _⟩

theorem rewind (s : BufSource) : s.rewind.Valid :=
  ⟨Nat.le_refl _, Nat.zero_le _, Nat.zero_le _⟩

/-- Also of more than there is. -/
theorem consume (h : s.Valid) (amount : Nat) : (s.consume amount).Valid :=
  ⟨Nat.min_le_right _ _, h.filled, h.inside⟩

theorem length_window (h : s.Valid) : s.window.length = s.filled - s.pos := by
  have := h.filled
  unfold BufSource.window
  rw [List.length_drop, List.length_take]
  omega

/-- The part of the window that is consumed is what the cursor moves over. -/
theorem length_consumed (h : s.Valid) (amount : Nat) :
    (s.window.take amount).length + s.pos = (s.consume amount).pos := by
  have hpos := h.pos
  rw [List.length_take, h.length_window]
  simp only [BufSource.consume]
  omega

end BufSource.Valid

/-- What `fill_buf` leaves and returns, whatever the archive answers. -/
structure Refilled (s : BufSource) (x : BufSource × Except IoError Bytes) : Prop where
  valid : x.1.Valid
  start : x.1.start = s.start
  len : x.1.len = s.len
  room : x.1.buf.length = s.buf.length
  /-- Nothing is lost or repeated. -/
  cursor : x.1.consumed + x.1.pos = s.consumed + s.pos
  window : ∀ input, x.2 = .ok input → input = x.1.window
  /-- After a refill that failed, the buffer holds nothing. -/
  failed : ∀ e, x.2 = .error e → x.1.filled = 0
  /-- The window is empty when the range has run out, and only then. -/
  empty : 0 < s.buf.length → ∀ input, x.2 = .ok input → (input = [] ↔ s.consumed + s.pos = s.len)

section Fill

variable {L : Logic (@Res δ ζ)} {M : Mount} {s : BufSource}

/-- The window of a valid source is empty when its cursor is at the end of what is filled. -/
theorem BufSource.Valid.window_eq_nil (h : s.Valid) : s.window = [] ↔ s.pos = s.filled := by
  have hpos := h.pos
  rw [← List.length_eq_zero_iff, h.length_window]
  omega

/-- `fill_buf` reads only inside the range. -/
theorem holds_fillBuf (hg : PermitsGuard L M) (hs : s.Valid)
    (h : ∀ i, s.start ≤ i → i < s.start + s.len → L.Accepts (.op (.cell i) .ret)) :
    L.Holds (s.fillBuf M) (Refilled s) := by
  have hpos := hs.pos
  have hfilled := hs.filled
  have hinside := hs.inside
  unfold BufSource.fillBuf
  split
  · rename_i hat
    dsimp only
    have hcursor : s.drained.consumed + s.drained.pos = s.consumed + s.pos := by
      simp only [BufSource.drained]
      omega
    have hdrained : s.drained.Valid := ⟨Nat.le_refl _, Nat.zero_le _, hinside⟩
    split
    · rename_i hrest
      refine L.pure ⟨hdrained, rfl, rfl, rfl, hcursor, ?_, by simp, ?_⟩
      · intro input hinput
        obtain rfl := Except.ok.inj hinput
        exact (hdrained.window_eq_nil.mpr rfl).symm
      · intro _ input hinput
        obtain rfl := Except.ok.inj hinput
        simp only [BufSource.drained] at hrest
        simp only [true_iff]
        omega
    · rename_i hrest
      simp only [BufSource.drained] at hrest
      set want := min (s.drained.len - s.drained.consumed) s.drained.buf.length with hwant
      have hle : want ≤ s.buf.length := Nat.min_le_right _ _
      have hroom : (s.drained.buf.take want).length = want := by
        rw [List.length_take]
        exact Nat.min_eq_left hle
      -- the cells lie between what has been consumed and the end
      have hcells : ∀ i, s.drained.start + s.drained.consumed ≤ i →
          i < s.drained.start + s.drained.consumed + (s.drained.buf.take want).length →
          L.Accepts (.op (.cell i) .ret) := by
        intro i hlo hhi
        rw [hroom] at hhi
        simp only [BufSource.drained] at hlo hhi hwant
        exact h i (by omega) (by omega)
      refine L.bind (holds_readExactAt hg hcells) ?_
      intro x hx
      rcases x with ⟨got, r⟩
      dsimp only at hx ⊢
      rw [hroom] at hx
      have hlen : (got ++ s.drained.buf.drop want).length = s.buf.length := by
        rw [List.length_append, List.length_drop, hx]
        exact Nat.add_sub_of_le hle
      cases r with
      | error e =>
          exact L.pure ⟨⟨Nat.le_refl _, Nat.zero_le _, hinside⟩, rfl, rfl, hlen, hcursor,
            by simp, fun _ _ => rfl, by simp⟩
      | ok _ =>
          have hvalid : ({ s.drained with
              buf := got ++ s.drained.buf.drop want, filled := want } : BufSource).Valid := by
            refine ⟨Nat.zero_le _, ?_, ?_⟩
            · dsimp only
              rw [hlen]
              exact hle
            · simp only [BufSource.drained] at hwant ⊢
              omega
          refine L.pure ⟨hvalid, rfl, rfl, hlen, hcursor, ?_, by simp, ?_⟩
          · intro input hinput
            exact (Except.ok.inj hinput).symm
          · intro hbuf input hinput
            obtain rfl := Except.ok.inj hinput
            have hempty := hvalid.window_eq_nil
            have hzero : s.drained.pos = 0 := rfl
            simp only [BufSource.drained] at hwant hempty ⊢
            rw [hempty]
            omega
  · rename_i hat
    refine L.pure ⟨hs, rfl, rfl, rfl, rfl, ?_, by simp, ?_⟩
    · intro input hinput
      exact (Except.ok.inj hinput).symm
    · intro _ input hinput
      obtain rfl := Except.ok.inj hinput
      rw [hs.window_eq_nil]
      omega

end Fill

/-! ## Driving a source -/

/-- What can be done to a source. -/
inductive SourceOp where
  /-- With what the buffer is left as, if the archive fails in the middle of a refill. -/
  | fill (left : Bytes)
  | consume (amount : Nat)
  | rewind
  | retarget (start len : Nat)

/-- Ranges that end within 64 bits, and amounts below `2 ^ 63`. -/
def SourceOp.Ok : SourceOp → Prop
  | .consume amount => amount < 2 ^ 63
  | .retarget start len => start + len < 2 ^ 64
  | .fill _ | .rewind => True

/-- One thing that was done to a source. -/
structure SourceEvent where
  before : BufSource
  op : SourceOp
  /-- What a `fill_buf` returned. -/
  result : Option (Except IoError Bytes)
  after : BufSource
  /-- The bytes consumed since the source was last rewound. -/
  taken : Bytes

/-- A refill that failed may have overwritten any part of the buffer. -/
def BufSource.spoil (left : Bytes) (r : Except IoError Bytes) (s : BufSource) : BufSource :=
  match r with
  | .ok _ => s
  | .error _ => if left.length = s.buf.length then { s with buf := left } else s

/-- The operations one after the other, with what is consumed noted down. -/
def drive (M : Mount) : List SourceOp → BufSource → Bytes → Act δ ζ (List SourceEvent)
  | [], _, _ => pure []
  | .fill left :: ops, s, taken => do
      let (s', r) ← s.fillBuf M
      let s' := s'.spoil left r
      let events ← drive M ops s' taken
      pure (⟨s, .fill left, some r, s', taken⟩ :: events)
  | .consume amount :: ops, s, taken => do
      let s' := s.consume amount
      let taken' := taken ++ s.window.take amount
      let events ← drive M ops s' taken'
      pure (⟨s, .consume amount, none, s', taken'⟩ :: events)
  | .rewind :: ops, s, _ => do
      let events ← drive M ops s.rewind []
      pure (⟨s, .rewind, none, s.rewind, []⟩ :: events)
  | .retarget start len :: ops, s, _ => do
      let s' := s.retarget start len
      let events ← drive M ops s' []
      pure (⟨s, .retarget start len, none, s', []⟩ :: events)

/-- The cells that an operation reads lie in `[start, stop)`. -/
def Op.Within (start stop : Nat) : Op δ ζ → Prop
  | .cell i => start ≤ i ∧ i < stop
  | _ => True

/-- A source whose cursor is in order, and the bytes consumed from it: the prefix of the range
that ends at the cursor. -/
structure Streams (M : Mount) (s : BufSource) (taken : Bytes) : Prop where
  valid : s.Valid
  /-- The range ends within 64 bits, so nothing inside it overflows. -/
  range : s.start + s.len < 2 ^ 64
  room : 0 < s.buf.length ∧ s.buf.length < 2 ^ 63
  length : taken.length = s.consumed + s.pos
  bytes : taken = (M.range s.start s.len).take taken.length

variable (δ ζ) in
/-- What is right about one operation. -/
structure SourceEvent.Ok (M : Mount) (e : SourceEvent) : Prop where
  before : e.before.Valid ∧ e.before.start + e.before.len < 2 ^ 64
  after : Streams M e.after e.taken
  /-- `pos + amount` does not overflow. -/
  sum : ∀ amount, e.op = .consume amount → e.before.pos + amount < 2 ^ 64
  /-- Every access to the archive lies inside the range. -/
  within : ∀ left, e.op = .fill left → (e.before.fillBuf M : Act δ ζ _).Always
    (Op.Within e.before.start (e.before.start + e.before.len)) fun _ => True
  /-- A `fill_buf` returns the unread part of the buffer, which is empty when the whole range
  has been consumed and only then. -/
  filled : ∀ input, e.result = some (.ok input) → input = e.after.window ∧
    (input = [] ↔ e.taken.length = e.after.len)

/-! ## Each operation -/

/-- With what the buffer holds: a piece of the mounted range. -/
structure Driven (M : Mount) (s : BufSource) (taken : Bytes) : Prop extends Streams M s taken where
  source : SourceOk M ⟨s.start, s.len, .store⟩ s

namespace Driven

variable {M : Mount} {s : BufSource} {taken : Bytes}

/-- At the start of a range, whatever the buffer holds. -/
theorem rewound {s : BufSource} (hrange : s.start + s.len < 2 ^ 64)
    (hroom : 0 < s.buf.length ∧ s.buf.length < 2 ^ 63) (hconsumed : s.consumed = 0)
    (hfilled : s.filled = 0) (hpos : s.pos = 0) : Driven M s [] where
  valid := ⟨by omega, by omega, by omega⟩
  range := hrange
  room := hroom
  length := by rw [hconsumed, hpos, List.length_nil]
  bytes := by simp
  source := ⟨rfl, rfl, by omega, by omega, by omega, by simp [hfilled], hroom.1⟩

theorem consume (h : Driven M s taken) (amount : Nat) :
    Driven M (s.consume amount) (taken ++ s.window.take amount) where
  valid := h.valid.consume amount
  range := h.range
  room := h.room
  length := by
    have hmoved := h.valid.length_consumed amount
    have hlength := h.length
    rw [List.length_append]
    show taken.length + (s.window.take amount).length = s.consumed + (s.consume amount).pos
    omega
  bytes := by
    have hwindow : s.window.take amount <+: (M.range s.start s.len).drop taken.length := by
      refine (List.take_prefix _ _).trans ?_
      rw [h.length]
      exact h.source.window_range
    show taken ++ s.window.take amount =
      (M.range s.start s.len).take (taken ++ s.window.take amount).length
    rw [List.length_append, List.take_add, ← h.bytes, ← List.prefix_iff_eq_take.mp hwindow]
  source := h.source.consume amount

theorem refilled {B : Prop} (h : Driven M s taken) {x : BufSource × Except IoError Bytes}
    (hfill : FillOk B M ⟨s.start, s.len, .store⟩ s x) (hx : Refilled s x) :
    Driven M x.1 taken where
  valid := hx.valid
  range := by
    rw [hx.start, hx.len]
    exact h.range
  room := by
    rw [hx.room]
    exact h.room
  length := h.length.trans hx.cursor.symm
  bytes := by
    rw [hx.start, hx.len]
    exact h.bytes
  source := by
    rw [hx.start, hx.len]
    exact hfill.src

/-- What a refill that failed leaves in the buffer does not matter. -/
theorem spoil (h : Driven M s taken) {r : Except IoError Bytes}
    (hfailed : ∀ e, r = .error e → s.filled = 0) (left : Bytes) :
    Driven M (s.spoil left r) taken := by
  unfold BufSource.spoil
  split
  · exact h
  · split
    · rename_i hlen
      have hzero := hfailed _ rfl
      have hpos := h.valid.pos
      have hinside := h.source.inside
      rw [hzero] at hpos hinside
      refine ⟨⟨?_, h.range, ?_, h.length, h.bytes⟩, ?_⟩
      · exact ⟨h.valid.pos, by show s.filled ≤ _; omega, h.valid.inside⟩
      · show 0 < left.length ∧ left.length < 2 ^ 63
        rw [hlen]
        exact h.room
      · refine ⟨rfl, rfl, h.valid.pos, by show s.filled ≤ _; omega, h.source.inside, ?_, ?_⟩
        · show left.take s.filled = _
          rw [hzero]
          simp
        · show 0 < left.length
          rw [hlen]
          exact h.room.1
    · exact h

end Driven

section Drive

variable {K : Codecs δ ζ} {M : Mount} {s : BufSource} {taken : Bytes}

/-- A guarded read performs only operations of a kind if its checks are of that kind. -/
theorem always_guard {A : Op δ ζ → Prop} (hchecks : ∀ o, o.Checks → A o)
    (hnotes : ∀ offset data, A (.note (.guarded offset data))) :
    PermitsGuard (Lib.always (R := @Res δ ζ) A) M :=
  ⟨accepts_guardVerify fun o ho => Lib.always_op (hchecks o ho),
    fun offset data => Lib.always_op (hnotes offset data)⟩

theorem fillBuf_within (hs : s.Valid) :
    (s.fillBuf M : Act δ ζ _).Always (Op.Within s.start (s.start + s.len)) (Refilled s) := by
  refine holds_fillBuf (always_guard ?_ fun _ _ => trivial) hs ?_
  · intro o ho
    cases o with
    | cell _ => exact ho.elim
    | _ => trivial
  · exact fun _ hlo hhi => Lib.always_op ⟨hlo, hhi⟩

variable [DecidableEq τ]

/-- A refill, among other threads and with the archive written meanwhile. -/
theorem fillBuf_driven (h : Driven M s taken) :
    Does True False K M (Anywhere (τ := τ)) (s.fillBuf M) fun x => Driven M x.1 taken ∧
      Refilled s x := by
  intro t w hi hI
  have hfill := fillBuf_does (B := True) (K := K) h.source t w hi hI
  refine (hfill.always (fillBuf_within h.valid)).mono ?_
  intro x w' _ hx
  exact ⟨h.refilled hx.1 hx.2, hx.2⟩

/-- **Every operation on a driven source is right**, in any order. -/
theorem drive_does {ops : List SourceOp} (hops : ∀ op ∈ ops, op.Ok) (h : Driven M s taken) :
    Does True False K M (Anywhere (τ := τ)) (drive M ops s taken)
      fun events => ∀ e ∈ events, e.Ok δ ζ M := by
  induction ops generalizing s taken with
  | nil => exact .pure (by simp)
  | cons op ops ih =>
      have hrest : ∀ op ∈ ops, op.Ok := fun op hmem => hops op (List.mem_cons_of_mem _ hmem)
      have hop := hops op List.mem_cons_self
      -- what comes after an operation that is right
      have hnext : ∀ e : SourceEvent, e.Ok δ ζ M → ∀ events : List SourceEvent,
          (∀ e ∈ events, e.Ok δ ζ M) → ∀ e' ∈ e :: events, e'.Ok δ ζ M := by
        intro e he events hevents e' he'
        rcases List.mem_cons.mp he' with rfl | he'
        · exact he
        · exact hevents e' he'
      cases op with
      | fill left =>
          refine Meets.bind lasting_true (fillBuf_driven h) ?_
          intro x hx
          rcases x with ⟨s', r⟩
          obtain ⟨hfilled, hx⟩ := hx
          have hdriven := hfilled.spoil hx.failed left
          refine Meets.bind lasting_true (ih hrest hdriven) fun events hevents => ?_
          refine .pure (hnext _ ⟨⟨h.valid, h.range⟩, hdriven.toStreams, by simp, ?_, ?_⟩ _ hevents)
          · exact fun _ _ => Logic.accepts (L := Lib.always _) (fillBuf_within h.valid)
          · intro input hinput
            obtain rfl : r = .ok input := Option.some.inj hinput
            refine ⟨hx.window input rfl, (hx.empty h.room.1 input rfl).trans ?_⟩
            show _ ↔ taken.length = s'.len
            rw [h.length, hx.len]
      | consume amount =>
          have hdriven := h.consume amount
          refine Meets.bind lasting_true (ih hrest hdriven) fun events hevents => ?_
          refine .pure (hnext _ ⟨⟨h.valid, h.range⟩, hdriven.toStreams, ?_, by simp, by simp⟩ _
            hevents)
          intro amount' heq
          obtain rfl := SourceOp.consume.inj heq
          have hamount : amount < 2 ^ 63 := hop
          have := h.valid.pos
          have := h.valid.filled
          have := h.room.2
          show s.pos + amount < 2 ^ 64
          omega
      | rewind =>
          have hdriven : Driven M s.rewind [] := .rewound h.range h.room rfl rfl rfl
          refine Meets.bind lasting_true (ih hrest hdriven) fun events hevents => ?_
          exact .pure (hnext _ ⟨⟨h.valid, h.range⟩, hdriven.toStreams, by simp, by simp, by simp⟩ _
            hevents)
      | retarget start len =>
          have hdriven : Driven M (s.retarget start len) [] := .rewound hop h.room rfl rfl rfl
          refine Meets.bind lasting_true (ih hrest hdriven) fun events hevents => ?_
          exact .pure (hnext _ ⟨⟨h.valid, h.range⟩, hdriven.toStreams, by simp, by simp, by simp⟩ _
            hevents)

/-! ## Whole runs -/

/-- A source over a range, and what is done to it. -/
structure SourceCall where
  start : Nat
  len : Nat
  buf : Bytes
  ops : List SourceOp
  range : start + len < 2 ^ 64
  /-- No slice of bytes is longer than `isize::MAX`. -/
  room : 0 < buf.length ∧ buf.length < 2 ^ 63
  ops_ok : ∀ op ∈ ops, op.Ok

def SourceCall.prog (M : Mount) (call : SourceCall) : Act δ ζ (List SourceEvent) :=
  drive M call.ops (BufSource.new call.start call.len call.buf) []

/-- Any number of threads with sources of their own, and the archive written meanwhile. -/
def sourceSystem (K : Codecs δ ζ) (M : Mount) :
    Lib.System τ (World τ δ ζ) SourceCall (List SourceEvent) (@Res δ ζ) where
  exec := exec K M
  env := Writer M
  arrive := arrive
  prog := SourceCall.prog M

theorem source_respects :
    Lib.Respects (sourceSystem (τ := τ) K M) (mountProtocol True False K M)
      fun _ _ _ events _ => ∀ e ∈ events, e.Ok δ ζ M where
  arrive t call _ hi := arrive_keeps t call hi
  env _ _ h hi := writer_keeps hi h
  calls t call w hi := by
    have hdriven : Driven M (BufSource.new call.start call.len call.buf) [] :=
      .rewound call.range call.room rfl rfl rfl
    exact (drive_does (K := K) call.ops_ok hdriven).anyhow t _ (arrive_keeps t call hi).1 trivial

/--
**A source streams exactly its range.** For every range that ends within 64 bits, every
buffer that is not empty, and every sequence of operations on the source, whatever the
archive answers: the cursor stays inside the buffer and the buffer inside the range, so
nothing underflows or overflows and every access to the archive lies inside the range; the
bytes consumed since the last rewind are the prefix of the range that ends at the cursor;
and `fill_buf` returns nothing exactly when the whole range has been consumed.
-/
theorem source_streams_range {path : Option Stamp}
    {c : Lib.Config τ (World τ δ ζ) SourceCall (List SourceEvent) (@Res δ ζ)}
    (h : Lib.Reachable (sourceSystem K M) (World.start M path) c) :
    ∀ e ∈ c.history, ∀ event ∈ e.reply, event.Ok δ ζ M :=
  (Lib.sound source_respects (start_inv path) h).history

end Drive

/-- The compressed bytes of the sample, through a buffer of two bytes: consumed one by one and
once more than there is, and from the start again. -/
def Sample.sourceCall : SourceCall where
  start := 31
  len := 3
  buf := [0, 0]
  ops := [.fill [], .consume 1, .fill [], .consume 7, .fill [], .consume 1, .fill [], .rewind,
    .fill []]
  range := by decide
  room := by decide
  ops_ok := by simp [SourceOp.Ok]

theorem source_streams_range_sample :
    ∃ c : Lib.Config Unit (World Unit Sample.Inflater Unit) SourceCall (List SourceEvent)
        (@Res Sample.Inflater Unit),
      Lib.Reachable (sourceSystem Sample.codecs (Sample.mount 1 Sample.checksum))
        (World.start (Sample.mount 1 Sample.checksum) none) c ∧
      ∃ e ∈ c.history, e.reply.map (·.taken) =
          [[], [0x4B], [0x4B], [0x4B, 0x04], [0x4B, 0x04], Sample.code, Sample.code, [], []] ∧
        ∀ event ∈ e.reply, event.Ok Sample.Inflater Unit (Sample.mount 1 Sample.checksum) := by
  set M := Sample.mount 1 Sample.checksum
  set S := sourceSystem (τ := Unit) Sample.codecs M
  have hrun : (Lib.runCalls S (det Sample.codecs M ()) () [Sample.sourceCall]
      (World.start M none)).map (fun x => x.1.map fun events => events.map (·.taken)) =
        some [[[], [0x4B], [0x4B], [0x4B, 0x04], [0x4B, 0x04], Sample.code, Sample.code, [],
          []]] := by
    decide +kernel
  obtain ⟨⟨replies, w⟩, hserve, htaken⟩ := Option.map_eq_some_iff.mp hrun
  obtain ⟨c, hc, -, -, -, hall⟩ :=
    Lib.reachable_runCalls (fun _ _ _ _ h => Or.inl h) Lib.Reachable.init rfl hserve
  obtain ⟨events, hreplies, hevents⟩ := List.map_eq_singleton_iff.mp htaken
  obtain ⟨e, he, -, hreply⟩ := hall (Sample.sourceCall, events) (by
    dsimp only at hreplies
    rw [hreplies]
    simp)
  refine ⟨c, hc, e, he, ?_, source_streams_range hc e he⟩
  rw [hreply]
  exact hevents

end ZipFs
