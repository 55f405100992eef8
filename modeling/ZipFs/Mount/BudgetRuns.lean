import ZipFs.Mount.BudgetProof
import ZipFs.Mount.Sample

/-!
# The decoder budget over whole runs

Any number of pools share the budget: those of the files that are opened, and pools of any
cap that are made directly. Any number of threads check decoders out of them, give them back
and drop the pools, each function one atomic step at a time. In every state that this
reaches the books balance.
-/

namespace ZipFs

open Lib (Safe)

variable {τ δ ζ : Type}

/-- What a thread can be asked to do: a call of the mount, or making a pool of its own cap. -/
inductive PoolCall where
  | serve (call : Call)
  | create (loc : EntryLocation) (cap metaIdx size : Nat)

/-- A pool that is made is put behind a handle, so that any thread can use it and drop it. -/
def PoolCall.prog (K : Codecs δ ζ) (M : Mount) : PoolCall → Act δ ζ Reply
  | .serve call => call.prog K M
  | .create loc cap metaIdx size => do
      let pool ← EntryPool.new loc cap metaIdx false
      let fh ← HandleTable.insert ⟨0, metaIdx, size, .coded pool, loc⟩
      pure (.opened fh)

section Runs

variable [DecidableEq τ] {K : Codecs δ ζ} {M : Mount}

/-- The threads that use the pools, with the archive changed in any way. -/
def poolSystem (K : Codecs δ ζ) (M : Mount) :
    Lib.System τ (World τ δ ζ) PoolCall Reply (@Res δ ζ) where
  exec := exec K M
  env := AnyChange
  arrive := arrive
  prog := PoolCall.prog K M

abbrev PoolRun (K : Codecs δ ζ) (M : Mount) (path : Option Stamp)
    (c : Lib.Config τ (World τ δ ζ) PoolCall Reply (@Res δ ζ)) : Prop :=
  Lib.Reachable (poolSystem K M) (World.start M path) c

theorem safe_create {t : τ} {w : World τ δ ζ} {h : Hand} (hi : (budgetProtocol τ δ ζ M).inv w)
    (hw : w.hands t = h) (loc : EntryLocation) (cap metaIdx size : Nat) :
    BudgetSafe K M t (fun _ w' => w'.hands t = h)
      ((PoolCall.create loc cap metaIdx size).prog K M) w := by
  refine Safe.bind hi ((books_newPool hi hw loc cap metaIdx false).mono ?_)
  intro pool w₁ hi₁ hpool
  obtain ⟨hw₁, hknown⟩ := hpool
  have hinsert : BudgetSafe K M t (fun _ w' => w'.hands t = h)
      (HandleTable.insert ⟨0, metaIdx, size, .coded pool, loc⟩) w₁ := by
    refine books_insert hi₁ hw₁ fun pool' hkind => ?_
    obtain rfl := OpenKind.coded.inj hkind
    exact hknown
  refine Safe.bind hi₁ (hinsert.mono ?_)
  intro fh w₂ _ hw₂
  exact safe_hand_ret hw₂ _

/-- Every call keeps the books, and gives its thread's hand back as it was. -/
theorem budget_respects :
    Lib.Respects (poolSystem (τ := τ) K M) (budgetProtocol τ δ ζ M)
      fun t _ w₀ _ w => w.hands t = w₀.hands t where
  arrive t call w hi := by
    obtain ⟨ts, hb⟩ := hi
    have hs : SameBooks w (arrive t call w) := ⟨rfl, rfl, rfl, rfl, rfl, rfl, rfl, rfl, rfl⟩
    exact ⟨⟨ts, hb.same hs⟩, (hs.apart t).toLasts, fun u _ => hs.apart u⟩
  env w w' h hi := by
    obtain ⟨ts, hb⟩ := hi
    obtain ⟨content, stamp, path, rfl⟩ := h
    have hs : SameBooks w { w with content := content, stamp := stamp, path := path } :=
      ⟨rfl, rfl, rfl, rfl, rfl, rfl, rfl, rfl, rfl⟩
    exact ⟨⟨ts, hb.same hs⟩, ⟨fun _ cell h => ⟨cell, h, rfl⟩, fun _ cell h => ⟨cell, h, rfl⟩⟩,
      fun u => hs.apart u⟩
  calls t call w hi := by
    obtain ⟨ts, hb⟩ := hi
    have hi' : (budgetProtocol τ δ ζ M).inv (arrive t call w) :=
      ⟨ts, hb.same ⟨rfl, rfl, rfl, rfl, rfl, rfl, rfl, rfl, rfl⟩⟩
    cases call with
    | serve call => exact safe_callHand hi' rfl call
    | create loc cap metaIdx size => exact safe_create hi' rfl loc cap metaIdx size

omit [DecidableEq τ] in
theorem start_balanced (path : Option Stamp) :
    Balanced M ∅ (World.start M path : World τ δ ζ) where
  retained := rfl
  limit := Nat.zero_le _
  caps _ _ h := absurd h (by simp [World.start])
  owned s := by simp [World.start, World.total]
  codecs _ := ⟨Nat.zero_le _, by simp [World.start]⟩
  buffers := Nat.zero_le _
  skips := Nat.zero_le _
  refs _ _ h := absurd h (by simp [World.start])
  unheld _ _ _ := by simp [World.start]
  fresh _ _ := ⟨rfl, rfl⟩
  known _ _ _ h := absurd h (by simp [World.start])
  kept _ _ h := absurd h (by simp [World.start])
  absent _ _ := rfl

theorem poolRun_good {path : Option Stamp}
    {c : Lib.Config τ (World τ δ ζ) PoolCall Reply (@Res δ ζ)} (h : PoolRun K M path c) :
    Lib.Good (poolSystem K M) (budgetProtocol τ δ ζ M)
      (fun t _ w₀ _ w => w.hands t = w₀.hands t) c :=
  Lib.sound budget_respects ⟨∅, start_balanced path⟩ h

/-- A thread that serves no call has nothing in its hand. -/
theorem poolRun_idle {path : Option Stamp}
    {c : Lib.Config τ (World τ δ ζ) PoolCall Reply (@Res δ ζ)} (h : PoolRun K M path c) {t : τ}
    (hidle : c.running t = none) : c.world.hands t = Hand.empty := by
  have hrests := Lib.sound_idle (J := fun (t : τ) (w : World τ δ ζ) => w.hands t = Hand.empty)
    budget_respects ⟨∅, start_balanced path⟩ (fun _ => rfl)
    (fun t w w' hr hJ => hr.hands.trans hJ) (fun _ _ _ hJ => hJ)
    (fun t k w a w' hq hJ => hq.trans hJ) h t
  rw [hidle] at hrests
  exact hrests

omit [DecidableEq τ] in
/-- With no slot in a hand, the counter is the idle decoders. -/
theorem Balanced.retained_eq {ts : Finset τ} {w : World τ δ ζ} (h : Balanced M ts w)
    (hslots : ∀ t, (w.hands t).slots = 0) : w.retained = (w.pools.map (·.idle.length)).sum := by
  have hsum : w.total ts (·.slots) = 0 := Finset.sum_eq_zero fun t _ => hslots t
  rw [h.retained, hsum, Nat.add_zero]

omit [DecidableEq τ] in
/-- With the counter at zero, no slot is in a hand. -/
theorem Balanced.slots_eq_zero {ts : Finset τ} {w : World τ δ ζ} (h : Balanced M ts w)
    (hzero : w.retained = 0) (t : τ) : (w.hands t).slots = 0 := by
  have hsum : w.total ts (·.slots) = 0 := by
    have := h.retained
    omega
  by_cases ht : t ∈ ts
  · exact Finset.sum_eq_zero_iff.mp hsum t ht
  · rw [h.absent t ht]
    rfl

omit [DecidableEq τ] in
/-- No pool is left that somebody has to drop, and no slot is in a hand. -/
theorem Balanced.retained_eq_zero {ts : Finset τ} {w : World τ δ ζ} (h : Balanced M ts w)
    (hkept : ∀ id, ¬ Owned w id) (hslots : ∀ t, (w.hands t).slots = 0) : w.retained = 0 := by
  rw [h.retained_eq hslots]
  refine List.sum_eq_zero ?_
  intro n hn
  obtain ⟨cell, hcell, rfl⟩ := List.mem_map.mp hn
  obtain ⟨id, hid⟩ := List.getElem?_of_mem hcell
  by_contra hne
  exact hkept id (h.kept id cell hid fun hnil => hne (by rw [hnil]; rfl))

/-- **The counter does not wrap**: whoever is about to lower it finds it above zero. -/
theorem poolRun_release {path : Option Stamp}
    {c : Lib.Config τ (World τ δ ζ) PoolCall Reply (@Res δ ζ)} (h : PoolRun K M path c) {t : τ}
    {call : PoolCall} {start : World τ δ ζ} {k : Unit → Act δ ζ Reply}
    (hrun : c.running t = some ⟨call, start, .op .releaseRetain k⟩) : 0 < c.world.retained := by
  have hg := poolRun_good h
  obtain ⟨ts, hb⟩ := hg.inv
  obtain ⟨⟨ts', hb'⟩, -⟩ := hg.running t _ hrun c.world
    ((budgetProtocol τ δ ζ M).rely_refl t _) ⟨ts, hb⟩ () _ (.inl rfl)
  by_contra hpos
  have hzero : c.world.retained = 0 := by omega
  -- no thread has a slot, before or after, so a counter that wraps does not balance
  have hafter := hb'.retained_eq fun u => by
    change (Function.update c.world.hands t _ u).slots = 0
    by_cases hu : u = t
    · subst hu
      rw [Function.update_self, hb.slots_eq_zero hzero u]
    · rw [Function.update_of_ne hu]
      exact hb.slots_eq_zero hzero u
  change (if c.world.retained = 0 then 2 ^ 64 - 1 else c.world.retained - 1) =
    (c.world.pools.map (·.idle.length)).sum at hafter
  rw [if_pos hzero, ← hb.retained_eq (hb.slots_eq_zero hzero), hzero] at hafter
  exact absurd hafter (by decide)

/--
**The books of the budget balance in every run.** However the steps of checkouts, of
give-backs and of drops interleave, over any number of threads and pools:

* the counter is the idle decoders of all pools and the slots in the hands of threads,
  which only the finitely many threads `ts` have, and each decoder made so far is idle in
  one place, in one hand, or recycled once;
* whoever lowers the counter finds it above zero;
* it does not pass its limit, and no pool holds more than its cap;
* recycled cores and buffers are within their limit, and a codec is among those of its method;
* and the counter is zero when every pool is dropped and no slot is in a hand, in particular
  when no call is served and no handle is open.
-/
theorem budget_balanced {path : Option Stamp}
    {c : Lib.Config τ (World τ δ ζ) PoolCall Reply (@Res δ ζ)} (h : PoolRun K M path c) :
    (∃ ts : Finset τ, (∀ t, t ∉ ts → c.world.hands t = Hand.empty) ∧
      c.world.retained =
        (c.world.pools.map (·.idle.length)).sum + ∑ t ∈ ts, (c.world.hands t).slots ∧
      ∀ s, (c.world.pools.map fun cell => (cell.idle.map (·.serial)).count s).sum +
        ∑ t ∈ ts, (c.world.hands t).decoders.count s + c.world.retired.count s =
          if s < c.world.serials then 1 else 0) ∧
    (∀ t call start k, c.running t = some ⟨call, start, .op .releaseRetain k⟩ →
      0 < c.world.retained) ∧
    c.world.retained ≤ M.config.maxRetainedDecoders ∧
    (∀ (id : Nat) cell, c.world.pools[id]? = some cell → cell.idle.length ≤ cell.perHandleCap) ∧
    (∀ m, (c.world.cores.codecs m).length ≤ M.config.maxCores ∧
      ∀ codec ∈ c.world.cores.codecs m, codec.method = m) ∧
    c.world.cores.buffers.length ≤ M.config.maxCores ∧
    c.world.cores.skips.length ≤ M.config.maxCores ∧
    (∀ t, c.running t = none → c.world.hands t = Hand.empty) ∧
    ((∀ t, (c.world.hands t).slots = 0 ∧ (c.world.hands t).pools = []) →
      (∀ fh cell, c.world.files fh = some cell → 0 < cell.refs → cell.file.kind.pools = []) →
      c.world.retained = 0) ∧
    ((∀ t, c.running t = none) →
      (∀ fh cell, c.world.files fh = some cell → cell.listed = false) →
      c.world.retained = 0) := by
  obtain ⟨ts, hb⟩ := (poolRun_good h).inv
  refine ⟨⟨ts, hb.absent, hb.retained, hb.owned⟩, fun t call start k hrun => poolRun_release h hrun,
    hb.limit, hb.caps, hb.codecs, hb.buffers, hb.skips, fun t => poolRun_idle h, ?_, ?_⟩
  · intro hhands hfiles
    refine hb.retained_eq_zero ?_ fun t => (hhands t).1
    rintro id (⟨t, ht⟩ | ⟨fh, cell, hcell, hid, hrefs⟩)
    · rw [(hhands t).2] at ht
      exact absurd ht (by simp)
    · rw [hfiles fh cell hcell hrefs] at hid
      exact absurd hid (by simp)
  · intro hidle hfiles
    have hempty : ∀ t, c.world.hands t = Hand.empty := fun t => poolRun_idle h (hidle t)
    refine hb.retained_eq_zero ?_ fun t => by rw [hempty t]; rfl
    rintro id (⟨t, ht⟩ | ⟨fh, cell, hcell, -, hrefs⟩)
    · rw [hempty t] at ht
      exact absurd ht (by simp [Hand.empty])
    · -- a file that is neither listed nor held is dropped
      have hcount := hb.refs fh cell hcell
      rw [hfiles fh cell hcell] at hcount
      have hzero : World.total c.world ts (·.files.count fh) = 0 :=
        Finset.sum_eq_zero fun t _ => by rw [hempty t]; rfl
      rw [hzero] at hcount
      simp at hcount
      omega

end Runs

/-- The sample is read, which leaves a decoder idle; its handle is released, and none is left. -/
theorem budget_balanced_sample :
    ∃ c c' : Lib.Config Unit (World Unit Sample.Inflater Unit) PoolCall Reply
        (@Res Sample.Inflater Unit),
      PoolRun Sample.codecs (Sample.mount 1 Sample.checksum) none c ∧
      c.world.retained = 1 ∧ 1 ≤ (Sample.mount 1 Sample.checksum).config.maxRetainedDecoders ∧
      PoolRun Sample.codecs (Sample.mount 1 Sample.checksum) none c' ∧ c'.world.serials = 1 ∧
      c'.world.retained = 0 := by
  set M := Sample.mount 1 Sample.checksum
  set S := poolSystem (τ := Unit) Sample.codecs M
  have hreach : ∀ calls replies w, Lib.runCalls S (det Sample.codecs M ()) () calls
      (World.start M none) = some (replies, w) → ∃ c, PoolRun Sample.codecs M none c ∧
        c.world = w ∧ ∀ t, c.running t = none := by
    intro calls replies w hserve
    obtain ⟨c, hc, hw, hidle, -⟩ :=
      Lib.reachable_runCalls (fun _ _ _ _ h => Or.inl h) Lib.Reachable.init rfl hserve
    exact ⟨c, hc, hw, fun _ => hidle⟩
  have hopen : (Lib.runCalls S (det Sample.codecs M ()) ()
      [.serve (.openFile 2 .rdonly), .serve (.read 1 0 10)]
      (World.start M none)).map (fun x => x.2.retained) = some 1 := by decide +kernel
  have hclosed : (Lib.runCalls S (det Sample.codecs M ()) ()
      [.serve (.openFile 2 .rdonly), .serve (.read 1 0 10), .serve (.release 1)]
      (World.start M none)).map (fun x => (x.2.serials, x.2.next,
        (x.2.files 0).isNone, (x.2.files 1).map (·.listed))) =
          some (1, 2, true, some false) := by decide +kernel
  obtain ⟨⟨replies, w⟩, hserve, hone⟩ := Option.map_eq_some_iff.mp hopen
  obtain ⟨⟨replies', w'⟩, hserve', hdone⟩ := Option.map_eq_some_iff.mp hclosed
  obtain ⟨c, hc, rfl, -⟩ := hreach _ _ _ hserve
  obtain ⟨c', hc', rfl, hidle'⟩ := hreach _ _ _ hserve'
  obtain ⟨hserials, hnext, hnone, hlisted⟩ : c'.world.serials = 1 ∧ c'.world.next = 2 ∧
      c'.world.files 0 = none ∧ (c'.world.files 1).map (·.listed) = some false := by
    simpa only [Prod.mk.injEq, Option.isNone_iff_eq_none] using hdone
  refine ⟨c, c', hc, hone, hone ▸ (budget_balanced hc).2.2.1, hc', hserials, ?_⟩
  refine (budget_balanced hc').2.2.2.2.2.2.2.2.2 hidle' fun fh cell hcell => ?_
  -- handle 1 is the only one there has been
  obtain ⟨ts, hb⟩ := (poolRun_good hc').inv
  have hlt : fh < 2 := by
    by_contra hge
    exact absurd (hcell.symm.trans (hb.fresh fh (by omega)).1) (by simp)
  rcases Nat.lt_succ_iff_lt_or_eq.mp hlt with hfh | rfl
  · obtain rfl := Nat.lt_one_iff.mp hfh
    exact absurd (hcell.symm.trans hnone) (by simp)
  · simpa [hcell] using hlisted

end ZipFs
