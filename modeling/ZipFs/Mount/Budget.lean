import ZipFs.Lib.Ledger
import ZipFs.Mount.Parts

/-!
# The books of the decoder budget

The budget's counter is raised inside the lock of a pool and lowered outside of it, so it
does not equal the number of idle decoders between two steps. What it does equal, in every
state, is the idle decoders and the slots in the hands of threads: taken out of a pool and
not released yet, or claimed and not pushed yet. The same goes for the decoders, each of
which is idle in one place, in the hands of one thread or recycled, and for the references
to an open file.

This module has the books and what every operation does to them.
-/

namespace ZipFs

variable {τ δ ζ : Type}

def Hand.empty : Hand := ⟨0, [], [], []⟩

/-- Somebody will drop the pool: a thread, or whoever drops its open file last. -/
def Owned (w : World τ δ ζ) (id : Nat) : Prop :=
  (∃ t, id ∈ (w.hands t).pools) ∨
    ∃ fh cell, w.files fh = some cell ∧ id ∈ cell.file.kind.pools ∧ 0 < cell.refs

/-- The cell of a pool is there, and has its cap. -/
def PoolKnown (pool : EntryPool) (w : World τ δ ζ) : Prop :=
  ∃ cell, w.pools[pool.id]? = some cell ∧ cell.perHandleCap = pool.perHandleCap

/-- How many of the idle decoders of a pool have this serial. -/
def PoolCell.serials (cell : PoolCell τ δ ζ) (s : Nat) : Nat :=
  (cell.idle.map (·.serial)).count s

/-- Added up over the hands of the threads `ts`. -/
def World.total (w : World τ δ ζ) (ts : Finset τ) (p : Hand → Nat) : Nat := ∑ t ∈ ts, p (w.hands t)

/-- The accounts of slots, decoders and cores. -/
structure Accounts (M : Mount) (ts : Finset τ) (w : World τ δ ζ) : Prop where
  /-- The counter is the idle decoders and the slots in hands. -/
  retained : w.retained = (w.pools.map (·.idle.length)).sum + w.total ts (·.slots)
  limit : w.retained ≤ M.config.maxRetainedDecoders
  caps : ∀ (id : Nat) cell, w.pools[id]? = some cell → cell.idle.length ≤ cell.perHandleCap
  /-- Each decoder made so far is in one place. -/
  owned : ∀ s, (w.pools.map (·.serials s)).sum + w.total ts (·.decoders.count s) +
    w.retired.count s = if s < w.serials then 1 else 0
  codecs : ∀ m, (w.cores.codecs m).length ≤ M.config.maxCores ∧
    ∀ codec ∈ w.cores.codecs m, codec.method = m
  buffers : w.cores.buffers.length ≤ M.config.maxCores
  skips : w.cores.skips.length ≤ M.config.maxCores

/-- The accounts of open files and of who drops which pool. -/
structure Handles (ts : Finset τ) (w : World τ δ ζ) : Prop where
  /-- An open file counts its handle and those who hold it. -/
  refs : ∀ fh cell, w.files fh = some cell →
    cell.refs = (if cell.listed then 1 else 0) + w.total ts (·.files.count fh)
  unheld : ∀ fh, w.files fh = none → ∀ t, fh ∉ (w.hands t).files
  fresh : ∀ fh, w.next ≤ fh → w.files fh = none ∧ w.minted fh = none
  known : ∀ fh cell pool, w.files fh = some cell → cell.file.kind = .coded pool → PoolKnown pool w
  /-- A pool with idle decoders is not lost. -/
  kept : ∀ (id : Nat) cell, w.pools[id]? = some cell → cell.idle ≠ [] → Owned w id

/-- The books balance, and only the threads `ts` have anything in their hands. -/
structure Balanced (M : Mount) (ts : Finset τ) (w : World τ δ ζ) : Prop
    extends Accounts M ts w, Handles ts w where
  absent : ∀ t, t ∉ ts → w.hands t = Hand.empty

/-! ## What leaves the books alone -/

section Frames

variable {M : Mount} {ts : Finset τ} {w w' : World τ δ ζ}

theorem total_congr {p : Hand → Nat} (h : ∀ t, p (w'.hands t) = p (w.hands t)) :
    w'.total ts p = w.total ts p :=
  Finset.sum_congr rfl fun t _ => h t

/-- Only slots and decoders matter for the first kind of account. -/
theorem Accounts.frame (h : Accounts M ts w) (hpools : w'.pools = w.pools)
    (hretained : w'.retained = w.retained) (hcores : w'.cores = w.cores)
    (hserials : w'.serials = w.serials) (hretired : w'.retired = w.retired)
    (hhands : ∀ t, (w'.hands t).slots = (w.hands t).slots ∧
      (w'.hands t).decoders = (w.hands t).decoders) : Accounts M ts w' := by
  refine ⟨?_, ?_, ?_, ?_, ?_, ?_, ?_⟩
  · rw [hretained, hpools, total_congr fun t => (hhands t).1]
    exact h.retained
  · rw [hretained]
    exact h.limit
  · rw [hpools]
    exact h.caps
  · intro s
    rw [hpools, hretired, hserials, total_congr fun t => congrArg (·.count s) (hhands t).2]
    exact h.owned s
  · rw [hcores]
    exact h.codecs
  · rw [hcores]
    exact h.buffers
  · rw [hcores]
    exact h.skips

/-- Pools with the same caps, where nothing new is idle that is not kept. -/
structure SamePools (w w' : World τ δ ζ) : Prop where
  caps : ∀ (id : Nat) cell, w.pools[id]? = some cell →
    ∃ cell', w'.pools[id]? = some cell' ∧ cell'.perHandleCap = cell.perHandleCap
  idle : ∀ (id : Nat) cell', w'.pools[id]? = some cell' → cell'.idle ≠ [] →
    (∃ cell, w.pools[id]? = some cell ∧ cell.idle ≠ []) ∨ Owned w id

theorem SamePools.of_eq (h : w'.pools = w.pools) : SamePools w w' := by
  refine ⟨fun id cell hc => ⟨cell, h ▸ hc, rfl⟩, fun id cell hc hne => .inl ⟨cell, h ▸ hc, hne⟩⟩

theorem SamePools.known {pool : EntryPool} (h : SamePools w w') (hp : PoolKnown pool w) :
    PoolKnown pool w' := by
  obtain ⟨cell, hcell, hcap⟩ := hp
  obtain ⟨cell', hcell', hcap'⟩ := h.caps _ cell hcell
  exact ⟨cell', hcell', hcap'.trans hcap⟩

/-- Only files and pools matter for the second kind of account. -/
theorem Handles.frame (h : Handles ts w) (hfiles : w'.files = w.files) (hnext : w'.next = w.next)
    (hminted : w'.minted = w.minted) (hpools : SamePools w w')
    (hhands : ∀ t, (w'.hands t).files = (w.hands t).files ∧
      (w'.hands t).pools = (w.hands t).pools) : Handles ts w' := by
  have hkept : ∀ id, Owned w id → Owned w' id := by
    intro id hk
    rcases hk with ⟨t, ht⟩ | hk
    · exact .inl ⟨t, (hhands t).2 ▸ ht⟩
    · exact .inr (hfiles ▸ hk)
  refine ⟨?_, ?_, ?_, ?_, ?_⟩
  · intro fh cell hcell
    rw [total_congr fun t => congrArg (·.count fh) (hhands t).1]
    exact h.refs fh cell (hfiles ▸ hcell)
  · intro fh hfh t
    rw [(hhands t).1]
    exact h.unheld fh (hfiles ▸ hfh) t
  · rw [hfiles, hnext, hminted]
    exact h.fresh
  · intro fh cell pool hcell hkind
    exact hpools.known (h.known fh cell pool (hfiles ▸ hcell) hkind)
  · intro id cell hcell hne
    rcases hpools.idle id cell hcell hne with ⟨cell', hcell', hne'⟩ | hk
    · exact hkept id (h.kept id cell' hcell' hne')
    · exact hkept id hk

end Frames

/-! ## Slots and decoders -/

section Hands

variable [DecidableEq τ] {K : Codecs δ ζ} {M : Mount} {ts : Finset τ} {t : τ}
variable {w w' : World τ δ ζ} {x : Hand}

theorem total_update (ht : t ∈ ts) (hw : w'.hands = Function.update w.hands t x) (p : Hand → Nat) :
    w'.total ts p + p (w.hands t) = w.total ts p + p x := by
  unfold World.total
  rw [hw]
  exact Lib.sum_update ht w.hands x p

/-- What the new hand has in common with the old one, all hands have. -/
theorem hands_congr {β : Type} {p : Hand → β} (hw : w'.hands = Function.update w.hands t x)
    (hp : p x = p (w.hands t)) (u : τ) : p (w'.hands u) = p (w.hands u) := by
  rw [hw]
  by_cases hu : u = t
  · subst hu
    rw [Function.update_self, hp]
  · rw [Function.update_of_ne hu]

theorem Balanced.absent_update (h : Balanced M ts w) (ht : t ∈ ts)
    (hw : w'.hands = Function.update w.hands t x) : ∀ u, u ∉ ts → w'.hands u = Hand.empty := by
  intro u hu
  have hne : u ≠ t := by
    rintro rfl
    exact hu ht
  rw [hw, Function.update_of_ne hne]
  exact h.absent u hu

/-- The books also balance with a thread that has nothing. -/
theorem Balanced.include (h : Balanced M ts w) (t : τ) : Balanced M (insert t ts) w := by
  have htotal : ∀ p : Hand → Nat, p Hand.empty = 0 → w.total (insert t ts) p = w.total ts p := by
    intro p hp
    refine Lib.sum_insert_of_absent _ fun ht => ?_
    rw [h.absent t ht, hp]
  refine ⟨⟨?_, h.limit, h.caps, fun s => ?_, h.codecs, h.buffers, h.skips⟩,
    ⟨fun fh cell hcell => ?_, h.unheld, h.fresh, h.known, h.kept⟩,
    fun u hu => h.absent u fun hmem => hu (Finset.mem_insert_of_mem hmem)⟩
  · rw [htotal _ rfl]
    exact h.retained
  · rw [htotal _ rfl]
    exact h.owned s
  · rw [htotal _ rfl]
    exact h.refs fh cell hcell

/-- A change of slots and decoders that balances, with the pools' caps and the files as they are. -/
theorem Balanced.settle (h : Balanced M ts w) (ht : t ∈ ts)
    (hw : w'.hands = Function.update w.hands t x) (hfiles : x.files = (w.hands t).files)
    (hpools : x.pools = (w.hands t).pools) (hsame : SamePools w w') (hf : w'.files = w.files)
    (hn : w'.next = w.next) (hm : w'.minted = w.minted) (ha : Accounts M ts w') :
    Balanced M ts w' := by
  refine ⟨ha, h.toHandles.frame hf hn hm hsame fun u => ⟨?_, ?_⟩, h.absent_update ht hw⟩
  · exact hands_congr hw hfiles u
  · exact hands_congr hw hpools u

/-- A thread claims a slot. -/
theorem Balanced.claim (h : Balanced M ts w) (ht : t ∈ ts)
    (hroom : w.retained < M.config.maxRetainedDecoders) :
    Balanced M ts ({ w with retained := w.retained + 1 }.setHand t
      { w.hands t with slots := (w.hands t).slots + 1 }) := by
  set w' := { w with retained := w.retained + 1 }.setHand t
    { w.hands t with slots := (w.hands t).slots + 1 }
  have hw : w'.hands = Function.update w.hands t
    { w.hands t with slots := (w.hands t).slots + 1 } := rfl
  refine h.settle ht hw rfl rfl (.of_eq rfl) rfl rfl rfl ⟨?_, hroom, h.caps, fun s => ?_, h.codecs,
    h.buffers, h.skips⟩
  · have hslots := total_update ht hw (·.slots)
    have hold := h.retained
    dsimp only at hslots
    change w.retained + 1 = (w.pools.map (·.idle.length)).sum + _
    omega
  · rw [total_congr (hands_congr (p := (·.decoders.count s)) hw rfl)]
    exact h.owned s

/-- A thread gives up a slot. The counter does not wrap. -/
theorem Balanced.unclaim (h : Balanced M ts w) (ht : t ∈ ts) (hslot : 0 < (w.hands t).slots) :
    0 < w.retained ∧ Balanced M ts ({ w with
        retained := if w.retained = 0 then 2 ^ 64 - 1 else w.retained - 1 }.setHand t
      { w.hands t with slots := (w.hands t).slots - 1 }) := by
  have hle : (w.hands t).slots ≤ w.total ts (·.slots) :=
    Lib.le_sum_of_holder (fun u => (w.hands u).slots) fun hu => absurd ht hu
  have hold := h.retained
  have hpos : 0 < w.retained := by omega
  refine ⟨hpos, ?_⟩
  rw [if_neg (by omega)]
  set w' := { w with retained := w.retained - 1 }.setHand t
    { w.hands t with slots := (w.hands t).slots - 1 }
  have hw : w'.hands = Function.update w.hands t
    { w.hands t with slots := (w.hands t).slots - 1 } := rfl
  have hlimit := h.limit
  refine h.settle ht hw rfl rfl (.of_eq rfl) rfl rfl rfl ⟨?_, ?_, h.caps, fun s => ?_, h.codecs,
    h.buffers, h.skips⟩
  · have hslots := total_update ht hw (·.slots)
    dsimp only at hslots
    change w.retained - 1 = (w.pools.map (·.idle.length)).sum + _
    omega
  · change w.retained - 1 ≤ _
    omega
  · rw [total_congr (hands_congr (p := (·.decoders.count s)) hw rfl)]
    exact h.owned s

/-- A thread takes the parts of a new decoder. -/
theorem Balanced.take (h : Balanced M ts w) (ht : t ∈ ts) (m : Method) :
    Balanced M ts ((takeCore K M m w).2.setHand t
      { w.hands t with decoders := w.serials :: (w.hands t).decoders }) := by
  set w' := (takeCore K M m w).2.setHand t
    { w.hands t with decoders := w.serials :: (w.hands t).decoders }
  have hw : w'.hands = Function.update w.hands t
    { w.hands t with decoders := w.serials :: (w.hands t).decoders } := rfl
  refine h.settle ht hw rfl rfl (.of_eq rfl) rfl rfl rfl ⟨?_, h.limit, h.caps, fun s => ?_, ?_,
    (popOr_length ..).trans h.buffers, (popOr_length ..).trans h.skips⟩
  · rw [total_congr (hands_congr (p := (·.slots)) hw rfl)]
    exact h.retained
  · have hd := total_update ht hw (·.decoders.count s)
    have hold := h.owned s
    dsimp only at hd
    rw [List.count_cons] at hd
    change (w.pools.map (·.serials s)).sum + w'.total ts (·.decoders.count s) +
      w.retired.count s = if s < w.serials + 1 then 1 else 0
    by_cases hs : w.serials = s
    · subst hs
      rw [if_neg (Nat.lt_irrefl _)] at hold
      rw [if_pos (Nat.lt_succ_self _)]
      simp only [beq_self_eq_true, if_true] at hd
      omega
    · have hbeq : (w.serials == s) = false := by simpa using hs
      rw [hbeq] at hd
      simp only [Bool.false_eq_true, if_false] at hd
      split at hold
      · rw [if_pos (by omega)]
        omega
      · rw [if_neg (by omega)]
        omega
  · intro m'
    by_cases hm : m' = m
    · subst hm
      change (Function.update w.cores.codecs m' _ m').length ≤ _ ∧
        ∀ codec ∈ Function.update w.cores.codecs m' _ m', _
      rw [Function.update_self]
      exact ⟨(popOr_length ..).trans (h.codecs m').1,
        (popOr_spec (h.codecs m').2 (Codec.method_new m')).2⟩
    · change (Function.update w.cores.codecs m _ m').length ≤ _ ∧
        ∀ codec ∈ Function.update w.cores.codecs m _ m', _
      rw [Function.update_of_ne hm]
      exact h.codecs m'

/-- A thread gives the parts of a decoder back. -/
theorem Balanced.recycle (h : Balanced M ts w) (ht : t ∈ ts) {parts : CoreParts δ ζ}
    (hmine : parts.serial ∈ (w.hands t).decoders) :
    Balanced M ts ((recycleCore M parts w).setHand t
      { w.hands t with decoders := (w.hands t).decoders.erase parts.serial }) := by
  set w' := (recycleCore M parts w).setHand t
    { w.hands t with decoders := (w.hands t).decoders.erase parts.serial }
  have hw : w'.hands = Function.update w.hands t
    { w.hands t with decoders := (w.hands t).decoders.erase parts.serial } := rfl
  refine h.settle ht hw rfl rfl (.of_eq rfl) rfl rfl rfl ⟨?_, h.limit, h.caps, fun s => ?_, ?_,
    pushUnder_length h.buffers _, pushUnder_length h.skips _⟩
  · rw [total_congr (hands_congr (p := (·.slots)) hw rfl)]
    exact h.retained
  · have hd := total_update ht hw (·.decoders.count s)
    have hcount := (List.perm_cons_erase hmine).count_eq s
    have hold := h.owned s
    dsimp only at hd
    rw [List.count_cons] at hcount
    change (w.pools.map (·.serials s)).sum + w'.total ts (·.decoders.count s) +
      (parts.serial :: w.retired).count s = if s < w.serials then 1 else 0
    rw [List.count_cons]
    omega
  · intro m'
    by_cases hm : m' = parts.codec.method
    · subst hm
      change (Function.update w.cores.codecs _ _ _).length ≤ _ ∧
        ∀ codec ∈ Function.update w.cores.codecs _ _ _, _
      rw [Function.update_self]
      exact ⟨pushUnder_length (h.codecs _).1 _, pushUnder_spec (h.codecs _).2 rfl⟩
    · change (Function.update w.cores.codecs _ _ m').length ≤ _ ∧
        ∀ codec ∈ Function.update w.cores.codecs _ _ m', _
      rw [Function.update_of_ne hm]
      exact h.codecs m'

/-! ## Pools -/

/-- A pool is kept if the thread that moves still sees to it, when it was the thread's or that of
an open file. -/
theorem Owned.update {j : Nat} (h : Owned w j) (hw : w'.hands = Function.update w.hands t x)
    (hmine : j ∈ (w.hands t).pools → Owned w' j)
    (hfile : ∀ fh cell, w.files fh = some cell → j ∈ cell.file.kind.pools → 0 < cell.refs →
      Owned w' j) : Owned w' j := by
  rcases h with ⟨u, hu⟩ | ⟨fh, cell, hcell, hj, hpos⟩
  · by_cases hut : u = t
    · subst hut
      exact hmine hu
    · refine .inl ⟨u, ?_⟩
      rw [hw, Function.update_of_ne hut]
      exact hu
  · exact hfile fh cell hcell hj hpos

omit [DecidableEq τ] in
/-- One cell is replaced by another with the same cap. -/
theorem SamePools.set {w' : World τ δ ζ} {id : Nat} {cell cell' : PoolCell τ δ ζ}
    (hcell : w.pools[id]? = some cell) (hw : w'.pools = w.pools.set id cell')
    (hcap : cell'.perHandleCap = cell.perHandleCap)
    (hidle : cell'.idle ≠ [] → cell.idle ≠ [] ∨ Owned w id) : SamePools w w' := by
  have hself : w'.pools[id]? = some cell' := by
    rw [hw]
    exact List.getElem?_set_self (List.getElem?_eq_some_iff.mp hcell).1
  have hne : ∀ j, j ≠ id → w'.pools[j]? = w.pools[j]? := by
    intro j hj
    rw [hw, List.getElem?_set_ne hj.symm]
  refine ⟨?_, ?_⟩
  · intro j c hc
    by_cases hj : j = id
    · subst hj
      obtain rfl := Option.some.inj (hcell.symm.trans hc)
      exact ⟨cell', hself, hcap⟩
    · exact ⟨c, (hne j hj).trans hc, rfl⟩
  · intro j c hc hnil
    by_cases hj : j = id
    · subst hj
      obtain rfl := Option.some.inj (hself.symm.trans hc)
      exact (hidle hnil).imp (fun h => ⟨cell, hcell, h⟩) id
    · exact .inl ⟨c, (hne j hj) ▸ hc, hnil⟩

omit [DecidableEq τ] in
/-- The caps after one cell is replaced. -/
theorem caps_set {cap : PoolCell τ δ ζ → Prop} {id : Nat} {cell' : PoolCell τ δ ζ}
    (h : ∀ (j : Nat) c, w.pools[j]? = some c → cap c) (h' : cap cell') :
    ∀ (j : Nat) c, (w.pools.set id cell')[j]? = some c → cap c := by
  intro j c hc
  rcases List.mem_or_eq_of_mem_set (List.mem_of_getElem? hc) with hmem | rfl
  · obtain ⟨k, hk⟩ := List.getElem?_of_mem hmem
    exact h k c hk
  · exact h'

omit [DecidableEq τ] in
/-- The lock of a pool is taken or released. -/
theorem Balanced.relock (h : Balanced M ts w) {id : Nat} {cell : PoolCell τ δ ζ}
    (hcell : w.pools[id]? = some cell) (lock : Option τ) :
    Balanced M ts (w.setPool id { cell with lock := lock }) := by
  have hsum : ∀ g : PoolCell τ δ ζ → Nat, g { cell with lock := lock } = g cell →
      ((w.pools.set id { cell with lock := lock }).map g).sum = (w.pools.map g).sum := by
    intro g hg
    have := Lib.sum_map_set hcell { cell with lock := lock } g
    omega
  refine ⟨⟨?_, h.limit, caps_set h.caps (h.caps id cell hcell), fun s => ?_, h.codecs, h.buffers,
    h.skips⟩, h.toHandles.frame rfl rfl rfl (.set hcell rfl rfl .inl) fun _ => ⟨rfl, rfl⟩, h.absent⟩
  · have hold := h.retained
    rw [← hsum _ rfl] at hold
    exact hold
  · have hold := h.owned s
    rw [← hsum _ rfl] at hold
    exact hold

/-- A thread takes a decoder out of a pool. -/
theorem Balanced.pick (h : Balanced M ts w) (ht : t ∈ ts) {id : Nat} {cell : PoolCell τ δ ζ}
    (hcell : w.pools[id]? = some cell) {d : PositionedDecoder δ ζ}
    {rest : List (PositionedDecoder δ ζ)} (hperm : cell.idle.Perm (d :: rest)) :
    Balanced M ts ((w.setPool id { cell with idle := rest }).setHand t
      { w.hands t with
        slots := (w.hands t).slots + 1, decoders := d.serial :: (w.hands t).decoders }) := by
  set x : Hand := { w.hands t with
    slots := (w.hands t).slots + 1, decoders := d.serial :: (w.hands t).decoders }
  set w' := (w.setPool id { cell with idle := rest }).setHand t x
  have hw : w'.hands = Function.update w.hands t x := rfl
  have hlen : cell.idle.length = rest.length + 1 := hperm.length_eq
  have hcap := h.caps id cell hcell
  refine h.settle ht hw rfl rfl (.set hcell rfl rfl fun _ => .inl ?_) rfl rfl rfl ⟨?_, h.limit,
    caps_set h.caps ?_, fun s => ?_, h.codecs, h.buffers, h.skips⟩
  · intro hnil
    rw [hnil] at hlen
    exact absurd hlen (by simp)
  · have hslots : w'.total ts (·.slots) + (w.hands t).slots =
        w.total ts (·.slots) + ((w.hands t).slots + 1) := total_update ht hw (·.slots)
    have hsum : (w'.pools.map (·.idle.length)).sum + cell.idle.length =
        (w.pools.map (·.idle.length)).sum + rest.length :=
      Lib.sum_map_set hcell _ (·.idle.length)
    have hold := h.retained
    change w.retained = _
    omega
  · change rest.length ≤ cell.perHandleCap
    omega
  · have hd : w'.total ts (·.decoders.count s) + (w.hands t).decoders.count s =
        w.total ts (·.decoders.count s) + (d.serial :: (w.hands t).decoders).count s :=
      total_update ht hw (·.decoders.count s)
    have hsum : (w'.pools.map (·.serials s)).sum + (cell.idle.map (·.serial)).count s =
        (w.pools.map (·.serials s)).sum + (rest.map (·.serial)).count s :=
      Lib.sum_map_set hcell _ (·.serials s)
    have hcount := (hperm.map (·.serial)).count_eq s
    have hold := h.owned s
    rw [List.map_cons, List.count_cons] at hcount
    rw [List.count_cons] at hd
    change _ + _ + w.retired.count s = if s < w.serials then 1 else 0
    omega

/-- A thread puts a decoder into a pool, for the slot that it has claimed. -/
theorem Balanced.push (h : Balanced M ts w) (ht : t ∈ ts) {id : Nat} {cell : PoolCell τ δ ζ}
    (hcell : w.pools[id]? = some cell) (hroom : cell.idle.length < cell.perHandleCap)
    (hkept : Owned w id) {d : PositionedDecoder δ ζ} (hslot : 0 < (w.hands t).slots)
    (hmine : d.serial ∈ (w.hands t).decoders) :
    Balanced M ts ((w.setPool id { cell with idle := cell.idle ++ [d] }).setHand t
      { w.hands t with
        slots := (w.hands t).slots - 1, decoders := (w.hands t).decoders.erase d.serial }) := by
  set x : Hand := { w.hands t with
    slots := (w.hands t).slots - 1, decoders := (w.hands t).decoders.erase d.serial }
  set w' := (w.setPool id { cell with idle := cell.idle ++ [d] }).setHand t x
  have hw : w'.hands = Function.update w.hands t x := rfl
  refine h.settle ht hw rfl rfl (.set hcell rfl rfl fun _ => .inr hkept) rfl rfl rfl ⟨?_, h.limit,
    caps_set h.caps ?_, fun s => ?_, h.codecs, h.buffers, h.skips⟩
  · have hslots : w'.total ts (·.slots) + (w.hands t).slots =
        w.total ts (·.slots) + ((w.hands t).slots - 1) := total_update ht hw (·.slots)
    have hsum : (w'.pools.map (·.idle.length)).sum + cell.idle.length =
        (w.pools.map (·.idle.length)).sum + (cell.idle ++ [d]).length :=
      Lib.sum_map_set hcell _ (·.idle.length)
    have hold := h.retained
    rw [List.length_append, List.length_singleton] at hsum
    change w.retained = _
    omega
  · change (cell.idle ++ [d]).length ≤ cell.perHandleCap
    rw [List.length_append, List.length_singleton]
    omega
  · have hd : w'.total ts (·.decoders.count s) + (w.hands t).decoders.count s =
        w.total ts (·.decoders.count s) + ((w.hands t).decoders.erase d.serial).count s :=
      total_update ht hw (·.decoders.count s)
    have hsum : (w'.pools.map (·.serials s)).sum + (cell.idle.map (·.serial)).count s =
        (w.pools.map (·.serials s)).sum + ((cell.idle ++ [d]).map (·.serial)).count s :=
      Lib.sum_map_set hcell _ (·.serials s)
    have hcount := (List.perm_cons_erase hmine).count_eq s
    have hold := h.owned s
    rw [List.map_append, List.count_append, List.map_singleton, List.count_singleton] at hsum
    rw [List.count_cons] at hcount
    change _ + _ + w.retired.count s = if s < w.serials then 1 else 0
    omega

/-- A thread takes all idle decoders out of a pool that it drops. -/
theorem Balanced.empty (h : Balanced M ts w) (ht : t ∈ ts) {id : Nat} {cell : PoolCell τ δ ζ}
    (hcell : w.pools[id]? = some cell) :
    Balanced M ts ((w.setPool id { cell with idle := [] }).setHand t
      { w.hands t with
        slots := (w.hands t).slots + cell.idle.length
        decoders := cell.idle.map (·.serial) ++ (w.hands t).decoders
        pools := (w.hands t).pools.erase id }) := by
  set x : Hand := { w.hands t with
    slots := (w.hands t).slots + cell.idle.length
    decoders := cell.idle.map (·.serial) ++ (w.hands t).decoders
    pools := (w.hands t).pools.erase id }
  set w' := (w.setPool id { cell with idle := [] }).setHand t x
  have hw : w'.hands = Function.update w.hands t x := rfl
  have hsame : SamePools w w' := .set hcell rfl rfl fun hne => absurd rfl hne
  have hself : w'.pools[id]? = some { cell with idle := [] } :=
    List.getElem?_set_self (List.getElem?_eq_some_iff.mp hcell).1
  -- other pools stay with whoever has them
  have hkept : ∀ j, j ≠ id → Owned w j → Owned w' j := fun j hj hk =>
    hk.update hw (fun hj' => .inl ⟨t, by
      rw [hw, Function.update_self]
      exact (List.mem_erase_of_ne hj).mpr hj'⟩) fun fh c hc hjc hpos => .inr ⟨fh, c, hc, hjc, hpos⟩
  refine ⟨⟨?_, h.limit, caps_set h.caps (Nat.zero_le _), fun s => ?_, h.codecs, h.buffers, h.skips⟩,
    ⟨?_, ?_, h.fresh, ?_, ?_⟩, h.absent_update ht hw⟩
  · have hslots : w'.total ts (·.slots) + (w.hands t).slots =
        w.total ts (·.slots) + ((w.hands t).slots + cell.idle.length) :=
      total_update ht hw (·.slots)
    have hsum : (w'.pools.map (·.idle.length)).sum + cell.idle.length =
        (w.pools.map (·.idle.length)).sum + 0 := Lib.sum_map_set hcell _ (·.idle.length)
    have hold := h.retained
    change w.retained = _
    omega
  · have hd : w'.total ts (·.decoders.count s) + (w.hands t).decoders.count s =
        w.total ts (·.decoders.count s) +
          (cell.idle.map (·.serial) ++ (w.hands t).decoders).count s :=
      total_update ht hw (·.decoders.count s)
    have hsum : (w'.pools.map (·.serials s)).sum + (cell.idle.map (·.serial)).count s =
        (w.pools.map (·.serials s)).sum + 0 := Lib.sum_map_set hcell _ (·.serials s)
    have hold := h.owned s
    rw [List.count_append] at hd
    change _ + _ + w.retired.count s = if s < w.serials then 1 else 0
    omega
  · intro fh c hc
    rw [total_congr (hands_congr (p := (·.files.count fh)) hw rfl)]
    exact h.refs fh c hc
  · intro fh hfh u
    rw [hands_congr (p := (·.files)) hw rfl u]
    exact h.unheld fh hfh u
  · intro fh c pool hc hkind
    exact hsame.known (h.known fh c pool hc hkind)
  · intro j c hc hne
    have hj : j ≠ id := by
      rintro rfl
      obtain rfl := Option.some.inj (hself.symm.trans hc)
      exact hne rfl
    rcases hsame.idle j c hc hne with ⟨c', hc', hne'⟩ | hk
    · exact hkept j hj (h.kept j c' hc' hne')
    · exact hkept j hj hk

/-- A thread makes a pool, which is its own. -/
theorem Balanced.newPool (h : Balanced M ts w) (ht : t ∈ ts) (loc : EntryLocation)
    (cap metaIdx : Nat) (keeper : Option τ) :
    Balanced M ts (({ w with pools := w.pools ++ [⟨[], none, loc, cap, metaIdx, keeper⟩] } :
        World τ δ ζ).setHand t
      { w.hands t with pools := w.pools.length :: (w.hands t).pools }) := by
  set x : Hand := { w.hands t with pools := w.pools.length :: (w.hands t).pools }
  set w' := ({ w with pools := w.pools ++ [⟨[], none, loc, cap, metaIdx, keeper⟩] } :
    World τ δ ζ).setHand t x
  have hw : w'.hands = Function.update w.hands t x := rfl
  have hpools : w'.pools = w.pools ++ [⟨[], none, loc, cap, metaIdx, keeper⟩] := rfl
  have hold : ∀ (j : Nat) c, w.pools[j]? = some c → w'.pools[j]? = some c := by
    intro j c hc
    rw [hpools, List.getElem?_append_left (List.getElem?_eq_some_iff.mp hc).1]
    exact hc
  have hnew : ∀ (j : Nat) c, w'.pools[j]? = some c →
      w.pools[j]? = some c ∨ c = ⟨[], none, loc, cap, metaIdx, keeper⟩ := by
    intro j c hc
    rw [hpools] at hc
    rcases List.mem_append.mp (List.mem_of_getElem? hc) with _ | hmem
    · rcases Nat.lt_or_ge j w.pools.length with hj | hj
      · rw [List.getElem?_append_left hj] at hc
        exact .inl hc
      · rw [List.getElem?_append_right hj] at hc
        exact .inr (List.mem_singleton.mp (List.mem_of_getElem? hc))
    · exact .inr (List.mem_singleton.mp hmem)
  have hkept : ∀ j, Owned w j → Owned w' j := fun j hk =>
    hk.update hw (fun hj => .inl ⟨t, by
      rw [hw, Function.update_self]
      exact List.mem_cons_of_mem _ hj⟩) fun fh c hc hjc hpos => .inr ⟨fh, c, hc, hjc, hpos⟩
  refine ⟨⟨?_, h.limit, ?_, fun s => ?_, h.codecs, h.buffers, h.skips⟩, ⟨?_, ?_, h.fresh, ?_, ?_⟩,
    h.absent_update ht hw⟩
  · rw [total_congr (hands_congr (p := (·.slots)) hw rfl), hpools, List.map_append, List.sum_append]
    exact h.retained
  · intro j c hc
    rcases hnew j c hc with hc | rfl
    · exact h.caps j c hc
    · exact Nat.zero_le _
  · rw [total_congr (hands_congr (p := (·.decoders.count s)) hw rfl), hpools, List.map_append,
      List.sum_append]
    exact h.owned s
  · intro fh c hc
    rw [total_congr (hands_congr (p := (·.files.count fh)) hw rfl)]
    exact h.refs fh c hc
  · intro fh hfh u
    rw [hands_congr (p := (·.files)) hw rfl u]
    exact h.unheld fh hfh u
  · intro fh c pool hc hkind
    obtain ⟨cell, hcell, hcap⟩ := h.known fh c pool hc hkind
    exact ⟨cell, hold _ cell hcell, hcap⟩
  · intro j c hc hne
    rcases hnew j c hc with hc | rfl
    · exact hkept j (h.kept j c hc hne)
    · exact absurd rfl hne

/-! ## Open files -/

omit [DecidableEq τ] in
/-- A thread mints a handle. -/
theorem Balanced.mint (h : Balanced M ts w) (t : τ) :
    Balanced M ts { w with
      next := w.next + 1, minted := Function.update w.minted w.next (some t) } := by
  refine ⟨h.toAccounts.frame rfl rfl rfl rfl rfl fun _ => ⟨rfl, rfl⟩,
    ⟨h.refs, h.unheld, ?_, h.known, h.kept⟩, h.absent⟩
  intro fh hfh
  have hfh' : w.next + 1 ≤ fh := hfh
  obtain ⟨hfile, hmint⟩ := h.fresh fh (by omega)
  refine ⟨hfile, ?_⟩
  change Function.update w.minted w.next (some t) fh = none
  rw [Function.update_of_ne (by omega)]
  exact hmint

/-- A change of files and of what a hand has of them, with slots, decoders and pools as they are. -/
theorem Balanced.refile (h : Balanced M ts w) (ht : t ∈ ts)
    (hw : w'.hands = Function.update w.hands t x) (hslots : x.slots = (w.hands t).slots)
    (hdecoders : x.decoders = (w.hands t).decoders) (hpools : w'.pools = w.pools)
    (hretained : w'.retained = w.retained) (hcores : w'.cores = w.cores)
    (hserials : w'.serials = w.serials) (hretired : w'.retired = w.retired)
    (hhandles : Handles ts w') : Balanced M ts w' := by
  refine ⟨h.toAccounts.frame hpools hretained hcores hserials hretired fun u => ⟨?_, ?_⟩, hhandles,
    h.absent_update ht hw⟩
  · exact hands_congr hw hslots u
  · exact hands_congr hw hdecoders u

/-- A thread puts an open file behind a handle that it has minted. -/
theorem Balanced.insert (h : Balanced M ts w) (ht : t ∈ ts) {fh : Nat} {file : OpenFile}
    (hmint : w.minted fh = some t) (hnone : w.files fh = none)
    (hknown : ∀ pool, file.kind = .coded pool → PoolKnown pool w) :
    Balanced M ts ((w.setFile fh ⟨file, 1, true⟩).setHand t
      { w.hands t with pools := (w.hands t).pools.diff file.kind.pools }) := by
  set x : Hand := { w.hands t with pools := (w.hands t).pools.diff file.kind.pools }
  set w' := (w.setFile fh ⟨file, 1, true⟩).setHand t x
  have hw : w'.hands = Function.update w.hands t x := rfl
  have hself : w'.files fh = some ⟨file, 1, true⟩ := World.setFile_self ..
  have hne : ∀ fh', fh' ≠ fh → w'.files fh' = w.files fh' := fun fh' h' => World.setFile_ne w h' _
  have hfiles : ∀ u, (w'.hands u).files = (w.hands u).files := hands_congr hw rfl
  have htotal : ∀ n, w'.total ts (·.files.count n) = w.total ts (·.files.count n) := fun n =>
    total_congr fun u => congrArg (·.count n) (hfiles u)
  refine h.refile ht hw rfl rfl rfl rfl rfl rfl rfl ⟨?_, ?_, ?_, ?_, ?_⟩
  · intro n c hc
    rw [htotal n]
    by_cases hn : n = fh
    · subst hn
      obtain rfl := Option.some.inj (hself.symm.trans hc)
      have hzero : w.total ts (·.files.count n) = 0 :=
        Finset.sum_eq_zero fun u _ => List.count_eq_zero.mpr (h.unheld n hnone u)
      rw [hzero]
      rfl
    · exact h.refs n c ((hne n hn) ▸ hc)
  · intro n hn u
    rw [hfiles u]
    have hnf : n ≠ fh := by
      rintro rfl
      exact absurd (hself.symm.trans hn) (by simp)
    exact h.unheld n ((hne n hnf) ▸ hn) u
  · intro n hn
    have hnf : n ≠ fh := by
      rintro rfl
      exact absurd (hmint.symm.trans (h.fresh n hn).2) (by simp)
    exact ⟨(hne n hnf).trans (h.fresh n hn).1, (h.fresh n hn).2⟩
  · intro n c pool hc hkind
    by_cases hn : n = fh
    · subst hn
      obtain rfl := Option.some.inj (hself.symm.trans hc)
      exact hknown pool hkind
    · exact h.known n c pool ((hne n hn) ▸ hc) hkind
  · intro j c hc hidle
    refine (h.kept j c hc hidle).update hw ?_ ?_
    · intro hj
      by_cases hmem : j ∈ file.kind.pools
      · exact .inr ⟨fh, _, hself, hmem, Nat.one_pos⟩
      · refine .inl ⟨t, ?_⟩
        rw [hw, Function.update_self]
        exact List.mem_diff_of_mem hj hmem
    · intro n cell hcell hj hpos
      have hnf : n ≠ fh := by
        rintro rfl
        exact absurd (hcell.symm.trans hnone) (by simp)
      exact .inr ⟨n, cell, (hne n hnf).trans hcell, hj, hpos⟩

/-- The references to one open file change, and with them what a thread has of it. -/
theorem Balanced.recount (h : Balanced M ts w) (ht : t ∈ ts) {fh : Nat} {cell cell' : FileCell}
    (hcell : w.files fh = some cell) (hfile : cell'.file = cell.file)
    (hslots : x.slots = (w.hands t).slots) (hdecoders : x.decoders = (w.hands t).decoders)
    (hcount : ∀ n, n ≠ fh → x.files.count n = (w.hands t).files.count n)
    (hrefs : cell'.refs + (w.hands t).files.count fh + (if cell.listed then 1 else 0) =
      cell.refs + x.files.count fh + if cell'.listed then 1 else 0)
    (hpools : ∀ j ∈ (w.hands t).pools, j ∈ x.pools)
    (hlast : 0 < cell.refs → 0 < cell'.refs ∨ ∀ j ∈ cell.file.kind.pools, j ∈ x.pools) :
    Balanced M ts ((w.setFile fh cell').setHand t x) := by
  set w' := (w.setFile fh cell').setHand t x
  have hw : w'.hands = Function.update w.hands t x := rfl
  have hself : w'.files fh = some cell' := World.setFile_self ..
  have hne : ∀ n, n ≠ fh → w'.files n = w.files n := fun n hn => World.setFile_ne w hn _
  have hmine : ∀ j, j ∈ x.pools → Owned w' j := by
    intro j hj
    refine .inl ⟨t, ?_⟩
    rw [hw, Function.update_self]
    exact hj
  refine h.refile ht hw hslots hdecoders rfl rfl rfl rfl rfl ⟨?_, ?_, ?_, ?_, ?_⟩
  · intro n c hc
    have htotal : w'.total ts (·.files.count n) + (w.hands t).files.count n =
        w.total ts (·.files.count n) + x.files.count n := total_update ht hw (·.files.count n)
    by_cases hn : n = fh
    · subst hn
      obtain rfl := Option.some.inj (hself.symm.trans hc)
      have hold := h.refs n cell hcell
      omega
    · rw [h.refs n c ((hne n hn) ▸ hc)]
      have := hcount n hn
      omega
  · intro n hn u
    have hnf : n ≠ fh := by
      rintro rfl
      exact absurd (hself.symm.trans hn) (by simp)
    have hnone := h.unheld n ((hne n hnf) ▸ hn)
    rw [hw]
    by_cases hut : u = t
    · subst hut
      rw [Function.update_self, ← List.count_eq_zero, hcount n hnf, List.count_eq_zero]
      exact hnone u
    · rw [Function.update_of_ne hut]
      exact hnone u
  · intro n hn
    have hnf : n ≠ fh := by
      rintro rfl
      exact absurd (hcell.symm.trans (h.fresh n hn).1) (by simp)
    exact ⟨(hne n hnf).trans (h.fresh n hn).1, (h.fresh n hn).2⟩
  · intro n c pool hc hkind
    by_cases hn : n = fh
    · subst hn
      obtain rfl := Option.some.inj (hself.symm.trans hc)
      exact h.known n cell pool hcell (hfile ▸ hkind)
    · exact h.known n c pool ((hne n hn) ▸ hc) hkind
  · intro j c hc hidle
    refine (h.kept j c hc hidle).update hw (fun hj => hmine j (hpools j hj)) ?_
    intro n c' hc' hj hpos
    by_cases hn : n = fh
    · subst hn
      obtain rfl := Option.some.inj (hcell.symm.trans hc')
      rcases hlast hpos with hpos' | hown
      · exact .inr ⟨n, cell', hself, hfile ▸ hj, hpos'⟩
      · exact hmine j (hown j hj)
    · exact .inr ⟨n, c', (hne n hn).trans hc', hj, hpos⟩

/-- A thread takes a reference to a listed file. -/
theorem Balanced.hold (h : Balanced M ts w) (ht : t ∈ ts) {fh : Nat} {cell : FileCell}
    (hcell : w.files fh = some cell) :
    Balanced M ts ((w.setFile fh { cell with refs := cell.refs + 1 }).holdFile t fh) := by
  refine h.recount ht hcell rfl rfl rfl ?_ ?_ (fun _ hj => hj) fun _ => .inl (Nat.succ_pos _)
  · intro n hn
    exact List.count_cons_of_ne (Ne.symm hn)
  · change cell.refs + 1 + _ + _ = cell.refs + (fh :: (w.hands t).files).count fh +
      if cell.listed then 1 else 0
    rw [List.count_cons_self]
    omega

/-- A thread takes the reference that the handle table had. -/
theorem Balanced.unlist (h : Balanced M ts w) (ht : t ∈ ts) {fh : Nat} {cell : FileCell}
    (hcell : w.files fh = some cell) (hlisted : cell.listed = true) :
    Balanced M ts ((w.setFile fh { cell with listed := false }).holdFile t fh) := by
  refine h.recount ht hcell rfl rfl rfl ?_ ?_ (fun _ hj => hj) fun hpos => .inl hpos
  · intro n hn
    exact List.count_cons_of_ne (Ne.symm hn)
  · change cell.refs + _ + _ = cell.refs + (fh :: (w.hands t).files).count fh + _
    rw [List.count_cons_self, if_pos hlisted]
    rfl

/-- A thread drops its reference to a file, and takes over the pool if it was the last. -/
theorem Balanced.dropFile (h : Balanced M ts w) (ht : t ∈ ts) {fh : Nat} {cell : FileCell}
    (hcell : w.files fh = some cell) (hmine : fh ∈ (w.hands t).files) :
    Balanced M ts ((w.setFile fh { cell with refs := cell.refs - 1 }).setHand t
      { w.hands t with
        files := (w.hands t).files.erase fh
        pools := (if cell.refs = 1 then cell.file.kind.pools else []) ++ (w.hands t).pools }) := by
  have hpos : 0 < (w.hands t).files.count fh := List.count_pos_iff.mpr hmine
  have hle : (w.hands t).files.count fh ≤ w.total ts (·.files.count fh) :=
    Lib.le_sum_of_holder (fun u => (w.hands u).files.count fh) fun hu => absurd ht hu
  have hrefs := h.refs fh cell hcell
  refine h.recount ht hcell rfl rfl rfl ?_ ?_ (fun j hj => List.mem_append_right _ hj) ?_
  · intro n hn
    exact List.count_erase_of_ne hn
  · change cell.refs - 1 + _ + _ = cell.refs + ((w.hands t).files.erase fh).count fh +
      if cell.listed then 1 else 0
    rw [List.count_erase_self]
    omega
  · intro _
    by_cases hlast : cell.refs = 1
    · refine .inr fun j hj => List.mem_append_left _ ?_
      rw [if_pos hlast]
      exact hj
    · left
      change 0 < cell.refs - 1
      omega

end Hands

end ZipFs
