import ZipFs.Mount.Budget

/-!
# Every function keeps the books

A thread relies on the others to leave its hand, the pools it has locked and the handles it
has minted alone. Under that, each function leaves the hand of its thread as it found it, up
to what it returns: a decoder that was checked out, a file that was opened.
-/

namespace ZipFs

open Lib (Safe Logic)

variable {τ δ ζ : Type}

/-! ## The protocol -/

/-- Pools keep their caps, and handles their files. -/
structure Lasts (w w' : World τ δ ζ) : Prop where
  pools : ∀ (id : Nat) cell, w.pools[id]? = some cell →
    ∃ cell', w'.pools[id]? = some cell' ∧ cell'.perHandleCap = cell.perHandleCap
  files : ∀ fh cell, w.files fh = some cell → ∃ cell', w'.files fh = some cell' ∧
    cell'.file = cell.file

/-- What thread `t` sees of the others. -/
structure Apart (t : τ) (w w' : World τ δ ζ) : Prop extends Lasts w w' where
  hands : w'.hands t = w.hands t
  locked : ∀ (id : Nat) cell, w.pools[id]? = some cell → cell.lock = some t →
    w'.pools[id]? = some cell
  minted : ∀ fh, w.minted fh = some t → w.files fh = none →
    w'.minted fh = some t ∧ w'.files fh = none

theorem Lasts.refl (w : World τ δ ζ) : Lasts w w :=
  ⟨fun _ cell h => ⟨cell, h, rfl⟩, fun _ cell h => ⟨cell, h, rfl⟩⟩

theorem Lasts.trans {w₁ w₂ w₃ : World τ δ ζ} (h : Lasts w₁ w₂) (h' : Lasts w₂ w₃) :
    Lasts w₁ w₃ := by
  refine ⟨?_, ?_⟩
  · intro id cell hcell
    obtain ⟨cell', hcell', hcap⟩ := h.pools id cell hcell
    obtain ⟨cell'', hcell'', hcap'⟩ := h'.pools id cell' hcell'
    exact ⟨cell'', hcell'', hcap'.trans hcap⟩
  · intro fh cell hcell
    obtain ⟨cell', hcell', hfile⟩ := h.files fh cell hcell
    obtain ⟨cell'', hcell'', hfile'⟩ := h'.files fh cell' hcell'
    exact ⟨cell'', hcell'', hfile'.trans hfile⟩

/-- The books balance; a hand, a lock and a handle that was drawn are their thread's own. -/
def budgetProtocol (τ δ ζ : Type) (M : Mount) : Lib.Protocol τ (World τ δ ζ) where
  inv w := ∃ ts, Balanced M ts w
  rely := Apart
  grow := Lasts
  rely_refl _ w := ⟨.refl w, rfl, fun _ _ h _ => h, fun _ h h' => ⟨h, h'⟩⟩
  rely_trans _ _ _ _ h h' := by
    refine ⟨h.toLasts.trans h'.toLasts, h'.hands.trans h.hands, ?_, ?_⟩
    · exact fun id cell hc hl => h'.locked id cell (h.locked id cell hc hl) hl
    · intro fh hm hn
      obtain ⟨hm', hn'⟩ := h.minted fh hm hn
      exact h'.minted fh hm' hn'
  grow_refl := .refl
  grow_trans _ _ _ := .trans
  grow_of_rely _ _ _ h := h.toLasts

section Moves

variable {M : Mount} {t : τ} {w w' : World τ δ ζ}

/-- A step of thread `t` that keeps the books, and looks to the others as they rely on. -/
structure Moves (M : Mount) (t : τ) (w w' : World τ δ ζ) : Prop where
  books : ∃ ts, Balanced M ts w'
  lasts : Lasts w w'
  others : ∀ u, u ≠ t → Apart u w w'

/-- How a step may treat the pools. -/
structure PoolsMove (t : τ) (w w' : World τ δ ζ) : Prop where
  caps : ∀ (id : Nat) cell, w.pools[id]? = some cell →
    ∃ cell', w'.pools[id]? = some cell' ∧ cell'.perHandleCap = cell.perHandleCap
  locked : ∀ u, u ≠ t → ∀ (id : Nat) cell, w.pools[id]? = some cell → cell.lock = some u →
    w'.pools[id]? = some cell

/-- A step that leaves the pools as they are. -/
theorem PoolsMove.of_eq (h : w'.pools = w.pools) : PoolsMove t w w' := by
  refine ⟨?_, ?_⟩
  · intro id cell hc
    exact ⟨cell, h ▸ hc, rfl⟩
  · intro u _ id cell hc _
    exact h ▸ hc

/-- One cell is replaced that no other thread has locked. -/
theorem PoolsMove.set {id : Nat} {cell cell' : PoolCell τ δ ζ} (hcell : w.pools[id]? = some cell)
    (hw : w'.pools = w.pools.set id cell') (hcap : cell'.perHandleCap = cell.perHandleCap)
    (hfree : ∀ u, u ≠ t → cell.lock ≠ some u) : PoolsMove t w w' := by
  have hne : ∀ j, j ≠ id → w'.pools[j]? = w.pools[j]? := by
    intro j hj
    rw [hw, List.getElem?_set_ne hj.symm]
  refine ⟨?_, ?_⟩
  · intro j c hc
    by_cases hj : j = id
    · subst hj
      obtain rfl := Option.some.inj (hcell.symm.trans hc)
      refine ⟨cell', ?_, hcap⟩
      rw [hw]
      exact List.getElem?_set_self (List.getElem?_eq_some_iff.mp hcell).1
    · exact ⟨c, (hne j hj).trans hc, rfl⟩
  · intro u hu j c hc hl
    have hj : j ≠ id := by
      rintro rfl
      obtain rfl := Option.some.inj (hcell.symm.trans hc)
      exact hfree u hu hl
    exact (hne j hj).trans hc

/-- A step that leaves the files alone. -/
theorem Moves.of_pools {ts : Finset τ} (hb : Balanced M ts w')
    (hh : ∀ u, u ≠ t → w'.hands u = w.hands u) (hp : PoolsMove t w w') (hf : w'.files = w.files)
    (hm : w'.minted = w.minted) : Moves M t w w' := by
  have hlasts : Lasts w w' := ⟨hp.caps, fun fh cell hc => ⟨cell, hf ▸ hc, rfl⟩⟩
  refine ⟨⟨ts, hb⟩, hlasts, fun u hu => ⟨hlasts, hh u hu, hp.locked u hu, ?_⟩⟩
  intro fh hmint hnone
  rw [hm, hf]
  exact ⟨hmint, hnone⟩

/-- A step that leaves the pools alone. -/
theorem Moves.of_files {ts : Finset τ} (hb : Balanced M ts w')
    (hh : ∀ u, u ≠ t → w'.hands u = w.hands u) (hp : w'.pools = w.pools)
    (hf : ∀ fh cell, w.files fh = some cell → ∃ cell', w'.files fh = some cell' ∧
      cell'.file = cell.file)
    (hm : ∀ u, u ≠ t → ∀ fh, w.minted fh = some u → w.files fh = none →
      w'.minted fh = some u ∧ w'.files fh = none) : Moves M t w w' := by
  have hpools : PoolsMove t w w' := .of_eq hp
  have hlasts : Lasts w w' := ⟨hpools.caps, hf⟩
  exact ⟨⟨ts, hb⟩, hlasts, fun u hu => ⟨hlasts, hh u hu, hpools.locked u hu, hm u hu⟩⟩

end Moves

section Ops

variable [DecidableEq τ] {K : Codecs δ ζ} {M : Mount} {t : τ} {α : Type}

/-- Among other threads, under the protocol of the books. -/
abbrev BudgetSafe (K : Codecs δ ζ) (M : Mount) (t : τ) (Q : α → World τ δ ζ → Prop)
    (p : Act δ ζ α) (w : World τ δ ζ) : Prop :=
  Safe (budgetProtocol τ δ ζ M) (exec K M) t Q p w

/-- Other hands when one is changed. -/
theorem others_update {w w' : World τ δ ζ} {x : Hand}
    (hw : w'.hands = Function.update w.hands t x) : ∀ u, u ≠ t → w'.hands u = w.hands u := by
  intro u hu
  rw [hw, Function.update_of_ne hu]

/-- One operation of a thread whose hand is `h`. -/
theorem safe_budgetOp {o : Op δ ζ} {w : World τ δ ζ} {h : Hand} {Q : Res o → World τ δ ζ → Prop}
    (hw : w.hands t = h)
    (ho : ∀ w₁ ts, Apart t w w₁ → w₁.hands t = h → t ∈ ts → Balanced M ts w₁ →
      ∀ r w₂, exec K M t o w₁ r w₂ → Moves M t w₁ w₂ ∧ ∀ w₃, Apart t w₂ w₃ → Q r w₃) :
    BudgetSafe K M t Q (.op o .ret) w := by
  intro w₁ h₁ hpost r w₂ he
  obtain ⟨ts, hb⟩ := hpost
  obtain ⟨hm, hq⟩ := ho w₁ (insert t ts) h₁ (h₁.hands.trans hw) (Finset.mem_insert_self ..)
    (hb.include t) r w₂ he
  exact ⟨hm.books, hm.lasts, hm.others, fun w₃ h₃ _ => hq w₃ h₃⟩

/-! ## Slots and decoders -/

variable {w : World τ δ ζ} {h : Hand}

/-- A slot is given back from the hand. -/
theorem safe_releaseRetain (hw : w.hands t = h) (hslot : 0 < h.slots) :
    BudgetSafe K M t (fun _ w' => w'.hands t = { h with slots := h.slots - 1 })
      Act.releaseRetain w := by
  refine safe_budgetOp (o := .releaseRetain) hw ?_
  intro w₁ ts _ hh ht hb r w₂ he
  subst hh
  obtain ⟨-, rfl⟩ := Prod.mk.inj (Option.some.inj (he.resolve_right fun hf => hf.1))
  refine ⟨.of_pools (hb.unclaim ht hslot).2 (others_update rfl) (.of_eq rfl) rfl rfl, ?_⟩
  intro w₃ h₃
  exact h₃.hands.trans (Function.update_self ..)

/-- A slot goes into the hand if the budget has one left. -/
theorem safe_tryRetain (hw : w.hands t = h) {id : Nat} {cell : PoolCell τ δ ζ}
    (hcell : w.pools[id]? = some cell) (hlock : cell.lock = some t) :
    BudgetSafe K M t (fun r w' => w'.pools[id]? = some cell ∧
      w'.hands t = if r then { h with slots := h.slots + 1 } else h) Act.tryRetain w := by
  refine safe_budgetOp (o := .tryRetain) hw ?_
  intro w₁ ts h₁ hh ht hb r w₂ he
  subst hh
  have hcell₁ := h₁.locked id cell hcell hlock
  have hdet := he.resolve_right fun hf => hf.1
  simp only [det] at hdet
  split at hdet
  · rename_i hroom
    obtain ⟨rfl, rfl⟩ := Prod.mk.inj (Option.some.inj hdet)
    refine ⟨.of_pools (hb.claim ht hroom) (others_update rfl) (.of_eq rfl) rfl rfl, ?_⟩
    intro w₃ h₃
    exact ⟨h₃.locked id cell hcell₁ hlock, h₃.hands.trans (Function.update_self ..)⟩
  · obtain ⟨rfl, rfl⟩ := Prod.mk.inj (Option.some.inj hdet)
    refine ⟨.of_pools hb (fun _ _ => rfl) (.of_eq rfl) rfl rfl, ?_⟩
    intro w₃ h₃
    exact ⟨h₃.locked id cell hcell₁ hlock, h₃.hands⟩

/-- A decoder's parts come into the hand. -/
theorem safe_takeCore (hw : w.hands t = h) (m : Method) :
    BudgetSafe K M t (fun r w' => w'.hands t = { h with decoders := r.serial :: h.decoders })
      (Act.takeCore m) w := by
  refine safe_budgetOp (o := .takeCore m) hw ?_
  intro w₁ ts _ hh ht hb r w₂ he
  subst hh
  obtain ⟨rfl, rfl⟩ := Prod.mk.inj (Option.some.inj (he.resolve_right fun hf => hf.1))
  refine ⟨.of_pools (hb.take ht m) (others_update rfl) (.of_eq rfl) rfl rfl, ?_⟩
  intro w₃ h₃
  exact h₃.hands.trans (Function.update_self ..)

/-- They leave it. -/
theorem safe_recycleCore (hw : w.hands t = h) (parts : CoreParts δ ζ)
    (hmine : parts.serial ∈ h.decoders) :
    BudgetSafe K M t (fun _ w' => w'.hands t = { h with decoders := h.decoders.erase parts.serial })
      (Act.recycleCore parts) w := by
  refine safe_budgetOp (o := .recycleCore parts) hw ?_
  intro w₁ ts _ hh ht hb r w₂ he
  subst hh
  obtain ⟨-, rfl⟩ := Prod.mk.inj (Option.some.inj (he.resolve_right fun hf => hf.1))
  refine ⟨.of_pools (hb.recycle ht hmine) (others_update rfl) (.of_eq rfl) rfl rfl, ?_⟩
  intro w₃ h₃
  exact h₃.hands.trans (Function.update_self ..)

/-! ## Pools -/

/-- An idle decoder comes into the hand together with its slot. -/
theorem safe_pick (hw : w.hands t = h) (id offset : Nat) :
    BudgetSafe K M t (fun r w' => w'.hands t =
      match r with
      | some (d, _) => { h with slots := h.slots + 1, decoders := d.serial :: h.decoders }
      | none => h) (Act.pick id offset) w := by
  refine safe_budgetOp (o := .pick id offset) hw ?_
  intro w₁ ts _ hh ht hb r w₂ he
  subst hh
  have hdet := he.resolve_right fun hf => hf.1
  simp only [det] at hdet
  split at hdet
  · rename_i cell hcell
    split at hdet
    · exact absurd hdet (by simp)
    · rename_i hfree
      have hfree : ∀ u, u ≠ t → cell.lock ≠ some u := by
        intro u _ hl
        rw [hl] at hfree
        exact hfree rfl
      split at hdet
      · rename_i d rewind rest hpick
        obtain ⟨rfl, rfl⟩ := Prod.mk.inj (Option.some.inj hdet)
        refine ⟨.of_pools (hb.pick ht hcell (pickIdle_spec hpick).1) (others_update rfl)
          (.set hcell rfl rfl hfree) rfl rfl, ?_⟩
        intro w₃ h₃
        exact h₃.hands.trans (Function.update_self ..)
      · obtain ⟨rfl, rfl⟩ := Prod.mk.inj (Option.some.inj hdet)
        exact ⟨.of_pools hb (fun _ _ => rfl) (.of_eq rfl) rfl rfl, fun w₃ h₃ => h₃.hands⟩
  · exact absurd hdet (by simp)

/-- The lock of a pool that is known is taken, and its idle list counted. -/
theorem safe_lockIdle (hw : w.hands t = h) {pool : EntryPool} (hp : PoolKnown pool w) :
    BudgetSafe K M t (fun len w' => w'.hands t = h ∧ ∃ cell, w'.pools[pool.id]? = some cell ∧
      cell.lock = some t ∧ cell.idle.length = len ∧ cell.perHandleCap = pool.perHandleCap)
      (Act.lockIdle pool.id) w := by
  refine safe_budgetOp (o := .lockIdle pool.id) hw ?_
  intro w₁ ts h₁ hh ht hb r w₂ he
  subst hh
  obtain ⟨cell₀, hcell₀, hcap₀⟩ := hp
  obtain ⟨cell, hcell, hcap⟩ := h₁.pools _ cell₀ hcell₀
  have hdet := he.resolve_right fun hf => hf.1
  simp only [det, hcell] at hdet
  split at hdet
  · exact absurd hdet (by simp)
  · rename_i hfree
    obtain ⟨rfl, rfl⟩ := Prod.mk.inj (Option.some.inj hdet)
    have hfree : ∀ u, u ≠ t → cell.lock ≠ some u := by
      intro u _ hl
      rw [hl] at hfree
      exact hfree rfl
    refine ⟨.of_pools (hb.relock hcell (some t)) (fun _ _ => rfl)
      (.set hcell rfl rfl hfree) rfl rfl, ?_⟩
    intro w₃ h₃
    have hself := World.setPool_self hcell { cell with lock := some t }
    exact ⟨h₃.hands, _, h₃.locked _ _ hself rfl, rfl, rfl, hcap.trans hcap₀⟩

/-- The lock is given back. -/
theorem safe_unlockIdle (hw : w.hands t = h) {id : Nat} {cell : PoolCell τ δ ζ}
    (hcell : w.pools[id]? = some cell) (hlock : cell.lock = some t) :
    BudgetSafe K M t (fun _ w' => w'.hands t = h) (Act.unlockIdle id) w := by
  refine safe_budgetOp (o := .unlockIdle id) hw ?_
  intro w₁ ts h₁ hh ht hb r w₂ he
  subst hh
  have hcell₁ := h₁.locked id cell hcell hlock
  have hdet := he.resolve_right fun hf => hf.1
  simp only [det, hcell₁] at hdet
  obtain ⟨-, rfl⟩ := Prod.mk.inj (Option.some.inj hdet)
  have hfree : ∀ u, u ≠ t → cell.lock ≠ some u := by
    intro u hu hl
    exact hu (Option.some.inj (hl.symm.trans hlock))
  exact ⟨.of_pools (hb.relock hcell₁ none) (fun _ _ => rfl) (.set hcell₁ rfl rfl hfree) rfl rfl,
    fun w₃ h₃ => h₃.hands⟩

/-- The pool is one of the hand's own, or that of an open file to which it has a reference. -/
def Mine (h : Hand) (id : Nat) (w : World τ δ ζ) : Prop :=
  id ∈ h.pools ∨ ∃ fh ∈ h.files, ∃ cell, w.files fh = some cell ∧ id ∈ cell.file.kind.pools

omit [DecidableEq τ] in
theorem mine_lasting (h : Hand) (id : Nat) : (budgetProtocol τ δ ζ M).Lasting (Mine h id) := by
  intro w w' hl hm
  rcases hm with hm | ⟨fh, hfh, cell, hcell, hid⟩
  · exact .inl hm
  · obtain ⟨cell', hcell', hfile⟩ := hl.files fh cell hcell
    exact .inr ⟨fh, hfh, cell', hcell', hfile ▸ hid⟩

omit [DecidableEq τ] in
theorem known_lasting_pool (pool : EntryPool) :
    (budgetProtocol τ δ ζ M).Lasting (PoolKnown pool) := by
  intro w w' hl hpost
  obtain ⟨cell, hcell, hcap⟩ := hpost
  obtain ⟨cell', hcell', hcap'⟩ := hl.pools _ cell hcell
  exact ⟨cell', hcell', hcap'.trans hcap⟩

theorem Mine.kept {id : Nat} {ts : Finset τ} (hm : Mine (w.hands t) id w) (hb : Balanced M ts w)
    (ht : t ∈ ts) : Owned w id := by
  rcases hm with hm | ⟨fh, hfh, cell, hcell, hid⟩
  · exact .inl ⟨t, hm⟩
  · have hrefs := hb.refs fh cell hcell
    have hpos : 0 < (w.hands t).files.count fh := List.count_pos_iff.mpr hfh
    have hle : (w.hands t).files.count fh ≤ w.total ts (·.files.count fh) :=
      Lib.le_sum_of_holder (fun u => (w.hands u).files.count fh) fun hu => absurd ht hu
    exact .inr ⟨fh, cell, hcell, hid, by omega⟩

/-- A decoder leaves the hand with a slot, under the lock of its pool. -/
theorem safe_pushIdle (hw : w.hands t = h) {id : Nat} {cell : PoolCell τ δ ζ}
    (hcell : w.pools[id]? = some cell) (hlock : cell.lock = some t)
    (hroom : cell.idle.length < cell.perHandleCap) (hm : Mine h id w) (hslot : 0 < h.slots)
    {d : PositionedDecoder δ ζ} (hmine : d.serial ∈ h.decoders) :
    BudgetSafe K M t (fun _ w' => (∃ cell', w'.pools[id]? = some cell' ∧ cell'.lock = some t) ∧
      w'.hands t = { h with slots := h.slots - 1, decoders := h.decoders.erase d.serial })
      (Act.pushIdle id d) w := by
  refine safe_budgetOp (o := .pushIdle id d) hw ?_
  intro w₁ ts h₁ hh ht hb r w₂ he
  subst hh
  have hcell₁ := h₁.locked id cell hcell hlock
  have hdet := he.resolve_right fun hf => hf.1
  simp only [det, hcell₁] at hdet
  obtain ⟨-, rfl⟩ := Prod.mk.inj (Option.some.inj hdet)
  have hfree : ∀ u, u ≠ t → cell.lock ≠ some u := by
    intro u hu hl
    exact hu (Option.some.inj (hl.symm.trans hlock))
  refine ⟨.of_pools (hb.push ht hcell₁ hroom
    (Mine.kept (mine_lasting (M := M) _ _ w w₁ h₁.toLasts hm) hb ht) hslot hmine)
    (others_update rfl) (.set hcell₁ rfl rfl hfree) rfl rfl, ?_⟩
  intro w₃ h₃
  have hself := World.setPool_self hcell₁ { cell with idle := cell.idle ++ [d] }
  exact ⟨⟨_, h₃.locked id _ hself hlock, hlock⟩, h₃.hands.trans (Function.update_self ..)⟩

/-- All idle decoders of a pool come into the hand, each with its slot. -/
theorem safe_takeIdle (hw : w.hands t = h) (id : Nat) :
    BudgetSafe K M t (fun idle w' => w'.hands t = { h with
      slots := h.slots + idle.length
      decoders := idle.map (·.serial) ++ h.decoders
      pools := h.pools.erase id }) (Act.takeIdle id) w := by
  refine safe_budgetOp (o := .takeIdle id) hw ?_
  intro w₁ ts _ hh ht hb r w₂ he
  subst hh
  have hdet := he.resolve_right fun hf => hf.1
  simp only [det] at hdet
  split at hdet
  · rename_i cell hcell
    split at hdet
    · exact absurd hdet (by simp)
    · rename_i hfree
      obtain ⟨rfl, rfl⟩ := Prod.mk.inj (Option.some.inj hdet)
      have hfree : ∀ u, u ≠ t → cell.lock ≠ some u := by
        intro u _ hl
        rw [hl] at hfree
        exact hfree rfl
      refine ⟨.of_pools (hb.empty ht hcell) (others_update rfl)
        (.set hcell rfl rfl hfree) rfl rfl, ?_⟩
      intro w₃ h₃
      exact h₃.hands.trans (Function.update_self ..)
  · exact absurd hdet (by simp)

/-- A new pool is the hand's own. -/
theorem books_newPool (hi : (budgetProtocol τ δ ζ M).inv w) (hw : w.hands t = h)
    (loc : EntryLocation) (cap i : Nat) (kept : Bool) :
    BudgetSafe K M t (fun pool w' => w'.hands t = { h with pools := pool.id :: h.pools } ∧
      PoolKnown pool w') (EntryPool.new loc cap i kept) w := by
  have hop : BudgetSafe K M t (fun id w' => w'.hands t = { h with pools := id :: h.pools } ∧
      ∃ cell, w'.pools[id]? = some cell ∧ cell.perHandleCap = cap)
      (Act.newPool loc cap i kept) w := by
    refine safe_budgetOp (o := .newPool loc cap i kept) hw ?_
    intro w₁ ts _ hh ht hb r w₂ he
    subst hh
    obtain ⟨rfl, rfl⟩ := Prod.mk.inj (Option.some.inj (he.resolve_right fun hf => hf.1))
    refine ⟨.of_pools (hb.newPool ht loc cap i _) (others_update rfl) ⟨?_, ?_⟩ rfl rfl, ?_⟩
    · intro j c hc
      exact ⟨c, (List.getElem?_append_left (List.getElem?_eq_some_iff.mp hc).1).trans hc, rfl⟩
    · intro u _ j c hc _
      exact (List.getElem?_append_left (List.getElem?_eq_some_iff.mp hc).1).trans hc
    · intro w₃ h₃
      obtain ⟨cell, hcell, hcap⟩ := h₃.pools w₁.pools.length _ List.getElem?_concat_length
      exact ⟨h₃.hands.trans (Function.update_self ..), cell, hcell, hcap⟩
  refine Safe.bind hi (hop.mono ?_)
  intro id w₁ _ hpost
  obtain ⟨hhand, cell, hcell, hcap⟩ := hpost
  refine .ret fun w₂ h₂ _ => ?_
  obtain ⟨cell', hcell', hcap'⟩ := h₂.pools id cell hcell
  exact ⟨h₂.hands.trans hhand, cell', hcell', hcap'.trans hcap⟩

/-! ## Open files -/

/-- The open file behind a handle. -/
def Behind (fh : Nat) (file : OpenFile) (w : World τ δ ζ) : Prop :=
  ∃ cell, w.files fh = some cell ∧ cell.file = file

omit [DecidableEq τ] in
theorem behind_lasting (fh : Nat) (file : OpenFile) :
    (budgetProtocol τ δ ζ M).Lasting (Behind fh file) := by
  intro w w' hl hpost
  obtain ⟨cell, hcell, hfile⟩ := hpost
  obtain ⟨cell', hcell', hfile'⟩ := hl.files fh cell hcell
  exact ⟨cell', hcell', hfile'.trans hfile⟩

/-- A change of one file cell, and of the hand of the thread, leaves others' handles alone. -/
theorem Moves.of_cell {ts : Finset τ} {w' : World τ δ ζ} {x : Hand} {fh : Nat}
    {cell : FileCell} (cell' : FileCell) (hcell : w.files fh = some cell)
    (hfile : cell'.file = cell.file)
    (hw' : w' = (w.setFile fh cell').setHand t x) (hb : Balanced M ts w') : Moves M t w w' := by
  subst hw'
  refine .of_files hb (others_update rfl) rfl ?_ ?_
  · intro n c hc
    by_cases hn : n = fh
    · subst hn
      obtain rfl := Option.some.inj (hcell.symm.trans hc)
      exact ⟨cell', World.setFile_self .., hfile⟩
    · exact ⟨c, (World.setFile_ne w hn _).trans hc, rfl⟩
  · intro u _ n hmint hnone
    have hn : n ≠ fh := by
      rintro rfl
      exact absurd (hcell.symm.trans hnone) (by simp)
    exact ⟨hmint, (World.setFile_ne w hn _).trans hnone⟩

/-- What looking for the open file behind a handle leaves in a hand that was `h`. -/
def Found (t : τ) (h : Hand) (fh : Nat) (w : World τ δ ζ) : Option OpenFile → Prop
  | some file => w.hands t = { h with files := fh :: h.files } ∧ Behind fh file w
  | none => w.hands t = h

theorem found_hold {w₁ w₃ : World τ δ ζ} {fh : Nat} {cell : FileCell} (cell' : FileCell)
    (hfile : cell'.file = cell.file)
    (h₃ : Apart t ((w₁.setFile fh cell').holdFile t fh) w₃) :
    Found t (w₁.hands t) fh w₃ (some cell.file) := by
  obtain ⟨cell'', hcell'', hfile''⟩ := h₃.files fh cell' (World.setFile_self ..)
  exact ⟨h₃.hands.trans (Function.update_self ..), cell'', hcell'', hfile''.trans hfile⟩

/-- A file that is found is held. -/
theorem books_getHandle (hw : w.hands t = h) (fh : Nat) :
    BudgetSafe K M t (fun r w' => Found t h fh w' r) (Act.getHandle fh) w := by
  refine safe_budgetOp (o := .getHandle fh) hw ?_
  intro w₁ ts _ hh ht hb r w₂ he
  subst hh
  have hdet := he.resolve_right fun hf => hf.1
  simp only [det] at hdet
  split at hdet
  · rename_i cell hcell
    split at hdet
    · obtain ⟨rfl, rfl⟩ := Prod.mk.inj (Option.some.inj hdet)
      exact ⟨.of_cell { cell with refs := cell.refs + 1 } hcell rfl rfl (hb.hold ht hcell),
        fun w₃ h₃ => found_hold { cell with refs := cell.refs + 1 } rfl h₃⟩
    · obtain ⟨rfl, rfl⟩ := Prod.mk.inj (Option.some.inj hdet)
      exact ⟨.of_pools hb (fun _ _ => rfl) (.of_eq rfl) rfl rfl, fun w₃ h₃ => h₃.hands⟩
  · obtain ⟨rfl, rfl⟩ := Prod.mk.inj (Option.some.inj hdet)
    exact ⟨.of_pools hb (fun _ _ => rfl) (.of_eq rfl) rfl rfl, fun w₃ h₃ => h₃.hands⟩

/-- A file that is no longer listed is held instead. -/
theorem safe_removeHandle (hw : w.hands t = h) (fh : Nat) :
    BudgetSafe K M t (fun r w' => Found t h fh w' r) (Act.removeHandle fh) w := by
  refine safe_budgetOp (o := .removeHandle fh) hw ?_
  intro w₁ ts _ hh ht hb r w₂ he
  subst hh
  have hdet := he.resolve_right fun hf => hf.1
  simp only [det] at hdet
  split at hdet
  · rename_i cell hcell
    split at hdet
    · rename_i hlisted
      obtain ⟨rfl, rfl⟩ := Prod.mk.inj (Option.some.inj hdet)
      exact ⟨.of_cell { cell with listed := false } hcell rfl rfl
        (hb.unlist ht hcell hlisted), fun w₃ h₃ => found_hold { cell with listed := false } rfl h₃⟩
    · obtain ⟨rfl, rfl⟩ := Prod.mk.inj (Option.some.inj hdet)
      exact ⟨.of_pools hb (fun _ _ => rfl) (.of_eq rfl) rfl rfl, fun w₃ h₃ => h₃.hands⟩
  · obtain ⟨rfl, rfl⟩ := Prod.mk.inj (Option.some.inj hdet)
    exact ⟨.of_pools hb (fun _ _ => rfl) (.of_eq rfl) rfl rfl, fun w₃ h₃ => h₃.hands⟩

/-- Dropping a reference gives the pool of the file to whoever drops the last one. -/
theorem safe_dropFile {fh : Nat} {file : OpenFile}
    (hw : w.hands t = { h with files := fh :: h.files }) (hf : Behind fh file w) :
    BudgetSafe K M t (fun last w' => w'.hands t =
      { h with pools := (if last then file.kind.pools else []) ++ h.pools })
        (Act.dropFile fh) w := by
  refine safe_budgetOp (o := .dropFile fh) hw ?_
  intro w₁ ts h₁ hh ht hb r w₂ he
  obtain ⟨cell, hcell, rfl⟩ := behind_lasting (M := M) fh file w w₁ h₁.toLasts hf
  have hmem : fh ∈ (w₁.hands t).files := by
    rw [hh]
    exact List.mem_cons_self
  have hdet := he.resolve_right fun hf => hf.1
  simp only [det, hcell] at hdet
  obtain ⟨rfl, rfl⟩ := Prod.mk.inj (Option.some.inj hdet)
  refine ⟨.of_cell { cell with refs := cell.refs - 1 } hcell rfl rfl
    (hb.dropFile ht hcell hmem), ?_⟩
  intro w₃ h₃
  refine (h₃.hands.trans (Function.update_self ..)).trans ?_
  rw [hh]
  simp only [List.erase_cons_head, beq_iff_eq]

/-- Minting a handle and putting an open file behind it. -/
theorem books_insert (hi : (budgetProtocol τ δ ζ M).inv w) {file : OpenFile}
    (hw : w.hands t = { h with pools := file.kind.pools ++ h.pools })
    (hknown : ∀ pool, file.kind = .coded pool → PoolKnown pool w) :
    BudgetSafe K M t (fun _ w' => w'.hands t = h) (HandleTable.insert file) w := by
  have hmint : BudgetSafe K M t (fun fh w' =>
      w'.hands t = { h with pools := file.kind.pools ++ h.pools } ∧
      (∀ pool, file.kind = .coded pool → PoolKnown pool w') ∧
      w'.minted fh = some t ∧ w'.files fh = none) Act.nextHandle w := by
    refine safe_budgetOp (o := .nextHandle) hw ?_
    intro w₁ ts h₁ hh ht hb r w₂ he
    obtain ⟨rfl, rfl⟩ := Prod.mk.inj (Option.some.inj (he.resolve_right fun hf => hf.1))
    refine ⟨.of_files (hb.mint t) (fun _ _ => rfl) rfl (fun _ c hc => ⟨c, hc, rfl⟩) ?_, ?_⟩
    · intro u _ fh hm hn
      refine ⟨?_, hn⟩
      have hne : fh ≠ w₁.next := by
        rintro rfl
        exact absurd (hm.symm.trans (hb.fresh _ (Nat.le_refl _)).2) (by simp)
      exact (Function.update_of_ne hne ..).trans hm
    · intro w₃ h₃
      refine ⟨h₃.hands.trans hh, fun pool hkind => ?_,
        h₃.minted w₁.next (Function.update_self ..) (hb.fresh _ (Nat.le_refl _)).1⟩
      obtain ⟨cell, hcell, hcap⟩ := hknown pool hkind
      obtain ⟨cell₁, hcell₁, hcap₁⟩ := h₁.pools _ cell hcell
      obtain ⟨cell₃, hcell₃, hcap₃⟩ := h₃.pools _ cell₁ hcell₁
      exact ⟨cell₃, hcell₃, hcap₃.trans (hcap₁.trans hcap)⟩
  have hinsert : ∀ fh (w₀ : World τ δ ζ),
      w₀.hands t = { h with pools := file.kind.pools ++ h.pools } →
      (∀ pool, file.kind = .coded pool → PoolKnown pool w₀) →
      w₀.minted fh = some t → w₀.files fh = none →
      BudgetSafe K M t (fun _ w' => w'.hands t = h) (Act.insertHandle fh file) w₀ := by
    intro fh w₀ hw₀ hknown₀ hm₀ hn₀
    refine safe_budgetOp (o := .insertHandle fh file) hw₀ ?_
    intro w₁ ts h₁ hh ht hb r w₂ he
    obtain ⟨-, rfl⟩ := Prod.mk.inj (Option.some.inj (he.resolve_right fun hf => hf.1))
    obtain ⟨hm₁, hn₁⟩ := h₁.minted fh hm₀ hn₀
    have hknown₁ : ∀ pool, file.kind = .coded pool → PoolKnown pool w₁ := by
      intro pool hkind
      obtain ⟨cell, hcell, hcap⟩ := hknown₀ pool hkind
      obtain ⟨cell₁, hcell₁, hcap₁⟩ := h₁.pools _ cell hcell
      exact ⟨cell₁, hcell₁, hcap₁.trans hcap⟩
    refine ⟨.of_files (hb.insert ht hm₁ hn₁ hknown₁) (others_update rfl) rfl ?_ ?_, ?_⟩
    · intro n c hc
      have hne : n ≠ fh := by
        rintro rfl
        exact absurd (hc.symm.trans hn₁) (by simp)
      exact ⟨c, (World.setFile_ne w₁ hne _).trans hc, rfl⟩
    · intro u hu n hm hn
      have hne : n ≠ fh := by
        rintro rfl
        exact hu (Option.some.inj (hm.symm.trans hm₁))
      exact ⟨hm, (World.setFile_ne w₁ hne _).trans hn⟩
    · intro w₃ h₃
      refine (h₃.hands.trans (Function.update_self ..)).trans ?_
      rw [hh]
      have hdiff : (file.kind.pools ++ h.pools).diff file.kind.pools = h.pools := by
        cases file.kind with
        | coded pool => simp [OpenKind.pools]
        | _ => rfl
      simp only [hdiff]
  unfold HandleTable.insert
  refine Safe.bind hi (hmint.mono ?_)
  intro fh w₁ hi₁ hpost
  obtain ⟨hw₁, hknown₁, hm₁, hn₁⟩ := hpost
  refine Safe.bind hi₁ ((hinsert fh w₁ hw₁ hknown₁ hm₁ hn₁).mono ?_)
  intro _ w₂ _ hw₂
  exact .ret fun w₃ h₃ _ => h₃.hands.trans hw₂

/-! ## What does not touch the books -/

/-- Not an operation on pools, the budget or handles. -/
def Op.Plain : Op δ ζ → Prop
  | .newPool .. | .pick .. | .lockIdle _ | .pushIdle .. | .unlockIdle _ | .takeIdle _ | .tryRetain
  | .releaseRetain | .takeCore _ | .recycleCore _ | .nextHandle | .insertHandle .. | .getHandle _
  | .removeHandle _ | .dropFile _ => False
  | _ => True

/-- What the books are made of. -/
structure SameBooks (w w' : World τ δ ζ) : Prop where
  pools : w'.pools = w.pools
  retained : w'.retained = w.retained
  cores : w'.cores = w.cores
  hands : w'.hands = w.hands
  serials : w'.serials = w.serials
  retired : w'.retired = w.retired
  files : w'.files = w.files
  next : w'.next = w.next
  minted : w'.minted = w.minted

omit [DecidableEq τ] in
theorem Balanced.same {ts : Finset τ} {w' : World τ δ ζ} (hb : Balanced M ts w)
    (hs : SameBooks w w') : Balanced M ts w' := by
  refine ⟨hb.toAccounts.frame hs.pools hs.retained hs.cores hs.serials hs.retired ?_,
    hb.toHandles.frame hs.files hs.next hs.minted (.of_eq hs.pools) ?_, ?_⟩
  · intro u
    rw [hs.hands]
    exact ⟨rfl, rfl⟩
  · intro u
    rw [hs.hands]
    exact ⟨rfl, rfl⟩
  · rw [hs.hands]
    exact hb.absent

omit [DecidableEq τ] in
theorem SameBooks.apart {w' : World τ δ ζ} (hs : SameBooks w w') (t : τ) : Apart t w w' := by
  refine ⟨⟨fun id cell hc => ⟨cell, hs.pools ▸ hc, rfl⟩, fun fh cell hc =>
    ⟨cell, hs.files ▸ hc, rfl⟩⟩,
    by rw [hs.hands], fun id cell hc _ => hs.pools ▸ hc, fun fh hm hn => ?_⟩
  rw [hs.minted, hs.files]
  exact ⟨hm, hn⟩

/-- Most operations leave the books alone. -/
theorem exec_books {o : Op δ ζ} (ho : o.Plain) {w' : World τ δ ζ} {r : Res o}
    (he : exec K M t o w r w') : SameBooks w w' := by
  rcases he with he | ⟨-, rfl⟩
  · cases o with
    | newPool _ _ _ _ | pick _ _ | lockIdle _ | pushIdle _ _ | unlockIdle _ | takeIdle _ | tryRetain
    | releaseRetain | takeCore _ | recycleCore _ | nextHandle | insertHandle _ _ | getHandle _
    | removeHandle _ | dropFile _ => exact ho.elim
    | _ =>
        simp only [det] at he
        repeat' split at he
        all_goals first
          | (obtain rfl := (Prod.mk.inj (Option.some.inj he)).2
             exact ⟨rfl, rfl, rfl, rfl, rfl, rfl, rfl, rfl, rfl⟩)
          | cases he
  · exact ⟨rfl, rfl, rfl, rfl, rfl, rfl, rfl, rfl, rfl⟩

section Plain

variable {X : World τ δ ζ → Prop}

/-- What the thread knows and the others leave alone. -/
def Steady (t : τ) (X : World τ δ ζ → Prop) : Prop := ∀ w w', Apart t w w' → X w → X w'

/-- Programs that keep the books and something steady. -/
abbrev plainLogic (K : Codecs δ ζ) (M : Mount) (hX : Steady t X) : Logic (@Res δ ζ) :=
  Lib.keeping (budgetProtocol τ δ ζ M) (exec K M) t (I := X) fun w w' ha _ hx => hX w w' ha hx

theorem accepts_plain (hX : Steady t X) {o : Op δ ζ} (ho : o.Plain) :
    (plainLogic K M hX).Accepts (.op o .ret) := by
  refine Lib.keeping_op _ ?_
  intro w hpost hx r w' he
  obtain ⟨ts, hb⟩ := hpost
  have hs := exec_books ho he
  exact ⟨⟨ts, hb.same hs⟩, (hs.apart t).toLasts, fun u _ => hs.apart u, trivial,
    hX w w' (hs.apart t) hx⟩

theorem plain_permits (hX : Steady t X) {A : Op δ ζ → Prop} (hA : ∀ o, A o → o.Plain) :
    Permits (plainLogic K M hX) M A where
  verify := by
    refine accepts_guardVerify fun o ho => accepts_plain hX ?_
    cases o with
    | note n => trivial
    | _ => trivial
  op o ho := accepts_plain hX (hA o ho)

theorem Op.Decodes.plain {F : Bool → Prop} {o : Op δ ζ} (ho : o.Decodes F) : o.Plain := by
  cases o with
  | note n => trivial
  | _ => trivial

theorem Op.Locates.plain {o : Op δ ζ} (ho : o.Locates) : o.Plain := by
  cases o with
  | note n => trivial
  | _ => trivial

theorem Op.Tracks.plain {o : Op δ ζ} (ho : o.Tracks) : o.Plain := by
  cases o with
  | note n => trivial
  | _ => trivial

end Plain

/-! ## Checkouts -/

omit [DecidableEq τ] in
/-- A hand is steady. -/
theorem steady_hand (t : τ) (h : Hand) : Steady t (δ := δ) (ζ := ζ) fun w => w.hands t = h :=
  fun _ _ ha hw => ha.hands.trans hw

/-- **A checkout leaves one decoder more in the hand**, and no slot. -/
theorem safe_checkout (hi : (budgetProtocol τ δ ζ M).inv w) (hw : w.hands t = h)
    (pool : EntryPool) (offset : Nat) :
    BudgetSafe K M t (fun d w' => w'.hands t = { h with decoders := d.serial :: h.decoders })
      (pool.checkout K M offset) w := by
  unfold EntryPool.checkout
  refine Safe.bind hi ((safe_pick hw pool.id offset).mono ?_)
  intro r w₁ hi₁ hw₁
  split
  · rename_i d rewind
    refine Safe.bind hi₁ ((safe_releaseRetain hw₁ (Nat.succ_pos _)).mono ?_)
    intro _ w₂ _ hw₂
    have hserial : (if rewind then d.reinit K pool.loc else d).serial = d.serial := by
      split
      · rfl
      · rfl
    refine .ret fun w₃ h₃ _ => ?_
    rw [hserial, h₃.hands, hw₂]
    rfl
  · refine Safe.bind hi₁ ((safe_takeCore hw₁ pool.loc.method).mono ?_)
    intro parts w₂ _ hw₂
    exact .ret fun w₃ h₃ _ => h₃.hands.trans hw₂

/-- **Giving a decoder back leaves the hand as it was before the checkout.** -/
theorem safe_giveBack (hi : (budgetProtocol τ δ ζ M).inv w) {d : PositionedDecoder δ ζ}
    (hw : w.hands t = { h with decoders := d.serial :: h.decoders }) {pool : EntryPool}
    (hp : PoolKnown pool w) (hm : Mine h pool.id w) :
    BudgetSafe K M t (fun _ w' => w'.hands t = h) (pool.giveBack d) w := by
  -- without room the decoder is recycled, outside the lock
  have hrecycle : ∀ w₀ : World τ δ ζ, (budgetProtocol τ δ ζ M).inv w₀ →
      w₀.hands t = { h with decoders := d.serial :: h.decoders } →
      (∃ cell, w₀.pools[pool.id]? = some cell ∧ cell.lock = some t) →
      BudgetSafe K M t (fun _ w' => w'.hands t = h) (do
        Act.unlockIdle pool.id
        Act.recycleCore d.intoParts) w₀ := by
    intro w₀ hi₀ hw₀ hpost
    obtain ⟨cell, hcell, hlock⟩ := hpost
    refine Safe.bind hi₀ ((safe_unlockIdle hw₀ hcell hlock).mono ?_)
    intro _ w₁ _ hw₁
    refine (safe_recycleCore hw₁ d.intoParts List.mem_cons_self).mono ?_
    intro _ w₂ _ hw₂
    rw [hw₂]
    simp [PositionedDecoder.intoParts]
  unfold EntryPool.giveBack
  refine Safe.bind hi (((safe_lockIdle hw hp).lasting (mine_lasting h pool.id) hm).mono ?_)
  intro len w₁ hi₁ hpost
  obtain ⟨⟨hw₁, cell, hcell, hlock, hlen, hcap⟩, hm₁⟩ := hpost
  split
  · rename_i hroom
    refine Safe.bind hi₁
      (((safe_tryRetain hw₁ hcell hlock).lasting (mine_lasting h pool.id) hm₁).mono ?_)
    intro retained w₂ hi₂ hpost
    obtain ⟨⟨hcell₂, hw₂⟩, hm₂⟩ := hpost
    split
    · rename_i hretained
      rw [if_pos hretained] at hw₂
      refine Safe.bind hi₂ ((safe_pushIdle hw₂ hcell₂ hlock (by omega) hm₂ (Nat.succ_pos _)
        List.mem_cons_self).mono ?_)
      intro _ w₃ _ hpost
      obtain ⟨⟨cell', hcell', hlock'⟩, hw₃⟩ := hpost
      refine (safe_unlockIdle hw₃ hcell' hlock').mono ?_
      intro _ w₄ _ hw₄
      rw [hw₄]
      simp
    · rename_i hretained
      rw [if_neg hretained] at hw₂
      exact hrecycle w₂ hi₂ hw₂ ⟨cell, hcell₂, hlock⟩
  · exact hrecycle w₁ hi₁ hw₁ ⟨cell, hcell, hlock⟩

/-- Each decoder of a list is taken to pieces, and its slot given back. -/
theorem safe_recycleAll (hi : (budgetProtocol τ δ ζ M).inv w) (ds : List (PositionedDecoder δ ζ))
    (hw : w.hands t = { h with
      slots := h.slots + ds.length, decoders := ds.map (·.serial) ++ h.decoders }) :
    BudgetSafe K M t (fun _ w' => w'.hands t = h) (EntryPool.recycleAll ds) w := by
  induction ds generalizing w with
  | nil => exact .ret fun w' h' _ => h'.hands.trans hw
  | cons d ds ih =>
      unfold EntryPool.recycleAll
      refine Safe.bind hi ((safe_releaseRetain hw (Nat.succ_pos _)).mono ?_)
      intro _ w₁ hi₁ hw₁
      refine Safe.bind hi₁ ((safe_recycleCore hw₁ d.intoParts List.mem_cons_self).mono ?_)
      intro _ w₂ hi₂ hw₂
      refine ih hi₂ ?_
      rw [hw₂]
      simp [PositionedDecoder.intoParts]

/-- Dropping a pool leaves neither it nor its decoders in the hand. -/
theorem safe_drop (hi : (budgetProtocol τ δ ζ M).inv w) {pool : EntryPool}
    (hw : w.hands t = { h with pools := pool.id :: h.pools }) :
    BudgetSafe K M t (fun _ w' => w'.hands t = h) pool.drop w := by
  unfold EntryPool.drop
  refine Safe.bind hi ((safe_takeIdle hw pool.id).mono ?_)
  intro idle w₁ hi₁ hw₁
  refine safe_recycleAll hi₁ idle ?_
  rw [hw₁, List.erase_cons_head]

/-- Reading through a decoder that was checked out. -/
theorem safe_decoderReadAt (hi : (budgetProtocol τ δ ζ M).inv w) {d : PositionedDecoder δ ζ}
    (hw : w.hands t = { h with decoders := d.serial :: h.decoders }) (offset : Nat) (out : Bytes)
    (i : Nat) (m : EntryMeta) :
    BudgetSafe K M t (fun x w' => w'.hands t = { h with decoders := x.1.serial :: h.decoders })
      (d.readAt K M offset out i m) w := by
  have hp := plain_permits (K := K) (M := M) (steady_hand t (w.hands t))
    fun _ => Op.Decodes.plain (F := fun _ => True)
  refine (holds_decoderReadAt hp d offset out i m trivial w hi rfl).mono ?_
  intro x w' _ hpost
  obtain ⟨hx, hw'⟩ := hpost
  rw [hw', hw, hx.1]

/-- A read through a pool. -/
theorem safe_readPool (hi : (budgetProtocol τ δ ζ M).inv w) (hw : w.hands t = h)
    {pool : EntryPool} (hp : PoolKnown pool w) (hm : Mine h pool.id w) (offset : Nat)
    (out : Bytes) (i : Nat) (m : EntryMeta) {f : Bytes × Except IoError Nat → Act δ ζ α}
    {Q : α → World τ δ ζ → Prop}
    (hf : ∀ x w', (budgetProtocol τ δ ζ M).inv w' → w'.hands t = h → BudgetSafe K M t Q (f x) w') :
    BudgetSafe K M t Q (do
      let d ← pool.checkout K M offset
      let (d, out, r) ← d.readAt K M offset out i m
      pool.giveBack d
      f (out, r)) w := by
  have hlast := (known_lasting_pool (M := M) (τ := τ) (δ := δ) (ζ := ζ) pool).and
    (mine_lasting h pool.id)
  refine Safe.bind hi (((safe_checkout hi hw pool offset).lasting hlast ⟨hp, hm⟩).mono ?_)
  intro d w₁ hi₁ hpost
  obtain ⟨hw₁, hk₁⟩ := hpost
  refine Safe.bind hi₁ (((safe_decoderReadAt hi₁ hw₁ offset out i m).lasting hlast hk₁).mono ?_)
  intro x w₂ hi₂ hpost
  obtain ⟨hw₂, hk₂⟩ := hpost
  refine Safe.bind hi₂ ((safe_giveBack hi₂ hw₂ hk₂.1 hk₂.2).mono ?_)
  intro _ w₃ hi₃ hw₃
  exact hf _ w₃ hi₃ hw₃

/-- The private pool of a read is dropped before the read ends. -/
theorem safe_readOnce (hi : (budgetProtocol τ δ ζ M).inv w) (hw : w.hands t = h)
    (loc : EntryLocation) (out : Bytes) (i : Nat) (m : EntryMeta) :
    BudgetSafe K M t (fun _ w' => w'.hands t = h) (Fs.readOnce K M loc out i m) w := by
  unfold Fs.readOnce
  refine Safe.bind hi ((books_newPool hi hw loc 1 i true).mono ?_)
  intro pool w₁ hi₁ hpost
  obtain ⟨hw₁, hp₁⟩ := hpost
  refine safe_readPool (f := fun x => do
    pool.drop
    pure x) hi₁ hw₁ hp₁ (.inl List.mem_cons_self) 0 out i m ?_
  intro x w₂ hi₂ hw₂
  refine Safe.bind hi₂ ((safe_drop hi₂ hw₂).mono ?_)
  intro _ w₃ _ hw₃
  exact .ret fun w₄ h₄ _ => h₄.hands.trans hw₃

/-! ## Files and links -/

/-- A plain program, followed by another. -/
theorem safe_plain {β : Type} (hi : (budgetProtocol τ δ ζ M).inv w) (hw : w.hands t = h)
    {p : Act δ ζ β} {f : β → Act δ ζ α} {Q : α → World τ δ ζ → Prop}
    (hp : (plainLogic K M (steady_hand t h)).Accepts p)
    (hf : ∀ a w', (budgetProtocol τ δ ζ M).inv w' → w'.hands t = h → BudgetSafe K M t Q (f a) w') :
    BudgetSafe K M t Q (p >>= f) w :=
  Safe.bind hi ((hp w hi hw).mono fun a w' hi' hq => hf a w' hi' hq.2)

theorem safe_hand_ret (hw : w.hands t = h) (a : α) :
    BudgetSafe K M t (fun _ w' => w'.hands t = h) (pure a) w :=
  .ret fun _ h' _ => h'.hands.trans hw

theorem accepts_plain_diagnose (h : Hand) (errno : Nat) :
    (plainLogic K M (steady_hand (τ := τ) t h)).Accepts (Fs.diagnose M errno) :=
  accepts_diagnose (plain_permits _ fun _ => Op.Locates.plain)
    (accepts_plain (o := .note .diagnosing) _ trivial) errno

/-- Reading a whole entry leaves the hand as it was. -/
theorem safe_readAll (hi : (budgetProtocol τ δ ζ M).inv w) (hw : w.hands t = h) (i : Nat)
    (m : EntryMeta) (limit : Nat) :
    BudgetSafe K M t (fun _ w' => w'.hands t = h) (Fs.readAll K M i m limit) w := by
  have hp := plain_permits (K := K) (M := M) (steady_hand t h) fun _ => Op.Locates.plain
  have hreads := hp.weaken fun _ => Op.Reads.locates
  have hstored := fun data => accepts_verifyStored (L := plainLogic K M (steady_hand t h)) (M := M)
    (i := i) (fun state => accepts_plain (o := .storeVerify i state) _ trivial) m data
  unfold Fs.readAll
  refine safe_plain hi hw (accepts_plain (o := .loadVerify i) _ trivial) ?_
  intro state w₁ hi₁ hw₁
  split
  · exact safe_hand_ret hw₁ _
  · refine safe_plain hi₁ hw₁ (accepts_locate hp i m) ?_
    intro found w₂ hi₂ hw₂
    split
    · exact safe_hand_ret hw₂ _
    · rename_i loc
      dsimp only
      split
      · exact safe_hand_ret hw₂ _
      · split
        · split
          · exact safe_plain hi₂ hw₂ (hstored _) fun _ _ _ hw₃ => safe_hand_ret hw₃ _
          · refine Safe.bind hi₂ ((safe_readOnce hi₂ hw₂ loc _ i m).mono ?_)
            intro x w₃ _ hw₃
            split
            · exact safe_hand_ret hw₃ _
            · exact safe_hand_ret hw₃ _
        · split
          · refine safe_plain hi₂ hw₂ (accepts_readDirect hreads loc 0 _) ?_
            intro x w₃ hi₃ hw₃
            split
            · exact safe_hand_ret hw₃ _
            · exact safe_plain hi₃ hw₃ (hstored _) fun _ _ _ hw₄ => safe_hand_ret hw₄ _
          · refine Safe.bind hi₂ ((safe_readOnce hi₂ hw₂ loc _ i m).mono ?_)
            intro x w₃ _ hw₃
            split
            · exact safe_hand_ret hw₃ _
            · split
              · exact safe_hand_ret hw₃ _
              · exact safe_hand_ret hw₃ _

omit [DecidableEq τ] in
/-- The pool of a file to which the thread has a reference. -/
theorem pool_behind (hi : (budgetProtocol τ δ ζ M).inv w) {fh : Nat} {file : OpenFile}
    (hf : Behind fh file w) (hmem : fh ∈ h.files) {pool : EntryPool}
    (hkind : file.kind = .coded pool) : PoolKnown pool w ∧ Mine h pool.id w := by
  obtain ⟨ts, hb⟩ := hi
  obtain ⟨cell, hcell, rfl⟩ := hf
  refine ⟨hb.known fh cell pool hcell hkind, .inr ⟨fh, hmem, cell, hcell, ?_⟩⟩
  rw [hkind]
  exact List.mem_singleton.mpr rfl

/-- So does reading a part of an open file. -/
theorem safe_readInto (hi : (budgetProtocol τ δ ζ M).inv w) (hw : w.hands t = h) {fh : Nat}
    {file : OpenFile} (hf : Behind fh file w) (hmem : fh ∈ h.files) (m : EntryMeta) (offset : Nat)
    (buf : Bytes) :
    BudgetSafe K M t (fun _ w' => w'.hands t = h) (Fs.readInto K M file m offset buf) w := by
  cases hkind : file.kind with
  | empty =>
      unfold Fs.readInto
      rw [hkind]
      exact safe_hand_ret hw _
  | store dataStart compressedSize verify =>
      have hp := plain_permits (K := K) (M := M) (steady_hand t h) fun _ => Op.Locates.plain
      unfold Fs.readInto
      rw [hkind]
      refine safe_plain hi hw
        (accepts_readDirect (hp.weaken fun _ => Op.Reads.locates) _ offset buf) ?_
      intro x w₁ hi₁ hw₁
      rcases x with ⟨got, r⟩
      dsimp only
      split
      · exact safe_hand_ret hw₁ _
      · have hobs := accepts_observeStore (L := plainLogic K M (steady_hand t h))
          (fun o ho => accepts_plain _ (Op.Tracks.plain ho)) verify offset got file.metaIdx m
        refine safe_plain hi₁ hw₁ hobs ?_
        intro fine w₂ _ hw₂
        split
        · exact safe_hand_ret hw₂ _
        · exact safe_hand_ret hw₂ _
  | coded pool =>
      obtain ⟨hp, hm⟩ := pool_behind hi hf hmem hkind
      unfold Fs.readInto
      rw [hkind]
      refine safe_readPool
        (f := fun x => pure (x.1, x.2.mapError Fs.errnoOf)) hi hw hp hm offset buf
        file.metaIdx m ?_
      intro x w₁ _ hw₁
      exact safe_hand_ret hw₁ _

/-- And the read around it. -/
theorem safe_readFile (hi : (budgetProtocol τ δ ζ M).inv w) (hw : w.hands t = h) {fh : Nat}
    {file : OpenFile} (hf : Behind fh file w) (hmem : fh ∈ h.files) (offset size : Nat) :
    BudgetSafe K M t (fun _ w' => w'.hands t = h) (Fs.readFile K M file offset size) w := by
  have hplain : ∀ {o : Op δ ζ}, o.Plain → (plainLogic K M (steady_hand t h)).Accepts (.op o .ret) :=
    fun ho => accepts_plain _ ho
  have hdiag : ∀ (w₀ : World τ δ ζ) (errno : Nat), (budgetProtocol τ δ ζ M).inv w₀ →
      w₀.hands t = h → BudgetSafe K M t (fun _ w' => w'.hands t = h) (do
        let errno ← Fs.diagnose M errno
        pure (Reply.error errno)) w₀ := fun w₀ errno hi₀ hw₀ =>
    safe_plain hi₀ hw₀ (accepts_plain_diagnose h errno) fun _ _ _ hw' => safe_hand_ret hw' _
  have hlast := behind_lasting (τ := τ) (δ := δ) (ζ := ζ) (M := M) fh file
  unfold Fs.readFile
  refine Safe.bind hi ((((hplain (o := .loadStale) trivial) w hi hw).lasting hlast hf).mono ?_)
  intro stale w₁ hi₁ hpost
  obtain ⟨⟨_, hw₁⟩, hf₁⟩ := hpost
  split
  · exact safe_hand_ret hw₁ _
  · split
    · exact (holds_halt (Q := fun _ : Reply => False) (hplain (o := .halt) trivial) w₁ hi₁ hw₁).mono
        fun _ _ _ hq => hq.1.elim
    · rename_i m _
      refine Safe.bind hi₁ ((((hplain (o := .loadVerify file.metaIdx) trivial) w₁ hi₁ hw₁).lasting
        hlast hf₁).mono ?_)
      intro state w₂ hi₂ hpost
      obtain ⟨⟨_, hw₂⟩, hf₂⟩ := hpost
      split
      · exact hdiag w₂ EIO hi₂ hw₂
      · dsimp only
        split
        · exact safe_hand_ret hw₂ _
        · unfold Fs.withScratch
          refine Safe.bind hi₂
            (Safe.bind hi₂ ((((hplain (o := .getScratch) trivial) w₂ hi₂ hw₂).lasting
            hlast hf₂).mono ?_))
          intro scratch w₃ hi₃ hpost
          obtain ⟨⟨_, hw₃⟩, hf₃⟩ := hpost
          refine Safe.bind hi₃ ((safe_readInto hi₃ hw₃ hf₃ hmem m offset _).mono ?_)
          intro x w₄ hi₄ hw₄
          refine safe_plain hi₄ hw₄ (hplain (o := .putScratch _) trivial) ?_
          intro _ w₅ hi₅ hw₅
          refine .ret fun w₆ h₆ hi₆ => ?_
          split
          · exact safe_hand_ret (h₆.hands.trans hw₅) _
          · exact hdiag w₆ _ hi₆ (h₆.hands.trans hw₅)

/-- The last one to let go of a file drops its pool. -/
theorem safe_releaseFile (hi : (budgetProtocol τ δ ζ M).inv w) {fh : Nat} {file : OpenFile}
    (hw : w.hands t = { h with files := fh :: h.files }) (hf : Behind fh file w) :
    BudgetSafe K M t (fun _ w' => w'.hands t = h) (file.release fh) w := by
  unfold OpenFile.release
  refine Safe.bind hi ((safe_dropFile hw hf).mono ?_)
  intro last w₁ hi₁ hw₁
  split
  · rename_i hlast
    rw [if_pos hlast] at hw₁
    cases hkind : file.kind with
    | coded pool =>
        rw [hkind] at hw₁
        exact safe_drop hi₁ hw₁
    | empty =>
        rw [hkind] at hw₁
        exact safe_hand_ret hw₁ _
    | store dataStart compressedSize verify =>
        rw [hkind] at hw₁
        exact safe_hand_ret hw₁ _
  · rename_i hlast
    rw [if_neg hlast] at hw₁
    exact safe_hand_ret hw₁ _

/-- A new open file has the pool that was made for it. -/
theorem safe_newFile (hi : (budgetProtocol τ δ ζ M).inv w) (hw : w.hands t = h) (ino i : Nat)
    (m : EntryMeta) (loc : EntryLocation) :
    BudgetSafe K M t (fun file w' => w'.hands t = { h with pools := file.kind.pools ++ h.pools } ∧
      ∀ pool, file.kind = .coded pool → PoolKnown pool w') (OpenFile.new M ino i m loc) w := by
  have hret : ∀ (w₀ : World τ δ ζ) (file : OpenFile), w₀.hands t = h → file.kind.pools = [] →
      BudgetSafe K M t (fun file w' => w'.hands t = { h with pools := file.kind.pools ++ h.pools } ∧
        ∀ pool, file.kind = .coded pool → PoolKnown pool w') (pure file) w₀ := by
    intro w₀ file hw₀ hpools
    refine .ret fun w₁ h₁ _ => ⟨?_, fun pool hkind => ?_⟩
    · rw [hpools]
      exact h₁.hands.trans hw₀
    · rw [hkind] at hpools
      exact absurd hpools (by simp [OpenKind.pools])
  unfold OpenFile.new
  dsimp only
  split
  · exact hret w _ hw rfl
  · split
    · split
      · refine safe_plain hi hw (accepts_plain (o := .newStore loc i) _ trivial) ?_
        intro id w₁ _ hw₁
        exact hret w₁ _ hw₁ rfl
      · exact hret w _ hw rfl
    · refine Safe.bind hi ((books_newPool hi hw loc M.config.decodersPerFile i false).mono ?_)
      intro pool w₁ _ hpost
      obtain ⟨hw₁, hp₁⟩ := hpost
      refine .ret fun w₂ h₂ _ => ⟨h₂.hands.trans hw₁, fun pool' hkind => ?_⟩
      obtain rfl := OpenKind.coded.inj hkind
      exact known_lasting_pool (M := M) pool w₁ w₂ h₂.toLasts hp₁

/-- **Every call leaves the hand of its thread as it found it.** -/
theorem safe_callHand (hi : (budgetProtocol τ δ ζ M).inv w) (hw : w.hands t = h) (call : Call) :
    BudgetSafe K M t (fun _ w' => w'.hands t = h) (call.prog K M) w := by
  have hp := plain_permits (K := K) (M := M) (steady_hand t h) fun _ => Op.Locates.plain
  have hreads := hp.weaken fun _ => Op.Reads.locates
  have hdiag : ∀ (w₀ : World τ δ ζ) (errno : Nat), (budgetProtocol τ δ ζ M).inv w₀ →
      w₀.hands t = h → BudgetSafe K M t (fun _ w' => w'.hands t = h) (do
        let errno ← Fs.diagnose M errno
        pure (Reply.error errno)) w₀ := fun w₀ errno hi₀ hw₀ =>
    safe_plain hi₀ hw₀ (accepts_plain_diagnose h errno) fun _ _ _ hw' => safe_hand_ret hw' _
  cases call with
  | openFile ino mode =>
      change BudgetSafe K M t _ (Fs.openFile M ino mode) w
      unfold Fs.openFile
      split
      · exact safe_hand_ret hw _
      · rename_i node _
        split
        · exact safe_hand_ret hw _
        · split
          · exact safe_hand_ret hw _
          · split
            · exact safe_hand_ret hw _
            · rename_i m _
              refine safe_plain hi hw (accepts_locate hp _ _) ?_
              intro found w₁ hi₁ hw₁
              split
              · exact hdiag w₁ _ hi₁ hw₁
              · rename_i loc
                refine Safe.bind hi₁ ((safe_newFile hi₁ hw₁ ino node.metaIdx m loc).mono ?_)
                intro file w₂ hi₂ hpost
                obtain ⟨hw₂, hknown⟩ := hpost
                refine Safe.bind hi₂ ((books_insert hi₂ hw₂ hknown).mono ?_)
                intro fh w₃ _ hw₃
                exact safe_hand_ret hw₃ _
  | read fh offset size =>
      refine Safe.bind hi ((books_getHandle hw fh).mono ?_)
      intro found w₁ hi₁ hw₁
      cases found with
      | none => exact safe_hand_ret hw₁ _
      | some file =>
          obtain ⟨hw₁, hf₁⟩ := hw₁
          have hlast := behind_lasting (τ := τ) (δ := δ) (ζ := ζ) (M := M) fh file
          refine Safe.bind hi₁ (((accepts_plain (o := .note .handleFound) (steady_hand t _) trivial
            w₁ hi₁ hw₁).lasting hlast hf₁).mono ?_)
          intro _ w₂ hi₂ hpost
          obtain ⟨⟨_, hw₂⟩, hf₂⟩ := hpost
          refine Safe.bind hi₂ (((safe_readFile hi₂ hw₂ hf₂ List.mem_cons_self offset size).lasting
            hlast hf₂).mono ?_)
          intro reply w₃ hi₃ hpost
          obtain ⟨hw₃, hf₃⟩ := hpost
          refine Safe.bind hi₃ ((safe_releaseFile hi₃ hw₃ hf₃).mono ?_)
          intro _ w₄ _ hw₄
          exact safe_hand_ret hw₄ _
  | readlink ino =>
      change BudgetSafe K M t _ (Fs.readlink K M ino) w
      unfold Fs.readlink
      split
      · exact safe_hand_ret hw _
      · split
        · exact safe_hand_ret hw _
        · split
          · exact safe_hand_ret hw _
          · refine safe_plain hi hw (accepts_plain (o := .getSymlink _) _ trivial) ?_
            intro cached w₁ hi₁ hw₁
            split
            · exact safe_hand_ret hw₁ _
            · refine safe_plain hi₁ hw₁ (accepts_plain (o := .note .targetMissing) _ trivial) ?_
              intro _ w₂ hi₂ hw₂
              refine Safe.bind hi₂ ((safe_readAll hi₂ hw₂ _ _ _).mono ?_)
              intro found w₃ hi₃ hw₃
              split
              · refine safe_plain hi₃ hw₃ (accepts_plain (o := .setSymlink ..) _ trivial) ?_
                intro kept w₄ _ hw₄
                split
                · exact safe_hand_ret hw₄ _
                · exact safe_hand_ret hw₄ _
              · exact hdiag w₃ _ hi₃ hw₃
  | release fh =>
      refine Safe.bind hi ((safe_removeHandle hw fh).mono ?_)
      intro found w₁ hi₁ hw₁
      cases found with
      | none => exact safe_hand_ret hw₁ _
      | some file =>
          refine Safe.bind hi₁ ((safe_releaseFile hi₁ hw₁.1 hw₁.2).mono ?_)
          intro _ w₂ _ hw₂
          exact safe_hand_ret hw₂ _
  | readAt len offset =>
      refine safe_plain hi hw (accepts_readAt hreads len offset) ?_
      exact fun r w₁ _ hw₁ => safe_hand_ret hw₁ _
  | readExactAt buf offset =>
      refine safe_plain hi hw (accepts_readExactAt hreads buf offset) ?_
      exact fun x w₁ _ hw₁ => safe_hand_ret hw₁ _

end Ops

end ZipFs
