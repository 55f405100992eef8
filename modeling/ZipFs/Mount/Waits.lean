import ZipFs.Lib.Discipline
import ZipFs.Mount.Ends
import ZipFs.Mount.Calls
import ZipFs.Mount.Runs

/-!
# Who waits for whom

A read that gives a decoder back holds the lock of its pool over a few steps, and one that
has a block of a stored entry checked holds the lock of its tracker. Everything else that
needs such a lock has to wait. Here it is shown that this is all the waiting there is: a
thread takes one lock at a time, and what it does until it lets go of it is never kept
waiting, reads nothing and decompresses nothing. With that, and because no call ever needs
a pool, a tracker or an open file that is not there, every call is answered.

Some pools are made for one read and are known to its thread alone. That the others leave
them alone is part of the same discipline.
-/

namespace ZipFs

open Lib (Safe Logic Discipline)

variable {τ δ ζ : Type}

/-! ## Locks -/

/-- The locks that are held over several steps. -/
inductive Lock where
  | pool (id : Nat)
  | store (id : Nat)
  deriving DecidableEq

/-- Who holds the lock. -/
def Lock.holder (w : World τ δ ζ) : Lock → Option τ
  | .pool id => w.pools[id]?.bind PoolCell.lock
  | .store id => w.stores[id]?.bind StoreCell.lock

def locksOf (t : τ) (w : World τ δ ζ) : Set Lock := {l | l.holder w = some t}

theorem holder_of_locks {t : τ} {w : World τ δ ζ} {l : Lock} (h : locksOf t w = {l}) :
    l.holder w = some t := by
  have hmem : l ∈ locksOf t w := by
    rw [h]
    exact Set.mem_singleton l
  exact hmem

/-- There is a pool with this number, and no other thread keeps it for itself. -/
def PoolOpen (t : τ) (id : Nat) (w : World τ δ ζ) : Prop :=
  KeptBy id none w ∨ KeptBy id (some t) w

def StoreThere (id : Nat) (w : World τ δ ζ) : Prop := ∃ cell, w.stores[id]? = some cell

/-- There is or was this open file behind the handle, in order. -/
def FileThere (M : Mount) (fh : Nat) (f : OpenFile) (w : World τ δ ζ) : Prop :=
  FileAt fh f w ∧ FileOk M f w

/-- What thread `t` may do that holds these locks, if there is what there is in `w`. Whether it may
halt is up to `H`. -/
def MayDo (H : Prop) (t : τ) (w : World τ δ ζ) (held : Set Lock) : Op δ ζ → Prop
  | .halt => H
  | .pick id _ | .lockIdle id | .takeIdle id => held = ∅ ∧ PoolOpen t id w
  | .pushIdle id _ | .unlockIdle id => held = {.pool id} ∧ PoolOpen t id w
  | .tryRetain => held = ∅ ∨ ∃ id, held = {.pool id}
  | .lockStore id => held = ∅ ∧ StoreThere id w
  | .record id _ _ | .unlockStore id _ => held = {.store id}
  | .storeVerify _ _ | .note _ => held = ∅ ∨ ∃ id, held = {.store id}
  | .dropFile fh => held = ∅ ∧ ∃ f, FileAt fh f w
  | _ => held = ∅

/-- What a thread holds after the operation. -/
def Op.locks (held : Set Lock) : Op δ ζ → Set Lock
  | .lockIdle id => insert (.pool id) held
  | .unlockIdle id => held \ {.pool id}
  | .lockStore id => insert (.store id) held
  | .unlockStore id _ => held \ {.store id}
  | _ => held

/-- The answers to expect: what is new or found is there. -/
def Expected (M : Mount) (t : τ) (w : World τ δ ζ) : (o : Op δ ζ) → Res o → Prop
  | .newPool .., id => PoolOpen t id w
  | .newStore _ _, id => StoreThere id w
  | .getHandle fh, found => ∀ f, found = some f → FileThere M fh f w
  | .removeHandle fh, found => ∀ f, found = some f → FileThere M fh f w
  | .pick _ _, picked => ∀ d rewind, picked = some (d, rewind) → d.src.Valid
  | _, _ => True

/-- The discipline of the mount. What exists for a thread is what there is in some later state. -/
def lockDiscipline (H : Prop) (M : Mount) :
    Discipline τ (World τ δ ζ) (@Res δ ζ) (Set Lock) (τ × World τ δ ζ) where
  held := locksOf
  nothing := ∅
  after o held := o.locks held
  may x o held := MayDo H x.1 x.2 held o
  resp x := Expected M x.1 x.2
  above t w x := x.1 = t ∧ Grows M w x.2
  here t w := (t, w)

theorem PoolOpen.grows {M : Mount} {t : τ} {id : Nat} {w w' : World τ δ ζ} (h : PoolOpen t id w)
    (hg : Grows M w w') : PoolOpen t id w' :=
  h.imp (hg.kept _ _) (hg.kept _ _)

theorem PoolOpen.cell {t : τ} {id : Nat} {w : World τ δ ζ} (h : PoolOpen t id w) :
    ∃ cell, w.pools[id]? = some cell := by
  rcases h with ⟨cell, hcell, -⟩ | ⟨cell, hcell, -⟩
  · exact ⟨cell, hcell⟩
  · exact ⟨cell, hcell⟩

theorem StoreThere.grows {M : Mount} {id : Nat} {w w' : World τ δ ζ} (h : StoreThere id w)
    (hg : Grows M w w') : StoreThere id w' := by
  obtain ⟨cell, hcell⟩ := h
  obtain ⟨cell', hcell', -⟩ := hg.stores id cell hcell
  exact ⟨cell', hcell'⟩

theorem FileThere.grows {M : Mount} {fh : Nat} {f : OpenFile} {w w' : World τ δ ζ}
    (h : FileThere M fh f w) (hg : Grows M w w') : FileThere M fh f w' :=
  ⟨hg.files fh f h.1, h.2.grows hg⟩

theorem SourceOk.valid {M : Mount} {loc : EntryLocation} {s : BufSource} (h : SourceOk M loc s) :
    s.Valid := by
  have hinside := h.inside
  have hshort : (loc.range M).length ≤ loc.compressedSize := List.length_take_le _ _
  refine ⟨h.pos, h.filled, ?_⟩
  rw [h.len]
  omega

/-- Whoever holds the lock of a tracker, there is the tracker. -/
theorem store_of_holder {id : Nat} {w : World τ δ ζ} {t : τ}
    (h : (Lock.store id).holder w = some t) : StoreThere id w := by
  obtain ⟨cell, hcell, -⟩ := Option.bind_eq_some_iff.mp h
  exact ⟨cell, hcell⟩

/-- A pool whose lock nobody holds. -/
theorem pool_unlocked {t : τ} {id : Nat} {w : World τ δ ζ} (hpool : PoolOpen t id w)
    (h : (Lock.pool id).holder w = none) :
    ∃ cell, w.pools[id]? = some cell ∧ cell.lock = none := by
  obtain ⟨cell, hcell⟩ := hpool.cell
  rw [Lock.holder, hcell] at h
  exact ⟨cell, hcell, h⟩

theorem store_unlocked {id : Nat} {w : World τ δ ζ} (hstore : StoreThere id w)
    (h : (Lock.store id).holder w = none) :
    ∃ cell, w.stores[id]? = some cell ∧ cell.lock = none := by
  obtain ⟨cell, hcell⟩ := hstore
  rw [Lock.holder, hcell] at h
  exact ⟨cell, hcell, h⟩

/-! ## Steps -/

section Steps

variable {w w' : World τ δ ζ}

theorem holder_setPool {id : Nat} {cell : PoolCell τ δ ζ} (h : w.pools[id]? = some cell)
    (cell' : PoolCell τ δ ζ) (l : Lock) :
    l.holder (w.setPool id cell') = if l = .pool id then cell'.lock else l.holder w := by
  cases l with
  | pool id' =>
      simp only [Lock.holder, Lock.pool.injEq]
      by_cases heq : id' = id
      · subst heq
        rw [if_pos rfl, World.setPool_self h]
        rfl
      · rw [if_neg heq, World.setPool_ne w heq]
  | store id' => rw [if_neg (by simp)]; rfl

theorem holder_setStore {id : Nat} {cell : StoreCell τ} (h : w.stores[id]? = some cell)
    (cell' : StoreCell τ) (l : Lock) :
    l.holder (w.setStore id cell') = if l = .store id then cell'.lock else l.holder w := by
  cases l with
  | pool id' => rw [if_neg (by simp)]; rfl
  | store id' =>
      simp only [Lock.holder, Lock.store.injEq, World.setStore]
      by_cases heq : id' = id
      · subst heq
        rw [if_pos rfl, List.getElem?_set_self (List.getElem?_eq_some_iff.mp h).1]
        rfl
      · rw [if_neg heq, List.getElem?_set_ne (Ne.symm heq)]

theorem holder_same (hp : w'.pools = w.pools) (hs : w'.stores = w.stores) (l : Lock) :
    l.holder w' = l.holder w := by
  cases l with
  | pool id => rw [Lock.holder, Lock.holder, hp]
  | store id => rw [Lock.holder, Lock.holder, hs]

/-- A cell that changes otherwise is locked as before. -/
theorem holder_setPool_same {id : Nat} {cell : PoolCell τ δ ζ} (h : w.pools[id]? = some cell)
    (cell' : PoolCell τ δ ζ) (hp : w'.pools = (w.setPool id cell').pools)
    (hs : w'.stores = w.stores) (hlock : cell'.lock = cell.lock) (l : Lock) :
    l.holder w' = l.holder w := by
  rw [holder_same (w := w.setPool id cell') hp hs, holder_setPool h, hlock]
  split
  · rename_i hl
    rw [hl, Lock.holder, h]
    rfl
  · rfl

theorem holder_setStore_same {id : Nat} {cell : StoreCell τ} (h : w.stores[id]? = some cell)
    (cell' : StoreCell τ) (hs : w'.stores = (w.setStore id cell').stores)
    (hp : w'.pools = w.pools) (hlock : cell'.lock = cell.lock) (l : Lock) :
    l.holder w' = l.holder w := by
  rw [holder_same (w := w.setStore id cell') hp hs, holder_setStore h, hlock]
  split
  · rename_i hl
    rw [hl, Lock.holder, h]
    rfl
  · rfl

/-- A new cell is not locked. -/
theorem bind_append_fresh {α β : Type} {xs : List α} {x : α} {f : α → Option β} (hx : f x = none)
    (i : Nat) : (xs ++ [x])[i]?.bind f = xs[i]?.bind f := by
  by_cases hi : i < xs.length
  · rw [List.getElem?_append_left hi]
  · rw [List.getElem?_append_right (by omega), List.getElem?_eq_none (by omega : xs.length ≤ i)]
    cases h : ([x] : List α)[i - xs.length]? with
    | none => rfl
    | some y =>
        obtain rfl := List.mem_singleton.mp (List.mem_of_getElem? h)
        exact hx

variable [DecidableEq τ] {K : Codecs δ ζ} {M : Mount} {t : τ}

/-- Who holds a lock after an operation of thread `t`. -/
def Op.holder (t : τ) (w : World τ δ ζ) (l : Lock) : Op δ ζ → Option τ
  | .lockIdle id => if l = .pool id then some t else l.holder w
  | .unlockIdle id => if l = .pool id then none else l.holder w
  | .lockStore id => if l = .store id then some t else l.holder w
  | .unlockStore id _ => if l = .store id then none else l.holder w
  | _ => l.holder w

/-- **What a step does to a lock** is what its operation says. -/
theorem exec_holder {o : Op δ ζ} {r : Res o} (h : exec K M t o w r w') (l : Lock) :
    l.holder w' = o.holder t w l := by
  rcases h with h | ⟨hf, rfl⟩
  · cases o with
    | newPool loc cap i kept =>
        obtain rfl := (Prod.mk.inj (Option.some.inj h)).2
        cases l with
        | pool id => exact bind_append_fresh rfl id
        | store id => rfl
    | newStore loc i =>
        obtain rfl := (Prod.mk.inj (Option.some.inj h)).2
        cases l with
        | pool id => rfl
        | store id => exact bind_append_fresh rfl id
    | halt => exact absurd h (by simp [det])
    | lockIdle id =>
        simp only [det] at h
        split at h
        · rename_i cell hcell
          split at h
          · exact absurd h (by simp)
          · obtain rfl := (Prod.mk.inj (Option.some.inj h)).2
            exact holder_setPool hcell _ l
        · exact absurd h (by simp)
    | unlockIdle id =>
        simp only [det] at h
        split at h
        · rename_i cell hcell
          obtain rfl := (Prod.mk.inj (Option.some.inj h)).2
          exact holder_setPool hcell _ l
        · exact absurd h (by simp)
    | pushIdle id d =>
        simp only [det] at h
        split at h
        · rename_i cell hcell
          obtain rfl := (Prod.mk.inj (Option.some.inj h)).2
          exact holder_setPool_same hcell { cell with idle := cell.idle ++ [d] } rfl rfl rfl l
        · exact absurd h (by simp)
    | takeIdle id =>
        simp only [det] at h
        split at h
        · rename_i cell hcell
          split at h
          · exact absurd h (by simp)
          · obtain rfl := (Prod.mk.inj (Option.some.inj h)).2
            exact holder_setPool_same hcell { cell with idle := [] } rfl rfl rfl l
        · exact absurd h (by simp)
    | pick id offset =>
        simp only [det] at h
        split at h
        · rename_i cell hcell
          split at h
          · exact absurd h (by simp)
          · split at h
            · rename_i d rewind rest _
              obtain rfl := (Prod.mk.inj (Option.some.inj h)).2
              exact holder_setPool_same hcell { cell with idle := rest } rfl rfl rfl l
            · obtain rfl := (Prod.mk.inj (Option.some.inj h)).2
              rfl
        · exact absurd h (by simp)
    | lockStore id =>
        simp only [det] at h
        split at h
        · rename_i cell hcell
          split at h
          · exact absurd h (by simp)
          · obtain rfl := (Prod.mk.inj (Option.some.inj h)).2
            exact holder_setStore hcell _ l
        · exact absurd h (by simp)
    | unlockStore id state =>
        simp only [det] at h
        split at h
        · rename_i cell hcell
          obtain rfl := (Prod.mk.inj (Option.some.inj h)).2
          exact holder_setStore hcell _ l
        · exact absurd h (by simp)
    | record id offset len =>
        simp only [det] at h
        split at h
        · rename_i cell hcell
          obtain rfl := (Prod.mk.inj (Option.some.inj h)).2
          exact holder_setStore_same hcell
            { cell with observed := cell.observed ++ [(offset, len)] }
            rfl rfl rfl l
        · exact absurd h (by simp)
    | cell _ | short | fstat | loadStale | swapStale | loadUnsure | swapUnsure _
    | loadDataStart _ | storeDataStart _ _ | loadVerify _ | storeVerify _ _ | getSymlink _
    | nextHandle | insertHandle _ _ | releaseRetain | takeCore _
    | recycleCore _ | getScratch | putScratch _ | note _ =>
        obtain rfl := (Prod.mk.inj (Option.some.inj h)).2
        exact holder_same rfl rfl l
    | _ =>
        simp only [det] at h
        repeat' split at h
        all_goals first
          | (obtain rfl := (Prod.mk.inj (Option.some.inj h)).2
             exact holder_same rfl rfl l)
          | cases h
  · cases o with
    | lockIdle _ | unlockIdle _ | lockStore _ | unlockStore _ _ => exact hf.elim
    | _ => rfl

/-- A lock that a thread takes was free. -/
theorem lockIdle_free {id : Nat} {r : Nat} (h : exec K M t (.lockIdle id) w r w') :
    (Lock.pool id).holder w = none := by
  rcases h with h | ⟨hf, -⟩
  · simp only [det] at h
    split at h
    · rename_i cell hcell
      split at h
      · exact absurd h (by simp)
      · rename_i hfree
        rw [Lock.holder, hcell]
        simpa using hfree
    · exact absurd h (by simp)
  · exact hf.elim

/-- Locking a tracker waits until it is free. -/
theorem lockStore_free {id : Nat} {r : StoreVerify} (h : exec K M t (.lockStore id) w r w') :
    (Lock.store id).holder w = none := by
  rcases h with h | ⟨hf, -⟩
  · simp only [det] at h
    split at h
    · rename_i cell hcell
      split at h
      · exact absurd h (by simp)
      · rename_i hfree
        rw [Lock.holder, hcell]
        simpa using hfree
    · exact absurd h (by simp)
  · exact hf.elim

/-- What a step does to the locks of its own thread. -/
theorem own_locks {o : Op δ ζ} {r : Res o} (h : exec K M t o w r w') :
    locksOf t w' = o.locks (locksOf t w) := by
  ext l
  rw [locksOf, Set.mem_ofPred_eq, exec_holder h l]
  cases o with
  | lockIdle id | lockStore id =>
      simp only [Op.holder, Op.locks, locksOf, Set.mem_insert_iff, Set.mem_ofPred_eq]
      split
      · simp_all
      · simp_all
  | unlockIdle id | unlockStore id _ =>
      simp only [Op.holder, Op.locks, locksOf, Set.mem_sdiff, Set.mem_singleton_iff,
        Set.mem_ofPred_eq]
      split
      · simp_all
      · simp_all
  | _ => rfl

/-- Nobody takes a lock that another thread holds, or lets go of it. -/
theorem others_locks {H : Prop} {u : τ} (hu : u ≠ t) {i : World τ δ ζ} {o : Op δ ζ} {r : Res o}
    (hmay : MayDo H t i (locksOf t w) o) (h : exec K M t o w r w') :
    locksOf u w' = locksOf u w := by
  ext l
  rw [locksOf, Set.mem_ofPred_eq, exec_holder h l, locksOf, Set.mem_ofPred_eq]
  cases o with
  | lockIdle id =>
      simp only [Op.holder]
      split
      · rename_i hl
        rw [hl, lockIdle_free h]
        simp [hu.symm]
      · rfl
  | lockStore id =>
      simp only [Op.holder]
      split
      · rename_i hl
        rw [hl, lockStore_free h]
        simp [hu.symm]
      · rfl
  | unlockIdle id =>
      simp only [Op.holder]
      split
      · rename_i hl
        rw [hl, holder_of_locks hmay.1]
        simp [hu.symm]
      · rfl
  | unlockStore id _ =>
      simp only [Op.holder]
      split
      · rename_i hl
        rw [hl, holder_of_locks hmay]
        simp [hu.symm]
      · rfl
  | _ => rfl

/-- What is found behind a handle is there. -/
theorem getHandle_at {fh : Nat} {f : OpenFile}
    (h : det K M t (.getHandle fh) w = some (some f, w')) : FileAt fh f w' := by
  simp only [det] at h
  split at h
  · split at h
    · obtain ⟨hr, rfl⟩ := Prod.mk.inj (Option.some.inj h)
      obtain rfl := Option.some.inj hr
      exact ⟨_, World.setFile_self .., rfl⟩
    · exact absurd (Prod.mk.inj (Option.some.inj h)).1 (by simp)
  · exact absurd (Prod.mk.inj (Option.some.inj h)).1 (by simp)

theorem removeHandle_at {fh : Nat} {f : OpenFile}
    (h : det K M t (.removeHandle fh) w = some (some f, w')) : FileAt fh f w' := by
  simp only [det] at h
  split at h
  · split at h
    · obtain ⟨hr, rfl⟩ := Prod.mk.inj (Option.some.inj h)
      obtain rfl := Option.some.inj hr
      exact ⟨_, World.setFile_self .., rfl⟩
    · exact absurd (Prod.mk.inj (Option.some.inj h)).1 (by simp)
  · exact absurd (Prod.mk.inj (Option.some.inj h)).1 (by simp)

/-- **What is new or found is there**, and a decoder that is picked has a valid source. -/
theorem expected_answers {i : World τ δ ζ} {o : Op δ ζ} {r : Res o} (hi : MountInv True False K M w)
    (hi' : MountInv True False K M w') (h : exec K M t o w r w') (hg : Grows M w' i) :
    Expected M t i o r := by
  rcases h with h | ⟨hf, rfl⟩
  swap
  · cases o with
    | newPool _ _ _ _ | newStore _ _ | getHandle _ | removeHandle _ | pick _ _ => exact hf.elim
    | _ => trivial
  cases o with
  | newPool loc cap j kept =>
      obtain ⟨rfl, hw⟩ := Prod.mk.inj (Option.some.inj h)
      have hkept : KeptBy w.pools.length (if kept then some t else none) w' := by
        rw [← hw]
        exact ⟨_, List.getElem?_concat_length, rfl⟩
      have hopen : PoolOpen t w.pools.length w' := by
        cases kept with
        | true => exact .inr hkept
        | false => exact .inl hkept
      exact hopen.grows hg
  | newStore loc j =>
      obtain ⟨rfl, hw⟩ := Prod.mk.inj (Option.some.inj h)
      have hthere : StoreThere w.stores.length w' := by
        rw [← hw]
        exact ⟨_, List.getElem?_concat_length⟩
      exact hthere.grows hg
  | getHandle fh =>
      rintro f rfl
      have hat := getHandle_at h
      exact FileThere.grows ⟨hat, fileOk_of_fileAt hi' hat⟩ hg
  | removeHandle fh =>
      rintro f rfl
      have hat := removeHandle_at h
      exact FileThere.grows ⟨hat, fileOk_of_fileAt hi' hat⟩ hg
  | pick id offset =>
      intro d rewind hd
      simp only [det] at h
      split at h
      · rename_i cell hcell
        split at h
        · exact absurd h (by simp)
        · split at h
          · rename_i d' rewind' rest hpick
            obtain ⟨hr, rfl⟩ := Prod.mk.inj (Option.some.inj h)
            obtain ⟨rfl, rfl⟩ := Prod.mk.inj (Option.some.inj (hr.trans hd))
            obtain ⟨m, hm, hidle⟩ := (hi.pools id cell hcell).entry
            have hok := hidle d' ((pickIdle_spec hpick).1.mem_iff.mpr List.mem_cons_self)
            exact hok.shape.src.valid
          · obtain ⟨hr, -⟩ := Prod.mk.inj (Option.some.inj h)
            exact absurd (hr.trans hd) (by simp)
      · exact absurd h (by simp)
  | _ => trivial

end Steps

/-! ## The text -/

/-- An operation that needs neither a lock nor anything that has to be there. -/
def Op.Free : Op δ ζ → Prop
  | .halt | .pick .. | .lockIdle _ | .pushIdle .. | .unlockIdle _ | .takeIdle _ | .lockStore _
  | .record .. | .unlockStore .. | .dropFile _ => False
  | _ => True

/-- What is answered at once in every state is such an operation. -/
theorem Op.Prompt.free {K : Codecs δ ζ} {M : Mount} {o : Op δ ζ} (h : o.Prompt K M) : o.Free := by
  have hstart := h Unit () (World.start M none)
  cases o with
  | halt | pick _ _ | lockIdle _ | pushIdle _ _ | unlockIdle _ | takeIdle _ | lockStore _
  | record _ _ _ | unlockStore _ _ | dropFile _ => simp [det, World.start] at hstart
  | _ => trivial

theorem Op.Locates.free {o : Op δ ζ} (h : o.Locates) : o.Free := by
  cases o with
  | halt | pick _ _ | lockIdle _ | pushIdle _ _ | unlockIdle _ | takeIdle _ | lockStore _
  | record _ _ _ | unlockStore _ _ | dropFile _ => exact h
  | _ => trivial

theorem Op.Checks.free {o : Op δ ζ} (h : o.Checks) : o.Free := by
  cases o with
  | halt | pick _ _ | lockIdle _ | pushIdle _ _ | unlockIdle _ | takeIdle _ | lockStore _
  | record _ _ _ | unlockStore _ _ | dropFile _ => exact h
  | _ => trivial

section Text

variable {H : Prop} {K : Codecs δ ζ} {M : Mount} {t : τ} {i : World τ δ ζ}

/-- The judgement that a program of thread `t` keeps to the discipline and waits for nothing that
is not there, if there is what there is in `i`. -/
abbrev waiting (H : Prop) (M : Mount) (t : τ) (i : World τ δ ζ) : Logic (@Res δ ζ) :=
  (lockDiscipline H M).logic (t, i)

/-- An operation that touches no lock is always accepted. -/
theorem waiting_free {o : Op δ ζ} (h : o.Free) :
    (waiting H M t i).Holds (.op o .ret) (Expected M t i o) := by
  have hfree : MayDo H t i ∅ o ∧ o.locks ∅ = ∅ := by
    cases o with
    | halt | pick _ _ | lockIdle _ | pushIdle _ _ | unlockIdle _ | takeIdle _ | lockStore _
    | record _ _ _ | unlockStore _ _ | dropFile _ => exact h.elim
    | tryRetain | storeVerify _ _ | note _ => exact ⟨.inl rfl, rfl⟩
    | _ => exact ⟨rfl, rfl⟩
  exact Discipline.holds_op hfree.1 hfree.2

theorem waiting_accepts {o : Op δ ζ} (h : o.Free) : (waiting H M t i).Accepts (.op o .ret) :=
  Logic.accepts (waiting_free h)

theorem waiting_locates : Permits (waiting H M t i) M (Op.Locates (δ := δ) (ζ := ζ)) where
  verify := accepts_guardVerify fun _ ho => waiting_accepts ho.free
  op _ ho := waiting_accepts ho.free

theorem waiting_reads : Permits (waiting H M t i) M (Op.Reads (δ := δ) (ζ := ζ)) :=
  waiting_locates.weaken fun _ => Op.Reads.locates

theorem waiting_diagnose (errno : Nat) : (waiting H M t i).Accepts (Fs.diagnose M errno) :=
  accepts_diagnose waiting_locates (waiting_accepts trivial) errno

/-! ### Pools -/

/-- A new pool is there, and no other thread's. -/
theorem waiting_newPool (loc : EntryLocation) (cap j : Nat) (kept : Bool) :
    (waiting H M t i).Holds (EntryPool.new loc cap j kept) fun pool => PoolOpen t pool.id i := by
  refine Logic.bind _ (waiting_free (o := .newPool loc cap j kept) trivial) ?_
  intro id hid
  exact Logic.pure _ hid

/-- A decoder is lent with a valid source. -/
theorem waiting_checkout {pool : EntryPool} (hpool : PoolOpen t pool.id i) (offset : Nat) :
    (waiting H M t i).Holds (pool.checkout K M offset) fun d => d.src.Valid := by
  have hpick : (waiting H M t i).Holds (Act.pick pool.id offset) fun picked =>
      ∀ d rewind, picked = some (d, rewind) → d.src.Valid :=
    Discipline.holds_op ⟨rfl, hpool⟩ rfl
  unfold EntryPool.checkout
  refine Logic.bind _ hpick ?_
  intro picked hvalid
  split
  · rename_i d rewind
    refine Logic.seq (waiting_accepts (o := .releaseRetain) trivial) fun _ => ?_
    cases rewind with
    | true => exact Logic.pure _ (BufSource.Valid.new ..)
    | false => exact Logic.pure _ (hvalid d false rfl)
  · exact Logic.seq (waiting_accepts (o := .takeCore _) trivial) fun parts =>
      Logic.pure _ (BufSource.Valid.new ..)

/-- Between the two ends of its lock a pool only counts. -/
theorem waiting_giveBack {pool : EntryPool} (hpool : PoolOpen t pool.id i)
    (d : PositionedDecoder δ ζ) : (waiting H M t i).Accepts (pool.giveBack d) := by
  have hlet : ∀ {p : Unit → Act δ ζ Unit}, (∀ a, (waiting H M t i).Accepts (p a)) →
      (Act.unlockIdle pool.id >>= p).Follows (lockDiscipline H M) (t, i)
        (fun _ y => y = ∅ ∧ True) {.pool pool.id} :=
    fun hp => .op ⟨rfl, hpool⟩ Set.sdiff_self fun a _ => hp a
  have hrecycle : ∀ _ : Unit, (waiting H M t i).Accepts (Act.recycleCore d.intoParts) :=
    fun _ => waiting_accepts (o := .recycleCore _) trivial
  unfold EntryPool.giveBack
  refine .op ⟨rfl, hpool⟩ (insert_empty_eq (Lock.pool pool.id)) fun (len : Nat) _ => ?_
  split
  · refine .op (.inr ⟨_, rfl⟩) rfl fun (retained : Bool) _ => ?_
    split
    · refine .op ⟨rfl, hpool⟩ rfl fun _ _ => ?_
      exact hlet (p := fun _ => pure ()) fun _ => Logic.pure _ trivial
    · exact hlet hrecycle
  · exact hlet hrecycle

/-- Taking decoders to pieces takes no lock. -/
theorem waiting_recycleAll (ds : List (PositionedDecoder δ ζ)) :
    (waiting H M t i).Accepts (EntryPool.recycleAll ds) := by
  induction ds with
  | nil => exact Logic.pure _ trivial
  | cons d ds ih =>
      unfold EntryPool.recycleAll
      refine Logic.seq (waiting_accepts (o := .releaseRetain) trivial) fun _ => ?_
      exact Logic.seq (waiting_accepts (o := .recycleCore _) trivial) fun _ => ih

/-- Dropping a pool that is there keeps no lock from one step to the next. -/
theorem waiting_drop {pool : EntryPool} (hpool : PoolOpen t pool.id i) :
    (waiting H M t i).Accepts (pool.drop : Act δ ζ Unit) := by
  have htake : (waiting H M t i).Accepts (Act.takeIdle pool.id : Act δ ζ _) :=
    Logic.accepts (Discipline.holds_op ⟨rfl, hpool⟩ rfl)
  exact Logic.seq htake fun idle => waiting_recycleAll idle

/-- Decoding waits for nobody, and comes to its end if it has to. -/
theorem waiting_decode (hK : H ∨ K.Bounded) {d : PositionedDecoder δ ζ} (hd : d.src.Valid)
    (offset : Nat) (out : Bytes) (j : Nat) (m : EntryMeta) :
    (waiting H M t i).Accepts (d.readAt K M offset out j m) := by
  rcases hK with hH | hK
  · have hpermits : Permits (waiting H M t i) M (Op.Decodes (δ := δ) (ζ := ζ) fun _ => True) :=
      { verify := accepts_guardVerify fun _ ho => waiting_accepts ho.free
        op := fun o ho => by
          cases o with
          | halt => exact Logic.accepts (Discipline.holds_op hH rfl)
          | pick _ _ | lockIdle _ | pushIdle _ _ | unlockIdle _ | takeIdle _ | lockStore _
          | record _ _ _ | unlockStore _ _ | dropFile _ => exact ho.elim
          | _ => exact waiting_accepts trivial }
    exact Logic.accepts (holds_decoderReadAt hpermits d offset out j m trivial)
  · exact Logic.accepts (Lib.Prog.Always.accepts (prompt_readAt hK hd offset out j m)
      fun _ ho => waiting_accepts ho.free)

/-- A read through a pool of its own. -/
theorem waiting_readOnce (hK : H ∨ K.Bounded) (loc : EntryLocation) (out : Bytes) (j : Nat)
    (m : EntryMeta) : (waiting H M t i).Accepts (Fs.readOnce K M loc out j m) := by
  unfold Fs.readOnce
  refine Logic.bind _ (waiting_newPool loc 1 j true) ?_
  intro pool hpool
  refine Logic.bind _ (waiting_checkout hpool 0) ?_
  intro d hd
  refine Logic.seq (waiting_decode hK hd 0 out j m) fun x => ?_
  refine Logic.seq (waiting_giveBack hpool x.1) fun _ => ?_
  exact Logic.seq (waiting_drop hpool) fun _ => Logic.pure _ trivial

/-- Reading a whole entry. -/
theorem waiting_readAll (hK : H ∨ K.Bounded) (j : Nat) (m : EntryMeta) (limit : Nat) :
    (waiting H M t i).Accepts (Fs.readAll K M j m limit) :=
  walk_readAll (waiting_accepts trivial) (accepts_locate waiting_locates j m)
    (fun _ => waiting_accepts trivial) (fun loc out => accepts_readDirect waiting_reads loc 0 out)
    fun loc out => waiting_readOnce hK loc out j m

/-! ### Open files -/

/-- While it holds its lock a tracker only looks at the block it was given. -/
theorem waiting_observeLocked {id : Nat} (hstore : StoreThere id i) (offset : Nat) (data : Bytes)
    (j : Nat) (m : EntryMeta) :
    (waiting H M t i).Accepts (OpenFile.observeLocked id offset data j m : Act δ ζ Bool) := by
  have hlet : ∀ state (fine : Bool), (Act.unlockStore id state >>= fun _ => pure fine :
      Act δ ζ Bool).Follows (lockDiscipline H M) (t, i) (fun _ y => y = ∅ ∧ True) {.store id} :=
    fun state fine => .op rfl Set.sdiff_self fun _ _ => ⟨rfl, trivial⟩
  unfold OpenFile.observeLocked
  refine .op ⟨rfl, hstore⟩ (insert_empty_eq (Lock.store id)) fun (v : StoreVerify) _ => ?_
  refine .op rfl rfl fun _ _ => ?_
  refine .op (.inr ⟨id, rfl⟩) rfl fun _ _ => ?_
  dsimp only
  split
  · refine .op (.inr ⟨id, rfl⟩) rfl fun _ _ => ?_
    exact hlet _ _
  · exact hlet _ _

/-- Reading a part of an open file, with its pool or its tracker there. -/
theorem waiting_readInto (hK : H ∨ K.Bounded) {fh : Nat} {file : OpenFile}
    (hfile : FileThere M fh file i) (m : EntryMeta) (offset : Nat) (buf : Bytes) :
    (waiting H M t i).Accepts (Fs.readInto K M file m offset buf) := by
  have hkind := hfile.2.kind
  unfold KindOk at hkind
  refine walk_readInto (fun loc => accepts_readDirect waiting_reads loc offset buf) ?_ ?_
  · intro start size verify data hstore
    rw [hstore] at hkind
    unfold OpenFile.observeStore
    split
    · exact Logic.pure _ trivial
    · obtain ⟨cell, hcell, -⟩ := hkind.2.2.2 _ rfl
      exact waiting_observeLocked ⟨cell, hcell⟩ ..
  · intro pool hcoded
    rw [hcoded] at hkind
    have hpool : PoolOpen t pool.id i := .inl hkind.2.2.2
    unfold Fs.readInto
    rw [hcoded]
    refine Logic.bind _ (waiting_checkout hpool offset) ?_
    intro d hd
    refine Logic.seq (waiting_decode hK hd offset buf _ m) fun x => ?_
    exact Logic.seq (waiting_giveBack hpool x.1) fun _ => Logic.pure _ trivial

/-- `read`, with the file in hand. -/
theorem waiting_readFile (hK : H ∨ K.Bounded) {fh : Nat} {file : OpenFile}
    (hfile : FileThere M fh file i) (offset size : Nat) :
    (waiting H M t i).Accepts (Fs.readFile K M file offset size) := by
  refine walk_readFile (waiting_accepts trivial) ?_ (waiting_accepts trivial)
    (waiting_accepts trivial) (fun _ => waiting_accepts trivial)
    (fun m buf => waiting_readInto hK hfile m offset buf) waiting_diagnose
  -- the entry of an open file is in the index
  intro hnone
  obtain ⟨m, hloc, -⟩ := hfile.2.entry
  exact absurd (hnone.symm.trans hloc.entry) (by simp)

theorem waiting_releaseFile {fh : Nat} {file : OpenFile} (hfile : FileThere M fh file i) :
    (waiting H M t i).Accepts (file.release fh : Act δ ζ Unit) := by
  have hdrop : (waiting H M t i).Accepts (.op (.dropFile fh) .ret : Act δ ζ Bool) :=
    Logic.accepts (Discipline.holds_op ⟨rfl, file, hfile.1⟩ rfl)
  refine walk_releaseFile hdrop ?_
  intro pool hcoded
  have hkind := hfile.2.kind
  unfold KindOk at hkind
  rw [hcoded] at hkind
  exact waiting_drop (.inl hkind.2.2.2)

theorem waiting_newFile (ino j : Nat) (m : EntryMeta) (loc : EntryLocation) :
    (waiting H M t i).Accepts (OpenFile.new M ino j m loc : Act δ ζ OpenFile) := by
  unfold OpenFile.new
  dsimp only
  split
  · exact Logic.pure _ trivial
  split
  · split
    · exact Logic.seq (waiting_accepts (o := .newStore ..) trivial) fun _ => Logic.pure _ trivial
    · exact Logic.pure _ trivial
  · exact Logic.seq (Logic.accepts (waiting_newPool ..)) fun _ => Logic.pure _ trivial

/-! ### Calls -/

/-- **Every call keeps to the discipline.** -/
theorem waiting_prog (hK : H ∨ K.Bounded) (call : Call) :
    (waiting H M t i).Accepts (call.prog K M) := by
  cases call with
  | openFile ino mode =>
      exact walk_openFile (accepts_locate waiting_locates) (waiting_newFile ino)
        (waiting_accepts trivial) (fun _ _ => waiting_accepts trivial) waiting_diagnose
  | read fh offset size =>
      change (waiting H M t i).Accepts (Fs.read K M fh offset size)
      unfold Fs.read
      refine Logic.bind _ (waiting_free (o := .getHandle fh) trivial) ?_
      intro (found : Option OpenFile) hfound
      cases found with
      | none => exact Logic.pure _ trivial
      | some file =>
          have hfile := hfound file rfl
          refine Logic.seq (waiting_accepts (o := .note .handleFound) trivial) fun _ => ?_
          refine Logic.seq (waiting_readFile hK hfile offset size) fun reply => ?_
          exact Logic.seq (waiting_releaseFile hfile) fun _ => Logic.pure _ trivial
  | readlink ino =>
      exact walk_readlink (fun _ => waiting_accepts trivial) (waiting_accepts trivial)
        (waiting_readAll hK) (fun _ _ => waiting_accepts trivial) waiting_diagnose
  | release fh =>
      change (waiting H M t i).Accepts (Fs.release fh)
      unfold Fs.release
      refine Logic.bind _ (waiting_free (o := .removeHandle fh) trivial) ?_
      intro (found : Option OpenFile) hfound
      cases found with
      | none => exact Logic.pure _ trivial
      | some file =>
          exact Logic.seq (waiting_releaseFile (hfound file rfl)) fun _ => Logic.pure _ trivial
  | readAt len offset =>
      exact Logic.seq (accepts_readAt waiting_reads len offset) fun _ => Logic.pure _ trivial
  | readExactAt buf offset =>
      exact Logic.seq (accepts_readExactAt waiting_reads buf offset) fun _ => Logic.pure _ trivial

end Text

/-! ## Whole runs -/

section Run

variable [DecidableEq τ] {K : Codecs δ ζ} {M : Mount}

/-- That holds over every run. -/
theorem locks_kept {H : Prop} (hK : H ∨ K.Bounded) :
    Lib.KeepsTo (mountSystem (τ := τ) K M (Writer M)) (mountProtocol True False K M)
      (lockDiscipline H M) where
  here _ w := ⟨rfl, Grows.refl w⟩
  above _ _ _ _ hg ha := ⟨ha.1, hg.trans ha.2⟩
  resp t o w r w' x hi hi' he ha := by
    obtain ⟨u, i⟩ := x
    obtain ⟨rfl, hg⟩ := ha
    exact expected_answers hi hi' he hg
  own _ _ _ _ _ _ _ _ he := own_locks he
  others t u o w r w' x hu ha hmay he := by
    obtain ⟨t', i⟩ := x
    obtain ⟨rfl, -⟩ := ha
    exact others_locks hu hmay he
  arrive _ _ _ _ := rfl
  env _ _ _ h := by
    cases h with
    | touch | write | path => rfl
  calls _ call := (waiting_prog hK call).mono fun _ _ h => h.1

/-- An operation that touches no lock can always step. -/
theorem free_answers {t : τ} {w : World τ δ ζ} {o : Op δ ζ} (h : o.Free) :
    (det K M t o w).isSome := by
  cases o with
  | halt | pick _ _ | lockIdle _ | pushIdle _ _ | unlockIdle _ | takeIdle _ | lockStore _
  | record _ _ _ | unlockStore _ _ | dropFile _ => exact h.elim
  | statNamed | tryRetain =>
      simp only [det]
      split
      · rfl
      · rfl
  | setSymlink _ _ | getHandle _ | removeHandle _ =>
      simp only [det]
      repeat' split
      all_goals rfl
  | _ => rfl

/-- **A thread that holds a lock is never kept waiting**, and nobody waits while no lock is held. -/
theorem locks_unblocked :
    Lib.Unblocked (mountSystem (τ := τ) K M (Writer M)) (mountProtocol True False K M)
      (lockDiscipline False M) := by
  intro t o w hi (hmay : MayDo False t w (locksOf t w) o) hfree
  change locksOf t w = ∅ → ∀ u, locksOf u w = ∅ at hfree
  change ∃ r w', exec K M t o w r w'
  have hanswer : (det K M t o w).isSome → ∃ r w', exec K M t o w r w' := by
    intro h
    obtain ⟨x, hx⟩ := Option.isSome_iff_exists.mp h
    exact ⟨x.1, x.2, .inl hx⟩
  have hopen : ∀ l : Lock, locksOf t w = ∅ → l.holder w = none := by
    intro l hnone
    by_contra hne
    obtain ⟨u, hu⟩ := Option.ne_none_iff_exists'.mp hne
    have hmem : l ∈ locksOf u w := hu
    rw [hfree hnone u] at hmem
    exact hmem
  refine hanswer ?_
  cases o with
  | halt => exact hmay.elim
  | pick id offset =>
      obtain ⟨cell, hcell, hlock⟩ := pool_unlocked hmay.2 (hopen _ hmay.1)
      simp only [det, hcell, hlock]
      split
      · rename_i hsome
        exact absurd hsome (by simp)
      · split
        · rfl
        · rfl
  | lockIdle id | takeIdle id =>
      obtain ⟨cell, hcell, hlock⟩ := pool_unlocked hmay.2 (hopen _ hmay.1)
      simp [det, hcell, hlock]
  | pushIdle id d | unlockIdle id =>
      obtain ⟨cell, hcell⟩ := hmay.2.cell
      simp [det, hcell]
  | lockStore id =>
      obtain ⟨cell, hcell, hlock⟩ := store_unlocked hmay.2 (hopen _ hmay.1)
      simp [det, hcell, hlock]
  | record id offset len | unlockStore id state =>
      obtain ⟨cell, hcell⟩ := store_of_holder (holder_of_locks hmay)
      simp [det, hcell]
  | dropFile fh =>
      obtain ⟨-, f, cell, hcell, -⟩ := hmay
      simp [det, hcell]
  | _ => exact free_answers trivial

/-- What is done while a lock is held: counting the retained decoders and putting one back, or
recording a block and the verdict on its entry. -/
def Lock.Covers : Lock → Op δ ζ → Prop
  | .pool _, .tryRetain => True
  | .pool id, .pushIdle id' _ => id' = id
  | .pool id, .unlockIdle id' => id' = id
  | .store id, .record id' _ _ => id' = id
  | .store _, .note _ => True
  | .store _, .storeVerify _ _ => True
  | .store id, .unlockStore id' _ => id' = id
  | _, _ => False

omit [DecidableEq τ] in
theorem covers_of_mayDo {t : τ} {w : World τ δ ζ} {held : Set Lock} {l : Lock} {o : Op δ ζ}
    (hl : l ∈ held) (h : MayDo False t w held o) : held = {l} ∧ l.Covers o := by
  have hone : ∀ l', held = {l'} → l = l' := by
    intro l' heq
    rw [heq] at hl
    exact hl
  have hnone : held ≠ ∅ := by
    intro heq
    rw [heq] at hl
    exact hl
  cases o with
  | halt => exact h.elim
  | pushIdle id d | unlockIdle id =>
      obtain rfl := hone _ h.1
      exact ⟨h.1, rfl⟩
  | record id offset len | unlockStore id state =>
      obtain rfl := hone _ h
      exact ⟨h, rfl⟩
  | tryRetain | storeVerify _ _ | note _ =>
      rcases h with h | ⟨id, h⟩
      · exact absurd h hnone
      · obtain rfl := hone _ h
        exact ⟨h, trivial⟩
  | pick _ _ | lockIdle _ | takeIdle _ | lockStore _ | dropFile _ => exact absurd h.1 hnone
  | _ => exact absurd h hnone

omit [DecidableEq τ] in
/-- Nothing is locked at the start. -/
theorem start_unlocked (path : Option Stamp) (t : τ) :
    locksOf t (World.start (δ := δ) (ζ := ζ) M path) = ∅ := by
  refine Set.eq_empty_iff_forall_notMem.mpr fun l (hl : l.holder _ = some t) => ?_
  cases l with
  | pool id | store id => exact absurd hl (by simp [Lock.holder, World.start])

/--
**Every call is answered.** In every reachable configuration in which some thread serves a
call, some thread can go on with its own; threads that go on come to an end, whatever else
happens to the shared state meanwhile; and if no more calls come, a configuration is reached
in which every call has been answered. A lock that is held over several steps is held by one
thread that holds no other, serves a call, can take its next step at once and takes one that
belongs to the lock: it is neither a read of the archive nor a step of a codec.
-/
theorem every_call_answered (hb : K.Bounded) {path : Option Stamp}
    {c : Lib.Config τ (World τ δ ζ) Call Reply (@Res δ ζ)} (h : MountRun K M path c) :
    (∀ t, c.running t ≠ none → ∃ c', Lib.Serve (mountSystem K M (Writer M)) c c') ∧
    Acc (fun c₂ c₁ => ∃ w, Lib.Serve (mountSystem K M (Writer M))
      ⟨w, c₁.running, c₁.history⟩ c₂) c ∧
    (∃ c', Relation.ReflTransGen (Lib.Serve (mountSystem K M (Writer M))) c c' ∧
      ∀ t, c'.running t = none) ∧
    ∀ l t, Lock.holder c.world l = some t →
      (∀ l', Lock.holder c.world l' = some t → l' = l) ∧
      ∃ call start o k, c.running t = some ⟨call, start, .op o k⟩ ∧ l.Covers o ∧
        ∃ r w', exec K M t o c.world r w' := by
  have hs := mount_respects (τ := τ) (K := K) (M := M)
  have hk := locks_kept (τ := τ) (M := M) (H := False) (.inr hb)
  have hu := locks_unblocked (τ := τ) (K := K) (M := M)
  have hw : MountInv True False K M (World.start (τ := τ) M path) := start_inv path
  have hstart : ∀ t : τ, locksOf t (World.start (δ := δ) (ζ := ζ) M path) = ∅ :=
    start_unlocked path
  obtain ⟨ts, hts⟩ := Lib.running_finite h
  refine ⟨fun t ht => Lib.someone_serves hs hk hu hw hstart h ht, Lib.serve_acc hts,
    Lib.all_answered hs hk hu hw hstart h, ?_⟩
  intro l t hl
  have habide := Lib.disciplined hs hk hw hstart h t
  have hmem : l ∈ locksOf t c.world := hl
  have hsome : locksOf t c.world ≠ ∅ := fun heq => by simp [heq] at hmem
  cases hrun : c.running t with
  | none =>
      rw [hrun] at habide
      exact absurd habide hsome
  | some r =>
      rw [hrun] at habide
      have hfollows := habide (t, c.world) ⟨rfl, Grows.refl _⟩
      obtain ⟨call, start, rest⟩ := r
      cases rest with
      | ret a => exact absurd hfollows hsome
      | op o k =>
          obtain ⟨honly, hcovers⟩ := covers_of_mayDo hmem hfollows.1
          refine ⟨?_, call, start, o, k, rfl, hcovers,
            hu t o c.world (Lib.sound hs hw h).inv hfollows.1 fun hn => absurd hn hsome⟩
          intro l' hl'
          have hmem' : l' ∈ locksOf t c.world := hl'
          rw [honly] at hmem'
          exact hmem'

end Run

/-- The sample answers an `open` that has just arrived. -/
theorem every_call_answered_sample :
    ∃ c : Lib.Config Unit (World Unit Sample.Inflater Unit) Call Reply (@Res Sample.Inflater Unit),
      MountRun Sample.codecs (Sample.mount 1 Sample.checksum) none c ∧ c.running () ≠ none ∧
      ∃ c', Relation.ReflTransGen (Lib.Serve (mountSystem Sample.codecs
        (Sample.mount 1 Sample.checksum) (Writer (Sample.mount 1 Sample.checksum)))) c c' ∧
        ∀ t, c'.running t = none := by
  have hc := Lib.Reachable.init.step (Lib.Step.call (S := mountSystem Sample.codecs
    (Sample.mount 1 Sample.checksum) (Writer (Sample.mount 1 Sample.checksum)))
    (w := World.start (Sample.mount 1 Sample.checksum) none) () (.openFile 2 .rdonly) rfl)
  refine ⟨_, hc, by simp, ?_⟩
  exact (every_call_answered Sample.codecs_bounded hc).2.2.1

end ZipFs
