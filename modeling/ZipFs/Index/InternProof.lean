import ZipFs.Index.Intern
import ZipFs.Lib.Probe

/-!
# The interner is a finite map

`find` and `insert` against the set of nodes the table records. The library of
`ZipFs.Lib.Probe` supplies the probe arithmetic; what is left here is the load
factor, which is why both loops end, and the growth of the table.
-/

namespace ZipFs

open Lib

/-- Node `id` has this parent and this name. -/
def HasKey (nodes : List TmpNode) (names : Bytes) (id parent : Nat) (name : Bytes) : Prop :=
  ∃ n, nodes[id]? = some n ∧ n.parent = parent ∧ slice names n.nameOff n.nameLen = some name

theorem HasKey.unique {nodes : List TmpNode} {names : Bytes} {id p p' : Nat} {nm nm' : Bytes}
    (h : HasKey nodes names id p nm) (h' : HasKey nodes names id p' nm') : p = p' ∧ nm = nm' := by
  obtain ⟨n, h1, h2, h3⟩ := h
  obtain ⟨n', h1', h2', h3'⟩ := h'
  rw [h1] at h1'
  injection h1' with he
  subst he
  rw [h3] at h3'
  injection h3' with he
  exact ⟨h2.symm.trans h2', he⟩

/-- The bucket where the search for a node starts. -/
def home (nodes : List TmpNode) (names : Bytes) (mask id : Nat) : Nat :=
  match nodes[id]? with
  | some n => bucket (hashKey n.parent ((slice names n.nameOff n.nameLen).getD [])) mask
  | none => 0

theorem home_eq {nodes : List TmpNode} {names : Bytes} {mask id parent : Nat} {name : Bytes}
    (h : HasKey nodes names id parent name) :
    home nodes names mask id = bucket (hashKey parent name) mask := by
  obtain ⟨n, h1, h2, h3⟩ := h
  simp only [home, h1, h3, h2, Option.getD_some]

namespace Interner

/-- The table as an array of `2 ^ k` slots that is at most half full. -/
structure Shape (t : Interner) : Prop where
  pow : ∃ k, t.slots.length = 2 ^ k
  mask : t.mask = t.slots.length - 1
  used : Probe.used t.slots < t.slots.length

/-- The table records exactly the nodes in `S`, and has room. -/
structure Ok (t : Interner) (nodes : List TmpNode) (names : Bytes) (S : Nat → Prop) : Prop where
  shape : t.Shape
  table : Probe.Table t.slots (home nodes names t.mask) S
  used : Probe.used t.slots ≤ t.len
  load : t.len * 2 ≤ t.slots.length
  /-- Every recorded node exists and has a name. -/
  keyed : ∀ id, S id → ∃ parent name, HasKey nodes names id parent name
  /-- No recorded identifier has wrapped. -/
  small : ∀ id, S id → id + 1 < 2 ^ 32

section Loops

variable {t : Interner} {nodes : List TmpNode} {names : Bytes} {S : Nat → Prop}

theorem Shape.pos (h : t.Shape) : 0 < t.slots.length := by
  have := h.used
  omega

/-- Masking is taking the remainder by the table's length. -/
theorem Shape.and_mask (h : t.Shape) (i : Nat) : i &&& t.mask = i % t.slots.length := by
  obtain ⟨k, hk⟩ := h.pow
  rw [h.mask, hk]
  exact Nat.and_two_pow_sub_one_eq_mod i k

theorem Shape.bucket_lt (h : t.Shape) (hash : UInt64) : bucket hash t.mask < t.slots.length := by
  rw [bucket, h.and_mask]
  exact Nat.mod_lt _ h.pos

theorem Shape.slot (h : t.Shape) (i : Nat) : ∃ v, t.slots[i % t.slots.length]? = some v :=
  ⟨_, List.getElem?_eq_getElem (Nat.mod_lt _ h.pos)⟩

/-- `place` stops at the first empty slot of its probe sequence. -/
theorem placeLoop_eq (h : t.Shape) {b d : Nat} (hb : b < t.slots.length) (hd : d < t.slots.length)
    (hz : t.slots[(b + d) % t.slots.length]? = some 0)
    (hpre : ∀ e, e < d → t.slots[(b + e) % t.slots.length]? ≠ some 0) :
    t.placeLoop t.slots.length b = .ok ((b + d) % t.slots.length) := by
  refine Probe.loop_eq (l := t.placeLoop) (p := fun i => t.slots[i]? = some 0)
    (r := fun i => .ok i) ?_ ?_ d _ b hb hd hz hpre
  · intro f i _ hs
    rw [placeLoop, at!_ok hs]
    rfl
  · intro f i hi hs
    obtain ⟨v, hv⟩ : ∃ v, t.slots[i]? = some v := ⟨_, List.getElem?_eq_getElem hi⟩
    have hv0 : v ≠ 0 := fun h0 => hs (h0 ▸ hv)
    rw [placeLoop, at!_ok hv, ← h.and_mask]
    simp only [Except.bind, bind, if_pos hv0]

/-- One probe of `find` at an occupied slot: stop there, or go on. -/
theorem findLoop_step (h : t.Shape) {fuel i id parent : Nat} {name : Bytes} {p : Nat} {nm : Bytes}
    (hs : t.slots[i]? = some (id + 1)) (hk : HasKey nodes names id p nm) :
    t.findLoop nodes names parent name (fuel + 1) i
      = if p = parent ∧ nm = name then .ok (some id)
        else t.findLoop nodes names parent name fuel ((i + 1) % t.slots.length) := by
  obtain ⟨n, h1, h2, h3⟩ := hk
  have hname : nodeName n names = .ok nm := slice!_ok h3
  rw [findLoop, at!_ok hs, ← h.and_mask]
  simp only [bind, Except.bind, Nat.add_eq_zero_iff, Nat.succ_ne_self, and_false, if_false,
    Nat.add_sub_cancel, at!_ok h1, h2]
  by_cases hp : p = parent
  · by_cases hn : nm = name
    · simp [hp, hn, hname, pure, Except.pure]
    · simp [hp, hn, hname, pure, Except.pure]
  · simp [hp, pure, Except.pure]

/-- **`find` returns the recorded node with this key, and `none` when there is none.** -/
theorem find_spec (h : t.Ok nodes names S) (parent : Nat) (name : Bytes) :
    ∃ r, t.find nodes names parent name = .ok r ∧
      (∀ id, r = some id → S id ∧ HasKey nodes names id parent name) ∧
      (r = none → ∀ id, S id → ¬ HasKey nodes names id parent name) := by
  have hsh := h.shape
  obtain ⟨d, hd, hpre, hstop⟩ := h.table.first_stop hsh.used
    (M := fun id => HasKey nodes names id parent name)
    (b := bucket (hashKey parent name) t.mask) (fun id _ hk => home_eq hk)
  have hb := hsh.bucket_lt (hashKey parent name)
  rw [find]
  generalize bucket (hashKey parent name) t.mask = b at hb hpre hstop ⊢
  -- where the loop stops, and with what
  let stop : Nat → Prop := fun i => t.slots[i]? = some 0 ∨
    ∃ id, t.slots[i]? = some (id + 1) ∧ HasKey nodes names id parent name
  let found : Nat → Build (Option Nat) := fun i =>
    match t.slots[i]? with
    | some (id + 1) => .ok (some id)
    | _ => .ok none
  have hhere : ∀ f i, i < t.slots.length → stop i →
      t.findLoop nodes names parent name (f + 1) i = found i := by
    intro f i _ hs
    rcases hs with hs | ⟨id, hs, hk⟩
    · rw [findLoop, at!_ok hs]
      simp only [found, hs]
      rfl
    · rw [findLoop_step hsh hs hk, if_pos ⟨rfl, rfl⟩]
      simp only [found, hs]
  have hgo : ∀ f i, i < t.slots.length → ¬ stop i →
      t.findLoop nodes names parent name (f + 1) i
        = t.findLoop nodes names parent name f ((i + 1) % t.slots.length) := by
    intro f i hi hs
    obtain ⟨v, hv⟩ : ∃ v, t.slots[i]? = some v := ⟨_, List.getElem?_eq_getElem hi⟩
    cases v with
    | zero => exact absurd (Or.inl hv) hs
    | succ id =>
        obtain ⟨p, nm, hk⟩ := h.keyed id (h.table.sound _ _ hv)
        rw [findLoop_step hsh hv hk, if_neg]
        rintro ⟨rfl, rfl⟩
        exact hs (Or.inr ⟨id, hv, hk⟩)
  have hnot : ∀ e, e < d → ¬ stop ((b + e) % t.slots.length) := by
    intro e he hs
    obtain ⟨id, hid, hno⟩ := hpre e he
    rcases hs with hs | ⟨id', hs, hk⟩
    · rw [hid] at hs; exact absurd hs (by simp)
    · rw [hid] at hs
      simp only [Option.some.injEq, Nat.add_right_cancel_iff] at hs
      exact hno (hs ▸ hk)
  have hrun := Probe.loop_eq hhere hgo d t.slots.length b hb hd
  rcases hstop with ⟨id, hid, hS, hk⟩ | ⟨hz, hno⟩
  · refine ⟨some id, ?_, ?_, fun hn => absurd hn (by simp)⟩
    · rw [hrun (Or.inr ⟨id, hid, hk⟩) hnot]
      simp only [found, hid]
    · intro id' he
      injection he with he
      exact he ▸ ⟨hS, hk⟩
  · refine ⟨none, ?_, fun id he => absurd he (by simp), fun _ => hno⟩
    rw [hrun (Or.inl hz) hnot]
    simp only [found, hz]

/-! ## Placing -/

/-- What `place` keeps: it fills one empty slot, or none when the identifier wraps to zero. -/
theorem place_spec (hsh : t.Shape) (ht : Probe.Table t.slots (home nodes names t.mask) S)
    {id parent : Nat} {name : Bytes} (hk : HasKey nodes names id parent name) (hid : ¬ S id)
    (hle : id + 1 ≤ 2 ^ 32) :
    ∃ slots, t.place nodes names id = .ok { t with slots := slots } ∧
      slots.length = t.slots.length ∧ Probe.used slots ≤ Probe.used t.slots + 1 ∧
      Probe.Table slots (home nodes names t.mask) (fun x => S x ∨ (x = id ∧ id + 1 < 2 ^ 32)) := by
  obtain ⟨d, hd, hz, hpre⟩ := Probe.first_empty hsh.used (home nodes names t.mask id)
  have hhome : home nodes names t.mask id = bucket (hashKey parent name) t.mask := home_eq hk
  have hb : home nodes names t.mask id < t.slots.length := hhome ▸ hsh.bucket_lt _
  have hloop := placeLoop_eq hsh hb hd hz hpre
  obtain ⟨n, h1, h2, h3⟩ := hk
  have hname : nodeName n names = .ok name := slice!_ok h3
  have hpos : (home nodes names t.mask id + d) % t.slots.length < t.slots.length :=
    Nat.mod_lt _ hsh.pos
  rw [hhome] at hloop
  refine ⟨_, ?_, List.length_set, Probe.used_set_le ((id + 1) % 2 ^ 32) hz, ?_⟩
  · rw [place, at!_ok h1]
    simp only [bind, Except.bind, hname, h2, hloop, hhome ▸ put!_ok ((id + 1) % 2 ^ 32) hpos]
    rw [hhome]
    rfl
  · rcases Nat.lt_or_eq_of_le hle with hlt | heq
    · rw [Nat.mod_eq_of_lt hlt]
      refine (ht.place hid hd hz hpre).congr_mem (fun x => ?_)
      simp only [hlt, and_true]
    · rw [heq, Nat.mod_self, Probe.set_zero hz]
      refine ht.congr_mem (fun x => ?_)
      simp

/-! ## Growing -/

/-- The slots already copied decide what the new table records. -/
theorem grow_fold (nodes : List TmpNode) (names : Bytes) (size mask len : Nat)
    (hpow : ∃ k, size = 2 ^ k) (hmask : mask = size - 1) :
    ∀ (todo done : List Nat) (cur : List Nat),
      (∀ id, id + 1 ∈ done ++ todo → (∃ p nm, HasKey nodes names id p nm) ∧ id + 1 < 2 ^ 32) →
      (done ++ todo).Pairwise (fun a b => a ≠ 0 → a ≠ b) →
      cur.length = size → (done ++ todo).length * 2 ≤ size → Probe.used cur ≤ done.length →
      Probe.Table cur (home nodes names mask) (fun x => x + 1 ∈ done) →
      ∃ slots,
        todo.foldlM (fun (t : Interner) slot =>
            if slot ≠ 0 then t.place nodes names (slot - 1) else pure t)
          { slots := cur, mask := mask, len := len }
          = (.ok { slots := slots, mask := mask, len := len } : Build Interner) ∧
        slots.length = size ∧ Probe.used slots ≤ Probe.used cur + Probe.used todo ∧
        Probe.Table slots (home nodes names mask) (fun x => x + 1 ∈ done ++ todo) := by
  intro todo
  induction todo with
  | nil =>
      intro done cur _ _ hlen _ _ ht
      exact ⟨cur, rfl, hlen, by simp [Probe.used], by simpa using ht⟩
  | cons slot todo ih =>
      intro done cur hkey hnd hlen hroom hused ht
      have hassoc : done ++ slot :: todo = (done ++ [slot]) ++ todo := by simp
      have hlen' : (done ++ slot :: todo).length = done.length + todo.length + 1 := by
        rw [List.length_append, List.length_cons]; omega
      rw [List.foldlM_cons]
      cases slot with
      | zero =>
          have hmem : ∀ x, x + 1 ∈ done ++ [0] ↔ x + 1 ∈ done := by simp
          obtain ⟨slots, h1, h2, h3, h4⟩ := ih (done ++ [0]) cur (by rwa [hassoc] at hkey)
            (by rwa [hassoc] at hnd) hlen (by rwa [hassoc] at hroom) (by simp; omega)
            (ht.congr_mem hmem)
          refine ⟨slots, ?_, h2, ?_, ?_⟩
          · simpa using h1
          · simpa [Probe.used] using h3
          · rw [hassoc]; exact h4
      | succ id =>
          obtain ⟨⟨p, nm, hk⟩, hsmall⟩ := hkey id (by simp)
          have hfresh : ¬ id + 1 ∈ done := by
            intro hin
            rw [List.pairwise_append] at hnd
            exact hnd.2.2 _ hin _ List.mem_cons_self (by simp) rfl
          have hsh : Shape { slots := cur, mask := mask, len := len } := by
            refine ⟨hlen ▸ hpow, by rw [hmask, ← hlen], ?_⟩
            show Probe.used cur < cur.length
            omega
          obtain ⟨slots, h1, h2, h3, h4⟩ := place_spec hsh ht hk hfresh (Nat.le_of_lt hsmall)
          have hmem : ∀ x, x + 1 ∈ done ++ [id + 1] ↔
              (x + 1 ∈ done ∨ (x = id ∧ id + 1 < 2 ^ 32)) := by
            intro x
            simp only [hsmall, and_true, List.mem_append, List.mem_singleton,
              Nat.add_right_cancel_iff]
          obtain ⟨slots', g1, g2, g3, g4⟩ := ih (done ++ [id + 1]) slots
            (by rwa [hassoc] at hkey) (by rwa [hassoc] at hnd) (h2.trans hlen)
            (by rwa [hassoc] at hroom)
            (by
              rw [List.length_append, List.length_singleton]
              exact Nat.le_trans h3 (by simpa using hused))
            (h4.congr_mem hmem)
          refine ⟨slots', ?_, g2, ?_, ?_⟩
          · rw [if_pos (by simp), Nat.add_sub_cancel, h1]
            exact g1
          · have : Probe.used ((id + 1) :: todo) = Probe.used todo + 1 := by
              simp [Probe.used]
            rw [this]
            have h3' : Probe.used slots ≤ Probe.used cur + 1 := h3
            omega
          · rw [hassoc]; exact g4

/-- What a table records is what its slots hold. -/
theorem Ok.mem_slots (h : t.Ok nodes names S) (id : Nat) : id + 1 ∈ t.slots ↔ S id := by
  constructor
  · intro hin
    obtain ⟨j, hj⟩ := List.getElem?_of_mem hin
    exact h.table.sound j id hj
  · intro hs
    obtain ⟨d, -, hat, -⟩ := h.table.reach id hs
    exact List.mem_of_getElem? hat

/-- **`grow` doubles the table and loses nothing.** -/
theorem grow_spec (h : t.Ok nodes names S) :
    ∃ t', t.grow nodes names = .ok t' ∧ t'.Ok nodes names S ∧ t'.len = t.len
      ∧ t'.slots.length = t.slots.length * 2 := by
  have hmem := h.mem_slots
  have hnd : t.slots.Pairwise (fun a b => a ≠ 0 → a ≠ b) := by
    rw [List.pairwise_iff_getElem]
    intro i j hi hj hij ha heq
    obtain ⟨id, hid⟩ := Nat.exists_eq_succ_of_ne_zero ha
    have h1 : t.slots[i]? = some (id + 1) := by rw [List.getElem?_eq_getElem hi, hid]
    have h2 : t.slots[j]? = some (id + 1) := by rw [List.getElem?_eq_getElem hj, ← heq, hid]
    exact absurd (h.table.unique i j id h1 h2) (Nat.ne_of_lt hij)
  obtain ⟨k, hk⟩ := h.shape.pow
  obtain ⟨slots, h1, h2, h3, h4⟩ := grow_fold nodes names (t.slots.length * 2)
    (t.slots.length * 2 - 1) t.len ⟨k + 1, by rw [hk, Nat.pow_succ]⟩ rfl t.slots []
    (List.replicate (t.slots.length * 2) 0)
    (fun id hid => ⟨h.keyed id ((hmem id).mp hid), h.small id ((hmem id).mp hid)⟩)
    hnd List.length_replicate (Nat.le_refl _) (by rw [Probe.used_replicate]; exact Nat.zero_le _)
    ((Probe.table_replicate _ _).congr_mem (by simp))
  rw [Probe.used_replicate, Nat.zero_add] at h3
  have hused := h.used
  have hload := h.load
  have hpos := h.shape.pos
  refine ⟨_, h1, ⟨⟨⟨k + 1, ?_⟩, ?_, ?_⟩, ?_, ?_, ?_, h.keyed, h.small⟩, rfl, h2⟩
  · rw [h2, hk, Nat.pow_succ]
  · rw [h2]
  · show Probe.used slots < slots.length
    rw [h2]; omega
  · exact h4.congr_mem (fun id => by rw [List.nil_append]; exact (hmem id).symm)
  · exact Nat.le_trans h3 hused
  · rw [h2]
    show t.len * 2 ≤ t.slots.length * 2
    omega

/-- **`insert` records the node**, growing the table first when it would be over half full. -/
theorem insert_spec (h : t.Ok nodes names S) {id parent : Nat} {name : Bytes}
    (hk : HasKey nodes names id parent name) (hid : ¬ S id) (hle : id + 1 ≤ 2 ^ 32) :
    ∃ t', t.insert nodes names id = .ok t' ∧
      t'.Ok nodes names (fun x => S x ∨ (x = id ∧ id + 1 < 2 ^ 32)) := by
  -- the table `place` works on has room for one more
  obtain ⟨t1, hgrow, h1, hroom⟩ : ∃ t1, t.reserve nodes names = .ok t1 ∧
      t1.Ok nodes names S ∧ (t1.len + 1) * 2 ≤ t1.slots.length := by
    rw [reserve]
    by_cases hfull : (t.len + 1) * 2 > t.slots.length
    · obtain ⟨t', g1, g2, g3, g4⟩ := grow_spec h
      refine ⟨t', by rw [if_pos hfull]; exact g1, g2, ?_⟩
      have := h.load
      have := h.shape.pos
      rw [g3, g4]
      omega
    · exact ⟨t, if_neg hfull, h, by omega⟩
  obtain ⟨slots, hplace, h2, h3, h4⟩ := place_spec h1.shape h1.table hk hid hle
  have hused := h1.used
  refine ⟨{ slots := slots, mask := t1.mask, len := t1.len + 1 }, ?_,
    ⟨⟨?_, ?_, ?_⟩, h4, ?_, ?_, ?_, ?_⟩⟩
  · rw [insert, hgrow]
    simp only [bind, Except.bind, hplace]
    rfl
  · show ∃ k, slots.length = 2 ^ k
    rw [h2]; exact h1.shape.pow
  · show t1.mask = slots.length - 1
    rw [h2]; exact h1.shape.mask
  · show Probe.used slots < slots.length
    rw [h2]; omega
  · show Probe.used slots ≤ t1.len + 1
    omega
  · show (t1.len + 1) * 2 ≤ slots.length
    rw [h2]; exact hroom
  · rintro x (hx | ⟨hx, -⟩)
    · exact h1.keyed x hx
    · exact ⟨parent, name, hx ▸ hk⟩
  · rintro x (hx | ⟨hx, hlt⟩)
    · exact h1.small x hx
    · exact hx ▸ hlt

/-- Nodes and names may change as long as what is recorded keeps its key. -/
theorem Ok.mono {nodes' : List TmpNode} {names' : Bytes} (h : t.Ok nodes names S)
    (hkey : ∀ id p nm, HasKey nodes names id p nm → HasKey nodes' names' id p nm) :
    t.Ok nodes' names' S := by
  refine ⟨h.shape, h.table.congr_home (fun id hid => ?_), h.used, h.load, fun id hid => ?_, h.small⟩
  · obtain ⟨p, nm, hk⟩ := h.keyed id hid
    rw [home_eq hk, home_eq (hkey id p nm hk)]
  · obtain ⟨p, nm, hk⟩ := h.keyed id hid
    exact ⟨p, nm, hkey id p nm hk⟩

theorem Ok.congr_mem {S' : Nat → Prop} (h : t.Ok nodes names S) (heq : ∀ id, S' id ↔ S id) :
    t.Ok nodes names S' :=
  ⟨h.shape, h.table.congr_mem heq, h.used, h.load, fun id hid => h.keyed id ((heq id).mp hid),
    fun id hid => h.small id ((heq id).mp hid)⟩

end Loops

/-- A fresh table records nothing. -/
theorem withCapacity_ok (cap : Nat) (nodes : List TmpNode) (names : Bytes) :
    (withCapacity cap).Ok nodes names (fun _ => False) := by
  have hpow : (max cap 16 * 2).nextPowerOfTwo.isPowerOfTwo :=
    Nat.isPowerOfTwo_nextPowerOfTwo _
  obtain ⟨k, hk⟩ := hpow
  have hpos : 0 < (max cap 16 * 2).nextPowerOfTwo := by
    rw [hk]; exact Nat.two_pow_pos k
  unfold withCapacity
  refine ⟨⟨⟨k, ?_⟩, ?_, ?_⟩, Probe.table_replicate _ _, ?_,
    ?_, fun _ h => h.elim, fun _ h => h.elim⟩
  · rw [List.length_replicate]; exact hk
  · rw [List.length_replicate]
  · rw [Probe.used_replicate, List.length_replicate]; exact hpos
  · rw [Probe.used_replicate]
  · exact Nat.zero_le _

end Interner

end ZipFs
