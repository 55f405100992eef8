import ZipFs.Index.BuildProof

/-!
# The interner over whole runs

Any sequence of `intern` calls on a new builder, with any parents and any names: the parents
need not exist, and the names need not be ones that an archive could give. The table, whose
keys are in the node array and in the name blob, stays a finite map, whatever the hashes are
and however often it grows.
-/

namespace ZipFs

open Lib

/-- A new builder after a sequence of `intern` calls. -/
def internAll (cap : Nat) (calls : List (Nat × Bytes)) : Build Builder :=
  calls.foldlM (fun b call => do
    let (b, _, _) ← b.intern call.1 call.2
    return b) (Builder.new cap)

/-- What `intern` keeps, under any parents and any names. -/
structure Builder.Keyed (b : Builder) : Prop where
  root : b.nodes[0]? = some rootNode
  named : ∀ (id : Nat) (n : TmpNode), b.nodes[id]? = some n →
    ∃ nm, slice b.names n.nameOff n.nameLen = some nm
  unique : KeysUnique b.nodes b.names
  interner : b.interner.Ok b.nodes b.names (Recorded b.nodes)

theorem new_keyed (cap : Nat) : (Builder.new cap).Keyed := by
  have hroot : ∀ (id : Nat) (n : TmpNode), (Builder.new cap).nodes[id]? = some n → id = 0 := by
    intro id n hn
    have hlt := (List.getElem?_eq_some_iff.mp hn).1
    simpa [Builder.new] using hlt
  refine ⟨rfl, ?_, ?_, ?_⟩
  · intro id n hn
    obtain rfl := hroot id n hn
    obtain rfl := Option.some.inj hn
    exact ⟨[], rfl⟩
  · intro id id' p nm hid _ hk _
    obtain ⟨n, hn, -⟩ := hk
    exact absurd (hroot id n hn) (Nat.ne_of_gt hid)
  · refine (Interner.withCapacity_ok cap _ _).congr_mem fun id => ?_
    simp only [Recorded, Builder.new, List.length_singleton, iff_false]
    omega

/-- A node is added under a key that was free. -/
theorem Grown.keyed {b b' : Builder} {parent : Nat} {name : Bytes} (h : b.Keyed)
    (hg : Grown b parent name b') : b'.Keyed := by
  have h0 : 0 < b.nodes.length := (List.getElem?_eq_some_iff.mp h.root).1
  refine ⟨(hg.old h0).trans h.root, ?_, ?_, hg.interner⟩
  · intro id n hn
    rw [hg.names]
    rcases hg.cases hn with ⟨-, rfl⟩ | ⟨-, hn⟩
    · exact ⟨name, slice_fresh b.names name⟩
    · obtain ⟨nm, hnm⟩ := h.named id n hn
      exact ⟨nm, slice_append hnm⟩
  · exact hg.unique h.named h.unique

/-- **Every sequence of calls keeps the table in order**, or ends with a limit. -/
theorem internAll_keyed (cap : Nat) (calls : List (Nat × Bytes)) :
    Sat Builder.Keyed (internAll cap calls) := by
  refine sat_foldlM (I := fun _ (b : Builder) => b.Keyed) (new_keyed cap) ?_
  intro done call rest b _ h
  have h0 : 0 < b.nodes.length := (List.getElem?_eq_some_iff.mp h.root).1
  refine (intern_satIf h.interner h0 call.1 call.2 (.inl trivial)).bind fun r hr => ?_
  obtain ⟨b', id, fresh⟩ := r
  rcases hr with ⟨-, hsame, -⟩ | ⟨-, -, hg⟩
  · obtain rfl : b' = b := hsame
    exact h
  · exact hg.keyed h

/-- What the interner of a builder is. -/
structure Builder.InternerIsMap (b : Builder) : Prop where
  /-- A search ends, and finds the node that has the key. -/
  find : ∀ parent name, ∃ r, b.interner.find b.nodes b.names parent name = .ok r ∧
    ∀ id, r = some id ↔ 0 < id ∧ HasKey b.nodes b.names id parent name
  unique : ∀ id id' parent name, 0 < id → 0 < id' → HasKey b.nodes b.names id parent name →
    HasKey b.nodes b.names id' parent name → id = id'
  pow : ∃ k, b.interner.slots.length = 2 ^ k
  /-- At most half of the slots are used. -/
  load : (b.interner.slots.countP (· != 0)) * 2 ≤ b.interner.slots.length
  /-- Every node but the root is reached from its bucket without crossing an empty slot. -/
  reach : ∀ id parent name, 0 < id → HasKey b.nodes b.names id parent name →
    ∃ d, b.interner.slots[(bucket (hashKey parent name) b.interner.mask + d) %
        b.interner.slots.length]? = some (id + 1) ∧
      ∀ e, e < d → b.interner.slots[(bucket (hashKey parent name) b.interner.mask + e) %
        b.interner.slots.length]? ≠ some 0
  /-- Only such nodes are recorded, each in one slot. -/
  sound : ∀ (i : Nat) id, b.interner.slots[i]? = some (id + 1) → 0 < id ∧ id < b.nodes.length
  once : ∀ (i j : Nat) id, b.interner.slots[i]? = some (id + 1) →
    b.interner.slots[j]? = some (id + 1) → i = j
  /-- A larger table records the same nodes, each in one slot. -/
  grow : ∃ t, b.interner.grow b.nodes b.names = .ok t ∧
    t.slots.length = b.interner.slots.length * 2 ∧
    (∀ id, id + 1 ∈ t.slots ↔ id + 1 ∈ b.interner.slots) ∧
    ∀ (i j : Nat) id, t.slots[i]? = some (id + 1) → t.slots[j]? = some (id + 1) → i = j

theorem Builder.Keyed.internerIsMap {b : Builder} (h : b.Keyed)
    (hfew : b.nodes.length < 2 ^ 32 - 1) : b.InternerIsMap := by
  have hok := h.interner
  have hrec : ∀ id parent name, 0 < id → HasKey b.nodes b.names id parent name →
      Recorded b.nodes id := by
    rintro id parent name hid ⟨n, hn, -⟩
    have hlt := (List.getElem?_eq_some_iff.mp hn).1
    exact ⟨hid, hlt, by omega⟩
  refine ⟨?_, h.unique, hok.shape.pow, ?_, ?_, ?_, hok.table.unique, ?_⟩
  · intro parent name
    obtain ⟨r, hfind, hsome, hnone⟩ := Interner.find_spec hok parent name
    refine ⟨r, hfind, fun id => ⟨fun hr => ?_, fun hid => ?_⟩⟩
    · obtain ⟨hin, hk⟩ := hsome id hr
      exact ⟨hin.1, hk⟩
    · obtain ⟨hpos, hk⟩ := hid
      cases r with
      | none => exact absurd hk (hnone rfl id (hrec id parent name hpos hk))
      | some id' =>
          obtain ⟨hin', hk'⟩ := hsome id' rfl
          rw [h.unique id' id parent name hin'.1 hpos hk' hk]
  · have hused := hok.used
    have hload := hok.load
    unfold Probe.used at hused
    omega
  · intro id parent name hid hk
    obtain ⟨d, -, hat, hbefore⟩ := hok.table.reach id (hrec id parent name hid hk)
    rw [home_eq hk] at hat hbefore
    exact ⟨d, hat, hbefore⟩
  · intro i id hi
    have hin := hok.table.sound i id hi
    exact ⟨hin.1, hin.2.1⟩
  · obtain ⟨t, ht, hok', -, hlen⟩ := Interner.grow_spec hok
    refine ⟨t, ht, hlen, fun id => ?_, hok'.table.unique⟩
    rw [hok'.mem_slots, hok.mem_slots]

/--
**The interner is a finite map and its probes end.** For every capacity and every sequence
of `intern` calls, the calls end, with a builder or with a limit that is reached; and while
the builder has fewer than `2 ^ 32 - 1` nodes its interner is the map from parent and name
to the node that has them.
-/
theorem interner_is_map (cap : Nat) (calls : List (Nat × Bytes)) :
    (∃ b, internAll cap calls = .ok b ∧ (b.nodes.length < 2 ^ 32 - 1 → b.InternerIsMap)) ∨
      ∃ what, internAll cap calls = .error (.indexTooLarge what) := by
  have hsat := internAll_keyed cap calls
  cases hrun : internAll cap calls with
  | ok b =>
      rw [hrun] at hsat
      exact .inl ⟨b, rfl, fun hfew => hsat.internerIsMap hfew⟩
  | error e =>
      rw [hrun] at hsat
      cases e with
      | indexTooLarge what => exact .inr ⟨what, rfl⟩
      | panic => exact False.elim hsat
      | diverge => exact False.elim hsat

end ZipFs
