import Mathlib.Tactic.Common
import Mathlib.Order.Nat
import Mathlib.Data.Nat.Find

/-!
# Open addressing with linear probing

A table is a list of slots. A slot holds zero when it is empty and `id + 1` when
it records `id`. An identifier is recorded somewhere on the probe sequence that
starts at its home bucket, with no empty slot before it; that is all a search
needs, and all an insertion has to keep.

The search and the insertion of a client are loops that go from bucket to bucket
until they meet a slot they can stop at. `loop_eq` runs such a loop to its end, so
a client only has to say where the first such slot is, and that is what
`Table.first_stop` and `first_empty` are for.
-/

namespace Lib.Probe

/-! ## The probe sequence -/

/-- Every bucket is on the probe sequence of every home. -/
theorem exists_dist (h : Nat) {j size : Nat} (hj : j < size) :
    ∃ d, d < size ∧ (h + d) % size = j := by
  have hpos : 0 < size := by omega
  have hlt := Nat.mod_lt h hpos
  have hdiv := Nat.div_add_mod h size
  rcases Nat.lt_or_ge j (h % size) with hjh | hjh
  · refine ⟨size + j - h % size, by omega, ?_⟩
    have : h + (size + j - h % size) = j + size * (h / size + 1) := by
      rw [Nat.mul_add]; omega
    rw [this, Nat.add_mul_mod_self_left]
    exact Nat.mod_eq_of_lt hj
  · refine ⟨j - h % size, by omega, ?_⟩
    have : h + (j - h % size) = j + size * (h / size) := by omega
    rw [this, Nat.add_mul_mod_self_left]
    exact Nat.mod_eq_of_lt hj

/-- The first bucket of a probe sequence that satisfies a predicate. -/
theorem exists_first {p : Nat → Prop} {size d : Nat} (hd : d < size) (h : Nat)
    (hp : p ((h + d) % size)) :
    ∃ d, d < size ∧ p ((h + d) % size) ∧ ∀ e : Nat, e < d → ¬ p ((h + e) % size) := by
  classical
  have hex : ∃ d, p ((h + d) % size) := ⟨d, hp⟩
  refine ⟨Nat.find hex, ?_, Nat.find_spec hex, fun e he => Nat.find_min hex he⟩
  exact Nat.lt_of_le_of_lt (Nat.find_min' hex hp) hd

/--
Runs a probe loop to its end. The loop stops at a bucket that satisfies `p`
and otherwise goes on to the next one; it needs more fuel than there are buckets
before the first stop.
-/
theorem loop_eq {ρ : Type} {l : Nat → Nat → ρ} {p : Nat → Prop} {r : Nat → ρ} {n : Nat}
    (hstop : ∀ f i, i < n → p i → l (f + 1) i = r i)
    (hgo : ∀ f i, i < n → ¬ p i → l (f + 1) i = l f ((i + 1) % n)) :
    ∀ (d f h : Nat), h < n → d < f → p ((h + d) % n) →
      (∀ e : Nat, e < d → ¬ p ((h + e) % n)) → l f h = r ((h + d) % n) := by
  intro d
  induction d with
  | zero =>
      intro f h hh hf hs _
      obtain ⟨f, rfl⟩ : ∃ f', f = f' + 1 := ⟨f - 1, by omega⟩
      have h0 : (h + 0) % n = h := Nat.mod_eq_of_lt hh
      rw [h0] at hs ⊢
      exact hstop f h hh hs
  | succ d ih =>
      intro f h hh hf hs hbefore
      obtain ⟨f, rfl⟩ : ∃ f', f = f' + 1 := ⟨f - 1, by omega⟩
      have hshift : ∀ e, ((h + 1) % n + e) % n = (h + (e + 1)) % n := by
        intro e
        rw [Nat.mod_add_mod]
        congr 1
        omega
      have h0 := hbefore 0 (Nat.succ_pos _)
      rw [Nat.add_zero, Nat.mod_eq_of_lt hh] at h0
      rw [hgo f h hh h0, ih f ((h + 1) % n) (Nat.mod_lt _ (by omega)) (by omega)]
      · rw [hshift]
      · rw [hshift]; exact hs
      · intro e he
        rw [hshift]
        exact hbefore (e + 1) (by omega)

/-! ## Tables -/

/-- The table records exactly the identifiers in `S`, each findable from its home. -/
structure Table (slots : List Nat) (home : Nat → Nat) (S : Nat → Prop) : Prop where
  /-- Only members of `S` are recorded. -/
  sound : ∀ (j id : Nat), slots[j]? = some (id + 1) → S id
  /-- A member is recorded on its probe sequence, with no empty slot before it. -/
  reach : ∀ (id : Nat), S id → ∃ d, d < slots.length ∧
    slots[(home id + d) % slots.length]? = some (id + 1) ∧
    ∀ e : Nat, e < d → slots[(home id + e) % slots.length]? ≠ some 0
  /-- No identifier is recorded twice. -/
  unique : ∀ (i j id : Nat), slots[i]? = some (id + 1) → slots[j]? = some (id + 1) → i = j

/-- How many slots are not empty. -/
def used (slots : List Nat) : Nat := slots.countP (fun v => v != 0)

variable {slots : List Nat} {home home' : Nat → Nat} {S : Nat → Prop}

/-- The homes matter only for what is recorded. -/
theorem Table.congr_home (h : Table slots home S) (heq : ∀ id, S id → home' id = home id) :
    Table slots home' S := by
  refine ⟨h.sound, fun id hid => ?_, h.unique⟩
  rw [heq id hid]
  exact h.reach id hid

theorem Table.congr_mem {S' : Nat → Prop} (h : Table slots home S) (heq : ∀ id, S' id ↔ S id) :
    Table slots home S' :=
  ⟨fun j id hj => (heq id).mpr (h.sound j id hj), fun id hid => h.reach id ((heq id).mp hid),
    h.unique⟩

theorem table_replicate (n : Nat) (home : Nat → Nat) :
    Table (List.replicate n 0) home (fun _ => False) := by
  refine ⟨fun j id hj => ?_, fun id hid => hid.elim, fun i j id hi _ => ?_⟩
  · rw [List.getElem?_replicate] at hj
    split at hj <;> simp at hj
  · rw [List.getElem?_replicate] at hi
    split at hi <;> simp at hi

theorem used_replicate (n : Nat) : used (List.replicate n 0) = 0 := by
  simp [used, List.countP_replicate]

/-- A table that is not full has an empty slot. -/
theorem exists_empty (h : used slots < slots.length) : ∃ j : Nat, slots[j]? = some 0 := by
  by_contra hno
  have hall : ∀ v ∈ slots, (v != 0) = true := by
    intro v hv
    obtain ⟨j, hj⟩ := List.getElem?_of_mem hv
    rw [bne_iff_ne]
    intro h0
    exact hno ⟨j, h0 ▸ hj⟩
  rw [used, List.countP_eq_length.mpr hall] at h
  exact Nat.lt_irrefl _ h

/-- The first empty slot on a probe sequence, where an insertion goes. -/
theorem first_empty (h : used slots < slots.length) (b : Nat) :
    ∃ d, d < slots.length ∧ slots[(b + d) % slots.length]? = some 0 ∧
      ∀ e : Nat, e < d → slots[(b + e) % slots.length]? ≠ some 0 := by
  obtain ⟨j, hj⟩ := exists_empty h
  obtain ⟨d, hd, hdj⟩ := exists_dist b (List.getElem?_eq_some_iff.mp hj).1
  exact exists_first (p := fun i => slots[i]? = some 0) hd b (by rw [hdj]; exact hj)

/--
Where a search from bucket `b` stops, for a predicate `M` whose recorded members
all have `b` for their home: at a recorded member of `M`, or at an empty slot, and
then no member of `M` is recorded at all.
-/
theorem Table.first_stop (ht : Table slots home S) (hu : used slots < slots.length)
    {M : Nat → Prop} {b : Nat} (hM : ∀ id, S id → M id → home id = b) :
    ∃ d, d < slots.length ∧
      (∀ e : Nat, e < d → ∃ id, slots[(b + e) % slots.length]? = some (id + 1) ∧ ¬ M id) ∧
      ((∃ id, slots[(b + d) % slots.length]? = some (id + 1) ∧ S id ∧ M id) ∨
        (slots[(b + d) % slots.length]? = some 0 ∧ ∀ id, S id → ¬ M id)) := by
  obtain ⟨d0, hd0, h0, -⟩ := first_empty hu b
  let stop : Nat → Prop := fun i =>
    slots[i]? = some 0 ∨ ∃ id, slots[i]? = some (id + 1) ∧ M id
  obtain ⟨d, hd, hs, hbefore⟩ := exists_first (p := stop) hd0 b (Or.inl h0)
  have hpos : 0 < slots.length := by omega
  refine ⟨d, hd, fun e he => ?_, ?_⟩
  · obtain ⟨v, hv⟩ : ∃ v, slots[(b + e) % slots.length]? = some v :=
      ⟨_, List.getElem?_eq_getElem (Nat.mod_lt _ hpos)⟩
    have hno := hbefore e he
    cases v with
    | zero => exact absurd (Or.inl hv) hno
    | succ id => exact ⟨id, hv, fun hm => hno (Or.inr ⟨id, hv, hm⟩)⟩
  · rcases hs with hs | ⟨id, hid, hm⟩
    · refine Or.inr ⟨hs, fun id hid hm => ?_⟩
      obtain ⟨d', hd', hat, hpre⟩ := ht.reach id hid
      rw [hM id hid hm] at hat hpre
      rcases Nat.lt_trichotomy d d' with hlt | heq | hgt
      · exact hpre d hlt hs
      · rw [heq, hat] at hs
        exact absurd hs (by simp)
      · exact hbefore d' hgt (Or.inr ⟨id, hat, hm⟩)
    · exact Or.inl ⟨id, hid, ht.sound _ _ hid, hm⟩

/-- Recording an identifier in the first empty slot of its probe sequence keeps the table. -/
theorem Table.place (ht : Table slots home S) {id d : Nat} (hid : ¬ S id) (hd : d < slots.length)
    (hz : slots[(home id + d) % slots.length]? = some 0)
    (hpre : ∀ e : Nat, e < d → slots[(home id + e) % slots.length]? ≠ some 0) :
    Table (slots.set ((home id + d) % slots.length) (id + 1)) home (fun x => S x ∨ x = id) := by
  have hpos : (home id + d) % slots.length < slots.length := (List.getElem?_eq_some_iff.mp hz).1
  have hself : (slots.set ((home id + d) % slots.length) (id + 1))[(home id + d) % slots.length]?
      = some (id + 1) := List.getElem?_set_self hpos
  have hother : ∀ j, j ≠ (home id + d) % slots.length →
      (slots.set ((home id + d) % slots.length) (id + 1))[j]? = slots[j]? :=
    fun j hj => List.getElem?_set_ne (Ne.symm hj)
  -- a slot that was occupied keeps its occupant
  have hkeep : ∀ j v : Nat, slots[j]? = some (v + 1) →
      (slots.set ((home id + d) % slots.length) (id + 1))[j]? = some (v + 1) := by
    intro j v hj
    by_cases hjp : j = (home id + d) % slots.length
    · rw [hjp, hz] at hj; exact absurd hj (by simp)
    · rw [hother j hjp]; exact hj
  have hnz : ∀ j : Nat, slots[j]? ≠ some 0 →
      (slots.set ((home id + d) % slots.length) (id + 1))[j]? ≠ some 0 := by
    intro j hj
    by_cases hjp : j = (home id + d) % slots.length
    · rw [hjp, hself]; simp
    · rw [hother j hjp]; exact hj
  refine ⟨fun j x hj => ?_, fun x hx => ?_, fun i j x hi hj => ?_⟩
  · by_cases hjp : j = (home id + d) % slots.length
    · rw [hjp, hself] at hj
      simp only [Option.some.injEq, Nat.add_right_cancel_iff] at hj
      exact Or.inr hj.symm
    · rw [hother j hjp] at hj
      exact Or.inl (ht.sound j x hj)
  · rw [List.length_set]
    rcases hx with hx | hx
    · obtain ⟨d', hd', hat, hbef⟩ := ht.reach x hx
      exact ⟨d', hd', hkeep _ _ hat, fun e he => hnz _ (hbef e he)⟩
    · subst hx
      exact ⟨d, hd, hself, fun e he => hnz _ (hpre e he)⟩
  · by_cases hip : i = (home id + d) % slots.length
    · by_cases hjp : j = (home id + d) % slots.length
      · rw [hip, hjp]
      · rw [hip, hself] at hi
        rw [hother j hjp] at hj
        simp only [Option.some.injEq, Nat.add_right_cancel_iff] at hi
        exact absurd (hi ▸ ht.sound j x hj) hid
    · by_cases hjp : j = (home id + d) % slots.length
      · rw [hjp, hself] at hj
        rw [hother i hip] at hi
        simp only [Option.some.injEq, Nat.add_right_cancel_iff] at hj
        exact absurd (hj ▸ ht.sound i x hi) hid
      · rw [hother i hip] at hi
        rw [hother j hjp] at hj
        exact ht.unique i j x hi hj

/-- Writing into an empty slot uses at most one slot more. -/
theorem used_set_le {j : Nat} (v : Nat) (h : slots[j]? = some 0) :
    used (slots.set j v) ≤ used slots + 1 := by
  obtain ⟨hj, h0⟩ := List.getElem?_eq_some_iff.mp h
  rw [used, List.countP_set hj]
  have hz : (slots[j] != 0) = false := by rw [h0]; rfl
  rw [hz, used]
  by_cases hv : (v != 0) = true
  · simp [hv]
  · simp [Bool.eq_false_iff.mpr hv]

/-- Writing zero into an empty slot changes nothing. -/
theorem set_zero {j : Nat} (h : slots[j]? = some 0) : slots.set j 0 = slots := by
  apply List.ext_getElem?
  intro i
  by_cases hij : i = j
  · subst hij
    rw [List.getElem?_set_self (List.getElem?_eq_some_iff.mp h).1, h]
  · rw [List.getElem?_set_ne (Ne.symm hij)]

end Lib.Probe
