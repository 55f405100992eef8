import Mathlib.Data.List.Basic

/-!
# Reading a list page by page

A server holds a list whose elements carry cursors: the element at position `i` has the
cursor `i + 1`, which is the offset to ask for next. A page starts at an offset and takes
elements while they fit. Whatever the pages hold, as long as each holds at least one
element, resuming at the last cursor until a page comes back empty reads the list once.
-/

namespace Lib

section Fill

variable {α : Type} {full : List α → α → Bool}

/-- A page takes elements until one does not fit. -/
def fill (full : List α → α → Bool) : List α → List α → List α
  | page, [] => page
  | page, e :: es => if full page e then page else fill full (page ++ [e]) es

theorem fill_eq_append_take (full : List α → α → Bool) (page es : List α) :
    ∃ m, fill full page es = page ++ es.take m := by
  induction es generalizing page with
  | nil => exact ⟨0, by simp [fill]⟩
  | cons e es ih =>
      rw [fill]
      split
      · exact ⟨0, by simp⟩
      · obtain ⟨m, hm⟩ := ih (page ++ [e])
        exact ⟨m + 1, by rw [hm, List.take_succ_cons, List.append_assoc]; rfl⟩

/-- A page that is not full from the start takes the first element there is. -/
theorem fill_nil_eq_take (hroom : ∀ e, full [] e = false) (es : List α) :
    ∃ m, fill full [] es = es.take m ∧ (es ≠ [] → 0 < m) := by
  cases es with
  | nil => exact ⟨0, rfl, fun h => absurd rfl h⟩
  | cons e es =>
      rw [fill, hroom e]
      obtain ⟨m, hm⟩ := fill_eq_append_take full [e] es
      exact ⟨m + 1, by rw [List.take_succ_cons]; simpa using hm, fun _ => Nat.succ_pos m⟩

end Fill

section Browse

variable {α κ : Type} {page : κ → Nat → List α} {cursor : α → Nat} {xs : List α}

/-- Pages, each resumed at the last cursor of the one before it, up to the first empty one.
The second part tells whether there was one. -/
def browse (page : κ → Nat → List α) (cursor : α → Nat) : List κ → Nat → List α × Bool
  | [], _ => ([], false)
  | call :: calls, offset =>
    match (page call offset).getLast? with
    | none => ([], true)
    | some e =>
      let rest := browse page cursor calls (cursor e)
      (page call offset ++ rest.1, rest.2)

/-- The cursor of the last element of a page is the offset after it. -/
theorem cursor_last (hcur : ∀ (i : Nat) (e : α), xs[i]? = some e → cursor e = i + 1) {k m : Nat}
    {e : α} (he : ((xs.drop k).take m).getLast? = some e) :
    cursor e = k + ((xs.drop k).take m).length := by
  rw [List.getLast?_eq_getElem?] at he
  have hpos := (List.getElem?_eq_some_iff.mp he).1
  have hlt : ((xs.drop k).take m).length - 1 < m := by
    have := List.length_take_le m (xs.drop k)
    omega
  rw [List.getElem?_take_of_lt hlt, List.getElem?_drop] at he
  rw [hcur _ e he]
  omega

/-- **Paging is lossless.** -/
theorem browse_spec (xs : List α) (page : κ → Nat → List α) (calls : List κ)
    (hcur : ∀ (i : Nat) (e : α), xs[i]? = some e → cursor e = i + 1)
    (hpage : ∀ call ∈ calls, ∀ k, ∃ m, page call k = (xs.drop k).take m ∧ (xs.drop k ≠ [] → 0 < m))
    (k : Nat) :
    (browse page cursor calls k).1 <+: xs.drop k ∧
      ((browse page cursor calls k).2 = true → (browse page cursor calls k).1 = xs.drop k) ∧
      ((xs.drop k).length < calls.length → (browse page cursor calls k).2 = true) := by
  induction calls generalizing k with
  | nil => exact ⟨List.nil_prefix, fun h => absurd h (by simp [browse]), fun h => by simp at h⟩
  | cons call calls ih =>
      obtain ⟨m, hm, hpos⟩ := hpage call List.mem_cons_self k
      rw [browse, hm]
      cases hlast : ((xs.drop k).take m).getLast? with
      | none =>
          -- an empty page can only mean that nothing is left
          have hnil : xs.drop k = [] := by
            by_contra hne
            rw [List.getLast?_eq_none_iff, List.take_eq_nil_iff] at hlast
            have := hpos hne
            rcases hlast with h | h
            · omega
            · exact hne h
          rw [hnil]
          exact ⟨List.nil_prefix, fun _ => rfl, fun _ => rfl⟩
      | some e =>
          have hnext := cursor_last hcur hlast
          obtain ⟨h1, h2, h3⟩ := ih (fun c hc => hpage c (List.mem_cons_of_mem _ hc)) (cursor e)
          have hsplit : (xs.drop k).take m ++ xs.drop (cursor e) = xs.drop k := by
            rw [hnext, ← List.drop_drop, List.length_take]
            rcases Nat.le_total m (xs.drop k).length with hle | hge
            · rw [Nat.min_eq_left hle, List.take_append_drop]
            · rw [Nat.min_eq_right hge, List.take_of_length_le hge, List.drop_length,
                List.append_nil]
          refine ⟨?_, fun hdone => ?_, fun hlen => h3 ?_⟩
          · show (xs.drop k).take m ++ (browse page cursor calls (cursor e)).1 <+: xs.drop k
            obtain ⟨tail, htail⟩ := h1
            exact ⟨tail, by rw [List.append_assoc, htail, hsplit]⟩
          · show (xs.drop k).take m ++ (browse page cursor calls (cursor e)).1 = xs.drop k
            rw [h2 hdone, hsplit]
          · have hne : (xs.drop k).take m ≠ [] := fun h => by rw [h] at hlast; simp at hlast
            have := List.length_pos_iff.mpr hne
            have hsum := congrArg List.length hsplit
            rw [List.length_append] at hsum
            rw [List.length_cons] at hlen
            omega

end Browse

end Lib
