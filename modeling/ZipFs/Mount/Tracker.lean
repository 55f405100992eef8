import ZipFs.Mount.Fs

/-!
# The checksum of a stored entry

A tracker is fed the blocks of a stored entry in whatever order they are read. It
follows the checksum for as long as each block begins where the last one ended, and
gives up for good at the first that does not.

The blocks are those of one content, each with a byte in it and inside the content. A
tracker that has been fed a list of them is determined by how far the list reaches
without a gap or an overlap (`reach`), and that is also what decides whether the next
block completes the entry.
-/

namespace ZipFs

/-- Where blocks end that follow one another without a gap or an overlap from `p` on. -/
def reach : Nat → List (Nat × Nat) → Option Nat
  | p, [] => some p
  | p, b :: bs => if b.1 = p then reach (p + b.2) bs else none

/-- The bytes of a block, given by its offset and its length. -/
def blockOf (content : Bytes) (b : Nat × Nat) : Bytes := (content.drop b.1).take b.2

/-- A block with a byte in it, inside a content of `total` bytes. -/
def BlockIn (total : Nat) (b : Nat × Nat) : Prop := 0 < b.2 ∧ b.1 + b.2 ≤ total

instance (total : Nat) (b : Nat × Nat) : Decidable (BlockIn total b) :=
  inferInstanceAs (Decidable (_ ∧ _))

namespace StoreVerify

/-- A tracker that has observed these blocks of the content, one after the other. -/
def replay (content : Bytes) (m : EntryMeta) (bs : List (Nat × Nat)) : StoreVerify :=
  bs.foldl (fun v b => (v.observe b.1 (blockOf content b) m).1) StoreVerify.new

/-- What observing one more block returns: whether the entry may still match, and the verdict. -/
def next (content : Bytes) (m : EntryMeta) (bs : List (Nat × Nat)) (b : Nat × Nat) :
    Bool × Option VerifyState :=
  ((replay content m bs).observe b.1 (blockOf content b) m).2

end StoreVerify

theorem reach_concat (bs : List (Nat × Nat)) (b : Nat × Nat) (p : Nat) :
    reach p (bs ++ [b]) = (reach p bs).bind fun q => if b.1 = q then some (q + b.2) else none := by
  induction bs generalizing p with
  | nil => simp [reach]
  | cons c bs ih =>
      simp only [List.cons_append, reach]
      split
      · exact ih _
      · rfl

/-- Blocks inside a content do not reach beyond it. -/
theorem reach_le {total : Nat} {bs : List (Nat × Nat)} (hbs : ∀ b ∈ bs, BlockIn total b) {q : Nat}
    (h : reach 0 bs = some q) : q ≤ total := by
  cases bs using List.reverseRecOn with
  | nil =>
      obtain rfl := Option.some.inj h
      exact Nat.zero_le _
  | append_singleton bs b =>
      rw [reach_concat] at h
      obtain ⟨p, -, hp⟩ := Option.bind_eq_some_iff.mp h
      split at hp
      · rename_i hb
        obtain rfl := Option.some.inj hp
        have := (hbs b (by simp)).2
        omega
      · exact absurd hp (by simp)

theorem length_blockOf {content : Bytes} {b : Nat × Nat} (h : BlockIn content.length b) :
    (blockOf content b).length = b.2 := by
  unfold blockOf
  rw [List.length_take, List.length_drop]
  have := h.2
  omega

namespace StoreVerify

variable {content : Bytes} {m : EntryMeta}

variable (content m) in
theorem replay_concat (bs : List (Nat × Nat)) (b : Nat × Nat) :
    replay content m (bs ++ [b]) =
      ((replay content m bs).observe b.1 (blockOf content b) m).1 := by
  unfold replay
  rw [List.foldl_append]
  rfl

/-- The tracker of a content of which `p` bytes have been observed in order. -/
def upTo (content : Bytes) (p : Nat) : StoreVerify := ⟨Crc.new.update (content.take p), p, false⟩

/-- A tracker that has given up, or has nothing left to do, takes nothing in. -/
theorem observe_disabled {v : StoreVerify} (h : v.disabled = true) (offset : Nat) (data : Bytes) :
    v.observe offset data m = (v, true, none) := by
  unfold observe
  rw [if_pos (.inl h)]
  cases v
  dsimp only at h
  rw [h]

theorem observe_misplaced {v : StoreVerify} {offset : Nat} (h : offset ≠ v.pos) (data : Bytes) :
    v.observe offset data m = ({ v with disabled := true }, true, none) := by
  unfold observe
  rw [if_pos (.inr h)]

/-- A block in its place that does not complete the entry. -/
theorem observe_further {b : Nat × Nat} (hb : BlockIn content.length b)
    (hlt : b.1 + b.2 < m.uncompressedSize) :
    (upTo content b.1).observe b.1 (blockOf content b) m =
      (upTo content (b.1 + b.2), true, none) := by
  unfold observe upTo
  rw [if_neg (by simp)]
  dsimp only
  rw [length_blockOf hb, if_pos hlt, List.take_add, Crc.update_append]
  rfl

/-- A block in its place that completes the entry. -/
theorem observe_last {b : Nat × Nat} (hb : BlockIn content.length b)
    (hsize : content.length ≤ m.uncompressedSize) (hlast : b.1 + b.2 = m.uncompressedSize) :
    (upTo content b.1).observe b.1 (blockOf content b) m =
      ({ upTo content (b.1 + b.2) with disabled := true }, crc32 content == m.crc32,
        some (if crc32 content = m.crc32 then .ok else .bad)) := by
  have hall : content.take b.1 ++ blockOf content b = content := by
    unfold blockOf
    rw [← List.take_add]
    exact List.take_of_length_le (by omega)
  have hwhole : content.take m.uncompressedSize = content := List.take_of_length_le hsize
  unfold observe upTo
  rw [if_neg (by simp)]
  dsimp only
  rw [length_blockOf hb, if_neg (by omega), ← Crc.update_append, hall, hlast, hwhole]
  simp only [crc32, beq_iff_eq]
  rfl

/-- **What a tracker has become**: it follows the checksum while the blocks are in order and the
entry is not complete, and has given up otherwise. -/
theorem replay_spec (hsize : content.length ≤ m.uncompressedSize) (hpos : 0 < m.uncompressedSize)
    {bs : List (Nat × Nat)} (hbs : ∀ b ∈ bs, BlockIn content.length b) :
    (∃ p, reach 0 bs = some p ∧ p < m.uncompressedSize ∧ replay content m bs = upTo content p) ∨
      (∀ p, reach 0 bs = some p → p = m.uncompressedSize) ∧
        (replay content m bs).disabled = true := by
  induction bs using List.reverseRecOn with
  | nil => exact .inl ⟨0, rfl, hpos, rfl⟩
  | append_singleton bs b ih =>
      have hb := hbs b (by simp)
      have hin := hb.2
      rw [replay_concat, reach_concat]
      rcases ih fun b hb => hbs b (by simp [hb]) with ⟨p, hp, -, hv⟩ | ⟨hend, hoff⟩
      · rw [hp, hv, Option.bind_some]
        by_cases hplace : b.1 = p
        · subst hplace
          rw [if_pos rfl]
          by_cases hlt : b.1 + b.2 < m.uncompressedSize
          · rw [observe_further hb hlt]
            exact .inl ⟨_, rfl, hlt, rfl⟩
          · have hlast : b.1 + b.2 = m.uncompressedSize := by omega
            rw [observe_last hb hsize hlast]
            refine .inr ⟨?_, rfl⟩
            intro q hq
            rw [← Option.some.inj hq]
            exact hlast
        · rw [if_neg hplace, observe_misplaced hplace]
          exact .inr ⟨by simp, rfl⟩
      · rw [observe_disabled hoff]
        refine .inr ⟨?_, hoff⟩
        intro q hq
        -- an entry that is complete has no room for another block
        obtain ⟨p, hp, hq⟩ := Option.bind_eq_some_iff.mp hq
        obtain rfl := hend p hp
        split at hq
        · rename_i hplace
          have := hb.1
          omega
        · exact absurd hq (by simp)

/-- **What the next block brings**: a verdict exactly when it completes the entry in order, the
verdict of the whole content, and false exactly when that is bad. -/
theorem next_eq (hsize : content.length ≤ m.uncompressedSize) (hpos : 0 < m.uncompressedSize)
    {bs : List (Nat × Nat)} (hbs : ∀ b ∈ bs, BlockIn content.length b) {b : Nat × Nat}
    (hb : BlockIn content.length b) :
    next content m bs b =
      if reach 0 (bs ++ [b]) = some m.uncompressedSize then
        (crc32 content == m.crc32, some (if crc32 content = m.crc32 then .ok else .bad))
      else (true, none) := by
  have hin := hb.2
  unfold next
  rw [reach_concat]
  rcases replay_spec hsize hpos hbs with ⟨p, hp, -, hv⟩ | ⟨hend, hoff⟩
  · rw [hp, hv, Option.bind_some]
    by_cases hplace : b.1 = p
    · subst hplace
      rw [if_pos rfl]
      by_cases hlt : b.1 + b.2 < m.uncompressedSize
      · rw [observe_further hb hlt, if_neg (by simp only [Option.some.injEq]; omega)]
      · have hlast : b.1 + b.2 = m.uncompressedSize := by omega
        rw [observe_last hb hsize hlast, hlast]
        exact (if_pos rfl).symm
    · rw [if_neg hplace, observe_misplaced hplace, if_neg (by simp)]
  · rw [observe_disabled hoff, if_neg ?_]
    intro hq
    obtain ⟨p, hp, hq⟩ := Option.bind_eq_some_iff.mp hq
    obtain rfl := hend p hp
    split at hq
    · rename_i hplace
      have := hb.1
      omega
    · exact absurd hq (by simp)

end StoreVerify

end ZipFs
