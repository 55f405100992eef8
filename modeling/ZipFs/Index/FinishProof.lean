import ZipFs.Index.GroupProof
import ZipFs.Lib.Queue
import Mathlib.Data.List.Perm.Subperm

/-!
# The breadth-first labels

The second half of `finish`. A node's final number is its place in the queue, plus
one for the sentinel; its children start where the children of everything queued
before it end. `Finished` records that, together with what the final nodes copy from
the first pass, and everything about the finished index is derived from it.
-/

namespace ZipFs

open Lib (firstPos Queue)

/-- Every queued node has its place in the queue as label. -/
def Labelled (order finalOf : List Nat) : Prop :=
  ∀ (j a : Nat), order[j]? = some a → finalOf[a]? = some (j + 1)

/-- Every node up to turn `i` knows where its children start, which is after itself and a
number that fits. -/
def Ranged (K : Nat → List Nat) (order : List Nat) (i : Nat) (firstChild : List Nat) : Prop :=
  ∀ (j a : Nat), j < i → order[j]? = some a → firstChild[a]? = some (firstPos K order j + 1) ∧
    j < firstPos K order j ∧ firstPos K order j + 1 < 2 ^ 32

theorem enqueue_spec {L : Prop} {kids order finalOf : List Nat}
    (hfit : L ∨ order.length + kids.length < 2 ^ 32) (hnd : kids.Nodup)
    (hnew : ∀ a ∈ kids, a ∉ order) (hlt : ∀ a ∈ kids, a < finalOf.length)
    (hl : Labelled order finalOf) :
    SatIf L (fun r => r.1 = order ++ kids ∧ r.2.length = finalOf.length ∧ Labelled r.1 r.2)
      (enqueue kids order finalOf) := by
  refine sat_foldlM (I := fun done (r : List Nat × List Nat) => r.1 = order ++ done ∧
    r.2.length = finalOf.length ∧ Labelled r.1 r.2) ⟨by simp, rfl, hl⟩ ?_
  rintro done k rest ⟨order', finalOf'⟩ hsplit ⟨h1, h2, h3⟩
  simp only at h1 h2 h3
  have hk : k ∈ kids := by rw [hsplit]; simp
  -- the label of `k` overwrites no other
  have hfresh : k ∉ order' := by
    rw [h1, List.mem_append, not_or]
    refine ⟨hnew k hk, fun hd => ?_⟩
    rw [hsplit] at hnd
    exact (List.nodup_append.mp hnd).2.2 k hd k List.mem_cons_self rfl
  have hlen : order'.length < order.length + kids.length := by
    rw [h1, hsplit]
    simp only [List.length_append, List.length_cons]
    omega
  refine (satIf_toU32 _ (hfit.imp_right fun _ => by omega)).bind (fun label hlab => ?_)
  obtain ⟨rfl, -⟩ := hlab
  refine (SatIf.of_eq_ok (put!_ok _ (by rw [h2]; exact hlt k hk)) rfl :
    SatIf L (fun a => a = _) _).bind
    (fun out ho => ?_)
  subst ho
  refine ⟨by rw [h1, List.append_assoc], by rw [List.length_set]; exact h2, ?_⟩
  intro j a hj
  rcases Nat.lt_trichotomy j order'.length with hlt' | heq | hgt
  · rw [List.getElem?_append_left hlt'] at hj
    have hne : k ≠ a := fun he => hfresh (he ▸ List.mem_of_getElem? hj)
    rw [List.getElem?_set_ne hne]
    exact h3 j a hj
  · subst heq
    rw [List.getElem?_concat_length] at hj
    injection hj with hj
    rw [← hj, List.getElem?_set_self (by rw [h2]; exact hlt k hk)]
  · rw [List.getElem?_eq_none (by rw [List.length_append, List.length_singleton]; omega)] at hj
    exact absurd hj (by simp)

section Bfs

variable {tmp : List TmpNode} {names : Bytes} {L : Prop}

/-- The children of the nodes make a forest. -/
theorem forest (tmp : List TmpNode) (names : Bytes) : Lib.Forest (sortedKids tmp names) 0 := by
  refine ⟨sortedKids_nodup, fun t u a ht hu => ?_, fun t ht => ?_⟩
  · rw [← (mem_sortedKids.mp ht).2, (mem_sortedKids.mp hu).2]
  · exact absurd (mem_sortedKids.mp ht).1.1 (Nat.lt_irrefl 0)

/-- A queue without repetition is no longer than there are nodes. -/
theorem length_order_le {order : List Nat} (hnd : order.Nodup) (hlt : ∀ a ∈ order, a < tmp.length) :
    order.length ≤ tmp.length := by
  have hsub : order ⊆ List.range tmp.length := fun a ha => List.mem_range.mpr (hlt a ha)
  have := (List.subperm_of_subset hnd hsub).length_le
  rwa [List.length_range] at this

/-- What the queue loop returns. -/
structure Bfs (tmp : List TmpNode) (names : Bytes) (r : List Nat × List Nat × List Nat) : Prop where
  order : r.1 = 0 :: r.1.flatMap (sortedKids tmp names)
  nodup : r.1.Nodup
  lt : ∀ a ∈ r.1, a < tmp.length
  ranged : Ranged (sortedKids tmp names) r.1 r.1.length r.2.1
  labelled : Labelled r.1 r.2.2

theorem bfsLoop_spec (hfit : L ∨ tmp.length + 1 < 2 ^ 32) {starts : List Nat}
    (hs : ∀ p, p ≤ tmp.length → starts[p]? = some (startOf tmp p)) :
    ∀ (fuel i : Nat) (order firstChild finalOf : List Nat), tmp.length < fuel + i →
      Queue (sortedKids tmp names) 0 order i → (∀ a ∈ order, a < tmp.length) →
      firstChild.length = tmp.length → finalOf.length = tmp.length →
      Ranged (sortedKids tmp names) order i firstChild → Labelled order finalOf →
      SatIf L (Bfs tmp names) (bfsLoop starts
        ((List.range tmp.length).flatMap (sortedKids tmp names)) fuel i order firstChild
          finalOf) := by
  intro fuel
  induction fuel with
  | zero =>
      intro i order firstChild finalOf hfuel hq hlt
      have := length_order_le hq.nodup hlt
      have := hq.taken
      omega
  | succ fuel ih =>
      intro i order firstChild finalOf hfuel hq hlt hfc hfo hr hl
      rw [bfsLoop]
      by_cases hi : i < order.length
      · rw [if_pos hi]
        have ht : order[i]? = some order[i] := List.getElem?_eq_getElem hi
        generalize order[i] = t at ht
        have htn : t < tmp.length := hlt t (List.mem_of_getElem? ht)
        refine (SatIf.of_eq_ok (at!_ok ht) rfl : SatIf L (fun a => a = _) _).bind (fun t' ht' => ?_)
        subst ht'
        refine (SatIf.of_eq_ok (at!_ok (hs t' (Nat.le_of_lt htn))) rfl :
          SatIf L (fun a => a = _) _).bind
          (fun lo hlo => ?_)
        refine (SatIf.of_eq_ok (at!_ok (hs (t' + 1) htn)) rfl : SatIf L (fun a => a = _) _).bind
          (fun hi' hhi' => ?_)
        subst hlo hhi'
        have hle := length_order_le hq.nodup hlt
        refine (satIf_toU32 _ (hfit.imp_right fun _ => by omega)).bind (fun label hlab => ?_)
        obtain ⟨rfl, hlabel⟩ := hlab
        refine (SatIf.of_eq_ok (put!_ok _ (by omega)) rfl : SatIf L (fun a => a = _) _).bind
          (fun firstChild' hf => ?_)
        subst hf
        refine (SatIf.of_eq_ok (range!_kids htn) rfl : SatIf L (fun a => a = _) _).bind
          (fun kids hk => ?_)
        subst hk
        have hkids : ∀ a ∈ sortedKids tmp names t', a < tmp.length :=
          fun a ha => (mem_sortedKids.mp ha).1.2
        have hstep := hq.step (forest tmp names) ht
        have hlt' : ∀ a ∈ order ++ sortedKids tmp names t', a < tmp.length := by
          intro a ha
          rcases List.mem_append.mp ha with ha | ha
          · exact hlt a ha
          · exact hkids a ha
        have hle' := length_order_le hstep.nodup hlt'
        rw [List.length_append] at hle'
        refine (enqueue_spec (hfit.imp_right fun _ => by omega) (sortedKids_nodup t')
          (fun a ha => hq.not_mem (forest tmp names) ht ha)
          (fun a ha => by rw [hfo]; exact hkids a ha) hl).bind (fun r hr' => ?_)
        obtain ⟨order', finalOf'⟩ := r
        obtain ⟨h1, h2, h3⟩ := hr'
        simp only at h1 h2 h3
        subst h1
        refine ih (i + 1) _ _ _ (by omega) hstep hlt'
          (by rw [List.length_set]; exact hfc) (by rw [h2]; exact hfo) ?_ h3
        · -- the node of this turn gets its range, the earlier ones keep theirs
          intro j a hj ha
          have hjlt : j < order.length := by omega
          rw [List.getElem?_append_left hjlt] at ha
          rw [Lib.firstPos_append _ (Nat.le_of_lt hjlt)]
          by_cases hji : j = i
          · subst hji
            rw [ht] at ha
            injection ha with ha
            rw [← ha, List.getElem?_set_self (by omega), hq.firstPos_eq]
            exact ⟨rfl, hi, hlabel⟩
          · have hne : t' ≠ a := by
              intro he
              subst he
              obtain ⟨_, hit⟩ := List.getElem?_eq_some_iff.mp ht
              obtain ⟨_, hja⟩ := List.getElem?_eq_some_iff.mp ha
              exact hji ((List.Nodup.getElem_inj_iff hq.nodup).mp (hja.trans hit.symm))
            rw [List.getElem?_set_ne hne]
            exact hr j a (by omega) ha
      · rw [if_neg hi]
        have hie : i = order.length := Nat.le_antisymm hq.taken (Nat.not_lt.mp hi)
        subst hie
        exact ⟨hq.done, hq.nodup, hlt, hr, hl⟩

theorem breadthFirstOrder_spec (hfit : L ∨ tmp.length + 1 < 2 ^ 32) (h : Treelike tmp names)
    (hsize : tmp.length ≤ 2 ^ 32)
    {starts : List Nat} (hs : ∀ p, p ≤ tmp.length → starts[p]? = some (startOf tmp p)) :
    SatIf L (Bfs tmp names) (breadthFirstOrder tmp starts
      ((List.range tmp.length).flatMap (sortedKids tmp names))) := by
  rw [breadthFirstOrder]
  refine (SatIf.of_eq_ok (put!_ok _ (by rw [List.length_replicate]; exact h.pos)) rfl :
    SatIf L (fun a => a = _) _).bind (fun finalOf hf => ?_)
  subst hf
  refine bfsLoop_spec hfit hs _ _ _ _ _ (by omega) (Queue.init _ _) ?_ List.length_replicate
    (by rw [List.length_set, List.length_replicate]) ?_ ?_
  · intro a ha
    rw [List.mem_singleton] at ha
    exact ha ▸ h.pos
  · intro j a hj
    exact absurd hj (Nat.not_lt_zero j)
  · intro j a ha
    have hj := (List.getElem?_eq_some_iff.mp ha).1
    rw [List.length_singleton] at hj
    have hj0 : j = 0 := by omega
    subst hj0
    rw [List.getElem?_cons_zero] at ha
    injection ha with ha
    rw [← ha, List.getElem?_set_self (by rw [List.length_replicate]; exact h.pos)]

/-- There is a number to spare: the last node's children would start after it. -/
theorem Bfs.room {r : List Nat × List Nat × List Nat} (hb : Bfs tmp names r) :
    r.1.length + 1 < 2 ^ 32 := by
  have hpos : 0 < r.1.length := by
    rw [hb.order]
    exact Nat.succ_pos _
  have hlast : r.1[r.1.length - 1]? = some r.1[r.1.length - 1] :=
    List.getElem?_eq_getElem (by omega)
  obtain ⟨-, h1, h2⟩ := hb.ranged _ _ (by omega) hlast
  omega

/-- The queue reaches every node: a node comes after its parent. -/
theorem Bfs.mem_iff (h : Treelike tmp names) {r : List Nat × List Nat × List Nat}
    (hb : Bfs tmp names r) {a : Nat} : a ∈ r.1 ↔ a < tmp.length := by
  refine ⟨hb.lt a, ?_⟩
  induction a using Nat.strongRecOn with
  | ind a ih =>
      intro ha
      rcases Nat.eq_zero_or_pos a with h0 | h0
      · rw [hb.order, h0]; exact List.mem_cons_self
      · have hp := h.parentOf_lt (mem_nonRoots.mpr ⟨h0, ha⟩)
        exact Lib.mem_of_child hb.order (ih _ hp (Nat.lt_trans hp ha))
          (mem_sortedKids.mpr ⟨⟨h0, ha⟩, rfl⟩)

end Bfs

/-! ## The final nodes -/

/-- What node `i` is. -/
def kindOf (tmp : List TmpNode) (i : Nat) : NodeKind := (tmp[i]?.map TmpNode.kind).getD .dir

/-- `N` is the final form of the node `t`, which has number `id` and place `j` in the queue. -/
structure FinalNode (b : Builder) (order : List Nat) (j id : Nat) (t : TmpNode) (N : Node) :
    Prop where
  nameOff : N.nameOff = t.nameOff
  nameLen : N.nameLen = t.nameLen
  kind : N.kind = t.kind
  synthetic : N.synthetic = t.synthetic
  metaIdx : N.metaIdx = t.metaIdx
  parent : ∃ j', order[j']? = some t.parent ∧ N.parent = j' + 1
  firstChild : N.firstChild = firstPos (sortedKids b.nodes b.names) order j + 1
  childLen : N.childLen = (sortedKids b.nodes b.names id).length
  subdirCount : N.subdirCount = ((sortedKids b.nodes b.names id).map (kindOf b.nodes)).count .dir

/-- `idx` is what `finish` makes of `b`, queueing the nodes in this order. -/
structure Finished (b : Builder) (idx : Index) (order : List Nat) : Prop where
  names : idx.names = b.names
  metas : idx.metas = b.metas
  symlinks : idx.symlinks = b.symlinkCount
  queue : order = 0 :: order.flatMap (sortedKids b.nodes b.names)
  nodup : order.Nodup
  mem_iff : ∀ id, id ∈ order ↔ id < b.nodes.length
  length : idx.nodes.length = order.length + 1
  /-- The inodes, and one more, fit 32 bits. -/
  room : order.length + 1 < 2 ^ 32
  sentinel : idx.nodes[0]? = some sentinel
  /-- The declared sizes are added up in the order of the queue. -/
  total : order.foldlM (addSize b.nodes b.metas) 0 = .ok idx.totalUncompressed
  node : ∀ (j id : Nat), order[j]? = some id →
    ∃ t N, b.nodes[id]? = some t ∧ idx.nodes[j + 1]? = some N ∧ FinalNode b order j id t N

section Finish

variable {b : Builder} {L : Prop}

theorem sat_mapM_rel {α β : Type} {f : α → Build β} {R : α → β → Prop} {xs : List α}
    (h : ∀ a ∈ xs, SatIf L (R a) (f a)) :
    SatIf L (List.Forall₂ R xs) (xs.mapM f) := by
  induction xs with
  | nil => exact List.Forall₂.nil
  | cons a xs ih =>
      rw [List.mapM_cons]
      refine (h a List.mem_cons_self).bind (fun c hc => ?_)
      refine (ih (fun d hd => h d (List.mem_cons_of_mem _ hd))).bind (fun cs hcs => ?_)
      exact List.Forall₂.cons hc hcs

/-- One turn of the last loop of `finish`. -/
theorem finalNode_spec (hfit : L ∨ b.nodes.length + 1 < 2 ^ 32) (h : b.Ok) {starts : List Nat}
    (hs : ∀ p, p ≤ b.nodes.length → starts[p]? = some (startOf b.nodes p))
    {r : List Nat × List Nat × List Nat} (hb : Bfs b.nodes b.names r) {j id : Nat}
    (hj : r.1[j]? = some id) :
    SatIf L (fun N => ∃ t, b.nodes[id]? = some t ∧ FinalNode b r.1 j id t N)
      (finalNode b.nodes starts
        ((List.range b.nodes.length).flatMap (sortedKids b.nodes b.names)) r.2.1 r.2.2 id) := by
  have hlt : id < b.nodes.length := hb.lt id (List.mem_of_getElem? hj)
  have ht : b.nodes[id]? = some b.nodes[id] := List.getElem?_eq_getElem hlt
  generalize b.nodes[id] = t at ht
  rw [finalNode]
  refine (SatIf.of_eq_ok (at!_ok ht) rfl : SatIf L (fun a => a = _) _).bind (fun t' ht' => ?_)
  subst ht'
  refine (SatIf.of_eq_ok (at!_ok (hs id (Nat.le_of_lt hlt))) rfl : SatIf L (fun a => a = _) _).bind
    (fun lo hlo => ?_)
  refine (SatIf.of_eq_ok (at!_ok (hs (id + 1) hlt)) rfl : SatIf L (fun a => a = _) _).bind
    (fun hi hhi => ?_)
  subst hlo hhi
  refine (SatIf.of_eq_ok (range!_kids hlt) rfl : SatIf L (fun a => a = _) _).bind
    (fun kids hk => ?_)
  subst hk
  refine (sat_mapM (g := kindOf b.nodes) (fun k hk => ?_)).bind (fun kinds hkinds => ?_)
  · have hklt : k < b.nodes.length := (mem_sortedKids.mp hk).1.2
    have hkn : b.nodes[k]? = some b.nodes[k] := List.getElem?_eq_getElem hklt
    refine (SatIf.of_eq_ok (at!_ok hkn) rfl : SatIf L (fun a => a = _) _).bind (fun n hn => ?_)
    rw [hn, kindOf, hkn]
    exact rfl
  have hkids : (sortedKids b.nodes b.names id).length ≤ b.nodes.length :=
    length_order_le (sortedKids_nodup id) fun a ha => (mem_sortedKids.mp ha).1.2
  have hcount : kinds.count .dir ≤ (sortedKids b.nodes b.names id).length := by
    rw [hkinds]
    exact List.count_le_length.trans_eq (List.length_map _)
  have hlen : startOf b.nodes (id + 1) - startOf b.nodes id =
      (sortedKids b.nodes b.names id).length := by
    rw [startOf_succ, length_sortedKids, Nat.add_sub_cancel_left]
  refine (satIf_toU32 _ (hfit.imp_right fun _ => by omega)).bind (fun subdirs hsub => ?_)
  have hparent : SatIf L (fun p => ∃ j', r.1[j']? = some t'.parent ∧ p = j' + 1)
      (finalParent r.2.2 id t'.parent) := by
    rw [finalParent]
    split
    · rename_i h0
      subst h0
      rw [h.root] at ht
      injection ht with ht
      refine ⟨0, ?_, rfl⟩
      rw [hb.order, ← ht]
      rfl
    · rename_i h0
      have hp := h.parent_lt id t' (Nat.pos_of_ne_zero h0) ht
      obtain ⟨j', hj'⟩ := List.mem_iff_getElem?.mp
        ((hb.mem_iff h.treelike).mpr (Nat.lt_trans hp hlt))
      exact SatIf.of_eq_ok (at!_ok (hb.labelled j' _ hj')) ⟨j', hj', rfl⟩
  refine hparent.bind (fun parent hp => ?_)
  refine (SatIf.of_eq_ok (at!_ok (hb.ranged j id (List.getElem?_eq_some_iff.mp hj).1 hj).1) rfl :
    SatIf L (fun a => a = _) _).bind (fun first hf => ?_)
  refine (satIf_toU32 _ (hfit.imp_right fun _ => by omega)).bind (fun len hl => ?_)
  refine ⟨t', ht, rfl, rfl, rfl, rfl, rfl, hp, hf, ?_, ?_⟩
  · show len = _
    rw [hl.1, hlen]
  · show subdirs = _
    rw [hsub.1, hkinds]

theorem addSize_spec (h : b.Ok) {total id : Nat} (hid : id < b.nodes.length) :
    SatIf L (fun _ => True) (addSize b.nodes b.metas total id) := by
  have ht : b.nodes[id]? = some b.nodes[id] := List.getElem?_eq_getElem hid
  generalize b.nodes[id] = t at ht
  rw [addSize]
  refine (SatIf.of_eq_ok (at!_ok ht) rfl : SatIf L (fun a => a = _) _).bind (fun t' ht' => ?_)
  subst ht'
  split
  · rename_i hne
    cases hs : t'.synthetic with
    | true => exact absurd (h.implied id t' ht hs).2 hne
    | false =>
        have hm := List.getElem?_eq_getElem (h.claimed id t' ht hs)
        exact (SatIf.of_eq_ok (at!_ok hm) rfl : SatIf L (fun a => a = _) _).bind
          (fun _ _ => trivial)
  · trivial

/-- **`finish` lays the nodes out breadth first.** -/
theorem finish_spec (hfit : L ∨ b.nodes.length + 1 < 2 ^ 32) (h : b.Ok) :
    SatIf L (fun idx => ∃ order, Finished b idx order) b.finish := by
  rw [Builder.finish]
  refine (h.treelike.groupChildren_spec hfit).bind (fun g hg => ?_)
  obtain ⟨starts, kids⟩ := g
  obtain ⟨hs, hkids⟩ := hg
  simp only at hs hkids
  subst hkids
  refine (breadthFirstOrder_spec hfit h.treelike h.size hs).bind (fun r hb => ?_)
  obtain ⟨order, firstChild, finalOf⟩ := r
  have hnodup : order.Nodup := hb.nodup
  -- the place of a node is determined by its number
  refine (sat_mapM_rel (R := fun id N => ∃ j t, order[j]? = some id ∧ b.nodes[id]? = some t ∧
    FinalNode b order j id t N) (fun id hid => ?_)).bind (fun nodes hn => ?_)
  · obtain ⟨j, hj⟩ := List.mem_iff_getElem?.mp hid
    exact (finalNode_spec hfit h hs hb hj).mono (fun N ⟨t, ht, hN⟩ => ⟨j, t, hj, ht, hN⟩)
  have htotal : SatIf L (fun _ => True) (order.foldlM (addSize b.nodes b.metas) 0) := by
    refine sat_foldlM (I := fun _ _ => True) trivial (fun done a rest total hsplit _ => ?_)
    exact addSize_spec h (hb.lt a (by simp only; rw [hsplit]; simp))
  refine (htotal.and_ok fun _ heq => heq).bind (fun total htotal => ?_)
  refine ⟨order, rfl, rfl, rfl, hb.order, hnodup, fun id => hb.mem_iff h.treelike, ?_,
    hb.room, rfl, htotal.2, ?_⟩
  · simp only [List.length_cons]
    rw [hn.length_eq]
  · intro j id hj
    obtain ⟨hjlt, hjid⟩ := List.getElem?_eq_some_iff.mp hj
    have hjn : j < nodes.length := hn.length_eq ▸ hjlt
    obtain ⟨j', t, hj', ht, hN⟩ := List.forall₂_iff_get.mp hn |>.2 j hjlt hjn
    simp only [List.get_eq_getElem] at hj' ht hN
    rw [hjid] at hj' ht hN
    obtain ⟨hjlt', hjid'⟩ := List.getElem?_eq_some_iff.mp hj'
    have hjj : j' = j := (List.Nodup.getElem_inj_iff hnodup).mp (hjid'.trans hjid.symm)
    subst hjj
    refine ⟨t, _, ht, ?_, hN⟩
    rw [List.getElem?_cons_succ, List.getElem?_eq_getElem hjn]

end Finish

end ZipFs
