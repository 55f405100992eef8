import ZipFs.Lib.Extend
import ZipFs.Lib.Order
import Mathlib.Algebra.BigOperators.Group.Finset.Basic
import Mathlib.Logic.Hydra

/-!
# No call is left waiting

Threads wait for one another when an operation needs what another thread holds. A
`Discipline` says how a thread comes by what it holds and which operations it may perform
while it does. Whether a program keeps to it is a matter of its text and of what the
answers to its operations can be, and is decided function by function. If all calls keep
to it, and no thread that holds something ever has to wait, then some thread can always
go on.

A program is finite whatever the answers are, so threads that go on come to their end.
Both together say that every call is answered, in whatever order the threads are run.
-/

namespace Lib

open Prog

variable {τ σ κ ρ : Type} {O : Type} {R : O → Type} {α β : Type}

/-! ## Keeping to a discipline -/

/-- What threads hold, and what they may do. The index `i` stands for what is known to exist. -/
structure Discipline (τ σ : Type) {O : Type} (R : O → Type) (η ι : Type) where
  held : τ → σ → η
  nothing : η
  /-- What a thread holds after the operation. -/
  after : O → η → η
  may : ι → O → η → Prop
  /-- The answers to expect. -/
  resp : ι → (o : O) → R o → Prop
  /-- All that exists for the thread in the state is known. -/
  above : τ → σ → ι → Prop
  /-- What exists for it now. -/
  here : τ → σ → ι

section Follows

variable {η ι : Type} (D : Discipline τ σ R η ι) (i : ι)

/-- From what the thread holds on, the program only does what it may, and ends with `Q`. -/
def Prog.Follows (Q : α → η → Prop) : Prog R α → η → Prop
  | .ret a, x => Q a x
  | .op o k, x => D.may i o x ∧ ∀ r, D.resp i o r → (k r).Follows Q (D.after o x)

variable {D i}

theorem Prog.Follows.mono {p : Prog R α} {Q T : α → η → Prop} {x : η} (h : p.Follows D i Q x)
    (hq : ∀ a y, Q a y → T a y) : p.Follows D i T x := by
  induction p generalizing x with
  | ret a => exact hq a x h
  | op o k ih => exact ⟨h.1, fun r hr => ih r (h.2 r hr)⟩

theorem Prog.Follows.bind {p : Prog R α} {f : α → Prog R β} {T : β → η → Prop} {x : η}
    (h : p.Follows D i (fun a y => (f a).Follows D i T y) x) : (p >>= f).Follows D i T x := by
  induction p generalizing x with
  | ret a => exact h
  | op o k ih => exact ⟨h.1, fun r hr => ih r (h.2 r hr)⟩

/-- An operation at the head of a program, after which the thread holds `y`. -/
theorem Prog.Follows.op {o : O} {f : R o → Prog R α} {Q : α → η → Prop} {x y : η}
    (hmay : D.may i o x) (hafter : D.after o x = y)
    (h : ∀ r, D.resp i o r → (f r).Follows D i Q y) :
    ((Prog.op o .ret : Prog R (R o)) >>= f).Follows D i Q x := by
  subst hafter
  exact ⟨hmay, h⟩

variable (D i) in
/-- The judgement on programs that begin and end without holding anything. -/
def Discipline.logic : Logic R where
  Holds p Q := p.Follows D i (fun a y => y = D.nothing ∧ Q a) D.nothing
  pure hq := ⟨rfl, hq⟩
  bind hp hf := by
    refine Prog.Follows.bind (hp.mono ?_)
    rintro a y ⟨rfl, hq⟩
    exact hf a hq

/-- An operation that is a matter of no lock. -/
theorem Discipline.holds_op {o : O} (hmay : D.may i o D.nothing)
    (hafter : D.after o D.nothing = D.nothing) : (D.logic i).Holds (.op o .ret) (D.resp i o) :=
  ⟨hmay, fun _ hr => ⟨hafter, hr⟩⟩

end Follows

/-! ## Whole runs -/

section Run

variable [DecidableEq τ] {S : System τ σ κ ρ R} {P : Protocol τ σ}
variable {Q : τ → κ → σ → ρ → σ → Prop} {η ι : Type} {D : Discipline τ σ R η ι}

/-- The calls of a system keep to a discipline. -/
structure KeepsTo (S : System τ σ κ ρ R) (P : Protocol τ σ) (D : Discipline τ σ R η ι) : Prop where
  here : ∀ t s, D.above t s (D.here t s)
  above : ∀ t s s' i, P.grow s s' → D.above t s' i → D.above t s i
  resp : ∀ t o s r s' i, P.inv s → P.inv s' → S.exec t o s r s' → D.above t s' i → D.resp i o r
  own : ∀ t o s r s' i, D.above t s i → D.may i o (D.held t s) → S.exec t o s r s' →
    D.held t s' = D.after o (D.held t s)
  others : ∀ t u o s r s' i, u ≠ t → D.above t s i → D.may i o (D.held t s) →
    S.exec t o s r s' → D.held u s' = D.held u s
  arrive : ∀ t u k s, D.held u (S.arrive t k s) = D.held u s
  env : ∀ s s' u, S.env s s' → D.held u s' = D.held u s
  calls : ∀ i k, (S.prog k).Follows D i (fun _ y => y = D.nothing) D.nothing

/-- A thread keeps to the discipline: one without a call holds nothing. -/
def Abides (D : Discipline τ σ R η ι) (w : σ) (t : τ) : Option (Running σ κ ρ R) → Prop
  | none => D.held t w = D.nothing
  | some r => ∀ i, D.above t w i → r.rest.Follows D i (fun _ y => y = D.nothing) (D.held t w)

omit [DecidableEq τ] in
/-- Steps of the others leave a thread where it is. -/
theorem Abides.mono {w w' : σ} {t : τ} {x : Option (Running σ κ ρ R)} (h : Abides D w t x)
    (hheld : D.held t w' = D.held t w) (habove : ∀ i, D.above t w' i → D.above t w i) :
    Abides D w' t x := by
  cases x with
  | none => exact hheld.trans h
  | some r =>
      intro i hi
      rw [hheld]
      exact h i (habove i hi)

theorem abides_update {w w' : σ} {run : τ → Option (Running σ κ ρ R)} {t : τ}
    {x : Option (Running σ κ ρ R)} (h : ∀ u, Abides D w u (run u))
    (hx : Abides D w' t x) (hheld : ∀ u, u ≠ t → D.held u w' = D.held u w)
    (habove : ∀ u i, D.above u w' i → D.above u w i) (u : τ) :
    Abides D w' u (Function.update run t x u) := by
  by_cases hu : u = t
  · subst hu
    rw [Function.update_self]
    exact hx
  · rw [Function.update_of_ne hu]
    exact (h u).mono (hheld u hu) (habove u)

/-- **All threads keep to the discipline, always.** -/
theorem disciplined (hs : Respects S P Q) (hk : KeepsTo S P D) {w : σ} (hw : P.inv w)
    (hstart : ∀ t, D.held t w = D.nothing) {c : Config τ σ κ ρ R} (h : Reachable S w c) :
    ∀ t, Abides D c.world t (c.running t) := by
  induction h with
  | init => exact hstart
  | @step c c' hreach hstep ih =>
      have hg := sound hs hw hreach
      have hgrow := hg.grow hs hstep
      have hg' := sound hs hw (hreach.step hstep)
      have habove : ∀ u i, D.above u c'.world i → D.above u c.world i :=
        fun u i => hk.above u _ _ i hgrow
      cases hstep with
      | call t k hidle =>
          have hold := ih t
          simp only [hidle] at hold
          refine abides_update ih ?_ (fun u _ => hk.arrive t u k _) habove
          intro i _
          rw [hk.arrive t t k, hold]
          exact hk.calls i k
      | @op w w' run _ t k start o f r hsome hexec =>
          have hold := ih t
          simp only [hsome] at hold
          -- what exists afterwards is enough to go on with
          have hmay : ∀ i, D.above t w' i → D.may i o (D.held t w) :=
            fun i hi => (hold i (habove t i hi)).1
          have hnow := hk.here t w'
          refine abides_update ih ?_ (fun u hu => hk.others t u o w r w' _ hu (habove t _ hnow)
            (hmay _ hnow) hexec) habove
          intro i hi
          rw [hk.own t o w r w' i (habove t i hi) (hmay i hi) hexec]
          exact (hold i (habove t i hi)).2 r (hk.resp t o w r w' i hg.inv hg'.inv hexec hi)
      | ret t hsome =>
          have hold := ih t
          simp only [hsome] at hold
          exact abides_update ih (hold _ (hk.here t _)) (fun _ _ => rfl) fun _ _ hi => hi
      | env henv => exact fun u => (ih u).mono (hk.env _ _ u henv) (habove u)

/-- Whatever a thread performs it may do. -/
theorem disciplined_op (hs : Respects S P Q) (hk : KeepsTo S P D) {w : σ} (hw : P.inv w)
    (hstart : ∀ t, D.held t w = D.nothing) {c : Config τ σ κ ρ R} (h : Reachable S w c) {t : τ}
    {k : κ} {s : σ} {o : O} {f : R o → Prog R ρ} (hsome : c.running t = some ⟨k, s, .op o f⟩) :
    D.may (D.here t c.world) o (D.held t c.world) := by
  have hfollows := disciplined hs hk hw hstart h t
  rw [hsome] at hfollows
  exact (hfollows _ (hk.here t _)).1

/-! ## Threads that go on -/

/-- A thread goes on with its call. -/
inductive Serve (S : System τ σ κ ρ R) : Config τ σ κ ρ R → Config τ σ κ ρ R → Prop where
  | op {w w' run h} (t : τ) {c s o k r} : run t = some ⟨c, s, .op o k⟩ → S.exec t o w r w' →
      Serve S ⟨w, run, h⟩ ⟨w', Function.update run t (some ⟨c, s, k r⟩), h⟩
  | ret {w run h} (t : τ) {c s a} : run t = some ⟨c, s, .ret a⟩ →
      Serve S ⟨w, run, h⟩ ⟨w, Function.update run t none, ⟨t, c, s, w, a⟩ :: h⟩

theorem Serve.step {c c' : Config τ σ κ ρ R} (h : Serve S c c') : Step S c c' := by
  cases h with
  | op t hsome hexec => exact .op t hsome hexec
  | ret t hsome => exact .ret t hsome

/-- A thread that holds something never waits, and nobody waits while nobody holds anything. -/
def Unblocked (S : System τ σ κ ρ R) (P : Protocol τ σ) (D : Discipline τ σ R η ι) : Prop :=
  ∀ t o s, P.inv s → D.may (D.here t s) o (D.held t s) →
    (D.held t s = D.nothing → ∀ u, D.held u s = D.nothing) → ∃ r s', S.exec t o s r s'

/-- **No deadlock**: while a call is served, some thread can go on. -/
theorem someone_serves (hs : Respects S P Q) (hk : KeepsTo S P D) (hu : Unblocked S P D) {w : σ}
    (hw : P.inv w) (hstart : ∀ t, D.held t w = D.nothing) {c : Config τ σ κ ρ R}
    (h : Reachable S w c) {t : τ} (ht : c.running t ≠ none) : ∃ c', Serve S c c' := by
  have hi := (sound hs hw h).inv
  have habide := disciplined hs hk hw hstart h
  obtain ⟨world, running, history⟩ := c
  -- a thread that is not kept waiting moves
  have hmove : ∀ u r, running u = some r →
      (D.held u world = D.nothing → ∀ v, D.held v world = D.nothing) →
      ∃ c', Serve S ⟨world, running, history⟩ c' := by
    intro u r hr hfree
    have hfollows := habide u
    simp only [hr] at hfollows
    obtain ⟨call, start, rest⟩ := r
    cases rest with
    | ret a => exact ⟨_, .ret u hr⟩
    | op o k =>
        obtain ⟨a, s', he⟩ := hu u o world hi (hfollows _ (hk.here u _)).1 hfree
        exact ⟨_, .op u hr he⟩
  by_cases hany : ∃ u, D.held u world ≠ D.nothing
  · obtain ⟨u, hheld⟩ := hany
    cases hr : running u with
    | none =>
        have hidle := habide u
        simp only [hr] at hidle
        exact absurd hidle hheld
    | some r => exact hmove u r hr fun hn => absurd hn hheld
  · obtain ⟨r, hr⟩ := Option.ne_none_iff_exists'.mp ht
    exact hmove t r hr fun _ u => not_not.mp fun hne => hany ⟨u, hne⟩

/-- Only finitely many threads serve a call. -/
theorem running_finite {w : σ} {c : Config τ σ κ ρ R} (h : Reachable S w c) :
    ∃ ts : Finset τ, ∀ t, c.running t ≠ none → t ∈ ts := by
  induction h with
  | init => exact ⟨∅, fun t ht => absurd rfl ht⟩
  | step hreach hstep ih =>
      obtain ⟨ts, hts⟩ := ih
      have hupdate : ∀ {run : τ → Option (Running σ κ ρ R)} {t x},
          (∀ u, run u ≠ none → u ∈ ts) → ∀ u, Function.update run t x u ≠ none →
            u ∈ insert t ts := by
        intro run t x hrun u hu
        by_cases hut : u = t
        · exact Finset.mem_insert.mpr (.inl hut)
        · rw [Function.update_of_ne hut] at hu
          exact Finset.mem_insert_of_mem (hrun u hu)
      cases hstep with
      | call t k hidle => exact ⟨_, hupdate hts⟩
      | op t hsome hexec => exact ⟨_, hupdate hts⟩
      | ret t hsome => exact ⟨_, hupdate hts⟩
      | env henv => exact ⟨ts, hts⟩

/-- What is left of a program after one operation. -/
def Prog.Rest (q p : Prog R α) : Prop := ∃ o k r, p = .op o k ∧ q = k r

theorem Prog.rest_wf : WellFounded (Prog.Rest (R := R) (α := α)) := by
  refine ⟨fun p => ?_⟩
  induction p with
  | ret a =>
      refine ⟨_, fun q hq => ?_⟩
      obtain ⟨o, k, r, h, -⟩ := hq
      exact absurd h (by simp)
  | op o k ih =>
      refine ⟨_, fun q hq => ?_⟩
      obtain ⟨o', k', r, h, rfl⟩ := hq
      cases h
      exact ih r

/-- What one thread has left, if anything. -/
def leftOver (x : Option (Running σ κ ρ R)) : Multiset (Prog R ρ) :=
  x.elim 0 fun r => {r.rest}

/-- What is left of all calls. -/
def remaining (ts : Finset τ) (run : τ → Option (Running σ κ ρ R)) : Multiset (Prog R ρ) :=
  ∑ t ∈ ts, leftOver (run t)

theorem remaining_eq {ts : Finset τ} (run : τ → Option (Running σ κ ρ R)) {t : τ} (ht : t ∈ ts) :
    remaining ts run = remaining (ts.erase t) run + leftOver (run t) :=
  (Finset.sum_erase_add ts _ ht).symm

/-- What one thread has left changes, and nothing else. -/
theorem remaining_update {ts : Finset τ} (run : τ → Option (Running σ κ ρ R)) {t : τ}
    (ht : t ∈ ts) (x : Option (Running σ κ ρ R)) :
    remaining ts (Function.update run t x) = remaining (ts.erase t) run + leftOver x := by
  rw [remaining_eq _ ht, Function.update_self]
  congr 1
  refine Finset.sum_congr rfl fun u hu => ?_
  rw [Function.update_of_ne (Finset.ne_of_mem_erase hu)]

/-- **Threads that go on come to their end**, whatever the environment does meanwhile. -/
theorem serve_acc {ts : Finset τ} {c : Config τ σ κ ρ R} (hts : ∀ t, c.running t ≠ none → t ∈ ts) :
    Acc (fun c₂ c₁ => ∃ w, Serve S ⟨w, c₁.running, c₁.history⟩ c₂) c := by
  -- by induction on what is left of all calls, where one program becomes shorter or none at all
  have key : ∀ m : Multiset (Prog R ρ), ∀ c : Config τ σ κ ρ R,
      (∀ t, c.running t ≠ none → t ∈ ts) → remaining ts c.running = m →
      Acc (fun c₂ c₁ => ∃ w, Serve S ⟨w, c₁.running, c₁.history⟩ c₂) c := by
    intro m
    induction m using Prog.rest_wf.cutExpand.induction with
    | _ m ih =>
        intro c hc hm
        refine ⟨_, fun c' hc' => ?_⟩
        obtain ⟨w, hserve⟩ := hc'
        have hupdate : ∀ {t x}, t ∈ ts → ∀ u, Function.update c.running t x u ≠ none → u ∈ ts := by
          intro t x ht u hu
          by_cases hut : u = t
          · rw [hut]
            exact ht
          · rw [Function.update_of_ne hut] at hu
            exact hc u hu
        generalize hcw : (⟨w, c.running, c.history⟩ : Config τ σ κ ρ R) = cw at hserve
        cases hserve with
        | @op _ w' run h t k s o f r hsome hexec =>
            obtain ⟨-, rfl, rfl⟩ := Config.mk.inj hcw
            have ht := hc t (by rw [hsome]; simp)
            refine ih _ ?_ _ (hupdate ht) rfl
            rw [← hm, remaining_update _ ht, remaining_eq _ ht, hsome]
            exact Relation.cutExpand_add_single _ ⟨o, f, r, rfl, rfl⟩
        | @ret _ run h t k s a hsome =>
            obtain ⟨-, rfl, rfl⟩ := Config.mk.inj hcw
            have ht := hc t (by rw [hsome]; simp)
            refine ih _ ?_ _ (hupdate ht) rfl
            rw [← hm, remaining_update _ ht, remaining_eq _ ht, hsome]
            exact (Relation.cutExpand_add_left _).mpr Relation.cutExpand_zero
  exact key _ c hts rfl

/-- **All calls are answered** if no more come: threads that go on arrive where nobody serves
a call any more. -/
theorem all_answered (hs : Respects S P Q) (hk : KeepsTo S P D) (hu : Unblocked S P D) {w : σ}
    (hw : P.inv w) (hstart : ∀ t, D.held t w = D.nothing) {c : Config τ σ κ ρ R}
    (h : Reachable S w c) :
    ∃ c', Relation.ReflTransGen (Serve S) c c' ∧ ∀ t, c'.running t = none := by
  obtain ⟨ts, hts⟩ := running_finite h
  have hacc := serve_acc (S := S) hts
  clear hts
  induction hacc with
  | intro c _ ih =>
      by_cases hall : ∀ t, c.running t = none
      · exact ⟨c, .refl, hall⟩
      · obtain ⟨t, ht⟩ := not_forall.mp hall
        obtain ⟨c₁, hserve⟩ := someone_serves hs hk hu hw hstart h ht
        have hreach := h.step hserve.step
        obtain ⟨c', hrun, hdone⟩ := ih c₁ ⟨c.world, hserve⟩ hreach
        exact ⟨c', .head hserve hrun, hdone⟩

end Run

end Lib
