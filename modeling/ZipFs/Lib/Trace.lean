import ZipFs.Lib.Logic

/-!
# What a call has performed

A program that has come to its end has performed a list of operations, each with the
answer that it got. Which lists there are is a matter of the program's text alone: no
state comes into it, so what holds of all of them holds under any interleaving.

The other half is about runs. Every call in a history has such a list, and each of its
operations was performed in some configuration between the one that the call arrived in
and the one that it was answered in. What a thread keeps for itself can be read off the
list.
-/

namespace Lib

variable {τ σ κ ρ : Type} {O : Type} {R : O → Type} {α β : Type}

/-- An operation and its answer. -/
abbrev Answered (R : O → Type) : Type := (o : O) × R o

/-! ## The operations of a program -/

namespace Prog

/-- The program can perform these operations with these answers, one after the other, and return
`a`. -/
def Traced : Prog R α → List (Answered R) → α → Prop
  | .ret b, xs, a => xs = [] ∧ a = b
  | .op o k, xs, a => ∃ r ys, xs = ⟨o, r⟩ :: ys ∧ (k r).Traced ys a

@[simp] theorem traced_pure {xs : List (Answered R)} {a b : α} :
    (pure b : Prog R α).Traced xs a ↔ xs = [] ∧ a = b := Iff.rfl

@[simp] theorem traced_op {o : O} {xs : List (Answered R)} {r : R o} :
    (Prog.op o .ret : Prog R (R o)).Traced xs r ↔ xs = [⟨o, r⟩] := by
  refine ⟨?_, ?_⟩
  · intro h
    obtain ⟨r', ys, rfl, rfl, rfl⟩ := h
    rfl
  · intro h
    exact ⟨r, [], h, rfl, rfl⟩

/-- What a sequence performs is what its parts perform. -/
theorem traced_bind {p : Prog R α} {f : α → Prog R β} {xs : List (Answered R)} {b : β} :
    (p >>= f).Traced xs b ↔
      ∃ ys zs a, xs = ys ++ zs ∧ p.Traced ys a ∧ (f a).Traced zs b := by
  induction p generalizing xs with
  | ret c =>
      refine ⟨fun h => ⟨[], xs, c, rfl, ⟨rfl, rfl⟩, h⟩, ?_⟩
      intro h
      obtain ⟨ys, zs, a, rfl, ⟨rfl, rfl⟩, h⟩ := h
      exact h
  | op o k ih =>
      refine ⟨?_, ?_⟩
      · intro h
        obtain ⟨r, ys, rfl, h⟩ := h
        obtain ⟨us, vs, a, rfl, hp, hf⟩ := (ih r).mp h
        exact ⟨⟨o, r⟩ :: us, vs, a, rfl, ⟨r, us, rfl, hp⟩, hf⟩
      · intro h
        obtain ⟨us, vs, a, rfl, ⟨r, ys, rfl, hp⟩, hf⟩ := h
        exact ⟨r, ys ++ vs, rfl, (ih r).mpr ⟨ys, vs, a, rfl, hp, hf⟩⟩

/-- A program that performs only operations with `A`. -/
theorem Always.traced {A : O → Prop} {Q : α → Prop} {p : Prog R α} (h : p.Always A Q)
    {xs : List (Answered R)} {a : α} (ht : p.Traced xs a) :
    (∀ o ∈ xs.map Sigma.fst, A o) ∧ Q a := by
  induction p generalizing xs with
  | ret b =>
      obtain ⟨rfl, rfl⟩ := ht
      exact ⟨by simp, h⟩
  | op o k ih =>
      obtain ⟨r, ys, rfl, ht⟩ := ht
      obtain ⟨hall, hq⟩ := ih r (h.2 r) ht
      exact ⟨List.forall_mem_cons.mpr ⟨h.1, hall⟩, hq⟩

end Prog

/-! ## The operations of a call -/

section Run

variable [DecidableEq τ] {S : System τ σ κ ρ R}

/-- What a run leaves grows. -/
theorem Reachable.grow {P : Protocol τ σ} {Q : τ → κ → σ → ρ → σ → Prop} (hs : Respects S P Q)
    {w : σ} (hw : P.inv w) {c c' : Config τ σ κ ρ R} (h : Reachable S w c) (hsteps : Steps S c c') :
    P.grow c.world c'.world := by
  induction hsteps with
  | refl => exact P.grow_refl _
  | tail hsteps hstep ih =>
      exact P.grow_trans _ _ _ ih ((sound hs hw (h.steps hsteps)).grow hs hstep)

/-- Thread `t` performed the operation, and was answered like that, on the way from `c` to `c'`. -/
def Performed (S : System τ σ κ ρ R) (t : τ) (c c' : Config τ σ κ ρ R) (x : Answered R) : Prop :=
  ∃ c₁ c₂, Steps S c c₁ ∧ Step S c₁ c₂ ∧ S.exec t x.1 c₁.world x.2 c₂.world ∧ Steps S c₂ c'

theorem Performed.step {t : τ} {c c₁ c₂ : Config τ σ κ ρ R} {x : Answered R}
    (h : Performed S t c c₁ x) (hs : Step S c₁ c₂) : Performed S t c c₂ x := by
  obtain ⟨d₁, d₂, hto, hstep, he, hfrom⟩ := h
  exact ⟨d₁, d₂, hto, hstep, he, hfrom.tail hs⟩

/-- What each thread has for itself: only its own operations change it, each in its way. -/
structure Private {ν : Type} (S : System τ σ κ ρ R) (view : τ → σ → ν) (upd : O → ν → ν) :
    Prop where
  own : ∀ {t o s r s'}, S.exec t o s r s' → view t s' = upd o (view t s)
  other : ∀ {t u o s r s'}, S.exec u o s r s' → u ≠ t → view t s' = view t s
  arrive : ∀ {t u k s}, u ≠ t → view t (S.arrive u k s) = view t s
  env : ∀ {t s s'}, S.env s s' → view t s' = view t s

variable {ν : Type} {view : τ → σ → ν} {upd : O → ν → ν}

/-- A call that arrived in `c₀` has performed these operations, and what its thread has for itself
is what they make of it. -/
structure Has (S : System τ σ κ ρ R) (view : τ → σ → ν) (upd : O → ν → ν) (w : σ)
    (c₀ c : Config τ σ κ ρ R) (t : τ) (call : κ) (start : σ) (xs : List (Answered R)) : Prop where
  reachable : Reachable S w c₀
  arrived : start = S.arrive t call c₀.world
  steps : Steps S c₀ c
  performed : ∀ x ∈ xs, Performed S t c₀ c x
  view : view t c.world = xs.foldl (fun v x => upd x.1 v) (view t start)

/-- Steps of the others leave what a call has performed. -/
theorem Has.step {w : σ} {c₀ c c' : Config τ σ κ ρ R} {t : τ} {call : κ} {start : σ}
    {xs : List (Answered R)} (h : Has S view upd w c₀ c t call start xs) (hstep : Step S c c')
    (hsame : view t c'.world = view t c.world) : Has S view upd w c₀ c' t call start xs where
  reachable := h.reachable
  arrived := h.arrived
  steps := h.steps.tail hstep
  performed x hx := (h.performed x hx).step hstep
  view := hsame.trans h.view

/-- One more operation of the call. -/
theorem Has.op (hv : Private S view upd) {w : σ} {c₀ c c' : Config τ σ κ ρ R} {t : τ} {call : κ}
    {start : σ} {xs : List (Answered R)} (h : Has S view upd w c₀ c t call start xs)
    (hstep : Step S c c') {x : Answered R} (he : S.exec t x.1 c.world x.2 c'.world) :
    Has S view upd w c₀ c' t call start (xs ++ [x]) where
  reachable := h.reachable
  arrived := h.arrived
  steps := h.steps.tail hstep
  performed y hy := by
    rcases List.mem_append.mp hy with hy | hy
    · exact (h.performed y hy).step hstep
    · obtain rfl := List.mem_singleton.mp hy
      exact ⟨c, c', h.steps, hstep, he, .refl⟩
  view := by
    rw [List.foldl_append, ← h.view]
    exact hv.own he

/-- Of a call that still runs: what is left of it completes what it has performed. -/
theorem running_traced (hv : Private S view upd) {w : σ} {c : Config τ σ κ ρ R}
    (h : Reachable S w c) : ∀ t r, c.running t = some r →
      ∃ c₀ xs, Has S view upd w c₀ c t r.call r.start xs ∧
        ∀ ys a, r.rest.Traced ys a → (S.prog r.call).Traced (xs ++ ys) a := by
  induction h with
  | init => exact fun t r hr => absurd hr (by simp [initial])
  | @step c c' hreach hstep ih =>
      have hothers : ∀ u r, c.running u = some r → view u c'.world = view u c.world →
          ∃ c₀ xs, Has S view upd w c₀ c' u r.call r.start xs ∧
            ∀ ys a, r.rest.Traced ys a → (S.prog r.call).Traced (xs ++ ys) a := by
        intro u r hu hsame
        obtain ⟨c₀, xs, hhas, htr⟩ := ih u r hu
        exact ⟨c₀, xs, hhas.step hstep hsame, htr⟩
      intro u r hu
      cases hstep with
      | call t k hidle =>
          by_cases hut : u = t
          · subst hut
            dsimp only at hu
            rw [Function.update_self] at hu
            obtain rfl := Option.some.inj hu
            exact ⟨_, [],
              ⟨hreach, rfl, .single (.call u k hidle), by simp, rfl⟩, fun _ _ htr => htr⟩
          · dsimp only at hu
            rw [Function.update_of_ne hut] at hu
            exact hothers u r hu (hv.arrive (Ne.symm hut))
      | @op _ _ _ _ t k start o f a hsome hexec =>
          by_cases hut : u = t
          · subst hut
            dsimp only at hu
            rw [Function.update_self] at hu
            obtain rfl := Option.some.inj hu
            obtain ⟨c₀, xs, hhas, htr⟩ := ih u _ hsome
            refine ⟨c₀, xs ++ [⟨o, a⟩], hhas.op hv (.op u hsome hexec) hexec, ?_⟩
            intro ys b hrest
            rw [List.append_assoc]
            exact htr _ b ⟨a, ys, rfl, hrest⟩
          · dsimp only at hu
            rw [Function.update_of_ne hut] at hu
            exact hothers u r hu (hv.other hexec (Ne.symm hut))
      | ret t hsome =>
          by_cases hut : u = t
          · subst hut
            dsimp only at hu
            rw [Function.update_self] at hu
            exact absurd hu (by simp)
          · dsimp only at hu
            rw [Function.update_of_ne hut] at hu
            exact hothers u r hu rfl
      | env henv => exact hothers u r hu (hv.env henv)

/-- **Every answered call has performed the operations of its program**, between the
configuration that it arrived in and the one that it was answered in. -/
theorem event_traced (hv : Private S view upd) {w : σ} {c : Config τ σ κ ρ R}
    (h : Reachable S w c) : ∀ e ∈ c.history,
      ∃ c₀ c₁ xs, Has S view upd w c₀ c₁ e.thread e.call e.start xs ∧ e.finish = c₁.world ∧
        Steps S c₁ c ∧ (S.prog e.call).Traced xs e.reply := by
  induction h with
  | init => simp [initial]
  | @step c c' hreach hstep ih =>
      have hold : ∀ e ∈ c.history, ∃ c₀ c₁ xs,
          Has S view upd w c₀ c₁ e.thread e.call e.start xs ∧ e.finish = c₁.world ∧
            Steps S c₁ c' ∧ (S.prog e.call).Traced xs e.reply := by
        intro e he
        obtain ⟨c₀, c₁, xs, hhas, hfin, hsteps, htr⟩ := ih e he
        exact ⟨c₀, c₁, xs, hhas, hfin, hsteps.tail hstep, htr⟩
      cases hstep with
      | @ret _ _ _ t k start a hsome =>
          intro e he
          rcases List.mem_cons.mp he with rfl | he
          · obtain ⟨c₀, xs, hhas, htr⟩ := running_traced hv hreach t _ hsome
            have hdone := htr [] a ⟨rfl, rfl⟩
            rw [List.append_nil] at hdone
            exact ⟨c₀, _, xs, hhas, rfl, .single (.ret t hsome), hdone⟩
          · exact hold e he
      | call t k hidle => exact hold
      | op t hsome hexec => exact hold
      | env henv => exact hold

end Run

end Lib
