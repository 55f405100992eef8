import ZipFs.Lib.Threads

/-!
# Judgements that pass through programs

What is proved of a program is often proved by the same walk through its text,
whatever it is that is proved: returning is fine, a sequence is fine if both halves
are, and so the program is fine if its operations are. A `Logic` is a judgement for
which that walk is sound. A function gets one lemma that says which programs and
operations it is built from, for an arbitrary logic; each logic then only has to deal
with those.

Three logics are given here: performing only operations of some kind, whatever the answers
are; keeping a condition on the shared state among other threads that respect a protocol; and
keeping one alone. With the second stand the rules for a program that changes what its thread
has of its own, which no other thread touches.
-/

namespace Lib

open Prog

/-- A judgement on programs and their results. -/
structure Logic {O : Type} (R : O → Type) where
  Holds : {α : Type} → Prog R α → (α → Prop) → Prop
  pure : ∀ {α : Type} {a : α} {Q : α → Prop}, Q a → Holds (.ret a) Q
  bind : ∀ {α β : Type} {p : Prog R α} {f : α → Prog R β} {Q : α → Prop} {T : β → Prop},
    Holds p Q → (∀ a, Q a → Holds (f a) T) → Holds (p >>= f) T

variable {τ σ : Type} {O : Type} {R : O → Type} {α β : Type}

theorem bind_ret (p : Prog R α) : (p >>= Prog.ret) = p := by
  induction p with
  | ret a => rfl
  | op o k ih =>
      rw [op_bind]
      congr 1
      funext r
      exact ih r

namespace Logic

variable (L : Logic R)

/-- The judgement of a program of whose result nothing is said. -/
abbrev Accepts (p : Prog R α) : Prop := L.Holds p fun _ => True

variable {L} {p : Prog R α} {Q : α → Prop}

theorem mono {T : α → Prop} (h : L.Holds p Q) (hq : ∀ a, Q a → T a) : L.Holds p T := by
  rw [← bind_ret p]
  exact L.bind h fun a ha => L.pure (hq a ha)

theorem accepts (h : L.Holds p Q) : L.Accepts p := mono h fun _ _ => trivial

/-- Sequencing, where nothing is known of the first result. -/
theorem seq {f : α → Prog R β} {T : β → Prop} (h : L.Accepts p) (hf : ∀ a, L.Holds (f a) T) :
    L.Holds (p >>= f) T :=
  L.bind h fun a _ => hf a

/-- An operation that is never answered has any result. -/
theorem never {o : O} (h : L.Accepts (.op o .ret : Prog R (R o))) (hn : R o → False)
    (k : R o → Prog R α) : L.Holds (.op o k) Q :=
  seq h fun r => (hn r).elim

theorem handle {O' : Type} {R' : O' → Type} {h : (o : O') → Prog R (R' o)}
    (hh : ∀ o, L.Accepts (h o)) (p : Prog R' α) : L.Accepts (p.handle h) := by
  induction p with
  | ret a => exact L.pure trivial
  | op o k ih => exact seq (hh o) ih

end Logic

/-! ## Whatever the answers -/

/-- Whatever the answers to its operations are, each of them has `A` and the result has `Q`. -/
def Prog.Always (A : O → Prop) (Q : α → Prop) : Prog R α → Prop
  | .ret a => Q a
  | .op o k => A o ∧ ∀ r, (k r).Always A Q

def always (A : O → Prop) : Logic R where
  Holds p Q := p.Always A Q
  pure h := h
  bind {α β p f Q T} hp hf := by
    induction p with
    | ret a => exact hf a hp
    | op o k ih => exact ⟨hp.1, fun r => ih r (hp.2 r)⟩

theorem always_op {A : O → Prop} {o : O} (h : A o) : (always (R := R) A).Accepts (.op o .ret) :=
  ⟨h, fun _ => trivial⟩

/-- Every program does something. -/
theorem Prog.always_true (p : Prog R α) : p.Always (fun _ => True) fun _ => True := by
  induction p with
  | ret a => exact trivial
  | op o k ih => exact ⟨trivial, ih⟩

/-- A program whose operations are all answered comes to its end. -/
theorem Prog.Always.run {A : O → Prop} {Q : α → Prop} {respond : (o : O) → σ → Option (R o × σ)}
    (hA : ∀ o s, A o → (respond o s).isSome) {p : Prog R α} (h : p.Always A Q) (s : σ) :
    ∃ a s', Lib.run respond p s = some (a, s') ∧ Q a := by
  induction p generalizing s with
  | ret a => exact ⟨a, s, rfl, h⟩
  | op o k ih =>
      obtain ⟨⟨r, s₁⟩, hr⟩ := Option.isSome_iff_exists.mp (hA o s h.1)
      obtain ⟨a, s', hrun, hq⟩ := ih r (h.2 r) s₁
      refine ⟨a, s', ?_, hq⟩
      rw [Lib.run, hr]
      exact hrun

/-- Among other threads too. -/
theorem Safe.always {P : Protocol τ σ} {exec : τ → (o : O) → σ → R o → σ → Prop} {t : τ}
    {A : O → Prop} {p : Prog R α} {Q : α → σ → Prop} {T : α → Prop} {s : σ}
    (h : Safe P exec t Q p s) (ha : p.Always A T) :
    Safe P exec t (fun a s' => Q a s' ∧ T a) p s := by
  induction p generalizing s with
  | ret a => exact fun s' hr hi => ⟨h s' hr hi, ha⟩
  | op o k ih =>
      intro s₁ hr hi r s₂ he
      obtain ⟨hi₂, hg, ho, hs⟩ := h s₁ hr hi r s₂ he
      exact ⟨hi₂, hg, ho, ih r hs (ha.2 r)⟩

/-! ## Among other threads -/

/-- The condition `I` holds for thread `t` whatever the others do. -/
def Protocol.Stable (P : Protocol τ σ) (t : τ) (I : σ → Prop) : Prop :=
  ∀ s s', P.rely t s s' → P.inv s' → I s → I s'

/-- A program of thread `t` that keeps the protocol and `I`. -/
def keeping (P : Protocol τ σ) (exec : τ → (o : O) → σ → R o → σ → Prop) (t : τ) {I : σ → Prop}
    (hI : P.Stable t I) : Logic R where
  Holds p Q := ∀ s, P.inv s → I s → Safe P exec t (fun a s' => Q a ∧ I s') p s
  pure hq _ _ hs := fun s' hr hi => ⟨hq, hI _ s' hr hi hs⟩
  bind hp hf s hi hs := by
    refine Safe.bind hi ((hp s hi hs).mono ?_)
    intro a s' hi' h
    exact hf a h.1 s' hi' h.2

/-- One operation that keeps the protocol and `I`. -/
theorem keeping_op {P : Protocol τ σ} {exec : τ → (o : O) → σ → R o → σ → Prop} {t : τ}
    {I : σ → Prop} (hI : P.Stable t I) {o : O} {Q : R o → Prop}
    (h : ∀ s, P.inv s → I s → ∀ r s', exec t o s r s' →
      P.inv s' ∧ P.grow s s' ∧ (∀ u, u ≠ t → P.rely u s s') ∧ Q r ∧ I s') :
    (keeping P exec t hI).Holds (.op o .ret) Q := by
  intro s _ hs s₁ hr hi₁ r s₂ he
  obtain ⟨hi₂, hg, ho, hq, hs₂⟩ := h s₁ hi₁ (hI _ _ hr hi₁ hs) r s₂ he
  exact ⟨hi₂, hg, ho, fun s₃ hr₃ hi₃ => ⟨hq, hI _ _ hr₃ hi₃ hs₂⟩⟩

/-! ## What a thread has of its own -/

section Owns

variable {η : Type}

/-- From every state in which the thread has `x` of its own, the program is safe and ends with
`Q` of its result and of what the thread has then. -/
def Owns (P : Protocol τ σ) (exec : τ → (o : O) → σ → R o → σ → Prop) (t : τ) (own : σ → η)
    (x : η) (p : Prog R α) (Q : α → η → Prop) : Prop :=
  ∀ s, P.inv s → own s = x → Safe P exec t (fun a s' => Q a (own s')) p s

variable {P : Protocol τ σ} {exec : τ → (o : O) → σ → R o → σ → Prop} {t : τ} {own : σ → η}
variable {x : η} {p : Prog R α} {Q : α → η → Prop}

theorem Owns.pure (hown : ∀ s s', P.rely t s s' → own s' = own s) {a : α} (h : Q a x) :
    Owns P exec t own x (pure a : Prog R α) Q := by
  intro s _ hs s' hr _
  rw [hown s s' hr, hs]
  exact h

theorem Owns.bind {f : α → Prog R β} {T : β → η → Prop} (hp : Owns P exec t own x p Q)
    (hf : ∀ a y, Q a y → Owns P exec t own y (f a) T) : Owns P exec t own x (p >>= f) T := by
  intro s hi hs
  refine Safe.bind hi ((hp s hi hs).mono ?_)
  intro a s' hi' hq
  exact hf a _ hq s' hi' rfl

theorem Owns.op (hown : ∀ s s', P.rely t s s' → own s' = own s) {o : O} {Q : R o → η → Prop}
    (h : ∀ s, P.inv s → own s = x → ∀ r s', exec t o s r s' →
      P.inv s' ∧ P.grow s s' ∧ (∀ u, u ≠ t → P.rely u s s') ∧ Q r (own s')) :
    Owns P exec t own x (.op o .ret) Q := by
  intro s _ hs s₁ hr hi₁ r s₂ he
  obtain ⟨hi₂, hg, ho, hq⟩ := h s₁ hi₁ ((hown _ _ hr).trans hs) r s₂ he
  refine ⟨hi₂, hg, ho, fun s₃ hr₃ _ => ?_⟩
  show Q r (own s₃)
  rw [hown _ _ hr₃]
  exact hq

end Owns

/-! ## Alone -/

/-- A run of two programs in sequence is a run of each. -/
theorem Alone.of_bind {exec : (o : O) → σ → R o → σ → Prop} {p : Prog R α} {f : α → Prog R β}
    {s s' : σ} {b : β} (h : Alone exec (p >>= f) s b s') :
    ∃ a s₁, Alone exec p s a s₁ ∧ Alone exec (f a) s₁ b s' := by
  induction p generalizing s with
  | ret a => exact ⟨a, s, ⟨rfl, rfl⟩, h⟩
  | op o k ih =>
      obtain ⟨r, s₁, he, hrest⟩ := h
      obtain ⟨a, s₂, hp, hf⟩ := ih r hrest
      exact ⟨a, s₂, ⟨r, s₁, he, hp⟩, hf⟩

end Lib
