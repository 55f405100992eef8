import ZipFs.Lib.Logic

/-!
# One more protocol

What is proved of programs under a protocol need not be proved again when another one is
laid over it. A program keeps both if it keeps the first and its operations keep the
second. So a part of the state that most programs do not touch gets a protocol of its own,
and only the programs that do touch it are looked at once more.
-/

namespace Lib

variable {τ σ κ ρ : Type} {O : Type} {R : O → Type} {α : Type}

/-- Two protocols at once. -/
def Protocol.plus (P E : Protocol τ σ) : Protocol τ σ where
  inv s := P.inv s ∧ E.inv s
  rely t s s' := P.rely t s s' ∧ E.rely t s s'
  grow s s' := P.grow s s' ∧ E.grow s s'
  rely_refl t s := ⟨P.rely_refl t s, E.rely_refl t s⟩
  rely_trans t _ _ _ h h' := ⟨P.rely_trans t _ _ _ h.1 h'.1, E.rely_trans t _ _ _ h.2 h'.2⟩
  grow_refl s := ⟨P.grow_refl s, E.grow_refl s⟩
  grow_trans _ _ _ h h' := ⟨P.grow_trans _ _ _ h.1 h'.1, E.grow_trans _ _ _ h.2 h'.2⟩
  grow_of_rely t _ _ h := ⟨P.grow_of_rely t _ _ h.1, E.grow_of_rely t _ _ h.2⟩

/-- A step of thread `t` that keeps a protocol. -/
def Protocol.Kept (E : Protocol τ σ) (t : τ) (s s' : σ) : Prop :=
  E.inv s → E.inv s' ∧ E.grow s s' ∧ ∀ u, u ≠ t → E.rely u s s'

variable {P E : Protocol τ σ} {exec : τ → (o : O) → σ → R o → σ → Prop} {t : τ}

/-- A step that keeps both. -/
theorem Protocol.Kept.plus {s s' : σ} (hE : E.Kept t s s') (hP : P.Kept t s s') :
    (P.plus E).Kept t s s' := by
  rintro ⟨hi, hj⟩
  obtain ⟨hi', hg, ho⟩ := hP hi
  obtain ⟨hj', hg', ho'⟩ := hE hj
  exact ⟨⟨hi', hj'⟩, ⟨hg, hg'⟩, fun u hu => ⟨ho u hu, ho' u hu⟩⟩

/-- **The frame rule**: operations that keep what was added do not spoil what is known. -/
theorem Safe.plus {A : O → Prop} {p : Prog R α} {Q : α → σ → Prop} {T : α → Prop} {s : σ}
    (h : Safe P exec t Q p s) (ha : p.Always A T)
    (hA : ∀ o s r s', A o → exec t o s r s' → E.Kept t s s') :
    Safe (P.plus E) exec t Q p s := by
  induction p generalizing s with
  | ret a => exact fun s' hr hi => h s' hr.1 hi.1
  | op o k ih =>
      intro s₁ hr hi r s₂ he
      obtain ⟨hi₂, hg, ho, hs⟩ := h s₁ hr.1 hi.1 r s₂ he
      obtain ⟨hE, hgrow, hother⟩ := hA o s₁ r s₂ ha.1 he hi.2
      exact ⟨⟨hi₂, hE⟩, ⟨hg, hgrow⟩, fun u hu => ⟨ho u hu, hother u hu⟩, ih r hs (ha.2 r)⟩

/-- The frame rule, for a program whose result says nothing about the state. -/
theorem Meets.plus {A : O → Prop} {p : Prog R α} {I : σ → Prop} {Q T : α → Prop}
    (h : Meets P exec I p Q) (ha : p.Always A T)
    (hA : ∀ t o s r s', A o → exec t o s r s' → E.Kept t s s') :
    Meets (P.plus E) exec I p Q :=
  fun t s hi hI => (h t s hi.1 hI).plus ha (hA t)

/-- A system respects both protocols if its calls do. -/
theorem Respects.plus [DecidableEq τ] {S : System τ σ κ ρ R} {Q T : τ → κ → σ → ρ → σ → Prop}
    (h : Respects S P Q) (harrive : ∀ t c s, E.Kept t s (S.arrive t c s))
    (henv : ∀ s s', S.env s s' → E.inv s → E.inv s' ∧ E.grow s s' ∧ ∀ u, E.rely u s s')
    (hcalls : ∀ t c s, (P.plus E).inv s →
      Safe (P.plus E) S.exec t (T t c (S.arrive t c s)) (S.prog c) (S.arrive t c s)) :
    Respects S (P.plus E) T where
  arrive t c s hi := (harrive t c s).plus (h.arrive t c s) hi
  env s s' he hi := by
    obtain ⟨hi', hg, ho⟩ := h.env s s' he hi.1
    obtain ⟨hE, hgrow, hother⟩ := henv s s' he hi.2
    exact ⟨⟨hi', hE⟩, ⟨hg, hgrow⟩, fun u => ⟨ho u, hother u⟩⟩
  calls := hcalls

/-- Any judgement accepts a program that performs only operations that it accepts. -/
theorem Prog.Always.accepts {L : Logic R} {A : O → Prop} {p : Prog R α} {T : α → Prop}
    (h : p.Always A T) (hA : ∀ o, A o → L.Accepts (.op o .ret)) : L.Holds p T := by
  induction p with
  | ret a => exact L.pure h
  | op o k ih => exact Logic.seq (hA o h.1) fun r => ih r (h.2 r)

end Lib
