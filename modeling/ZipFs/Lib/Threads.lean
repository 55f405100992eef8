import ZipFs.Lib.Prog
import Mathlib.Logic.Function.Basic
import Mathlib.Logic.Relation

/-!
# Threads that share a state

Any number of threads serve calls. A call is a program, and the programs of
different threads interleave operation by operation, with an environment that
may change the shared state between any two operations. A configuration also
keeps the history of finished calls: each with the state it started in, the
state it finished in and its reply, so that "every reply is right" is a statement
about histories.

The proof rule is rely/guarantee. A `Protocol` fixes an invariant of the shared
state and what each thread may assume of everybody else's steps (`rely`). A
program is `Safe` when, from a given state and under any interference that the
rely allows, each of its operations keeps the invariant, looks to every other
thread like something that thread relies on, and its result meets the
postcondition. `Safe` composes along `>>=`, so each function of a program gets
one specification; `sound` turns the specifications of the calls into a
statement about every reachable configuration.
-/

namespace Lib

open Prog

/-- What the threads run and what their operations do. -/
structure System (τ σ κ ρ : Type) {O : Type} (R : O → Type) where
  /-- Thread `t` performs `o` in a state, is answered, and leaves a state. -/
  exec : τ → (o : O) → σ → R o → σ → Prop
  /-- What happens without any thread. -/
  env : σ → σ → Prop
  /-- What the arrival of a call changes before its first operation. -/
  arrive : τ → κ → σ → σ
  /-- The program that serves a call. -/
  prog : κ → Prog R ρ

/-- The runs of the system in which every operation and its answer meet the condition. -/
def System.only {τ σ κ ρ O : Type} {R : O → Type} (S : System τ σ κ ρ R)
    (C : τ → (o : O) → σ → R o → Prop) : System τ σ κ ρ R :=
  { S with exec := fun t o s r s' => S.exec t o s r s' ∧ C t o s r }

/-- A call being served. -/
structure Running (σ κ ρ : Type) {O : Type} (R : O → Type) where
  call : κ
  /-- The state the call started in. -/
  start : σ
  /-- What is left of its program. -/
  rest : Prog R ρ

/-- A call that has been answered. -/
structure Event (τ σ κ ρ : Type) where
  thread : τ
  call : κ
  start : σ
  finish : σ
  reply : ρ

/-- All threads at one moment. -/
structure Config (τ σ κ ρ : Type) {O : Type} (R : O → Type) where
  world : σ
  running : τ → Option (Running σ κ ρ R)
  history : List (Event τ σ κ ρ)

/-- What a thread may assume, and what all of them keep. -/
structure Protocol (τ σ : Type) where
  inv : σ → Prop
  /-- What the others may do between two operations of a thread. -/
  rely : τ → σ → σ → Prop
  /-- How the state develops over anybody's steps, the thread's own included. -/
  grow : σ → σ → Prop
  rely_refl : ∀ t s, rely t s s
  rely_trans : ∀ t s₁ s₂ s₃, rely t s₁ s₂ → rely t s₂ s₃ → rely t s₁ s₃
  grow_refl : ∀ s, grow s s
  grow_trans : ∀ s₁ s₂ s₃, grow s₁ s₂ → grow s₂ s₃ → grow s₁ s₃
  grow_of_rely : ∀ t s s', rely t s s' → grow s s'

/-- A property of the state that lasts once it holds. -/
def Protocol.Lasting {τ σ : Type} (P : Protocol τ σ) (I : σ → Prop) : Prop :=
  ∀ s s', P.grow s s' → I s → I s'

variable {τ σ κ ρ : Type} {O : Type} {R : O → Type} {α β : Type}

/-! ## One thread among others -/

/--
The program keeps the protocol from this state on, whatever the others do
between its operations, and ends with `Q`.
-/
def Safe (P : Protocol τ σ) (exec : τ → (o : O) → σ → R o → σ → Prop) (t : τ)
    (Q : α → σ → Prop) : Prog R α → σ → Prop
  | .ret a, s => ∀ s', P.rely t s s' → P.inv s' → Q a s'
  | .op o k, s => ∀ s₁, P.rely t s s₁ → P.inv s₁ → ∀ r s₂, exec t o s₁ r s₂ →
      P.inv s₂ ∧ P.grow s₁ s₂ ∧ (∀ u, u ≠ t → P.rely u s₁ s₂) ∧ Safe P exec t Q (k r) s₂

section Safe

variable {P : Protocol τ σ} {exec : τ → (o : O) → σ → R o → σ → Prop} {t : τ}
variable {Q : α → σ → Prop} {s s' : σ}

/-- Interference does not spoil a safe program. -/
theorem Safe.stable {p : Prog R α} (h : Safe P exec t Q p s) (hr : P.rely t s s') :
    Safe P exec t Q p s' := by
  cases p with
  | ret a => exact fun s₁ h₁ => h s₁ (P.rely_trans t _ _ _ hr h₁)
  | op o k => exact fun s₁ h₁ => h s₁ (P.rely_trans t _ _ _ hr h₁)

/-- The postcondition may be weakened in the states that keep the invariant. -/
theorem Safe.mono {p : Prog R α} {Q' : α → σ → Prop} (h : Safe P exec t Q p s)
    (hq : ∀ a s', P.inv s' → Q a s' → Q' a s') : Safe P exec t Q' p s := by
  induction p generalizing s with
  | ret a => exact fun s₁ h₁ hi => hq a s₁ hi (h s₁ h₁ hi)
  | op o k ih =>
      intro s₁ h₁ hi r s₂ he
      obtain ⟨hi₂, hg, ho, hs⟩ := h s₁ h₁ hi r s₂ he
      exact ⟨hi₂, hg, ho, ih r hs⟩

/-- What lasts still holds at the end. -/
theorem Safe.lasting {p : Prog R α} {I : σ → Prop} (h : Safe P exec t Q p s)
    (hl : P.Lasting I) (hI : I s) : Safe P exec t (fun a s' => Q a s' ∧ I s') p s := by
  induction p generalizing s with
  | ret a => exact fun s₁ h₁ hi => ⟨h s₁ h₁ hi, hl _ _ (P.grow_of_rely t _ _ h₁) hI⟩
  | op o k ih =>
      intro s₁ h₁ hi r s₂ he
      obtain ⟨hi₂, hg, ho, hs⟩ := h s₁ h₁ hi r s₂ he
      exact ⟨hi₂, hg, ho, ih r hs (hl _ _ hg (hl _ _ (P.grow_of_rely t _ _ h₁) hI))⟩

/-- What is proved of a program in two ways. -/
theorem Safe.and {p : Prog R α} {Q' : α → σ → Prop} (h : Safe P exec t Q p s)
    (h' : Safe P exec t Q' p s) : Safe P exec t (fun a s' => Q a s' ∧ Q' a s') p s := by
  induction p generalizing s with
  | ret a => exact fun s₁ h₁ hi => ⟨h s₁ h₁ hi, h' s₁ h₁ hi⟩
  | op o k ih =>
      intro s₁ h₁ hi r s₂ he
      obtain ⟨hi₂, hg, ho, hs⟩ := h s₁ h₁ hi r s₂ he
      exact ⟨hi₂, hg, ho, ih r hs (h' s₁ h₁ hi r s₂ he).2.2.2⟩

/-- What is safe among operations is safe among fewer of them. -/
theorem Safe.restrict {exec' : τ → (o : O) → σ → R o → σ → Prop}
    (he : ∀ o s r s', exec' t o s r s' → exec t o s r s') {p : Prog R α}
    (h : Safe P exec t Q p s) : Safe P exec' t Q p s := by
  induction p generalizing s with
  | ret a => exact h
  | op o k ih =>
      intro s₁ h₁ hi r s₂ hx
      obtain ⟨hi₂, hg, ho, hs⟩ := h s₁ h₁ hi r s₂ (he o s₁ r s₂ hx)
      exact ⟨hi₂, hg, ho, ih r hs⟩

/-- A program that returns at once. -/
theorem Safe.ret {a : α} (h : ∀ s', P.rely t s s' → P.inv s' → Q a s') :
    Safe P exec t Q (pure a : Prog R α) s := h

/-- **Sequencing**: the second program is safe wherever the first may end. -/
theorem Safe.bind {p : Prog R α} {f : α → Prog R β} {Q' : β → σ → Prop} (hi : P.inv s)
    (h : Safe P exec t (fun a s' => Safe P exec t Q' (f a) s') p s) :
    Safe P exec t Q' (p >>= f) s := by
  induction p generalizing s with
  | ret a => exact h s (P.rely_refl t s) hi
  | op o k ih =>
      intro s₁ h₁ hi₁ r s₂ he
      obtain ⟨hi₂, hg, ho, hs⟩ := h s₁ h₁ hi₁ r s₂ he
      exact ⟨hi₂, hg, ho, ih r hi₂ hs⟩

end Safe

/-! ## Programs whose result says nothing about the state -/

/-- From every state that keeps the invariant and has `I`, the program is safe and its result
has `Q`. -/
def Meets (P : Protocol τ σ) (exec : τ → (o : O) → σ → R o → σ → Prop) (I : σ → Prop)
    (p : Prog R α) (Q : α → Prop) : Prop :=
  ∀ t s, P.inv s → I s → Safe P exec t (fun a _ => Q a) p s

section Meets

variable {P : Protocol τ σ} {exec : τ → (o : O) → σ → R o → σ → Prop} {I : σ → Prop}
variable {Q : α → Prop}

theorem Meets.pure {a : α} (h : Q a) : Meets P exec I (pure a : Prog R α) Q :=
  fun _ _ _ _ _ _ _ => h

theorem Meets.mono {p : Prog R α} {Q' : α → Prop} (h : Meets P exec I p Q)
    (hq : ∀ a, Q a → Q' a) : Meets P exec I p Q' :=
  fun t s hi hI => (h t s hi hI).mono fun a _ _ => hq a

/-- What is met from any state is met from the states that have `I`. -/
theorem Meets.anywhere {p : Prog R α} (h : Meets P exec (fun _ => True) p Q) :
    Meets P exec I p Q :=
  fun t s hi _ => h t s hi trivial

theorem Meets.bind {p : Prog R α} {f : α → Prog R β} {T : β → Prop} (hl : P.Lasting I)
    (hp : Meets P exec I p Q) (hf : ∀ a, Q a → Meets P exec I (f a) T) :
    Meets P exec I (p >>= f) T := by
  intro t s hi hI
  refine Safe.bind hi (((hp t s hi hI).lasting hl hI).mono ?_)
  intro a s' hi' ⟨hq, hI'⟩
  exact hf a hq t s' hi' hI'

theorem lasting_true : P.Lasting fun _ => True := fun _ _ _ _ => trivial

/-- A program whose operations are carried out by programs that keep to `resp` has only the
results that `resp` gives it. -/
theorem Meets.handle {O' : Type} {R' : O' → Type} {h : (o : O') → Prog R (R' o)}
    {resp : (o : O') → R' o → Prop} (hl : P.Lasting I)
    (hh : ∀ o, Meets P exec I (h o) (resp o)) (p : Prog R' α) :
    Meets P exec I (p.handle h) (p.Runs resp) := by
  induction p with
  | ret a => exact Meets.pure rfl
  | op o k ih =>
      refine Meets.bind hl (hh o) ?_
      intro r hr
      exact (ih r).mono fun a ha => ⟨r, hr, ha⟩

end Meets

/-! ## Programs whose result says something that lasts -/

/-- From every state that keeps the invariant and has `I`, the program is safe and ends with `Q`. -/
def Leaves (P : Protocol τ σ) (exec : τ → (o : O) → σ → R o → σ → Prop) (I : σ → Prop)
    (p : Prog R α) (Q : α → σ → Prop) : Prop :=
  ∀ t s, P.inv s → I s → Safe P exec t Q p s

section Leaves

variable {P : Protocol τ σ} {exec : τ → (o : O) → σ → R o → σ → Prop} {I : σ → Prop}
variable {Q : α → σ → Prop}

theorem Leaves.pure {a : α} (hl : P.Lasting I) (h : ∀ s, I s → Q a s) :
    Leaves P exec I (pure a : Prog R α) Q :=
  fun t _ _ hI s' hr _ => h s' (hl _ _ (P.grow_of_rely t _ _ hr) hI)

theorem Leaves.mono {p : Prog R α} {Q' : α → σ → Prop} (h : Leaves P exec I p Q)
    (hq : ∀ a s, P.inv s → Q a s → Q' a s) : Leaves P exec I p Q' :=
  fun t s hi hI => (h t s hi hI).mono hq

theorem Leaves.bind {p : Prog R α} {f : α → Prog R β} {T : β → σ → Prop} (hl : P.Lasting I)
    (hp : Leaves P exec I p Q) (hf : ∀ a, Leaves P exec (fun s => I s ∧ Q a s) (f a) T) :
    Leaves P exec I (p >>= f) T := by
  intro t s hi hI
  refine Safe.bind hi (((hp t s hi hI).lasting hl hI).mono ?_)
  intro a s' hi' h
  exact hf a t s' hi' ⟨h.2, h.1⟩

/-- What is known of the result alone, and what lasts meanwhile. -/
theorem Meets.leaves {p : Prog R α} {Q : α → Prop} (hl : P.Lasting I) (h : Meets P exec I p Q) :
    Leaves P exec I p fun a s => I s ∧ Q a := by
  intro t s hi hI
  refine ((h t s hi hI).lasting hl hI).mono ?_
  exact fun a s' _ h => ⟨h.2, h.1⟩

theorem Protocol.Lasting.and {I J : σ → Prop} (hI : P.Lasting I) (hJ : P.Lasting J) :
    P.Lasting fun s => I s ∧ J s :=
  fun s s' hg h => ⟨hI s s' hg h.1, hJ s s' hg h.2⟩

end Leaves

/-! ## A thread left alone -/

/-- The program can run from `s` to `s'` without interference and return `a`. -/
def Alone (exec : (o : O) → σ → R o → σ → Prop) : Prog R α → σ → α → σ → Prop
  | .ret b, s, a, s' => a = b ∧ s' = s
  | .op o k, s, a, s' => ∃ r s₁, exec o s r s₁ ∧ Alone exec (k r) s₁ a s'

theorem Alone.op {exec : (o : O) → σ → R o → σ → Prop} {o : O} {s s' : σ} {r : R o}
    (h : exec o s r s') : Alone exec (.op o .ret) s r s' := ⟨r, s', h, rfl, rfl⟩

theorem Alone.bind {exec : (o : O) → σ → R o → σ → Prop} {p : Prog R α} {f : α → Prog R β}
    {s s₁ s' : σ} {a : α} {b : β} (hp : Alone exec p s a s₁) (hf : Alone exec (f a) s₁ b s') :
    Alone exec (p >>= f) s b s' := by
  induction p generalizing s with
  | ret c =>
      obtain ⟨rfl, rfl⟩ := hp
      exact hf
  | op o k ih =>
      obtain ⟨r, s₂, he, hrest⟩ := hp
      exact ⟨r, s₂, he, ih r hrest⟩

/-- What is safe among others is safe alone. -/
theorem Safe.alone {exec : τ → (o : O) → σ → R o → σ → Prop} {t : τ} {p : Prog R α}
    {Q : α → σ → Prop} {s s' : σ} {a : α} (h : Safe P exec t Q p s) (hi : P.inv s)
    (ha : Alone (exec t) p s a s') : Q a s' ∧ P.inv s' := by
  induction p generalizing s with
  | ret b =>
      obtain ⟨rfl, rfl⟩ := ha
      exact ⟨h _ (P.rely_refl t _) hi, hi⟩
  | op o k ih =>
      obtain ⟨r, s₁, he, hrest⟩ := ha
      obtain ⟨hi₁, -, -, hs⟩ := h s (P.rely_refl t s) hi r s₁ he
      exact ih r hs hi₁ hrest

/-! ### What a program left alone can do -/

/-- Left alone in any state that has `I`, the program can come to an end in such a state, with a
result that has `Q`. -/
def Can (exec : (o : O) → σ → R o → σ → Prop) (I : σ → Prop) (p : Prog R α) (Q : α → Prop) :
    Prop :=
  ∀ s, I s → ∃ a s', Alone exec p s a s' ∧ I s' ∧ Q a

section Can

variable {exec : (o : O) → σ → R o → σ → Prop} {I : σ → Prop} {Q : α → Prop}

theorem Can.pure {a : α} (h : Q a) : Can exec I (pure a : Prog R α) Q :=
  fun s hs => ⟨a, s, ⟨rfl, rfl⟩, hs, h⟩

theorem Can.bind {p : Prog R α} {f : α → Prog R β} {T : β → Prop} (hp : Can exec I p Q)
    (hf : ∀ a, Q a → Can exec I (f a) T) : Can exec I (p >>= f) T := by
  intro s hs
  obtain ⟨a, s₁, hrun, hs₁, hq⟩ := hp s hs
  obtain ⟨b, s₂, hrun', hs₂, ht⟩ := hf a hq s₁ hs₁
  exact ⟨b, s₂, hrun.bind hrun', hs₂, ht⟩

theorem Can.op {o : O} {Q : R o → Prop} (h : ∀ s, I s → ∃ r s', exec o s r s' ∧ I s' ∧ Q r) :
    Can exec I (.op o .ret) Q := by
  intro s hs
  obtain ⟨r, s', he, hs', hq⟩ := h s hs
  exact ⟨r, s', .op he, hs', hq⟩

/-- What a program can do and what it always does come together. -/
theorem Can.meets {exec : τ → (o : O) → σ → R o → σ → Prop} {P : Protocol τ σ} {t : τ}
    {I J : σ → Prop} {p : Prog R α} {T : α → Prop}
    (h : Can (exec t) (fun s => P.inv s ∧ I s) p Q) (hm : Meets P exec J p T)
    (hj : ∀ s, P.inv s → I s → J s) :
    Can (exec t) (fun s => P.inv s ∧ I s) p fun a => Q a ∧ T a := by
  intro s hs
  obtain ⟨a, s', hrun, hs', hq⟩ := h s hs
  exact ⟨a, s', hrun, hs', hq, ((hm t s hs.1 (hj s hs.1 hs.2)).alone hs.1 hrun).1⟩

end Can

/-- Running a program alone with a fixed choice of answers. -/
def run (respond : (o : O) → σ → Option (R o × σ)) : Prog R α → σ → Option (α × σ)
  | .ret a, s => some (a, s)
  | .op o k, s =>
      match respond o s with
      | some (r, s') => run respond (k r) s'
      | none => none

/-- A computed run is a run. -/
theorem alone_of_run {exec : (o : O) → σ → R o → σ → Prop}
    {respond : (o : O) → σ → Option (R o × σ)}
    (hr : ∀ o s r s', respond o s = some (r, s') → exec o s r s') {p : Prog R α} {s s' : σ}
    {a : α} (h : run respond p s = some (a, s')) : Alone exec p s a s' := by
  induction p generalizing s with
  | ret b =>
      simp only [run, Option.some.injEq, Prod.mk.injEq] at h
      exact ⟨h.1.symm, h.2.symm⟩
  | op o k ih =>
      unfold run at h
      split at h
      · rename_i r s₁ ho
        exact ⟨r, s₁, hr o s r s₁ ho, ih r h⟩
      · exact absurd h (by simp)

theorem run_op (respond : (o : O) → σ → Option (R o × σ)) (o : O) (s : σ) :
    run respond (.op o .ret) s = respond o s := by
  simp only [run]
  split
  · rename_i h
    exact h.symm
  · rename_i h
    exact h.symm

theorem run_bind (respond : (o : O) → σ → Option (R o × σ)) (p : Prog R α) (f : α → Prog R β)
    (s : σ) :
    run respond (p >>= f) s = (run respond p s).bind fun x => run respond (f x.1) x.2 := by
  induction p generalizing s with
  | ret a => rfl
  | op o k ih =>
      rw [Prog.op_bind]
      simp only [run]
      cases respond o s with
      | none => rfl
      | some x => exact ih x.1 x.2

/-- The first part of a program is done. -/
theorem run_seq {respond : (o : O) → σ → Option (R o × σ)} {p : Prog R α} {f : α → Prog R β}
    {s s' : σ} {a : α} (h : run respond p s = some (a, s')) :
    run respond (p >>= f) s = run respond (f a) s' := by
  rw [run_bind, h, Option.bind_some]
/-- Run alone from any state in `I`, the program returns `a` and leaves a state in `J`. -/
def Gives (respond : (o : O) → σ → Option (R o × σ)) (I : σ → Prop) (p : Prog R α) (a : α)
    (J : σ → Prop) : Prop :=
  ∀ s, I s → ∃ s', run respond p s = some (a, s') ∧ J s'

namespace Gives

variable {respond : (o : O) → σ → Option (R o × σ)} {I J L : σ → Prop} {p : Prog R α} {a : α}

theorem pure (h : ∀ s, I s → J s) : Gives respond I (pure a : Prog R α) a J :=
  fun s hs => ⟨s, rfl, h s hs⟩

theorem seq {f : α → Prog R β} {b : β} (hp : Gives respond I p a J)
    (hf : Gives respond J (f a) b L) : Gives respond I (p >>= f) b L := by
  intro s hs
  obtain ⟨s₁, hrun, hs₁⟩ := hp s hs
  obtain ⟨s₂, hrest, hs₂⟩ := hf s₁ hs₁
  exact ⟨s₂, (run_seq hrun).trans hrest, hs₂⟩

theorem op (o : O) {r : R o} (h : ∀ s, I s → ∃ s', respond o s = some (r, s') ∧ J s') :
    Gives respond I (.op o .ret) r J := by
  intro s hs
  obtain ⟨s', hr, hs'⟩ := h s hs
  exact ⟨s', (run_op respond o s).trans hr, hs'⟩

end Gives

/-! ## All threads -/

section Run

variable [DecidableEq τ] (S : System τ σ κ ρ R)

/-- One step of the whole system. -/
inductive Step : Config τ σ κ ρ R → Config τ σ κ ρ R → Prop where
  /-- A call arrives at an idle thread. -/
  | call {w run h} (t : τ) (c : κ) : run t = none →
      Step ⟨w, run, h⟩
        ⟨S.arrive t c w, Function.update run t (some ⟨c, S.arrive t c w, S.prog c⟩), h⟩
  /-- A thread performs one operation. -/
  | op {w w' run h} (t : τ) {c s o} {k : R o → Prog R ρ} {r : R o} :
      run t = some ⟨c, s, .op o k⟩ → S.exec t o w r w' →
      Step ⟨w, run, h⟩ ⟨w', Function.update run t (some ⟨c, s, k r⟩), h⟩
  /-- A thread answers its call. -/
  | ret {w run h} (t : τ) {c s a} : run t = some ⟨c, s, .ret a⟩ →
      Step ⟨w, run, h⟩ ⟨w, Function.update run t none, ⟨t, c, s, w, a⟩ :: h⟩
  /-- The environment acts. -/
  | env {w w' run h} : S.env w w' → Step ⟨w, run, h⟩ ⟨w', run, h⟩

/-- All threads idle, nothing answered yet. -/
def initial (w : σ) : Config τ σ κ ρ R := ⟨w, fun _ => none, []⟩

/-- The configurations a run from `w` can reach. -/
inductive Reachable (w : σ) : Config τ σ κ ρ R → Prop where
  | init : Reachable w (initial w)
  | step {c c'} : Reachable w c → Step S c c' → Reachable w c'

variable (P : Protocol τ σ) (Q : τ → κ → σ → ρ → σ → Prop)

/-- What `sound` keeps: the invariant, safety of what still runs, and `Q` of what was answered. -/
structure Good (c : Config τ σ κ ρ R) : Prop where
  inv : P.inv c.world
  running : ∀ t r, c.running t = some r → Safe P S.exec t (Q t r.call r.start) r.rest c.world
  history : ∀ e ∈ c.history, Q e.thread e.call e.start e.reply e.finish
  /-- The state has only grown since a call was answered. -/
  past : ∀ e ∈ c.history, P.grow e.finish c.world

variable {S P Q}

/-- What a call, an operation and the environment must each respect. -/
structure Respects (S : System τ σ κ ρ R) (P : Protocol τ σ)
    (Q : τ → κ → σ → ρ → σ → Prop) : Prop where
  arrive : ∀ t c s, P.inv s →
    P.inv (S.arrive t c s) ∧ P.grow s (S.arrive t c s) ∧ ∀ u, u ≠ t → P.rely u s (S.arrive t c s)
  env : ∀ s s', S.env s s' → P.inv s → P.inv s' ∧ P.grow s s' ∧ ∀ u, P.rely u s s'
  calls : ∀ t c s, P.inv s →
    Safe P S.exec t (Q t c (S.arrive t c s)) (S.prog c) (S.arrive t c s)

/-- Threads other than the one that moved stay safe. -/
theorem Good.others {c : Config τ σ κ ρ R} (hg : Good S P Q c) {t : τ} {w' : σ}
    (hr : ∀ u, u ≠ t → P.rely u c.world w') {x : Option (Running σ κ ρ R)}
    (hx : ∀ r, x = some r → Safe P S.exec t (Q t r.call r.start) r.rest w') :
    ∀ u r, Function.update c.running t x u = some r →
      Safe P S.exec u (Q u r.call r.start) r.rest w' := by
  intro u r hu
  by_cases h : u = t
  · subst h
    rw [Function.update_self] at hu
    exact hx r hu
  · rw [Function.update_of_ne h] at hu
    exact (hg.running u r hu).stable (hr u h)

/-- What a step of the whole system leaves grows. -/
theorem Good.grow {c c' : Config τ σ κ ρ R} (hs : Respects S P Q) (hg : Good S P Q c)
    (h : Step S c c') : P.grow c.world c'.world := by
  cases h with
  | call t k hidle => exact (hs.arrive t k _ hg.inv).2.1
  | op t hrun he => exact (hg.running t _ hrun _ (P.rely_refl t _) hg.inv _ _ he).2.1
  | ret t hrun => exact P.grow_refl _
  | env henv => exact (hs.env _ _ henv hg.inv).2.1

/-- One step keeps `Good`. -/
theorem Good.step {c c' : Config τ σ κ ρ R} (hs : Respects S P Q) (hg : Good S P Q c)
    (h : Step S c c') : Good S P Q c' := by
  cases h with
  | call t k hidle =>
      obtain ⟨hi, hgrow, hr⟩ := hs.arrive t k _ hg.inv
      refine ⟨hi, hg.others hr ?_, hg.history, fun e he => P.grow_trans _ _ _ (hg.past e he) hgrow⟩
      intro r hx
      obtain rfl := Option.some.inj hx
      exact hs.calls t k _ hg.inv
  | op t hrun he =>
      obtain ⟨hi, hgrow, hr, hsafe⟩ := hg.running t _ hrun _ (P.rely_refl t _) hg.inv _ _ he
      refine ⟨hi, hg.others hr ?_, hg.history, fun e he => P.grow_trans _ _ _ (hg.past e he) hgrow⟩
      intro r hx
      obtain rfl := Option.some.inj hx
      exact hsafe
  | ret t hrun =>
      have hq := hg.running t _ hrun _ (P.rely_refl t _) hg.inv
      refine ⟨hg.inv, hg.others (fun u _ => P.rely_refl u _) (by simp), ?_, ?_⟩
      · intro e he
        rcases List.mem_cons.mp he with rfl | he
        · exact hq
        · exact hg.history e he
      · intro e he
        rcases List.mem_cons.mp he with rfl | he
        · exact P.grow_refl _
        · exact hg.past e he
  | env henv =>
      obtain ⟨hi, hgrow, hr⟩ := hs.env _ _ henv hg.inv
      exact ⟨hi, fun u r hu => (hg.running u r hu).stable (hr u), hg.history,
        fun e he => P.grow_trans _ _ _ (hg.past e he) hgrow⟩

/-- **Soundness**: in every reachable configuration the invariant holds and every reply so far
meets its specification. -/
theorem sound (hs : Respects S P Q) {w : σ} (hw : P.inv w) {c : Config τ σ κ ρ R}
    (h : Reachable S w c) : Good S P Q c := by
  induction h with
  | init =>
      refine ⟨hw, ?_, ?_, ?_⟩
      · intro t r hr
        exact absurd hr (by simp [initial])
      · intro e he
        exact absurd he (by simp [initial])
      · intro e he
        exact absurd he (by simp [initial])
  | step _ hstep ih => exact ih.step hs hstep

/-- What holds of a thread: of the state if it is idle, of where its call started if not. -/
def Rests (J : τ → σ → Prop) (w : σ) (t : τ) : Option (Running σ κ ρ R) → Prop
  | none => J t w
  | some r => J t r.start

theorem rests_update {J : τ → σ → Prop} {w : σ} {run : τ → Option (Running σ κ ρ R)} {t : τ}
    {x : Option (Running σ κ ρ R)} (ho : ∀ u, u ≠ t → Rests J w u (run u)) (hx : Rests J w t x)
    (u : τ) : Rests J w u (Function.update run t x u) := by
  by_cases hu : u = t
  · subst hu
    rw [Function.update_self]
    exact hx
  · rw [Function.update_of_ne hu]
    exact ho u hu

omit [DecidableEq τ] in
theorem Rests.rely {J : τ → σ → Prop} {w w' : σ} {t : τ} {x : Option (Running σ κ ρ R)}
    (h : Rests J w t x) (hJ : J t w → J t w') : Rests J w' t x := by
  cases x with
  | none => exact hJ h
  | some r => exact h

/-- What calls give back to their thread an idle thread has. -/
theorem sound_idle {J : τ → σ → Prop} (hs : Respects S P Q) {w : σ} (hw : P.inv w)
    (hstart : ∀ t, J t w) (hrely : ∀ t s s', P.rely t s s' → J t s → J t s')
    (harrive : ∀ t k s, J t s → J t (S.arrive t k s))
    (hcalls : ∀ t k s a s', Q t k s a s' → J t s → J t s') {c : Config τ σ κ ρ R}
    (h : Reachable S w c) : ∀ t, Rests J c.world t (c.running t) := by
  induction h with
  | init => exact hstart
  | step hreach hstep ih =>
      have hg := sound hs hw hreach
      cases hstep with
      | call t k hnone =>
          have hrest := ih t
          simp only [hnone] at hrest
          refine rests_update (fun u hu => (ih u).rely (hrely u _ _ ?_)) (harrive t k _ hrest)
          exact (hs.arrive t k _ hg.inv).2.2 u hu
      | op t hsome he =>
          have hrest := ih t
          simp only [hsome] at hrest
          have hsafe := hg.running t _ hsome _ (P.rely_refl t _) hg.inv _ _ he
          exact rests_update (fun u hu => (ih u).rely (hrely u _ _ (hsafe.2.2.1 u hu))) hrest
      | ret t hsome =>
          have hrest := ih t
          simp only [hsome] at hrest
          have hq := hg.running t _ hsome _ (P.rely_refl t _) hg.inv
          exact rests_update (fun u _ => ih u) (hcalls t _ _ _ _ hq hrest)
      | env henv =>
          exact fun u => (ih u).rely (hrely u _ _ ((hs.env _ _ henv hg.inv).2.2 u))

/-- Any number of steps of the whole system. -/
abbrev Steps (S : System τ σ κ ρ R) : Config τ σ κ ρ R → Config τ σ κ ρ R → Prop :=
  Relation.ReflTransGen (Step S)

theorem Reachable.steps {w : σ} {c c' : Config τ σ κ ρ R} (h : Reachable S w c)
    (hs : Steps S c c') : Reachable S w c' := by
  induction hs with
  | refl => exact h
  | tail _ hstep ih => exact ih.step hstep

/-- A run of a restricted system is a run. -/
theorem Reachable.of_only {C : τ → (o : O) → σ → R o → Prop} {w : σ} {c : Config τ σ κ ρ R}
    (h : Reachable (S.only C) w c) : Reachable S w c := by
  induction h with
  | init => exact .init
  | step _ hstep ih =>
      refine ih.step ?_
      cases hstep with
      | call t k hidle => exact .call t k hidle
      | op t hrun he => exact .op t hrun he.1
      | ret t hrun => exact .ret t hrun
      | env henv => exact .env henv

/-- Two systems that differ in what the operations do agree on the runs that end where they do
the same, if no step leads back there. -/
theorem Steps.within {S : System τ σ κ ρ R} {exec : τ → (o : O) → σ → R o → σ → Prop}
    {I : σ → Prop} (hexec : ∀ t o s r s', I s' → exec t o s r s' → S.exec t o s r s')
    (hback : ∀ c c', Step { S with exec := exec } c c' → I c'.world → I c.world)
    {c c' : Config τ σ κ ρ R} (h : Steps { S with exec := exec } c c') (hi : I c'.world) :
    Steps S c c' := by
  induction h with
  | refl => exact .refl
  | tail _ hstep ih =>
      refine (ih (hback _ _ hstep hi)).tail ?_
      cases hstep with
      | call t k hidle => exact .call t k hidle
      | op t hrun he => exact .op t hrun (hexec _ _ _ _ _ hi he)
      | ret t hrun => exact .ret t hrun
      | env henv => exact .env henv

theorem Reachable.from_init {S : System τ σ κ ρ R} {w : σ} {c : Config τ σ κ ρ R}
    (h : Reachable S w c) : Steps S (initial w) c := by
  induction h with
  | init => exact .refl
  | step _ hstep ih => exact ih.tail hstep

/-- A run all of whose operations are as they should be is one of the restricted system. -/
theorem Steps.only {C : τ → (o : O) → σ → R o → Prop} {w : σ}
    (hC : ∀ {c : Config τ σ κ ρ R}, Reachable S w c → ∀ {t k s o r s'} {f : R o → Prog R ρ},
      c.running t = some ⟨k, s, .op o f⟩ → S.exec t o c.world r s' → C t o c.world r)
    {c c' : Config τ σ κ ρ R} (hc : Reachable S w c) (h : Steps S c c') :
    Steps (S.only C) c c' := by
  induction h with
  | refl => exact .refl
  | tail hsteps hstep ih =>
      refine ih.tail ?_
      cases hstep with
      | call t k hidle => exact .call t k hidle
      | op t hrun he => exact .op t hrun ⟨he, hC (hc.steps hsteps) hrun he⟩
      | ret t hrun => exact .ret t hrun
      | env henv => exact .env henv

/-- An idle thread can take a call and answer it while nobody else moves. -/
theorem steps_alone {c : Config τ σ κ ρ R} {t : τ} (hidle : c.running t = none) (k : κ) {a : ρ}
    {s' : σ} (h : Alone (S.exec t) (S.prog k) (S.arrive t k c.world) a s') :
    ∃ run, Steps S c ⟨s', run, ⟨t, k, S.arrive t k c.world, s', a⟩ :: c.history⟩ ∧
      run t = none ∧ ∀ u, u ≠ t → run u = c.running u := by
  -- the run of the program is followed operation by operation, the call in place
  have key : ∀ (p : Prog R ρ) (s₁ : σ) (run : τ → Option (Running σ κ ρ R)),
      run t = some ⟨k, S.arrive t k c.world, p⟩ → (∀ u, u ≠ t → run u = c.running u) →
      Steps S c ⟨s₁, run, c.history⟩ → Alone (S.exec t) p s₁ a s' →
      ∃ run, Steps S c ⟨s', run, ⟨t, k, S.arrive t k c.world, s', a⟩ :: c.history⟩ ∧
        run t = none ∧ ∀ u, u ≠ t → run u = c.running u := by
    intro p
    induction p with
    | ret b =>
        intro s₁ run hrun ho hsteps ⟨ha, hs⟩
        subst ha hs
        refine ⟨_, hsteps.tail (.ret t hrun), Function.update_self .., ?_⟩
        intro u hu
        rw [Function.update_of_ne hu]
        exact ho u hu
    | op o f ih =>
        intro s₁ run hrun ho hsteps ⟨r, s₂, he, hrest⟩
        refine ih r s₂ _ (Function.update_self ..) ?_ (hsteps.tail (.op t hrun he)) hrest
        intro u hu
        rw [Function.update_of_ne hu]
        exact ho u hu
  refine key _ _ _ (Function.update_self ..) ?_ (.single (.call t k hidle)) h
  intro u hu
  exact Function.update_of_ne hu ..

theorem reachable_alone {w : σ} {c : Config τ σ κ ρ R} (hc : Reachable S w c) {t : τ}
    (hidle : c.running t = none) (k : κ) {a : ρ} {s' : σ}
    (h : Alone (S.exec t) (S.prog k) (S.arrive t k c.world) a s') :
    ∃ run, Reachable S w
      ⟨s', run, ⟨t, k, S.arrive t k c.world, s', a⟩ :: c.history⟩ ∧
      run t = none ∧ ∀ u, u ≠ t → run u = c.running u := by
  obtain ⟨run, hsteps, hrun⟩ := steps_alone hidle k h
  exact ⟨run, hc.steps hsteps, hrun⟩

/-- A thread serving one call after the other, alone and with a fixed choice of answers. -/
def runCalls (S : System τ σ κ ρ R) (respond : (o : O) → σ → Option (R o × σ)) (t : τ) :
    List κ → σ → Option (List ρ × σ)
  | [], s => some ([], s)
  | k :: ks, s =>
      match run respond (S.prog k) (S.arrive t k s) with
      | some (a, s') => (runCalls S respond t ks s').map fun x => (a :: x.1, x.2)
      | none => none

/-- The calls served that way are in the history of a reachable configuration. -/
theorem reachable_runCalls {w : σ} {respond : (o : O) → σ → Option (R o × σ)} {t : τ}
    (hr : ∀ o s r s', respond o s = some (r, s') → S.exec t o s r s') {ks : List κ} :
    ∀ {c : Config τ σ κ ρ R} {as : List ρ} {s' : σ}, Reachable S w c → c.running t = none →
      runCalls S respond t ks c.world = some (as, s') →
      ∃ c', Reachable S w c' ∧ c'.world = s' ∧ c'.running t = none ∧ c.history ⊆ c'.history ∧
        ∀ x ∈ ks.zip as, ∃ e ∈ c'.history, e.call = x.1 ∧ e.reply = x.2 := by
  induction ks with
  | nil =>
      intro c as s' hc hidle h
      obtain ⟨-, rfl⟩ := Prod.mk.inj (Option.some.inj h)
      exact ⟨c, hc, rfl, hidle, fun _ he => he, by simp⟩
  | cons k ks ih =>
      intro c as s' hc hidle h
      unfold runCalls at h
      split at h
      · rename_i a s₁ hrun
        obtain ⟨⟨as', s₂⟩, hrest, heq⟩ := Option.map_eq_some_iff.mp h
        obtain ⟨rfl, rfl⟩ := Prod.mk.inj heq
        obtain ⟨run', hreach, hidle', -⟩ :=
          reachable_alone hc hidle k (alone_of_run (fun o s r s' => hr o s r s') hrun)
        obtain ⟨c', hreach', hworld, hend, hsub, hall⟩ := ih hreach hidle' hrest
        refine ⟨c', hreach', hworld, hend, fun e he => hsub (List.mem_cons_of_mem _ he), ?_⟩
        intro x hx
        rw [List.zip_cons_cons] at hx
        rcases List.mem_cons.mp hx with rfl | hx
        · exact ⟨_, hsub List.mem_cons_self, rfl, rfl⟩
        · exact hall x hx
      · exact absurd h (by simp)

/-! ### Computed runs -/

/-- A move of one thread, or of the environment. -/
inductive Move (τ κ ι : Type) where
  | call (t : τ) (k : κ)
  /-- So many operations, answered as the choice says. -/
  | ops (t : τ) (n : Nat) (choice : ι)
  | ret (t : τ)
  | env

/-- The first operations of a program, alone and with a fixed choice of answers. -/
def runOps (respond : (o : O) → σ → Option (R o × σ)) : Nat → Prog R α → σ →
    Option (Prog R α × σ)
  | 0, p, s => some (p, s)
  | _ + 1, .ret _, _ => none
  | n + 1, .op o k, s =>
      match respond o s with
      | some (r, s') => runOps respond n (k r) s'
      | none => none

/-- One move, if it is possible. -/
def Move.apply {ι : Type} (S : System τ σ κ ρ R)
    (respond : ι → τ → (o : O) → σ → Option (R o × σ)) (tick : σ → σ)
    (c : Config τ σ κ ρ R) : Move τ κ ι → Option (Config τ σ κ ρ R)
  | .call t k =>
      match c.running t with
      | none =>
          let s := S.arrive t k c.world
          some ⟨s, Function.update c.running t (some ⟨k, s, S.prog k⟩), c.history⟩
      | some _ => none
  | .ops t n choice =>
      match c.running t with
      | some ⟨k, s, p⟩ =>
          match runOps (respond choice t) n p c.world with
          | some (p', s') => some ⟨s', Function.update c.running t (some ⟨k, s, p'⟩), c.history⟩
          | none => none
      | none => none
  | .ret t =>
      match c.running t with
      | some ⟨k, s, .ret a⟩ =>
          some ⟨c.world, Function.update c.running t none, ⟨t, k, s, c.world, a⟩ :: c.history⟩
      | _ => none
  | .env => some { c with world := tick c.world }

def runMoves {ι : Type} (S : System τ σ κ ρ R)
    (respond : ι → τ → (o : O) → σ → Option (R o × σ)) (tick : σ → σ) :
    List (Move τ κ ι) → Config τ σ κ ρ R → Option (Config τ σ κ ρ R)
  | [], c => some c
  | m :: ms, c =>
      match m.apply S respond tick c with
      | some c' => runMoves S respond tick ms c'
      | none => none

theorem reachable_runOps {respond : (o : O) → σ → Option (R o × σ)} {t : τ}
    (hr : ∀ o s r s', respond o s = some (r, s') → S.exec t o s r s') {w : σ} {k : κ} {start : σ}
    {h : List (Event τ σ κ ρ)} {n : Nat} :
    ∀ {p p' : Prog R ρ} {s s' : σ} {running : τ → Option (Running σ κ ρ R)},
      Reachable S w ⟨s, running, h⟩ → running t = some ⟨k, start, p⟩ →
      runOps respond n p s = some (p', s') →
      Reachable S w ⟨s', Function.update running t (some ⟨k, start, p'⟩), h⟩ := by
  induction n with
  | zero =>
      intro p p' s s' running hc hrun hops
      obtain ⟨rfl, rfl⟩ := Prod.mk.inj (Option.some.inj hops)
      rw [← hrun, Function.update_eq_self]
      exact hc
  | succ n ih =>
      intro p p' s s' running hc hrun hops
      cases p with
      | ret a => exact absurd hops (by simp [runOps])
      | op o f =>
          unfold runOps at hops
          split at hops
          · rename_i r s₁ ho
            have hnext := ih (hc.step (.op t hrun (hr o s r s₁ ho))) (Function.update_self ..) hops
            rwa [Function.update_idem] at hnext
          · exact absurd hops (by simp)

/-- What moves lead to is reachable. -/
theorem reachable_runMoves {ι : Type} {respond : ι → τ → (o : O) → σ → Option (R o × σ)}
    {tick : σ → σ} (hr : ∀ i t o s r s', respond i t o s = some (r, s') → S.exec t o s r s')
    (ht : ∀ s, S.env s (tick s)) {w : σ} {ms : List (Move τ κ ι)} :
    ∀ {c c' : Config τ σ κ ρ R}, Reachable S w c → runMoves S respond tick ms c = some c' →
      Reachable S w c' := by
  induction ms with
  | nil =>
      intro c c' hc h
      obtain rfl := Option.some.inj h
      exact hc
  | cons m ms ih =>
      intro c c' hc h
      unfold runMoves at h
      split at h
      · rename_i c₁ hm
        refine ih ?_ h
        obtain ⟨s, running, history⟩ := c
        cases m with
        | call t k =>
            simp only [Move.apply] at hm
            split at hm
            · rename_i hidle
              obtain rfl := Option.some.inj hm
              exact hc.step (.call t k hidle)
            · exact absurd hm (by simp)
        | ops t n choice =>
            simp only [Move.apply] at hm
            split at hm
            · rename_i hrun
              split at hm
              · rename_i hops
                obtain rfl := Option.some.inj hm
                exact reachable_runOps (hr choice t) hc hrun hops
              · exact absurd hm (by simp)
            · exact absurd hm (by simp)
        | ret t =>
            simp only [Move.apply] at hm
            split at hm
            · rename_i hrun
              obtain rfl := Option.some.inj hm
              exact hc.step (.ret t hrun)
            · exact absurd hm (by simp)
        | env =>
            obtain rfl := Option.some.inj hm
            exact hc.step (.env (ht s))
      · exact absurd h (by simp)

end Run

end Lib
