import ZipFs.Lib.Trace

/-!
# Which call came first

A history lists answered calls, the latest first, and says of each the state that it
started and finished in. The order in which calls were answered is that of the list. The
order that callers know of is another one: a call came after another if it was made when
the other had been answered. Then it started in a state that the other's finish has led
to, which is what lets a fact established by one call be used in the other.
-/

namespace Lib

variable {τ σ κ ρ : Type} {O : Type} {R : O → Type} [DecidableEq τ] {S : System τ σ κ ρ R}

/-- What a thread runs after what one of them runs has changed. -/
theorem running_update {run : τ → Option (Running σ κ ρ R)} {t u : τ}
    {x : Option (Running σ κ ρ R)} {r : Running σ κ ρ R}
    (h : Function.update run t x u = some r) : u = t ∧ x = some r ∨ u ≠ t ∧ run u = some r := by
  by_cases hut : u = t
  · subst hut
    rw [Function.update_self] at h
    exact .inl ⟨rfl, h⟩
  · rw [Function.update_of_ne hut] at h
    exact .inr ⟨hut, h⟩

/-- The call was made and answered on the way from `c` to `c'`: since `c` its thread has answered
another call, or it had none to answer. -/
def CalledBetween (c c' : Config τ σ κ ρ R) (e : Event τ σ κ ρ) : Prop :=
  ∃ newer older, c'.history = newer ++ e :: (older ++ c.history) ∧
    (c.running e.thread = none ∨ ∃ e₁ ∈ older, e₁.thread = e.thread)

omit [DecidableEq τ] in
theorem CalledBetween.mem {c c' : Config τ σ κ ρ R} {e : Event τ σ κ ρ}
    (h : CalledBetween c c' e) : e ∈ c'.history := by
  obtain ⟨newer, older, hhist, -⟩ := h
  rw [hhist]
  exact List.mem_append_right _ List.mem_cons_self

omit [DecidableEq τ] in
/-- The first call that is answered after `c`, by a thread that was idle. -/
theorem CalledBetween.first {c : Config τ σ κ ρ R} {e : Event τ σ κ ρ} {s : σ}
    {run : τ → Option (Running σ κ ρ R)} (hidle : c.running e.thread = none) :
    CalledBetween c ⟨s, run, e :: c.history⟩ e :=
  ⟨[], [], rfl, .inl hidle⟩

/-- A call that arrived on the way from `c` to `c'`. -/
def ArrivedBetween (S : System τ σ κ ρ R) (c c' : Config τ σ κ ρ R) (t : τ) (call : κ)
    (start : σ) : Prop :=
  ∃ c₁, Steps S c c₁ ∧ Steps S c₁ c' ∧ start = S.arrive t call c₁.world

theorem ArrivedBetween.step {c c₁ c₂ : Config τ σ κ ρ R} {t : τ} {call : κ} {start : σ}
    (h : ArrivedBetween S c c₁ t call start) (hs : Step S c₁ c₂) :
    ArrivedBetween S c c₂ t call start := by
  obtain ⟨d, hto, hfrom, rfl⟩ := h
  exact ⟨d, hto, hfrom.tail hs, rfl⟩

/-- What has happened since `c`. -/
structure SinceThen (S : System τ σ κ ρ R) (c c' : Config τ σ κ ρ R)
    (new : List (Event τ σ κ ρ)) : Prop where
  history : c'.history = new ++ c.history
  /-- A thread that was idle, or has answered a call since, runs a call that arrived since. -/
  running : ∀ t r, (c.running t = none ∨ ∃ e ∈ new, e.thread = t) → c'.running t = some r →
    ArrivedBetween S c c' t r.call r.start
  answered : ∀ newer e older, new = newer ++ e :: older →
    (c.running e.thread = none ∨ ∃ e₁ ∈ older, e₁.thread = e.thread) →
    ArrivedBetween S c c' e.thread e.call e.start

theorem SinceThen.refl (c : Config τ σ κ ρ R) : SinceThen S c c [] where
  history := rfl
  running t r h hr := by
    rcases h with h | ⟨e, he, -⟩
    · exact absurd (hr.symm.trans h) (by simp)
    · exact absurd he (by simp)
  answered newer e older h := absurd h (by simp)

/-- A step that answers no call. -/
theorem SinceThen.quiet {c c₁ c₂ : Config τ σ κ ρ R} {new : List (Event τ σ κ ρ)}
    (h : SinceThen S c c₁ new) (hs : Step S c₁ c₂) (hhist : c₂.history = c₁.history)
    (hrun : ∀ t r, c₂.running t = some r →
      (∃ r₁, c₁.running t = some r₁ ∧ r.call = r₁.call ∧ r.start = r₁.start) ∨
        r.start = S.arrive t r.call c₁.world)
    (hsteps : Steps S c c₁) : SinceThen S c c₂ new where
  history := hhist.trans h.history
  running t r hidle hr := by
    rcases hrun t r hr with ⟨r₁, hr₁, hcall, hstart⟩ | hstart
    · rw [hcall, hstart]
      exact (h.running t r₁ hidle hr₁).step hs
    · exact ⟨c₁, hsteps, .single hs, hstart⟩
  answered newer e older hnew hidle := (h.answered newer e older hnew hidle).step hs

/-- A step that answers a call. -/
theorem SinceThen.answer {c c₁ c₂ : Config τ σ κ ρ R} {new : List (Event τ σ κ ρ)}
    (h : SinceThen S c c₁ new) (hs : Step S c₁ c₂) {e : Event τ σ κ ρ} {p : Prog R ρ}
    (hhist : c₂.history = e :: c₁.history)
    (hwas : c₁.running e.thread = some ⟨e.call, e.start, p⟩)
    (hrun : c₂.running = Function.update c₁.running e.thread none) :
    SinceThen S c c₂ (e :: new) where
  history := by rw [hhist, h.history, List.cons_append]
  running t r hidle hr := by
    rw [hrun] at hr
    rcases running_update hr with ⟨-, hr⟩ | ⟨ht, hr⟩
    · exact absurd hr (by simp)
    · refine (h.running t r ?_ hr).step hs
      rcases hidle with hidle | ⟨e₁, he₁, ht₁⟩
      · exact .inl hidle
      · rcases List.mem_cons.mp he₁ with rfl | he₁
        · exact absurd ht₁.symm ht
        · exact .inr ⟨e₁, he₁, ht₁⟩
  answered newer e' older hnew hidle := by
    cases newer with
    | nil =>
        obtain ⟨rfl, rfl⟩ := List.cons.inj hnew
        exact (h.running e.thread _ hidle hwas).step hs
    | cons e₁ newer =>
        exact (h.answered newer e' older (List.cons.inj hnew).2 hidle).step hs

theorem Steps.sinceThen {c c' : Config τ σ κ ρ R} (h : Steps S c c') :
    ∃ new, SinceThen S c c' new := by
  induction h with
  | refl => exact ⟨[], .refl c⟩
  | @tail c₁ c₂ hsteps hstep ih =>
      obtain ⟨new, hnew⟩ := ih
      cases hstep with
      | call t k hidle =>
          refine ⟨new, hnew.quiet (.call t k hidle) rfl ?_ hsteps⟩
          intro u r hu
          rcases running_update hu with ⟨rfl, hx⟩ | ⟨-, hu⟩
          · obtain rfl := Option.some.inj hx
            exact .inr rfl
          · exact .inl ⟨r, hu, rfl, rfl⟩
      | op t hsome hexec =>
          refine ⟨new, hnew.quiet (.op t hsome hexec) rfl ?_ hsteps⟩
          intro u r hu
          rcases running_update hu with ⟨rfl, hx⟩ | ⟨-, hu⟩
          · obtain rfl := Option.some.inj hx
            exact .inl ⟨_, hsome, rfl, rfl⟩
          · exact .inl ⟨r, hu, rfl, rfl⟩
      | ret t hsome => exact ⟨_, hnew.answer (.ret t hsome) rfl hsome rfl⟩
      | env henv =>
          exact ⟨new, hnew.quiet (.env henv) rfl (fun u r hu => .inl ⟨r, hu, rfl, rfl⟩) hsteps⟩

/-- **A call made after `c` starts where `c` has led to.** -/
theorem CalledBetween.arrived {c c' : Config τ σ κ ρ R} {e : Event τ σ κ ρ} (hs : Steps S c c')
    (h : CalledBetween c c' e) : ArrivedBetween S c c' e.thread e.call e.start := by
  obtain ⟨new, hnew⟩ := hs.sinceThen
  obtain ⟨newer, older, hhist, hidle⟩ := h
  refine hnew.answered newer e older ?_ hidle
  have heq := hnew.history.symm.trans hhist
  rw [← List.cons_append, ← List.append_assoc] at heq
  exact List.append_cancel_right heq

section Protocol

variable {P : Protocol τ σ} {Q : τ → κ → σ → ρ → σ → Prop} {w : σ} {c c' : Config τ σ κ ρ R}

/-- What lasts and held in `c` holds where a call made after `c` starts. -/
theorem CalledBetween.grow (hs : Respects S P Q) (hw : P.inv w) (h : Reachable S w c)
    (hsteps : Steps S c c') {e : Event τ σ κ ρ} (he : CalledBetween c c' e) :
    P.grow c.world e.start := by
  obtain ⟨c₁, hto, -, hstart⟩ := he.arrived hsteps
  rw [hstart]
  refine P.grow_trans _ _ _ (h.grow hs hw hto) ?_
  exact (hs.arrive e.thread e.call _ (sound hs hw (h.steps hto)).inv).2.1

/-- A thread takes a call when it has answered the one before. -/
theorem thread_order (hs : Respects S P Q) (hw : P.inv w) (h : Reachable S w c) :
    (∀ t r, c.running t = some r → ∀ e ∈ c.history, e.thread = t → P.grow e.finish r.start) ∧
      c.history.Pairwise fun later earlier =>
        earlier.thread = later.thread → P.grow earlier.finish later.start := by
  induction h with
  | init => exact ⟨fun t r hr => absurd hr (by simp [initial]), .nil⟩
  | step hreach hstep ih =>
      obtain ⟨hrun, hpair⟩ := ih
      have hg := sound hs hw hreach
      cases hstep with
      | call t k hidle =>
          refine ⟨?_, hpair⟩
          intro u r hu e he hthread
          rcases running_update hu with ⟨rfl, hx⟩ | ⟨-, hu⟩
          · obtain rfl := Option.some.inj hx
            exact P.grow_trans _ _ _ (hg.past e he) (hs.arrive u k _ hg.inv).2.1
          · exact hrun u r hu e he hthread
      | op t hsome hexec =>
          refine ⟨?_, hpair⟩
          intro u r hu e he hthread
          rcases running_update hu with ⟨rfl, hx⟩ | ⟨-, hu⟩
          · obtain rfl := Option.some.inj hx
            exact hrun u _ hsome e he hthread
          · exact hrun u r hu e he hthread
      | ret t hsome =>
          refine ⟨?_, .cons (fun e he hthread => hrun t _ hsome e he hthread) hpair⟩
          intro u r hu e he hthread
          rcases running_update hu with ⟨-, hx⟩ | ⟨hut, hu⟩
          · exact absurd hx (by simp)
          · rcases List.mem_cons.mp he with rfl | he
            · exact absurd hthread.symm hut
            · exact hrun u r hu e he hthread
      | env henv => exact ⟨hrun, hpair⟩

end Protocol

/-- What is left of a call does only what the call's program does. -/
theorem running_always {A : κ → O → Prop} {T : κ → ρ → Prop}
    (hA : ∀ k, (S.prog k).Always (A k) (T k)) {w : σ} {c : Config τ σ κ ρ R}
    (h : Reachable S w c) : ∀ t r, c.running t = some r → r.rest.Always (A r.call) (T r.call) := by
  induction h with
  | init => exact fun t r hr => absurd hr (by simp [initial])
  | step hreach hstep ih =>
      intro u r hu
      cases hstep with
      | call t k hidle =>
          rcases running_update hu with ⟨rfl, hx⟩ | ⟨-, hu⟩
          · obtain rfl := Option.some.inj hx
            exact hA k
          · exact ih u r hu
      | op t hsome hexec =>
          rcases running_update hu with ⟨rfl, hx⟩ | ⟨-, hu⟩
          · obtain rfl := Option.some.inj hx
            exact (ih u _ hsome).2 _
          · exact ih u r hu
      | ret t hsome =>
          rcases running_update hu with ⟨-, hx⟩ | ⟨-, hu⟩
          · exact absurd hx (by simp)
          · exact ih u r hu
      | env henv => exact ih u r hu

/-- What a program always replies, every call of it was answered with. -/
theorem history_always {A : κ → O → Prop} {T : κ → ρ → Prop}
    (hA : ∀ k, (S.prog k).Always (A k) (T k)) {w : σ} {c : Config τ σ κ ρ R}
    (h : Reachable S w c) : ∀ e ∈ c.history, T e.call e.reply := by
  induction h with
  | init => exact fun e he => absurd he (by simp [initial])
  | step hreach hstep ih =>
      cases hstep with
      | call t k hidle => exact ih
      | op t hsome hexec => exact ih
      | ret t hsome =>
          intro e he
          rcases List.mem_cons.mp he with rfl | he
          · exact running_always hA hreach t _ hsome
          · exact ih e he
      | env henv => exact ih

end Lib
