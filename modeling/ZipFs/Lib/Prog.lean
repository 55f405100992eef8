import Mathlib.Init

/-!
# Programs over atomic operations

A program is what one thread runs: it either returns, or performs one atomic
operation on what the threads share and goes on with the answer. What an
operation does to the shared state is not said here. That is left to whoever
interprets the program, so the same program can be run alone, run among other
threads, or have its operations replaced by smaller programs (`handle`).
-/

namespace Lib

/-- A program over the operations `O`, where `R o` is the type of answers to `o`. -/
inductive Prog {O : Type} (R : O → Type) (α : Type) : Type where
  | ret (a : α)
  | op (o : O) (k : R o → Prog R α)

namespace Prog

variable {O O' : Type} {R : O → Type} {R' : O' → Type} {α β γ : Type}

def bind : Prog R α → (α → Prog R β) → Prog R β
  | .ret a, f => f a
  | .op o k, f => .op o fun r => (k r).bind f

instance : Monad (Prog R) where
  pure := .ret
  bind := Prog.bind

@[simp] theorem ret_bind (a : α) (f : α → Prog R β) : (Prog.ret a >>= f) = f a := rfl

@[simp] theorem op_bind (o : O) (k : R o → Prog R α) (f : α → Prog R β) :
    (Prog.op o k >>= f) = .op o fun r => k r >>= f := rfl

/-! ## The results a program can have -/

/-- `a` can be the result of the program when each operation is answered as `resp` allows. -/
def Runs (resp : (o : O) → R o → Prop) : Prog R α → α → Prop
  | .ret b, a => a = b
  | .op o k, a => ∃ r, resp o r ∧ (k r).Runs resp a

@[simp] theorem runs_pure {resp : (o : O) → R o → Prop} {a b : α} :
    (pure a : Prog R α).Runs resp b ↔ b = a := Iff.rfl

@[simp] theorem runs_ret {resp : (o : O) → R o → Prop} {a b : α} :
    (Prog.ret a : Prog R α).Runs resp b ↔ b = a := Iff.rfl

/-! ## Replacing the operations -/

/-- The program with every operation carried out by a program over other operations. -/
def handle (h : (o : O) → Prog R' (R o)) : Prog R α → Prog R' α
  | .ret a => .ret a
  | .op o k => h o >>= fun r => (k r).handle h

end Prog

end Lib
