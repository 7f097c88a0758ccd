/-! Programs as trees of operations, and protocols they follow.
A protocol says which operation a local state permits and which states may come next, so that
a program is checked once and for all against what any scheduler may do in between. -/
namespace HeineOS.Lib

/-- A program returns, performs an operation and continues with its result, or calls a named
procedure, which is how it loops. -/
inductive Program {Op : Type} (Res : Op → Type) (Proc : Type) (α : Type) where
  | pure (a : α)
  | op (i : Op) (k : Res i → Program Res Proc α)
  | call (p : Proc) (k : Program Res Proc α)

namespace Program
variable {Op : Type} {Res : Op → Type} {Proc α β γ : Type}

def bind : Program Res Proc α → (α → Program Res Proc β) → Program Res Proc β
  | .pure a, f => f a
  | .op i k, f => .op i fun r => (k r).bind f
  | .call p k, f => .call p (k.bind f)

instance : Monad (Program Res Proc) where
  pure := .pure
  bind := bind

/-- Perform one operation. -/
def perform (i : Op) : Program Res Proc (Res i) := .op i .pure

@[simp] theorem perform_bind (i : Op) (f : Res i → Program Res Proc β) :
    (perform i : Program Res Proc _) >>= f = .op i f := rfl

@[simp] theorem op_bind (i : Op) (k : Res i → Program Res Proc α) (f : α → Program Res Proc β) :
    (Program.op i k : Program Res Proc α) >>= f = .op i fun r => k r >>= f := rfl

theorem bind_assoc (x : Program Res Proc α) (f : α → Program Res Proc β) (g : β → Program Res Proc γ) :
    x >>= f >>= g = x >>= fun a => f a >>= g := by
  induction x with
  | pure a => rfl
  | op i k ih =>
    change Program.op i (fun r => k r >>= f >>= g) = Program.op i fun r => k r >>= fun a => f a >>= g
    congr 1
    funext r
    exact ih r
  | call p k ih => exact congrArg (Program.call p) ih

end Program

/-- The rules for local states `σ`: what is permitted, what may come next, and what a procedure
needs and leaves behind. -/
structure Protocol {Op : Type} (Res : Op → Type) (Proc σ : Type) where
  allowed : σ → Op → Prop
  next : σ → (i : Op) → Res i → σ → Prop
  pre : Proc → σ → Prop
  post : Proc → σ → σ → Prop

namespace Protocol
variable {Op : Type} {Res : Op → Type} {Proc σ α β : Type} {P : Protocol Res Proc σ}

/-- From the local state the program keeps to the protocol and ends as `Q` says. -/
def Follows (P : Protocol Res Proc σ) (Q : σ → α → Prop) : σ → Program Res Proc α → Prop
  | s, .pure a => Q s a
  | s, .op i k => P.allowed s i ∧ ∀ r s', P.next s i r s' → Follows P Q s' (k r)
  | s, .call p k => P.pre p s ∧ ∀ s', P.post p s s' → Follows P Q s' k

theorem Follows.mono {Q Q' : σ → α → Prop} (hQ : ∀ s a, Q s a → Q' s a) {s : σ}
    {x : Program Res Proc α} (h : P.Follows Q s x) : P.Follows Q' s x := by
  induction x generalizing s with
  | pure a => exact hQ s a h
  | op i k ih => exact ⟨h.1,fun r s' hn => ih r (h.2 r s' hn)⟩
  | call p k ih => exact ⟨h.1,fun s' hp => ih (h.2 s' hp)⟩

theorem Follows.bind {Q : σ → β → Prop} {s : σ} {x : Program Res Proc α} {f : α → Program Res Proc β}
    (h : P.Follows (fun s' a => P.Follows Q s' (f a)) s x) : P.Follows Q s (x >>= f) := by
  induction x generalizing s with
  | pure a => exact h
  | op i k ih => exact ⟨h.1,fun r s' hn => ih r (h.2 r s' hn)⟩
  | call p k ih => exact ⟨h.1,fun s' hp => ih (h.2 s' hp)⟩

/-- Every procedure body keeps to the protocol and what the procedure promises. -/
def Sound (P : Protocol Res Proc σ) (body : Proc → Program Res Proc Unit) : Prop :=
  ∀ p s, P.pre p s → P.Follows (fun s' _ => P.post p s s') s (body p)

/-- A call may be unfolded into the body of the procedure. -/
theorem Follows.unfold {body : Proc → Program Res Proc Unit} (hs : P.Sound body) {Q : σ → α → Prop}
    {s : σ} {p : Proc} {k : Program Res Proc α} (h : P.Follows Q s (.call p k)) :
    P.Follows Q s (body p >>= fun _ => k) :=
  Follows.bind ((hs p s h.1).mono fun s' _ hp => h.2 s' hp)

end Protocol

end HeineOS.Lib
