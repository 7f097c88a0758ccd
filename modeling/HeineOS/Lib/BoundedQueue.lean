import Mathlib.Data.List.Basic

/-! A bounded queue that somebody else provides: what its users call, and what they may rely on. -/
namespace HeineOS.Lib

/-- Both ends of a queue of type `Q`. Whoever puts something in is told whether there was room for it. -/
structure BoundedQueue (Q α : Type) where
  queue : Nat → Q
  isClosed : Q → Bool
  tryEnqueue : Q → α → Bool × Q
  tryDequeue : Q → Option α × Q

namespace BoundedQueue
variable {Q α : Type}

/-- With both ends in use the queue is open and hands out in order what it has taken. It takes something exactly as
long as fewer than `capacity` wait. `Holds` says what waits, the oldest first. -/
structure Fifo (S : BoundedQueue Q α) (capacity : Nat) (Holds : Q → List α → Prop) : Prop where
  queue : Holds (S.queue capacity) []
  isOpen : ∀ {q xs}, Holds q xs → S.isClosed q = false
  enqueue : ∀ {q xs} x, Holds q xs → xs.length < capacity →
    (S.tryEnqueue q x).1 = true ∧ Holds (S.tryEnqueue q x).2 (xs ++ [x])
  full : ∀ {q xs} x, Holds q xs → capacity ≤ xs.length →
    (S.tryEnqueue q x).1 = false ∧ Holds (S.tryEnqueue q x).2 xs
  dequeue : ∀ {q x xs}, Holds q (x :: xs) → (S.tryDequeue q).1 = some x ∧ Holds (S.tryDequeue q).2 xs
  empty : ∀ {q}, Holds q [] → (S.tryDequeue q).1 = none ∧ Holds (S.tryDequeue q).2 []

private def push (q : Nat × List α) (x : α) : Bool × Nat × List α :=
  if q.2.length < q.1 then (true,q.1,q.2 ++ [x]) else (false,q)

/-- Such a queue: a list with its capacity. -/
def list : BoundedQueue (Nat × List α) α where
  queue capacity := (capacity,[])
  isClosed _ := false
  tryEnqueue := push
  tryDequeue
    | (capacity,[]) => (none,(capacity,[]))
    | (capacity,x :: xs) => (some x,(capacity,xs))

theorem fifo_list (capacity : Nat) : (@list α).Fifo capacity fun q xs => q = (capacity,xs) where
  queue := rfl
  isOpen _ := rfl
  enqueue {_ xs} x h hroom := by
    have hpush : push (capacity,xs) x = (true,capacity,xs ++ [x]) := if_pos hroom
    rw [h]
    exact ⟨congrArg Prod.fst hpush,congrArg Prod.snd hpush⟩
  full {_ xs} x h hfull := by
    have hpush : push (capacity,xs) x = (false,capacity,xs) := if_neg (Nat.not_lt.mpr hfull)
    rw [h]
    exact ⟨congrArg Prod.fst hpush,congrArg Prod.snd hpush⟩
  dequeue h := by
    rw [h]
    exact ⟨rfl,rfl⟩
  empty h := by
    rw [h]
    exact ⟨rfl,rfl⟩

end BoundedQueue

end HeineOS.Lib
