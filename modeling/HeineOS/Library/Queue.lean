import Mathlib.Data.List.Basic

/-! The linked queue: a chain of nodes that is walked to its end on `enqueue` and spliced in the
middle by `remove`. Read as a list it is appended to, popped and erased from. -/
namespace HeineOS

/-- `Option<Box<Node<T>>>`: no node, or a node with its data and the link behind it. -/
inductive Link (α : Type) where
  | none
  | node (data : α) (next : Link α)
  deriving DecidableEq, Repr

namespace Link
variable {α : Type}

def toList : Link α → List α
  | .none => []
  | .node data next => data :: next.toList

/-- The loop of `enqueue`: find the last node and hang the new one behind it. -/
def enqueueLoop (newNode : Link α) : Link α → Link α
  | .none => newNode
  | .node data .none => .node data newNode
  | .node data next => .node data (enqueueLoop newNode next)

/-- The loop of `remove`. The node that is taken out is dropped with its data. -/
def removeLoop (f : α → Bool) : Link α → Option (α × Link α)
  | .none => Option.none
  | .node data next =>
    if f data then some (data,next) else (removeLoop f next).map fun r => (r.1,.node data r.2)

@[simp] theorem toList_none : (Link.none : Link α).toList = [] := rfl
@[simp] theorem toList_node (data : α) (next : Link α) :
    (Link.node data next).toList = data :: next.toList := rfl

theorem toList_enqueueLoop (data : α) (link : Link α) :
    (enqueueLoop (.node data .none) link).toList = link.toList ++ [data] := by
  fun_induction enqueueLoop (.node data .none) link with
  | case1 => rfl
  | case2 => rfl
  | case3 first next _ ih => rw [toList_node,ih]; rfl

/-- The loop stops at the first match, or at the end of a list without one. -/
theorem removeLoop_cases (f : α → Bool) (link : Link α) :
    (link.removeLoop f = Option.none ∧ ∀ a ∈ link.toList, f a = false) ∨
    ∃ pre a post link', link.removeLoop f = some (a,link') ∧ link.toList = pre ++ a :: post ∧
      link'.toList = pre ++ post ∧ f a = true ∧ ∀ b ∈ pre, f b = false := by
  induction link with
  | none => exact .inl ⟨rfl,by simp⟩
  | node data next ih =>
    by_cases hf : f data = true
    · exact .inr ⟨[],data,next.toList,next,by rw [removeLoop,if_pos hf],rfl,rfl,hf,by simp⟩
    have hff : f data = false := by simpa using hf
    rcases ih with ⟨he,hall⟩ | ⟨pre,a,post,link',he,hl,hl',hfa,hpre⟩
    · refine .inl ⟨by rw [removeLoop,if_neg hf,he]; rfl,?_⟩
      intro b hb
      rcases List.mem_cons.mp hb with rfl | hb
      · exact hff
      · exact hall b hb
    · refine .inr ⟨data :: pre,a,post,.node data link',by rw [removeLoop,if_neg hf,he]; rfl,?_,?_,hfa,?_⟩
      · rw [toList_node,hl]
        rfl
      · rw [toList_node,hl']
        rfl
      · intro b hb
        rcases List.mem_cons.mp hb with rfl | hb
        · exact hff
        · exact hpre b hb

end Link

structure LinkedQueue (α : Type) where
  head : Link α
  deriving DecidableEq, Repr

namespace LinkedQueue
variable {α : Type}

def new : LinkedQueue α := ⟨.none⟩

def toList (q : LinkedQueue α) : List α := q.head.toList

def enqueue (q : LinkedQueue α) (data : α) : LinkedQueue α :=
  match q.head with
  | .none => ⟨.node data .none⟩
  | .node first next => ⟨Link.enqueueLoop (.node data .none) (.node first next)⟩

def dequeue (q : LinkedQueue α) : Option α × LinkedQueue α :=
  match q.head with
  | .none => (none,⟨.none⟩)
  | .node data next => (some data,⟨next⟩)

/-- The removed data, which is dropped, and the queue; `remove` returns whether there is any. -/
def remove (q : LinkedQueue α) (f : α → Bool) : Option α × LinkedQueue α :=
  match q.head.removeLoop f with
  | none => (none,q)
  | some (data,head) => (some data,⟨head⟩)

@[simp] theorem toList_new : (new : LinkedQueue α).toList = [] := rfl

@[simp] theorem toList_enqueue (q : LinkedQueue α) (data : α) :
    (q.enqueue data).toList = q.toList ++ [data] := by
  obtain ⟨head⟩ := q
  cases head with
  | none => rfl
  | node first next => exact Link.toList_enqueueLoop data (.node first next)

/-- `dequeue` returns `None` on the empty queue and else takes the first element. -/
theorem dequeue_cases (q : LinkedQueue α) :
    (q.dequeue = (none,q) ∧ q.toList = []) ∨
    ∃ a q', q.dequeue = (some a,q') ∧ q.toList = a :: q'.toList := by
  obtain ⟨head⟩ := q
  cases head with
  | none => exact .inl ⟨rfl,rfl⟩
  | node data next => exact .inr ⟨data,⟨next⟩,rfl,rfl⟩

/-- `remove` leaves a queue without a match alone and else takes out the first match. -/
theorem remove_cases (q : LinkedQueue α) (f : α → Bool) :
    (q.remove f = (none,q) ∧ ∀ a ∈ q.toList, f a = false) ∨
    ∃ pre a post q', q.remove f = (some a,q') ∧ q.toList = pre ++ a :: post ∧
      q'.toList = pre ++ post ∧ f a = true ∧ ∀ b ∈ pre, f b = false := by
  rcases q.head.removeLoop_cases f with ⟨he,hall⟩ | ⟨pre,a,post,link',he,hl,hl',hfa,hpre⟩
  · exact .inl ⟨by rw [remove,he],hall⟩
  · exact .inr ⟨pre,a,post,⟨link'⟩,by rw [remove,he],hl,hl',hfa,hpre⟩

/-! ### Sequences of calls -/

inductive Call (α : Type) where
  | enqueue (data : α)
  | dequeue
  | remove (f : α → Bool)

inductive Result (α : Type) where
  | unit
  | dequeued (data : Option α)
  | removed (found : Bool)

def exec (q : LinkedQueue α) : Call α → Result α × LinkedQueue α
  | .enqueue data => (.unit,q.enqueue data)
  | .dequeue => (.dequeued q.dequeue.1,q.dequeue.2)
  | .remove f => (.removed (q.remove f).1.isSome,(q.remove f).2)

def run (q : LinkedQueue α) : List (Call α) → List (Result α) × LinkedQueue α
  | [] => ([],q)
  | call :: calls =>
    let (result,q) := q.exec call
    let (results,q) := q.run calls
    (result :: results,q)

/-- What a call does to a list: append, take the first element, or erase the first match. -/
def execList (l : List α) : Call α → Result α × List α
  | .enqueue data => (.unit,l ++ [data])
  | .dequeue => (.dequeued l.head?,l.tail)
  | .remove f => (.removed (l.any f),l.eraseP f)

def runList (l : List α) : List (Call α) → List (Result α) × List α
  | [] => ([],l)
  | call :: calls =>
    let (result,l) := execList l call
    let (results,l) := runList l calls
    (result :: results,l)

/-- The elements that go in, in the order of the calls. -/
def enqueued (calls : List (Call α)) : List α :=
  calls.filterMap fun
    | .enqueue data => some data
    | _ => none

/-- The elements that come out of `dequeue`, in this order. -/
def dequeued (results : List (Result α)) : List α :=
  results.filterMap fun
    | .dequeued data => data
    | _ => none

/-- The elements that `remove` takes out, starting with the elements of a list. -/
def dropped (l : List α) : List (Call α) → List α
  | [] => []
  | .remove f :: calls => (l.find? f).toList ++ dropped (l.eraseP f) calls
  | call :: calls => dropped (execList l call).2 calls

/-- One call does the same to the chain of nodes and to the list of its elements. -/
theorem exec_toList (q : LinkedQueue α) (call : Call α) :
    (q.exec call).1 = (execList q.toList call).1 ∧ (q.exec call).2.toList = (execList q.toList call).2 := by
  cases call with
  | enqueue data => exact ⟨rfl,q.toList_enqueue data⟩
  | dequeue =>
    rcases q.dequeue_cases with ⟨hd,hl⟩ | ⟨a,q',hd,hl⟩
    · simp only [exec, execList, hd, hl]
      exact ⟨rfl,rfl⟩
    · simp only [exec, execList, hd, hl]
      exact ⟨rfl,rfl⟩
  | remove f =>
    rcases q.remove_cases f with ⟨hr,hall⟩ | ⟨pre,a,post,q',hr,hl,hl',hfa,hpre⟩
    · have hnone : q.toList.any f = false := List.any_eq_false.mpr fun a ha => by simp [hall a ha]
      have hsame : q.toList.eraseP f = q.toList := List.eraseP_of_forall_not fun a ha => by simp [hall a ha]
      rw [exec,execList,hr,hnone,hsame]
      exact ⟨rfl,rfl⟩
    · have hsome : q.toList.any f = true := List.any_eq_true.mpr ⟨a,by simp [hl],hfa⟩
      have herase : q.toList.eraseP f = pre ++ post := by
        rw [hl,List.eraseP_append_right _ fun b hb => by simp [hpre b hb],List.eraseP_cons_of_pos hfa]
      rw [exec,execList,hr,hsome,herase]
      exact ⟨rfl,hl'⟩

theorem run_toList (q : LinkedQueue α) (calls : List (Call α)) :
    (q.run calls).1 = (runList q.toList calls).1 ∧ (q.run calls).2.toList = (runList q.toList calls).2 := by
  induction calls generalizing q with
  | nil => exact ⟨rfl,rfl⟩
  | cons call calls ih =>
    obtain ⟨hresult,hlist⟩ := q.exec_toList call
    obtain ⟨hresults,hfinal⟩ := ih (q.exec call).2
    rw [hlist] at hresults hfinal
    exact ⟨congrArg₂ List.cons hresult hresults,hfinal⟩

/-- What comes out and what stays is in the order in which it went in. -/
private theorem runList_sublist (l : List α) (calls : List (Call α)) :
    (dequeued (runList l calls).1 ++ (runList l calls).2).Sublist (l ++ enqueued calls) := by
  induction calls generalizing l with
  | nil => simp [runList, dequeued, enqueued]
  | cons call calls ih =>
    cases call with
    | enqueue data =>
      have hrest := ih (l ++ [data])
      rw [List.append_assoc] at hrest
      exact hrest
    | dequeue =>
      cases l with
      | nil => exact ih []
      | cons a l => exact (ih l).cons_cons a
    | remove f =>
      have herase : (l.eraseP f ++ enqueued calls).Sublist (l ++ enqueued calls) := List.eraseP_sublist.append_right _
      exact (ih (l.eraseP f)).trans herase

private theorem find_append_eraseP (f : α → Bool) (l : List α) : ((l.find? f).toList ++ l.eraseP f).Perm l := by
  induction l with
  | nil => exact .refl _
  | cons a l ih =>
    by_cases hf : f a = true
    · rw [List.find?_cons_of_pos hf,List.eraseP_cons_of_pos hf]
      exact .refl _
    · rw [List.find?_cons_of_neg hf,List.eraseP_cons_of_neg hf]
      exact List.perm_middle.trans (ih.cons a)

/-- What goes in comes out, is taken out or stays. -/
private theorem runList_perm (l : List α) (calls : List (Call α)) :
    (dropped l calls ++ (dequeued (runList l calls).1 ++ (runList l calls).2)).Perm (l ++ enqueued calls) := by
  induction calls generalizing l with
  | nil => simp [runList, dequeued, enqueued, dropped]
  | cons call calls ih =>
    cases call with
    | enqueue data =>
      have hrest := ih (l ++ [data])
      rw [List.append_assoc] at hrest
      exact hrest
    | dequeue =>
      cases l with
      | nil => exact ih []
      | cons a l => exact List.perm_middle.trans ((ih l).cons a)
    | remove f =>
      have hrest := (ih (l.eraseP f)).append_left (l.find? f).toList
      have hsplit := (find_append_eraseP f l).append_right (enqueued calls)
      rw [List.append_assoc] at hsplit
      rw [← List.append_assoc] at hrest
      exact hrest.trans hsplit

/-- Every sequence of calls on a chain of nodes gives the results that it gives on a list, and leaves its elements. The
elements that leave by `dequeue` and those that stay are in the order in which they went in, and with those that
`remove` took out they are all that went in. -/
theorem linked_queue_is_list (q : LinkedQueue α) (calls : List (Call α)) :
    (q.run calls).1 = (runList q.toList calls).1 ∧ (q.run calls).2.toList = (runList q.toList calls).2 ∧
      (dequeued (q.run calls).1 ++ (q.run calls).2.toList).Sublist (q.toList ++ enqueued calls) ∧
      (dropped q.toList calls ++ (dequeued (q.run calls).1 ++ (q.run calls).2.toList)).Perm
        (q.toList ++ enqueued calls) := by
  obtain ⟨hresults,hlist⟩ := q.run_toList calls
  rw [hresults,hlist]
  exact ⟨rfl,rfl,runList_sublist q.toList calls,runList_perm q.toList calls⟩

end LinkedQueue

end HeineOS
