import ExtensionCompiler.Checker

set_option autoImplicit false

/-! # Outcomes of analysis

Analysis fills a node in and changes the state of the check. When it stops at an error, what it has
done to the node and to the state stays done, and can be seen by whoever goes on after the error. So
an `Outcome` holds both, with the error if there was one. `Outcome.andThen` goes on after a success
and rebuilds the node around what a failure left. -/

namespace ExtensionCompiler

/-- A node and a state as an analysis left them, and the error it stopped at. -/
structure Outcome (α : Type) where
  node : α
  checker : Checker
  error : Option Error

namespace Outcome

variable {α β : Type}

def ok (node : α) (checker : Checker) : Outcome α := ⟨node, checker, none⟩

def fail (error : Error) (node : α) (checker : Checker) : Outcome α := ⟨node, checker, some error⟩

/-- The same outcome for a node around this one. -/
def map (f : α → β) (o : Outcome α) : Outcome β := ⟨f o.node, o.checker, o.error⟩

/-- Goes on with `next` after a success. After a failure, `stopped` is the node around what was
left. -/
def andThen (o : Outcome α) (stopped : α → β) (next : α → Checker → Outcome β) : Outcome β :=
  match o.error with
  | some error => ⟨stopped o.node, o.checker, some error⟩
  | none => next o.node o.checker

/-- The outcome of a declaration: the checker with the entry, or the error and no change. `node`
is kept, and filled in with `done` after a success. -/
def ofDeclare (declared : Except Error Checker) (checker : Checker) (node : α) (done : α) :
    Outcome α :=
  match declared with
  | .ok checker' => ok done checker'
  | .error error => fail error node checker

@[simp] theorem map_ok (f : α → β) (node : α) (c : Checker) :
    (ok node c).map f = ok (f node) c := rfl

@[simp] theorem andThen_ok (node : α) (c : Checker) (stopped : α → β)
    (next : α → Checker → Outcome β) : (ok node c).andThen stopped next = next node c := rfl

@[simp] theorem andThen_fail (e : Error) (node : α) (c : Checker) (stopped : α → β)
    (next : α → Checker → Outcome β) :
    (fail e node c).andThen stopped next = fail e (stopped node) c := rfl

/-- A sequence succeeds iff both parts do. -/
theorem andThen_error_eq_none_iff (o : Outcome α) (stopped : α → β)
    (next : α → Checker → Outcome β) :
    (o.andThen stopped next).error = none ↔
      o.error = none ∧ (next o.node o.checker).error = none := by
  unfold andThen
  split <;> simp_all

end Outcome

end ExtensionCompiler
