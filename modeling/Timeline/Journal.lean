import Timeline.Failure

/-! # The journal

What an operation reports while it works. The journal survives a failure: it holds what was
reported before.
-/

namespace Timeline

inductive Level where
  | debug
  | info
  | warning
  | error
deriving DecidableEq, Repr

inductive Reporter where
  | extraction
  | view
  | rules
  | workbench
deriving DecidableEq, Repr

structure Entry where
  level : Level
  reporter : Reporter
  message : String
deriving DecidableEq, Repr

/-- The outcome of an operation and what it reported. -/
structure Journaled (α : Type) where
  outcome : Except Failure α
  journal : List Entry

namespace Journaled

def ofExcept {α : Type} (outcome : Except Failure α) : Journaled α :=
  ⟨outcome, []⟩

def report (entries : List Entry) : Journaled Unit :=
  ⟨.ok (), entries⟩

/-- Goes on with a result; after a failure nothing more is done. -/
def andThen {α β : Type} (x : Journaled α) (f : α → Journaled β) : Journaled β :=
  match x.outcome with
  | .error e => ⟨.error e, x.journal⟩
  | .ok a => ⟨(f a).outcome, x.journal ++ (f a).journal⟩

instance : Monad Journaled where
  pure a := ⟨.ok a, []⟩
  bind := andThen

instance : MonadLift (Except Failure) Journaled where
  monadLift := ofExcept

theorem outcome_bind {α β : Type} (x : Journaled α) (f : α → Journaled β) :
    (x >>= f).outcome = x.outcome >>= fun a => (f a).outcome := by
  cases h : x.outcome <;> simp [bind, andThen, h, Except.bind]

end Journaled

end Timeline
