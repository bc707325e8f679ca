import Timeline.Rule.Store

/-! # Commands to a rule store

A session keeps a rule store and the files around it. Each command changes the store, or fails
and leaves it as it was; only saving changes files.
-/

namespace Timeline

structure RuleSession where
  store : RuleStore
  files : Workspace

inductive RuleCommand where
  | add (r : Rule)
  | remove (name : Value)
  | update (name : Value) (changes : Fields)
  | set (rules : List Rule)
  | reset
  | importText (text : Value)
  | save (path : Option String)
  | load (path : Option String)

inductive RuleAnswer where
  /-- It is done. -/
  | done
  /-- Whether there was a rule to remove. -/
  | removed (found : Bool)
  /-- The rule with its changes, if there is one. -/
  | updated (rule : Option Rule)
  /-- The rules that have been imported. -/
  | imported (rules : List Rule)

namespace RuleSession

/-- The session with the store that an operation brings. A failure leaves the session as it is. -/
def moved {α : Type} (s : RuleSession) (x : Journaled α) (next : α → RuleStore × RuleAnswer) :
    RuleSession × Journaled RuleAnswer :=
  match x.outcome with
  | .ok a => ({ s with store := (next a).1 }, ⟨.ok (next a).2, x.journal⟩)
  | .error f => (s, ⟨.error f, x.journal⟩)

def step (settings : Settings) (s : RuleSession) : RuleCommand → RuleSession × Journaled RuleAnswer
  | .add r => s.moved (pure (s.store.add r)) (·, .done)
  | .remove name =>
    s.moved (pure (s.store.remove name)) (·, .removed (s.store.has name))
  | .update name changes =>
    s.moved (.ofExcept (s.store.update name changes)) fun (store, rule) => (store, .updated rule)
  | .set rules => s.moved (.ofExcept (s.store.setRules rules)) (·, .done)
  | .reset => s.moved (pure s.store.reset) (·, .done)
  | .importText text =>
    s.moved (s.store.importText text) fun store => (store, .imported store.rules)
  | .save path =>
    let (files, saved) := s.store.save s.files settings path
    { s with files := files }.moved (.ofExcept saved) (·, .done)
  | .load path => s.moved (RuleStore.load s.files settings path) (·, .done)

def run (settings : Settings) (s : RuleSession) :
    List RuleCommand → RuleSession × List (Except Failure RuleAnswer)
  | [] => (s, [])
  | c :: rest =>
    let (next, answer) := s.step settings c
    let (last, outcomes) := run settings next rest
    (last, answer.outcome :: outcomes)

end RuleSession

end Timeline
