import Timeline.Filter
import Timeline.Journal
import Timeline.Rule.Basic

/-! # The view

The entities that are shown: those of the selected files and the enabled rules that a filter
keeps, the most recent first. Entities that start together stay in their order.
-/

namespace Timeline

/-- What is shown, with what it was chosen by. -/
structure View where
  entities : List Entity
  rules : List Rule
  files : List Value
  filter : Filter

namespace View

def enabledNames (rules : List Rule) : Except Failure (List Value) :=
  let names := (rules.filter (·.isEnabled)).map (·.name)
  match names.findSome? (·.unhashable?) with
  | some kind => .error (.unhashable kind)
  | none => .ok names

/-- Whether an entity comes from a selected file; without a selection every one does. -/
def isSelected (files : List Value) (e : Entity) : Bool :=
  files.isEmpty || e.file.isIn files

/-- Whether an entity comes from a rule of a name, where its array has to be a key. -/
def isNamed (names : List Value) (e : Entity) : Except Failure Bool :=
  match e.array.unhashable? with
  | some kind => .error (.unhashable kind)
  | none => .ok (e.array.isIn names)

/-- Entities by their start, the latest first. -/
def latestFirst (entities : List Entity) : List Entity :=
  entities.mergeSort fun a b => b.start ≤ a.start

def select (entities : List Entity) (rules : List Rule) (files : List Value) (filter : Filter) :
    Except Failure (List Entity) := do
  let selected := entities.filter (isSelected files)
  let names ← enabledNames rules
  let named ← selected.filterM (isNamed names)
  return latestFirst (← filter.apply named)

def make (entities : List Entity) (rules : List Rule) (files : List Value) (filter : Filter) :
    Journaled View := do
  let kept ← select entities rules files filter
  Journaled.report [⟨.debug, .view, s!"transform kept {kept.length} entities"⟩]
  return ⟨kept, rules, files, filter⟩

end View

end Timeline
