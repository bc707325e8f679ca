import Timeline.Files.Document
import Timeline.Rule.Import

/-! # The rule store

An ordered set of rules with distinct names, and the path of the file it is kept in. Replacing a
rule leaves it in its place.
-/

namespace Timeline

/-- Rules with distinct names and the path of their file. -/
structure RuleStore where
  rules : List Rule
  path : Option String

namespace RuleStore

/-- A store of rules; of each name the last rule counts. -/
def make (rules : List Rule) (path : Option String) : Except Failure RuleStore := do
  return ⟨← Rule.distinct rules, path⟩

def get? (s : RuleStore) (name : Value) : Option Rule :=
  s.rules.find? fun r => r.name.same name

def enabled (s : RuleStore) : List Rule :=
  s.rules.filter (·.isEnabled)

def setRules (s : RuleStore) (rules : List Rule) : Except Failure RuleStore := do
  return { s with rules := ← Rule.distinct rules }

/-- The store with a rule in the place of the one of its name, or at the end. -/
def add (s : RuleStore) (r : Rule) : RuleStore :=
  { s with rules := r.put s.rules }

def remove (s : RuleStore) (name : Value) : RuleStore :=
  { s with rules := s.rules.filter fun r => !r.name.same name }

def has (s : RuleStore) (name : Value) : Bool :=
  s.rules.any fun r => r.name.same name

/-- Puts a rule in the place of the first one of a name. -/
def replaceFirst (name : Value) (r : Rule) : List Rule → List Rule
  | [] => []
  | s :: rest => if s.name.same name then r :: rest else s :: replaceFirst name r rest

/-- The store with changes to the rule of a name, and this rule. The name itself cannot change. -/
def update (s : RuleStore) (name : Value) (changes : Fields) :
    Except Failure (RuleStore × Option Rule) :=
  if Fields.has changes "name" then .error .repeatedName
  else
    match s.get? name with
    | none => .ok (s, none)
    | some r => do
      let changed ← r.change changes
      return ({ s with rules := replaceFirst name changed s.rules }, some changed)

def reset (s : RuleStore) : RuleStore :=
  { s with rules := Rule.defaults }

def toValue (s : RuleStore) : Value :=
  .list (s.rules.map fun r => .object r.toFields)

def exported (s : RuleStore) : Except Failure String :=
  Json.write Json.pretty s.toValue

def kept (s : RuleStore) : Value :=
  .object [("configurations", s.toValue)]

def importText (s : RuleStore) (text : Value) : Journaled RuleStore := do
  let rules ← Rule.parseValue text
  Journaled.report [⟨.info, .rules, s!"Imported {rules.length} configurations"⟩]
  return { s with rules := rules }

def preset (path : String) : RuleStore := ⟨Rule.defaults, some path⟩

/-- The first of some paths that is given and not empty, or else the one of the settings. -/
def choosePath (settings : Settings) (paths : List (Option String)) : String :=
  ((paths.filterMap id).find? (· ≠ "")).getD settings.rulesFile

def parseBytes (bytes : List UInt8) : Journaled (List Rule) :=
  match Utf8.decode bytes with
  | .error f => .ofExcept (.error (.notUtf8 f))
  | .ok cs => Rule.parse (String.ofList (Text.unifyLineEnds cs))

/-- The store of the file with some bytes; a rule set that cannot be imported is replaced by the
usual rules. -/
def ofBytes (path : String) (bytes : List UInt8) : Journaled RuleStore :=
  let found := parseBytes bytes
  match found.outcome with
  | .ok rules => ⟨.ok ⟨rules, some path⟩, found.journal⟩
  | .error (.rules f) =>
    ⟨.ok (preset path), found.journal ++
      [⟨.warning, .rules, s!"Could not load rules from {path}: {f.message}; using defaults"⟩]⟩
  | .error f => ⟨.error f, found.journal⟩

/-- The store of the file at a path, or of the usual rules if there is no such file. -/
def load (w : Workspace) (settings : Settings) (path : Option String) : Journaled RuleStore :=
  let path := choosePath settings [path]
  let place := FileName.plain path
  if path.toList.contains '\x00' then pure (preset path)
  else
    match w.node (if place = "" then "." else place) with
    | .ok (.file bytes) => ofBytes path bytes
    | .error .nameTooLong => .ofExcept (.error (.file place .nameTooLong))
    | _ => pure (preset path)

/-- Writes the rules to the file at a path, which becomes that of the store. The file is opened
before the rules are written out: a part that has no JSON form leaves it with what was written
before, and the store with its path. -/
def save (s : RuleStore) (w : Workspace) (settings : Settings) (path : Option String) :
    Workspace × Except Failure RuleStore :=
  let path := choosePath settings [path, s.path]
  if path.toList.contains '\x00' then (w, .error .nulInPath)
  else
    match w.writeText path (Json.writtenText Json.pretty s.kept) with
    | .error f => (w, .error f)
    | .ok w =>
      (w, do
        let _ ← Json.write Json.pretty s.kept
        return { s with path := some path })

end RuleStore

end Timeline
