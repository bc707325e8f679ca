import Timeline.Path.Basic

/-! # Resolving paths

The part of a document at a path. `resolve` reads a written path; `Address.walk` follows the
steps of an address, which `Address.render` writes as a path. Nothing is below null, but a null
at the end of a path is found.
-/

namespace Timeline

namespace Value

def child? (v : Value) (key : String) : Option Value :=
  match v with
  | .object fields => fields.lookup key
  | _ => none

def item? (v : Value) (index : Nat) : Option Value :=
  match v with
  | .list items => items[index]?
  | _ => none

end Value

namespace Path

def Step.target? (step : Step) (v : Value) : Option Value :=
  match step.index with
  | none => v.child? step.key
  | some i => (v.child? step.key).bind (·.item? i)

/-- Follows segments from a value. Reading stops at null, at the first step that is impossible
and at the first segment that is malformed. -/
def follow (v : Value) : List String → Except Failure (Option Value)
  | [] => .ok (some v)
  | segment :: rest =>
    if v.isNull then .ok none
    else do
      match ← Step.read segment with
      | none => return none
      | some step =>
        match step.target? v with
        | none => return none
        | some w => follow w rest

/-- Whether a path is a single key that is written as it is. -/
def isPlainKey (path : String) : Bool :=
  !path.toList.any fun c => c = '.' || c = '[' || c = '\\'

def resolve (document : Value) (path : String) : Except Failure (Option Value) :=
  if document.isNull || path = "" then .ok none
  else if path = root then .ok (some document)
  else if isPlainKey path then .ok (document.child? path)
  else
    match split path with
    | [] => .ok none
    | segments => follow document segments

/-- The part of a document at a path that may be any value; only a text addresses something. -/
def resolveAt (document path : Value) : Except Failure (Option Value) :=
  match path with
  | .text s => resolve document s
  | _ => .ok none

def isFound (document path : Value) : Except Failure Bool := do
  return (← resolveAt document path).isSome

/-- The steps from a document to one of its parts. -/
abbrev Address := List Step

namespace Address

def renderBelow (parent : String) : Address → String
  | [] => parent
  | step :: rest =>
    let path := join parent step.key
    renderBelow (match step.index with
      | none => path
      | some i => element path i) rest

def render (a : Address) : String :=
  renderBelow "" a

def walk (v : Value) : Address → Option Value
  | [] => some v
  | step :: rest => (step.target? v).bind fun w => walk w rest

end Address

end Path

end Timeline
