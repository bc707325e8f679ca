import Timeline.Path.Basic

/-! # The paths of a document

The paths that can be offered for a document: those down to a depth, those of its lists and those
of its leaves.
-/

namespace Timeline.Path

/-- The texts of a list without repetitions, in the order of their first places. -/
def distinct (texts : List String) : List String :=
  texts.foldl (fun found s => if found.contains s then found else found ++ [s]) []

def sort (texts : List String) : List String :=
  texts.mergeSort (fun a b => a ≤ b)

mutual

/-- The paths below a value at a depth, as far as `depth` more levels go. Of a list only the
first element is looked into. -/
def below (left : Nat) (path : String) : Value → List String
  | .object fields => belowFields left path fields
  | .list (first :: _) =>
    match left with
    | 0 => if path = "" then [root] else [path, element path 0]
    | left + 1 =>
      if path = "" then root :: below left "" first
      else path :: element path 0 :: below left (element path 0) first
  | _ => []

def belowFields (left : Nat) (path : String) : List (String × Value) → List String
  | [] => []
  | (k, v) :: rest =>
    let here := join path k
    let deeper := match left with
      | 0 => []
      | left + 1 => below left here v
    here :: deeper ++ belowFields left path rest

end

def available (document : Value) (maxDepth : Int) : List String :=
  if maxDepth < 0 then []
  else distinct ((below maxDepth.toNat "" document).filter (· ≠ ""))

mutual

/-- The paths of the lists among the fields of an object and of the objects in it, sorted below each
field. -/
def listsBelow (path : String) : List (String × Value) → List String
  | [] => []
  | (k, v) :: rest => listsAt (join path k) v ++ listsBelow path rest

/-- The path of a list, and those of the lists in an object, sorted. -/
def listsAt (path : String) : Value → List String
  | .list _ => [path]
  | .object fields => sort (listsBelow path fields)
  | _ => []

end

/-- The paths of the lists of a document, sorted. Below a parent a list itself has none. -/
def lists (document : Value) (parent : String) : List String :=
  match document with
  | .object fields => sort (listsBelow parent fields)
  | .list _ => if parent = "" then [root] else []
  | _ => []

mutual

/-- The paths of the leaves of a value; elements of lists have the path of the list. -/
def leaves (path : String) : Value → List String
  | .object fields => leavesOfFields path fields
  | .list items => leavesOfItems path items
  | _ => if path = "" then [] else [path]

def leavesOfItems (path : String) : List Value → List String
  | [] => []
  | v :: rest => leaves path v ++ leavesOfItems path rest

/-- The paths of the leaves of the fields of an object. A leaf below an empty key has the empty
path. -/
def leavesOfFields (path : String) : List (String × Value) → List String
  | [] => []
  | (k, v) :: rest =>
    let here := join path k
    let found := match v with
      | .object fields => leavesOfFields here fields
      | .list items => leavesOfItems here items
      | _ => [here]
    found ++ leavesOfFields path rest

end

/-- The paths of the leaves of a value below a path, sorted and without repetitions. -/
def keys (v : Value) (parent : String) : List String :=
  sort (distinct (leaves parent v))

end Timeline.Path
