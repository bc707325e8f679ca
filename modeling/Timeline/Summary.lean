import Timeline.Filter

/-! # Summaries

Entities of several groups as one list without repetitions, and what can be said about a list of
entities: its arrays, its span of time, the range of its numeric categories and the different
values of a column.
-/

namespace Timeline.Entity

/-- The entities whose key is not among those seen, each key once. -/
def firstOfKey (seen : List Key) : List Entity → List Entity
  | [] => []
  | e :: rest =>
    if seen.any (fun k => k.same e.key) then firstOfKey seen rest
    else e :: firstOfKey (seen ++ [e.key]) rest

/-- The entities of groups one after the other, of each key the first. -/
def merge (groups : List (List Entity)) : Except Failure (List Entity) :=
  match groups.flatten.findSome? (fun e => e.key.unhashable?) with
  | some kind => .error (.unhashable kind)
  | none => .ok (firstOfKey [] groups.flatten)

/-- Puts an entity into the group of its array, or into a new one at the end. -/
def intoGroup (e : Entity) : List (Value × List Entity) → List (Value × List Entity)
  | [] => [(e.array, [e])]
  | (array, group) :: rest =>
    if array.same e.array then (array, group ++ [e]) :: rest
    else (array, group) :: intoGroup e rest

/-- The entities by array, in the order of the first entity of each. -/
def byArray (entities : List Entity) : Except Failure (List (Value × List Entity)) :=
  match entities.findSome? (fun e => e.array.unhashable?) with
  | some kind => .error (.unhashable kind)
  | none => .ok (entities.foldl (fun groups e => intoGroup e groups) [])

def earlier (a b : Instant) : Instant :=
  if a ≤ b then a else b

def later (a b : Instant) : Instant :=
  if b ≤ a then a else b

def span : List Entity → Option Window
  | [] => none
  | e :: rest =>
    some ⟨some (rest.foldl (fun t e => earlier t e.start) e.start),
      some (rest.foldl (fun t e => later t e.finish) e.finish)⟩

/-- The least and the greatest of some numbers, of equal ones the first. -/
def numberRange : List Number → Option (Number × Number)
  | [] => none
  | n :: rest =>
    some (rest.foldl (fun low m => if m.lt low then m else low) n,
      rest.foldl (fun high m => if high.lt m then m else high) n)

/-- The range of the categories that are numbers. -/
def categoryRange (entities : List Entity) : Option (Number × Number) :=
  numberRange (entities.filterMap fun e => e.category.properNumber?)

/-- The different values of a column, without nulls, lists and objects. -/
def distinctValues (column : String) (found : List Value) :
    List Entity → Except Failure (List Value)
  | [] => .ok found
  | e :: rest => do
    let v := Value.orNull (← e.column column)
    if v.isNull || v.isList || v.isObject || v.isIn found then distinctValues column found rest
    else distinctValues column (found ++ [v]) rest

end Timeline.Entity

namespace Timeline.Value

/-- The order of two values of one kind, if they have one. -/
def lt? (a b : Value) : Option Bool :=
  match a, b with
  | .text s, .text t => some (s < t)
  | .moment m, .moment n => if m.comparable n then some (m.utcMicros < n.utcMicros) else none
  | .day d, .day e => some (d.day < e.day)
  | a, b =>
    match a.number?, b.number? with
    | some x, some y => some (x.lt y)
    | _, _ => none

def allOrdered (values : List Value) : Bool :=
  values.all fun a => values.all fun b => (a.lt? b).isSome

/-- The place behind the items of a sorted list that an item is not less than, found by halving
the places from `low` to `high`; `fuel` bounds the number of halvings. -/
def halvingPlace {α : Type} (lt : α → α → Bool) (x : α) (sorted : List α) : Nat → Nat → Nat → Nat
  | 0, low, _ => low
  | fuel + 1, low, high =>
    if low < high then
      let middle := (low + high) / 2
      match sorted[middle]? with
      | some y =>
        if lt x y then halvingPlace lt x sorted fuel low middle
        else halvingPlace lt x sorted fuel (middle + 1) high
      | none => low
    else low

/-- Puts an item into a sorted list behind those that it is not less than. -/
def insertHalving {α : Type} (lt : α → α → Bool) (x : α) (sorted : List α) : List α :=
  let place := halvingPlace lt x sorted sorted.length 0 sorted.length
  sorted.take place ++ x :: sorted.drop place

/-- The length of the run at the start of a list in which no item is less than the one before. -/
def risingRun {α : Type} (lt : α → α → Bool) : List α → Nat
  | [] => 0
  | [_] => 1
  | a :: b :: rest => if lt b a then 1 else risingRun lt (b :: rest) + 1

def fallingRun {α : Type} (lt : α → α → Bool) : List α → Nat
  | [] => 0
  | [_] => 1
  | a :: b :: rest => if lt b a then fallingRun lt (b :: rest) + 1 else 1

/-- Sorts by insertion behind the first run, which is turned around if it falls. For an order this
is the stable sort; not-a-number is less than nothing and nothing is less than it. -/
def insertionSort {α : Type} (lt : α → α → Bool) (items : List α) : List α :=
  let falling := fallingRun lt items
  let run := if falling > 1 then falling else risingRun lt items
  let start := if falling > 1 then (items.take run).reverse else items.take run
  (items.drop run).foldl (fun sorted x => insertHalving lt x sorted) start

/-- Values in order, or by their identifiers if they have none. -/
def sort (values : List Value) : Except Failure (List Value) :=
  if values.length ≤ 1 || allOrdered values then
    .ok (insertionSort (fun a b => (a.lt? b).getD false) values)
  else do
    let named ← values.mapM fun v => do return (← v.identifier, v)
    return (named.mergeSort fun a b => a.1 ≤ b.1).map (·.2)

end Timeline.Value

namespace Timeline.Entity

def columnValues (entities : List Entity) (column : String) : Except Failure (List Value) := do
  Value.sort (← distinctValues column [] entities)

end Timeline.Entity
