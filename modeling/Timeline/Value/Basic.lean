import Timeline.Number.Double
import Timeline.Time.Instant

/-! # Values

The values found in documents, rules and filters. Beside the kinds of JSON there are moments and
days, and the collections a filter may hold. An object keeps its fields in order.
-/

namespace Timeline

inductive Kind where
  | null
  | bool
  | int
  | float
  | text
  | list
  | object
  | moment
  | day
  | tuple
  | set
deriving DecidableEq, Repr

def Kind.name : Kind → String
  | .null => "NoneType"
  | .bool => "bool"
  | .int => "int"
  | .float => "float"
  | .text => "str"
  | .list => "list"
  | .object => "dict"
  | .moment => "datetime.datetime"
  | .day => "datetime.date"
  | .tuple => "tuple"
  | .set => "set"

def Kind.shortName : Kind → String
  | .moment => "datetime"
  | .day => "date"
  | k => k.name

inductive Value where
  | null
  | bool (b : Bool)
  | int (n : Int)
  | float (x : Double)
  | text (s : String)
  | list (items : List Value)
  | object (fields : List (String × Value))
  | moment (m : Moment)
  | day (d : Date)
  | tuple (items : List Value)
  | set (items : List Value)
deriving Repr, Inhabited

abbrev Fields := List (String × Value)

namespace Value

def kind : Value → Kind
  | .null => .null
  | .bool _ => .bool
  | .int _ => .int
  | .float _ => .float
  | .text _ => .text
  | .list _ => .list
  | .object _ => .object
  | .moment _ => .moment
  | .day _ => .day
  | .tuple _ => .tuple
  | .set _ => .set

/-- Whether a value counts as given: null, false, zeros and whatever is empty do not. -/
def truthy : Value → Bool
  | .null => false
  | .bool b => b
  | .int n => n != 0
  | .float x => !x.isZero
  | .text s => s != ""
  | .list items => !items.isEmpty
  | .object fields => !fields.isEmpty
  | .moment _ => true
  | .day _ => true
  | .tuple items => !items.isEmpty
  | .set items => !items.isEmpty

def isNull : Value → Bool
  | .null => true
  | _ => false

theorem isNull_iff {v : Value} : v.isNull = true ↔ v = .null := by
  cases v <;> simp [isNull]

def isText : Value → Bool
  | .text _ => true
  | _ => false

def isList : Value → Bool
  | .list _ => true
  | _ => false

def isObject : Value → Bool
  | .object _ => true
  | _ => false

/-- A value as a number, with true as one and false as zero. -/
def number? : Value → Option Number
  | .bool true => some (.int 1)
  | .bool false => some (.int 0)
  | .int n => some (.int n)
  | .float x => some (.float x)
  | _ => none

def properNumber? : Value → Option Number
  | .int n => some (.int n)
  | .float x => some (.float x)
  | _ => none

def ofNumber : Number → Value
  | .int n => .int n
  | .float x => .float x

def ofTexts (texts : List String) : Value :=
  .list (texts.map .text)

/-- The fields of an object, and none of any other value. -/
def fields : Value → Fields
  | .object fields => fields
  | _ => []

def orNull (v : Option Value) : Value :=
  v.getD .null

/-- A value that counts as given, and nothing for any other. -/
def ifTruthy (v : Value) : Option Value :=
  if v.truthy then some v else none

end Value

namespace Fields

def get? (fields : Fields) (key : String) : Option Value :=
  List.lookup key fields

def has (fields : Fields) (key : String) : Bool :=
  (get? fields key).isSome

/-- Gives a field a new value at its place, or adds it at the end. -/
def insert (key : String) (value : Value) : Fields → Fields
  | [] => [(key, value)]
  | (k, v) :: rest => if k = key then (k, value) :: rest else (k, v) :: insert key value rest

def insertAll (fields new : Fields) : Fields :=
  new.foldl (fun fs f => insert f.1 f.2 fs) fields

/-- Fields with distinct keys: a repeated key keeps its first place and its last value. -/
def ofList (fields : Fields) : Fields :=
  insertAll [] fields

end Fields

namespace Value

/-- Equality of a number with a value that may be one. -/
def sameNumber (a : Number) : Option Number → Bool
  | some b => a.same b
  | none => false

mutual

/-- Equality: numbers and booleans by their value, lists item by item, objects field by field in
any order, and otherwise within one kind only. -/
def same : Value → Value → Bool
  | .null, .null => true
  | .text s, .text t => s == t
  | .list xs, .list ys => sameItems xs ys
  | .tuple xs, .tuple ys => sameItems xs ys
  | .set xs, .set ys => xs.length == ys.length && allIn xs ys
  | .object fs, .object gs => fs.length == gs.length && sameFields fs gs
  | .moment m, .moment n => m.same n
  | .day d, .day e => d == e
  | .bool a, w => sameNumber (.int a.toNat) w.number?
  | .int a, w => sameNumber (.int a) w.number?
  | .float a, w => sameNumber (.float a) w.number?
  | _, _ => false

/-- Equality of two lists item by item. -/
def sameItems : List Value → List Value → Bool
  | [], [] => true
  | x :: xs, y :: ys => same x y && sameItems xs ys
  | _, _ => false

def allIn : List Value → List Value → Bool
  | [], _ => true
  | x :: xs, ys => ys.any (fun y => same x y) && allIn xs ys

def sameFields : List (String × Value) → List (String × Value) → Bool
  | [], _ => true
  | (k, v) :: fs, gs =>
    (match gs.lookup k with
      | some w => same v w
      | none => false) && sameFields fs gs

end

@[simp] theorem same_text_iff {v : Value} {s : String} : v.same (.text s) = true ↔ v = .text s := by
  cases v <;> simp [same, number?, sameNumber]

@[simp] theorem same_text_eq_false_iff {v : Value} {s : String} :
    v.same (.text s) = false ↔ v ≠ .text s := by
  rw [← Bool.not_eq_true, same_text_iff]

def isIn (v : Value) (items : List Value) : Bool :=
  items.any (fun w => v.same w)

mutual

/-- The kind of the value that keeps a value from being a key: lists, objects and sets are none,
and a tuple is one if its items are. -/
def unhashable? : Value → Option Kind
  | .list _ => some .list
  | .object _ => some .object
  | .set _ => some .set
  | .tuple items => unhashableItem? items
  | _ => none

def unhashableItem? : List Value → Option Kind
  | [] => none
  | x :: xs => (unhashable? x).or (unhashableItem? xs)

end

end Value

end Timeline
