import Timeline.Number.Integer
import Timeline.Number.Shortest
import Timeline.Text.Quoted
import Timeline.Text.Search
import Timeline.Value.Basic

/-! # Values in messages

The literal of a value, with quoted texts and brackets around collections, and its plain text,
which is the literal but for texts, moments and days.
-/

namespace Timeline

def offsetLiteral (offset : Int) : String :=
  if offset = 0 then "datetime.timezone.utc"
  else
    let days := offset / 86400
    let seconds := offset % 86400
    let parts := (if days = 0 then [] else ["days=" ++ integerText days]) ++
      (if seconds = 0 then [] else ["seconds=" ++ integerText seconds])
    "datetime.timezone(datetime.timedelta(" ++ Text.join ", " parts ++ "))"

/-- The literal of a moment: seconds and microseconds are left out at the end if they are zero. -/
def Moment.literal (m : Moment) : String :=
  let c := Clock.ofMicros m.wall
  let small := if c.micro ≠ 0 then [c.second, c.micro] else if c.second ≠ 0 then [c.second] else []
  let fields := [c.date.year, c.date.month, c.date.dayOfMonth, c.hour, c.minute] ++ small
  let zone := match m.offset with
    | some offset => ["tzinfo=" ++ offsetLiteral offset]
    | none => []
  "datetime.datetime(" ++ Text.join ", " (fields.map naturalText ++ zone) ++ ")"

def Date.literal (d : Date) : String :=
  "datetime.date(" ++ Text.join ", " ([d.year, d.month, d.dayOfMonth].map naturalText) ++ ")"

namespace Value

mutual

def literal : Value → String
  | .null => "None"
  | .bool true => "True"
  | .bool false => "False"
  | .int n => integerText n
  | .float x => x.text
  | .text s => Text.quoted s
  | .list items => "[" ++ Text.join ", " (literals items) ++ "]"
  | .object fields => "\x7b" ++ Text.join ", " (fieldLiterals fields) ++ "\x7d"
  | .moment m => m.literal
  | .day d => d.literal
  | .tuple [item] => "(" ++ literal item ++ ",)"
  | .tuple items => "(" ++ Text.join ", " (literals items) ++ ")"
  | .set [] => "set()"
  | .set items => "\x7b" ++ Text.join ", " (literals items) ++ "\x7d"

def literals : List Value → List String
  | [] => []
  | v :: rest => literal v :: literals rest

def fieldLiterals : List (String × Value) → List String
  | [] => []
  | (k, v) :: rest => (Text.quoted k ++ ": " ++ literal v) :: fieldLiterals rest

end

/-- The plain text of a value. -/
def plain : Value → String
  | .text s => s
  | .moment m => m.text
  | .day d => String.ofList d.text
  | v => v.literal

end Value

end Timeline
