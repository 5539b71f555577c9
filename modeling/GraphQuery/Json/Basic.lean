import GraphQuery.Json.Token

/-!
# JSON values

A value is read from tokens with a stack of the arrays and objects that have been opened and not yet
closed. The members of an object are kept as they are written, repeated keys included.
-/

namespace GraphQuery

inductive Json where
  | scalar (value : Json.Scalar)
  | array (items : List Json)
  /-- The members with their keys; a key that is no text is none. -/
  | object (members : List (Option String × Json))

namespace Json

/-- An array or object that has been opened, with its parts so far, the last one first. -/
inductive Frame where
  | array (items : List Json)
  /-- The last key waits for its value. -/
  | object (members : List (Option String × Json)) (key : Option String)

inductive Expected where
  | value
  | valueOrClose
  | key
  | keyOrClose
  | colon
  | separator
  deriving Repr, DecidableEq

/-- The innermost frame with a value added to it. -/
def Frame.add (value : Json) : Frame → Frame
  | array items => array (value :: items)
  | object members key => object ((key, value) :: members) key

/-- The value that the tokens write, given what may come next and what is open. -/
def read? : List Token → Expected → List Frame → Option Json
  | [], _, _ => none
  | t :: ts, expected, stack =>
    let complete (value : Json) (outer : List Frame) : Option Json :=
      match outer with
      | [] => if ts.isEmpty then some value else none
      | frame :: frames => read? ts .separator (frame.add value :: frames)
    match expected, t, stack with
    | .value, .scalar value, _ | .valueOrClose, .scalar value, _ => complete (.scalar value) stack
    | .value, .openArray, _ | .valueOrClose, .openArray, _ =>
      read? ts .valueOrClose (.array [] :: stack)
    | .value, .openObject, _ | .valueOrClose, .openObject, _ =>
      read? ts .keyOrClose (.object [] none :: stack)
    | .valueOrClose, .closeArray, .array items :: outer
    | .separator, .closeArray, .array items :: outer => complete (.array items.reverse) outer
    | .keyOrClose, .closeObject, .object members _ :: outer
    | .separator, .closeObject, .object members _ :: outer =>
      complete (.object members.reverse) outer
    | .key, .scalar (.text key), .object members _ :: outer
    | .keyOrClose, .scalar (.text key), .object members _ :: outer =>
      read? ts .colon (.object members key :: outer)
    | .colon, .colon, _ => read? ts .value stack
    | .separator, .comma, .array _ :: _ => read? ts .value stack
    | .separator, .comma, .object _ _ :: _ => read? ts .key stack
    | _, _, _ => none

/-- The value that a text writes, if it writes just one. -/
def parse? (s : String) : Option Json := do read? (← tokens? s) .value []

end Json

end GraphQuery
