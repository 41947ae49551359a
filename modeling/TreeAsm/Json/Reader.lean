import TreeAsm.Json.Token

/-! Reading JSON texts. The reader passes over the tokens once and holds the arrays and objects that
are still open, so the number of these is the depth at which it stands. -/
namespace TreeAsm.Json

/-- An open array with its values so far, or an open object with its members so far and the key
whose value comes next. Both lists are latest first. -/
inductive Open where
  | array (items : List Json)
  | object (members : List (String × Json)) (key : String)

/-- A later member replaces an earlier one of the same key. -/
def put (members : List (String × Json)) (key : String) (v : Json) : List (String × Json) :=
  (key, v) :: members.filter (·.1 != key)

/-- What comes next. -/
inductive Expecting where
  /-- A value, or the end of the array that has just begun. -/
  | value (stack : List Open) (orEnd : Bool)
  /-- A key of the innermost object, or the end of the object that has just begun. -/
  | key (stack : List Open) (members : List (String × Json)) (orEnd : Bool)
  | colon (stack : List Open) (members : List (String × Json)) (key : String)
  /-- The value is complete: a comma, the end of what is around it, or the end of the text. -/
  | more (stack : List Open) (v : Json)

namespace Expecting

def scalar? : Token → Option Json
  | .null => some .null
  | .bool b => some (.bool b)
  | .num n => some (.num n)
  | .text s => some (.str s)
  | _ => none

/-- A value begins. -/
def begin (stack : List Open) : Token → Option Expecting
  | .beginArray => if stack.length < maxDepth then some (.value (.array [] :: stack) true) else none
  | .beginObject => if stack.length < maxDepth then some (.key stack [] true) else none
  | t => (scalar? t).map fun v => .more stack v

def step : Expecting → Token → Option Expecting
  | .value (.array [] :: stack) true, .endArray => some (.more stack (.arr []))
  | .value stack _, t => begin stack t
  | .key stack _ true, .endObject => some (.more stack (.obj []))
  | .key stack members _, .text k => some (.colon stack members k)
  | .colon stack members k, .colon => some (.value (.object members k :: stack) false)
  | .more (.array items :: stack) v, .comma => some (.value (.array (v :: items) :: stack) false)
  | .more (.array items :: stack) v, .endArray => some (.more stack (.arr (v :: items).reverse))
  | .more (.object members k :: stack) v, .comma => some (.key stack (put members k v) false)
  | .more (.object members k :: stack) v, .endObject =>
    some (.more stack (.obj (put members k v).reverse))
  | _, _ => none

/-- The value of a text that ends here. -/
def result? : Expecting → Option Json
  | .more [] v => some v
  | _ => none

end Expecting

def ofTokens? (ts : List Token) : Option Json := do
  (← ts.foldlM Expecting.step (.value [] false)).result?

/-- The value of a JSON text. -/
def read? (text : String) : Option Json := do
  ofTokens? (← Token.scan text.toList)

end TreeAsm.Json
