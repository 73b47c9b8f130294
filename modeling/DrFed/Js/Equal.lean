import DrFed.Js.Value

/-!
# JSON data as the database keeps it

Which JSON values a `jsonb` column can hold, what it gives back, and the
structural comparison of what was read.
-/

namespace DrFed

/-- PostgreSQL's text and jsonb hold no U+0000, and the driver replaces an
unpaired surrogate on its way into UTF-8. -/
def storableText (value : JsString) : Bool :=
  !value.contains 0 && isWellFormed value

mutual

/-- Neither a key nor a value of the data is a text that jsonb cannot hold. -/
def storableJson : Json → Bool
  | .str text => storableText text
  | .arr items => storableItems items
  | .obj ms => storableMembers ms
  | _ => true

def storableItems : List Json → Bool
  | [] => true
  | item :: rest => storableJson item && storableItems rest

def storableMembers : List (JsString × Json) → Bool
  | [] => true
  | (key, item) :: rest =>
      storableText key && storableJson item && storableMembers rest

end

mutual

/-- What parsing the JSON text of a value gives: `JSON.stringify` writes
negative zero as `0`. -/
def reparsed : Json → Json
  | .num .negativeZero => .num (.rational 0)
  | .arr items => .arr (reparsedItems items)
  | .obj ms => .obj (reparsedMembers ms)
  | value => value

def reparsedItems : List Json → List Json
  | [] => []
  | item :: rest => reparsed item :: reparsedItems rest

def reparsedMembers : List (JsString × Json) → List (JsString × Json)
  | [] => []
  | (key, item) :: rest => (key, reparsed item) :: reparsedMembers rest

end

mutual

/-- `isDeepStrictEqual` on JSON data: the order of the keys does not count,
and negative zero differs from zero. -/
def isDeepStrictEqual : Json → Json → Bool
  | .null, .null => true
  | .bool a, .bool b => a == b
  | .num a, .num b => a == b
  | .str a, .str b => a == b
  | .arr as, .arr bs => isDeepStrictEqualItems as bs
  | .obj as, .obj bs =>
      as.length == bs.length && isDeepStrictEqualMembers as bs
  | _, _ => false

def isDeepStrictEqualItems : List Json → List Json → Bool
  | [], [] => true
  | a :: as, b :: bs => isDeepStrictEqual a b && isDeepStrictEqualItems as bs
  | _, _ => false

/-- Every member of the first object is a member of the second. -/
def isDeepStrictEqualMembers :
    List (JsString × Json) → List (JsString × Json) → Bool
  | [], _ => true
  | (key, a) :: rest, bs =>
      (match bs.lookup key with
        | some b => isDeepStrictEqual a b
        | none => false) && isDeepStrictEqualMembers rest bs

end

end DrFed
