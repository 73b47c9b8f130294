import DrFed.Js.Heap
import DrFed.Js.Parse

/-!
# The serializer of revisions

Document values as JSON text.  The text is produced directly, so that negative
zero and escaped Unicode are retained, and every value that is not plain data
is refused.
-/

namespace DrFed.Store

/-- A value graph with what the heap leaves out: the arrays of another
prototype, the foreign values that are numbers, and a bound on the addresses. -/
structure Graph where
  objects : Heap
  subclassed : Address → Bool
  numeric : ℕ → Bool
  size : ℕ

/-! ## Keys -/

def notPlain : String := "JSON objects must be plain records."

def notData : String := "JSON values cannot contain symbol keys or accessors."

def notEnumerable : String := "JSON members must be enumerable."

def namedProperty : String := "JSON arrays cannot contain named properties."

def notFinite : String := "JSON numbers must be finite."

def notAcyclic : String := "Expected an acyclic JSON value without coercion."

/-- `/^(?:0|[1-9][0-9]*)$/u` and a number below the length. -/
def isArrayKey (length : ℕ) (key : JsString) : Bool :=
  !key.isEmpty && key.all isDigit && (key.head? != some (unit '0') || key.length == 1) &&
    decide (readDecimal key < length)

/-- The index properties of an array from an index on. -/
def indexKeys (i : ℕ) : List (Option JsProperty) → List (Option JsString × JsProperty)
  | [] => []
  | none :: rest => indexKeys (i + 1) rest
  | some property :: rest => (some (natText i), property) :: indexKeys (i + 1) rest

/-- `Reflect.ownKeys` with the properties; a symbol is no string, and the
length of an array is left out. -/
def ownKeys : JsObject → List (Option JsString × JsProperty)
  | .record _ members symbols _ =>
      members.map (fun m => (some m.1, m.2)) ++ symbols.map fun s => (none, s)
  | .array entries named symbols =>
      indexKeys 0 entries ++
        (named.map (fun m => (some m.1, m.2)) ++ symbols.map fun s => (none, s))

/-- The keys of an object, or of an array of a length. -/
def checkKeys (length : Option ℕ) :
    List (Option JsString × JsProperty) → Except String (List JsString)
  | [] => .ok []
  | (some key, .data _ enumerable) :: rest =>
      if !enumerable then .error notEnumerable
      else if length.any fun n => !isArrayKey n key then .error namedProperty
      else (checkKeys length rest).map fun keys => key :: keys
  | _ :: _ => .error notData

section Serializer

variable (numeral : ℚ → Numeral) (G : Graph)

def jsonKeys (address : Address) : Except String (List JsString) :=
  match G.objects address with
  | .record plain members symbols distinct =>
      if plain then checkKeys none (ownKeys (.record plain members symbols distinct))
      else .error notPlain
  | .array entries named symbols =>
      if G.subclassed address then .error notPlain
      else checkKeys (some entries.length) (ownKeys (.array entries named symbols))

/-! ## Text -/

/-- What reading a property that is not there gives. -/
def undefinedValue : JsValue := .foreign 0

/-- The value of an array element; a hole reads as undefined. -/
def entryValue : Option JsProperty → JsValue
  | some (.data value _) => value
  | some (.accessor result _) => result
  | none => undefinedValue

def memberValue (members : List (JsString × JsProperty)) (key : JsString) : JsValue :=
  entryValue (members.lookup key)

/-- A result with the ancestors that are left, or nothing out of fuel. -/
abbrev Outcome (α : Type) := Option (Except String α × List Address)

/-- One value after the other, up to the first that is refused. -/
def jsonAll (f : List Address → JsValue → Outcome JsString) :
    List JsValue → List Address → Outcome (List JsString)
  | [], ancestors => some (.ok [], ancestors)
  | value :: rest, ancestors =>
      (f ancestors value).bind fun first =>
        match first.1 with
        | .error error => some (.error error, first.2)
        | .ok text =>
            (jsonAll f rest first.2).map fun others =>
              (others.1.map fun texts => text :: texts, others.2)

def joinTexts (texts : List JsString) : JsString := [JsonText.comma].intercalate texts

/-- The text of a value that is no object. -/
def scalarText : JsValue → Except String JsString
  | .null => .ok (js "null")
  | .bool true => .ok (js "true")
  | .bool false => .ok (js "false")
  | .string value => .ok (quote value)
  | .number .negativeZero => .ok (js "-0")
  | .number (.rational q) => .ok (numeral q).text
  | .foreign tag => .error (if G.numeric tag then notFinite else notAcyclic)
  | .ref _ => .error notAcyclic

/-- The text of an object whose keys are checked; its ancestors and itself are
under way. -/
def objectText (f : List Address → JsValue → Outcome JsString) (ancestors : List Address)
    (object : JsObject) (keys : List JsString) : Outcome JsString :=
  match object with
  | .array entries _ _ =>
      (jsonAll f (entries.map entryValue) ancestors).map fun read =>
        (read.1.map fun texts =>
          JsonText.openBracket :: joinTexts texts ++ [JsonText.closeBracket], read.2)
  | .record _ members _ _ =>
      (jsonAll f (keys.map (memberValue members)) ancestors).map fun read =>
        (read.1.map fun texts =>
          JsonText.openBrace :: joinTexts (keys.zipWith
            (fun key text => quote key ++ JsonText.colon :: text) texts) ++
              [JsonText.closeBrace], read.2)

/-- The text of a value.  An object is an ancestor while its text is produced,
whether that succeeds or not. -/
def json : ℕ → List Address → JsValue → Outcome JsString
  | 0, _, _ => none
  | fuel + 1, ancestors, .ref address =>
      if address ∈ ancestors then some (.error notAcyclic, ancestors)
      else
        match jsonKeys G address with
        | .error error => some (.error error, ancestors)
        | .ok keys =>
            (objectText (json fuel) (address :: ancestors) (G.objects address) keys).map
              fun read => (read.1, read.2.erase address)
  | _ + 1, ancestors, value => some (scalarText numeral G value, ancestors)

end Serializer

end DrFed.Store
