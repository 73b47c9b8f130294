import DrFed.Document.Prepare

/-!
# Descriptions of accepted documents

The view of a document that the write paths use: its vocabulary nodes, the
source keys of their properties and their string identifiers, expanded
through the prefixes of the context in force.
-/

namespace DrFed.Document

inductive DocumentNodeKind where
  | activity | actor | collection | link | object
  deriving DecidableEq

/-- One IRI reference as written and as the context resolves it. -/
structure DocumentIdentifier where
  property : JsString
  path : FieldPath
  value : JsString
  iri : JsString
  deriving DecidableEq

/-- One document reached by vocabulary traversal. -/
structure DocumentNode where
  path : FieldPath
  property : Option JsString
  type : JsString
  kind : DocumentNodeKind
  /-- Standard property names with the source keys that supply them. -/
  properties : List (JsString × List JsString)
  identifiers : List DocumentIdentifier

def identifierProperties : List JsString :=
  [js "id", js "actor", js "object", js "target", js "origin", js "result",
    js "instrument", js "attributedTo", js "location", js "preview"] ++
  addressingProperties ++
  [js "items", js "orderedItems", js "current", js "first", js "last",
    js "partOf", js "next", js "prev", js "inbox", js "outbox",
    js "following", js "followers", js "liked", js "href"]

/-- IRI values expand compact IRIs through prefixes only; JSON-LD applies
terms to property names and types, not to node identifiers. -/
def expandIdentifier (value : JsString) (context : Terms) : JsString :=
  match cutColon value with
  | none => value
  | some (name, suffix) =>
      if name.isEmpty ∨ (js "//").isPrefixOf suffix then value
      else
        match context.lookup name with
        | none => value
        | some term =>
            if !term.prefixFlag ∨ startsWithAt term.iri then value
            else term.iri ++ suffix

section Platform

variable (P : Platform)

def nodeKind (type : VocabularyType) : DocumentNodeKind :=
  if P.isTypeOrSubtype type .link then .link
  else if P.isTypeOrSubtype type .activity then .activity
  else if P.isActor type then .actor
  else if P.isTypeOrSubtype type .collection then .collection
  else .object

/-- Add the source key of a field to its standard property. -/
def addSource {ι : Type} (properties : List (JsString × List JsString))
    (field : Field ι) : List (JsString × List JsString) :=
  match field.name with
  | some name =>
      if field.compatible then
        AssocList.put name
          ((properties.lookup name).getD [] ++ [field.source]) properties
      else properties
  | none => properties

/-- The source keys of each standard property of a node. -/
def nodeProperties {ι : Type} (fields : List (Field ι)) :
    List (JsString × List JsString) :=
  fields.foldl addSource []

/-- The strings of a property value, with their paths. -/
def stringEntries (value : Json) (path : FieldPath) :
    List (JsString × FieldPath) :=
  match value with
  | .str text => [(text, path)]
  | .arr items =>
      items.zipIdx.filterMap fun (entry, i) =>
        match entry with
        | .str text => some (text, path ++ [.index i])
        | _ => none
  | _ => []

/-- The identifiers that one field supplies. -/
def fieldIdentifiers (path : FieldPath) (context : Terms)
    (field : Field Json) : List DocumentIdentifier :=
  match field.name with
  | some name =>
      if field.compatible ∧ identifierProperties.contains name then
        (stringEntries field.value (path ++ [.key field.source])).map
          fun (text, entryPath) =>
            { property := name
              path := entryPath
              value := text
              iri := expandIdentifier text context }
      else []
  | none => []

def describeNode (node : Node Json) : DocumentNode where
  path := node.path
  property := none
  type := P.typeId node.type
  kind := nodeKind P node.type
  properties := nodeProperties node.fields
  identifiers :=
    node.fields.flatMap (fieldIdentifiers node.path node.context)

def nodeAt (nodes : List DocumentNode) (path : FieldPath) :
    Option DocumentNode :=
  nodes.reverse.find? fun node => node.path == path

/-- The standard name under which the document at `path` of length `length`
holds a key. -/
def embeddingProperty (nodes : List DocumentNode) (path : FieldPath)
    (length : ℕ) : Option JsString :=
  match nodeAt nodes (path.take length), path[length]? with
  | some parent, some (.key key) =>
      (parent.properties.find? fun entry => entry.2.contains key).map Prod.fst
  | _, _ => none

/-- An embedded document sits at a key of its parent or in a list there. -/
def assignProperty (nodes : List DocumentNode) (node : DocumentNode) :
    DocumentNode :=
  let length := node.path.length
  if length = 0 then node
  else
    { node with
      property :=
        (embeddingProperty nodes node.path (length - 1)).or
          (if length = 1 then none
          else embeddingProperty nodes node.path (length - 2)) }

/-- The root and every embedded document in traversal order, or `none` unless
validation completes without errors. -/
def describeDocument (document : Json) : Option (List DocumentNode) :=
  let walk := checkDocumentValue P Json.tree document
  if walk.reporter.accepts then
    let nodes := walk.visited.map (describeNode P)
    some (nodes.map (assignProperty nodes))
  else none

end Platform

end DrFed.Document
