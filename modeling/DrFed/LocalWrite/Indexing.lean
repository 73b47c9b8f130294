import DrFed.Document.Describe
import DrFed.Store.Revision

/-!
# The addressing index

The index of a saved document: who its root addresses and what it relates to,
by meaning, with the positions in the source values.
-/

namespace DrFed.LocalWrite

open Document Store

structure DocumentIndex where
  addressing : List AddressingOccurrence
  relations : List RevisionRelationInput
  deriving DecidableEq

def relationProperties : List JsString :=
  [js "actor", js "object", js "target", js "origin", js "result",
    js "instrument", js "attributedTo"]

def rootNode (nodes : List DocumentNode) : Option DocumentNode :=
  nodes.find? fun node => node.path == []

/-- `root.properties.get(property)`, absent when no key supplies it. -/
def DocumentNode.sources (node : DocumentNode) (property : JsString) :
    List JsString :=
  (node.properties.lookup property).getD []

section Platform

variable (P : Platform)

/-- Refuse a document that spells one indexed property in several ways.  The
findings are at every spelling after the first. -/
def checkIndexable (document : Json) : List Diagnostic :=
  match (describeDocument P document).bind rootNode with
  | none => []
  | some root =>
      (addressingProperties ++ relationProperties).flatMap fun property =>
        ((DocumentNode.sources root property).drop 1).map fun source =>
          ⟨.unsupportedValueForm, [.key source],
            "Several spellings of " ++ showJs property ++
              " cannot be saved yet; use one."⟩

/-- The map of identifiers by path, in which the last entry of a path
counts. -/
def identifierAt (root : DocumentNode) (path : FieldPath) : Option JsString :=
  (root.identifiers.reverse.find? fun entry => entry.path == path).map
    DocumentIdentifier.iri

/-- The identifier that an embedded document names a target by: its id, or the
href of a Link, in scalar form. -/
def ownTarget (node : DocumentNode) (path : FieldPath) : Option JsString :=
  let property := if node.kind = .link then js "href" else js "id"
  (node.identifiers.find? fun entry =>
    entry.property == property && entry.path.length == path.length + 1).map
      DocumentIdentifier.iri

/-- The target that the value at a path names. -/
def targetOf (nodes : List DocumentNode) (root : DocumentNode)
    (path : FieldPath) : Option JsString :=
  match identifierAt root path with
  | some iri => some iri
  | none => (nodeAt nodes path).bind fun node => ownTarget node path

/-- The paths and positions of the values of a property. -/
def occurrences (document : Json) (root : DocumentNode)
    (property : JsString) : List (FieldPath × ℕ) :=
  -- Several spellings of one property were refused by `checkIndexable`.
  match (DocumentNode.sources root property).head? with
  | none => []
  | some source =>
      match document.member? source with
      | some (.arr items) =>
          (List.range items.length).map fun position =>
            ([.key source, .index position], position)
      | none | some .null => []
      | some _ => [([.key source], 0)]

/-- The relation that the value at a path states. -/
def relationAt (nodes : List DocumentNode) (root : DocumentNode)
    (property : JsString) (path : FieldPath) :
    Option RevisionRelationInput :=
  match nodeAt nodes path with
  | none =>
      (identifierAt root path).map fun iri =>
        ⟨property, some path, .reference, some iri⟩
  | some node =>
      some ⟨property, some path,
        if node.kind = .link then .link else .embedded,
        targetOf nodes root path⟩

/-- Index a saved document's root addressing and relations by meaning. -/
def indexDocument (document : Json) : DocumentIndex :=
  let nodes := (describeDocument P document).getD []
  match rootNode nodes with
  | none => ⟨[], []⟩
  | some root =>
      { addressing := addressingProperties.flatMap fun property =>
          (occurrences document root property).filterMap fun occurrence =>
            (targetOf nodes root occurrence.1).map fun iri =>
              ⟨property, occurrence.2, iri⟩
        relations := relationProperties.flatMap fun property =>
          (occurrences document root property).filterMap fun occurrence =>
            relationAt nodes root property occurrence.1 }

end Platform

end DrFed.LocalWrite
