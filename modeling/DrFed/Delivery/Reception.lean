import DrFed.Js.Equal
import DrFed.Store.Tables
import DrFed.Support.Interleaving

/-!
# One inbound delivery and its two processes

The request that receives an activity records the delivery once it has been
answered.  A queue worker may run the inbox listener before, meanwhile or
after.  Each tells the other through the row of the delivery and through marks
in the key-value store.

One command is one statement.  A statement that updates the row waits for the
transaction that holds it, and then checks its conditions again.
-/

namespace DrFed.Delivery

open Store (Uuid)

inductive ActivityDeliveryStatus where
  | received | acknowledged | unverified | rejected
  deriving DecidableEq

inductive ActivityDeliveryVerificationResult where
  | verified | invalidSignature | keyFetchError | noSignature | unattempted
  | unobserved
  deriving DecidableEq

/-! ## Tables -/

/-- The columns of an inbound delivery that its processes read or write. -/
structure ActivityDelivery where
  status : ActivityDeliveryStatus
  verificationResult : ActivityDeliveryVerificationResult
  activityIri : Option JsString
  activityId : Option Uuid
  payload : Option Json
  fetchedObject : Option Json
  carriedSnapshot : Bool
  carriedObjectSnapshot : Bool

/-- The object stored with an activity. -/
structure CarriedObject where
  document : Option Json
  fetched : Bool

/-- A stored activity with its resource, and the object whose row names it. -/
structure ReceivedActivity where
  id : Uuid
  iri : JsString
  document : Option Json
  object : Option CarriedObject

abbrev Activities := List ReceivedActivity

namespace Activities

def findById (activities : Activities) (id : Uuid) : Option ReceivedActivity :=
  activities.find? fun activity => activity.id == id

def findByIri (activities : Activities) (iri : JsString) :
    Option ReceivedActivity :=
  activities.find? fun activity => activity.iri == iri

/-- An activity that is already stored is kept as it was first received. -/
def store (activities : Activities) (activity : ReceivedActivity) :
    Activities :=
  if (activities.findByIri activity.iri).isSome then activities
  else activities ++ [activity]

end Activities

/-! ## What a delivery carried -/

/-- What a `jsonb` column keeps of a payload; `none` is SQL `NULL`. -/
def jsonb (payload : Option Json) : Option Json :=
  payload.bind fun value =>
    if storableJson value then some (reparsed value) else none

/-- A fetched object is a JSON object, so nothing fetched is SQL `NULL`. -/
def storedObject (document : Option Json) : Option Json :=
  jsonb (document.filter fun value => value ≠ .null)

/-- A column is neither SQL `NULL` nor JSON `null`, and deep-equal to a stored
document. -/
def carries (column document : Option Json) : Bool :=
  match column, document with
  | some value, some stored => value ≠ .null && isDeepStrictEqual value stored
  | _, _ => false

/-- The marks of a delivery linked to an activity, from its payload, its
fetched object and the object stored with the activity. -/
def carriedMarks (payload fetchedObject : Option Json)
    (activity : ReceivedActivity) (object : Option CarriedObject) :
    Bool × Bool :=
  let carriedSnapshot := carries payload activity.document
  (carriedSnapshot, carriedSnapshot &&
    match object with
    | none => false
    | some object => !object.fetched || carries fetchedObject object.document)

/-! ## The processes -/

inductive Thread where
  | recorder | worker
  deriving DecidableEq

/-- An update of the row of the delivery that waits for its lock. -/
inductive Update where
  | receive
  | fetchedObject (document : Json)
  | link (activityId : Uuid)

inductive Command where
  | recordInbound
  | receivedMeanwhile
  | fetchedMeanwhile
  | handle
  | setReceived
  | setFetchedObject (document : Json)
  | receiveInbound
  | recordFetchedObject (document : Json)
  | linkInboundActivity
  | update (update : Update)
  | decideCarried
  | decideActivity (activityId : Uuid) (payload fetchedObject : Option Json)
  | decideObject (activity : ReceivedActivity)
      (payload fetchedObject : Option Json)
  | mark (marks : Bool × Bool)
  | commit

/-- What the processes share: the committed row, its uncommitted version with
the transaction that holds it, the marks in the key-value store, and the
stored activities. -/
structure Reception where
  row : Option ActivityDelivery
  held : Option (Thread × ActivityDelivery)
  received : Bool
  fetchedObject : Option Json
  activities : Activities

/-- What one delivery consists of: the observed request, the run of the queue
worker, and the activities stored beforehand. -/
structure Scenario where
  /-- `none` when handling threw instead of answering. -/
  statusCode : Option ℕ
  /-- Whether the request itself reached an inbox listener. -/
  handled : Bool
  verificationResult : ActivityDeliveryVerificationResult
  activityIri : Option JsString
  payload : Option Json
  /-- What the request itself fetched. -/
  requestObject : Option Json
  /-- Whether the worker reached an inbox listener. -/
  listened : Bool
  /-- What the listener fetched. -/
  fetchedObject : Option Json
  stored : Activities
  /-- What the listener stores. -/
  carried : Option ReceivedActivity
  distinct : ((stored ++ carried.toList).map ReceivedActivity.id).Nodup

/-- The request was answered with 2xx. -/
def isSuccess (statusCode : Option ℕ) : Bool :=
  statusCode.any fun code => 200 ≤ code && code < 300

/-- The actual federation response determines whether an activity was
accepted. -/
def classifyInbound (statusCode : Option ℕ) (handled : Bool)
    (verificationResult : ActivityDeliveryVerificationResult) :
    ActivityDeliveryStatus :=
  if isSuccess statusCode then
    if handled then .received else .acknowledged
  else if verificationResult = .verified then .rejected
  else .unverified

namespace Scenario

variable (d : Scenario)

def status : ActivityDeliveryStatus :=
  classifyInbound d.statusCode d.handled d.verificationResult

/-- The row that `recordInbound` inserts. -/
def recorded : ActivityDelivery where
  status := d.status
  verificationResult := d.verificationResult
  activityIri := d.activityIri
  activityId := none
  payload := jsonb d.payload
  fetchedObject := storedObject d.requestObject
  carriedSnapshot := false
  carriedObjectSnapshot := false

/-- The fetched object that the worker reports, if any. -/
def reported : Option Json :=
  d.fetchedObject.filter fun value => value ≠ .null

/-- `record` -/
def recorder : List Command :=
  [.recordInbound] ++
  (if d.status = .acknowledged then [.receivedMeanwhile, .fetchedMeanwhile]
  else []) ++ [.linkInboundActivity]

/-- `receive` and `fetchObject` mark first: the request may not have recorded
its delivery yet, and it looks for the marks once it has. -/
def worker : List Command :=
  [.handle] ++
  (if d.listened then [.setReceived, .receiveInbound] else []) ++
  (match d.reported with
    | some document =>
        [.setFetchedObject document, .recordFetchedObject document]
    | none => []) ++ [.linkInboundActivity]

/-- The stored activities once the listener has run. -/
def activities : Activities :=
  match d.carried with
  | some activity => d.stored.store activity
  | none => d.stored

end Scenario

/-- Only a delivery Fedify verified and answered with 2xx is linked. -/
def linkable (row : ActivityDelivery) : Bool :=
  (row.status == .received || row.status == .acknowledged) &&
    row.verificationResult == .verified && row.activityId.isNone

/-- The activity that the IRI of a delivery names. -/
def activityOf (activities : Activities) (row : ActivityDelivery) :
    Option ReceivedActivity :=
  row.activityIri.bind activities.findByIri

/-- Hold the row for the rest of a transaction. -/
def Reception.hold (s : Reception) (i : Thread) (row : ActivityDelivery) :
    Reception :=
  { s with held := some (i, row) }

/-- An update waits until no transaction holds the row, and decides on the
version that it finds then. -/
def runUpdate (i : Thread) (s : Reception) (row : ActivityDelivery) :
    Update → Reception × List Command
  | .receive =>
      if row.status = .acknowledged then
        ({ s with row := some { row with status := .received } }, [])
      else (s, [])
  | .fetchedObject document =>
      (s.hold i { row with fetchedObject := storedObject (some document) },
        [.decideCarried])
  | .link activityId =>
      if linkable row then
        (s.hold i { row with activityId := some activityId }, [.decideCarried])
      else (s, [])

/-- One statement of a thread. -/
def runCommand (d : Scenario) (i : Thread) :
    Command → Reception → Option (Reception × List Command)
  | .recordInbound, s => some ({ s with row := some d.recorded }, [])
  | .receivedMeanwhile, s =>
      some (s, if s.received then [.receiveInbound] else [])
  | .fetchedMeanwhile, s =>
      some (s, match s.fetchedObject with
        | some document => [.recordFetchedObject document]
        | none => [])
  | .handle, s => some ({ s with activities := d.activities }, [])
  | .setReceived, s => some ({ s with received := true }, [])
  | .setFetchedObject document, s =>
      some ({ s with fetchedObject := some document }, [])
  | .receiveInbound, s =>
      some (s, if s.row.any fun row => row.status == .acknowledged then
        [.update .receive] else [])
  | .recordFetchedObject document, s =>
      some (s, if s.row.isSome then [.update (.fetchedObject document)] else [])
  | .linkInboundActivity, s =>
      some (s, match s.row.filter linkable with
        | some row =>
            match activityOf s.activities row with
            | some activity => [.update (.link activity.id)]
            | none => []
        | none => [])
  | .update update, s =>
      match s.held, s.row with
      | some _, _ => none
      | none, some row => some (runUpdate i s row update)
      | none, none => some (s, [])
  | .decideCarried, s =>
      match s.held with
      | some (_, row) =>
          some (s, match row.activityId with
            | some activityId =>
                [.decideActivity activityId row.payload row.fetchedObject]
            | none => [.commit])
      | none => none
  | .decideActivity activityId payload fetchedObject, s =>
      some (s, match s.activities.findById activityId with
        | some activity => [.decideObject activity payload fetchedObject]
        | none => [.commit])
  | .decideObject activity payload fetchedObject, s =>
      let object := (s.activities.findById activity.id).bind
        ReceivedActivity.object
      some (s, [.mark (carriedMarks payload fetchedObject activity object)])
  | .mark marks, s =>
      match s.held with
      | some (holder, row) =>
          some (s.hold holder { row with
            carriedSnapshot := marks.1
            carriedObjectSnapshot := marks.2 }, [.commit])
      | none => none
  | .commit, s =>
      match s.held with
      | some (_, row) => some ({ s with row := some row, held := none }, [])
      | none => none

open Interleaving

abbrev ReceptionState := State Reception Command Thread

def receptionMachine (d : Scenario) : Machine Reception Command Thread where
  run := runCommand d

/-- Neither process has done anything yet. -/
def Scenario.start (d : Scenario) : ReceptionState where
  shared :=
    { row := none
      held := none
      received := false
      fetchedObject := none
      activities := d.stored }
  threads
    | .recorder => d.recorder
    | .worker => d.worker

/-- The recorder runs to its end before the worker. -/
def Scenario.sequential (d : Scenario) : ReceptionState :=
  (d.start.runAlone (receptionMachine d) .recorder 40).runAlone
    (receptionMachine d) .worker 40

end DrFed.Delivery
