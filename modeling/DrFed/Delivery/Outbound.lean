import DrFed.Js.Text
import DrFed.Store.Tables
import Mathlib.Data.BitVec
import Mathlib.Data.List.Sort

/-!
# Outbound deliveries and their settlement

A delivery is recorded as queued and settled by whoever learns how an attempt
ended: the invocation that started it, or the queue worker that handles a
message.  A settlement is one transaction over the delivery and its attempts.
-/

namespace DrFed.Delivery

open Store (Uuid Instant)

/-! ## Tables -/

inductive OutboundStatus where
  | queued | sent | failed | permanentlyFailed | abandoned
  deriving DecidableEq

/-- The statuses that a settlement may still change. -/
def OutboundStatus.pending : OutboundStatus → Bool
  | .queued | .failed => true
  | _ => false

/-- The columns of an outbound delivery that a settlement reads or writes. -/
structure OutboundDelivery where
  id : Uuid
  activityIri : JsString
  inboxUrl : JsString
  status : OutboundStatus
  statusCode : Option ℤ
  error : Option JsString
  responseBody : Option JsString
  created : Instant
  completed : Option Instant
  deriving DecidableEq

structure DeliveryAttempt where
  id : Uuid
  deliveryId : Uuid
  succeeded : Bool
  statusCode : Option ℤ
  error : Option JsString
  responseBody : Option JsString
  created : Instant
  deriving DecidableEq

/-- The two tables; attempts in the order of their insertion. -/
structure Deliveries where
  rows : List OutboundDelivery
  attempts : List DeliveryAttempt

def Deliveries.empty : Deliveries := ⟨[], []⟩

/-- The check constraints that a statement can violate. -/
inductive ConstraintViolation where
  | activityDeliveriesPkey
  | activityDeliveriesStatusCodeCheck
  | activityDeliveryAttemptsStatusCodeCheck
  | activityDeliveryAttemptsErrorCheck
  deriving DecidableEq

def checkStatusCode (statusCode : Option ℤ) : Bool :=
  statusCode.all fun code => 100 ≤ code && code ≤ 599

/-- PostgreSQL's text holds no U+0000. -/
def text (value : Option JsString) : Option JsString :=
  value.map fun units => units.map fun c => if c = 0 then 0xfffd else c

/-! ## Starting a delivery -/

/-- What starting a delivery chooses. -/
structure OutboundDeliveryEntry where
  id : Uuid
  activityIri : JsString
  inboxUrl : JsString
  created : Instant

def recordOutbound (entry : OutboundDeliveryEntry) (s : Deliveries) :
    Except ConstraintViolation Deliveries :=
  if s.rows.any fun row => row.id == entry.id then
    .error .activityDeliveriesPkey
  else
    .ok { s with
      rows := s.rows ++ [
        { id := entry.id
          activityIri := entry.activityIri
          inboxUrl := entry.inboxUrl
          status := .queued
          statusCode := none
          error := none
          responseBody := none
          created := entry.created
          completed := none }] }

/-! ## Settling a delivery -/

inductive SettlementStatus where
  | sent | failed | permanentlyFailed | abandoned
  deriving DecidableEq

def SettlementStatus.toOutbound : SettlementStatus → OutboundStatus
  | .sent => .sent
  | .failed => .failed
  | .permanentlyFailed => .permanentlyFailed
  | .abandoned => .abandoned

/-- How a delivery settles, apart from which delivery it is. -/
structure Settlement where
  status : SettlementStatus
  statusCode : Option ℤ
  error : Option JsString
  responseBody : Option JsString
  attempted : Bool

structure OutboundSettlement extends Settlement where
  activityIri : JsString
  inboxUrl : JsString
  id : Option Uuid

/-- The deliveries that a settlement may settle. -/
def OutboundSettlement.matches (entry : OutboundSettlement)
    (row : OutboundDelivery) : Bool :=
  row.activityIri == entry.activityIri && row.inboxUrl == entry.inboxUrl &&
    row.status.pending && entry.id.all fun id => row.id == id

/-- The more recent delivery comes first. -/
def newer (row other : OutboundDelivery) : Prop :=
  other.created < row.created ∨
    (other.created = row.created ∧ other.id ≤ row.id)

instance : DecidableRel newer := fun row other =>
  inferInstanceAs (Decidable (other.created < row.created ∨
    (other.created = row.created ∧ other.id ≤ row.id)))

/-- The row that a settlement selects. -/
def OutboundSettlement.select (entry : OutboundSettlement) (s : Deliveries) :
    Option OutboundDelivery :=
  ((s.rows.filter entry.matches).insertionSort newer).head?

/-- The attempt that a settlement of a delivery keeps. -/
def OutboundSettlement.attempt (entry : OutboundSettlement) (attemptId : Uuid)
    (completed : Instant) (deliveryId : Uuid) : DeliveryAttempt where
  id := attemptId
  deliveryId := deliveryId
  succeeded := entry.status == .sent
  statusCode := entry.statusCode
  error := text entry.error
  responseBody := text entry.responseBody
  created := completed

/-- A delivery with a settlement applied to it. -/
def OutboundDelivery.settled (row : OutboundDelivery)
    (entry : OutboundSettlement) (completed : Instant) : OutboundDelivery :=
  { row with
    statusCode := entry.statusCode
    error := text entry.error
    responseBody := text entry.responseBody
    status := entry.status.toOutbound
    completed := some completed }

def checkAttempt (attempt : DeliveryAttempt) : Except ConstraintViolation Unit :=
  if !checkStatusCode attempt.statusCode then
    .error .activityDeliveryAttemptsStatusCodeCheck
  else if attempt.succeeded != attempt.error.isNone then
    .error .activityDeliveryAttemptsErrorCheck
  else .ok ()

/-- Settle the most recent pending delivery to an inbox.  The clock and the
identifier of the attempt come from outside. -/
def settleOutbound (attemptId : Uuid) (completed : Instant)
    (entry : OutboundSettlement) (s : Deliveries) :
    Except ConstraintViolation (Bool × Deliveries) :=
  match entry.select s with
  | none => .ok (false, s)
  | some delivery => do
      let attempt := entry.attempt attemptId completed delivery.id
      if entry.attempted then checkAttempt attempt
      if !checkStatusCode entry.statusCode then
        .error .activityDeliveriesStatusCodeCheck
      return (true,
        { rows := s.rows.map fun row =>
            if row.id = delivery.id then row.settled entry completed else row
          attempts :=
            if entry.attempted then s.attempts ++ [attempt]
            else s.attempts })

/-! ## What an attempt shows -/

/-- A thrown value, as far as it is described. -/
inductive Thrown where
  | value (description : JsString)
  | error (description : JsString)
  | causedError (description : JsString) (cause : Thrown)
  | sendActivityError (description : JsString) (statusCode : ℤ)
      (message responseBody : JsString)

structure Failure where
  statusCode : Option ℤ
  error : JsString
  responseBody : Option JsString

def maximumCauses : ℕ := 3

def describeError (thrown : Thrown) (depth : ℕ) : JsString :=
  match thrown with
  | .value description | .error description
  | .sendActivityError description _ _ _ => description
  | .causedError description cause =>
      if depth < maximumCauses then
        description ++ js " (cause: " ++ describeError cause (depth + 1) ++
          js ")"
      else description

def failureOf : Thrown → Failure
  | .sendActivityError _ statusCode message responseBody =>
      { statusCode :=
          if 100 ≤ statusCode ∧ statusCode ≤ 599 then some statusCode else none
        error := message
        responseBody := some responseBody }
  | thrown => ⟨none, describeError thrown 0, none⟩

def Failure.settlement (failure : Failure) (status : SettlementStatus)
    (attempted : Bool) : Settlement where
  status
  statusCode := failure.statusCode
  error := some failure.error
  responseBody := failure.responseBody
  attempted

structure ObservedEvent where
  name : String
  /-- The attribute `activitypub.inbox.url`. -/
  inboxUrl : Option JsString

structure ObservedSpan where
  name : String
  events : List ObservedEvent

structure ObservedResponse where
  url : JsString
  status : ℤ
  locations : List JsString

/-- Whether Fedify reported that the activity was sent to the inbox. -/
def reportsSent (spans : List ObservedSpan) (inboxUrl : JsString) : Bool :=
  spans.any fun span =>
    span.name == "activitypub.send_activity" &&
      span.events.any fun event =>
        event.name == "activitypub.activity.sent" &&
          event.inboxUrl == some inboxUrl

def redirection (response : ObservedResponse) : List JsString :=
  if 300 ≤ response.status ∧ response.status < 400 then response.locations
  else []

/-- The status that a delivery ended with, along its redirections. -/
def deliveredStatus (responses : List ObservedResponse) (inboxUrl : JsString) :
    Option ℤ :=
  (responses.foldl (fun (hop : List JsString × Option ℤ) response =>
    if !hop.1.contains response.url then hop
    else
      let next := redirection response
      (if next.isEmpty then hop.1 else next, some response.status))
    ([inboxUrl], none)).2

/-! ## Synchronous deliveries -/

/-- How sending to one group ended. -/
inductive SendOutcome where
  | threw (error : Thrown)
  | returned (spans : List ObservedSpan) (responses : List ObservedResponse)

def sentSettlement (statusCode : Option ℤ) : Settlement where
  status := .sent
  statusCode
  error := none
  responseBody := none
  attempted := true

def undelivered : Settlement where
  status := .permanentlyFailed
  statusCode := none
  error := some (js "Fedify made no delivery to the inbox.")
  responseBody := none
  attempted := false

/-- The settlement that `deliverActivity` makes of the delivery it started. -/
def deliverySettlement (synchronous enqueued : Bool) (inboxUrl : JsString) :
    SendOutcome → Option Settlement
  | .threw error => some ((failureOf error).settlement .failed true)
  | .returned spans responses =>
      if synchronous then
        some (if reportsSent spans inboxUrl then
          sentSettlement (deliveredStatus responses inboxUrl)
        else undelivered)
      else if !enqueued then some undelivered
      else none

/-! ## Queue attempts -/

structure QueuedAttempt where
  activityIri : JsString
  inboxUrl : JsString
  failure : Option Failure
  permanent : Option Failure
  sent : Bool
  statusCode : Option ℤ
  outcomes : List String

/-- What Fedify's outbox worker reports while it handles a message. -/
inductive OutboxReport where
  | error (error : Thrown)
  | permanentHttpFailure (error : Thrown)
  | permanentFailure (message : JsString)

def QueuedAttempt.note (attempt : QueuedAttempt) :
    OutboxReport → QueuedAttempt
  | .error error => { attempt with failure := some (failureOf error) }
  | .permanentHttpFailure error =>
      { attempt with permanent := some (failureOf error) }
  | .permanentFailure message =>
      { attempt with permanent := some ⟨none, message, none⟩ }

/-- How the handler of a message ended. -/
inductive HandlerOutcome where
  | threw (error : Thrown)
  | returned (spans : List ObservedSpan) (outbox : List String)
      (responses : List ObservedResponse)

structure OutboxMessage where
  activityId : JsString
  inbox : JsString
  /-- The delivery that the message names, if it is a UUID. -/
  deliveryId : Option Uuid

/-- The attempt that `handle` makes of a message. -/
def OutboxMessage.handle (message : OutboxMessage)
    (reported : List OutboxReport) (outcome : HandlerOutcome) :
    QueuedAttempt :=
  let attempt := reported.foldl QueuedAttempt.note
    { activityIri := message.activityId
      inboxUrl := message.inbox
      failure := none
      permanent := none
      sent := false
      statusCode := none
      outcomes := [] }
  match outcome with
  | .threw error =>
      { attempt with failure := some (attempt.failure.getD (failureOf error)) }
  | .returned spans outbox responses =>
      { attempt with
        sent := reportsSent spans message.inbox
        statusCode := deliveredStatus responses message.inbox
        outcomes := outbox }

/-- What the worker reported, as settlements in order. -/
def queuedSettlements (attempt : QueuedAttempt) : List Settlement :=
  if attempt.sent then [sentSettlement attempt.statusCode]
  else
    let failed : List Settlement :=
      match attempt.failure with
      | none => []
      | some failure =>
          [failure.settlement
            (if attempt.permanent.isNone &&
                attempt.outcomes.contains "abandoned" then .abandoned
            else .failed) true]
    match attempt.permanent with
    | none => failed
    | some permanent => failed ++ [permanent.settlement .permanentlyFailed false]

/-! ## Runs -/

/-- The settlements that the callers of `settleOutbound` make. -/
inductive Settles : OutboundSettlement → Prop
  | delivered (id : Uuid) (activityIri inboxUrl : JsString)
      (synchronous enqueued : Bool) (outcome : SendOutcome)
      (settlement : Settlement)
      (h : deliverySettlement synchronous enqueued inboxUrl outcome =
        some settlement) :
      Settles ⟨settlement, activityIri, inboxUrl, some id⟩
  | queued (message : OutboxMessage) (reported : List OutboxReport)
      (outcome : HandlerOutcome) (settlement : Settlement)
      (h : settlement ∈ queuedSettlements (message.handle reported outcome)) :
      Settles ⟨settlement, message.activityId, message.inbox,
        message.deliveryId⟩

/-- A delivery is started, or a settlement is made.  A transaction that fails
changes nothing, and neither does one that is never run. -/
inductive DeliveryStep : Deliveries → Deliveries → Prop
  | start (entry : OutboundDeliveryEntry) {s s' : Deliveries}
      (h : recordOutbound entry s = .ok s') : DeliveryStep s s'
  | settle (attemptId : Uuid) (completed : Instant)
      (entry : OutboundSettlement) (hentry : Settles entry) (found : Bool)
      {s s' : Deliveries}
      (h : settleOutbound attemptId completed entry s = .ok (found, s')) :
      DeliveryStep s s'

/-- A sequence of deliveries started and settlements made. -/
abbrev DeliveryRun : Deliveries → Deliveries → Prop :=
  Relation.ReflTransGen DeliveryStep

end DrFed.Delivery
