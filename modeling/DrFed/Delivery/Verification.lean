import DrFed.Delivery.Outbound
import DrFed.Delivery.Reception

/-!
# The verification summary of an inbound delivery

A completion report lists every evaluation of a signature or proof that was
made for a request.  The delivery keeps one of them.  Evaluations are objects
and are told apart by their identity.
-/

namespace DrFed.Delivery

inductive ActivityDeliveryVerificationMechanism where
  | httpSignature | ldSignature | objectIntegrityProof
  deriving DecidableEq

/-! ## Completion reports -/

structure InboxVerificationKey where
  /-- The `href` of the key. -/
  id : Option JsString
  publicKey : JsString
  deriving DecidableEq

inductive KeyFetchResult where
  | status (status : ℕ)
  | error (error : Thrown)

inductive CheckRejection where
  | invalidSignature
  | keyFetchError (result : KeyFetchResult)

inductive CheckStatus where
  | verified (key : InboxVerificationKey)
  | rejected (reason : CheckRejection)
  | error (error : Thrown)

structure InboxSignatureCheck where
  status : CheckStatus
  declaredKeyId : Option JsString
  triedKeys : List InboxVerificationKey

inductive Mechanism where
  | http | linkedData | objectIntegrity
  deriving DecidableEq

inductive AttemptRejection where
  | noSignature
  | signatureVerificationFailed
  | uncoveredAttribution (attributionIds : List JsString)
  | missingOwner
  | proofPolicy (type : String)
  | other (type : String)

inductive AttemptStatus where
  | verified (signatures : List InboxSignatureCheck)
  | rejected (reason : AttemptRejection)
  | error (error : Thrown)

structure InboxVerificationAttempt where
  /-- The identity of the object. -/
  identity : ℕ
  mechanism : Mechanism
  /-- The JSON pointer of the subject. -/
  pointer : Option JsString
  checks : List InboxSignatureCheck
  status : AttemptStatus

inductive AuthenticationRejection where
  | actorKeyMismatch (key : InboxVerificationKey) (actorIds : List JsString)
  | invalidNonce
  | proofPolicy (policy : String) (detail : Option String)
  | verificationFailed

inductive InboxAuthentication where
  | verified (attempts : List InboxVerificationAttempt)
  | rejected (reason : AuthenticationRejection)
  | skipped
  | notDetermined

inductive Disposition where
  | failed (reason : String) (error : Option Thrown)
  | rejected (reason : String)
  | settled

inductive InboxRequestOutcome where
  | exception (error : Thrown)
  | response (status : ℕ) (disposition : Disposition)

structure InboxRequestReport where
  attempts : List InboxVerificationAttempt
  authentication : InboxAuthentication
  outcome : InboxRequestOutcome
  /-- The identity tells the objects of the report apart. -/
  objects : ∀ attempt ∈ attempts, ∀ other ∈ attempts,
    attempt.identity = other.identity → attempt = other

abbrev Headers := List (JsString × JsString)

/-! ## Declared keys -/

/-- A letter of a pattern with the flags `iu`. -/
def foldsTo (letter : Char) (c : UInt16) : Bool :=
  c == unit letter || c == unit letter.toUpper ||
    (letter == 'k' && c == 0x212a) || (letter == 's' && c == 0x17f)

/-- Read a word of a pattern with the flags `iu`. -/
def readFolded : List Char → JsString → Option JsString
  | [], rest => some rest
  | _ :: _, [] => none
  | letter :: word, c :: rest =>
      if foldsTo letter c then readFolded word rest else none

/-- `/^keyid="(?<keyId>[^"]*)"/iu` -/
def readKeyId (value : JsString) : Option JsString :=
  match readFolded "keyid".toList value with
  | some (equals :: quote :: rest) =>
      if equals = unit '=' ∧ quote = 0x22 ∧ rest.contains 0x22 then
        some (rest.takeWhile (· ≠ 0x22))
      else none
  | _ => none

/-- `/keyid="(?<keyId>[^"]*)"/iu` -/
def matchKeyId : JsString → Option JsString
  | [] => none
  | c :: rest => (readKeyId (c :: rest)).or (matchKeyId rest)

/-- `\s` -/
def isSpace (c : UInt16) : Bool :=
  (0x9 ≤ c && c ≤ 0xd) || (0x2000 ≤ c && c ≤ 0x200a) ||
    [0x20, 0xa0, 0x1680, 0x2028, 0x2029, 0x202f, 0x205f, 0x3000,
      0xfeff].contains c

/-- `/^signature\s/iu` -/
def isSignatureScheme (value : JsString) : Bool :=
  match readFolded "signature".toList value with
  | some (c :: _) => isSpace c
  | _ => false

section Url

/- Whether a string parses as a URL. -/
variable (canParse : JsString → Bool)

/-- Keep a URL that PostgreSQL text can hold. -/
def iri (value : JsString) : Option JsString :=
  if !value.contains 0 && canParse value then some value else none

def declaredKeyId (headers : Headers) : Option JsString :=
  let authorization := headers.lookup (js "authorization")
  let declarations := [headers.lookup (js "signature-input"),
    headers.lookup (js "signature"),
    authorization.filter isSignatureScheme]
  (declarations.findSome? fun value => value.bind matchKeyId).bind
    (iri canParse)

/-! ## Evaluations -/

def CheckStatus.isVerified : CheckStatus → Bool
  | .verified _ => true
  | _ => false

def AttemptStatus.isVerified : AttemptStatus → Bool
  | .verified _ => true
  | _ => false

def InboxAuthentication.isVerified : InboxAuthentication → Bool
  | .verified _ => true
  | _ => false

def InboxAuthentication.isNotDetermined : InboxAuthentication → Bool
  | .notDetermined => true
  | _ => false

namespace InboxVerificationAttempt

def signatures (attempt : InboxVerificationAttempt) :
    List InboxSignatureCheck :=
  match attempt.status with
  | .verified signatures => signatures
  | _ => []

def verifiedCheck (attempt : InboxVerificationAttempt) :
    Option InboxSignatureCheck :=
  attempt.checks.find? fun check => check.status.isVerified

end InboxVerificationAttempt

/-- Only attribution, ownership or a proof policy stood in the way. -/
def attributionFailure (attempt : InboxVerificationAttempt) : Bool :=
  match attempt.status with
  | .rejected (.uncoveredAttribution _) | .rejected .missingOwner
  | .rejected (.proofPolicy _) =>
      attempt.checks.any fun check => check.status.isVerified
  | _ => false

def isMeaningful (report : InboxRequestReport)
    (attempt : InboxVerificationAttempt) : Bool :=
  !attempt.checks.isEmpty ||
    match attempt.status with
    | .rejected .noSignature => false
    | .rejected _ => true
    | .error _ => !report.authentication.isNotDetermined
    | .verified _ => false

def isRoot (attempt : InboxVerificationAttempt) : Bool :=
  attempt.pointer.all List.isEmpty

/-- The evaluations to choose from: those of the root where there are any. -/
def eligible (report : InboxRequestReport) : List InboxVerificationAttempt :=
  let meaningful := report.attempts.filter (isMeaningful report)
  let root := meaningful.filter isRoot
  if root.isEmpty then meaningful else root

/-- `includes` compares objects by their identity. -/
def includes (attempts : List InboxVerificationAttempt)
    (candidate : InboxVerificationAttempt) : Bool :=
  attempts.any fun attempt => attempt.identity == candidate.identity

def selectAttempt (report : InboxRequestReport) :
    Option InboxVerificationAttempt :=
  let eligible := eligible report
  match report.authentication with
  | .verified attempts =>
      attempts.find? fun candidate =>
        includes eligible candidate && !candidate.signatures.isEmpty
  | _ =>
      (eligible.reverse.find? fun candidate =>
          candidate.status.isVerified && !candidate.signatures.isEmpty).or
        ((eligible.reverse.find? attributionFailure).or eligible.getLast?)

def selectedCheck (attempt : InboxVerificationAttempt) (verified : Bool) :
    Option InboxSignatureCheck :=
  match attempt.status with
  | .verified signatures => signatures.head?
  | _ =>
      if verified then attempt.verifiedCheck
      else
        (attempt.checks.reverse.find? fun check =>
          !check.status.isVerified).or attempt.checks.getLast?

/-! ## Details -/

def describe (error : Thrown) : String := showJs (describeError error 0)

def checkDetail (check : Option InboxSignatureCheck) : Option String :=
  match check.map InboxSignatureCheck.status with
  | some (.error error) => some (describe error)
  | some (.rejected .invalidSignature) => some "invalidSignature"
  | some (.rejected (.keyFetchError (.status status))) =>
      some ("keyFetchError: " ++ toString status)
  | some (.rejected (.keyFetchError (.error error))) =>
      some ("keyFetchError: " ++ describe error)
  | _ => none

def joinIris (iris : List JsString) : String :=
  ", ".intercalate (iris.map showJs)

def authenticationFailure : InboxAuthentication → Option String
  | .rejected (.actorKeyMismatch key actorIds) =>
      some ("actorKeyMismatch: " ++ (key.id.map showJs).getD "unknown key" ++
        "; actors: " ++ joinIris actorIds)
  | .rejected .invalidNonce => some "invalidNonce"
  | .rejected (.proofPolicy policy detail) =>
      some ("proofPolicy: " ++ policy ++
        (detail.map fun type => ": " ++ type).getD "")
  | _ => none

/-- Why an evaluation failed. -/
def attemptDetail (attempt : Option InboxVerificationAttempt)
    (check : Option InboxSignatureCheck) : Option String :=
  match attempt.map InboxVerificationAttempt.status with
  | some (.error error) => some (describe error)
  | some (.rejected (.uncoveredAttribution attributionIds)) =>
      some ("uncoveredAttribution: " ++ joinIris attributionIds)
  | some (.rejected .missingOwner) => some "missingOwner"
  | some (.rejected (.proofPolicy type)) => some ("proofPolicy: " ++ type)
  | some (.rejected .noSignature) =>
      some ((checkDetail check).getD "noSignature")
  | some (.rejected .signatureVerificationFailed) =>
      some ((checkDetail check).getD "signatureVerificationFailed")
  | some (.rejected (.other type)) => some ((checkDetail check).getD type)
  | _ => checkDetail check

def refusalDetail (report : InboxRequestReport)
    (attempt : Option InboxVerificationAttempt)
    (check : Option InboxSignatureCheck) : Option String :=
  match report.outcome with
  | .exception error => some (describe error)
  | .response status disposition =>
      if 200 ≤ status ∧ status < 300 then none
      else
        let refusal := (authenticationFailure report.authentication).or
          (attemptDetail attempt check)
        match disposition with
        | .failed reason none => some reason
        | .failed reason (some error) =>
            some (reason ++ ": " ++ describe error)
        | .rejected reason =>
            if reason ≠ "authentication" then some reason else refusal
        | .settled => refusal

def httpDeclaration (report : Option InboxRequestReport) (headers : Headers) :
    Option JsString :=
  let http := (report.map InboxRequestReport.attempts).getD [] |>.filter
    fun attempt => attempt.mechanism == .http
  let succeeded := http.find? fun attempt => attempt.status.isVerified
  let httpCheck :=
    (succeeded.bind InboxVerificationAttempt.verifiedCheck).or
      (http.flatMap InboxVerificationAttempt.checks).head?
  ((httpCheck.bind InboxSignatureCheck.declaredKeyId).bind (iri canParse)).or
    (declaredKeyId canParse headers)

/-! ## The summary -/

structure VerificationSummary where
  mechanism : Option ActivityDeliveryVerificationMechanism
  result : ActivityDeliveryVerificationResult
  key : Option InboxVerificationKey
  keyIri : Option JsString
  signedKeyIri : Option JsString
  detail : Option String

def Mechanism.column : Mechanism → ActivityDeliveryVerificationMechanism
  | .http => .httpSignature
  | .linkedData => .ldSignature
  | .objectIntegrity => .objectIntegrityProof

def isKeyFetchError (check : Option InboxSignatureCheck) : Bool :=
  match check.map InboxSignatureCheck.status with
  | some (.rejected (.keyFetchError _)) => true
  | _ => false

/-- The key of a check that succeeded, or the last key that was tried. -/
def keyOf (check : Option InboxSignatureCheck) :
    Option InboxVerificationKey :=
  check.bind fun check =>
    match check.status with
    | .verified key => some key
    | _ => check.triedKeys.getLast?

def summarizeAttempt (report : InboxRequestReport)
    (attempt : InboxVerificationAttempt) (signedKeyIri : Option JsString) :
    VerificationSummary :=
  let verified := attempt.status.isVerified || attributionFailure attempt
  let check := selectedCheck attempt verified
  let key := keyOf check
  { mechanism := some attempt.mechanism.column
    result :=
      if verified then .verified
      else if isKeyFetchError check then .keyFetchError
      else .invalidSignature
    key
    keyIri :=
      ((key.bind InboxVerificationKey.id).bind (iri canParse)).or
        ((check.bind InboxSignatureCheck.declaredKeyId).bind (iri canParse))
    signedKeyIri
    detail := refusalDetail report (some attempt) check }

def summarizeVerification (report : Option InboxRequestReport)
    (headers : Headers) : VerificationSummary :=
  let signedKeyIri := httpDeclaration canParse report headers
  let empty (result : ActivityDeliveryVerificationResult)
      (detail : Option String) : VerificationSummary :=
    { mechanism := none, result, key := none, keyIri := none, signedKeyIri
      detail }
  match report with
  | none => empty .unobserved none
  | some report =>
      match selectAttempt report with
      | none =>
          empty
            (if !report.authentication.isVerified &&
                report.authentication.isNotDetermined then .unattempted
            else .noSignature)
            (refusalDetail report none none)
      | some attempt => summarizeAttempt canParse report attempt signedKeyIri

end Url

end DrFed.Delivery
