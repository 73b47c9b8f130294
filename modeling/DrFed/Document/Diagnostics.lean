import DrFed.Js.Path

/-!
# Diagnostics and the reporter

A check produces diagnostics in the order in which it finds them.  The
reporter of one validation keeps the first hundred of them, replaces the last
by a marker when there are more, and remembers whether the checks finished.
-/

namespace DrFed.Document

inductive DiagnosticCategory where
  | vocabulary | authority | support | compatibility
  deriving DecidableEq

inductive DiagnosticSeverity where
  | error | warning
  deriving DecidableEq

/-- Stable classifications; human-readable messages may change. -/
inductive DiagnosticReason where
  | invalidDocumentRoot
  | nonJsonValue
  | invalidValueShape
  | invalidIri
  | invalidDatetime
  | invalidMultiplicity
  | propertyNotApplicable
  | invalidContext
  | unauthorizedLocalIdentity
  | serverOwnedFieldConflict
  | contextUnavailableOffline
  | unsupportedContextForm
  | unsupportedType
  | unsupportedProperty
  | unsupportedValueForm
  | processingLimitExceeded
  | diagnosticLimitReached
  | implicitActivitystreamsContext
  | extensionPropertyUnchecked
  | emptyPropertyList
  | absentIdentifier
  deriving DecidableEq

/-- The table `diagnosticReasons`. -/
def diagnosticReasons :
    DiagnosticReason → DiagnosticCategory × DiagnosticSeverity
  | .invalidDocumentRoot | .nonJsonValue | .invalidValueShape | .invalidIri
  | .invalidDatetime | .invalidMultiplicity | .propertyNotApplicable
  | .invalidContext => (.vocabulary, .error)
  | .unauthorizedLocalIdentity | .serverOwnedFieldConflict =>
      (.authority, .error)
  | .contextUnavailableOffline | .unsupportedContextForm | .unsupportedType
  | .unsupportedProperty | .unsupportedValueForm | .processingLimitExceeded
  | .diagnosticLimitReached => (.support, .error)
  | .implicitActivitystreamsContext | .extensionPropertyUnchecked
  | .emptyPropertyList | .absentIdentifier => (.compatibility, .warning)

structure Diagnostic where
  reason : DiagnosticReason
  path : FieldPath
  message : String
  deriving DecidableEq

def Diagnostic.category (d : Diagnostic) : DiagnosticCategory :=
  (diagnosticReasons d.reason).1

def Diagnostic.severity (d : Diagnostic) : DiagnosticSeverity :=
  (diagnosticReasons d.reason).2

def Diagnostic.isError (d : Diagnostic) : Bool :=
  d.severity == .error

/-- Some diagnostic of a list is an error. -/
def hasError (diagnostics : List Diagnostic) : Bool :=
  diagnostics.any Diagnostic.isError

@[simp] theorem hasError_nil : hasError [] = false := rfl

@[simp] theorem hasError_append (xs ys : List Diagnostic) :
    hasError (xs ++ ys) = (hasError xs || hasError ys) :=
  List.any_append

@[simp] theorem hasError_cons (d : Diagnostic) (ds : List Diagnostic) :
    hasError (d :: ds) = (d.isError || hasError ds) := rfl

theorem hasError_of_mem {ds : List Diagnostic} {d : Diagnostic} (hmem : d ∈ ds)
    (herror : d.isError = true) : hasError ds = true :=
  List.any_eq_true.mpr ⟨d, hmem, herror⟩

/-- Support findings are errors. -/
theorem isError_of_support {d : Diagnostic} (h : d.category = .support) :
    d.isError = true := by
  revert h
  unfold Diagnostic.isError Diagnostic.severity Diagnostic.category
  cases d.reason <;> decide

/-! ## The reporter -/

def maximumDiagnostics : ℕ := 100

/-- What replaces the last kept diagnostic when there are more. -/
def limitDiagnostic : Diagnostic where
  reason := .diagnosticLimitReached
  path := []
  message := "Further diagnostics were omitted."

/-- The state that `createReporter` closes over. -/
structure Reporter where
  diagnostics : List Diagnostic
  complete : Bool
  truncated : Bool

def createReporter : Reporter where
  diagnostics := []
  complete := true
  truncated := false

namespace Reporter

def report (r : Reporter) (d : Diagnostic) : Reporter :=
  if r.truncated then r
  else if r.diagnostics.length = maximumDiagnostics then
    { diagnostics := r.diagnostics.set (maximumDiagnostics - 1) limitDiagnostic
      complete := false
      truncated := true }
  else
    { r with
      diagnostics := r.diagnostics ++ [d]
      complete := r.complete && d.category != .support }

def reportAll (r : Reporter) (ds : List Diagnostic) : Reporter :=
  ds.foldl report r

/-- The result has no error and all checks finished. -/
def accepts (r : Reporter) : Bool :=
  r.complete && !hasError r.diagnostics

/-- What every reporter satisfies: it is incomplete or cut off only together
with an error. -/
structure Sound (r : Reporter) : Prop where
  truncated : r.truncated = true → hasError r.diagnostics = true
  incomplete : r.complete = false → hasError r.diagnostics = true

theorem createReporter_sound : createReporter.Sound :=
  ⟨by simp [createReporter], by simp [createReporter]⟩

theorem hasError_limit {ds : List Diagnostic}
    (hlength : ds.length = maximumDiagnostics) :
    hasError (ds.set (maximumDiagnostics - 1) limitDiagnostic) = true := by
  refine hasError_of_mem (d := limitDiagnostic) ?_ (by decide)
  apply List.mem_set
  rw [hlength]
  decide

theorem Sound.report {r : Reporter} (h : r.Sound) (d : Diagnostic) :
    (r.report d).Sound := by
  unfold Reporter.report
  split
  · exact h
  · split
    next hlength => exact ⟨fun _ => hasError_limit hlength,
      fun _ => hasError_limit hlength⟩
    next htruncated hlength =>
      constructor
      · intro htrue
        exact absurd htrue htruncated
      · intro hfalse
        rw [Bool.and_eq_false_iff] at hfalse
        rcases hfalse with hfalse | hfalse
        · simp [h.incomplete hfalse]
        · have hsupport : d.category = .support := by simpa using hfalse
          simp [isError_of_support hsupport]

theorem Sound.reportAll {r : Reporter} (h : r.Sound) (ds : List Diagnostic) :
    (r.reportAll ds).Sound := by
  induction ds generalizing r with
  | nil => exact h
  | cons d ds ih => exact ih (h.report d)

/-- A reported error stays visible, whatever is dropped or overwritten. -/
theorem hasError_report {r : Reporter} (h : r.Sound) (d : Diagnostic)
    (herror : (hasError r.diagnostics || d.isError) = true) :
    hasError (r.report d).diagnostics = true := by
  unfold Reporter.report
  split
  next htruncated => exact h.truncated htruncated
  next =>
    split
    next hlength => exact hasError_limit hlength
    next => simpa using herror

theorem hasError_reportAll {r : Reporter} (h : r.Sound) (ds : List Diagnostic)
    (herror : (hasError r.diagnostics || hasError ds) = true) :
    hasError (r.reportAll ds).diagnostics = true := by
  induction ds generalizing r with
  | nil => simpa [reportAll] using herror
  | cons d ds ih =>
      refine ih (h.report d) ?_
      rw [Bool.or_eq_true]
      rw [hasError_cons, ← Bool.or_assoc, Bool.or_eq_true] at herror
      exact herror.imp (hasError_report h d) id

/-- Acceptance means that nothing reported was an error. -/
theorem accepts_reportAll {r : Reporter} (h : r.Sound) {ds : List Diagnostic}
    (haccepts : (r.reportAll ds).accepts = true) :
    hasError r.diagnostics = false ∧ hasError ds = false := by
  by_contra hcontra
  have herror : (hasError r.diagnostics || hasError ds) = true := by
    cases hr : hasError r.diagnostics <;> cases hd : hasError ds <;>
      simp_all
  have hfinal := hasError_reportAll h ds herror
  simp [accepts, hfinal] at haccepts

/-- A sound reporter without an error finished its checks. -/
theorem Sound.accepts_iff {r : Reporter} (h : r.Sound) :
    r.accepts = true ↔ hasError r.diagnostics = false := by
  constructor
  · intro haccepts
    simpa using (Bool.and_eq_true_iff.mp haccepts).2
  · intro hnone
    have hcomplete : r.complete = true := by
      by_contra hincomplete
      rw [h.incomplete (by simpa using hincomplete)] at hnone
      contradiction
    simp [accepts, hnone, hcomplete]

end Reporter

end DrFed.Document
