import DrFed.Delivery.Verification
import Mathlib.Data.List.Perm.Basic

/-!
# Faithful verification summaries

When the summary of a completion report says that a delivery was verified,
and what that depends on.
-/

namespace DrFed.Delivery

/-! ## Eligible evaluations -/

/-- A meaningful evaluation of the root, or any meaningful one where there is
none of the root. -/
structure Eligible (report : InboxRequestReport)
    (attempt : InboxVerificationAttempt) : Prop where
  mem : attempt ∈ report.attempts
  meaningful : isMeaningful report attempt = true
  root : isRoot attempt = true ∨ ∀ other ∈ report.attempts,
    isMeaningful report other = true → isRoot other = false

theorem mem_eligible {report : InboxRequestReport}
    {attempt : InboxVerificationAttempt} :
    attempt ∈ eligible report ↔ Eligible report attempt := by
  unfold eligible
  dsimp only
  split
  next hempty =>
    have hnone : ∀ other ∈ report.attempts,
        isMeaningful report other = true → isRoot other = false := by
      intro other hother hmeaningful
      rw [List.isEmpty_iff, List.filter_eq_nil_iff] at hempty
      exact Bool.not_eq_true _ ▸
        hempty other (List.mem_filter.mpr ⟨hother, hmeaningful⟩)
    rw [List.mem_filter]
    constructor
    · rintro ⟨hmem, hmeaningful⟩
      exact ⟨hmem, hmeaningful, .inr hnone⟩
    · intro h
      exact ⟨h.mem, h.meaningful⟩
  next hroot =>
    rw [List.mem_filter, List.mem_filter]
    constructor
    · rintro ⟨⟨hmem, hmeaningful⟩, hisRoot⟩
      exact ⟨hmem, hmeaningful, .inl hisRoot⟩
    · intro h
      refine ⟨⟨h.mem, h.meaningful⟩, h.root.resolve_right fun hnone => ?_⟩
      apply hroot
      rw [List.isEmpty_iff, List.filter_eq_nil_iff]
      intro other hother
      rw [List.mem_filter] at hother
      rw [hnone other hother.1 hother.2]
      exact Bool.false_ne_true

/-- An object of the report is included when it is a member. -/
theorem includes_eligible {report : InboxRequestReport}
    {attempt : InboxVerificationAttempt} (hmem : attempt ∈ report.attempts) :
    includes (eligible report) attempt = true ↔ Eligible report attempt := by
  rw [← mem_eligible, includes, List.any_eq_true]
  constructor
  · rintro ⟨other, hother, hsame⟩
    have heq := report.objects other (mem_eligible.mp hother).mem attempt hmem
      (beq_iff_eq.mp hsame)
    exact heq ▸ hother
  · intro h
    exact ⟨attempt, h, beq_self_eq_true _⟩

/-! ## Reports -/

/-- What holds of the reports that are summarized: a verified evaluation
carries a signature, and authentication rests on verified evaluations of the
report. -/
structure WellFormed (report : InboxRequestReport) : Prop where
  signed : ∀ attempt ∈ report.attempts, attempt.status.isVerified = true →
    attempt.signatures ≠ []
  authenticating : ∀ attempts, report.authentication = .verified attempts →
    ∀ attempt ∈ attempts, attempt ∈ report.attempts ∧
      attempt.status.isVerified = true

/-- A successful authentication rests on an eligible evaluation. -/
def AuthenticationEligible (report : InboxRequestReport) : Prop :=
  ∀ attempts, report.authentication = .verified attempts →
    ∃ attempt ∈ attempts, Eligible report attempt

/-- Two authentications that list the same evaluations. -/
inductive SameAuthentication :
    InboxAuthentication → InboxAuthentication → Prop
  | same (authentication : InboxAuthentication) :
      SameAuthentication authentication authentication
  | reordered (attempts others : List InboxVerificationAttempt)
      (h : attempts.Perm others) :
      SameAuthentication (.verified attempts) (.verified others)

/-- The same report, with its evaluations in another order. -/
structure Reordered (report other : InboxRequestReport) : Prop where
  attempts : report.attempts.Perm other.attempts
  authentication :
    SameAuthentication report.authentication other.authentication

/-- An evaluation that proves the signature of the delivery. -/
def Proves (attempt : InboxVerificationAttempt) : Prop :=
  attempt.status.isVerified = true ∨ attributionFailure attempt = true

section Summaries

variable (canParse : JsString → Bool)

/-- Whether the summary of a report says that the delivery was verified. -/
def SummarizedVerified (report : InboxRequestReport) (headers : Headers) :
    Prop :=
  (summarizeVerification canParse (some report) headers).result = .verified

structure Faithful (report : InboxRequestReport) (headers : Headers) :
    Prop where
  authenticated : report.authentication.isVerified = true →
    SummarizedVerified canParse report headers
  otherwise : report.authentication.isVerified = false →
    (SummarizedVerified canParse report headers ↔
      ∃ attempt, Eligible report attempt ∧ Proves attempt)
  order : ∀ other, Reordered report other →
    (SummarizedVerified canParse other headers ↔
      SummarizedVerified canParse report headers)

variable {report : InboxRequestReport} {headers : Headers}

/-- A delivery is summarized as verified when the evaluation selected for it
proves its signature. -/
theorem summarizedVerified_iff :
    SummarizedVerified canParse report headers ↔
      ∃ attempt, selectAttempt report = some attempt ∧ Proves attempt := by
  unfold SummarizedVerified summarizeVerification
  dsimp only
  split
  next hnone =>
    apply iff_of_false
    · dsimp only
      split <;> simp
    · rintro ⟨attempt, hsome, -⟩
      rw [hnone] at hsome
      cases hsome
  next attempt hsome =>
    have hresult : (summarizeAttempt canParse report attempt
        (httpDeclaration canParse (some report) headers)).result = .verified ↔
        Proves attempt := by
      unfold summarizeAttempt Proves
      dsimp only
      rw [← Bool.or_eq_true]
      split
      next hverified => exact iff_of_true rfl hverified
      next hverified =>
        apply iff_of_false _ hverified
        split <;> simp
    rw [hresult]
    constructor
    · intro hproves
      exact ⟨attempt, hsome, hproves⟩
    · rintro ⟨other, hother, hproves⟩
      rw [hsome] at hother
      exact Option.some.inj hother ▸ hproves

/-! ## Authenticated deliveries -/

theorem selectAttempt_authenticated
    {attempts : List InboxVerificationAttempt}
    (hauthenticated : report.authentication = .verified attempts) :
    selectAttempt report = attempts.find? fun candidate =>
      includes (eligible report) candidate && !candidate.signatures.isEmpty := by
  unfold selectAttempt
  rw [hauthenticated]

/-- An authenticated delivery is summarized as verified just when an eligible
evaluation authenticates it. -/
theorem summarizedVerified_authenticated (hwellFormed : WellFormed report)
    {attempts : List InboxVerificationAttempt}
    (hauthenticated : report.authentication = .verified attempts) :
    SummarizedVerified canParse report headers ↔
      ∃ attempt ∈ attempts, Eligible report attempt := by
  rw [summarizedVerified_iff, selectAttempt_authenticated hauthenticated]
  constructor
  · rintro ⟨attempt, hfind, -⟩
    have hmem := List.mem_of_find?_eq_some hfind
    have hcandidate := List.find?_some hfind
    rw [Bool.and_eq_true] at hcandidate
    have hincluded := hcandidate.1
    obtain ⟨hreported, -⟩ := hwellFormed.authenticating _ hauthenticated
      attempt hmem
    exact ⟨attempt, hmem, (includes_eligible hreported).mp hincluded⟩
  · rintro ⟨attempt, hmem, heligible⟩
    obtain ⟨hreported, hverified⟩ := hwellFormed.authenticating _
      hauthenticated attempt hmem
    have hsigned := hwellFormed.signed attempt hreported hverified
    have hcandidate : (includes (eligible report) attempt &&
        !attempt.signatures.isEmpty) = true := by
      rw [(includes_eligible hreported).mpr heligible]
      simpa using hsigned
    cases hfind : attempts.find? fun candidate =>
        includes (eligible report) candidate && !candidate.signatures.isEmpty with
    | none =>
        exact absurd hcandidate (List.find?_eq_none.mp hfind attempt hmem)
    | some selected =>
        have hselected := (hwellFormed.authenticating _ hauthenticated selected
          (List.mem_of_find?_eq_some hfind)).2
        exact ⟨selected, rfl, .inl hselected⟩

/-! ## Other deliveries -/

theorem selectAttempt_otherwise
    (hauthentication : report.authentication.isVerified = false) :
    selectAttempt report =
      ((eligible report).reverse.find? fun candidate =>
          candidate.status.isVerified && !candidate.signatures.isEmpty).or
        (((eligible report).reverse.find? attributionFailure).or
          (eligible report).getLast?) := by
  unfold selectAttempt
  cases hcase : report.authentication with
  | verified attempts =>
      rw [hcase] at hauthentication
      cases hauthentication
  | _ => rfl

theorem eligible_of_find {p : InboxVerificationAttempt → Bool}
    {attempt : InboxVerificationAttempt}
    (h : (eligible report).reverse.find? p = some attempt) :
    Eligible report attempt := by
  have hmem := List.mem_of_find?_eq_some h
  exact mem_eligible.mp (List.mem_reverse.mp hmem)

/-- Without an authentication, the delivery is summarized as verified just
when some eligible evaluation proves its signature, wherever it stands. -/
theorem summarizedVerified_otherwise (hwellFormed : WellFormed report)
    (hauthentication : report.authentication.isVerified = false) :
    SummarizedVerified canParse report headers ↔
      ∃ attempt, Eligible report attempt ∧ Proves attempt := by
  rw [summarizedVerified_iff, selectAttempt_otherwise hauthentication]
  constructor
  · rintro ⟨attempt, hselected, hproves⟩
    refine ⟨attempt, ?_, hproves⟩
    rcases Option.or_eq_some_iff.mp hselected with hfind | ⟨-, hselected⟩
    · exact eligible_of_find hfind
    · rcases Option.or_eq_some_iff.mp hselected with hfind | ⟨-, hlast⟩
      · exact eligible_of_find hfind
      · exact mem_eligible.mp (List.mem_of_getLast? hlast)
  · rintro ⟨attempt, heligible, hproves⟩
    have hmem := List.mem_reverse.mpr (mem_eligible.mpr heligible)
    cases hverified : (eligible report).reverse.find? fun candidate =>
        candidate.status.isVerified && !candidate.signatures.isEmpty with
    | some selected =>
        have hselected := List.find?_some hverified
        rw [Bool.and_eq_true] at hselected
        exact ⟨selected, rfl, .inl hselected.1⟩
    | none =>
        rw [Option.none_or]
        cases hattribution :
            (eligible report).reverse.find? attributionFailure with
        | some selected =>
            exact ⟨selected, rfl, .inr (List.find?_some hattribution)⟩
        | none =>
            -- Neither search passes over an evaluation that proves anything.
            rcases hproves with hstatus | hfailure
            · have hsigned := hwellFormed.signed attempt heligible.mem hstatus
              refine absurd ?_ (List.find?_eq_none.mp hverified attempt hmem)
              rw [hstatus]
              simpa using hsigned
            · exact absurd hfailure
                (List.find?_eq_none.mp hattribution attempt hmem)

/-! ## Order -/

theorem SameAuthentication.symm {authentication other : InboxAuthentication}
    (h : SameAuthentication authentication other) :
    SameAuthentication other authentication := by
  cases h with
  | same => exact .same _
  | reordered _ _ h => exact .reordered _ _ h.symm

theorem SameAuthentication.isNotDetermined
    {authentication other : InboxAuthentication}
    (h : SameAuthentication authentication other) :
    other.isNotDetermined = authentication.isNotDetermined := by
  cases h <;> rfl

theorem SameAuthentication.isVerified
    {authentication other : InboxAuthentication}
    (h : SameAuthentication authentication other) :
    other.isVerified = authentication.isVerified := by
  cases h <;> rfl

theorem SameAuthentication.attempts
    {authentication : InboxAuthentication}
    {others : List InboxVerificationAttempt}
    (h : SameAuthentication authentication (.verified others)) :
    ∃ attempts, authentication = .verified attempts ∧
      attempts.Perm others := by
  cases h with
  | same => exact ⟨others, rfl, .refl _⟩
  | reordered attempts _ h => exact ⟨attempts, rfl, h⟩

namespace Reordered

variable {other : InboxRequestReport}

theorem symm (h : Reordered report other) : Reordered other report :=
  ⟨h.attempts.symm, h.authentication.symm⟩

theorem isMeaningful (h : Reordered report other)
    (attempt : InboxVerificationAttempt) :
    isMeaningful other attempt = Delivery.isMeaningful report attempt := by
  unfold Delivery.isMeaningful
  rw [h.authentication.isNotDetermined]

theorem eligible (h : Reordered report other)
    {attempt : InboxVerificationAttempt} (heligible : Eligible report attempt) :
    Eligible other attempt where
  mem := h.attempts.mem_iff.mp heligible.mem
  meaningful := by
    rw [h.isMeaningful]
    exact heligible.meaningful
  root := by
    apply heligible.root.imp id
    intro hnone candidate hcandidate hmeaningful
    rw [h.isMeaningful] at hmeaningful
    exact hnone candidate (h.attempts.mem_iff.mpr hcandidate) hmeaningful

theorem wellFormed (h : Reordered report other)
    (hwellFormed : WellFormed report) : WellFormed other where
  signed attempt hattempt :=
    hwellFormed.signed attempt (h.attempts.mem_iff.mpr hattempt)
  authenticating others hothers attempt hattempt := by
    have hsame := h.authentication
    rw [hothers] at hsame
    obtain ⟨attempts, hattempts, hperm⟩ := hsame.attempts
    obtain ⟨hmem, hverified⟩ := hwellFormed.authenticating attempts hattempts
      attempt (hperm.mem_iff.mpr hattempt)
    exact ⟨h.attempts.mem_iff.mp hmem, hverified⟩

theorem authenticationEligible (h : Reordered report other)
    (heligible : AuthenticationEligible report) :
    AuthenticationEligible other := by
  intro others hothers
  have hsame := h.authentication
  rw [hothers] at hsame
  obtain ⟨attempts, hattempts, hperm⟩ := hsame.attempts
  obtain ⟨attempt, hmem, hattempt⟩ := heligible attempts hattempts
  exact ⟨attempt, hperm.mem_iff.mp hmem, h.eligible hattempt⟩

end Reordered

theorem authentication_of_isVerified
    (h : report.authentication.isVerified = true) :
    ∃ attempts, report.authentication = .verified attempts := by
  cases hcase : report.authentication with
  | verified attempts => exact ⟨attempts, rfl⟩
  | _ =>
      rw [hcase] at h
      cases h

theorem summarizedVerified_of_authenticated (hwellFormed : WellFormed report)
    (heligible : AuthenticationEligible report)
    (hauthenticated : report.authentication.isVerified = true) :
    SummarizedVerified canParse report headers := by
  obtain ⟨attempts, hattempts⟩ := authentication_of_isVerified hauthenticated
  rw [summarizedVerified_authenticated canParse hwellFormed hattempts]
  exact heligible attempts hattempts

/-- The summary of a report is faithful exactly when its authentication, if it
succeeded, rests on an eligible evaluation. -/
theorem summarizeVerification_faithful (hwellFormed : WellFormed report) :
    Faithful canParse report headers ↔ AuthenticationEligible report := by
  constructor
  · intro hfaithful attempts hattempts
    rw [← summarizedVerified_authenticated canParse hwellFormed hattempts]
    apply hfaithful.authenticated
    rw [hattempts]
    rfl
  · intro heligible
    refine ⟨summarizedVerified_of_authenticated canParse hwellFormed heligible,
      summarizedVerified_otherwise canParse hwellFormed, ?_⟩
    intro other hreordered
    have hother := hreordered.wellFormed hwellFormed
    cases hauthentication : report.authentication.isVerified with
    | true =>
        apply iff_of_true
        · apply summarizedVerified_of_authenticated canParse hother
            (hreordered.authenticationEligible heligible)
          rw [hreordered.authentication.isVerified, hauthentication]
        · exact summarizedVerified_of_authenticated canParse hwellFormed
            heligible hauthentication
    | false =>
        rw [summarizedVerified_otherwise canParse hwellFormed hauthentication,
          summarizedVerified_otherwise canParse hother
            (hreordered.authentication.isVerified.trans hauthentication)]
        apply exists_congr
        intro attempt
        apply and_congr_left'
        exact ⟨hreordered.symm.eligible, hreordered.eligible⟩

end Summaries

/-! ## Reports of a proof on an embedded object -/

def exampleKey : InboxVerificationKey :=
  ⟨some (js "https://remote.example/alice#key"), js "key"⟩

def verifiedCheck : InboxSignatureCheck :=
  ⟨.verified exampleKey, exampleKey.id, [exampleKey]⟩

def invalidCheck : InboxSignatureCheck :=
  ⟨.rejected .invalidSignature, exampleKey.id, [exampleKey]⟩

/-- The evaluation of the root, rejected for its signature. -/
def rejectedRoot : InboxVerificationAttempt where
  identity := 0
  mechanism := .http
  pointer := some []
  checks := [invalidCheck]
  status := .rejected .signatureVerificationFailed

/-- The proof of an embedded object. -/
def verifiedObject : InboxVerificationAttempt where
  identity := 1
  mechanism := .objectIntegrity
  pointer := some (js "/object")
  checks := [verifiedCheck]
  status := .verified [verifiedCheck]

/-- Authentication by the proof of the embedded object, with other
evaluations beside it. -/
def embeddedReport (others : List InboxVerificationAttempt)
    (hobjects : ∀ attempt ∈ others ++ [verifiedObject],
      ∀ other ∈ others ++ [verifiedObject],
        attempt.identity = other.identity → attempt = other) :
    InboxRequestReport where
  attempts := others ++ [verifiedObject]
  authentication := .verified [verifiedObject]
  outcome := .response 202 .settled
  objects := hobjects

theorem embeddedReport_objects :
    ∀ attempt ∈ [rejectedRoot] ++ [verifiedObject],
      ∀ other ∈ [rejectedRoot] ++ [verifiedObject],
        attempt.identity = other.identity → attempt = other := by
  intro attempt hattempt other hother hidentity
  simp only [List.singleton_append, List.mem_cons, List.not_mem_nil,
    or_false] at hattempt hother
  rcases hattempt with rfl | rfl <;> rcases hother with rfl | rfl
  · rfl
  · cases hidentity
  · cases hidentity
  · rfl

theorem embeddedReport_wellFormed {others : List InboxVerificationAttempt}
    {hobjects} (hothers : ∀ attempt ∈ others,
      attempt.status.isVerified = false) :
    WellFormed (embeddedReport others hobjects) where
  signed attempt hattempt hverified := by
    rcases List.mem_append.mp hattempt with hmem | hmem
    · rw [hothers attempt hmem] at hverified
      cases hverified
    · rw [List.mem_singleton.mp hmem]
      exact List.cons_ne_nil _ _
  authenticating attempts hattempts attempt hattempt := by
    obtain rfl := InboxAuthentication.verified.inj hattempts
    rw [List.mem_singleton.mp hattempt]
    exact ⟨List.mem_append_right _ (List.mem_singleton_self _), rfl⟩

/-- The request is authenticated, and its summary says that it carries no
signature. -/
theorem summarizeVerification_not_faithful :
    let report := embeddedReport [rejectedRoot] embeddedReport_objects
    WellFormed report ∧ report.authentication.isVerified = true ∧
      (summarizeVerification (fun _ => true) (some report) []).result =
        .noSignature ∧
      ¬ Faithful (fun _ => true) report [] := by
  intro report
  refine ⟨embeddedReport_wellFormed ?_, rfl, rfl, ?_⟩
  · intro attempt hattempt
    rw [List.mem_singleton.mp hattempt]
    rfl
  · intro hfaithful
    have hresult := hfaithful.authenticated rfl
    cases hresult

/-- The embedded proof counts where the root was not evaluated. -/
theorem summarizeVerification_faithful_embedded :
    ∃ report, WellFormed report ∧ report.authentication.isVerified = true ∧
      (Faithful (fun _ => true) report [] ↔ AuthenticationEligible report) ∧
      SummarizedVerified (fun _ => true) report [] := by
  have hobjects : ∀ attempt ∈ [] ++ [verifiedObject],
      ∀ other ∈ [] ++ [verifiedObject],
        attempt.identity = other.identity → attempt = other := by
    intro attempt hattempt other hother _
    rw [List.mem_singleton.mp hattempt, List.mem_singleton.mp hother]
  have hwellFormed : WellFormed (embeddedReport [] hobjects) :=
    embeddedReport_wellFormed fun _ hattempt =>
      absurd hattempt List.not_mem_nil
  exact ⟨embeddedReport [] hobjects, hwellFormed, rfl,
    summarizeVerification_faithful (fun _ => true) hwellFormed, rfl⟩

end DrFed.Delivery
