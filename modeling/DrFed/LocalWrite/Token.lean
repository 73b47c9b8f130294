import DrFed.Js.Base64url
import DrFed.LocalWrite.Request

/-!
# Preview tokens

A token carries the server values that a preview showed, signed for one
account and one request.  Reading an issued token gives back exactly these
values, to this account, for this request, within an hour.
-/

namespace DrFed.LocalWrite

open Store

/-! ## Tokens -/

/-- What tokens need from the platform: the two algorithms of Web Crypto, the
check on UUIDs, and the texts of instants and numbers. -/
structure TokenRuntime (Key : Type) where
  /-- `crypto.subtle.sign("HMAC", …)` -/
  hmac : Key → List UInt8 → List UInt8
  /-- `crypto.subtle.digest("SHA-256", …)` -/
  sha256 : List UInt8 → List UInt8
  validateUuid : JsString → Bool
  instantText : Instant → JsString
  /-- `Temporal.Instant.from`, for instants of whole microseconds. -/
  instantFrom : Json → Option Instant
  numeral : ℚ → Numeral

/-- An hour, in milliseconds. -/
def tokenLifetime : ℤ := 60 * 60 * 1000

namespace TokenRuntime

variable {Key : Type} (R : TokenRuntime Key)

def sign (key : Key) (text : JsString) : JsString :=
  base64url (R.hmac key (encodeUtf8 text))

/-- The digest of what a token binds. -/
def digestRequest (request : Json) : JsString :=
  base64url (R.sha256 (encodeUtf8 (request.canonicalJson R.numeral)))

def payload (account : Uuid) (digest : JsString) (allocation : Allocation)
    (now : ℤ) : Json :=
  .obj [(js "v", .num (.rational 1)),
    (js "account", .str (uuidText account)),
    (js "digest", .str digest),
    (js "ids", .arr (allocation.ids.map fun entry =>
      .arr [.str entry.1, .str (uuidText entry.2)])),
    (js "timestamp", .str (R.instantText allocation.timestamp)),
    (js "expires", .num (.rational ((now + tokenLifetime : ℤ) : ℚ)))]

def tokenBody (account : Uuid) (digest : JsString) (allocation : Allocation)
    (now : ℤ) : JsString :=
  base64url (encodeUtf8
    ((R.payload account digest allocation now).stringify R.numeral))

/-- Sign an allocation for one account and request digest, at a time in
milliseconds. -/
def issueToken (key : Key) (account : Uuid) (digest : JsString)
    (allocation : Allocation) (now : ℤ) : JsString :=
  let body := R.tokenBody account digest allocation now
  body ++ unit '.' :: R.sign key body

/-- An entry of `ids`: a path and the UUID allocated to it. -/
def readId : Json → Option (JsString × Uuid)
  | .arr (.str path :: .str text :: _) =>
      if R.validateUuid text then (readUuid text).map fun id => (path, id)
      else none
  | _ => none

def readIds : Json → Option (List (JsString × Uuid))
  | .arr entries => entries.mapM R.readId
  | _ => none

def isAfter (value : Json) (now : ℤ) : Bool :=
  match value with
  | .num .negativeZero => now < 0
  | .num (.rational q) => (now : ℚ) < q
  | _ => false

/-- The allocation that a payload carries, if it is for the account and the
request and has not expired. -/
def readPayload (account : Uuid) (digest : JsString) (now : ℤ)
    (payload : Json) : Option Allocation := do
  let field (name : String) := payload.member? (js name)
  if field "v" ≠ some (.num (.rational 1)) ||
      field "account" ≠ some (.str (uuidText account)) ||
      field "digest" ≠ some (.str digest) ||
      !(field "expires").any fun expires => isAfter expires now then
    none
  else
    let ids ← (field "ids").bind R.readIds
    let timestamp ← (field "timestamp").bind R.instantFrom
    return {
      ids := AssocList.putAll ids []
      timestamp
      distinct := AssocList.nodup_putAll (by simp) }

/-- Verify a token's signature, lifetime, account and request digest. -/
def readToken (key : Key) (token : JsString) (account : Uuid)
    (digest : JsString) (now : ℤ) : Option Allocation :=
  match token.splitOn (unit '.') with
  | [body, signature] =>
      -- The digests of the signatures are compared, not the signatures.
      if R.sha256 (encodeUtf8 (R.sign key body)) ≠
          R.sha256 (encodeUtf8 signature) then none
      else
        (parseJson (decodeUtf8 (fromBase64url body))).bind
          (R.readPayload account digest now)
  | _ => none

/-! ## Issued tokens -/

/-- The documented behaviour of the platform on the values of an allocation:
their texts are read as what was written. -/
structure ReadsBack (allocation : Allocation) : Prop where
  numbers : WritesNumbers R.numeral
  uuids : ∀ entry ∈ allocation.ids, R.validateUuid (uuidText entry.2) = true
  timestamp : R.instantFrom (.str (R.instantText allocation.timestamp)) =
    some allocation.timestamp

section Issued

variable {R}

theorem splitOn_dot {body signature : JsString} (hbody : unit '.' ∉ body)
    (hsignature : unit '.' ∉ signature) :
    (body ++ unit '.' :: signature).splitOn (unit '.') = [body, signature] := by
  have hplain : ∀ {text : JsString}, unit '.' ∉ text →
      ∀ c ∈ text, (c == unit '.') = false := by
    intro text htext c hc
    apply beq_false_of_ne
    rintro rfl
    exact htext hc
  rw [List.splitOn_eq_splitOnP, List.splitOnP_append_cons_of_forall_mem
    (hplain hbody) _ (by simp), List.splitOnP_eq_singleton (hplain hsignature)]

theorem readToken_append (key : Key) {body signature : JsString}
    (hbody : unit '.' ∉ body) (hsignature : unit '.' ∉ signature)
    (account : Uuid) (digest : JsString) (now : ℤ) :
    R.readToken key (body ++ unit '.' :: signature) account digest now =
      if R.sha256 (encodeUtf8 (R.sign key body)) ≠
          R.sha256 (encodeUtf8 signature) then none
      else
        (parseJson (decodeUtf8 (fromBase64url body))).bind
          (R.readPayload account digest now) := by
  rw [readToken, splitOn_dot hbody hsignature]

theorem isDouble_intCast {n : ℤ} (h : |n| < 2 ^ 53) :
    (JsNumber.rational n).IsDouble := by
  have habs : (|(n : ℚ)|) = ((|n| : ℤ) : ℚ) := by push_cast; rfl
  show nearestDouble |(n : ℚ)| = some |(n : ℚ)|
  rw [habs]
  exact nearestDouble_intCast (by rwa [abs_abs])

variable {account : Uuid} {digest : JsString} {allocation : Allocation}
  {now : ℤ}

theorem payload_unsigned :
    (R.payload account digest allocation now).unsigned =
      R.payload account digest allocation now := by
  have hids : Json.unsignedItems (allocation.ids.map fun entry =>
      Json.arr [.str entry.1, .str (uuidText entry.2)]) =
        allocation.ids.map fun entry =>
          Json.arr [.str entry.1, .str (uuidText entry.2)] := by
    rw [Json.unsignedItems_eq, List.map_map]
    rfl
  simp only [payload, Json.unsigned, Json.unsignedMembers, hids,
    JsNumber.unsigned]

/-- A time in milliseconds that Temporal represents. -/
def IsTime (now : ℤ) : Prop := |now| ≤ 8640000000000000

theorem expires_isDouble (h : IsTime now) :
    (JsNumber.rational ((now + tokenLifetime : ℤ) : ℚ)).IsDouble := by
  apply isDouble_intCast
  have hbounds := abs_le.mp h
  rw [abs_lt, tokenLifetime]
  omega

theorem payload_genuine (h : IsTime now) :
    (R.payload account digest allocation now).Genuine := by
  have hids : ∀ entries : List (JsString × Uuid),
      Json.GenuineItems (entries.map fun entry =>
        Json.arr [.str entry.1, .str (uuidText entry.2)]) := by
    intro entries
    induction entries with
    | nil => trivial
    | cons entry rest ih => exact ⟨⟨trivial, trivial, trivial⟩, ih⟩
  have hone : (JsNumber.rational 1).IsDouble := by
    exact_mod_cast @isDouble_intCast 1 (by norm_num)
  refine ⟨⟨?_, ?_⟩, hone, trivial, trivial, hids allocation.ids, trivial,
    expires_isDouble h, trivial⟩
  · simp only [List.map_cons, List.map_nil]
    decide
  · simp only [List.map_cons, List.map_nil]
    decide

/-- The payload of an issued token is read as it was written. -/
theorem parseJson_tokenBody (hnumbers : WritesNumbers R.numeral)
    (h : IsTime now) :
    parseJson (decodeUtf8 (fromBase64url
        (R.tokenBody account digest allocation now))) =
      some (R.payload account digest allocation now) := by
  have hgenuine := @payload_genuine _ R account digest allocation now h
  have hformed := JsonText.isWellFormed_write _
    (Json.text_formed hnumbers _ hgenuine)
  rw [tokenBody, fromBase64url_base64url, Json.stringify, payload_unsigned,
    decodeUtf8_encodeUtf8_of_wellFormed hformed]
  exact Json.parseJson_write hnumbers hgenuine

theorem readIds_payload
    (hids : ∀ entry ∈ allocation.ids,
      R.validateUuid (uuidText entry.2) = true) :
    R.readIds (.arr (allocation.ids.map fun entry =>
      .arr [.str entry.1, .str (uuidText entry.2)])) =
        some allocation.ids := by
  rw [readIds]
  generalize allocation.ids = entries at hids
  induction entries with
  | nil => rfl
  | cons entry rest ih =>
      rw [List.forall_mem_cons] at hids
      have hread : R.readId (.arr [.str entry.1, .str (uuidText entry.2)]) =
          some entry := by
        rw [readId, if_pos hids.1, readUuid_uuidText]
        rfl
      rw [List.map_cons, List.mapM_cons, hread, ih hids.2]
      rfl

theorem readPayload_payload (hR : R.ReadsBack allocation) (account' : Uuid)
    (digest' : JsString) (later : ℤ) :
    R.readPayload account' digest' later
        (R.payload account digest allocation now) =
      if account' = account ∧ digest' = digest ∧ later < now + tokenLifetime
      then some allocation else none := by
  have hafter : isAfter (.num (.rational ((now + tokenLifetime : ℤ) : ℚ)))
      later = decide (later < now + tokenLifetime) := by
    rw [isAfter]
    exact decide_eq_decide.mpr Int.cast_lt
  have hallocation : (⟨AssocList.putAll allocation.ids [],
      allocation.timestamp, AssocList.nodup_putAll (by simp)⟩ : Allocation) =
        allocation := by
    obtain ⟨ids, timestamp, distinct⟩ := allocation
    have hids : AssocList.putAll ids [] = ids :=
      putAll_append (by simpa using distinct)
    simp only [hids]
  have hread := readIds_payload hR.uuids
  have hinstant := hR.timestamp
  have haccount : (uuidText account = uuidText account') ↔
      account' = account := uuidText_injective.eq_iff.trans eq_comm
  rw [readPayload, payload]
  simp +decide only [Json.member?, Json.members_obj, AssocList.lookup_cons_eq,
    if_true, if_false, Option.some.injEq, Json.str.injEq, Option.any_some,
    Option.bind_some, hafter, hread, hinstant, ne_eq]
  by_cases h : account' = account ∧ digest' = digest ∧
      later < now + tokenLifetime
  · rw [if_pos h, if_neg (by simp [h])]
    simp only [Option.bind_eq_bind, Option.bind_some, Option.pure_def,
      hallocation]
  · rw [if_neg h, if_pos]
    simp only [decide_false, Bool.false_or, Bool.or_eq_true, decide_eq_true_eq,
      Bool.not_eq_true', decide_eq_false_iff_not, haccount]
    by_contra hnone
    rw [not_or, not_or, not_not, not_not, not_not] at hnone
    exact h ⟨hnone.1.1, hnone.1.2.symm, hnone.2⟩

/-- An issued token is read as the allocation it was issued for, to its
account, for its digest and until it expires, and otherwise it is not read. -/
theorem readToken_issueToken (hR : R.ReadsBack allocation) (hnow : IsTime now)
    (key : Key) (account' : Uuid) (digest' : JsString) (later : ℤ) :
    R.readToken key (R.issueToken key account digest allocation now) account'
        digest' later =
      if account' = account ∧ digest' = digest ∧ later < now + tokenLifetime
      then some allocation else none := by
  have hbody : unit '.' ∉ R.tokenBody account digest allocation now :=
    notMem_base64url _
  have hsignature : unit '.' ∉
      R.sign key (R.tokenBody account digest allocation now) :=
    notMem_base64url _
  rw [issueToken, readToken_append key hbody hsignature,
    if_neg (not_not_intro rfl), parseJson_tokenBody hR.numbers hnow,
    Option.bind_some]
  exact readPayload_payload hR account' digest' later

end Issued

end TokenRuntime

end DrFed.LocalWrite
