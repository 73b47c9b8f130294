import DrFed.Js.Decimal

/-!
# Instance origins

How the host and the origin of an instance are composed from the root origin,
and what a request is for.  The URL parser is the platform's; a URL is what it
keeps of the scheme, the host and the port.
-/

namespace DrFed.Instances

/-! ## Hosts -/

def dot : UInt16 := unit '.'

def lowerUnit (c : UInt16) : UInt16 :=
  if unit 'A' ≤ c && c ≤ unit 'Z' then c + 32 else c

/-- The code points that no domain contains: controls, the space, `DEL`, and
the delimiters of a URL. -/
def isForbiddenUnit (c : UInt16) : Bool :=
  c ≤ 0x20 || c ≥ 0x7f ||
    [unit '#', unit '/', unit ':', unit '<', unit '>', unit '?', unit '@',
      0x5b, 0x5c, 0x5d, unit '^', unit '|', unit '%'].contains c

/-- A label at the end of an IPv4 address. -/
def isNumberLabel (label : JsString) : Bool :=
  label.all isDigit ||
    match label with
    | zero :: x :: digits =>
        zero == unit '0' && lowerUnit x == unit 'x' && digits.all isHexDigit
    | _ => false

def labels (host : JsString) : List JsString := host.splitOn dot

/-- A domain in ASCII, without the dot of the root zone. -/
structure IsDomain (host : JsString) : Prop where
  units : ∀ c ∈ host, isForbiddenUnit c = false
  labels : ∀ label ∈ labels host, label ≠ []
  name : ∀ label, (Instances.labels host).getLast? = some label →
    isNumberLabel label = false

/-- `endsWith(".")`, and the string without that dot. -/
def stripDot (host : JsString) : JsString :=
  if host.getLast? = some dot then host.dropLast else host

/-! ## URLs -/

def defaultPort (protocol : JsString) : Option ℕ :=
  if protocol = js "http:" then some 80
  else if protocol = js "https:" then some 443
  else none

def IsWebProtocol (protocol : JsString) : Prop :=
  protocol = js "http:" ∨ protocol = js "https:"

/-- What the URL parser keeps: it lowers the host of a web URL and drops the
default port of the scheme. -/
structure Url where
  protocol : JsString
  hostname : JsString
  port : Option ℕ
  lowered : IsWebProtocol protocol → hostname.map lowerUnit = hostname
  bounded : ∀ p, port = some p → p < 65536
  explicit : ∀ p, port = some p → defaultPort protocol ≠ some p

/-- The port of a URL after its host. -/
def portText (port : Option ℕ) : JsString :=
  match port with
  | none => []
  | some p => unit ':' :: natText p

/-- `URL.host` -/
def Url.host (url : Url) : JsString := url.hostname ++ portText url.port

def effectivePort (url : Url) : Option ℕ := url.port.or (defaultPort url.protocol)

/-- The documented behaviour of the URL parser: what it makes of the web URL of
a domain, if it takes it at all, and that it keeps the scheme. -/
structure ParsesDomains (parse : JsString → Option Url) : Prop where
  protocol : ∀ authority url, parse (js "https://" ++ authority) = some url →
    url.protocol = js "https:"
  parsed : ∀ protocol host port url, IsWebProtocol protocol →
    IsDomain (stripDot host) → (∀ p, port = some p → p < 65536) →
    parse (protocol ++ js "//" ++ host ++ portText port) = some url →
    url.protocol = protocol ∧ url.hostname = host.map lowerUnit ∧
      url.port = port.filter fun p => defaultPort protocol ≠ some p

/-! ## Origins -/

inductive HostKind where
  | ofInstance | admin | misdirected
  deriving DecidableEq

def canonicalHostname (url : Url) : JsString := stripDot url.hostname

/-- Both default ports of the web count as no port. -/
def canonicalPort (url : Url) : Option ℕ :=
  url.port.filter fun p => p ≠ 80 && p ≠ 443

def canonicalAuthority (url : Url) : JsString :=
  canonicalHostname url ++ portText (canonicalPort url)

def instanceHost (rootOrigin : Url) (slug : JsString) : JsString :=
  slug ++ dot :: canonicalAuthority rootOrigin

def classifyHost (url rootOrigin : Url) : HostKind :=
  if canonicalPort url ≠ canonicalPort rootOrigin then .admin
  else
    let hostname := canonicalHostname url
    let root := canonicalHostname rootOrigin
    if hostname = root then .admin
    else
      let suffix := dot :: root
      if !suffix.isSuffixOf hostname then .admin
      else
        let label := hostname.take (hostname.length - suffix.length)
        if label ≠ [] ∧ dot ∉ label then .ofInstance else .misdirected

section Parser

variable (parse : JsString → Option Url)

/-- `new URL` throws where the parser fails. -/
def instanceOrigin (rootOrigin : Url) (slug : JsString) : Option Url :=
  parse (rootOrigin.protocol ++ js "//" ++ instanceHost rootOrigin slug)

def canonicalizeAuthority (authority : JsString) : JsString :=
  match parse (js "https://" ++ authority) with
  | some url => canonicalAuthority url
  | none => authority

end Parser

/-! ## Slugs -/

/-- `[a-z0-9-]` -/
def isSlugUnit (c : UInt16) : Bool :=
  (unit 'a' ≤ c && c ≤ unit 'z') || isDigit c || c == unit '-'

/-- Lower-case letters, digits and inner hyphens. -/
structure IsSlug (slug : JsString) : Prop where
  nonempty : slug ≠ []
  units : ∀ c ∈ slug, isSlugUnit c = true
  first : slug.head? ≠ some (unit '-')
  last : slug.getLast? ≠ some (unit '-')

/-! ## Domains -/

section Domains

variable {host : JsString}

/-- A domain does not end in a dot. -/
theorem IsDomain.getLast?_ne (h : IsDomain host) : host.getLast? ≠ some dot := by
  intro hlast
  obtain ⟨before, rfl⟩ := List.getLast?_eq_some_iff.mp hlast
  have hempty : ([] : JsString) ∈ Instances.labels (before ++ [dot]) := by
    rw [Instances.labels, List.splitOn_append_cons_self, List.splitOn_nil]
    exact List.mem_append_right _ (List.mem_singleton_self _)
  exact h.labels [] hempty rfl

theorem stripDot_of_ne (h : host.getLast? ≠ some dot) : stripDot host = host :=
  if_neg h

theorem IsDomain.stripDot_eq (h : IsDomain host) : stripDot host = host :=
  stripDot_of_ne h.getLast?_ne

theorem map_lowerUnit_stripDot (h : host.map lowerUnit = host) :
    (stripDot host).map lowerUnit = stripDot host := by
  unfold stripDot
  split
  · rw [List.map_dropLast, h]
  · exact h

theorem isSlugUnit_toNat {c : UInt16} (h : isSlugUnit c = true) :
    c.toNat = 45 ∨ (48 ≤ c.toNat ∧ c.toNat ≤ 57) ∨ (97 ≤ c.toNat ∧ c.toNat ≤ 122) := by
  simp only [isSlugUnit, isDigit, Bool.or_eq_true, Bool.and_eq_true,
    decide_eq_true_eq, beq_iff_eq, UInt16.le_iff_toNat_le] at h
  rcases h with (h | h) | rfl
  · exact .inr (.inr h)
  · exact .inr (.inl h)
  · exact .inl rfl

theorem isSlugUnit_spec {c : UInt16} (h : isSlugUnit c = true) :
    isForbiddenUnit c = false ∧ lowerUnit c = c ∧ c ≠ dot := by
  have hrange := isSlugUnit_toNat h
  rw [← UInt16.ofNat_toNat (x := c)]
  generalize c.toNat = n at hrange
  rcases hrange with rfl | ⟨hlow, hhigh⟩ | ⟨hlow, hhigh⟩
  · decide
  · interval_cases n <;> decide
  · interval_cases n <;> decide

theorem IsSlug.dot_notMem {slug : JsString} (h : IsSlug slug) : dot ∉ slug :=
  fun hdot => (isSlugUnit_spec (h.units dot hdot)).2.2 rfl

theorem IsSlug.map_lowerUnit {slug : JsString} (h : IsSlug slug) :
    slug.map lowerUnit = slug :=
  List.map_congr_left (fun c hc => (isSlugUnit_spec (h.units c hc)).2.1) |>.trans
    (List.map_id slug)

/-- An instance host is a domain. -/
theorem IsDomain.below (h : IsDomain host) {slug : JsString}
    (hslug : IsSlug slug) : IsDomain (slug ++ dot :: host) := by
  have hlabels : Instances.labels (slug ++ dot :: host) =
      slug :: Instances.labels host := by
    rw [Instances.labels, List.splitOn_append_cons_self,
      List.splitOn_eq_singleton hslug.dot_notMem]
    rfl
  constructor
  · intro c hc
    rw [List.mem_append, List.mem_cons] at hc
    rcases hc with hc | rfl | hc
    · exact (isSlugUnit_spec (hslug.units c hc)).1
    · rfl
    · exact h.units c hc
  · intro label hlabel
    rw [hlabels, List.mem_cons] at hlabel
    rcases hlabel with rfl | hlabel
    · exact hslug.nonempty
    · exact h.labels label hlabel
  · intro label hlabel
    apply h.name label
    rwa [hlabels, List.getLast?_cons_of_ne_nil] at hlabel
    exact List.splitOn_ne_nil dot host

end Domains

end DrFed.Instances
