import DrFed.Instances.Origin

/-!
# Canonical origins

The origin of an instance is served under the host the instance is stored
with, and a request for that host is classified as one for an instance.  A root
on the default port of the other scheme is the exception: its port is dropped,
and the instance is served on another one.
-/

namespace DrFed.Instances

section Authorities

variable {parse : JsString → Option Url} {host : JsString} {port : Option ℕ}

def IsOwnPort (port : Option ℕ) : Prop :=
  ∀ p, port = some p → p < 65536 ∧ p ≠ 80 ∧ p ≠ 443

theorem filter_canonical (h : IsOwnPort port) :
    (port.filter fun p => p ≠ 80 && p ≠ 443) = port := by
  cases port with
  | none => rfl
  | some p =>
      obtain ⟨-, hhttp, hhttps⟩ := h p rfl
      simp [hhttp, hhttps]

theorem filter_default {protocol : JsString} (h : IsOwnPort port) :
    (port.filter fun p => defaultPort protocol ≠ some p) = port := by
  cases port with
  | none => rfl
  | some p =>
      obtain ⟨-, hhttp, hhttps⟩ := h p rfl
      have hdefault : defaultPort protocol ≠ some p := by
        unfold defaultPort
        split_ifs <;> simp [hhttp.symm, hhttps.symm]
      simp [hdefault]

/-- A canonical authority is its own canonical spelling. -/
theorem canonicalizeAuthority_of_canonical (hparse : ParsesDomains parse)
    (hdomain : IsDomain host) (hlower : host.map lowerUnit = host)
    (hport : IsOwnPort port) :
    canonicalizeAuthority parse (host ++ portText port) = host ++ portText port := by
  unfold canonicalizeAuthority
  split
  next url hurl =>
    have hstrip : stripDot host = host := hdomain.stripDot_eq
    obtain ⟨-, hname, hp⟩ := hparse.parsed (js "https:") host port url (.inr rfl)
      (hstrip.symm ▸ hdomain) (fun p hp => (hport p hp).1)
      (by rwa [List.append_assoc])
    rw [filter_default hport] at hp
    rw [canonicalAuthority, canonicalHostname, canonicalPort, hname, hlower, hstrip,
      hp, filter_canonical hport]
  next => rfl

theorem canonicalPort_isOwn (url : Url) : IsOwnPort (canonicalPort url) := by
  intro p hp
  obtain ⟨hport, hkept⟩ := Option.filter_eq_some_iff.mp hp
  rw [Bool.and_eq_true, decide_eq_true_eq, decide_eq_true_eq] at hkept
  exact ⟨url.bounded p hport, hkept⟩

theorem lowered_canonicalHostname {url : Url} (h : IsWebProtocol url.protocol) :
    (canonicalHostname url).map lowerUnit = canonicalHostname url :=
  map_lowerUnit_stripDot (url.lowered h)

theorem canonicalizeAuthority_idempotent (hparse : ParsesDomains parse)
    {authority : JsString}
    (hdomain : ∀ url, parse (js "https://" ++ authority) = some url →
      IsDomain (canonicalHostname url)) :
    canonicalizeAuthority parse (canonicalizeAuthority parse authority) =
      canonicalizeAuthority parse authority := by
  cases hurl : parse (js "https://" ++ authority) with
  | none =>
      have hsame : canonicalizeAuthority parse authority = authority := by
        rw [canonicalizeAuthority, hurl]
      rw [hsame, hsame]
  | some url =>
      have hcanonical : canonicalizeAuthority parse authority = canonicalAuthority url := by
        rw [canonicalizeAuthority, hurl]
      rw [hcanonical]
      apply canonicalizeAuthority_of_canonical hparse (hdomain url hurl)
      · apply lowered_canonicalHostname
        rw [hparse.protocol authority url hurl]
        exact .inr rfl
      · exact canonicalPort_isOwn url

end Authorities

/-! ## Instances of a root -/

theorem instanceHost_injective {root : Url} {slug other : JsString}
    (h : instanceHost root slug = instanceHost root other) : slug = other :=
  List.append_cancel_right h

/-- An instance is one label below the root, on the port of the root. -/
theorem classifyHost_eq_instance_iff {url root : Url} :
    classifyHost url root = .ofInstance ↔
      canonicalPort url = canonicalPort root ∧
        ∃ label, label ≠ [] ∧ dot ∉ label ∧
          canonicalHostname url = label ++ dot :: canonicalHostname root := by
  simp only [classifyHost]
  constructor
  · intro h
    split_ifs at h with hport hroot hsuffix hlabel
    rw [not_not] at hport
    rw [Bool.not_eq_true', Bool.not_eq_false, List.isSuffixOf_iff_suffix] at hsuffix
    obtain ⟨label, hname⟩ := hsuffix
    have htake : (canonicalHostname url).take ((canonicalHostname url).length -
        (dot :: canonicalHostname root).length) = label := by
      rw [← hname, List.length_append, Nat.add_sub_cancel]
      exact List.take_left
    rw [htake] at hlabel
    exact ⟨hport, label, hlabel.1, hlabel.2, hname.symm⟩
  · rintro ⟨hport, label, hne, hdot, hname⟩
    have hlength : label.length + (dot :: canonicalHostname root).length =
        (canonicalHostname url).length := by
      rw [hname, List.length_append]
    have hroot : canonicalHostname url ≠ canonicalHostname root := by
      intro heq
      rw [heq, List.length_cons] at hlength
      omega
    have hsuffix : (dot :: canonicalHostname root).isSuffixOf (canonicalHostname url) = true :=
      List.isSuffixOf_iff_suffix.mpr ⟨label, hname.symm⟩
    have htake : (canonicalHostname url).take ((canonicalHostname url).length -
        (dot :: canonicalHostname root).length) = label := by
      rw [← hlength, Nat.add_sub_cancel, hname]
      exact List.take_left
    rw [if_neg (not_not.mpr hport), if_neg hroot, hsuffix, htake]
    exact (if_neg (by decide)).trans (if_pos ⟨hne, hdot⟩)

/-- The canonical authority of an instance is the host it is stored with. -/
theorem canonicalAuthority_of_instance {url root : Url}
    (h : classifyHost url root = .ofInstance) :
    ∃ label, label ≠ [] ∧ dot ∉ label ∧
      canonicalHostname url = label ++ dot :: canonicalHostname root ∧
      canonicalAuthority url = instanceHost root label := by
  obtain ⟨hport, label, hne, hdot, hname⟩ := classifyHost_eq_instance_iff.mp h
  refine ⟨label, hne, hdot, hname, ?_⟩
  rw [canonicalAuthority, hname, hport, instanceHost, canonicalAuthority,
    List.append_assoc, List.cons_append]

section Origins

variable (parse : JsString → Option Url) (root : Url) (slug : JsString) (origin : Url)

/-- What an origin that is canonical for its root and slug satisfies. -/
structure CanonicalOrigin : Prop where
  protocol : origin.protocol = root.protocol
  port : effectivePort origin = effectivePort root
  classified : classifyHost origin root = .ofInstance
  host : canonicalizeAuthority parse origin.host = instanceHost root slug
  idempotent : ∀ authority,
    (∀ url, parse (js "https://" ++ authority) = some url →
      IsDomain (canonicalHostname url)) →
    canonicalizeAuthority parse (canonicalizeAuthority parse authority) =
      canonicalizeAuthority parse authority
  distinct : ∀ other otherOrigin, IsSlug other → other ≠ slug →
    instanceOrigin parse root other = some otherOrigin →
    instanceHost root other ≠ instanceHost root slug ∧ otherOrigin.host ≠ origin.host
  named : ∀ url, classifyHost url root = .ofInstance →
    ∃ label, label ≠ [] ∧ dot ∉ label ∧
      canonicalHostname url = label ++ dot :: canonicalHostname root ∧
      canonicalAuthority url = instanceHost root label

variable {parse root slug origin}

/-- What the parser makes of the origin of an instance. -/
theorem instanceOrigin_spec (hparse : ParsesDomains parse)
    (hweb : IsWebProtocol root.protocol) (hdomain : IsDomain (canonicalHostname root))
    (hslug : IsSlug slug) (h : instanceOrigin parse root slug = some origin) :
    origin.protocol = root.protocol ∧
      origin.hostname = slug ++ dot :: canonicalHostname root ∧
      origin.port = canonicalPort root := by
  have hbelow : IsDomain (slug ++ dot :: canonicalHostname root) := hdomain.below hslug
  have hstrip := hbelow.stripDot_eq
  have hown := canonicalPort_isOwn root
  obtain ⟨hprotocol, hname, hport⟩ := hparse.parsed root.protocol
    (slug ++ dot :: canonicalHostname root) (canonicalPort root) origin hweb
    (hstrip.symm ▸ hbelow) (fun p hp => (hown p hp).1)
    (by simpa only [instanceOrigin, instanceHost, canonicalAuthority,
      List.append_assoc, List.cons_append] using h)
  refine ⟨hprotocol, ?_, ?_⟩
  · rw [hname, List.map_append, List.map_cons, lowered_canonicalHostname hweb,
      hslug.map_lowerUnit]
    rfl
  · rw [hport, filter_default hown]

/-- The host of an instance's origin is the host it is stored with. -/
theorem host_instanceOrigin (hparse : ParsesDomains parse)
    (hweb : IsWebProtocol root.protocol) (hdomain : IsDomain (canonicalHostname root))
    (hslug : IsSlug slug) (h : instanceOrigin parse root slug = some origin) :
    origin.host = instanceHost root slug := by
  obtain ⟨-, hname, hport⟩ := instanceOrigin_spec hparse hweb hdomain hslug h
  rw [Url.host, hname, hport, instanceHost, canonicalAuthority, List.append_assoc,
    List.cons_append]

theorem canonicalPort_of_ne (h80 : root.port ≠ some 80) (h443 : root.port ≠ some 443) :
    canonicalPort root = root.port := by
  cases hport : root.port with
  | none => rw [canonicalPort, hport]; rfl
  | some p =>
      have hne : p ≠ 80 ∧ p ≠ 443 := by
        constructor
        · rintro rfl
          exact h80 hport
        · rintro rfl
          exact h443 hport
      simp [canonicalPort, hport, hne]

/-- The origin of an instance is canonical unless its root is on the default
port of the other scheme. -/
theorem instanceOrigin_canonical (hparse : ParsesDomains parse)
    (hweb : IsWebProtocol root.protocol) (hdomain : IsDomain (canonicalHostname root))
    (hslug : IsSlug slug) (h : instanceOrigin parse root slug = some origin) :
    CanonicalOrigin parse root slug origin ↔
      root.port ≠ some 80 ∧ root.port ≠ some 443 := by
  obtain ⟨hprotocol, hname, hport⟩ := instanceOrigin_spec hparse hweb hdomain hslug h
  constructor
  · intro hcanonical
    have heffective := hcanonical.port
    rw [effectivePort, effectivePort, hprotocol, hport] at heffective
    constructor
    · intro hroot
      have hdropped : canonicalPort root = none := by rw [canonicalPort, hroot]; rfl
      rw [hdropped, hroot] at heffective
      exact root.explicit 80 hroot heffective
    · intro hroot
      have hdropped : canonicalPort root = none := by rw [canonicalPort, hroot]; rfl
      rw [hdropped, hroot] at heffective
      exact root.explicit 443 hroot heffective
  · rintro ⟨h80, h443⟩
    have hbelow : IsDomain (slug ++ dot :: canonicalHostname root) := hdomain.below hslug
    have hhost := host_instanceOrigin hparse hweb hdomain hslug h
    have hkept := canonicalPort_of_ne h80 h443
    constructor
    · exact hprotocol
    · rw [effectivePort, effectivePort, hprotocol, hport, hkept]
    · apply classifyHost_eq_instance_iff.mpr
      refine ⟨?_, slug, hslug.nonempty, hslug.dot_notMem, ?_⟩
      · rw [canonicalPort, hport, filter_canonical (canonicalPort_isOwn root)]
      · rw [canonicalHostname, hname, hbelow.stripDot_eq]
    · rw [hhost, instanceHost, canonicalAuthority, ← List.cons_append, ← List.append_assoc]
      apply canonicalizeAuthority_of_canonical hparse hbelow
      · rw [List.map_append, List.map_cons, lowered_canonicalHostname hweb,
          hslug.map_lowerUnit]
        rfl
      · exact canonicalPort_isOwn root
    · intro authority hauthority
      exact canonicalizeAuthority_idempotent hparse hauthority
    · intro other otherOrigin hother hne hparsed
      have hdistinct : instanceHost root other ≠ instanceHost root slug :=
        fun heq => hne (instanceHost_injective heq)
      refine ⟨hdistinct, ?_⟩
      rw [hhost, host_instanceOrigin hparse hweb hdomain hother hparsed]
      exact hdistinct
    · intro url hurl
      exact canonicalAuthority_of_instance hurl

end Origins

/-! ## A parser of domains -/

theorem lowerUnit_lowerUnit (c : UInt16) : lowerUnit (lowerUnit c) = lowerUnit c := by
  by_cases h : (unit 'A' ≤ c && c ≤ unit 'Z') = true
  · have hrange : 65 ≤ c.toNat ∧ c.toNat ≤ 90 := by
      rwa [Bool.and_eq_true, decide_eq_true_eq, decide_eq_true_eq] at h
    rw [← UInt16.ofNat_toNat (x := c)]
    generalize c.toNat = n at hrange
    obtain ⟨hlow, hhigh⟩ := hrange
    interval_cases n <;> rfl
  · have hsame : lowerUnit c = c := if_neg h
    rw [hsame, hsame]

/-- The URL of a host with a port, the default port dropped. -/
def webUrl (protocol host : JsString) (port : Option ℕ)
    (hport : ∀ p, port = some p → p < 65536) : Url where
  protocol := protocol
  hostname := host.map lowerUnit
  port := port.filter fun p => defaultPort protocol ≠ some p
  lowered := fun _ => by
    rw [List.map_map]
    exact List.map_congr_left fun c _ => lowerUnit_lowerUnit c
  bounded := fun p hp => hport p (Option.filter_eq_some_iff.mp hp).1
  explicit := fun _ hp => of_decide_eq_true (Option.filter_eq_some_iff.mp hp).2

/-- Parsing an authority that is a host, or a host and a port in decimal. -/
def parseAuthority (protocol authority : JsString) : Option Url :=
  match cutColon authority with
  | none => some (webUrl protocol authority none (by simp))
  | some (host, digits) =>
      if h : readDecimal digits < 65536 then
        if digits = natText (readDecimal digits) then
          some (webUrl protocol host (some (readDecimal digits)) (by simpa using h))
        else none
      else none

/-- Parsing the URL of an authority. -/
def parseWeb (text : JsString) : Option Url :=
  if (js "https://").isPrefixOf text then parseAuthority (js "https:") (text.drop 8)
  else if (js "http://").isPrefixOf text then parseAuthority (js "http:") (text.drop 7)
  else none

theorem parseWeb_https (authority : JsString) :
    parseWeb (js "https://" ++ authority) = parseAuthority (js "https:") authority := by
  rw [parseWeb, if_pos (List.isPrefixOf_iff_prefix.mpr (List.prefix_append _ _))]
  rfl

theorem parseWeb_http (authority : JsString) :
    parseWeb (js "http://" ++ authority) = parseAuthority (js "http:") authority := by
  have hother : (js "https://").isPrefixOf (js "http://" ++ authority) = false := rfl
  rw [parseWeb, hother, if_neg Bool.false_ne_true,
    if_pos (List.isPrefixOf_iff_prefix.mpr (List.prefix_append _ _))]
  rfl

theorem parseAuthority_protocol {protocol authority : JsString} {url : Url}
    (h : parseAuthority protocol authority = some url) : url.protocol = protocol := by
  rw [parseAuthority] at h
  split at h
  · rw [← Option.some.inj h]
    rfl
  · split_ifs at h
    rw [← Option.some.inj h]
    rfl

theorem parseAuthority_portText {host : JsString} (hhost : unit ':' ∉ host)
    (protocol : JsString) {port : Option ℕ} (hport : ∀ p, port = some p → p < 65536) :
    parseAuthority protocol (host ++ portText port) =
      some (webUrl protocol host port hport) := by
  cases port with
  | none =>
      have hcut : cutColon (host ++ portText none) = none := by
        rw [portText, List.append_nil]
        exact cutColon_eq_none_iff.mpr hhost
      rw [parseAuthority, hcut]
      simp only [portText, List.append_nil]
  | some p =>
      have hcut : cutColon (host ++ portText (some p)) = some (host, natText p) :=
        cutColon_append hhost (natText p)
      rw [parseAuthority, hcut]
      simp only [readDecimal_natText, hport p rfl, dif_pos, if_pos]

theorem colon_notMem {host : JsString} (h : IsDomain (stripDot host)) :
    unit ':' ∉ host := by
  have hdomain : unit ':' ∉ stripDot host := by
    intro hcolon
    exact Bool.false_ne_true ((h.units _ hcolon).symm.trans (by decide))
  intro hcolon
  unfold stripDot at hdomain
  split at hdomain
  next hlast =>
    rw [← List.dropLast_append_getLast? dot hlast, List.mem_append,
      List.mem_singleton] at hcolon
    rcases hcolon with hcolon | hcolon
    · exact hdomain hcolon
    · exact absurd hcolon (by decide)
  next => exact hdomain hcolon

theorem parsesDomains_parseWeb : ParsesDomains parseWeb := by
  constructor
  · intro authority url h
    rw [parseWeb_https] at h
    exact parseAuthority_protocol h
  · intro protocol host port url hweb hdomain hport h
    have hparsed : parseWeb (protocol ++ js "//" ++ host ++ portText port) =
        some (webUrl protocol host port hport) := by
      rw [List.append_assoc, ← parseAuthority_portText (colon_notMem hdomain) protocol hport]
      rcases hweb with rfl | rfl
      · exact parseWeb_http _
      · exact parseWeb_https _
    rw [h] at hparsed
    rw [Option.some.inj hparsed]
    exact ⟨rfl, rfl, rfl⟩

/-! ## Roots -/

theorem drfed_isDomain : IsDomain (js "drfed.net") where
  units := by
    have hall : (js "drfed.net").all (fun c => !isForbiddenUnit c) = true := by decide
    simpa using hall
  labels := by decide
  name := by decide

def developmentRoot : Url :=
  webUrl (js "http:") (js "drfed.net.") (some 8888) (by simp)

def crossedRoot : Url :=
  webUrl (js "http:") (js "drfed.net") (some 443) (by simp)

theorem fooBar_isSlug : IsSlug (js "foo-bar") where
  nonempty := by decide
  units := List.all_eq_true.mp (by decide)
  first := by decide
  last := by decide

theorem instanceOrigin_canonical_development :
    ∃ origin, instanceOrigin parseWeb developmentRoot (js "foo-bar") = some origin ∧
      (CanonicalOrigin parseWeb developmentRoot (js "foo-bar") origin ↔
        developmentRoot.port ≠ some 80 ∧ developmentRoot.port ≠ some 443) := by
  have horigin : instanceOrigin parseWeb developmentRoot (js "foo-bar") =
      some (webUrl (js "http:") (js "foo-bar.drfed.net") (some 8888) (by simp)) := rfl
  exact ⟨_, horigin, instanceOrigin_canonical parsesDomains_parseWeb (.inl rfl)
    drfed_isDomain fooBar_isSlug horigin⟩

/-- The origin of an instance of `http://drfed.net:443` is on port 80. -/
theorem instanceOrigin_not_canonical :
    ∃ origin, instanceOrigin parseWeb crossedRoot (js "foo-bar") = some origin ∧
      IsWebProtocol crossedRoot.protocol ∧ IsDomain (canonicalHostname crossedRoot) ∧
      IsSlug (js "foo-bar") ∧ effectivePort crossedRoot = some 443 ∧
      effectivePort origin = some 80 ∧
      ¬ CanonicalOrigin parseWeb crossedRoot (js "foo-bar") origin := by
  have horigin : instanceOrigin parseWeb crossedRoot (js "foo-bar") =
      some (webUrl (js "http:") (js "foo-bar.drfed.net") none (by simp)) := rfl
  refine ⟨_, horigin, .inl rfl, drfed_isDomain, fooBar_isSlug, rfl, rfl, ?_⟩
  intro hcanonical
  exact absurd hcanonical.port (by decide)

end DrFed.Instances
