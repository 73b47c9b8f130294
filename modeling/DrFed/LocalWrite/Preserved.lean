import DrFed.Document.Shown
import DrFed.LocalWrite.Inherited

/-!
# The meaning of saved documents

The saved resources of a create mean together what the prepared document
means.  Each is valid on its own and describes exactly the documents of its
part that no reference replaced, in the same types, with the same identities
and under the same properties; the IRIs of the resources that it refers to are
identifiers of the properties that held their documents.
-/

namespace DrFed.LocalWrite

open Document Store Instances

/-! ## IRIs of the router -/

/-- The documented behaviour of the router: it composes absolute URLs, which
the parser of URLs accepts. -/
structure RoutesIris (P : Platform) (server : Server) : Prop where
  valid : ∀ origin route,
    checkReferenceText P.toRuntime (server.getObjectUri origin route) [] = []
  absolute : ∀ origin route, ∃ scheme rest, unit ':' ∉ scheme ∧
    server.getObjectUri origin route = scheme ++ js "://" ++ rest

theorem checkReferenceText_path {R : Runtime} {text : JsString}
    (h : checkReferenceText R text [] = []) (path : FieldPath) :
    checkReferenceText R text path = [] := by
  unfold checkReferenceText at h ⊢
  split at h
  · cases h
  · split at h
    · cases h
    · split at h
      · cases h
      · simp_all

theorem expandIdentifier_absolute {scheme : JsString}
    (hscheme : unit ':' ∉ scheme) (rest : JsString) (context : Terms) :
    expandIdentifier (scheme ++ js "://" ++ rest) context =
      scheme ++ js "://" ++ rest := by
  have hcut : cutColon (scheme ++ js "://" ++ rest) =
      some (scheme, js "//" ++ rest) := by
    rw [List.append_assoc]
    exact cutColon_append hscheme (js "//" ++ rest)
  have hslashes : (js "//").isPrefixOf (js "//" ++ rest) = true :=
    List.isPrefixOf_iff_prefix.mpr (List.prefix_append _ _)
  rw [expandIdentifier, hcut]
  exact if_pos (.inr hslashes)

theorem RoutesIris.expand {P : Platform} {server : Server}
    (h : RoutesIris P server) (origin : Url) (route : ObjectRoute)
    (context : Terms) :
    expandIdentifier (server.getObjectUri origin route) context =
      server.getObjectUri origin route := by
  obtain ⟨scheme, rest, hscheme, habsolute⟩ := h.absolute origin route
  rw [habsolute, expandIdentifier_absolute hscheme]

section Platform

variable {P : Platform} {server : Server} {actor : WritingActor}
  {request : CreateRequest} {allocation : Allocation}
  {lookups : IdentityLookups} {nodes : List DocumentNode}
  {planned : List PlannedResource} {prepared : Json} {write : PreparedWrite}

/-! ## Saved documents as excerpts -/

section Accepted

variable (h : Creates P server actor request allocation lookups nodes planned
  prepared write) {root : Node Json} (haccepted : Accepted P prepared root)

include h

/-- Only documents of the prepared document are replaced. -/
theorem Creates.references_cases (path : FieldPath) :
    references planned path = .keep ∨ ∃ resource ∈ planned,
      resource.path = path ∧
        references planned path = .put (.str resource.iri) := by
  rcases LocalWrite.references_cases planned path with hkeep | ⟨iri, hput⟩
  · exact .inl hkeep
  · obtain ⟨resource, hmem, hpath, -, hiri⟩ :=
      (references_eq_put h.nodup).mp hput
    exact .inr ⟨resource, hmem, hpath, hiri ▸ hput⟩

theorem Creates.mem_paths {path : FieldPath} (hroot : Accepted P prepared root) :
    path ∈ ((describeDocument P prepared).getD []).map DocumentNode.path ↔
      ∃ n, Reaches P root n ∧ n.path = path := by
  rw [describeDocument_of_accepts h.prepares.accepts, Option.getD_some,
    describedNodes, List.map_map, List.mem_map]
  simp only [Function.comp_def, describedNode_path, hroot.visited]

theorem Creates.exists_root : ∃ root, Accepted P prepared root :=
  exists_accepted P h.prepares.accepts

theorem Creates.references_outside {path : FieldPath}
    (hreference : references planned path ≠ .keep) :
    .key (js "@context") ∉ path := by
  obtain ⟨resource, hmem, rfl, -⟩ :=
    (h.references_cases path).resolve_left hreference
  obtain ⟨root, hroot⟩ := h.exists_root
  obtain ⟨node, hreach, hpath⟩ := h.exists_node hmem hroot
  exact hpath ▸ (hroot.nodeAt h.prepares.distinct hreach).outside

theorem Creates.excerpt {resource : PlannedResource} (hmem : resource ∈ planned) :
    Excerpt prepared resource.path ((references planned).beneath resource.path)
      (savedDocument server prepared
        (((describeDocument P prepared).getD []).map DocumentNode.path)
        planned resource.path) where
  part := by
    obtain ⟨ms, fields, hobject, hfields, hdocument⟩ := h.saved_fields hmem
    rw [Json.amend_obj] at hfields
    obtain rfl := Json.obj.inj hfields
    refine ⟨ms, _, hobject, hdocument.trans (apply_ite Json.obj _ _ _).symm,
      fun key hkey => ?_⟩
    split
    · rfl
    · rw [materialize]
      dsimp only
      split
      · rfl
      · rw [AssocList.lookup_put, if_neg hkey]
  puts := by
    intro q
    rcases h.references_cases (resource.path ++ q) with
      hkeep | ⟨other, hother, hpath, hput⟩
    · exact .inl hkeep
    · exact .inr ⟨other.iri, hput, hpath ▸ h.get?_planned hother⟩
  outside := by
    intro q hreference hq
    exact h.references_outside hreference (List.mem_append_right _ hq)

include haccepted

theorem Creates.embeds {resource : PlannedResource} (q : FieldPath)
    (hreference : (references planned).beneath resource.path q ≠ .keep) :
    ∃ child, Reaches P root child ∧ child.path = resource.path ++ q := by
  obtain ⟨other, hother, hpath, -⟩ :=
    (h.references_cases (resource.path ++ q)).resolve_left hreference
  obtain ⟨child, hreach, hchild⟩ := h.exists_node hother haccepted
  exact ⟨child, hreach, hchild.trans hpath⟩

/-- An object that holds a replaced document is not read otherwise. -/
theorem Creates.amends (hroutes : RoutesIris P server) :
    Amends P (references planned) root := by
  intro node hreach
  have hdistinct := h.prepares.distinct
  have hnode := haccepted.nodeAt hdistinct hreach
  refine ⟨fun rest => ?_, fun field hfield => ?_⟩
  · by_contra hreference
    exact h.references_outside hreference (by simp)
  · by_cases huntouched : ∀ rest,
        references planned (node.path ++ .key field.source :: rest) = .keep
    · exact .untouched huntouched
    · obtain ⟨rest, hreference⟩ := not_forall.mp huntouched
      obtain ⟨resource, hmem, hpath, -⟩ :=
        (h.references_cases _).resolve_left hreference
      obtain ⟨other, hother, hotherPath⟩ := h.exists_node hmem haccepted
      obtain ⟨-, child, ⟨visits, key, range, hfollow, -⟩, -⟩ :=
        haccepted.reaches_through hdistinct hreach hother hfield
          (by rw [hotherPath, hpath]; exact ⟨rest, by simp⟩)
      have hvalue := hnode.get?_field hdistinct hfield
      refine .references visits key range hfollow ?_ ?_
      · intro items hitems
        rcases h.references_cases (node.path ++ [.key field.source]) with
          hkeep | ⟨replaced, hreplaced, hat, -⟩
        · exact hkeep
        · obtain ⟨ms, hobject⟩ := h.get?_planned hreplaced
          rw [hat, hvalue, hitems] at hobject
          cases hobject
      · intro entry path hentry
        rcases h.references_cases path with
          hkeep | ⟨replaced, hreplaced, hat, hput⟩
        · exact .inl hkeep
        · obtain ⟨ms, hobject⟩ := h.get?_planned hreplaced
          rw [hat, get?_valueEntries hvalue hentry] at hobject
          obtain ⟨-, -, target, -, hiri⟩ := h.plan hreplaced
          refine .inr ⟨replaced.iri, hput,
            (isRecord_tree entry).mpr ⟨ms, Option.some.inj hobject⟩, ?_⟩
          rw [hiri]
          exact checkReferenceText_path (hroutes.valid _ _) path

theorem Creates.saved_distinct {resource : PlannedResource}
    (hmem : resource ∈ planned) :
    (savedDocument server prepared
      (((describeDocument P prepared).getD []).map DocumentNode.path) planned
      resource.path).Distinct := by
  have hdistinct := h.prepares.distinct
  obtain ⟨node, hreach, hpath⟩ := h.exists_node hmem haccepted
  obtain ⟨ms, fields, hobject, hfields, hdocument⟩ := h.saved_fields hmem
  have hamended : (Json.obj fields).Distinct := by
    rw [← hfields]
    apply Json.Distinct.amend _ (hdistinct.get? hobject)
    intro q value hput
    rw [Amendments.beneath_apply] at hput
    rcases h.references_cases (resource.path ++ q) with
      hkeep | ⟨replaced, -, -, hreference⟩
    · rw [hkeep] at hput
      cases hput
    · rw [hreference] at hput
      cases hput
      trivial
  rw [hdocument]
  split
  · exact hamended
  · rw [Json.distinct_obj] at hamended
    have hchain := contextChain_distinct hdistinct haccepted
      (fun _ => h.mem_paths haccepted) hreach
    rw [hpath] at hchain
    rw [materialize]
    dsimp only
    split
    · exact Json.distinct_obj.mpr hamended
    · refine Json.distinct_obj.mpr ⟨AssocList.nodup_put hamended.1, ?_⟩
      intro entry hentry
      rcases AssocList.mem_put hentry with rfl | hentry
      · exact distinct_chainContext hchain
      · exact hamended.2 entry hentry

/-- Every saved document is valid on its own. -/
theorem Creates.saved_accepts (hroutes : RoutesIris P server)
    {resource : PlannedResource} (hmem : resource ∈ planned) :
    (validateDocument P (savedDocument server prepared
      (((describeDocument P prepared).getD []).map DocumentNode.path) planned
      resource.path)).accepts = true := by
  by_cases hroot : resource.path = []
  · rw [validateDocument_accepts_iff (h.saved_distinct haccepted hmem), hroot]
    have hwhole : savedDocument server prepared
        (((describeDocument P prepared).getD []).map DocumentNode.path) planned
        [] = prepared.amend (references planned) := by
      simp [savedDocument, embeddedValue, Json.get?_nil,
        Amendments.beneath_nil]
    rw [hwhole]
    exact (checkDocumentValue_amended h.prepares.distinct h.prepares.accepts
      haccepted (h.amends haccepted hroutes)).1
  · exact (h.nested_valid hmem hroot).1

/-- A saved document is read in the context of its part. -/
theorem Creates.saved_context {resource : PlannedResource}
    (hmem : resource ∈ planned) {node root' : Node Json}
    (hreach : Reaches P root node) (hpath : node.path = resource.path)
    (haccepted' : Accepted P (savedDocument server prepared
      (((describeDocument P prepared).getD []).map DocumentNode.path) planned
      resource.path) root') : root'.context = node.context := by
  have hdistinct := h.prepares.distinct
  have hdistinct' := h.saved_distinct haccepted hmem
  have hnode' := haccepted'.nodeAt hdistinct' .refl
  obtain ⟨ms, fields, hobject, hfields, hdocument⟩ := h.saved_fields hmem
  have hkept : fields.lookup (js "@context") = ms.lookup (js "@context") := by
    have hcontext := (h.excerpt hmem).context_kept ms []
    rw [Json.amend_obj] at hfields
    rwa [← Json.obj.inj hfields]
  rw [hdocument] at hdistinct' haccepted' hnode'
  by_cases hroot : resource.path = []
  · rw [if_pos hroot] at hdistinct' haccepted' hnode'
    obtain rfl := haccepted.reached_unique hdistinct hreach .refl
      (by rw [hpath, hroot, haccepted.root_path])
    have hread := (haccepted.nodeAt hdistinct .refl).context
    have hread' := hnode'.context
    rw [hroot, Json.get?_nil] at hobject
    obtain rfl := Option.some.inj hobject
    rw [haccepted.root_path] at hread
    rw [haccepted'.root_path] at hread'
    rw [contextAt, ownContext_congr (Json.distinct_obj.mp hdistinct).1
      (Json.distinct_obj.mp hdistinct').1 hkept [] []] at hread'
    exact Option.some.inj (hread'.symm.trans hread)
  · rw [if_neg hroot, ← hpath] at hdistinct' haccepted' hnode'
    exact context_materialize hdistinct haccepted
      (fun _ => h.mem_paths haccepted) hreach (hpath ▸ hobject) hkept
      (Json.distinct_obj.mp hdistinct').1 haccepted' hnode'

omit haccepted in
theorem Creates.routed (hroutes : RoutesIris P server) {base q : FieldPath}
    {text : JsString}
    (hput : (references planned).beneath base q = .put (.str text))
    (context : Terms) : expandIdentifier text context = text := by
  rw [Amendments.beneath_apply] at hput
  rcases h.references_cases (base ++ q) with
    hkeep | ⟨resource, hmem, -, hreference⟩
  · rw [hkeep] at hput
    cases hput
  · rw [hreference] at hput
    obtain ⟨-, -, target, -, hiri⟩ := h.plan hmem
    rw [← Json.str.inj (Amendment.put.inj hput), hiri]
    exact hroutes.expand _ _ context

end Accepted

/-! ## What a saved document stands for -/

variable (P) in
/-- A document stands for the part of another at a path: it describes
exactly the documents there that no reference replaced. -/
structure StandsFor (nodes : List DocumentNode) (base : FieldPath)
    (ρ : Amendments) (document : Json) (described : List DocumentNode) :
    Prop where
  describes : describeDocument P document = some described
  kept : ∀ shown ∈ described, ρ.Keeps shown.path ∧
    ∃ n ∈ nodes, ShownAs nodes base ρ n shown
  whole : ∀ n ∈ nodes, ∀ q, n.path = base ++ q → ρ.Keeps q →
    ∃ shown ∈ described, shown.path = q ∧ ShownAs nodes base ρ n shown

variable (P) in
/-- A document that carries the identity, the owner and the time of a local
resource. -/
structure OwnsIdentity (document : Json) (kind : RevisableKind)
    (iri owner published : JsString) : Prop where
  id : Owns P document ⟨[.key (js "id")], iri⟩
  attribution : Owns P document ⟨[.key (ownedAttribution kind)], owner⟩
  published : Owns P document ⟨[.key (js "published")], published⟩

theorem mem_describedNodes {document : Json} {root : Node Json}
    (haccepted : Accepted P document root) {n : DocumentNode} :
    n ∈ describedNodes P document ↔
      ∃ node, Reaches P root node ∧ describedNode P document node = n := by
  simp only [describedNodes, List.mem_map, haccepted.visited]

section Accepted

variable (h : Creates P server actor request allocation lookups nodes planned
  prepared write) (hroutes : RoutesIris P server) {resource : PlannedResource}
  (hmem : resource ∈ planned)

include h hroutes hmem

theorem Creates.standsFor : ∃ described, StandsFor P (describedNodes P prepared)
    resource.path ((references planned).beneath resource.path)
    (savedDocument server prepared
      (((describeDocument P prepared).getD []).map DocumentNode.path) planned
      resource.path) described := by
  obtain ⟨root, haccepted⟩ := h.exists_root
  have hdistinct := h.prepares.distinct
  have hdistinct' := h.saved_distinct haccepted hmem
  have haccepts := validateDocument_accepts P
    (h.saved_accepts haccepted hroutes hmem)
  obtain ⟨root', haccepted'⟩ := exists_accepted P haccepts
  obtain ⟨start, hstart, hbase⟩ := h.exists_node hmem haccepted
  have hcontext := h.saved_context haccepted hmem hstart hbase haccepted'
  have hexcerpt := h.excerpt hmem
  have hshown := fun {node shown : Node Json} (hnode : Reaches P root node)
      (hreach : Reaches P root' shown)
      (hpath : node.path = resource.path ++ shown.path) =>
    hexcerpt.describes hdistinct hdistinct' haccepted haccepted' hstart hbase
      hcontext (fun q _ => h.embeds haccepted q)
      (fun _ _ => h.routed hroutes) hnode hreach hpath
  refine ⟨_, describeDocument_of_accepts haccepts, ?_, ?_⟩
  · intro m hm
    obtain ⟨shown, hreach, rfl⟩ := (mem_describedNodes haccepted').mp hm
    obtain ⟨hkeeps, node, hnode, hmirrors⟩ := hexcerpt.node_of_shown hdistinct
      hdistinct' haccepted haccepted' hstart hbase hcontext hreach
    exact ⟨by simpa using hkeeps, _,
      (mem_describedNodes haccepted).mpr ⟨node, hnode, rfl⟩,
      hshown hnode hreach hmirrors.path⟩
  · intro n hn q hpath hkeeps
    obtain ⟨node, hnode, rfl⟩ := (mem_describedNodes haccepted).mp hn
    rw [describedNode_path] at hpath
    obtain ⟨shown, hreach, rfl⟩ := hexcerpt.shown_of_node hdistinct hdistinct'
      haccepted haccepted' hstart hbase hcontext hnode hpath hkeeps
    exact ⟨_, (mem_describedNodes haccepted').mpr ⟨shown, hreach, rfl⟩,
      describedNode_path _ _, hshown hnode hreach hpath⟩

theorem Creates.ownsIdentity : OwnsIdentity P
    (savedDocument server prepared
      (((describeDocument P prepared).getD []).map DocumentNode.path) planned
      resource.path)
    resource.kind resource.iri actor.iri
    (server.instantText allocation.timestamp) := by
  obtain ⟨root, haccepted⟩ := h.exists_root
  have hdistinct := h.prepares.distinct
  have hdistinct' := h.saved_distinct haccepted hmem
  obtain ⟨root', haccepted'⟩ := exists_accepted P (validateDocument_accepts P
    (h.saved_accepts haccepted hroutes hmem))
  obtain ⟨start, hstart, hbase⟩ := h.exists_node hmem haccepted
  have hcontext := h.saved_context haccepted hmem hstart hbase haccepted'
  have howns := fun {key value : JsString}
      (hfield : ⟨resource.path ++ [.key key], value⟩ ∈
        ownedFields actor (server.instantText allocation.timestamp) resource) =>
    (h.excerpt hmem).owns hdistinct hdistinct'
      (haccepted.nodeAt hdistinct hstart) hbase
      (haccepted'.nodeAt hdistinct' .refl) haccepted'.root_path hcontext
      (h.prepares.owns ⟨resource.path ++ [.key key], value⟩
        (List.mem_flatMap.mpr ⟨resource, hmem, hfield⟩))
  exact ⟨howns (by simp [ownedFields]), howns (by simp [ownedFields]),
    howns (by simp [ownedFields])⟩

end Accepted

/-- The saved resources of a create mean together what the prepared document
means, each under its own identity. -/
theorem prepareCreate_keepsMeaning (hroutes : RoutesIris P server)
    (h : prepareCreate server P actor request allocation lookups =
      .ok write) :
    ∃ submitted planned prepared nodes,
      describeDocument P request.value = some submitted ∧
      planned.map PlannedResource.toNewResource = request.resources ∧
      (∃ result, prepareDocument P request.value
          (createOptions server actor allocation lookups submitted planned) =
            .ok result ∧
        result.accepts = true ∧
        prepared = result.normalizedDocument.getD request.value) ∧
      describeDocument P prepared = some nodes ∧
      ∀ r ∈ write.resources, r.path ∈ planned.map (fun r => r.path) ∧
        (validateDocument P r.document).accepts = true ∧
        (∃ described, StandsFor P nodes r.path
          ((references planned).beneath r.path) r.document described) ∧
        OwnsIdentity P r.document r.kind r.iri actor.iri
          (server.instantText allocation.timestamp) := by
  obtain ⟨submitted, planned, prepared, hcreates⟩ := prepareCreate_eq_ok h
  obtain ⟨root, haccepted⟩ := hcreates.exists_root
  refine ⟨submitted, planned, prepared, _, hcreates.described,
    hcreates.toNewResource, hcreates.outcome,
    describeDocument_of_accepts hcreates.prepares.accepts, fun r hr => ?_⟩
  obtain ⟨resource, hmem, rfl⟩ := hcreates.mem_resources hr
  exact ⟨List.mem_map_of_mem (f := fun r : PlannedResource => r.path) hmem,
    hcreates.saved_accepts haccepted hroutes hmem,
    hcreates.standsFor hroutes hmem, hcreates.ownsIdentity hroutes hmem⟩

end Platform

/-! ## The create with two notes -/

/-- A unit that stands for itself in a URL. -/
def isUrlUnit (c : UInt16) : Bool :=
  0x20 < c && c < 0x7f && !isIriDelimiter c && c != unit '%'

theorem isUrlUnit_spec {c : UInt16} (h : isUrlUnit c = true) :
    c < 0x7f ∧ isControlOrSpace c = false ∧ isIriDelimiter c = false ∧
      c ≠ unit '%' := by
  rw [isUrlUnit, Bool.and_eq_true, Bool.and_eq_true, Bool.and_eq_true,
    decide_eq_true_iff, decide_eq_true_iff, Bool.not_eq_true', bne_iff_ne] at h
  obtain ⟨⟨⟨hlow, hhigh⟩, hdelimiter⟩, hpercent⟩ := h
  refine ⟨hhigh, ?_, hdelimiter, hpercent⟩
  rw [isControlOrSpace, Bool.or_eq_false_iff, decide_eq_false_iff_not,
    beq_eq_false_iff_ne]
  exact ⟨UInt16.not_le.mpr hlow, UInt16.ne_of_lt hhigh⟩

section UrlUnits

variable {text : JsString} (h : ∀ c ∈ text, isUrlUnit c = true)

include h

theorem isWellFormed_of_urlUnits : isWellFormed text = true := by
  have hbelow : ∀ c : UInt16, c < 0x7f → ¬ 0xd800 ≤ c ∧ ¬ 0xdc00 ≤ c := by
    intro c hc
    rw [UInt16.not_le, UInt16.not_le]
    exact ⟨UInt16.lt_trans hc (by decide), UInt16.lt_trans hc (by decide)⟩
  fun_induction isWellFormed text with
  | case1 => rfl
  | case2 u =>
      obtain ⟨hu, -⟩ := hbelow u (isUrlUnit_spec (h u List.mem_cons_self)).1
      simp [hu]
  | case3 u v rest hsurrogate =>
      obtain ⟨hu, -⟩ := hbelow u (isUrlUnit_spec (h u List.mem_cons_self)).1
      simp [hu] at hsurrogate
  | case4 u v rest hplain ih =>
      obtain ⟨-, hu⟩ := hbelow u (isUrlUnit_spec (h u List.mem_cons_self)).1
      simpa [hu] using ih fun c hc => h c (List.mem_cons_of_mem _ hc)

theorem hasBarePercent_of_urlUnits : hasBarePercent text = false := by
  induction text with
  | nil => rfl
  | cons c rest ih =>
      obtain ⟨-, -, -, hpercent⟩ := isUrlUnit_spec (h c List.mem_cons_self)
      rw [hasBarePercent, ih fun d hd => h d (List.mem_cons_of_mem _ hd),
        beq_eq_false_iff_ne.mpr hpercent]
      rfl

theorem checkReferenceText_of_urlUnits {R : Runtime}
    (hscheme : hasScheme text = true) (hparse : R.canParseUrl text = true)
    (path : FieldPath) : checkReferenceText R text path = [] := by
  have hcontrol : text.any isControlOrSpace = false :=
    List.any_eq_false.mpr fun c hc => by simp [(isUrlUnit_spec (h c hc)).2.1]
  have hdelimiter : text.any isIriDelimiter = false :=
    List.any_eq_false.mpr fun c hc => by simp [(isUrlUnit_spec (h c hc)).2.2.1]
  simp [checkReferenceText, isWellFormed_of_urlUnits h, hcontrol, hdelimiter,
    hasBarePercent_of_urlUnits h, hscheme, hparse]

end UrlUnits

theorem isUrlUnit_uuidText (id : Uuid) :
    ∀ c ∈ uuidText id, isUrlUnit c = true := by
  intro c hc
  have hdigits : ∀ d < 16, isUrlUnit (hexUnit d) = true := by decide
  rcases mem_uuidText hc with rfl | ⟨d, hd, rfl⟩
  · decide
  · exact hdigits d hd

theorem routesIris_plain : RoutesIris reducedPlatform plainServer where
  valid := by
    intro origin route
    have hunits : ∀ (base : JsString) (id : Uuid),
        base.all isUrlUnit = true →
        ∀ c ∈ base ++ uuidText id, isUrlUnit c = true := by
      intro base id hbase c hc
      rcases List.mem_append.mp hc with hc | hc
      · exact List.all_eq_true.mp hbase c hc
      · exact isUrlUnit_uuidText id c hc
    cases route with
    | object _ id =>
        exact checkReferenceText_of_urlUnits (hunits _ id (by decide)) rfl rfl []
    | create id =>
        exact checkReferenceText_of_urlUnits (hunits _ id (by decide)) rfl rfl []
    | activity id =>
        exact checkReferenceText_of_urlUnits (hunits _ id (by decide)) rfl rfl []
  absolute := by
    intro origin route
    cases route with
    | object _ id =>
        exact ⟨js "https", js "h.example/notes/" ++ uuidText id, by decide, rfl⟩
    | create id =>
        exact ⟨js "https", js "h.example/creates/" ++ uuidText id, by decide,
          rfl⟩
    | activity id =>
        exact ⟨js "https", js "h.example/activities/" ++ uuidText id, by decide,
          rfl⟩

theorem prepareCreate_keepsMeaning_twoNotes : ∃ write planned nodes,
    prepareCreate plainServer reducedPlatform plainActor twoNotes
      twoNotesAllocation nothingRegistered = .ok write ∧
    ∀ r ∈ write.resources, ∃ described, StandsFor reducedPlatform nodes r.path
      ((references planned).beneath r.path) r.document described := by
  obtain ⟨write, hwrite⟩ := prepareCreate_twoNotes
  obtain ⟨-, planned, -, nodes, -, -, -, -, hresources⟩ :=
    prepareCreate_keepsMeaning routesIris_plain hwrite
  exact ⟨write, planned, nodes, hwrite, fun r hr => (hresources r hr).2.2.1⟩

end DrFed.LocalWrite
