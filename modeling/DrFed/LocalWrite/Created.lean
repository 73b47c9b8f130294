import DrFed.Document.Reduced
import DrFed.Js.Uuid
import DrFed.LocalWrite.Accepted

/-!
# What a create saves

The resources of an accepted create form the tree of its descriptors.  Each
saved document is the part of the prepared document at its path, in which
every outermost referenced resource is replaced by its IRI; a nested one also
states the context it inherited.
-/

namespace DrFed.LocalWrite

open Document Store Instances

section Platform

variable (P : Platform) (server : Server)

/-- The resources that a create saves, told from the prepared document and
the planned resources alone. -/
structure SavesTree (planned : List PlannedResource) (prepared : Json)
    (write : PreparedWrite) : Prop where
  saved : (write.resources.map fun r => (r.path, r.kind, r.id, r.iri)).Perm
    (planned.map fun r => (r.path, r.kind, r.id, r.iri))
  nodup : (write.resources.map PreparedResource.path).Nodup
  deepest : write.resources.Pairwise fun a b => b.path.length ≤ a.path.length
  last : ∃ root, write.resources.getLast? = some root ∧ root.path = []
  parents : ∀ r ∈ write.resources, r.path ≠ [] →
    ∃ parent ∈ write.resources, parent.path = parentPath r.path
  documents : ∀ r ∈ write.resources, ∃ ms fields,
    prepared.get? r.path = some (.obj ms) ∧
    (Json.obj ms).amend ((references planned).beneath r.path) =
      .obj fields ∧
    if r.path = [] then r.document = .obj fields
    else
      r.document = .obj (materialize server (contextChain prepared
        (((describeDocument P prepared).getD []).map DocumentNode.path) r.path)
        fields r.path).1 ∧
      (validateDocument P r.document).accepts = true
  children : ∀ r ∈ write.resources, ∀ s ∈ planned, ∀ q, q ≠ [] →
    s.path = r.path ++ q →
    (∀ p, p ≠ [] → p <+: q → p ≠ q → references planned (r.path ++ p) = .keep) →
    r.document.get? q = some
      (if s.representation = some .reference then .str s.iri
      else embeddedValue prepared planned s.path)
  indexed : ∀ r ∈ write.resources,
    ⟨r.addressing, r.relations⟩ = indexDocument P r.document ∧
      (r.path ≠ [] → checkIndexable P r.document = [])

variable {P server}

theorem deepestFirst_perm (planned : List PlannedResource) :
    (deepestFirst planned).Perm planned :=
  List.perm_insertionSort _ _

theorem deepestFirst_pairwise (planned : List PlannedResource) :
    (deepestFirst planned).Pairwise fun a b =>
      b.path.length ≤ a.path.length := by
  have : Std.Total fun a b : PlannedResource =>
      b.path.length ≤ a.path.length := ⟨fun a b => le_total _ _⟩
  have : IsTrans PlannedResource fun a b =>
      b.path.length ≤ a.path.length := ⟨fun _ _ _ h h' => h'.trans h⟩
  exact List.pairwise_insertionSort _ _

theorem references_perm {planned others : List PlannedResource}
    (hperm : planned.Perm others)
    (hnodup : (planned.map fun r => r.path).Nodup) :
    references planned = references others := by
  have hnodup' := (hperm.map fun r => r.path).nodup_iff.mp hnodup
  funext path
  rcases references_cases planned path with hkeep | ⟨iri, hput⟩
  · rw [hkeep, eq_comm]
    rw [references_eq_keep] at hkeep ⊢
    exact fun resource hmem => hkeep resource (hperm.mem_iff.mpr hmem)
  · rw [hput, eq_comm]
    rw [references_eq_put hnodup] at hput
    rw [references_eq_put hnodup']
    simpa only [hperm.mem_iff] using hput

theorem get?_materialize {chain : List Json} {ms : List (JsString × Json)}
    {path : FieldPath} {segment : Segment} {rest : FieldPath}
    (hsegment : segment ≠ .key (js "@context")) :
    (Json.obj (materialize server chain ms path).1).get? (segment :: rest) =
      (Json.obj ms).get? (segment :: rest) := by
  rw [materialize]
  dsimp only
  split
  · rfl
  · rw [Json.get?_cons, Json.get?_cons]
    refine congrArg (Option.bind · _) ?_
    exact Json.child?_setChild_of_ne (.obj ms) hsegment _

/-- The documents of accepted creates are where the descriptors say. -/
theorem Creates.get?_planned {actor : WritingActor} {request : CreateRequest}
    {allocation : Allocation} {lookups : IdentityLookups}
    {nodes : List DocumentNode} {planned : List PlannedResource}
    {prepared : Json} {write : PreparedWrite}
    (h : Creates P server actor request allocation lookups nodes planned
      prepared write) {resource : PlannedResource}
    (hmem : resource ∈ planned) :
    ∃ ms, prepared.get? resource.path = some (.obj ms) := by
  obtain ⟨root, haccepted⟩ := exists_accepted P h.prepares.accepts
  obtain ⟨node, hnode, hpath⟩ := h.exists_node hmem haccepted
  exact hpath ▸ haccepted.get?_reached h.prepares.distinct hnode

section Accepted

variable {actor : WritingActor} {request : CreateRequest}
  {allocation : Allocation} {lookups : IdentityLookups}
  {nodes : List DocumentNode} {planned : List PlannedResource}
  {prepared : Json} {write : PreparedWrite}
  (h : Creates P server actor request allocation lookups nodes planned
    prepared write)

include h

theorem Creates.nodup : (planned.map fun r => r.path).Nodup :=
  h.paths_planned ▸ h.paths

/-- The run of the loop, told with the planned resources in any order. -/
theorem Creates.run : ∃ s after,
    Run server P prepared
      (((describeDocument P prepared).getD []).map DocumentNode.path) planned
      (deepestFirst planned) s after ∧
    s.resources = [] ∧ write.resources = after.resources := by
  obtain ⟨changes, saved, hsaved, hresources⟩ := h.saved
  have hperm := deepestFirst_perm planned
  have hnodup := (hperm.map fun r => r.path).nodup_iff.mpr h.nodup
  have hstart : prepared = prepared.amend (references []) :=
    (Json.amend_of_keep _ (fun _ _ => rfl) prepared).symm
  have hrun : Run server P prepared
      (((describeDocument P prepared).getD []).map DocumentNode.path)
      ([] ++ deepestFirst planned) (deepestFirst planned)
      ⟨prepared, changes, []⟩ saved :=
    saveResources_run h.prepares.distinct hstart
      (by simpa only [List.nil_append] using deepestFirst_pairwise planned)
      (by simpa only [List.nil_append] using hnodup)
      (fun resource hmem => h.get?_planned (hperm.mem_iff.mp hmem)) hsaved
  rw [List.nil_append] at hrun
  have hreferences := references_perm hperm hnodup
  have hdocuments : savedDocument server prepared
      (((describeDocument P prepared).getD []).map DocumentNode.path)
      (deepestFirst planned) = savedDocument server prepared
        (((describeDocument P prepared).getD []).map DocumentNode.path)
        planned := by
    funext path
    rw [savedDocument, savedDocument, embeddedValue, embeddedValue,
      hreferences]
  refine ⟨⟨prepared, changes, []⟩, saved, ⟨?_, ?_, ?_⟩, rfl, hresources⟩
  · rw [hrun.working, hreferences]
  · rw [hrun.resources, hdocuments]
  · rw [← hdocuments]
    exact hrun.nested

theorem Creates.resources_eq :
    write.resources = (deepestFirst planned).map fun resource =>
      prepareResource P resource (savedDocument server prepared
        (((describeDocument P prepared).getD []).map DocumentNode.path)
        planned resource.path) := by
  obtain ⟨s, after, hrun, hempty, hresources⟩ := h.run
  rw [hresources, hrun.resources, hempty, List.nil_append]

theorem Creates.mem_resources {r : PreparedResource}
    (hmem : r ∈ write.resources) : ∃ resource ∈ planned,
      r = prepareResource P resource (savedDocument server prepared
        (((describeDocument P prepared).getD []).map DocumentNode.path)
        planned resource.path) := by
  rw [h.resources_eq, List.mem_map] at hmem
  obtain ⟨resource, hresource, rfl⟩ := hmem
  exact ⟨resource, (deepestFirst_perm planned).mem_iff.mp hresource, rfl⟩

theorem Creates.exists_resource {resource : PlannedResource}
    (hmem : resource ∈ planned) :
    ∃ r ∈ write.resources, r.path = resource.path := by
  rw [h.resources_eq]
  exact ⟨_, List.mem_map_of_mem ((deepestFirst_perm planned).mem_iff.mpr hmem),
    rfl⟩

/-- A path among the descriptors is the path of a saved resource. -/
theorem Creates.exists_saved {path : FieldPath}
    (hpath : path ∈ request.resources.map NewResource.path) :
    ∃ r ∈ write.resources, r.path = path := by
  rw [← h.paths_planned] at hpath
  obtain ⟨resource, hmem, rfl⟩ := List.mem_map.mp hpath
  exact h.exists_resource hmem

/-- The shallowest resource comes last, and that is the root. -/
theorem Creates.getLast_root :
    ∃ root, write.resources.getLast? = some root ∧ root.path = [] := by
  obtain ⟨root, hroot, hpath⟩ := h.exists_saved h.root
  have hne := List.ne_nil_of_mem hroot
  refine ⟨_, List.getLast?_eq_some_getLast hne, ?_⟩
  have hpairs : write.resources.Pairwise fun a b =>
      b.path.length ≤ a.path.length := by
    rw [h.resources_eq]
    exact List.pairwise_map.mpr (deepestFirst_pairwise planned)
  rw [← List.dropLast_append_getLast hne, List.mem_append,
    List.mem_singleton] at hroot
  rcases hroot with hroot | rfl
  · rw [← List.dropLast_append_getLast hne] at hpairs
    have hlast := (List.pairwise_append.mp hpairs).2.2 root hroot _
      (List.mem_singleton_self _)
    rw [hpath] at hlast
    simpa using hlast
  · exact hpath

theorem Creates.saved_fields {resource : PlannedResource}
    (hmem : resource ∈ planned) : ∃ ms fields,
      prepared.get? resource.path = some (.obj ms) ∧
      (Json.obj ms).amend ((references planned).beneath resource.path) =
        .obj fields ∧
      savedDocument server prepared
          (((describeDocument P prepared).getD []).map DocumentNode.path)
          planned resource.path =
        if resource.path = [] then .obj fields
        else .obj (materialize server (contextChain prepared
          (((describeDocument P prepared).getD []).map DocumentNode.path)
          resource.path) fields resource.path).1 := by
  obtain ⟨ms, hms⟩ := h.get?_planned hmem
  obtain ⟨fields, hfields⟩ : ∃ fields, (Json.obj ms).amend
      ((references planned).beneath resource.path) = .obj fields :=
    ⟨_, Json.amend_obj _ ms⟩
  refine ⟨ms, fields, hms, hfields, ?_⟩
  simp [savedDocument, embeddedValue, hms, hfields]

theorem Creates.nested_valid {resource : PlannedResource}
    (hmem : resource ∈ planned) (hne : resource.path ≠ []) :
    (validateDocument P (savedDocument server prepared
        (((describeDocument P prepared).getD []).map DocumentNode.path)
        planned resource.path)).accepts = true ∧
      checkIndexable P (savedDocument server prepared
        (((describeDocument P prepared).getD []).map DocumentNode.path)
        planned resource.path) = [] := by
  obtain ⟨s, after, hrun, -, -⟩ := h.run
  exact hrun.nested resource ((deepestFirst_perm planned).mem_iff.mpr hmem) hne

/-- What a saved document holds at the path of a resource below it. -/
theorem Creates.get?_child {parent child : PlannedResource}
    (hparent : parent ∈ planned) (hchild : child ∈ planned) {q : FieldPath}
    (hne : q ≠ []) (hpath : child.path = parent.path ++ q)
    (hbetween : ∀ p, p ≠ [] → p <+: q → p ≠ q →
      references planned (parent.path ++ p) = .keep) :
    (savedDocument server prepared
      (((describeDocument P prepared).getD []).map DocumentNode.path)
      planned parent.path).get? q =
        some (if child.representation = some .reference then .str child.iri
          else embeddedValue prepared planned child.path) := by
  obtain ⟨ms, fields, hms, hfields, hdocument⟩ := h.saved_fields hparent
  obtain ⟨value, hvalue⟩ := h.get?_planned hchild
  have hbelow := hvalue
  rw [hpath, Json.get?_append, hms, Option.bind_some] at hbelow
  have hamend : ((Json.obj ms).amend
      ((references planned).beneath parent.path)).get? q =
        some (if child.representation = some .reference then .str child.iri
          else embeddedValue prepared planned child.path) := by
    by_cases hreference : child.representation = some .reference
    · have hput : references planned child.path = .put (.str child.iri) :=
        (references_eq_put h.nodup).mpr ⟨child, hchild, rfl, hreference, rfl⟩
      rw [if_pos hreference]
      refine Json.get?_amend_put _ _ q hne ?_ ?_ (by rw [hbelow]; rfl)
      · rw [Amendments.beneath_apply, ← hpath, hput]
      · exact fun p hp hnil hother => hbetween p hnil hp hother
    · have hkeep : references planned child.path = .keep := by
        refine references_eq_keep.mpr fun other hother hsame => ?_
        rwa [List.inj_on_of_nodup_map h.nodup hother hchild hsame]
      rw [if_neg hreference, Json.get?_amend _ _ q fun p hp hnil => ?_, hbelow,
        embeddedValue, hvalue, hpath]
      · refine congrArg some (Json.amend_congr (fun rest _ => ?_) _)
        simp only [Amendments.beneath, List.append_assoc]
      · by_cases hsame : p = q
        · rw [hsame, Amendments.beneath_apply, ← hpath, hkeep]
        · exact hbetween p hnil hp hsame
  rw [hfields] at hamend
  rw [hdocument]
  by_cases hroot : parent.path = []
  · rw [if_pos hroot, hamend]
  · obtain ⟨segment, rest, rfl⟩ := List.exists_cons_of_ne_nil hne
    have houtside : segment ≠ .key (js "@context") := by
      rintro rfl
      obtain ⟨root, haccepted⟩ := exists_accepted P h.prepares.accepts
      obtain ⟨node, hnode, hnodePath⟩ := h.exists_node hchild haccepted
      refine (haccepted.nodeAt h.prepares.distinct hnode).outside ?_
      rw [hnodePath, hpath]
      simp
    rw [if_neg hroot, get?_materialize houtside, hamend]

theorem Creates.savesTree : SavesTree P server planned prepared write where
  saved := by
    rw [h.resources_eq, List.map_map]
    exact (deepestFirst_perm planned).map _
  nodup := by
    rw [h.resources_eq, List.map_map]
    exact ((deepestFirst_perm planned).map _).nodup_iff.mpr h.nodup
  deepest := by
    rw [h.resources_eq]
    exact List.pairwise_map.mpr (deepestFirst_pairwise planned)
  last := h.getLast_root
  parents := by
    intro r hr hne
    obtain ⟨resource, hmem, rfl⟩ := h.mem_resources hr
    obtain ⟨-, -, node, hdescribed, -⟩ := h.plan hmem
    exact h.exists_saved (hdescribed.nested hne).2
  documents := by
    intro r hr
    obtain ⟨resource, hmem, rfl⟩ := h.mem_resources hr
    obtain ⟨ms, fields, hms, hfields, hdocument⟩ := h.saved_fields hmem
    refine ⟨ms, fields, hms, hfields, ?_⟩
    by_cases hroot : resource.path = []
    · rw [if_pos hroot] at hdocument
      exact (if_pos hroot).mpr hdocument
    · rw [if_neg hroot] at hdocument
      exact (if_neg hroot).mpr ⟨hdocument, (h.nested_valid hmem hroot).1⟩
  children := by
    intro r hr s hs q hne hpath hbetween
    obtain ⟨resource, hmem, rfl⟩ := h.mem_resources hr
    exact h.get?_child hmem hs hne hpath hbetween
  indexed := by
    intro r hr
    obtain ⟨resource, hmem, rfl⟩ := h.mem_resources hr
    exact ⟨rfl, fun hne => (h.nested_valid hmem hne).2⟩

end Accepted

/-- The saved resources of a create are the tree of its descriptors. -/
theorem prepareCreate_savesTree {actor : WritingActor} {request : CreateRequest}
    {allocation : Allocation} {lookups : IdentityLookups}
    {write : PreparedWrite}
    (h : prepareCreate server P actor request allocation lookups =
      .ok write) :
    ∃ nodes planned prepared,
      describeDocument P request.value = some nodes ∧
      planned.map PlannedResource.toNewResource = request.resources ∧
      (∀ r ∈ planned,
        allocation.ids.lookup (pathKey r.path) = some r.id ∧
        ∃ node, Described P nodes (request.resources.map NewResource.path)
            r.toNewResource node ∧
          r.iri = resourceIri server P actor r.kind node.type r.id) ∧
      (∃ result, prepareDocument P request.value
          (createOptions server actor allocation lookups nodes planned) =
            .ok result ∧
        result.accepts = true ∧
        prepared = result.normalizedDocument.getD request.value) ∧
      SavesTree P server planned prepared write := by
  obtain ⟨nodes, planned, prepared, hcreates⟩ := prepareCreate_eq_ok h
  exact ⟨nodes, planned, prepared, hcreates.described, hcreates.toNewResource,
    fun r hmem => (hcreates.plan hmem).2, hcreates.outcome, hcreates.savesTree⟩

end Platform

/-! ## A create with two notes -/

def routedIri : ObjectRoute → JsString
  | .object _ id => js "https://h.example/notes/" ++ uuidText id
  | .create id => js "https://h.example/creates/" ++ uuidText id
  | .activity id => js "https://h.example/activities/" ++ uuidText id

theorem lower_plainHost (_ : IsWebProtocol (js "https")) :
    (js "h.example").map lowerUnit = js "h.example" := by
  decide

theorem portless_bounded (p : ℕ) (h : (none : Option ℕ) = some p) :
    p < 65536 := by
  simp at h

theorem portless_explicit (p : ℕ) (h : (none : Option ℕ) = some p) :
    defaultPort (js "https") ≠ some p := by
  simp at h

def plainOrigin : Url where
  protocol := js "https"
  hostname := js "h.example"
  port := none
  lowered := lower_plainHost
  bounded := portless_bounded
  explicit := portless_explicit

def plainServer : Server where
  getObjectUri := fun _ route => routedIri route
  parseUrl := fun _ => none
  rootOrigin := plainOrigin
  instantText := fun _ => js "2026-01-01T00:00:00Z"
  numeral := exactNumeral

def plainActor : WritingActor :=
  ⟨7, js "https://h.example/actors/7", 3, plainOrigin⟩

def plainNote (content : JsString) : Json :=
  .obj [(js "type", .str (js "Note")), (js "content", .str content)]

/-- A `Create` activity of two notes, of which it refers to the first and
embeds the second. -/
def twoNotes : CreateRequest where
  actorId := 7
  document :=
    ⟨[(js "type", .str (js "Create")),
      (js "object", .arr [plainNote (js "a"), plainNote (js "b")])], by decide⟩
  resources :=
    [⟨[], .activity, none⟩,
      ⟨[.key (js "object"), .index 0], .object, some .reference⟩,
      ⟨[.key (js "object"), .index 1], .object, some .embedded⟩]
  publish := true

def twoNotesAllocation : Allocation where
  ids := [(pathKey [], 1), (pathKey [.key (js "object"), .index 0], 2),
    (pathKey [.key (js "object"), .index 1], 3)]
  timestamp := 1767225600000000
  distinct := by decide +kernel

def nothingRegistered : IdentityLookups := ⟨fun _ => [], fun _ => []⟩

theorem exists_of_toOption {ε α : Type} {x : Except ε α}
    (h : x.toOption.isSome = true) : ∃ a, x = .ok a := by
  rcases x with e | a
  · cases h
  · exact ⟨a, rfl⟩

theorem prepareCreate_twoNotes : ∃ write,
    prepareCreate plainServer reducedPlatform plainActor twoNotes
      twoNotesAllocation nothingRegistered = .ok write := by
  apply exists_of_toOption
  decide +kernel

theorem prepareCreate_savesTree_twoNotes : ∃ write planned prepared,
    prepareCreate plainServer reducedPlatform plainActor twoNotes
      twoNotesAllocation nothingRegistered = .ok write ∧
    planned.map PlannedResource.toNewResource = twoNotes.resources ∧
    SavesTree reducedPlatform plainServer planned prepared write := by
  obtain ⟨write, hwrite⟩ := prepareCreate_twoNotes
  obtain ⟨-, planned, prepared, -, hplanned, -, -, htree⟩ :=
    prepareCreate_savesTree hwrite
  exact ⟨write, planned, prepared, hwrite, hplanned, htree⟩

end DrFed.LocalWrite
