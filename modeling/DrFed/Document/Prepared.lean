import DrFed.Document.Preparation

/-!
# Prepared values

What preparation reads of a value that spells a tree is what it reads of the
tree, so the two are given the same proposals, and the preview of the value
spells the preview of the tree.
-/

namespace DrFed.Document

/-! ## Missing parents -/

section Parents

variable {h : Heap} {value : JsValue} {json : Json}

/-- An own property of a tree and of the object that spells it. -/
inductive SpelledProperty (h : Heap) : Option Json → Option JsProperty → Prop
  | missing : SpelledProperty h none none
  | present (child : Json) (held : JsValue) (enumerable : Bool)
      (hspells : child.Spells h.values held) :
      SpelledProperty h (some child) (some (.data held enumerable))

theorem spelledProperty_member {ms : List (JsString × Json)}
    {members : List (JsString × JsValue)}
    (hms : List.Forall₂ (fun m member => m.1 = member.1 ∧
      Json.Spells h.values m.2 member.2) ms members) (name : JsString) :
    SpelledProperty h (ms.lookup name) ((members.map fun m =>
      (m.1, JsProperty.data m.2 true)).lookup name) := by
  rw [AssocList.lookup_map fun held => JsProperty.data held true]
  cases hlookup : ms.lookup name with
  | none =>
      rw [AssocList.lookup_eq_none_iff, forall₂_map_fst hms] at hlookup
      rw [AssocList.lookup_eq_none_iff.mpr hlookup]
      exact .missing
  | some child =>
      obtain ⟨held, hheld, hspells⟩ := forall₂_lookup hms hlookup
      rw [hheld]
      exact .present child held true hspells

theorem spelledProperty_item {items : List Json} {entries : List JsValue}
    (hitems : List.Forall₂ (fun item entry => Json.Spells h.values item entry)
      items entries) (i : ℕ) :
    SpelledProperty h items[i]?
      ((entries.map fun entry => some (JsProperty.data entry true))[i]?.bind
        id) := by
  induction hitems generalizing i with
  | nil => exact .missing
  | cons hitem _ ih =>
      cases i with
      | zero => exact .present _ _ true hitem
      | succ i => exact ih i

/-- The own properties of an object that spells a tree. -/
theorem spelledProperty {address : Address}
    (hspells : json.Spells h.values (.ref address)) (part : Segment) :
    SpelledProperty h (ownProperty json part)
      ((h address).ownProperty? part) := by
  cases json with
  | obj ms =>
      obtain ⟨members, hlook, hms⟩ := Json.spells_obj.mp hspells
      obtain ⟨distinct, hobject⟩ := JsObject.eq_ofMembers hlook
      rw [hobject]
      cases part <;> exact spelledProperty_member hms _
  | arr items =>
      obtain ⟨entries, hlook, hitems⟩ := Json.spells_arr.mp hspells
      rw [JsObject.eq_ofItems hlook]
      cases part with
      | index i => exact spelledProperty_item hitems i
      | key name =>
          simp only [ownProperty, JsObject.ownProperty?, JsObject.ofItems,
            List.length_map, ← hitems.length_eq]
          split
          · exact .present _ _ false rfl
          · cases arrayIndex? name with
            | none => exact .missing
            | some i => exact spelledProperty_item hitems i
  | _ =>
      have hlook : h.values.look (.ref address) = (h address).shape := rfl
      rw [Json.Spells, hlook] at hspells
      cases hobject : h address <;> rw [hobject] at hspells <;> cases hspells

/-- A parent is missing in a value when it is missing in its tree. -/
theorem isMissingPreparationParent_spelled
    (hspells : json.Spells h.values value) (path : FieldPath) :
    h.isMissingPreparationParent value path =
      isMissingPreparationParent json path := by
  induction path generalizing value json with
  | nil => cases value <;> rfl
  | cons part rest ih =>
      rw [isMissingPreparationParent]
      cases value with
      | ref address =>
          rw [Heap.isMissingPreparationParent]
          generalize hown : ownProperty json part = own
          generalize hproperty : (h address).ownProperty? part = property
          have hboth := spelledProperty hspells part
          rw [hown, hproperty] at hboth
          cases hboth with
          | missing => rfl
          | present child held enumerable hheld => exact ih hheld
      | _ =>
          have hnone : ownProperty json part = none := by
            cases json with
            | obj ms =>
                obtain ⟨members, hlook, -⟩ := Json.spells_obj.mp hspells
                cases hlook
            | arr items =>
                obtain ⟨entries, hlook, -⟩ := Json.spells_arr.mp hspells
                cases hlook
            | _ => rfl
          rw [hnone]
          rfl

end Parents

section Platform

variable {P : Platform}

/-! ## Proposals as a preview -/

section Proposals

variable {document : Json} {root : Node Json} {checked : List CheckedField}
  {kept assigned : List Change}

theorem ownable_ne_type {property : JsString}
    (h : property ∈ ownableProperties) : property ≠ js "type" := by
  rintro rfl
  revert h
  decide

/-- The changes of a preparation are those of a preview. -/
theorem Proposal.previews
    (h : Proposal P document root checked kept assigned)
    (hownable : ∀ c ∈ checked, c.property ∈ ownableProperties) :
    Previews P document root (kept ++ assigned) where
  distinct := h.distinct
  accepted := h.accepted
  members := h.changesMember
  after change hchange := by
    rcases List.mem_append.mp hchange with hkept | hassigned
    · exact .inl (h.accepted.omission h.distinct (h.kept change hkept)).2.1
    · obtain ⟨c, -, -, hassigns⟩ := h.exists_checked hassigned
      exact .inr ⟨_, hassigns.after⟩
  reached change hchange := by
    rcases List.mem_append.mp hchange with hkept | hassigned
    · obtain ⟨node, hnode, field, hfield, hevent⟩ :=
        (h.accepted.changes change).mp (h.kept change hkept)
      obtain ⟨⟨reason, message, rfl, -⟩, -⟩ := check_change P hevent
      have hfields := (h.accepted.nodeAt h.distinct hnode).fields
      obtain ⟨hmem, hname⟩ := mem_checkedFields.mp hfield
      rw [hfields, mem_readFields] at hmem
      obtain ⟨entry, -, -, rfl⟩ := hmem
      exact ⟨node, _, hnode, rfl, by simpa using hname⟩
    · obtain ⟨c, hc, -, hassigns⟩ := h.exists_checked hassigned
      obtain ⟨key, hpath, hname⟩ := hassigns.key
      have hchecks := h.checks c hc
      refine ⟨c.target, key, (h.accepted.visited _).mp hchecks.target, ?_, ?_⟩
      · rw [hpath, hchecks.parent]
      · rw [hname]
        exact fun heq => ownable_ne_type (hownable c hc) (Option.some.inj heq)

end Proposals

/-! ## Values and their trees -/

section Spelled

variable {h : Heap} {value : JsValue} {json : Json}

variable (P) in
/-- The fields that are checked of a value and of its tree, and what is
proposed for them, are images of one and the same. -/
theorem exists_spelled_targets (hspells : json.Spells h.values value)
    (options : DocumentPreparationOptions) :
    ∃ outcome : Except TypeError (List (CheckedTarget (Spelled h.values))),
      checkedTargets P h value options =
        outcome.map (List.map (CheckedTarget.moved fun x => x.1.1)) ∧
      checkOptions P (isMissingPreparationParent json)
          (checkDocumentValue P Json.tree json) options =
        outcome.map (List.map (CheckedTarget.moved fun x => x.1.2)) ∧
      ∀ (checked : List (CheckedTarget (Spelled h.values))) authority,
        ∃ reporter, ∃ changes : List (NormalizationChange (Spelled h.values)),
          valueProposals P h value authority
              (checked.map (CheckedTarget.moved fun x => x.1.1)) =
            (reporter,
              changes.map (NormalizationChange.moved (fun x => x.1.1) [])) ∧
          proposals P Json.tree (checkDocumentValue P Json.tree json) authority
              (checked.map (CheckedTarget.moved fun x => x.1.2)) =
            (reporter,
              changes.map (NormalizationChange.moved (fun x => x.1.2) [])) := by
  obtain ⟨walk, hvalue, htree⟩ := exists_spelled_walk P hspells
    (.inr (fresh_of_spells h.lawful hspells))
  refine ⟨checkOptions P (isMissingPreparationParent json) walk options, ?_,
    ?_, fun checked authority =>
      ⟨(proposals P (spelledValues h.values) walk authority checked).1,
        (proposals P (spelledValues h.values) walk authority checked).2, ?_,
        ?_⟩⟩
  · rw [checkedTargets, hvalue]
    exact checkOptions_moved (isMissingPreparationParent_spelled hspells) walk
      options
  · rw [htree]
    exact checkOptions_moved (fun _ => rfl) walk options
  · rw [valueProposals, hvalue]
    exact proposals_moved spelledValues_fst walk authority checked
  · rw [htree]
    exact proposals_moved spelledValues_snd walk authority checked

end Spelled

/-! ## Preparations with a preview -/

section Prepares

variable {m : Memory} {value : JsValue} {options : DocumentPreparationOptions}

variable (P) in
/-- A document in memory with the changes that a preparation makes of it, and
the same for its tree. -/
structure Prepares (m : Memory) (source : Address) (json : Json)
    (changes : List (NormalizationChange JsValue)) (copies : List Change) :
    Prop where
  spells : json.Spells m.heap.values (.ref source)
  copyable : Copyable m source
  object : ∃ members, ∃ distinct : (members.map Prod.fst).Nodup,
    m.heap source = .ofMembers members distinct
  same : List.Forall₂ (SameChange m.heap.values) changes copies
  replaced : replacedPaths changes = replacedPaths copies
  previews : ∃ root, Previews P json root copies

theorem Prepares.createPreview {source : Address} {json : Json}
    {changes : List (NormalizationChange JsValue)} {copies : List Change}
    (h : Prepares P m source json changes copies) :
    ∃ m', CreatesPreview m source changes m' (.ref m.next) ∧
      Copied m (createPreview json copies) m' m.next := by
  obtain ⟨root, hpreviews⟩ := h.previews
  exact hpreviews.creates h.spells h.copyable h.object h.same

/-- Proposals without an error come from an accepted walk. -/
theorem walk_of_proposals {ι : Type} {H : Values ι} {walk : WalkState ι}
    (hsound : walk.reporter.Sound) {authority : List DocumentAuthority}
    {checked : List (CheckedTarget ι)} {reporter : Reporter}
    {changes : List (NormalizationChange ι)}
    (h : proposals P H walk authority checked = (reporter, changes))
    (haccepts : reporter.accepts = true) :
    walk.reporter.accepts = true ∧
      hasError (proposeFields P H checked walk.changes).1 = false ∧
      changes = (proposeFields P H checked walk.changes).2 := by
  unfold proposals at h
  dsimp only at h
  have hallowed := hsound.reportAll (authorityFindings authority)
  split at h
  next hquiet =>
    obtain ⟨rfl, rfl⟩ := Prod.mk.inj h
    refine ⟨hsound.accepts_iff.mpr ?_,
      (Reporter.accepts_reportAll hallowed haccepts).2, rfl⟩
    exact (Reporter.accepts_reportAll hsound hquiet).1
  next hrefused =>
    obtain ⟨rfl, -⟩ := Prod.mk.inj h
    exact absurd haccepts hrefused

theorem walk_sound {ι : Type} (H : Values ι) (value : ι) :
    (checkDocumentValue P H value).reporter.Sound :=
  WalkState.runItems_sound
    (WalkState.runItem_sound Reporter.createReporter_sound _) _

/-- The changes proposed for an accepted tree are those of a preview. -/
theorem exists_previews {json : Json} (hdistinct : json.Distinct)
    {checked : List (CheckedTarget Json)}
    (hchecked : checkOptions P (isMissingPreparationParent json)
      (checkDocumentValue P Json.tree json) options = .ok checked)
    {reporter : Reporter} {copies : List Change}
    (hproposals : proposals P Json.tree (checkDocumentValue P Json.tree json)
      options.authority checked = (reporter, copies))
    (haccepts : reporter.accepts = true) :
    ∃ root, Previews P json root copies := by
  obtain ⟨hwalk, hquiet, rfl⟩ := walk_of_proposals
    (walk_sound Json.tree json) hproposals haccepts
  obtain ⟨-, -, hfields⟩ := exists_of_bind_ok hchecked
  have htree := @checkOwnedFields_tree P json
    (checkDocumentValue P Json.tree json).visited
    (checkDocumentValue P Json.tree json).unavailable
    ((checkDocumentValue P Json.tree json).reporter.diagnostics.any fun d =>
      d.reason == .diagnosticLimitReached) options.serverOwnedFields []
  rw [hfields] at htree
  rw [proposeFields_tree] at hquiet ⊢
  have hprepared : Prepared P json (checked.map CheckedTarget.checkedField)
      { complete := true
        diagnostics := []
        normalizedDocument := some (createPreview json (proposeServerFields P
          (checked.map CheckedTarget.checkedField)
          (checkDocumentValue P Json.tree json).changes).2)
        changes := (proposeServerFields P
          (checked.map CheckedTarget.checkedField)
          (checkDocumentValue P Json.tree json).changes).2 } :=
    ⟨hwalk, hquiet, .inr ⟨rfl, rfl⟩⟩
  obtain ⟨-, root, kept, assigned, hproposal, hchanges⟩ :=
    hprepared.proposal hdistinct htree.symm
  rw [hchanges]
  refine ⟨root, hproposal.previews fun c hc => ?_⟩
  obtain ⟨target, htarget, rfl⟩ := List.mem_map.mp hc
  exact checkOwnedFields_ownable hfields target htarget

theorem replacedPaths_moved {ι κ : Type} (f : ι → κ)
    (changes : List (NormalizationChange ι)) :
    replacedPaths (changes.map (NormalizationChange.moved f [])) =
      replacedPaths changes := by
  unfold replacedPaths
  rw [List.filter_map, List.map_map]
  have hreplace : NormalizationChange.isReplace ∘
      NormalizationChange.moved f [] = NormalizationChange.isReplace := by
    funext change
    cases change <;> rfl
  rw [hreplace]
  refine List.map_congr_left fun change _ => ?_
  cases change <;> rfl

variable (P) in
/-- What is prepared of a value that spells a tree is what is prepared of the
tree. -/
theorem prepares_of_spells {json : Json} (hdistinct : json.Distinct)
    (hspells : json.Spells m.heap.values value)
    (hallocated : ∀ address, m.heap.values.Leads value (.ref address) →
      address < m.next)
    {checked : List (CheckedTarget JsValue)}
    (hchecked : checkedTargets P m.heap value options = .ok checked)
    {reporter : Reporter} {changes : List (NormalizationChange JsValue)}
    (hproposals : valueProposals P m.heap value options.authority checked =
      (reporter, changes)) :
    ∃ targets copies,
      checkOptions P (isMissingPreparationParent json)
        (checkDocumentValue P Json.tree json) options = .ok targets ∧
      proposals P Json.tree (checkDocumentValue P Json.tree json)
        options.authority targets = (reporter, copies) ∧
      (changes ≠ [] ↔ copies ≠ []) ∧
      (reporter.accepts = true → ∃ source, value = .ref source ∧
        Prepares P m source json changes copies) := by
  obtain ⟨outcome, hvalue, htree, hboth⟩ :=
    exists_spelled_targets P hspells options
  rw [hvalue] at hchecked
  cases outcome with
  | error e => cases hchecked
  | ok pairs =>
      obtain rfl := Except.ok.inj hchecked
      obtain ⟨shared, pairChanges, hvalueProposals, htreeProposals⟩ :=
        hboth pairs options.authority
      rw [hvalueProposals] at hproposals
      obtain ⟨rfl, rfl⟩ := Prod.mk.inj hproposals
      refine ⟨_, _, htree, htreeProposals, by simp, fun haccepts => ?_⟩
      obtain ⟨root, hpreviews⟩ := exists_previews hdistinct htree
        htreeProposals haccepts
      obtain ⟨findings, hread⟩ := hpreviews.accepted.read
      obtain ⟨ms, rfl, -⟩ := (readNode_eq_some P hread).values
      obtain ⟨source, members, distinct, rfl, hobject⟩ := exists_object hspells
      refine ⟨source, rfl, hspells, ?_, ⟨members, distinct, hobject⟩,
        sameChange_spelled pairChanges, ?_, root, hpreviews⟩
      · intro address hleads
        obtain ⟨child, hchild, -⟩ := hspells.leads hleads
        exact ⟨hallocated address hleads, child, hchild⟩
      · rw [replacedPaths_moved, replacedPaths_moved]

variable (P) in
/-- What is prepared is a document, and its changes are those of its tree. -/
theorem exists_prepares
    (hallocated : ∀ address, m.heap.values.Leads value (.ref address) →
      address < m.next)
    {checked : List (CheckedTarget JsValue)}
    (hchecked : checkedTargets P m.heap value options = .ok checked)
    {reporter : Reporter} {changes : List (NormalizationChange JsValue)}
    (hproposals : valueProposals P m.heap value options.authority checked =
      (reporter, changes))
    (haccepts : reporter.accepts = true) :
    ∃ source json copies, value = .ref source ∧
      Prepares P m source json changes copies := by
  obtain ⟨hwalk, -⟩ := walk_of_proposals (walk_sound m.heap.values value)
    hproposals haccepts
  obtain ⟨json, hdistinct, hspells⟩ := plain_of_document m.heap.lawful _
    (quietWalk_of_accepts hwalk)
  obtain ⟨-, copies, -, -, -, hprepares⟩ := prepares_of_spells P hdistinct
    hspells hallocated hchecked hproposals
  obtain ⟨source, hvalue, hprepares⟩ := hprepares haccepts
  exact ⟨source, json, copies, hvalue, hprepares⟩

end Prepares

end Platform

end DrFed.Document
