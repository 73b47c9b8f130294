import DrFed.Inbox.Progress

/-!
# What storing an activity does

Each part of the transaction of the inbox, whatever other transactions commit
between its statements.
-/

namespace DrFed.Inbox

open Store Transactions ReadCommitted

/-- A later point whose transaction has written no typed row since. -/
structure Quietly (p q : Point) : Prop extends Later p q where
  footprint : footprint q.sent = footprint p.sent

namespace Quietly

variable {p q r : Point}

theorem trans (h : Quietly p q) (h' : Quietly q r) : Quietly p r :=
  ⟨h.toLater.trans h'.toLater, h'.footprint.trans h.footprint⟩

theorem of_before (h : p.Before rules q) : Quietly p q :=
  ⟨Later.of_before h, congrArg Inbox.footprint h.sent⟩

/-- A statement that writes no typed row. -/
theorem send {s : Statement} {held : List Key} (hcovered : Covered s held)
    (hpromotes : Grown.Promotes (seen p) s)
    (hadd : ∀ f : Footprint, f.add s = f) :
    Quietly p (p.send control s) where
  toLater := Later.send hcovered hpromotes
  footprint := by
    rw [ReadCommitted.Point.send]
    dsimp only
    split_ifs
    · rw [footprint_concat, hadd]
    · rfl

end Quietly

section Registry

variable {p : Point} {α : Type}

theorem covered_insertResource {p : Point} {row : Resource}
    (hkind : row.kind = .unknown)
    (h : control.writes (.registry (.insertResource row)) (p.view control) =
      true) :
    Covered (.registry (.insertResource row))
      (p.send control (.registry (.insertResource row))).held := by
  have hkeys : control.keys (.registry (.insertResource row))
      (p.view control) = [.iri row.iri, .row row.id] := by
    have hnone : ((p.view control).resourceAt? row.iri).isNone = true := h
    exact if_neg (by simpa using hnone)
  rw [ReadCommitted.Point.send]
  dsimp only
  rw [hkeys]
  exact ⟨by simp, by simp, hkind⟩

theorem Quietly.register (p : Point) {row : Resource}
    (hkind : row.kind = .unknown) :
    Quietly p (p.send control (.registry (.insertResource row))) := by
  have hcovered : Covered (.registry (.insertResource row))
      [.iri row.iri, .row row.id] := ⟨by simp, by simp, hkind⟩
  exact Quietly.send hcovered trivial fun _ => rfl

/-- A resource that an IRI names is returned. -/
theorem named_pure {p q : Point} {iri : JsString} {row : Resource}
    {Q : Resource → Point → Prop}
    (h : ∀ q row, Quietly p q → Named q iri row.id → Q row q)
    (hq : Quietly p q) (hrow : (seen q).resourceAt? iri = some row) :
    rules.Secures (pure row : Tx Resource) q Q := by
  rw [Rules.secures_pure]
  intro r hr
  exact h r row (hq.trans (Quietly.of_before hr))
    ((Later.of_before hr).named ⟨row, hrow, rfl⟩)

theorem ensureResource_secures {iri : JsString} {id : Uuid}
    {Q : Resource → Point → Prop}
    (h : ∀ q row, Quietly p q → Named q iri row.id → Q row q) :
    rules.Secures (onRegistry (ensureResource iri id)) p Q := by
  rw [onRegistry, ensureResource, Program.lift_bind, Program.lift_read,
    Rules.secures_read_bind]
  intro q hq
  cases hat : (q.view control).resourceAt? iri with
  | some existing =>
      exact named_pure h (Quietly.of_before hq) hat
  | none =>
      dsimp only
      rw [Program.lift_bind, Program.lift_send, Rules.secures_send_bind]
      intro r after hr _
      refine ⟨fun hwrites => covered_insertResource rfl hwrites, ?_⟩
      rw [Program.lift_bind, Program.lift_read, Rules.secures_read_bind]
      intro t ht
      have hquiet : Quietly p t :=
        ((Quietly.of_before hq).trans (Quietly.of_before hr)).trans
          ((Quietly.register r rfl).trans (Quietly.of_before ht))
      cases hafter : (t.view control).resourceAt? iri with
      | some inserted => exact named_pure h hquiet hafter
      | none => exact trivial

theorem ensureResources_secures (ids : FreshIds) (iris : List JsString)
    {Q : List (JsString × Uuid) → Point → Prop}
    (h : ∀ q targets, Quietly p q →
      (∀ target ∈ targets, Named q target.1 target.2) → Q targets q) :
    rules.Secures (onRegistry (ensureResources ids iris)) p Q := by
  induction iris generalizing p Q with
  | nil =>
      intro q hq
      exact h q [] (Quietly.of_before hq) (by simp)
  | cons iri rest ih =>
      rw [onRegistry, ensureResources, Program.lift_bind, Rules.secures_bind]
      refine ensureResource_secures fun q row hq hnamed => ?_
      rw [Program.lift_bind, Rules.secures_bind]
      refine ih fun r targets hr htargets => ?_
      intro t ht
      refine h t _ ((hq.trans hr).trans (Quietly.of_before ht)) ?_
      intro target htarget
      refine (Later.of_before ht).named ?_
      rcases List.mem_cons.mp htarget with rfl | hmem
      · exact hr.toLater.named hnamed
      · exact htargets target hmem

end Registry

section Statements

variable {p : Point}

theorem lock_secures {α : Type} {f : Unit → Tx α} {id : Uuid}
    {Q : α → Point → Prop}
    (h : ∀ q, Quietly p q → .row id ∈ q.held → rules.Secures (f ()) q Q) :
    rules.Secures (Program.send (.lock id) >>= f) p Q := by
  rw [Rules.secures_send_bind]
  intro q after hq _
  refine ⟨fun hwrites => absurd hwrites (by simp [control, Statement.writes]),
    h _ ?_ ?_⟩
  · have hcovered : Covered (.lock id) [] := trivial
    exact (Quietly.of_before hq).trans
      (Quietly.send hcovered trivial fun _ => rfl)
  · exact List.mem_append_left _ (by simp [control, Statement.keys])

theorem lockAll_secures (ids : List Uuid) {Q : Unit → Point → Prop}
    (h : ∀ q, Quietly p q → Q () q) :
    rules.Secures (Program.sendAll (ids.map Statement.lock) : Tx Unit) p Q := by
  induction ids generalizing p with
  | nil => exact fun q hq => h q (Quietly.of_before hq)
  | cons id rest ih =>
      change rules.Secures (Program.send (.lock id) >>= fun _ =>
        Program.sendAll (rest.map Statement.lock)) p Q
      exact lock_secures fun q hq _ => ih fun r hr => h r (hq.trans hr)

theorem lockResources_secures (collation : JsString → JsString → Bool)
    (iris : List JsString) {Q : Unit → Point → Prop}
    (h : ∀ q, Quietly p q → Q () q) :
    rules.Secures (lockResources collation iris) p Q := by
  rw [lockResources, Rules.secures_read_bind]
  intro q hq
  have hmap : ∀ rows : List Resource,
      rows.map (fun row => Statement.lock row.id) =
        (rows.map Resource.id).map Statement.lock := by simp
  rw [hmap]
  exact lockAll_secures _ fun r hr => h r ((Quietly.of_before hq).trans hr)

theorem ensureRemoteInstance_secures (host : JsString) (id : Uuid)
    {Q : Option Instance → Point → Prop}
    (hlocal : ∀ q, Quietly p q → Q none q)
    (hremote : ∀ q row, Quietly p q →
      (seen q).instanceAt? host = some row → row.localId = none →
        Q (some row) q) :
    rules.Secures (ensureRemoteInstance host id) p Q := by
  rw [ensureRemoteInstance, Rules.secures_send_bind]
  intro q after hq _
  have hsent : Quietly q
      (q.send control (.insertInstance ⟨id, host, none⟩)) := by
    have hcovered : Covered (.insertInstance ⟨id, host, none⟩) [.host host] :=
      by simp [Covered]
    exact Quietly.send hcovered trivial fun _ => rfl
  refine ⟨fun hwrites => ?_, ?_⟩
  · have hkeys : control.keys (.insertInstance ⟨id, host, none⟩)
        (q.view control) = [.host host, .instanceId id] := by
      have hnone : ((q.view control).instanceAt? host).isNone = true := hwrites
      exact if_neg (by simpa using hnone)
    rw [ReadCommitted.Point.send]
    dsimp only
    rw [hkeys]
    simp [rules, Covered]
  · rw [Rules.secures_read_bind]
    intro r hr
    have hquiet := ((Quietly.of_before hq).trans hsent).trans
      (Quietly.of_before hr)
    cases hat : (r.view control).instanceAt? host with
    | none => exact trivial
    | some row =>
        intro t ht
        have ht' := hquiet.trans (Quietly.of_before ht)
        split_ifs with hremoteRow
        · exact hremote t row ht' ((Later.of_before ht).seen.hosted hat)
            (Option.isNone_iff_eq_none.mp hremoteRow)
        · exact hlocal t ht'

/-- A committed resource of a known kind is not one of unknown kind to the
transaction, which sets known kinds only. -/
theorem unpromoted_of_seen {id : Uuid} {row : Resource}
    (hheld : .row id ∈ p.held)
    (hkinds : ∀ entry ∈ (footprint p.sent).kinds, entry.2 ≠ .unknown)
    (hrow : (seen p).resource? id = some row) (hkind : row.kind = .unknown) :
    Unpromoted p id := by
  refine ⟨hheld, fun committed hcommitted => ?_⟩
  obtain ⟨kind, hseen, hset⟩ := resource?_applyAll p.sent hcommitted
  have hsame : { committed with kind } = row :=
    Option.some.inj (hseen.symm.trans hrow)
  have hunknown : kind = .unknown := (congrArg Resource.kind hsame).trans hkind
  rcases hset with hcommittedKind | hsent
  · exact hcommittedKind.symm.trans hunknown
  · exact absurd hunknown (hkinds _ hsent)

/-- A point after the kind of a resource was set. -/
structure Promoted (p q : Point) (iri : JsString) (id : Uuid)
    (kind : ResourceKind) : Prop extends Later p q where
  footprint : footprint q.sent =
    { footprint p.sent with kinds := (footprint p.sent).kinds ++ [(id, kind)] }
  named : Named q iri id
  kinded : Kinded q id kind
  unpromoted : Unpromoted q id

/-- A point at which a resource already was of a kind. -/
structure Reused (p q : Point) (iri : JsString) (id : Uuid)
    (kind : ResourceKind) : Prop extends Quietly p q where
  named : Named q iri id
  kinded : Kinded q id kind

theorem Promoted.of_setKind {p u : Point} {iri : JsString}
    {kind : ResourceKind} {row : Resource} {id : Uuid} (hu : Quietly p u)
    (hkind : kind ≠ .unknown)
    (hkinds : ∀ entry ∈ (Inbox.footprint p.sent).kinds, entry.2 ≠ .unknown)
    (hnamed : Named u iri id) (hheld : .row id ∈ u.held)
    (hrow : (seen u).resource? id = some row) (hunknown : row.kind = .unknown) :
    Promoted p (u.send control (.registry (.setKind id kind))) iri id kind := by
  have hpromotes : Grown.Promotes (seen u) (.registry (.setKind id kind)) := by
    intro found hfound
    rw [← Option.some.inj (hrow.symm.trans hfound)]
    exact hunknown
  have hcovered : Covered (.registry (.setKind id kind)) [.row id] :=
    ⟨by simp, hkind⟩
  have hsent : Later u (u.send control (.registry (.setKind id kind))) :=
    Later.send hcovered hpromotes
  have hunpromoted : Unpromoted u id :=
    unpromoted_of_seen hheld (hu.footprint ▸ hkinds) hrow hunknown
  exact
    { toLater := hu.toLater.trans hsent
      footprint := by
        rw [ReadCommitted.Point.send]
        dsimp only
        rw [if_pos (by rfl), footprint_concat, hu.footprint]
        rfl
      named := hsent.named hnamed
      kinded := by
        refine ⟨hsent.held _ hheld, hkind, { row with kind }, ?_, rfl⟩
        have hseen : seen (u.send control (.registry (.setKind id kind))) =
            (Statement.registry (.setKind id kind)).effect (seen u) :=
          ReadCommitted.Point.view_send u _
        rw [hseen]
        refine (resource?_setKind id id kind).trans ?_
        rw [hrow, Option.map_some, kindSet_eq, if_pos (resource?_eq_id hrow)]
      unpromoted := hsent.unpromoted hunpromoted }

theorem promoteResource_secures {α : Type} {iri : JsString}
    {kind : ResourceKind} (hkind : kind ≠ .unknown) {id : Uuid}
    {insert : Resource → Tx α} {reuse : Option (Resource → Tx α)}
    {Q : α → Point → Prop}
    (hkinds : ∀ entry ∈ (footprint p.sent).kinds, entry.2 ≠ .unknown)
    (hinsert : ∀ q resource, Promoted p q iri resource.id kind →
      rules.Secures (insert resource) q Q)
    (hreuse : ∀ q resource again, reuse = some again →
      Reused p q iri resource.id kind → rules.Secures (again resource) q Q) :
    rules.Secures (promoteResource iri kind id insert reuse) p Q := by
  rw [promoteResource, Rules.secures_bind]
  refine ensureResource_secures fun q ensured hq hnamed => ?_
  refine lock_secures fun r hr hheld => ?_
  rw [Rules.secures_read_bind]
  intro t ht
  have hquiet : Quietly p t := (hq.trans hr).trans (Quietly.of_before ht)
  have hheld' : .row ensured.id ∈ t.held := ht.held ▸ hheld
  have hnamed' : Named t iri ensured.id :=
    (Later.of_before ht).named (hr.toLater.named hnamed)
  cases hrow : (t.view control).resource? ensured.id with
  | none => exact trivial
  | some resource =>
      have hid : resource.id = ensured.id := resource?_eq_id hrow
      rw [← hid] at hrow hheld' hnamed'
      dsimp only
      split_ifs with hsame hother
      · cases hreuse' : reuse with
        | none => exact trivial
        | some again =>
            exact hreuse t resource again hreuse'
              { toQuietly := hquiet
                named := hnamed'
                kinded := ⟨hheld', hkind, resource, hrow, hsame⟩ }
      · exact trivial
      · have hunknown : resource.kind = .unknown := not_not.mp hother
        rw [Rules.secures_send_bind]
        intro u after hu _
        have hu' : Quietly p u := hquiet.trans (Quietly.of_before hu)
        obtain ⟨kind', hrow', hkind'⟩ := hu.view.resource hrow
        have hunknown' : kind' = .unknown := (hkind' hheld').trans hunknown
        have hheldu : .row resource.id ∈ u.held := hu.held ▸ hheld'
        refine ⟨fun _ => ⟨List.mem_append_left _ (by
          simp [control, Statement.keys]), hkind⟩, hinsert _ _ ?_⟩
        exact Promoted.of_setKind hu' hkind hkinds
          ((Later.of_before hu).named hnamed') hheldu hrow' hunknown'

/-- The rows of addressing are the occurrences, each with the resource that its
IRI names. -/
def Addressed (q : Point) (sourceId : Uuid)
    (occurrences : List AddressingOccurrence) (rows : List Addressing) :
    Prop :=
  List.Forall₂ (fun occurrence row =>
    row.sourceId = sourceId ∧ row.property = occurrence.property ∧
      row.position = occurrence.position ∧
      Named q occurrence.iri row.targetId) occurrences rows

theorem Later.addressed {p q : Point} (h : Later p q) {sourceId : Uuid}
    {occurrences : List AddressingOccurrence} {rows : List Addressing}
    (haddressed : Addressed p sourceId occurrences rows) :
    Addressed q sourceId occurrences rows :=
  haddressed.imp fun _ _ ⟨hsource, hproperty, hposition, hnamed⟩ =>
    ⟨hsource, hproperty, hposition, h.named hnamed⟩

/-- A point after the addressing of a resource was stored. -/
structure AddressingStored (p q : Point) (sourceId : Uuid)
    (occurrences : List AddressingOccurrence) (rows : List Addressing) : Prop
    extends Later p q where
  footprint : footprint q.sent =
    { footprint p.sent with addressing := (footprint p.sent).addressing ++ rows }
  addressed : Addressed q sourceId occurrences rows

theorem insertOccurrences_secures (ids : FreshIds) {sourceId : Uuid}
    (targets : List (JsString × Uuid))
    (n : ℕ) (occurrences : List AddressingOccurrence)
    (hheld : .row sourceId ∈ p.held)
    (htargets : ∀ target ∈ targets, Named p target.1 target.2)
    {Q : Unit → Point → Prop}
    (h : ∀ q rows, AddressingStored p q sourceId occurrences rows → Q () q) :
    rules.Secures
      (onRegistry (insertOccurrences ids sourceId targets n occurrences))
      p Q := by
  induction occurrences generalizing p n Q with
  | nil =>
      intro q hq
      refine h q [] ⟨Later.of_before hq, ?_, List.Forall₂.nil⟩
      rw [hq.sent, List.append_nil]
  | cons occurrence rest ih =>
      rw [onRegistry, insertOccurrences]
      cases hlookup : targets.lookup occurrence.iri with
      | none => exact trivial
      | some targetId =>
          have hnamed : Named p occurrence.iri targetId :=
            htargets _ (AssocList.mem_of_lookup_eq_some hlookup)
          dsimp only
          rw [Program.lift_bind, Program.lift_send, Rules.secures_send_bind]
          intro q after hq _
          have hheldq : .row sourceId ∈ q.held := hq.held ▸ hheld
          let row : Addressing := ⟨ids.addressing n, sourceId,
            occurrence.property, occurrence.position, targetId⟩
          have hcovered : Covered (.registry (.insertAddressing row)) q.held :=
            hheldq
          have hsent : Later q
              (q.send control (.registry (.insertAddressing row))) :=
            Later.send hcovered trivial
          have hlater := (Later.of_before hq).trans hsent
          refine ⟨fun _ => List.mem_append_right _ hheldq, ?_⟩
          refine ih (n + 1) (hsent.held _ hheldq)
            (fun target htarget => hlater.named (htargets target htarget))
            fun r rows hr => h r (row :: rows) ?_
          refine ⟨hlater.trans hr.toLater, ?_, ?_⟩
          · rw [hr.footprint, ReadCommitted.Point.send]
            dsimp only
            rw [if_pos (by rfl), footprint_concat, hq.sent]
            simp [Footprint.add]
          · exact .cons ⟨rfl, rfl, rfl, (hlater.trans hr.toLater).named hnamed⟩
              hr.addressed

theorem storeAddressing_secures (ids : FreshIds) {sourceId : Uuid} (n : ℕ)
    (input : AddressingInput) (hheld : .row sourceId ∈ p.held)
    {Q : Unit → Point → Prop}
    (h : ∀ q rows, AddressingStored p q sourceId (occurrences input) rows →
      Q () q) :
    rules.Secures (storeAddressing ids sourceId n input) p Q := by
  rw [storeAddressing, onRegistry, Program.lift_bind, Rules.secures_bind]
  refine ensureResources_secures ids _ fun q targets hq hnamed => ?_
  refine insertOccurrences_secures ids targets n _ (hq.held _ hheld) hnamed
    fun r rows hr => h r rows ⟨hq.toLater.trans hr.toLater, ?_, hr.addressed⟩
  rw [hr.footprint, hq.footprint]

end Statements

/-! ## The retained revisions -/

section Capture

variable {p : Point}

/-- The first revision of a resource is retained, and has a document only when
the typed row has one. -/
def Captured (q : Point) (id : Uuid) : Prop :=
  ∃ row ∈ (seen q).revisions, row.resourceId = id ∧ row.sequence = 1 ∧
    ∃ kind, Kinded q id kind ∧ (kind = .object → ∃ object,
      (seen q).object? id = some object ∧
        (row.kind = .snapshot → object.document.isSome = true))

theorem Later.captured {p q : Point} (h : Later p q) {id : Uuid}
    (hcaptured : Captured p id) : Captured q id := by
  obtain ⟨row, hrow, hresource, hfirst, kind, hkinded, hobject⟩ := hcaptured
  refine ⟨row, h.seen.revisions row hrow, hresource, hfirst, kind,
    h.kinded hkinded, fun hkind => ?_⟩
  obtain ⟨object, hfound, hdocument⟩ := hobject hkind
  exact ⟨object, h.seen.object hkinded.1 hfound, hdocument⟩

/-- The typed row from which a revision is captured. -/
theorem legacyState_object {t : Store.Tables} {kind : ResourceKind} {id : Uuid}
    {legacy : LegacyState} (h : t.legacyState kind id = some legacy)
    (hkind : kind = .object) :
    ∃ object, t.object? id = some object ∧
      (legacy.expectedKind = .snapshot → object.document.isSome = true) := by
  subst hkind
  obtain ⟨object, hobject, h⟩ := Option.bind_eq_some_iff.mp h
  obtain ⟨author, -, rfl⟩ := Option.map_eq_some_iff.mp h
  refine ⟨object, hobject, fun hsnapshot => ?_⟩
  by_contra hnone
  rw [LegacyState.expectedKind, if_neg hnone] at hsnapshot
  cases hsnapshot

/-- What is known of a resource whose typed row was read. -/
structure Capturing (q : Point) (id : Uuid) (legacy : LegacyState) : Prop where
  state : ∃ kind, Kinded q id kind ∧ (kind = .object → ∃ object,
    (seen q).object? id = some object ∧
      (legacy.expectedKind = .snapshot → object.document.isSome = true))

theorem Later.capturing {p q : Point} (h : Later p q) {id : Uuid}
    {legacy : LegacyState} (hcapturing : Capturing p id legacy) :
    Capturing q id legacy := by
  obtain ⟨kind, hkinded, hobject⟩ := hcapturing.state
  refine ⟨kind, h.kinded hkinded, fun hkind => ?_⟩
  obtain ⟨object, hfound, hdocument⟩ := hobject hkind
  exact ⟨object, h.seen.object hkinded.1 hfound, hdocument⟩

theorem Capturing.captured {q : Point} {id : Uuid} {legacy : LegacyState}
    (h : Capturing q id legacy) {row : ResourceRevision}
    (hrow : row ∈ (seen q).revisions) (hresource : row.resourceId = id)
    (hfirst : row.sequence = 1) (hkind : row.kind = legacy.expectedKind) :
    Captured q id := by
  obtain ⟨kind, hkinded, hobject⟩ := h.state
  refine ⟨row, hrow, hresource, hfirst, kind, hkinded, fun hobjectKind => ?_⟩
  obtain ⟨object, hfound, hdocument⟩ := hobject hobjectKind
  exact ⟨object, hfound, fun hsnapshot => hdocument (hkind ▸ hsnapshot)⟩

/-- A statement that inserts into the tables of the revisions. -/
theorem insertRows_secures {α : Type} {table : RevisionTable}
    {rows : List (Row table)} {f : Unit → Tx α} {Q : α → Point → Prop}
    (h : ∀ q r, Quietly p q →
      r = q.send control (.registry (.insert table rows)) → Quietly q r →
        rules.Secures (f ()) r Q) :
    rules.Secures
      (Program.send (.registry (.insert table rows)) >>= f) p Q := by
  rw [Rules.secures_send_bind]
  intro q after hq _
  have hcovered : Covered (.registry (.insert table rows)) [] := by
    cases table <;> trivial
  have hadd : ∀ f : Footprint, f.add (.registry (.insert table rows)) = f := by
    intro f
    cases table <;> rfl
  have hsent : Quietly q (q.send control (.registry (.insert table rows))) :=
    Quietly.send hcovered (by cases table <;> trivial) hadd
  have hheld : Covered (.registry (.insert table rows))
      (q.send control (.registry (.insert table rows))).held :=
    hcovered.mono (by simp)
  exact ⟨fun _ => hheld, h q _ (Quietly.of_before hq) rfl hsent⟩

theorem publishCapture_secures (resourceId : Uuid) (revisionIds : List Uuid)
    (firstId finalId : Uuid) {Q : Uuid → Point → Prop}
    (h : ∀ q id, Quietly p q → Q id q) :
    rules.Secures
      (onRegistry (publishCapture resourceId revisionIds firstId finalId)) p Q
    := by
  rw [onRegistry, publishCapture, Program.lift_bind, Program.lift_read,
    Rules.secures_read_bind]
  intro q hq
  rw [Program.lift_bind, Program.lift_send]
  refine insertRows_secures fun r t hr _ ht => ?_
  rw [Program.lift_bind, Program.lift_send]
  refine insertRows_secures fun u v hu _ hv => ?_
  intro w hw
  exact h w firstId ((((Quietly.of_before hq).trans hr).trans
    (ht.trans hu)).trans (hv.trans (Quietly.of_before hw)))

theorem insertCapture_secures (resourceId : Uuid) (legacy : LegacyState)
    (backfilled : Bool) (firstId whiteoutId : Uuid)
    (hcapturing : Capturing p resourceId legacy) {Q : Uuid → Point → Prop}
    (h : ∀ q id, Quietly p q → Captured q resourceId → Q id q) :
    rules.Secures (onRegistry
      (insertCapture resourceId legacy backfilled firstId whiteoutId)) p Q := by
  rw [onRegistry, insertCapture, Program.lift_bind, Program.lift_send]
  refine insertRows_secures fun q r hq hsent hr => ?_
  have hcaptured : Captured r resourceId := by
    have hseen : seen r = (Statement.registry (.insert .revisions
        [legacy.firstRevision resourceId firstId backfilled])).effect (seen q) :=
      hsent ▸ ReadCommitted.Point.view_send q _
    have hrow : legacy.firstRevision resourceId firstId backfilled ∈
        (seen r).revisions := by
      rw [hseen]
      exact List.mem_append_right _ (by simp)
    exact ((hq.trans hr).toLater.capturing hcapturing).captured hrow rfl rfl rfl
  cases legacy.deleted with
  | none =>
      refine publishCapture_secures _ _ _ _ fun t id ht => ?_
      exact h t id ((hq.trans hr).trans ht) (ht.toLater.captured hcaptured)
  | some deleted =>
      dsimp only
      rw [Program.lift_bind, Program.lift_send]
      refine insertRows_secures fun t u ht _ hu => ?_
      refine publishCapture_secures _ _ _ _ fun v id hv => ?_
      have hlast : Quietly r v := (ht.trans hu).trans hv
      exact h v id ((hq.trans hr).trans hlast)
        (hlast.toLater.captured hcaptured)

theorem compareCapture_secures (resourceId : Uuid) (legacy : LegacyState)
    (first current : ResourceRevision) {Q : Uuid → Point → Prop}
    (h : ∀ q id, Quietly p q → first.kind = legacy.expectedKind → Q id q) :
    rules.Secures
      (onRegistry (compareCapture resourceId legacy first current)) p Q := by
  rw [onRegistry, compareCapture, Program.lift_bind, Program.lift_read,
    Rules.secures_read_bind]
  intro q hq
  split_ifs with hagrees
  · exact trivial
  · rw [Bool.not_eq_true, Bool.not_eq_false', LegacyState.agrees] at hagrees
    have hkind := (of_decide_eq_true hagrees).1
    rw [Program.lift_bind, Program.lift_read, Rules.secures_read_bind]
    intro r hr
    split_ifs
    · exact trivial
    · intro t ht
      exact h t _ (((Quietly.of_before hq).trans (Quietly.of_before hr)).trans
        (Quietly.of_before ht)) hkind

/-- A capture leaves a first revision, be it there before or not. -/
theorem captureLegacyResource_secures (resourceId : Uuid) (backfilled : Bool)
    (firstId whiteoutId : Uuid) (hheld : .row resourceId ∈ p.held)
    {Q : Uuid → Point → Prop}
    (h : ∀ q id, Quietly p q → Captured q resourceId → Q id q) :
    rules.Secures (onRegistry
      (captureLegacyResource resourceId backfilled firstId whiteoutId)) p Q
    := by
  rw [onRegistry, captureLegacyResource, Program.lift_bind,
    Program.lift_locked, Rules.secures_locked_bind]
  intro q hq
  cases hresource : (q.view control).resource? resourceId with
  | none => exact trivial
  | some resource =>
      dsimp only
      split_ifs with hkinds
      · exact trivial
      have hknown : resource.kind ≠ .unknown := by
        intro hunknown
        simp [hunknown] at hkinds
      have hkinded : Kinded q resourceId resource.kind :=
        ⟨hq.held ▸ hheld, hknown, resource, hresource, rfl⟩
      rw [Program.lift_bind, Program.lift_read, Rules.secures_read_bind]
      intro r hr
      cases hlegacy : (r.view control).legacyState resource.kind resourceId with
      | none => exact trivial
      | some legacy =>
          have hcapturing : Capturing r resourceId legacy :=
            ⟨resource.kind, (Later.of_before hr).kinded hkinded,
              legacyState_object hlegacy⟩
          dsimp only
          rw [Program.lift_bind, Program.lift_read, Rules.secures_read_bind]
          intro t ht
          rw [Program.lift_bind, Program.lift_read, Rules.secures_read_bind]
          intro u hu
          have hlater : Quietly r u :=
            (Quietly.of_before ht).trans (Quietly.of_before hu)
          have hquiet : Quietly p u :=
            ((Quietly.of_before hq).trans (Quietly.of_before hr)).trans hlater
          have hcapturing := hlater.toLater.capturing hcapturing
          cases hfirst : ((u.view control).historyOf resourceId).find?
              fun row => row.sequence == 1 with
          | none =>
              cases (t.view control).current resourceId with
              | some current => exact trivial
              | none =>
                  dsimp only
                  rw [Program.lift_bind, Program.lift_read,
                    Rules.secures_read_bind]
                  intro v hv
                  split_ifs
                  · exact trivial
                  · refine insertCapture_secures _ _ _ _ _
                      ((Later.of_before hv).capturing hcapturing)
                      fun w id hw => ?_
                    exact h w id
                      ((hquiet.trans (Quietly.of_before hv)).trans hw)
          | some first =>
              have hmem := List.mem_of_find?_eq_some hfirst
              obtain ⟨hrevision, hof⟩ := List.mem_filter.mp hmem
              have hsequence : first.sequence = 1 := by
                simpa using List.find?_some hfirst
              cases (t.view control).current resourceId with
              | none => exact trivial
              | some current =>
                  refine compareCapture_secures _ _ _ _ fun v id hv hkind => ?_
                  have hcaptured : Captured u resourceId :=
                    hcapturing.captured hrevision (by simpa using hof)
                      hsequence hkind
                  exact h v id (hquiet.trans hv)
                    (hv.toLater.captured hcaptured)

theorem captureLegacyResourceRevision_secures
    (resourceId firstId whiteoutId : Uuid) {Q : Unit → Point → Prop}
    (h : ∀ q, Quietly p q → Captured q resourceId → Q () q) :
    rules.Secures (captureLegacyResourceRevision resourceId firstId whiteoutId)
      p Q := by
  refine lock_secures fun q hq hheld => ?_
  rw [Rules.secures_bind]
  refine captureLegacyResource_secures _ _ _ _ hheld fun r _ hr hcaptured => ?_
  intro t ht
  exact h t ((hq.trans hr).trans (Quietly.of_before ht))
    ((Later.of_before ht).captured hcaptured)

end Capture

/-! ## The transaction -/

/-- An IRI names a resource of some kind that the transaction holds. -/
structure Typed (q : Point) (iri : JsString) (id : Uuid)
    (kind : ResourceKind) : Prop where
  named : Named q iri id
  kinded : Kinded q id kind

theorem Later.typed {p q : Point} (h : Later p q) {iri : JsString} {id : Uuid}
    {kind : ResourceKind} (htyped : Typed p iri id kind) :
    Typed q iri id kind :=
  ⟨h.named htyped.named, h.kinded htyped.kinded⟩

/-- The kinds that the transaction has set were not committed before. -/
def Fresh (q : Point) (kinds : List (Uuid × ResourceKind)) : Prop :=
  ∀ entry ∈ kinds, Unpromoted q entry.1 ∧ Kinded q entry.1 entry.2

theorem Later.fresh {p q : Point} (h : Later p q)
    {kinds : List (Uuid × ResourceKind)} (hfresh : Fresh p kinds) :
    Fresh q kinds :=
  fun entry hentry => ⟨h.unpromoted (hfresh entry hentry).1,
    h.kinded (hfresh entry hentry).2⟩

theorem Fresh.known {q : Point} {kinds : List (Uuid × ResourceKind)}
    (h : Fresh q kinds) : ∀ entry ∈ kinds, entry.2 ≠ .unknown :=
  fun entry hentry => (h entry hentry).2.2.1

theorem Fresh.concat {q : Point} {kinds : List (Uuid × ResourceKind)}
    (h : Fresh q kinds) {id : Uuid} {kind : ResourceKind}
    (hunpromoted : Unpromoted q id) (hkinded : Kinded q id kind) :
    Fresh q (kinds ++ [(id, kind)]) := by
  intro entry hentry
  rcases List.mem_append.mp hentry with hold | hnew
  · exact h entry hold
  · rw [List.mem_singleton.mp hnew]
    exact ⟨hunpromoted, hkinded⟩

section Store

variable (ids : Ids) (now : Instant) (accepted : Accepted) {p : Point}

/-- The object was created by this transaction, or is the same actor's. -/
inductive ObjectStored (q : Point) (actorId activityId objectId : Uuid) :
    List ActivityPubObject → List Addressing → Prop
  | created {rows : List Addressing}
      (haddressed : Addressed q objectId
        (occurrences accepted.objectAddressing) rows)
      (hunpromoted : Unpromoted q objectId) :
      ObjectStored q actorId activityId objectId
        [objectRow now accepted objectId actorId activityId] rows
  | reused (row : ActivityPubObject)
      (hrow : (seen q).object? objectId = some row)
      (hactor : row.actorId = actorId) :
      ObjectStored q actorId activityId objectId [] []

theorem Later.objectStored {now : Instant} {accepted : Accepted} {p q : Point}
    (h : Later p q) {actorId activityId objectId : Uuid}
    {objects : List ActivityPubObject} {rows : List Addressing}
    (hheld : .row objectId ∈ p.held)
    (hstored : ObjectStored now accepted p actorId activityId objectId objects
      rows) :
    ObjectStored now accepted q actorId activityId objectId objects rows := by
  cases hstored with
  | created haddressed hunpromoted =>
      exact .created (h.addressed haddressed) (h.unpromoted hunpromoted)
  | reused row hrow hactor =>
      exact .reused row (h.seen.object hheld hrow) hactor

theorem storeActor_secures (instanceId : Uuid) {Q : Uuid → Point → Prop}
    (hempty : footprint p.sent = .empty)
    (h : ∀ q actorId kinds, Later p q →
      footprint q.sent = { Footprint.empty with kinds } → Fresh q kinds →
        Typed q accepted.actorIri actorId .actor → Q actorId q) :
    rules.Secures (storeActor ids accepted instanceId) p Q := by
  refine promoteResource_secures (by simp) (by simp [hempty, Footprint.empty])
    (fun q resource hq => ?_) fun q resource again hagain hq => ?_
  · rw [Rules.secures_send_bind]
    intro r after hr _
    have hcovered : Covered
        (.insertActor (actorRow accepted instanceId resource.id))
          [.row resource.id] := by simp [Covered, actorRow]
    have hsent : Quietly r (r.send control
        (.insertActor (actorRow accepted instanceId resource.id))) :=
      Quietly.send hcovered trivial fun _ => rfl
    have hheld : .row resource.id ∈ r.held := hr.held ▸ hq.kinded.1
    refine ⟨fun _ => List.mem_append_right _ hheld, fun t ht => ?_⟩
    have hlater : Later q t :=
      ((Later.of_before hr).trans hsent.toLater).trans (Later.of_before ht)
    have hkinded := hlater.kinded hq.kinded
    have hnone : Fresh t [] := by simp [Fresh]
    refine h t resource.id [(resource.id, .actor)] (hq.toLater.trans hlater) ?_
      (hnone.concat (hlater.unpromoted hq.unpromoted) hkinded)
      ⟨hlater.named hq.named, hkinded⟩
    rw [ht.sent, hsent.footprint, hr.sent, hq.footprint, hempty]
    rfl
  · obtain rfl := Option.some.inj hagain
    intro r hr
    have hlater := Later.of_before hr
    refine h r resource.id [] (hq.toLater.trans hlater) ?_ (by simp [Fresh])
      ⟨hlater.named hq.named, hlater.kinded hq.kinded⟩
    rw [hr.sent, hq.footprint, hempty]
    rfl

theorem reuseObject_secures {id actorId : Uuid} (hheld : .row id ∈ p.held)
    {Q : Uuid × Instant → Point → Prop}
    (h : ∀ q row, Quietly p q → (seen q).object? id = some row →
      row.actorId = actorId → Q (row.id, row.published) q) :
    rules.Secures (reuseObject id actorId) p Q := by
  rw [reuseObject, Rules.secures_read_bind]
  intro q hq
  cases hrow : (q.view control).object? id with
  | none => exact trivial
  | some row =>
      dsimp only
      split_ifs with hactor
      · exact trivial
      · intro r hr
        have hrow' : (seen r).object? id = some row :=
          (Later.of_before hr).seen.object (hq.held ▸ hheld) hrow
        exact h r row ((Quietly.of_before hq).trans (Quietly.of_before hr))
          hrow' (not_not.mp hactor)

theorem object?_eq_id {t : Tables} {id : Uuid} {row : ActivityPubObject}
    (h : t.object? id = some row) : row.id = id := by
  simpa using List.find?_some h

theorem storeObject_secures (actorId activityId : Uuid)
    {kinds : List (Uuid × ResourceKind)}
    (hsent : footprint p.sent = { Footprint.empty with kinds })
    (hfresh : Fresh p kinds) {Q : Uuid × Instant → Point → Prop}
    (h : ∀ q objectId published objects rows kinds, Later p q →
      footprint q.sent = ⟨[], objects, rows, kinds⟩ → Fresh q kinds →
        Typed q accepted.objectIri objectId .object →
          ObjectStored now accepted q actorId activityId objectId objects
            rows → Q (objectId, published) q) :
    rules.Secures (storeObject ids now accepted actorId activityId) p Q := by
  refine promoteResource_secures (by simp) ?_ (fun q resource hq => ?_)
    fun q resource again hagain hq => ?_
  · rw [hsent]
    exact hfresh.known
  · dsimp only
    generalize hrow : objectRow now accepted resource.id actorId activityId =
      row
    have hid : row.id = resource.id := hrow ▸ rfl
    rw [Rules.secures_send_bind]
    intro r after hr _
    have hheld : .row row.id ∈ r.held := hid ▸ hr.held ▸ hq.kinded.1
    have hcovered : Covered (.insertObject row) r.held := hheld
    have hinserted : Later r (r.send control (.insertObject row)) :=
      Later.send hcovered trivial
    refine ⟨fun _ => List.mem_append_right _ hheld, ?_⟩
    rw [Rules.secures_bind]
    refine storeAddressing_secures _ _ _ (hinserted.held _ hheld)
      fun t rows ht u hu => ?_
    have hlater : Later q u :=
      ((Later.of_before hr).trans hinserted).trans
        (ht.toLater.trans (Later.of_before hu))
    have hkinded := hlater.kinded hq.kinded
    have hunpromoted := hlater.unpromoted hq.unpromoted
    have hstored : ObjectStored now accepted u actorId activityId row.id [row]
        rows := by
      have haddressed := (Later.of_before hu).addressed ht.addressed
      rw [hid] at haddressed ⊢
      rw [← hrow]
      exact .created haddressed hunpromoted
    refine h u row.id row.published [row] rows (kinds ++ [(row.id, .object)])
      (hq.toLater.trans hlater) ?_ ?_ ?_ hstored
    · rw [hu.sent, ht.footprint, ReadCommitted.Point.send]
      dsimp only
      rw [if_pos (by rfl), footprint_concat, hr.sent, hq.footprint, hsent, hid]
      rfl
    · rw [hid]
      exact ((hq.toLater.trans hlater).fresh hfresh).concat hunpromoted hkinded
    · rw [hid]
      exact ⟨hlater.named hq.named, hkinded⟩
  · obtain rfl := Option.some.inj hagain
    refine reuseObject_secures hq.kinded.1 fun r row hr hrow hactor => ?_
    rw [object?_eq_id hrow]
    refine h r resource.id row.published [] [] kinds
      (hq.toLater.trans hr.toLater) ?_
      ((hq.toLater.trans hr.toLater).fresh hfresh)
      ⟨hr.toLater.named hq.named, hr.toLater.kinded hq.kinded⟩
      (.reused row hrow hactor)
    rw [hr.footprint, hq.footprint, hsent]
    rfl

theorem storeActivity_secures (actorId objectId : Uuid) (published : Instant)
    {objects : List ActivityPubObject} {rows : List Addressing}
    {kinds : List (Uuid × ResourceKind)}
    (hsent : footprint p.sent = ⟨[], objects, rows, kinds⟩)
    (hfresh : Fresh p kinds) {Q : Unit → Point → Prop}
    (h : ∀ q activityId activityRows kinds, Later p q →
      footprint q.sent =
        ⟨[activityRow now accepted activityId actorId objectId published],
          objects, rows ++ activityRows, kinds⟩ → Fresh q kinds →
        Typed q accepted.activityIri activityId .activity →
        Unpromoted q activityId →
        Addressed q activityId (occurrences accepted.activityAddressing)
          activityRows → Q () q) :
    rules.Secures (storeActivity ids now accepted actorId objectId published)
      p Q := by
  refine promoteResource_secures (by simp) ?_ (fun q resource hq => ?_)
    fun q resource again hagain hq => ?_
  · rw [hsent]
    exact hfresh.known
  · generalize hrow : activityRow now accepted resource.id actorId objectId
      published = row
    rw [Rules.secures_send_bind]
    intro r after hr _
    have hid : row.id = resource.id := hrow ▸ rfl
    have hheld : .row resource.id ∈ r.held := hr.held ▸ hq.kinded.1
    have hheldRow : .row row.id ∈ r.held := hid.symm ▸ hheld
    have hcovered : Covered (.registry (.insertActivity row)) r.held := hheldRow
    have hinserted : Later r
        (r.send control (.registry (.insertActivity row))) :=
      Later.send hcovered trivial
    refine ⟨fun _ => hcovered.mono fun key hkey => List.mem_append_right _ hkey,
      ?_⟩
    refine storeAddressing_secures _ _ _ (hinserted.held _ hheld)
      fun t activityRows ht => ?_
    have hlater : Later q t :=
      ((Later.of_before hr).trans hinserted).trans ht.toLater
    have hkinded := hlater.kinded hq.kinded
    have hunpromoted := hlater.unpromoted hq.unpromoted
    refine h t resource.id activityRows (kinds ++ [(resource.id, .activity)])
      (hq.toLater.trans hlater) ?_
      (((hq.toLater.trans hlater).fresh hfresh).concat hunpromoted hkinded)
      ⟨hlater.named hq.named, hkinded⟩ hunpromoted ht.addressed
    rw [ht.footprint, ReadCommitted.Point.send]
    dsimp only
    rw [if_pos (by rfl), footprint_concat, hr.sent, hq.footprint, hsent, hrow]
    rfl
  · cases hagain

theorem Named.unique {q : Point} {iri : JsString} {id other : Uuid}
    (h : Named q iri id) (h' : Named q iri other) : id = other := by
  obtain ⟨row, hrow, rfl⟩ := h
  obtain ⟨row', hrow', rfl⟩ := h'
  rw [Option.some.inj (hrow.symm.trans hrow')]

/-- What a transaction of the inbox has written, with the ids of its
resources. -/
structure StoredAs (q : Point) (actorId objectId activityId : Uuid)
    (published : Instant) (objects : List ActivityPubObject)
    (objectRows activityRows : List Addressing)
    (kinds : List (Uuid × ResourceKind)) : Prop where
  footprint : footprint q.sent =
    ⟨[activityRow now accepted activityId actorId objectId published],
      objects, objectRows ++ activityRows, kinds⟩
  actor : Typed q accepted.actorIri actorId .actor
  object : Typed q accepted.objectIri objectId .object
  activity : Typed q accepted.activityIri activityId .activity
  unpromoted : Unpromoted q activityId
  fresh : Fresh q kinds
  objectStored : ObjectStored now accepted q actorId activityId objectId
    objects objectRows
  addressed : Addressed q activityId
    (occurrences accepted.activityAddressing) activityRows
  objectCaptured : Captured q objectId
  activityCaptured : Captured q activityId

/-- What a stored activity leaves. -/
def Outcome (q : Point) : Prop :=
  ∃ actorId objectId activityId published objects objectRows activityRows
    kinds, StoredAs now accepted q actorId objectId activityId published
      objects objectRows activityRows kinds

theorem storeRows_secures (instanceId : Uuid) {activityId : Uuid}
    (hempty : footprint p.sent = .empty)
    (hnamed : Named p accepted.activityIri activityId)
    {Q : Unit → Point → Prop}
    (h : ∀ q, Later p q → Outcome now accepted q → Q () q) :
    rules.Secures (storeRows ids now accepted instanceId activityId) p Q := by
  rw [storeRows, Rules.secures_bind]
  refine storeActor_secures ids accepted instanceId hempty
    fun q actorId kinds hq hsent hfresh hactor => ?_
  rw [Rules.secures_bind]
  refine storeObject_secures ids now accepted actorId activityId hsent hfresh
    fun r objectId published objects rows kinds hr hsent hfresh hobject
      hstored => ?_
  rw [Rules.secures_bind]
  refine storeActivity_secures ids now accepted actorId objectId published
    hsent hfresh fun t stored activityRows kinds ht hsent hfresh hactivity
      hunpromoted haddressed => ?_
  have hsame : stored = activityId :=
    hactivity.named.unique (((hq.trans hr).trans ht).named hnamed)
  rw [Rules.secures_bind]
  refine captureLegacyResourceRevision_secures _ _ _
    fun u hu hobjectCaptured => ?_
  refine captureLegacyResourceRevision_secures _ _ _
    fun v hv hactivityCaptured => ?_
  have hlast : Later t v := hu.toLater.trans hv.toLater
  refine h v (((hq.trans hr).trans ht).trans hlast)
    ⟨actorId, objectId, activityId, published, objects, rows, activityRows,
      kinds, ?_⟩
  rw [hsame] at hsent hactivity hunpromoted haddressed
  exact
    { footprint := by rw [hv.footprint, hu.footprint, hsent]
      actor := ((hr.trans ht).trans hlast).typed hactor
      object := (ht.trans hlast).typed hobject
      activity := hlast.typed hactivity
      unpromoted := hlast.unpromoted hunpromoted
      fresh := hlast.fresh hfresh
      objectStored := (ht.trans hlast).objectStored hobject.kinded.1 hstored
      addressed := hlast.addressed haddressed
      objectCaptured := hv.toLater.captured hobjectCaptured
      activityCaptured := hactivityCaptured }

/-- Each committed `store` has stored its activity, on behalf of an actor whose
instance is not local. -/
theorem store_secures (env : Environment) (base : Tables) :
    rules.Secures (store env ids now accepted) ⟨[], [], base⟩ fun _ q =>
      Outcome now accepted q ∧ ∃ row,
        (seen q).instanceAt? (env.canonicalHost accepted.actorIri) =
          some row ∧ row.localId = none := by
  rw [store, Rules.secures_bind]
  refine ensureRemoteInstance_secures _ _ (fun q hq => trivial)
    fun q row hq hrow hremote => ?_
  dsimp only
  rw [Rules.secures_bind]
  refine ensureResources_secures _ _ fun r _ hr _ => ?_
  rw [Rules.secures_bind]
  refine lockResources_secures _ _ fun t ht => ?_
  rw [Rules.secures_bind]
  refine ensureResource_secures fun u resource hu hnamed => ?_
  split_ifs
  · exact trivial
  · have hquiet := ((hq.trans hr).trans ht).trans hu
    refine storeRows_secures ids now accepted row.id hquiet.footprint hnamed
      fun v hv houtcome => ⟨houtcome, row, ?_, hremote⟩
    exact (((hr.trans ht).trans hu).toLater.trans hv).seen.hosted hrow

end Store

end DrFed.Inbox
