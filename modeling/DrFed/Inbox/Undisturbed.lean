import DrFed.Inbox.Persist

/-!
# What a transaction of the inbox relies on

Other transactions write only what their keys cover.  So a resource stays
registered under its id and its IRI, and while a transaction holds the row of a
resource, its kind and its typed rows stay as they are.
-/

namespace DrFed.Inbox

open Store Transactions ReadCommitted

/-- The statements that the inbox sends, with the keys that they need. -/
def Covered : Statement → List Key → Prop
  | .registry (.insertResource row), held =>
      .iri row.iri ∈ held ∧ .row row.id ∈ held ∧ row.kind = .unknown
  | .registry (.setKind id kind), held => .row id ∈ held ∧ kind ≠ .unknown
  | .registry (.insertActivity row), held => .row row.id ∈ held
  | .registry (.insertAddressing row), held => .row row.sourceId ∈ held
  | .registry (.insert _ _), _ => True
  | .registry _, _ => False
  | .insertInstance row, held => .host row.host ∈ held
  | .lock _, _ => True
  | .insertActor row, held => .row row.id ∈ held
  | .insertObject row, held => .row row.id ∈ held

/-- What other transactions leave to one that holds some keys. -/
structure Undisturbed (held : List Key) (t t' : Tables) : Prop where
  resource : ∀ {id : Uuid} {row : Resource}, t.resource? id = some row →
    ∃ kind, t'.resource? id = some { row with kind } ∧
      (.row id ∈ held → kind = row.kind)
  resourceAt : ∀ {iri : JsString} {row : Resource},
    t.resourceAt? iri = some row →
      ∃ kind, t'.resourceAt? iri = some { row with kind }
  absent : ∀ {id : Uuid}, .row id ∈ held → t.resource? id = none →
    t'.resource? id = none
  absentAt : ∀ {iri : JsString}, .iri iri ∈ held → t.resourceAt? iri = none →
    t'.resourceAt? iri = none
  object : ∀ {id : Uuid}, .row id ∈ held → t'.object? id = t.object? id
  revisions : ∀ row ∈ t.revisions, row ∈ t'.revisions
  hosted : ∀ {host : JsString} {row : Instance},
    t.instanceAt? host = some row → t'.instanceAt? host = some row
  absentHost : ∀ {host : JsString}, .host host ∈ held →
    t.instanceAt? host = none → t'.instanceAt? host = none

namespace Undisturbed

variable {held others : List Key} {t t' t'' : Tables}

theorem refl (held : List Key) (t : Tables) : Undisturbed held t t where
  resource h := ⟨_, h, fun _ => rfl⟩
  resourceAt h := ⟨_, h⟩
  absent _ h := h
  absentAt _ h := h
  object _ := rfl
  revisions _ h := h
  hosted h := h
  absentHost _ h := h

theorem trans (h : Undisturbed held t t') (h' : Undisturbed held t' t'') :
    Undisturbed held t t'' where
  resource hrow := by
    obtain ⟨kind, hrow', hkind⟩ := h.resource hrow
    obtain ⟨kind', hrow'', hkind'⟩ := h'.resource hrow'
    exact ⟨kind', hrow'', fun hheld => (hkind' hheld).trans (hkind hheld)⟩
  resourceAt hrow := by
    obtain ⟨kind, hrow'⟩ := h.resourceAt hrow
    obtain ⟨kind', hrow''⟩ := h'.resourceAt hrow'
    exact ⟨kind', hrow''⟩
  absent hheld hnone := h'.absent hheld (h.absent hheld hnone)
  absentAt hheld hnone := h'.absentAt hheld (h.absentAt hheld hnone)
  object hheld := (h'.object hheld).trans (h.object hheld)
  revisions row hrow := h'.revisions row (h.revisions row hrow)
  hosted hrow := h'.hosted (h.hosted hrow)
  absentHost hheld hnone := h'.absentHost hheld (h.absentHost hheld hnone)

end Undisturbed

/-! ## Lookups after a statement -/

section Lookups

def kindSet (id : Uuid) (kind : ResourceKind) (row : Resource) : Resource :=
  if row.id = id then { row with kind } else row

theorem find?_kindSet (rows : List Resource) {p : Resource → Bool}
    (hp : ∀ row kind, p { row with kind } = p row) (id : Uuid)
    (kind : ResourceKind) :
    (rows.map (kindSet id kind)).find? p =
      (rows.find? p).map (kindSet id kind) := by
  rw [List.find?_map]
  congr 2
  funext row
  rw [Function.comp, kindSet]
  split_ifs
  · exact hp row kind
  · rfl

theorem kindSet_eq (id : Uuid) (kind : ResourceKind) (row : Resource) :
    kindSet id kind row =
      { row with kind := if row.id = id then kind else row.kind } := by
  rw [kindSet]
  split_ifs <;> rfl

variable {t : Tables}

theorem resource?_setKind (id other : Uuid) (kind : ResourceKind) :
    ((Statement.registry (.setKind id kind)).effect t).resource? other =
      (t.resource? other).map (kindSet id kind) :=
  find?_kindSet t.resources (fun _ _ => rfl) id kind

theorem resourceAt?_setKind (id : Uuid) (iri : JsString)
    (kind : ResourceKind) :
    ((Statement.registry (.setKind id kind)).effect t).resourceAt? iri =
      (t.resourceAt? iri).map (kindSet id kind) :=
  find?_kindSet t.resources (fun _ _ => rfl) id kind

theorem effect_insertResource_of_some {row : Resource}
    (h : (t.resourceAt? row.iri).isSome = true) :
    (Statement.registry (.insertResource row)).effect t = t := by
  rw [Statement.effect, Store.Statement.effect, if_pos h]

theorem effect_insertResource_of_none {row : Resource}
    (h : t.resourceAt? row.iri = none) :
    (Statement.registry (.insertResource row)).effect t =
      { t with resources := t.resources ++ [row] } := by
  rw [Statement.effect, Store.Statement.effect, if_neg (by simp [h])]

theorem resource?_append (row : Resource) (id : Uuid) :
    ({ t with resources := t.resources ++ [row] } : Tables).resource? id =
      (t.resource? id).or (if row.id = id then some row else none) := by
  rw [Store.Tables.resource?, List.find?_append, Store.Tables.resource?]
  congr 1
  by_cases h : row.id = id <;> simp [h]

theorem resourceAt?_append (row : Resource) (iri : JsString) :
    ({ t with resources := t.resources ++ [row] } : Tables).resourceAt? iri =
      (t.resourceAt? iri).or (if row.iri = iri then some row else none) := by
  rw [Store.Tables.resourceAt?, List.find?_append, Store.Tables.resourceAt?]
  congr 1
  by_cases h : row.iri = iri <;> simp [h]

theorem instanceAt?_append (row : Instance) (host : JsString) :
    ({ t with instances := t.instances ++ [row] } : Tables).instanceAt? host =
      (t.instanceAt? host).or (if row.host = host then some row else none) := by
  rw [Tables.instanceAt?, List.find?_append, Tables.instanceAt?]
  congr 1
  by_cases h : row.host = host <;> simp [h]

theorem object?_append (row : ActivityPubObject) (id : Uuid) :
    ({ t with objects := t.objects ++ [row] } : Tables).object? id =
      (t.object? id).or (if row.id = id then some row else none) := by
  rw [Store.Tables.object?, List.find?_append, Store.Tables.object?]
  congr 1
  by_cases h : row.id = id <;> simp [h]

theorem resource?_eq_id {id : Uuid} {row : Resource}
    (h : t.resource? id = some row) : row.id = id := by
  simpa using List.find?_some h

theorem resourceAt?_eq_iri {iri : JsString} {row : Resource}
    (h : t.resourceAt? iri = some row) : row.iri = iri := by
  simpa using List.find?_some h

end Lookups

/-! ## One statement -/

namespace Undisturbed

variable {held others : List Key} {t t' : Tables}

theorem own_insertResource {row : Resource} (hiri : .iri row.iri ∈ held)
    (hrow : .row row.id ∈ held) (h : Undisturbed held t t') :
    Undisturbed held
      ((Statement.registry (.insertResource row)).effect t)
      ((Statement.registry (.insertResource row)).effect t') := by
  cases hat : t.resourceAt? row.iri with
  | some found =>
      obtain ⟨kind, hat'⟩ := h.resourceAt hat
      rw [effect_insertResource_of_some (by simp [hat]),
        effect_insertResource_of_some (by simp [hat'])]
      exact h
  | none =>
      rw [effect_insertResource_of_none hat,
        effect_insertResource_of_none (h.absentAt hiri hat)]
      exact
        { resource := by
            intro id found hfound
            rw [resource?_append, Option.or_eq_some_iff] at hfound
            rw [resource?_append]
            rcases hfound with hfound | ⟨hnone, hnew⟩
            · obtain ⟨kind, hfound', hkind⟩ := h.resource hfound
              exact ⟨kind, by rw [hfound', Option.some_or], hkind⟩
            · have hid : row.id = id := by
                by_contra hne
                simp [hne] at hnew
              rw [h.absent (hid ▸ hrow) hnone, Option.none_or]
              exact ⟨found.kind, hnew, fun _ => rfl⟩
          resourceAt := by
            intro iri found hfound
            rw [resourceAt?_append, Option.or_eq_some_iff] at hfound
            rw [resourceAt?_append]
            rcases hfound with hfound | ⟨hnone, hnew⟩
            · obtain ⟨kind, hfound'⟩ := h.resourceAt hfound
              exact ⟨kind, by rw [hfound', Option.some_or]⟩
            · have hat : row.iri = iri := by
                by_contra hne
                simp [hne] at hnew
              rw [h.absentAt (hat ▸ hiri) hnone, Option.none_or]
              exact ⟨found.kind, hnew⟩
          absent := by
            intro id hheld hnone
            rw [resource?_append, Option.or_eq_none_iff] at hnone ⊢
            exact ⟨h.absent hheld hnone.1, hnone.2⟩
          absentAt := by
            intro iri hheld hnone
            rw [resourceAt?_append, Option.or_eq_none_iff] at hnone ⊢
            exact ⟨h.absentAt hheld hnone.1, hnone.2⟩
          object := h.object
          revisions := h.revisions
          hosted := h.hosted
          absentHost := h.absentHost }

theorem own_setKind (id : Uuid) (kind : ResourceKind)
    (h : Undisturbed held t t') :
    Undisturbed held ((Statement.registry (.setKind id kind)).effect t)
      ((Statement.registry (.setKind id kind)).effect t') where
  resource {other found} hfound := by
    rw [resource?_setKind] at hfound ⊢
    obtain ⟨row, hrow, rfl⟩ := Option.map_eq_some_iff.mp hfound
    obtain ⟨now, hrow', hnow⟩ := h.resource hrow
    rw [hrow', Option.map_some]
    refine ⟨if row.id = id then kind else now, ?_, ?_⟩
    · rw [kindSet_eq, kindSet_eq]
    · intro hheld
      rw [kindSet_eq, hnow hheld]
  resourceAt {iri found} hfound := by
    rw [resourceAt?_setKind] at hfound ⊢
    obtain ⟨row, hrow, rfl⟩ := Option.map_eq_some_iff.mp hfound
    obtain ⟨now, hrow'⟩ := h.resourceAt hrow
    rw [hrow', Option.map_some]
    exact ⟨if row.id = id then kind else now, by rw [kindSet_eq, kindSet_eq]⟩
  absent {other} hheld hnone := by
    rw [resource?_setKind, Option.map_eq_none_iff] at hnone ⊢
    exact h.absent hheld hnone
  absentAt {iri} hheld hnone := by
    rw [resourceAt?_setKind, Option.map_eq_none_iff] at hnone ⊢
    exact h.absentAt hheld hnone
  object := h.object
  revisions := h.revisions
  hosted := h.hosted
  absentHost := h.absentHost

theorem own_insertInstance {row : Instance} (hhost : .host row.host ∈ held)
    (h : Undisturbed held t t') :
    Undisturbed held ((Statement.insertInstance row).effect t)
      ((Statement.insertInstance row).effect t') := by
  rw [Statement.effect, Statement.effect]
  cases hat : t.instanceAt? row.host with
  | some found =>
      rw [if_pos (by simp), if_pos (by simp [h.hosted hat])]
      exact h
  | none =>
      rw [if_neg (by simp), if_neg (by simp [h.absentHost hhost hat])]
      exact
        { resource := h.resource
          resourceAt := h.resourceAt
          absent := h.absent
          absentAt := h.absentAt
          object := h.object
          revisions := h.revisions
          hosted := by
            intro host found hfound
            rw [instanceAt?_append, Option.or_eq_some_iff] at hfound
            rw [instanceAt?_append]
            rcases hfound with hfound | ⟨hnone, hnew⟩
            · rw [h.hosted hfound, Option.some_or]
            · have hsame : row.host = host := by
                by_contra hne
                simp [hne] at hnew
              rw [h.absentHost (hsame ▸ hhost) hnone, Option.none_or]
              exact hnew
          absentHost := by
            intro host hheld hnone
            rw [instanceAt?_append, Option.or_eq_none_iff] at hnone ⊢
            exact ⟨h.absentHost hheld hnone.1, hnone.2⟩ }

theorem own_insertObject (row : ActivityPubObject)
    (h : Undisturbed held t t') :
    Undisturbed held ((Statement.insertObject row).effect t)
      ((Statement.insertObject row).effect t') where
  resource := h.resource
  resourceAt := h.resourceAt
  absent := h.absent
  absentAt := h.absentAt
  object {id} hheld := by
    rw [Statement.effect, Statement.effect, object?_append, object?_append,
      h.object hheld]
  revisions := h.revisions
  hosted := h.hosted
  absentHost := h.absentHost

/-- A statement keeps what its own transaction relies on. -/
theorem own {s : Statement} (hcovered : Covered s held)
    (h : Undisturbed held t t') :
    Undisturbed held (s.effect t) (s.effect t') := by
  cases s with
  | registry statement =>
      cases statement with
      | insertResource row => exact h.own_insertResource hcovered.1 hcovered.2.1
      | setKind id kind => exact h.own_setKind id kind
      | insertActivity row => exact { h with }
      | insertAddressing row => exact { h with }
      | insert table rows =>
          cases table with
          | revisions =>
              refine { h with revisions := fun row hrow => ?_ }
              rcases List.mem_append.mp hrow with hold | hnew
              · exact List.mem_append_left _ (h.revisions row hold)
              · exact List.mem_append_right _ hnew
          | heads => exact { h with }
          | addressing => exact { h with }
          | relations => exact { h with }
      | update table matching assign => exact absurd hcovered id
      | delete table matching => exact absurd hcovered id
      | truncate table => exact absurd hcovered id
      | insertObject row => exact absurd hcovered id
      | updateObject id assign => exact absurd hcovered fun h => h
      | updateActivity id assign => exact absurd hcovered fun h => h
      | deleteAddressing sourceId => exact absurd hcovered id
  | insertInstance row => exact h.own_insertInstance hcovered
  | lock id => exact h
  | insertActor row => exact { h with }
  | insertObject row => exact h.own_insertObject row

theorem other_insertResource {row : Resource} (hiri : .iri row.iri ∉ held)
    (hrow : .row row.id ∉ held) (t : Tables) :
    Undisturbed held t
      ((Statement.registry (.insertResource row)).effect t) := by
  cases hat : t.resourceAt? row.iri with
  | some found =>
      rw [effect_insertResource_of_some (by simp [hat])]
      exact refl held t
  | none =>
      rw [effect_insertResource_of_none hat]
      exact
        { refl held t with
          resource := by
            intro id found hfound
            rw [resource?_append, hfound, Option.some_or]
            exact ⟨found.kind, rfl, fun _ => rfl⟩
          resourceAt := by
            intro iri found hfound
            rw [resourceAt?_append, hfound, Option.some_or]
            exact ⟨found.kind, rfl⟩
          absent := by
            intro id hheld hnone
            rw [resource?_append, hnone, Option.none_or, if_neg]
            rintro rfl
            exact hrow hheld
          absentAt := by
            intro iri hheld hnone
            rw [resourceAt?_append, hnone, Option.none_or, if_neg]
            rintro rfl
            exact hiri hheld }

theorem other_setKind {id : Uuid} (hrow : .row id ∉ held) (kind : ResourceKind)
    (t : Tables) :
    Undisturbed held t ((Statement.registry (.setKind id kind)).effect t) where
  resource {other found} hfound := by
    rw [resource?_setKind, hfound, Option.map_some, kindSet_eq]
    refine ⟨_, rfl, fun hheld => if_neg ?_⟩
    rintro rfl
    rw [resource?_eq_id hfound] at hrow
    exact hrow hheld
  resourceAt {iri found} hfound := by
    rw [resourceAt?_setKind, hfound, Option.map_some, kindSet_eq]
    exact ⟨_, rfl⟩
  absent {other} _ hnone := by
    rw [resource?_setKind, hnone, Option.map_none]
  absentAt {iri} _ hnone := by
    rw [resourceAt?_setKind, hnone, Option.map_none]
  object _ := rfl
  revisions _ h := h
  hosted h := h
  absentHost _ h := h

theorem other_insertInstance {row : Instance} (hhost : .host row.host ∉ held)
    (t : Tables) :
    Undisturbed held t ((Statement.insertInstance row).effect t) := by
  rw [Statement.effect]
  cases hat : t.instanceAt? row.host with
  | some found =>
      rw [if_pos (by simp)]
      exact refl held t
  | none =>
      rw [if_neg (by simp)]
      exact
        { refl held t with
          hosted := by
            intro host found hfound
            rw [instanceAt?_append, hfound, Option.some_or]
          absentHost := by
            intro host hheld hnone
            rw [instanceAt?_append, hnone, Option.none_or, if_neg]
            rintro rfl
            exact hhost hheld }

theorem other_insertObject {row : ActivityPubObject}
    (hrow : .row row.id ∉ held) (t : Tables) :
    Undisturbed held t ((Statement.insertObject row).effect t) :=
  { refl held t with
    object := by
      intro id hheld
      rw [Statement.effect, object?_append, if_neg, Option.or_none]
      rintro rfl
      exact hrow hheld }

/-- A statement keeps what a transaction without its keys relies on. -/
theorem other {s : Statement} (t : Tables) (hcovered : Covered s others)
    (hdisjoint : ∀ key ∈ held, key ∉ others) :
    Undisturbed held t (s.effect t) := by
  have hfree : ∀ key ∈ others, key ∉ held :=
    fun key hkey hheld => hdisjoint key hheld hkey
  cases s with
  | registry statement =>
      cases statement with
      | insertResource row =>
          exact other_insertResource (hfree _ hcovered.1)
            (hfree _ hcovered.2.1) t
      | setKind id kind => exact other_setKind (hfree _ hcovered.1) kind t
      | insertActivity row => exact { refl held t with }
      | insertAddressing row => exact { refl held t with }
      | insert table rows =>
          cases table with
          | revisions =>
              exact { refl held t with
                revisions := fun row hrow => List.mem_append_left _ hrow }
          | heads => exact { refl held t with }
          | addressing => exact { refl held t with }
          | relations => exact { refl held t with }
      | update table matching assign => exact absurd hcovered id
      | delete table matching => exact absurd hcovered id
      | truncate table => exact absurd hcovered id
      | insertObject row => exact absurd hcovered id
      | updateObject id assign => exact absurd hcovered fun h => h
      | updateActivity id assign => exact absurd hcovered fun h => h
      | deleteAddressing sourceId => exact absurd hcovered id
  | insertInstance row => exact other_insertInstance (hfree _ hcovered) t
  | lock id => exact refl held t
  | insertActor row => exact { refl held t with }
  | insertObject row => exact other_insertObject (hfree _ hcovered) t

end Undisturbed

theorem Covered.mono {s : Statement} {held more : List Key}
    (h : Covered s held) (hmore : ∀ key ∈ held, key ∈ more) :
    Covered s more := by
  cases s with
  | registry statement =>
      cases statement with
      | insertResource row => exact ⟨hmore _ h.1, hmore _ h.2.1, h.2.2⟩
      | setKind id kind => exact ⟨hmore _ h.1, h.2⟩
      | insertActivity row => exact hmore _ h
      | insertAddressing row => exact hmore _ h
      | _ => exact h
  | insertInstance row => exact hmore _ h
  | lock id => trivial
  | insertActor row => exact hmore _ h
  | insertObject row => exact hmore _ h

/-! ## Registered resources -/

/-- The resources that some statements register. -/
def registered (sent : List Statement) : List Resource :=
  sent.filterMap fun
    | .registry (.insertResource row) => some row
    | _ => none

/-- The ids and the IRIs of resources. -/
def names (rows : List Resource) : List (Uuid × JsString) :=
  rows.map fun row => (row.id, row.iri)

/-- What a transaction has registered is new, and registered once. -/
structure Distinct (sent : List Statement) (base : Tables) : Prop where
  ids : ((registered sent).map Resource.id).Nodup
  iris : ((registered sent).map Resource.iri).Nodup
  absent : ∀ row ∈ registered sent,
    base.resource? row.id = none ∧ base.resourceAt? row.iri = none

theorem resource?_eq_none {t : Tables} {id : Uuid} :
    t.resource? id = none ↔ ∀ name ∈ names t.resources, name.1 ≠ id := by
  simp [Store.Tables.resource?, names]

theorem resourceAt?_eq_none {t : Tables} {iri : JsString} :
    t.resourceAt? iri = none ↔ ∀ name ∈ names t.resources, name.2 ≠ iri := by
  simp [Store.Tables.resourceAt?, names]

theorem names_setKind (t : Tables) (id : Uuid) (kind : ResourceKind) :
    names ((Statement.registry (.setKind id kind)).effect t).resources =
      names t.resources := by
  change names (t.resources.map (kindSet id kind)) = _
  rw [names, names, List.map_map]
  refine List.map_congr_left fun row _ => ?_
  rw [Function.comp, kindSet_eq]

/-- A statement adds at most a resource that it registers. -/
theorem names_effect (s : Statement) (t : Tables) :
    names (s.effect t).resources = names t.resources ++
      if s.writes t then names (registered [s]) else [] := by
  cases s with
  | registry statement =>
      cases statement with
      | insertResource row =>
          cases hat : t.resourceAt? row.iri with
          | some found =>
              rw [effect_insertResource_of_some (by simp [hat])]
              simp [Statement.writes, hat]
          | none =>
              rw [effect_insertResource_of_none hat]
              simp [Statement.writes, hat, names, registered]
      | setKind id kind =>
          rw [names_setKind]
          simp [registered, names]
      | insert table rows => cases table <;> simp [registered, names] <;> rfl
      | update table matching assign =>
          cases table <;> simp [registered, names] <;> rfl
      | delete table matching =>
          cases table <;> simp [registered, names] <;> rfl
      | truncate table => cases table <;> simp [registered, names] <;> rfl
      | _ => simp [registered, names] ; rfl
  | insertInstance row =>
      rw [Statement.effect]
      split_ifs <;> simp [registered, names]
  | lock id => simp [registered, names, Statement.effect]
  | insertActor row => simp [registered, names, Statement.effect]
  | insertObject row => simp [registered, names, Statement.effect]

theorem registered_concat (sent : List Statement) (s : Statement) :
    registered (sent ++ [s]) = registered sent ++ registered [s] :=
  List.filterMap_append

theorem names_append (rows others : List Resource) :
    names (rows ++ others) = names rows ++ names others :=
  List.map_append

/-- A statement that registers no resource, or the registration of one. -/
theorem registered_cases (s : Statement) :
    registered [s] = [] ∨ ∃ row, s = .registry (.insertResource row) := by
  cases s with
  | registry statement =>
      cases statement with
      | insertResource row => exact .inr ⟨row, rfl⟩
      | _ => exact .inl rfl
  | _ => exact .inl rfl

namespace Distinct

variable {sent : List Statement} {s : Statement} {base : Tables}

theorem nil (base : Tables) : Distinct [] base :=
  ⟨by simp [registered], by simp [registered], by simp [registered]⟩

theorem init (h : Distinct (sent ++ [s]) base) : Distinct sent base := by
  obtain ⟨hids, hiris, habsent⟩ := h
  rw [registered_concat, List.map_append] at hids hiris
  rw [registered_concat] at habsent
  exact ⟨(List.nodup_append.mp hids).1, (List.nodup_append.mp hiris).1,
    fun row hrow => habsent row (List.mem_append_left _ hrow)⟩

/-- The resources that a transaction sees are the committed ones and those
that it has registered. -/
theorem names_applyAll (h : Distinct sent base) :
    names (control.engine.applyAll sent base).resources =
      names base.resources ++ names (registered sent) := by
  induction sent using List.reverseRecOn with
  | nil => simp [registered, names]
  | append_singleton first s ih =>
      rw [Engine.applyAll_concat, registered_concat, names_append]
      refine (names_effect s _).trans ?_
      rw [ih h.init, List.append_assoc]
      congr 2
      rcases registered_cases s with hnone | ⟨row, rfl⟩
      · simp [hnone, names]
      · refine if_pos ?_
        have hlast : row ∈ registered (first ++ [.registry (.insertResource row)])
            := by simp [registered]
        have hbase := resourceAt?_eq_none.mp (h.absent row hlast).2
        have hiris := h.iris
        rw [registered_concat, List.map_append, List.nodup_append] at hiris
        have hnone : (control.engine.applyAll first base).resourceAt? row.iri =
            none := by
          rw [resourceAt?_eq_none, ih h.init]
          intro name hname
          rcases List.mem_append.mp hname with hold | hnew
          · exact hbase name hold
          · obtain ⟨other, hother, rfl⟩ := List.mem_map.mp hnew
            exact hiris.2.2 _ (List.mem_map_of_mem hother) _
              (by simp [registered])
        simp [Statement.writes, hnone]

theorem rely {held : List Key} {after : Tables}
    (hcovered : ∀ s ∈ sent, Covered s held) (h : Undisturbed held base after)
    (hdistinct : Distinct sent base) : Distinct sent after := by
  refine ⟨hdistinct.ids, hdistinct.iris, fun row hrow => ?_⟩
  obtain ⟨s, hs, hregisters⟩ := List.mem_filterMap.mp hrow
  obtain ⟨hid, hiri⟩ := hdistinct.absent row hrow
  have hsame : s = .registry (.insertResource row) := by
    rcases registered_cases s with hnone | ⟨other, rfl⟩
    · have hmem : row ∈ registered [s] := by
        simpa [registered] using hregisters
      rw [hnone] at hmem
      cases hmem
    · rw [Option.some.inj hregisters]
  have hheld := hcovered s hs
  rw [hsame] at hheld
  exact ⟨h.absent hheld.2.1 hid, h.absentAt hheld.1 hiri⟩

/-- A statement that registers a resource has found its id and its IRI
absent. -/
theorem send {after : Tables} (h : Distinct sent base)
    (hexecute : s.execute (control.engine.applyAll sent base) = .ok after)
    (hwrites : s.writes (control.engine.applyAll sent base) = true) :
    Distinct (sent ++ [s]) base := by
  rcases registered_cases s with hnone | ⟨row, rfl⟩
  · refine ⟨?_, ?_, ?_⟩
    · rw [registered_concat, hnone, List.append_nil]
      exact h.ids
    · rw [registered_concat, hnone, List.append_nil]
      exact h.iris
    · rw [registered_concat, hnone, List.append_nil]
      exact h.absent
  · have hiri : (control.engine.applyAll sent base).resourceAt? row.iri =
        none := Option.isNone_iff_eq_none.mp hwrites
    have hid : (control.engine.applyAll sent base).resource? row.id = none := by
      rw [Statement.execute, Store.Statement.execute] at hexecute
      by_contra hsome
      rw [if_pos ⟨hwrites, by
        rw [Option.isSome_iff_ne_none]
        exact hsome⟩] at hexecute
      cases hexecute
    rw [resource?_eq_none, h.names_applyAll] at hid
    rw [resourceAt?_eq_none, h.names_applyAll] at hiri
    have hnew : registered [Statement.registry (.insertResource row)] = [row] :=
      rfl
    have hmem : ∀ other ∈ registered sent,
        (other.id, other.iri) ∈ names base.resources ++ names (registered sent) :=
      fun other hother => List.mem_append_right _ (List.mem_map_of_mem hother)
    refine ⟨?_, ?_, ?_⟩
    · rw [registered_concat, hnew, List.map_append, List.nodup_append]
      refine ⟨h.ids, by simp, ?_⟩
      intro id hid' other hother
      obtain ⟨found, hfound, rfl⟩ := List.mem_map.mp hid'
      rw [List.mem_singleton.mp hother]
      exact hid _ (hmem found hfound)
    · rw [registered_concat, hnew, List.map_append, List.nodup_append]
      refine ⟨h.iris, by simp, ?_⟩
      intro iri hiri' other hother
      obtain ⟨found, hfound, rfl⟩ := List.mem_map.mp hiri'
      rw [List.mem_singleton.mp hother]
      exact hiri _ (hmem found hfound)
    · intro found hfound
      rw [registered_concat, hnew] at hfound
      rcases List.mem_append.mp hfound with hold | hlast
      · exact h.absent found hold
      · rw [List.mem_singleton.mp hlast, resource?_eq_none, resourceAt?_eq_none]
        exact ⟨fun name hname => hid name (List.mem_append_left _ hname),
          fun name hname => hiri name (List.mem_append_left _ hname)⟩

end Distinct

def rules : Rules control where
  rely := Undisturbed
  covered := Covered
  distinct := Distinct
  refl := Undisturbed.refl
  trans := Undisturbed.trans
  mono := Covered.mono
  own := Undisturbed.own
  other t := Undisturbed.other t
  distinct_nil := Distinct.nil
  distinct_rely := Distinct.rely
  distinct_send := Distinct.send

end DrFed.Inbox
