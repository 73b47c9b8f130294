import DrFed.Inbox.Undisturbed

/-!
# Points of a transaction of the inbox

What a transaction has seen stays true until it ends, and what it has written
can be read off its statements.
-/

namespace DrFed.Inbox

open Store Transactions ReadCommitted

abbrev Point := ReadCommitted.Point Tables Statement Key

/-- What a transaction sees. -/
def seen (p : Point) : Tables := p.view control

/-! ## What has been written -/

/-- The typed rows, the addressing and the kinds that some statements
write. -/
structure Footprint where
  activities : List StoredActivity
  objects : List ActivityPubObject
  addressing : List Addressing
  kinds : List (Uuid × ResourceKind)

namespace Footprint

def empty : Footprint := ⟨[], [], [], []⟩

def add (f : Footprint) : Statement → Footprint
  | .registry (.insertActivity row) =>
      { f with activities := f.activities ++ [row] }
  | .registry (.insertAddressing row) =>
      { f with addressing := f.addressing ++ [row] }
  | .registry (.setKind id kind) => { f with kinds := f.kinds ++ [(id, kind)] }
  | .insertObject row => { f with objects := f.objects ++ [row] }
  | _ => f

end Footprint

def footprint (sent : List Statement) : Footprint :=
  sent.foldl Footprint.add .empty

theorem footprint_concat (sent : List Statement) (s : Statement) :
    footprint (sent ++ [s]) = (footprint sent).add s := by
  rw [footprint, List.foldl_append]
  rfl

/-- The rows of a state are some rows and those of a footprint. -/
structure Footprint.Over (f : Footprint) (base t : Tables) : Prop where
  activities : t.activities = base.activities ++ f.activities
  objects : t.objects = base.objects ++ f.objects
  addressing : t.addressing = base.addressing ++ f.addressing

theorem Footprint.Over.effect {f : Footprint} {base t : Tables}
    (h : f.Over base t) {s : Statement} {held : List Key}
    (hcovered : Covered s held) : (f.add s).Over base (s.effect t) := by
  obtain ⟨hactivities, hobjects, haddressing⟩ := h
  cases s with
  | registry statement =>
      cases statement with
      | insertResource row =>
          cases hat : t.resourceAt? row.iri with
          | some found =>
              rw [effect_insertResource_of_some (by simp [hat])]
              exact ⟨hactivities, hobjects, haddressing⟩
          | none =>
              rw [effect_insertResource_of_none hat]
              exact ⟨hactivities, hobjects, haddressing⟩
      | setKind id kind => exact ⟨hactivities, hobjects, haddressing⟩
      | insertActivity row =>
          refine ⟨?_, hobjects, haddressing⟩
          exact (congrArg (· ++ [row]) hactivities).trans
            (List.append_assoc _ _ _)
      | insertAddressing row =>
          refine ⟨hactivities, hobjects, ?_⟩
          exact (congrArg (· ++ [row]) haddressing).trans
            (List.append_assoc _ _ _)
      | insert table rows =>
          cases table <;> exact ⟨hactivities, hobjects, haddressing⟩
      | update table matching assign => exact absurd hcovered id
      | delete table matching => exact absurd hcovered id
      | truncate table => exact absurd hcovered id
      | insertObject row => exact absurd hcovered id
      | updateObject id assign => exact absurd hcovered fun h => h
      | updateActivity id assign => exact absurd hcovered fun h => h
      | deleteAddressing sourceId => exact absurd hcovered id
  | insertInstance row =>
      rw [Statement.effect]
      split_ifs <;> exact ⟨hactivities, hobjects, haddressing⟩
  | lock id => exact ⟨hactivities, hobjects, haddressing⟩
  | insertActor row => exact ⟨hactivities, hobjects, haddressing⟩
  | insertObject row =>
      refine ⟨hactivities, ?_, haddressing⟩
      exact (congrArg (· ++ [row]) hobjects).trans (List.append_assoc _ _ _)

/-- The rows that a transaction sees are the committed ones and its own. -/
theorem footprint_over {sent : List Statement} {held : List Key} (t : Tables)
    (h : ∀ s ∈ sent, Covered s held) :
    (footprint sent).Over t (control.engine.applyAll sent t) := by
  induction sent using List.reverseRecOn with
  | nil => exact ⟨by simp [footprint, Footprint.empty],
      by simp [footprint, Footprint.empty], by simp [footprint, Footprint.empty]⟩
  | append_singleton first s ih =>
      rw [Engine.applyAll_concat, footprint_concat]
      exact (ih fun other hother => h other (by simp [hother])).effect
        (h s (by simp))

/-- The kind of a resource that is committed is the committed one, or one that
the transaction has set. -/
theorem resource?_applyAll (sent : List Statement) {t : Tables} {id : Uuid}
    {row : Resource} (h : t.resource? id = some row) :
    ∃ kind, (control.engine.applyAll sent t).resource? id =
        some { row with kind } ∧
      (kind = row.kind ∨ (id, kind) ∈ (footprint sent).kinds) := by
  induction sent using List.reverseRecOn with
  | nil => exact ⟨row.kind, h, .inl rfl⟩
  | append_singleton first s ih =>
      obtain ⟨kind, hrow, hkind⟩ := ih
      rw [Engine.applyAll_concat, footprint_concat]
      have hkeep : ∀ f : Footprint, f.kinds = (footprint first).kinds →
          kind = row.kind ∨ (id, kind) ∈ f.kinds := fun f hf => hf ▸ hkind
      cases s with
      | registry statement =>
          cases statement with
          | insertResource new =>
              refine ⟨kind, ?_, hkeep _ rfl⟩
              cases hat : (control.engine.applyAll first t).resourceAt?
                  new.iri with
              | some found =>
                  exact (congrArg (fun t : Tables => t.resource? id)
                    (effect_insertResource_of_some (by simp [hat]))).trans hrow
              | none =>
                  refine (congrArg (fun t : Tables => t.resource? id)
                    (effect_insertResource_of_none hat)).trans ?_
                  rw [resource?_append, hrow, Option.some_or]
          | setKind other new =>
              refine ⟨if row.id = other then new else kind, ?_, ?_⟩
              · refine (resource?_setKind other id new).trans ?_
                rw [hrow, Option.map_some, kindSet_eq]
              · have hid : row.id = id := resource?_eq_id h
                split_ifs with hother
                · right
                  rw [← hother, hid]
                  exact List.mem_append_right _ (by simp)
                · exact hkind.imp_right (List.mem_append_left _)
          | insert table rows =>
              cases table <;> exact ⟨kind, hrow, hkeep _ rfl⟩
          | update table matching assign =>
              cases table <;> exact ⟨kind, hrow, hkeep _ rfl⟩
          | delete table matching =>
              cases table <;> exact ⟨kind, hrow, hkeep _ rfl⟩
          | truncate table =>
              cases table <;> exact ⟨kind, hrow, hkeep _ rfl⟩
          | _ => exact ⟨kind, hrow, hkeep _ rfl⟩
      | insertInstance new =>
          refine ⟨kind, ?_, hkeep _ rfl⟩
          have hsame : ((Statement.insertInstance new).effect
              (control.engine.applyAll first t)).resource? id =
                (control.engine.applyAll first t).resource? id := by
            rw [Statement.effect]
            split_ifs <;> rfl
          exact hsame.trans hrow
      | lock other => exact ⟨kind, hrow, hkeep _ rfl⟩
      | insertActor new => exact ⟨kind, hrow, hkeep _ rfl⟩
      | insertObject new => exact ⟨kind, hrow, hkeep _ rfl⟩

/-! ## What stays -/

/-- What a transaction has seen, and will see later, of the rows it holds. -/
structure Grown (held : List Key) (t t' : Tables) : Prop where
  resource : ∀ {id : Uuid} {row : Resource}, t.resource? id = some row →
    ∃ kind, t'.resource? id = some { row with kind } ∧
      (.row id ∈ held → row.kind ≠ .unknown → kind = row.kind)
  resourceAt : ∀ {iri : JsString} {row : Resource},
    t.resourceAt? iri = some row →
      ∃ kind, t'.resourceAt? iri = some { row with kind }
  object : ∀ {id : Uuid} {row : ActivityPubObject}, .row id ∈ held →
    t.object? id = some row → t'.object? id = some row
  revisions : ∀ row ∈ t.revisions, row ∈ t'.revisions
  hosted : ∀ {host : JsString} {row : Instance},
    t.instanceAt? host = some row → t'.instanceAt? host = some row

namespace Grown

variable {held more : List Key} {t t' t'' : Tables}

theorem refl (held : List Key) (t : Tables) : Grown held t t where
  resource h := ⟨_, h, fun _ _ => rfl⟩
  resourceAt h := ⟨_, h⟩
  object _ h := h
  revisions _ h := h
  hosted h := h

theorem trans (h : Grown held t t') (h' : Grown more t' t'')
    (hmore : ∀ key ∈ held, key ∈ more) : Grown held t t'' where
  resource hrow := by
    obtain ⟨kind, hrow', hkind⟩ := h.resource hrow
    obtain ⟨kind', hrow'', hkind'⟩ := h'.resource hrow'
    refine ⟨kind', hrow'', fun hheld hknown => ?_⟩
    have hsame := hkind hheld hknown
    exact (hkind' (hmore _ hheld) (hsame.trans_ne hknown)).trans hsame
  resourceAt hrow := by
    obtain ⟨kind, hrow'⟩ := h.resourceAt hrow
    obtain ⟨kind', hrow''⟩ := h'.resourceAt hrow'
    exact ⟨kind', hrow''⟩
  object hheld hrow := h'.object (hmore _ hheld) (h.object hheld hrow)
  revisions row hrow := h'.revisions row (h.revisions row hrow)
  hosted hrow := h'.hosted (h.hosted hrow)

theorem of_undisturbed (h : Undisturbed held t t') : Grown held t t' where
  resource hrow := by
    obtain ⟨kind, hrow', hkind⟩ := h.resource hrow
    exact ⟨kind, hrow', fun hheld _ => hkind hheld⟩
  resourceAt hrow := h.resourceAt hrow
  object hheld hrow := (h.object hheld).trans hrow
  revisions := h.revisions
  hosted hrow := h.hosted hrow

/-- A statement sets the kind only of an unknown resource. -/
def Promotes (t : Tables) : Statement → Prop
  | .registry (.setKind id _) =>
      ∀ row, t.resource? id = some row → row.kind = .unknown
  | _ => True

/-- A statement keeps what its own transaction has seen. -/
theorem effect {s : Statement} (hcovered : Covered s held)
    (hpromotes : Promotes t s) : Grown more t (s.effect t) := by
  cases s with
  | registry statement =>
      cases statement with
      | insertResource row =>
          cases hat : t.resourceAt? row.iri with
          | some found =>
              rw [effect_insertResource_of_some (by simp [hat])]
              exact refl more t
          | none =>
              rw [effect_insertResource_of_none hat]
              exact
                { refl more t with
                  resource := by
                    intro id found hfound
                    rw [resource?_append, hfound, Option.some_or]
                    exact ⟨found.kind, rfl, fun _ _ => rfl⟩
                  resourceAt := by
                    intro iri found hfound
                    rw [resourceAt?_append, hfound, Option.some_or]
                    exact ⟨found.kind, rfl⟩ }
      | setKind id kind =>
          exact
            { refl more t with
              resource := by
                intro other found hfound
                rw [resource?_setKind, hfound, Option.map_some, kindSet_eq]
                refine ⟨_, rfl, fun _ hknown => if_neg ?_⟩
                intro hsame
                rw [← resource?_eq_id hfound, hsame] at hfound
                exact hknown (hpromotes found hfound)
              resourceAt := by
                intro iri found hfound
                rw [resourceAt?_setKind, hfound, Option.map_some, kindSet_eq]
                exact ⟨_, rfl⟩ }
      | insertActivity row => exact { refl more t with }
      | insertAddressing row => exact { refl more t with }
      | insert table rows =>
          cases table with
          | revisions =>
              exact { refl more t with
                revisions := fun row hrow => List.mem_append_left _ hrow }
          | heads => exact { refl more t with }
          | addressing => exact { refl more t with }
          | relations => exact { refl more t with }
      | update table matching assign => exact absurd hcovered id
      | delete table matching => exact absurd hcovered id
      | truncate table => exact absurd hcovered id
      | insertObject row => exact absurd hcovered id
      | updateObject id assign => exact absurd hcovered fun h => h
      | updateActivity id assign => exact absurd hcovered fun h => h
      | deleteAddressing sourceId => exact absurd hcovered id
  | insertInstance row =>
      rw [Statement.effect]
      split_ifs
      · exact refl more t
      · exact
          { refl more t with
            hosted := by
              intro host found hfound
              rw [instanceAt?_append, hfound, Option.some_or] }
  | lock id => exact refl more t
  | insertActor row => exact { refl more t with }
  | insertObject row =>
      exact
        { refl more t with
          object := by
            intro id found _ hfound
            rw [Statement.effect, object?_append, hfound, Option.some_or] }

end Grown

/-- What a transaction has seen at one point and sees at a later one. -/
structure Later (p q : Point) : Prop where
  held : ∀ key ∈ p.held, key ∈ q.held
  base : Undisturbed p.held p.base q.base
  seen : Grown p.held (seen p) (seen q)

theorem Undisturbed.fewer {held more : List Key} {t t' : Tables}
    (h : Undisturbed more t t') (hmore : ∀ key ∈ held, key ∈ more) :
    Undisturbed held t t' where
  resource hrow := by
    obtain ⟨kind, hrow', hkind⟩ := h.resource hrow
    exact ⟨kind, hrow', fun hheld => hkind (hmore _ hheld)⟩
  resourceAt := h.resourceAt
  absent hheld := h.absent (hmore _ hheld)
  absentAt hheld := h.absentAt (hmore _ hheld)
  object hheld := h.object (hmore _ hheld)
  revisions := h.revisions
  hosted := h.hosted
  absentHost hheld := h.absentHost (hmore _ hheld)

namespace Later

variable {p q r : Point}

theorem trans (h : Later p q) (h' : Later q r) : Later p r :=
  ⟨fun key hkey => h'.held key (h.held key hkey),
    h.base.trans (h'.base.fewer h.held), h.seen.trans h'.seen h.held⟩

theorem of_before (h : p.Before rules q) : Later p q :=
  ⟨fun _ hkey => h.held ▸ hkey, h.base, .of_undisturbed h.view⟩

theorem send {s : Statement} {held : List Key} (hcovered : Covered s held)
    (hpromotes : Grown.Promotes (Inbox.seen p) s) : Later p (p.send control s) where
  held _ hkey := List.mem_append_right _ hkey
  base := Undisturbed.refl _ _
  seen := by
    have hseen : Inbox.seen (p.send control s) = s.effect (Inbox.seen p) :=
      ReadCommitted.Point.view_send p s
    rw [hseen]
    exact Grown.effect hcovered hpromotes

end Later

/-! ## Facts that stay -/

/-- An IRI names the resource of an id. -/
def Named (p : Point) (iri : JsString) (id : Uuid) : Prop :=
  ∃ row, (seen p).resourceAt? iri = some row ∧ row.id = id

/-- A resource that the transaction holds is of some kind. -/
def Kinded (p : Point) (id : Uuid) (kind : ResourceKind) : Prop :=
  .row id ∈ p.held ∧ kind ≠ .unknown ∧
    ∃ row, (seen p).resource? id = some row ∧ row.kind = kind

/-- A resource that the transaction holds has no committed kind. -/
def Unpromoted (p : Point) (id : Uuid) : Prop :=
  .row id ∈ p.held ∧
    ∀ row, p.base.resource? id = some row → row.kind = .unknown

namespace Later

variable {p q : Point}

theorem named (h : Later p q) {iri : JsString} {id : Uuid}
    (hnamed : Named p iri id) : Named q iri id := by
  obtain ⟨row, hrow, hid⟩ := hnamed
  obtain ⟨kind, hrow'⟩ := h.seen.resourceAt hrow
  exact ⟨_, hrow', hid⟩

theorem kinded (h : Later p q) {id : Uuid} {kind : ResourceKind}
    (hkinded : Kinded p id kind) : Kinded q id kind := by
  obtain ⟨hheld, hknown, row, hrow, hkind⟩ := hkinded
  obtain ⟨kind', hrow', hkind'⟩ := h.seen.resource hrow
  exact ⟨h.held _ hheld, hknown, _, hrow',
    (hkind' hheld (hkind.trans_ne hknown)).trans hkind⟩

theorem unpromoted (h : Later p q) {id : Uuid}
    (hunpromoted : Unpromoted p id) : Unpromoted q id := by
  obtain ⟨hheld, hrow⟩ := hunpromoted
  refine ⟨h.held _ hheld, fun row' hrow' => ?_⟩
  cases hbase : p.base.resource? id with
  | none =>
      rw [h.base.absent hheld hbase] at hrow'
      cases hrow'
  | some row =>
      obtain ⟨kind, hsame, hkind⟩ := h.base.resource hbase
      rw [hsame] at hrow'
      rw [← Option.some.inj hrow']
      exact (hkind hheld).trans (hrow row hbase)

end Later

end DrFed.Inbox
