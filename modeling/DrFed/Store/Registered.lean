import DrFed.Store.Append

/-!
# What the registry operations do

The resources and addressing rows after an IRI was registered and after the
addressing of a resource was replaced.
-/

namespace DrFed.Store

open Transactions Program

section Registered

variable {t : Tables}

/-- New resources were registered, as unknown, and nothing else changed. -/
def Registers (t after : Tables) : Prop :=
  ∃ extra : List Resource, (∀ row ∈ extra, row.kind = .unknown) ∧
    after = { t with resources := t.resources ++ extra }

theorem Registers.refl (t : Tables) : Registers t t :=
  ⟨[], by simp, by rw [List.append_nil]⟩

theorem Registers.trans {t₁ t₂ t₃ : Tables} (h₁ : Registers t₁ t₂)
    (h₂ : Registers t₂ t₃) : Registers t₁ t₃ := by
  obtain ⟨extra, hextra, rfl⟩ := h₁
  obtain ⟨more, hmore, rfl⟩ := h₂
  refine ⟨extra ++ more, ?_, by simp⟩
  intro row hrow
  rcases List.mem_append.mp hrow with hrow | hrow
  · exact hextra row hrow
  · exact hmore row hrow

/-- A registered IRI stays registered as the same resource. -/
theorem Registers.resourceAt? {t after : Tables} (h : Registers t after)
    {iri : JsString} {row : Resource} (hrow : t.resourceAt? iri = some row) :
    after.resourceAt? iri = some row := by
  obtain ⟨extra, -, rfl⟩ := h
  have happend : Tables.resourceAt?
      { t with resources := t.resources ++ extra } iri =
      (t.resourceAt? iri).or (extra.find? fun other => other.iri == iri) :=
    List.find?_append
  rw [happend, hrow]
  rfl

theorem ensureResource_ensures (iri : JsString) (id : Uuid) :
    (ensureResource iri id).Ensures engine NotGuard t fun resource after =>
      Registers t after ∧ after.resourceAt? iri = some resource := by
  unfold ensureResource
  rw [ensures_bind, ensures_read]
  split
  next existing hexisting => exact ⟨.refl t, hexisting⟩
  next hnone =>
    rw [ensures_bind, ensures_send]
    split
    next error herror =>
      simp only [engine, Statement.execute] at herror
      split_ifs at herror
      cases herror
      exact notGuard_constraint _
    next after hafter =>
      have heffect : after =
          (Statement.insertResource ⟨id, iri, .unknown⟩).effect t :=
        engine.execute_effect hafter
      rw [Statement.effect, hnone, Option.isSome_none, if_neg (by simp)]
        at heffect
      have hregisters : Registers t after :=
        ⟨[⟨id, iri, .unknown⟩], by simp, heffect⟩
      rw [ensures_bind, ensures_read]
      split
      next inserted hinserted => exact ⟨hregisters, hinserted⟩
      next => exact notGuard_revision _

/-- The targets of registered IRIs. -/
def Targets (t : Tables) (targets : List (JsString × Uuid)) : Prop :=
  ∀ target ∈ targets, ∃ resource, t.resourceAt? target.1 = some resource ∧
    resource.id = target.2

theorem ensureResources_ensures (ids : FreshIds) (iris : List JsString) :
    (ensureResources ids iris).Ensures engine NotGuard t fun targets after =>
      Registers t after ∧ Targets after targets := by
  induction iris generalizing t with
  | nil => exact ⟨.refl t, by simp [Targets]⟩
  | cons iri rest ih =>
      unfold ensureResources
      rw [ensures_bind]
      refine (ensureResource_ensures iri (ids.resource iri)).weaken ?_
      rintro resource after ⟨hregisters, hresource⟩
      rw [ensures_bind]
      refine ih.weaken ?_
      rintro targets last ⟨hmore, htargets⟩
      refine ⟨hregisters.trans hmore, ?_⟩
      intro target htarget
      rcases List.mem_cons.mp htarget with rfl | htarget
      · exact ⟨resource, hmore.resourceAt? hresource, rfl⟩
      · exact htargets target htarget

/-- The addressing rows that occurrences are stored as. -/
def Stored (t : Tables) (sourceId : Uuid)
    (occurrences : List AddressingOccurrence) (rows : List Addressing) :
    Prop :=
  List.Forall₂ (fun occurrence row =>
    row.sourceId = sourceId ∧ row.property = occurrence.property ∧
      row.position = occurrence.position ∧
      ∃ resource, t.resourceAt? occurrence.iri = some resource ∧
        resource.id = row.targetId) occurrences rows

theorem insertOccurrences_ensures (ids : FreshIds) (sourceId : Uuid)
    {targets : List (JsString × Uuid)} (htargets : Targets t targets)
    (n : ℕ) (occurrences : List AddressingOccurrence) :
    (insertOccurrences ids sourceId targets n occurrences).Ensures engine
      NotGuard t fun _ after => ∃ rows, Stored t sourceId occurrences rows ∧
        after = { t with addressing := t.addressing ++ rows } := by
  induction occurrences generalizing t n with
  | nil => exact ⟨[], .nil, by rw [List.append_nil]⟩
  | cons occurrence rest ih =>
      unfold insertOccurrences
      split
      next => exact notGuard_revision _
      next targetId htarget =>
        rw [ensures_bind, ensures_send]
        split
        next error herror =>
          simp only [engine, Statement.execute] at herror
          split_ifs at herror <;> cases herror <;> exact notGuard_constraint _
        next after hafter =>
          let row : Addressing := ⟨ids.addressing n, sourceId,
            occurrence.property, occurrence.position, targetId⟩
          obtain rfl : after = { t with addressing := t.addressing ++ [row] } :=
            engine.execute_effect hafter
          refine Ensures.weaken (ih ?_ (n + 1)) ?_
          · exact htargets
          rintro _ _ ⟨rows, hrows, rfl⟩
          refine ⟨row :: rows, .cons ⟨rfl, rfl, rfl, ?_⟩ hrows, by simp⟩
          exact htargets _ (AssocList.mem_of_lookup_eq_some htarget)

theorem storeAddressingOccurrences_ensures (ids : FreshIds) (sourceId : Uuid)
    (occurrences : List AddressingOccurrence) :
    (storeAddressingOccurrences ids sourceId occurrences).Ensures engine
      NotGuard t fun _ after => ∃ extra rows,
        (∀ row ∈ extra, row.kind = .unknown) ∧
        after = { t with
          resources := t.resources ++ extra
          addressing := t.addressing ++ rows } ∧
        Stored after sourceId occurrences rows := by
  unfold storeAddressingOccurrences
  rw [ensures_bind, ensures_require]
  split
  next =>
    dsimp only
    rw [ensures_bind]
    refine (ensureResources_ensures ids _).weaken ?_
    rintro targets _ ⟨⟨extra, hextra, rfl⟩, htargets⟩
    refine (insertOccurrences_ensures ids sourceId htargets 0
      occurrences).weaken ?_
    rintro _ _ ⟨rows, hrows, rfl⟩
    exact ⟨extra, rows, hextra, rfl, hrows⟩
  next error herror =>
    obtain ⟨inner, -, rfl⟩ := Option.map_eq_some_iff.mp herror
    exact notGuard_revision _

/-- Replacing the addressing of a resource keeps the rows of others. -/
theorem replaceAddressing_ensures (ids : FreshIds) (sourceId : Uuid)
    (occurrences : List AddressingOccurrence) :
    (replaceAddressing ids sourceId occurrences).Ensures engine NotGuard t
      fun _ after => ∃ extra rows,
        (∀ row ∈ extra, row.kind = .unknown) ∧
        after = { t with
          resources := t.resources ++ extra
          addressing := (t.addressing.filter fun row =>
            row.sourceId != sourceId) ++ rows } ∧
        Stored after sourceId occurrences rows := by
  unfold replaceAddressing
  rw [ensures_bind, ensures_require]
  split
  next =>
    rw [ensures_bind, ensures_send]
    exact storeAddressingOccurrences_ensures ids sourceId occurrences
  next error herror =>
    obtain ⟨inner, -, rfl⟩ := Option.map_eq_some_iff.mp herror
    exact notGuard_revision _

end Registered

end DrFed.Store
