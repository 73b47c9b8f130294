import DrFed.Js.Sorted
import DrFed.Js.Stringify
import DrFed.Js.WellFormed
import DrFed.Support.AssocList

/-!
# Canonical JSON

JSON with sorted keys.  Its text determines a value up to the order of the
members of its objects and the sign of zero, and nothing else.
-/

namespace DrFed

/-! ## Sorted entries -/

section Sorted

variable {α β : Type}

theorem sortByKey_map (f : α → β) (entries : List (JsString × α)) :
    sortByKey (entries.map fun e => (e.1, f e.2)) =
      (sortByKey entries).map fun e => (e.1, f e.2) := by
  symm
  apply List.map_insertionSort
  exact fun a _ b _ => Iff.rfl

theorem perm_of_lookup_eq {entries others : List (JsString × α)}
    (hentries : (entries.map Prod.fst).Nodup)
    (hothers : (others.map Prod.fst).Nodup)
    (h : ∀ key, entries.lookup key = others.lookup key) :
    entries.Perm others := by
  apply (List.perm_ext_iff_of_nodup (hentries.of_map _) (hothers.of_map _)).mpr
  rintro ⟨key, value⟩
  constructor
  · intro hmem
    have hlookup := AssocList.lookup_eq_some_of_mem hentries hmem
    exact AssocList.mem_of_lookup_eq_some (h key ▸ hlookup)
  · intro hmem
    have hlookup := AssocList.lookup_eq_some_of_mem hothers hmem
    exact AssocList.mem_of_lookup_eq_some ((h key).trans hlookup)

/-- Sorting forgets the order of the entries and nothing else. -/
theorem sortByKey_eq_iff {entries others : List (JsString × α)}
    (hentries : (entries.map Prod.fst).Nodup)
    (hothers : (others.map Prod.fst).Nodup) :
    sortByKey entries = sortByKey others ↔
      ∀ key, entries.lookup key = others.lookup key := by
  constructor
  · intro h
    have hperm := (sortByKey_perm entries).symm.trans
      (h ▸ sortByKey_perm others)
    exact AssocList.lookup_perm hperm hentries
  · intro h
    have hperm : (sortByKey entries).Perm (sortByKey others) :=
      (sortByKey_perm entries).trans ((perm_of_lookup_eq hentries hothers
        h).trans (sortByKey_perm others).symm)
    apply List.Perm.eq_of_pairwise _ (sortByKey_pairwise entries)
      (sortByKey_pairwise others) hperm
    rintro ⟨key, value⟩ ⟨other, value'⟩ hmem hmem' hle hle'
    obtain rfl := keyLe_antisymm hle hle'
    have hlookup := AssocList.lookup_eq_some_of_mem hentries
      ((sortByKey_perm entries).mem_iff.mp hmem)
    have hlookup' := AssocList.lookup_eq_some_of_mem hothers
      ((sortByKey_perm others).mem_iff.mp hmem')
    rw [h key, hlookup'] at hlookup
    rw [Option.some.inj hlookup]

end Sorted

/-! ## Canonical texts -/

/-- `join(",")` -/
def joinTexts : List JsString → JsString
  | [] => []
  | [text] => text
  | text :: rest => text ++ JsonText.comma :: joinTexts rest

namespace Json

section Numeral

variable (numeral : ℚ → Numeral)

mutual

/-- JSON with sorted keys, so that equal values have one text. -/
def canonicalJson : Json → JsString
  | .arr items =>
      JsonText.openBracket ::
        (joinTexts (canonicalItems items) ++ [JsonText.closeBracket])
  | .obj ms =>
      JsonText.openBrace ::
        (joinTexts ((sortByKey (canonicalMembers ms)).map fun entry =>
          quote entry.1 ++ JsonText.colon :: entry.2) ++ [JsonText.closeBrace])
  | value => value.stringify numeral

def canonicalItems : List Json → List JsString
  | [] => []
  | item :: rest => item.canonicalJson :: canonicalItems rest

/-- The texts of the members, under their keys. -/
def canonicalMembers : List (JsString × Json) → List (JsString × JsString)
  | [] => []
  | entry :: rest => (entry.1, entry.2.canonicalJson) :: canonicalMembers rest

end

end Numeral

mutual

/-- The same value with the keys of every object in order. -/
def sortKeys : Json → Json
  | .arr items => .arr (sortKeysItems items)
  | .obj ms => .obj (sortByKey (sortKeysMembers ms))
  | value => value

def sortKeysItems : List Json → List Json
  | [] => []
  | item :: rest => item.sortKeys :: sortKeysItems rest

def sortKeysMembers : List (JsString × Json) → List (JsString × Json)
  | [] => []
  | entry :: rest => (entry.1, entry.2.sortKeys) :: sortKeysMembers rest

end

theorem sortKeysItems_eq (items : List Json) :
    sortKeysItems items = items.map sortKeys := by
  induction items with
  | nil => rfl
  | cons item rest ih => rw [sortKeysItems, ih, List.map_cons]

theorem sortKeysMembers_eq (ms : List (JsString × Json)) :
    sortKeysMembers ms = ms.map fun entry => (entry.1, entry.2.sortKeys) := by
  induction ms with
  | nil => rfl
  | cons entry rest ih => rw [sortKeysMembers, ih, List.map_cons]

theorem unsignedItems_eq (items : List Json) :
    unsignedItems items = items.map unsigned := by
  induction items with
  | nil => rfl
  | cons item rest ih => rw [unsignedItems, ih, List.map_cons]

theorem unsignedMembers_eq (ms : List (JsString × Json)) :
    unsignedMembers ms = ms.map fun entry => (entry.1, entry.2.unsigned) := by
  induction ms with
  | nil => rfl
  | cons entry rest ih => rw [unsignedMembers, ih, List.map_cons]

section Text

variable {numeral : ℚ → Numeral}

theorem writeItems_eq (items : List Json) :
    JsonText.writeItems (textItems numeral (unsignedItems items)) =
      items.flatMap (fun item => JsonText.comma :: item.stringify numeral) ++
        [JsonText.closeBracket] := by
  induction items with
  | nil => rfl
  | cons item rest ih =>
      rw [unsignedItems, textItems, JsonText.writeItems, ih, List.flatMap_cons]
      simp [stringify]

theorem writeMembers_eq (ms : List (JsString × Json)) :
    JsonText.writeMembers (textMembers numeral (unsignedMembers ms)) =
      ms.flatMap (fun entry => JsonText.comma ::
        (quote entry.1 ++ JsonText.colon :: entry.2.stringify numeral)) ++
        [JsonText.closeBrace] := by
  induction ms with
  | nil => rfl
  | cons entry rest ih =>
      rw [unsignedMembers, textMembers, JsonText.writeMembers, ih,
        List.flatMap_cons]
      simp [stringify]

theorem joinTexts_cons (text : JsString) (texts : List JsString) :
    joinTexts (text :: texts) =
      text ++ texts.flatMap fun t => JsonText.comma :: t := by
  induction texts generalizing text with
  | nil => simp [joinTexts]
  | cons next rest ih =>
      rw [joinTexts, ih next, List.flatMap_cons]
      · rfl
      · simp

theorem stringify_arr (items : List Json) :
    (Json.arr items).stringify numeral =
      JsonText.openBracket ::
        (joinTexts (items.map fun item => item.stringify numeral) ++
          [JsonText.closeBracket]) := by
  rcases items with _ | ⟨item, rest⟩
  · rfl
  · rw [List.map_cons, joinTexts_cons, List.flatMap_map, stringify,
      unsigned, unsignedItems, text, textItems, JsonText.write,
      writeItems_eq, stringify, List.append_assoc]

theorem stringify_obj (ms : List (JsString × Json)) :
    (Json.obj ms).stringify numeral =
      JsonText.openBrace ::
        (joinTexts (ms.map fun entry =>
          quote entry.1 ++ JsonText.colon :: entry.2.stringify numeral) ++
          [JsonText.closeBrace]) := by
  rcases ms with _ | ⟨entry, rest⟩
  · rfl
  · rw [List.map_cons, joinTexts_cons, List.flatMap_map, stringify,
      unsigned, unsignedMembers, text, textMembers, JsonText.write,
      writeMembers_eq, stringify]
    simp

mutual

/-- The canonical text is the text of the value with sorted keys. -/
theorem canonicalJson_eq : (t : Json) →
    t.canonicalJson numeral = t.sortKeys.stringify numeral
  | .null => rfl
  | .bool _ => rfl
  | .num _ => rfl
  | .str _ => rfl
  | .arr items => by
      rw [canonicalJson, sortKeys, stringify_arr, canonicalItems_eq items]
  | .obj ms => by
      rw [canonicalJson, sortKeys, stringify_obj, canonicalMembers_eq ms,
        sortByKey_map, List.map_map]
      rfl

theorem canonicalItems_eq : (items : List Json) →
    canonicalItems numeral items =
      (sortKeysItems items).map fun item => item.stringify numeral
  | [] => rfl
  | item :: rest => by
      rw [canonicalItems, sortKeysItems, List.map_cons, canonicalJson_eq item,
        canonicalItems_eq rest]

theorem canonicalMembers_eq : (ms : List (JsString × Json)) →
    canonicalMembers numeral ms = (sortKeysMembers ms).map fun entry =>
      (entry.1, entry.2.stringify numeral)
  | [] => rfl
  | entry :: rest => by
      rw [canonicalMembers, sortKeysMembers, List.map_cons,
        canonicalJson_eq entry.2, canonicalMembers_eq rest]

end

end Text

/-! ## Values that are alike -/

mutual

/-- The same value up to the order of the members of its objects and the sign
of zero. -/
def Alike : Json → Json → Prop
  | .null, .null => True
  | .bool a, .bool b => a = b
  | .num a, .num b => a.unsigned = b.unsigned
  | .str a, .str b => a = b
  | .arr items, .arr others => AlikeItems items others
  | .obj ms, .obj others =>
      AlikeMembers ms others ∧
        ∀ key ∈ others.map Prod.fst, key ∈ ms.map Prod.fst
  | _, _ => False

def AlikeItems : List Json → List Json → Prop
  | [], [] => True
  | item :: rest, other :: others => item.Alike other ∧ AlikeItems rest others
  | _, _ => False

/-- Every member has a member like it under its key. -/
def AlikeMembers : List (JsString × Json) → List (JsString × Json) → Prop
  | [], _ => True
  | entry :: rest, others =>
      (∃ other, others.lookup entry.1 = some other ∧ entry.2.Alike other) ∧
        AlikeMembers rest others

end

/-- The form that the canonical text spells. -/
def canonical (value : Json) : Json := value.sortKeys.unsigned

theorem canonical_arr (items : List Json) :
    canonical (.arr items) = .arr (items.map canonical) := by
  rw [canonical, sortKeys, unsigned, unsignedItems_eq, sortKeysItems_eq,
    List.map_map]
  rfl

theorem canonical_obj (ms : List (JsString × Json)) :
    canonical (.obj ms) =
      .obj (sortByKey (ms.map fun entry => (entry.1, entry.2.canonical))) := by
  rw [canonical, sortKeys, unsigned, unsignedMembers_eq, sortKeysMembers_eq,
    ← sortByKey_map, List.map_map]
  rfl

theorem alikeMembers_iff {ms others : List (JsString × Json)} :
    AlikeMembers ms others ↔ ∀ entry ∈ ms,
      ∃ other, others.lookup entry.1 = some other ∧ entry.2.Alike other := by
  induction ms with
  | nil => simp [AlikeMembers]
  | cons entry rest ih => rw [AlikeMembers, ih, List.forall_mem_cons]

/-- Records have the same values when each member of the one has its value in
the other and no key is left. -/
theorem lookup_map_eq_iff {α β : Type} {f : α → β}
    {entries others : List (JsString × α)}
    (hnodup : (entries.map Prod.fst).Nodup) :
    (∀ key, (entries.map fun e => (e.1, f e.2)).lookup key =
        (others.map fun e => (e.1, f e.2)).lookup key) ↔
      (∀ entry ∈ entries,
        ∃ other, others.lookup entry.1 = some other ∧ f entry.2 = f other) ∧
      ∀ key ∈ others.map Prod.fst, key ∈ entries.map Prod.fst := by
  simp only [AssocList.lookup_map]
  constructor
  · intro h
    constructor
    · rintro ⟨key, value⟩ hmem
      have hkey := h key
      rw [AssocList.lookup_eq_some_of_mem hnodup hmem, Option.map_some] at hkey
      obtain ⟨other, hother, hvalue⟩ := Option.map_eq_some_iff.mp hkey.symm
      exact ⟨other, hother, hvalue.symm⟩
    · intro key hmem
      by_contra hmissing
      have hkey := h key
      rw [AssocList.lookup_eq_none_iff.mpr hmissing] at hkey
      exact AssocList.lookup_eq_none_iff.mp
        (Option.map_eq_none_iff.mp hkey.symm) hmem
  · rintro ⟨hentries, hothers⟩ key
    match hlookup : entries.lookup key with
    | some value =>
        obtain ⟨other, hother, hvalue⟩ :=
          hentries _ (AssocList.mem_of_lookup_eq_some hlookup)
        rw [hother, Option.map_some, Option.map_some, hvalue]
    | none =>
        have hmissing : key ∉ others.map Prod.fst := fun hmem =>
          AssocList.lookup_eq_none_iff.mp hlookup (hothers key hmem)
        rw [AssocList.lookup_eq_none_iff.mpr hmissing]

theorem nodup_canonical {ms : List (JsString × Json)}
    (h : (ms.map Prod.fst).Nodup) :
    ((ms.map fun entry => (entry.1, entry.2.canonical)).map
      Prod.fst).Nodup := by
  rw [List.map_map]
  exact h

mutual

theorem canonical_eq_iff : (t u : Json) → t.Distinct → u.Distinct →
    (t.canonical = u.canonical ↔ t.Alike u)
  | .null, u, _, _ | .bool _, u, _, _ | .num _, u, _, _ | .str _, u, _, _ => by
      cases u <;> simp [canonical, sortKeys, unsigned, Alike]
  | .arr items, u, ht, hu => by
      cases u with
      | arr others =>
          rw [canonical_arr, canonical_arr, Json.arr.injEq, Alike,
            canonicalItems_eq_iff items others ht hu]
      | _ => simp [canonical, sortKeys, unsigned, Alike]
  | .obj ms, u, ht, hu => by
      cases u with
      | obj others =>
          rw [distinct_obj] at ht hu
          rw [canonical_obj, canonical_obj, Json.obj.injEq,
            sortByKey_eq_iff (nodup_canonical ht.1) (nodup_canonical hu.1),
            lookup_map_eq_iff ht.1, Alike,
            canonicalMembers_eq_iff ms others ht.2 hu.2]
      | _ => simp [canonical, sortKeys, unsigned, Alike]

theorem canonicalItems_eq_iff : (items others : List Json) →
    (Json.arr items).Distinct → (Json.arr others).Distinct →
    (items.map canonical = others.map canonical ↔ AlikeItems items others)
  | [], [], _, _ => by simp [AlikeItems]
  | [], _ :: _, _, _ | _ :: _, [], _, _ => by simp [AlikeItems]
  | item :: rest, other :: others, ht, hu => by
      rw [distinct_arr, List.forall_mem_cons] at ht hu
      rw [List.map_cons, List.map_cons, List.cons.injEq, AlikeItems,
        canonical_eq_iff item other ht.1 hu.1,
        canonicalItems_eq_iff rest others (distinct_arr.mpr ht.2)
          (distinct_arr.mpr hu.2)]

theorem canonicalMembers_eq_iff : (ms others : List (JsString × Json)) →
    (∀ entry ∈ ms, entry.2.Distinct) → (∀ entry ∈ others, entry.2.Distinct) →
    ((∀ entry ∈ ms, ∃ other, others.lookup entry.1 = some other ∧
        entry.2.canonical = other.canonical) ↔ AlikeMembers ms others)
  | [], _, _, _ => by simp [AlikeMembers]
  | entry :: rest, others, ht, hu => by
      rw [List.forall_mem_cons] at ht
      rw [List.forall_mem_cons, AlikeMembers,
        canonicalMembers_eq_iff rest others ht.2 hu]
      apply and_congr_left'
      apply exists_congr
      intro other
      apply and_congr_right
      intro hlookup
      exact canonical_eq_iff entry.2 other ht.1
        (hu _ (AssocList.mem_of_lookup_eq_some hlookup))

end

mutual

theorem Doubles.sortKeys : (t : Json) → t.Doubles → t.sortKeys.Doubles
  | .null, _ | .bool _, _ | .str _, _ => trivial
  | .num _, h => h
  | .arr items, h => Doubles.sortKeysItems items h
  | .obj ms, h => by
      rw [Json.sortKeys]
      apply everyNumber_obj.mpr
      intro entry hentry
      exact everyNumberMembers_iff.mp (Doubles.sortKeysMembers ms h) entry
        ((sortByKey_perm _).mem_iff.mp hentry)

theorem Doubles.sortKeysItems : (items : List Json) →
    EveryNumberItems JsNumber.IsDouble items →
    EveryNumberItems JsNumber.IsDouble (Json.sortKeysItems items)
  | [], _ => trivial
  | item :: rest, h =>
      ⟨Doubles.sortKeys item h.1, Doubles.sortKeysItems rest h.2⟩

theorem Doubles.sortKeysMembers : (ms : List (JsString × Json)) →
    EveryNumberMembers JsNumber.IsDouble ms →
    EveryNumberMembers JsNumber.IsDouble (Json.sortKeysMembers ms)
  | [], _ => trivial
  | entry :: rest, h =>
      ⟨Doubles.sortKeys entry.2 h.1, Doubles.sortKeysMembers rest h.2⟩

end

section Round

variable {numeral : ℚ → Numeral} (hnumbers : WritesNumbers numeral)

include hnumbers

theorem isWellFormed_stringify {t : Json} (h : t.Doubles) :
    IsWellFormed (t.stringify numeral) := by
  apply JsonText.isWellFormed_write
  exact doubles_formed hnumbers _ (Doubles.unsigned t h)

theorem isWellFormed_canonicalJson {t : Json} (h : t.Doubles) :
    IsWellFormed (t.canonicalJson numeral) := by
  rw [canonicalJson_eq]
  exact isWellFormed_stringify hnumbers (Doubles.sortKeys t h)

/-- Values have one canonical text exactly when they are alike. -/
theorem canonicalJson_eq_iff {t u : Json} (ht : t.Doubles) (hu : u.Doubles)
    (htree : t.Distinct) (hother : u.Distinct) :
    t.canonicalJson numeral = u.canonicalJson numeral ↔ t.Alike u := by
  rw [canonicalJson_eq, canonicalJson_eq, ← canonical_eq_iff t u htree hother]
  exact stringify_eq_iff hnumbers (Doubles.sortKeys t ht) (Doubles.sortKeys u hu)

end Round

section Alike

variable {ms others : List (JsString × Json)}

/-- Records with the same keys are alike when their values are. -/
theorem alike_obj_iff (hkeys : ms.map Prod.fst = others.map Prod.fst)
    (hnodup : (ms.map Prod.fst).Nodup) :
    (Json.obj ms).Alike (.obj others) ↔
      List.Forall₂ (fun m other => m.2.Alike other.2) ms others := by
  have hothers : (others.map Prod.fst).Nodup := hkeys ▸ hnodup
  have hmembers : ∀ {part rest : List (JsString × Json)},
      part.map Prod.fst = rest.map Prod.fst → rest ⊆ others →
      ((∀ entry ∈ part, ∃ other, others.lookup entry.1 = some other ∧
          entry.2.Alike other) ↔
        List.Forall₂ (fun m other => m.2.Alike other.2) part rest) := by
    intro part
    induction part with
    | nil =>
        intro rest hsame _
        obtain rfl := List.map_eq_nil_iff.mp hsame.symm
        simp
    | cons entry part ih =>
        intro rest hsame hsub
        match rest with
        | [] => cases hsame
        | other :: rest =>
            rw [List.map_cons, List.map_cons, List.cons.injEq] at hsame
            rw [List.cons_subset] at hsub
            have hlookup : others.lookup entry.1 = some other.2 := by
              rw [hsame.1]
              exact AssocList.lookup_eq_some_of_mem hothers hsub.1
            rw [List.forall_mem_cons, List.forall₂_cons, ih hsame.2 hsub.2,
              hlookup]
            simp
  rw [Json.Alike, Json.alikeMembers_iff, hmembers hkeys (List.Subset.refl _),
    and_iff_left]
  intro key hkey
  rwa [hkeys]

theorem Alike.lookup (h : (Json.obj ms).Alike (.obj others))
    {key : JsString} {value : Json} (hvalue : ms.lookup key = some value) :
    ∃ other, others.lookup key = some other ∧ value.Alike other := by
  rw [Json.Alike, Json.alikeMembers_iff] at h
  exact h.1 (key, value) (AssocList.mem_of_lookup_eq_some hvalue)

end Alike

@[simp] theorem alike_str {text other : JsString} :
    (Json.str text).Alike (.str other) ↔ text = other := by
  rw [Alike]

@[simp] theorem alike_bool {a b : Bool} :
    (Json.bool a).Alike (.bool b) ↔ a = b := by
  rw [Alike]

theorem alike_arr {items others : List Json} :
    (Json.arr items).Alike (.arr others) ↔
      List.Forall₂ Alike items others := by
  rw [Alike]
  induction items generalizing others with
  | nil =>
      match others with
      | [] => simp [AlikeItems]
      | _ :: _ => simp [AlikeItems]
  | cons item rest ih =>
      match others with
      | [] => simp [AlikeItems]
      | other :: others => rw [AlikeItems, ih, List.forall₂_cons]

end Json

end DrFed
