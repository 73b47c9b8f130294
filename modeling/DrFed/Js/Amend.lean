import DrFed.Js.Path

/-!
# Amending several positions at once

A set of amendments says for each position of a tree whether it is kept,
dropped, or replaced.  They apply from the top: nothing is looked up below a
position that is dropped or replaced.
-/

namespace DrFed

inductive Amendment where
  | keep
  | drop
  | put (value : Json)

/-- The amendments of a tree, by position. -/
abbrev Amendments := FieldPath → Amendment

namespace Amendments

/-- The amendments below a position. -/
def below (ρ : Amendments) (segment : Segment) : Amendments :=
  fun path => ρ (segment :: path)

/-- The amendments below a path. -/
def beneath (ρ : Amendments) (path : FieldPath) : Amendments :=
  fun rest => ρ (path ++ rest)

@[simp] theorem beneath_nil (ρ : Amendments) : ρ.beneath [] = ρ := rfl

theorem beneath_apply (ρ : Amendments) (path rest : FieldPath) :
    ρ.beneath path rest = ρ (path ++ rest) := rfl

theorem below_beneath (ρ : Amendments) (path : FieldPath) (segment : Segment) :
    (ρ.beneath path).below segment = ρ.beneath (path ++ [segment]) := by
  funext rest
  simp [below, beneath]

/-- One set of amendments applied over the result of another. -/
def onto (outer inner : Amendments) : Amendments := fun path =>
  match outer path with
  | .keep => inner path
  | amendment => amendment

/-- A single amendment. -/
def single (path : FieldPath) (amendment : Amendment) : Amendments := fun other =>
  if other = path then amendment else .keep

/-- The outer amendments are nowhere at or below an inner one. -/
def Clear (outer inner : Amendments) : Prop :=
  ∀ q r, outer q ≠ .keep → r <+: q → r ≠ [] → inner r = .keep

theorem Clear.below {outer inner : Amendments}
    (h : outer.Clear inner) (segment : Segment) :
    (outer.below segment).Clear (inner.below segment) :=
  fun q r hq hr _ => h (segment :: q) (segment :: r) hq
    ((List.prefix_cons_inj segment).mpr hr) (List.cons_ne_nil _ _)

/-- Below an inner amendment, the outer ones do nothing. -/
theorem Clear.keep {outer inner : Amendments}
    (h : outer.Clear inner) {segment : Segment}
    (hinner : inner [segment] ≠ .keep) (q : FieldPath) :
    outer (segment :: q) = .keep := by
  by_contra hne
  exact hinner (h (segment :: q) [segment] hne (by simp)
    (List.cons_ne_nil _ _))

theorem below_onto (outer inner : Amendments) (segment : Segment) :
    (outer.onto inner).below segment =
      (outer.below segment).onto (inner.below segment) := rfl

end Amendments

namespace Json

mutual

/-- A value with the positions below it amended. -/
def amend (ρ : Amendments) : Json → Json
  | .arr items => .arr (amendItems ρ 0 items)
  | .obj ms => .obj (amendMembers ρ ms)
  | value => value

/-- The items of a list from an index on.  An item is never dropped. -/
def amendItems (ρ : Amendments) (i : ℕ) : List Json → List Json
  | [] => []
  | item :: rest =>
      (match ρ [.index i] with
        | .put value => value
        | _ => amend (ρ.below (.index i)) item) :: amendItems ρ (i + 1) rest

def amendMembers (ρ : Amendments) :
    List (JsString × Json) → List (JsString × Json)
  | [] => []
  | (key, member) :: rest =>
      match ρ [.key key] with
      | .drop => amendMembers ρ rest
      | .put value => (key, value) :: amendMembers ρ rest
      | .keep => (key, amend (ρ.below (.key key)) member) :: amendMembers ρ rest

end

/-- What becomes of the value at a position. -/
def amendChild (ρ : Amendments) (segment : Segment) (child : Json) : Json :=
  match ρ [segment] with
  | .put value => value
  | _ => amend (ρ.below segment) child

/-- What becomes of a member. -/
def amendMember (ρ : Amendments) (entry : JsString × Json) :
    Option (JsString × Json) :=
  match ρ [.key entry.1] with
  | .drop => none
  | _ => some (entry.1, amendChild ρ (.key entry.1) entry.2)

theorem amendItems_eq (ρ : Amendments) (i : ℕ) (items : List Json) :
    amendItems ρ i items = (items.zipIdx i).map fun entry =>
      amendChild ρ (.index entry.2) entry.1 := by
  induction items generalizing i with
  | nil => rfl
  | cons item rest ih =>
      rw [amendItems, List.zipIdx_cons, List.map_cons, ih]
      rfl

theorem amendMembers_eq (ρ : Amendments) (ms : List (JsString × Json)) :
    amendMembers ρ ms = ms.filterMap (amendMember ρ) := by
  induction ms with
  | nil => rfl
  | cons entry rest ih =>
      obtain ⟨key, member⟩ := entry
      rw [amendMembers, List.filterMap_cons, ih]
      cases h : ρ [.key key] <;> simp [amendMember, amendChild, h]

theorem amend_arr (ρ : Amendments) (items : List Json) :
    (Json.arr items).amend ρ = .arr (items.zipIdx.map fun entry =>
      amendChild ρ (.index entry.2) entry.1) := by
  rw [amend, amendItems_eq]

theorem amend_obj (ρ : Amendments) (ms : List (JsString × Json)) :
    (Json.obj ms).amend ρ = .obj (ms.filterMap (amendMember ρ)) := by
  rw [amend, amendMembers_eq]

/-- What becomes of the value at a path. -/
def amendAt (ρ : Amendments) (value : Json) (path : FieldPath) : Json :=
  match ρ path with
  | .put value => value
  | _ => value.amend (ρ.beneath path)

theorem amendChild_beneath (ρ : Amendments) (path : FieldPath)
    (segment : Segment) (child : Json) :
    amendChild (ρ.beneath path) segment child =
      amendAt ρ child (path ++ [segment]) := by
  unfold amendChild amendAt
  rw [Amendments.beneath_apply, Amendments.below_beneath]

/-! ## Reading an amended value -/

theorem amendChild_keep {ρ : Amendments} {segment : Segment}
    (h : ρ [segment] = .keep) (child : Json) :
    amendChild ρ segment child = child.amend (ρ.below segment) := by
  simp [amendChild, h]

theorem amendChild_put {ρ : Amendments} {segment : Segment}
    {value : Json} (h : ρ [segment] = .put value) (child : Json) :
    amendChild ρ segment child = value := by
  simp [amendChild, h]

theorem lookup_amendMembers (ρ : Amendments) (ms : List (JsString × Json))
    (key : JsString) (h : ρ [.key key] ≠ .drop) :
    (ms.filterMap (amendMember ρ)).lookup key =
      (ms.lookup key).map (amendChild ρ (.key key)) := by
  induction ms with
  | nil => rfl
  | cons entry rest ih =>
      obtain ⟨other, member⟩ := entry
      by_cases hkey : key = other
      · subst hkey
        cases hρ : ρ [.key key] with
        | drop => exact absurd hρ h
        | keep => simp [amendMember, hρ]
        | put value => simp [amendMember, hρ]
      · rw [List.filterMap_cons, AssocList.lookup_cons_eq key (other, member),
          if_neg hkey, ← ih]
        cases hρ : ρ [.key other] <;>
          simp [amendMember, hρ, AssocList.lookup_cons_eq, hkey]

theorem child?_amend (ρ : Amendments) (value : Json) (segment : Segment)
    (h : ρ [segment] ≠ .drop) :
    (value.amend ρ).child? segment =
      (value.child? segment).map (amendChild ρ segment) := by
  cases value with
  | obj ms =>
      rw [amend_obj]
      cases segment with
      | key name => exact lookup_amendMembers ρ ms name h
      | index i => rfl
  | arr items =>
      rw [amend_arr]
      cases segment with
      | key name => rfl
      | index i =>
          simp only [child?, List.getElem?_map, List.getElem?_zipIdx]
          cases items[i]? <;> simp
  | _ => rfl

/-- Above every amendment, a value keeps its positions. -/
theorem get?_amend (ρ : Amendments) (value : Json) (p : FieldPath)
    (h : ∀ q, q <+: p → q ≠ [] → ρ q = .keep) :
    (value.amend ρ).get? p =
      (value.get? p).map fun child => child.amend fun q => ρ (p ++ q) := by
  induction p generalizing value ρ with
  | nil => simp
  | cons segment rest ih =>
      have hhead : ρ [segment] = .keep :=
        h [segment] (by simp) (List.cons_ne_nil _ _)
      have hbelow : ∀ q, q <+: rest → q ≠ [] →
          (ρ.below segment) q = .keep := fun q hq _ =>
        h (segment :: q) ((List.prefix_cons_inj segment).mpr hq)
          (List.cons_ne_nil _ _)
      rw [get?_cons, get?_cons, child?_amend ρ value segment
        (by rw [hhead]; exact fun heq => nomatch heq)]
      cases value.child? segment with
      | none => rfl
      | some child =>
          simp only [Option.map_some, Option.bind_some, amendChild_keep hhead]
          exact ih (ρ.below segment) child hbelow

/-- What is put at a position that was there is found there. -/
theorem get?_amend_put (ρ : Amendments) (value : Json) (p : FieldPath)
    (hp : p ≠ []) {replacement : Json} (hput : ρ p = .put replacement)
    (h : ∀ q, q <+: p → q ≠ [] → q ≠ p → ρ q = .keep)
    (hpresent : (value.get? p).isSome = true) :
    (value.amend ρ).get? p = some replacement := by
  obtain ⟨q, segment, rfl⟩ : ∃ q segment, p = q ++ [segment] :=
    ⟨p.dropLast, p.getLast hp, (List.dropLast_append_getLast hp).symm⟩
  have hkeep : ∀ r, r <+: q → r ≠ [] → ρ r = .keep := by
    intro r hr hne
    refine h r (hr.trans (List.prefix_append _ _)) hne fun heq => ?_
    have := hr.length_le
    rw [heq, List.length_append, List.length_singleton] at this
    omega
  rw [get?_concat] at hpresent ⊢
  rw [get?_amend ρ value q hkeep]
  cases hchild : value.get? q with
  | none => simp [hchild] at hpresent
  | some child =>
      rw [hchild, Option.bind_some] at hpresent
      rw [Option.map_some, Option.bind_some, child?_amend _ _ _
        (by rw [hput]; exact fun heq => nomatch heq)]
      obtain ⟨found, hfound⟩ := Option.isSome_iff_exists.mp hpresent
      rw [hfound, Option.map_some, amendChild_put hput]

/-! ## Amendments that do nothing, and amendments after one another -/

mutual

theorem amend_of_keep (ρ : Amendments) (h : ∀ q, q ≠ [] → ρ q = .keep) :
    (value : Json) → value.amend ρ = value
  | .arr items => by
      rw [amend, amendItems_of_keep ρ h]
  | .obj ms => by
      rw [amend, amendMembers_of_keep ρ h]
  | .null | .bool _ | .num _ | .str _ => rfl

theorem amendItems_of_keep (ρ : Amendments) (h : ∀ q, q ≠ [] → ρ q = .keep)
    (i : ℕ) : (items : List Json) → amendItems ρ i items = items
  | [] => rfl
  | item :: rest => by
      rw [amendItems, h [.index i] (List.cons_ne_nil _ _),
        amendItems_of_keep ρ h (i + 1) rest]
      exact congrArg (· :: rest)
        (amend_of_keep _ (fun q _ => h _ (List.cons_ne_nil _ _)) item)

theorem amendMembers_of_keep (ρ : Amendments) (h : ∀ q, q ≠ [] → ρ q = .keep) :
    (ms : List (JsString × Json)) → amendMembers ρ ms = ms
  | [] => rfl
  | (key, member) :: rest => by
      rw [amendMembers, h [.key key] (List.cons_ne_nil _ _),
        amendMembers_of_keep ρ h rest]
      exact congrArg (fun value => (key, value) :: rest)
        (amend_of_keep _ (fun q _ => h _ (List.cons_ne_nil _ _)) member)

end

theorem amendChild_over {outer inner : Amendments} (h : outer.Clear inner)
    {segment : Segment} {child : Json}
    (hchild : (child.amend (inner.below segment)).amend (outer.below segment) =
      child.amend ((outer.below segment).onto (inner.below segment))) :
    amendChild outer segment (amendChild inner segment child) =
      amendChild (outer.onto inner) segment child := by
  cases hinner : inner [segment] with
  | keep =>
      rw [amendChild_keep hinner]
      cases houter : outer [segment] <;>
        simp [amendChild, Amendments.onto, houter, hinner,
          Amendments.below_onto, hchild]
  | put value =>
      have hkeep : ∀ q, outer (segment :: q) = .keep :=
        h.keep (by simp [hinner])
      have hover : (outer.onto inner) [segment] = .put value := by
        simp [Amendments.onto, hkeep, hinner]
      rw [amendChild_put hinner, amendChild_put hover,
        amendChild_keep (hkeep [])]
      exact amend_of_keep _ (fun q _ => hkeep q) value
  | drop =>
      have hkeep : ∀ q, outer (segment :: q) = .keep :=
        h.keep (by simp [hinner])
      have hover : (outer.onto inner) [segment] = .drop := by
        simp [Amendments.onto, hkeep, hinner]
      simp [amendChild, hinner, hover, hkeep [], Amendments.below_onto, hchild]

theorem amendMember_over {outer inner : Amendments} (h : outer.Clear inner)
    {entry : JsString × Json}
    (hchild : amendChild outer (.key entry.1)
        (amendChild inner (.key entry.1) entry.2) =
      amendChild (outer.onto inner) (.key entry.1) entry.2) :
    (amendMember inner entry).bind (amendMember outer) =
      amendMember (outer.onto inner) entry := by
  cases hinner : inner [.key entry.1] with
  | drop =>
      have hkeep : outer [.key entry.1] = .keep :=
        h.keep (by simp [hinner]) []
      simp [amendMember, Amendments.onto, hinner, hkeep]
  | _ =>
      have hsome : amendMember inner entry = some (entry.1,
          amendChild inner (.key entry.1) entry.2) := by
        simp [amendMember, hinner]
      rw [hsome, Option.bind_some]
      cases houter : outer [.key entry.1] <;>
        simp only [amendMember, Amendments.onto, houter, hinner, ← hchild]

mutual

/-- Two sets of amendments after one another are one set. -/
theorem amend_amend {outer inner : Amendments} (h : outer.Clear inner) :
    (value : Json) → (value.amend inner).amend outer =
      value.amend (outer.onto inner)
  | .arr items => by
      rw [amend, amend, amend, amendItems_amendItems h 0 items]
  | .obj ms => by
      rw [amend, amend, amend, amendMembers_amendMembers h ms]
  | .null | .bool _ | .num _ | .str _ => rfl

theorem amendItems_amendItems {outer inner : Amendments}
    (h : outer.Clear inner) (i : ℕ) : (items : List Json) →
      amendItems outer i (amendItems inner i items) =
        amendItems (outer.onto inner) i items
  | [] => rfl
  | item :: rest => by
      rw [amendItems, amendItems, amendItems,
        amendItems_amendItems h (i + 1) rest]
      exact congrArg (· :: amendItems (outer.onto inner) (i + 1) rest)
        (amendChild_over h (amend_amend (h.below (.index i)) item))

theorem amendMembers_amendMembers {outer inner : Amendments}
    (h : outer.Clear inner) : (ms : List (JsString × Json)) →
      amendMembers outer (amendMembers inner ms) =
        amendMembers (outer.onto inner) ms
  | [] => rfl
  | (key, member) :: rest => by
      have hchild := amendChild_over h
        (amend_amend (h.below (.key key)) member)
      have hentry : (amendMember inner (key, member)).bind
          (amendMember outer) = amendMember (outer.onto inner) (key, member) :=
        amendMember_over h hchild
      have hrest := amendMembers_amendMembers h rest
      simp only [amendMembers_eq, List.filterMap_filterMap] at hrest ⊢
      rw [List.filterMap_cons, List.filterMap_cons]
      simp only [hentry, hrest]

end

/-- What a set says about the root of a tree is never looked up. -/
theorem amend_congr {ρ σ : Amendments} (h : ∀ q, q ≠ [] → ρ q = σ q)
    (value : Json) : value.amend ρ = value.amend σ := by
  have hbelow : ∀ τ : Amendments, value.amend τ =
      value.amend fun q => if q = [] then .keep else τ q := by
    intro τ
    have hroot : ∀ q, q ≠ [] → Amendments.single [] (τ []) q = .keep :=
      fun q hq => if_neg hq
    have hclear : Amendments.Clear
        (fun q => if q = [] then .keep else τ q)
        (Amendments.single [] (τ [])) := fun _ r _ _ hr => hroot r hr
    have hover := amend_amend hclear value
    rw [amend_of_keep _ hroot] at hover
    rw [hover]
    refine congrArg value.amend (funext fun q => ?_)
    by_cases hq : q = []
    · simp [Amendments.onto, Amendments.single, hq]
    · cases hτ : τ q <;> simp [Amendments.onto, Amendments.single, hq, hτ]
  rw [hbelow ρ, hbelow σ]
  refine congrArg value.amend (funext fun q => ?_)
  by_cases hq : q = []
  · simp only [if_pos hq]
  · simp only [if_neg hq, h q hq]

/-! ## Distinct member names -/

theorem nodup_amendMembers (ρ : Amendments) {ms : List (JsString × Json)}
    (h : (ms.map Prod.fst).Nodup) :
    ((ms.filterMap (amendMember ρ)).map Prod.fst).Nodup := by
  refine h.sublist ?_
  rw [List.map_filterMap]
  have hkeys : ∀ entry : JsString × Json,
      (amendMember ρ entry).map Prod.fst = none ∨
        (amendMember ρ entry).map Prod.fst = some entry.1 := by
    intro entry
    cases hρ : ρ [.key entry.1] <;> simp [amendMember, hρ]
  induction ms with
  | nil => simp
  | cons entry rest ih =>
      rw [List.map_cons, List.nodup_cons] at h
      rcases hkeys entry with hnone | hsome
      · rw [List.filterMap_cons, hnone]
        exact (ih h.2).cons _
      · rw [List.filterMap_cons, hsome]
        exact (ih h.2).cons_cons _

mutual

theorem Distinct.amend {ρ : Amendments}
    (hput : ∀ p value, ρ p = .put value → value.Distinct) :
    {value : Json} → value.Distinct → (value.amend ρ).Distinct
  | .arr items, h => by
      rw [Json.amend, distinct_arr]
      exact Distinct.amendItems hput 0 (distinct_arr.mp h)
  | .obj ms, h => by
      rw [Json.amend, distinct_obj]
      refine ⟨?_, Distinct.amendMembers hput (distinct_obj.mp h).2⟩
      rw [amendMembers_eq]
      exact nodup_amendMembers ρ (distinct_obj.mp h).1
  | .null, _ | .bool _, _ | .num _, _ | .str _, _ => trivial

theorem Distinct.amendItems {ρ : Amendments}
    (hput : ∀ p value, ρ p = .put value → value.Distinct) (i : ℕ) :
    {items : List Json} → (∀ item ∈ items, item.Distinct) →
      ∀ item ∈ Json.amendItems ρ i items, item.Distinct
  | [], _ => by simp [Json.amendItems]
  | item :: rest, h => by
      intro other hother
      rw [Json.amendItems] at hother
      rcases List.mem_cons.mp hother with rfl | hother
      · have hbelow := Distinct.amend
          (ρ := ρ.below (.index i)) (fun p value hp => hput _ value hp)
          (h item List.mem_cons_self)
        cases hρ : ρ [.index i] with
        | put value => exact hput _ value hρ
        | _ => exact hbelow
      · exact Distinct.amendItems hput (i + 1)
          (fun item hitem => h item (List.mem_cons_of_mem _ hitem)) other hother

theorem Distinct.amendMembers {ρ : Amendments}
    (hput : ∀ p value, ρ p = .put value → value.Distinct) :
    {ms : List (JsString × Json)} → (∀ entry ∈ ms, entry.2.Distinct) →
      ∀ entry ∈ Json.amendMembers ρ ms, entry.2.Distinct
  | [], _ => by simp [Json.amendMembers]
  | (key, member) :: rest, h => by
      have hrest := Distinct.amendMembers hput
        (fun entry hentry => h entry (List.mem_cons_of_mem _ hentry))
      have hbelow := Distinct.amend
        (ρ := ρ.below (.key key)) (fun p value hp => hput _ value hp)
        (h (key, member) List.mem_cons_self)
      intro entry hentry
      rw [Json.amendMembers] at hentry
      cases hρ : ρ [.key key] with
      | drop =>
          rw [hρ] at hentry
          exact hrest entry hentry
      | put value =>
          rw [hρ] at hentry
          rcases List.mem_cons.mp hentry with rfl | hentry
          · exact hput _ value hρ
          · exact hrest entry hentry
      | keep =>
          rw [hρ] at hentry
          rcases List.mem_cons.mp hentry with rfl | hentry
          · exact hbelow
          · exact hrest entry hentry

end

/-! ## Single updates -/

theorem amend_single_below (segment : Segment) (p : FieldPath)
    (amendment : Amendment) :
    (Amendments.single (segment :: p) amendment).below segment =
      Amendments.single p amendment := by
  funext q
  simp [Amendments.below, Amendments.single]

theorem amendChild_single_of_ne {segment other : Segment} (h : other ≠ segment)
    (p : FieldPath) (amendment : Amendment) (child : Json) :
    amendChild (Amendments.single (segment :: p) amendment) other child =
      child := by
  have hkeep : ∀ q, Amendments.single (segment :: p) amendment (other :: q) =
      .keep := by
    intro q
    simp [Amendments.single, h]
  rw [amendChild_keep (hkeep [])]
  exact amend_of_keep _ (fun q _ => hkeep q) child

theorem amendChild_single_same (segment : Segment) {p : FieldPath}
    (hp : p ≠ []) (amendment : Amendment) (child : Json) :
    amendChild (Amendments.single (segment :: p) amendment) segment child =
      child.amend (Amendments.single p amendment) := by
  have hkeep : Amendments.single (segment :: p) amendment [segment] = .keep := by
    simp [Amendments.single, hp.symm]
  rw [amendChild_keep hkeep, amend_single_below]

/-- An update below one child, as an amendment. -/
theorem updateChild_amend (value : Json) (segment : Segment) {p : FieldPath}
    (hp : p ≠ []) (amendment : Amendment) :
    value.updateChild segment
        (fun child => child.amend (Amendments.single p amendment)) =
      value.amend (Amendments.single (segment :: p) amendment) := by
  cases value with
  | obj ms =>
      rw [amend_obj]
      cases segment with
      | key name =>
          rw [updateChild, ← List.filterMap_eq_map]
          congr 1
          apply List.filterMap_congr
          intro entry _
          have hne : Amendments.single (Segment.key name :: p) amendment
              [.key entry.1] = .keep := by
            simp [Amendments.single, hp.symm]
          simp only [Function.comp_apply, amendMember, hne, Option.some.injEq]
          split_ifs with hkey
          · rw [hkey, amendChild_single_same _ hp]
          · rw [amendChild_single_of_ne (by simpa using hkey)]
      | index i =>
          have hsome : ∀ entry : JsString × Json,
              amendMember (Amendments.single (Segment.index i :: p) amendment)
                entry = some entry := by
            intro entry
            have hne : Amendments.single (Segment.index i :: p) amendment
                [.key entry.1] = .keep := by simp [Amendments.single]
            simp only [amendMember, hne]
            rw [amendChild_single_of_ne (by simp)]
          rw [funext hsome, List.filterMap_some]
          rfl
  | arr items =>
      rw [amend_arr]
      cases segment with
      | key name =>
          have hsame : ∀ entry : Json × ℕ,
              amendChild (Amendments.single (Segment.key name :: p) amendment)
                (.index entry.2) entry.1 = entry.1 :=
            fun entry => amendChild_single_of_ne (by simp) _ _ _
          rw [funext hsame, List.zipIdx_map_fst]
          rfl
      | index i =>
          rw [updateChild]
          congr 1
          apply List.ext_getElem?
          intro j
          rw [List.getElem?_modify, List.getElem?_map, List.getElem?_zipIdx]
          cases items[j]? with
          | none => rfl
          | some item =>
              simp only [Option.map_eq_map, Option.map_some, Nat.zero_add,
                Option.some.injEq]
              split_ifs with hij
              · subst hij
                exact (amendChild_single_same _ hp amendment item).symm
              · exact (amendChild_single_of_ne
                  (fun heq => hij (Segment.index.inj heq).symm) _ _ _).symm
  | _ => cases segment <;> rfl

theorem put_eq_filterMap {key : JsString} {member : Json}
    {ms : List (JsString × Json)} (hnodup : (ms.map Prod.fst).Nodup)
    (hmem : key ∈ ms.map Prod.fst) :
    AssocList.put key member ms = ms.map fun entry =>
      if entry.1 = key then (key, member) else entry := by
  induction ms with
  | nil => cases hmem
  | cons entry rest ih =>
      rw [List.map_cons, List.nodup_cons] at hnodup
      rw [AssocList.put, List.map_cons]
      split_ifs with hkey
      · have hrest : ∀ other ∈ rest, other.1 ≠ key := by
          rintro other hother rfl
          exact hnodup.1 (hkey ▸ List.mem_map_of_mem hother)
        congr 1
        conv_lhs => rw [← List.map_id rest]
        refine List.map_congr_left fun other hother => ?_
        rw [if_neg (hrest other hother)]
        rfl
      · rw [List.map_cons, List.mem_cons] at hmem
        rw [ih hnodup.2 (hmem.resolve_left fun heq => hkey heq.symm)]

/-- Putting a value in the place of a child, as an amendment. -/
theorem setChild_amend {value : Json} (hdistinct : value.Distinct)
    {segment : Segment} (hpresent : (value.child? segment).isSome = true)
    (child : Json) :
    value.setChild segment child =
      value.amend (Amendments.single [segment] (.put child)) := by
  cases value with
  | obj ms =>
      cases segment with
      | index i => cases hpresent
      | key name =>
          have hmem : name ∈ ms.map Prod.fst := by
            by_contra hnot
            rw [child?, AssocList.lookup_eq_none_iff.mpr hnot] at hpresent
            cases hpresent
          rw [amend_obj, setChild, put_eq_filterMap
            (distinct_obj.mp hdistinct).1 hmem, ← List.filterMap_eq_map]
          congr 1
          apply List.filterMap_congr
          intro entry _
          simp only [Function.comp_apply]
          split_ifs with hkey
          · simp [amendMember, amendChild, Amendments.single, hkey]
          · have hkeep : Amendments.single [Segment.key name] (.put child)
                [.key entry.1] = .keep := by
              simp [Amendments.single, hkey]
            simp only [amendMember, hkeep, Option.some.injEq]
            rw [amendChild_single_of_ne (by simpa using hkey)]
  | arr items =>
      cases segment with
      | key name => cases hpresent
      | index i =>
          rw [amend_arr, setChild]
          congr 1
          apply List.ext_getElem?
          intro j
          rw [List.getElem?_set, List.getElem?_map, List.getElem?_zipIdx]
          split_ifs with hij hlength
          · subst hij
            simp [hlength, amendChild, Amendments.single]
          · subst hij
            simp [hlength]
          · cases items[j]? with
            | none => rfl
            | some item =>
                simp only [Option.map_some, Nat.zero_add, Option.some.injEq]
                exact (amendChild_single_of_ne
                  (fun heq => hij (Segment.index.inj heq).symm) _ _ _).symm
  | _ => cases segment <;> cases hpresent

/-- Deleting a member, as an amendment. -/
theorem removeChild_amend (value : Json) (name : JsString) :
    value.removeChild (.key name) =
      value.amend (Amendments.single [.key name] .drop) := by
  cases value with
  | obj ms =>
      rw [amend_obj, removeChild, AssocList.remove,
        ← List.filterMap_eq_filter]
      congr 1
      apply List.filterMap_congr
      intro entry _
      by_cases hkey : entry.1 = name
      · simp [amendMember, Amendments.single, hkey, Option.guard]
      · have hkeep : Amendments.single [Segment.key name] .drop
            [.key entry.1] = .keep := by
          simp [Amendments.single, hkey]
        simp only [amendMember, hkeep, Option.guard]
        rw [amendChild_single_of_ne (by simpa using hkey)]
        simp [hkey]
  | arr items =>
      have hsame : ∀ entry : Json × ℕ,
          amendChild (Amendments.single [Segment.key name] .drop)
            (.index entry.2) entry.1 = entry.1 :=
        fun entry => amendChild_single_of_ne (by simp) _ _ _
      rw [amend_arr, funext hsame, List.zipIdx_map_fst]
      rfl
  | _ => rfl

theorem updateChild_congr {value : Json} (hdistinct : value.Distinct)
    {segment : Segment} {f g : Json → Json}
    (h : ∀ child, value.child? segment = some child → f child = g child) :
    value.updateChild segment f = value.updateChild segment g := by
  cases value with
  | obj ms =>
      cases segment with
      | index i => rfl
      | key name =>
          rw [updateChild, updateChild]
          congr 1
          refine List.map_congr_left fun entry hentry => ?_
          split_ifs with hkey
          · rw [h entry.2 (AssocList.lookup_eq_some_of_mem
              (distinct_obj.mp hdistinct).1 (hkey ▸ hentry))]
          · rfl
  | arr items =>
      cases segment with
      | key name => rfl
      | index i =>
          rw [updateChild, updateChild]
          congr 1
          apply List.ext_getElem?
          intro j
          rw [List.getElem?_modify, List.getElem?_modify]
          split_ifs with hij
          · subst hij
            cases hitem : items[i]? with
            | none => rfl
            | some item => exact congrArg some (h item hitem)
          · rfl
  | _ => cases segment <;> rfl

/-- An update at the end of a path is an amendment there. -/
theorem update_amend {f : Json → Json} {segment : Segment}
    {amendment : Amendment} (p : FieldPath) {value : Json}
    (hdistinct : value.Distinct)
    (h : ∀ child, value.get? p = some child →
      f child = child.amend (Amendments.single [segment] amendment)) :
    value.update p f =
      value.amend (Amendments.single (p ++ [segment]) amendment) := by
  induction p generalizing value with
  | nil =>
      rw [update]
      exact h value (get?_nil value)
  | cons head rest ih =>
      rw [update, List.cons_append,
        ← updateChild_amend value head (by simp) amendment]
      refine updateChild_congr hdistinct fun child hchild => ?_
      refine ih (hdistinct.child? hchild) fun other hother => h other ?_
      rw [get?_cons, hchild]
      exact hother

end Json

end DrFed
