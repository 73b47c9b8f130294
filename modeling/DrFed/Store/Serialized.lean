import DrFed.Store.Serialize

/-!
# Stored text is lossless

The serializer accepts exactly the plain data without cycles, and parsing the
text that it stores gives back the value.
-/

namespace DrFed.Store

/-! ## Plain data -/

/-- The values of a graph; an array of another prototype is foreign. -/
def Graph.look (G : Graph) : JsValue → Shape JsValue
  | .ref address =>
      match G.objects address with
      | .array entries named symbols =>
          if G.subclassed address then .foreign
          else (JsObject.array entries named symbols).shape
      | .record plain members symbols distinct =>
          (JsObject.record plain members symbols distinct).shape
  | value => value.shape G.objects

def Graph.values (G : Graph) : Values JsValue where
  look := G.look
  same := JsValue.sameObject

/-- Plain data at one node: no symbols, no accessors, nothing that is not
enumerable, and in an array neither holes nor named properties. -/
def IsPlainNode : Shape JsValue → Prop
  | .foreign => False
  | .array entries named symbols =>
      named = [] ∧ symbols = 0 ∧ ∀ entry ∈ entries, ∃ value, entry = some (.data value true)
  | .object plain members symbols =>
      plain = true ∧ symbols = 0 ∧ ∀ m ∈ members, ∃ value, m.2 = .data value true
  | _ => True

/-- Plain data without cycles; objects may be shared. -/
structure IsJsonData (G : Graph) (value : JsValue) : Prop where
  plain : ∀ other, G.values.Leads value other → IsPlainNode (G.look other)
  acyclic : ∀ other held, G.values.Leads value other → G.values.Holds other held →
    ¬ G.values.Leads held other

/-- The values of the language in a graph: addresses are bounded, and numbers
are doubles. -/
def Graph.Valid (G : Graph) : JsValue → Prop
  | .ref address => address < G.size
  | .number n => n.IsDouble
  | _ => True

/-- What holds of every graph of the language: it is finite, an object lists
its keys in order, and a named property of an array is no index of it. -/
structure Graph.Genuine (G : Graph) : Prop where
  held : ∀ address held, address < G.size → G.values.Holds (.ref address) held → G.Valid held
  ordered : ∀ address plain members symbols distinct,
    G.objects address = .record plain members symbols distinct →
      KeysOrdered (members.map Prod.fst)
  named : ∀ address entries named symbols, G.objects address = .array entries named symbols →
    ∀ m ∈ named, isArrayKey entries.length m.1 = false

/-! ## Keys -/

section Keys

variable {length : Option ℕ} {own : List (Option JsString × JsProperty)}
  {keys : List JsString}

/-- An own property that the check lets pass. -/
def IsPlainKey (length : Option ℕ) (entry : Option JsString × JsProperty) : Prop :=
  ∃ key value, entry = (some key, .data value true) ∧
    ∀ n, length = some n → isArrayKey n key = true

theorem map_eq_ok_iff {ε α β : Type} {x : Except ε α} {f : α → β} {b : β} :
    x.map f = .ok b ↔ ∃ a, x = .ok a ∧ f a = b := by
  cases x with
  | error e => simp [Except.map]
  | ok a => simp [Except.map]

theorem checkKeys_cons {key : JsString} {value : JsValue}
    (hlength : ∀ n, length = some n → isArrayKey n key = true) :
    checkKeys length ((some key, .data value true) :: own) =
      (checkKeys length own).map fun keys => key :: keys := by
  have hindex : (length.any fun n => !isArrayKey n key) = false := by
    cases length with
    | none => rfl
    | some n => simp [hlength n rfl]
  rw [checkKeys, hindex]
  rfl

theorem checkKeys_error {entry : Option JsString × JsProperty}
    (h : ¬ IsPlainKey length entry) : ∃ error, checkKeys length (entry :: own) = .error error := by
  obtain ⟨key, property⟩ := entry
  cases key with
  | none => exact ⟨notData, rfl⟩
  | some key =>
      cases property with
      | accessor result enumerable => exact ⟨notData, rfl⟩
      | data value enumerable =>
          rw [checkKeys]
          cases enumerable with
          | false => exact ⟨notEnumerable, rfl⟩
          | true =>
              cases hindex : length.any fun n => !isArrayKey n key with
              | true => exact ⟨namedProperty, rfl⟩
              | false =>
                  apply absurd _ h
                  refine ⟨key, value, rfl, ?_⟩
                  rintro n rfl
                  simpa using hindex

theorem checkKeys_eq_ok_iff :
    checkKeys length own = .ok keys ↔
      (∀ entry ∈ own, IsPlainKey length entry) ∧ keys = own.filterMap Prod.fst := by
  induction own generalizing keys with
  | nil =>
      rw [checkKeys]
      simp [eq_comm]
  | cons entry rest ih =>
      rw [List.forall_mem_cons]
      by_cases hplain : IsPlainKey length entry
      · obtain ⟨key, value, rfl, hlength⟩ := hplain
        rw [checkKeys_cons hlength, map_eq_ok_iff]
        constructor
        · rintro ⟨others, hothers, rfl⟩
          obtain ⟨hrest, rfl⟩ := ih.mp hothers
          exact ⟨⟨⟨key, value, rfl, hlength⟩, hrest⟩, rfl⟩
        · rintro ⟨⟨-, hrest⟩, rfl⟩
          exact ⟨_, ih.mpr ⟨hrest, rfl⟩, rfl⟩
      · obtain ⟨error, herror⟩ := @checkKeys_error length rest entry hplain
        rw [herror]
        constructor
        · rintro ⟨⟩
        · exact fun h => absurd h.1.1 hplain

theorem isArrayKey_natText {n i : ℕ} (h : i < n) : isArrayKey n (natText i) = true := by
  have hall : (natText i).all isDigit = true :=
    List.all_eq_true.mpr fun c hc => isDigit_natText hc
  have hempty : (natText i).isEmpty = false := by
    rw [List.isEmpty_eq_false_iff]
    exact natText_ne_nil i
  have hleading : ((natText i).head? != some (unit '0') || (natText i).length == 1) = true := by
    by_cases hzero : (natText i).head? = some (unit '0')
    · simp [natText_leading i hzero]
    · simp [hzero]
  rw [isArrayKey, hempty, hall, hleading, readDecimal_natText]
  simpa using h

/-- The index properties are plain if every element but a hole is. -/
theorem forall_indexKeys {n i : ℕ} {entries : List (Option JsProperty)}
    (hlength : i + entries.length ≤ n) :
    (∀ entry ∈ indexKeys i entries, IsPlainKey (some n) entry) ↔
      ∀ entry ∈ entries, entry = none ∨ ∃ value, entry = some (.data value true) := by
  induction entries generalizing i with
  | nil => simp [indexKeys]
  | cons entry rest ih =>
      rw [List.length_cons] at hlength
      have hrest := @ih (i + 1) (by omega)
      cases entry with
      | none => simpa [indexKeys] using hrest
      | some property =>
          rw [indexKeys, List.forall_mem_cons, List.forall_mem_cons, hrest]
          refine and_congr_left fun _ => ?_
          constructor
          · rintro ⟨key, value, heq, -⟩
            obtain ⟨-, rfl⟩ := Prod.mk.inj heq
            exact .inr ⟨value, rfl⟩
          · rintro (hnone | ⟨value, heq⟩)
            · cases hnone
            · obtain rfl := Option.some.inj heq
              refine ⟨natText i, value, rfl, ?_⟩
              rintro m ⟨⟩
              exact isArrayKey_natText (by omega)

end Keys

section Objects

variable {G : Graph} {address : Address} {keys : List JsString}

theorem descriptor_eq_data {property : JsProperty} {value : JsValue} {enumerable : Bool} :
    property.descriptor = .data value enumerable ↔ property = .data value enumerable := by
  cases property with
  | data other flag => simp [JsProperty.descriptor]
  | accessor other flag => simp [JsProperty.descriptor]

theorem forall_members {members : List (JsString × JsProperty)} :
    (∀ entry ∈ members.map fun m => (some m.1, m.2), IsPlainKey none entry) ↔
      ∀ m ∈ members, ∃ value, m.2 = .data value true := by
  rw [List.forall_mem_map]
  refine forall₂_congr fun m _ => ?_
  constructor
  · rintro ⟨key, value, heq, -⟩
    exact ⟨value, (Prod.mk.inj heq).2⟩
  · rintro ⟨value, heq⟩
    exact ⟨m.1, value, by rw [heq], by rintro _ ⟨⟩⟩

theorem forall_symbols {length : Option ℕ} {symbols : List JsProperty} :
    (∀ entry ∈ symbols.map fun s => ((none : Option JsString), s),
      IsPlainKey length entry) ↔ symbols = [] := by
  constructor
  · intro h
    cases symbols with
    | nil => rfl
    | cons s rest =>
        obtain ⟨key, value, heq, -⟩ := h (none, s) List.mem_cons_self
        cases (Prod.mk.inj heq).1
  · rintro rfl entry hentry
    cases hentry

/-- What the check of a record accepts. -/
theorem jsonKeys_record {plain : Bool} {members : List (JsString × JsProperty)}
    {symbols : List JsProperty} {distinct : (members.map Prod.fst).Nodup}
    (hobject : G.objects address = .record plain members symbols distinct) :
    jsonKeys G address = .ok keys ↔
      (plain = true ∧ symbols = [] ∧ ∀ m ∈ members, ∃ value, m.2 = .data value true) ∧
        keys = members.map Prod.fst := by
  rw [jsonKeys, hobject]
  cases plain with
  | false => simp
  | true =>
      simp only [if_true, true_and]
      rw [checkKeys_eq_ok_iff, ownKeys, List.forall_mem_append, forall_members,
        forall_symbols, List.filterMap_append]
      constructor
      · rintro ⟨⟨hmembers, rfl⟩, rfl⟩
        refine ⟨⟨rfl, hmembers⟩, ?_⟩
        rw [List.filterMap_map]
        simp
      · rintro ⟨⟨rfl, hmembers⟩, rfl⟩
        refine ⟨⟨hmembers, rfl⟩, ?_⟩
        rw [List.filterMap_map]
        simp

/-- What the check of an array accepts: holes are not seen. -/
theorem jsonKeys_array (hgenuine : G.Genuine) {entries : List (Option JsProperty)}
    {named : List (JsString × JsProperty)} {symbols : List JsProperty}
    (hobject : G.objects address = .array entries named symbols) :
    (∃ keys, jsonKeys G address = .ok keys) ↔
      G.subclassed address = false ∧ named = [] ∧ symbols = [] ∧
        ∀ entry ∈ entries, entry = none ∨ ∃ value, entry = some (.data value true) := by
  have hnamed : (∀ entry ∈ named.map fun m => (some m.1, m.2),
      IsPlainKey (some entries.length) entry) ↔ named = [] := by
    constructor
    · intro h
      cases named with
      | nil => rfl
      | cons m rest =>
          obtain ⟨key, value, heq, hkey⟩ := h (some m.1, m.2) List.mem_cons_self
          have hfalse := hgenuine.named address entries (m :: rest) symbols hobject m
            List.mem_cons_self
          rw [Option.some.inj (Prod.mk.inj heq).1, hkey _ rfl] at hfalse
          cases hfalse
    · rintro rfl entry hentry
      cases hentry
  simp only [jsonKeys, hobject]
  cases G.subclassed address with
  | true => simp
  | false =>
      simp only [Bool.false_eq_true, if_false, true_and]
      simp only [checkKeys_eq_ok_iff, ownKeys, List.forall_mem_append, hnamed, forall_symbols,
        forall_indexKeys (Nat.le_of_eq (Nat.zero_add entries.length))]
      constructor
      · rintro ⟨keys, ⟨hentries, hnil, hsymbols⟩, -⟩
        exact ⟨hnil, hsymbols, hentries⟩
      · rintro ⟨hnil, hsymbols, hentries⟩
        exact ⟨_, ⟨hentries, hnil, hsymbols⟩, rfl⟩

/-! ## Nodes -/

theorem look_record {plain : Bool} {members : List (JsString × JsProperty)}
    {symbols : List JsProperty} {distinct : (members.map Prod.fst).Nodup}
    (hobject : G.objects address = .record plain members symbols distinct) :
    G.look (.ref address) =
      .object plain (members.map fun m => (m.1, m.2.descriptor)) symbols.length := by
  rw [Graph.look, hobject]
  rfl

theorem look_array {entries : List (Option JsProperty)}
    {named : List (JsString × JsProperty)} {symbols : List JsProperty}
    (hobject : G.objects address = .array entries named symbols) :
    G.look (.ref address) = if G.subclassed address then .foreign else
      .array (entries.map (Option.map JsProperty.descriptor))
        (named.map fun m => (m.1, m.2.descriptor)) symbols.length := by
  rw [Graph.look, hobject]
  rfl

theorem isPlainNode_record {plain : Bool} {members : List (JsString × JsProperty)}
    {symbols : List JsProperty} {distinct : (members.map Prod.fst).Nodup}
    (hobject : G.objects address = .record plain members symbols distinct) :
    IsPlainNode (G.look (.ref address)) ↔
      plain = true ∧ symbols = [] ∧ ∀ m ∈ members, ∃ value, m.2 = .data value true := by
  rw [look_record hobject, IsPlainNode, List.length_eq_zero_iff, List.forall_mem_map]
  simp only [descriptor_eq_data]

theorem isPlainNode_array {entries : List (Option JsProperty)}
    {named : List (JsString × JsProperty)} {symbols : List JsProperty}
    (hobject : G.objects address = .array entries named symbols) :
    IsPlainNode (G.look (.ref address)) ↔
      G.subclassed address = false ∧ named = [] ∧ symbols = [] ∧
        ∀ entry ∈ entries, ∃ value, entry = some (.data value true) := by
  rw [look_array hobject]
  cases G.subclassed address with
  | true => simp [IsPlainNode]
  | false =>
      simp only [Bool.false_eq_true, if_false, IsPlainNode, List.map_eq_nil_iff,
        List.length_eq_zero_iff, List.forall_mem_map, true_and]
      simp only [Option.map_eq_some_iff, descriptor_eq_data, exists_eq_right]

end Objects

/-! ## Runs -/

section Lists

variable {f : List Address → JsValue → Outcome JsString} {values : List JsValue}
  {ancestors left : List Address}

/-- A run that gives back the ancestors as they were. -/
def Restores (f : List Address → JsValue → Outcome JsString) : Prop :=
  ∀ ancestors value result left, f ancestors value = some (result, left) → left = ancestors

theorem jsonAll_restores (hf : Restores f) {result : Except String (List JsString)}
    (h : jsonAll f values ancestors = some (result, left)) : left = ancestors := by
  induction values generalizing result with
  | nil =>
      rw [jsonAll] at h
      exact (Prod.mk.inj (Option.some.inj h)).2.symm
  | cons value rest ih =>
      rw [jsonAll, Option.bind_eq_some_iff] at h
      obtain ⟨⟨first, state⟩, hfirst, hrest⟩ := h
      obtain rfl := hf _ _ _ _ hfirst
      cases first with
      | error error => exact (Prod.mk.inj (Option.some.inj hrest)).2.symm
      | ok text =>
          obtain ⟨⟨others, state'⟩, hothers, heq⟩ := Option.map_eq_some_iff.mp hrest
          obtain ⟨-, rfl⟩ := Prod.mk.inj heq
          exact ih hothers

theorem jsonAll_total (h : ∀ value ∈ values, ∃ result,
      f ancestors value = some (result, ancestors)) :
    ∃ result, jsonAll f values ancestors = some (result, ancestors) := by
  induction values with
  | nil => exact ⟨.ok [], rfl⟩
  | cons value rest ih =>
      obtain ⟨first, hfirst⟩ := h value List.mem_cons_self
      obtain ⟨others, hothers⟩ := ih fun v hv => h v (List.mem_cons_of_mem value hv)
      rw [jsonAll, hfirst, Option.bind_some]
      cases first with
      | error error => exact ⟨.error error, rfl⟩
      | ok text =>
          rw [hothers]
          exact ⟨_, rfl⟩

theorem jsonAll_ok (hf : Restores f) {texts : List JsString}
    (h : jsonAll f values ancestors = some (.ok texts, left)) :
    List.Forall₂ (fun value text => f ancestors value = some (.ok text, ancestors)) values
      texts := by
  induction values generalizing texts with
  | nil =>
      rw [jsonAll] at h
      obtain ⟨htexts, -⟩ := Prod.mk.inj (Option.some.inj h)
      rw [← Except.ok.inj htexts]
      exact .nil
  | cons value rest ih =>
      rw [jsonAll, Option.bind_eq_some_iff] at h
      obtain ⟨⟨first, state⟩, hfirst, hrest⟩ := h
      obtain rfl := hf _ _ _ _ hfirst
      cases first with
      | error error => cases (Prod.mk.inj (Option.some.inj hrest)).1
      | ok text =>
          obtain ⟨⟨others, state'⟩, hothers, heq⟩ := Option.map_eq_some_iff.mp hrest
          obtain ⟨hresult, rfl⟩ := Prod.mk.inj heq
          obtain ⟨texts', rfl, rfl⟩ := map_eq_ok_iff.mp hresult
          exact .cons hfirst (ih hothers)

theorem jsonAll_error (hf : Restores f) {error : String}
    (h : jsonAll f values ancestors = some (.error error, left)) :
    ∃ value ∈ values, ∃ error, f ancestors value = some (.error error, ancestors) := by
  induction values generalizing error with
  | nil => cases (Prod.mk.inj (Option.some.inj h)).1
  | cons value rest ih =>
      rw [jsonAll, Option.bind_eq_some_iff] at h
      obtain ⟨⟨first, state⟩, hfirst, hrest⟩ := h
      obtain rfl := hf _ _ _ _ hfirst
      cases first with
      | error error => exact ⟨value, List.mem_cons_self, error, hfirst⟩
      | ok text =>
          obtain ⟨⟨others, state'⟩, hothers, heq⟩ := Option.map_eq_some_iff.mp hrest
          obtain ⟨hresult, rfl⟩ := Prod.mk.inj heq
          cases others with
          | ok texts => cases hresult
          | error other =>
              obtain ⟨v, hv, herror⟩ := ih hothers
              exact ⟨v, List.mem_cons_of_mem value hv, herror⟩

end Lists

section Objects

variable {numeral : ℚ → Numeral} {G : Graph} {fuel : ℕ} {ancestors left : List Address}
  {address : Address} {value : JsValue}

/-- The values of an object in the order of its text. -/
def objectValues : JsObject → List JsString → List JsValue
  | .array entries _ _, _ => entries.map entryValue
  | .record _ members _ _, keys => keys.map (memberValue members)

/-- The text of an object from the texts of its values. -/
def wrapTexts : JsObject → List JsString → List JsString → JsString
  | .array _ _ _, _, texts =>
      JsonText.openBracket :: joinTexts texts ++ [JsonText.closeBracket]
  | .record _ _ _ _, keys, texts =>
      JsonText.openBrace :: joinTexts (keys.zipWith
        (fun key text => quote key ++ JsonText.colon :: text) texts) ++ [JsonText.closeBrace]

theorem objectText_eq (f : List Address → JsValue → Outcome JsString) (object : JsObject)
    (keys : List JsString) :
    objectText f ancestors object keys =
      (jsonAll f (objectValues object keys) ancestors).map fun read =>
        (read.1.map (wrapTexts object keys), read.2) := by
  cases object <;> rfl

/-- What happens at an object. -/
theorem json_ref {result : Except String JsString}
    (h : json numeral G (fuel + 1) ancestors (.ref address) = some (result, left)) :
    (address ∈ ancestors ∧ (∃ error, result = .error error) ∧ left = ancestors) ∨
    (address ∉ ancestors ∧ (∃ error, jsonKeys G address = .error error) ∧
      (∃ error, result = .error error) ∧ left = ancestors) ∨
    (address ∉ ancestors ∧ ∃ keys read, jsonKeys G address = .ok keys ∧
      jsonAll (json numeral G fuel) (objectValues (G.objects address) keys)
        (address :: ancestors) = some read ∧
      result = read.1.map (wrapTexts (G.objects address) keys) ∧
      left = read.2.erase address) := by
  rw [json] at h
  by_cases hmem : address ∈ ancestors
  · rw [if_pos hmem] at h
    obtain ⟨rfl, rfl⟩ := Prod.mk.inj (Option.some.inj h)
    exact .inl ⟨hmem, ⟨_, rfl⟩, rfl⟩
  · rw [if_neg hmem] at h
    cases hkeys : jsonKeys G address with
    | error error =>
        rw [hkeys] at h
        obtain ⟨rfl, rfl⟩ := Prod.mk.inj (Option.some.inj h)
        exact .inr (.inl ⟨hmem, ⟨error, rfl⟩, ⟨_, rfl⟩, rfl⟩)
    | ok keys =>
        rw [hkeys] at h
        simp only [objectText_eq, Option.map_map, Option.map_eq_some_iff] at h
        obtain ⟨read, hread, heq⟩ := h
        obtain ⟨rfl, rfl⟩ := Prod.mk.inj heq
        exact .inr (.inr ⟨hmem, keys, read, rfl, hread, rfl, rfl⟩)

theorem json_scalar (hvalue : ∀ address, value ≠ .ref address) :
    json numeral G (fuel + 1) ancestors value =
      some (scalarText numeral G value, ancestors) := by
  cases value with
  | ref address => exact absurd rfl (hvalue address)
  | _ => rfl

/-- The ancestors are released on every exit. -/
theorem json_restores : Restores (json numeral G fuel) := by
  induction fuel with
  | zero =>
      intro ancestors value result left h
      cases h
  | succ fuel ih =>
      intro ancestors value result left h
      by_cases hvalue : ∀ address, value ≠ .ref address
      · rw [json_scalar hvalue] at h
        exact (Prod.mk.inj (Option.some.inj h)).2.symm
      · push Not at hvalue
        obtain ⟨address, rfl⟩ := hvalue
        rcases json_ref h with ⟨-, -, rfl⟩ | ⟨-, -, -, rfl⟩ | ⟨-, keys, read, -, hread, -, rfl⟩
        · rfl
        · rfl
        · obtain ⟨result', state⟩ := read
          have hstate : state = address :: ancestors := jsonAll_restores ih hread
          rw [hstate, List.erase_cons_head]

theorem exists_of_lookup {members : List (JsString × JsProperty)} {key : JsString}
    (hkey : key ∈ members.map Prod.fst)
    (hplain : ∀ m ∈ members, ∃ value, m.2 = .data value true) :
    ∃ value, members.lookup key = some (.data value true) ∧
      (key, JsProperty.data value true) ∈ members := by
  cases hlookup : members.lookup key with
  | none => exact absurd hkey (AssocList.lookup_eq_none_iff.mp hlookup)
  | some property =>
      have hmem := AssocList.mem_of_lookup_eq_some hlookup
      obtain ⟨value, hvalue⟩ := hplain _ hmem
      have hproperty : property = .data value true := hvalue
      subst hproperty
      exact ⟨value, rfl, hmem⟩

/-- The values of an object whose keys are checked: holes aside, the object
holds them. -/
theorem objectValues_held (hgenuine : G.Genuine) {keys : List JsString}
    (hkeys : jsonKeys G address = .ok keys)
    (hmem : value ∈ objectValues (G.objects address) keys) :
    value = undefinedValue ∨ G.values.Holds (.ref address) value := by
  cases hobject : G.objects address with
  | record plain members symbols distinct =>
      rw [hobject] at hmem
      obtain ⟨⟨rfl, rfl, hplain⟩, rfl⟩ := (jsonKeys_record hobject).mp hkeys
      obtain ⟨key, hkey, rfl⟩ := List.mem_map.mp hmem
      obtain ⟨held, hlookup, hmember⟩ := exists_of_lookup hkey hplain
      right
      rw [memberValue, hlookup]
      exact .member true _ _ (look_record hobject) key held true
        (List.mem_map_of_mem (f := fun m : JsString × JsProperty => (m.1, m.2.descriptor)) hmember)
  | array entries named symbols =>
      rw [hobject] at hmem
      obtain ⟨hsub, rfl, rfl, hentries⟩ := (jsonKeys_array hgenuine hobject).mp ⟨keys, hkeys⟩
      obtain ⟨entry, hentry, rfl⟩ := List.mem_map.mp hmem
      rcases hentries entry hentry with rfl | ⟨held, rfl⟩
      · exact .inl rfl
      · have hlook := look_array hobject
        rw [hsub] at hlook
        exact .inr (.item _ _ _ hlook held true
          (List.mem_map_of_mem (f := Option.map JsProperty.descriptor) hentry))

theorem jsonKeys_of_plain (hgenuine : G.Genuine)
    (hplain : IsPlainNode (G.look (.ref address))) :
    ∃ keys, jsonKeys G address = .ok keys := by
  cases hobject : G.objects address with
  | record plain members symbols distinct =>
      exact ⟨_, (jsonKeys_record hobject).mpr
        ⟨(isPlainNode_record hobject).mp hplain, rfl⟩⟩
  | array entries named symbols =>
      obtain ⟨hsub, hnamed, hsymbols, hentries⟩ := (isPlainNode_array hobject).mp hplain
      exact (jsonKeys_array hgenuine hobject).mpr
        ⟨hsub, hnamed, hsymbols, fun entry hentry => .inr (hentries entry hentry)⟩

/-- A plain object holds all its values. -/
theorem objectValues_held_of_plain (hgenuine : G.Genuine) {keys : List JsString}
    (hkeys : jsonKeys G address = .ok keys) (hplain : IsPlainNode (G.look (.ref address)))
    (hmem : value ∈ objectValues (G.objects address) keys) :
    G.values.Holds (.ref address) value := by
  cases hobject : G.objects address with
  | record plain members symbols distinct =>
      rcases objectValues_held hgenuine hkeys hmem with rfl | hheld
      · rw [hobject] at hmem
        obtain ⟨⟨-, -, hmembers⟩, rfl⟩ := (jsonKeys_record hobject).mp hkeys
        obtain ⟨key, hkey, hvalue⟩ := List.mem_map.mp hmem
        obtain ⟨held, hlookup, hmember⟩ := exists_of_lookup hkey hmembers
        rw [memberValue, hlookup] at hvalue
        rw [← hvalue]
        exact .member _ _ _ (look_record hobject) key held true
          (List.mem_map_of_mem (f := fun m : JsString × JsProperty => (m.1, m.2.descriptor))
            hmember)
      · exact hheld
  | array entries named symbols =>
      rw [hobject] at hmem
      obtain ⟨hsub, rfl, rfl, hentries⟩ := (isPlainNode_array hobject).mp hplain
      obtain ⟨entry, hentry, rfl⟩ := List.mem_map.mp hmem
      obtain ⟨held, rfl⟩ := hentries entry hentry
      have hlook := look_array hobject
      rw [hsub] at hlook
      exact .item _ _ _ hlook held true
        (List.mem_map_of_mem (f := Option.map JsProperty.descriptor) hentry)

theorem IsJsonData.held {other : JsValue} (h : IsJsonData G value)
    (hheld : G.values.Holds value other) : IsJsonData G other :=
  ⟨fun _ hleads => h.plain _ (.head hheld hleads),
    fun _ _ hleads => h.acyclic _ _ (.head hheld hleads)⟩

/-- Enough fuel gives a result. -/
theorem json_total (hgenuine : G.Genuine) (hancestors : ancestors.Nodup)
    (hbounded : ∀ a ∈ ancestors, a < G.size) (hvalid : G.Valid value)
    (hfuel : G.size < fuel + ancestors.length) :
    ∃ result, json numeral G fuel ancestors value = some (result, ancestors) := by
  induction fuel generalizing ancestors value with
  | zero =>
      have hlength : ancestors.length ≤ G.size := by
        have hsubset : ancestors ⊆ List.range G.size :=
          fun a ha => List.mem_range.mpr (hbounded a ha)
        have hcard := (List.subperm_of_subset hancestors hsubset).length_le
        rwa [List.length_range] at hcard
      omega
  | succ fuel ih =>
      by_cases hvalue : ∀ address, value ≠ .ref address
      · exact ⟨_, json_scalar hvalue⟩
      · push Not at hvalue
        obtain ⟨address, rfl⟩ := hvalue
        rw [json]
        by_cases hmem : address ∈ ancestors
        · exact ⟨_, if_pos hmem⟩
        · rw [if_neg hmem]
          cases hkeys : jsonKeys G address with
          | error error => exact ⟨_, rfl⟩
          | ok keys =>
              have hall : ∀ held ∈ objectValues (G.objects address) keys, ∃ result,
                  json numeral G fuel (address :: ancestors) held =
                    some (result, address :: ancestors) := by
                intro held hheld
                apply ih
                · exact List.nodup_cons.mpr ⟨hmem, hancestors⟩
                · exact List.forall_mem_cons.mpr ⟨hvalid, hbounded⟩
                · rcases objectValues_held hgenuine hkeys hheld with rfl | hholds
                  · exact trivial
                  · exact hgenuine.held address held hvalid hholds
                · rw [List.length_cons]
                  omega
              obtain ⟨result, hresult⟩ := jsonAll_total hall
              simp only [objectText_eq, hresult, Option.map_some, List.erase_cons_head]
              exact ⟨_, rfl⟩

/-- What is refused is no plain data, or leads back to an ancestor. -/
theorem json_error (hgenuine : G.Genuine) {error : String}
    (h : json numeral G fuel ancestors value = some (.error error, left)) :
    ¬ IsJsonData G value ∨ ∃ address ∈ ancestors, G.values.Leads value (.ref address) := by
  induction fuel generalizing ancestors value error left with
  | zero => cases h
  | succ fuel ih =>
      by_cases hvalue : ∀ address, value ≠ .ref address
      · left
        rw [json_scalar hvalue] at h
        obtain ⟨hscalar, -⟩ := Prod.mk.inj (Option.some.inj h)
        intro hdata
        have hplain := hdata.plain value .refl
        cases value with
        | ref address => exact hvalue address rfl
        | foreign tag => exact hplain
        | null => cases hscalar
        | bool b => cases b <;> cases hscalar
        | string text => cases hscalar
        | number n => cases n <;> cases hscalar
      · push Not at hvalue
        obtain ⟨address, rfl⟩ := hvalue
        rcases json_ref h with ⟨hmem, -, -⟩ | ⟨-, ⟨refused, hkeys⟩, -, -⟩ |
          ⟨-, keys, ⟨result, state⟩, hkeys, hread, hresult, -⟩
        · exact .inr ⟨address, hmem, .refl⟩
        · left
          intro hdata
          obtain ⟨keys, hok⟩ := jsonKeys_of_plain hgenuine (hdata.plain _ .refl)
          rw [hok] at hkeys
          cases hkeys
        · by_cases hdata : IsJsonData G (.ref address)
          · right
            cases result with
            | ok texts => cases hresult
            | error other =>
                obtain ⟨held, hmem, error', herror⟩ := jsonAll_error json_restores hread
                have hheld := objectValues_held_of_plain hgenuine hkeys
                  (hdata.plain _ .refl) hmem
                rcases ih herror with hbad | ⟨ancestor, hancestor, hleads⟩
                · exact absurd (hdata.held hheld) hbad
                · rcases List.mem_cons.mp hancestor with rfl | hancestor
                  · exact absurd hleads (hdata.acyclic _ _ .refl hheld)
                  · exact ⟨ancestor, hancestor, .head hheld hleads⟩
          · exact .inl hdata

/-! ## Texts -/

theorem joinTexts_cons (text : JsString) (rest : List JsString) :
    joinTexts (text :: rest) = text ++ (rest.map fun t => JsonText.comma :: t).flatten := by
  induction rest generalizing text with
  | nil => simp [joinTexts]
  | cons next rest ih =>
      have hjoin : joinTexts (text :: next :: rest) =
          text ++ JsonText.comma :: joinTexts (next :: rest) := by
        simp [joinTexts, List.intercalate]
      rw [hjoin, ih]
      simp

theorem writeItems_eq (items : List JsonText) :
    JsonText.writeItems items =
      (items.map fun item => JsonText.comma :: item.write).flatten ++ [JsonText.closeBracket] := by
  induction items with
  | nil => rw [JsonText.writeItems]; rfl
  | cons item rest ih => rw [JsonText.writeItems, ih]; simp

theorem writeMembers_eq (members : List (JsString × JsonText)) :
    JsonText.writeMembers members =
      (members.map fun m => JsonText.comma :: (quote m.1 ++ JsonText.colon :: m.2.write)).flatten ++
        [JsonText.closeBrace] := by
  induction members with
  | nil => rw [JsonText.writeMembers]; rfl
  | cons m rest ih => rw [JsonText.writeMembers, ih]; simp

theorem write_arr (items : List JsonText) :
    (JsonText.arr items).write =
      JsonText.openBracket :: joinTexts (items.map JsonText.write) ++
        [JsonText.closeBracket] := by
  cases items with
  | nil => rw [JsonText.write]; rfl
  | cons item rest =>
      rw [JsonText.write, List.map_cons, joinTexts_cons, writeItems_eq, List.map_map]
      simp [Function.comp_def]

theorem write_obj (members : List (JsString × JsonText)) :
    (JsonText.obj members).write =
      JsonText.openBrace ::
        joinTexts (members.map fun m => quote m.1 ++ JsonText.colon :: m.2.write) ++
          [JsonText.closeBrace] := by
  cases members with
  | nil => rw [JsonText.write]; rfl
  | cons m rest =>
      rw [JsonText.write, List.map_cons, joinTexts_cons, writeMembers_eq, List.map_map]
      simp [Function.comp_def]

theorem textItems_eq (items : List Json) :
    Json.textItems numeral items = items.map (Json.text numeral) := by
  induction items with
  | nil => rw [Json.textItems]; rfl
  | cons item rest ih => rw [Json.textItems, ih]; rfl

theorem textMembers_eq (ms : List (JsString × Json)) :
    Json.textMembers numeral ms = ms.map fun m => (m.1, m.2.text numeral) := by
  induction ms with
  | nil => rw [Json.textMembers]; rfl
  | cons m rest ih => rw [Json.textMembers, ih]; rfl

theorem scalarText_ok {text : JsString} (h : scalarText numeral G value = .ok text) :
    ∃ t : Json, t.Spells G.values value ∧ text = (t.text numeral).write := by
  cases value with
  | null => exact ⟨.null, rfl, (Except.ok.inj h).symm⟩
  | bool b => exact ⟨.bool b, rfl, by cases b <;> exact (Except.ok.inj h).symm⟩
  | string s => exact ⟨.str s, rfl, (Except.ok.inj h).symm⟩
  | number n => exact ⟨.num n, rfl, by cases n <;> exact (Except.ok.inj h).symm⟩
  | foreign tag => cases h
  | ref address => cases h

/-- The trees of a list of values, and their texts. -/
theorem exists_trees {values : List JsValue} {texts : List JsString}
    (h : List.Forall₂ (fun value text => ∃ t : Json, t.Spells G.values value ∧
      text = (t.text numeral).write) values texts) :
    ∃ trees : List Json, List.Forall₂ (fun t value => t.Spells G.values value) trees values ∧
      texts = trees.map fun t => (t.text numeral).write := by
  induction h with
  | nil => exact ⟨[], .nil, rfl⟩
  | cons hfirst _ ih =>
      obtain ⟨t, hspells, rfl⟩ := hfirst
      obtain ⟨trees, hall, rfl⟩ := ih
      exact ⟨t :: trees, .cons hspells hall, rfl⟩

/-- An undefined value is no tree. -/
theorem not_spells_undefined (t : Json) : ¬ t.Spells G.values undefinedValue := by
  intro h
  have hlook : G.values.look undefinedValue = .foreign := rfl
  cases t with
  | arr items =>
      obtain ⟨entries, harray, -⟩ := Json.spells_arr.mp h
      rw [hlook] at harray
      cases harray
  | obj ms =>
      obtain ⟨members, hobject, -⟩ := Json.spells_obj.mp h
      rw [hlook] at hobject
      cases hobject
  | _ =>
      rw [Json.Spells, hlook] at h
      cases h

/-- The elements of an array all of whose values are trees: there are no holes. -/
theorem entries_of_spelled {entries : List (Option JsProperty)} {trees : List Json}
    (hentries : ∀ entry ∈ entries, entry = none ∨ ∃ value, entry = some (.data value true))
    (h : List.Forall₂ (fun t value => t.Spells G.values value) trees
      (entries.map entryValue)) :
    entries.map (Option.map JsProperty.descriptor) =
      (entries.map entryValue).map fun value => some (.data value true) := by
  rw [List.map_map]
  apply List.map_congr_left
  intro entry hentry
  rcases hentries entry hentry with rfl | ⟨value, rfl⟩
  · obtain ⟨t, -, hspells⟩ := exists_of_forall₂ h (List.mem_map_of_mem (f := entryValue) hentry)
    exact absurd hspells (not_spells_undefined t)
  · rfl

/-- The members of a plain record, each under its key. -/
theorem members_eq {members : List (JsString × JsProperty)}
    (hnodup : (members.map Prod.fst).Nodup)
    (hplain : ∀ m ∈ members, ∃ value, m.2 = .data value true) :
    members.map (fun m => (m.1, m.2.descriptor)) =
      ((members.map Prod.fst).map fun key => (key, memberValue members key)).map
        fun m => (m.1, .data m.2 true) := by
  rw [List.map_map, List.map_map]
  apply List.map_congr_left
  rintro ⟨key, property⟩ hmem
  obtain ⟨value, hvalue⟩ := hplain _ hmem
  have hproperty : property = .data value true := hvalue
  subst hproperty
  have hlookup : members.lookup key = some (.data value true) :=
    AssocList.lookup_eq_some_of_mem hnodup hmem
  simp only [Function.comp_apply, memberValue, hlookup, entryValue, JsProperty.descriptor]

/-- Trees under keys. -/
theorem forall₂_members {trees : List Json} {keys : List JsString}
    {f : JsString → JsValue}
    (h : List.Forall₂ (fun t value => t.Spells G.values value) trees (keys.map f)) :
    List.Forall₂ (fun m member => m.1 = member.1 ∧ Json.Spells G.values m.2 member.2)
      (keys.zip trees) (keys.map fun key => (key, f key)) := by
  induction keys generalizing trees with
  | nil => exact .nil
  | cons key rest ih =>
      rw [List.map_cons, List.forall₂_cons_right_iff] at h
      obtain ⟨t, others, hspells, hothers, rfl⟩ := h
      exact .cons ⟨rfl, hspells⟩ (ih hothers)

theorem wrapTexts_record {plain : Bool} {members : List (JsString × JsProperty)}
    {symbols : List JsProperty} {distinct : (members.map Prod.fst).Nodup}
    {keys : List JsString} {trees : List Json} :
    wrapTexts (.record plain members symbols distinct) keys
        (trees.map fun t => (t.text numeral).write) =
      ((Json.obj (keys.zip trees)).text numeral).write := by
  rw [Json.text, write_obj, textMembers_eq, List.map_map, wrapTexts, List.zipWith_map_right,
    List.zip, List.map_zipWith]
  rfl

theorem wrapTexts_array {entries : List (Option JsProperty)}
    {named : List (JsString × JsProperty)} {symbols : List JsProperty}
    {keys : List JsString} {trees : List Json} :
    wrapTexts (.array entries named symbols) keys
        (trees.map fun t => (t.text numeral).write) =
      ((Json.arr trees).text numeral).write := by
  rw [Json.text, write_arr, textItems_eq, List.map_map, wrapTexts]
  rfl

/-- An object whose values are trees is a tree. -/
theorem exists_tree (hgenuine : G.Genuine) {keys : List JsString} {trees : List Json}
    (hkeys : jsonKeys G address = .ok keys)
    (h : List.Forall₂ (fun t value => t.Spells G.values value) trees
      (objectValues (G.objects address) keys)) :
    ∃ t : Json, t.Spells G.values (.ref address) ∧
      wrapTexts (G.objects address) keys (trees.map fun t => (t.text numeral).write) =
        (t.text numeral).write := by
  cases hobject : G.objects address with
  | record plain members symbols distinct =>
      rw [hobject] at h
      obtain ⟨⟨rfl, rfl, hplain⟩, rfl⟩ := (jsonKeys_record hobject).mp hkeys
      refine ⟨.obj ((members.map Prod.fst).zip trees), ?_, wrapTexts_record⟩
      rw [Json.spells_obj]
      refine ⟨_, ?_, forall₂_members h⟩
      rw [← members_eq distinct hplain]
      exact look_record hobject
  | array entries named symbols =>
      rw [hobject] at h
      obtain ⟨hsub, rfl, rfl, hentries⟩ := (jsonKeys_array hgenuine hobject).mp ⟨keys, hkeys⟩
      refine ⟨.arr trees, ?_, wrapTexts_array⟩
      rw [Json.spells_arr]
      refine ⟨_, ?_, h⟩
      have hlook := look_array hobject
      rw [hsub, if_neg Bool.false_ne_true, entries_of_spelled hentries h] at hlook
      exact hlook

/-- What is accepted is a tree, and the text is that of the tree. -/
theorem json_ok (hgenuine : G.Genuine) {text : JsString}
    (h : json numeral G fuel ancestors value = some (.ok text, left)) :
    ∃ t : Json, t.Spells G.values value ∧ text = (t.text numeral).write := by
  induction fuel generalizing ancestors value text left with
  | zero => cases h
  | succ fuel ih =>
      by_cases hvalue : ∀ address, value ≠ .ref address
      · rw [json_scalar hvalue] at h
        exact scalarText_ok (Prod.mk.inj (Option.some.inj h)).1
      · push Not at hvalue
        obtain ⟨address, rfl⟩ := hvalue
        rcases json_ref h with ⟨-, ⟨error, herror⟩, -⟩ | ⟨-, -, ⟨error, herror⟩, -⟩ |
          ⟨-, keys, ⟨result, state⟩, hkeys, hread, hresult, -⟩
        · cases herror
        · cases herror
        · obtain ⟨texts, rfl, rfl⟩ := map_eq_ok_iff.mp hresult.symm
          have hall := jsonAll_ok json_restores hread
          obtain ⟨trees, htrees, rfl⟩ := exists_trees (hall.imp fun _ _ hone => ih hone)
          obtain ⟨t, hspells, htext⟩ := exists_tree hgenuine hkeys htrees
          exact ⟨t, hspells, htext⟩

end Objects

/-! ## Trees of the language -/

section Trees

variable {numeral : ℚ → Numeral} {G : Graph} {value : JsValue}

theorem genuineItems_of_forall {items : List Json} (h : ∀ item ∈ items, item.Genuine) :
    Json.GenuineItems items := by
  induction items with
  | nil => exact trivial
  | cons item rest ih =>
      rw [List.forall_mem_cons] at h
      exact ⟨h.1, ih h.2⟩

theorem genuineMembers_of_forall {ms : List (JsString × Json)} (h : ∀ m ∈ ms, m.2.Genuine) :
    Json.GenuineMembers ms := by
  induction ms with
  | nil => exact trivial
  | cons m rest ih =>
      rw [List.forall_mem_cons] at h
      exact ⟨h.1, ih h.2⟩

/-- What holds another value is an object. -/
theorem ref_of_holds {held : JsValue} (h : G.values.Holds value held) :
    ∃ address, value = .ref address := by
  cases value with
  | ref address => exact ⟨address, rfl⟩
  | _ =>
      cases h with
      | item _ _ _ hlook => cases hlook
      | member _ _ _ hlook => cases hlook

theorem Graph.Genuine.valid_held (hgenuine : G.Genuine) {held : JsValue}
    (hvalid : G.Valid value) (h : G.values.Holds value held) : G.Valid held := by
  obtain ⟨address, rfl⟩ := ref_of_holds h
  exact hgenuine.held address held hvalid h

/-- The keys of an object are distinct and listed in order. -/
theorem Graph.Genuine.keys (hgenuine : G.Genuine) {members : List (JsString × Slot JsValue)}
    {plain : Bool} {symbols : ℕ} (hlook : G.look value = .object plain members symbols) :
    (members.map Prod.fst).Nodup ∧ KeysOrdered (members.map Prod.fst) := by
  cases value with
  | ref address =>
      cases hobject : G.objects address with
      | record plain' others symbols' distinct =>
          rw [look_record hobject] at hlook
          obtain ⟨-, rfl, -⟩ := Shape.object.inj hlook
          have hkeys : (others.map fun m => (m.1, m.2.descriptor)).map Prod.fst =
              others.map Prod.fst := by
            rw [List.map_map]
            rfl
          rw [hkeys]
          exact ⟨distinct, hgenuine.ordered _ _ _ _ _ hobject⟩
      | array entries named symbols' =>
          rw [look_array hobject] at hlook
          split at hlook <;> cases hlook
  | _ => cases hlook

theorem look_eq_number {n : JsNumber} (h : G.look value = .number n) : value = .number n := by
  cases value with
  | number other => rw [Shape.number.inj h]
  | ref address =>
      cases hobject : G.objects address with
      | record plain members symbols distinct =>
          rw [look_record hobject] at h
          cases h
      | array entries named symbols =>
          rw [look_array hobject] at h
          split at h <;> cases h
  | _ => cases h

theorem keys_eq_of_forall₂ {α β : Type} {ms : List (JsString × α)} {members : List (JsString × β)}
    (h : List.Forall₂ (fun m member => m.1 = member.1) ms members) :
    ms.map Prod.fst = members.map Prod.fst := by
  rwa [← List.forall₂_eq_eq_eq, List.forall₂_map_left_iff, List.forall₂_map_right_iff]

/-- The trees of the values of a graph have doubles for numbers and list their
members in order. -/
theorem genuine_of_spells (hgenuine : G.Genuine) {t : Json} (hvalid : G.Valid value)
    (h : t.Spells G.values value) : t.Genuine := by
  induction hsize : sizeOf t using Nat.strong_induction_on generalizing t value with
  | _ n ih =>
    subst hsize
    cases t with
    | null => exact trivial
    | bool b => exact trivial
    | str text => exact trivial
    | num n =>
        have hvalue : value = .number n := look_eq_number h
        subst hvalue
        exact hvalid
    | arr items =>
        obtain ⟨entries, hlook, hitems⟩ := Json.spells_arr.mp h
        apply genuineItems_of_forall
        intro item hitem
        obtain ⟨entry, hentry, hspells⟩ := exists_of_forall₂ hitems.flip hitem
        have hheld : G.values.Holds value entry :=
          .item _ _ _ hlook entry true (List.mem_map_of_mem hentry)
        exact ih _ (Json.sizeOf_item hitem) (hgenuine.valid_held hvalid hheld) hspells rfl
    | obj ms =>
        obtain ⟨members, hlook, hms⟩ := Json.spells_obj.mp h
        have hfst : ms.map Prod.fst = members.map Prod.fst :=
          keys_eq_of_forall₂ (hms.imp fun _ _ hm => hm.1)
        have hkeys := hgenuine.keys hlook
        rw [List.map_map] at hkeys
        refine ⟨?_, genuineMembers_of_forall ?_⟩
        · rw [hfst]
          exact hkeys
        · intro m hm
          obtain ⟨member, hmember, -, hspells⟩ := exists_of_forall₂ hms.flip hm
          have hheld : G.values.Holds value member.2 :=
            .member _ _ _ hlook member.1 member.2 true (List.mem_map_of_mem hmember)
          exact ih _ (Json.sizeOf_member hm) (hgenuine.valid_held hvalid hheld) hspells rfl

/-! ## Losslessness -/

theorem Json.Spells.isPlainNode {t : Json} (h : t.Spells G.values value) :
    IsPlainNode (G.look value) := by
  cases t with
  | arr items =>
      obtain ⟨entries, hlook, -⟩ := Json.spells_arr.mp h
      have hplain : IsPlainNode (G.values.look value) := by
        rw [hlook, IsPlainNode]
        refine ⟨rfl, rfl, ?_⟩
        rw [List.forall_mem_map]
        exact fun entry _ => ⟨entry, rfl⟩
      exact hplain
  | obj ms =>
      obtain ⟨members, hlook, -⟩ := Json.spells_obj.mp h
      have hplain : IsPlainNode (G.values.look value) := by
        rw [hlook, IsPlainNode]
        refine ⟨rfl, rfl, ?_⟩
        rw [List.forall_mem_map]
        exact fun m _ => ⟨m.2, rfl⟩
      exact hplain
  | _ =>
      have hlook : G.look value = _ := h
      rw [hlook]
      exact trivial

/-- A value that unfolds to a tree is plain data without cycles. -/
theorem isJsonData_of_spells {t : Json} (h : t.Spells G.values value) : IsJsonData G value := by
  constructor
  · intro other hleads
    obtain ⟨child, hchild, -⟩ := h.leads hleads
    exact Json.Spells.isPlainNode hchild
  · exact fun other held hleads hheld => h.acyclic hleads hheld

/-- What losslessness of stored text means for a value: with enough fuel there
is a result, plain data is accepted and everything else refused, and parsing an
accepted text gives the tree that the value unfolds to. -/
structure Lossless (numeral : ℚ → Numeral) (G : Graph) (value : JsValue) (fuel : ℕ) : Prop where
  total : ∃ result, json numeral G fuel [] value = some (result, [])
  accepts : (∃ text left, json numeral G fuel [] value = some (.ok text, left)) ↔
    IsJsonData G value
  parses : ∀ text left, json numeral G fuel [] value = some (.ok text, left) →
    ∃ t, parseJson text = some t ∧ t.Spells G.values value

/-- The serializer is lossless. -/
theorem json_lossless (hnumbers : WritesNumbers numeral) (hgenuine : G.Genuine)
    (hvalid : G.Valid value) {fuel : ℕ} (hfuel : G.size < fuel) :
    Lossless numeral G value fuel := by
  have htotal : ∃ result, json numeral G fuel [] value = some (result, []) :=
    json_total hgenuine List.nodup_nil (fun a ha => absurd ha List.not_mem_nil) hvalid hfuel
  constructor
  · exact htotal
  · constructor
    · rintro ⟨text, left, hok⟩
      obtain ⟨t, hspells, -⟩ := json_ok hgenuine hok
      exact isJsonData_of_spells hspells
    · intro hdata
      obtain ⟨result, hresult⟩ := htotal
      cases result with
      | ok text => exact ⟨text, [], hresult⟩
      | error error =>
          rcases json_error hgenuine hresult with hbad | ⟨address, hmem, -⟩
          · exact absurd hdata hbad
          · exact absurd hmem List.not_mem_nil
  · intro text left hok
    obtain ⟨t, hspells, rfl⟩ := json_ok hgenuine hok
    exact ⟨t, Json.parseJson_write hnumbers (genuine_of_spells hgenuine hvalid hspells), hspells⟩

/-- An object with one array under two keys. -/
def twiceHeld : Graph where
  objects address :=
    if address = 0 then
      .record true [(js "b", .data (.ref 1) true), (js "a", .data (.ref 1) true)] []
        (by decide)
    else .array [some (.data (.number .negativeZero) true), some (.data (.number (.rational 1)) true)]
      [] []
  subclassed _ := false
  numeric _ := false
  size := 2

theorem twiceHeld_object {address : Address} (h : address ≠ 0) :
    twiceHeld.objects address =
      .array [some (.data (.number .negativeZero) true),
        some (.data (.number (.rational 1)) true)] [] [] :=
  if_neg h

theorem twiceHeld_genuine : twiceHeld.Genuine := by
  have hone : nearestDouble |(1 : ℚ)| = some |(1 : ℚ)| := by
    have hcast : |(1 : ℚ)| = ((1 : ℤ) : ℚ) := by simp
    rw [hcast]
    exact nearestDouble_intCast (by decide)
  constructor
  · intro address held _ hheld
    by_cases haddress : address = 0
    · subst haddress
      cases hheld with
      | item _ _ _ hlook => cases hlook
      | member _ _ _ hlook key _ enumerable hmem =>
          cases hlook
          have hheld : held = .ref 1 := by
            simp only [List.map_cons, List.map_nil, List.mem_cons, Prod.mk.injEq,
              JsProperty.descriptor, Slot.data.injEq, List.not_mem_nil, or_false] at hmem
            rcases hmem with ⟨-, hvalue, -⟩ | ⟨-, hvalue, -⟩
            · exact hvalue
            · exact hvalue
          subst hheld
          exact (by decide : (1 : ℕ) < 2)
    · have hlook := look_array (twiceHeld_object haddress)
      cases hheld with
      | item _ _ _ hlook' _ enumerable hmem =>
          rw [← (Shape.array.inj (hlook.symm.trans hlook')).1] at hmem
          simp only [List.map_cons, List.map_nil, List.mem_cons, Option.map_some,
            JsProperty.descriptor, Option.some.injEq, Slot.data.injEq, List.not_mem_nil,
            or_false] at hmem
          rcases hmem with ⟨rfl, -⟩ | ⟨rfl, -⟩
          · exact trivial
          · exact hone
      | member _ _ _ hlook' => cases hlook.symm.trans hlook'
  · intro address plain members symbols distinct hobject
    by_cases haddress : address = 0
    · subst haddress
      cases hobject
      decide
    · rw [twiceHeld_object haddress] at hobject
      cases hobject
  · intro address entries named symbols hobject m hm
    by_cases haddress : address = 0
    · subst haddress
      cases hobject
    · rw [twiceHeld_object haddress] at hobject
      cases hobject
      cases hm

theorem json_lossless_twiceHeld : Lossless exactNumeral twiceHeld (.ref 0) 3 :=
  json_lossless writesNumbers_exact twiceHeld_genuine
    (show twiceHeld.Valid (.ref 0) from Nat.zero_lt_two) (by decide)

example :
    json exactNumeral twiceHeld 3 [] (.ref 0) =
      some (.ok (js "\x7b\"b\":[-0,1],\"a\":[-0,1]\x7d"), []) := by
  decide

end Trees

end DrFed.Store
