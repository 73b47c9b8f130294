import Mathlib.Logic.Hydra
import DrFed.Js.Memory

/-!
# Copying a document

The loop that copies the source of a preview.  Each turn of it takes an object
and its empty copy, and defines the entries of the one on the other; an entry
that is an object gets an empty copy of its own, so that what the source shares
is no longer shared in the copy.
-/

namespace DrFed.Document

/-- The objects that wait to be copied, the last one first, each with its copy,
and the entries that are being copied with the object they go to. -/
structure CopyState where
  memory : Memory
  pending : List (Address × Address)
  current : Option (Address × List (Segment × JsValue))

namespace CopyState

/-- The copy of the document, `{}`, and the loop before its first turn. -/
def start (m : Memory) (source : Address) : CopyState where
  memory := m.allocate (JsObject.ofMembers [] List.nodup_nil)
  pending := [(source, m.next)]
  current := none

/-- Define a copied entry. -/
def define (s : CopyState) (target : Address) (key : Segment) (copy : JsValue)
    (rest : List (Segment × JsValue)) : CopyState where
  memory := s.memory.write target ((s.memory.heap target).define key copy)
  pending := s.pending
  current := some (target, rest)

/-- Make an empty copy of an object. -/
def push (s : CopyState) (source : Address) : CopyState where
  memory := s.memory.allocate (s.memory.heap source).emptyLike
  pending := (source, s.memory.next) :: s.pending
  current := s.current

/-- Copy one entry. -/
def copyEntry (s : CopyState) (target : Address) (key : Segment)
    (value : JsValue) (rest : List (Segment × JsValue)) : CopyState :=
  match value with
  | .ref source =>
      (s.push source).define target key (.ref s.memory.next) rest
  | value => s.define target key value rest

/-- Copy the next entry, or take the next object. -/
def step (s : CopyState) : Option CopyState :=
  match s.current, s.pending with
  | some (target, (key, value) :: rest), _ =>
      some (s.copyEntry target key value rest)
  | _, (source, target) :: pending =>
      some
        { memory := s.memory
          pending := pending
          current := some (target, (s.memory.heap source).entries) }
  | _, [] => none

/-- Turns of the loop. -/
abbrev Steps : CopyState → CopyState → Prop :=
  Relation.ReflTransGen fun s s' => s.step = some s'

end CopyState

/-! ## Objects being copied -/

/-- An entry and its copy: the value itself, or the copy of an object. -/
inductive Alike (pairs : List (Address × Address)) : JsValue → JsValue → Prop
  | scalar {value : JsValue} (h : ∀ address, value ≠ .ref address) :
      Alike pairs value value
  | object {source target : Address} (h : (source, target) ∈ pairs) :
      Alike pairs (.ref source) (.ref target)

/-- What has been copied of an object, and the entries that are left. -/
inductive Filled (pairs : List (Address × Address))
    (source target : JsObject) : List (Segment × JsValue) → Prop
  | record (members done rest made : List (JsString × JsValue))
      (hmembers : members = done ++ rest)
      (distinct : (members.map Prod.fst).Nodup)
      (hsource : source = .ofMembers members distinct)
      (made_distinct : (made.map Prod.fst).Nodup)
      (htarget : target = .ofMembers made made_distinct)
      (halike : List.Forall₂ (fun m n => m.1 = n.1 ∧ Alike pairs m.2 n.2)
        done made) :
      Filled pairs source target (rest.map fun m => (.key m.1, m.2))
  | array (items done rest made : List JsValue)
      (hitems : items = done ++ rest) (hsource : source = .ofItems items)
      (htarget : target = .ofItems made)
      (halike : List.Forall₂ (Alike pairs) done made) :
      Filled pairs source target
        ((rest.zipIdx done.length).map fun entry => (.index entry.2, entry.1))

section Filled

variable {pairs others : List (Address × Address)} {source target : JsObject}
  {left : List (Segment × JsValue)} {value copy : JsValue}

theorem Alike.mono (hsub : pairs ⊆ others) (h : Alike pairs value copy) :
    Alike others value copy := by
  cases h with
  | scalar h => exact .scalar h
  | object h => exact .object (hsub h)

theorem Filled.mono (hsub : pairs ⊆ others)
    (h : Filled pairs source target left) :
    Filled others source target left := by
  cases h with
  | record members done rest made hmembers distinct hsource made_distinct
      htarget halike =>
      exact .record members done rest made hmembers distinct hsource
        made_distinct htarget (halike.imp fun _ _ h => ⟨h.1, h.2.mono hsub⟩)
  | array items done rest made hitems hsource htarget halike =>
      exact .array items done rest made hitems hsource htarget
        (halike.imp fun _ _ h => h.mono hsub)

/-- A spelled object is a plain object or an array. -/
theorem exists_plain {h : Heap} {json : Json} {address : Address}
    (hspells : json.Spells h.values (.ref address)) :
    (∃ members distinct, h address = .ofMembers members distinct) ∨
      ∃ items, h address = .ofItems items := by
  cases json with
  | obj ms =>
      obtain ⟨members, hlook, -⟩ := Json.spells_obj.mp hspells
      exact .inl ⟨members, JsObject.eq_ofMembers hlook⟩
  | arr items =>
      obtain ⟨entries, hlook, -⟩ := Json.spells_arr.mp hspells
      exact .inr ⟨entries, JsObject.eq_ofItems hlook⟩
  | _ =>
      rw [Json.Spells] at hspells
      have hlook : h.values.look (.ref address) = (h address).shape := rfl
      rw [hlook] at hspells
      cases hobject : h address <;>
        simp [hobject, JsObject.shape] at hspells

theorem Filled.start
    (h : (∃ members distinct, source = .ofMembers members distinct) ∨
      ∃ items, source = .ofItems items) :
    Filled pairs source source.emptyLike source.entries := by
  rcases h with ⟨members, distinct, rfl⟩ | ⟨items, rfl⟩
  · rw [JsObject.entries_ofMembers]
    exact .record members [] members [] rfl distinct rfl List.nodup_nil rfl
      .nil
  · rw [JsObject.entries_ofItems]
    exact .array items [] items [] rfl rfl rfl .nil

theorem forall₂_map_fst {κ α β : Type} {R : α → β → Prop}
    {xs : List (κ × α)} {ys : List (κ × β)}
    (h : List.Forall₂ (fun x y => x.1 = y.1 ∧ R x.2 y.2) xs ys) :
    xs.map Prod.fst = ys.map Prod.fst := by
  induction h with
  | nil => rfl
  | cons hxy _ ih => rw [List.map_cons, List.map_cons, hxy.1, ih]

theorem Filled.holds {h : Heap} {address : Address}
    (hfilled : Filled pairs (h address) target left) {entry : Segment × JsValue}
    (hentry : entry ∈ left) : h.values.Holds (.ref address) entry.2 := by
  have hlook : h.values.look (.ref address) = (h address).shape := rfl
  cases hfilled with
  | record members done rest made hmembers distinct hsource =>
      obtain ⟨m, hm, rfl⟩ := List.mem_map.mp hentry
      rw [hsource, JsObject.shape_ofMembers] at hlook
      exact Values.holds_member hlook
        (hmembers ▸ List.mem_append_right done hm)
  | array items done rest made hitems hsource =>
      obtain ⟨item, hitem, rfl⟩ := List.mem_map.mp hentry
      rw [hsource, JsObject.shape_ofItems] at hlook
      refine Values.holds_entry hlook
        (hitems ▸ List.mem_append_right done ?_)
      exact List.fst_mem_of_mem_zipIdx hitem

/-- The next entry of an object is defined on its copy. -/
theorem Filled.define {key : Segment}
    (h : Filled pairs source target ((key, value) :: left))
    (halike : Alike pairs value copy) :
    Filled pairs source (target.define key copy) left ∧
      (target.define key copy).entries = target.entries ++ [(key, copy)] := by
  generalize hall : (key, value) :: left = entries at h
  cases h with
  | record members done rest made hmembers distinct hsource made_distinct
      htarget hdone =>
      cases rest with
      | nil => cases hall
      | cons m rest =>
          obtain ⟨hhead, rfl⟩ := List.cons.inj hall
          obtain ⟨rfl, rfl⟩ := Prod.mk.inj hhead
          have hkeys := forall₂_map_fst hdone
          have hnext : ((made ++ [(m.1, copy)]).map Prod.fst).Nodup := by
            rw [hmembers, List.append_cons, List.map_append,
              List.map_append, hkeys] at distinct
            rw [List.map_append]
            exact (List.nodup_append.mp distinct).1
          rw [htarget, JsObject.define_ofMembers hnext]
          refine ⟨?_, by simp⟩
          refine .record members (done ++ [m]) rest _ ?_ distinct hsource hnext
            rfl (List.rel_append hdone (.cons ⟨rfl, halike⟩ .nil))
          rw [hmembers, List.append_cons]
  | array items done rest made hitems hsource htarget hdone =>
      cases rest with
      | nil => cases hall
      | cons item rest =>
          obtain ⟨hhead, rfl⟩ := List.cons.inj hall
          obtain ⟨rfl, rfl⟩ := Prod.mk.inj hhead
          have hlength := hdone.length_eq
          rw [htarget]
          dsimp only
          rw [hlength, JsObject.define_ofItems]
          refine ⟨?_, by simp [List.zipIdx_append]⟩
          have hrest : Filled pairs source (.ofItems (made ++ [copy])) _ :=
            .array items (done ++ [value]) rest (made ++ [copy])
              (by rw [hitems, List.append_cons]) hsource rfl
              (List.rel_append hdone (.cons halike .nil))
          rw [List.length_append, List.length_singleton, hlength] at hrest
          exact hrest

end Filled

/-! ## The loop -/

/-- The entries that are left of an object that is being copied. -/
inductive CopyState.Leaves (s : CopyState) (h : Heap)
    (pair : Address × Address) : List (Segment × JsValue) → Prop
  | current (entries : List (Segment × JsValue))
      (hcurrent : s.current = some (pair.2, entries)) : Leaves s h pair entries
  | pending (hpending : pair ∈ s.pending) : Leaves s h pair (h pair.1).entries
  | finished (hcurrent : ∀ entries, s.current ≠ some (pair.2, entries))
      (hpending : pair ∉ s.pending) : Leaves s h pair []

/-- What holds after any turns.  The pairs are the objects met so far with
their copies; a copy is held by one entry of one other copy. -/
structure Copying (m : Memory) (source : Address)
    (pairs : List (Address × Address)) (s : CopyState) : Prop where
  root : (source, m.next) ∈ pairs
  kept : ∀ address < m.next, s.memory.heap address = m.heap address
  targets : ∀ p ∈ pairs, m.next ≤ p.2 ∧ p.2 < s.memory.next
  nodup : (pairs.map Prod.snd).Nodup
  sources : ∀ p ∈ pairs, m.heap.values.Leads (.ref source) (.ref p.1)
  filled : ∀ p ∈ pairs, ∃ left, s.Leaves m.heap p left ∧
    Filled pairs (m.heap p.1) (s.memory.heap p.2) left
  pending : ∀ p ∈ s.pending, p ∈ pairs
  distinct : s.pending.Nodup
  current : ∀ target entries, s.current = some (target, entries) →
    ∃ p ∈ pairs, p.2 = target ∧ p ∉ s.pending
  held : ∀ p ∈ pairs, ∀ key a,
    (key, .ref a) ∈ (s.memory.heap p.2).entries →
      a ≠ m.next ∧ a ∈ pairs.map Prod.snd
  once : ∀ p ∈ pairs, ∀ q ∈ pairs, ∀ key other a,
    (key, .ref a) ∈ (s.memory.heap p.2).entries →
    (other, .ref a) ∈ (s.memory.heap q.2).entries → p = q ∧ key = other

section Copying

variable {m : Memory} {source : Address} {pairs : List (Address × Address)}
  {s : CopyState}

theorem Copying.injective (h : Copying m source pairs s)
    {p q : Address × Address} (hp : p ∈ pairs) (hq : q ∈ pairs)
    (heq : p.2 = q.2) : p = q :=
  List.inj_on_of_nodup_map h.nodup hp hq heq

theorem Copying.define {target : Address} {key : Segment}
    {value copy : JsValue} {rest : List (Segment × JsValue)}
    (h : Copying m source pairs s)
    (hcurrent : s.current = some (target, (key, value) :: rest))
    (halike : Alike pairs value copy)
    (hnew : ∀ a, copy = .ref a → a ≠ m.next ∧ a ∈ pairs.map Prod.snd ∧
      ∀ p ∈ pairs, ∀ other,
        (other, .ref a) ∉ (s.memory.heap p.2).entries) :
    Copying m source pairs (s.define target key copy rest) := by
  obtain ⟨p, hp, rfl, hnot⟩ := h.current _ _ hcurrent
  have hother : ∀ {a : Address}, a ≠ p.2 →
      (s.define p.2 key copy rest).memory.heap a = s.memory.heap a :=
    fun hne => Function.update_of_ne hne _ _
  have hself : (s.define p.2 key copy rest).memory.heap p.2 =
      (s.memory.heap p.2).define key copy := Function.update_self _ _ _
  have hfilled : Filled pairs (m.heap p.1) (s.memory.heap p.2)
      ((key, value) :: rest) := by
    obtain ⟨left, hleaves, hleft⟩ := h.filled p hp
    cases hleaves with
    | current entries heq =>
        rw [hcurrent] at heq
        obtain ⟨-, rfl⟩ := Prod.mk.inj (Option.some.inj heq)
        exact hleft
    | pending hpending => exact absurd hpending hnot
    | finished hfinished => exact absurd hcurrent (hfinished _)
  obtain ⟨hnext, hentries⟩ := hfilled.define halike
  have hcases : ∀ q ∈ pairs, ∀ other a,
      (other, .ref a) ∈ ((s.define p.2 key copy rest).memory.heap
        q.2).entries → (other, .ref a) ∈ (s.memory.heap q.2).entries ∨
          (q = p ∧ other = key ∧ copy = .ref a) := by
    intro q hq other a hmem
    by_cases hqp : q.2 = p.2
    · obtain rfl := h.injective hq hp hqp
      rw [hself, hentries, List.mem_append, List.mem_singleton] at hmem
      refine hmem.imp_right fun heq => ?_
      obtain ⟨rfl, rfl⟩ := Prod.mk.inj heq
      exact ⟨rfl, rfl, rfl⟩
    · rw [hother hqp] at hmem
      exact .inl hmem
  refine ⟨h.root, ?_, h.targets, h.nodup, h.sources, ?_, h.pending, h.distinct,
    ?_, ?_, ?_⟩
  · intro a ha
    have hne := (Nat.lt_of_lt_of_le ha (h.targets p hp).1).ne
    rw [hother hne]
    exact h.kept a ha
  · intro q hq
    by_cases hqp : q.2 = p.2
    · obtain rfl := h.injective hq hp hqp
      refine ⟨rest, .current rest rfl, ?_⟩
      rw [hself]
      exact hnext
    · obtain ⟨left, hleaves, hleft⟩ := h.filled q hq
      refine ⟨left, ?_, by rwa [hother hqp]⟩
      cases hleaves with
      | current entries heq =>
          rw [hcurrent] at heq
          exact absurd (Prod.mk.inj (Option.some.inj heq)).1.symm hqp
      | pending hpending => exact .pending hpending
      | finished _ hpending =>
          refine .finished (fun entries heq => hqp ?_) hpending
          exact (Prod.mk.inj (Option.some.inj heq)).1.symm
  · intro target entries heq
    obtain ⟨rfl, -⟩ := Prod.mk.inj (Option.some.inj heq)
    exact ⟨p, hp, rfl, hnot⟩
  · intro q hq other a hmem
    rcases hcases q hq other a hmem with hold | ⟨-, -, hcopy⟩
    · exact h.held q hq other a hold
    · exact ⟨(hnew a hcopy).1, (hnew a hcopy).2.1⟩
  · intro q hq r hr first second a hfirst hsecond
    rcases hcases q hq first a hfirst with hold | ⟨rfl, rfl, hcopy⟩
    · rcases hcases r hr second a hsecond with hold' | ⟨-, -, hcopy⟩
      · exact h.once q hq r hr first second a hold hold'
      · exact absurd hold ((hnew a hcopy).2.2 q hq first)
    · rcases hcases r hr second a hsecond with hold' | ⟨rfl, rfl, -⟩
      · exact absurd hold' ((hnew a hcopy).2.2 r hr second)
      · exact ⟨rfl, rfl⟩

theorem Copying.push {x : Address} (h : Copying m source pairs s)
    (hleads : m.heap.values.Leads (.ref source) (.ref x))
    (hold : x < m.next)
    (hplain : (∃ members distinct,
        m.heap x = .ofMembers members distinct) ∨
      ∃ items, m.heap x = .ofItems items) :
    Copying m source ((x, s.memory.next) :: pairs) (s.push x) ∧
      ∀ p ∈ (x, s.memory.next) :: pairs, ∀ key,
        (key, .ref s.memory.next) ∉
          ((s.push x).memory.heap p.2).entries := by
  have hother : ∀ {a : Address}, a ≠ s.memory.next →
      (s.push x).memory.heap a = s.memory.heap a :=
    fun hne => Function.update_of_ne hne _ _
  have hself : (s.push x).memory.heap s.memory.next =
      (m.heap x).emptyLike := by
    rw [← h.kept x hold]
    exact Function.update_self _ _ _
  have hempty : (m.heap x).emptyLike.entries = [] := by
    rcases hplain with ⟨members, distinct, heq⟩ | ⟨items, heq⟩ <;>
      simp [heq]
  have hne : ∀ p ∈ pairs, p.2 ≠ s.memory.next := by
    exact fun p hp => (h.targets p hp).2.ne
  have hbase : m.next < s.memory.next := (h.targets _ h.root).2
  have hcases : ∀ q ∈ (x, s.memory.next) :: pairs, ∀ other a,
      (other, .ref a) ∈ ((s.push x).memory.heap q.2).entries →
        q ∈ pairs ∧ (other, .ref a) ∈ (s.memory.heap q.2).entries := by
    intro q hq other a hmem
    rcases List.mem_cons.mp hq with rfl | hq
    · rw [hself, hempty] at hmem
      cases hmem
    · rw [hother (hne q hq)] at hmem
      exact ⟨hq, hmem⟩
  refine ⟨⟨List.mem_cons_of_mem _ h.root, ?_, ?_, ?_, ?_, ?_, ?_, ?_, ?_, ?_,
    ?_⟩, ?_⟩
  · intro a ha
    rw [hother (Nat.lt_trans ha hbase).ne]
    exact h.kept a ha
  · intro p hp
    rcases List.mem_cons.mp hp with rfl | hp
    · exact ⟨hbase.le, Nat.lt_succ_self _⟩
    · exact (h.targets p hp).imp_right fun hlt => Nat.lt_succ_of_lt hlt
  · refine List.nodup_cons.mpr ⟨fun hmem => ?_, h.nodup⟩
    obtain ⟨p, hp, heq⟩ := List.mem_map.mp hmem
    exact hne p hp heq
  · intro p hp
    rcases List.mem_cons.mp hp with rfl | hp
    · exact hleads
    · exact h.sources p hp
  · intro p hp
    rcases List.mem_cons.mp hp with rfl | hp
    · refine ⟨_, .pending List.mem_cons_self, ?_⟩
      dsimp only
      rw [hself]
      exact .start hplain
    · obtain ⟨left, hleaves, hleft⟩ := h.filled p hp
      refine ⟨left, ?_, ?_⟩
      · cases hleaves with
        | current entries heq => exact .current _ heq
        | pending hpending => exact .pending (List.mem_cons_of_mem _ hpending)
        | finished hcurrent hpending =>
            refine .finished hcurrent fun hmem => ?_
            rcases List.mem_cons.mp hmem with rfl | hmem
            · exact hne _ hp rfl
            · exact hpending hmem
      · rw [hother (hne p hp)]
        exact hleft.mono (List.subset_cons_self _ _)
  · intro p hp
    rcases List.mem_cons.mp hp with rfl | hp
    · exact List.mem_cons_self
    · exact List.mem_cons_of_mem _ (h.pending p hp)
  · refine List.nodup_cons.mpr ⟨fun hmem => ?_, h.distinct⟩
    exact hne _ (h.pending _ hmem) rfl
  · intro target entries heq
    obtain ⟨p, hp, htarget, hnot⟩ := h.current target entries heq
    refine ⟨p, List.mem_cons_of_mem _ hp, htarget, fun hmem => ?_⟩
    rcases List.mem_cons.mp hmem with rfl | hmem
    · exact hne _ hp rfl
    · exact hnot hmem
  · intro q hq other a hmem
    obtain ⟨hq, hmem⟩ := hcases q hq other a hmem
    obtain ⟨hroot, hin⟩ := h.held q hq other a hmem
    exact ⟨hroot, List.mem_cons_of_mem _ hin⟩
  · intro q hq r hr first second a hfirst hsecond
    obtain ⟨hq, hfirst⟩ := hcases q hq first a hfirst
    obtain ⟨hr, hsecond⟩ := hcases r hr second a hsecond
    exact h.once q hq r hr first second a hfirst hsecond
  · intro p hp key hmem
    obtain ⟨hp, hmem⟩ := hcases p hp key _ hmem
    obtain ⟨q, hq, heq⟩ := List.mem_map.mp (h.held p hp key _ hmem).2
    exact hne q hq heq

/-- The next object is taken when nothing is left of the one before. -/
theorem Copying.take {x target : Address} {rest : List (Address × Address)}
    (h : Copying m source pairs s)
    (hcurrent : ∀ target entries, s.current = some (target, entries) →
      entries = [])
    (hpending : s.pending = (x, target) :: rest) (hold : x < m.next) :
    Copying m source pairs
      { memory := s.memory
        pending := rest
        current := some (target, (s.memory.heap x).entries) } := by
  have hmem : (x, target) ∈ pairs :=
    h.pending _ (hpending ▸ List.mem_cons_self)
  have hdistinct := h.distinct
  rw [hpending, List.nodup_cons] at hdistinct
  refine ⟨h.root, h.kept, h.targets, h.nodup, h.sources, ?_, ?_,
    hdistinct.2, ?_, h.held, h.once⟩
  · intro p hp
    obtain ⟨left, hleaves, hleft⟩ := h.filled p hp
    by_cases heq : p.2 = target
    · obtain rfl := h.injective hp hmem heq
      refine ⟨left, ?_, hleft⟩
      cases hleaves with
      | current entries hother =>
          obtain ⟨q, hq, hqtarget, hnot⟩ := h.current _ _ hother
          obtain rfl := h.injective hq hp hqtarget
          exact absurd (hpending ▸ List.mem_cons_self) hnot
      | pending =>
          rw [← h.kept x hold]
          exact .current _ rfl
      | finished _ hnot =>
          exact absurd (hpending ▸ List.mem_cons_self) hnot
    · have hfinished : p ∉ s.pending → left = [] →
          CopyState.Leaves
            { memory := s.memory
              pending := rest
              current := some (target, (s.memory.heap x).entries) } m.heap p
            left := by
        rintro hnot rfl
        refine .finished (fun entries hother => heq ?_) fun hin => hnot ?_
        · exact (Prod.mk.inj (Option.some.inj hother)).1.symm
        · exact hpending ▸ List.mem_cons_of_mem _ hin
      refine ⟨left, ?_, hleft⟩
      cases hleaves with
      | current entries hother =>
          obtain ⟨q, hq, hqtarget, hnot⟩ := h.current _ _ hother
          obtain rfl := h.injective hq hp hqtarget
          exact hfinished hnot (hcurrent _ _ hother)
      | pending hin =>
          rw [hpending] at hin
          rcases List.mem_cons.mp hin with rfl | hin
          · exact absurd rfl heq
          · exact .pending hin
      | finished _ hnot => exact hfinished hnot rfl
  · intro p hp
    exact h.pending p (hpending ▸ List.mem_cons_of_mem _ hp)
  · intro other entries heq
    obtain ⟨rfl, -⟩ := Prod.mk.inj (Option.some.inj heq)
    exact ⟨_, hmem, rfl, hdistinct.1⟩

theorem Copying.start {m : Memory} {source : Address}
    {members : List (JsString × JsValue)}
    {distinct : (members.map Prod.fst).Nodup}
    (hobject : m.heap source = .ofMembers members distinct) :
    Copying m source [(source, m.next)] (CopyState.start m source) := by
  have hself : (CopyState.start m source).memory.heap m.next =
      .ofMembers [] List.nodup_nil := Function.update_self _ _ _
  have hsingle : ∀ p ∈ [(source, m.next)], p = (source, m.next) :=
    fun p hp => List.mem_singleton.mp hp
  have hnone : ∀ p ∈ [(source, m.next)], ∀ key a,
      (key, JsValue.ref a) ∉
        ((CopyState.start m source).memory.heap p.2).entries := by
    intro p hp key a hmem
    rw [hsingle p hp, hself] at hmem
    cases hmem
  refine ⟨List.mem_singleton_self _, ?_, ?_, List.nodup_singleton _, ?_, ?_,
    fun p hp => hp, List.nodup_singleton _, ?_, ?_, ?_⟩
  · exact fun a ha => Function.update_of_ne ha.ne _ _
  · intro p hp
    rw [hsingle p hp]
    exact ⟨le_refl _, Nat.lt_succ_self _⟩
  · intro p hp
    rw [hsingle p hp]
  · intro p hp
    obtain rfl := hsingle p hp
    refine ⟨_, .pending List.mem_cons_self, ?_⟩
    dsimp only
    rw [hself, hobject]
    exact .start (.inl ⟨members, distinct, rfl⟩)
  · intro target entries heq
    cases heq
  · exact fun p hp key a hmem => absurd hmem (hnone p hp key a)
  · exact fun p hp q _ key _ a hmem _ => absurd hmem (hnone p hp key a)

end Copying

/-! ## The end of the loop -/

/-- The size of the tree that an address spells. -/
noncomputable def weight (h : Heap) (address : Address) : ℕ := by
  classical
  exact if hspells : ∃ json : Json, json.Spells h.values (.ref address) then
    sizeOf hspells.choose else 0

/-- The entries that are left of the current object. -/
def CopyState.entries (s : CopyState) : List (Segment × JsValue) :=
  (s.current.map Prod.snd).getD []

/-- The objects that are still to be taken. -/
def CopyState.unfinished (s : CopyState) : Multiset Address :=
  (s.pending.map Prod.fst : List Address) +
    (s.entries.filterMap fun entry => entry.2.address? : List Address)

section Ends

variable {m : Memory} {source : Address}

theorem weight_eq {h : Heap} {address : Address} {json : Json}
    (hspells : json.Spells h.values (.ref address)) :
    weight h address = sizeOf json := by
  have hexists : ∃ json : Json, json.Spells h.values (.ref address) :=
    ⟨json, hspells⟩
  rw [weight, dif_pos hexists, hexists.choose_spec.unique hspells]

theorem weight_lt {h : Heap} {address held : Address} {json : Json}
    (hspells : json.Spells h.values (.ref address))
    (hheld : h.values.Holds (.ref address) (.ref held)) :
    weight h held < weight h address := by
  obtain ⟨child, hchild, hlt⟩ := hspells.holds hheld
  rw [weight_eq hspells, weight_eq hchild]
  exact hlt

/-- Everything below the source is a plain object or an array that is in
use. -/
def Copyable (m : Memory) (source : Address) : Prop :=
  ∀ address, m.heap.values.Leads (.ref source) (.ref address) →
    address < m.next ∧
      ∃ json : Json, json.Spells m.heap.values (.ref address)

theorem Copying.copyEntry {pairs : List (Address × Address)} {s : CopyState}
    (h : Copying m source pairs s) (hcopyable : Copyable m source)
    {target : Address} {key : Segment} {value : JsValue}
    {rest : List (Segment × JsValue)}
    (hcurrent : s.current = some (target, (key, value) :: rest)) :
    ∃ others, Copying m source others (s.copyEntry target key value rest) := by
  have hleads : m.heap.values.Leads (.ref source) value := by
    obtain ⟨p, hp, rfl, hnot⟩ := h.current _ _ hcurrent
    obtain ⟨left, hleaves, hleft⟩ := h.filled p hp
    refine (h.sources p hp).tail ?_
    cases hleaves with
    | current entries heq =>
        rw [hcurrent] at heq
        obtain ⟨-, rfl⟩ := Prod.mk.inj (Option.some.inj heq)
        have hentry : (key, value) ∈ (key, value) :: rest :=
          List.mem_cons_self
        exact hleft.holds hentry
    | pending hpending => exact absurd hpending hnot
    | finished hfinished => exact absurd hcurrent (hfinished _)
  have hscalar : (∀ address, value ≠ .ref address) →
      Copying m source pairs (s.define target key value rest) := by
    intro hvalue
    exact h.define hcurrent (.scalar hvalue) fun a heq =>
      absurd heq (hvalue a)
  cases value with
  | ref x =>
      obtain ⟨hold, json, hspells⟩ := hcopyable x hleads
      obtain ⟨hpush, hnew⟩ := h.push hleads hold (exists_plain hspells)
      refine ⟨_, hpush.define hcurrent
        (.object List.mem_cons_self) ?_⟩
      intro a heq
      obtain rfl := JsValue.ref.inj heq
      exact ⟨(h.targets _ h.root).2.ne', List.mem_cons_self, hnew⟩
  | _ => exact ⟨pairs, hscalar (by simp)⟩

theorem CopyState.unfinished_copyEntry {s : CopyState} {target : Address}
    {key : Segment} {value : JsValue} {rest : List (Segment × JsValue)}
    (hcurrent : s.current = some (target, (key, value) :: rest)) :
    (s.copyEntry target key value rest).unfinished = s.unfinished := by
  cases value with
  | ref x =>
      simp only [unfinished, entries, hcurrent, copyEntry, define, push,
        Option.map_some, Option.getD_some, List.map_cons,
        List.filterMap_cons_some (f := fun entry : Segment × JsValue =>
          entry.2.address?) (a := (key, JsValue.ref x)) (b := x) rfl,
        Multiset.coe_add, List.cons_append]
      exact (Multiset.coe_eq_coe.mpr List.perm_middle).symm
  | _ =>
      simp [unfinished, entries, hcurrent, copyEntry, define,
        JsValue.address?]

/-- Taking an object replaces it by the ones that it holds. -/
theorem CopyState.cutExpand_take {h : Heap} {s : CopyState}
    {x target : Address} {rest : List (Address × Address)}
    (hentries : s.entries = []) (hpending : s.pending = (x, target) :: rest)
    {json : Json} (hspells : json.Spells h.values (.ref x))
    (hobject : s.memory.heap x = h x) :
    Relation.CutExpand (InvImage (· < ·) (weight h))
      (CopyState.unfinished
        { memory := s.memory
          pending := rest
          current := some (target, (s.memory.heap x).entries) })
      s.unfinished := by
  refine ⟨((h x).entries.filterMap fun entry => entry.2.address? :
    List Address), x, ?_, ?_⟩
  · intro held hheld
    obtain ⟨entry, hentry, haddress⟩ :=
      List.mem_filterMap.mp (Multiset.mem_coe.mp hheld)
    refine weight_lt hspells ?_
    have hfilled : Filled [] (h x) (h x).emptyLike (h x).entries :=
      .start (exists_plain hspells)
    have hholds := hfilled.holds hentry
    cases hvalue : entry.2 with
    | ref address =>
        rw [hvalue] at haddress hholds
        obtain rfl := Option.some.inj haddress
        exact hholds
    | _ =>
        rw [hvalue] at haddress
        cases haddress
  · have hself : s.unfinished = ((x :: rest.map Prod.fst : List Address) :
        Multiset Address) := by
      rw [unfinished, hentries, hpending]
      simp
    rw [hself, hobject, unfinished, ← Multiset.cons_coe,
      ← Multiset.singleton_add]
    simp only [entries, Option.map_some, Option.getD_some]
    exact (add_comm _ _).trans (add_assoc _ _ _).symm

theorem CopyState.current_of_entries {s : CopyState}
    {entries : List (Segment × JsValue)} (h : s.entries = entries) :
    (s.current = none ∧ entries = []) ∨
      ∃ target, s.current = some (target, entries) := by
  unfold CopyState.entries at h
  cases hcurrent : s.current with
  | none =>
      rw [hcurrent] at h
      exact .inl ⟨rfl, h.symm⟩
  | some current =>
      obtain ⟨target, left⟩ := current
      rw [hcurrent] at h
      exact .inr ⟨target, by rw [← h]; rfl⟩

/-- The loop ends with everything copied. -/
theorem Copying.ends {pairs : List (Address × Address)} {s : CopyState}
    (h : Copying m source pairs s) (hcopyable : Copyable m source) :
    ∃ others s', CopyState.Steps s s' ∧ s'.step = none ∧
      Copying m source others s' := by
  have hwf : WellFounded (Relation.CutExpand
      (InvImage (· < ·) (weight m.heap))) :=
    (InvImage.wf (weight m.heap) wellFounded_lt).cutExpand
  induction hunfinished : s.unfinished using hwf.induction
    generalizing s pairs with
  | _ unfinished ih =>
    subst hunfinished
    generalize hentries : s.entries = entries
    induction entries generalizing s pairs with
    | nil =>
        have hcurrent := CopyState.current_of_entries hentries
        have hnone : ∀ target left, s.current = some (target, left) →
            left = [] := by
          intro target left heq
          rw [CopyState.entries, heq] at hentries
          exact hentries
        cases hpending : s.pending with
        | nil =>
            refine ⟨pairs, s, .refl, ?_, h⟩
            rcases hcurrent with ⟨hcurrent, -⟩ | ⟨target, hcurrent⟩ <;>
              simp [CopyState.step, hcurrent, hpending]
        | cons p rest =>
            obtain ⟨x, target⟩ := p
            obtain ⟨hold, json, hspells⟩ := hcopyable x
              (h.sources _ (h.pending _ (hpending ▸ List.mem_cons_self)))
            obtain ⟨others, s', hsteps, hend, hcopying⟩ :=
              ih _ (CopyState.cutExpand_take hentries hpending hspells
                (h.kept x hold)) (h.take hnone hpending hold) rfl
            refine ⟨others, s', .head ?_ hsteps, hend, hcopying⟩
            rcases hcurrent with ⟨hcurrent, -⟩ | ⟨target, hcurrent⟩ <;>
              simp [CopyState.step, hcurrent, hpending]
    | cons entry rest ihEntries =>
        obtain ⟨key, value⟩ := entry
        obtain ⟨-, hnil⟩ | ⟨target, hcurrent⟩ :=
          CopyState.current_of_entries hentries
        · cases hnil
        · obtain ⟨pairs', hnext⟩ := h.copyEntry hcopyable hcurrent
          have hrest : (s.copyEntry target key value rest).entries = rest := by
            cases value <;> rfl
          obtain ⟨others, s', hsteps, hend, hcopying⟩ := ihEntries hnext
            (by rw [CopyState.unfinished_copyEntry hcurrent]; exact ih) hrest
          refine ⟨others, s', .head ?_ hsteps, hend, hcopying⟩
          simp [CopyState.step, hcurrent]

end Ends

/-! ## The copy -/

section Copy

variable {m : Memory} {source : Address} {pairs : List (Address × Address)}
  {s : CopyState}

theorem CopyState.step_eq_none (h : s.step = none) :
    s.pending = [] ∧ s.entries = [] := by
  unfold CopyState.step at h
  split at h
  next => cases h
  next => cases h
  next hpending hcurrent =>
    refine ⟨hpending, ?_⟩
    cases hentries : s.entries with
    | nil => rfl
    | cons entry rest =>
        obtain ⟨-, hnil⟩ | ⟨target, heq⟩ :=
          CopyState.current_of_entries hentries
        · cases hnil
        · exact absurd heq (hcurrent target entry.1 entry.2 rest)

/-- At the end nothing is left of any object. -/
theorem Copying.finished (h : Copying m source pairs s) (hend : s.step = none)
    {p : Address × Address} (hp : p ∈ pairs) :
    Filled pairs (m.heap p.1) (s.memory.heap p.2) [] := by
  obtain ⟨hpending, hentries⟩ := CopyState.step_eq_none hend
  obtain ⟨left, hleaves, hleft⟩ := h.filled p hp
  cases hleaves with
  | current entries hcurrent =>
      rw [CopyState.entries, hcurrent] at hentries
      obtain rfl : left = [] := hentries
      exact hleft
  | pending hin =>
      rw [hpending] at hin
      cases hin
  | finished => exact hleft

theorem Filled.plain {original copy : JsObject}
    {left : List (Segment × JsValue)} (h : Filled pairs original copy left) :
    (∃ members distinct, copy = .ofMembers members distinct) ∨
      ∃ items, copy = .ofItems items := by
  cases h with
  | record members done rest made hmembers distinct hsource made_distinct
      htarget => exact .inl ⟨made, made_distinct, htarget⟩
  | array items done rest made hitems hsource htarget =>
      exact .inr ⟨made, htarget⟩

theorem forall₂_trans {α β γ : Type} {R : α → β → Prop} {S : β → γ → Prop}
    {T : α → γ → Prop} {xs : List α} {ys : List β} {zs : List γ}
    (h : List.Forall₂ R xs ys) (h' : List.Forall₂ S ys zs)
    (himp : ∀ x ∈ xs, ∀ y z, R x y → S y z → T x z) :
    List.Forall₂ T xs zs := by
  induction h generalizing zs with
  | nil =>
      cases h'
      exact .nil
  | cons hxy _ ih =>
      cases h' with
      | cons hyz hrest =>
          refine .cons (himp _ List.mem_cons_self _ _ hxy hyz) (ih hrest ?_)
          exact fun x hx => himp x (List.mem_cons_of_mem _ hx)

/-- A copy spells the tree of its object. -/
theorem Copying.spells (h : Copying m source pairs s) (hend : s.step = none)
    {p : Address × Address} (hp : p ∈ pairs) {json : Json}
    (hspells : json.Spells m.heap.values (.ref p.1)) :
    json.Spells s.memory.heap.values (.ref p.2) := by
  induction hsize : sizeOf json using Nat.strong_induction_on
    generalizing json p with
  | _ n ih =>
    subst hsize
    have hentry : ∀ {child : Json} {value copy : JsValue},
        sizeOf child < sizeOf json → Alike pairs value copy →
        child.Spells m.heap.values value →
        child.Spells s.memory.heap.values copy := by
      intro child value copy hlt halike hchild
      cases halike with
      | scalar hvalue => exact hchild.scalar hvalue
      | object hmem => exact ih _ hlt hmem hchild rfl
    have hsource : m.heap.values.look (.ref p.1) = (m.heap p.1).shape := rfl
    have htarget : s.memory.heap.values.look (.ref p.2) =
        (s.memory.heap p.2).shape := rfl
    generalize hleft : ([] : List (Segment × JsValue)) = left
    have hfilled := h.finished hend hp
    rw [hleft] at hfilled
    cases hfilled with
    | record members done rest made hmembers distinct hobject made_distinct
        hcopy halike =>
        obtain rfl := List.map_eq_nil_iff.mp hleft.symm
        obtain rfl := hmembers.trans (List.append_nil done)
        rw [hobject, JsObject.shape_ofMembers] at hsource
        rw [hcopy, JsObject.shape_ofMembers] at htarget
        cases json with
        | obj ms =>
            obtain ⟨others, hlook, hms⟩ := Json.spells_obj.mp hspells
            rw [hsource] at hlook
            obtain rfl := (List.map_injective_iff.mpr member_data_injective)
              (Shape.object.inj hlook).2.1
            refine Json.spells_obj.mpr ⟨made, htarget, ?_⟩
            refine forall₂_trans hms halike fun m hm y z hxy hyz => ?_
            exact ⟨hxy.1.trans hyz.1,
              hentry (Json.sizeOf_member hm) hyz.2 hxy.2⟩
        | arr items =>
            obtain ⟨entries, hlook, -⟩ := Json.spells_arr.mp hspells
            rw [hsource] at hlook
            cases hlook
        | _ =>
            rw [Json.Spells, hsource] at hspells
            cases hspells
    | array items done rest made hitems hobject hcopy halike =>
        obtain rfl := List.zipIdx_eq_nil_iff.mp
          (List.map_eq_nil_iff.mp hleft.symm)
        obtain rfl := hitems.trans (List.append_nil done)
        rw [hobject, JsObject.shape_ofItems] at hsource
        rw [hcopy, JsObject.shape_ofItems] at htarget
        cases json with
        | arr others =>
            obtain ⟨entries, hlook, hitems⟩ := Json.spells_arr.mp hspells
            rw [hsource] at hlook
            obtain rfl := (List.map_injective_iff.mpr data_injective)
              (Shape.array.inj hlook).1
            refine Json.spells_arr.mpr ⟨made, htarget, ?_⟩
            exact forall₂_trans hitems halike fun item hitem y z hxy hyz =>
              hentry (Json.sizeOf_item hitem) hyz hxy
        | obj ms =>
            obtain ⟨members, hlook, -⟩ := Json.spells_obj.mp hspells
            rw [hsource] at hlook
            cases hlook
        | _ =>
            rw [Json.Spells, hsource] at hspells
            cases hspells

/-- What a copy holds is the copy of an object, and it holds it nowhere
else. -/
theorem Copying.child (h : Copying m source pairs s) (hend : s.step = none)
    {p : Address × Address} (hp : p ∈ pairs) {segment : Segment}
    {address : Address} (hchild : s.memory.heap.values.child (.ref p.2)
      segment = some (.ref address)) :
    (segment, .ref address) ∈ (s.memory.heap p.2).entries :=
  JsObject.mem_entries_of_child (h.finished hend hp).plain hchild

theorem exists_held_at
    {path : FieldPath} {segment : Segment} {value : JsValue}
    (hroot : ∀ address, s.memory.heap.values.at (.ref m.next) path =
      some (.ref address) → ∃ p ∈ pairs, p.2 = address)
    (hat : s.memory.heap.values.at (.ref m.next) (path ++ [segment]) =
      some value) :
    ∃ p ∈ pairs, s.memory.heap.values.at (.ref m.next) path =
        some (.ref p.2) ∧
      s.memory.heap.values.child (.ref p.2) segment = some value := by
  rw [Values.at_concat] at hat
  obtain ⟨middle, hmiddle, hchild⟩ := Option.bind_eq_some_iff.mp hat
  cases middle with
  | ref address =>
      obtain ⟨p, hp, rfl⟩ := hroot address hmiddle
      exact ⟨p, hp, hmiddle, hchild⟩
  | _ =>
      exact absurd (Values.holds_of_child hchild)
        (JsValue.not_holds (by simp) value)

theorem Copying.of_at (h : Copying m source pairs s) (hend : s.step = none)
    {path : FieldPath} {address : Address}
    (hat : s.memory.heap.values.at (.ref m.next) path =
      some (.ref address)) : ∃ p ∈ pairs, p.2 = address := by
  induction path using List.reverseRecOn generalizing address with
  | nil =>
      obtain rfl := JsValue.ref.inj (Option.some.inj hat)
      exact ⟨_, h.root, rfl⟩
  | append_singleton path segment ih =>
      obtain ⟨p, hp, -, hchild⟩ := exists_held_at (fun _ => ih) hat
      have hentry := h.child hend hp hchild
      exact List.mem_map.mp (h.held p hp segment address hentry).2

theorem Copying.unshared (h : Copying m source pairs s)
    (hend : s.step = none) : s.memory.heap.Unshared (.ref m.next) := by
  have hreached : ∀ path address,
      s.memory.heap.values.at (.ref m.next) path = some (.ref address) →
        ∃ p ∈ pairs, p.2 = address :=
    fun path address hat => h.of_at hend hat
  -- No copy holds the root.
  have hroot : ∀ path segment,
      s.memory.heap.values.at (.ref m.next) (path ++ [segment]) ≠
        some (.ref m.next) := by
    intro path segment hat
    obtain ⟨p, hp, -, hchild⟩ := exists_held_at (hreached path) hat
    exact (h.held p hp segment _ (h.child hend hp hchild)).1 rfl
  intro p
  induction p using List.reverseRecOn with
  | nil =>
      intro q address hp hq
      obtain rfl := JsValue.ref.inj (Option.some.inj hp)
      rcases List.eq_nil_or_concat' q with rfl | ⟨path, segment, rfl⟩
      · rfl
      · exact absurd hq (hroot path segment)
  | append_singleton path segment ih =>
      intro q address hp hq
      rcases List.eq_nil_or_concat' q with rfl | ⟨other, last, rfl⟩
      · obtain rfl := JsValue.ref.inj (Option.some.inj hq)
        exact absurd hp (hroot path segment)
      · obtain ⟨a, ha, hpath, hchild⟩ := exists_held_at (hreached path) hp
        obtain ⟨b, hb, hother, hchild'⟩ := exists_held_at (hreached other) hq
        obtain ⟨rfl, rfl⟩ := h.once a ha b hb segment last address
          (h.child hend ha hchild) (h.child hend hb hchild')
        rw [ih other a.2 hpath hother]

/-- A copied document: what it spells, and that nothing of it is shared, with
the source or within it. -/
structure Copied (m : Memory) (json : Json) (m' : Memory) (root : Address) :
    Prop where
  kept : ∀ address < m.next, m'.heap address = m.heap address
  spells : json.Spells m'.heap.values (.ref root)
  unshared : m'.heap.Unshared (.ref root)
  fresh : ∀ address, m'.heap.values.Leads (.ref root) (.ref address) →
    m.next ≤ address ∧ address < m'.next

/-- The copy of a document ends, and it is a copy. -/
theorem copy_ends {members : List (JsString × JsValue)}
    {distinct : (members.map Prod.fst).Nodup}
    (hobject : m.heap source = .ofMembers members distinct)
    (hcopyable : Copyable m source) {json : Json}
    (hspells : json.Spells m.heap.values (.ref source)) :
    ∃ s, CopyState.Steps (CopyState.start m source) s ∧ s.step = none ∧
      Copied m json s.memory m.next := by
  obtain ⟨pairs, s, hsteps, hend, h⟩ :=
    (Copying.start hobject).ends hcopyable
  refine ⟨s, hsteps, hend, h.kept, h.spells hend h.root hspells,
    h.unshared hend, fun address hleads => ?_⟩
  obtain ⟨path, hat⟩ := hleads.exists_at s.memory.heap.lawful
  obtain ⟨p, hp, rfl⟩ := h.of_at hend hat
  exact h.targets p hp

end Copy

end DrFed.Document
