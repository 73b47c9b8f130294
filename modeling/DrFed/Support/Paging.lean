import Mathlib.Data.List.Basic
import Mathlib.Data.Nat.Notation
import Mathlib.Order.Basic

/-!
# Paging

Rows in a strict order are read page after page.  A page begins after the last
row of the page before it, and a cursor stands for that row.
-/

namespace DrFed

section Following

variable {ρ κ : Type}

/-- Following the cursors of pages: the page of a number after a cursor is its
rows and the cursor of the next page, if there is one. -/
def followPages (page : ℕ → Option κ → Option (List ρ × Option κ)) :
    ℕ → ℕ → Option κ → Option (List (List ρ))
  | 0, _, _ => none
  | fuel + 1, n, cursor =>
      (page n cursor).bind fun read =>
        match read.2 with
        | none => some [read.1]
        | some next =>
            (followPages page fuel (n + 1) (some next)).map fun pages => read.1 :: pages

/-- Reading pages whose rows come in another arrangement. -/
theorem followPages_map {page other : ℕ → Option κ → Option (List ρ × Option κ)}
    (f : List ρ → List ρ)
    (h : ∀ n cursor, other n cursor = (page n cursor).map fun read => (f read.1, read.2))
    (fuel : ℕ) : ∀ n cursor,
      followPages other fuel n cursor = (followPages page fuel n cursor).map (List.map f) := by
  induction fuel with
  | zero => exact fun n cursor => rfl
  | succ fuel ih =>
      intro n cursor
      rw [followPages, followPages, h]
      cases page n cursor with
      | none => rfl
      | some read =>
          obtain ⟨items, next⟩ := read
          rw [Option.map_some, Option.bind_some, Option.bind_some]
          cases next with
          | none => rfl
          | some next =>
              simp only [ih, Option.map_map]
              rfl

/-- The first rows, and the cursor of the last of them if there are more. -/
def cutPage (cursor : ρ → κ) (size : ℕ) (rows : List ρ) : List ρ × Option κ :=
  (rows.take size,
    if size < rows.length then (rows.take size).getLast?.map cursor else none)

/-- What reading pages to the end yields. -/
structure ReadsAll (rows : List ρ) (size : ℕ → ℕ) (pages : List (List ρ)) : Prop where
  all : pages.flatten = rows
  bounded : ∀ n page, pages[n]? = some page → page.length ≤ size n
  nonempty : rows ≠ [] → ∀ page ∈ pages, page ≠ []
  sole : rows = [] → pages = [[]]

/-- A page that is not the last one. -/
theorem cutPage_of_lt {cursor : ρ → κ} {size : ℕ} {rows : List ρ} (hpos : 0 < size)
    (h : size < rows.length) :
    ∃ before last rest, rows = before ++ last :: rest ∧ rest ≠ [] ∧
      (before ++ [last]).length = size ∧
        cutPage cursor size rows = (before ++ [last], some (cursor last)) := by
  have hlength : (rows.take size).length = size := List.length_take_of_le (Nat.le_of_lt h)
  have hne : rows.take size ≠ [] := by
    rw [← List.length_pos_iff, hlength]
    exact hpos
  obtain ⟨before, last, htake⟩ : ∃ before last, rows.take size = before ++ [last] :=
    ⟨_, _, (List.dropLast_append_getLast hne).symm⟩
  refine ⟨before, last, rows.drop size, ?_, ?_, ?_, ?_⟩
  · have hsplit := List.take_append_drop size rows
    rw [htake, List.append_assoc] at hsplit
    exact hsplit.symm
  · rw [← List.length_pos_iff, List.length_drop]
    omega
  · rw [← htake, hlength]
  · rw [cutPage, if_pos h, htake, List.getLast?_append]
    rfl

theorem cutPage_of_le {cursor : ρ → κ} {size : ℕ} {rows : List ρ}
    (h : rows.length ≤ size) : cutPage cursor size rows = (rows, none) := by
  rw [cutPage, if_neg (by omega), List.take_of_length_le h]

/-- A last page. -/
theorem readsAll_singleton {rows : List ρ} {size : ℕ → ℕ} (h : rows.length ≤ size 0) :
    ReadsAll rows size [rows] := by
  constructor
  · rw [List.flatten_cons, List.flatten_nil, List.append_nil]
  · intro n other hget
    cases n with
    | zero =>
        obtain rfl : rows = other := Option.some.inj hget
        exact h
    | succ n => cases hget
  · intro hne other hmem
    rw [List.mem_singleton.mp hmem]
    exact hne
  · intro hnil
    rw [hnil]

/-- A first page before the others. -/
theorem ReadsAll.cons {page rest : List ρ} {size : ℕ → ℕ} {pages : List (List ρ)}
    (hpage : page ≠ []) (hsize : page.length ≤ size 0) (hrest : rest ≠ [])
    (h : ReadsAll rest (fun n => size (n + 1)) pages) :
    ReadsAll (page ++ rest) size (page :: pages) := by
  constructor
  · rw [List.flatten_cons, h.all]
  · intro n other hget
    cases n with
    | zero =>
        obtain rfl : page = other := Option.some.inj hget
        exact hsize
    | succ n => exact h.bounded n other hget
  · intro _ other hmem
    rcases List.mem_cons.mp hmem with rfl | hmem
    · exact hpage
    · exact h.nonempty hrest other hmem
  · intro hnil
    exact absurd (List.append_eq_nil_iff.mp hnil).1 hpage

end Following

section Keys

variable {ρ κ : Type} (lt : ρ → ρ → Prop) [DecidableRel lt]

/-- The rows after a boundary. -/
def later (rows : List ρ) : Option ρ → List ρ
  | none => rows
  | some boundary => rows.filter fun row => lt boundary row

variable {lt} {rows page rest : List ρ} {boundary : Option ρ}

theorem later_sublist : (later lt rows boundary).Sublist rows := by
  cases boundary with
  | none => exact List.Sublist.refl rows
  | some b => exact List.filter_sublist

theorem pairwise_later (hsorted : rows.Pairwise lt) :
    (later lt rows boundary).Pairwise lt :=
  hsorted.sublist later_sublist

/-- The rows after a row that is itself after a boundary. -/
theorem later_of_mem (htrans : ∀ a b c, lt a b → lt b c → lt a c) {row : ρ}
    (hrow : row ∈ later lt rows boundary) :
    later lt rows (some row) = (later lt rows boundary).filter fun r => lt row r := by
  cases boundary with
  | none => rfl
  | some b =>
      have hlt : lt b row := of_decide_eq_true (List.mem_filter.mp hrow).2
      rw [later, later, List.filter_filter]
      apply List.filter_congr
      intro r _
      by_cases hr : lt row r
      · simp [hr, htrans b row r hlt hr]
      · simp [hr]

/-- The rows after the last row of a page are those that the page leaves. -/
theorem later_last (hirrefl : ∀ a, ¬ lt a a) (htrans : ∀ a b c, lt a b → lt b c → lt a c)
    (hsorted : rows.Pairwise lt) {last : ρ}
    (hsplit : later lt rows boundary = page ++ last :: rest) :
    later lt rows (some last) = rest := by
  have hpairwise := @pairwise_later _ lt _ rows boundary hsorted
  have hmem : last ∈ later lt rows boundary := by
    rw [hsplit]
    exact List.mem_append_right page List.mem_cons_self
  rw [later_of_mem htrans hmem]
  rw [hsplit] at hpairwise ⊢
  obtain ⟨-, hlast, hpage⟩ := List.pairwise_append.mp hpairwise
  have hbefore : page.filter (fun r => lt last r) = [] := by
    apply List.filter_eq_nil_iff.mpr
    intro r hr hlt
    exact hirrefl r (htrans r last r (hpage r hr last List.mem_cons_self)
      (of_decide_eq_true hlt))
  have hafter : rest.filter (fun r => lt last r) = rest := by
    apply List.filter_eq_self.mpr
    intro r hr
    exact decide_eq_true (List.rel_of_pairwise_cons hlast hr)
  rw [List.filter_append, hbefore, List.nil_append,
    List.filter_cons_of_neg (by simp [hirrefl]), hafter]

variable {page : ℕ → Option κ → Option (List ρ × Option κ)} {cursor : ρ → κ} {size : ℕ → ℕ}

/-- Reading on from a boundary. -/
theorem followPages_from (hirrefl : ∀ a, ¬ lt a a)
    (htrans : ∀ a b c, lt a b → lt b c → lt a c) (hsorted : rows.Pairwise lt)
    (hsize : ∀ n, 0 < size n)
    (hpage : ∀ n boundary, (∀ b, boundary = some b → b ∈ rows) →
      page n (boundary.map cursor) = some (cutPage cursor (size n) (later lt rows boundary)))
    (fuel : ℕ) : ∀ (n : ℕ) (boundary : Option ρ), (∀ b, boundary = some b → b ∈ rows) →
      (later lt rows boundary).length < fuel →
        ∃ pages, followPages page fuel n (boundary.map cursor) = some pages ∧
          ReadsAll (later lt rows boundary) (fun i => size (n + i)) pages := by
  induction fuel with
  | zero => exact fun n boundary _ hfuel => absurd hfuel (Nat.not_lt_zero _)
  | succ fuel ih =>
      intro n boundary hboundary hfuel
      generalize hrest : later lt rows boundary = remaining at hfuel
      rw [followPages, hpage n boundary hboundary, hrest, Option.bind_some]
      rcases Nat.lt_or_ge (size n) remaining.length with hmore | hdone
      · -- the page is full, and its last row is the next boundary
        obtain ⟨before, last, rest, rfl, hne, hlength, hcut⟩ :=
          @cutPage_of_lt _ _ cursor _ _ (hsize n) hmore
        have hlast : last ∈ rows := by
          apply (@later_sublist _ lt _ rows boundary).subset
          rw [hrest]
          exact List.mem_append_right _ List.mem_cons_self
        have hnext := later_last hirrefl htrans hsorted hrest
        rw [List.length_append, List.length_cons] at hfuel
        obtain ⟨pages, hfollow, hreads⟩ := ih (n + 1) (some last)
          (by rintro b ⟨⟩; exact hlast) (by rw [hnext]; omega)
        rw [hnext] at hreads
        rw [Option.map_some] at hfollow
        refine ⟨(before ++ [last]) :: pages, ?_, ?_⟩
        · rw [hcut]
          simp only [hfollow, Option.map_some]
        · have hshift : (fun i => size (n + 1 + i)) = fun i => size (n + (i + 1)) := by
            funext i
            rw [Nat.add_assoc, Nat.add_comm 1 i]
          rw [hshift] at hreads
          have hcons := @ReadsAll.cons _ (before ++ [last]) rest (fun i => size (n + i)) pages
            (List.append_ne_nil_of_right_ne_nil _ (List.cons_ne_nil _ _))
            (Nat.le_of_eq hlength) hne hreads
          rwa [List.append_assoc] at hcons
      · refine ⟨[remaining], ?_, readsAll_singleton hdone⟩
        rw [cutPage_of_le hdone]

/-- Following the pages from the first one reads every row once and in order. -/
theorem followPages_readsAll (hirrefl : ∀ a, ¬ lt a a)
    (htrans : ∀ a b c, lt a b → lt b c → lt a c) (hsorted : rows.Pairwise lt)
    (hsize : ∀ n, 0 < size n)
    (hpage : ∀ n boundary, (∀ b, boundary = some b → b ∈ rows) →
      page n (boundary.map cursor) = some (cutPage cursor (size n) (later lt rows boundary)))
    {fuel : ℕ} (hfuel : rows.length < fuel) :
    ∃ pages, followPages page fuel 0 none = some pages ∧ ReadsAll rows size pages := by
  obtain ⟨pages, hfollow, hreads⟩ := followPages_from hirrefl htrans hsorted hsize hpage
    fuel 0 none (by rintro b ⟨⟩) hfuel
  refine ⟨pages, hfollow, ?_⟩
  simpa only [Nat.zero_add, later] using hreads

end Keys

end DrFed
