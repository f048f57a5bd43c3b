/-!
# Tables

A `Table` maps names to values and remembers the order in which its names were first inserted.
Everything that a user can list (the variables of a model, the nodes of a graph, the terms of an
affine form) is kept in such a table, so that every listing is determined by the history of
insertions alone.

* `Table.insert` — a new name goes to the end, a known name keeps its place.
* `Table.get?`, `Table.contains`, `Table.erase`, `Table.map`, `Table.filter`.
* `Table.keys_insert`, `Table.get?_insert` — what an insertion does to the two views.
* `Table.contains_iff_mem_keys` — the two views agree on which names have values.
-/

namespace CausalEquations

/-- Variables, nodes and functions are called by a name. -/
abbrev Name := String

/-- Values by name, in the order of first insertion; no name occurs twice. -/
structure Table (α : Type) where
  entries : List (Name × α)
  nodup : (entries.map Prod.fst).Nodup

namespace Table

variable {α β : Type}

/-! ## Association lists

The operations on the underlying list; the table only adds that names are distinct.
-/

/-- The value that stands first under `key`. -/
def lookup (key : Name) : List (Name × α) → Option α
  | [] => none
  | (k, v) :: rest => if k = key then some v else lookup key rest

/-- Overwrites the value of `key` where it stands, or appends it. -/
def put (key : Name) (value : α) : List (Name × α) → List (Name × α)
  | [] => [(key, value)]
  | (k, v) :: rest => if k = key then (k, value) :: rest else (k, v) :: put key value rest

theorem map_fst_put (key : Name) (value : α) (l : List (Name × α)) :
    (put key value l).map Prod.fst =
      if key ∈ l.map Prod.fst then l.map Prod.fst else l.map Prod.fst ++ [key] := by
  induction l with
  | nil => simp [put]
  | cons e rest ih =>
    obtain ⟨k, v⟩ := e
    by_cases h : k = key
    · simp [put, h]
    · have h' : ¬ key = k := fun e => h e.symm
      simp only [put, h, if_false, List.map_cons, ih, List.mem_cons, h', false_or]
      by_cases hm : key ∈ rest.map Prod.fst
      · simp only [hm, if_true]
      · simp only [hm, if_false, List.cons_append]

theorem nodup_put (key : Name) (value : α) {l : List (Name × α)}
    (h : (l.map Prod.fst).Nodup) : ((put key value l).map Prod.fst).Nodup := by
  rw [map_fst_put]
  split
  · exact h
  · rename_i hm
    rw [List.nodup_append]
    refine ⟨h, by simp, ?_⟩
    intro a ha b hb
    simp only [List.mem_singleton] at hb
    subst hb
    exact fun e => hm (e ▸ ha)

theorem lookup_put (key other : Name) (value : α) (l : List (Name × α)) :
    lookup other (put key value l) = if key = other then some value else lookup other l := by
  induction l with
  | nil => simp [put, lookup]
  | cons e rest ih =>
    obtain ⟨k, v⟩ := e
    by_cases h : k = key
    · subst h
      by_cases ho : k = other <;> simp [put, lookup, ho]
    · by_cases ho : k = other
      · subst ho
        have h' : ¬ key = k := fun e => h e.symm
        simp [put, lookup, h, h']
      · simp [put, lookup, h, ho, ih]

/-! ## The table -/

/-- The table without entries. -/
def empty : Table α := ⟨[], List.nodup_nil⟩

/-- The names, in order. -/
def keys (t : Table α) : List Name := t.entries.map Prod.fst

/-- The number of names. -/
def size (t : Table α) : Nat := t.entries.length

/-- The value of a name, if it has one. -/
def get? (t : Table α) (key : Name) : Option α := lookup key t.entries

/-- The value of a name, or `fallback`. -/
def getD (t : Table α) (key : Name) (fallback : α) : α := (t.get? key).getD fallback

/-- Whether the name has a value. -/
def contains (t : Table α) (key : Name) : Bool := (t.get? key).isSome

/-- Gives `key` a value: a known name keeps its place, a new one goes to the end. -/
def insert (t : Table α) (key : Name) (value : α) : Table α :=
  ⟨put key value t.entries, nodup_put key value t.nodup⟩

/-- Gives `key` a value unless it has one. -/
def insertIfNew (t : Table α) (key : Name) (value : α) : Table α :=
  if t.contains key then t else t.insert key value

/-- The entries whose name and value satisfy `keep`, in order. -/
def filter (t : Table α) (keep : Name → α → Bool) : Table α :=
  ⟨t.entries.filter fun e => keep e.1 e.2,
    List.Nodup.sublist (List.Sublist.map _ List.filter_sublist) t.nodup⟩

/-- The table without `key`. -/
def erase (t : Table α) (key : Name) : Table α := t.filter fun k _ => !(k == key)

/-- The same names with other values. -/
def map (t : Table α) (f : Name → α → β) : Table β :=
  ⟨t.entries.map fun e => (e.1, f e.1 e.2), by
    rw [List.map_map]
    exact t.nodup⟩

/-- Inserts the pairs one after the other: a repeated name keeps its first place and its last
value. -/
def ofList (pairs : List (Name × α)) : Table α :=
  pairs.foldl (fun t e => t.insert e.1 e.2) empty

/-! ## What the operations do to the views -/

@[simp] theorem keys_empty : (empty : Table α).keys = [] := rfl

@[simp] theorem get?_empty (key : Name) : (empty : Table α).get? key = none := rfl

theorem keys_insert (t : Table α) (key : Name) (value : α) :
    (t.insert key value).keys = if key ∈ t.keys then t.keys else t.keys ++ [key] :=
  map_fst_put key value t.entries

theorem lookup_eq_none_iff (key : Name) (l : List (Name × α)) :
    lookup key l = none ↔ key ∉ l.map Prod.fst := by
  induction l with
  | nil => simp [lookup]
  | cons e rest ih =>
    obtain ⟨k, v⟩ := e
    by_cases h : k = key
    · simp [lookup, h]
    · have h' : ¬ key = k := fun e => h e.symm
      simp only [lookup, h, if_false, ih, List.map_cons, List.mem_cons, h', false_or]

/-- A name has a value exactly if it is among the keys. -/
theorem contains_iff_mem_keys (t : Table α) (key : Name) :
    t.contains key = true ↔ key ∈ t.keys := by
  have h := lookup_eq_none_iff key t.entries
  simp only [contains, get?, keys]
  cases hl : lookup key t.entries with
  | none => simpa [hl] using h
  | some v => simpa [hl] using h

@[simp] theorem keys_map (t : Table α) (f : Name → α → β) : (t.map f).keys = t.keys := by
  simp [keys, map, List.map_map, Function.comp_def]

theorem get?_insert (t : Table α) (key other : Name) (value : α) :
    (t.insert key value).get? other = if key = other then some value else t.get? other :=
  lookup_put key other value t.entries

theorem contains_eq_isSome (t : Table α) (key : Name) : t.contains key = (t.get? key).isSome := rfl

theorem get?_insertIfNew (t : Table α) (key other : Name) (value : α) :
    (t.insertIfNew key value).get? other =
      if key = other then some (t.getD key value) else t.get? other := by
  unfold insertIfNew
  split
  · rename_i h
    obtain ⟨v, hv⟩ := Option.isSome_iff_exists.mp (t.contains_eq_isSome key ▸ h)
    by_cases ho : key = other
    · subst ho
      simp [getD, hv]
    · simp [ho]
  · rename_i h
    have hnone : t.get? key = none := by
      simpa [contains_eq_isSome] using h
    simp [get?_insert, getD, hnone]

theorem keys_insertIfNew (t : Table α) (key : Name) (value : α) :
    (t.insertIfNew key value).keys = if key ∈ t.keys then t.keys else t.keys ++ [key] := by
  simp only [insertIfNew]
  split
  · rename_i h
    rw [if_pos ((contains_iff_mem_keys t key).mp h)]
  · exact keys_insert t key value

/-- A value is found exactly where its entry stands, as no name occurs twice. -/
theorem lookup_eq_some_iff {key : Name} {value : α} {l : List (Name × α)}
    (hnodup : (l.map Prod.fst).Nodup) : lookup key l = some value ↔ (key, value) ∈ l := by
  induction l with
  | nil => simp [lookup]
  | cons e rest ih =>
    obtain ⟨k, v⟩ := e
    rw [List.map_cons, List.nodup_cons] at hnodup
    by_cases h : k = key
    · subst h
      have hout : (k, value) ∉ rest := fun hm => hnodup.1 (List.mem_map.mpr ⟨_, hm, rfl⟩)
      simp [lookup, hout, eq_comm]
    · have h' : ¬ key = k := fun e => h e.symm
      simp [lookup, h, h', ih hnodup.2]

theorem get?_eq_some_iff {t : Table α} {key : Name} {value : α} :
    t.get? key = some value ↔ (key, value) ∈ t.entries :=
  lookup_eq_some_iff t.nodup

theorem get?_of_mem {t : Table α} {key : Name} {value : α} (h : (key, value) ∈ t.entries) :
    t.get? key = some value :=
  get?_eq_some_iff.mpr h

theorem mem_of_get? {t : Table α} {key : Name} {value : α} (h : t.get? key = some value) :
    (key, value) ∈ t.entries :=
  get?_eq_some_iff.mp h

/-- Only the name itself tells whether a table has a value for it. -/
theorem get?_eq_none_iff {t : Table α} {key : Name} : t.get? key = none ↔ key ∉ t.keys :=
  lookup_eq_none_iff key t.entries

theorem get?_map (t : Table α) (f : Name → α → β) (key : Name) :
    (t.map f).get? key = (t.get? key).map (f key) := by
  obtain ⟨l, hl⟩ := t
  simp only [get?, map]
  clear hl
  induction l with
  | nil => rfl
  | cons e rest ih =>
    obtain ⟨k, v⟩ := e
    by_cases h : k = key
    · simp [lookup, h]
    · simp [lookup, h, ih]

end Table

/-! ## Names in order

Names are compared by the code points of their characters, and listings that stand for sets are
sorted that way.
-/

namespace Name

/-- Lexicographic comparison of characters by code point. -/
def charsLe : List Char → List Char → Bool
  | [], _ => true
  | _ :: _, [] => false
  | a :: as, b :: bs => if a = b then charsLe as bs else decide (a.toNat < b.toNat)

/-- Whether `a` does not come after `b` in code point order. -/
def le (a b : Name) : Bool := charsLe a.toList b.toList

end Name

/-- The names in code point order. -/
def sortedNames (names : List Name) : List Name := names.mergeSort Name.le

end CausalEquations
