import CausalEquations.Table
import Mathlib.Data.List.Basic
import Mathlib.Tactic.Lemma

/-!
# Tables from lists, and related tables

A table is built by inserting pairs one after the other, and later pairs win. Two computations on
different kinds of values go side by side if their tables hold related values under the same names.

* `Table.get?_foldl_insert`, `Table.get?_ofList_map` — what is found in a table from a list.
* `Table.keys_ofList_sublist` — its names, in order.
* `Table.mem_keys_iff`, `Table.mem_keys_insert` — the names are those under which something is
  found.
* `Table.eq_of_get?`, `Table.entries_perm` — names and values determine a table, and the mapping
  determines it up to order.
* `Table.get?_filter`, `Table.keys_filter` — what a filter leaves.
* `Table.RelatedOn` — tables with related values, as far as a property of names goes.
-/

namespace CausalEquations

namespace Table

variable {α β γ : Type}

/-! ## From lists -/

/-- What is inserted stands before what was there. -/
lemma get?_foldl_insert (pairs : List (Name × α)) (t : Table α) (name : Name) :
    (pairs.foldl (fun t e => t.insert e.1 e.2) t).get? name =
      ((ofList pairs).get? name).or (t.get? name) := by
  have hgeneral : ∀ t t' : Table α, t'.get? name = none →
      (pairs.foldl (fun t e => t.insert e.1 e.2) t).get? name =
        ((pairs.foldl (fun t e => t.insert e.1 e.2) t').get? name).or (t.get? name) := by
    induction pairs with
    | nil => exact fun t t' hnone => by simp [hnone]
    | cons e rest ih =>
        intro t t' hnone
        simp only [List.foldl_cons]
        by_cases hname : e.1 = name
        · rw [ih (t.insert e.1 e.2) empty rfl, ih (t'.insert e.1 e.2) empty rfl]
          simp [get?_insert, hname]
        · rw [ih (t.insert e.1 e.2) (t'.insert e.1 e.2) (by simp [get?_insert, hname, hnone])]
          simp [get?_insert, hname]
  exact hgeneral t empty rfl

/-- A table of a function holds its values, also under other names that can be told apart. -/
lemma get?_ofList_map_key {key : Name → Name} (hkey : Function.Injective key) (names : List Name)
    (f : Name → α) (name : Name) :
    (ofList (names.map fun n => (key n, f n))).get? (key name) =
      if name ∈ names then some (f name) else none := by
  have hgeneral : ∀ t : Table α, ((names.map fun n => (key n, f n)).foldl
      (fun t e => t.insert e.1 e.2) t).get? (key name) =
        if name ∈ names then some (f name) else t.get? (key name) := by
    induction names with
    | nil => simp
    | cons first rest ih =>
        intro t
        rw [List.map_cons, List.foldl_cons, ih, get?_insert]
        by_cases hfirst : first = name
        · simp [hfirst]
        · simp [hkey.eq_iff, hfirst, Ne.symm hfirst]
  exact hgeneral empty

lemma get?_ofList_map (names : List Name) (f : Name → α) (name : Name) :
    (ofList (names.map fun n => (n, f n))).get? name =
      if name ∈ names then some (f name) else none :=
  get?_ofList_map_key Function.injective_id names f name

lemma getD_ofList_map (names : List Name) (f : Name → α) (name : Name) (fallback : α) :
    (ofList (names.map fun n => (n, f n))).getD name fallback =
      if name ∈ names then f name else fallback := by
  rw [getD, get?_ofList_map]
  split <;> rfl

/-- Names stand where they are first inserted. -/
lemma keys_ofList_sublist (pairs : List (Name × α)) :
    (ofList pairs).keys.Sublist (pairs.map Prod.fst) := by
  have hgeneral : ∀ t : Table α, (pairs.foldl (fun t e => t.insert e.1 e.2) t).keys.Sublist
      (t.keys ++ pairs.map Prod.fst) := by
    induction pairs with
    | nil => simp
    | cons e rest ih =>
        intro t
        rw [List.foldl_cons, List.map_cons]
        refine (ih _).trans ?_
        rw [keys_insert]
        split
        · exact (List.sublist_cons_self _ _).append_left _
        · rw [List.append_assoc, List.singleton_append]
  exact hgeneral empty

lemma mem_keys_iff {t : Table α} {name : Name} : name ∈ t.keys ↔ ∃ x, t.get? name = some x := by
  rw [← contains_iff_mem_keys, contains_eq_isSome, Option.isSome_iff_exists]

lemma mem_keys_insert {t : Table α} {key name : Name} {value : α} :
    name ∈ (t.insert key value).keys ↔ name = key ∨ name ∈ t.keys := by
  simp only [mem_keys_iff, get?_insert]
  by_cases h : key = name
  · simp [h]
  · simp [h, Ne.symm h]

lemma getD_insert (t : Table α) (key name : Name) (value fallback : α) :
    (t.insert key value).getD name fallback =
      if key = name then value else t.getD name fallback := by
  rw [getD, get?_insert]
  split <;> rfl

/-- The entries are found by going through the names. -/
lemma entries_eq_filterMap (t : Table α) :
    t.entries = t.keys.filterMap fun name => (t.get? name).map (Prod.mk name) := by
  have hfound : ∀ e ∈ t.entries, (t.get? e.1).map (Prod.mk e.1) = some e := fun e he => by
    rw [get?_of_mem he, Option.map_some]
  rw [keys, List.filterMap_map]
  exact (List.filterMap_some.symm.trans (List.filterMap_congr hfound).symm :)

lemma ext {t t' : Table α} (h : t.entries = t'.entries) : t = t' := by
  cases t
  cases t'
  cases h
  rfl

/-- Tables with the same names in the same order, and the same values, are equal. -/
lemma eq_of_get? {t t' : Table α} (hkeys : t.keys = t'.keys)
    (h : ∀ name, t.get? name = t'.get? name) : t = t' := by
  refine ext ?_
  simp only [entries_eq_filterMap, hkeys, h]

/-- Tables that hold the same mapping list the same entries. -/
lemma entries_perm {t t' : Table α} (h : ∀ name, t.get? name = t'.get? name) :
    t.entries.Perm t'.entries := by
  have hkeys : t.keys.Perm t'.keys := by
    refine (List.perm_ext_iff_of_nodup t.nodup t'.nodup).mpr fun name => ?_
    rw [← keys, ← keys, mem_keys_iff, mem_keys_iff, h]
  rw [entries_eq_filterMap t, entries_eq_filterMap t']
  simp only [h]
  exact hkeys.filterMap _

/-! ## Filtered tables -/

lemma get?_filter (t : Table α) (keep : Name → α → Bool) (name : Name) :
    (t.filter keep).get? name = (t.get? name).filter (keep name) := by
  ext x
  simp only [get?_eq_some_iff, Option.filter_eq_some_iff, filter, List.mem_filter]

lemma get?_erase (t : Table α) (key name : Name) :
    (t.erase key).get? name = if name = key then none else t.get? name := by
  rw [erase, get?_filter]
  cases t.get? name <;> by_cases h : name = key <;> simp [Option.filter, h]

/-- The names that are left keep their order. -/
lemma keys_filter (t : Table α) (keep : Name → α → Bool) :
    (t.filter keep).keys = t.keys.filter fun name => (t.filter keep).contains name := by
  have hkept : ∀ e ∈ t.entries, keep e.1 e.2 = (t.filter keep).contains e.1 := by
    intro e he
    rw [contains, get?_filter, get?_of_mem he]
    cases hkeep : keep e.1 e.2 <;> simp [Option.filter, hkeep]
  rw [keys, keys, filter, List.filter_map]
  exact congrArg _ (List.filter_congr hkept)

/-! ## Related tables -/

/-- Under every name with the property, both tables have related values or both have none. -/
def RelatedOn (P : Name → Prop) (R : β → γ → Prop) (t : Table β) (t' : Table γ) : Prop :=
  ∀ name, P name → Option.Rel R (t.get? name) (t'.get? name)

namespace RelatedOn

variable {P : Name → Prop} {R : β → γ → Prop} {t : Table β} {t' : Table γ}

lemma insert {name : Name} {x : β} {y : γ} (h : RelatedOn P R t t') (hxy : R x y) :
    RelatedOn P R (t.insert name x) (t'.insert name y) := by
  intro other hother
  rw [get?_insert, get?_insert]
  split
  · exact .some hxy
  · exact h other hother

/-- An insertion elsewhere does not matter. -/
lemma insert_left {name : Name} {x : β} (h : RelatedOn P R t t') (hname : ¬ P name) :
    RelatedOn P R (t.insert name x) t' := by
  intro other hother
  have hne : name ≠ other := fun heq => hname (heq ▸ hother)
  rw [get?_insert, if_neg hne]
  exact h other hother

lemma getD {name : Name} {x : β} {y : γ} (h : RelatedOn P R t t') (hname : P name) (hxy : R x y) :
    R (t.getD name x) (t'.getD name y) := by
  have hvalues := h name hname
  unfold Table.getD
  generalize t.get? name = found at hvalues ⊢
  generalize t'.get? name = found' at hvalues ⊢
  cases hvalues with
  | some hrelated => exact hrelated
  | none => exact hxy

/-- Lists of related values under the same names give related tables. -/
lemma ofList {δ : Type} {l : List δ} {key : δ → Name} {f : δ → β} {g : δ → γ}
    (hvalues : ∀ d ∈ l, R (f d) (g d)) :
    RelatedOn P R (Table.ofList (l.map fun d => (key d, f d)))
      (Table.ofList (l.map fun d => (key d, g d))) := by
  have hgeneral : ∀ (t : Table β) (t' : Table γ), RelatedOn P R t t' →
      RelatedOn P R ((l.map fun d => (key d, f d)).foldl (fun t e => t.insert e.1 e.2) t)
        ((l.map fun d => (key d, g d)).foldl (fun t e => t.insert e.1 e.2) t') := by
    induction l with
    | nil => exact fun t t' h => h
    | cons d rest ih =>
        obtain ⟨hd, hrest⟩ := List.forall_mem_cons.mp hvalues
        exact fun t t' h => ih hrest _ _ (h.insert hd)
  exact hgeneral empty empty fun name _ => .none

end RelatedOn

end Table

end CausalEquations
