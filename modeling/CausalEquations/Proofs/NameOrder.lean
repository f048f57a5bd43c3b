import CausalEquations.Table
import CausalEquations.Proofs.Listing
import Mathlib.Data.List.Sort
import Mathlib.Data.String.Basic

/-!
# The order of names

Code point order is total, so the sorted listing of a set of names is determined by the set.

* `Name.le_total`, `Name.le_trans`, `Name.le_antisymm` — a total order.
* `Name.le_iff` — it is the usual order of strings.
* `eq_sortedNames` — a sorted listing of the same names is the same listing.
* `sortedNames_eq_insertionSort` — so it does not matter how names are sorted.
-/

namespace CausalEquations

namespace Name

/-! ## Characters -/

lemma charsLe_cons {a b : Char} {as bs : List Char} :
    charsLe (a :: as) (b :: bs) = true ↔ a.toNat < b.toNat ∨ (a = b ∧ charsLe as bs = true) := by
  rw [charsLe]
  split
  · rename_i heq
    simp [heq]
  · rename_i hne
    simp [hne]

lemma charsLe_total : ∀ as bs : List Char, charsLe as bs = true ∨ charsLe bs as = true
  | [], _ => .inl (by simp [charsLe])
  | _ :: _, [] => .inr (by simp [charsLe])
  | a :: as, b :: bs => by
      simp only [charsLe_cons]
      rcases Nat.lt_trichotomy a.toNat b.toNat with hlt | heq | hgt
      · exact .inl (.inl hlt)
      · have hchar : a = b := Char.toNat_inj.mp heq
        exact (charsLe_total as bs).imp (fun h => .inr ⟨hchar, h⟩) fun h => .inr ⟨hchar.symm, h⟩
      · exact .inr (.inl hgt)

lemma charsLe_trans : ∀ {as bs cs : List Char}, charsLe as bs = true → charsLe bs cs = true →
    charsLe as cs = true
  | [], _, _, _, _ => by simp [charsLe]
  | _ :: _, [], _, h, _ => by simp [charsLe] at h
  | _ :: _, _ :: _, [], _, h => by simp [charsLe] at h
  | a :: as, b :: bs, c :: cs, h, h' => by
      rw [charsLe_cons] at h h' ⊢
      rcases h with hab | ⟨rfl, hab⟩
      · rcases h' with hbc | ⟨rfl, -⟩
        · exact .inl (hab.trans hbc)
        · exact .inl hab
      · exact h'.imp_right fun hbc => ⟨hbc.1, charsLe_trans hab hbc.2⟩

lemma charsLe_antisymm : ∀ {as bs : List Char}, charsLe as bs = true → charsLe bs as = true →
    as = bs
  | [], [], _, _ => rfl
  | [], _ :: _, _, h => by simp [charsLe] at h
  | _ :: _, [], h, _ => by simp [charsLe] at h
  | a :: as, b :: bs, h, h' => by
      rw [charsLe_cons] at h h'
      rcases h with hab | ⟨rfl, hab⟩
      · rcases h' with hba | ⟨rfl, -⟩
        · exact absurd hba hab.asymm
        · exact absurd hab (lt_irrefl _)
      · rcases h' with hba | ⟨-, hba⟩
        · exact absurd hba (lt_irrefl _)
        · rw [charsLe_antisymm hab hba]

/-! ## Names -/

lemma le_total (a b : Name) : (le a b || le b a) = true := by
  rw [Bool.or_eq_true]
  exact charsLe_total _ _

lemma le_trans (a b c : Name) (h : le a b = true) (h' : le b c = true) : le a c = true :=
  charsLe_trans h h'

lemma le_antisymm {a b : Name} (h : le a b = true) (h' : le b a = true) : a = b :=
  String.toList_injective (charsLe_antisymm h h')

lemma charsLe_iff : ∀ {as bs : List Char}, charsLe as bs = true ↔ ¬ bs < as
  | [], bs => by simp [charsLe]
  | _ :: _, [] => by simp [charsLe]
  | a :: as, b :: bs => by
      have hcode : a.toNat < b.toNat ↔ a < b := Iff.rfl
      rw [charsLe_cons, charsLe_iff, List.cons_lt_cons_iff, not_or, not_and, hcode]
      rcases lt_trichotomy a b with hlt | rfl | hgt
      · simp [hlt, hlt.asymm, hlt.ne']
      · simp
      · simp [hgt, hgt.asymm, hgt.ne']

/-- Code point order is the usual order of strings. -/
lemma le_iff {a b : Name} : le a b = true ↔ a ≤ b := by
  rw [le, charsLe_iff, ← String.lt_iff_toList_lt, String.not_lt]

end Name

/-! ## Sorted listings -/

lemma sortedNames_perm (names : List Name) : (sortedNames names).Perm names :=
  List.mergeSort_perm names Name.le

@[simp] lemma mem_sortedNames {names : List Name} {name : Name} :
    name ∈ sortedNames names ↔ name ∈ names := List.mem_mergeSort

lemma pairwise_sortedNames (names : List Name) :
    (sortedNames names).Pairwise fun a b => Name.le a b = true :=
  List.pairwise_mergeSort Name.le_trans Name.le_total names

/-- A sorted listing without repetition is determined by what it lists. -/
theorem eq_sortedNames {l names : List Name} (hsorted : l.Pairwise fun a b => Name.le a b = true)
    (hl : l.Nodup) (hnames : names.Nodup) (hmem : ∀ name, name ∈ l ↔ name ∈ names) :
    l = sortedNames names := by
  have hperm : l.Perm names := (List.perm_ext_iff_of_nodup hl hnames).mpr hmem
  exact (hperm.trans (sortedNames_perm names).symm).eq_of_pairwise
    (fun a b _ _ => Name.le_antisymm) hsorted (pairwise_sortedNames names)

/-- Listings of the same names without repetition are sorted into the same listing. -/
lemma sortedNames_congr {names names' : List Name} (h : names.Nodup) (h' : names'.Nodup)
    (hmem : ∀ name, name ∈ names ↔ name ∈ names') : sortedNames names = sortedNames names' :=
  eq_sortedNames (pairwise_sortedNames names) ((sortedNames_perm names).nodup_iff.mpr h) h'
    fun name => by rw [mem_sortedNames, hmem]

/-- Sorting by insertion gives the same listing. -/
lemma sortedNames_eq_insertionSort (names : List Name) :
    sortedNames names = names.insertionSort (· ≤ ·) := by
  have hperm := (sortedNames_perm names).trans (List.perm_insertionSort (· ≤ ·) names).symm
  have hsorted := (pairwise_sortedNames names).imp fun {_ _} => Name.le_iff.mp
  exact hperm.eq_of_pairwise (fun _ _ _ _ => antisymm) hsorted
    (List.pairwise_insertionSort (· ≤ ·) names)

end CausalEquations
