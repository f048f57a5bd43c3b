import Mathlib.Data.List.Basic
import Mathlib.Data.List.Nodup
import Mathlib.Data.Finset.Card

/-!
# Listings without repetition

A listing that stands for a set keeps the first occurrence of every element. Renaming the elements
by an injective map commutes with it.

* `nodup_eraseDups` — nothing is repeated.
* `eraseDups_append_of_subset` — what is listed already adds nothing.
* `eraseDups_map` — renaming before or after makes no difference.
* `eraseDups_filter`, `eraseDups_flatMap` — neither does leaving elements out, or listing parts first.
* `FirstOccurrences`, `firstOccurrences_eraseDups` — which listing it is: the elements stand in the
  order in which they first occur.
* `length_eq_iff_injOn` — no element gets lost exactly if no two become one.
-/

namespace CausalEquations

variable {α β : Type} [DecidableEq α] [DecidableEq β]

/-- Each element is listed once. -/
lemma nodup_eraseDups : ∀ l : List α, l.eraseDups.Nodup
  | [] => by simp
  | a :: rest => by
      have hrest := nodup_eraseDups (rest.filter fun b => !b == a)
      rw [List.eraseDups_cons, List.nodup_cons]
      exact ⟨by simp [List.mem_eraseDups], hrest⟩
  termination_by l => l.length
  decreasing_by
    exact Nat.lt_succ_of_le (List.length_filter_le _ _)

/-- A listing without repetition stays as it is. -/
lemma eraseDups_of_nodup {l : List α} (h : l.Nodup) : l.eraseDups = l := by
  induction l with
  | nil => rfl
  | cons a rest ih =>
      obtain ⟨hnew, hrest⟩ := List.nodup_cons.mp h
      have hfilter : rest.filter (fun b => !b == a) = rest :=
        List.filter_eq_self.mpr fun b hb => by
          have hne : b ≠ a := fun heq => hnew (heq ▸ hb)
          simpa using hne
      rw [List.eraseDups_cons, hfilter, ih hrest]

/-- What is listed already is not listed again. -/
lemma eraseDups_append_of_subset {l l' : List α} (hl : l.Nodup) (hsub : l' ⊆ l) :
    (l ++ l').eraseDups = l := by
  have hnone : l'.removeAll l = [] := by
    simpa [List.removeAll, List.filter_eq_nil_iff] using fun a ha => hsub ha
  rw [List.eraseDups_append, hnone, eraseDups_of_nodup hl, List.eraseDups_nil, List.append_nil]

/-- An injective renaming of the elements goes through. -/
lemma eraseDups_map {f : α → β} :
    ∀ l : List α, (∀ a ∈ l, ∀ b ∈ l, f a = f b → a = b) →
      (l.map f).eraseDups = l.eraseDups.map f
  | [], _ => by simp
  | a :: rest, hf => by
      have hfilter : (rest.map f).filter (fun b => !b == f a)
          = (rest.filter fun b => !b == a).map f := by
        rw [List.filter_map]
        refine congrArg _ (List.filter_congr fun b hb => ?_)
        have hiff : f b = f a ↔ b = a :=
          ⟨hf b (List.mem_cons_of_mem _ hb) a List.mem_cons_self, congrArg f⟩
        simp [hiff]
      have hrest := eraseDups_map (rest.filter fun b => !b == a) fun x hx y hy =>
        hf x (List.mem_cons_of_mem _ (List.mem_filter.mp hx).1)
          y (List.mem_cons_of_mem _ (List.mem_filter.mp hy).1)
      rw [List.map_cons, List.eraseDups_cons, List.eraseDups_cons, List.map_cons, hfilter, hrest]
  termination_by l => l.length
  decreasing_by
    exact Nat.lt_succ_of_le (List.length_filter_le _ _)

/-- Elements may be left out before or after. -/
lemma eraseDups_filter (p : α → Bool) :
    ∀ l : List α, (l.filter p).eraseDups = l.eraseDups.filter p
  | [] => by simp
  | a :: rest => by
      have hrest := eraseDups_filter p (rest.filter fun b => !b == a)
      rw [List.eraseDups_cons]
      by_cases ha : p a = true
      · rw [List.filter_cons_of_pos ha, List.filter_cons_of_pos ha, List.eraseDups_cons, ← hrest,
          List.filter_comm]
      · have hne : (rest.filter fun b => !b == a).filter p = rest.filter p := by
          rw [List.filter_filter]
          refine List.filter_congr fun b _ => ?_
          by_cases hb : b = a
          · subst hb
            simp [ha]
          · simp [hb]
        rw [List.filter_cons_of_neg ha, List.filter_cons_of_neg ha, ← hrest, hne]
  termination_by l => l.length
  decreasing_by
    exact Nat.lt_succ_of_le (List.length_filter_le _ _)

omit [DecidableEq β] in
/-- Parts may be listed without repetition before they are put together. -/
lemma eraseDups_flatMap (f : β → List α) (l : List β) :
    (l.flatMap fun b => (f b).eraseDups).eraseDups = (l.flatMap f).eraseDups := by
  induction l with
  | nil => rfl
  | cons b rest ih =>
      have hsame : ∀ xs : List α, xs.removeAll (f b).eraseDups = xs.removeAll (f b) := by
        intro xs
        refine List.filter_congr fun x _ => ?_
        simp
      rw [List.flatMap_cons, List.flatMap_cons, List.eraseDups_append, List.eraseDups_append,
        eraseDups_of_nodup (nodup_eraseDups _), hsame, List.removeAll, List.removeAll,
        eraseDups_filter, eraseDups_filter, ih]

/-- The list holds the elements of the source with the property, each once and in the order in which
they first occur there. -/
structure FirstOccurrences (source : List α) (keep : α → Prop) (l : List α) : Prop where
  mem_iff : ∀ a, a ∈ l ↔ a ∈ source ∧ keep a
  pairwise : l.Pairwise fun a b => source.idxOf a < source.idxOf b

lemma FirstOccurrences.nodup {source l : List α} {keep : α → Prop}
    (h : FirstOccurrences source keep l) : l.Nodup := by
  refine h.pairwise.imp ?_
  rintro a _ hlt rfl
  exact lt_irrefl _ hlt

/-- A listing without repetition keeps the first occurrences. -/
theorem firstOccurrences_eraseDups (source : List α) (p : α → Bool) :
    FirstOccurrences source (fun a => p a = true) (source.filter p).eraseDups where
  mem_iff a := by rw [List.mem_eraseDups, List.mem_filter]
  pairwise := by
    induction source generalizing p with
    | nil => simp
    | cons a rest ih =>
        -- every other element stands one place further back than in the rest
        have hshift : ∀ (q : α → Bool), q a = false → ((rest.filter q).eraseDups).Pairwise
            fun x y => (a :: rest).idxOf x < (a :: rest).idxOf y := by
          intro q hq
          have hne : ∀ x ∈ (rest.filter q).eraseDups, a ≠ x := by
            rintro x hx rfl
            rw [List.mem_eraseDups, List.mem_filter, hq] at hx
            cases hx.2
          refine (List.pairwise_iff_forall_sublist.mpr fun {x y} hsub => ?_)
          have hlt := List.pairwise_iff_forall_sublist.mp (ih q) hsub
          rw [List.idxOf_cons_ne _ (hne x (hsub.subset (by simp))),
            List.idxOf_cons_ne _ (hne y (hsub.subset (by simp)))]
          exact Nat.succ_lt_succ hlt
        by_cases ha : p a = true
        · rw [List.filter_cons_of_pos ha, List.eraseDups_cons, List.filter_filter,
            List.pairwise_cons]
          refine ⟨fun x hx => ?_, hshift _ (by simp)⟩
          rw [List.mem_eraseDups, List.mem_filter] at hx
          have hne : a ≠ x := by
            rintro rfl
            simp at hx
          rw [List.idxOf_cons_self, List.idxOf_cons_ne _ hne]
          exact Nat.succ_pos _
        · rw [List.filter_cons_of_neg ha]
          exact hshift p (Bool.eq_false_of_not_eq_true ha)

/-- The images of the elements are as many as the elements if no two of them become one. -/
lemma length_eq_iff_injOn {f : α → β} {l : List α} {l' : List β} (hl : l.Nodup) (hl' : l'.Nodup)
    (himage : ∀ x, x ∈ l' ↔ ∃ y ∈ l, f y = x) :
    l'.length = l.length ↔ ∀ a ∈ l, ∀ b ∈ l, f a = f b → a = b := by
  have hfinset : l'.toFinset = l.toFinset.image f := by
    ext x
    simp [himage]
  rw [← List.toFinset_card_of_nodup hl, ← List.toFinset_card_of_nodup hl', hfinset,
    Finset.card_image_iff]
  constructor
  · intro hinj a ha b hb heq
    exact hinj (by simpa using ha) (by simpa using hb) heq
  · intro hinj a ha b hb heq
    exact hinj a (by simpa using ha) b (by simpa using hb) heq

end CausalEquations
