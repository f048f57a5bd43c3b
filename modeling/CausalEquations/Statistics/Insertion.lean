/-!
# Sorting by insertion

A list is sorted by inserting its elements one after the other, each at the place that bisection
finds, into the run that stands at the front of the list already. For a strict order the result is
sorted. Nothing else is asked of the comparison, so that numbers can be sorted of which some are
undefined: these stay where bisection leaves them.

* `Insertion.splitRun` — the run at the front, in ascending order, and the rest.
* `Insertion.place` — where bisection puts an element.
* `Insertion.sort` — the sorted list.
* `Insertion.sort_perm`, `Insertion.pairwise_sort` — it has the same elements, and no element comes
  before an earlier one.
-/

namespace CausalEquations

namespace Insertion

variable {β : Type} (before : β → β → Bool)

/-- The elements that go on in one direction after `previous`, and the rest. -/
def takeRun (descending : Bool) (previous : β) : List β → List β × List β
  | [] => ([], [])
  | b :: rest =>
    if before b previous = descending then
      (b :: (takeRun descending b rest).1, (takeRun descending b rest).2)
    else ([], b :: rest)

/-- The run at the front of a list, in ascending order, and the rest. The first two elements decide
its direction; equal ones ascend. -/
def splitRun : List β → List β × List β
  | a :: b :: rest =>
    let run := takeRun before (before b a) a (b :: rest)
    (if before b a then (a :: run.1).reverse else a :: run.1, run.2)
  | xs => (xs, [])

/-- The place of `x` between `low` and `high` in a sorted list: behind all that does not come after
it. The interval halves in each of at most `fuel` steps. -/
def place (x : β) (xs : List β) : (fuel low high : Nat) → Nat
  | 0, low, _ => low
  | fuel + 1, low, high =>
    match xs[(low + high) / 2]? with
    | none => low
    | some m =>
      if low < high then
        if before x m then place x xs fuel low ((low + high) / 2)
        else place x xs fuel ((low + high) / 2 + 1) high
      else low

/-- Inserts an element into a sorted list. -/
def insert (xs : List β) (x : β) : List β :=
  let i := place before x xs (xs.length + 1) 0 xs.length
  xs.take i ++ x :: xs.drop i

/-- The sorted list. -/
def sort (xs : List β) : List β :=
  (splitRun before xs).2.foldl (insert before) (splitRun before xs).1

/-! ## The elements remain -/

theorem takeRun_append (descending : Bool) (previous : β) (xs : List β) :
    (takeRun before descending previous xs).1 ++ (takeRun before descending previous xs).2 = xs := by
  induction xs generalizing previous with
  | nil => rfl
  | cons b rest ih =>
    simp only [takeRun]
    split
    · simp [ih]
    · rfl

theorem splitRun_perm (xs : List β) :
    ((splitRun before xs).1 ++ (splitRun before xs).2).Perm xs := by
  match xs with
  | [] => exact List.Perm.refl _
  | [a] => exact List.Perm.refl _
  | a :: b :: rest =>
    have h := takeRun_append before (before b a) a (b :: rest)
    have hcons : (a :: (takeRun before (before b a) a (b :: rest)).1)
        ++ (takeRun before (before b a) a (b :: rest)).2 = a :: b :: rest := by
      rw [List.cons_append, h]
    simp only [splitRun]
    split
    · exact ((List.reverse_perm _).append_right _).trans (hcons ▸ List.Perm.refl _)
    · exact hcons ▸ List.Perm.refl _

theorem insert_perm (xs : List β) (x : β) : (insert before xs x).Perm (x :: xs) := by
  simp only [insert]
  refine List.perm_middle.trans (List.Perm.cons x ?_)
  rw [List.take_append_drop]

theorem foldl_insert_perm (xs ys : List β) : (ys.foldl (insert before) xs).Perm (xs ++ ys) := by
  induction ys generalizing xs with
  | nil => simp
  | cons y ys ih =>
    refine (ih _).trans (((insert_perm before xs y).append_right ys).trans ?_)
    exact List.perm_middle.symm

/-- Sorting changes the order of the elements only. -/
theorem sort_perm (xs : List β) : (sort before xs).Perm xs :=
  (foldl_insert_perm before _ _).trans (splitRun_perm before xs)

/-! ## The result is sorted

The comparison is a strict order in which incomparable elements are interchangeable: what does not
come before what does not come before a third does not come before the third.
-/

/-- No element comes before an earlier one. -/
def Sorted (xs : List β) : Prop := xs.Pairwise fun a b => before b a = false

variable (asymm : ∀ a b, before a b = true → before b a = false)
  (trans : ∀ a b c, before b a = false → before c b = false → before c a = false)

include asymm trans in
theorem pairwise_takeRun (descending : Bool) (previous : β) (xs : List β) :
    (previous :: (takeRun before descending previous xs).1).Pairwise
      fun a b => if descending then before a b = false else before b a = false := by
  induction xs generalizing previous with
  | nil => simp [takeRun]
  | cons b rest ih =>
    by_cases h : before b previous = descending
    · simp only [takeRun, h, if_true]
      have hb := ih b
      refine List.pairwise_cons.2 ⟨fun c hc => ?_, hb⟩
      have hstep : if descending then before previous b = false else before b previous = false := by
        cases descending with
        | true => simpa using asymm _ _ h
        | false => simpa using h
      rcases List.mem_cons.1 hc with rfl | hc
      · exact hstep
      · have hbc := (List.pairwise_cons.1 hb).1 c hc
        cases descending with
        | true =>
          simp only [if_true] at hstep hbc ⊢
          exact trans c b previous hbc hstep
        | false =>
          simp only [Bool.false_eq_true, if_false] at hstep hbc ⊢
          exact trans previous b c hstep hbc
    · simp [takeRun, h]

include asymm trans in
theorem sorted_splitRun (xs : List β) : Sorted before (splitRun before xs).1 := by
  match xs with
  | [] => exact List.Pairwise.nil
  | [a] => exact List.pairwise_singleton _ _
  | a :: b :: rest =>
    have h := pairwise_takeRun before asymm trans (before b a) a (b :: rest)
    simp only [splitRun, Sorted]
    split
    · rename_i hd
      rw [List.pairwise_reverse]
      simpa [hd] using h
    · rename_i hd
      simpa [hd] using h

/-- Bisection stops where everything in front does not come after `x`, and everything behind
does. -/
theorem place_spec (x : β) (xs : List β)
    (trans : ∀ a b c, before b a = false → before c b = false → before c a = false)
    (sorted : Sorted before xs) (fuel low high : Nat) (hhigh : high ≤ xs.length)
    (hle : low ≤ high) (hfuel : high - low < fuel)
    (hlow : ∀ j (hj : j < xs.length), j < low → before x xs[j] = false)
    (hup : ∀ j (hj : j < xs.length), high ≤ j → before x xs[j] = true) :
    (∀ j (hj : j < xs.length), j < place before x xs fuel low high → before x xs[j] = false) ∧
      ∀ j (hj : j < xs.length), place before x xs fuel low high ≤ j → before x xs[j] = true := by
  induction fuel generalizing low high with
  | zero => omega
  | succ fuel ih =>
    have later : ∀ i j (hi : i < xs.length) (hj : j < xs.length), i ≤ j →
        before xs[j] xs[i] = false ∨ i = j := by
      intro i j hi hj hij
      rcases Nat.lt_or_eq_of_le hij with h | h
      · exact Or.inl (List.pairwise_iff_getElem.1 sorted i j hi hj h)
      · exact Or.inr h
    simp only [place]
    split
    · rename_i hnone
      rw [List.getElem?_eq_none_iff] at hnone
      have : low = high := by omega
      exact ⟨fun j hj h => hlow j hj h, fun j hj h => hup j hj (by omega)⟩
    · rename_i m hm
      obtain ⟨hmid, rfl⟩ := List.getElem?_eq_some_iff.1 hm
      split
      · split
        · rename_i hlt hx
          refine ih low ((low + high) / 2) (by omega) (by omega) (by omega) hlow ?_
          intro j hj hjm
          rcases later _ j hmid hj hjm with h | h
          · cases hc : before x xs[j] with
            | true => rfl
            | false => exact absurd (trans _ _ _ h hc) (by simp [hx])
          · subst h
            exact hx
        · rename_i hlt hx
          refine ih ((low + high) / 2 + 1) high hhigh (by omega) (by omega) ?_ hup
          intro j hj hjm
          rcases later j _ hj hmid (by omega) with h | h
          · exact trans _ _ _ h (by simpa using hx)
          · subst h
            simpa using hx
      · have : low = high := by omega
        exact ⟨fun j hj h => hlow j hj h, fun j hj h => hup j hj (by omega)⟩

include asymm trans in
theorem sorted_insert (xs : List β) (x : β) (sorted : Sorted before xs) :
    Sorted before (insert before xs x) := by
  obtain ⟨hfront, hback⟩ := place_spec before x xs trans sorted (xs.length + 1) 0 xs.length
    (Nat.le_refl _) (Nat.zero_le _) (by omega) (fun j _ h => absurd h (Nat.not_lt_zero j))
    (fun j hj h => absurd hj (Nat.not_lt.2 h))
  simp only [insert, Sorted] at hfront hback ⊢
  generalize place before x xs (xs.length + 1) 0 xs.length = i at hfront hback
  have hsplit : (xs.take i ++ xs.drop i).Pairwise fun a b => before b a = false := by
    rw [List.take_append_drop]
    exact sorted
  obtain ⟨htake, hdrop, hcross⟩ := List.pairwise_append.1 hsplit
  refine List.pairwise_append.2 ⟨htake, List.pairwise_cons.2 ⟨?_, hdrop⟩, ?_⟩
  · intro b hb
    obtain ⟨k, hk, rfl⟩ := List.getElem_of_mem hb
    rw [List.getElem_drop]
    exact asymm _ _ (hback _ _ (Nat.le_add_right i k))
  · intro a ha b hb
    rcases List.mem_cons.1 hb with rfl | hb
    · obtain ⟨k, hk, rfl⟩ := List.getElem_of_mem ha
      rw [List.getElem_take]
      rw [List.length_take] at hk
      exact hfront k (by omega) (by omega)
    · exact hcross a ha b hb

include asymm trans in
/-- No element of the sorted list comes before an earlier one. -/
theorem pairwise_sort (xs : List β) : Sorted before (sort before xs) := by
  have h : ∀ ys zs : List β, Sorted before zs → Sorted before (ys.foldl (insert before) zs) := by
    intro ys
    induction ys with
    | nil => exact fun _ hz => hz
    | cons y ys ih => exact fun zs hz => ih _ (sorted_insert before asymm trans zs y hz)
  exact h _ _ (sorted_splitRun before asymm trans xs)

end Insertion

end CausalEquations
