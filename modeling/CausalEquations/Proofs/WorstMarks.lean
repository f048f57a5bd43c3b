import CausalEquations.Proofs.EdgeMarks

/-!
# The worst of the given marks

Which mark a label ends up with depends only on the marks that the paths give it: it is the worst of
them. Two questions about edges therefore have the same answer if the same marks are given, in
whatever order the paths are met.

* `Graph.Bears`, `Graph.Gives` — the labels on a path, and the marks that the paths give a label.
* `IsWorst` — the worst of some marks, or no mark if there is none.
* `Graph.isWorst_edgeStatus` — the mark of a label is the worst of those given.
-/

namespace CausalEquations

/-! ## Worst marks -/

/-- The mark is one of those given, and none of them is worse. -/
structure IsWorst (given : EdgeStatus → Prop) (status : Option EdgeStatus) : Prop where
  isGiven : ∀ s, status = some s → given s
  notWorse : ∀ s, given s → ∃ t, status = some t ∧ s.severity ≤ t.severity

lemma EdgeStatus.severity_injective {s t : EdgeStatus} (h : s.severity = t.severity) : s = t := by
  cases s <;> cases t <;> first | rfl | cases h

lemma EdgeStatus.severity_pos (s : EdgeStatus) : 0 < s.severity := by
  cases s <;> decide

namespace IsWorst

variable {given given' : EdgeStatus → Prop} {status status' : Option EdgeStatus}

/-- The same marks have the same worst mark. -/
lemma eq (h : IsWorst given status) (h' : IsWorst given' status')
    (hsame : ∀ s, given s ↔ given' s) : status = status' := by
  cases status with
  | none =>
      cases status' with
      | none => rfl
      | some t =>
          obtain ⟨_, hnone, -⟩ := h.notWorse t ((hsame t).mpr (h'.isGiven t rfl))
          cases hnone
  | some s =>
      obtain ⟨t, rfl, hle⟩ := h'.notWorse s ((hsame s).mp (h.isGiven s rfl))
      obtain ⟨u, hu, hge⟩ := h.notWorse t ((hsame t).mpr (h'.isGiven t rfl))
      cases hu
      rw [EdgeStatus.severity_injective (le_antisymm hle hge)]

/-- No mark is worse than bad, so it shows whenever it is given. -/
lemma eq_bad_iff (h : IsWorst given status) : status = some .bad ↔ given .bad := by
  refine ⟨h.isGiven .bad, fun hbad => ?_⟩
  obtain ⟨t, rfl, hle⟩ := h.notWorse .bad hbad
  cases t with
  | bad => rfl
  | good | maybe => exact absurd hle (by decide)

/-- If no more than the mark bad is given in addition, it shows or makes no difference. -/
lemma eq_or_bad (h : IsWorst given status) (h' : IsWorst given' status')
    (hmore : ∀ s, given' s → given s) (hbad : ∀ s, s ≠ .bad → given s → given' s) :
    status = status' ∨ status = some .bad := by
  by_cases hgiven : given .bad → given' .bad
  · refine .inl (h.eq h' fun s => ⟨fun hs => ?_, hmore s⟩)
    by_cases hs' : s = .bad
    · exact hs' ▸ hgiven (hs' ▸ hs)
    · exact hbad s hs' hs
  · exact .inr (h.eq_bad_iff.mpr (Classical.not_imp.mp hgiven).1)

end IsWorst

/-! ## Marks of labels -/

namespace Graph

/-- The path goes along an edge with the label. -/
def Bears (g : Graph) (path : List Name) (label : Name) : Prop :=
  ∃ step ∈ steps path, edgeLabel? g step.1 step.2 = some label

/-- A path that is looked at gives the mark to its edges, and goes along one with the label. -/
def Gives (g : Graph) (x y : Name) (controls excluded : List Name) (search : PathSearch)
    (label : Name) (status : EdgeStatus) : Prop :=
  ∃ path ∈ g.searchedPaths x y controls excluded search,
    changeOf g g.children.descendants (effectiveControls controls excluded) path = some status ∧
      g.Bears path label

/-- **The mark of a label is the worst of those given.** -/
theorem isWorst_edgeStatus (g : Graph) (x y : Name) (controls excluded : List Name)
    (search : PathSearch) (label : Name) :
    IsWorst (g.Gives x y controls excluded search label)
      ((g.edgeStatus x y controls excluded search).get? label) := by
  have hbound : ∀ bound, 0 < bound →
      (bound ≤ gravity ((g.edgeStatus x y controls excluded search).get? label) ↔
        ∃ s, g.Gives x y controls excluded search label s ∧ bound ≤ s.severity) := by
    intro bound hpositive
    have hempty : ¬ bound ≤ gravity (Table.empty.get? label) := by
      simp only [Table.get?_empty, gravity, Option.elim_none]
      omega
    rw [edgeStatus, le_gravity_foldl_markChange, or_iff_right hempty]
    constructor
    · rintro ⟨path, hpath, s, hchange, hle, hlabel⟩
      exact ⟨s, ⟨path, hpath, hchange, hlabel⟩, hle⟩
    · rintro ⟨s, ⟨path, hpath, hchange, hlabel⟩, hle⟩
      exact ⟨path, hpath, s, hchange, hle, hlabel⟩
  generalize (g.edgeStatus x y controls excluded search).get? label = status at hbound
  constructor
  case isGiven =>
    rintro s rfl
    obtain ⟨t, hgives, hle⟩ := (hbound s.severity s.severity_pos).mp le_rfl
    have hge : t.severity ≤ s.severity := (hbound t.severity t.severity_pos).mpr ⟨t, hgives, le_rfl⟩
    rwa [EdgeStatus.severity_injective (le_antisymm hle hge)]
  case notWorse =>
    intro s hgives
    have hle := (hbound s.severity s.severity_pos).mpr ⟨s, hgives, le_rfl⟩
    cases status with
    | none =>
        have hnone := s.severity_pos
        simp only [gravity, Option.elim_none] at hle
        omega
    | some t => exact ⟨t, rfl, hle⟩

end Graph

end CausalEquations
