/-!
# Classes of characters

A class of characters is a list of code point ranges in ascending order. Membership stops at the
first range above the character, so characters that come early in the code are decided early.

* `inRanges` — membership.
* `mem_of_inRanges` — a point that is found lies in some range of the list.
-/

namespace CausalEquations

/-- Whether a code point lies in one of the ascending ranges, both ends included. -/
def inRanges (point : Nat) : List (Nat × Nat) → Bool
  | [] => false
  | (low, high) :: rest =>
    if point < low then false else if point ≤ high then true else inRanges point rest

/-- A point that is found lies in some range. -/
theorem mem_of_inRanges {point : Nat} {ranges : List (Nat × Nat)}
    (h : inRanges point ranges = true) : ∃ r ∈ ranges, r.1 ≤ point ∧ point ≤ r.2 := by
  induction ranges with
  | nil => simp [inRanges] at h
  | cons r rest ih =>
    obtain ⟨low, high⟩ := r
    simp only [inRanges] at h
    split at h
    · simp at h
    · split at h
      · exact ⟨(low, high), by simp, by omega, by omega⟩
      · obtain ⟨r, hr, hb⟩ := ih h
        exact ⟨r, List.mem_cons_of_mem _ hr, hb⟩

end CausalEquations
