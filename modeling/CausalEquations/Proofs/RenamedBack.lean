import CausalEquations.Proofs.EditedTexts
import CausalEquations.Proofs.Leaves

/-!
# Renaming a variable back

A variable that has been renamed can be given its old name again. The text is then the old one in
canonical layout, unless the new name had been a word of some equation before: what was called by it
gets the old name as well. No equation has to be readable for that.

* `assigns_new_renameIn`, `assigns_old_renameIn` — what is assigned after a renaming.
* `renameIn_back_iff` — when the assignments come back.
* `renameNode_back_iff` — when the text comes back.
-/

namespace CausalEquations

variable {old new : Name} {as : List Assignment}

/-! ## One right-hand side -/

lemma mentions_substitute_new {rhs : String} (hold : isName old.toList = true)
    (hnew : isName new.toList = true) :
    mentions new (substitute old new rhs) = (mentions old rhs || mentions new rhs) := by
  rw [mentions, substitute, String.toList_ofList]
  exact hasWord_new_replaceWord (isWord_of_isName hold) (isWord_of_isName hnew)

/-- The right-hand side comes back exactly if it did not have the new name as a word. -/
lemma substitute_back_iff {rhs : String} (hold : isName old.toList = true)
    (hnew : isName new.toList = true) (hne : old ≠ new) :
    substitute new old (substitute old new rhs) = rhs ↔ mentions new rhs = false := by
  constructor
  · intro hback
    rw [← hback]
    exact not_mentions_substitute hnew (.inl hold) hne
  · intro hnot
    rw [substitute, substitute, String.toList_ofList,
      replaceWord_back (isWord_of_isName hold) (isWord_of_isName hnew) hnot, String.ofList_toList]

/-! ## The assignments -/

lemma map_name_renameIn (old new : Name) (as : List Assignment) :
    (renameIn old new as).map Assignment.name = (as.map Assignment.name).map (renamed old new) := by
  rw [renameIn, List.map_map, List.map_map]
  rfl

/-- After a renaming the new name is assigned if one of the two was. -/
lemma assigns_new_renameIn (old new : Name) (as : List Assignment) :
    assigns new (renameIn old new as) = (assigns old as || assigns new as) := by
  rw [Bool.eq_iff_iff, Bool.or_eq_true, assigns_iff, assigns_iff, assigns_iff, map_name_renameIn,
    List.mem_map]
  constructor
  · rintro ⟨x, hx, heq⟩
    unfold renamed at heq
    split at heq
    · rename_i hold
      exact .inl (hold ▸ hx)
    · exact .inr (heq ▸ hx)
  · rintro (h | h)
    · exact ⟨old, h, if_pos rfl⟩
    · refine ⟨new, h, ?_⟩
      unfold renamed
      split <;> rfl

/-- After a renaming the old name is not assigned. -/
lemma assigns_old_renameIn (hne : old ≠ new) (as : List Assignment) :
    assigns old (renameIn old new as) = false := by
  rw [Bool.eq_false_iff]
  intro h
  rw [assigns_iff, map_name_renameIn, List.mem_map] at h
  obtain ⟨x, -, heq⟩ := h
  unfold renamed at heq
  split at heq
  · exact hne heq.symm
  · rename_i hx
    exact hx heq

/-- A name that is not assigned and is renamed to and fro stays. -/
lemma renamed_back {x : Name} (h : x ≠ new) : renamed new old (renamed old new x) = x := by
  unfold renamed
  by_cases hx : x = old
  · rw [if_pos hx, if_pos rfl, hx]
  · rw [if_neg hx, if_neg h]

/-- **The assignments come back** exactly if no right-hand side had the new name as a word. -/
lemma renameIn_back_iff (hold : isName old.toList = true) (hnew : isName new.toList = true)
    (hne : old ≠ new) (hfree : assigns new as = false) :
    renameIn new old (renameIn old new as) = as ↔ ∀ a ∈ as, mentions new a.rhs = false := by
  have hname : ∀ a ∈ as, a.name ≠ new := by
    rintro a ha rfl
    rw [assigns_iff.mpr (List.mem_map_of_mem ha)] at hfree
    cases hfree
  calc renameIn new old (renameIn old new as) = as
      ↔ renameIn new old (renameIn old new as) = as.map id := by rw [List.map_id]
    _ ↔ ∀ a ∈ as, (⟨renamed new old (renamed old new a.name),
          substitute new old (substitute old new a.rhs)⟩ : Assignment) = a := by
        rw [renameIn, renameIn, List.map_map, List.map_inj_left]
        rfl
    _ ↔ ∀ a ∈ as, mentions new a.rhs = false := by
        refine forall₂_congr fun a ha => ?_
        rw [renamed_back (hname a ha), ← substitute_back_iff hold hnew hne]
        exact ⟨congrArg Assignment.rhs, congrArg (Assignment.mk a.name)⟩

/-! ## The text -/

/-- Well-formed assignments that are written alike are the same. -/
lemma render_inj {bs : List Assignment} (has : ∀ a ∈ as, a.WellFormed)
    (hbs : ∀ b ∈ bs, b.WellFormed) : Assignment.render bs = Assignment.render as ↔ bs = as := by
  refine ⟨fun heq => ?_, congrArg _⟩
  have hread : assignments (Assignment.render bs) = .ok as := heq ▸ assignments_render has
  rw [assignments_render hbs] at hread
  exact Except.ok.inj hread

/-- A renaming that succeeds finds the old name in the text and the new one not assigned. -/
lemma renameNode_eq_ok {text text' previous next : String} (hold : validName? previous = some old)
    (hnew : validName? next = some new) (hne : old ≠ new) (has : assignments text = .ok as) :
    renameNode text previous next = .ok text' ↔
      (assigns old as = true ∨ ∃ a ∈ as, mentions old a.rhs = true) ∧ assigns new as = false ∧
        text' = Assignment.render (renameIn old new as) := by
  have hknown : (!assigns old as && !as.any fun a => mentions old a.rhs) = true ↔
      ¬ (assigns old as = true ∨ ∃ a ∈ as, mentions old a.rhs = true) := by simp
  rw [renameNode_eq hold hnew has, if_neg hne]
  split
  · rename_i hunknown
    simp [hknown.mp hunknown]
  · rename_i hfound
    rw [hknown, not_not] at hfound
    split
    · rename_i hassigned
      simp [hassigned]
    · rename_i hfree
      simp only [hfound, hfree, true_and, Except.ok.injEq]
      exact eq_comm

/-- After a renaming the new name is found. -/
lemma found_renameIn (hold : isName old.toList = true) (hnew : isName new.toList = true)
    (h : assigns old as = true ∨ ∃ a ∈ as, mentions old a.rhs = true) :
    assigns new (renameIn old new as) = true ∨
      ∃ a ∈ renameIn old new as, mentions new a.rhs = true := by
  rcases h with hassigned | ⟨a, ha, hmentions⟩
  · exact .inl (by rw [assigns_new_renameIn, hassigned, Bool.true_or])
  · refine .inr ⟨_, List.mem_map_of_mem ha, ?_⟩
    rw [mentions_substitute_new hold hnew, hmentions, Bool.true_or]

/-- **Renaming there and back** gives the text in canonical layout, exactly if the new name was not
a word of any right-hand side. -/
theorem renameNode_back_iff {text text' previous next : String}
    (hold : validName? previous = some old) (hnew : validName? next = some new) (hne : old ≠ new)
    (has : assignments text = .ok as) (hok : renameNode text previous next = .ok text') :
    renameNode text' next previous = .ok (Assignment.render as) ↔
      ∀ a ∈ as, mentions new a.rhs = false := by
  have hx := isName_of_validName? hold
  have hy := isName_of_validName? hnew
  have hformed := wellFormed_of_assignments has
  obtain ⟨hfound, hfree, rfl⟩ := (renameNode_eq_ok hold hnew hne has).mp hok
  have hthere := wellFormed_renameIn hformed hx hy
  have hback := wellFormed_renameIn hthere hy hx
  rw [renameNode_eq_ok hnew hold hne.symm (assignments_render hthere),
    and_iff_right (found_renameIn hx hy hfound), and_iff_right (assigns_old_renameIn hne as),
    render_inj hback hformed, eq_comm, renameIn_back_iff hx hy hne hfree]

/-- The second equation cannot be read, and blanks and an empty line go. -/
theorem renameNode_back_iff_unread :
    validName? " b" = some "b" ∧ validName? "bee" = some "bee" ∧
      assignments " Y=2*b ;\n\n b = )b2 bβ b" = .ok [⟨"Y", "2*b"⟩, ⟨"b", ")b2 bβ b"⟩] ∧
      renameNode " Y=2*b ;\n\n b = )b2 bβ b" " b" "bee" =
        .ok "Y = 2*bee\nbee = )b2 bβ bee" ∧
      renameNode "Y = 2*bee\nbee = )b2 bβ bee" "bee" " b" = .ok "Y = 2*b\nb = )b2 bβ b" := by
  have hold : validName? " b" = some "b" := by decide +kernel
  have hnew : validName? "bee" = some "bee" := by decide +kernel
  have has : assignments " Y=2*b ;\n\n b = )b2 bβ b" = .ok [⟨"Y", "2*b"⟩, ⟨"b", ")b2 bβ b"⟩] := by
    decide +kernel
  have hok : renameNode " Y=2*b ;\n\n b = )b2 bβ b" " b" "bee" =
      .ok "Y = 2*bee\nbee = )b2 bβ bee" := by
    decide +kernel
  refine ⟨hold, hnew, has, hok, ?_⟩
  exact (renameNode_back_iff hold hnew (by decide) has hok).mpr (by decide +kernel)

end CausalEquations
