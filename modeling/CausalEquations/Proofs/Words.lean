import CausalEquations.Proofs.Characters

/-!
# Replacing a word

A text is cut into runs of word characters and of other characters. What the replacement of a word
makes of a text can be said from the front: other characters stay, and a whole run of word
characters either is the word or stays.

* `IsWord` — what can be replaced.
* `replaceWord_other`, `replaceWord_run` — the replacement from the front.
* `head_replaceWord` — what the result starts with.
* `replaceWord_of_hasWord` — nothing changes where the word does not occur.
* `induction_runs`, `hasWord_append` — whether a word occurs, from the front.
* `hasWord_replaceWord`, `hasWord_new_replaceWord` — which words occur in the result.
* `replaceWord_back` — the replacement by a word that did not occur, undone.
-/

namespace CausalEquations

/-- The text is a run of word characters. -/
def IsWord (w : List Char) : Prop := w ≠ [] ∧ ∀ c ∈ w, isWordChar c = true

/-- The text does not go on with a word character. -/
def EndsWord (cs : List Char) : Prop := ∀ c ∈ cs.head?, isWordChar c = false

lemma EndsWord.nil : EndsWord [] := by simp [EndsWord]

variable {old new cs w rest : List Char}

lemma EndsWord.append (h : EndsWord cs) (hrest : EndsWord rest) : EndsWord (cs ++ rest) := by
  cases cs with
  | nil => exact hrest
  | cons c cs => exact h

/-! ## Runs -/

lemma runs_cons (c : Char) (cs : List Char) : runs (c :: cs) = joinRun c (runs cs) := rfl

lemma exists_runs_cons (c : Char) (cs : List Char) :
    ∃ run more, runs (c :: cs) = (c :: run) :: more := by
  rw [runs_cons]
  rcases h : runs cs with _ | ⟨_ | ⟨d, run⟩, more⟩
  · exact ⟨[], [], rfl⟩
  · exact ⟨[], [] :: more, rfl⟩
  · simp only [joinRun]
    split
    · exact ⟨d :: run, more, rfl⟩
    · exact ⟨[], (d :: run) :: more, rfl⟩

lemma runs_append (hne : w ≠ []) (hw : ∀ c ∈ w, isWordChar c = true) (hrest : EndsWord rest) :
    runs (w ++ rest) = w :: runs rest := by
  induction w with
  | nil => exact absurd rfl hne
  | cons c w ih =>
      rw [List.cons_append, runs_cons]
      cases w with
      | nil =>
          cases rest with
          | nil => rfl
          | cons d rest =>
              obtain ⟨run, more, hruns⟩ := exists_runs_cons d rest
              have hc : isWordChar c = true := hw c (by simp)
              have hd : isWordChar d = false := hrest d (by simp)
              rw [List.nil_append, hruns]
              simp only [joinRun, hc, hd]
              rfl
      | cons d w =>
          have hc : isWordChar c = true := hw c (by simp)
          have hd : isWordChar d = true := hw d (by simp)
          rw [ih (by simp) fun x hx => hw x (List.mem_cons_of_mem _ hx)]
          simp only [joinRun, hc, hd]
          rfl

/-! ## The replacement from the front -/

@[simp] lemma replaceWord_nil : replaceWord old new [] = [] := rfl

/-- A character that belongs to no word stays. -/
lemma replaceWord_other (hold : IsWord old) {c : Char} (hc : isWordChar c = false) :
    replaceWord old new (c :: cs) = c :: replaceWord old new cs := by
  have hne : ∀ d run, isWordChar d = false → ¬ d :: run = old := by
    rintro d run hd rfl
    rw [hold.2 d (by simp)] at hd
    cases hd
  unfold replaceWord
  rw [runs_cons]
  rcases h : runs cs with _ | ⟨_ | ⟨d, run⟩, more⟩
  · simp [joinRun, hne c [] hc]
  · simp [joinRun, hne c [] hc]
  · simp only [joinRun]
    split
    · rename_i hkind
      have hd : isWordChar d = false := by simpa [hc] using hkind
      simp [hne c _ hc, hne d _ hd]
    · simp [hne c [] hc]

/-- A whole run of word characters is the word or stays. -/
lemma replaceWord_run (hold : IsWord old) (hw : ∀ c ∈ w, isWordChar c = true)
    (hrest : EndsWord rest) :
    replaceWord old new (w ++ rest) = (if w = old then new else w) ++ replaceWord old new rest := by
  by_cases hne : w = []
  · subst hne
    rw [if_neg (Ne.symm hold.1)]
    rfl
  · unfold replaceWord
    rw [runs_append hne hw hrest, List.flatMap_cons]

/-- A run that does not start like the word stays. -/
lemma replaceWord_run_of_ne (hold : IsWord old) (hw : ∀ c ∈ w, isWordChar c = true)
    (hrest : EndsWord rest) (hne : w ≠ old) :
    replaceWord old new (w ++ rest) = w ++ replaceWord old new rest := by
  rw [replaceWord_run hold hw hrest, if_neg hne]

lemma exists_run (cs : List Char) :
    ∃ w rest, cs = w ++ rest ∧ (∀ c ∈ w, isWordChar c = true) ∧ EndsWord rest := by
  induction cs with
  | nil => exact ⟨[], [], rfl, by simp, by simp [EndsWord]⟩
  | cons c cs ih =>
      by_cases hc : isWordChar c = true
      · obtain ⟨w, rest, rfl, hw, hrest⟩ := ih
        exact ⟨c :: w, rest, rfl, List.forall_mem_cons.mpr ⟨hc, hw⟩, hrest⟩
      · refine ⟨[], c :: cs, rfl, by simp, fun d hd => ?_⟩
        obtain rfl : c = d := by simpa using hd
        simpa using hc

/-- The result starts as before, or with the new word where the old one was. -/
lemma head_replaceWord (hold : IsWord old) (hnew : new ≠ []) (cs : List Char) :
    (replaceWord old new cs).head? = cs.head? ∨
      ((replaceWord old new cs).head? = new.head? ∧ cs.head? = old.head?) := by
  obtain ⟨w, rest, rfl, hw, hrest⟩ := exists_run cs
  rw [replaceWord_run hold hw hrest]
  cases w with
  | nil =>
      rw [if_neg (Ne.symm hold.1)]
      cases rest with
      | nil => exact .inl rfl
      | cons c rest =>
          rw [List.nil_append, replaceWord_other hold (hrest c (by simp))]
          exact .inl rfl
  | cons c w =>
      by_cases heq : c :: w = old
      · rw [if_pos heq, ← heq]
        obtain ⟨d, new, rfl⟩ := List.exists_cons_of_ne_nil hnew
        exact .inr ⟨rfl, rfl⟩
      · rw [if_neg heq]
        exact .inl rfl

/-- Nothing changes where the word does not occur. -/
lemma replaceWord_of_hasWord (h : hasWord old cs = false) : replaceWord old new cs = cs := by
  have hne : ∀ run ∈ runs cs, (if run = old then new else run) = run := by
    intro run hrun
    rw [if_neg]
    rintro rfl
    exact List.any_eq_false.mp h run hrun (beq_self_eq_true run)
  calc replaceWord old new cs = ((runs cs).map fun run => if run = old then new else run).flatten :=
        List.flatMap_def
    _ = ((runs cs).map id).flatten := by rw [List.map_congr_left hne]; rfl
    _ = cs := by rw [List.map_id, flatten_runs]

/-! ## Occurrences -/

/-- A text is built from the back by putting in front characters that belong to no word, and whole
runs of word characters. -/
lemma induction_runs {p : List Char → Prop} (nil : p [])
    (other : ∀ c cs, isWordChar c = false → p cs → p (c :: cs))
    (run : ∀ w rest, IsWord w → EndsWord rest → p rest → p (w ++ rest)) (cs : List Char) : p cs := by
  obtain ⟨n, hn⟩ : ∃ n, cs.length = n := ⟨_, rfl⟩
  induction n using Nat.strongRecOn generalizing cs with
  | ind n ih =>
      obtain ⟨w, rest, rfl, hw, hrest⟩ := exists_run cs
      rcases List.eq_nil_or_concat' w with rfl | ⟨init, last, rfl⟩
      · cases rest with
        | nil => exact nil
        | cons c rest =>
            exact other c rest (hrest c (by simp)) (ih rest.length (by simp [← hn]) rest rfl)
      · exact run _ rest ⟨by simp, hw⟩ hrest (ih rest.length (by simp [← hn]; omega) rest rfl)

@[simp] lemma hasWord_nil : hasWord w [] = false := rfl

/-- A character that belongs to no word is skipped. -/
lemma hasWord_other (hw : IsWord w) {c : Char} (hc : isWordChar c = false) :
    hasWord w (c :: cs) = hasWord w cs := by
  have hne : ∀ d run, isWordChar d = false → (d :: run == w) = false := by
    intro d run hd
    rw [beq_eq_false_iff_ne]
    rintro rfl
    rw [hw.2 d (by simp)] at hd
    cases hd
  have hnil : ([] == w) = false := by
    rw [beq_eq_false_iff_ne]
    exact Ne.symm hw.1
  unfold hasWord
  rw [runs_cons]
  rcases h : runs cs with _ | ⟨_ | ⟨d, run⟩, more⟩
  · simp [joinRun, hne c [] hc]
  · simp [joinRun, hne c [] hc]
  · simp only [joinRun]
    split
    · rename_i hkind
      have hd : isWordChar d = false := by simpa [hc] using hkind
      simp [hne c _ hc, hne d _ hd]
    · simp [hne c [] hc]

/-- A whole run of word characters is the word or is skipped. -/
lemma hasWord_run (hw : IsWord w) (hrest : EndsWord rest) :
    hasWord old (w ++ rest) = (w == old || hasWord old rest) := by
  rw [hasWord, runs_append hw.1 hw.2 hrest, List.any_cons]
  rfl

/-- A word occurs in front of the end of a word, or behind it. -/
lemma hasWord_append (hw : IsWord w) (hrest : EndsWord rest) :
    hasWord w (cs ++ rest) = (hasWord w cs || hasWord w rest) := by
  induction cs using induction_runs with
  | nil => rfl
  | other c cs hc ih => rw [List.cons_append, hasWord_other hw hc, hasWord_other hw hc, ih]
  | run v tail hv htail ih =>
      rw [List.append_assoc, hasWord_run hv (htail.append hrest), hasWord_run hv htail, ih,
        Bool.or_assoc]

/-- Behind the end of a word the result goes on without a word character, too. -/
lemma EndsWord.replaceWord (hold : IsWord old) (h : EndsWord cs) :
    EndsWord (replaceWord old new cs) := by
  cases cs with
  | nil => exact h
  | cons c cs =>
      rw [replaceWord_other hold (h c (by simp))]
      exact h

/-- A word is replaced in front of the end of a word, and behind it. -/
lemma replaceWord_append (hold : IsWord old) (hrest : EndsWord rest) :
    replaceWord old new (cs ++ rest) = replaceWord old new cs ++ replaceWord old new rest := by
  induction cs using induction_runs with
  | nil => rfl
  | other c cs hc ih =>
      rw [List.cons_append, replaceWord_other hold hc, replaceWord_other hold hc, ih,
        List.cons_append]
  | run v tail hv htail ih =>
      rw [List.append_assoc, replaceWord_run hold hv.2 (htail.append hrest),
        replaceWord_run hold hv.2 htail, ih, List.append_assoc]

/-- A word that has been replaced by another does not occur. -/
lemma hasWord_replaceWord (hold : IsWord old) (hnew : IsWord new) (hne : new ≠ old) :
    hasWord old (replaceWord old new cs) = false := by
  induction cs using induction_runs with
  | nil => rfl
  | other c cs hc ih => rw [replaceWord_other hold hc, hasWord_other hold hc, ih]
  | run v tail hv htail ih =>
      have hends : EndsWord (replaceWord old new tail) := htail.replaceWord hold
      rw [replaceWord_run hold hv.2 htail]
      split
      · rw [hasWord_run hnew hends, ih]
        simpa using hne
      · rename_i hv'
        rw [hasWord_run hv hends, ih]
        simpa using hv'

/-- The new word occurs where it did before and where the old one has. -/
lemma hasWord_new_replaceWord (hold : IsWord old) (hnew : IsWord new) :
    hasWord new (replaceWord old new cs) = (hasWord old cs || hasWord new cs) := by
  induction cs using induction_runs with
  | nil => rfl
  | other c cs hc ih =>
      rw [replaceWord_other hold hc, hasWord_other hnew hc, hasWord_other hold hc,
        hasWord_other hnew hc, ih]
  | run v tail hv htail ih =>
      have hends : EndsWord (replaceWord old new tail) := htail.replaceWord hold
      rw [replaceWord_run hold hv.2 htail, hasWord_run hv htail, hasWord_run hv htail]
      split
      · rename_i heq
        rw [hasWord_run hnew hends, beq_self_eq_true, heq, beq_self_eq_true, Bool.true_or,
          Bool.true_or, Bool.true_or]
      · rename_i hne
        rw [hasWord_run hv hends, ih, beq_eq_false_iff_ne.mpr hne, Bool.false_or,
          Bool.or_left_comm]

/-- A replacement by a word that did not occur can be undone. -/
lemma replaceWord_back (hold : IsWord old) (hnew : IsWord new) (h : hasWord new cs = false) :
    replaceWord new old (replaceWord old new cs) = cs := by
  induction cs using induction_runs with
  | nil => rfl
  | other c cs hc ih =>
      rw [hasWord_other hnew hc] at h
      rw [replaceWord_other hold hc, replaceWord_other hnew hc, ih h]
  | run v tail hv htail ih =>
      rw [hasWord_run hv htail, Bool.or_eq_false_iff, beq_eq_false_iff_ne] at h
      obtain ⟨hne, hrest⟩ := h
      have hends : EndsWord (replaceWord old new tail) := htail.replaceWord hold
      rw [replaceWord_run hold hv.2 htail]
      split
      · rename_i heq
        rw [replaceWord_run hnew hnew.2 hends, if_pos rfl, ih hrest, heq]
      · rw [replaceWord_run_of_ne hnew hv.2 hends hne, ih hrest]

end CausalEquations
