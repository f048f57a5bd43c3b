import CausalEquations.Edit
import CausalEquations.Proofs.Characters
import CausalEquations.Proofs.Outcomes
import Mathlib.Data.List.DropRight
import Mathlib.Data.List.Forall2

/-!
# Reading what was written

Assignments that are written one to a line are read back as they are, if every one of them has the
form that reading gives: a name, and a right-hand side on one line without blanks around it.

* `Trimmed`, `IsBody`, `Assignment.WellFormed` — the form.
* `wellFormed_of_assignments` — what is read has it.
* `assignments_render` — what has it is read back.
-/

namespace CausalEquations

/-! ## Trimmed texts -/

/-- There is no blank at either end. -/
def Trimmed (cs : List Char) : Prop :=
  (∀ c ∈ cs.head?, isBlank c = false) ∧ ∀ c ∈ cs.getLast?, isBlank c = false

lemma strip_eq (cs : List Char) : strip cs = (cs.dropWhile isBlank).rdropWhile isBlank := rfl

/-- Behind the trimmed text stand the blanks at the end. -/
lemma strip_append (cs : List Char) :
    strip cs ++ (cs.dropWhile isBlank).rtakeWhile isBlank = cs.dropWhile isBlank :=
  List.rdropWhile_append_rtakeWhile

lemma Trimmed.strip {cs : List Char} (h : Trimmed cs) : strip cs = cs := by
  rw [strip_eq, dropWhile_of_head h.1, List.rdropWhile_eq_self_iff]
  intro hne
  simp [h.2 (cs.getLast hne) (List.getLast?_eq_some_getLast hne)]

lemma trimmed_strip (cs : List Char) : Trimmed (strip cs) := by
  constructor
  · intro c hc
    have hhead : (cs.dropWhile isBlank).head? = some c := by
      rw [← strip_append, List.head?_append, Option.mem_def.mp hc, Option.some_or]
    have hnot := List.head?_dropWhile_not isBlank cs
    rw [hhead] at hnot
    simpa using hnot
  · rw [strip_eq]
    intro c hc
    have hne : (cs.dropWhile isBlank).rdropWhile isBlank ≠ [] := by
      intro hnil
      rw [hnil] at hc
      cases hc
    have hlast := List.rdropWhile_last_not isBlank _ hne
    rw [List.getLast?_eq_some_getLast hne, Option.mem_some_iff] at hc
    simpa [hc] using hlast

lemma mem_of_mem_strip {c : Char} {cs : List Char} (h : c ∈ strip cs) : c ∈ cs := by
  refine (List.dropWhile_sublist isBlank).subset ?_
  rw [← strip_append]
  exact List.mem_append_left _ h

/-- A blank in front does not count. -/
lemma strip_cons_of_isBlank {c : Char} {cs : List Char} (h : isBlank c = true) :
    strip (c :: cs) = strip cs := by
  rw [strip_eq, strip_eq, List.dropWhile_cons_of_pos h]

/-! ## Assignments -/

/-- There is no separator of statements in the text. -/
def Inline (cs : List Char) : Prop := ∀ c ∈ cs, endsStatement c = false

/-- A right-hand side as it is read from a statement. -/
structure IsBody (cs : List Char) : Prop where
  ne_nil : cs ≠ []
  trimmed : Trimmed cs
  inline : Inline cs

/-- An assignment as it is read from a statement. -/
structure Assignment.WellFormed (a : Assignment) : Prop where
  name : isName a.name.toList = true
  body : IsBody a.rhs.toList

lemma isNameChar_of_isName {name : List Char} (h : isName name = true) :
    ∀ c ∈ name, isNameChar c = true := by
  cases name with
  | nil => cases h
  | cons c rest =>
      simp only [isName, Bool.and_eq_true, List.all_eq_true] at h
      exact List.forall_mem_cons.mpr ⟨isNameChar_of_isNameStart h.1, h.2⟩

lemma isBlank_of_isNameChar {c : Char} (h : isNameChar c = true) : isBlank c = false :=
  isBlank_of_isWordChar (isWordChar_of_isNameChar h)

/-- The separators of statements belong to no word. -/
lemma endsStatement_of_isWordChar {c : Char} (h : isWordChar c = true) :
    endsStatement c = false := by
  rw [Bool.eq_false_iff]
  intro hends
  have hall : isWordChar ';' = false ∧ isWordChar '\n' = false := by decide +kernel
  simp only [endsStatement, Bool.or_eq_true, beq_iff_eq] at hends
  rcases hends with rfl | rfl
  · simp [hall.1] at h
  · simp [hall.2] at h

lemma inline_of_isName {name : List Char} (h : isName name = true) : Inline name :=
  fun c hc => endsStatement_of_isWordChar (isWordChar_of_isNameChar (isNameChar_of_isName h c hc))

lemma isBlank_head_of_isName {name : List Char} (h : isName name = true) (rest : List Char) :
    ∀ c ∈ (name ++ rest).head?, isBlank c = false := by
  intro c hc
  cases name with
  | nil => cases h
  | cons d tail =>
      obtain rfl : d = c := by simpa using hc
      exact isBlank_of_isNameChar (isNameChar_of_isName h d (by simp))

lemma takeName?_append {name rest : List Char} (h : isName name = true)
    (hrest : ∀ c ∈ rest.head?, isNameChar c = false) :
    Assignment.takeName? (name ++ rest) = some (name, rest) := by
  cases name with
  | nil => cases h
  | cons c name =>
      simp only [isName, Bool.and_eq_true, List.all_eq_true] at h
      simp only [List.cons_append, Assignment.takeName?, h.1, if_true,
        takeWhile_append_of_head h.2 hrest, dropWhile_append_of_head h.2 hrest]

lemma isName_of_takeName? {cs name rest : List Char}
    (h : Assignment.takeName? cs = some (name, rest)) :
    isName name = true ∧ ∀ c ∈ rest, c ∈ cs := by
  cases cs with
  | nil => cases h
  | cons c cs =>
      simp only [Assignment.takeName?] at h
      split at h
      · rename_i hstart
        cases h
        constructor
        · simp only [isName, hstart, Bool.true_and, List.all_eq_true]
          exact fun d hd => List.mem_takeWhile_imp hd
        · exact fun d hd => List.mem_cons_of_mem _ ((List.dropWhile_sublist isNameChar).subset hd)
      · cases h

namespace Assignment

lemma toList_line (a : Assignment) :
    a.line.toList = a.name.toList ++ ' ' :: '=' :: ' ' :: a.rhs.toList := by
  simp [line]

/-- What is written on a line is read back. -/
lemma WellFormed.ofStatement?_line {a : Assignment} (h : a.WellFormed) :
    ofStatement? a.line.toList = some a := by
  have hspace : isBlank ' ' = true := by decide
  have hequals : ¬ isBlank '=' = true := by decide
  have hname : takeName? (a.name.toList ++ ' ' :: '=' :: ' ' :: a.rhs.toList) = _ :=
    takeName?_append h.name (by simp; decide)
  have hbody : a.rhs.toList.isEmpty = false := by simpa using h.body.ne_nil
  rw [toList_line, ofStatement?, dropWhile_of_head (isBlank_head_of_isName h.name _), hname]
  simp only [List.dropWhile_cons_of_pos hspace, List.dropWhile_cons_of_neg hequals, if_true,
    strip_cons_of_isBlank hspace, h.body.trimmed.strip, hbody, Bool.false_eq_true, if_false,
    String.ofList_toList]

lemma wellFormed_of_ofStatement? {cs : List Char} {a : Assignment}
    (h : ofStatement? cs = some a) (hinline : Inline cs) : a.WellFormed := by
  unfold ofStatement? at h
  split at h
  · cases h
  · rename_i name rest hname
    obtain ⟨hname, hrest⟩ := isName_of_takeName? hname
    split at h
    · cases h
    · rename_i c body hbody
      split at h
      · dsimp only at h
        split at h
        · cases h
        · rename_i hempty
          cases h
          have hmem : ∀ d ∈ body, d ∈ cs := by
            intro d hd
            have hd : d ∈ rest.dropWhile isBlank := hbody ▸ List.mem_cons_of_mem _ hd
            exact (List.dropWhile_sublist isBlank).subset
              (hrest d ((List.dropWhile_sublist isBlank).subset hd))
          refine ⟨by simpa using hname, ?_⟩
          simp only [String.toList_ofList]
          exact ⟨by simpa using hempty, trimmed_strip body,
            fun d hd => hinline d (hmem d (mem_of_mem_strip hd))⟩
      · cases h

end Assignment

/-! ## Statements -/

lemma pieces_inline {cs : List Char} (h : Inline cs) : pieces endsStatement cs = [cs] := by
  induction cs with
  | nil => rfl
  | cons c rest ih =>
      simp [pieces, h c (by simp), ih fun d hd => h d (List.mem_cons_of_mem _ hd)]

lemma pieces_append {cs : List Char} (h : Inline cs) (rest : List Char) :
    pieces endsStatement (cs ++ '\n' :: rest) = cs :: pieces endsStatement rest := by
  induction cs with
  | nil => rfl
  | cons c cs ih =>
      simp [pieces, h c (by simp), ih fun d hd => h d (List.mem_cons_of_mem _ hd)]

lemma inline_of_mem_pieces {cs piece : List Char} (h : piece ∈ pieces endsStatement cs) :
    Inline piece := by
  induction cs generalizing piece with
  | nil =>
      simp [pieces] at h
      simp [h, Inline]
  | cons c rest ih =>
      simp only [pieces] at h
      split at h
      · rcases List.mem_cons.mp h with rfl | h
        · simp [Inline]
        · exact ih h
      · rename_i hc
        split at h
        · simp at h
          simp [h, Inline, hc]
        · rename_i first more hmore
          rcases List.mem_cons.mp h with rfl | h
          · intro d hd
            rcases List.mem_cons.mp hd with rfl | hd
            · simpa using hc
            · exact ih (by simp [hmore]) d hd
          · exact ih (by simp [hmore, h])

lemma inline_of_mem_statements {text : String} {line : List Char} (h : line ∈ statements text) :
    Inline line := by
  simp only [statements, List.mem_filter, List.mem_map] at h
  obtain ⟨⟨piece, hpiece, rfl⟩, -⟩ := h
  exact fun c hc => inline_of_mem_pieces hpiece c (mem_of_mem_strip hc)

lemma Assignment.WellFormed.isBody_line {a : Assignment} (h : a.WellFormed) :
    IsBody a.line.toList := by
  have hline : a.line.toList = (a.name.toList ++ [' ', '=', ' ']) ++ a.rhs.toList := by
    simp [toList_line]
  refine ⟨by simp [hline], ⟨?_, ?_⟩, ?_⟩
  · rw [toList_line]
    exact isBlank_head_of_isName h.name _
  · intro c hc
    have hlast : a.line.toList.getLast? = a.rhs.toList.getLast? := by
      rw [hline, List.getLast?_append, List.getLast?_eq_some_getLast h.body.ne_nil, Option.some_or]
    exact h.body.trimmed.2 c (hlast ▸ hc)
  · simp only [hline, Inline, List.forall_mem_append]
    have hequals : ∀ c ∈ [' ', '=', ' '], endsStatement c = false := by simp [endsStatement]
    exact ⟨⟨inline_of_isName h.name, hequals⟩, h.body.inline⟩

lemma pieces_intercalate (line : List Char) (lines : List (List Char))
    (h : ∀ l ∈ line :: lines, Inline l) :
    pieces endsStatement (['\n'].intercalate (line :: lines)) = line :: lines := by
  induction lines generalizing line with
  | nil => simpa using pieces_inline (h line (by simp))
  | cons next lines ih =>
      rw [List.intercalate_cons_cons, List.append_assoc, List.singleton_append,
        pieces_append (h line (by simp)), ih next fun l hl => h l (List.mem_cons_of_mem _ hl)]

lemma filter_map_strip {lines : List (List Char)} (h : ∀ l ∈ lines, IsBody l) :
    ((lines.map strip).filter fun l => !l.isEmpty) = lines := by
  have hstrip : lines.map strip = lines.map id :=
    List.map_congr_left fun l hl => (h l hl).trimmed.strip
  rw [hstrip, List.map_id, List.filter_eq_self]
  intro l hl
  simpa using (h l hl).ne_nil

lemma statements_render {as : List Assignment} (h : ∀ a ∈ as, a.WellFormed) :
    statements (Assignment.render as) = as.map fun a => a.line.toList := by
  have hlines : ∀ l ∈ as.map fun a => a.line.toList, IsBody l := by
    intro l hl
    obtain ⟨a, ha, rfl⟩ := List.mem_map.mp hl
    exact (h a ha).isBody_line
  have hrender : (Assignment.render as).toList =
      ['\n'].intercalate (as.map fun a => a.line.toList) := by
    simp [Assignment.render, String.toList_intercalate, Function.comp_def]
  unfold statements
  rw [hrender]
  cases as with
  | nil => rfl
  | cons a rest =>
      rw [List.map_cons] at hlines ⊢
      rw [pieces_intercalate _ _ fun l hl => (hlines l hl).inline, filter_map_strip hlines]

/-- Reading one statement. -/
lemma readStatement_eq_ok {line : List Char} {a : Assignment} :
    (match Assignment.ofStatement? line with
      | some a => Except.ok a
      | none => .error (EditError.text (.malformed (String.ofList line)))) = .ok a ↔
        Assignment.ofStatement? line = some a := by
  cases Assignment.ofStatement? line <;> simp

lemma assignments_eq_ok {text : String} {as : List Assignment} :
    assignments text = .ok as ↔
      List.Forall₂ (fun line a => Assignment.ofStatement? line = some a) (statements text) as := by
  rw [assignments, mapM_eq_ok]
  constructor
  · intro h
    exact h.imp fun _ _ hread => readStatement_eq_ok.mp hread
  · intro h
    exact h.imp fun _ _ hread => readStatement_eq_ok.mpr hread

/-- **What is read from a text is well-formed.** -/
theorem wellFormed_of_assignments {text : String} {as : List Assignment}
    (h : assignments text = .ok as) : ∀ a ∈ as, a.WellFormed := by
  intro a ha
  obtain ⟨line, hline, hread⟩ := exists_of_mem_mapM h a ha
  exact Assignment.wellFormed_of_ofStatement? (readStatement_eq_ok.mp hread)
    (inline_of_mem_statements hline)

/-- **Well-formed assignments are read back.** -/
theorem assignments_render {as : List Assignment} (h : ∀ a ∈ as, a.WellFormed) :
    assignments (Assignment.render as) = .ok as := by
  rw [assignments_eq_ok, statements_render h, List.forall₂_map_left_iff, List.forall₂_same]
  exact fun a ha => (h a ha).ofStatement?_line

end CausalEquations
