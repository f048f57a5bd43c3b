import CausalEquations.Edit
import CausalEquations.Proofs.Rereading
import CausalEquations.Proofs.Statements

/-!
# Affine forms as text

An equation that is written anew from an affine form is a sum of terms, each a name, a number or a
product of the two. So it can always be read, whatever its numbers are, as long as its variables
have names.

* `IsTerm`, `IsSumTail` — the parts of a sum.
* `Affine.isWritten_render` — the written form can be read.
-/

namespace CausalEquations

variable {α : Type}

/-! ## Numbers -/

lemma allDigits_decimalDigits (n : ℕ) : AllDigits (decimalDigits n) := by
  intro c hc
  have hdigit := Nat.isDigit_of_mem_toDigits (by decide) (by decide) hc
  simp only [Char.isDigit, Bool.and_eq_true, decide_eq_true_eq, ge_iff_le,
    UInt32.le_iff_toNat_le] at hdigit
  exact isDigit_of_toNat hdigit.1 hdigit.2

/-- Besides the digits of the number there are only zeros. -/
lemma mem_fractionDigits {places n : ℕ} {c : Char} (hc : c ∈ Fixed.fractionDigits places n) :
    c = '0' ∨ c ∈ decimalDigits n := by
  have hmem : c ∈ List.replicate (places - (decimalDigits n).length) '0' ++ decimalDigits n := by
    have h := (List.dropWhile_sublist _).subset (List.mem_reverse.mp hc)
    exact List.mem_reverse.mp h
  exact (List.mem_append.mp hmem).imp_left fun h => (List.mem_replicate.mp h).2

lemma allDigits_fractionDigits (places n : ℕ) : AllDigits (Fixed.fractionDigits places n) := by
  intro c hc
  rcases mem_fractionDigits hc with rfl | hc
  · decide
  · exact allDigits_decimalDigits n c hc

lemma isNumeral_magnitudeText (places n : ℕ) : IsNumeral (Fixed.magnitudeText places n) := by
  have hne : ∀ k, decimalDigits k ≠ [] := fun k => Nat.toDigits_ne_nil
  simp only [Fixed.magnitudeText]
  split
  · exact ⟨_, [], (List.append_nil _).symm, .whole (hne _) (allDigits_decimalDigits _), .none⟩
  · exact ⟨_, [], (List.append_nil _).symm, .point (allDigits_decimalDigits _)
      (allDigits_fractionDigits _ _) (.inl (hne _)), .none⟩

lemma isNumeral_formatMagnitude [Scalar α] (x : α) : IsNumeral (formatMagnitude x).toList := by
  have hsign : ¬ (Rat.abs (Scalar.toRat x)).num < 0 := by
    have hnonneg : 0 ≤ Rat.abs (Scalar.toRat x) := Rat.abs_nonneg
    exact not_lt.mpr (Rat.num_nonneg.mpr hnonneg)
  simp only [formatMagnitude, Fixed.text, hsign, false_and, if_false, String.toList_ofList]
  exact isNumeral_magnitudeText _ _

/-! ## Terms -/

/-- The character is neither a blank nor a separator of statements. -/
def IsInk (c : Char) : Prop := isBlank c = false ∧ endsStatement c = false

lemma isInk_of_isWordChar {c : Char} (h : isWordChar c = true) : IsInk c :=
  ⟨isBlank_of_isWordChar h, endsStatement_of_isWordChar h⟩

lemma IsNumeral.isInk {n : List Char} (h : IsNumeral n) : ∀ c ∈ n, IsInk c := by
  have hdigits : ∀ {d : List Char}, AllDigits d → ∀ c ∈ d, IsInk c :=
    fun hd c hc => isInk_of_isWordChar (isWordChar_of_isDigit (hd c hc))
  have hpoint : IsInk '.' := ⟨by decide, by decide⟩
  obtain ⟨m, x, rfl, hm, hx⟩ := h
  refine List.forall_mem_append.mpr ⟨?_, ?_⟩
  · cases hm with
    | whole _ hw => exact hdigits hw
    | point hw hd _ =>
        exact List.forall_mem_append.mpr ⟨hdigits hw, List.forall_mem_cons.mpr ⟨hpoint, hdigits hd⟩⟩
  · cases hx with
    | none => simp
    | some he hs _ hd =>
        have hletter := isInk_of_isWordChar (isWordChar_letter he)
        have hplus : IsInk '+' := ⟨by decide, by decide⟩
        have hminus : IsInk '-' := ⟨by decide, by decide⟩
        refine List.forall_mem_cons.mpr ⟨hletter, List.forall_mem_append.mpr ⟨?_, hdigits hd⟩⟩
        rcases hs with rfl | rfl | rfl <;> simp [hplus, hminus]

/-- The text is an operand, whatever goes on behind it. -/
structure IsTerm (text : List Char) : Prop where
  ne_nil : text ≠ []
  ink : ∀ c ∈ text, IsInk c
  layout : ∃ ls, (∀ cs ls', Separated cs → Layout cs ls' → Layout (text ++ cs) (ls ++ ls')) ∧
    ∀ known alone stack, ∃ callee, run known (.operand alone, stack) ls = some (.after callee, stack)

lemma isTerm_number {n : List Char} (hn : IsNumeral n) : IsTerm n := by
  obtain ⟨c, rest, rfl, -⟩ := hn.head
  refine ⟨by simp, hn.isInk, [(.number, String.ofList (c :: rest))], ?_, ?_⟩
  · exact fun cs ls' hcs h => .number hn hcs.endsNumeral hcs.startsWord h
  · exact fun known alone stack => ⟨.other, rfl⟩

lemma isTerm_name {n : List Char} (hn : isName n = true) : IsTerm n := by
  have hword := isWord_of_isName hn
  refine ⟨hword.1, fun c hc => isInk_of_isWordChar (hword.2 c hc), [(.name, String.ofList n)],
    ?_, ?_⟩
  · exact fun cs ls' hcs h => .name hn hcs h
  · exact fun known alone stack => ⟨_, rfl⟩

/-- A number and a name with an asterisk between them are three tokens. -/
lemma Layout.product {n x cs : List Char} {ls : List Lexeme} (hn : IsNumeral n)
    (hx : isName x = true) (hcs : Separated cs) (h : Layout cs ls) :
    Layout (n ++ ('*' :: (x ++ cs)))
      ((.number, String.ofList n) :: (.op, "*") :: (.name, String.ofList x) :: ls) := by
  have htimes : (TokenKind.op, ['*']) ∈ symbolTokens := by decide
  have hseparated : Separated ('*' :: (x ++ cs)) := by
    intro c hc
    obtain rfl : '*' = c := by simpa using hc
    exact .inr (by decide)
  have hlong : ∀ op ∈ longOperators, op.head? ≠ some '*' := by decide
  have hsymbol : Layout (['*'] ++ (x ++ cs)) _ := .symbol htimes (fun _ hmem => by
    have hhead := hlong _ hmem
    simp at hhead) (.name hx hcs h)
  exact .number hn hseparated.endsNumeral hseparated.startsWord hsymbol

lemma isTerm_product {n x : List Char} (hn : IsNumeral n) (hx : isName x = true) :
    IsTerm (n ++ '*' :: x) := by
  have hink : IsInk '*' := ⟨by decide, by decide⟩
  have hname := isTerm_name hx
  refine ⟨by simp, ?_, [(.number, String.ofList n), (.op, "*"), (.name, String.ofList x)], ?_, ?_⟩
  · exact List.forall_mem_append.mpr ⟨hn.isInk, List.forall_mem_cons.mpr ⟨hink, hname.ink⟩⟩
  · intro cs ls' hcs h
    rw [List.append_assoc]
    exact .product hn hx hcs h
  · exact fun known alone stack => ⟨_, rfl⟩

/-! ## Sums -/

/-- After an operand the text goes on with terms that are added or subtracted. -/
structure IsSumTail (cs : List Char) : Prop where
  separated : Separated cs
  inline : Inline cs
  last : ∀ c ∈ cs.getLast?, isBlank c = false
  layout : ∃ ls, Layout cs ls ∧ ∀ known callee, Finishes known (.after callee, []) ls

lemma IsSumTail.nil : IsSumTail [] where
  separated := by simp [Separated]
  inline := by simp [Inline]
  last := by simp
  layout := ⟨[], .nil, fun _ callee => ⟨callee, rfl⟩⟩

lemma IsTerm.last {text cs : List Char} (h : IsTerm text) (hcs : IsSumTail cs) :
    ∀ c ∈ (text ++ cs).getLast?, isBlank c = false := by
  intro c hc
  rw [List.getLast?_append] at hc
  cases hlast : cs.getLast? with
  | some d =>
      rw [hlast] at hc
      exact hcs.last c (by rw [hlast]; exact hc)
  | none =>
      rw [hlast] at hc
      exact (h.ink c (List.mem_of_getLast? hc)).1

lemma IsTerm.inline {text cs : List Char} (h : IsTerm text) (hcs : IsSumTail cs) :
    Inline (text ++ cs) :=
  List.forall_mem_append.mpr ⟨fun c hc => (h.ink c hc).2, hcs.inline⟩

/-- A sum is an operand. -/
lemma IsTerm.finishes {text cs : List Char} (h : IsTerm text) (hcs : IsSumTail cs) :
    ∃ ls, Layout (text ++ cs) ls ∧ ∀ known alone, Finishes known (.operand alone, []) ls := by
  obtain ⟨ls, hlayout, hrun⟩ := h.layout
  obtain ⟨ls', hlayout', hfinishes⟩ := hcs.layout
  refine ⟨ls ++ ls', hlayout cs ls' hcs.separated hlayout', fun known alone => ?_⟩
  obtain ⟨callee, hrun⟩ := hrun known alone []
  obtain ⟨callee', hrun'⟩ := hfinishes known callee
  exact ⟨callee', by rw [run_append, hrun, Option.bind_some, hrun']⟩

lemma Layout.sign {s : Char} {cs : List Char} {ls : List Lexeme} (hs : s = '+' ∨ s = '-')
    (h : Layout cs ls) : Layout (s :: cs) ((.op, String.ofList [s]) :: ls) :=
  .symbol (sign_mem_symbolTokens hs) (fun _ => sign_not_longOperator hs cs) h

lemma IsSumTail.cons {s : Char} {text cs : List Char} (hs : s = '+' ∨ s = '-')
    (h : IsTerm text) (hcs : IsSumTail cs) : IsSumTail (' ' :: s :: ' ' :: (text ++ cs)) := by
  have hspace : isBlank ' ' = true := by decide
  obtain ⟨ls, hlayout, hfinishes⟩ := h.finishes hcs
  refine ⟨?_, ?_, ?_, _, .blank hspace (.sign hs (.blank hspace hlayout)), ?_⟩
  · intro c hc
    obtain rfl : ' ' = c := by simpa using hc
    exact .inl hspace
  · have hsign : endsStatement s = false := by rcases hs with rfl | rfl <;> decide
    simp only [Inline, List.forall_mem_cons]
    exact ⟨by decide, hsign, by decide, h.inline hcs⟩
  · intro c hc
    have hne : text ++ cs ≠ [] := by simp [h.ne_nil]
    have hlast : (' ' :: s :: ' ' :: (text ++ cs)).getLast? = (text ++ cs).getLast? := by
      rw [show ' ' :: s :: ' ' :: (text ++ cs) = [' ', s, ' '] ++ (text ++ cs) from rfl,
        List.getLast?_append, List.getLast?_eq_some_getLast hne, Option.some_or]
    exact h.last hcs c (hlast ▸ hc)
  · intro known callee
    rw [finishes_cons]
    exact ⟨(.operand false, []), if_pos (strength?_sign hs), hfinishes known false⟩

/-! ## The written form -/

/-- The terms after the first one. -/
def sumTail (ps : List (Bool × String)) : List Char :=
  ps.flatMap fun p => ' ' :: (if p.1 then '-' else '+') :: ' ' :: p.2.toList

lemma isSumTail_sumTail {ps : List (Bool × String)} (h : ∀ p ∈ ps, IsTerm p.2.toList) :
    IsSumTail (sumTail ps) := by
  induction ps with
  | nil => exact .nil
  | cons p rest ih =>
      obtain ⟨hp, hrest⟩ := List.forall_mem_cons.mp h
      have hsign : (if p.1 then '-' else '+') = '+' ∨ (if p.1 then '-' else '+') = '-' := by
        split <;> simp
      exact .cons hsign hp (ih hrest)

lemma intercalate_cons (sep x : List Char) (xs : List (List Char)) :
    sep.intercalate (x :: xs) = x ++ xs.flatMap fun y => sep ++ y := by
  induction xs generalizing x with
  | nil => simp
  | cons y ys ih => simp [List.intercalate_cons_cons, ih]

lemma toList_joinPieces (negative : Bool) (piece : String) (rest : List (Bool × String)) :
    (Affine.joinPieces ((negative, piece) :: rest)).toList =
      (if negative then ['-'] else []) ++ (piece.toList ++ sumTail rest) := by
  have htail : ((rest.map fun p => (if p.1 then "- " else "+ ") ++ p.2).map String.toList).flatMap
      (fun y => [' '] ++ y) = sumTail rest := by
    rw [List.flatMap_map, List.flatMap_map, sumTail]
    refine List.flatMap_congr fun p _ => ?_
    cases p.1 <;> simp
  rw [Affine.joinPieces, String.toList_intercalate, List.map_cons]
  show [' '].intercalate _ = _
  rw [intercalate_cons, htail]
  cases negative <;> simp

/-- A sum is a right-hand side that can be read. -/
structure IsWritten (α : Type) [Scalar α] (text : String) : Prop where
  body : IsBody text.toList
  reads : Reads α text

variable [Scalar α]

lemma IsTerm.isWritten {text cs : List Char} (h : IsTerm text) (hcs : IsSumTail cs)
    (negative : Bool) :
    IsWritten α (String.ofList ((if negative then ['-'] else []) ++ (text ++ cs))) := by
  obtain ⟨ls, hlayout, hfinishes⟩ := h.finishes hcs
  obtain ⟨c, rest, rfl⟩ := List.exists_cons_of_ne_nil h.ne_nil
  have hlast := h.last hcs
  have hinline := h.inline hcs
  cases negative with
  | false =>
      refine ⟨?_, reads_iff.mpr ⟨ls, by simpa using hlayout, hfinishes _ _⟩⟩
      simp only [String.toList_ofList]
      exact ⟨by simp, ⟨by simpa using (h.ink c (by simp)).1, hlast⟩, hinline⟩
  | true =>
      have hlayout := Layout.sign (.inr rfl) hlayout
      have hminus : isBlank '-' = false ∧ endsStatement '-' = false := ⟨by decide, by decide⟩
      refine ⟨?_, reads_iff.mpr ⟨_, by simpa using hlayout, ?_⟩⟩
      · simp only [String.toList_ofList]
        refine ⟨by simp, ⟨by simp [hminus.1], fun d hd => hlast d ?_⟩, ?_⟩
        · simpa using hd
        · exact List.forall_mem_cons.mpr ⟨hminus.2, hinline⟩
      · rw [Accepts, finishes_cons]
        exact ⟨(.operand false, []), rfl, hfinishes _ _⟩

lemma isWritten_zero : IsWritten α "0" := by
  have hzero : IsNumeral ['0'] := isNumeral_magnitudeText 0 0
  exact (isTerm_number hzero).isWritten .nil false

lemma isWritten_joinPieces {ps : List (Bool × String)} (h : ∀ p ∈ ps, IsTerm p.2.toList) :
    IsWritten α (Affine.joinPieces ps) := by
  cases ps with
  | nil => exact isWritten_zero
  | cons p rest =>
      obtain ⟨hp, hrest⟩ := List.forall_mem_cons.mp h
      have hwritten := hp.isWritten (α := α) (isSumTail_sumTail hrest) p.1
      rwa [← toList_joinPieces, String.ofList_toList] at hwritten

namespace Affine

lemma isTerm_termText {name : Name} (h : isName name.toList = true) (value : α) :
    IsTerm (termText name value).toList := by
  unfold termText
  split
  · exact isTerm_name h
  · have hproduct := isTerm_product (isNumeral_formatMagnitude value) h
    simpa using hproduct

lemma isTerm_pieces {a : Affine α} (h : ∀ x ∈ a.order, isName x.toList = true) :
    ∀ p ∈ a.pieces, IsTerm p.2.toList := by
  intro p hp
  rcases List.mem_append.mp hp with hp | hp
  · obtain ⟨name, hname, rfl⟩ := List.mem_map.mp hp
    exact isTerm_termText (h name hname) _
  · split at hp
    · cases hp
    · rw [List.mem_singleton] at hp
      subst hp
      exact isTerm_number (isNumeral_formatMagnitude _)

/-- **The written form can be read.** -/
theorem isWritten_render {a : Affine α} (h : ∀ x ∈ a.order, isName x.toList = true) :
    IsWritten α a.render := by
  have hnormalize : ∀ x ∈ a.normalize.order, isName x.toList = true :=
    fun x hx => h x (List.mem_filter.mp hx).1
  exact isWritten_joinPieces (isTerm_pieces hnormalize)

end Affine

end CausalEquations
