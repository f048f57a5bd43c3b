import CausalEquations.Text.Escaped
import Mathlib.Data.List.Basic
import Mathlib.Tactic.Lemma
import Mathlib.Tactic.SplitIfs

/-!
# Escaped text read back

A text that is written in ASCII with escapes can be read from the front: the mark at its end is the
first one that no backslash precedes, and what stands before it spells the text character by
character. This is the case for every text, as a character beyond `U+FFFF` is written as two units
and no character has the code point of such a unit.

* `SelfDelimiting` — what is written shows where it ends and what it stands for.
* `SelfDelimiting.closed` — a sequence with a mark that begins no element of it.
* `readEscaped`, `readEscaped_escapedChar` — one character is read back from what is written.
* `selfDelimiting_escaped` — so is the text.
-/

namespace CausalEquations

variable {α β : Type}

/-! ## Self-delimiting codes -/

/-- What is written for an element can be told from any text that begins with it. -/
def SelfDelimiting (code : α → List Char) : Prop :=
  ∀ a b rest rest', code a ++ rest = code b ++ rest' → a = b ∧ rest = rest'

/-- What is written for an element is not empty, and begins with another character than `c`. -/
def BeginsOtherwise (c : Char) (code : α → List Char) : Prop :=
  ∀ a, ∃ first rest, code a = first :: rest ∧ first ≠ c

namespace SelfDelimiting

variable {code : α → List Char} {code' : β → List Char}

lemma injective (h : SelfDelimiting code) : Function.Injective code := by
  intro a b hab
  exact (h a b [] [] (by rw [hab])).1

/-- What can be read back is told from any text that begins with it. -/
lemma of_reader (read : List Char → Option (α × List Char))
    (h : ∀ a rest, read (code a ++ rest) = some (a, rest)) : SelfDelimiting code := by
  intro a b rest rest' heq
  have hread : some (a, rest) = some (b, rest') := by rw [← h a rest, heq, h b rest']
  exact Prod.ext_iff.mp (Option.some.inj hread)

lemma cons (c : Char) (h : SelfDelimiting code) : SelfDelimiting fun a => c :: code a := by
  intro a b rest rest' heq
  exact h a b rest rest' (List.cons.inj heq).2

lemma append (h : SelfDelimiting code) (h' : SelfDelimiting code') :
    SelfDelimiting fun p : α × β => code p.1 ++ code' p.2 := by
  rintro ⟨a, b⟩ ⟨c, d⟩ rest rest' heq
  simp only [List.append_assoc] at heq
  obtain ⟨rfl, hsecond⟩ := h a c _ _ heq
  obtain ⟨rfl, hrest⟩ := h' b d _ _ hsecond
  exact ⟨rfl, hrest⟩

/-- A mark that begins no element shows where a sequence of elements ends. -/
lemma closed {mark : Char} (h : SelfDelimiting code) (hmark : BeginsOtherwise mark code) :
    SelfDelimiting fun as : List α => as.flatMap code ++ [mark] := by
  intro as
  induction as with
  | nil =>
      intro bs rest rest' heq
      cases bs with
      | nil => exact ⟨rfl, (List.cons.inj heq).2⟩
      | cons b bs =>
          obtain ⟨first, tail, hfirst, hne⟩ := hmark b
          simp only [List.flatMap_cons, hfirst] at heq
          exact absurd (List.cons.inj heq).1.symm hne
  | cons a as ih =>
      intro bs rest rest' heq
      cases bs with
      | nil =>
          obtain ⟨first, tail, hfirst, hne⟩ := hmark a
          simp only [List.flatMap_cons, hfirst] at heq
          exact absurd (List.cons.inj heq).1 hne
      | cons b bs =>
          simp only [List.flatMap_cons, List.append_assoc] at heq
          obtain ⟨rfl, htail⟩ := h a b _ _ heq
          obtain ⟨rfl, hrest⟩ := ih bs rest rest' (by simpa only [List.append_assoc] using htail)
          exact ⟨rfl, hrest⟩

end SelfDelimiting

/-! ## Hexadecimal digits -/

/-- The value of a hexadecimal digit. -/
def hexDigitValue (c : Char) : ℕ := if c.toNat < 58 then c.toNat - 48 else c.toNat - 87

/-- The value of a row of hexadecimal digits. -/
def hexValue (digits : List Char) : ℕ := digits.foldl (fun n c => 16 * n + hexDigitValue c) 0

lemma hexDigitValue_digitChar : ∀ d < 16, hexDigitValue d.digitChar = d := by decide

/-- The digits of a number have its value. -/
lemma hexValue_toDigits (n : ℕ) : hexValue (Nat.toDigits 16 n) = n := by
  induction n using Nat.strongRecOn with
  | _ n ih =>
      by_cases hn : n < 16
      · rw [Nat.toDigits_of_lt_base hn, hexValue, List.foldl_cons, List.foldl_nil,
          hexDigitValue_digitChar n hn]
        omega
      · have hlast : n % 16 < 16 := Nat.mod_lt _ (by decide)
        have hfront := ih (n / 16) (by omega)
        rw [hexValue] at hfront
        rw [Nat.toDigits_of_base_le (by decide) (Nat.not_lt.mp hn), hexValue, List.foldl_append,
          hfront, List.foldl_cons, List.foldl_nil, hexDigitValue_digitChar _ hlast]
        omega

/-- Leading zeros do not count. -/
lemma hexValue_replicate (k : ℕ) (digits : List Char) :
    hexValue (List.replicate k '0' ++ digits) = hexValue digits := by
  induction k with
  | zero => rfl
  | succ k ih => exact ih

lemma hexValue_hexDigits (width n : ℕ) : hexValue (hexDigits width n) = n := by
  rw [hexDigits, hexValue_replicate, hexValue_toDigits]

/-- Four digits are enough for a unit. -/
lemma length_hexDigits {n : ℕ} (hn : n < 65536) : (hexDigits 4 n).length = 4 := by
  have hle : (Nat.toDigits 16 n).length ≤ 4 :=
    (Nat.length_toDigits_le_iff (by decide) (by decide)).mpr hn
  simp only [hexDigits, List.length_append, List.length_replicate]
  omega

/-! ## One character -/

/-- The character that a letter after a backslash stands for. -/
def letterMeaning (letter : Char) : Char :=
  if letter = 'b' then Char.ofNat 8
  else if letter = 't' then Char.ofNat 9
  else if letter = 'n' then Char.ofNat 10
  else if letter = 'f' then Char.ofNat 12
  else if letter = 'r' then Char.ofNat 13
  else letter

/-- Reads the character that is written at the front of a text. The first unit of a pair is told by
its value; the second one has a backslash and a letter before its digits. -/
def readEscaped : List Char → Option (Char × List Char)
  | [] => none
  | c :: rest =>
    if c ≠ backslash then some (c, rest)
    else
      match rest with
      | [] => none
      | letter :: rest =>
        if letter ≠ 'u' then some (letterMeaning letter, rest)
        else
          let unit := hexValue (rest.take 4)
          let rest := rest.drop 4
          if 55296 ≤ unit ∧ unit < 56320 then
            let second := hexValue ((rest.drop 2).take 4)
            some (Char.ofNat (65536 + (unit - 55296) * 1024 + (second - 56320)), rest.drop 6)
          else some (Char.ofNat unit, rest)

lemma take_hexDigits {n : ℕ} (hn : n < 65536) (rest : List Char) :
    (hexDigits 4 n ++ rest).take 4 = hexDigits 4 n :=
  List.take_left' (length_hexDigits hn)

lemma drop_hexDigits {n : ℕ} (hn : n < 65536) (rest : List Char) :
    (hexDigits 4 n ++ rest).drop 4 = rest :=
  List.drop_left' (length_hexDigits hn)

/-- No character has the code point of one unit of a pair. -/
lemma toNat_valid (c : Char) : c.toNat < 55296 ∨ 57344 ≤ c.toNat ∧ c.toNat < 1114112 := by
  have hvalid := c.valid
  simp only [UInt32.isValidChar, Nat.isValidChar] at hvalid
  have hnat : c.val.toNat = c.toNat := rfl
  omega

lemma readEscaped_plain {c : Char} (h : c ≠ backslash) (rest : List Char) :
    readEscaped (c :: rest) = some (c, rest) := by
  rw [readEscaped.eq_def]
  exact if_pos h

/-- A letter after a backslash is read as the character that it stands for. -/
lemma readEscaped_letter {letter : Char} (h : letter ≠ 'u') (rest : List Char) :
    readEscaped (backslash :: letter :: rest) = some (letterMeaning letter, rest) := by
  rw [readEscaped, if_neg (by simp), if_pos h]

/-- A unit that is no first one of a pair is read as the character with its code point. -/
lemma readEscaped_unit {n : ℕ} (hn : n < 65536) (hsingle : n < 55296 ∨ 56320 ≤ n)
    (rest : List Char) :
    readEscaped (escapedUnit n ++ rest) = some (Char.ofNat n, rest) := by
  have hunit : ¬ (55296 ≤ n ∧ n < 56320) := by omega
  rw [escapedUnit, List.cons_append, List.cons_append, readEscaped, if_neg (by simp),
    if_neg (by simp)]
  simp only [take_hexDigits hn, drop_hexDigits hn, hexValue_hexDigits, if_neg hunit]

/-- Two units of a pair are read as one character. -/
lemma readEscaped_pair {high low : ℕ} (hhigh : high < 1024) (hlow : low < 1024)
    (rest : List Char) :
    readEscaped (escapedUnit (55296 + high) ++ escapedUnit (56320 + low) ++ rest) =
      some (Char.ofNat (65536 + high * 1024 + low), rest) := by
  have hfirst : 55296 + high < 65536 := by omega
  have hsecond : 56320 + low < 65536 := by omega
  have hunit : 55296 ≤ 55296 + high ∧ 55296 + high < 56320 := by omega
  rw [escapedUnit, escapedUnit, List.append_assoc, List.cons_append, List.cons_append, readEscaped,
    if_neg (by simp), if_neg (by simp)]
  simp only [take_hexDigits hfirst, drop_hexDigits hfirst, hexValue_hexDigits, if_pos hunit,
    List.cons_append, List.drop_succ_cons, List.drop_zero, take_hexDigits hsecond,
    drop_hexDigits hsecond, Nat.add_sub_cancel_left]

/-- A character that is written as a letter is read back. -/
lemma readEscaped_code {c letter : Char} {n : ℕ} (hn : c.toNat = n) (h : letter ≠ 'u')
    (hmeaning : letterMeaning letter = Char.ofNat n) (rest : List Char) :
    readEscaped ([backslash, letter] ++ rest) = some (c, rest) := by
  have hletter := readEscaped_letter h rest
  rwa [hmeaning, ← hn, Char.ofNat_toNat] at hletter

/-- **A character is read back from what is written for it.** The cases are those of the writing. -/
theorem readEscaped_escapedChar (c : Char) (rest : List Char) :
    readEscaped (escapedChar c ++ rest) = some (c, rest) := by
  have hvalid := toNat_valid c
  simp only [escapedChar]
  split_ifs with hmark h8 h9 h10 h12 h13 hprintable hunit
  · rcases hmark with rfl | rfl <;> exact readEscaped_letter (by decide) rest
  · exact readEscaped_code h8 (by decide) rfl rest
  · exact readEscaped_code h9 (by decide) rfl rest
  · exact readEscaped_code h10 (by decide) rfl rest
  · exact readEscaped_code h12 (by decide) rfl rest
  · exact readEscaped_code h13 (by decide) rfl rest
  · rw [not_or] at hmark
    exact readEscaped_plain hmark.2 rest
  · rw [readEscaped_unit hunit (by omega), Char.ofNat_toNat]
  · have hcode : 65536 + (c.toNat - 65536) / 1024 * 1024 + (c.toNat - 65536) % 1024 =
        c.toNat := by
      omega
    rw [readEscaped_pair (by omega) (by omega), hcode, Char.ofNat_toNat]

/-! ## Texts -/

/-- Only the mark itself could be taken for the end, and a backslash precedes it. -/
lemma beginsOtherwise_escapedChar : BeginsOtherwise doubleMark escapedChar := by
  intro c
  simp only [escapedChar]
  split_ifs with hmark h8 h9 h10 h12 h13 hprintable hunit
  · exact ⟨_, _, rfl, by decide⟩
  · exact ⟨_, _, rfl, by decide⟩
  · exact ⟨_, _, rfl, by decide⟩
  · exact ⟨_, _, rfl, by decide⟩
  · exact ⟨_, _, rfl, by decide⟩
  · exact ⟨_, _, rfl, by decide⟩
  · exact ⟨_, _, rfl, fun hc => hmark (.inl hc)⟩
  · exact ⟨_, _, rfl, by decide⟩
  · exact ⟨_, _, rfl, by decide⟩

lemma toList_escaped (text : String) :
    (escaped text).toList = doubleMark :: (text.toList.flatMap escapedChar ++ [doubleMark]) := by
  rw [escaped, String.toList_ofList, List.cons_append]

/-- **An escaped text shows where it ends and which text it is.** -/
theorem selfDelimiting_escaped : SelfDelimiting fun text : String => (escaped text).toList := by
  have hchars : SelfDelimiting escapedChar := .of_reader readEscaped readEscaped_escapedChar
  have hcode := (hchars.closed beginsOtherwise_escapedChar).cons doubleMark
  intro text text' rest rest' heq
  simp only [toList_escaped] at heq
  obtain ⟨hlist, hrest⟩ := hcode text.toList text'.toList rest rest' heq
  exact ⟨String.toList_injective hlist, hrest⟩

end CausalEquations
