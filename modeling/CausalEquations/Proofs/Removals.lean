import CausalEquations.Proofs.EditedVariables
import CausalEquations.Proofs.Leaves

/-!
# What has been removed is gone

A variable is removed from an equation in one of two ways: its term is dropped and the equation is
written anew, or every mention of it becomes zero. Neither leaves the name as a word in the text: an
equation that is written anew has it in no term, and no number is written with letters. What is no
word of an equation is not read by it.

* `Affine.mentions_render_iff` — the names in an equation that has been written anew.
* `not_mentions_dropVariable` — one equation.
* `Parsed.gone_of_removeNode`, `Parsed.gone_of_removeEdge` — the text after a removal.
* `removals_remove` — text and model.
-/

namespace CausalEquations

variable {α : Type} [Scalar α]

/-! ## Words in written equations -/

/-- The characters of a word that occurs are characters of the text. -/
lemma mem_of_hasWord {word cs : List Char} (h : hasWord word cs = true) {c : Char} (hc : c ∈ word) :
    c ∈ cs := by
  obtain ⟨run, hrun, heq⟩ := List.any_eq_true.mp h
  obtain rfl : run = word := by simpa using heq
  rw [← flatten_runs cs]
  exact List.mem_flatten_of_mem hrun hc

/-- A text without letters and underscores mentions no name. -/
lemma not_mentions_of_forall {x : Name} (hx : isName x.toList = true) {rhs : String}
    (h : ∀ c ∈ rhs.toList, isNameStart c = false) : mentions x rhs = false := by
  rw [← Bool.not_eq_true]
  intro hmentions
  cases hchars : x.toList with
  | nil => simp [hchars, isName] at hx
  | cons c rest =>
      simp only [hchars, isName, Bool.and_eq_true] at hx
      have hc : c ∈ rhs.toList := mem_of_hasWord hmentions (by simp [hchars])
      rw [h c hc] at hx
      exact absurd hx.1 Bool.false_ne_true

lemma mentions_name_iff {x y : Name} (hy : isName y.toList = true) :
    mentions x y = true ↔ y = x := by
  have hrun : hasWord x.toList (y.toList ++ []) = _ :=
    hasWord_run (isWord_of_isName hy) EndsWord.nil
  rw [List.append_nil, hasWord_nil, Bool.or_false] at hrun
  rw [mentions, hrun, beq_iff_eq, String.toList_inj]

/-- A number is written with digits and a point. -/
lemma not_mentions_formatMagnitude {x : Name} (hx : isName x.toList = true) (q : α) :
    mentions x (formatMagnitude q) = false := by
  have hpoint : isNameStart '.' = false := by decide +kernel
  have hdigits : ∀ {d : List Char}, AllDigits d → ∀ c ∈ d, isNameStart c = false :=
    fun hd c hc => isNameStart_of_isDigit (hd c hc)
  have hsign : ¬ (Rat.abs (Scalar.toRat q)).num < 0 := by
    have hnonneg : 0 ≤ Rat.abs (Scalar.toRat q) := Rat.abs_nonneg
    exact not_lt.mpr (Rat.num_nonneg.mpr hnonneg)
  refine not_mentions_of_forall hx ?_
  simp only [formatMagnitude, Fixed.text, hsign, false_and, if_false, String.toList_ofList,
    Fixed.magnitudeText]
  split
  · exact hdigits (allDigits_decimalDigits _)
  · exact List.forall_mem_append.mpr ⟨hdigits (allDigits_decimalDigits _),
      List.forall_mem_cons.mpr ⟨hpoint, hdigits (allDigits_fractionDigits _ _)⟩⟩

lemma mentions_zero {x : Name} (hx : isName x.toList = true) : mentions x "0" = false := by
  have hzero : isNameStart '0' = false := isNameStart_of_isDigit rfl
  exact not_mentions_of_forall hx (by simpa using hzero)

/-- The numbers and names of a piece. -/
def Piece.leaves : Piece → List String
  | number numeral => [numeral]
  | name x => [x]
  | product numeral x => [numeral, x]

omit [Scalar α] in
lemma leaves_signed (negative : Bool) (e : Expr α) : (e.signed negative).leaves = e.leaves := by
  cases negative <;> rfl

lemma Piece.leaves_tree (negative : Bool) (p : Piece) :
    (p.tree negative : Expr α).leaves = p.leaves := by
  cases p with
  | number numeral => exact leaves_signed negative _
  | name x => exact (leaves_signed negative _).trans (leaves_ofName x)
  | product numeral x =>
      simp [Piece.tree, Expr.leaves, leaves_signed, leaves_ofName, Expr.ofNumeral, Piece.leaves]

lemma leaves_sumTree (e : Expr α) (ps : List (Bool × Piece)) :
    (sumTree e ps).leaves = e.leaves ++ ps.flatMap fun p => p.2.leaves := by
  induction ps generalizing e with
  | nil => simp [sumTree]
  | cons p rest ih =>
      have hrest : (sumTree e (p :: rest)).leaves = _ :=
        ih (.binary (signText p.1) e (p.2.tree false))
      simp [hrest, Expr.leaves, Piece.leaves_tree]

/-- Without any pieces a zero is written. -/
lemma leaves_joinedTree (ps : List (Bool × Piece)) :
    (joinedTree ps : Expr α).leaves =
      if ps = [] then ["0"] else ps.flatMap fun p => p.2.leaves := by
  cases ps with
  | nil => rfl
  | cons p rest =>
      have htree : (joinedTree (p :: rest) : Expr α).leaves = _ :=
        leaves_sumTree (p.2.tree p.1) rest
      simp [htree, Piece.leaves_tree]

namespace Affine

variable {a : Affine α} {x : Name}

/-- The piece of a term mentions the variable. -/
lemma mentions_termPiece_iff {y : Name} (hx : isName x.toList = true) (hy : isName y.toList = true)
    (c : α) : (∃ t ∈ (termPiece y c).leaves, mentions x t = true) ↔ y = x := by
  unfold termPiece
  split <;>
    simp [Piece.leaves, not_mentions_formatMagnitude hx, mentions_name_iff hy]

/-- The pieces that are written mention the variables of the terms. -/
lemma mentions_signedPieces_iff (hnames : ∀ y ∈ a.order, isName y.toList = true)
    (hx : isName x.toList = true) :
    (∃ t ∈ a.signedPieces.flatMap fun p => p.2.leaves, mentions x t = true) ↔ x ∈ a.order := by
  constructor
  · rintro ⟨t, ht, hmentions⟩
    obtain ⟨p, hp, ht⟩ := List.mem_flatMap.mp ht
    rcases List.mem_append.mp hp with hp | hp
    · obtain ⟨y, hy, rfl⟩ := List.mem_map.mp hp
      rwa [← (mentions_termPiece_iff hx (hnames y hy) _).mp ⟨t, ht, hmentions⟩]
    · split at hp
      · cases hp
      · rw [List.mem_singleton.mp hp] at ht
        rw [List.mem_singleton.mp ht, not_mentions_formatMagnitude hx] at hmentions
        cases hmentions
  · intro hmem
    obtain ⟨t, ht, hmentions⟩ := (mentions_termPiece_iff hx hx (a.coefficient x)).mpr rfl
    have hpiece : (Rat.blt (Scalar.toRat (a.coefficient x)) 0, termPiece x (a.coefficient x)) ∈
        a.signedPieces := List.mem_append_left _ (List.mem_map_of_mem hmem)
    exact ⟨t, List.mem_flatMap.mpr ⟨_, hpiece, ht⟩, hmentions⟩

/-- **A written affine form mentions the variables of its terms**, and no other name. -/
theorem mentions_render_iff (h : a.Normal) (hnames : ∀ y ∈ a.order, isName y.toList = true)
    (hx : isName x.toList = true) : mentions x a.render = true ↔ x ∈ a.order := by
  have hnames' : ∀ y ∈ a.normalize.order, isName y.toList = true := by
    rwa [h.order_normalize]
  have hparse : Expr.parse a.render = .ok a.tree := (Expr.read_eq_ok.mp (read_render hnames)).1
  rw [mentions_iff_leaves hx hparse, tree, leaves_joinedTree, ← h.order_normalize,
    ← mentions_signedPieces_iff hnames' hx]
  split
  · rename_i hnil
    simp [hnil, mentions_zero hx]
  · rfl

end Affine

/-! ## One equation -/

/-- **An equation from which a variable has been dropped does not mention it.** -/
theorem not_mentions_dropVariable (hzero : negligible (Scalar.zero : α) = true) {x : Name}
    {rhs rhs' : String} (hx : isName x.toList = true) (hreads : Reads α rhs)
    (hdrop : dropVariable α rhs x = .ok rhs') : mentions x rhs' = false := by
  obtain ⟨e, he⟩ := hreads
  have hsubstitute : mentions x (substitute x "0" rhs) = false := not_mentions_substitute_zero hx
  simp only [dropVariable, readEquation_of_read he, ok_bind] at hdrop
  split at hdrop
  · rename_i a ha
    split at hdrop
    · cases hdrop
      have hnormal := normal_of_read he ha
      have hnames := (isName_of_ofExpr? he ha).1
      rw [← Bool.not_eq_true, Affine.mentions_render_iff
        (Affine.normal_setCoefficient hnormal x Scalar.zero)
        (Affine.names_setCoefficient _ hnames hx) hx, Affine.mem_order_setCoefficient hnormal,
        if_pos rfl, hzero]
      simp
    · cases hdrop
      exact hsubstitute
  · cases hdrop
    exact hsubstitute

/-- What an equation does not mention it does not read. -/
lemma Reads.not_readsIn {x : Name} {rhs : String} (hreads : Reads α rhs)
    (hx : isName x.toList = true) (hmentions : mentions x rhs = false) : ¬ ReadsIn α rhs x :=
  fun hread => ((hreads.readsWithout_iff hx hmentions x).mpr hread).2.1 rfl

/-! ## Texts -/

section

variable {text text' : String} {as : List Assignment} {m m' : Model α}

/-- The variable is not assigned and no word of an equation. -/
def Gone (x : Name) (as : List Assignment) : Prop :=
  ∀ a ∈ as, a.name ≠ x ∧ mentions x a.rhs = false

/-- Equations of zero for other variables do no harm. -/
lemma Gone.append_zeros {x : Name} {left : List Assignment} {ds : List Name} (h : Gone x left)
    (hx : isName x.toList = true) (hds : ∀ d ∈ ds, d ≠ x) :
    Gone x (left ++ ds.map fun d => ⟨d, "0"⟩) := by
  refine List.forall_mem_append.mpr ⟨h, ?_⟩
  rw [List.forall_mem_map]
  exact fun d hd => ⟨hds d hd, mentions_zero hx⟩

lemma gone_withoutVariable (hzero : negligible (Scalar.zero : α) = true) {x : Name}
    (hx : isName x.toList = true) {left : List Assignment} (has : ∀ a ∈ as, Reads α a.rhs)
    (hleft : withoutVariable α x as = .ok left) : Gone x left := by
  induction as generalizing left with
  | nil =>
      cases hleft
      simp [Gone]
  | cons a rest ih =>
      obtain ⟨ha, hrest⟩ := List.forall_mem_cons.mp has
      rw [withoutVariable] at hleft
      by_cases hname : a.name = x
      · rw [if_pos hname] at hleft
        exact ih hrest hleft
      rw [if_neg hname] at hleft
      by_cases hmentions : mentions x a.rhs = true
      · rw [if_pos hmentions] at hleft
        obtain ⟨rhs, hdrop, hleft⟩ := bind_eq_ok.mp hleft
        obtain ⟨left', hleft', hleft⟩ := bind_eq_ok.mp hleft
        cases hleft
        exact List.forall_mem_cons.mpr
          ⟨⟨hname, not_mentions_dropVariable hzero hx ha hdrop⟩, ih hrest hleft'⟩
      · rw [if_neg hmentions] at hleft
        obtain ⟨left', hleft', hleft⟩ := bind_eq_ok.mp hleft
        cases hleft
        rw [Bool.not_eq_true] at hmentions
        exact List.forall_mem_cons.mpr ⟨⟨hname, hmentions⟩, ih hrest hleft'⟩

/-- **A variable that has been removed is gone from the text.** -/
theorem Parsed.gone_of_removeNode (hzero : negligible (Scalar.zero : α) = true)
    (h : Parsed α text as) {name : String} {x : Name} (hname : validName? name = some x)
    (hok : removeNode α text name = .ok text') :
    ∃ as', assignments text' = .ok as' ∧ Gone x as' := by
  have hx := isName_of_validName? hname
  obtain ⟨m, hrequire⟩ := h.accepted.requireModel
  obtain ⟨left, hleft, hformed, -⟩ := withoutVariable_eq_ok hx h.wellFormed h.reads
  have hgone := gone_withoutVariable hzero hx h.reads hleft
  simp only [removeNode, requireName_eq_ok.mpr hname, hrequire, h.assignments_eq, hleft,
    ok_bind] at hok
  split at hok
  · cases hok
  split at hok
  · cases hok
    exact ⟨left, assignments_render hformed, hgone⟩
  · cases hok
    exact ⟨left, assignments_render hformed, hgone⟩
  · rename_i ds _ hds
    obtain ⟨l, -, hok⟩ := bind_eq_ok.mp hok
    cases hok
    have hnames : ∀ d ∈ ds, isName d.toList = true := by
      rcases h.dependencies_of_get? (requireModel_eq_ok.mp hrequire) hds with
        rfl | ⟨a, -, -, e, he, rfl⟩
      · simp
      · exact isName_of_mem_dependencies he
    refine ⟨_, assignments_render (wellFormed_append_zeros hformed fun d hd => ?_),
      hgone.append_zeros hx fun d hd => ?_⟩
    · exact hnames d (List.mem_filter.mp hd).1
    · simpa using (Bool.and_eq_true_iff.mp (List.mem_filter.mp hd).2).1

/-- An edge is removed by dropping the parent from the child's equation; at most an equation of zero
for the parent is added. -/
lemma Parsed.removeEdge_eq_ok (h : Parsed α text as) {parent child : String} {x y : Name}
    (hparent : validName? parent = some x) (hchild : validName? child = some y)
    (hok : removeEdge α text parent child = .ok text') :
    ∃ a ∈ as, a.name = y ∧ ∃ (rhs : String) (ds : List Name), dropVariable α a.rhs x = .ok rhs ∧
      (∀ a ∈ setFirst y rhs as, a.WellFormed) ∧ (∀ d ∈ ds, d = x) ∧
      text' = Assignment.render (setFirst y rhs as ++ ds.map fun d => ⟨d, "0"⟩) := by
  have hx := isName_of_validName? hparent
  simp only [removeEdge, requireName_eq_ok.mpr hparent, requireName_eq_ok.mpr hchild,
    h.assignments_eq, ok_bind] at hok
  split at hok
  · cases hok
  rename_i a hfind
  have ha := List.mem_of_find?_eq_some hfind
  obtain rfl : a.name = y := by simpa using List.find?_some hfind
  split at hok
  · cases hok
  obtain ⟨rhs, hdrop, hbody, -⟩ := dropVariable_eq_ok hx (h.wellFormed a ha).body (h.reads a ha)
  have hformed := wellFormed_setFirst h.wellFormed (h.wellFormed a ha).name hbody
  simp only [hdrop, ok_bind] at hok
  refine ⟨a, ha, rfl, rhs, ?_⟩
  split at hok
  · cases hok
    exact ⟨[], hdrop, hformed, by simp, by simp⟩
  obtain ⟨l, -, hok⟩ := bind_eq_ok.mp hok
  split at hok
  · cases hok
    exact ⟨[], hdrop, hformed, by simp, by simp⟩
  · cases hok
    exact ⟨[x], hdrop, hformed, by simp, rfl⟩

/-- **An edge that has been removed is gone from the text**: the child still has an equation, and it
does not mention the parent. -/
theorem Parsed.gone_of_removeEdge (hzero : negligible (Scalar.zero : α) = true)
    (h : Parsed α text as) {parent child : String} {x y : Name}
    (hparent : validName? parent = some x) (hchild : validName? child = some y)
    (hok : removeEdge α text parent child = .ok text') :
    ∃ as', assignments text' = .ok as' ∧ y ∈ as'.map Assignment.name ∧
      ∀ a ∈ as', a.name = y → mentions x a.rhs = false := by
  have hx := isName_of_validName? hparent
  obtain ⟨b, hb, rfl, rhs, ds, hdrop, hformed, hds, rfl⟩ := h.removeEdge_eq_ok hparent hchild hok
  have hassigned : b.name ∈ as.map Assignment.name := List.mem_map_of_mem hb
  refine ⟨_, assignments_render (wellFormed_append_zeros hformed fun d hd => ?_), ?_, ?_⟩
  · rwa [hds d hd]
  · rw [List.map_append, map_name_setFirst]
    exact List.mem_append_left _ hassigned
  · intro a ha hname
    rcases List.mem_append.mp ha with ha | ha
    · rcases (mem_setFirst_iff h.nodup hassigned).mp ha with rfl | ⟨-, hne⟩
      · exact not_mentions_dropVariable hzero hx (h.reads b hb) hdrop
      · exact absurd hname hne
    · obtain ⟨d, -, rfl⟩ := List.mem_map.mp ha
      exact mentions_zero hx

/-! ## Models -/

/-- A variable that is gone from the text is none of the model. -/
lemma Gone.not_mem_keys {x : Name} (h : Gone x as) (hx : isName x.toList = true)
    (has : assignments text = .ok as) (hm : Model.ofText text = .ok m) : x ∉ m.keys := by
  have hparsed := Accepted.parsed ⟨m, hm⟩ has
  rw [hparsed.mem_keys_iff hm]
  rintro (hassigned | ⟨a, ha, hread⟩)
  · obtain ⟨a, ha, rfl⟩ := List.mem_map.mp hassigned
    exact (h a ha).1 rfl
  · exact (hparsed.reads a ha).not_readsIn hx (h a ha).2 hread

/-- What the equation of a variable does not mention is none of its parents. -/
lemma not_mem_dependencies {x y : Name} (hx : isName x.toList = true)
    (has : assignments text = .ok as) (hm : Model.ofText text = .ok m)
    (hassigned : y ∈ as.map Assignment.name)
    (hnot : ∀ a ∈ as, a.name = y → mentions x a.rhs = false) :
    ∃ entry, m.get? y = some entry ∧ x ∉ entry.dependencies := by
  have hparsed := Accepted.parsed ⟨m, hm⟩ has
  obtain ⟨a, ha, rfl⟩ := List.mem_map.mp hassigned
  obtain ⟨e, he⟩ := hparsed.reads a ha
  refine ⟨_, hparsed.get?_of_mem hm ha he, fun hmem => ?_⟩
  exact Reads.not_readsIn ⟨e, he⟩ hx (hnot a ha rfl) ((readsIn_iff he).mpr hmem)

/-- **Removal really removes.** When a variable is removed, the text no longer assigns it and no
equation has it as a word, so it is no variable of the model of that text. When an edge is removed,
the equation of the child no longer has the parent as a word, so the parent is none of the child's
dependencies. -/
theorem removals_remove (hzero : negligible (Scalar.zero : α) = true) (h : Accepted α text) :
    (∀ name x, validName? name = some x → removeNode α text name = .ok text' →
      (∃ as', assignments text' = .ok as' ∧ Gone x as') ∧
        ∀ m' : Model α, Model.ofText text' = .ok m' → x ∉ m'.keys) ∧
    (∀ parent child x y, validName? parent = some x → validName? child = some y →
      removeEdge α text parent child = .ok text' →
      (∃ as', assignments text' = .ok as' ∧ y ∈ as'.map Assignment.name ∧
        ∀ a ∈ as', a.name = y → mentions x a.rhs = false) ∧
      ∀ m' : Model α, Model.ofText text' = .ok m' →
        ∃ entry, m'.get? y = some entry ∧ x ∉ entry.dependencies) := by
  obtain ⟨as, h⟩ := accepted_iff_parsed.mp h
  constructor
  · intro name x hname hok
    obtain ⟨as', has', hgone⟩ := h.gone_of_removeNode hzero hname hok
    exact ⟨⟨as', has', hgone⟩, fun m' hm' =>
      hgone.not_mem_keys (isName_of_validName? hname) has' hm'⟩
  · intro parent child x y hparent hchild hok
    obtain ⟨as', has', hassigned, hnot⟩ := h.gone_of_removeEdge hzero hparent hchild hok
    exact ⟨⟨as', has', hassigned, hnot⟩, fun m' hm' =>
      not_mem_dependencies (isName_of_validName? hparent) has' hm' hassigned hnot⟩

/-- The first equation loses a term, in the second every mention becomes zero. -/
theorem removals_remove_twoWays :
    Accepted Float "Y = 2*X + Z\nW = sin(X) + X2\nX = Z" ∧
      removeNode Float "Y = 2*X + Z\nW = sin(X) + X2\nX = Z" " X " =
        .ok "Y = Z\nW = sin(0) + X2" ∧
      removeEdge Float "Y = 2*X + Z\nW = sin(X) + X2\nX = Z" "X" "W" =
        .ok "Y = 2*X + Z\nW = sin(0) + X2\nX = Z" ∧
      (∀ m' : Model Float, Model.ofText "Y = Z\nW = sin(0) + X2" = .ok m' → "X" ∉ m'.keys) ∧
      ∀ m' : Model Float, Model.ofText "Y = 2*X + Z\nW = sin(0) + X2\nX = Z" = .ok m' →
        ∃ entry, m'.get? "W" = some entry ∧ "X" ∉ entry.dependencies := by
  have haccepted : Accepted Float "Y = 2*X + Z\nW = sin(X) + X2\nX = Z" := by decide +kernel
  have hzero : negligible (Scalar.zero : Float) = true := by decide +kernel
  have hnode : removeNode Float "Y = 2*X + Z\nW = sin(X) + X2\nX = Z" " X " =
      .ok "Y = Z\nW = sin(0) + X2" := by decide +kernel
  have hedge : removeEdge Float "Y = 2*X + Z\nW = sin(X) + X2\nX = Z" "X" "W" =
      .ok "Y = 2*X + Z\nW = sin(0) + X2\nX = Z" := by decide +kernel
  refine ⟨haccepted, hnode, hedge, ?_, ?_⟩
  · exact ((removals_remove hzero haccepted).1 " X " "X" (by decide +kernel) hnode).2
  · exact ((removals_remove hzero haccepted).2 "X" "W" "X" "W" (by decide +kernel)
      (by decide +kernel) hedge).2

end

end CausalEquations
