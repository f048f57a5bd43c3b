import CausalEquations.Proofs.Listing
import CausalEquations.Proofs.Models

/-!
# The entries of a model

A text is a model if each of its statements assigns a right-hand side to a name of its own. The
model has an entry for every assigned variable, in the order of the statements, and behind them one
for every variable that is only read, in the order of first reading. So whatever an entry depends on
has an entry as well.

* `IsAssignment`, `ofStatement?_eq_some_iff` — the form of a statement.
* `Table.keys_foldl_insertIfNew` — the keys of a table to which missing ones are added.
* `IsInventory`, `Describes.isInventory` — what the entries of a model are.
* `ofText_inventory` — which texts are models, and what is in them.
-/

namespace CausalEquations

/-! ## Statements -/

/-- The statement has the form `NAME = RHS`: blanks may stand around the name and the right-hand
side, and the right-hand side is not empty. -/
structure IsAssignment (line : List Char) (a : Assignment) : Prop where
  name : isName a.name.toList = true
  nonempty : a.rhs ≠ ""
  form : ∃ front gap body, (∀ c ∈ front, isBlank c = true) ∧ (∀ c ∈ gap, isBlank c = true) ∧
    line = front ++ (a.name.toList ++ (gap ++ '=' :: body)) ∧ strip body = a.rhs.toList

lemma takeName?_eq_some {cs name rest : List Char} :
    Assignment.takeName? cs = some (name, rest) ↔
      isName name = true ∧ cs = name ++ rest ∧ ∀ c ∈ rest.head?, isNameChar c = false := by
  constructor
  · intro h
    refine ⟨(isName_of_takeName? h).1, ?_⟩
    cases cs with
    | nil => cases h
    | cons c cs =>
        simp only [Assignment.takeName?] at h
        split at h
        · cases h
          refine ⟨by simp, fun d hd => ?_⟩
          have hnot := List.head?_dropWhile_not isNameChar cs
          rw [Option.mem_def.mp hd] at hnot
          simpa using hnot
        · cases h
  · rintro ⟨hname, rfl, hrest⟩
    exact takeName?_append hname hrest

/-- **A statement is read as the assignment whose form it has.** -/
theorem ofStatement?_eq_some_iff {line : List Char} {a : Assignment} :
    Assignment.ofStatement? line = some a ↔ IsAssignment line a := by
  have hequals : isBlank '=' = false := by decide
  constructor
  · intro h
    unfold Assignment.ofStatement? at h
    split at h
    · cases h
    rename_i name rest hname
    obtain ⟨hform, hline, -⟩ := takeName?_eq_some.mp hname
    split at h
    · cases h
    rename_i c body hbody
    split at h
    · rename_i hc
      subst hc
      dsimp only at h
      split at h
      · cases h
      rename_i hempty
      cases h
      refine ⟨by simpa using hform, by simpa [← String.toList_inj] using hempty,
        line.takeWhile isBlank, rest.takeWhile isBlank, body, fun c hc => List.mem_takeWhile_imp hc,
        fun c hc => List.mem_takeWhile_imp hc, ?_, by simp⟩
      rw [String.toList_ofList, ← hbody, List.takeWhile_append_dropWhile, ← hline,
        List.takeWhile_append_dropWhile]
    · cases h
  · rintro ⟨hname, hne, front, gap, body, hfront, hgap, rfl, hbody⟩
    have hgapHead : ∀ c ∈ (gap ++ '=' :: body).head?, isNameChar c = false := by
      intro c hc
      rw [Bool.eq_false_iff]
      intro hchar
      have hblank := isBlank_of_isNameChar hchar
      cases gap with
      | nil =>
          obtain rfl : '=' = c := by simpa using hc
          exact absurd hchar (by decide)
      | cons d gap =>
          obtain rfl : d = c := by simpa using hc
          rw [hgap d (by simp)] at hblank
          cases hblank
    have hbehind : (gap ++ '=' :: body).dropWhile isBlank = '=' :: body :=
      dropWhile_append_of_head hgap (by simpa using hequals)
    have hempty : a.rhs.toList.isEmpty = false := by simpa using hne
    unfold Assignment.ofStatement?
    rw [dropWhile_append_of_head hfront (isBlank_head_of_isName hname _),
      takeName?_append hname hgapHead]
    simp only [hbehind, if_true, hbody, hempty, Bool.false_eq_true, if_false,
      String.ofList_toList]

/-! ## Missing keys -/

/-- Missing keys are added behind the others, in the order in which they first occur. -/
lemma Table.keys_foldl_insertIfNew {β : Type} (names : List Name) (t : Table β) (value : β) :
    (names.foldl (fun t name => t.insertIfNew name value) t).keys =
      t.keys ++ (names.filter fun name => !t.keys.contains name).eraseDups := by
  induction names generalizing t with
  | nil => simp
  | cons name rest ih =>
      rw [List.foldl_cons, ih, Table.keys_insertIfNew]
      by_cases hname : name ∈ t.keys
      · rw [if_pos hname, List.filter_cons_of_neg (by simpa using hname)]
      · have hfilter : (rest.filter fun x => !(t.keys ++ [name]).contains x) =
            (rest.filter fun x => !t.keys.contains x).filter fun x => !x == name := by
          rw [List.filter_filter]
          refine List.filter_congr fun x _ => ?_
          by_cases hx : x = name <;> simp [hx]
        rw [if_neg hname, List.filter_cons_of_pos (by simpa using hname), List.eraseDups_cons,
          hfilter, List.append_assoc, List.singleton_append]

/-! ## Entries -/

variable {α : Type}

/-- The assigned variables, in the order of their statements. -/
def assignedNames (qs : List (Equation α)) : List Name := qs.map fun q => q.1.name

/-- The variables as the statements bring them up: each assigned name, and behind it the variables
that its equation reads. -/
def namesSeen (qs : List (Equation α)) : List Name :=
  qs.flatMap fun q => q.1.name :: q.2.dependencies

/-- The entries of a model with these equations. -/
structure IsInventory (qs : List (Equation α)) (m : Model α) : Prop where
  /-- Every variable has one entry. -/
  nodup : m.keys.Nodup
  mem_keys : ∀ x, x ∈ m.keys ↔ x ∈ namesSeen qs
  /-- First the assigned variables, and then those that are only read. -/
  order : ∃ readOnly, m.keys = assignedNames qs ++ readOnly ∧
    FirstOccurrences (qs.flatMap fun q => q.2.identifiers)
      (fun x => isReserved x = false ∧ x ∉ assignedNames qs) readOnly
  /-- An assigned variable has the tree and the text of its right-hand side. -/
  assigned : ∀ q ∈ qs, ∃ entry, m.get? q.1.name = some entry ∧ entry.expression = some q.2 ∧
    entry.source = q.1.rhs
  isDerived_iff : ∀ x entry, m.get? x = some entry →
    (entry.isDerived = true ↔ x ∉ assignedNames qs) ∧
      (entry.isDerived = true ↔ entry.expression = none)
  of_noExpression : ∀ x entry, m.get? x = some entry → entry.expression = none →
    entry.dependencies = []
  dependencies : ∀ x entry e, m.get? x = some entry → entry.expression = some e →
    FirstOccurrences e.identifiers (fun d => isReserved d = false) entry.dependencies
  /-- Whatever an entry depends on has an entry. -/
  closed : ∀ x entry, m.get? x = some entry → ∀ d ∈ entry.dependencies, d ∈ m.keys

/-- The variables that an expression reads are listed in the order in which they first occur. -/
lemma Expr.firstOccurrences_dependencies (e : Expr α) :
    FirstOccurrences e.identifiers (fun d => isReserved d = false) e.dependencies := by
  simpa [dependencies] using firstOccurrences_eraseDups e.identifiers fun name => !isReserved name

section

variable {m : Model α} {qs : List (Equation α)}

lemma Describes.keys_eq (h : Describes m qs) :
    m.keys = assignedNames qs ++ ((qs.flatMap fun q => q.2.identifiers).filter fun x =>
      !isReserved x && !(assignedNames qs).contains x).eraseDups := by
  obtain ⟨assigned, hentries, rfl⟩ := h
  have hkeys : assigned.keys = assignedNames qs := by
    rw [Table.keys, hentries, List.map_map]
    rfl
  have hreads : (assigned.entries.flatMap fun e => e.2.dependencies).eraseDups =
      ((qs.flatMap fun q => q.2.identifiers).filter fun x => !isReserved x).eraseDups := by
    rw [hentries, List.flatMap_map, List.filter_flatMap]
    exact eraseDups_flatMap (fun q : Equation α => q.2.identifiers.filter fun x => !isReserved x) qs
  rw [Model.withDerived, Table.keys_foldl_insertIfNew, hkeys, eraseDups_filter, hreads,
    ← eraseDups_filter, List.filter_filter]
  simp only [Bool.and_comm]

lemma Describes.mem_keys_iff_namesSeen (h : Describes m qs) (x : Name) :
    x ∈ m.keys ↔ x ∈ namesSeen qs := by
  rw [h.mem_keys, namesSeen, List.mem_flatMap, ← exists_or]
  refine exists_congr fun q => ?_
  rw [List.mem_cons, ← and_or_left, eq_comm]

/-- **What a model says of its equations is an inventory of their variables.** -/
theorem Describes.isInventory (h : Describes m qs) : IsInventory qs m where
  nodup := m.nodup
  mem_keys := h.mem_keys_iff_namesSeen
  order := by
    refine ⟨_, h.keys_eq, ?_⟩
    simpa using firstOccurrences_eraseDups (qs.flatMap fun q => q.2.identifiers)
      fun x => !isReserved x && !(assignedNames qs).contains x
  assigned q hq := ⟨_, h.get?_of_mem hq, rfl, rfl⟩
  isDerived_iff x entry hentry := by
    by_cases hx : ∃ q ∈ qs, q.1.name = x
    · obtain ⟨q, hq, rfl⟩ := hx
      have hmem : q.1.name ∈ assignedNames qs := List.mem_map_of_mem hq
      rw [h.get?_of_mem hq] at hentry
      cases hentry
      simp [Entry.ofExpr, hmem]
    · have hnot : x ∉ assignedNames qs := fun hmem => hx (by simpa [assignedNames] using hmem)
      rcases h.get?_cases hentry with ⟨q, hq, hname, -⟩ | rfl
      · exact absurd ⟨q, hq, hname⟩ hx
      · simp [Entry.derived, hnot]
  of_noExpression x entry hentry hnone := by
    rcases h.get?_cases hentry with ⟨q, -, -, rfl⟩ | rfl
    · cases hnone
    · rfl
  dependencies x entry e hentry he := by
    rcases h.get?_cases hentry with ⟨q, -, -, rfl⟩ | rfl
    · cases he
      exact Expr.firstOccurrences_dependencies _
    · cases he
  closed x entry hentry d hd := by
    rcases h.get?_cases hentry with ⟨q, hq, -, rfl⟩ | rfl
    · exact h.mem_keys.mpr (.inr ⟨q, hq, hd⟩)
    · cases hd

end

/-! ## Texts -/

variable [Scalar α]

/-- **Which texts are models, and what is in them.** A text is a model exactly if its statements are
assignments of expressions, with known functions only, to different names. The model then has the
entries of these assignments. -/
theorem ofText_inventory (text : String) :
    ((∃ m : Model α, Model.ofText text = .ok m) ↔
      ∃ as : List Assignment, List.Forall₂ IsAssignment (statements text) as ∧
        (∀ a ∈ as, ∃ e : Expr α, Expr.parse a.rhs = .ok e ∧ e.check = .ok ()) ∧
        (as.map Assignment.name).Nodup) ∧
    ∀ m : Model α, Model.ofText text = .ok m →
      ∃ qs : List (Equation α), List.Forall₂ (fun line q => IsAssignment line q.1)
          (statements text) qs ∧
        (∀ q ∈ qs, Expr.parse q.1.rhs = .ok q.2 ∧ q.2.check = .ok ()) ∧ IsInventory qs m := by
  have hread : ∀ (rhs : String) (e : Expr α),
      Expr.read rhs = .ok e ↔ Expr.parse rhs = .ok e ∧ e.check = .ok () := by
    intro rhs e
    rw [Expr.read_eq_ok, Expr.check_eq_ok]
  have hforms : ∀ as : List Assignment, assignments text = .ok as ↔
      List.Forall₂ IsAssignment (statements text) as := by
    intro as
    simp only [assignments_eq_ok, ofStatement?_eq_some_iff]
  constructor
  · have haccepted : (∃ m : Model α, Model.ofText text = .ok m) ↔ _ := accepted_iff
    simp only [haccepted, hforms, Reads, hread]
  · intro m hm
    obtain ⟨qs, ⟨hassignments, hreads⟩, hdescribes⟩ := ofText_eq_ok.mp hm
    rw [hforms, List.forall₂_map_right_iff] at hassignments
    exact ⟨qs, hassignments, fun q hq => (hread _ _).mp (hreads q hq), hdescribes.isInventory⟩

/-- `C` is read before it is assigned, and `A` and `D` are only read. -/
theorem ofText_inventory_forwardReference :
    ∃ m : Model Rat, Model.ofText "B = 2*C + A - C; C = sin(D) + PI*A\nG = B" = .ok m ∧
      m.keys = ["B", "C", "G", "A", "D"] ∧
      ∃ qs, assignedNames qs = ["B", "C", "G"] ∧ IsInventory qs m := by
  have haccepted : Accepted Rat "B = 2*C + A - C; C = sin(D) + PI*A\nG = B" := by decide +kernel
  obtain ⟨m, hm⟩ := haccepted
  have hkeys : (Model.ofText "B = 2*C + A - C; C = sin(D) + PI*A\nG = B" :
      Except ParseError (Model Rat)).map Table.keys = .ok ["B", "C", "G", "A", "D"] := by
    decide +kernel
  rw [hm] at hkeys
  obtain ⟨qs, hlines, -, hinventory⟩ := (ofText_inventory _).2 m hm
  refine ⟨m, hm, Except.ok.inj hkeys, qs, ?_, hinventory⟩
  obtain ⟨readOnly, hsplit, -⟩ := hinventory.order
  have hthree : (assignedNames qs).length = 3 := by
    have hcount : (statements "B = 2*C + A - C; C = sin(D) + PI*A\nG = B").length = 3 := by
      decide +kernel
    rw [assignedNames, List.length_map, ← hlines.length_eq, hcount]
  have hnames : ["B", "C", "G", "A", "D"] = assignedNames qs ++ readOnly :=
    (Except.ok.inj hkeys).symm.trans hsplit
  have htake := congrArg (List.take 3) hnames
  rw [List.take_left' hthree] at htake
  exact htake.symm

end CausalEquations
