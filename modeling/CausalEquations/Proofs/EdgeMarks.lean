import CausalEquations.Proofs.Descendants
import CausalEquations.Proofs.SimplePaths
import Mathlib

/-!
# What the marks of the edges mean

An edge carries the worst of the marks that the paths through it give it, so the order in which the
paths are met does not matter. What a path gives is said by its colliders and by its other interior
nodes.

* `Graph.Opens`, `Graph.BlocksDirected`, `Graph.BlocksIndirect` — the three ways in which
  controlling changes a path.
* `Graph.changeOf_eq_bad`, `Graph.changeOf_eq_maybe`, `Graph.changeOf_eq_good` — a path gives the
  mark that belongs to its change.
* `Graph.le_gravity_edgeStatus` — a mark is at least as bad as a bound if and only if some path
  gives such a mark.
* `Graph.edgeStatus_meaning` — the marks of all edges of an acyclic graph.
-/

namespace CausalEquations

namespace Graph

open Relation

/-! ## Changes of a path -/

/-- Controlling opens a path: it has a collider, and transmits once the set is controlled. -/
structure Opens (g : Graph) (C : Set Name) (path : List Name) : Prop
    extends Transmits g C path where
  collider : ∃ node, g.Collider path node

/-- Controlling blocks a directed path at an interior node. -/
structure BlocksDirected (g : Graph) (C : Set Name) (path : List Name) : Prop where
  directed : g.Directed path
  blocked : ∃ node ∈ C, Interior path node

/-- Controlling blocks at an interior node a path that is open but not directed. -/
structure BlocksIndirect (g : Graph) (C : Set Name) (path : List Name) : Prop where
  noCollider : ∀ node, ¬ g.Collider path node
  indirect : ¬ g.Directed path
  blocked : ∃ node ∈ C, Interior path node

/-- Where nothing collides, controlling blocks a path exactly at its interior nodes. -/
lemma transmits_iff_of_noCollider {g : Graph} {C : Set Name} {path : List Name}
    (h : ∀ node, ¬ g.Collider path node) :
    g.Transmits C path ↔ ¬ ∃ node ∈ C, Interior path node := by
  constructor
  · rintro htransmits ⟨node, hcontrolled, hinterior⟩
    exact htransmits.others node hinterior (h node) hcontrolled
  · intro hfree
    exact ⟨fun node hcollider => absurd hcollider (h node),
      fun node hinterior _ hcontrolled => hfree ⟨node, hcontrolled, hinterior⟩⟩

section

variable {g : Graph} {controls path : List Name} (hg : g.Acyclic) (hpath : path.Nodup)

include hg hpath

lemma isOpen_children_iff (controls : List Name) :
    isOpen g g.children.descendants controls path = true ↔ g.Transmits {c | c ∈ controls} path :=
  isOpen_iff (fun _ _ => mem_descendants_children hg) hpath

lemma isOpen_nil_iff :
    isOpen g g.children.descendants [] path = true ↔ ∀ node, ¬ g.Collider path node := by
  rw [isOpen_children_iff hg hpath, ← transmits_empty_iff]
  simp

/-- A path gives its edges the mark bad exactly if controlling opens it. -/
lemma changeOf_eq_bad :
    changeOf g g.children.descendants controls path = some .bad ↔
      g.Opens {c | c ∈ controls} path := by
  have hbefore := isOpen_nil_iff hg hpath
  have hafter := isOpen_children_iff hg hpath controls
  have hchange : changeOf g g.children.descendants controls path = some .bad ↔
      isOpen g g.children.descendants [] path ≠ true ∧
        isOpen g g.children.descendants controls path = true := by
    unfold changeOf
    cases isOpen g g.children.descendants [] path <;>
      cases isOpen g g.children.descendants controls path <;> simp [ite_eq_iff]
  rw [hchange, Ne, hbefore, hafter, not_forall_not]
  exact ⟨fun h => ⟨h.2, h.1⟩, fun h => ⟨h.collider, h.toTransmits⟩⟩

/-- A path gives another mark exactly if nothing collides on it and controlling blocks it; which of
the two marks depends on whether it is directed. -/
lemma changeOf_eq_blocked {status : EdgeStatus} (hstatus : status ≠ .bad) :
    changeOf g g.children.descendants controls path = some status ↔
      (∀ node, ¬ g.Collider path node) ∧ (∃ node ∈ controls, Interior path node) ∧
        (g.Directed path ↔ status = .maybe) := by
  have hbefore := isOpen_nil_iff hg hpath
  have hafter := isOpen_children_iff hg hpath controls
  have hchange : changeOf g g.children.descendants controls path = some status ↔
      isOpen g g.children.descendants [] path = true ∧
        isOpen g g.children.descendants controls path ≠ true ∧
        (g.isDirectedPath path = true ↔ status = .maybe) := by
    unfold changeOf
    cases isOpen g g.children.descendants [] path <;>
      cases isOpen g g.children.descendants controls path <;>
      cases g.isDirectedPath path <;> cases status <;> simp_all
  rw [hchange, hbefore, Ne, hafter, isDirectedPath_iff]
  refine and_congr_right fun hplain => ?_
  rw [transmits_iff_of_noCollider hplain, not_not]
  refine and_congr_right ?_
  rintro ⟨node, -, a, b, hplace⟩
  rw [and_iff_right ((Nat.le_succ 2).trans (three_le_length hplace))]

/-- A path gives its edges the mark maybe exactly if it is directed and controlling blocks it. -/
lemma changeOf_eq_maybe :
    changeOf g g.children.descendants controls path = some .maybe ↔
      g.BlocksDirected {c | c ∈ controls} path := by
  rw [changeOf_eq_blocked hg hpath (by decide), iff_true_right rfl]
  exact ⟨fun h => ⟨h.2.2, h.2.1⟩, fun h => ⟨h.directed.not_collider hg, h.blocked, h.directed⟩⟩

/-- A path gives its edges the mark good exactly if controlling blocks it, although it was open and
is not directed. -/
lemma changeOf_eq_good :
    changeOf g g.children.descendants controls path = some .good ↔
      g.BlocksIndirect {c | c ∈ controls} path := by
  have hgood : ¬ EdgeStatus.good = .maybe := by decide
  rw [changeOf_eq_blocked hg hpath (by decide), iff_false_right hgood]
  exact ⟨fun h => ⟨h.1, h.2.2, h.2.1⟩, fun h => ⟨h.noCollider, h.blocked, h.indirect⟩⟩

end

/-! ## The worst mark -/

/-- How bad a mark is; no mark is the least. -/
def gravity (status : Option EdgeStatus) : ℕ := status.elim 0 EdgeStatus.severity

lemma gravity_mark (marks : Table EdgeStatus) (label other : Name) (status : EdgeStatus) :
    gravity ((mark marks label status).get? other) =
      if label = other then max (gravity (marks.get? other)) status.severity
      else gravity (marks.get? other) := by
  unfold mark
  by_cases hlabel : label = other
  · subst hlabel
    cases hold : marks.get? label with
    | none => simp [gravity, Table.get?_insert]
    | some old =>
        by_cases hworse : old.severity < status.severity
        · simp [hworse, gravity, Table.get?_insert, hworse.le]
        · simp [hworse, gravity, hold, le_of_not_gt hworse]
  · cases hold : marks.get? label with
    | none => simp [Table.get?_insert, hlabel]
    | some old =>
        by_cases hworse : old.severity < status.severity <;>
          simp [hworse, Table.get?_insert, hlabel]

lemma exists_status_iff {q : EdgeStatus → Prop} :
    (∃ status, q status) ↔ q .bad ∨ q .maybe ∨ q .good := by
  refine ⟨?_, by rintro (h | h | h) <;> exact ⟨_, h⟩⟩
  rintro ⟨_ | _ | _, h⟩
  · exact .inr (.inr h)
  · exact .inr (.inl h)
  · exact .inl h

/-- The mark that is the worst of the three that are given. -/
lemma status_iff_of_gravity {status : Option EdgeStatus} {bad maybe good : Prop}
    (hbad : 3 ≤ gravity status ↔ bad) (hmaybe : 2 ≤ gravity status ↔ bad ∨ maybe)
    (hgood : 1 ≤ gravity status ↔ bad ∨ maybe ∨ good) :
    (status = some .bad ↔ bad) ∧ (status = some .maybe ↔ ¬ bad ∧ maybe) ∧
      (status = some .good ↔ ¬ bad ∧ ¬ maybe ∧ good) ∧
      (status = none ↔ ¬ bad ∧ ¬ maybe ∧ ¬ good) := by
  rcases status with _ | _ | _ | _ <;> simp [gravity, EdgeStatus.severity] at * <;> tauto

variable {parents descendants : Graph} {controls : List Name}

/-- Marking a path raises the marks of its edges up to the mark of the path. -/
lemma le_gravity_markPath {marks : Table EdgeStatus} {path : List Name} {status : EdgeStatus}
    {label : Name} {bound : ℕ} :
    bound ≤ gravity ((markPath parents marks path status).get? label) ↔
      bound ≤ gravity (marks.get? label) ∨ (bound ≤ status.severity ∧
        ∃ step ∈ steps path, edgeLabel? parents step.1 step.2 = some label) := by
  unfold markPath
  generalize steps path = todo
  induction todo generalizing marks with
  | nil => simp
  | cons step rest ih =>
      rw [List.foldl_cons, ih, List.exists_mem_cons_iff]
      cases hlabel : edgeLabel? parents step.1 step.2 with
      | none => simp
      | some other =>
          rw [gravity_mark, Option.some_inj]
          split
          · simp only [le_max_iff]
            tauto
          · tauto

/-- Every path whose change gives a mark raises the marks of its edges up to it. -/
lemma le_gravity_foldl_markChange {marks : Table EdgeStatus} {paths : List (List Name)}
    {label : Name} {bound : ℕ} :
    bound ≤ gravity ((paths.foldl (markChange parents descendants controls) marks).get? label) ↔
      bound ≤ gravity (marks.get? label) ∨ ∃ path ∈ paths, ∃ status,
        changeOf parents descendants controls path = some status ∧ bound ≤ status.severity ∧
          ∃ step ∈ steps path, edgeLabel? parents step.1 step.2 = some label := by
  induction paths generalizing marks with
  | nil => simp
  | cons path rest ih =>
      rw [List.foldl_cons, ih, List.exists_mem_cons_iff, ← or_assoc]
      refine or_congr_left ?_
      unfold markChange
      cases changeOf parents descendants controls path with
      | none => simp
      | some status => simp [le_gravity_markPath]

/-! ## Labels -/

/-- The first arrow of a label stands behind the parent, as there is none in the parent's name. -/
lemma arrow_split {front back front' back' : List Char} (hfront : ¬ ['-', '>'] <:+: front)
    (hfront' : ¬ ['-', '>'] <:+: front')
    (h : front ++ '-' :: '>' :: back = front' ++ '-' :: '>' :: back') :
    front = front' ∧ back = back' := by
  have hshort : ∀ {front front' back back' : List Char}, ¬ ['-', '>'] <:+: front' →
      ∀ middle, front' = front ++ middle → '-' :: '>' :: back = middle ++ '-' :: '>' :: back' →
        middle = [] := by
    intro front front' back back' hfree middle hsplit hback
    match middle with
    | [] => rfl
    | [_] => simp at hback
    | _ :: _ :: middle =>
        simp only [List.cons_append, List.cons.injEq] at hback
        obtain ⟨rfl, rfl, -⟩ := hback
        exact absurd ⟨front, middle, by simp [hsplit]⟩ hfree
  rcases List.append_eq_append_iff.mp h with ⟨middle, hsplit, hback⟩ | ⟨middle, hsplit, hback⟩
  · obtain rfl := hshort hfront' middle hsplit hback
    simpa [hsplit] using hback
  · obtain rfl := hshort hfront middle hsplit hback
    simpa [hsplit, eq_comm] using hback

/-- The name contains no arrow. -/
def ArrowFree (name : Name) : Prop := ¬ ['-', '>'] <:+: name.toList

instance (name : Name) : Decidable (ArrowFree name) := inferInstanceAs (Decidable (¬ _))

/-- A label names its edge. -/
lemma label_injective {p c p' c' : Name} (hp : ArrowFree p) (hp' : ArrowFree p') :
    p ++ "->" ++ c = p' ++ "->" ++ c' ↔ p = p' ∧ c = c' := by
  refine ⟨fun h => ?_, by rintro ⟨rfl, rfl⟩; rfl⟩
  have hlists := congrArg String.toList h
  simp only [String.toList_append, List.append_assoc] at hlists
  obtain ⟨hfront, hback⟩ := arrow_split hp hp' hlists
  exact ⟨String.toList_injective hfront, String.toList_injective hback⟩

/-- On an acyclic graph a step bears the label of an edge exactly if it goes along the edge. -/
lemma edgeLabel?_eq_some_iff {g : Graph} (hg : g.Acyclic)
    (hnames : ∀ node ∈ g.nodes, ArrowFree node) {p c : Name} (hedge : g.Edge p c)
    {left right : Name} : edgeLabel? g left right = some (p ++ "->" ++ c) ↔
      (left = p ∧ right = c) ∨ (right = p ∧ left = c) := by
  have hfree : ∀ {a b}, g.Edge a b → ArrowFree a := fun h => hnames _ (parent_mem_nodes h)
  unfold edgeLabel?
  split
  · rename_i hforward
    rw [hasEdge_iff] at hforward
    rw [Option.some_inj, label_injective (hfree hforward) (hfree hedge)]
    refine ⟨.inl, ?_⟩
    rintro (h | ⟨rfl, rfl⟩)
    · exact h
    · exact absurd (.tail (.single hforward) hedge) (hg left)
  · rename_i hforward
    rw [hasEdge_iff] at hforward
    split
    · rename_i hbackward
      rw [hasEdge_iff] at hbackward
      rw [Option.some_inj, label_injective (hfree hbackward) (hfree hedge)]
      refine ⟨.inr, ?_⟩
      rintro (⟨rfl, rfl⟩ | h)
      · exact absurd hedge hforward
      · exact h
    · rename_i hbackward
      rw [hasEdge_iff] at hbackward
      refine iff_of_false (by simp) ?_
      rintro (⟨rfl, rfl⟩ | ⟨rfl, rfl⟩)
      · exact hforward hedge
      · exact hbackward hedge

/-! ## The marks of all edges -/

/-- The edge lies on one of the paths, and the path has the property. -/
def LiesOn (paths : List (List Name)) (p c : Name) (property : List Name → Prop) : Prop :=
  ∃ path ∈ paths, Along path p c ∧ property path

lemma liesOn_congr {paths : List (List Name)} {p c : Name} {property property' : List Name → Prop}
    (h : ∀ path ∈ paths, property path ↔ property' path) :
    LiesOn paths p c property ↔ LiesOn paths p c property' :=
  exists_congr fun path => and_congr_right fun hpath => and_congr_right fun _ => h path hpath

lemma liesOn_or {paths : List (List Name)} {p c : Name} {property property' : List Name → Prop} :
    (LiesOn paths p c fun path => property path ∨ property' path) ↔
      LiesOn paths p c property ∨ LiesOn paths p c property' := by
  simp only [LiesOn, and_or_left, exists_or]

lemma liesOn_and_right {paths : List (List Name)} {p c : Name} {property : List Name → Prop}
    {q : Prop} : (LiesOn paths p c fun path => property path ∧ q) ↔
      LiesOn paths p c property ∧ q := by
  simp only [LiesOn, ← and_assoc, exists_and_right]

lemma mem_effectiveControls {controls excluded : List Name} {c : Name} :
    c ∈ effectiveControls controls excluded ↔ c ∈ controls ∧ c ≠ "" ∧ c ∉ excluded := by
  simp [effectiveControls]

section

variable {g : Graph} (hg : g.Acyclic) (hnames : ∀ node ∈ g.nodes, ArrowFree node) {x y : Name}
  (hx : x ≠ "") (hy : y ≠ "") (hxy : x ≠ y) {controls excluded : List Name} (hx' : x ∉ excluded)
  (hy' : y ∉ excluded) (search : PathSearch) {p c : Name} (hedge : g.Edge p c)

include hx hy hxy hx' hy' in
/-- If no control counts, nothing is looked at, and controlling changes no path either. -/
lemma exists_searched_iff {property : List Name → EdgeStatus → Prop} :
    (∃ path ∈ g.searchedPaths x y controls excluded search, ∃ status,
      changeOf g g.children.descendants (effectiveControls controls excluded) path = some status ∧
        property path status) ↔
      ∃ path ∈ (g.skeleton excluded).simplePaths x y search, ∃ status,
        changeOf g g.children.descendants (effectiveControls controls excluded) path = some status ∧
          property path status := by
  by_cases hcontrols : effectiveControls controls excluded = []
  · simp [hcontrols, changeOf]
  · simp [searchedPaths, isQuestion, hx, hy, hxy, hx', hy', hcontrols]

include hg hnames hx hy hxy hx' hy' hedge in
/-- **A mark is at least as bad as a bound** if and only if one of the paths through the edge gives
such a mark. -/
theorem le_gravity_edgeStatus {bound : ℕ} (hbound : 0 < bound) :
    bound ≤ gravity ((g.edgeStatus x y controls excluded search).get? (p ++ "->" ++ c)) ↔
      LiesOn ((g.skeleton excluded).simplePaths x y search) p c fun path => ∃ status,
        changeOf g g.children.descendants (effectiveControls controls excluded) path = some status ∧
          bound ≤ status.severity := by
  have hempty : ¬ bound ≤ gravity (Table.empty.get? (p ++ "->" ++ c)) := by
    simp only [Table.get?_empty, gravity, Option.elim_none]
    omega
  have halong : ∀ path, (∃ step ∈ steps path,
      edgeLabel? g step.1 step.2 = some (p ++ "->" ++ c)) ↔ Along path p c := by
    intro path
    simp only [edgeLabel?_eq_some_iff hg hnames hedge, Prod.exists, mem_steps_iff, Along]
    constructor
    · rintro ⟨a, b, hplace, ⟨rfl, rfl⟩ | ⟨rfl, rfl⟩⟩
      · exact .inl hplace
      · exact .inr hplace
    · rintro (hplace | hplace)
      · exact ⟨p, c, hplace, .inl ⟨rfl, rfl⟩⟩
      · exact ⟨c, p, hplace, .inr ⟨rfl, rfl⟩⟩
  rw [edgeStatus, le_gravity_foldl_markChange, or_iff_right hempty,
    exists_searched_iff hx hy hxy hx' hy']
  simp only [halong, LiesOn]
  refine exists_congr fun path => and_congr_right fun _ => ?_
  constructor
  · rintro ⟨status, hchange, hle, hpath⟩
    exact ⟨hpath, status, hchange, hle⟩
  · rintro ⟨hpath, status, hchange, hle⟩
    exact ⟨status, hchange, hle, hpath⟩

end

/-- **The meaning of the marks.** An edge is bad if controlling opens a path through it; else maybe
if controlling blocks a directed path through it; else good if controlling blocks another open path
through it; and else it has no mark. -/
theorem edgeStatus_meaning {g : Graph} (hg : g.Acyclic) (hnames : ∀ node ∈ g.nodes, ArrowFree node)
    {x y : Name} (hx : x ≠ "") (hy : y ≠ "") (hxy : x ≠ y) {controls excluded : List Name}
    (hx' : x ∉ excluded) (hy' : y ∉ excluded) (search : PathSearch) {p c : Name}
    (hedge : g.Edge p c) :
    let paths := (g.skeleton excluded).simplePaths x y search
    let C : Set Name := {c | c ∈ controls ∧ c ≠ "" ∧ c ∉ excluded}
    let opens := LiesOn paths p c (g.Opens C)
    let blocksDirected := LiesOn paths p c (g.BlocksDirected C)
    let blocksIndirect := LiesOn paths p c (g.BlocksIndirect C)
    let status := (g.edgeStatus x y controls excluded search).get? (p ++ "->" ++ c)
    (status = some .bad ↔ opens) ∧
    (status = some .maybe ↔ ¬ opens ∧ blocksDirected) ∧
    (status = some .good ↔ ¬ opens ∧ ¬ blocksDirected ∧ blocksIndirect) ∧
    (status = none ↔ ¬ opens ∧ ¬ blocksDirected ∧ ¬ blocksIndirect) := by
  intro paths C opens blocksDirected blocksIndirect status
  have hC : {c | c ∈ effectiveControls controls excluded} = C :=
    Set.ext fun _ => mem_effectiveControls
  have hnodup : ∀ path ∈ paths, path.Nodup := fun path => nodup_of_mem_simplePaths
  have hgives : ∀ bound, 0 < bound → (bound ≤ gravity status ↔
      (opens ∧ bound ≤ 3) ∨ (blocksDirected ∧ bound ≤ 2) ∨ (blocksIndirect ∧ bound ≤ 1)) := by
    intro bound hbound
    rw [le_gravity_edgeStatus hg hnames hx hy hxy hx' hy' search hedge hbound]
    simp only [opens, blocksDirected, blocksIndirect, ← liesOn_and_right, ← liesOn_or]
    refine liesOn_congr fun path hpath => ?_
    rw [exists_status_iff, changeOf_eq_bad hg (hnodup path hpath),
      changeOf_eq_maybe hg (hnodup path hpath), changeOf_eq_good hg (hnodup path hpath), hC]
    rfl
  exact status_iff_of_gravity (by simpa using hgives 3) (by simpa using hgives 2)
    (by simpa using hgives 1)

/-- Between `X` and `Y` there are the directed path through `D`, the common cause `F`, and the
collider `M` of `A` and `B`, with the descendant `S`. -/
def threePaths : Graph :=
  Table.ofList [("X", ["A", "F"]), ("D", ["X"]), ("Y", ["B", "D", "F"]), ("M", ["A", "B"]),
    ("S", ["M"])]

theorem edgeStatus_meaning_threePaths :
    threePaths.Acyclic ∧ (∀ node ∈ threePaths.nodes, ArrowFree node) ∧ threePaths.Edge "A" "M" ∧
      LiesOn ((threePaths.skeleton ["U"]).simplePaths "X" "Y" {}) "A" "M"
        (threePaths.Opens {c | c ∈ ["S", "", "U"] ∧ c ≠ "" ∧ c ∉ ["U"]}) := by
  have hg : threePaths.Acyclic := by
    have hfound : threePaths.order.toOption.isSome = true := by decide +kernel
    cases horder : threePaths.order with
    | error e => simp [horder, Except.toOption] at hfound
    | ok order => exact (isCausalOrder_of_order horder).acyclic
  have hnames : ∀ node ∈ threePaths.nodes, ArrowFree node := by decide +kernel
  have hedge : threePaths.Edge "A" "M" := by decide +kernel
  have hmark : (threePaths.edgeStatus "X" "Y" ["S", "", "U"] ["U"] {}).get? ("A" ++ "->" ++ "M") =
      some .bad := by cbv
  have hx : "X" ∉ ["U"] := by decide
  have hy : "Y" ∉ ["U"] := by decide
  obtain ⟨hbad, -⟩ :=
    edgeStatus_meaning hg hnames (by decide) (by decide) (by decide) hx hy {} hedge
  exact ⟨hg, hnames, hedge, hbad.mp hmark⟩

end Graph

end CausalEquations
