import CausalEquations.Proofs.CountedOrder

/-!
# Searching for a way back

Whether a new edge closes a cycle can be found out by a search from its end that keeps the nodes it
has still to look at on a stack. A node may be on the stack several times, and the stack may grow;
but a node brings its children onto it only once, so the search ends after at most as many steps as
there are edges, and two. In which order the children of a node come onto the stack makes no
difference.

* `StackSearch`, `StackSearch.step`, `StackSearch.run` — the search.
* `StackSearch.work`, `StackSearch.exists_run_eq` — what a step uses up, and why a run ends.
* `Graph.Explores`, `Graph.Explores.step`, `Graph.Explores.answer_iff` — what a step keeps, and what
  a run finds out.
* `Graph.closesCycleByStack` — the test for a new edge as a search.
* `Graph.closesCycle_decides` — both tests agree. They ask for a path back, which is there exactly
  if the graph with the new edge has no causal order.
-/

namespace CausalEquations

open Relation

/-! ## The search -/

/-- What a search remembers. -/
structure StackSearch where
  /-- The nodes it has looked at. -/
  seen : List Name
  /-- The nodes it has still to look at, the next one first. -/
  stack : List Name

namespace StackSearch

/-- Looks at the node on top of the stack. The search is over if this is the goal, or if there is no
such node; otherwise those of its children that have not been looked at come onto the stack, unless
it has been looked at before. -/
def step (childrenOf : Name → List Name) (goal : Name) : StackSearch → Bool ⊕ StackSearch
  | ⟨_, []⟩ => .inl false
  | ⟨seen, node :: rest⟩ =>
    if node = goal then .inl true
    else if node ∈ seen then .inr ⟨seen, rest⟩
    else .inr ⟨node :: seen, ((childrenOf node).filter fun child => child ∉ node :: seen) ++ rest⟩

/-- The answer of a search, if it is over after at most `steps` steps. -/
def run (childrenOf : Name → List Name) (goal : Name) : (steps : ℕ) → StackSearch → Option Bool
  | 0, _ => none
  | steps + 1, s =>
    match s.step childrenOf goal with
    | .inl answer => some answer
    | .inr s' => s'.run childrenOf goal steps

variable {childrenOf : Name → List Name} {goal : Name}

/-- What a step can do. -/
inductive Outcome (childrenOf : Name → List Name) (goal : Name) :
    StackSearch → Bool ⊕ StackSearch → Prop where
  | exhausted (seen : List Name) : Outcome childrenOf goal ⟨seen, []⟩ (.inl false)
  | found (seen rest : List Name) : Outcome childrenOf goal ⟨seen, goal :: rest⟩ (.inl true)
  | again {seen : List Name} {node : Name} (rest : List Name) : node ∈ seen →
      Outcome childrenOf goal ⟨seen, node :: rest⟩ (.inr ⟨seen, rest⟩)
  | first {seen : List Name} {node : Name} (rest : List Name) : node ≠ goal → node ∉ seen →
      Outcome childrenOf goal ⟨seen, node :: rest⟩ (.inr ⟨node :: seen,
        ((childrenOf node).filter fun child => child ∉ node :: seen) ++ rest⟩)

lemma outcome_step (childrenOf : Name → List Name) (goal : Name) (s : StackSearch) :
    Outcome childrenOf goal s (s.step childrenOf goal) := by
  obtain ⟨seen, stack⟩ := s
  cases stack with
  | nil => exact .exhausted seen
  | cons node rest =>
      rw [step]
      split
      · rename_i hgoal
        exact hgoal ▸ .found seen rest
      · rename_i hgoal
        split
        · rename_i hseen
          exact .again rest hseen
        · rename_i hnew
          exact .first rest hgoal hnew

/-! ### What a step uses up -/

/-- The number of children that nodes which have not been looked at may still bring onto the
stack. -/
def pending (childrenOf : Name → List Name) (nodes seen : List Name) : ℕ :=
  ((nodes.filter fun node => node ∉ seen).flatMap childrenOf).length

/-- The number of nodes on the stack, and of those that may still come onto it. -/
def work (childrenOf : Name → List Name) (nodes : List Name) (s : StackSearch) : ℕ :=
  s.stack.length + pending childrenOf nodes s.seen

variable {nodes : List Name}

/-- A node that is looked at for the first time uses up its children. -/
lemma pending_cons (hnodes : nodes.Nodup) (hchildless : ∀ node ∉ nodes, childrenOf node = [])
    {seen : List Name} {node : Name} (hnew : node ∉ seen) :
    pending childrenOf nodes (node :: seen) + (childrenOf node).length =
      pending childrenOf nodes seen := by
  have hfilter : (nodes.filter fun other => other ∉ node :: seen) =
      (nodes.filter fun other => other ∉ seen).erase node := by
    rw [(hnodes.filter _).erase_eq_filter, List.filter_filter]
    refine List.filter_congr fun other _ => ?_
    rw [Bool.eq_iff_iff]
    simp
  rw [pending, pending, hfilter]
  by_cases hnode : node ∈ nodes
  · have hmem : node ∈ nodes.filter fun other => other ∉ seen :=
      List.mem_filter.mpr ⟨hnode, by simpa using hnew⟩
    have hperm := (List.perm_cons_erase hmem).flatMap_right childrenOf
    rw [hperm.length_eq, List.flatMap_cons, List.length_append, Nat.add_comm]
  · rw [List.erase_of_not_mem fun hmem => hnode (List.mem_filter.mp hmem).1, hchildless node hnode]
    rfl

/-- **Every step that goes on uses something up**, though the stack may grow. -/
lemma work_lt (hnodes : nodes.Nodup) (hchildless : ∀ node ∉ nodes, childrenOf node = [])
    {s s' : StackSearch} (h : s.step childrenOf goal = .inr s') :
    s'.work childrenOf nodes < s.work childrenOf nodes := by
  have houtcome := outcome_step childrenOf goal s
  rw [h] at houtcome
  cases houtcome with
  | again rest _ => exact Nat.add_lt_add_right (Nat.lt_succ_self rest.length) _
  | @first seen node rest _ hnew =>
      have hpending := pending_cons hnodes hchildless hnew
      have hfilter := List.length_filter_le (fun child => decide (child ∉ node :: seen))
        (childrenOf node)
      simp only [work, List.length_append, List.length_cons]
      omega

/-- **A search is over** when it has taken more steps than it had work to do. -/
theorem exists_run_eq (goal : Name) (hnodes : nodes.Nodup)
    (hchildless : ∀ node ∉ nodes, childrenOf node = []) {steps : ℕ} {s : StackSearch}
    (h : s.work childrenOf nodes < steps) :
    ∃ answer, s.run childrenOf goal steps = some answer := by
  induction steps generalizing s with
  | zero => exact absurd h (Nat.not_lt_zero _)
  | succ steps ih =>
      rw [run]
      cases hstep : s.step childrenOf goal with
      | inl answer => exact ⟨answer, rfl⟩
      | inr s' =>
          have := work_lt hnodes hchildless hstep
          exact ih (by omega)

end StackSearch

/-! ## What the search finds out -/

namespace Graph

variable {g : Graph} {childrenOf : Name → List Name} {start goal : Name} {s s' : StackSearch}

/-- The children of every node are listed, in any order. -/
def ListsChildren (g : Graph) (childrenOf : Name → List Name) : Prop :=
  ∀ node child, child ∈ childrenOf node ↔ g.Edge node child

/-- What holds during a search for `goal` from `start`: all nodes that it knows are reached from
`start`, and it knows the children of the nodes that it has looked at, among which the goal is
not. -/
structure Explores (g : Graph) (start goal : Name) (s : StackSearch) : Prop where
  reached : ∀ node ∈ s.seen ++ s.stack, ReflTransGen g.Edge start node
  start_mem : start ∈ s.seen ++ s.stack
  child_mem : ∀ node ∈ s.seen, ∀ child, g.Edge node child → child ∈ s.seen ++ s.stack
  goal_not_mem : goal ∉ s.seen

lemma explores_start (g : Graph) (start goal : Name) : g.Explores start goal ⟨[], [start]⟩ where
  reached node hnode := by
    obtain rfl : node = start := by simpa using hnode
    exact .refl
  start_mem := List.mem_singleton_self start
  child_mem := by simp
  goal_not_mem := List.not_mem_nil

/-- A node that has been looked at need not be looked at again. -/
lemma Explores.again {seen rest : List Name} {node : Name}
    (h : g.Explores start goal ⟨seen, node :: rest⟩) (hseen : node ∈ seen) :
    g.Explores start goal ⟨seen, rest⟩ := by
  have hknown : ∀ x, x ∈ seen ++ node :: rest ↔ x ∈ seen ++ rest := by
    intro x
    rw [List.mem_append, List.mem_cons, List.mem_append]
    refine ⟨?_, Or.imp_right .inr⟩
    rintro (hx | rfl | hx)
    · exact .inl hx
    · exact .inl hseen
    · exact .inr hx
  exact ⟨fun x hx => h.reached x ((hknown x).mpr hx), (hknown start).mp h.start_mem,
    fun x hx child hedge => (hknown child).mp (h.child_mem x hx child hedge), h.goal_not_mem⟩

/-- A node that is looked at for the first time makes its children known. -/
lemma Explores.first (hchildren : g.ListsChildren childrenOf) {seen rest : List Name} {node : Name}
    (h : g.Explores start goal ⟨seen, node :: rest⟩) (hgoal : node ≠ goal) :
    g.Explores start goal ⟨node :: seen,
      ((childrenOf node).filter fun child => child ∉ node :: seen) ++ rest⟩ := by
  have hknown : ∀ x, x ∈ (node :: seen) ++
      (((childrenOf node).filter fun child => child ∉ node :: seen) ++ rest) ↔
        x ∈ seen ++ node :: rest ∨ g.Edge node x := by
    intro x
    simp only [List.mem_append, List.mem_cons, List.mem_filter, hchildren node x,
      decide_eq_true_eq]
    tauto
  have hnode : ReflTransGen g.Edge start node := h.reached node (by simp)
  constructor
  case reached =>
    intro x hx
    rcases (hknown x).mp hx with hold | hedge
    · exact h.reached x hold
    · exact hnode.tail hedge
  case start_mem => exact (hknown start).mpr (.inl h.start_mem)
  case child_mem =>
    intro x hx child hedge
    rcases List.mem_cons.mp hx with rfl | hx
    · exact (hknown child).mpr (.inr hedge)
    · exact (hknown child).mpr (.inl (h.child_mem x hx child hedge))
  case goal_not_mem => exact List.not_mem_cons_of_ne_of_not_mem (Ne.symm hgoal) h.goal_not_mem

/-- A step keeps the invariant. -/
theorem Explores.step (hchildren : g.ListsChildren childrenOf) (h : g.Explores start goal s)
    (hstep : s.step childrenOf goal = .inr s') : g.Explores start goal s' := by
  have houtcome := StackSearch.outcome_step childrenOf goal s
  rw [hstep] at houtcome
  cases houtcome with
  | again rest hseen => exact h.again hseen
  | first rest hgoal _ => exact h.first hchildren hgoal

/-- If nothing is left to look at, the nodes that have been looked at are closed under the edges, so
the goal is not reached. -/
lemma Explores.not_reached {seen : List Name} (h : g.Explores start goal ⟨seen, []⟩) :
    ¬ ReflTransGen g.Edge start goal := by
  have hstart : start ∈ seen := by simpa using h.start_mem
  have hclosed : ∀ node, ReflTransGen g.Edge start node → node ∈ seen := by
    intro node hpath
    induction hpath with
    | refl => exact hstart
    | tail _ hedge ih => simpa using h.child_mem _ ih _ hedge
  exact fun hpath => h.goal_not_mem (hclosed goal hpath)

/-- **A search that is over has found out** whether its goal is reached. -/
theorem Explores.answer_iff (hchildren : g.ListsChildren childrenOf) {steps : ℕ}
    (h : g.Explores start goal s) {answer : Bool}
    (hrun : s.run childrenOf goal steps = some answer) :
    answer = true ↔ ReflTransGen g.Edge start goal := by
  induction steps generalizing s with
  | zero => cases hrun
  | succ steps ih =>
      rw [StackSearch.run] at hrun
      have houtcome := StackSearch.outcome_step childrenOf goal s
      cases hstep : s.step childrenOf goal with
      | inr s' =>
          rw [hstep] at hrun
          exact ih (h.step hchildren hstep) hrun
      | inl found =>
          rw [hstep] at hrun houtcome
          cases hrun
          cases houtcome with
          | exhausted seen => exact iff_of_false Bool.false_ne_true h.not_reached
          | found seen rest => exact iff_of_true rfl (h.reached goal (by simp))

/-! ## The test for a new edge -/

/-- Whether an edge from `source` to `target` would close a directed cycle, found out by a search
for `source` from `target`, if it is over after at most `steps` steps. -/
def closesCycleByStack (childrenOf : Name → List Name) (steps : ℕ) (source target : Name) :
    Option Bool :=
  if source.isEmpty || target.isEmpty then some false
  else if source = target then some true
  else StackSearch.run childrenOf source steps ⟨[], [target]⟩

/-- The number of edges, as the children of the nodes are listed. -/
def edgeCount (g : Graph) (childrenOf : Name → List Name) : ℕ :=
  (g.nodes.flatMap childrenOf).length

/-- **The search gives the answer of the test**, and is over two steps after as many steps as there
are edges. -/
theorem closesCycleByStack_eq (hchildren : g.ListsChildren childrenOf) {steps : ℕ}
    (hsteps : g.edgeCount childrenOf + 2 ≤ steps) (source target : Name) :
    closesCycleByStack childrenOf steps source target = some (g.closesCycle source target) := by
  have hempty : ∀ name : Name, name.isEmpty = true ↔ name = "" := fun _ => String.isEmpty_iff
  rw [closesCycleByStack]
  split
  · rename_i hnone
    rw [Bool.or_eq_true, hempty, hempty] at hnone
    refine congrArg some (Bool.eq_false_iff.mpr ?_).symm
    rw [ne_eq, closesCycle_iff]
    tauto
  · rename_i hnames
    rw [Bool.or_eq_true, hempty, hempty, not_or] at hnames
    have hiff : g.closesCycle source target = true ↔ ReflTransGen g.Edge target source := by
      rw [closesCycle_iff, and_iff_right hnames.1, and_iff_right hnames.2]
    split
    · rename_i hsame
      exact congrArg some (hiff.mpr (hsame ▸ .refl)).symm
    · have hchildless : ∀ node ∉ g.nodes, childrenOf node = [] := fun node hnode =>
        List.eq_nil_iff_forall_not_mem.mpr fun child hchild =>
          hnode (parent_mem_nodes ((hchildren node child).mp hchild))
      have hstart :
          StackSearch.work childrenOf g.nodes ⟨[], [target]⟩ = g.edgeCount childrenOf + 1 := by
        simp [StackSearch.work, StackSearch.pending, edgeCount, Nat.add_comm]
      have hwork : StackSearch.work childrenOf g.nodes ⟨[], [target]⟩ < steps := by omega
      obtain ⟨answer, hanswer⟩ :=
        StackSearch.exists_run_eq source (nodup_nodes g) hchildless hwork
      rw [hanswer, Option.some.injEq, Bool.eq_iff_iff, hiff]
      exact (explores_start g target source).answer_iff hchildren hanswer

/-- The edges after an edge has been added. -/
lemma edge_addNeighbour_iff {source target parent child : Name} :
    (g.addNeighbour target source).Edge parent child ↔
      g.Edge parent child ∨ (parent = source ∧ child = target) := by
  rw [Edge, mem_neighbours_addNeighbour, and_comm, eq_comm (a := target)]
  rfl

/-- **The test for a new edge is decisive.** The search for a path back is over after as many steps
as there are edges, and two, and gives the answer of the test: whether a path, be it of length zero,
leads from the end of the edge to its beginning. In an acyclic graph this is so exactly if the
graph with the new edge has no causal order. -/
theorem closesCycle_decides (g : Graph) {source target : Name} (hsource : source ≠ "")
    (htarget : target ≠ "") :
    (∀ childrenOf, g.ListsChildren childrenOf →
      closesCycleByStack childrenOf (g.edgeCount childrenOf + 2) source target =
        some (g.closesCycle source target)) ∧
    (g.closesCycle source target = true ↔ ReflTransGen g.Edge target source) ∧
    (g.Acyclic → (g.closesCycle source target = true ↔
      (g.addNeighbour target source).order = .error {})) := by
  have hiff : g.closesCycle source target = true ↔ ReflTransGen g.Edge target source := by
    rw [closesCycle_iff, and_iff_right hsource, and_iff_right htarget]
  refine ⟨fun childrenOf hchildren => closesCycleByStack_eq hchildren le_rfl source target, hiff,
    fun hg => ?_⟩
  have hnew : (g.addNeighbour target source).Acyclic ↔ ¬ ReflTransGen g.Edge target source :=
    acyclic_iff_of_newEdge hg (edge_addNeighbour_iff.mpr (.inr ⟨rfl, rfl⟩))
      (fun _ _ => edge_addNeighbour_iff.mp) fun _ _ hedge _ => edge_addNeighbour_iff.mpr (.inl hedge)
  rw [hiff, order_eq_error_iff, hnew, not_not]

/-- `A` leads to `C` by way of `B`, and also at once. -/
def triangle : Graph := Table.ofList [("B", ["A"]), ("C", ["A", "B"])]

/-- An edge back from `C` to `A` closes a cycle. One from `C` to a new node does not, although the
search has to look at that node. -/
theorem closesCycle_decides_triangle :
    triangle.Acyclic ∧ triangle.ListsChildren triangle.childrenOf ∧
      closesCycleByStack triangle.childrenOf 5 "C" "A" = some true ∧
      ReflTransGen triangle.Edge "A" "C" ∧
      (triangle.addNeighbour "A" "C").order = .error {} ∧
      closesCycleByStack triangle.childrenOf 5 "C" "N" = some false ∧
      ¬ ReflTransGen triangle.Edge "N" "C" ∧
      (triangle.addNeighbour "N" "C").order ≠ .error {} := by
  have hg : triangle.Acyclic := by decide +kernel
  have hchildren : triangle.ListsChildren triangle.childrenOf := fun _ _ => mem_childrenOf
  have hback : triangle.closesCycle "C" "A" = true := by decide +kernel
  have hnew : ¬ triangle.closesCycle "C" "N" = true := by decide +kernel
  have hA : ("A" : Name) ≠ "" := by decide
  have hC : ("C" : Name) ≠ "" := by decide
  have hN : ("N" : Name) ≠ "" := by decide
  obtain ⟨hsearch, hpath, horder⟩ := closesCycle_decides triangle hC hA
  obtain ⟨hsearch', hpath', horder'⟩ := closesCycle_decides triangle hC hN
  exact ⟨hg, hchildren, (hsearch _ hchildren).trans (congrArg some hback), hpath.mp hback,
    (horder hg).mp hback, (hsearch' _ hchildren).trans (congrArg some (Bool.eq_false_iff.mpr hnew)),
    fun h => hnew (hpath'.mpr h), fun h => hnew ((horder' hg).mpr h)⟩

end Graph

end CausalEquations
