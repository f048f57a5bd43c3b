import CausalEquations.Graph.Separation
import CausalEquations.Proofs.CausalOrder
import Mathlib.Data.List.Chain

/-!
# Nodes along a path

No node occurs twice on a simple path, so a node inside it has one neighbour on either side, and
being a collider is a property of the node alone.

* `Graph.nodup_of_mem_simplePaths` — simple paths are simple.
* `Along`, `Interior` — the edges of a path and the nodes inside it.
* `Graph.Collider`, `Graph.Directed` — where the edges of a path meet, and paths on which they all
  point the same way.
* `Graph.Transmits`, `Graph.isOpen_iff` — open paths, said of their interior nodes.
-/

namespace CausalEquations

/-! ## Places on a path -/

/-- The edge between the two nodes lies on the path, in either direction. -/
def Along (path : List Name) (a b : Name) : Prop := [a, b] <:+: path ∨ [b, a] <:+: path

/-- The node stands between two others. -/
def Interior (path : List Name) (node : Name) : Prop := ∃ a b, [a, node, b] <:+: path

/-- A node stands between the first and the third, or further on. -/
lemma place_cons_iff {previous node next a n b : Name} {rest : List Name} :
    [a, n, b] <:+: previous :: node :: next :: rest ↔
      (a = previous ∧ n = node ∧ b = next) ∨ [a, n, b] <:+: node :: next :: rest := by
  rw [List.infix_cons_iff]
  simp

lemma three_le_length {path : List Name} {a node b : Name} (h : [a, node, b] <:+: path) :
    3 ≤ path.length := h.length_le

/-- On a simple path a node has one neighbour on either side. -/
lemma neighbours_unique {path : List Name} (hpath : path.Nodup) {node a b a' b' : Name}
    (h : [a, node, b] <:+: path) (h' : [a', node, b'] <:+: path) : a = a' ∧ b = b' := by
  obtain ⟨front, back, rfl⟩ := h
  obtain ⟨front', back', hsplit⟩ := h'
  have hsplit' : (front' ++ [a']) ++ node :: (b' :: back') =
      (front ++ [a]) ++ node :: (b :: back) := by simpa using hsplit
  have hnodup : ((front ++ [a]) ++ node :: (b :: back)).Nodup := by simpa using hpath
  have hnodup' : ((front' ++ [a']) ++ node :: (b' :: back')).Nodup := hsplit' ▸ hnodup
  have hout : node ∉ front' ++ [a'] :=
    fun hmem => List.disjoint_of_nodup_append hnodup' hmem List.mem_cons_self
  have hout' : node ∉ b' :: back' :=
    (List.nodup_cons.mp (List.nodup_append.mp hnodup').2.1).1
  obtain ⟨hfront, -, hback⟩ := (List.append_cons_inj_of_notMem hout hout').mp hsplit'
  exact ⟨((List.append_inj' hfront rfl).2 |> List.singleton_inj.mp).symm,
    (List.cons.inj hback).1.symm⟩

namespace Graph

open Relation

/-! ## Simple paths -/

/-- What the neighbours of a node contribute is found beyond one that was not passed before. -/
lemma mem_foldl_found (visit : ℕ → Name → List (List Name)) {budget : ℕ} {passed path : List Name}
    {nexts : List Name} {found : List (List Name)}
    (h : path ∈ nexts.foldl (fun found next =>
      if passed.contains next || budget ≤ found.length then found
      else found ++ visit (budget - found.length) next) found) :
    path ∈ found ∨ ∃ next ∈ nexts, next ∉ passed ∧ ∃ left, path ∈ visit left next := by
  induction nexts generalizing found with
  | nil => exact .inl h
  | cons next rest ih =>
      rw [List.foldl_cons] at h
      rcases ih h with hfound | ⟨other, hother, hout, hpath⟩
      · split at hfound
        · exact .inl hfound
        · rename_i hnew
          have hout : next ∉ passed := fun hmem => by simp [hmem] at hnew
          rcases List.mem_append.mp hfound with hold | hpath
          · exact .inl hold
          · exact .inr ⟨next, List.mem_cons_self, hout, _, hpath⟩
      · exact .inr ⟨other, List.mem_cons_of_mem _ hother, hout, hpath⟩

/-- A walk has arrived, or goes on to a neighbour that it has not passed. -/
lemma mem_walk_cases {g : Graph} {goal node : Name} {room budget : ℕ} {passed path : List Name}
    (h : path ∈ g.walk goal room budget node passed) :
    path = passed.reverse ∨ ∃ less next left, room = less + 1 ∧ next ∉ passed ∧
      path ∈ g.walk goal less left next (next :: passed) := by
  unfold walk at h
  split at h
  · cases h
  · split at h
    · exact .inl (List.mem_singleton.mp h)
    · cases room with
      | zero => cases h
      | succ less =>
          rcases mem_foldl_found
            (fun left next => g.walk goal less left next (next :: passed)) h with
            hnone | ⟨next, -, hout, left, hpath⟩
          · cases hnone
          · exact .inr ⟨less, next, left, rfl, hout, hpath⟩

/-- A walk never comes back to a node that it has passed. -/
lemma nodup_of_mem_walk {g : Graph} {goal node : Name} {room budget : ℕ} {passed path : List Name}
    (hpassed : passed.Nodup) (h : path ∈ g.walk goal room budget node passed) : path.Nodup := by
  induction room generalizing budget node passed with
  | zero =>
      rcases mem_walk_cases h with rfl | ⟨less, next, left, hroom, -⟩
      · exact List.nodup_reverse.mpr hpassed
      · exact absurd hroom (Nat.succ_ne_zero less).symm
  | succ room ih =>
      rcases mem_walk_cases h with rfl | ⟨less, next, left, hroom, hout, hpath⟩
      · exact List.nodup_reverse.mpr hpassed
      · cases hroom
        exact ih (List.nodup_cons.mpr ⟨hout, hpassed⟩) hpath

theorem nodup_of_mem_simplePaths {g : Graph} {start goal : Name} {search : PathSearch}
    {path : List Name} (h : path ∈ g.simplePaths start goal search) : path.Nodup := by
  unfold simplePaths at h
  split at h
  · exact nodup_of_mem_walk (List.nodup_singleton start) h
  · cases h

lemma mem_steps_iff {path : List Name} {a b : Name} : (a, b) ∈ steps path ↔ [a, b] <:+: path := by
  unfold steps
  induction path with
  | nil => simp
  | cons first rest ih =>
      rw [List.infix_cons_iff, ← ih]
      cases rest <;> simp

lemma hasEdge_iff {g : Graph} {parent child : Name} :
    g.hasEdge parent child = true ↔ g.Edge parent child := List.contains_iff_mem

/-! ## Colliders and directed paths -/

/-- Both neighbours of the node on the path are its parents. -/
def Collider (g : Graph) (path : List Name) (node : Name) : Prop :=
  ∃ a b, [a, node, b] <:+: path ∧ g.Edge a node ∧ g.Edge b node

/-- All edges of the path lead from its first to its last node, or all of them back. -/
def Directed (g : Graph) (path : List Name) : Prop :=
  path.IsChain g.Edge ∨ path.IsChain (Function.swap g.Edge)

/-- Whether a node is a collider shows at any place where it occurs. -/
lemma collider_iff_of_place {g : Graph} {path : List Name} (hpath : path.Nodup) {node a b : Name}
    (h : [a, node, b] <:+: path) : g.Collider path node ↔ g.Edge a node ∧ g.Edge b node := by
  refine ⟨?_, fun hedges => ⟨a, b, h, hedges⟩⟩
  rintro ⟨a', b', h', hedges⟩
  obtain ⟨rfl, rfl⟩ := neighbours_unique hpath h h'
  exact hedges

lemma isChain_iff_steps {R : Name → Name → Prop} {path : List Name} :
    path.IsChain R ↔ ∀ a b, [a, b] <:+: path → R a b := by
  rw [List.isChain_iff_forall_rel_of_append_cons_cons]
  constructor
  · rintro h a b ⟨front, back, rfl⟩
    exact h (List.append_assoc front [a, b] back)
  · rintro h a b front back rfl
    exact h a b ⟨front, back, by simp⟩

/-- Edges that all point the same way never meet. -/
lemma Directed.not_collider {g : Graph} (hg : g.Acyclic) {path : List Name}
    (h : g.Directed path) (node : Name) : ¬ g.Collider path node := by
  rintro ⟨a, b, ⟨front, back, rfl⟩, hleft, hright⟩
  have hin : [a, node] <:+: front ++ [a, node, b] ++ back := ⟨front, b :: back, by simp⟩
  have hout : [node, b] <:+: front ++ [a, node, b] ++ back := ⟨front ++ [a], back, by simp⟩
  rcases h with hforward | hbackward
  · exact hg node (.tail (.single (isChain_iff_steps.mp hforward node b hout)) hright)
  · exact hg node (.tail (.single (isChain_iff_steps.mp hbackward a node hin)) hleft)

lemma isDirectedPath_iff {g : Graph} {path : List Name} :
    g.isDirectedPath path = true ↔ 2 ≤ path.length ∧ g.Directed path := by
  simp only [isDirectedPath, Directed, isChain_iff_steps, Function.swap, Bool.and_eq_true,
    Bool.or_eq_true, List.all_eq_true, Prod.forall, mem_steps_iff, hasEdge_iff, decide_eq_true_eq]

/-! ## Open paths -/

/-- What a path needs to transmit association: every collider is in the set or has a descendant
there, and no other interior node is in it. -/
structure Transmits (g : Graph) (C : Set Name) (path : List Name) : Prop where
  colliders : ∀ node, g.Collider path node → node ∈ C ∨ ∃ d ∈ C, TransGen g.Edge node d
  others : ∀ node, Interior path node → ¬ g.Collider path node → node ∉ C

/-- Without controls only the colliders block. -/
lemma transmits_empty_iff {g : Graph} {path : List Name} :
    g.Transmits ∅ path ↔ ∀ node, ¬ g.Collider path node := by
  refine ⟨fun h node hcollider => ?_, fun h => ⟨fun node hcollider => ?_, by simp⟩⟩
  · simpa using h.colliders node hcollider
  · exact absurd hcollider (h node)

variable {parents descendants : Graph} {controls path : List Name}

/-- A path is open if every node inside it lets association pass. -/
lemma isOpen_iff_passes : isOpen parents descendants controls path = true ↔
    ∀ a node b, [a, node, b] <:+: path → passes parents descendants controls a node b = true := by
  induction path using isOpen.induct with
  | case1 previous node next rest ih =>
      rw [isOpen, Bool.and_eq_true, ih]
      simp only [place_cons_iff, or_imp, forall_and]
      refine and_congr_left fun _ => ⟨?_, fun h => h _ _ _ ⟨rfl, rfl, rfl⟩⟩
      rintro h _ _ _ ⟨rfl, rfl, rfl⟩
      exact h
  | case2 path hshort =>
      refine iff_of_true ?_ fun a node b hplace => ?_
      · rw [isOpen]
        exact hshort
      · match path, three_le_length hplace with
        | x :: y :: z :: rest, _ => exact absurd rfl (hshort x y z rest)

lemma passes_iff (hdescendants : ∀ node d, d ∈ descendants.neighbours node ↔
      TransGen parents.Edge node d) {a node b : Name} :
    passes parents descendants controls a node b = true ↔
      if parents.Edge a node ∧ parents.Edge b node then
        node ∈ controls ∨ ∃ d ∈ controls, TransGen parents.Edge node d
      else node ∉ controls := by
  simp only [passes, Bool.and_eq_true, hasEdge_iff]
  split
  · simp only [Bool.or_eq_true, List.any_eq_true, List.contains_iff_mem, hdescendants, and_comm]
  · simp

/-- **Open paths.** What is tested place by place is what the interior nodes have to fulfil. -/
theorem isOpen_iff (hdescendants : ∀ node d, d ∈ descendants.neighbours node ↔
      TransGen parents.Edge node d) (hpath : path.Nodup) :
    isOpen parents descendants controls path = true ↔
      parents.Transmits {c | c ∈ controls} path := by
  rw [isOpen_iff_passes]
  constructor
  · intro h
    refine ⟨?_, ?_⟩
    · rintro node ⟨a, b, hplace, hedges⟩
      have hpasses := h a node b hplace
      rw [passes_iff hdescendants, if_pos hedges] at hpasses
      exact hpasses
    · rintro node ⟨a, b, hplace⟩ hplain
      rw [collider_iff_of_place hpath hplace] at hplain
      have hpasses := h a node b hplace
      rw [passes_iff hdescendants, if_neg hplain] at hpasses
      exact hpasses
  · intro h a node b hplace
    rw [passes_iff hdescendants]
    split
    · rename_i hedges
      exact h.colliders node ⟨a, b, hplace, hedges⟩
    · rename_i hplain
      exact h.others node ⟨a, b, hplace⟩ fun hcollider =>
        hplain ((collider_iff_of_place hpath hplace).mp hcollider)

end Graph

end CausalEquations
