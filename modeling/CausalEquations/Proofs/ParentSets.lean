import CausalEquations.Proofs.CountedOrder
import CausalEquations.Proofs.ModelGraphs
import CausalEquations.Proofs.Skeleton

/-!
# Parents as sets

The order of a graph depends on its entries and on which parents they list, not on how a parent list
is arranged: neither if a parent is repeated, nor if the books that are kept while parents are
finished are filled by going through the parents in another order. The one condition is that every
parent has an entry of its own, as otherwise the lists also determine where such a parent stands.

* `Graph.isClosed_ofModel` — in the graph of a model, every parent has one.
* `Graph.SameParents` — the same entries with the same sets of parents.
* `Graph.order_congr` — two such graphs have the same order, or both have a cycle.
* `Graph.recordedOrder` — the order found with books, which are filled by going through the sets of
  parents in any order.
* `Graph.recordedOrder_eq` — that order does not matter.
* `Graph.order_of_parentSets` — both together.
-/

namespace CausalEquations

namespace Graph

variable {g g' : Graph}

/-! ## Graphs with the same sets of parents -/

/-- The entries are about the same nodes, in the same order, and list the same sets of parents. -/
structure SameParents (g g' : Graph) : Prop where
  keys_eq : g.keys = g'.keys
  edge_iff : ∀ parent child, g.Edge parent child ↔ g'.Edge parent child

lemma isClosed_iff : g.isClosed = true ↔ ∀ parent child, g.Edge parent child → parent ∈ g.keys := by
  simp only [isClosed, List.all_eq_true, Table.contains_iff_mem_keys]
  constructor
  · exact fun h parent child hedge => h _ (mem_entries_of_edge hedge) parent hedge
  · intro h e he parent hparent
    refine h parent e.1 ?_
    rwa [Edge, neighbours_of_mem_entries he]

/-- If every parent has an entry, then the nodes are those with an entry. -/
lemma nodes_of_isClosed (h : g.isClosed = true) : g.nodes = g.keys := by
  refine eraseDups_append_of_subset g.nodup fun parent hparent => ?_
  obtain ⟨e, he, hmem⟩ := List.mem_flatMap.mp hparent
  refine isClosed_iff.mp h parent e.1 ?_
  rwa [Edge, neighbours_of_mem_entries he]

/-- In the graph of a model that was read, every parent has an entry. -/
lemma isClosed_ofModel {α : Type} [Scalar α] {text : String} {model : Model α}
    (hmodel : Model.ofText text = .ok model) : (ofModel model).isClosed = true := by
  refine isClosed_iff.mpr fun parent child hedge => ?_
  rw [ofModel, Table.keys_map]
  exact (mem_nodes_ofModel_iff hmodel parent).mp (parent_mem_nodes hedge)

/-- The children that a node frees, chosen among the nodes with an entry. -/
lemma freed_eq_filter (finished : List Name) (node : Name) :
    g.freed finished node = g.keys.filter fun child => decide (g.Edge node child ∧
      ∀ parent ∈ g.neighbours child, parent = node ∨ parent ∈ finished) := by
  rw [freed, Table.keys, List.filter_map]
  refine congrArg _ (List.filter_congr fun e he => ?_)
  rw [Function.comp_apply, neighbours_of_mem_entries he, Bool.eq_iff_iff]
  simp [Edge, neighbours_of_mem_entries he]

/-- The children of a node, chosen in the same way. -/
lemma childrenOf_eq_filter (node : Name) :
    g.childrenOf node = g.keys.filter fun child => decide (g.Edge node child) := by
  rw [childrenOf, Table.keys, List.filter_map]
  refine congrArg _ (List.filter_congr fun e he => ?_)
  rw [Bool.eq_iff_iff]
  simp [Edge, neighbours_of_mem_entries he]

/-- Parent lists may be rearranged, and parents in them repeated. -/
lemma sameParents_map (g : Graph) {arrange : Name → List Name → List Name}
    (h : ∀ node parents parent, parent ∈ arrange node parents ↔ parent ∈ parents) :
    g.SameParents (g.map arrange) where
  keys_eq := (g.keys_map arrange).symm
  edge_iff parent child := by
    rw [Edge, Edge, neighbours, neighbours, Table.getD, Table.getD, Table.get?_map]
    cases g.get? child with
    | none => rfl
    | some parents => exact (h child parents parent).symm

namespace SameParents

lemma isClosed (h : g.SameParents g') (hclosed : g.isClosed = true) : g'.isClosed = true := by
  rw [isClosed_iff] at hclosed ⊢
  intro parent child hedge
  rw [← h.keys_eq]
  exact hclosed parent child ((h.edge_iff parent child).mpr hedge)

lemma freed_eq (h : g.SameParents g') (finished : List Name) (node : Name) :
    g.freed finished node = g'.freed finished node := by
  rw [freed_eq_filter, freed_eq_filter, h.keys_eq]
  refine List.filter_congr fun child _ => decide_eq_decide.mpr ?_
  exact and_congr (h.edge_iff node child) (forall_congr' fun parent =>
    imp_congr_left (h.edge_iff parent child))

/-- The queue is the same at every moment. -/
lemma drain_eq (h : g.SameParents g') (fuel : ℕ) (finished queue : List Name) :
    g.drain fuel finished queue = g'.drain fuel finished queue := by
  induction fuel generalizing finished queue with
  | zero => rfl
  | succ fuel ih =>
      cases queue with
      | nil => rfl
      | cons node queue => rw [drain, drain, h.freed_eq, ih]

lemma isEmpty_neighbours (h : g.SameParents g') (node : Name) :
    (g.neighbours node).isEmpty = (g'.neighbours node).isEmpty := by
  rw [Bool.eq_iff_iff, List.isEmpty_iff, List.isEmpty_iff, List.eq_nil_iff_forall_not_mem,
    List.eq_nil_iff_forall_not_mem]
  exact forall_congr' fun parent => not_congr (h.edge_iff parent node)

end SameParents

/-- **The order depends on the entries and on the sets of parents.** -/
theorem order_congr (hclosed : g.isClosed = true) (h : g.SameParents g') :
    g.order = g'.order := by
  have hnodes : g.nodes = g'.nodes := by
    rw [nodes_of_isClosed hclosed, nodes_of_isClosed (h.isClosed hclosed), h.keys_eq]
  have hsources : g.sources = g'.sources := by
    rw [sources, sources, hnodes]
    exact List.filter_congr fun node _ => h.isEmpty_neighbours node
  rw [order, order, hnodes, hsources, h.drain_eq]

/-! ## Books -/

/-- How many parents every node misses, and the children of every node. -/
structure Books where
  missing : Table ℕ
  children : Table (List Name)

/-- One more parent of a child. -/
def Books.record (child : Name) (books : Books) (parent : Name) : Books :=
  ⟨books.missing.insert child (books.missing.getD child 0 + 1),
    books.children.insert parent (books.children.getD parent [] ++ [child])⟩

/-- The books of a graph, filled entry by entry; `listing` says in which order the set of parents of
an entry is gone through. -/
def books (g : Graph) (listing : Name → List Name) : Books :=
  g.keys.foldl (fun books child => (listing child).foldl (Books.record child) books)
    ⟨Table.empty, Table.empty⟩

/-- Takes nodes from the front of the queue and counts down the children in the books. At most
`fuel` nodes are taken. -/
def drainRecorded (children : Table (List Name)) :
    (fuel : ℕ) → (missing : Table ℕ) → (finished queue : List Name) → List Name
  | 0, _, finished, _ => finished
  | _ + 1, _, finished, [] => finished
  | fuel + 1, missing, finished, node :: queue =>
    let state := (children.getD node []).foldl countDown (missing, queue)
    drainRecorded children fuel state.1 (finished ++ [node]) state.2

/-- The order that is found with the books. -/
def recordedOrder (g : Graph) (listing : Name → List Name) : Except CycleError (List Name) :=
  let books := g.books listing
  let ready := g.nodes.filter fun node => books.missing.getD node 0 == 0
  let finished := drainRecorded books.children g.nodes.length books.missing [] ready
  if finished.length = g.nodes.length then .ok finished else .error {}

/-- The listing goes through the parents of every node, each once. -/
structure ListsParents (g : Graph) (listing : Name → List Name) : Prop where
  nodup : ∀ child, (listing child).Nodup
  mem_iff : ∀ parent child, parent ∈ listing child ↔ g.Edge parent child

/-! ## What the books say -/

/-- Recording the parents of a child raises its counter by their number. -/
lemma missing_foldl_record (child : Name) (parents : List Name) (books : Books) (node : Name) :
    (parents.foldl (Books.record child) books).missing.getD node 0 =
      books.missing.getD node 0 + if node = child then parents.length else 0 := by
  induction parents generalizing books with
  | nil => simp
  | cons parent rest ih =>
      rw [List.foldl_cons, ih, Books.record, Table.getD_insert, List.length_cons]
      by_cases hnode : child = node
      · subst hnode
        simp only [if_true]
        omega
      · simp [hnode, Ne.symm hnode]

/-- Recording the parents of a child adds it to the children of each of them. -/
lemma children_foldl_record {parents : List Name} (hparents : parents.Nodup) (child : Name)
    (books : Books) (node : Name) :
    (parents.foldl (Books.record child) books).children.getD node [] =
      books.children.getD node [] ++ if node ∈ parents then [child] else [] := by
  induction parents generalizing books with
  | nil => simp
  | cons parent rest ih =>
      obtain ⟨hnew, hrest⟩ := List.nodup_cons.mp hparents
      rw [List.foldl_cons, ih hrest, Books.record, Table.getD_insert]
      by_cases hnode : parent = node
      · subst hnode
        simp [hnew]
      · simp [hnode, Ne.symm hnode]

namespace ListsParents

variable {listing : Name → List Name}

/-- Every entry contributes once, in whatever order its parents are gone through. -/
lemma foldl_record (h : g.ListsParents listing) {entries : List Name} (hentries : entries.Nodup)
    (books : Books) (node : Name) :
    (entries.foldl (fun books child => (listing child).foldl (Books.record child) books)
        books).missing.getD node 0 =
      books.missing.getD node 0 + (if node ∈ entries then (listing node).length else 0) ∧
    (entries.foldl (fun books child => (listing child).foldl (Books.record child) books)
        books).children.getD node [] =
      books.children.getD node [] ++ entries.filter fun child => decide (g.Edge node child) := by
  induction entries generalizing books with
  | nil => simp
  | cons child rest ih =>
      obtain ⟨hnew, hrest⟩ := List.nodup_cons.mp hentries
      obtain ⟨hmissing, hchildren⟩ := ih hrest ((listing child).foldl (Books.record child) books)
      rw [List.foldl_cons]
      constructor
      · rw [hmissing, missing_foldl_record]
        by_cases hnode : node = child
        · subst hnode
          simp [hnew]
        · simp [hnode]
      · rw [hchildren, children_foldl_record (h.nodup child), List.filter_cons]
        by_cases hedge : g.Edge node child
        · simp [(h.mem_iff node child).mpr hedge, hedge]
        · simp [mt (h.mem_iff node child).mp hedge, hedge]

/-- The counters are the numbers of different parents. -/
lemma countsMissing (h : g.ListsParents listing) :
    g.CountsMissing [] (g.books listing).missing := by
  intro node
  have hkeys : g.keys.Nodup := g.nodup
  have hsame : (g.missingParents [] node).Perm (listing node) := by
    refine (List.perm_ext_iff_of_nodup (nodup_missingParents [] node) (h.nodup node)).mpr ?_
    intro parent
    simp [mem_missingParents, h.mem_iff]
  rw [books, (h.foldl_record hkeys _ node).1, hsame.length_eq]
  split
  · exact Nat.zero_add _
  · rename_i hnode
    have hnone : listing node = [] := List.eq_nil_iff_forall_not_mem.mpr fun parent hparent =>
      hnode (List.mem_map.mpr ⟨_, mem_entries_of_edge ((h.mem_iff _ _).mp hparent), rfl⟩)
    rw [hnone]
    rfl

/-- The children in the books stand in the order of their entries. -/
lemma children_eq (h : g.ListsParents listing) (node : Name) :
    (g.books listing).children.getD node [] = g.childrenOf node := by
  have hkeys : g.keys.Nodup := g.nodup
  rw [books, (h.foldl_record hkeys _ node).2, childrenOf_eq_filter]
  exact List.nil_append _

end ListsParents

/-- With the right children in the books, counting down is the same. -/
lemma drainRecorded_eq {children : Table (List Name)}
    (h : ∀ node, children.getD node [] = g.childrenOf node) (fuel : ℕ) (missing : Table ℕ)
    (finished queue : List Name) :
    drainRecorded children fuel missing finished queue =
      g.drainCounted fuel missing finished queue := by
  induction fuel generalizing missing finished queue with
  | zero => rfl
  | succ fuel ih =>
      cases queue with
      | nil => rfl
      | cons node queue => rw [drainRecorded, drainCounted, h, ih]

/-- **In which order the parents are gone through does not matter.** -/
theorem recordedOrder_eq {listing : Name → List Name} (h : g.ListsParents listing) :
    g.recordedOrder listing = g.order := by
  rw [recordedOrder, order, h.countsMissing.filter_nodes, drainRecorded_eq h.children_eq,
    drainCounted_eq _ (drainState_sources g) h.countsMissing]

/-- **The order depends on the order of the entries and on the sets of parents only**, if every
parent has an entry of its own. Graphs with the same entries and the same sets of parents have the
same order, or both have a cycle; and so it is found, whichever way the sets are gone through. -/
theorem order_of_parentSets (hclosed : g.isClosed = true) (h : g.SameParents g') :
    g'.order = g.order ∧ ∀ listing, g.ListsParents listing →
      g.recordedOrder listing = g.order ∧ g'.recordedOrder listing = g.order := by
  have hsame : g'.order = g.order := (order_congr hclosed h).symm
  refine ⟨hsame, fun listing hlisting => ⟨recordedOrder_eq hlisting, ?_⟩⟩
  have hlisting' : g'.ListsParents listing :=
    ⟨hlisting.nodup, fun parent child => (hlisting.mem_iff parent child).trans (h.edge_iff _ _)⟩
  rw [recordedOrder_eq hlisting', hsame]

/-- Repeating the parents in the opposite order, and going through them in that order, changes
nothing. -/
theorem order_of_parentSets_rearranged :
    let g : Graph := Table.ofList [("D", ["C", "B"]), ("C", ["A"]), ("B", ["A"]), ("A", [])]
    let g' : Graph := g.map fun _ parents => parents.reverse ++ parents
    let listing := fun child => (g.neighbours child).reverse
    (g.isClosed = true ∧ g.SameParents g' ∧ g.ListsParents listing) ∧
      g.order = .ok ["A", "C", "B", "D"] ∧ g'.order = .ok ["A", "C", "B", "D"] ∧
      g'.recordedOrder listing = .ok ["A", "C", "B", "D"] := by
  intro g g' listing
  have hclosed : g.isClosed = true := by decide
  have hsame : g.SameParents g' := sameParents_map g fun _ _ _ => by simp
  have hlisting : g.ListsParents listing :=
    ⟨fun child => List.nodup_reverse.mpr (listsOnce_of_entries (by decide) child),
      fun _ _ => List.mem_reverse⟩
  have horder : g.order = .ok ["A", "C", "B", "D"] := by decide
  obtain ⟨horder', hrecorded⟩ := order_of_parentSets hclosed hsame
  exact ⟨⟨hclosed, hsame, hlisting⟩, horder, horder'.trans horder,
    (hrecorded listing hlisting).2.trans horder⟩

/-- A parent without an entry stands where the lists first mention it. -/
example : order (Table.ofList [("A", ["x", "y"])]) = .ok ["x", "y", "A"] ∧
    order (Table.ofList [("A", ["y", "x"])]) = .ok ["y", "x", "A"] := by
  decide

end Graph

end CausalEquations
