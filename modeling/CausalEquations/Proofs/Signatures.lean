import CausalEquations.Graph.Signature
import CausalEquations.Proofs.EscapedText
import CausalEquations.Proofs.NameOrder
import CausalEquations.Proofs.Skeleton
import CausalEquations.Proofs.Tables
import CausalEquations.Proofs.WrittenForms

/-!
# What a signature tells

The signature of a graph tells which nodes it has and which neighbours they have, and nothing else.
Sorting makes it independent of the order of entries and neighbours; and although names may hold
marks, brackets and commas, nested lists of escaped names can be read in one way only.

* `SelfDelimiting.list` — a list of self-delimiting elements shows where it ends.
* `Graph.sortedEntries` — what is written in the signature.
* `Graph.signature_eq_iff_sortedEntries` — the signature shows all of it.
* `Graph.sortedEntries_eq_iff` — which graphs have the same sorted entries.
* `Graph.signature_eq_iff` — graphs with the same signature have the same nodes and neighbours.
-/

namespace CausalEquations

variable {α : Type}

/-! ## Lists -/

lemma toList_listText_cons (element : String) (rest : List String) :
    (listText (element :: rest)).toList =
      '[' :: (element.toList ++ ((rest.flatMap fun x => ',' :: x.toList) ++ [']'])) := by
  have hmarks : "[".toList = ['['] ∧ ",".toList = [','] ∧ "]".toList = [']'] := ⟨rfl, rfl, rfl⟩
  rw [listText, String.toList_append, String.toList_append, String.toList_intercalate,
    List.map_cons, hmarks.1, hmarks.2.1, hmarks.2.2, intercalate_cons, List.flatMap_map]
  simp

/-- A bracket that begins no element shows where a list ends. -/
lemma SelfDelimiting.list {code : α → String} (h : SelfDelimiting fun a => (code a).toList)
    (hopen : BeginsOtherwise ']' fun a => (code a).toList) :
    SelfDelimiting fun as : List α => (listText (as.map code)).toList := by
  have htail : SelfDelimiting fun as : List α =>
      (as.flatMap fun a => ',' :: (code a).toList) ++ [']'] :=
    (h.cons ',').closed fun a => ⟨_, _, rfl, by decide⟩
  have hnil : (listText []).toList = ['[', ']'] := rfl
  intro as bs rest rest' heq
  cases as with
  | nil =>
      cases bs with
      | nil => exact ⟨rfl, by simpa [hnil] using heq⟩
      | cons b bs =>
          obtain ⟨first, tail, hfirst, hne⟩ := hopen b
          simp only at hfirst
          simp [hnil, toList_listText_cons, hfirst] at heq
          exact absurd heq.1.symm hne
  | cons a as =>
      cases bs with
      | nil =>
          obtain ⟨first, tail, hfirst, hne⟩ := hopen a
          simp only at hfirst
          simp [hnil, toList_listText_cons, hfirst] at heq
          exact absurd heq.1 hne
      | cons b bs =>
          simp only [List.map_cons, toList_listText_cons, List.flatMap_map, List.cons_append,
            List.cons.injEq, true_and, List.append_assoc] at heq
          obtain ⟨rfl, hrest⟩ := h a b _ _ heq
          obtain ⟨rfl, hrest'⟩ := htail as bs rest rest' (by simpa using hrest)
          exact ⟨rfl, hrest'⟩

/-- What is written for a node and a listing of its neighbours. -/
def listingText (entry : Name × List Name) : String :=
  listText [escaped entry.1, listText (entry.2.map escaped)]

/-- An entry shows where it ends, which node it is about and what is listed. -/
lemma selfDelimiting_listingText : SelfDelimiting fun entry => (listingText entry).toList := by
  have hnames : SelfDelimiting fun names : List Name => (listText (names.map escaped)).toList :=
    selfDelimiting_escaped.list fun name => ⟨_, _, toList_escaped name, by decide⟩
  have hpair := selfDelimiting_escaped.append (hnames.cons ',')
  intro entry entry' rest rest' heq
  have htext : ∀ e : Name × List Name, (listingText e).toList =
      '[' :: ((escaped e.1).toList ++ ',' :: (listText (e.2.map escaped)).toList ++ [']']) := by
    intro e
    simp [listingText, toList_listText_cons]
  simp only [htext, List.cons_append, List.cons.injEq, true_and] at heq
  obtain ⟨rfl, hrest⟩ := hpair entry entry' ([']'] ++ rest) ([']'] ++ rest')
    (by simpa only [List.append_assoc] using heq)
  exact ⟨rfl, List.append_cancel_left hrest⟩

namespace Graph

variable {g h : Graph}

/-! ## What is written -/

/-- The entries sorted by node, each with its neighbours sorted. -/
def sortedEntries (g : Graph) : List (Name × List Name) :=
  (g.entries.mergeSort fun a b => Name.le a.1 b.1).map fun e => (e.1, sortedNames e.2)

lemma signature_eq (g : Graph) : g.signature = listText (g.sortedEntries.map listingText) := by
  rw [signature, sortedEntries, List.map_map]
  rfl

/-- **The signature can be read in one way only.** -/
theorem signature_eq_iff_sortedEntries :
    g.signature = h.signature ↔ g.sortedEntries = h.sortedEntries := by
  constructor
  · intro hsame
    have hcode := selfDelimiting_listingText.list fun entry =>
      ⟨'[', _, toList_listText_cons _ _, by decide⟩
    rw [signature_eq, signature_eq] at hsame
    exact hcode.injective (congrArg String.toList hsame)
  · intro hsame
    rw [signature_eq, signature_eq, hsame]

/-- Sorting the entries keeps the neighbours that are found under a name. -/
lemma sortedEntries_perm (g : Graph) :
    g.sortedEntries.Perm (g.map fun _ names => sortedNames names).entries :=
  (List.mergeSort_perm g.entries _).map _

lemma mem_sortedEntries {node : Name} {names : List Name} :
    (node, names) ∈ g.sortedEntries ↔ (g.get? node).map sortedNames = some names := by
  rw [(sortedEntries_perm g).mem_iff, ← Table.get?_eq_some_iff, Table.get?_map]

lemma pairwise_sortedEntries (g : Graph) :
    g.sortedEntries.Pairwise fun a b => Name.le a.1 b.1 = true := by
  have htrans : ∀ a b c : Name × List Name,
      Name.le a.1 b.1 = true → Name.le b.1 c.1 = true → Name.le a.1 c.1 = true :=
    fun a b c => Name.le_trans a.1 b.1 c.1
  have htotal : ∀ e e' : Name × List Name, (Name.le e.1 e'.1 || Name.le e'.1 e.1) = true :=
    fun e e' => Name.le_total e.1 e'.1
  exact (List.pairwise_mergeSort htrans htotal g.entries).map _ fun _ _ hle => hle

/-- Sorted entries are the same if the same sorted neighbours are found under every name. -/
theorem sortedEntries_eq_iff : g.sortedEntries = h.sortedEntries ↔
    ∀ node, (g.get? node).map sortedNames = (h.get? node).map sortedNames := by
  constructor
  · intro hsame node
    refine Option.ext fun names => ?_
    rw [← mem_sortedEntries, hsame, mem_sortedEntries]
  · intro hsame
    have hperm : g.sortedEntries.Perm h.sortedEntries := by
      refine (sortedEntries_perm g).trans (.trans (Table.entries_perm fun node => ?_)
        (sortedEntries_perm h).symm)
      rw [Table.get?_map, Table.get?_map, hsame]
    refine hperm.eq_of_pairwise (fun e e' he he' hle hge => ?_) (pairwise_sortedEntries g)
      (pairwise_sortedEntries h)
    -- Entries under the same name hold the same list.
    have hname : e.1 = e'.1 := Name.le_antisymm hle hge
    have hfound := mem_sortedEntries.mp he
    have hfound' := mem_sortedEntries.mp he'
    rw [hsame, hname, hfound', Option.some_inj] at hfound
    exact Prod.ext hname hfound.symm

lemma sortedNames_neighbours (g : Graph) (node : Name) :
    sortedNames (g.neighbours node) = ((g.get? node).map sortedNames).getD [] := by
  rw [neighbours, Table.getD]
  cases g.get? node <;> simp [sortedNames]

lemma map_sortedNames_get? {node : Name} (hnode : node ∈ g.keys) :
    (g.get? node).map sortedNames = some (sortedNames (g.neighbours node)) := by
  obtain ⟨names, hnames⟩ := Table.mem_keys_iff.mp hnode
  rw [sortedNames_neighbours, hnames]
  rfl

/-- **A signature tells the nodes of a graph and the neighbours of each node**, and nothing else, if
the neighbours are given as sets. -/
theorem signature_eq_iff (hg : g.ListsOnce) (hh : h.ListsOnce) :
    g.signature = h.signature ↔ (∀ node, node ∈ g.keys ↔ node ∈ h.keys) ∧
      ∀ node neighbour, neighbour ∈ g.neighbours node ↔ neighbour ∈ h.neighbours node := by
  rw [signature_eq_iff_sortedEntries, sortedEntries_eq_iff]
  constructor
  · intro hsame
    refine ⟨fun node => ?_, fun node neighbour => ?_⟩
    · rw [← Table.contains_iff_mem_keys, ← Table.contains_iff_mem_keys, Table.contains_eq_isSome,
        Table.contains_eq_isSome, ← Option.isSome_map (f := sortedNames), hsame, Option.isSome_map]
    · rw [← mem_sortedNames, sortedNames_neighbours, hsame, ← sortedNames_neighbours,
        mem_sortedNames]
  · rintro ⟨hkeys, hneighbours⟩ node
    by_cases hnode : node ∈ g.keys
    · rw [map_sortedNames_get? hnode, map_sortedNames_get? ((hkeys node).mp hnode)]
      exact congrArg some (sortedNames_congr (hg node) (hh node) (hneighbours node))
    · have hnode' : node ∉ h.keys := fun hmem => hnode ((hkeys node).mpr hmem)
      rw [Table.get?_eq_none_iff.mpr hnode, Table.get?_eq_none_iff.mpr hnode']

/-- The order of entries and parents does not show; a parent whose name looks like the names of two
does, and so does one that is spelled like an escape. -/
theorem signature_eq_iff_lookalikes :
    let pair : Graph := Table.ofList [("M", ["y", "x"]), ("x", []), ("😀", ["M"])]
    let same : Graph := Table.ofList [("😀", ["M"]), ("M", ["x", "y"]), ("x", [])]
    let joined : Graph := Table.ofList [("M", ["x\",\"y"]), ("x", []), ("😀", ["M"])]
    let spelled : Graph := Table.ofList [("M", ["y", "x"]), ("x", []), ("\\ud83d\\ude00", ["M"])]
    (pair.ListsOnce ∧ same.ListsOnce ∧ joined.ListsOnce ∧ spelled.ListsOnce) ∧
      pair.signature = same.signature ∧ pair.signature ≠ joined.signature ∧
      pair.signature ≠ spelled.signature := by
  intro pair same joined spelled
  have hpair : pair.ListsOnce := listsOnce_of_entries (by decide)
  have hsame : same.ListsOnce := listsOnce_of_entries (by decide)
  have hjoined : joined.ListsOnce := listsOnce_of_entries (by decide)
  have hspelled : spelled.ListsOnce := listsOnce_of_entries (by decide)
  refine ⟨⟨hpair, hsame, hjoined, hspelled⟩, ?_, fun heq => ?_, fun heq => ?_⟩
  · have hkeys : pair.keys.Perm same.keys := by decide
    refine (signature_eq_iff hpair hsame).mpr ⟨fun _ => hkeys.mem_iff, fun node neighbour => ?_⟩
    simp only [pair, same, Table.ofList, List.foldl_cons, List.foldl_nil, neighbours, Table.getD,
      Table.get?_insert, Table.get?_empty]
    split_ifs <;> subst_vars <;> simp_all [or_comm]
  · exact absurd (((signature_eq_iff hpair hjoined).mp heq).2 "M" "x") (by decide)
  · exact absurd (((signature_eq_iff hpair hspelled).mp heq).1 "😀") (by decide)

end Graph

end CausalEquations
