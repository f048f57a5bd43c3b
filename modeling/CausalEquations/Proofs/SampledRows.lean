import CausalEquations.Proofs.Batches

/-!
# What a sampled row is

Rows are drawn in one pass over batches, through a graph with noise nodes. Each row is what
computing the values of the original graph gives, with the draws of that row as values or as noise.

* `SamplingPlan.drawnRoots`, `SamplingPlan.drawnNoise` — what is drawn, in the order of the draws.
* `SamplingPlan.rowSeeds`, `SamplingPlan.rowSetting` — the values and the noise of one row.
* `Interval.IsClipped`, `IsShown` — what is shown of a value.
* `sampleModel_eq_ok` — a sample taken apart.
* `sampleModel_rows` — the rows of a sample.
-/

namespace CausalEquations

variable {α : Type} [Scalar α]

/-! ## The draws of a row -/

/-- The range of a variable: the one that is listed, and else from `-100` to `100`. -/
def rangeOf (ranges : Table (Interval α)) (v : Name) : Interval α :=
  (ranges.get? v).getD ⟨-(Scalar.ofNat 100), Scalar.ofNat 100⟩

namespace SamplingPlan

/-- Noise is enabled, and there is a positive amount of it. -/
def Noisy (plan : SamplingPlan α) : Prop :=
  plan.noiseEnabled = true ∧ Scalar.lt Scalar.zero plan.noiseAmount = true

instance (plan : SamplingPlan α) : Decidable plan.Noisy :=
  inferInstanceAs (Decidable (_ ∧ _))

/-- The variables that are drawn from their ranges, in the order of the entries: those without
parents that are not intervened on, if there is no noise. -/
def drawnRoots (plan : SamplingPlan α) (graph : Graph) (interventions : Table Bool) : List Name :=
  if plan.Noisy then []
  else graph.keys.filter fun v => (graph.neighbours v).isEmpty && !interventions.getD v false

/-- The noise nodes that are drawn, in order: one for each variable, if there is noise. -/
def drawnNoise (plan : SamplingPlan α) (graph : Graph) : List Name :=
  if plan.Noisy then (graph.keys.map fun v => "noise:" ++ v).insertionSort (· ≤ ·) else []

/-- The value that row `i` gives to a root: a uniform draw of its block, scaled to its range. -/
def rootDraw (plan : SamplingPlan α) (ranges : Table (Interval α)) (draws : Draws α) (root : Name)
    (block i : ℕ) : α :=
  let range := rangeOf ranges root
  range.low + draws.uniform (plan.count * block + i) * (range.high - range.low)

/-- The noise that row `i` injects into a variable: a normal draw of its block, in proportion to the
width of its range; none if that width is not finite. -/
def noiseDraw (plan : SamplingPlan α) (ranges : Table (Interval α)) (draws : Draws α) (v : Name)
    (block i : ℕ) : α :=
  let width := (rangeOf ranges v).high - (rangeOf ranges v).low
  draws.normal (plan.count * block + i) *
    if Scalar.isFinite width then Scalar.abs (plan.noiseAmount * width) else Scalar.zero

/-- The values with which row `i` starts: those given, and the draws of the roots. The blocks of
draws belong to the roots in their order. -/
def rowSeeds (plan : SamplingPlan α) (graph : Graph) (values : Table α) (interventions : Table Bool)
    (ranges : Table (Interval α)) (draws : Draws α) (i : ℕ) : Table α :=
  let roots := plan.drawnRoots graph interventions
  (roots.map fun v => (v, plan.rootDraw ranges draws v (roots.idxOf v) i)).foldl
    (fun t e => t.insert e.1 e.2) values

/-- What row `i` holds fixed: the variables that are intervened on or drawn, and the noise. The
blocks of draws belong to the noise nodes in their order. -/
def rowSetting (plan : SamplingPlan α) (graph : Graph) (interventions : Table Bool)
    (ranges : Table (Interval α)) (draws : Draws α) (i : ℕ) : Setting α where
  clamped := Table.ofList (graph.keys.map fun v =>
    (v, interventions.getD v false || (plan.drawnRoots graph interventions).contains v))
  noise :=
    if plan.Noisy then Table.ofList (graph.keys.map fun v =>
      ("noise:" ++ v,
        plan.noiseDraw ranges draws v ((plan.drawnNoise graph).idxOf ("noise:" ++ v)) i))
    else Table.empty

end SamplingPlan

/-! ## Clipping -/

namespace Interval

/-- Neither end of the range is undefined. -/
def HasEnds (range : Interval α) : Prop :=
  Scalar.isUndefined range.low = false ∧ Scalar.isUndefined range.high = false

/-- What becomes of a value of a variable with a range. A finite value beyond an end of the range is
moved to this end. If the ends are reversed the high one decides, and an end that is undefined takes
the place of any finite value. -/
structure IsClipped (range : Interval α) (x y : α) : Prop where
  notFinite : Scalar.isFinite x = false → y = x
  undefinedLow : Scalar.isFinite x = true → Scalar.isUndefined range.low = true → y = range.low
  undefinedHigh : Scalar.isFinite x = true → Scalar.isUndefined range.low = false →
    Scalar.isUndefined range.high = true → y = range.high
  inside : Scalar.isFinite x = true → range.HasEnds →
    Scalar.lt x range.low = false → Scalar.lt range.high x = false → y = x
  below : Scalar.isFinite x = true → range.HasEnds →
    Scalar.lt x range.low = true → Scalar.lt range.high range.low = false → y = range.low
  above : Scalar.isFinite x = true → range.HasEnds →
    Scalar.lt x range.low = false → Scalar.lt range.high x = true → y = range.high
  reversed : Scalar.isFinite x = true → range.HasEnds →
    Scalar.lt x range.low = true → Scalar.lt range.high range.low = true → y = range.high

/-- **Clipping is what the range says**, and nothing else. -/
lemma isClipped_iff {range : Interval α} {x y : α} : range.IsClipped x y ↔ y = range.clip x := by
  constructor
  · intro h
    unfold clip clamp
    cases hx : Scalar.isFinite x with
    | false => exact h.notFinite hx
    | true =>
        cases hlow : Scalar.isUndefined range.low with
        | true => exact h.undefinedLow hx hlow
        | false =>
            cases hhigh : Scalar.isUndefined range.high with
            | true => exact h.undefinedHigh hx hlow hhigh
            | false =>
                have hends : range.HasEnds := ⟨hlow, hhigh⟩
                cases hbelow : Scalar.lt x range.low with
                | false =>
                    cases habove : Scalar.lt range.high x with
                    | false => simpa [habove] using h.inside hx hends hbelow habove
                    | true => simpa [habove] using h.above hx hends hbelow habove
                | true =>
                    cases hreversed : Scalar.lt range.high range.low with
                    | false => simpa [hreversed] using h.below hx hends hbelow hreversed
                    | true => simpa [hreversed] using h.reversed hx hends hbelow hreversed
  · rintro rfl
    unfold clip clamp
    constructor
    case notFinite => exact fun hx => by simp [hx]
    case undefinedLow => exact fun hx hlow => by simp [hx, hlow]
    case undefinedHigh => exact fun hx hlow hhigh => by simp [hx, hlow, hhigh]
    case inside => exact fun hx ⟨hlow, hhigh⟩ hbelow habove => by simp [*]
    case below => exact fun hx ⟨hlow, hhigh⟩ hbelow hreversed => by simp [*]
    case above => exact fun hx ⟨hlow, hhigh⟩ hbelow habove => by simp [*]
    case reversed => exact fun hx ⟨hlow, hhigh⟩ hbelow hreversed => by simp [*]

/-- Over the rationals the value is raised to the low end and then lowered to the high end. -/
lemma isClipped_iff_rat {range : Interval ℚ} {x y : ℚ} :
    range.IsClipped x y ↔ y = min range.high (max range.low x) := by
  have hclip : range.clip x = min range.high (max range.low x) := by
    simp only [clip, clamp, Scalar.isFinite_rat, Scalar.isUndefined_rat, Scalar.lt_rat,
      decide_eq_true_eq, if_true, Bool.false_eq_true, if_false]
    rw [max_comm, max_def_lt, min_def_lt]
  rw [isClipped_iff, hclip]

end Interval

/-- What is shown of a value of a variable: the value itself, clipped if the variable has a range. -/
structure IsShown (ranges : Table (Interval α)) (v : Name) (x y : α) : Prop where
  unlisted : ranges.get? v = none → y = x
  listed : ∀ range, ranges.get? v = some range → range.IsClipped x y

/-! ## The draws of a batch -/

namespace SamplingPlan

/-- The values of a pass over batches: those given, zero elsewhere, and the draws of the roots. -/
def batchSeeds (plan : SamplingPlan α) (graph : Graph) (values : Table α)
    (interventions : Table Bool) (ranges : Table (Interval α)) (draws : Draws α)
    (order : List Name) : Table (Value α) :=
  ((numbered (plan.drawnRoots graph interventions)).map fun e =>
    (e.1, Value.batch (rootBlock plan.count ranges draws e.1 e.2))).foldl
      (fun t e => t.insert e.1 e.2) (seedBatches plan.count values order)

/-- What a pass over batches holds fixed. -/
def batchSetting (plan : SamplingPlan α) (graph : Graph) (members : List Name)
    (interventions : Table Bool) (ranges : Table (Interval α)) (draws : Draws α) :
    Setting (Value α) where
  clamped := (plan.drawnRoots graph interventions).foldl (fun t root => t.insert root true)
    (interventionsOn members interventions)
  noise := Table.ofList ((numbered (plan.drawnNoise graph)).map fun e =>
    (e.1, Value.batch (noiseBlock plan ranges draws e.1 e.2)))

end SamplingPlan

variable {plan : SamplingPlan α} {graph : Graph} {names : List Name} {values : Table α}
  {interventions : Table Bool} {ranges : Table (Interval α)} {draws : Draws α}

lemma getD_interventionsOn (members : List Name) (interventions : Table Bool) (v : Name) :
    (interventionsOn members interventions).getD v false =
      (decide (v ∈ members) && interventions.getD v false) := by
  rw [interventionsOn, Table.getD_ofList_map]
  split <;> simp [*]

/-- Holding some more names. -/
lemma getD_foldl_hold (roots : List Name) (t : Table Bool) (v : Name) :
    (roots.foldl (fun t root => t.insert root true) t).getD v false =
      (roots.contains v || t.getD v false) := by
  induction roots generalizing t with
  | nil => rfl
  | cons root rest ih =>
      rw [List.foldl_cons, ih, Table.getD, Table.get?_insert, List.contains_cons]
      by_cases hroot : root = v
      · simp [hroot]
      · have hbeq : (v == root) = false := beq_eq_false_iff_ne.mpr (Ne.symm hroot)
        rw [if_neg hroot, hbeq, Bool.false_or, Table.getD]

lemma mem_keys_of_mem_drawnRoots {v : Name} (h : v ∈ plan.drawnRoots graph interventions) :
    v ∈ graph.keys := by
  unfold SamplingPlan.drawnRoots at h
  split at h
  · cases h
  · exact (List.mem_filter.mp h).1

/-- The plain members of a noisy graph are the variables. -/
lemma mem_members_iff (hplain : ∀ node ∈ graph.nodes, Plain node)
    (hnames : ∀ v, v ∈ names ↔ v ∈ graph.keys) {v : Name} (hv : Plain v) :
    v ∈ (NoisyGraph.ofGraph graph names).members ↔ v ∈ graph.keys := by
  have hnoise := NoisyGraph.noiseNodes_ofGraph hplain fun v hv => (hnames v).mp hv
  have hmembers : (NoisyGraph.ofGraph graph names).members =
      (names.eraseDups ++ (NoisyGraph.ofGraph graph names).noiseNodes).eraseDups := rfl
  rw [hmembers, hnoise]
  simp only [List.mem_eraseDups, List.mem_append, hnames]
  refine or_iff_left ?_
  intro h
  obtain ⟨target, -, rfl⟩ := List.mem_map.mp h
  simp [Plain] at hv

lemma usesNoise_iff : plan.usesNoise = true ↔ plan.Noisy := by
  rw [SamplingPlan.usesNoise, SamplingPlan.Noisy, Bool.and_eq_true]

/-- The roots that are drawn are found in the noisy graph. -/
lemma roots_eq (hplain : ∀ node ∈ graph.nodes, Plain node)
    (hnames : ∀ v, v ∈ names ↔ v ∈ graph.keys) :
    (if plan.usesNoise then []
      else (rootNodes (NoisyGraph.ofGraph graph names).graph).filter fun root =>
        !(interventionsOn (NoisyGraph.ofGraph graph names).members interventions).getD root false) =
      plan.drawnRoots graph interventions := by
  rw [SamplingPlan.drawnRoots, NoisyGraph.rootNodes_ofGraph hplain fun v hv => (hnames v).mp hv]
  simp only [usesNoise_iff]
  split
  · rfl
  · rw [List.filter_filter]
    refine List.filter_congr fun v hv => ?_
    have hmember := (mem_members_iff hplain hnames (hplain v (Graph.mem_nodes_of_key hv))).mpr hv
    rw [getD_interventionsOn, decide_eq_true hmember, Bool.true_and, Bool.and_comm]

lemma drawnNoise_eq : plan.drawnNoise graph =
    if plan.Noisy then sortedNames (graph.keys.map noiseId) else [] := by
  rw [SamplingPlan.drawnNoise, sortedNames_eq_insertionSort,
    List.map_congr_left fun v _ => noiseId_eq v]

/-- The noise nodes that are drawn are those of the noisy graph, in order. -/
lemma noise_eq (hplain : ∀ node ∈ graph.nodes, Plain node)
    (hnames : ∀ v, v ∈ names ↔ v ∈ graph.keys) :
    (if plan.usesNoise then sortedNames (NoisyGraph.ofGraph graph names).noiseNodes else []) =
      plan.drawnNoise graph := by
  rw [NoisyGraph.noiseNodes_ofGraph hplain fun v hv => (hnames v).mp hv, drawnNoise_eq]
  simp only [usesNoise_iff]

lemma nodup_drawnRoots : (plan.drawnRoots graph interventions).Nodup := by
  unfold SamplingPlan.drawnRoots
  split
  · exact List.nodup_nil
  · exact graph.nodup.filter _

lemma nodup_drawnNoise : (plan.drawnNoise graph).Nodup := by
  rw [drawnNoise_eq]
  split
  · exact (sortedNames_perm _).nodup_iff.mpr (graph.nodup.map noiseId_injective)
  · exact List.nodup_nil

lemma mem_drawnNoise {v : Name} :
    noiseId v ∈ plan.drawnNoise graph ↔ plan.Noisy ∧ v ∈ graph.keys := by
  rw [drawnNoise_eq]
  split
  case isTrue hnoisy =>
    rw [mem_sortedNames, List.mem_map_of_injective noiseId_injective, and_iff_right hnoisy]
  case isFalse hquiet => simp [hquiet]

/-! ## One row -/

/-- Elements that occur once are numbered by their places. -/
lemma numbered_eq {xs : List Name} (hxs : xs.Nodup) :
    numbered xs = xs.map fun x => (x, xs.idxOf x) := by
  refine List.ext_getElem (by simp [numbered]) fun k hk hk' => ?_
  simp [numbered, hxs.idxOf_getElem]

omit [Scalar α] in
lemma getElem?_block {draws : ℕ → α} {count i k : ℕ} (hi : i < count) :
    (block draws count k)[i]? = some (draws (count * k + i)) := by
  simp [block, hi]

lemma shows_rootBlock {i : ℕ} (hi : i < plan.count) (root : Name) (k : ℕ) :
    (Value.batch (rootBlock plan.count ranges draws root k)).Shows plan.count i
      (plan.rootDraw ranges draws root k i) := by
  refine ⟨by simp [rootBlock, block], ?_⟩
  simp only [rootBlock, List.getElem?_map, getElem?_block hi, Option.map_some]
  rfl

lemma shows_noiseBlock {i : ℕ} (hi : i < plan.count) (v : Name) (k : ℕ) :
    (Value.batch (noiseBlock plan ranges draws (noiseId v) k)).Shows plan.count i
      (plan.noiseDraw ranges draws v k i) := by
  refine ⟨by simp [noiseBlock, block], ?_⟩
  simp only [noiseBlock, noiseTarget_noiseId, List.getElem?_map, getElem?_block hi, Option.map_some]
  rfl

/-- The noise that a batch injects into a variable. -/
lemma get?_noise_batchSetting (members : List Name) (v : Name) :
    (plan.batchSetting graph members interventions ranges draws).noise.get? (noiseId v) =
      if plan.Noisy ∧ v ∈ graph.keys then
        some (Value.batch (noiseBlock plan ranges draws (noiseId v)
          ((plan.drawnNoise graph).idxOf (noiseId v))))
      else none := by
  simp only [← mem_drawnNoise, SamplingPlan.batchSetting, numbered_eq nodup_drawnNoise,
    List.map_map]
  exact Table.get?_ofList_map _ _ _

/-- The noise that a row injects into a variable. -/
lemma get?_noise_rowSetting (i : ℕ) (v : Name) :
    (plan.rowSetting graph interventions ranges draws i).noise.get? (noiseId v) =
      if plan.Noisy ∧ v ∈ graph.keys then
        some (plan.noiseDraw ranges draws v ((plan.drawnNoise graph).idxOf (noiseId v)) i)
      else none := by
  by_cases hnoisy : plan.Noisy
  · simp only [SamplingPlan.rowSetting, hnoisy, if_true, true_and, ← noiseId_eq]
    exact Table.get?_ofList_map_key noiseId_injective graph.keys
      (fun w => plan.noiseDraw ranges draws w ((plan.drawnNoise graph).idxOf (noiseId w)) i) v
  · simp [SamplingPlan.rowSetting, hnoisy]

/-- The pass over batches holds fixed in each row what the row holds fixed. -/
lemma sameSetting_row (hplain : ∀ node ∈ graph.nodes, Plain node)
    (hnames : ∀ v, v ∈ names ↔ v ∈ graph.keys) {i : ℕ} (hi : i < plan.count) :
    SameSetting (Value.Shows plan.count i) Lifting.batched Lifting.single
      (plan.batchSetting graph (NoisyGraph.ofGraph graph names).members interventions ranges draws)
      (plan.rowSetting graph interventions ranges draws i) where
  clamped v hv := by
    have hmember := mem_members_iff hplain hnames hv
    simp only [Setting.isClamped, SamplingPlan.batchSetting, SamplingPlan.rowSetting,
      getD_foldl_hold, getD_interventionsOn, hmember, Table.getD_ofList_map]
    by_cases hkey : v ∈ graph.keys
    · simp [hkey, Bool.or_comm]
    · have hroot : v ∉ plan.drawnRoots graph interventions :=
        fun h => hkey (mem_keys_of_mem_drawnRoots h)
      simp [hkey, hroot]
  noise v _ := by
    rw [Setting.noiseOf, Setting.noiseAt, Setting.noiseOf, Setting.noiseAt, Table.getD, Table.getD,
      get?_noise_batchSetting, get?_noise_rowSetting]
    split
    · exact shows_noiseBlock hi v _
    · rfl

/-- The pass over batches starts in each row with what the row starts with. -/
lemma relatedOn_seeds {order order' : List Name} (horder : ∀ v, Plain v → (v ∈ order ↔ v ∈ order'))
    {i : ℕ} (hi : i < plan.count) :
    (plan.batchSeeds graph values interventions ranges draws order).RelatedOn Plain
      (Value.Shows plan.count i)
      (seeded Scalar.zero (plan.rowSeeds graph values interventions ranges draws i) order') := by
  intro v hv
  have hdrawn : Table.RelatedOn (fun _ => True) (Value.Shows plan.count i)
      (Table.ofList ((numbered (plan.drawnRoots graph interventions)).map fun e =>
        (e.1, Value.batch (rootBlock plan.count ranges draws e.1 e.2))))
      (Table.ofList ((plan.drawnRoots graph interventions).map fun root =>
        (root, plan.rootDraw ranges draws root
          ((plan.drawnRoots graph interventions).idxOf root) i))) := by
    rw [numbered_eq nodup_drawnRoots, List.map_map]
    exact .ofList fun root _ => shows_rootBlock hi root _
  have hspread : ∀ x : α, (Value.batch (List.replicate plan.count x)).Shows plan.count i x :=
    fun x => ⟨by simp, by simp [hi]⟩
  have hroot := hdrawn v trivial
  rw [SamplingPlan.batchSeeds, Table.get?_foldl_insert, get?_seeded, Table.getD,
    SamplingPlan.rowSeeds, Table.get?_foldl_insert]
  generalize Table.get? (Table.ofList _) v = drawn at hroot ⊢
  generalize Table.get? (Table.ofList _) v = drawn' at hroot ⊢
  cases hroot with
  | some hshows => split <;> exact .some hshows
  | none =>
      rw [seedBatches, get?_seeded, Table.getD, Table.get?_map]
      simp only [horder v hv, Option.none_or]
      split
      · cases values.get? v with
        | none => exact .some (hspread _)
        | some x => exact .some (hspread x)
      · cases values.get? v with
        | none => exact .none
        | some x => exact .some (hspread x)

/-! ## Columns -/

/-- What stands in a column is what is shown of the value of the row. -/
lemma isShown_column {result : Table (Value α)} {run : Table α} {i : ℕ} (hi : i < plan.count)
    (hresult : result.RelatedOn Plain (Value.Shows plan.count i) run) {v : Name} (hv : Plain v)
    {x : α} (hx : run.get? v = some x) :
    IsShown ranges v x ((column plan.count ranges result v).getD i Scalar.zero) := by
  have hdefault : (Value.single Scalar.zero).Shows plan.count i (Scalar.zero : α) := rfl
  have hvalue : run.getD v Scalar.zero = x := by rw [Table.getD, hx, Option.getD_some]
  have hshows := hresult.getD hv hdefault
  rw [hvalue] at hshows
  have hfound := hshows.spread hi
  unfold column
  cases hrange : ranges.get? v with
  | none =>
      refine ⟨fun _ => by simp [List.getD_eq_getElem?_getD, hfound], fun range h => ?_⟩
      rw [hrange] at h
      cases h
  | some range =>
      refine ⟨fun h => ?_, fun range' h => ?_⟩
      · rw [hrange] at h
        cases h
      · obtain rfl : range = range' := Option.some.inj (hrange.symm.trans h)
        exact Interval.isClipped_iff.mpr (by simp [List.getD_eq_getElem?_getD, hfound])

lemma mem_userVariables (hplain : ∀ node ∈ graph.nodes, Plain node)
    (hnames : ∀ v, v ∈ names ↔ v ∈ graph.keys) {v : Name} :
    v ∈ userVariables names ↔ v ∈ graph.keys := by
  rw [userVariables, mem_sortedNames, List.mem_filter, hnames, and_iff_left_of_imp]
  intro hv
  have hmark : isNoise v = false := hplain v (Graph.mem_nodes_of_key hv)
  simp [hmark]

lemma rowAt_map (vars : List Name) (f : Name → List α) (i : ℕ) :
    rowAt (vars.map fun v => (v, f v)) i =
      Table.ofList (vars.map fun v => (v, (f v).getD i Scalar.zero)) := by
  rw [rowAt, List.map_map]
  rfl

/-- A row is a table of the variables in code point order. -/
lemma keys_rowAt (hplain : ∀ node ∈ graph.nodes, Plain node)
    (hnames : ∀ v, v ∈ names ↔ v ∈ graph.keys) (f : Name → List α) (i : ℕ) :
    (rowAt ((userVariables names).map fun v => (v, f v)) i).keys =
      graph.keys.insertionSort (· ≤ ·) := by
  rw [rowAt_map, ← sortedNames_eq_insertionSort]
  refine eq_sortedNames ?_ (Table.nodup _) graph.nodup fun v => ?_
  · have hsub := Table.keys_ofList_sublist
      ((userVariables names).map fun v => (v, (f v).getD i Scalar.zero))
    have hfirst : ((userVariables names).map fun v => (v, (f v).getD i Scalar.zero)).map Prod.fst =
        userVariables names := by
      rw [List.map_map]
      exact List.map_id _
    rw [hfirst] at hsub
    exact (pairwise_sortedNames _).sublist hsub
  · rw [Table.mem_keys_iff, Table.get?_ofList_map, ← mem_userVariables hplain hnames]
    split <;> simp [*]

/-! ## All rows -/

variable [Elementary α]

/-- **A sample taken apart**: the pass over batches, and the rows that are read from its result. -/
theorem sampleModel_eq_ok {model : Model α} {sample : SampledRows α}
    (hplain : ∀ node ∈ graph.nodes, Plain node) (hnames : ∀ v, v ∈ names ↔ v ∈ graph.keys) :
    sampleModel model graph names values plan interventions ranges draws = .ok sample ↔
      ∃ order result, (NoisyGraph.ofGraph graph names).graph.order = .ok order ∧
        propagate Lifting.batched model
          (plan.batchSetting graph (NoisyGraph.ofGraph graph names).members interventions ranges
            draws) order
          (plan.batchSeeds graph values interventions ranges draws order) = .ok result ∧
        sample = ⟨(List.range plan.count).map (rowAt ((userVariables names).map fun v =>
            (v, column plan.count ranges result v))),
          plan.count * (plan.drawnRoots graph interventions).length,
          plan.count * (plan.drawnNoise graph).length⟩ := by
  simp only [sampleModel, roots_eq hplain hnames, noise_eq hplain hnames]
  cases (NoisyGraph.ofGraph graph names).graph.order with
  | error e => simp
  | ok order =>
      simp only [SamplingPlan.batchSeeds, SamplingPlan.batchSetting, List.foldl_map,
        Except.ok.injEq, exists_and_left, exists_eq_left']
      split
      · rename_i h
        simp [h]
      · rename_i result h
        simp [h, eq_comm]

/-- **Batched sampling is computing row by row.** A sample has as many rows as were asked for. Each
lists the variables in code point order, with the values that computing the graph gives from the
draws of that row, brought into the ranges. Without noise, every root that is not intervened on
takes one block of uniform draws; with noise, every variable takes one block of normal draws. -/
theorem sampleModel_rows {model : Model α} {sample : SampledRows α} (hg : graph.Acyclic)
    (hplain : ∀ node ∈ graph.nodes, Plain node) (hnames : ∀ v, v ∈ names ↔ v ∈ graph.keys)
    (hcover : Covers graph model)
    (hsample : sampleModel model graph names values plan interventions ranges draws =
      .ok sample) :
    sample.rows.length = plan.count ∧
    (∀ i row, sample.rows[i]? = some row → row.keys = graph.keys.insertionSort (· ≤ ·) ∧
      ∃ run, computeValues model graph
          (plan.rowSetting graph interventions ranges draws i)
          (plan.rowSeeds graph values interventions ranges draws i) = .ok run ∧
        ∀ v ∈ graph.keys, ∃ x y, run.get? v = some x ∧ row.get? v = some y ∧
          IsShown ranges v x y) ∧
    sample.uniforms = plan.count * (plan.drawnRoots graph interventions).length ∧
    sample.normals = if plan.Noisy then plan.count * graph.keys.length else 0 := by
  obtain ⟨order, result, horder, hrun, rfl⟩ := (sampleModel_eq_ok hplain hnames).mp hsample
  have hsub : names ⊆ graph.keys := fun v hv => (hnames v).mp hv
  have hcausal := NoisyGraph.isCausalOrder_plain hplain hsub (Graph.isCausalOrder_of_order horder)
  have hmem : ∀ v, Plain v → (v ∈ order ↔ v ∈ order.filter fun node => !isNoise node) := by
    intro v hv
    have hmark : isNoise v = false := hv
    simp [hmark]
  have hreads : ∀ node ∈ order, Plain node → ReadsPlain model node := by
    intro node hnode hmark e he name hread
    have hnode' := (hcausal.mem_iff node).mp ((hmem node hmark).mp hnode)
    obtain ⟨entry, hentry, hexpression⟩ := Option.bind_eq_some_iff.mp he
    exact hplain name
      (Graph.parent_mem_nodes (hcover node hnode' entry e hentry hexpression name hread))
  refine ⟨by simp, fun i row hrow => ?_, rfl, ?_⟩
  · rw [List.getElem?_map, Option.map_eq_some_iff] at hrow
    obtain ⟨position, hposition, rfl⟩ := hrow
    obtain ⟨hi, heq⟩ := List.getElem?_eq_some_iff.mp hposition
    rw [List.length_range] at hi
    rw [List.getElem_range] at heq
    subst heq
    obtain ⟨run, hrow, hvalues⟩ := propagate_simulates (Lifting.batched_simulates plan.count i)
      (sameSetting_row hplain hnames hi) hreads (relatedOn_seeds hmem hi) hrun
    obtain ⟨run', hcompute, hsame, hvalue⟩ := computeValues_of_propagate hg hcover hcausal hrow
    refine ⟨keys_rowAt hplain hnames _ i, run', hcompute, fun v hv => ?_⟩
    have hnode := Graph.mem_nodes_of_key hv
    obtain ⟨x, hx⟩ := hvalue v hnode
    refine ⟨x, _, hx, ?_, isShown_column hi hvalues (hplain v hnode) (hsame v ▸ hx)⟩
    rw [rowAt_map, Table.get?_ofList_map, if_pos ((mem_userVariables hplain hnames).mpr hv)]
  · rw [SamplingPlan.drawnNoise]
    split <;> simp [Table.keys]

/-- The model of `Y = X + error`, where `X` is only read. -/
def noisyStep : Model ℚ :=
  ⟨[("Y", Entry.ofExpr (.binary "+" (.identifier "X") (.identifier "error")) "X + error"),
    ("X", Entry.derived)], by decide⟩

/-- Two rows with a quarter of noise. -/
def twoNoisyRows : SamplingPlan ℚ := ⟨2, true, 1 / 4⟩

/-- Draws that count up. -/
def countingDraws : Draws ℚ := ⟨fun k => k, fun k => k⟩

/-- `X` is held at `2`, and the noise of `Y` in the second row is the last of four draws, which is
`3`. So the value of `Y` is `5`, and `4` is shown, the high end of its range. -/
theorem sampleModel_rows_noisyStep :
    letI := unusedOperations
    let graph := Graph.ofModel noisyStep
    let values : Table ℚ := Table.empty.insert "X" 2
    let interventions := Table.empty.insert "X" true
    let ranges : Table (Interval ℚ) := Table.empty.insert "Y" ⟨0, 4⟩
    graph.Acyclic ∧ (∀ node ∈ graph.nodes, Plain node) ∧
      (∀ v, v ∈ ["X", "Y"] ↔ v ∈ graph.keys) ∧ Covers graph noisyStep ∧
      ∃ sample row run, sampleModel noisyStep graph ["X", "Y"] values twoNoisyRows interventions
          ranges countingDraws = .ok sample ∧
        sample.uniforms = 0 ∧ sample.normals = 4 ∧ sample.rows[1]? = some row ∧
        computeValues noisyStep graph
          (twoNoisyRows.rowSetting graph interventions ranges countingDraws 1)
          (twoNoisyRows.rowSeeds graph values interventions ranges countingDraws 1) = .ok run ∧
        ["X", "Y"].map run.get? = [some 2, some 5] ∧
        row.keys = ["X", "Y"] ∧ ["X", "Y"].map row.get? = [some 2, some 4] := by
  let operations : Elementary ℚ := unusedOperations
  intro graph values interventions ranges
  have hg : graph.Acyclic := by decide +kernel
  have hplain : ∀ node ∈ graph.nodes, Plain node := by decide +kernel
  have hkeys : graph.keys = ["Y", "X"] := by rfl
  have hnames : ∀ v, v ∈ ["X", "Y"] ↔ v ∈ graph.keys := by
    intro v
    simp [hkeys, or_comm]
  have hcover : Covers graph noisyStep := covers_of_entries (by decide)
  have hcount : (sampleModel noisyStep graph ["X", "Y"] values twoNoisyRows interventions ranges
      countingDraws).toOption.map (fun sample => sample.rows.length) = some 2 := by
    simp only [sampleModel, NoisyGraph.ofGraph, userVariables, sortedNames_eq_insertionSort]
    decide +kernel
  obtain ⟨sample, hsample, hlength⟩ := exists_of_toOption_map hcount
  obtain ⟨-, hrows, huniforms, hnormals⟩ := sampleModel_rows hg hplain hnames hcover hsample
  have hrow : sample.rows[1]? = some sample.rows[1] := List.getElem?_eq_getElem _
  obtain ⟨hsorted, run, hrun, hall⟩ := hrows 1 _ hrow
  have hvalues : (computeValues noisyStep graph
      (twoNoisyRows.rowSetting graph interventions ranges countingDraws 1)
      (twoNoisyRows.rowSeeds graph values interventions ranges countingDraws 1)).toOption.map
        (fun run => ["X", "Y"].map run.get?) = some [some 2, some 5] := by
    decide +kernel
  rw [hrun] at hvalues
  have hcomputed : ["X", "Y"].map run.get? = [some 2, some 5] := Option.some.inj hvalues
  have hX : run.get? "X" = some 2 := (List.cons.inj hcomputed).1
  have hY : run.get? "Y" = some 5 := (List.cons.inj (List.cons.inj hcomputed).2).1
  obtain ⟨x, x', hx, hx', hshownX⟩ := hall "X" (by rw [hkeys]; decide)
  obtain ⟨y, y', hy, hy', hshownY⟩ := hall "Y" (by rw [hkeys]; decide)
  obtain rfl : 2 = x := Option.some.inj (hX.symm.trans hx)
  obtain rfl : 5 = y := Option.some.inj (hY.symm.trans hy)
  obtain rfl : x' = 2 := hshownX.unlisted rfl
  have hclipped := Interval.isClipped_iff_rat.mp (hshownY.listed ⟨0, 4⟩ rfl)
  obtain rfl : y' = 4 := hclipped.trans (by decide +kernel)
  refine ⟨hg, hplain, hnames, hcover, sample, _, run, hsample, huniforms.trans ?_,
    hnormals.trans ?_, hrow, hrun, hcomputed, hsorted.trans ?_, by simp [hx', hy']⟩
  · decide +kernel
  · decide +kernel
  · decide +kernel

end CausalEquations
