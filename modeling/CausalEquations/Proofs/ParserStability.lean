import CausalEquations.Proofs.ParserSoundness

/-!
# What the parser does not depend on

The depth of recursion never runs out, and nothing behind the end of the text is looked at. Both are
one statement: with any two sufficient depths, and with any tokens appended behind the end, the
outcome is the same, be it a tree or an error.

* `Closed` — the tokens have an end, or nothing stands behind them.
* `StableAt`, `stableAt` — the outcomes agree.
-/

namespace CausalEquations

variable {α : Type} [Scalar α] {table : List (String × Int)} {β γ : Type}

/-! ## Tokens with an end -/

/-- The tokens have an end, or nothing stands behind them. -/
def Closed (ts extra : List Token) : Prop := extra = [] ∨ ∃ t ∈ ts, ¬ t.Inner

lemma Closed.of_append {used rest extra : List Token} (h : Closed (used ++ rest) extra)
    (hused : ∀ t ∈ used, t.Inner) : Closed rest extra := by
  refine h.imp_right ?_
  rintro ⟨t, ht, hend⟩
  rcases List.mem_append.mp ht with ht | ht
  · exact absurd (hused t ht) hend
  · exact ⟨t, ht, hend⟩

lemma Closed.of_cons {t : Token} {rest extra : List Token} (h : Closed (t :: rest) extra)
    (ht : t.Inner) : Closed rest extra :=
  have hsingle : ∀ s ∈ [t], s.Inner := by simpa using ht
  Closed.of_append h hsingle

lemma Closed.current_append {ts extra : List Token} (h : Closed ts extra) :
    current (ts ++ extra) = current ts := by
  cases ts with
  | nil =>
      rcases h with rfl | ⟨t, ht, -⟩
      · rfl
      · simp at ht
  | cons t rest => rfl

lemma Closed.startsWithMark_append {ts extra : List Token} (h : Closed ts extra) (mark : String) :
    startsWithMark mark (ts ++ extra) = startsWithMark mark ts := by
  simp only [startsWithMark, h.current_append]

/-! ## Outcomes with tokens appended -/

/-- The outcome with `extra` behind the tokens that are left. -/
def appended (extra : List Token) (r : Except SyntaxError (β × List Token)) :
    Except SyntaxError (β × List Token) :=
  r.map fun x => (x.1, x.2 ++ extra)

lemma appended_bind {extra : List Token} {x x' : Except SyntaxError (β × List Token)}
    {k k' : β × List Token → Except SyntaxError (γ × List Token)} (hx : x' = appended extra x)
    (hk : ∀ b rest, x = .ok (b, rest) → k' (b, rest ++ extra) = appended extra (k (b, rest))) :
    (x' >>= k') = appended extra (x >>= k) := by
  subst hx
  cases x with
  | error e => rfl
  | ok y => exact hk y.1 y.2 rfl

lemma expectMark_append {mark : String} {ts extra : List Token}
    {k k' : List Token → Except SyntaxError (γ × List Token)} (hclosed : Closed ts extra)
    (hk : ∀ t rest, ts = t :: rest → t.IsMark mark → k' (rest ++ extra) = appended extra (k rest)) :
    (expectMark mark (ts ++ extra) >>= k') = appended extra (expectMark mark ts >>= k) := by
  unfold expectMark
  rw [hclosed.startsWithMark_append, hclosed.current_append]
  split
  · rename_i h
    obtain ⟨t, rest, rfl, ht⟩ := startsWithMark_eq_true.mp h
    exact hk t rest rfl ht
  · rfl

/-! ## Agreement -/

/-- With a sufficient depth the outcome depends neither on the depth nor on what stands behind the
end. A token is worth eight calls; the functions for looser phrases need a few more. -/
structure StableAt (α : Type) [Scalar α] (table : List (String × Int)) (fuel : ℕ) : Prop where
  choice : ∀ {g ts extra}, Closed ts extra → 8 * ts.length + 4 ≤ fuel → 8 * ts.length + 4 ≤ g →
    parseChoice (α := α) table g (ts ++ extra) = appended extra (parseChoice table fuel ts)
  binary : ∀ {g ts extra level}, Closed ts extra → 8 * ts.length + 3 ≤ fuel →
    8 * ts.length + 3 ≤ g →
    parseBinary (α := α) table g level (ts ++ extra) =
      appended extra (parseBinary table fuel level ts)
  binaryTail : ∀ {g ts extra level left}, Closed ts extra → 8 * ts.length + 1 ≤ fuel →
    8 * ts.length + 1 ≤ g →
    parseBinaryTail (α := α) table g level left (ts ++ extra) =
      appended extra (parseBinaryTail table fuel level left ts)
  unary : ∀ {g ts extra}, Closed ts extra → 8 * ts.length + 2 ≤ fuel → 8 * ts.length + 2 ≤ g →
    parseUnary (α := α) table g (ts ++ extra) = appended extra (parseUnary table fuel ts)
  calls : ∀ {g ts extra callee}, Closed ts extra → 8 * ts.length + 1 ≤ fuel →
    8 * ts.length + 1 ≤ g →
    parseCalls (α := α) table g callee (ts ++ extra) =
      appended extra (parseCalls table fuel callee ts)
  arguments : ∀ {g ts extra}, Closed ts extra → 8 * ts.length + 1 ≤ fuel → 8 * ts.length + 1 ≤ g →
    parseArguments (α := α) table g (ts ++ extra) = appended extra (parseArguments table fuel ts)
  primary : ∀ {g ts extra}, Closed ts extra → 8 * ts.length + 1 ≤ fuel → 8 * ts.length + 1 ≤ g →
    parsePrimary (α := α) table g (ts ++ extra) = appended extra (parsePrimary table fuel ts)

section Step

variable {fuel g : ℕ} {ts extra : List Token} (ih : StableAt α table fuel)

include ih

lemma StableAt.choice_succ (hc : Closed ts extra) (hf : 8 * ts.length + 4 ≤ fuel + 1)
    (hg : 8 * ts.length + 4 ≤ g) :
    parseChoice (α := α) table g (ts ++ extra) =
      appended extra (parseChoice table (fuel + 1) ts) := by
  obtain ⟨g, rfl⟩ : ∃ m, g = m + 1 := ⟨g - 1, by omega⟩
  rw [parseChoice, parseChoice]
  refine appended_bind (ih.binary hc (by omega) (by omega)) fun test rest htest => ?_
  obtain ⟨used, rfl, d, -⟩ := (soundAt fuel).binary htest
  have hrest := hc.of_append d.noFinish
  have hlen := List.length_pos_iff.mpr d.ne_nil
  simp only [List.length_append] at hf hg
  simp only [hrest.startsWithMark_append]
  split
  · rename_i hmark
    obtain ⟨q, tail, rfl, hq⟩ := startsWithMark_eq_true.mp hmark
    have htail := hrest.of_cons hq.inner
    simp only [List.length_cons] at hf hg
    refine appended_bind (ih.choice htail (by omega) (by omega)) fun a rest₂ ha => ?_
    obtain ⟨used₂, heq, d₂⟩ := (soundAt fuel).choice ha
    obtain rfl : tail = used₂ ++ rest₂ := heq
    refine expectMark_append (htail.of_append d₂.noFinish) fun c rest₃ heq hcolon => ?_
    subst heq
    have hend := (htail.of_append d₂.noFinish).of_cons hcolon.inner
    simp only [List.length_append, List.length_cons] at hf hg
    exact appended_bind (ih.choice hend (by omega) (by omega)) fun _ _ _ => rfl
  · rfl

lemma StableAt.binary_succ {level : Int} (hc : Closed ts extra)
    (hf : 8 * ts.length + 3 ≤ fuel + 1) (hg : 8 * ts.length + 3 ≤ g) :
    parseBinary (α := α) table g level (ts ++ extra) =
      appended extra (parseBinary table (fuel + 1) level ts) := by
  obtain ⟨g, rfl⟩ : ∃ m, g = m + 1 := ⟨g - 1, by omega⟩
  rw [parseBinary, parseBinary]
  refine appended_bind (ih.unary hc (by omega) (by omega)) fun left rest hleft => ?_
  obtain ⟨used, rfl, d⟩ := (soundAt fuel).unary hleft
  simp only [List.length_append] at hf hg
  exact ih.binaryTail (hc.of_append d.noFinish) (by omega) (by omega)

lemma StableAt.binaryTail_succ {level : Int} {left : Expr α} (hc : Closed ts extra)
    (hf : 8 * ts.length + 1 ≤ fuel + 1) (hg : 8 * ts.length + 1 ≤ g) :
    parseBinaryTail (α := α) table g level left (ts ++ extra) =
      appended extra (parseBinaryTail table (fuel + 1) level left ts) := by
  obtain ⟨g, rfl⟩ : ∃ m, g = m + 1 := ⟨g - 1, by omega⟩
  rw [parseBinaryTail, parseBinaryTail]
  have hop : operatorAt? table (ts ++ extra) = operatorAt? table ts := by
    simp only [operatorAt?, hc.current_append]
  rw [hop]
  split
  · rfl
  · rename_i op s hsome
    obtain ⟨t, tail, rfl, ht, rfl⟩ := operatorAt?_eq_some.mp hsome
    split
    · rfl
    · have htail := hc.of_cons ht.inner
      simp only [List.length_cons] at hf hg
      refine appended_bind (ih.binary htail (by omega) (by omega)) fun right rest hright => ?_
      obtain ⟨used, heq, d, -⟩ := (soundAt fuel).binary hright
      obtain rfl : tail = used ++ rest := heq
      simp only [List.length_append] at hf hg
      exact ih.binaryTail (htail.of_append d.noFinish) (by omega) (by omega)

lemma StableAt.unary_succ (hc : Closed ts extra) (hf : 8 * ts.length + 2 ≤ fuel + 1)
    (hg : 8 * ts.length + 2 ≤ g) :
    parseUnary (α := α) table g (ts ++ extra) =
      appended extra (parseUnary table (fuel + 1) ts) := by
  obtain ⟨g, rfl⟩ : ∃ m, g = m + 1 := ⟨g - 1, by omega⟩
  rw [parseUnary, parseUnary]
  have hunary : startsWithUnary (ts ++ extra) = startsWithUnary ts := by
    simp only [startsWithUnary, hc.current_append]
  rw [hunary, hc.current_append]
  split
  · rename_i h
    obtain ⟨t, tail, rfl, ht⟩ := startsWithUnary_eq_true.mp h
    simp only [List.length_cons] at hf hg
    exact appended_bind (ih.unary (hc.of_cons ht.inner) (by omega) (by omega)) fun _ _ _ => rfl
  · refine appended_bind (ih.primary hc (by omega) (by omega)) fun callee rest hcallee => ?_
    obtain ⟨used, rfl, d⟩ := (soundAt fuel).primary hcallee
    simp only [List.length_append] at hf hg
    exact ih.calls (hc.of_append d.noFinish) (by omega) (by omega)

lemma StableAt.calls_succ {callee : Expr α} (hc : Closed ts extra)
    (hf : 8 * ts.length + 1 ≤ fuel + 1) (hg : 8 * ts.length + 1 ≤ g) :
    parseCalls (α := α) table g callee (ts ++ extra) =
      appended extra (parseCalls table (fuel + 1) callee ts) := by
  obtain ⟨g, rfl⟩ : ∃ m, g = m + 1 := ⟨g - 1, by omega⟩
  rw [parseCalls, parseCalls, hc.startsWithMark_append]
  split
  · rename_i hopen
    obtain ⟨o, tail, rfl, ho⟩ := startsWithMark_eq_true.mp hopen
    have htail := hc.of_cons ho.inner
    simp only [List.length_cons] at hf hg
    by_cases hclose : startsWithMark ")" tail = true
    · simp only [List.cons_append, List.tail_cons, htail.startsWithMark_append, hclose, if_true]
      obtain ⟨c, tail', rfl, hclosed⟩ := startsWithMark_eq_true.mp hclose
      simp only [List.length_cons] at hf hg
      exact ih.calls (htail.of_cons hclosed.inner) (by omega) (by omega)
    · simp only [List.cons_append, List.tail_cons, htail.startsWithMark_append, hclose,
        Bool.false_eq_true, if_false]
      refine appended_bind (ih.choice htail (by omega) (by omega)) fun first rest hfirst => ?_
      obtain ⟨used, rfl, d⟩ := (soundAt fuel).choice hfirst
      have hrest := htail.of_append d.noFinish
      simp only [List.length_append] at hf hg
      refine appended_bind (ih.arguments hrest (by omega) (by omega)) fun others rest₂ hothers => ?_
      obtain ⟨used₂, rfl, d₂⟩ := (soundAt fuel).arguments hothers d
      have hinner : ∀ t ∈ used₂, t.Inner := fun t ht =>
        d₂.noFinish t (List.mem_append_right _ ht)
      simp only [List.length_append] at hf hg
      refine expectMark_append (hrest.of_append hinner) fun c rest₃ heq hclosed => ?_
      subst heq
      simp only [List.length_cons] at hf hg
      exact ih.calls ((hrest.of_append hinner).of_cons hclosed.inner) (by omega) (by omega)
  · rfl

lemma StableAt.arguments_succ (hc : Closed ts extra) (hf : 8 * ts.length + 1 ≤ fuel + 1)
    (hg : 8 * ts.length + 1 ≤ g) :
    parseArguments (α := α) table g (ts ++ extra) =
      appended extra (parseArguments table (fuel + 1) ts) := by
  obtain ⟨g, rfl⟩ : ∃ m, g = m + 1 := ⟨g - 1, by omega⟩
  rw [parseArguments, parseArguments, hc.startsWithMark_append]
  split
  · rename_i hcomma
    obtain ⟨t, tail, rfl, ht⟩ := startsWithMark_eq_true.mp hcomma
    have htail := hc.of_cons ht.inner
    simp only [List.length_cons] at hf hg
    refine appended_bind (ih.choice htail (by omega) (by omega)) fun a rest ha => ?_
    obtain ⟨used, heq, d⟩ := (soundAt fuel).choice ha
    obtain rfl : tail = used ++ rest := heq
    simp only [List.length_append] at hf hg
    exact appended_bind (ih.arguments (htail.of_append d.noFinish) (by omega) (by omega))
      fun _ _ _ => rfl
  · rfl

lemma StableAt.primary_succ (hc : Closed ts extra) (hf : 8 * ts.length + 1 ≤ fuel + 1)
    (hg : 8 * ts.length + 1 ≤ g) :
    parsePrimary (α := α) table g (ts ++ extra) =
      appended extra (parsePrimary table (fuel + 1) ts) := by
  obtain ⟨g, rfl⟩ : ∃ m, g = m + 1 := ⟨g - 1, by omega⟩
  rw [parsePrimary, parsePrimary, hc.current_append, hc.startsWithMark_append]
  cases ts with
  | nil => rfl
  | cons t tail =>
      split
      · rfl
      · rfl
      · rfl
      · split
        · rename_i hopen
          obtain ⟨o, tail', heq, ho⟩ := startsWithMark_eq_true.mp hopen
          cases heq
          have htail := hc.of_cons ho.inner
          simp only [List.length_cons] at hf hg
          refine appended_bind (ih.choice htail (by omega) (by omega)) fun inner rest hinner => ?_
          obtain ⟨used, heq, d⟩ := (soundAt fuel).choice hinner
          obtain rfl : tail = used ++ rest := heq
          exact expectMark_append (htail.of_append d.noFinish) fun _ _ _ _ => rfl
        · rfl

end Step

/-- At every depth the outcomes agree with those at any other sufficient depth. -/
theorem stableAt (fuel : ℕ) : StableAt α table fuel := by
  induction fuel with
  | zero => constructor <;> intros <;> omega
  | succ fuel ih =>
      exact ⟨ih.choice_succ, ih.binary_succ, ih.binaryTail_succ, ih.unary_succ, ih.calls_succ,
        ih.arguments_succ, ih.primary_succ⟩

end CausalEquations
