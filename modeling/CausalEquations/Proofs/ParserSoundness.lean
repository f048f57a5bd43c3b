import CausalEquations.Proofs.Grammar
import CausalEquations.Proofs.Outcomes

/-!
# What the parser reads is in the grammar

Each of the parser's functions takes a phrase off the front of the tokens. The one that is not
obvious is the loop over binary operators. Its left operand grows, and the grammar asks that it
stand at the level of the operator that comes next; this holds because a right operand only ends at
an operator that is no stronger than the one before it.

* `Stops` — no operator at the front binds at this level.
* `SoundAt` — what every function guarantees within a depth of recursion.
* `soundAt` — they guarantee it within every depth.
-/

namespace CausalEquations

variable {α : Type} [Scalar α] {table : List (String × Int)}

/-! ## Looking at the first token -/

lemma startsWithMark_eq_true {mark : String} {ts : List Token} :
    startsWithMark mark ts = true ↔ ∃ t rest, ts = t :: rest ∧ t.IsMark mark := by
  cases ts with
  | nil => simp [startsWithMark, current]
  | cons t rest => simp [startsWithMark, current, Token.IsMark]

lemma expectMark_eq_ok {mark : String} {ts rest : List Token} :
    expectMark mark ts = .ok rest ↔ ∃ t, ts = t :: rest ∧ t.IsMark mark := by
  unfold expectMark
  split
  · rename_i h
    obtain ⟨t, tail, rfl, ht⟩ := startsWithMark_eq_true.mp h
    simp [ht]
  · rename_i h
    rw [startsWithMark_eq_true] at h
    simp only [reduceCtorEq, false_iff]
    rintro ⟨t, rfl, ht⟩
    exact h ⟨t, rest, rfl, ht⟩

lemma operatorAt?_cons (t : Token) (rest : List Token) :
    operatorAt? table (t :: rest) =
      if t.kind = .op then (strength? table t.text).map fun s => (t.text, s) else none := by
  unfold operatorAt? strength?
  by_cases hkind : t.kind = .op
  · rw [if_pos hkind, if_pos (show (current (t :: rest)).kind = .op from hkind), Option.map_map]
    rfl
  · rw [if_neg hkind, if_neg (show ¬ (current (t :: rest)).kind = .op from hkind)]

lemma operatorAt?_eq_some {ts : List Token} {op : String} {s : Int} :
    operatorAt? table ts = some (op, s) ↔
      ∃ t rest, ts = t :: rest ∧ t.IsBinary table s ∧ op = t.text := by
  cases ts with
  | nil => simp [operatorAt?, current]
  | cons t rest =>
      rw [operatorAt?_cons]
      constructor
      · intro h
        split at h
        · rename_i hkind
          obtain ⟨strength, hstrength, heq⟩ := Option.map_eq_some_iff.mp h
          cases heq
          exact ⟨t, rest, rfl, ⟨hkind, hstrength⟩, rfl⟩
        · cases h
      · rintro ⟨t', rest', heq, ⟨hkind, hstrength⟩, rfl⟩
        cases heq
        rw [if_pos hkind, hstrength]
        rfl

lemma startsWithUnary_eq_true {ts : List Token} :
    startsWithUnary ts = true ↔ ∃ t rest, ts = t :: rest ∧ t.IsUnary := by
  cases ts with
  | nil => simp [startsWithUnary, current]
  | cons t rest => simp [startsWithUnary, current, Token.IsUnary]

/-! ## The invariant -/

/-- An operator at the front is weaker than this level. -/
def Stops (table : List (String × Int)) (level : Int) (ts : List Token) : Prop :=
  ∀ t rest s, ts = t :: rest → t.IsBinary table s → s < level

/-- What the parser's functions guarantee within a depth of recursion: the tokens that they use form
the phrase that they are named for. The functions that go on after something complete it. -/
structure SoundAt (α : Type) [Scalar α] (table : List (String × Int)) (fuel : ℕ) : Prop where
  choice : ∀ {ts e rest}, parseChoice (α := α) table fuel ts = .ok (e, rest) →
    ∃ used, ts = used ++ rest ∧ Derives table .full used e
  binary : ∀ {level ts e rest}, parseBinary (α := α) table fuel level ts = .ok (e, rest) →
    ∃ used, ts = used ++ rest ∧ Derives table (.binary level) used e ∧ Stops table level rest
  binaryTail : ∀ {level ts left e rest done},
    parseBinaryTail (α := α) table fuel level left ts = .ok (e, rest) →
    Derives table (.binary level) done left →
    (∀ t tail s, ts = t :: tail → t.IsBinary table s → level ≤ s →
      Derives table (.binary s) done left) →
    ∃ used, ts = used ++ rest ∧ Derives table (.binary level) (done ++ used) e ∧
      Stops table level rest
  unary : ∀ {ts e rest}, parseUnary (α := α) table fuel ts = .ok (e, rest) →
    ∃ used, ts = used ++ rest ∧ Derives table .operand used e
  calls : ∀ {ts callee e rest done}, parseCalls (α := α) table fuel callee ts = .ok (e, rest) →
    Derives table .applied done callee →
    ∃ used, ts = used ++ rest ∧ Derives table .applied (done ++ used) e
  arguments : ∀ {ts es rest first e}, parseArguments (α := α) table fuel ts = .ok (es, rest) →
    Derives table .full first e →
    ∃ used, ts = used ++ rest ∧ DerivesArguments table (first ++ used) (e :: es)
  primary : ∀ {ts e rest}, parsePrimary (α := α) table fuel ts = .ok (e, rest) →
    ∃ used, ts = used ++ rest ∧ Derives table .primary used e

section Step

variable {fuel : ℕ} (ih : SoundAt α table fuel)

include ih

lemma SoundAt.choice_succ {ts rest : List Token} {e : Expr α}
    (h : parseChoice table (fuel + 1) ts = .ok (e, rest)) :
    ∃ used, ts = used ++ rest ∧ Derives table .full used e := by
  rw [parseChoice] at h
  rw [bind_eq_ok] at h
  obtain ⟨⟨test, rest₁⟩, htest, h⟩ := h
  dsimp only at h
  obtain ⟨ts₁, rfl, d₁, -⟩ := ih.binary htest
  split at h
  · rename_i hmark
    obtain ⟨q, rest₂, rfl, hq⟩ := startsWithMark_eq_true.mp hmark
    rw [bind_eq_ok] at h
    obtain ⟨⟨a, rest₃⟩, ha, h⟩ := h
    dsimp only at h
    rw [bind_eq_ok] at h
    obtain ⟨rest₄, hcolon, h⟩ := h
    rw [bind_eq_ok] at h
    obtain ⟨⟨b, rest₅⟩, hb, h⟩ := h
    dsimp only at h
    obtain ⟨ts₂, rfl, d₂⟩ := ih.choice ha
    obtain ⟨c, rfl, hc⟩ := expectMark_eq_ok.mp hcolon
    obtain ⟨ts₃, rfl, d₃⟩ := ih.choice hb
    cases h
    exact ⟨ts₁ ++ q :: (ts₂ ++ c :: ts₃), by simp, .choice d₁ hq d₂ hc d₃⟩
  · cases h
    exact ⟨ts₁, rfl, .ofBinary d₁⟩

lemma SoundAt.binary_succ {level : Int} {ts rest : List Token} {e : Expr α}
    (h : parseBinary table (fuel + 1) level ts = .ok (e, rest)) :
    ∃ used, ts = used ++ rest ∧ Derives table (.binary level) used e ∧ Stops table level rest := by
  rw [parseBinary] at h
  rw [bind_eq_ok] at h
  obtain ⟨⟨left, rest₁⟩, hleft, h⟩ := h
  dsimp only at h
  obtain ⟨ts₁, rfl, d₁⟩ := ih.unary hleft
  obtain ⟨ts₂, rfl, d₂, hstop⟩ := ih.binaryTail h (.ofOperand d₁) fun _ _ _ _ _ _ => .ofOperand d₁
  exact ⟨ts₁ ++ ts₂, by simp, d₂, hstop⟩

/-- The right operand ends at an operator that is no stronger than the one before it, so the new
left operand stands at the level of the next operator. -/
lemma SoundAt.binaryTail_succ {level : Int} {ts rest done : List Token} {left e : Expr α}
    (h : parseBinaryTail table (fuel + 1) level left ts = .ok (e, rest))
    (hdone : Derives table (.binary level) done left)
    (hnext : ∀ t tail s, ts = t :: tail → t.IsBinary table s → level ≤ s →
      Derives table (.binary s) done left) :
    ∃ used, ts = used ++ rest ∧ Derives table (.binary level) (done ++ used) e ∧
      Stops table level rest := by
  rw [parseBinaryTail] at h
  split at h
  · rename_i hnone
    cases h
    refine ⟨[], rfl, by simpa using hdone, fun t tail s hts hs => ?_⟩
    have hsome := operatorAt?_eq_some.mpr ⟨t, tail, hts, hs, rfl⟩
    rw [hnone] at hsome
    cases hsome
  · rename_i op s hsome
    obtain ⟨t, tail, rfl, ht, rfl⟩ := operatorAt?_eq_some.mp hsome
    split at h
    · rename_i hweak
      cases h
      refine ⟨[], rfl, by simpa using hdone, fun t' tail' s' hts hs' => ?_⟩
      cases hts
      obtain rfl : s = s' := Option.some.inj (ht.2.symm.trans hs'.2)
      exact hweak
    · rename_i hstrong
      have hlevel : level ≤ s := Int.not_lt.mp hstrong
      rw [bind_eq_ok] at h
      obtain ⟨⟨right, rest₁⟩, hright, h⟩ := h
      dsimp only at h
      obtain ⟨ts₁, heq, d₁, hstop⟩ := ih.binary hright
      obtain rfl : tail = ts₁ ++ rest₁ := heq
      have hleft := hnext t _ s rfl ht hlevel
      obtain ⟨ts₂, rfl, d₂, hend⟩ := ih.binaryTail h (.binary hleft ht hlevel d₁)
        fun t' tail' s' hts hs' _ =>
          .binary hleft ht (Int.lt_add_one_iff.mp (hstop t' tail' s' hts hs')) d₁
      exact ⟨t :: (ts₁ ++ ts₂), by simp, by simpa using d₂, hend⟩

lemma SoundAt.unary_succ {ts rest : List Token} {e : Expr α}
    (h : parseUnary table (fuel + 1) ts = .ok (e, rest)) :
    ∃ used, ts = used ++ rest ∧ Derives table .operand used e := by
  rw [parseUnary] at h
  split at h
  · rename_i hunary
    obtain ⟨t, tail, rfl, ht⟩ := startsWithUnary_eq_true.mp hunary
    rw [bind_eq_ok] at h
    obtain ⟨⟨a, rest₁⟩, ha, h⟩ := h
    dsimp only at h
    obtain ⟨ts₁, heq, d₁⟩ := ih.unary ha
    obtain rfl : tail = ts₁ ++ rest₁ := heq
    cases h
    exact ⟨t :: ts₁, rfl, .unary ht d₁⟩
  · rw [bind_eq_ok] at h
    obtain ⟨⟨callee, rest₁⟩, hcallee, h⟩ := h
    dsimp only at h
    obtain ⟨ts₁, rfl, d₁⟩ := ih.primary hcallee
    obtain ⟨ts₂, rfl, d₂⟩ := ih.calls h (.ofPrimary d₁)
    exact ⟨ts₁ ++ ts₂, by simp, .ofApplied d₂⟩

lemma SoundAt.calls_succ {ts rest done : List Token} {callee e : Expr α}
    (h : parseCalls table (fuel + 1) callee ts = .ok (e, rest))
    (hdone : Derives table .applied done callee) :
    ∃ used, ts = used ++ rest ∧ Derives table .applied (done ++ used) e := by
  rw [parseCalls] at h
  split at h
  · rename_i hopen
    obtain ⟨o, tail, rfl, ho⟩ := startsWithMark_eq_true.mp hopen
    split at h
    · rename_i hclose
      obtain ⟨c, tail', heq, hc⟩ := startsWithMark_eq_true.mp hclose
      obtain rfl : tail = c :: tail' := heq
      obtain ⟨ts₁, heq, d₁⟩ := ih.calls h (.callEmpty hdone ho hc)
      obtain rfl : tail' = ts₁ ++ rest := heq
      exact ⟨o :: c :: ts₁, rfl, by simpa using d₁⟩
    · rw [bind_eq_ok] at h
      obtain ⟨⟨first, rest₁⟩, hfirst, h⟩ := h
      dsimp only at h
      rw [bind_eq_ok] at h
      obtain ⟨⟨others, rest₂⟩, hothers, h⟩ := h
      dsimp only at h
      rw [bind_eq_ok] at h
      obtain ⟨rest₃, hclose, h⟩ := h
      obtain ⟨ts₁, heq, d₁⟩ := ih.choice hfirst
      obtain rfl : tail = ts₁ ++ rest₁ := heq
      obtain ⟨ts₂, rfl, d₂⟩ := ih.arguments hothers d₁
      obtain ⟨c, rfl, hc⟩ := expectMark_eq_ok.mp hclose
      obtain ⟨ts₃, rfl, d₃⟩ := ih.calls h (.call hdone ho d₂ hc)
      exact ⟨o :: (ts₁ ++ (ts₂ ++ c :: ts₃)), by simp, by simpa using d₃⟩
  · cases h
    exact ⟨[], rfl, by simpa using hdone⟩

lemma SoundAt.arguments_succ {ts rest first : List Token} {e : Expr α} {es : List (Expr α)}
    (h : parseArguments table (fuel + 1) ts = .ok (es, rest))
    (hfirst : Derives table .full first e) :
    ∃ used, ts = used ++ rest ∧ DerivesArguments table (first ++ used) (e :: es) := by
  rw [parseArguments] at h
  split at h
  · rename_i hcomma
    obtain ⟨t, tail, rfl, ht⟩ := startsWithMark_eq_true.mp hcomma
    rw [bind_eq_ok] at h
    obtain ⟨⟨a, rest₁⟩, ha, h⟩ := h
    dsimp only at h
    rw [bind_eq_ok] at h
    obtain ⟨⟨others, rest₂⟩, hothers, h⟩ := h
    dsimp only at h
    obtain ⟨ts₁, heq, d₁⟩ := ih.choice ha
    obtain rfl : tail = ts₁ ++ rest₁ := heq
    obtain ⟨ts₂, rfl, d₂⟩ := ih.arguments hothers d₁
    cases h
    exact ⟨t :: (ts₁ ++ ts₂), by simp, .more hfirst ht d₂⟩
  · cases h
    exact ⟨[], rfl, by simpa using .last hfirst⟩

lemma SoundAt.primary_succ {ts rest : List Token} {e : Expr α}
    (h : parsePrimary table (fuel + 1) ts = .ok (e, rest)) :
    ∃ used, ts = used ++ rest ∧ Derives table .primary used e := by
  rw [parsePrimary] at h
  cases ts with
  | nil => simp [current] at h
  | cons t tail =>
      simp only [current, List.headD_cons, List.tail_cons] at h
      split at h
      · rename_i hkind
        cases h
        exact ⟨[t], rfl, .number hkind⟩
      · rename_i hkind
        cases h
        exact ⟨[t], rfl, .name hkind⟩
      · cases h
      · split at h
        · rename_i hopen
          obtain ⟨o, tail', heq, ho⟩ := startsWithMark_eq_true.mp hopen
          cases heq
          rw [bind_eq_ok] at h
          obtain ⟨⟨inner, rest₁⟩, hinner, h⟩ := h
          dsimp only at h
          rw [bind_eq_ok] at h
          obtain ⟨rest₂, hclose, h⟩ := h
          obtain ⟨ts₁, rfl, d₁⟩ := ih.choice hinner
          obtain ⟨c, rfl, hc⟩ := expectMark_eq_ok.mp hclose
          cases h
          exact ⟨t :: (ts₁ ++ [c]), by simp, .group ho d₁ hc⟩
        · cases h

end Step

/-- Whatever the depth of recursion, what is read is in the grammar. -/
theorem soundAt (fuel : ℕ) : SoundAt α table fuel := by
  induction fuel with
  | zero =>
      constructor <;> intros <;>
        simp_all [parseChoice, parseBinary, parseBinaryTail, parseUnary, parseCalls,
          parseArguments, parsePrimary]
  | succ fuel ih =>
      exact ⟨ih.choice_succ, ih.binary_succ, ih.binaryTail_succ, ih.unary_succ, ih.calls_succ,
        ih.arguments_succ, ih.primary_succ⟩

end CausalEquations
