import CausalEquations.Proofs.ParserSoundness
import Mathlib.Data.Int.Order.Basic

/-!
# The parser finds every expression

A phrase is found by the function that is named for it, given enough depth of recursion and provided
that the tokens behind the phrase do not prolong it. The grammar builds binary expressions and calls
from the left, whereas the parser holds the left part in its hand and goes on with a loop. So for
these two the statement speaks of what follows: whatever the loop makes of the tokens behind the
phrase, the parser makes of the phrase and these tokens.

* `Eventually` — the outcome for every sufficient depth of recursion.
* `EndsFull` — the tokens that do not prolong a full expression.
* `CompleteFor`, `Derives.complete` — every phrase is found.
-/

namespace CausalEquations

variable {α : Type} [Scalar α] {table : List (String × Int)} {β γ : Type}

/-! ## Enough fuel -/

/-- With enough fuel the outcome is `r`. -/
def Eventually (f : ℕ → Except SyntaxError β) (r : β) : Prop :=
  ∃ n, ∀ fuel, n ≤ fuel → f fuel = .ok r

lemma eventually_ok (r : β) : Eventually (fun _ => .ok r) r := ⟨0, fun _ _ => rfl⟩

lemma Eventually.of_succ {f : ℕ → Except SyntaxError β} {r : β}
    (h : Eventually (fun fuel => f (fuel + 1)) r) : Eventually f r := by
  obtain ⟨n, hn⟩ := h
  refine ⟨n + 1, fun fuel hfuel => ?_⟩
  obtain ⟨m, rfl⟩ : ∃ m, fuel = m + 1 := ⟨fuel - 1, by omega⟩
  exact hn m (by omega)

lemma Eventually.bind {f : ℕ → Except SyntaxError β} {g : ℕ → β → Except SyntaxError γ} {x : β}
    {r : γ} (hf : Eventually f x) (hg : Eventually (fun fuel => g fuel x) r) :
    Eventually (fun fuel => f fuel >>= g fuel) r := by
  obtain ⟨n, hn⟩ := hf
  obtain ⟨m, hm⟩ := hg
  refine ⟨max n m, fun fuel hfuel => ?_⟩
  have hx : f fuel = .ok x := hn fuel (by omega)
  have hr : g fuel x = .ok r := hm fuel (by omega)
  show (f fuel >>= g fuel) = .ok r
  rw [hx, ok_bind, hr]

/-! ## What does not prolong a phrase -/

lemma startsWithMark_of_isMark {t : Token} {mark : String} (rest : List Token)
    (h : t.IsMark mark) : startsWithMark mark (t :: rest) = true :=
  startsWithMark_eq_true.mpr ⟨t, rest, rfl, h⟩

lemma startsWithMark_of_other {t : Token} {mark other : String} (rest : List Token)
    (h : t.IsMark mark) (hne : mark ≠ other) : startsWithMark other (t :: rest) = false := by
  rw [Bool.eq_false_iff]
  intro htrue
  obtain ⟨t', rest', heq, ht⟩ := startsWithMark_eq_true.mp htrue
  cases heq
  exact hne (h.2.symm.trans ht.2)

lemma startsWithMark_of_isBinary {t : Token} {s : Int} (rest : List Token) (mark : String)
    (h : t.IsBinary table s) : startsWithMark mark (t :: rest) = false := by
  rw [Bool.eq_false_iff]
  intro htrue
  obtain ⟨t', rest', heq, ht⟩ := startsWithMark_eq_true.mp htrue
  cases heq
  exact absurd (h.1.symm.trans ht.1) (by decide)

lemma stops_of_isMark {t : Token} {mark : String} (level : Int) (rest : List Token)
    (h : t.IsMark mark) : Stops table level (t :: rest) := by
  intro t' rest' s heq ht
  cases heq
  exact absurd (h.1.symm.trans ht.1) (by decide)

lemma stops_of_isBinary {t : Token} {s : Int} (rest : List Token) (h : t.IsBinary table s) :
    Stops table (s + 1) (t :: rest) := by
  intro t' rest' s' heq ht
  cases heq
  obtain rfl : s = s' := Option.some.inj (h.2.symm.trans ht.2)
  exact Int.lt_succ s

lemma Stops.mono {level level' : Int} {ts : List Token} (h : Stops table level ts)
    (hle : level ≤ level') : Stops table level' ts :=
  fun t rest s hts hs => lt_of_lt_of_le (h t rest s hts hs) hle

/-- The tokens do not prolong a full expression in front of them. -/
def EndsFull (table : List (String × Int)) (ts : List Token) : Prop :=
  Stops table 1 ts ∧ startsWithMark "(" ts = false ∧ startsWithMark "?" ts = false

lemma endsFull_of_isMark {t : Token} {mark : String} (rest : List Token) (h : t.IsMark mark)
    (hopen : mark ≠ "(") (hquery : mark ≠ "?") : EndsFull table (t :: rest) :=
  ⟨stops_of_isMark 1 rest h, startsWithMark_of_other rest h hopen,
    startsWithMark_of_other rest h hquery⟩

/-! ## The loops come to an end -/

lemma eventually_tail_stop {level : Int} {ts : List Token} (e : Expr α)
    (h : Stops table level ts) :
    Eventually (fun fuel => parseBinaryTail table fuel level e ts) (e, ts) := by
  refine Eventually.of_succ ⟨0, fun fuel _ => ?_⟩
  simp only [parseBinaryTail]
  split
  · rfl
  · rename_i op s hsome
    obtain ⟨t, rest, rfl, ht, rfl⟩ := operatorAt?_eq_some.mp hsome
    exact if_pos (h t rest s rfl ht)

lemma eventually_calls_stop {ts : List Token} (e : Expr α)
    (h : startsWithMark "(" ts = false) :
    Eventually (fun fuel => parseCalls table fuel e ts) (e, ts) := by
  refine Eventually.of_succ ⟨0, fun fuel _ => ?_⟩
  simp only [parseCalls, h, Bool.false_eq_true, if_false]

/-! ## Every phrase is found -/

/-- What the parser does with a phrase of each kind and the tokens behind it. -/
def CompleteFor (table : List (String × Int)) : Phrase → List Token → Expr α → Prop
  | .full, used, e => ∀ rest, EndsFull table rest →
      Eventually (fun fuel => parseChoice table fuel (used ++ rest)) (e, rest)
  | .binary level, used, e => ∀ rest level' r, level' ≤ level → Stops table (level + 1) rest →
      startsWithMark "(" rest = false →
      Eventually (fun fuel => parseBinaryTail table fuel level' e rest) r →
      Eventually (fun fuel => parseBinary table fuel level' (used ++ rest)) r
  | .operand, used, e => ∀ rest, startsWithMark "(" rest = false →
      Eventually (fun fuel => parseUnary table fuel (used ++ rest)) (e, rest)
  | .applied, used, e => ∀ rest r,
      Eventually (fun fuel => parseCalls table fuel e rest) r →
      Eventually (fun fuel => parseUnary table fuel (used ++ rest)) r
  | .primary, used, e => ∀ rest, startsWithUnary (used ++ rest) = false ∧
      Eventually (fun fuel => parsePrimary table fuel (used ++ rest)) (e, rest)

/-- What the parser does with arguments before a closing parenthesis. -/
def CompleteForArguments (table : List (String × Int)) (used : List Token) (es : List (Expr α)) :
    Prop :=
  ∀ c rest, c.IsMark ")" → ∃ first others middle, es = first :: others ∧
    Eventually (fun fuel => parseChoice table fuel (used ++ c :: rest)) (first, middle) ∧
    Eventually (fun fuel => parseArguments table fuel middle) (others, c :: rest)

/-- A binary expression before tokens that its level does not bind is found whole. -/
lemma CompleteFor.whole {level : Int} {used rest : List Token} {e : Expr α}
    (h : CompleteFor table (.binary level) used e) (hstop : Stops table level rest)
    (hopen : startsWithMark "(" rest = false) :
    Eventually (fun fuel => parseBinary table fuel level (used ++ rest)) (e, rest) :=
  h rest level (e, rest) le_rfl (hstop.mono (by omega)) hopen (eventually_tail_stop e hstop)

lemma CompleteFor.choice {ts us vs : List Token} {q c : Token} {test a b : Expr α}
    (htest : CompleteFor table (.binary 1) ts test) (hq : q.IsMark "?")
    (ha : CompleteFor table .full us a) (hc : c.IsMark ":")
    (hb : CompleteFor table .full vs b) :
    CompleteFor table .full (ts ++ q :: (us ++ c :: vs)) (.choice test a b) := by
  intro rest hrest
  refine Eventually.of_succ ?_
  simp only [parseChoice, List.append_assoc, List.cons_append]
  refine Eventually.bind (htest.whole (stops_of_isMark 1 _ hq)
    (startsWithMark_of_other _ hq (by decide))) ?_
  simp only [startsWithMark_of_isMark _ hq, if_true, List.tail_cons]
  refine Eventually.bind (ha (c :: (vs ++ rest)) (endsFull_of_isMark _ hc (by decide)
    (by decide))) ?_
  simp only [expectMark_eq_ok.mpr ⟨c, rfl, hc⟩, ok_bind]
  exact Eventually.bind (hb rest hrest) (eventually_ok _)

lemma CompleteFor.ofBinary {ts : List Token} {e : Expr α}
    (h : CompleteFor table (.binary 1) ts e) : CompleteFor table .full ts e := by
  intro rest hrest
  refine Eventually.of_succ ?_
  simp only [parseChoice]
  refine Eventually.bind (h.whole hrest.1 hrest.2.1) ?_
  simp only [hrest.2.2, Bool.false_eq_true, if_false]
  exact eventually_ok _

/-- The left operand is found first. The loop then meets the operator, reads the right operand,
and goes on with the whole. -/
lemma CompleteFor.binary {level s : Int} {ls rs : List Token} {t : Token} {l r : Expr α}
    (hl : CompleteFor table (.binary s) ls l) (ht : t.IsBinary table s) (hs : level ≤ s)
    (hr : CompleteFor table (.binary (s + 1)) rs r) :
    CompleteFor table (.binary level) (ls ++ t :: rs) (.binary t.text l r) := by
  intro rest level' result hlevel hstop hopen htail
  rw [List.append_assoc, List.cons_append]
  refine hl (t :: (rs ++ rest)) level' result (le_trans hlevel hs) (stops_of_isBinary _ ht)
    (startsWithMark_of_isBinary _ "(" ht) (Eventually.of_succ ?_)
  have hweak : ¬ s < level' := not_lt.mpr (le_trans hlevel hs)
  simp only [parseBinaryTail, operatorAt?_eq_some.mpr ⟨t, rs ++ rest, rfl, ht, rfl⟩, hweak,
    if_false, List.tail_cons]
  exact Eventually.bind (hr.whole (hstop.mono (by omega)) hopen) htail

lemma CompleteFor.ofOperand {level : Int} {ts : List Token} {e : Expr α}
    (h : CompleteFor table .operand ts e) : CompleteFor table (.binary level) ts e := by
  intro rest level' result _ _ hopen htail
  refine Eventually.of_succ ?_
  simp only [parseBinary]
  exact Eventually.bind (h rest hopen) htail

lemma CompleteFor.unary {t : Token} {ts : List Token} {e : Expr α} (ht : t.IsUnary)
    (h : CompleteFor table .operand ts e) :
    CompleteFor table .operand (t :: ts) (.unary t.text e) := by
  intro rest hopen
  refine Eventually.of_succ ?_
  simp only [parseUnary, List.cons_append, startsWithUnary_eq_true.mpr ⟨t, ts ++ rest, rfl, ht⟩,
    if_true, List.tail_cons]
  exact Eventually.bind (h rest hopen) (eventually_ok _)

lemma CompleteFor.ofApplied {ts : List Token} {e : Expr α}
    (h : CompleteFor table .applied ts e) : CompleteFor table .operand ts e :=
  fun rest hopen => h rest (e, rest) (eventually_calls_stop e hopen)

lemma CompleteFor.call {ts us : List Token} {o c : Token} {f : Expr α} {args : List (Expr α)}
    (hf : CompleteFor table .applied ts f) (ho : o.IsMark "(")
    (hempty : ∀ rest, startsWithMark ")" (us ++ rest) = false)
    (hargs : CompleteForArguments table us args) (hc : c.IsMark ")") :
    CompleteFor table .applied (ts ++ o :: (us ++ [c])) (.call f args) := by
  intro rest result hcalls
  obtain ⟨first, others, middle, rfl, hfirst, hothers⟩ := hargs c rest hc
  simp only [List.append_assoc, List.cons_append, List.nil_append]
  refine hf _ result (Eventually.of_succ ?_)
  simp only [parseCalls, startsWithMark_of_isMark _ ho, if_true, List.tail_cons, hempty,
    Bool.false_eq_true, if_false]
  refine Eventually.bind hfirst (Eventually.bind hothers ?_)
  simp only [expectMark_eq_ok.mpr ⟨c, rfl, hc⟩, ok_bind]
  exact hcalls

lemma CompleteFor.callEmpty {ts : List Token} {o c : Token} {f : Expr α}
    (hf : CompleteFor table .applied ts f) (ho : o.IsMark "(") (hc : c.IsMark ")") :
    CompleteFor table .applied (ts ++ [o, c]) (.call f []) := by
  intro rest result hcalls
  simp only [List.append_assoc, List.cons_append, List.nil_append]
  refine hf _ result (Eventually.of_succ ?_)
  simp only [parseCalls, startsWithMark_of_isMark _ ho, startsWithMark_of_isMark _ hc, if_true,
    List.tail_cons]
  exact hcalls

lemma startsWithUnary_of_kind {t : Token} (rest : List Token) (h : t.kind ≠ .op) :
    startsWithUnary (t :: rest) = false := by
  rw [Bool.eq_false_iff]
  intro htrue
  obtain ⟨t', rest', heq, ht⟩ := startsWithUnary_eq_true.mp htrue
  cases heq
  exact h ht.1

lemma CompleteFor.ofPrimary {ts : List Token} {e : Expr α}
    (h : CompleteFor table .primary ts e) : CompleteFor table .applied ts e := by
  intro rest result hcalls
  obtain ⟨hunary, hprimary⟩ := h rest
  refine Eventually.of_succ ?_
  simp only [parseUnary, hunary, Bool.false_eq_true, if_false]
  exact Eventually.bind hprimary hcalls

lemma CompleteFor.number {t : Token} (ht : t.kind = .number) :
    CompleteFor (α := α) table .primary [t]
      (.literal (readNumeral t.text.toList) t.text) := by
  intro rest
  refine ⟨startsWithUnary_of_kind rest (by simp [ht]), Eventually.of_succ ⟨0, fun fuel _ => ?_⟩⟩
  simp [parsePrimary, current, ht]

lemma CompleteFor.name {t : Token} (ht : t.kind = .name) :
    CompleteFor (α := α) table .primary [t] (Expr.ofName t.text) := by
  intro rest
  refine ⟨startsWithUnary_of_kind rest (by simp [ht]), Eventually.of_succ ⟨0, fun fuel _ => ?_⟩⟩
  simp [parsePrimary, current, ht]

lemma CompleteFor.group {ts : List Token} {o c : Token} {e : Expr α} (ho : o.IsMark "(")
    (h : CompleteFor table .full ts e) (hc : c.IsMark ")") :
    CompleteFor table .primary (o :: (ts ++ [c])) e := by
  intro rest
  refine ⟨startsWithUnary_of_kind _ (by simp [ho.1]), Eventually.of_succ ?_⟩
  simp only [parsePrimary, List.cons_append, List.append_assoc, List.nil_append, current,
    List.headD_cons, ho.1, startsWithMark_of_isMark _ ho, if_true, List.tail_cons]
  refine Eventually.bind (h (c :: rest) (endsFull_of_isMark _ hc (by decide) (by decide))) ?_
  simp only [expectMark_eq_ok.mpr ⟨c, rfl, hc⟩, ok_bind]
  exact eventually_ok _

/-- The first argument of a call is not the end of the call. -/
lemma DerivesArguments.not_closed {ts : List Token} {es : List (Expr α)}
    (h : DerivesArguments table ts es) (rest : List Token) :
    startsWithMark ")" (ts ++ rest) = false := by
  obtain ⟨t, tail, rfl, ht⟩ : ∃ t tail, ts = t :: tail ∧ t.Opens := by
    cases h with
    | last h => exact h.opens
    | more h _ _ =>
        obtain ⟨t, tail, rfl, ht⟩ := h.opens
        exact ⟨t, _, List.cons_append, ht⟩
  rw [Bool.eq_false_iff]
  intro htrue
  obtain ⟨t', rest', heq, hmark⟩ := startsWithMark_eq_true.mp htrue
  cases heq
  exact ht.not_mark (by decide) hmark

mutual

/-- **Every phrase is found.** -/
theorem Derives.complete {phrase : Phrase} {ts : List Token} {e : Expr α} :
    Derives table phrase ts e → CompleteFor table phrase ts e
  | .choice htest hq ha hc hb => .choice htest.complete hq ha.complete hc hb.complete
  | .ofBinary h => .ofBinary h.complete
  | .binary hl ht hs hr => .binary hl.complete ht hs hr.complete
  | .ofOperand h => .ofOperand h.complete
  | .unary ht h => .unary ht h.complete
  | .ofApplied h => .ofApplied h.complete
  | .call hf ho hargs hc => .call hf.complete ho hargs.not_closed hargs.complete hc
  | .callEmpty hf ho hc => .callEmpty hf.complete ho hc
  | .ofPrimary h => .ofPrimary h.complete
  | .number ht => .number ht
  | .name ht => .name ht
  | .group ho h hc => .group ho h.complete hc

theorem DerivesArguments.complete {ts : List Token} {es : List (Expr α)} :
    DerivesArguments table ts es → CompleteForArguments table ts es
  | .last h => by
      intro c rest hc
      have hend : Eventually (fun fuel => parseArguments (α := α) table fuel (c :: rest))
          ([], c :: rest) := by
        refine Eventually.of_succ ⟨0, fun fuel _ => ?_⟩
        simp only [parseArguments, startsWithMark_of_other rest hc (by decide : ")" ≠ ","),
          Bool.false_eq_true, if_false]
      exact ⟨_, [], c :: rest, rfl,
        h.complete (c :: rest) (endsFull_of_isMark rest hc (by decide) (by decide)), hend⟩
  | @DerivesArguments.more _ _ _ _ us t _ _ h ht hrest => by
      intro c rest hc
      obtain ⟨first, others, middle, rfl, hfirst, hothers⟩ := hrest.complete c rest hc
      refine ⟨_, first :: others, t :: (us ++ c :: rest), rfl, ?_, Eventually.of_succ ?_⟩
      · simp only [List.append_assoc, List.cons_append]
        exact h.complete _ (endsFull_of_isMark _ ht (by decide) (by decide))
      · simp only [parseArguments, startsWithMark_of_isMark _ ht, if_true, List.tail_cons]
        exact Eventually.bind hfirst (Eventually.bind hothers (eventually_ok _))

end

end CausalEquations
