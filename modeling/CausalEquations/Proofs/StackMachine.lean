import CausalEquations.Proofs.Calls
import CausalEquations.Proofs.Parsing

/-!
# A machine that accepts expressions

Precedence decides which tree a text has, never whether it has one. So acceptance can be decided by
a machine with a stack that reads one token after the other and builds nothing. It keeps what stands
open, knows whether an operand is due or has just ended, and sees to it that only functions are
called.

* `Lexeme` — a token without its position.
* `Frame`, `Callee`, `Mode`, `step`, `run` — the machine.
* `Accepts` — it reaches the end of an expression with nothing open.
* `Derives.passes` — it goes through every expression that calls known functions only.
-/

namespace CausalEquations

variable {α : Type}

/-! ## The machine -/

/-- A token without its position. -/
abbrev Lexeme := TokenKind × String

/-- The token without its position. -/
def Token.lexeme (t : Token) : Lexeme := (t.kind, t.text)

/-- What stands open. -/
inductive Frame where
  /-- A parenthesis. If it is `alone`, it is all that has been read since another parenthesis. -/
  | group (alone : Bool)
  /-- The arguments of a call. -/
  | call
  /-- The part of a choice between `?` and `:`. -/
  | choice
  deriving DecidableEq, Repr

/-- Whether the operand that has just ended may be called. -/
inductive Callee where
  /-- It is a function's name, and all that has been read since the last parenthesis. -/
  | alone
  /-- It is a function's name and follows something else. -/
  | direct
  | other
  deriving DecidableEq, Repr

/-- What may come next. -/
inductive Mode where
  /-- An operand. -/
  | operand (alone : Bool)
  /-- The first argument of a call, or the end of the call. -/
  | arguments
  /-- Whatever goes on after an operand. -/
  | after (callee : Callee)
  deriving DecidableEq, Repr

/-- A function's name as an operand. -/
def Callee.ofAlone (alone : Bool) : Callee := if alone then .alone else .direct

/-- The operand in parentheses, where the parenthesis is `alone` or is not. -/
def Callee.inGroup (alone : Bool) : Callee → Callee
  | .alone => .ofAlone alone
  | _ => .other

section

variable (known : Name → Bool)

/-- Goes on where an operand is due. -/
def stepOperand (alone : Bool) (stack : List Frame) : Lexeme → Option (Mode × List Frame)
  | (.number, _) => some (.after .other, stack)
  | (.name, x) => some (.after (if known x then .ofAlone alone else .other), stack)
  | (.op, x) => if (UnaryOp.ofSymbol? x).isSome then some (.operand false, stack) else none
  | (.punct, x) => if x = "(" then some (.operand true, .group alone :: stack) else none
  | (.finish, _) => none

/-- Goes on after an operand with a mark that ends something. -/
def stepClose (callee : Callee) (x : String) : List Frame → Option (Mode × List Frame)
  | [] => none
  | .group alone :: stack => if x = ")" then some (.after (callee.inGroup alone), stack) else none
  | .call :: stack =>
    if x = ")" then some (.after .other, stack)
    else if x = "," then some (.operand false, .call :: stack)
    else none
  | .choice :: stack => if x = ":" then some (.operand false, stack) else none

/-- Goes on after an operand. -/
def stepAfter (callee : Callee) (stack : List Frame) : Lexeme → Option (Mode × List Frame)
  | (.op, x) => if (strength? precedence x).isSome then some (.operand false, stack) else none
  | (.punct, x) =>
    if x = "(" then if callee = .other then none else some (.arguments, .call :: stack)
    else if x = "?" then some (.operand false, .choice :: stack)
    else stepClose callee x stack
  | _ => none

/-- One token. -/
def step : Mode × List Frame → Lexeme → Option (Mode × List Frame)
  | (.operand alone, stack), l => stepOperand known alone stack l
  | (.arguments, .call :: stack), l =>
    if l = (.punct, ")") then some (.after .other, stack)
    else stepOperand known false (.call :: stack) l
  | (.arguments, stack), l => stepOperand known false stack l
  | (.after callee, stack), l => stepAfter callee stack l

/-- All tokens, one after the other. -/
def run (c : Mode × List Frame) (ls : List Lexeme) : Option (Mode × List Frame) :=
  ls.foldlM (step known) c

/-- From here the tokens lead to the end of an expression with nothing open. -/
def Finishes (c : Mode × List Frame) (ls : List Lexeme) : Prop :=
  ∃ callee, run known c ls = some (.after callee, [])

/-- The tokens are accepted. -/
def Accepts (ls : List Lexeme) : Prop := Finishes known (.operand false, []) ls

end

variable {known : Name → Bool} {ts us : List Token} {stack : List Frame} {e : Expr α}

@[simp] lemma run_nil (c : Mode × List Frame) : run known c [] = some c := rfl

@[simp] lemma run_cons (c : Mode × List Frame) (l : Lexeme) (ls : List Lexeme) :
    run known c (l :: ls) = (step known c l).bind fun c' => run known c' ls := rfl

@[simp] lemma run_append (c : Mode × List Frame) (ls ls' : List Lexeme) :
    run known c (ls ++ ls') = (run known c ls).bind fun c' => run known c' ls' :=
  List.foldlM_append

lemma Finishes.cons {c : Mode × List Frame} {l : Lexeme} {ls : List Lexeme}
    (h : Finishes known c (l :: ls)) : ∃ c', step known c l = some c' ∧ Finishes known c' ls := by
  obtain ⟨callee, h⟩ := h
  obtain ⟨c', hstep, hrun⟩ := Option.bind_eq_some_iff.mp h
  exact ⟨c', hstep, callee, hrun⟩

lemma Token.IsMark.lexeme {t : Token} {mark : String} (h : t.IsMark mark) :
    t.lexeme = (.punct, mark) := Prod.ext h.1 h.2

/-! ## It goes through every expression -/

/-- The operand that has just ended is recognised as a function's name if it is one. -/
def Knows (known : Name → Bool) (alone : Bool) (e : Expr α) (callee : Callee) : Prop :=
  ∀ name, e = .identifier name → known name = true → callee = .ofAlone alone

/-- The machine goes through the tokens and ends after an operand. -/
def Passes (known : Name → Bool) (ts : List Token) (e : Expr α) : Prop :=
  ∀ alone stack, ∃ callee, run known (.operand alone, stack) (ts.map Token.lexeme)
    = some (.after callee, stack) ∧ Knows known alone e callee

/-- The machine goes through the arguments of a call. -/
def PassesArguments (known : Name → Bool) (ts : List Token) : Prop :=
  ∀ stack, ∃ callee, run known (.operand false, .call :: stack) (ts.map Token.lexeme)
    = some (.after callee, .call :: stack)

lemma Token.IsBinary.stepAfter {t : Token} {s : Int} (h : t.IsBinary precedence s)
    (callee : Callee) (stack : List Frame) :
    stepAfter callee stack t.lexeme = some (.operand false, stack) := by
  have hlex : t.lexeme = (.op, t.text) := Prod.ext h.1 rfl
  rw [hlex]
  simp [CausalEquations.stepAfter, h.2]

lemma Token.IsUnary.stepOperand {t : Token} (h : t.IsUnary) (alone : Bool) (stack : List Frame) :
    stepOperand known alone stack t.lexeme = some (.operand false, stack) := by
  have hlex : t.lexeme = (.op, t.text) := Prod.ext h.1 rfl
  rw [hlex]
  simp [CausalEquations.stepOperand, h.2]

lemma Passes.choice {vs : List Token} {q c : Token} {test a b : Expr α} (htest : Passes known ts test)
    (hq : q.IsMark "?") (ha : Passes known us a) (hc : c.IsMark ":") (hb : Passes known vs b) :
    Passes known (ts ++ q :: (us ++ c :: vs)) (.choice test a b) := by
  intro alone stack
  obtain ⟨callee₁, h₁, -⟩ := htest alone stack
  obtain ⟨callee₂, h₂, -⟩ := ha false (.choice :: stack)
  obtain ⟨callee₃, h₃, -⟩ := hb false stack
  refine ⟨callee₃, ?_, fun name h => by cases h⟩
  simp only [List.map_append, List.map_cons, run_append, run_cons, h₁, hq.lexeme, hc.lexeme,
    Option.bind_some, step, stepAfter, stepClose, h₂, h₃, if_true, if_false, String.reduceEq]

lemma Passes.binary {s : Int} {t : Token} {l r : Expr α} (hl : Passes known ts l)
    (ht : t.IsBinary precedence s) (hr : Passes known us r) :
    Passes known (ts ++ t :: us) (.binary t.text l r) := by
  intro alone stack
  obtain ⟨callee₁, h₁, -⟩ := hl alone stack
  obtain ⟨callee₂, h₂, -⟩ := hr false stack
  refine ⟨callee₂, ?_, fun name h => by cases h⟩
  simp only [List.map_append, List.map_cons, run_append, run_cons, h₁, Option.bind_some, step,
    ht.stepAfter, h₂]

lemma Passes.unary {t : Token} (ht : t.IsUnary) (h : Passes known ts e) :
    Passes known (t :: ts) (.unary t.text e) := by
  intro alone stack
  obtain ⟨callee, hrun, -⟩ := h false stack
  refine ⟨callee, ?_, fun name h => by cases h⟩
  simp only [List.map_cons, run_cons, step, ht.stepOperand, Option.bind_some, hrun]

lemma Knows.ne_other {alone : Bool} {name : Name} {callee : Callee}
    (h : Knows known alone (.identifier name : Expr α) callee) (hknown : known name = true) :
    callee ≠ .other := by
  rw [h name rfl hknown]
  cases alone <;> decide

lemma Passes.call {o c : Token} {name : Name} {args : List (Expr α)}
    (hf : Passes known ts (.identifier name : Expr α)) (hknown : known name = true)
    (ho : o.IsMark "(") (hopen : ∀ rest, startsWithMark ")" (us ++ rest) = false)
    (hargs : PassesArguments known us) (hc : c.IsMark ")") :
    Passes known (ts ++ o :: (us ++ [c])) (.call (.identifier name) args) := by
  intro alone stack
  obtain ⟨callee₁, h₁, hcallee⟩ := hf alone stack
  obtain ⟨callee₂, h₂⟩ := hargs stack
  refine ⟨.other, ?_, fun name h => by cases h⟩
  have hfirst : run known (.arguments, .call :: stack) (us.map Token.lexeme) =
      run known (.operand false, .call :: stack) (us.map Token.lexeme) := by
    cases us with
    | nil => exact absurd (startsWithMark_of_isMark [] hc) (by simpa using hopen [c])
    | cons t rest =>
        have hnot : ¬ t.lexeme = (.punct, ")") := fun h =>
          absurd (startsWithMark_of_isMark (rest ++ []) ⟨congrArg Prod.fst h, congrArg Prod.snd h⟩)
            (by simpa using hopen [])
        simp only [List.map_cons, run_cons, step, hnot, if_false]
  simp only [List.map_append, List.map_cons, List.map_nil, run_append, run_cons, run_nil, h₁,
    ho.lexeme, hc.lexeme, Option.bind_some, step, stepAfter, stepClose, hfirst, h₂,
    hcallee.ne_other hknown, if_true, if_false, String.reduceEq]

lemma Passes.callEmpty {o c : Token} {name : Name} (hf : Passes known ts (.identifier name : Expr α))
    (hknown : known name = true) (ho : o.IsMark "(") (hc : c.IsMark ")") :
    Passes known (ts ++ [o, c]) (.call (.identifier name) [] : Expr α) := by
  intro alone stack
  obtain ⟨callee₁, h₁, hcallee⟩ := hf alone stack
  refine ⟨.other, ?_, fun name h => by cases h⟩
  simp only [List.map_append, List.map_cons, List.map_nil, run_append, run_cons, run_nil, h₁,
    ho.lexeme, hc.lexeme, Option.bind_some, step, stepAfter,
    hcallee.ne_other hknown, if_true, if_false]

lemma Passes.group {o c : Token} (ho : o.IsMark "(") (h : Passes known ts e) (hc : c.IsMark ")") :
    Passes known (o :: (ts ++ [c])) e := by
  intro alone stack
  obtain ⟨callee, hrun, hcallee⟩ := h true (.group alone :: stack)
  refine ⟨callee.inGroup alone, ?_, fun name he hknown => ?_⟩
  · simp only [List.map_append, List.map_cons, List.map_nil, run_append, run_cons, run_nil,
      ho.lexeme, hc.lexeme, Option.bind_some, step, stepOperand, hrun, stepAfter, stepClose,
      if_true, if_false, String.reduceEq]
  · rw [hcallee name he hknown]
    rfl

variable [Scalar α]

lemma Passes.number {t : Token} (ht : t.kind = .number) :
    Passes known [t] (.literal (readNumeral t.text.toList) t.text : Expr α) := by
  intro alone stack
  refine ⟨.other, ?_, fun name h => by cases h⟩
  have hlex : t.lexeme = (.number, t.text) := Prod.ext ht rfl
  simp only [List.map_cons, List.map_nil, run_cons, run_nil, hlex, step, stepOperand,
    Option.bind_some]

lemma Passes.name {t : Token} (ht : t.kind = .name) :
    Passes known [t] (Expr.ofName t.text : Expr α) := by
  intro alone stack
  have hlex : t.lexeme = (.name, t.text) := Prod.ext ht rfl
  refine ⟨if known t.text then .ofAlone alone else .other, ?_, fun name he hknown => ?_⟩
  · simp only [List.map_cons, List.map_nil, run_cons, run_nil, hlex, step, stepOperand,
      Option.bind_some]
  · unfold Expr.ofName at he
    split at he
    · cases he
    · split at he
      · cases he
      · cases he
        rw [if_pos hknown]

mutual

/-- The machine goes through every expression that calls known functions only. -/
lemma Derives.passes {phrase : Phrase} {ts : List Token} {e : Expr α} :
    Derives precedence phrase ts e → e.CallsOnly known → Passes known ts e
  | .choice htest hq ha hc hb, hcalls => by
      simp only [Expr.CallsOnly, Expr.callees, List.forall_mem_append] at hcalls
      exact .choice (htest.passes hcalls.1) hq (ha.passes hcalls.2.1) hc (hb.passes hcalls.2.2)
  | .ofBinary h, hcalls => h.passes hcalls
  | .binary hl ht _ hr, hcalls => by
      simp only [Expr.CallsOnly, Expr.callees, List.forall_mem_append] at hcalls
      exact .binary (hl.passes hcalls.1) ht (hr.passes hcalls.2)
  | .ofOperand h, hcalls => h.passes hcalls
  | .unary ht h, hcalls => .unary ht (h.passes hcalls)
  | .ofApplied h, hcalls => h.passes hcalls
  | .call hf ho hargs hc, hcalls => by
      simp only [Expr.CallsOnly, Expr.callees, List.forall_mem_cons, List.forall_mem_append]
        at hcalls
      obtain ⟨⟨name, hname, hknown⟩, hcallee, hrest⟩ := hcalls
      have hf := hf.passes hcallee
      have hpass := hargs.passes hrest
      rw [Expr.name?_eq_some.mp hname] at hf ⊢
      exact .call hf hknown ho hargs.not_closed hpass hc
  | .callEmpty hf ho hc, hcalls => by
      simp only [Expr.CallsOnly, Expr.callees, List.forall_mem_cons, List.forall_mem_append]
        at hcalls
      obtain ⟨⟨name, hname, hknown⟩, hcallee, -⟩ := hcalls
      have hf := hf.passes hcallee
      rw [Expr.name?_eq_some.mp hname] at hf ⊢
      exact .callEmpty hf hknown ho hc
  | .ofPrimary h, hcalls => h.passes hcalls
  | .number ht, _ => .number ht
  | .name ht, _ => .name ht
  | .group ho h hc, hcalls => .group ho (h.passes hcalls) hc

lemma DerivesArguments.passes {ts : List Token} {es : List (Expr α)} :
    DerivesArguments precedence ts es →
      (∀ f ∈ Expr.calleesOfList es, ∃ name, f = some name ∧ known name = true) →
      PassesArguments known ts
  | .last h, hcalls => by
      intro stack
      simp only [Expr.calleesOfList, List.append_nil] at hcalls
      obtain ⟨callee, hrun, -⟩ := h.passes hcalls false (.call :: stack)
      exact ⟨callee, hrun⟩
  | .more h ht hrest, hcalls => by
      intro stack
      simp only [Expr.calleesOfList, List.forall_mem_append] at hcalls
      obtain ⟨callee, hrun, -⟩ := h.passes hcalls.1 false (.call :: stack)
      obtain ⟨callee', hrun'⟩ := hrest.passes hcalls.2 stack
      refine ⟨callee', ?_⟩
      simp only [List.map_append, List.map_cons, run_append, run_cons, hrun, ht.lexeme,
        Option.bind_some, step, stepAfter, stepClose, if_true, if_false, String.reduceEq, hrun']

end

end CausalEquations
