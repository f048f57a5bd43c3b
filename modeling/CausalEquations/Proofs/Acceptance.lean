import CausalEquations.Proofs.StackMachine

/-!
# The machine accepts expressions only

The converse is an induction on the tokens that are still to come. What follows an operand is cut
into a part that prolongs it to a full expression and a part that closes what stands open. Since the
parts are found from the right, an operator and an operand may have to be put in front of an
expression that is already grouped, which regroups it but loses nothing.

* `Derives.prependBinary`, `Derives.prependUnary` — operators in front of an expression.
* `Prolongs`, `Closes` — the two parts.
* `accepts_iff` — the machine accepts exactly the expressions that call known functions only.
-/

namespace CausalEquations

variable {α : Type} [Scalar α] {known : Name → Bool}

/-! ## Operators in front of an expression -/

lemma Token.IsBinary.one_le {t : Token} {s : Int} (h : t.IsBinary precedence s) : 1 ≤ s := by
  obtain ⟨entry, hentry, rfl⟩ := Option.map_eq_some_iff.mp h.2
  have hall : ∀ entry ∈ precedence, 1 ≤ entry.2 := by decide
  exact hall entry (List.mem_of_find?_eq_some hentry)

/-- The tokens form a full expression that calls known functions only. -/
def Forms (known : Name → Bool) (ts : List Token) (e : Expr α) : Prop :=
  Derives precedence .full ts e ∧ e.CallsOnly known

/-- An operand and a binary operator in front of an expression. The operator takes over the outermost
operators on the left that are no stronger than it. -/
lemma Derives.prependBinary {xs : List Token} {x : Expr α} {t : Token} {s : Int}
    (hx : Derives precedence .operand xs x) (hcalls : x.CallsOnly known)
    (ht : t.IsBinary precedence s) {level : Int} {ts : List Token} {e : Expr α} :
    Derives precedence (.binary level) ts e → e.CallsOnly known →
    ∃ e' : Expr α, Derives precedence (.binary (min level s)) (xs ++ t :: ts) e' ∧ e'.CallsOnly known
  | .ofOperand h, he =>
      ⟨.binary t.text x e, .binary (.ofOperand hx) ht (min_le_right _ _) (.ofOperand h),
        hcalls.binary he⟩
  | @Derives.binary _ _ _ _ s' ls rs t' l r hl ht' hs' hr, he => by
      obtain ⟨hcl, hcr⟩ := he.of_binary
      by_cases hle : s' ≤ s
      · obtain ⟨l', hl', hcl'⟩ := Derives.prependBinary hx hcalls ht hl hcl
        rw [min_eq_left hle] at hl'
        refine ⟨.binary t'.text l' r, ?_, hcl'.binary hcr⟩
        have hjoin : xs ++ t :: (ls ++ t' :: rs) = (xs ++ t :: ls) ++ t' :: rs := by simp
        rw [hjoin]
        exact .binary hl' ht' (le_trans (min_le_left _ _) hs') hr
      · refine ⟨.binary t.text x (.binary t'.text l r), ?_, hcalls.binary he⟩
        exact .binary (.ofOperand hx) ht (min_le_right _ _) (.binary hl ht' (by omega) hr)

/-- A prefix operator in front of an expression applies to its first operand. -/
lemma Derives.prependUnary {t : Token} (ht : t.IsUnary) {level : Int} {ts : List Token}
    {e : Expr α} : Derives precedence (.binary level) ts e → e.CallsOnly known →
    ∃ e' : Expr α, Derives precedence (.binary level) (t :: ts) e' ∧ e'.CallsOnly known
  | .ofOperand h, he => ⟨.unary t.text e, .ofOperand (.unary ht h), he⟩
  | @Derives.binary _ _ _ _ _ _ _ t' _ r hl ht' hs' hr, he => by
      obtain ⟨hcl, hcr⟩ := he.of_binary
      obtain ⟨l', hl', hcl'⟩ := Derives.prependUnary ht hl hcl
      exact ⟨.binary t'.text l' r, .binary hl' ht' hs' hr, hcl'.binary hcr⟩

lemma Forms.prependBinary {xs ts : List Token} {x e : Expr α} {t : Token} {s : Int}
    (hx : Derives precedence .operand xs x) (hcalls : x.CallsOnly known)
    (ht : t.IsBinary precedence s) (h : Forms known ts e) :
    ∃ e' : Expr α, Forms known (xs ++ t :: ts) e' := by
  have hmin : min 1 s = 1 := min_eq_left ht.one_le
  obtain ⟨d, he⟩ := h
  cases d with
  | choice htest hq ha hc hb =>
      obtain ⟨hct, hca, hcb⟩ := he.of_choice
      obtain ⟨test', htest', hct'⟩ := Derives.prependBinary hx hcalls ht htest hct
      rw [hmin] at htest'
      have hfull := Derives.choice htest' hq ha hc hb
      simp only [List.append_assoc, List.cons_append] at hfull
      exact ⟨_, hfull, hct'.choice hca hcb⟩
  | ofBinary h =>
      obtain ⟨e', h', he'⟩ := Derives.prependBinary hx hcalls ht h he
      rw [hmin] at h'
      exact ⟨e', .ofBinary h', he'⟩

lemma Forms.prependUnary {ts : List Token} {e : Expr α} {t : Token} (ht : t.IsUnary)
    (h : Forms known ts e) : ∃ e' : Expr α, Forms known (t :: ts) e' := by
  obtain ⟨d, he⟩ := h
  cases d with
  | choice htest hq ha hc hb =>
      obtain ⟨hct, hca, hcb⟩ := he.of_choice
      obtain ⟨test', htest', hct'⟩ := Derives.prependUnary ht htest hct
      exact ⟨_, .choice htest' hq ha hc hb, hct'.choice hca hcb⟩
  | ofBinary h =>
      obtain ⟨e', h', he'⟩ := Derives.prependUnary ht h he
      exact ⟨e', .ofBinary h', he'⟩

/-! ## What prolongs an operand -/

/-- The tokens prolong an operand to a full expression. In front of them the machine has taken the
operand for a `callee`, behind them it takes the expression for a `callee'`. -/
structure Prolongs (α : Type) [Scalar α] (known : Name → Bool) (callee : Callee) (ts : List Token)
    (callee' : Callee) : Prop where
  forms : ∀ (xs : List Token) (x : Expr α), Derives precedence .applied xs x → x.CallsOnly known →
    (callee ≠ .other → Expr.IsCallable known x) →
    ∃ e : Expr α, Forms known (xs ++ ts) e ∧ (callee' = .alone → Expr.IsCallable known e)
  alone : callee' = .alone → callee = .alone

variable {callee callee' : Callee} {ts us vs : List Token} {e : Expr α}

lemma Prolongs.nil : Prolongs α known callee [] callee where
  forms xs x hx hcalls hcallable := by
    rw [List.append_nil]
    refine ⟨x, ⟨.ofBinary (.ofOperand (.ofApplied hx)), hcalls⟩, fun h => hcallable ?_⟩
    rw [h]
    decide
  alone h := h

lemma Prolongs.binary {t : Token} {s : Int} (ht : t.IsBinary precedence s) (h : Forms known ts e)
    (hcallee : callee' ≠ .alone) : Prolongs α known callee (t :: ts) callee' where
  forms xs x hx hcalls _ := by
    obtain ⟨e', he'⟩ := h.prependBinary (.ofApplied hx) hcalls ht
    exact ⟨e', he', fun h => absurd h hcallee⟩
  alone h := absurd h hcallee

lemma Prolongs.choice {q c : Token} {a b : Expr α} (hq : q.IsMark "?") (ha : Forms known us a)
    (hc : c.IsMark ":") (hb : Forms known vs b) (hcallee : callee' ≠ .alone) :
    Prolongs α known callee (q :: (us ++ c :: vs)) callee' where
  forms _ x hx hcalls _ :=
    ⟨.choice x a b, ⟨.choice (.ofOperand (.ofApplied hx)) hq ha.1 hc hb.1,
      hcalls.choice ha.2 hb.2⟩, fun h => absurd h hcallee⟩
  alone h := absurd h hcallee

/-- The tokens form the arguments of a call. -/
def FormsArguments (known : Name → Bool) (ts : List Token) (es : List (Expr α)) : Prop :=
  DerivesArguments precedence ts es ∧
    ∀ f ∈ Expr.calleesOfList es, ∃ name, f = some name ∧ known name = true

lemma Prolongs.call {o c : Token} {es : List (Expr α)} (hcallee : callee ≠ .other)
    (ho : o.IsMark "(") (hargs : FormsArguments known us es) (hc : c.IsMark ")")
    (h : Prolongs α known .other ts callee') :
    Prolongs α known callee (o :: (us ++ c :: ts)) callee' where
  forms xs x hx _ hcallable := by
    have happlied := Derives.call hx ho hargs.1 hc
    obtain ⟨e, he, hcallable'⟩ := h.forms _ _ happlied (.call (hcallable hcallee) hargs.2)
      fun h => absurd rfl h
    simp only [List.append_assoc, List.cons_append, List.nil_append] at he
    exact ⟨e, he, hcallable'⟩
  alone h' := absurd (h.alone h') (by decide)

lemma Prolongs.callEmpty {o c : Token} (hcallee : callee ≠ .other) (ho : o.IsMark "(")
    (hc : c.IsMark ")") (h : Prolongs α known .other ts callee') :
    Prolongs α known callee (o :: c :: ts) callee' where
  forms xs x hx _ hcallable := by
    have happlied := Derives.callEmpty hx ho hc
    obtain ⟨e, he, hcallable'⟩ := h.forms _ _ happlied
      (.call (hcallable hcallee) (by simp [Expr.calleesOfList])) fun h => absurd rfl h
    simp only [List.append_assoc, List.cons_append, List.nil_append] at he
    exact ⟨e, he, hcallable'⟩
  alone h' := absurd (h.alone h') (by decide)

/-! ## What closes the open frames -/

/-- Behind an argument the tokens go on with further arguments. -/
def GoesOn (α : Type) [Scalar α] (known : Name → Bool) (ts : List Token) : Prop :=
  ∀ (us : List Token) (e : Expr α), Forms known us e →
    ∃ es : List (Expr α), FormsArguments known (us ++ ts) es

/-- Behind a full expression that the machine takes for a `callee` the tokens close every frame, and
what a frame closes is prolonged to a full expression again. -/
def Closes (α : Type) [Scalar α] (known : Name → Bool) :
    List Frame → Callee → List Token → Prop
  | [], _, ts => ts = []
  | .group alone :: stack, callee, ts => ∃ c ks rest callee', c.IsMark ")" ∧ ts = c :: (ks ++ rest) ∧
      Prolongs α known (callee.inGroup alone) ks callee' ∧ Closes α known stack callee' rest
  | .call :: stack, _, ts => ∃ more c ks rest callee', c.IsMark ")" ∧
      ts = more ++ c :: (ks ++ rest) ∧ GoesOn α known more ∧ Prolongs α known .other ks callee' ∧
      Closes α known stack callee' rest
  | .choice :: stack, _, ts => ∃ c us rest callee', ∃ e : Expr α, c.IsMark ":" ∧
      ts = c :: (us ++ rest) ∧ Forms known us e ∧ callee' ≠ .alone ∧
      Closes α known stack callee' rest

/-- The tokens prolong an operand and then close every frame. -/
def ClosesAfter (α : Type) [Scalar α] (known : Name → Bool) (callee : Callee) (stack : List Frame)
    (ts : List Token) : Prop :=
  ∃ ks rest callee', ts = ks ++ rest ∧ Prolongs α known callee ks callee' ∧
    Closes α known stack callee' rest

/-- The tokens start with a full expression and then close every frame. -/
def ClosesOperand (α : Type) [Scalar α] (known : Name → Bool) (alone : Bool) (stack : List Frame)
    (ts : List Token) : Prop :=
  ∃ us rest callee, ∃ e : Expr α, ts = us ++ rest ∧ Forms known us e ∧
    (callee = .alone → alone = true ∧ Expr.IsCallable known e) ∧ Closes α known stack callee rest

/-- The tokens end a call without arguments, prolong it and close every frame. -/
def ClosesEmpty (α : Type) [Scalar α] (known : Name → Bool) (stack : List Frame)
    (ts : List Token) : Prop :=
  ∃ c tail, ts = c :: tail ∧ c.IsMark ")" ∧ ClosesAfter α known .other stack tail

variable {stack : List Frame} {alone : Bool}

/-- Prolonging an operand that the machine has gone through. -/
lemma ClosesAfter.operand {xs : List Token} {x : Expr α} (h : ClosesAfter α known callee stack ts)
    (hx : Derives precedence .applied xs x) (hcalls : x.CallsOnly known)
    (hcallable : callee ≠ .other → Expr.IsCallable known x)
    (halone : callee = .alone → alone = true) :
    ClosesOperand α known alone stack (xs ++ ts) := by
  obtain ⟨ks, rest, callee', rfl, hks, hrest⟩ := h
  obtain ⟨e, he, hcallable'⟩ := hks.forms xs x hx hcalls hcallable
  exact ⟨xs ++ ks, rest, callee', e, (List.append_assoc _ _ _).symm, he,
    fun h => ⟨halone (hks.alone h), hcallable' h⟩, hrest⟩

lemma Token.eq_of_lexeme {t : Token} {kind : TokenKind} {x : String} (h : t.lexeme = (kind, x)) :
    t.kind = kind ∧ t.text = x := Prod.mk.inj h

lemma Callee.eq_true_of_ofAlone (h : Callee.ofAlone alone = .alone) : alone = true := by
  cases alone with
  | true => rfl
  | false => cases h

lemma Callee.eq_alone_of_inGroup (h : callee.inGroup alone ≠ .other) : callee = .alone := by
  cases callee with
  | alone => rfl
  | direct | other => exact absurd rfl h

lemma callsOnly_ofName (x : String) : (Expr.ofName x : Expr α).CallsOnly known := by
  unfold Expr.ofName
  split
  · exact fun f hf => by cases hf
  · split
    · exact fun f hf => by cases hf
    · exact fun f hf => by cases hf

lemma isCallable_ofName (htrue : known "true" = false) (hfalse : known "false" = false) {x : String}
    (hknown : known x = true) : Expr.IsCallable known (Expr.ofName x : Expr α) := by
  refine ⟨x, ?_, hknown⟩
  unfold Expr.ofName
  rw [if_neg (fun h => by simp [h, htrue] at hknown),
    if_neg (fun h => by simp [h, hfalse] at hknown)]

/-! ### Tokens where an operand is due -/

section

variable {t : Token}

lemma ClosesAfter.number (ht : t.kind = .number) (h : ClosesAfter α known .other stack ts) :
    ClosesOperand α known alone stack (t :: ts) :=
  h.operand (.ofPrimary (.number ht)) (fun f hf => by cases hf) (fun hne => absurd rfl hne)
    (fun heq => by cases heq)

lemma ClosesAfter.name (htrue : known "true" = false) (hfalse : known "false" = false)
    (ht : t.kind = .name)
    (h : ClosesAfter α known (if known t.text then .ofAlone alone else .other) stack ts) :
    ClosesOperand α known alone stack (t :: ts) := by
  refine h.operand (.ofPrimary (.name ht)) (callsOnly_ofName _) ?_ ?_
  · intro hcallee
    by_cases hknown : known t.text = true
    · exact isCallable_ofName htrue hfalse hknown
    · exact absurd (if_neg hknown) hcallee
  · intro hcallee
    by_cases hknown : known t.text = true
    · rw [if_pos hknown] at hcallee
      exact Callee.eq_true_of_ofAlone hcallee
    · rw [if_neg hknown] at hcallee
      cases hcallee

lemma ClosesOperand.prependUnary (ht : t.IsUnary) (h : ClosesOperand α known false stack ts) :
    ClosesOperand α known alone stack (t :: ts) := by
  obtain ⟨us, rest, callee, e, rfl, he, halone, hrest⟩ := h
  obtain ⟨e', he'⟩ := he.prependUnary ht
  exact ⟨t :: us, rest, callee, e', rfl, he', fun heq => absurd (halone heq).1 (by decide), hrest⟩

lemma ClosesOperand.group (ht : t.IsMark "(")
    (h : ClosesOperand α known true (.group alone :: stack) ts) :
    ClosesOperand α known alone stack (t :: ts) := by
  obtain ⟨us, rest, callee, e, rfl, he, halone, c, ks, rest', callee', hc, rfl, hks, hrest⟩ := h
  have hgroup : Derives precedence .applied (t :: (us ++ [c])) e :=
    .ofPrimary (.group ht he.1 hc)
  have hclose : ClosesAfter α known (callee.inGroup alone) stack (ks ++ rest') :=
    ⟨ks, rest', callee', rfl, hks, hrest⟩
  have hoperand : ClosesOperand α known alone stack (t :: (us ++ [c]) ++ (ks ++ rest')) := by
    refine hclose.operand hgroup he.2 ?_ ?_
    · intro hne
      exact (halone (Callee.eq_alone_of_inGroup hne)).2
    · intro heq
      have hcallee := Callee.eq_alone_of_inGroup (heq.trans_ne (by decide))
      rw [hcallee] at heq
      exact Callee.eq_true_of_ofAlone heq
  simpa only [List.cons_append, List.append_assoc, List.nil_append] using hoperand

end

lemma closesOperand_step {t : Token} {c : Mode × List Frame} (htrue : known "true" = false)
    (hfalse : known "false" = false) (hstep : stepOperand known alone stack t.lexeme = some c)
    (hafter : ∀ callee stack, c = (.after callee, stack) → ClosesAfter α known callee stack ts)
    (hoperand : ∀ alone stack, c = (.operand alone, stack) →
      ClosesOperand α known alone stack ts) :
    ClosesOperand α known alone stack (t :: ts) := by
  cases hkind : t.kind with
  | finish => simp [Token.lexeme, hkind, stepOperand] at hstep
  | number =>
      simp only [Token.lexeme, hkind, stepOperand] at hstep
      cases hstep
      exact (hafter _ _ rfl).number hkind
  | name =>
      simp only [Token.lexeme, hkind, stepOperand] at hstep
      cases hstep
      exact (hafter _ _ rfl).name htrue hfalse hkind
  | op =>
      simp only [Token.lexeme, hkind, stepOperand] at hstep
      split at hstep
      · rename_i hop
        cases hstep
        exact (hoperand _ _ rfl).prependUnary ⟨hkind, hop⟩
      · cases hstep
  | punct =>
      simp only [Token.lexeme, hkind, stepOperand] at hstep
      split at hstep
      · rename_i hopen
        cases hstep
        exact (hoperand _ _ rfl).group ⟨hkind, hopen⟩
      · cases hstep

/-! ### Marks that end something -/

section

variable {t : Token}

lemma Closes.closesAfter (h : Closes α known stack callee ts) :
    ClosesAfter α known callee stack ts :=
  ⟨[], ts, callee, rfl, .nil, h⟩

lemma ClosesAfter.closeGroup (ht : t.IsMark ")")
    (h : ClosesAfter α known (callee.inGroup alone) stack ts) :
    Closes α known (.group alone :: stack) callee (t :: ts) := by
  obtain ⟨ks, rest, callee', rfl, hks, hrest⟩ := h
  exact ⟨t, ks, rest, callee', ht, rfl, hks, hrest⟩

/-- The last argument. -/
lemma ClosesAfter.closeCall (ht : t.IsMark ")") (h : ClosesAfter α known .other stack ts) :
    Closes α known (.call :: stack) callee (t :: ts) := by
  obtain ⟨ks, rest, callee', rfl, hks, hrest⟩ := h
  refine ⟨[], t, ks, rest, callee', ht, rfl, fun us e he => ⟨[e], ?_, ?_⟩, hks, hrest⟩
  · rw [List.append_nil]
    exact .last he.1
  · rw [Expr.calleesOfList, Expr.calleesOfList, List.append_nil]
    exact he.2

/-- One more argument. -/
lemma ClosesOperand.nextArgument (ht : t.IsMark ",")
    (h : ClosesOperand α known false (.call :: stack) ts) :
    Closes α known (.call :: stack) callee (t :: ts) := by
  obtain ⟨us, rest, -, e, rfl, he, -, more, c, ks, rest', callee', hc, rfl, hmore, hks, hrest⟩ := h
  refine ⟨t :: (us ++ more), c, ks, rest', callee', hc, by simp, fun vs e' he' => ?_, hks, hrest⟩
  obtain ⟨es, hes⟩ := hmore us e he
  refine ⟨e' :: es, .more he'.1 ht hes.1, ?_⟩
  simp only [Expr.calleesOfList, List.forall_mem_append]
  exact ⟨he'.2, hes.2⟩

lemma ClosesOperand.alternate (ht : t.IsMark ":") (h : ClosesOperand α known false stack ts) :
    Closes α known (.choice :: stack) callee (t :: ts) := by
  obtain ⟨us, rest, callee', e, rfl, he, halone, hrest⟩ := h
  exact ⟨t, us, rest, callee', e, ht, rfl, he, fun heq => absurd (halone heq).1 (by decide), hrest⟩

end

lemma closes_stepClose {t : Token} {c : Mode × List Frame} (ht : t.kind = .punct)
    (hstep : stepClose callee t.text stack = some c)
    (hafter : ∀ callee stack, c = (.after callee, stack) → ClosesAfter α known callee stack ts)
    (hoperand : ∀ alone stack, c = (.operand alone, stack) →
      ClosesOperand α known alone stack ts) :
    Closes α known stack callee (t :: ts) := by
  cases stack with
  | nil => cases hstep
  | cons frame stack =>
      cases frame with
      | group alone =>
          simp only [stepClose] at hstep
          split at hstep
          · rename_i hclose
            cases hstep
            exact (hafter _ _ rfl).closeGroup ⟨ht, hclose⟩
          · cases hstep
      | call =>
          simp only [stepClose] at hstep
          split at hstep
          · rename_i hclose
            cases hstep
            exact (hafter _ _ rfl).closeCall ⟨ht, hclose⟩
          · split at hstep
            · rename_i hcomma
              cases hstep
              exact (hoperand _ _ rfl).nextArgument ⟨ht, hcomma⟩
            · cases hstep
      | choice =>
          simp only [stepClose] at hstep
          split at hstep
          · rename_i hcolon
            cases hstep
            exact (hoperand _ _ rfl).alternate ⟨ht, hcolon⟩
          · cases hstep

/-! ### Tokens behind an operand -/

section

variable {t : Token}

lemma ClosesOperand.binary {s : Int} (ht : t.IsBinary precedence s)
    (h : ClosesOperand α known false stack ts) : ClosesAfter α known callee stack (t :: ts) := by
  obtain ⟨us, rest, callee', e, rfl, he, halone, hrest⟩ := h
  exact ⟨t :: us, rest, callee', rfl,
    .binary ht he fun heq => absurd (halone heq).1 (by decide), hrest⟩

lemma ClosesEmpty.call (hcallee : callee ≠ .other) (ht : t.IsMark "(")
    (h : ClosesEmpty α known stack ts) : ClosesAfter α known callee stack (t :: ts) := by
  obtain ⟨c, tail, rfl, hc, ks, rest, callee', rfl, hks, hrest⟩ := h
  exact ⟨t :: c :: ks, rest, callee', rfl, .callEmpty hcallee ht hc hks, hrest⟩

lemma ClosesOperand.call (hcallee : callee ≠ .other) (ht : t.IsMark "(")
    (h : ClosesOperand α known false (.call :: stack) ts) :
    ClosesAfter α known callee stack (t :: ts) := by
  obtain ⟨us, rest, -, e, rfl, he, -, more, c, ks, rest', callee', hc, rfl, hmore, hks, hrest⟩ := h
  obtain ⟨es, hes⟩ := hmore us e he
  exact ⟨t :: (us ++ more ++ c :: ks), rest', callee', by simp, .call hcallee ht hes hc hks, hrest⟩

lemma ClosesOperand.choice (ht : t.IsMark "?")
    (h : ClosesOperand α known false (.choice :: stack) ts) :
    ClosesAfter α known callee stack (t :: ts) := by
  obtain ⟨us, rest, -, e, rfl, he, -, c, vs, rest', callee', e', hc, rfl, he', halone, hrest⟩ := h
  exact ⟨t :: (us ++ c :: vs), rest', callee', by simp, .choice ht he hc he' halone, hrest⟩

end

lemma closesAfter_step {t : Token} {c : Mode × List Frame}
    (hstep : stepAfter callee stack t.lexeme = some c)
    (hafter : ∀ callee stack, c = (.after callee, stack) → ClosesAfter α known callee stack ts)
    (hoperand : ∀ alone stack, c = (.operand alone, stack) → ClosesOperand α known alone stack ts)
    (harguments : ∀ stack, c = (.arguments, .call :: stack) →
      ClosesEmpty α known stack ts ∨ ClosesOperand α known false (.call :: stack) ts) :
    ClosesAfter α known callee stack (t :: ts) := by
  cases hkind : t.kind with
  | finish | number | name => simp [Token.lexeme, hkind, stepAfter] at hstep
  | op =>
      simp only [Token.lexeme, hkind, stepAfter] at hstep
      split at hstep
      · rename_i hop
        cases hstep
        obtain ⟨s, hs⟩ := Option.isSome_iff_exists.mp hop
        exact (hoperand _ _ rfl).binary ⟨hkind, hs⟩
      · cases hstep
  | punct =>
      simp only [Token.lexeme, hkind, stepAfter] at hstep
      split at hstep
      · rename_i hopen
        split at hstep
        · cases hstep
        · rename_i hcallee
          cases hstep
          rcases harguments _ rfl with h | h
          · exact h.call hcallee ⟨hkind, hopen⟩
          · exact h.call hcallee ⟨hkind, hopen⟩
      · split at hstep
        · rename_i hquery
          cases hstep
          exact (hoperand _ _ rfl).choice ⟨hkind, hquery⟩
        · exact (closes_stepClose hkind hstep hafter hoperand).closesAfter

/-! ### All tokens -/

/-- What the machine makes of the tokens, cut into its parts. -/
structure Explains (α : Type) [Scalar α] (known : Name → Bool) (ts : List Token) : Prop where
  after : ∀ callee stack, Finishes known (.after callee, stack) (ts.map Token.lexeme) →
    ClosesAfter α known callee stack ts
  operand : ∀ alone stack, Finishes known (.operand alone, stack) (ts.map Token.lexeme) →
    ClosesOperand α known alone stack ts
  arguments : ∀ stack, Finishes known (.arguments, .call :: stack) (ts.map Token.lexeme) →
    ClosesEmpty α known stack ts ∨ ClosesOperand α known false (.call :: stack) ts

lemma explains (htrue : known "true" = false) (hfalse : known "false" = false) (ts : List Token) :
    Explains α known ts := by
  induction ts with
  | nil =>
      constructor
      · rintro callee stack ⟨callee', h⟩
        cases h
        exact ⟨[], [], callee, rfl, .nil, rfl⟩
      · rintro alone stack ⟨callee', h⟩
        cases h
      · rintro stack ⟨callee', h⟩
        cases h
  | cons t ts ih =>
      have hoperand : ∀ alone stack c, stepOperand known alone stack t.lexeme = some c →
          Finishes known c (ts.map Token.lexeme) → ClosesOperand α known alone stack (t :: ts) :=
        fun alone stack c hstep h => closesOperand_step htrue hfalse hstep
          (fun _ _ hc => ih.after _ _ (hc ▸ h)) (fun _ _ hc => ih.operand _ _ (hc ▸ h))
      constructor
      · intro callee stack h
        obtain ⟨c, hstep, h⟩ := h.cons
        exact closesAfter_step hstep (fun _ _ hc => ih.after _ _ (hc ▸ h))
          (fun _ _ hc => ih.operand _ _ (hc ▸ h)) (fun _ hc => ih.arguments _ (hc ▸ h))
      · intro alone stack h
        obtain ⟨c, hstep, h⟩ := h.cons
        exact hoperand alone stack c hstep h
      · intro stack h
        obtain ⟨c, hstep, h⟩ := h.cons
        simp only [step] at hstep
        split at hstep
        · rename_i hclose
          cases hstep
          exact .inl ⟨t, ts, rfl, Token.eq_of_lexeme hclose, ih.after _ _ h⟩
        · exact .inr (hoperand false _ c hstep h)

/-- **The machine accepts exactly the expressions that call known functions only.** -/
theorem accepts_iff (htrue : known "true" = false) (hfalse : known "false" = false)
    {ts : List Token} : Accepts known (ts.map Token.lexeme) ↔ ∃ e : Expr α, Forms known ts e := by
  constructor
  · intro h
    obtain ⟨us, rest, -, e, rfl, he, -, rfl⟩ := (explains (α := α) htrue hfalse ts).operand _ _ h
    exact ⟨e, by rwa [List.append_nil]⟩
  · rintro ⟨e, d, hcalls⟩
    obtain ⟨callee, hrun, -⟩ := d.passes hcalls false []
    exact ⟨callee, hrun⟩

end CausalEquations
