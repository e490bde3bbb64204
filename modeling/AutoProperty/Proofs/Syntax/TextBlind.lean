import AutoProperty.Proofs.Syntax.Commuting
import AutoProperty.Syntax.Statement

/-! # Names, types, expressions and statements under a change of tokens

None of these looks at the text of a token.
-/

namespace AutoProperty

namespace Production

variable {f : Token → Token} (hf : KeepsKinds f)
include hf

/-! ## Names and types -/

theorem commutes_simpleName : Commutes f (Element.map f) simpleName simpleName :=
  (Commutes.expect hf _).bind fun _ => .pure (by simp)

theorem commutes_nameSuffix (qualifier : Element) :
    Commutes f (Option.map (Element.map f)) (nameSuffix qualifier)
      (nameSuffix (qualifier.map f)) := by
  refine .look_bind fun ahead ahead' hahead => .ite (by rw [hahead.kindAt_eq hf])
    (fun _ => .pure rfl) fun _ => ?_
  exact (Commutes.take? hf _).taking
    (fun dot => (commutes_simpleName hf).bind fun name => .pure (by simp)) (.pure rfl)

theorem commutes_name : Commutes f (Element.map f) name name :=
  (commutes_simpleName hf).bind fun _ => .iterate (commutes_nameSuffix hf) _

theorem commutes_typeSuffix (inner : Element) :
    Commutes f (Option.map (Element.map f)) (typeSuffix inner) (typeSuffix (inner.map f)) := by
  refine (Commutes.take? hf _).taking (fun question => .pure (by simp)) ?_
  refine .look_bind fun ahead ahead' hahead => .ite (by rw [hahead.kindAt_eq hf])
    (fun _ => .pure rfl) fun _ => ?_
  exact (Commutes.take? hf _).taking
    (fun opening => (Commutes.expect hf _).bind fun closing => .pure (by simp)) (.pure rfl)

theorem commutes_type : Commutes f (Element.map f) type type := by
  have hsuffixes : ∀ base : Element,
      Commutes f (Element.map f) (iterate typeSuffix base) (iterate typeSuffix (base.map f)) :=
    fun base => .iterate (commutes_typeSuffix hf) base
  exact (Commutes.takeIf? hf _).taking (fun keyword => .bind (.pure (by simp)) hsuffixes)
    ((commutes_name hf).bind hsuffixes)

theorem kind_eq_of_token_eq {l l' : Lexeme} (h : l'.token = f l.token) : l'.kind = l.kind := by
  rw [Lexeme.kind, h, hf.kind]
  rfl

/-- The lookahead passes the same parts of a name. -/
theorem follows_afterNameSuffixes {ahead ahead' : List Lexeme} (hahead : Follows f ahead ahead') :
    Follows f (afterNameSuffixes ahead) (afterNameSuffixes ahead') := by
  induction hn : ahead.length using Nat.strongRecOn generalizing ahead ahead' with
  | ind n ih =>
    cases hahead with
    | nil => exact .nil
    | cons hdot hahead =>
      cases hahead with
      | nil => exact .cons hdot .nil
      | cons hword hrest =>
        rw [afterNameSuffixes, afterNameSuffixes, kind_eq_of_token_eq hf hdot,
          kind_eq_of_token_eq hf hword]
        split
        next => exact ih _ (by simp at hn; omega) hrest rfl
        next => exact .cons hdot (.cons hword hrest)

/-- The lookahead passes the same parts of a type. -/
theorem follows_afterTypeSuffixes {ahead ahead' : List Lexeme} (hahead : Follows f ahead ahead') :
    Follows f (afterTypeSuffixes ahead) (afterTypeSuffixes ahead') := by
  induction hn : ahead.length using Nat.strongRecOn generalizing ahead ahead' with
  | ind n ih =>
    cases hahead with
    | nil => exact .nil
    | cons hfirst hahead =>
      unfold afterTypeSuffixes
      rw [kind_eq_of_token_eq hf hfirst]
      split
      next => exact ih _ (by simp at hn; omega) hahead rfl
      next =>
        cases hahead with
        | nil => exact .cons hfirst .nil
        | cons hsecond hrest =>
          dsimp only
          rw [kind_eq_of_token_eq hf hsecond]
          split
          next => exact ih _ (by simp at hn; omega) hrest rfl
          next => exact .cons hfirst (.cons hsecond hrest)

/-- The lookahead finds the same types. -/
theorem follows_afterType? {ahead ahead' : List Lexeme} (hahead : Follows f ahead ahead') :
    afterType? ahead = none ∧ afterType? ahead' = none ∨
      ∃ rest rest', afterType? ahead = some rest ∧ afterType? ahead' = some rest' ∧
        Follows f rest rest' := by
  cases hahead with
  | nil => exact .inl ⟨rfl, rfl⟩
  | cons hfirst hrest =>
    simp only [afterType?]
    rw [kind_eq_of_token_eq hf hfirst]
    split
    next => exact .inr ⟨_, _, rfl, rfl, follows_afterTypeSuffixes hf hrest⟩
    split
    next =>
      exact .inr ⟨_, _, rfl, rfl, follows_afterTypeSuffixes hf (follows_afterNameSuffixes hf hrest)⟩
    next => exact .inl ⟨rfl, rfl⟩

/-- A declaration of locals is told from an expression by kinds only. -/
theorem startsLocalDeclaration_eq {ahead ahead' : List Lexeme} (hahead : Follows f ahead ahead') :
    startsLocalDeclaration ahead' = startsLocalDeclaration ahead := by
  unfold startsLocalDeclaration
  obtain ⟨h, h'⟩ | ⟨rest, rest', h, h', hrest⟩ := follows_afterType? hf hahead
  · rw [h, h']
  · rw [h, h']
    cases hrest with
    | nil => rfl
    | cons hword hrest =>
      cases hrest with
      | nil => rfl
      | cons hnext _ =>
        dsimp only
        rw [kind_eq_of_token_eq hf hword, kind_eq_of_token_eq hf hnext]

/-! ## Expressions -/

theorem commutes_missingExpression :
    Commutes f (Element.map f) missingExpression missingExpression :=
  (Commutes.complain _).bind fun _ => .pure (by simp [hf.missing])

theorem commutes_tooDeep : Commutes f (Element.map f) tooDeep tooDeep :=
  (Commutes.complain _).bind fun _ => commutes_missingExpression hf

section Expressions

variable {expression : Production Element}
  (hexpression : Commutes f (Element.map f) expression expression)
include hexpression

theorem commutes_argumentList :
    Commutes f (Element.map f) (argumentList expression) (argumentList expression) := by
  refine (Commutes.expect hf _).bind fun opening => (Commutes.lookKind hf).bind fun kind => ?_
  extract_lets jp jp'
  have hjp : ∀ arguments,
      Commutes f (Element.map f) (jp arguments) (jp' (Element.mapAll f arguments)) :=
    fun arguments => (Commutes.expect hf _).bind fun closing => .pure (by simp)
  refine .ite rfl (fun _ => hjp []) fun _ => (Commutes.separated hf ?_).bind hjp
  exact hexpression.bind fun e => .pure (by simp)

/-- The creation of an object depends on the kinds of its tokens only. -/
theorem commutes_objectCreation (new : Element) :
    Commutes f (Element.map f) (objectCreation expression new)
      (objectCreation expression (new.map f)) := by
  refine (Commutes.lookKind hf).bind fun kind => ?_
  extract_lets jp jp'
  have hjp : ∀ types, Commutes f (Element.map f) (jp types) (jp' (Element.mapAll f types)) := by
    intro types
    refine (Commutes.lookKind hf).bind fun kind => ?_
    extract_lets jp jp'
    have hjp : ∀ arguments,
        Commutes f (Element.map f) (jp arguments) (jp' (Element.mapAll f arguments)) :=
      fun arguments => .pure (by simp)
    refine .ite rfl (fun _ => ?_) fun _ => ?_
    · exact (commutes_argumentList hf hexpression).bind fun arguments => hjp [arguments]
    · exact (Commutes.complain _).bind fun _ => hjp []
  refine .ite rfl (fun _ => ?_) fun _ => ?_
  · exact (commutes_type hf).bind fun type => hjp [type]
  · exact (Commutes.complain _).bind fun _ => hjp []

/-- An operand depends on the kinds of its tokens only. -/
theorem commutes_primary? :
    Commutes f (Option.map (Element.map f)) (primary? expression) (primary? expression) := by
  refine (Commutes.lookKind hf).bind fun kind => ?_
  dsimp only [id]
  split
  next => exact (Commutes.takeIf? hf _).taking (fun taken => .pure (by simp)) (.pure rfl)
  next =>
    refine (Commutes.take? hf _).taking (fun new => ?_) ?_
    · exact (commutes_objectCreation hf hexpression new).bind fun e => .pure rfl
    refine (Commutes.take? hf _).taking (fun opening => ?_) (.pure rfl)
    exact hexpression.bind fun inner => (Commutes.expect hf _).bind fun closing => .pure (by simp)

theorem commutes_postfixPart (inner : Element) :
    Commutes f (Option.map (Element.map f)) (postfixPart expression inner)
      (postfixPart expression (inner.map f)) := by
  refine (Commutes.take? hf _).taking (fun dot => ?_) ?_
  · exact (commutes_simpleName hf).bind fun name => .pure (by simp)
  refine (Commutes.lookKind hf).bind fun kind => .ite rfl (fun _ => ?_) fun _ => ?_
  · exact (commutes_argumentList hf hexpression).bind fun arguments => .pure (by simp)
  · exact (Commutes.takeIf? hf _).taking (fun step => .pure (by simp)) (.pure rfl)

theorem commutes_operand : Commutes f (Element.map f) (operand expression) (operand expression) :=
  (commutes_primary? hf hexpression).taking
    (fun inner => .iterate (commutes_postfixPart hf hexpression) inner)
    (commutes_missingExpression hf)

theorem commutes_binary (levels : List (List Kind)) :
    Commutes f (Element.map f) (binary expression levels) (binary expression levels) := by
  induction levels with
  | nil => exact hexpression
  | cons operators stronger ih =>
    refine ih.bind fun first => .iterate (m := Element.map f) (fun left => ?_) first
    exact (Commutes.takeIf? hf _).taking
      (fun operator => ih.bind fun right => .pure (by simp)) (.pure rfl)

theorem commutes_assignment {right : Production Element}
    (hright : Commutes f (Element.map f) right right) :
    Commutes f (Element.map f) (assignment expression right) (assignment expression right) :=
  (commutes_binary hf hexpression _).bind fun left => (Commutes.takeIf? hf _).taking
    (fun operator => hright.bind fun value => .pure (by simp)) (.pure rfl)

theorem commutes_prefixUnary :
    Commutes f (Element.map f) (prefixUnary expression) (prefixUnary expression) :=
  (Commutes.takeIf? hf _).taking
    (fun operator => hexpression.bind fun inner => .pure (by simp)) hexpression

theorem commutes_unaryOr {prefixed : Production Element}
    (hprefixed : Commutes f (Element.map f) prefixed prefixed) :
    Commutes f (Element.map f) (unaryOr prefixed expression) (unaryOr prefixed expression) :=
  (Commutes.lookKind hf).bind fun _ => .ite rfl (fun _ => hprefixed) fun _ =>
    commutes_operand hf hexpression

end Expressions

theorem commutes_expression_unary (budget : Nat) :
    Commutes f (Element.map f) (expression budget) (expression budget) ∧
      Commutes f (Element.map f) (unary budget) (unary budget) := by
  have htooDeep := commutes_tooDeep hf
  induction budget with
  | zero => exact ⟨htooDeep, commutes_unaryOr hf htooDeep htooDeep⟩
  | succ budget ih =>
    have hexpression := commutes_assignment hf ih.2 ih.1
    exact ⟨hexpression, commutes_unaryOr hf hexpression (commutes_prefixUnary hf ih.2)⟩

theorem commutes_expression (budget : Nat) :
    Commutes f (Element.map f) (expression budget) (expression budget) :=
  (commutes_expression_unary hf budget).1

/-! ## Statements -/

section Statements

variable {expression : Production Element}
  (hexpression : Commutes f (Element.map f) expression expression)
include hexpression

theorem commutes_equalsValue? :
    Commutes f (Element.mapAll f) (equalsValue? expression) (equalsValue? expression) :=
  (Commutes.take? hf _).taking (fun equals => hexpression.bind fun value => .pure (by simp))
    (.pure (by simp))

theorem commutes_declarator :
    Commutes f (Element.map f) (declarator expression) (declarator expression) :=
  (Commutes.expect hf _).bind fun name =>
    (commutes_equalsValue? hf hexpression).bind fun value => .pure (by simp)

theorem commutes_variableDeclaration (type : Element) :
    Commutes f (Element.map f) (variableDeclaration expression type)
      (variableDeclaration expression (type.map f)) :=
  (Commutes.separated hf (commutes_declarator hf hexpression)).bind fun declarators =>
    .pure (by simp)

theorem commutes_returned (keyword : Element) :
    Commutes f (Element.map f) (returned expression keyword)
      (returned expression (keyword.map f)) := by
  refine (Commutes.lookKind hf).bind fun kind => ?_
  extract_lets jp jp'
  have hjp : ∀ values, Commutes f (Element.map f) (jp values) (jp' (Element.mapAll f values)) :=
    fun values => (Commutes.expect hf _).bind fun semicolon => .pure (by simp)
  exact .ite rfl (fun _ => hjp []) fun _ => hexpression.bind fun value => hjp [value]

theorem commutes_localDeclaration :
    Commutes f (Element.map f) (localDeclaration expression) (localDeclaration expression) :=
  (commutes_type hf).bind fun type => (commutes_variableDeclaration hf hexpression type).bind
    fun declaration => (Commutes.expect hf _).bind fun semicolon => .pure (by simp)

theorem commutes_expressionStatement :
    Commutes f (Element.map f) (expressionStatement expression) (expressionStatement expression) :=
  hexpression.progress.bind fun (value, moved) => .ite rfl
    (fun _ => (Commutes.expect hf _).bind fun semicolon => .pure (by simp))
    fun _ => .pure (by simp)

variable {statement : Production (List Element)}
  (hstatement : Commutes f (Element.mapAll f) statement statement)
include hstatement

omit hexpression in
theorem commutes_block : Commutes f (Element.map f) (block statement) (block statement) := by
  refine (Commutes.expect hf _).bind fun opening => ?_
  refine (Commutes.itemsBefore hf _ ?_).bind fun statements =>
    (Commutes.expect hf _).bind fun closing => .pure (by simp)
  exact hstatement.progress.bind fun (made, moved) => .ite rfl (fun _ => .pure rfl)
    fun _ => (Commutes.skip hf _).bind fun skipped => .pure (by simp)

omit hexpression in
theorem commutes_embedded :
    Commutes f (Element.mapAll f) (embedded statement) (embedded statement) :=
  hstatement.progress.bind fun (made, moved) => .ite rfl (fun _ => .pure rfl)
    fun _ => (Commutes.complain _).bind fun _ => .pure (by simp [hf.missing])

/-- A conditional depends on the kinds of its tokens only. -/
theorem commutes_conditional (keyword : Element) :
    Commutes f (Element.map f) (conditional statement expression keyword)
      (conditional statement expression (keyword.map f)) := by
  refine (Commutes.expect hf _).bind fun opening => hexpression.bind fun condition => ?_
  refine (Commutes.expect hf _).bind fun closing => ?_
  refine (commutes_embedded hf hstatement).bind fun consequence => ?_
  have hjp : ∀ alternative, Commutes f (Element.map f)
      (pure (.node .ifStatement
        ([keyword, opening, condition, closing] ++ consequence ++ alternative)))
      (pure (.node .ifStatement
        ([keyword.map f, opening.map f, condition.map f, closing.map f] ++
          Element.mapAll f consequence ++ Element.mapAll f alternative))) :=
    fun alternative => .pure (by simp)
  refine (Commutes.take? hf _).taking (fun word => ?_) (hjp [])
  exact (commutes_embedded hf hstatement).bind fun branch =>
    hjp [.node .elseClause (word :: branch)]

/-- A statement depends on the kinds of its tokens only. -/
theorem commutes_statementOf :
    Commutes f (Element.mapAll f) (statementOf statement expression)
      (statementOf statement expression) := by
  refine (Commutes.take? hf _).taking (fun semicolon => .pure (by simp)) ?_
  refine (Commutes.take? hf _).taking
    (fun keyword => (commutes_returned hf hexpression keyword).bind fun e => .pure (by simp)) ?_
  refine (Commutes.take? hf _).taking (fun keyword =>
    (commutes_conditional hf hexpression hstatement keyword).bind fun e => .pure (by simp)) ?_
  refine .look_bind fun ahead ahead' hahead => ?_
  refine .ite (by rw [hahead.kindAt_eq hf])
    (fun _ => (commutes_block hf hstatement).bind fun e => .pure (by simp)) fun _ => ?_
  refine .ite (startsLocalDeclaration_eq hf hahead)
    (fun _ => (commutes_localDeclaration hf hexpression).bind fun e => .pure (by simp)) fun _ => ?_
  refine .ite (by rw [hahead.kindAt_eq hf, hahead.isEmpty_eq]) (fun _ => .pure (by simp)) fun _ =>
    ?_
  exact (commutes_expressionStatement hf hexpression).bind fun e => .pure (by simp)

end Statements

theorem commutes_statement (budget : Nat) :
    Commutes f (Element.mapAll f) (statement budget) (statement budget) := by
  induction budget with
  | zero => exact (Commutes.complain _).bind fun _ => .skip hf _
  | succ budget ih => exact commutes_statementOf hf (commutes_expression hf budget) ih

end Production

end AutoProperty
