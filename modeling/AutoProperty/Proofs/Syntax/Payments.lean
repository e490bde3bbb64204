import AutoProperty.Proofs.Syntax.MemberShapes
import AutoProperty.Proofs.Syntax.Reports

/-! # What the problems pay for

Every production reports a problem for each missing token it stands in and for each time it sets
tokens aside, and it groups operators by their strength.
-/

namespace AutoProperty

open Element

namespace Production

/-! ## Names and types -/

theorem reports_simpleName : Reports PaidBy simpleName :=
  (reports_expect _).bind fun _ _ h => .pure (h.all.plain rfl)

theorem reports_nameSuffix {n : Nat} {qualifier : Element} (h : qualifier.PaidBy n) :
    Reports (GoesOn PaidBy n) (nameSuffix qualifier) := by
  refine .look_bind fun ahead => ?_
  split
  next => exact .pure rfl
  next =>
    refine (reports_take? _).taking (fun dot _ hdot => ?_) (.pure rfl)
    exact reports_simpleName.bind fun m last hlast =>
      .pure (.of ((h.cons (hdot.free hlast.all)).plain rfl))

theorem reports_name : Reports PaidBy name :=
  reports_simpleName.bind fun _ _ h => Reports.iterate (fun _ _ => reports_nameSuffix) h

/-- The further parts of a type pay for the missing tokens in them. -/
theorem reports_typeSuffix {n : Nat} {inner : Element} (h : inner.PaidBy n) :
    Reports (GoesOn PaidBy n) (typeSuffix inner) := by
  refine (reports_take? _).taking (fun question _ hquestion => .pure (.of ?_))
    (.look_bind fun ahead => ?_)
  · exact (h.cons hquestion.all).plain rfl
  split
  next => exact .pure rfl
  next =>
    refine (reports_take? _).taking (fun opening _ hopening => ?_) (.pure rfl)
    exact (reports_expect _).bind fun m closing hclosing =>
      .pure (.of ((h.cons (hopening.free hclosing.all)).plain rfl))

theorem reports_type : Reports PaidBy type := by
  have hsuffixes : ∀ n base, PaidBy n base →
      Reports (fun m e => PaidBy (n + m) e) (iterate typeSuffix base) :=
    fun _ _ => Reports.iterate fun _ _ => reports_typeSuffix
  refine (reports_takeIf? _).taking (fun keyword _ hkeyword => ?_) (reports_name.bind hsuffixes)
  have hbase : PaidBy 0 (.node .predefinedType [keyword]) := hkeyword.all.plain rfl
  exact .of_zero_add (hsuffixes 0 _ hbase)

/-! ## Expressions -/

/-- The element is paid for, and no operator joins its parts. -/
structure OperandPaidBy (n : Nat) (e : Element) : Prop where
  paid : e.PaidBy n
  plain : e.kind.isPlain

theorem reports_missingExpression : Reports OperandPaidBy missingExpression :=
  .then_of_one (.complain _) fun _ => .pure ⟨(PaidBy.missing _).all.plain rfl, rfl⟩

theorem reports_tooDeep : Reports OperandPaidBy tooDeep :=
  .then_of_one (.complain _) fun _ => reports_missingExpression.imp fun _ _ h =>
    ⟨h.paid.mono (by omega), h.plain⟩

section Expressions

variable {expression : Production Element} (hexpression : Reports PaidBy expression)
include hexpression

/-- Arguments pay for the missing tokens in them. -/
theorem reports_argumentList : Reports PaidBy (argumentList expression) := by
  refine (reports_expect _).bind fun n opening hopening => .lookKind_bind fun kind => ?_
  extract_lets jp
  have hjp : ∀ m arguments, AllPaidBy m arguments →
      Reports (fun k e => PaidBy (n + (m + k)) e) (jp arguments) :=
    fun m arguments harguments => (reports_expect _).bind fun k closing hclosing =>
      .pure ((hopening.cons (harguments.append hclosing.all)).plain rfl)
  split
  next => exact .of_zero_add (hjp 0 [] .nil)
  next =>
    refine (reports_separated (hexpression.bind fun m e he => .pure ?_)).bind hjp
    exact he.all.plain rfl

/-- The parts of an object creation that can be missing are missing as a whole, and a complaint
says so. -/
theorem reports_objectCreation {new : Element} (hnew : new.PaidBy 0) :
    Reports OperandPaidBy (objectCreation expression new) := by
  refine .lookKind_bind fun kind => ?_
  extract_lets jp
  have hjp : ∀ n types, AllPaidBy n types →
      Reports (fun m e => OperandPaidBy (n + m) e) (jp types) := by
    intro n types htypes
    refine .lookKind_bind fun kind => ?_
    extract_lets jp
    have hjp : ∀ m arguments, AllPaidBy m arguments →
        Reports (fun k e => OperandPaidBy (n + (m + k)) e) (jp arguments) :=
      fun m arguments harguments => .pure ⟨(hnew.free (htypes.append harguments)).plain rfl, rfl⟩
    split
    next =>
      exact (reports_argumentList hexpression).bind fun m arguments h => hjp m [arguments] h.all
    next => exact .then_of_one (.complain _) fun _ => hjp 1 [] .nil
  split
  next => exact reports_type.bind fun n t h => hjp n [t] h.all
  next => exact .then_of_one (.complain _) fun _ => hjp 1 [] .nil

omit hexpression in
theorem isPlain_singleToken {kind wanted : Kind} (h : singleTokenExpression? kind = some wanted) :
    wanted.isPlain := by
  unfold singleTokenExpression? at h
  repeat' split at h
  all_goals
    cases h
    try rfl

/-- An operand pays for what it lacks, or it is none. -/
theorem reports_primary? :
    Reports (fun n r => ∀ e ∈ r, OperandPaidBy n e) (primary? expression) := by
  refine .lookKind_bind fun kind => ?_
  split
  next wanted hsingle =>
    have hplain := isPlain_singleToken hsingle
    refine (reports_takeIf? _).taking (fun taken _ htaken => .pure fun e he => ?_) (.pure nofun)
    obtain rfl := Option.some.inj he
    exact ⟨htaken.all.plain hplain, hplain⟩
  next =>
    refine (reports_take? _).taking (fun new _ hnew => ?_) ?_
    · exact (reports_objectCreation hexpression hnew).bind fun n e he => .pure fun e' he' =>
        Option.some.inj he' ▸ he
    refine (reports_take? _).taking (fun opening _ hopening => ?_) (.pure nofun)
    refine hexpression.bind fun n inner hinner => (reports_expect _).bind fun m closing hclosing =>
      .pure fun e he => ?_
    obtain rfl := Option.some.inj he
    exact ⟨(hopening.free (hinner.cons hclosing.all)).plain rfl, rfl⟩

/-- What follows an operand pays for the missing tokens in it. -/
theorem reports_postfixPart {n : Nat} {inner : Element} (h : OperandPaidBy n inner) :
    Reports (GoesOn OperandPaidBy n) (postfixPart expression inner) := by
  refine (reports_take? _).taking (fun dot _ hdot => ?_) (.lookKind_bind fun kind => ?_)
  · refine reports_simpleName.bind fun m name hname => .pure (.of ?_)
    exact ⟨(h.paid.cons (hdot.free hname.all)).plain rfl, rfl⟩
  split
  next =>
    refine (reports_argumentList hexpression).bind fun m arguments harguments => .pure (.of ?_)
    exact ⟨(h.paid.cons harguments.all).plain rfl, rfl⟩
  next =>
    refine (reports_takeIf? _).taking (fun step _ hstep => .pure (.of ?_)) (.pure rfl)
    exact ⟨(h.paid.cons hstep.all).plain rfl, rfl⟩

theorem reports_operand : Reports OperandPaidBy (operand expression) := by
  refine (reports_primary? hexpression).bind fun n inner? h => ?_
  cases inner? with
  | none => exact reports_missingExpression.imp fun m e he => ⟨he.paid.mono (by omega), he.plain⟩
  | some inner => exact Reports.iterate (fun _ _ => reports_postfixPart hexpression) (h inner rfl)

end Expressions

/-- The element is paid for and can stand beside an operator that leaves it only operators at
least as strong as `least`. -/
structure BoundPaidBy (least n : Nat) (e : Element) : Prop where
  paid : e.PaidBy n
  binds : e.Binds least

/-- Each level leaves to the next one what binds more strongly, and goes on from what it has
made so far. -/
theorem reports_binary {operand : Production Element} (hoperand : Reports OperandPaidBy operand)
    {levels : List (List Kind)} {least : Nat} (hlevels : Leveled least levels) :
    Reports (BoundPaidBy least) (binary operand levels) := by
  induction levels generalizing least with
  | nil => exact hoperand.imp fun n e he => ⟨he.paid, .of_isPlain he.plain least⟩
  | cons operators stronger ih =>
    obtain ⟨hoperators, hstronger⟩ := hlevels
    have ih := ih hstronger
    -- What stands left of an operator was made on this level or a stronger one, what stands right
    -- on a stronger one.
    refine ih.bind fun n first hfirst => Reports.iterate (A := BoundPaidBy least)
      (fun n left hleft => ?_)
      ⟨hfirst.paid, hfirst.binds.mono (Nat.le_succ least)⟩
    refine (reports_takeIf? _).taking (fun operator hkind hoperator => ?_) (.pure rfl)
    have hprecedence : operator.kind.precedence? = some least :=
      (hoperators _).mp (by simpa using hkind)
    refine ih.bind fun m right hright => .pure (.of ⟨?_, .binaryExpression hprecedence⟩)
    refine (hleft.paid.cons (hoperator.free hright.paid.all)).node ?_ nofun
    exact ⟨left, operator, right, least, rfl, hprecedence, hleft.binds, hright.binds⟩

theorem reports_assignment {operand right : Production Element}
    (hoperand : Reports OperandPaidBy operand) (hright : Reports PaidBy right) :
    Reports PaidBy (assignment operand right) := by
  refine (reports_binary hoperand leveled_binaryLevels).bind fun n left hleft => ?_
  refine (reports_takeIf? _).taking (fun operator _ hoperator => ?_) (.pure hleft.paid)
  refine hright.bind fun m value hvalue => .pure ?_
  refine (hleft.paid.cons (hoperator.free hvalue.all)).node ?_ nofun
  exact ⟨left, operator, value, rfl, hleft.binds.notAssignment⟩

theorem reports_prefixUnary {operand : Production Element}
    (hoperand : Reports OperandPaidBy operand) : Reports OperandPaidBy (prefixUnary operand) := by
  refine (reports_takeIf? _).taking (fun operator _ hoperator => ?_) hoperand
  exact hoperand.bind fun n inner hinner => .pure ⟨(hoperator.free hinner.paid.all).plain rfl, rfl⟩

theorem reports_unaryOr {prefixed expression : Production Element}
    (hprefixed : Reports OperandPaidBy prefixed) (hexpression : Reports PaidBy expression) :
    Reports OperandPaidBy (unaryOr prefixed expression) := by
  refine .lookKind_bind fun kind => ?_
  split
  next => exact hprefixed
  next => exact reports_operand hexpression

theorem reports_tooDeep_paid : Reports PaidBy tooDeep :=
  reports_tooDeep.imp fun _ _ h => h.paid

theorem reports_expression_unary (budget : Nat) :
    Reports PaidBy (expression budget) ∧ Reports OperandPaidBy (unary budget) := by
  induction budget with
  | zero => exact ⟨reports_tooDeep_paid, reports_unaryOr reports_tooDeep reports_tooDeep_paid⟩
  | succ budget ih =>
    have hexpression := reports_assignment ih.2 ih.1
    exact ⟨hexpression, reports_unaryOr (reports_prefixUnary ih.2) hexpression⟩

/-! ## Statements -/

section Statements

variable {expression : Production Element} (hexpression : Reports PaidBy expression)
include hexpression

theorem reports_equalsValue? : Reports AllPaidBy (equalsValue? expression) := by
  refine (reports_take? _).taking (fun equals _ hequals => ?_) (.pure .nil)
  exact hexpression.bind fun n value hvalue =>
    .pure (PaidBy.all ((hequals.free hvalue.all).plain rfl))

theorem reports_declarator : Reports PaidBy (declarator expression) :=
  (reports_expect _).bind fun _ _ hname => (reports_equalsValue? hexpression).bind fun _ _ hvalue =>
    .pure ((hname.cons hvalue).plain rfl)

theorem reports_variableDeclaration {n : Nat} {type : Element} (htype : type.PaidBy n) :
    Reports (fun m e => PaidBy (n + m) e) (variableDeclaration expression type) :=
  (reports_separated (reports_declarator hexpression)).bind fun _ _ h =>
    .pure ((htype.cons h).plain rfl)

/-- A return statement pays for the missing tokens in it. -/
theorem reports_returned {keyword : Element} (hkeyword : keyword.PaidBy 0) :
    Reports PaidBy (returned expression keyword) := by
  refine .lookKind_bind fun kind => ?_
  extract_lets jp
  have hjp : ∀ n values, AllPaidBy n values → Reports (fun m e => PaidBy (n + m) e) (jp values) :=
    fun n values hvalues => (reports_expect _).bind fun m semicolon hsemicolon =>
      .pure ((hkeyword.free (hvalues.append hsemicolon.all)).plain rfl)
  split
  next => exact .of_zero_add (hjp 0 [] .nil)
  next => exact hexpression.bind fun n value hvalue => hjp n [value] hvalue.all

theorem reports_localDeclaration : Reports PaidBy (localDeclaration expression) := by
  refine reports_type.bind fun n type htype => ?_
  refine (reports_variableDeclaration hexpression htype).bind fun m declaration h => ?_
  refine (reports_expect _).bind fun k semicolon hsemicolon => .pure ?_
  rw [← Nat.add_assoc]
  exact (h.cons hsemicolon.all).plain rfl

theorem reports_expressionStatement : Reports PaidBy (expressionStatement expression) := by
  refine hexpression.progress.bind fun n (value, moved) h => ?_
  dsimp only
  split
  next =>
    exact (reports_expect _).bind fun m semicolon hsemicolon =>
      .pure ((h.cons hsemicolon.all).plain rfl)
  next => exact .pure (h.all.plain rfl)

variable {statement : Production (List Element)} (hstatement : Reports AllPaidBy statement)
include hstatement

omit hexpression in
/-- A block pays for the missing tokens in it. -/
theorem reports_block : Reports PaidBy (block statement) := by
  refine (reports_expect _).bind fun n opening hopening => ?_
  refine (reports_itemsBefore _ ?_).bind fun m statements h => ?_
  · refine hstatement.progress.bind fun n (made, moved) h => ?_
    dsimp only
    split
    next => exact .pure h
    next => exact (reports_skip _).bind fun m skipped hskipped => .pure (h.append hskipped)
  exact (reports_expect _).bind fun k closing hclosing =>
    .pure ((hopening.cons (h.append hclosing.all)).plain rfl)

omit hexpression in
/-- The complaint pays for the semicolon that is missing from the empty statement. -/
theorem reports_embedded : Reports AllPaidBy (embedded statement) := by
  refine hstatement.progress.bind fun n (made, moved) h => ?_
  dsimp only
  split
  next => exact .pure h
  next =>
    have hempty : PaidBy 1 (.node .emptyStatement [.token (.missing .semicolonToken)]) :=
      (PaidBy.missing _).all.plain rfl
    exact .then_of_one (.complain _) fun _ => .pure (h.append hempty.all)

/-- A conditional pays for the missing tokens in it. -/
theorem reports_conditional {keyword : Element} (hkeyword : keyword.PaidBy 0) :
    Reports PaidBy (conditional statement expression keyword) := by
  refine (reports_expect _).bind fun n₁ opening hopening => ?_
  refine hexpression.bind fun n₂ condition hcondition => ?_
  refine (reports_expect _).bind fun n₃ closing hclosing => ?_
  refine (reports_embedded hstatement).bind fun n₄ consequence hconsequence => ?_
  extract_lets jp
  have hjp : ∀ n₅ alternative, AllPaidBy n₅ alternative →
      Reports (fun m e => PaidBy (n₁ + (n₂ + (n₃ + (n₄ + (n₅ + m))))) e) (jp alternative) := by
    intro n₅ alternative halternative
    have hrow :=
      hkeyword.free
        (hopening.cons (hcondition.cons (hclosing.cons (hconsequence.append halternative))))
    exact .pure (hrow.plain rfl)
  refine (reports_take? _).taking (fun word _ hword => ?_) (hjp 0 [] .nil)
  refine (reports_embedded hstatement).bind fun n₅ branch hbranch => hjp n₅ _ (PaidBy.all ?_)
  exact (hword.free hbranch).plain rfl

/-- A statement pays for the missing tokens in it, and for tokens that are skipped. -/
theorem reports_statementOf : Reports AllPaidBy (statementOf statement expression) := by
  refine (reports_take? _).taking (fun semicolon _ h => .pure (PaidBy.all (h.all.plain rfl))) ?_
  refine (reports_take? _).taking (fun keyword _ h => (reports_returned hexpression h).all) ?_
  refine (reports_take? _).taking
    (fun keyword _ h => (reports_conditional hexpression hstatement h).all) ?_
  refine .look_bind fun ahead => ?_
  split
  next => exact (reports_block hstatement).all
  split
  next => exact (reports_localDeclaration hexpression).all
  split
  next => exact .pure .nil
  next => exact (reports_expressionStatement hexpression).all

end Statements

theorem reports_statement (budget : Nat) : Reports AllPaidBy (statement budget) := by
  induction budget with
  | zero =>
    exact .then_of_one (.complain _) fun _ => (reports_skip _).imp fun _ _ h => h.mono (by omega)
  | succ budget ih => exact reports_statementOf (reports_expression_unary budget).1 ih

/-! ## Members -/

theorem reports_memberExpression : Reports PaidBy memberExpression :=
  (reports_expression_unary nestingLimit).1

theorem reports_takeAll (choose : List Lexeme → Option Kind) :
    Reports AllPaidBy (takeAll choose) := by
  have hstep : ∀ n taken, AllPaidBy n taken →
      Reports (GoesOn AllPaidBy n) (do return (← takeAs? choose).map (taken ++ [·])) := by
    intro n taken htaken
    refine (reports_takeAs? (P := fun _ => True) fun _ _ _ => trivial).taking
      (fun e _ he => .pure (.of ?_)) (.pure rfl)
    exact htaken.append he.all
  exact .of_zero_add (Reports.iterate hstep .nil)

theorem reports_arrowBody? : Reports (fun n parts? => AllPaidBy n (parts?.getD [])) arrowBody? := by
  refine (reports_take? _).taking (fun arrow _ harrow => ?_) (.pure .nil)
  refine reports_memberExpression.bind fun n value hvalue =>
    (reports_expect _).bind fun m semicolon hsemicolon => .pure ?_
  have hclause : PaidBy n (.node .arrowExpressionClause [arrow, value]) :=
    (harrow.free hvalue.all).plain rfl
  exact hclause.cons hsemicolon.all

/-- A body pays for the missing tokens in it. -/
theorem reports_body : Reports AllPaidBy body := by
  refine reports_arrowBody?.bind fun n parts? h => ?_
  cases parts? with
  | some parts => exact .pure h
  | none =>
    refine .lookKind_bind fun kind => ?_
    split
    next =>
      exact (reports_block (reports_statement nestingLimit)).all.imp fun m es h => h.mono (by omega)
    next => exact (reports_expect _).all.imp fun m es h => h.mono (by omega)

/-- A parameter pays for the missing tokens in it. -/
theorem reports_parameter : Reports PaidBy parameter := by
  refine .lookKind_bind fun kind => ?_
  extract_lets jp
  have hjp : ∀ n types, AllPaidBy n types → Reports (fun m e => PaidBy (n + m) e) (jp types) :=
    fun n types htypes => (reports_expect _).bind fun m name hname =>
      .pure ((htypes.append hname.all).plain rfl)
  split
  next => exact reports_type.bind fun n t ht => hjp n [t] ht.all
  next => exact .then_of_one (.complain _) fun _ => hjp 1 [] .nil

/-- Parameters pay for the missing tokens in them. -/
theorem reports_parameterList : Reports PaidBy parameterList := by
  refine (reports_expect _).bind fun n opening hopening => .lookKind_bind fun kind => ?_
  extract_lets jp
  have hjp : ∀ m parameters, AllPaidBy m parameters →
      Reports (fun k e => PaidBy (n + (m + k)) e) (jp parameters) :=
    fun m parameters hparameters => (reports_expect _).bind fun k closing hclosing =>
      .pure ((hopening.cons (hparameters.append hclosing.all)).plain rfl)
  split
  next => exact .of_zero_add (hjp 0 [] .nil)
  next => exact (reports_separated reports_parameter).bind hjp

theorem reports_methodBody : Reports AllPaidBy methodBody :=
  reports_parameterList.bind fun _ _ hlist => reports_body.bind fun _ _ hbody =>
    .pure (hlist.cons hbody)

theorem isPlain_of_isAccessor {kind : Kind} (h : kind.isAccessor) : kind.isPlain := by
  revert h
  cases kind <;> decide

/-- An accessor pays for the missing tokens in it, and for tokens that are skipped. -/
theorem reports_accessor : Reports AllPaidBy accessor := by
  refine .look_bind fun ahead => ?_
  cases hahead : accessorAhead? ahead with
  | none => exact reports_skip _
  | some found =>
    obtain ⟨kind, keywordKind⟩ := found
    obtain ⟨haccessor, -⟩ := accessorAhead?_some hahead
    have hplain := isPlain_of_isAccessor haccessor
    refine (reports_takeAll _).bind fun n modifiers hmodifiers => ?_
    have hjp : ∀ m keyword last, AllPaidBy 0 keyword → AllPaidBy m last →
        AllPaidBy (n + m) [.node kind (modifiers ++ keyword ++ last)] := by
      intro m keyword last hkeyword hlast
      exact PaidBy.all (((hmodifiers.append hkeyword).append hlast).plain hplain)
    refine (reports_takeAs? (P := fun _ => True) fun _ _ _ => trivial).taking
      (fun keyword _ hkeyword => ?_) ?_
    · exact reports_body.bind fun m last hlast => .pure (hjp m _ last hkeyword.all hlast)
    · exact reports_body.bind fun m last hlast => .pure (hjp m _ last .nil hlast)

theorem reports_accessorList : Reports PaidBy accessorList :=
  (reports_expect _).bind fun _ _ hopening => (reports_itemsBefore _ reports_accessor).bind
    fun _ _ haccessors =>
    (reports_expect _).bind fun _ _ hclosing =>
      .pure ((hopening.cons (haccessors.append hclosing.all)).plain rfl)

theorem reports_accessorBody : Reports AllPaidBy accessorBody := by
  refine reports_accessorList.bind fun n accessors haccessors => ?_
  refine (reports_take? _).taking (fun equals _ hequals => ?_) (.pure haccessors.all)
  refine reports_memberExpression.bind fun m value hvalue =>
    (reports_expect _).bind fun k semicolon hsemicolon => .pure ?_
  have hclause : PaidBy m (.node .equalsValueClause [equals, value]) :=
    (hequals.free hvalue.all).plain rfl
  exact haccessors.cons (hclause.cons hsemicolon.all)

section Typed

variable {n m : Nat} {modifiers : List Element} {type : Element}
  (hmodifiers : AllPaidBy n modifiers) (htype : type.PaidBy m)
include hmodifiers htype

/-- Whatever follows its name, a member is paid for with its modifiers and its type. -/
theorem reports_memberFollowedBy (follower : Kind) :
    Reports (fun k e => PaidBy (n + m + k) e) (memberFollowedBy follower modifiers type) := by
  have hnamed : ∀ k name l last, PaidBy k name → AllPaidBy l last →
      AllPaidBy (n + m + (k + l)) (modifiers ++ [type, name] ++ last) := by
    intro k name l last hname hlast
    exact ((hmodifiers.append (htype.cons hname.all)).append hlast).mono (by omega)
  unfold memberFollowedBy
  split
  next =>
    exact (reports_expect _).bind fun k name hname => reports_methodBody.bind fun l last hlast =>
      .pure ((hnamed k name l last hname hlast).plain rfl)
  next =>
    exact (reports_expect _).bind fun k name hname => reports_accessorBody.bind fun l last hlast =>
      .pure ((hnamed k name l last hname hlast).plain rfl)
  next =>
    exact (reports_expect _).bind fun k name hname => reports_arrowBody?.bind fun l last hlast =>
      .pure ((hnamed k name l _ hname hlast).plain rfl)
  next =>
    refine (reports_variableDeclaration reports_memberExpression htype).bind fun k declaration h =>
      ?_
    refine (reports_expect _).bind fun l semicolon hsemicolon => .pure ?_
    have hrow := hmodifiers.append (h.cons hsemicolon.all)
    exact (hrow.mono (by omega)).plain rfl

theorem reports_typedMember :
    Reports (fun k e => PaidBy (n + m + k) e) (typedMember modifiers type) :=
  .look_bind fun _ => reports_memberFollowedBy hmodifiers htype _

end Typed

section Nested

variable {nested : Production (List Element)} (hnested : Reports AllPaidBy nested)
  {n : Nat} {modifiers : List Element} (hmodifiers : AllPaidBy n modifiers)
include hnested hmodifiers

/-- A type pays for the missing tokens in it, if its members do. -/
theorem reports_typeDeclaration {keyword : Element} (hkeyword : keyword.PaidBy 0) :
    Reports (fun m e => PaidBy (n + m) e) (typeDeclaration nested modifiers keyword) := by
  refine (reports_expect _).bind fun n₁ name hname =>
    (reports_expect _).bind fun n₂ opening hopening => ?_
  refine (reports_itemsBefore _ hnested).bind fun n₃ members hmembers => ?_
  refine (reports_expect _).bind fun n₄ closing hclosing => ?_
  have hplain : (typeDeclarationKind keyword).isPlain := by
    unfold typeDeclarationKind
    split <;> rfl
  have hjp : ∀ last, AllPaidBy 0 last → PaidBy (n + (n₁ + (n₂ + (n₃ + (n₄ + 0)))))
      (.node (typeDeclarationKind keyword)
        (modifiers ++ [keyword, name, opening] ++ members ++ closing :: last)) := by
    intro last hlast
    have hhead := hmodifiers.append (hkeyword.free (hname.cons hopening.all))
    have hrow := (hhead.append hmembers).append (hclosing.cons hlast)
    exact (hrow.mono (by omega)).plain hplain
  exact (reports_take? _).taking (fun semicolon _ hsemicolon => .pure (hjp _ hsemicolon.all))
    (.pure (hjp _ .nil))

/-- The complaint pays for modifiers without a member. -/
theorem reports_modifiedMember :
    Reports (fun m es => AllPaidBy (n + m) es) (modifiedMember nested modifiers) := by
  refine (reports_takeIf? _).taking (fun keyword _ hkeyword => ?_) (.look_bind fun ahead => ?_)
  · exact (reports_typeDeclaration hnested hmodifiers hkeyword).bind fun _ _ he => .pure he.all
  split
  next =>
    refine (reports_expect _).bind fun m name hname => reports_methodBody.bind fun k last hlast =>
      .pure (PaidBy.all ?_)
    exact (hmodifiers.append (hname.cons hlast)).plain rfl
  split
  next =>
    refine reports_type.bind fun m type htype => (reports_typedMember hmodifiers htype).bind
      fun k e he => .pure ?_
    exact he.all.mono (by omega)
  split
  next => exact (reports_skip _).imp fun m es h => h.mono (by omega)
  next =>
    exact .then_of_one (.complain _) fun _ =>
      .pure (PaidBy.all (hmodifiers.skipped.mono (by omega)))

end Nested

theorem reports_member (budget : Nat) : Reports AllPaidBy (member budget) := by
  induction budget with
  | zero => exact reports_skip _
  | succ budget ih =>
    exact (reports_takeAll _).bind fun _ _ hmodifiers => reports_modifiedMember ih hmodifiers

/-! ## Namespaces and whole texts -/

theorem reports_usingDirective {keyword : Element} (hkeyword : keyword.PaidBy 0) :
    Reports PaidBy (usingDirective keyword) :=
  reports_name.bind fun _ _ hname => (reports_expect _).bind fun _ _ hsemicolon =>
    .pure ((hkeyword.free (hname.cons hsemicolon.all)).plain rfl)

/-- A namespace pays for the missing tokens in it, if its members do. -/
theorem reports_namespaceDeclaration {member : Production (List Element)}
    (hmember : Reports AllPaidBy member) {keyword : Element} (hkeyword : keyword.PaidBy 0) :
    Reports PaidBy (namespaceDeclaration member keyword) := by
  refine reports_name.bind fun n₁ name hname =>
    (reports_take? _).taking (fun semicolon _ hsemicolon => ?_) ?_
  · refine (reports_itemsBefore _ hmember).bind fun n₂ members hmembers => .pure ?_
    have hhead := hkeyword.free (hname.cons hsemicolon.all)
    exact (hhead.append hmembers).plain rfl
  · refine (reports_expect _).bind fun n₂ opening hopening => (reports_itemsBefore _ hmember).bind
      fun n₃ members hmembers => ?_
    refine (reports_expect _).bind fun n₄ closing hclosing => .pure ?_
    have hhead := hkeyword.free (hname.cons hopening.all)
    have hrow := (hhead.append hmembers).append hclosing.all
    exact (hrow.mono (by omega)).plain rfl

theorem reports_namespaceMember (budget : Nat) : Reports AllPaidBy (namespaceMember budget) := by
  induction budget with
  | zero => exact reports_skip _
  | succ budget ih =>
    refine (reports_take? _).taking
      (fun keyword _ hkeyword => (reports_namespaceDeclaration ih hkeyword).all) ?_
    refine (reports_take? _).taking
      (fun keyword _ hkeyword => (reports_usingDirective hkeyword).all) ?_
    exact reports_member (budget + 1)

/-- The problems of a text are found along the way, and they pay for the defects of its members. -/
theorem reports_allMembers : Reports AllPaidBy allMembers :=
  .look_bind fun _ => reports_itemsBefore _ (reports_namespaceMember _)

end Production

end AutoProperty
