import AutoProperty.Proofs.Syntax.Shapes
import AutoProperty.Syntax.Parse

/-! # What statements and declarations make

The elements of statements, members and whole texts conform, and spell the tokens of the text.
-/

namespace AutoProperty

/-- Several elements, each of a kind as `P` says. -/
abbrev MakesEach (P : Kind → Prop) : List Lexeme → List Element → Prop :=
  MakesAll fun kinds => ∀ k ∈ kinds, P k

theorem Makes.each {P : Kind → Prop} {used : List Lexeme} {e : Element} (h : Makes P used e) :
    MakesEach P used [e] :=
  ⟨by simpa using h.1, h.2⟩

theorem MakesEach.imp {P Q : Kind → Prop} {used : List Lexeme} {es : List Element}
    (h : MakesEach P used es) (hpq : ∀ k, P k → Q k) : MakesEach Q used es :=
  ⟨fun k hk => hpq k (h.1 k hk), h.2⟩

theorem Kind.isToken_of_isModifier {kind : Kind} (h : kind.isModifier) : kind.isToken := by
  revert h
  cases kind <;> decide

namespace Production

/-! ## Statements -/

section Statements

variable {expression : Production Element} (hexpression : Reads (Makes (·.isExpression)) expression)
include hexpression

theorem reads_equalsValue? :
    Reads (MakesAll fun kinds => kinds = [] ∨ kinds = [.equalsValueClause])
      (equalsValue? expression) := by
  refine (reads_take? _).taking (fun used equals hequals => ?_) (.pure (.nil (.inl rfl)))
  refine hexpression.bind fun more value hvalue => .pure ⟨.inr rfl, ?_⟩
  exact (Row.cons hequals (.cons hvalue .nil)).node rfl ⟨_, hvalue.1, by simp [hequals.1]⟩

/-- A declarator is read for any tokens ahead. -/
theorem reads_declarator : Reads (Makes (· = .variableDeclarator)) (declarator expression) := by
  refine (reads_expect rfl).bind fun used name hname => ?_
  refine (reads_equalsValue? hexpression).bind fun more value hvalue => .pure ?_
  rw [List.append_nil]
  refine (Row.cons hname hvalue.2).makes rfl ?_ rfl
  obtain h | h := hvalue.1
  · exact .inl (by simp [hname.1, h])
  · exact .inr (by simp [hname.1, h])

theorem reads_variableDeclaration {used : List Lexeme} {type : Element}
    (htype : Makes (·.isType) used type) :
    Reads (fun more e => Makes (· = .variableDeclaration) (used ++ more) e)
      (variableDeclaration expression type) := by
  refine (reads_separated (reads_declarator hexpression)).bind fun more declarators h => .pure ?_
  rw [List.append_nil]
  exact (Row.cons htype h.2).makes rfl ⟨_, _, htype.1, h.1, rfl⟩ rfl

/-- A return statement is read for any tokens ahead. -/
theorem reads_returned {used : List Lexeme} {keyword : Element}
    (hkeyword : Makes (· = .returnKeyword) used keyword) :
    Reads (fun more e => Makes (· = .returnStatement) (used ++ more) e)
      (returned expression keyword) := by
  refine .then_of_nil .lookKind fun kind => ?_
  extract_lets jp
  have hjp : ∀ more values,
      MakesAll (fun kinds => kinds = [] ∨ ∃ e : Kind, e.isExpression ∧ kinds = [e])
      more values →
      Reads (fun last e => Makes (· = .returnStatement) (used ++ (more ++ last)) e)
        (jp values) := by
    intro more values hvalues
    refine (reads_expect rfl).bind fun last semicolon hsemicolon => .pure ?_
    exact (Row.cons hkeyword (hvalues.2.append (.cons hsemicolon .nil))).makes rfl
      ⟨_, hvalues.1, by simp [hkeyword.1, hsemicolon.1]⟩ rfl
  split
  next => exact hjp [] [] (.nil (.inl rfl))
  next => exact hexpression.bind fun more value h => hjp more [value] ⟨.inr ⟨_, h.1, rfl⟩, h.2⟩

theorem reads_localDeclaration :
    Reads (Makes (· = .localDeclarationStatement)) (localDeclaration expression) := by
  refine (reads_type).bind fun used type htype => ?_
  refine (reads_variableDeclaration hexpression htype).bind fun more declaration h => ?_
  refine (reads_expect rfl).bind fun last semicolon hsemicolon => .pure ?_
  rw [← List.append_assoc]
  exact (Row.cons h (.cons hsemicolon .nil)).makes rfl (by simp [ChildrenFit, h.1, hsemicolon.1])
    rfl

/-- An expression statement is read for any tokens ahead, if only up to a missing semicolon. -/
theorem reads_expressionStatement :
    Reads (Makes (· = .expressionStatement)) (expressionStatement expression) := by
  refine hexpression.progress.bind fun used (value, moved) h => ?_
  dsimp only
  split
  next =>
    refine (reads_expect rfl).bind fun more semicolon hsemicolon => .pure ?_
    exact (Row.cons h (.cons hsemicolon .nil)).makes rfl
      ⟨_, h.1, .inl (by simp [hsemicolon.1])⟩ rfl
  next => exact .pure <| (Row.cons h .nil).makes rfl ⟨_, h.1, .inr rfl⟩ rfl

variable {statement : Production (List Element)}
  (hstatement : Reads (MakesEach (·.isStatement)) statement)
include hstatement

omit hexpression in
/-- A block is read for any tokens ahead. -/
theorem reads_block : Reads (Makes (· = .block)) (block statement) := by
  refine (reads_expect rfl).bind fun used opening hopening => ?_
  refine (reads_itemsBefore (P := (·.isStatement)) _ ?_).bind fun more statements h => ?_
  · refine hstatement.progress.bind fun used (made, moved) h => ?_
    dsimp only
    split
    next => exact .pure (by simpa using h)
    next =>
      refine (reads_skip _).bind fun more skipped hskipped => .pure ?_
      refine ⟨?_, by simpa using h.2.append hskipped.2⟩
      rw [List.map_append]
      refine List.forall_mem_append.mpr ⟨h.1, fun k hk => ?_⟩
      rw [hskipped.1 k hk]
      rfl
  refine (reads_expect rfl).bind fun last closing hclosing => .pure ?_
  exact (Row.cons hopening (h.2.append (.cons hclosing .nil))).makes rfl
    ⟨_, h.1, by simp [hopening.1, hclosing.1]⟩ rfl

omit hexpression in
/-- An embedded statement may be followed by skipped tokens. -/
theorem reads_embedded : Reads (MakesEach (·.isStatement)) (embedded statement) := by
  refine hstatement.progress.bind fun used (made, moved) h => ?_
  dsimp only
  split
  next => exact .pure (by simpa using h)
  next =>
    refine .then_of_nil (.complain _) fun _ => .pure ?_
    have hempty : Makes (·.isStatement) []
        (.node .emptyStatement [.token (.missing .semicolonToken)]) :=
      (Row.missing rfl).makes rfl rfl rfl
    refine ⟨?_, h.2.append hempty.2⟩
    rw [List.map_append]
    exact List.forall_mem_append.mpr ⟨h.1, hempty.each.1⟩

/-- A conditional is read for any tokens ahead. -/
theorem reads_conditional {used : List Lexeme} {keyword : Element}
    (hkeyword : Makes (· = .ifKeyword) used keyword) :
    Reads (fun more e => Makes (· = .ifStatement) (used ++ more) e)
      (conditional statement expression keyword) := by
  refine (reads_expect rfl).bind fun u₁ opening hopening => ?_
  refine hexpression.bind fun u₂ condition hcondition => ?_
  refine (reads_expect rfl).bind fun u₃ closing hclosing => ?_
  refine (reads_embedded hstatement).bind fun u₄ consequence hconsequence => ?_
  have hjp : ∀ u₅ alternative, MakesEach (· = .elseClause) u₅ alternative →
      Reads
        (fun more e => Makes (· = .ifStatement)
          (used ++ (u₁ ++ (u₂ ++ (u₃ ++ (u₄ ++ (u₅ ++ more))))) ) e)
        (pure
          (.node .ifStatement
            ([keyword, opening, condition, closing] ++ consequence ++ alternative))) := by
    intro u₅ alternative halternative
    have hrow := Row.cons hkeyword <| .cons hopening <| .cons hcondition <| .cons hclosing <|
      hconsequence.2.append halternative.2
    refine .pure
      (Row.makes (by simpa using hrow) rfl ⟨_, (consequence ++ alternative).map Element.kind,
      hcondition.1, ?_, by simp [hkeyword.1, hopening.1, hclosing.1]⟩ rfl)
    rw [List.map_append]
    exact List.forall_mem_append.mpr
      ⟨fun k hk => .inl (hconsequence.1 k hk), fun k hk => .inr (halternative.1 k hk)⟩
  refine (reads_take? _).taking (fun u₅ word hword => ?_) (hjp [] [] (.nil (by simp)))
  refine (reads_embedded hstatement).bind fun u₆ branch hbranch => ?_
  have hclause : Makes (· = .elseClause) (u₅ ++ u₆) (.node .elseClause (word :: branch)) :=
    (Row.cons hword hbranch.2).makes rfl ⟨_, hbranch.1, by simp [hword.1]⟩ rfl
  exact (hjp _ _ hclause.each).imp fun more e he => by simpa only [List.append_assoc] using he

/-- A statement is read for any tokens ahead. -/
theorem reads_statementOf :
    Reads (MakesEach (·.isStatement)) (statementOf statement expression) := by
  refine (reads_take? _).taking (fun used semicolon h => .pure (Makes.each ?_)) ?_
  · exact (Row.cons h .nil).makes rfl (by simp [ChildrenFit, h.1]) rfl
  refine (reads_take? _).taking (fun used keyword h => ?_) ?_
  · exact (reads_returned hexpression h).bind fun more e he => .pure <| by
      simpa using (he.imp fun hk => by rw [hk]; rfl).each
  refine (reads_take? _).taking (fun used keyword h => ?_) ?_
  · exact (reads_conditional hexpression hstatement h).bind fun more e he => .pure <| by
      simpa using (he.imp fun hk => by rw [hk]; rfl).each
  refine .then_of_nil .look fun ahead => ?_
  split
  next =>
    exact (reads_block hstatement).bind fun more e he => .pure <| by
      simpa using (he.imp fun hk => by rw [hk]; rfl).each
  split
  next =>
    exact (reads_localDeclaration hexpression).bind fun more e he => .pure <| by
      simpa using (he.imp fun hk => by rw [hk]; rfl).each
  split
  next => exact .pure (.nil (by simp))
  next =>
    exact (reads_expressionStatement hexpression).bind fun more e he => .pure <| by
      simpa using (he.imp fun hk => by rw [hk]; rfl).each

end Statements

/-- Statements nest to any depth the budget allows; what lies deeper is skipped. -/
theorem reads_statement (budget : Nat) : Reads (MakesEach (·.isStatement)) (statement budget) := by
  induction budget with
  | zero =>
    refine .then_of_nil (.complain _) fun _ => (reads_skip _).imp fun _ _ h =>
      MakesEach.imp h fun k hk => ?_
    rw [hk]
    rfl
  | succ budget ih => exact reads_statementOf (reads_expression budget) ih

/-! ## Members -/

theorem reads_memberExpression : Reads (Makes (·.isExpression)) memberExpression :=
  reads_expression nestingLimit

theorem reads_memberBlock : Reads (Makes (· = .block)) memberBlock :=
  reads_block (reads_statement nestingLimit)

/-- The kind that a word becomes as a modifier is one of a modifier. -/
theorem keepsKind_modifierKind? : KeepsKind modifierKind? (·.isModifier) := by
  intro ahead kind h
  unfold modifierKind? at h
  dsimp only at h
  split at h
  next hmodifier =>
    cases h
    exact ⟨hmodifier, .inl rfl⟩
  split at h
  next hpartial =>
    cases h
    simp only [Bool.and_eq_true, beq_iff_eq] at hpartial
    exact ⟨rfl, .inr ⟨hpartial.1.1, by simp [Kind.isContextual]⟩⟩
  next => exact absurd h nofun

/-- More tokens behind those that were taken. -/
theorem reads_takeMore {choose : List Lexeme → Option Kind} {P : Kind → Prop}
    (h : KeepsKind choose P) {used : List Lexeme} {taken : List Element}
    (htaken : MakesEach P used taken) :
    Reads (fun more es => MakesEach P (used ++ more) es)
      (iterate (fun taken => do return (← takeAs? choose).map (taken ++ [·])) taken) := by
  refine Reads.iterate (fun used taken htaken => ?_) htaken
  refine (reads_takeAs? h).bind fun more taken? hmore => .pure ?_
  cases taken? with
  | none =>
    cases hmore
    rfl
  | some e =>
    have he := hmore.makes.imp And.left
    refine Continues.of ⟨?_, by simpa using htaken.2.append (Row.cons he .nil)⟩
    rw [List.map_append]
    exact List.forall_mem_append.mpr ⟨htaken.1, he.each.1⟩

theorem reads_takeAll {choose : List Lexeme → Option Kind} {P : Kind → Prop}
    (h : KeepsKind choose P) : Reads (MakesEach P) (takeAll choose) :=
  reads_takeMore h (.nil (by simp))

/-- An arrow is followed by a value and a semicolon, and nothing is read without an arrow. -/
theorem reads_arrowBody? :
    Reads (fun used parts? => match parts? with
      | some parts => MakesAll (· = [.arrowExpressionClause, .semicolonToken]) used parts
      | none => used = []) arrowBody? := by
  refine (reads_take? _).taking (fun used arrow harrow => ?_) (.pure rfl)
  refine (reads_memberExpression).bind fun more value hvalue => ?_
  refine (reads_expect rfl).bind fun last semicolon hsemicolon => .pure ?_
  have hclause : Makes (· = .arrowExpressionClause) (used ++ (more ++ []))
      (.node .arrowExpressionClause [arrow, value]) :=
    (Row.cons harrow (.cons hvalue .nil)).makes rfl ⟨_, hvalue.1, by simp [harrow.1]⟩ rfl
  have hrow := Row.cons hclause (.cons hsemicolon .nil)
  exact ⟨by simp [hsemicolon.1], by simpa using hrow⟩

/-- A body is a block, a value behind an arrow, or a mere semicolon. -/
theorem reads_body : Reads (MakesAll IsBody) body := by
  refine (reads_arrowBody?).bind fun used parts? h => ?_
  cases parts? with
  | some parts => exact .pure (by simpa using ⟨.inr (.inl h.1), h.2⟩)
  | none =>
    cases h
    refine .then_of_nil .lookKind fun kind => ?_
    split
    next =>
      exact (reads_memberBlock).bind fun more b hb =>
        .pure ⟨.inl (by simp [hb.1]), by simpa using hb.2⟩
    next =>
      exact (reads_expect rfl).bind fun more s hs =>
        .pure ⟨.inr (.inr (by simp [hs.1])), by simpa using hs.2⟩

/-- A parameter is read for any tokens ahead. -/
theorem reads_parameter : Reads (Makes (· = .parameter)) parameter := by
  refine .then_of_nil .lookKind fun kind => ?_
  extract_lets jp
  have hjp : ∀ used types, MakesAll (fun kinds => kinds = [] ∨ ∃ t : Kind, t.isType ∧ kinds = [t])
      used types → Reads (fun more e => Makes (· = .parameter) (used ++ more) e) (jp types) := by
    intro used types htypes
    refine (reads_expect rfl).bind fun more name hname => .pure ?_
    exact (htypes.2.append (.cons hname .nil)).makes rfl ⟨_, htypes.1, by simp [hname.1]⟩ rfl
  split
  next => exact (reads_type).bind fun used t ht => hjp used [t] ⟨.inr ⟨_, ht.1, rfl⟩, ht.2⟩
  next => exact .then_of_nil (.complain _) fun _ => hjp [] [] (.nil (.inl rfl))

/-- Parameters are read for any tokens ahead, with single commas between them. -/
theorem reads_parameterList : Reads (Makes (· = .parameterList)) parameterList := by
  refine (reads_expect rfl).bind fun used opening hopening => .then_of_nil .lookKind fun kind => ?_
  extract_lets jp
  have hjp : ∀ more parameters, MakesAll (Listed .parameter) more parameters →
      Reads (fun last e => Makes (· = .parameterList) (used ++ (more ++ last)) e)
        (jp parameters) := by
    intro more parameters hparameters
    refine (reads_expect rfl).bind fun last closing hclosing => .pure ?_
    exact (Row.cons hopening (hparameters.2.append (.cons hclosing .nil))).makes rfl
      ⟨_, hparameters.1, by simp [hopening.1, hclosing.1]⟩ rfl
  split
  next => exact hjp [] [] (.nil (.inl rfl))
  next =>
    exact (reads_separated reads_parameter).bind fun more parameters h =>
      hjp more parameters ⟨.inr h.1, h.2⟩

theorem reads_methodBody :
    Reads (MakesAll fun kinds => ∃ body, IsBody body ∧ kinds = .parameterList :: body) methodBody :=
  (reads_parameterList).bind fun _ _ hlist => (reads_body).bind fun _ _ hbody => .pure
    ⟨⟨_, hbody.1, by simp [hlist.1]⟩, by simpa using Row.cons hlist hbody.2⟩

/-- Behind the words that limit its use, whatever is left of an accessor begins. -/
theorem takeAll_accessibility_rest (ahead : List Lexeme) :
    (takeAll accessibilityKind? ahead).rest = ahead.dropWhile (·.kind.isAccessibility) := by
  let step (taken : List Element) : Production (Option (List Element)) := do
    return (← takeAs? accessibilityKind?).map (taken ++ [·])
  have h : ∀ taken, (iterate step taken ahead).rest =
      ahead.dropWhile (·.kind.isAccessibility) := by
    induction ahead with
    | nil =>
      intro taken
      rw [iterate_of_none rfl]
      rfl
    | cons l rest ih =>
      intro taken
      cases hl : l.kind.isAccessibility with
      | false =>
        have hstep : step taken (l :: rest) = ⟨none, l :: rest, []⟩ := by
          simp [step, Bind.bind, Pure.pure, takeAs?, accessibilityKind?, kindAt, hl]
        rw [iterate_of_none (by rw [hstep]), hstep]
        simp [hl]
      | true =>
        have hchoose : accessibilityKind? (l :: rest) = some l.kind := by
          simp [accessibilityKind?, kindAt, hl]
        have hstep : step taken (l :: rest) =
            ⟨some (taken ++ [.token { l.token with kind := l.kind }]), rest, []⟩ := by
          simp [step, Bind.bind, Pure.pure, takeAs?, hchoose]
        rw [iterate_of_some (by rw [hstep]) (by simp [hstep]), hstep]
        simpa [hl] using ih _
  exact h []

/-- The kind that a word becomes in front of an accessor is one that limits its use. -/
theorem keepsKind_accessibilityKind? : KeepsKind accessibilityKind? (·.isAccessibility) := by
  intro ahead kind h
  unfold accessibilityKind? at h
  split at h
  next haccess =>
    cases h
    exact ⟨haccess, .inl rfl⟩
  next => exact absurd h nofun

/-- An accessor is ahead: behind the modifiers stands its word. -/
theorem accessorAhead?_some {ahead : List Lexeme} {kind keyword : Kind}
    (h : accessorAhead? ahead = some (kind, keyword)) :
    kind.isAccessor ∧ keyword = kind.accessorKeyword ∧ keyword.isContextual ∧
      ∃ word rest, ahead.dropWhile (·.kind.isAccessibility) = word :: rest ∧
        word.kind = .identifierToken := by
  unfold accessorAhead? at h
  split at h
  next => exact absurd h nofun
  next word rest hword =>
    split at h
    next hkind =>
      have hpair : kind.isAccessor ∧ keyword = kind.accessorKeyword ∧ keyword.isContextual := by
        unfold accessorOf? at h
        split at h <;> cases h <;> simp [Kind.isAccessor, Kind.accessorKeyword, Kind.isContextual]
      exact ⟨hpair.1, hpair.2.1, hpair.2.2, word, rest, hword, by simpa using hkind⟩
    next => exact absurd h nofun

theorem childrenFit_accessor {kind : Kind} (h : kind.isAccessor) {kinds : List Kind} :
    ChildrenFit kind kinds ↔ ∃ modifiers body : List Kind, (∀ k ∈ modifiers, k.isAccessibility) ∧
      IsBody body ∧ kinds = modifiers ++ kind.accessorKeyword :: body := by
  unfold Kind.isAccessor at h
  split at h
  next => exact .rfl
  next => exact .rfl
  next => exact .rfl
  next => exact absurd h nofun

/-- What is no accessor in an accessor list is skipped. -/
theorem reads_accessor : Reads (MakesEach fun k => k.isAccessor ∨ k = .skippedTokens) accessor := by
  refine .look_bind fun ahead => ?_
  cases hahead : accessorAhead? ahead with
  | none => exact (reads_skip _).imp (fun _ _ h => MakesEach.imp h fun _ hk => .inr hk) ahead
  | some found =>
    obtain ⟨kind, keywordKind⟩ := found
    obtain ⟨haccessor, hkeyword, hcontextual, word, rest, hrest, hword⟩ :=
      accessorAhead?_some hahead
    refine ReadsAt.bind (reads_takeAll keepsKind_accessibilityKind? ahead) fun used hmodifiers => ?_
    rw [takeAll_accessibility_rest, hrest]
    generalize (takeAll _ ahead).value = modifiers at hmodifiers ⊢
    have htaken : Row [word] [.token { word.token with kind := keywordKind }] :=
      .taken (by rcases hcontextual with rfl | rfl | rfl | rfl <;> rfl) (.inr ⟨hword, hcontextual⟩)
    refine ReadsAt.bind (A := fun u keyword? => u = [word] ∧
      keyword? = some (.token { word.token with kind := keywordKind }))
      (fun _ => ⟨[word], rfl, rfl, rfl⟩) fun more hmore => ?_
    rw [hmore.1, hmore.2]
    refine (reads_body.bind fun last parts hbody => .pure ?_) _
    have hrow := hmodifiers.2.append (htaken.append hbody.2)
    have hfit : ChildrenFit kind
        ((modifiers ++ .token { word.token with kind := keywordKind } :: parts).map
        Element.kind) :=
      (childrenFit_accessor haccessor).mpr ⟨_, _, hmodifiers.1, hbody.1, by simp [hkeyword]⟩
    have hnode : kind.isNode := by
      revert haccessor
      cases kind <;> decide
    have haccessor' : Makes (fun k => k.isAccessor ∨ k = .skippedTokens) _ _ :=
      hrow.makes hnode hfit (.inl haccessor)
    simpa using haccessor'.each

/-! ## Bodies of properties -/

theorem reads_accessorList : Reads (Makes (· = .accessorList)) accessorList := by
  refine (reads_expect rfl).bind fun used opening hopening => ?_
  refine (reads_itemsBefore _ reads_accessor).bind fun more accessors h => ?_
  refine (reads_expect rfl).bind fun last closing hclosing => .pure ?_
  exact (Row.cons hopening (h.2.append (.cons hclosing .nil))).makes rfl
    ⟨_, h.1, by simp [hopening.1, hclosing.1]⟩ rfl

/-- Behind a property's name stand accessors, a value behind an arrow, or a semicolon. -/
theorem reads_accessorBody : Reads (MakesAll IsPropertyBody) accessorBody := by
  refine (reads_accessorList).bind fun used accessors haccessors => ?_
  refine (reads_take? _).taking (fun more equals hequals => ?_) ?_
  · refine (reads_memberExpression).bind fun last value hvalue => ?_
    refine (reads_expect rfl).bind fun end' semicolon hsemicolon => .pure ?_
    have hclause : Makes (· = .equalsValueClause) (more ++ (last ++ []))
        (.node .equalsValueClause [equals, value]) :=
      (Row.cons hequals (.cons hvalue .nil)).makes rfl ⟨_, hvalue.1, by simp [hequals.1]⟩ rfl
    have hrow := Row.cons haccessors (.cons hclause (.cons hsemicolon .nil))
    exact ⟨.inr (.inl (by simp [haccessors.1, hsemicolon.1])), by simpa using hrow⟩
  · exact .pure ⟨.inl (by simp [haccessors.1]), by simpa using haccessors.2⟩

/-! ## Declarations -/

/-- An arrow ahead makes a body. -/
theorem arrowBody?_isSome {ahead : List Lexeme} (h : kindAt 0 ahead = .equalsGreaterThanToken) :
    ((arrowBody? ahead).value).isSome := by
  cases ahead with
  | nil => exact absurd h nofun
  | cons l rest =>
    have htake : take? .equalsGreaterThanToken (l :: rest) =
        ⟨some (.token { l.token with kind := kindAt 0 (l :: rest) }), rest, []⟩ := by
      simp [take?, takeIf?, takeAs?, h]
    simp [arrowBody?, Bind.bind, Pure.pure, htake]

/-- A member with a type is a field, a property or a method, whatever follows its name. -/
theorem reads_typedMember {used more : List Lexeme} {modifiers : List Element} {type : Element}
    (hmodifiers : MakesEach (·.isModifier) used modifiers) (htype : Makes (·.isType) more type) :
    Reads (fun last e => Makes (·.isTypeMember) (used ++ (more ++ last)) e)
      (typedMember modifiers type) := by
  refine .look_bind fun ahead => ?_
  generalize hfollower : followerAhead ahead = follower
  unfold memberFollowedBy
  split
  next =>
    refine (reads_expect rfl).bind (fun u₁ name hname => ?_) ahead
    refine (reads_methodBody).bind fun u₂ parts ⟨⟨body, hbody, hkinds⟩, hparts⟩ => .pure ?_
    have hrow := hmodifiers.2.append (.cons htype (.cons hname hparts))
    exact Row.makes (by simpa using hrow) rfl
      ⟨_, _, body, hmodifiers.1, htype.1, hbody, by simp [hname.1, hkinds]⟩ rfl
  next =>
    refine (reads_expect rfl).bind (fun u₁ name hname => ?_) ahead
    refine (reads_accessorBody).bind fun u₂ parts hparts => .pure ?_
    have hrow := hmodifiers.2.append (.cons htype (.cons hname hparts.2))
    exact Row.makes (by simpa using hrow) rfl
      ⟨_, _, _, hmodifiers.1, htype.1, hparts.1, by simp [hname.1]⟩ rfl
  next =>
    unfold followerAhead at hfollower
    split at hfollower
    next hidentifier =>
      cases ahead with
      | nil => exact absurd hidentifier nofun
      | cons l rest =>
        rw [beq_iff_eq] at hidentifier
        have hrest : (expect .identifierToken (l :: rest)).rest = rest := by
          rw [expect_of hidentifier]
        refine ReadsAt.bind (reads_expect rfl _) fun u₁ hname => ?_
        rw [hrest]
        refine ReadsAt.bind (reads_arrowBody? rest) fun u₂ hparts => ?_
        have hsome : ((arrowBody? rest).value).isSome := arrowBody?_isSome hfollower
        cases hvalue : (arrowBody? rest).value with
        | none => simp [hvalue] at hsome
        | some parts =>
          rw [hvalue] at hparts
          refine Reads.pure ?_ _
          have hrow := hmodifiers.2.append (.cons htype (.cons hname hparts.2))
          exact Row.makes (by simpa using hrow) rfl
            ⟨_, _, _, hmodifiers.1, htype.1, .inr (.inr hparts.1), by simp [hname.1]⟩ rfl
    next => exact absurd hfollower nofun
  next =>
    refine (reads_variableDeclaration reads_memberExpression htype).bind
      (fun u₁ declaration h => ?_) ahead
    refine (reads_expect rfl).bind fun u₂ semicolon hsemicolon => .pure ?_
    have hrow := hmodifiers.2.append (.cons h (.cons hsemicolon .nil))
    exact Row.makes (by simpa using hrow) rfl
      ⟨_, hmodifiers.1, by simp [h.1, hsemicolon.1]⟩ rfl

/-- A type holds members only, if `member` reads nothing else. -/
theorem reads_typeDeclaration {member : Production (List Element)}
    (hmember : Reads (MakesEach (·.isTypeMember)) member) {used more : List Lexeme}
    {modifiers : List Element} {keyword : Element}
    (hmodifiers : MakesEach (·.isModifier) used modifiers)
    (hkeyword : Makes (fun k => k = .classKeyword ∨ k = .structKeyword) more keyword) :
    Reads (fun last e => Makes (·.isTypeMember) (used ++ (more ++ last)) e)
      (typeDeclaration member modifiers keyword) := by
  refine (reads_expect rfl).bind fun u₁ name hname => ?_
  refine (reads_expect rfl).bind fun u₂ opening hopening => ?_
  refine (reads_itemsBefore _ hmember).bind fun u₃ members hmembers => ?_
  refine (reads_expect rfl).bind fun u₄ closing hclosing => ?_
  have hnode : ∀ u₅ (semicolon : Option Element),
      MakesAll (fun kinds => kinds = [] ∨ kinds = [.semicolonToken])
      u₅ semicolon.toList →
      Makes (·.isTypeMember) (used ++ (more ++ (u₁ ++ (u₂ ++ (u₃ ++ (u₄ ++ u₅))))))
        (.node (typeDeclarationKind keyword)
          (modifiers ++ [keyword, name, opening] ++ members ++ closing :: semicolon.toList)) := by
    intro u₅ semicolon hsemicolon
    have hrow := hmodifiers.2.append <| .cons hkeyword <| .cons hname <| .cons hopening <|
      hmembers.2.append <| .cons hclosing hsemicolon.2
    have hfit : ChildrenFit .classDeclaration
        ((modifiers ++ [keyword, name, opening] ++ members ++ closing :: semicolon.toList).map
          Element.kind) :=
      ⟨_, _, _, _, hmodifiers.1, hkeyword.1, hmembers.1, hsemicolon.1, by
        simp [hname.1, hopening.1, hclosing.1]⟩
    unfold typeDeclarationKind
    split
    next => exact Row.makes (by simpa using hrow) rfl hfit rfl
    next => exact Row.makes (by simpa using hrow) rfl hfit rfl
  refine (reads_take? _).taking (fun u₅ semicolon hsemicolon => .pure ?_)
    (.pure (hnode [] none (.nil (.inl rfl))))
  simpa using hnode u₅ (some semicolon) ⟨.inr (by simp [hsemicolon.1]), hsemicolon.2⟩

/-- What is read behind modifiers is a member of a type, or skipped. -/
theorem reads_modifiedMember {nested : Production (List Element)}
    (hnested : Reads (MakesEach (·.isTypeMember)) nested) {used : List Lexeme}
    {modifiers : List Element} (hmodifiers : MakesEach (·.isModifier) used modifiers) :
    Reads (fun more es => MakesEach (·.isTypeMember) (used ++ more) es)
      (modifiedMember nested modifiers) := by
  refine (reads_takeIf? _).taking (fun more keyword hkeyword => ?_) ?_
  · have hkeyword' := hkeyword.imp (Q := fun k => k = .classKeyword ∨ k = .structKeyword) (by simp)
    exact (reads_typeDeclaration hnested hmodifiers hkeyword').bind fun last e he =>
      .pure (by simpa using he.each)
  refine .then_of_nil .look fun ahead => ?_
  split
  next =>
    refine (reads_expect rfl).bind fun u₁ name hname => ?_
    refine (reads_methodBody).bind fun u₂ parts ⟨⟨body, hbody, hkinds⟩, hparts⟩ => .pure ?_
    have hrow := hmodifiers.2.append (.cons hname hparts)
    have hmember : Makes (·.isTypeMember) _ _ := Row.makes hrow rfl
      (show ChildrenFit .constructorDeclaration _ from
        ⟨_, body, hmodifiers.1, hbody, by simp [hname.1, hkinds]⟩) rfl
    simpa using hmember.each
  split
  next =>
    refine (reads_type).bind fun more type htype => ?_
    exact (reads_typedMember hmodifiers htype).bind fun last e he => .pure (by simpa using he.each)
  split
  next hempty =>
    rw [List.isEmpty_iff] at hempty
    subst hempty
    have hused : used = [] := by
      have hspells : Spells [] used := hmodifiers.2.spells
      cases hspells
      rfl
    subst hused
    exact (reads_skip _).imp fun _ _ h => MakesEach.imp h fun k hk => by
      rw [hk]
      rfl
  next hempty =>
    refine .then_of_nil (.complain _) fun _ => .pure ?_
    have htokens : ChildrenFit .skippedTokens (modifiers.map Element.kind) :=
      ⟨by simpa using hempty, fun k hk => Kind.isToken_of_isModifier (hmodifiers.1 k hk)⟩
    have hmember : Makes (·.isTypeMember) _ _ := hmodifiers.2.makes rfl htokens rfl
    simpa using hmember.each

theorem reads_memberOf {nested : Production (List Element)}
    (hnested : Reads (MakesEach (·.isTypeMember)) nested) :
    Reads (MakesEach (·.isTypeMember)) (memberOf nested) :=
  (reads_takeAll keepsKind_modifierKind?).bind fun _ _ h => reads_modifiedMember hnested h

theorem reads_member (budget : Nat) : Reads (MakesEach (·.isTypeMember)) (member budget) := by
  induction budget with
  | zero =>
    exact (reads_skip _).imp fun _ _ h => MakesEach.imp h fun k hk => by
      rw [hk]
      rfl
  | succ budget ih => exact reads_memberOf ih

theorem reads_usingDirective {used : List Lexeme} {keyword : Element}
    (hkeyword : Makes (· = .usingKeyword) used keyword) :
    Reads (fun more e => Makes (· = .usingDirective) (used ++ more) e)
      (usingDirective keyword) := by
  refine (reads_name).bind fun u₁ name hname => ?_
  refine (reads_expect rfl).bind fun u₂ semicolon hsemicolon => .pure ?_
  exact (Row.cons hkeyword (.cons hname (.cons hsemicolon .nil))).makes rfl
    ⟨_, hname.1, by simp [hkeyword.1, hsemicolon.1]⟩ rfl

/-- A namespace holds what may stand in one, if `member` reads nothing else. -/
theorem reads_namespaceDeclaration {member : Production (List Element)}
    (hmember : Reads (MakesEach (·.isNamespaceMember)) member) {used : List Lexeme}
    {keyword : Element} (hkeyword : Makes (· = .namespaceKeyword) used keyword) :
    Reads (fun more e => Makes (·.isNamespaceMember) (used ++ more) e)
      (namespaceDeclaration member keyword) := by
  refine (reads_name).bind fun u₁ name hname => ?_
  refine (reads_take? _).taking (fun u₂ semicolon hsemicolon => ?_) ?_
  · refine (reads_itemsBefore _ hmember).bind fun u₃ members hmembers => .pure ?_
    rw [List.append_nil]
    have hrow := Row.cons hkeyword <| .cons hname <| .cons hsemicolon hmembers.2
    exact Row.makes hrow rfl
      (show ChildrenFit .fileScopedNamespaceDeclaration _ from
        ⟨_, _, hname.1, hmembers.1, by simp [hkeyword.1, hsemicolon.1]⟩) rfl
  · refine (reads_expect rfl).bind fun u₂ opening hopening => ?_
    refine (reads_itemsBefore _ hmember).bind fun u₃ members hmembers => ?_
    refine (reads_expect rfl).bind fun u₄ closing hclosing => .pure ?_
    have hrow := Row.cons hkeyword <| .cons hname <| .cons hopening <|
      hmembers.2.append <| .cons hclosing .nil
    exact Row.makes hrow rfl
      (show ChildrenFit .namespaceDeclaration _ from
        ⟨_, _, hname.1, hmembers.1, by simp [hkeyword.1, hopening.1, hclosing.1]⟩) rfl

/-- Types and namespaces nest to any depth the budget allows; what lies deeper is skipped. -/
theorem reads_namespaceMember (budget : Nat) :
    Reads (MakesEach (·.isNamespaceMember)) (namespaceMember budget) := by
  induction budget with
  | zero =>
    exact (reads_skip _).imp fun _ _ h => MakesEach.imp h fun k hk => by
      rw [hk]
      rfl
  | succ budget ih =>
    refine (reads_take? _).taking (fun used keyword hkeyword => ?_) ?_
    · exact (reads_namespaceDeclaration ih hkeyword).bind fun more e he =>
        .pure (by simpa using he.each)
    refine (reads_take? _).taking (fun used keyword hkeyword => ?_) ?_
    · exact (reads_usingDirective hkeyword).bind fun more e he => .pure <| by
        simpa using (he.imp (Q := (·.isNamespaceMember)) fun hk => by rw [hk]; rfl).each
    · exact (reads_member (budget + 1)).imp fun _ _ h => MakesEach.imp h fun k hk => by
        revert hk
        cases k <;> decide

theorem reads_allMembers : Reads (MakesEach (·.isNamespaceMember)) allMembers :=
  .then_of_nil .look fun _ => reads_itemsBefore _ (reads_namespaceMember _)

end Production

end AutoProperty
