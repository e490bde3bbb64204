import AutoProperty.Proofs.Syntax.ParsedTrees
import AutoProperty.Syntax.Lookahead

/-! # The lookahead and the grammar of types

The lookahead for declarations of locals passes over a type without making anything of it. It
stops just where the production for types stops, part by part of a qualified name and suffix by
suffix of a type, and counting places is the same as taking tokens off the front.
-/

namespace AutoProperty

/-- A node of a kind as `P` says was made of the tokens `before` and of those ahead in front of
`rest`, and nothing was objected to. -/
structure Parsed.Covers (P : Kind → Prop) (before : List Token) (ahead rest : List Lexeme)
    (made : Parsed Element) : Prop where
  rest_eq : made.rest = rest
  problems_eq : made.problems = []
  node : ∃ kind children, made.value = .node kind children ∧ P kind
  tokens : made.value.tokens ++ rest.map Lexeme.token = before ++ ahead.map Lexeme.token

theorem Parsed.Covers.eq {P : Kind → Prop} {before : List Token} {ahead rest : List Lexeme}
    {made : Parsed Element} (h : made.Covers P before ahead rest) :
    made = ⟨made.value, rest, []⟩ := by
  rw [← h.rest_eq, ← h.problems_eq]

namespace Production

/-! ## Steps behind a name or a type -/

theorem simpleName_of_identifier {word : Lexeme} (hword : word.kind = .identifierToken)
    (rest : List Lexeme) :
    simpleName (word :: rest) = ⟨.node .identifierName [.token word.token], rest, []⟩ :=
  bind_of (expect_of hword rest)

/-- A point with an identifier behind it makes a name longer. -/
theorem nameSuffix_of_point {dot word : Lexeme} (hdot : dot.kind = .dotToken)
    (hword : word.kind = .identifierToken) (qualifier : Element) (rest : List Lexeme) :
    nameSuffix qualifier (dot :: word :: rest) =
      ⟨some (.node .qualifiedName [qualifier, .token dot.token,
        .node .identifierName [.token word.token]]), rest, []⟩ := by
  have htake : take? .dotToken (dot :: word :: rest) = ⟨some (.token dot.token), word :: rest,
      []⟩ :=
    takeIf?_of (by simp [hdot]) _
  have hfollower : kindAt 1 (dot :: word :: rest) = .identifierToken := hword
  refine (bind_of (a := dot :: word :: rest) rfl).trans ?_
  rw [if_neg (by simp [hfollower])]
  exact (bind_of htake).trans (bind_of (simpleName_of_identifier hword rest))

/-- Nothing else does. -/
theorem nameSuffix_of_not {ahead : List Lexeme}
    (h : kindAt 0 ahead ≠ .dotToken ∨ kindAt 1 ahead ≠ .identifierToken) (qualifier : Element) :
    nameSuffix qualifier ahead = ⟨none, ahead, []⟩ := by
  refine (bind_of (a := ahead) rfl).trans ?_
  by_cases hfollower : kindAt 1 ahead = .identifierToken
  · have hdot := h.resolve_right (not_not_intro hfollower)
    rw [if_neg (by simp [hfollower])]
    exact bind_of (takeIf?_of_not (by simp [hdot]))
  · rw [if_pos (by simp [hfollower])]
    rfl

theorem typeSuffix_of_question {question : Lexeme} (h : question.kind = .questionToken)
    (inner : Element) (rest : List Lexeme) :
    typeSuffix inner (question :: rest) =
      ⟨some (.node .nullableType [inner, .token question.token]), rest, []⟩ :=
  bind_of (takeIf?_of (by simp [h]) rest)

/-- A pair of brackets makes an array type. -/
theorem typeSuffix_of_brackets {opening closing : Lexeme}
    (hopening : opening.kind = .openBracketToken) (hclosing : closing.kind = .closeBracketToken)
    (inner : Element) (rest : List Lexeme) :
    typeSuffix inner (opening :: closing :: rest) =
      ⟨some (.node .arrayType [inner, .token opening.token, .token closing.token]), rest, []⟩ := by
  have hfollower : kindAt 1 (opening :: closing :: rest) = .closeBracketToken := hclosing
  have hquestion : take? .questionToken (opening :: closing :: rest) =
      ⟨none, opening :: closing :: rest, []⟩ :=
    takeIf?_of_not (by simp [kindAt, hopening])
  have htake : take? .openBracketToken (opening :: closing :: rest) =
      ⟨some (.token opening.token), closing :: rest, []⟩ :=
    takeIf?_of (by simp [hopening]) _
  refine (bind_of hquestion).trans ((bind_of (a := opening :: closing :: rest) rfl).trans ?_)
  rw [if_neg (by simp [hfollower])]
  exact (bind_of htake).trans (bind_of (expect_of hclosing rest))

/-- Without a question mark or a pair of brackets, the type ends. -/
theorem typeSuffix_of_not {ahead : List Lexeme} (hquestion : kindAt 0 ahead ≠ .questionToken)
    (h : kindAt 0 ahead ≠ .openBracketToken ∨ kindAt 1 ahead ≠ .closeBracketToken)
    (inner : Element) : typeSuffix inner ahead = ⟨none, ahead, []⟩ := by
  have hnone : take? .questionToken ahead = ⟨none, ahead, []⟩ :=
    takeIf?_of_not (by simp [hquestion])
  refine (bind_of hnone).trans ((bind_of (a := ahead) rfl).trans ?_)
  by_cases hfollower : kindAt 1 ahead = .closeBracketToken
  · have hopening := h.resolve_right (not_not_intro hfollower)
    rw [if_neg (by simp [hfollower])]
    exact bind_of (takeIf?_of_not (by simp [hopening]))
  · rw [if_pos (by simp [hfollower])]
    rfl

/-- The lookahead stops at the same tokens. -/
theorem afterNameSuffixes_of_not {ahead : List Lexeme}
    (h : kindAt 0 ahead ≠ .dotToken ∨ kindAt 1 ahead ≠ .identifierToken) :
    afterNameSuffixes ahead = ahead := by
  match ahead with
  | [] => rfl
  | [_] => rfl
  | dot :: word :: rest =>
    rw [afterNameSuffixes, if_neg]
    simpa [kindAt, Decidable.imp_iff_not_or] using h

/-- Without a question mark or a pair of brackets, the lookahead stops. -/
theorem afterTypeSuffixes_of_not {ahead : List Lexeme} (hquestion : kindAt 0 ahead ≠ .questionToken)
    (h : kindAt 0 ahead ≠ .openBracketToken ∨ kindAt 1 ahead ≠ .closeBracketToken) :
    afterTypeSuffixes ahead = ahead := by
  cases ahead with
  | nil => rfl
  | cons first behind =>
    rw [afterTypeSuffixes.eq_def]
    dsimp only
    rw [if_neg (by simpa [kindAt] using hquestion)]
    cases behind with
    | nil => rfl
    | cons second rest =>
      dsimp only
      rw [if_neg]
      simpa [kindAt, Decidable.imp_iff_not_or] using h

/-! ## Whole names and types -/

section Suffixes

variable {P : Kind → Prop} {inner next : Element} {step : Element → Production (Option Element)}
  {ahead rest : List Lexeme}

/-- No step is made: what was read so far stays as it is. -/
theorem covers_iterate_of_none (hstep : step inner ahead = ⟨none, ahead, []⟩)
    (hinner : ∃ kind children, inner = .node kind children ∧ P kind) :
    (iterate step inner ahead).Covers P inner.tokens ahead ahead := by
  rw [iterate_of_none (by rw [hstep]), hstep]
  exact ⟨rfl, rfl, hinner, rfl⟩

/-- A step takes the tokens `used`, and the others go on from there. -/
theorem covers_iterate_of_some (used : List Lexeme) {behind : List Lexeme} (hused : used ≠ [])
    (hstep : step inner (used ++ behind) = ⟨some next, behind, []⟩)
    (htokens : next.tokens = inner.tokens ++ used.map Lexeme.token)
    (hothers : (iterate step next behind).Covers P next.tokens behind rest) :
    (iterate step inner (used ++ behind)).Covers P inner.tokens (used ++ behind) rest := by
  have hpos := List.length_pos_iff.mpr hused
  rw [iterate_of_some (by rw [hstep])
    (by rw [hstep, List.length_append]; exact Nat.lt_add_of_pos_left hpos), hstep]
  refine ⟨hothers.rest_eq, hothers.problems_eq, hothers.node, hothers.tokens.trans ?_⟩
  rw [htokens, List.map_append, List.append_assoc]

end Suffixes

/-- The lookahead passes the further parts of a name that the production takes. -/
theorem covers_iterate_nameSuffix (ahead : List Lexeme) (inner : Element)
    (hinner : ∃ kind children, inner = .node kind children ∧ kind.isName) :
    (iterate nameSuffix inner ahead).Covers (·.isName) inner.tokens ahead
      (afterNameSuffixes ahead) := by
  fun_induction afterNameSuffixes ahead generalizing inner with
  | case1 dot word rest h ih =>
    obtain ⟨hdot, hword⟩ : dot.kind = .dotToken ∧ word.kind = .identifierToken := by simpa using h
    refine covers_iterate_of_some [dot, word] (List.cons_ne_nil _ _)
      (nameSuffix_of_point hdot hword inner rest) ?_
      (ih _ ⟨_, _, rfl, rfl⟩)
    simp [Element.tokens, Element.tokensOf]
  | case2 dot word rest h =>
    refine covers_iterate_of_none (nameSuffix_of_not ?_ inner) hinner
    by_cases hdot : dot.kind = .dotToken
    · exact .inr fun hword : word.kind = _ => h (by simp [hdot, hword])
    · exact .inl hdot
  | case3 ahead hshort =>
    refine covers_iterate_of_none (nameSuffix_of_not (.inr ?_) inner) hinner
    match ahead, hshort with
    | [], _ => simp [kindAt]
    | [_], _ => simp [kindAt]
    | dot :: word :: rest, hshort => exact absurd rfl (hshort dot word rest)

/-- The lookahead passes the suffixes of a type that the production takes. -/
theorem covers_iterate_typeSuffix (ahead : List Lexeme) (inner : Element)
    (hinner : ∃ kind children, inner = .node kind children ∧ kind.isType) :
    (iterate typeSuffix inner ahead).Covers (·.isType) inner.tokens ahead
      (afterTypeSuffixes ahead) := by
  fun_induction afterTypeSuffixes ahead generalizing inner with
  | case1 =>
    exact covers_iterate_of_none (typeSuffix_of_not (by decide) (.inl (by decide)) inner) hinner
  | case2 question rest h ih =>
    have hstep := typeSuffix_of_question (beq_iff_eq.mp h) inner rest
    refine covers_iterate_of_some [question] (List.cons_ne_nil _ _) hstep ?_ (ih _ ⟨_, _, rfl, rfl⟩)
    simp [Element.tokens, Element.tokensOf]
  | case3 first h =>
    exact covers_iterate_of_none
      (typeSuffix_of_not (by simpa [kindAt] using h) (.inr (by simp [kindAt])) inner) hinner
  | case4 opening h closing rest hbrackets ih =>
    obtain ⟨hopening, hclosing⟩ : opening.kind = .openBracketToken ∧
        closing.kind = .closeBracketToken := by
      simpa using hbrackets
    have hstep := typeSuffix_of_brackets hopening hclosing inner rest
    refine covers_iterate_of_some [opening, closing] (List.cons_ne_nil _ _) hstep ?_
      (ih _ ⟨_, _, rfl, rfl⟩)
    simp [Element.tokens, Element.tokensOf]
  | case5 first h second rest hbrackets =>
    refine covers_iterate_of_none (typeSuffix_of_not (by simpa [kindAt] using h) ?_ inner) hinner
    by_cases hopening : first.kind = .openBracketToken
    · exact .inr fun hclosing : second.kind = _ => hbrackets (by simp [hopening, hclosing])
    · exact .inl hopening

/-- The lookahead passes the name that the production reads. -/
theorem covers_name {word : Lexeme} (hword : word.kind = .identifierToken) (behind : List Lexeme) :
    (name (word :: behind)).Covers (·.isName) [] (word :: behind) (afterNameSuffixes behind) := by
  have hcovers :=
    covers_iterate_nameSuffix behind (.node .identifierName [.token word.token]) ⟨_, _, rfl, rfl⟩
  rw [show name (word :: behind) = _ from bind_of (simpleName_of_identifier hword behind)]
  exact ⟨hcovers.rest_eq, hcovers.problems_eq, hcovers.node, hcovers.tokens⟩

/-- Where the lookahead finds the end of a type, the production reads a type up to there and
objects to nothing. -/
theorem covers_type {ahead rest : List Lexeme} (h : afterType? ahead = some rest) :
    (type ahead).Covers (·.isType) [] ahead rest := by
  match ahead with
  | first :: behind =>
    rw [afterType?] at h
    split at h
    next hpredefined =>
      cases h
      have hbase : takeIf? Kind.isPredefinedType (first :: behind) =
          ⟨some (.token first.token), behind, []⟩ :=
        takeIf?_of hpredefined behind
      have hcovers := covers_iterate_typeSuffix behind
        (.node .predefinedType [.token first.token]) ⟨_, _, rfl, rfl⟩
      rw [show type (first :: behind) = _ from bind_of hbase]
      exact ⟨hcovers.rest_eq, hcovers.problems_eq, hcovers.node, hcovers.tokens⟩
    next hpredefined =>
      split at h
      next hword =>
        cases h
        have hbase : takeIf? Kind.isPredefinedType (first :: behind) =
            ⟨none, first :: behind, []⟩ :=
          takeIf?_of_not ((Bool.not_eq_true _).mp hpredefined)
        have hname := covers_name (beq_iff_eq.mp hword) behind
        obtain ⟨kind, children, hvalue, hkind⟩ := hname.node
        have hcovers := covers_iterate_typeSuffix (afterNameSuffixes behind) _
          ⟨kind, children, hvalue, Kind.isType_of_isName hkind⟩
        rw [show type (first :: behind) = _ from (bind_of hbase).trans (bind_of hname.eq)]
        exact ⟨hcovers.rest_eq, hcovers.problems_eq, hcovers.node,
          hcovers.tokens.trans hname.tokens⟩
      next => cases h

/-! ## Declarations -/

/-- A repeated step keeps what holds of the value, if it does so whenever it goes on. -/
theorem iterate_keeps {α : Type} {Q : α → Prop} {step : α → Production (Option α)}
    (hstep : ∀ a ahead next, Q a → (step a ahead).value = some next → Q next) {a : α} (ha : Q a)
    (ahead : List Lexeme) : Q (iterate step a ahead).value := by
  fun_induction iterate step a ahead with
  | case1 a ahead first hnone => exact ha
  | case2 a ahead first next hnext hlt others ih => exact ih (hstep a ahead next ha hnext)
  | case3 a ahead first next hnext hle => exact hstep a ahead next ha hnext

/-- The first of several items is what is read first. -/
theorem exists_separated (item : Production Element) (ahead : List Lexeme) :
    ∃ others, (separated item ahead).value = (item ahead).value :: others := by
  refine iterate_keeps (Q := fun items => ∃ others, items = (item ahead).value :: others) ?_
    ⟨[], rfl⟩ _
  rintro _ behind next ⟨others, rfl⟩ hnext
  rw [bind_value] at hnext
  cases hcomma : (take? .commaToken behind).value with
  | some comma =>
    rw [hcomma] at hnext
    cases hnext
    exact ⟨_, rfl⟩
  | none =>
    rw [hcomma] at hnext
    cases hnext

/-- A declaration of locals starts with the type that is read first and with the identifier
behind it. -/
theorem exists_localDeclaration {ahead rest : List Lexeme} {base : Element} {word : Lexeme}
    (htype : type ahead = ⟨base, word :: rest, []⟩) (hword : word.kind = .identifierToken)
    (expression : Production Element) :
    ∃ initial others semicolon,
      (localDeclaration expression ahead).value = .node .localDeclarationStatement
        [.node .variableDeclaration
          (base :: .node .variableDeclarator (.token word.token :: initial) :: others),
          semicolon] := by
  obtain ⟨others, hothers⟩ := exists_separated (declarator expression) (word :: rest)
  have hdeclarator : (declarator expression (word :: rest)).value =
      .node .variableDeclarator (.token word.token :: (equalsValue? expression rest).value) := by
    rw [show declarator expression (word :: rest) = _ from bind_of (expect_of hword rest)]
    rfl
  rw [hdeclarator] at hothers
  rw [show localDeclaration expression ahead = _ from bind_of htype]
  let made := separated (declarator expression) (word :: rest)
  refine ⟨(equalsValue? expression rest).value, others, (expect .semicolonToken made.rest).value,
    ?_⟩
  rw [← hothers]
  rfl

end Production

namespace TokenCursor

open Production

variable (c : TokenCursor)

theorem token_ahead : c.ahead.map Lexeme.token = c.tokens.drop c.place := by
  rw [ahead, List.map_drop, token_placeTokens]

/-- What is left `n` places ahead is seen by counting places. -/
theorem kindAt_drop (n m : Nat) : Production.kindAt m (c.ahead.drop n) = c.kindAt (n + m) := by
  have hkind : c.ahead[n + m]?.map Lexeme.kind = (c.ahead.map Lexeme.token)[n + m]?.map
      Token.kind := by
    rw [List.getElem?_map, Option.map_map]
    rfl
  rw [Production.kindAt, List.getElem?_drop, hkind, token_ahead, List.getElem?_drop, kindAt_eq]

/-- A token of the text is the first of those left from its place on. -/
theorem exists_drop {n : Nat} {kind : Kind} (h : c.kindAt n = kind)
    (hkind : kind ≠ .endOfFileToken) :
    ∃ l, c.ahead.drop n = l :: c.ahead.drop (n + 1) ∧ l.kind = kind := by
  rw [← Nat.add_zero n, ← kindAt_drop] at h
  rw [← List.drop_drop]
  cases hdrop : c.ahead.drop n with
  | nil =>
    rw [hdrop] at h
    exact absurd h.symm hkind
  | cons l rest =>
    rw [hdrop] at h
    exact ⟨l, rfl, h⟩

/-- Where counting places stops behind a name, taking tokens does. -/
theorem drop_nameEnd (n : Nat) :
    afterNameSuffixes (c.ahead.drop n) = c.ahead.drop (c.nameEnd n) := by
  fun_induction nameEnd c n with
  | case1 n h ih =>
    obtain ⟨dot, hdrop, hdot⟩ := c.exists_drop h.1 (by decide)
    obtain ⟨word, hdrop', hword⟩ := c.exists_drop h.2 (by decide)
    rw [hdrop, hdrop', afterNameSuffixes, if_pos (by simp [hdot, hword])]
    exact ih
  | case2 n h =>
    apply afterNameSuffixes_of_not
    rw [kindAt_drop, kindAt_drop]
    exact Decidable.not_and_iff_or_not.mp h

/-- Where counting places stops behind a type, taking tokens does. -/
theorem drop_suffixEnd (n : Nat) :
    afterTypeSuffixes (c.ahead.drop n) = c.ahead.drop (c.suffixEnd n) := by
  fun_induction suffixEnd c n with
  | case1 n h ih =>
    obtain ⟨question, hdrop, hquestion⟩ := c.exists_drop h (by decide)
    rw [hdrop, afterTypeSuffixes.eq_def]
    dsimp only
    rw [if_pos (by simp [hquestion])]
    exact ih
  | case2 n hquestion h ih =>
    obtain ⟨opening, hdrop, hopening⟩ := c.exists_drop h.1 (by decide)
    obtain ⟨closing, hdrop', hclosing⟩ := c.exists_drop h.2 (by decide)
    rw [hdrop, hdrop', afterTypeSuffixes.eq_def]
    dsimp only
    rw [if_neg (by simp [hopening]), if_pos (by simp [hopening, hclosing])]
    exact ih
  | case3 n hquestion h =>
    apply afterTypeSuffixes_of_not
    · rwa [kindAt_drop]
    · rw [kindAt_drop, kindAt_drop]
      exact Decidable.not_and_iff_or_not.mp h

/-- Counting places and taking tokens find the same end of a type. -/
theorem afterType?_ahead : afterType? c.ahead = c.typeEnd?.map c.ahead.drop := by
  have hkind : Production.kindAt 0 c.ahead = c.kindAt 0 := c.kindAt_drop 0 0
  have htail : c.ahead.tail = c.ahead.drop 1 := List.drop_one.symm
  unfold typeEnd?
  rw [← hkind]
  cases hahead : c.ahead with
  | nil => rfl
  | cons first behind =>
    have hfirst : Production.kindAt 0 (first :: behind) = first.kind := rfl
    have hbehind : behind = c.ahead.drop 1 := by rw [← htail, hahead, List.tail_cons]
    rw [hfirst, afterType?, ← hahead, hbehind, drop_suffixEnd, drop_nameEnd, drop_suffixEnd]
    simp only [beq_iff_eq]
    split
    next => rfl
    split
    next => rfl
    next => rfl

/-- Counting places and taking tokens find the same declarations. -/
theorem startsLocalDeclaration_ahead :
    Production.startsLocalDeclaration c.ahead = c.startsLocalDeclaration := by
  unfold Production.startsLocalDeclaration startsLocalDeclaration
  rw [afterType?_ahead]
  cases c.typeEnd? with
  | none => rfl
  | some n =>
    have hword := c.kindAt_drop n 0
    have hnext := c.kindAt_drop n 1
    rw [Nat.add_zero] at hword
    dsimp only [Option.map_some]
    rw [← hword, ← hnext]
    match c.ahead.drop n with
    | [] => rfl
    | [word] => simp [Production.kindAt]
    | word :: next :: _ => rfl

/-- The token that is the first of those left has its place in the text. -/
theorem getElem?_of_drop {n : Nat} {l : Lexeme} {rest : List Lexeme}
    (h : c.ahead.drop n = l :: rest) : c.tokens[c.place + n]? = some l.token := by
  have hget : c.ahead[n]? = some l := by rw [← List.head?_drop, h, List.head?_cons]
  rw [← List.getElem?_drop, ← token_ahead, List.getElem?_map, hget, Option.map_some]

def ofText (text : String) (place : Nat) : TokenCursor where
  tokens := (scan text).tokens
  final := (scan text).final
  place := place
  written := fun t ht => by
    have hmem := ht
    rw [← token_placeTokens 0 (scan text).tokens] at hmem
    obtain ⟨l, hl, rfl⟩ := List.mem_map.mp hmem
    exact text_ne_of_mem_placeTokens hl
  ended := (Scanner.unmarked_final true text.toList).2.2.1

/-- Where the lookahead finds a declaration of locals, the production for types takes just the
tokens that the lookahead passed, objects to nothing and makes one type of them. The first
variable declared with it has the token behind them for its name. -/
theorem reads_passed (h : c.startsLocalDeclaration = true) :
    Production.startsLocalDeclaration c.ahead = true ∧ ∃ n kind children word,
      c.typeEnd? = some n ∧ kind.isType ∧ type c.ahead = ⟨.node kind children, c.ahead.drop n, []⟩ ∧
      (Element.node kind children).tokens = (c.tokens.drop c.place).take n ∧
      c.tokens[c.place + n]? = some word ∧ word.kind = .identifierToken ∧ word.isMissing = false ∧
      ∀ expression, ∃ initial others semicolon,
      (localDeclaration expression c.ahead).value = .node .localDeclarationStatement
        [.node .variableDeclaration
          (.node kind children :: .node .variableDeclarator (.token word :: initial) :: others),
          semicolon] := by
  have hahead : Production.startsLocalDeclaration c.ahead = true :=
    c.startsLocalDeclaration_ahead.trans h
  refine ⟨hahead, ?_⟩
  unfold startsLocalDeclaration at h
  cases hend : c.typeEnd? with
  | none => simp [hend] at h
  | some n =>
    rw [hend] at h
    have hword : c.kindAt n = .identifierToken := beq_iff_eq.mp (Bool.and_eq_true_iff.mp h).1
    obtain ⟨word, hdrop, hkind⟩ := c.exists_drop hword (by decide)
    have hcovers := covers_type (c.afterType?_ahead.trans (congrArg _ hend))
    obtain ⟨kind, children, hvalue, htype⟩ := hcovers.node
    have hmade : type c.ahead = ⟨.node kind children, c.ahead.drop n, []⟩ := by
      rw [hcovers.eq, hvalue]
    have htoken := c.getElem?_of_drop hdrop
    refine ⟨n, kind, children, word.token, rfl, htype, hmade, ?_, htoken, hkind, ?_,
      fun expression => ?_⟩
    · have htokens := hcovers.tokens
      rw [hvalue, List.map_drop, token_ahead, List.nil_append] at htokens
      exact List.append_cancel_right (htokens.trans (List.take_append_drop n _).symm)
    · exact Token.isMissing_eq_false (c.written _ (List.mem_of_getElem? htoken))
    · exact exists_localDeclaration (hmade.trans (by rw [hdrop])) hkind expression

/-- A qualified name with a question mark and two pairs of brackets is passed over in eight
places, and is read as one type of eight tokens. -/
theorem reads_passed_use :
    let c := ofText "class C { void M() { A.B?[][] x = 1, y; } }" 8
    c.startsLocalDeclaration = true ∧ c.typeEnd? = some 8 ∧
      ∃ kind children word, type c.ahead = ⟨.node kind children, c.ahead.drop 8, []⟩ ∧ kind.isType ∧
        (Element.node kind children).tokens.map Token.text = ["A", ".", "B", "?", "[", "]", "[",
          "]"] ∧
        word.text = "x" ∧ ∃ initial others semicolon,
        (localDeclaration memberExpression c.ahead).value =
          .node .localDeclarationStatement [.node .variableDeclaration
            (.node kind children :: .node .variableDeclarator (.token word :: initial) :: others),
            semicolon] := by
  intro c
  have hstarts : c.startsLocalDeclaration = true := by decide +kernel
  have hend : c.typeEnd? = some 8 := by decide +kernel
  have htexts : ((c.tokens.drop 8).take 8).map Token.text = ["A", ".", "B", "?", "[", "]", "[",
      "]"] := by
    decide +kernel
  have hword : c.tokens[16]?.map Token.text = some "x" := by decide +kernel
  obtain ⟨-, n, kind, children, word, hn, htype, hmade, htokens, hget, -, -, hlocals⟩ :=
    c.reads_passed hstarts
  obtain rfl : 8 = n := Option.some.inj (hend.symm.trans hn)
  rw [show c.tokens[16]? = some word from hget] at hword
  exact ⟨hstarts, hend, kind, children, word, hmade, htype, (congrArg _ htokens).trans htexts,
    Option.some.inj hword, hlocals memberExpression⟩

end TokenCursor

end AutoProperty
