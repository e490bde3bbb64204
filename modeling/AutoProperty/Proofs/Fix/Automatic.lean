import AutoProperty.Proofs.Fix.Splicing
import AutoProperty.Proofs.Syntax.WholeText

/-! # Automatic properties

What a property of a text turns into when it is made automatic. The relations say this by the
shapes of both, whatever stands in the bodies, and the rewriting keeps to them for every
property that a tree of a text can hold.
-/

namespace AutoProperty

/-- What tokens spell, each with its kind and without the trivia around it. -/
def words (tokens : List Token) : List (Kind × String) :=
  tokens.map fun t => (t.kind, t.text)

namespace Element

/-- An accessor in parts: what limits its use, its keyword, and its body. -/
def ofAccessor (kind : Kind) (modifiers : List Token) (keyword : Token) (body : List Element) :
    Element :=
  .node kind (modifiers.map .token ++ .token keyword :: body)

def ofAccessors (opening : Token) (accessors : List Element) (closing : Token) : Element :=
  .node .accessorList (.token opening :: (accessors ++ [.token closing]))

/-- An element of an accessor list, and what is left of it without a body. -/
inductive Stripped : Element → Element → Prop where
  /-- An accessor that ends in a semicolon has no body to lose. -/
  | bodiless {kind : Kind} {modifiers : List Token} {keyword semicolon : Token} :
      kind.isAccessor → (∀ t ∈ modifiers, t.kind.isAccessibility) →
      keyword.kind = kind.accessorKeyword →
      semicolon.kind = .semicolonToken →
      Stripped (ofAccessor kind modifiers keyword [.token semicolon])
        (ofAccessor kind modifiers keyword [.token semicolon])
  /-- A semicolon takes the place of a body. The comments behind the keyword go behind it, and
  then what stood behind the body. -/
  | body {kind : Kind} {modifiers : List Token} {keyword last : Token} {body : List Element}
      {comments : List Trivia} :
      kind.isAccessor → (∀ t ∈ modifiers, t.kind.isAccessibility) →
      keyword.kind = kind.accessorKeyword →
      body.map Element.kind = [.block] ∨
      body.map Element.kind = [.arrowExpressionClause, .semicolonToken] →
      (tokensOf body).getLast? = some last →
      comments.filter Trivia.isComment = keyword.trailing.filter Trivia.isComment →
      Stripped (ofAccessor kind modifiers keyword body)
        (ofAccessor kind modifiers { keyword with trailing := [] }
          [.token ⟨.semicolonToken, ";", [], comments ++ last.trailing⟩])
  /-- What was set aside stays. -/
  | skipped {children : List Element} : Stripped (.node .skippedTokens children)
    (.node .skippedTokens children)

end Element

/-- What follows the name of a property, the accessor list made of it, and the initial value
that the property has itself. -/
inductive BodyStripped : List Element → Element → List Element → Prop where
  | accessors {opening closing : Token} {accessors stripped own : List Element} :
      List.Forall₂ Element.Stripped accessors stripped →
      own = [] ∨ own.map Element.kind = [.equalsValueClause, .semicolonToken] →
      BodyStripped (.ofAccessors opening accessors closing :: own)
        (.ofAccessors opening stripped closing) own
  /-- An expression body leaves `{ get; }`, and what stood behind it. -/
  | arrow {value : List Element} {semicolon opening keyword inner closing : Token} :
      semicolon.kind = .semicolonToken →
      words [opening, keyword, inner, closing] =
        [(.openBraceToken, "\x7b"), (.getKeyword, "get"), (.semicolonToken, ";"),
          (.closeBraceToken, "\x7d")] →
      closing.trailing = semicolon.trailing →
      BodyStripped [.node .arrowExpressionClause value, .token semicolon]
        (.ofAccessors opening [.ofAccessor .getAccessorDeclaration [] keyword [.token inner]]
          closing) []

/-- What stands behind the name once a property may have been given an initial value. -/
inductive Valued (initializer? : Option Node) : Element → List Element → List Element → Prop where
  /-- Without a value to give, or with one of its own, the property keeps what it has. -/
  | own {list : Element} {own : List Element} : initializer? = none ∨ own ≠ [] →
      Valued initializer? list own (list :: own)
  /-- The value and a semicolon go behind the list, and what stood behind the list goes behind
  them. -/
  | given {expression value : Node} {opening closing equals : Token} {accessors : List Element} :
      initializer? = some expression → value.kind = expression.kind →
      words (equals :: value.tokens) = (.equalsToken, "=") :: words expression.tokens →
      Valued initializer? (.ofAccessors opening accessors closing) []
        [.ofAccessors opening accessors { closing with trailing := [] },
          .node .equalsValueClause [.token equals, value.element],
          .token ⟨.semicolonToken, ";", [], closing.trailing⟩]

/-- A property and the automatic one that it becomes, when an initial value may be given to it. -/
structure Node.Automated (initializer? : Option Node) (old new : Node) : Prop where
  kind : new.kind = old.kind
  /-- Up to the name nothing changes. Behind it only accessors without bodies are left, and an
  initial value. -/
  parts :
    ∃ (modifiers : List Element) (type : Element) (name : Token) (body : List Element)
      (list : Element) (own final : List Element),
    (∀ e ∈ modifiers, e.kind.isModifier) ∧ type.kind.isType ∧ name.kind = .identifierToken ∧
      BodyStripped body list own ∧ Valued initializer? list own final ∧
      old.children = modifiers ++ [type, .token name] ++ body ∧
      new.children = modifiers ++ [type, .token name] ++ final
  /-- Behind the property stands what stood there. -/
  behind : ∃ last last' : Token, old.tokens.getLast? = some last ∧
    new.tokens.getLast? = some last' ∧
    last'.trailing = last.trailing

/-! ## Accessors -/

namespace Element

/-- Conforming elements of the kinds of tokens are tokens. -/
theorem exists_tokens {es : List Element} (h : ∀ e ∈ es, e.Conforms ∧ e.kind.isToken) :
    ∃ ts : List Token, es = ts.map .token := by
  induction es with
  | nil => exact ⟨[], rfl⟩
  | cons e es ih =>
    rcases List.forall_mem_cons.mp h with ⟨he, hes⟩
    obtain ⟨t, rfl, -⟩ := he.1.eq_token he.2
    obtain ⟨ts, rfl⟩ := ih hes
    exact ⟨t :: ts, rfl⟩

theorem exists_lastToken? {e : Element} (h : e.Conforms) : ∃ last, e.lastToken? = some last :=
  ⟨_, List.getLast?_eq_some_getLast h.tokens_ne_nil⟩

/-- The last token of elements is that of the last element. -/
theorem getLast?_tokensOf_concat (es : List Element) {e : Element} (h : e.tokens ≠ []) :
    (tokensOf (es ++ [e])).getLast? = e.lastToken? := by
  simp [tokensOf_append, tokensOf, lastToken?, List.getLast?_append_of_ne_nil _ h]

@[simp]
theorem lastToken?_ofAccessors (opening closing : Token) (accessors : List Element) :
    (ofAccessors opening accessors closing).lastToken? = some closing := by
  rw [lastToken?, ofAccessors, tokens, ← List.cons_append]
  exact getLast?_tokensOf_concat _ (List.cons_ne_nil _ _)

end Element

theorem isAccessorHead_of_isAccessibility {kind : Kind} (h : kind.isAccessibility) :
    isAccessorHead kind := by
  simp [isAccessorHead, h]

theorem isAccessorHead_accessorKeyword (kind : Kind) : isAccessorHead kind.accessorKeyword := by
  cases kind <;> rfl

theorem isToken_of_isAccessorHead {kind : Kind} (h : isAccessorHead kind) : kind.isToken := by
  revert h
  cases kind <;> decide

theorem Element.accessorHead?_of {t : Token} (h : isAccessorHead t.kind) :
    (Element.token t).accessorHead? = some t :=
  if_pos h

/-- The head of an accessor and its body are told apart by their kinds. -/
theorem parts_of_heads {heads : List Token} {body : List Element}
    (hheads : ∀ t ∈ heads, isAccessorHead t.kind) (hbody : ∀ e ∈ body, e.accessorHead? = none) :
    (heads.map Element.token ++ body).filterMap Element.accessorHead? = heads ∧
      (heads.map Element.token ++ body).filter (·.accessorHead?.isNone) = body := by
  induction heads with
  | nil =>
    refine ⟨List.filterMap_eq_nil_iff.mpr hbody, List.filter_eq_self.mpr fun e he => ?_⟩
    simp [hbody e he]
  | cons t ts ih =>
    rcases List.forall_mem_cons.mp hheads with ⟨ht, hts⟩
    have hsome := Element.accessorHead?_of ht
    simp [hsome, ih hts]

/-- The comments behind a keyword are all that goes on from there. -/
theorem filter_isComment_headComments (keyword : Token) (after : List Trivia) :
    (headComments keyword ++ breakBetween (headComments keyword) after).filter Trivia.isComment =
      keyword.trailing.filter Trivia.isComment := by
  have hbreak : (breakBetween (headComments keyword) after).filter Trivia.isComment = [] := by
    unfold breakBetween
    split <;> rfl
  have hspace : Trivia.isComment .space = false := rfl
  rw [List.filter_append, hbreak, List.append_nil]
  unfold headComments
  split
  next hnone => simp [hnone]
  next hsome => simp [hspace]

section Accessor

variable {kind : Kind} {modifiers : List Token} {keyword : Token} {body : List Element}
  (hmodifiers : ∀ t ∈ modifiers, t.kind.isAccessibility)
  (hkeyword : keyword.kind = kind.accessorKeyword) (hbody : ∀ e ∈ body, e.accessorHead? = none)
include hmodifiers hkeyword hbody

theorem stripAccessor_parts :
    let children := modifiers.map Element.token ++ .token keyword :: body
    children.filterMap Element.accessorHead? = modifiers ++ [keyword] ∧
      children.filter (·.accessorHead?.isNone) = body := by
  have hheads : ∀ t ∈ modifiers ++ [keyword], isAccessorHead t.kind := by
    refine List.forall_mem_append.mpr
      ⟨fun t ht => isAccessorHead_of_isAccessibility (hmodifiers t ht), ?_⟩
    simp [hkeyword, isAccessorHead_accessorKeyword]
  simpa using parts_of_heads hheads hbody

theorem stripAccessor_of_isBodiless (hbodiless : isBodiless body) :
    stripAccessor kind (modifiers.map .token ++ .token keyword :: body) = .ofAccessor kind modifiers
      keyword body := by
  obtain ⟨-, htail⟩ := stripAccessor_parts hmodifiers hkeyword hbody
  simp only [stripAccessor, htail, hbodiless, if_true]
  rfl

/-- A body is replaced by a semicolon, with the comments of the keyword behind it and then what
stood behind the body. -/
theorem stripAccessor_eq (hbodiless : isBodiless body = false) :
    stripAccessor kind (modifiers.map .token ++ .token keyword :: body) =
      let after := (body.getLast?.map Element.trailing).getD []
      .ofAccessor kind modifiers { keyword with trailing := [] }
        [.token
          ⟨.semicolonToken, ";", [],
            headComments keyword ++ breakBetween (headComments keyword) after ++ after⟩] := by
  obtain ⟨hhead, htail⟩ := stripAccessor_parts hmodifiers hkeyword hbody
  simp [stripAccessor, hhead, htail, hbodiless, Element.ofAccessor, Token.withTrailing, Token.fixed,
    Token.bare, Kind.fixedText?]

end Accessor

/-- The children of an accessor are its modifiers, its keyword and its body. -/
theorem exists_ofAccessor {kind : Kind} {children : List Element} (hkind : kind.isAccessor)
    (h : (Element.node kind children).Conforms) :
    ∃ (modifiers : List Token) (keyword : Token) (body : List Element),
      .node kind children = Element.ofAccessor kind modifiers keyword body ∧
        (∀ t ∈ modifiers, t.kind.isAccessibility) ∧ keyword.kind = kind.accessorKeyword ∧
        IsBody (body.map Element.kind) ∧ ∀ e ∈ body, e.Conforms := by
  obtain ⟨modifierKinds, bodyKinds, hmodifiers, hbody, hkinds⟩ :=
    (Production.childrenFit_accessor hkind).mp h.fit
  obtain ⟨modifiers, rest, rfl, rfl, hrest⟩ := List.map_eq_append_iff.mp hkinds
  obtain ⟨keyword, body, rfl, hkeyword, rfl⟩ := List.map_eq_cons_iff.mp hrest
  have hall : ∀ e ∈ modifiers ++ keyword :: body, e.Conforms := fun e he => h.child he
  obtain ⟨hallModifiers, hallRest⟩ := List.forall_mem_append.mp hall
  obtain ⟨hallKeyword, hallBody⟩ := List.forall_mem_cons.mp hallRest
  obtain ⟨tokens, rfl⟩ := Element.exists_tokens fun e he =>
    ⟨hallModifiers e he,
      isToken_of_isAccessorHead
        (isAccessorHead_of_isAccessibility (hmodifiers _ (List.mem_map_of_mem he)))⟩
  obtain ⟨word, rfl, -⟩ := hallKeyword.eq_token <|
    isToken_of_isAccessorHead (hkeyword ▸ isAccessorHead_accessorKeyword kind)
  exact ⟨tokens, word, body, rfl,
    fun t ht => hmodifiers _ (List.mem_map_of_mem (List.mem_map_of_mem ht)), hkeyword, hbody,
    hallBody⟩

/-- No part of a body can be taken for the head of an accessor. -/
theorem accessorHead?_eq_none {body : List Element} (h : IsBody (body.map Element.kind))
    {e : Element} (he : e ∈ body) : e.accessorHead? = none := by
  have hkind : isAccessorHead e.kind = false := by
    have hmem := List.mem_map_of_mem (f := Element.kind) he
    rcases h with h | h | h <;> rw [h] at hmem <;> simp at hmem
    · rw [hmem]; rfl
    · rcases hmem with hmem | hmem <;> rw [hmem] <;> rfl
    · rw [hmem]; rfl
  cases e with
  | token t => exact if_neg (by simpa using hkind)
  | node => rfl

/-- A body that is none is a semicolon. -/
theorem exists_semicolon {body : List Element} (h : IsBody (body.map Element.kind))
    (hall : ∀ e ∈ body, e.Conforms) (hbodiless : isBodiless body) :
    ∃ t : Token, body = [.token t] ∧ t.kind = .semicolonToken := by
  match body, hbodiless with
  | [], _ => simp [IsBody] at h
  | [e], hbodiless =>
    have hkind : e.kind = .semicolonToken := by simpa [isBodiless] using hbodiless
    obtain ⟨t, rfl, ht⟩ := (hall e List.mem_cons_self).eq_token (by rw [hkind]; rfl)
    exact ⟨t, rfl, ht.trans hkind⟩

/-- Any other body is a block or an arrow with its value. -/
theorem exists_last {body : List Element} (h : IsBody (body.map Element.kind))
    (hbodiless : isBodiless body = false) :
    (body.map Element.kind = [.block] ∨
      body.map Element.kind = [.arrowExpressionClause, .semicolonToken]) ∧ ∃ before final,
      body = before ++ [final] := by
  have hkinds : body.map Element.kind = [.block] ∨
      body.map Element.kind = [.arrowExpressionClause, .semicolonToken] := by
    rcases h with h | h | h
    · exact .inl h
    · exact .inr h
    · obtain ⟨e, rfl, he⟩ := List.map_eq_singleton_iff.mp h
      simp [isBodiless, he] at hbodiless
  refine ⟨hkinds, _, _, (List.dropLast_append_getLast ?_).symm⟩
  rintro rfl
  simp at hkinds

/-- What stripping makes of an element of a parsed accessor list. -/
theorem stripped_stripListElement {e : Element} (h : e.Conforms)
    (hkind : e.kind.isAccessor ∨ e.kind = .skippedTokens) : e.Stripped (stripListElement e) := by
  rcases hkind with hkind | hkind
  · obtain ⟨children, heq⟩ := h.eq_node (by revert hkind; cases e.kind <;> decide)
    generalize e.kind = kind at heq hkind
    subst heq
    have hstrip : stripListElement (.node kind children) = stripAccessor kind children :=
      if_pos hkind
    obtain ⟨modifiers, keyword, body, heq, hmodifiers, hkeyword, hbody, hconforms⟩ :=
      exists_ofAccessor hkind h
    obtain ⟨-, rfl⟩ := Element.node.inj heq
    rw [hstrip]
    have hparts := fun e he => accessorHead?_eq_none (e := e) hbody he
    -- The kind of a body does not matter, only whether it is more than a semicolon.
    cases hbodiless : isBodiless body with
    | true =>
      rw [stripAccessor_of_isBodiless hmodifiers hkeyword hparts hbodiless]
      obtain ⟨semicolon, rfl, hsemicolon⟩ := exists_semicolon hbody hconforms hbodiless
      exact .bodiless hkind hmodifiers hkeyword hsemicolon
    | false =>
      rw [stripAccessor_eq hmodifiers hkeyword hparts hbodiless]
      obtain ⟨hkinds, before, final, rfl⟩ := exists_last hbody hbodiless
      have hfinal := hconforms final (List.mem_append_right _ List.mem_cons_self)
      obtain ⟨last, hlast⟩ := Element.exists_lastToken? hfinal
      have hlast' : final.trailing = last.trailing := by simp [Element.trailing, hlast]
      simp only [List.getLast?_append_cons, List.getLast?_singleton, Option.map_some,
        Option.getD_some, hlast']
      refine .body hkind hmodifiers hkeyword hkinds ?_ (filter_isComment_headComments keyword _)
      rw [Element.getLast?_tokensOf_concat _ hfinal.tokens_ne_nil, hlast]
  · obtain ⟨children, heq⟩ := h.eq_node (by rw [hkind]; rfl)
    rw [heq, hkind]
    exact .skipped

/-! ## Bodies of properties -/

/-- Accessors stand in braces. -/
theorem exists_ofAccessors {e : Element} (h : e.Conforms) (hkind : e.kind = .accessorList) :
    ∃ (opening closing : Token) (accessors : List Element),
      e = .ofAccessors opening accessors closing ∧ ∀ a ∈ accessors,
      a.Conforms ∧ (a.kind.isAccessor ∨ a.kind = .skippedTokens) := by
  obtain ⟨children, heq⟩ := h.eq_node (by rw [hkind]; rfl)
  rw [hkind] at heq
  subst heq
  obtain ⟨kinds, haccessors, hkinds⟩ : ChildrenFit .accessorList (children.map Element.kind) :=
    h.fit
  obtain ⟨first, rest, rfl, hfirst, hrest⟩ := List.map_eq_cons_iff.mp hkinds
  obtain ⟨accessors, final, rfl, rfl, hfinal⟩ := List.map_eq_append_iff.mp hrest
  obtain ⟨last, rfl, hlast⟩ := List.map_eq_singleton_iff.mp hfinal
  obtain ⟨opening, rfl, -⟩ := (h.child List.mem_cons_self).eq_token (by rw [hfirst]; rfl)
  obtain ⟨closing, rfl, -⟩ := (h.child (e := last) (by simp)).eq_token (by rw [hlast]; rfl)
  refine ⟨opening, closing, accessors, rfl, fun a ha => ⟨h.child (by simp [ha]), ?_⟩⟩
  exact haccessors a.kind (List.mem_map_of_mem ha)

/-- What is neither accessors nor an expression body stays. -/
theorem stripBodies_append (before? : Option Element) {es : List Element} (rest : List Element)
    (h : ∀ e ∈ es, e.kind ≠ .accessorList ∧ e.kind ≠ .arrowExpressionClause) :
    ∃ before'?, stripBodies before? (es ++ rest) = es ++ stripBodies before'? rest := by
  induction es generalizing before? with
  | nil => exact ⟨before?, rfl⟩
  | cons e es ih =>
    rcases List.forall_mem_cons.mp h with ⟨he, hes⟩
    obtain ⟨before'?, hstrip⟩ := ih (some e) hes
    refine ⟨before'?, ?_⟩
    rw [List.cons_append, stripBodies.eq_def]
    split
    next heq => cases heq
    next heq =>
      obtain ⟨rfl, -⟩ := List.cons.inj heq
      exact absurd rfl he.1
    next heq =>
      obtain ⟨rfl, rfl⟩ := List.cons.inj heq
      rw [if_neg he.2, hstrip, List.cons_append]

/-- The accessors of a list lose their bodies one by one, and what stands behind the list stays. -/
theorem stripBodies_ofAccessors {before? : Option Element} {opening closing : Token}
    {accessors own : List Element}
    (hown : ∀ e ∈ own, e.kind ≠ .accessorList ∧ e.kind ≠ .arrowExpressionClause) :
    stripBodies before? (.ofAccessors opening accessors closing :: own) = .ofAccessors opening
      (accessors.map stripListElement) closing :: own := by
  have hlist : (Element.token opening :: (accessors ++ [.token closing])).map stripListElement =
      .token opening :: (accessors.map stripListElement ++ [.token closing]) := by
    simp [stripListElement]
  obtain ⟨_, hrest⟩ :=
    stripBodies_append (some (.ofAccessors opening (accessors.map stripListElement) closing)) []
      hown
  rw [List.append_nil, stripBodies, List.append_nil] at hrest
  rw [Element.ofAccessors, stripBodies, hlist]
  exact congrArg (List.cons _) hrest

/-- An expression body leaves a list of its own. -/
theorem bodyStripped_arrow (before? : Option Element) (value : List Element) {semicolon : Token}
    (hkind : semicolon.kind = .semicolonToken) :
    ∃ list, stripBodies before? [.node .arrowExpressionClause value, .token semicolon] = [list] ∧
      BodyStripped [.node .arrowExpressionClause value, .token semicolon] list [] := by
  have htake : takeSemicolon [.token semicolon] = (semicolon.trailing, []) := if_pos hkind
  let opening : Token := ⟨.openBraceToken, "\x7b",
    if (before?.bind Element.lastToken?).any (·.trailing.isEmpty) then [.space] else [], [.space]⟩
  let inner : Token := ⟨.semicolonToken, ";", [], [.space]⟩
  refine ⟨.ofAccessors opening
    [.ofAccessor .getAccessorDeclaration [] ⟨.getKeyword, "get", [], []⟩ [.token inner]]
    ⟨.closeBraceToken, "\x7d", [], semicolon.trailing⟩, ?_, .arrow hkind rfl rfl⟩
  rw [stripBodies, if_pos (Element.kind_node _ _), htake]
  · dsimp only
    rw [stripBodies]
    rfl
  · intro _ heq
    cases heq

/-- What follows the name of a property is stripped of bodies, and its accessors then stand
first. -/
theorem bodyStripped_stripBodies (before? : Option Element) {body : List Element}
    (h : IsPropertyBody (body.map Element.kind)) (hall : ∀ e ∈ body, e.Conforms) :
    ∃ list own, stripBodies before? body = list :: own ∧ BodyStripped body list own := by
  -- Accessors come first both with and without an initial value behind them.
  have haccessors : ∀ (e : Element) (own : List Element), e.Conforms → e.kind = .accessorList →
      own = [] ∨ own.map Element.kind = [.equalsValueClause, .semicolonToken] →
      ∃ list own', stripBodies before? (e :: own) = list :: own' ∧
      BodyStripped (e :: own) list own' := by
    intro e own he hkind hown
    obtain ⟨opening, closing, accessors, rfl, hconforms⟩ := exists_ofAccessors he hkind
    refine ⟨_, _, stripBodies_ofAccessors ?_, .accessors ?_ hown⟩
    · intro e he
      rcases hown with rfl | hown
      · cases he
      · have hmem := List.mem_map_of_mem (f := Element.kind) he
        rw [hown] at hmem
        simp only [List.mem_cons, List.not_mem_nil, or_false] at hmem
        rcases hmem with hmem | hmem <;> simp [hmem]
    · refine List.forall₂_map_right_iff.mpr (List.forall₂_same.mpr fun a ha => ?_)
      exact stripped_stripListElement (hconforms a ha).1 (hconforms a ha).2
  rcases h with h | h | h
  · obtain ⟨e, rfl, he⟩ := List.map_eq_singleton_iff.mp h
    exact haccessors e [] (hall e List.mem_cons_self) he (.inl rfl)
  · obtain ⟨e, own, rfl, he, hown⟩ := List.map_eq_cons_iff.mp h
    exact haccessors e own (hall e List.mem_cons_self) he (.inr hown)
  · obtain ⟨arrow, rest, rfl, harrow, hrest⟩ := List.map_eq_cons_iff.mp h
    obtain ⟨last, rfl, hlast⟩ := List.map_eq_singleton_iff.mp hrest
    obtain ⟨value, heq⟩ := (hall arrow List.mem_cons_self).eq_node (by rw [harrow]; rfl)
    obtain ⟨semicolon, rfl, hsemicolon⟩ := (hall last (by simp)).eq_token (by rw [hlast]; rfl)
    rw [harrow] at heq
    subst heq
    obtain ⟨list, hstrip, hstripped⟩ := bodyStripped_arrow before? value (hsemicolon.trans hlast)
    exact ⟨list, [], hstrip, hstripped⟩

/-! ## Initial values -/

@[simp]
theorem words_cons (t : Token) (ts : List Token) : words (t :: ts) = (t.kind, t.text) :: words ts :=
  rfl

@[simp]
theorem words_append (ts us : List Token) : words (ts ++ us) = words ts ++ words us :=
  List.map_append

namespace Element

/-- A change of the last token is one of the last element, where that is a token. -/
theorem mapLastOf?_concat (f : Token → Token) (es : List Element) (t : Token) :
    mapLastOf? f (es ++ [.token t]) = some (es ++ [.token (f t)]) := by
  induction es with
  | nil => rfl
  | cons e es ih => rw [List.cons_append, mapLastOf?, ih, List.cons_append]

mutual

theorem tokens_mapLast? (f : Token → Token) (e : Element) :
    (e.mapLast? f).map tokens = e.tokens.getLast?.map fun t => e.tokens.dropLast ++ [f t] := by
  cases e with
  | token t => rfl
  | node kind children =>
    rw [mapLast?, tokens, Option.map_map, ← tokensOf_mapLastOf? f children]
    rfl

/-- Changing the last token of some elements leaves all others as they are. -/
theorem tokensOf_mapLastOf? (f : Token → Token) (es : List Element) :
    (mapLastOf? f es).map tokensOf = (tokensOf es).getLast?.map fun t =>
      (tokensOf es).dropLast ++ [f t] := by
  cases es with
  | nil => rfl
  | cons e es =>
    have hfirst := tokens_mapLast? f e
    have hothers := tokensOf_mapLastOf? f es
    rw [mapLastOf?, tokensOf]
    -- Only if there is no token behind the first element, the change falls on that one.
    rcases List.eq_nil_or_concat' (tokensOf es) with htokens | ⟨ts, t, htokens⟩
    · rw [htokens] at hothers
      rw [Option.map_eq_none_iff.mp hothers]
      simpa [Function.comp_def, tokensOf, htokens] using hfirst
    · rw [htokens, List.getLast?_concat, List.dropLast_concat] at hothers
      obtain ⟨es', hes, htokens'⟩ := Option.map_eq_some_iff.mp hothers
      simp [hes, tokensOf, htokens, htokens', ← List.append_assoc]

end

end Element

namespace Node

theorem tokens_mapFirstToken (f : Token → Token) (n : Node) :
    (n.mapFirstToken f).tokens = (n.tokens.head?.map fun t => f t :: n.tokens.tail).getD
      n.tokens := by
  rw [tokens, tokens, ← Element.tokensOf_mapFirstOf?, Option.getD_map]
  rfl

theorem tokens_mapLastToken (f : Token → Token) (n : Node) :
    (n.mapLastToken f).tokens = (n.tokens.getLast?.map fun t => n.tokens.dropLast ++ [f t]).getD
      n.tokens := by
  rw [tokens, tokens, ← Element.tokensOf_mapLastOf?, Option.getD_map]
  rfl

/-- Taking trivia from the ends of a node changes none of its words. -/
theorem words_bare (n : Node) :
    words ((n.mapFirstToken (·.withLeading [])).mapLastToken (·.withTrailing [])).tokens = words
      n.tokens := by
  have hlast : ∀ m : Node, words (m.mapLastToken (·.withTrailing [])).tokens = words m.tokens := by
    intro m
    rw [tokens_mapLastToken]
    rcases List.eq_nil_or_concat' m.tokens with h | ⟨ts, t, h⟩ <;> simp [h, Token.withTrailing]
  have hfirst : words (n.mapFirstToken (·.withLeading [])).tokens = words n.tokens := by
    rw [tokens_mapFirstToken]
    cases h : n.tokens <;> simp [Token.withLeading]
  rw [hlast, hfirst]

/-- A node has a child node of a kind exactly if that is a kind among those of its children. -/
theorem hasChild_iff {n : Node} {kind : Kind} (h : ∀ e ∈ n.children, e.Conforms)
    (hkind : kind.isNode) : n.hasChild kind ↔ kind ∈ n.children.map Element.kind := by
  rw [hasChild, List.any_eq_true, List.mem_map]
  refine exists_congr fun e => and_congr_right fun he => ?_
  constructor
  · intro hany
    cases e with
    | token => simp [Element.node?] at hany
    | node => simpa [Element.node?] using hany
  · rintro rfl
    obtain ⟨children, heq⟩ := (h e he).eq_node hkind
    rw [heq]
    simp [Element.node?]

end Node

/-- An initial value goes behind an accessor list that stands last. -/
theorem valued_withInitializer (expression : Node) (before accessors : List Element)
    (opening closing : Token) :
    ∃ final, withInitializer expression (before ++ [.ofAccessors opening accessors closing]) =
      before ++ final ∧ Valued (some expression) (.ofAccessors opening accessors closing) []
        final := by
  have hlist :
      (Node.mapLastToken (·.withTrailing [])
        ⟨.accessorList, .token opening :: (accessors ++ [.token closing])⟩).element =
      .ofAccessors opening accessors { closing with trailing := [] } := by
    rw [Node.mapLastToken, ← List.cons_append, Element.mapLastOf?_concat]
    rfl
  have htrailing : (Element.ofAccessors opening accessors closing).trailing = closing.trailing := by
    simp [Element.trailing]
  have hvalued : Valued (some expression) (.ofAccessors opening accessors closing) []
      [.ofAccessors opening accessors { closing with trailing := [] }, initializerClause expression,
        .token ⟨.semicolonToken, ";", [], closing.trailing⟩] := by
    refine .given rfl rfl ?_
    rw [words_cons, Node.words_bare]
  refine ⟨_, ?_, hvalued⟩
  rw [withInitializer, List.getLast?_concat]
  dsimp only [Element.ofAccessors] at hlist htrailing ⊢
  rw [hlist, List.dropLast_concat]
  simp [Node.element, htrailing, Token.withTrailing, Token.fixed, Token.bare, Kind.fixedText?]

/-! ## The last token -/

/-- An accessor list that stands alone ends with its brace. -/
theorem getLast?_tokensOf_ofAccessors (opening closing : Token) (accessors : List Element) :
    (Element.tokensOf [.ofAccessors opening accessors closing]).getLast? = some closing := by
  rw [Element.tokensOf, Element.tokensOf, List.append_nil, ← Element.lastToken?,
    Element.lastToken?_ofAccessors]

/-- Behind what is stripped of bodies stands what stood behind the bodies. -/
theorem BodyStripped.behind {body own : List Element} {list : Element}
    (h : BodyStripped body list own) (hall : ∀ e ∈ body, e.Conforms) :
    ∃ last last', (Element.tokensOf body).getLast? = some last ∧
      (Element.tokensOf (list :: own)).getLast? = some last' ∧ last'.trailing = last.trailing := by
  cases h with
  | @accessors opening closing accessors stripped own _ hown =>
    rcases List.eq_nil_or_concat' own with rfl | ⟨before, final, rfl⟩
    · exact ⟨closing, closing, getLast?_tokensOf_ofAccessors .., getLast?_tokensOf_ofAccessors ..,
        rfl⟩
    · have hfinal : final.Conforms := hall final (by simp)
      obtain ⟨last, hlast⟩ := Element.exists_lastToken? hfinal
      refine ⟨last, last, ?_, ?_, rfl⟩
      · rw [← List.cons_append, Element.getLast?_tokensOf_concat _ hfinal.tokens_ne_nil, hlast]
      · rw [← List.cons_append, Element.getLast?_tokensOf_concat _ hfinal.tokens_ne_nil, hlast]
  | @arrow value semicolon opening keyword inner closing _ _ htrailing =>
    refine ⟨semicolon, closing, ?_, getLast?_tokensOf_ofAccessors .., htrailing⟩
    exact Element.getLast?_tokensOf_concat [.node .arrowExpressionClause value]
      (List.cons_ne_nil _ _)

/-- An initial value leaves behind the property what stands behind it. -/
theorem Valued.behind {initializer? : Option Node} {list : Element} {own final : List Element}
    {last : Token} (h : Valued initializer? list own final)
    (hlast : (Element.tokensOf (list :: own)).getLast? = some last) :
    ∃ last', (Element.tokensOf final).getLast? = some last' ∧ last'.trailing = last.trailing := by
  cases h with
  | own => exact ⟨last, hlast, rfl⟩
  | @given expression value opening closing equals accessors =>
    rw [getLast?_tokensOf_ofAccessors] at hlast
    cases hlast
    refine ⟨_, Element.getLast?_tokensOf_concat [_, _] (List.cons_ne_nil _ _), rfl⟩

/-! ## Properties -/

/-- The children of a property are its modifiers, its type, its name and a body. -/
theorem exists_property_parts {children : List Element}
    (h : (Element.node .propertyDeclaration children).Conforms) :
    ∃ (modifiers : List Element) (type : Element) (name : Token) (body : List Element),
      children = modifiers ++ [type, .token name] ++ body ∧ (∀ e ∈ modifiers, e.kind.isModifier) ∧
      type.kind.isType ∧ name.kind = .identifierToken ∧ IsPropertyBody (body.map Element.kind) := by
  have hfit : ChildrenFit .propertyDeclaration (children.map Element.kind) := h.fit
  obtain ⟨modifierKinds, typeKind, bodyKinds, hmodifiers, htype, hbody, hkinds⟩ := hfit
  obtain ⟨front, body, rfl, hfront, rfl⟩ := List.map_eq_append_iff.mp hkinds
  obtain ⟨modifiers, rest, rfl, rfl, hrest⟩ := List.map_eq_append_iff.mp hfront
  obtain ⟨type, names, rfl, rfl, hnames⟩ := List.map_eq_cons_iff.mp hrest
  obtain ⟨name, rfl, hname⟩ := List.map_eq_singleton_iff.mp hnames
  obtain ⟨token, rfl, -⟩ := (h.child (e := name) (by simp)).eq_token (by rw [hname]; rfl)
  exact ⟨modifiers, type, token, body, rfl, fun e he => hmodifiers _ (List.mem_map_of_mem he),
    htype, hname, hbody⟩

/-- Up to the name of a property there are no accessors, no expression body and no initial value. -/
theorem front_kinds {modifiers : List Element} {type : Element} {name : Token}
    (hmodifiers : ∀ e ∈ modifiers, e.kind.isModifier) (htype : type.kind.isType)
    (hname : name.kind = .identifierToken) :
    ∀ e ∈ modifiers ++ [type, .token name],
      (e.kind ≠ .accessorList ∧ e.kind ≠ .arrowExpressionClause) ∧ e.kind ≠ .equalsValueClause := by
  have hmodifier : ∀ kind : Kind, kind.isModifier →
      (kind ≠ .accessorList ∧ kind ≠ .arrowExpressionClause) ∧ kind ≠ .equalsValueClause := by
    rintro (_ | _) <;> decide
  have htypes : ∀ kind : Kind, kind.isType →
      (kind ≠ .accessorList ∧ kind ≠ .arrowExpressionClause) ∧ kind ≠ .equalsValueClause := by
    rintro (_ | _) <;> decide
  refine List.forall_mem_append.mpr ⟨fun e he => hmodifier _ (hmodifiers e he), ?_⟩
  refine List.forall_mem_cons.mpr ⟨htypes _ htype, ?_⟩
  simp [hname]

namespace BodyStripped

variable {body own : List Element} {list : Element}

theorem exists_ofAccessors (h : BodyStripped body list own) :
    ∃ opening accessors closing, list = .ofAccessors opening accessors closing := by
  cases h <;> exact ⟨_, _, _, rfl⟩

/-- A property has an initial value itself exactly if there is one in its body. -/
theorem mem_kinds_iff (h : BodyStripped body list own) :
    .equalsValueClause ∈ body.map Element.kind ↔ own ≠ [] := by
  cases h with
  | accessors _ hown =>
    rcases hown with rfl | hown
    · simp [Element.ofAccessors]
    · have hne : own ≠ [] := by
        rintro rfl
        cases hown
      simp [hown, hne]
  | arrow hsemicolon => simp [hsemicolon]

end BodyStripped

namespace Node

/-- A property that conforms becomes automatic, with an initial value if there is one to give. -/
theorem exists_automated_of_conforms {n : PlacedNode} (h : n.placed.element.Conforms)
    (hkind : n.kind = .propertyDeclaration) (initializer? : Option Node) :
    ∃ new, n.node.autoProperty? initializer? = some new ∧ n.node.Automated initializer? new := by
  have hnode : (Element.node .propertyDeclaration n.node.children).Conforms := hkind ▸ h
  obtain ⟨modifiers, type, name, body, hchildren, hmodifiers, htype, hname, hbody⟩ :=
    exists_property_parts hnode
  have hfront := front_kinds hmodifiers htype hname
  have hall : ∀ e ∈ n.node.children, e.Conforms := fun e he => hnode.child he
  have hallBody : ∀ e ∈ body, e.Conforms :=
    fun e he => hall e (hchildren ▸ List.mem_append_right _ he)
  obtain ⟨before?, hkept⟩ := stripBodies_append none body fun e he => (hfront e he).1
  obtain ⟨list, own, hbodies, hstripped⟩ := bodyStripped_stripBodies before? hbody hallBody
  have hown : n.node.hasChild .equalsValueClause ↔ own ≠ [] := by
    rw [hasChild_iff hall rfl, hchildren, List.map_append, List.mem_append, hstripped.mem_kinds_iff,
      or_iff_right]
    intro hmem
    obtain ⟨e, he, heq⟩ := List.mem_map.mp hmem
    exact (hfront e he).2 heq
  obtain ⟨final, hauto, hvalued⟩ : ∃ final, n.node.autoProperty? initializer? =
      some { n.node with children := modifiers ++ [type, .token name] ++ final } ∧
        Valued initializer? list own final := by
    rw [autoProperty?, if_pos (hasBody_of_conforms h hkind), hchildren, hkept, hbodies]
    cases initializer? with
    | none => exact ⟨_, rfl, .own (.inl rfl)⟩
    | some expression =>
      by_cases hnone : own = []
      · obtain ⟨opening, accessors, closing, rfl⟩ := hstripped.exists_ofAccessors
        obtain ⟨final, hfinal, hvalued⟩ :=
          valued_withInitializer expression (modifiers ++ [type, .token name]) accessors opening
            closing
        subst hnone
        exact ⟨final, by rw [← hfinal]; exact if_neg (hown.not.mpr (not_not.mpr rfl)), hvalued⟩
      · exact ⟨_, if_pos (hown.mpr hnone), .own (.inr hnone)⟩
  refine ⟨_, hauto, rfl,
    ⟨modifiers, type, name, body, list, own, final, hmodifiers, htype, hname, hstripped, hvalued,
    hchildren, rfl⟩, ?_⟩
  obtain ⟨last, last', hlast, hlast', htrailing⟩ := hstripped.behind hallBody
  obtain ⟨last'', hlast'', htrailing'⟩ := hvalued.behind hlast'
  refine ⟨last, last'', ?_, ?_, htrailing'.trans htrailing⟩
  · rw [tokens, hchildren, Element.tokensOf_append, List.getLast?_append, hlast]
    rfl
  · rw [tokens, Element.tokensOf_append, List.getLast?_append, hlast'']
    rfl

end Node

/-- Every property of a text becomes automatic: its accessors lose their bodies, and it gets the
initial value that is given to it unless it has one. -/
theorem Tree.exists_automated (id : TreeId) (text : String) (initializer? : Option Node) :
    ∀ f ∈ (Tree.ofText id text).nodes, f.node.kind = .propertyDeclaration →
      ∃ new, f.node.node.autoProperty? initializer? = some new ∧
      f.node.node.Automated initializer? new := by
  intro f hf hkind
  exact Node.exists_automated_of_conforms
    (conforms_of_mem (t := .ofText id text) (conforms_parse text) hf) hkind initializer?

/-- One accessor has a block with a comment in front of it and one an arrow, and a value moves
in. -/
theorem Tree.exists_automated_use :
    let one : Node := ⟨.literalExpression, [.token ⟨.numericLiteralToken, "1", [.space], [.space]⟩]⟩
    ∃ f ∈ (Tree.ofText ⟨7⟩
        "class C { int x; int X { get /* x */ { return x; } private set => x = value; } }").nodes,
      f.node.kind = .propertyDeclaration ∧ ∃ new, f.node.node.autoProperty? (some one) = some new ∧
        new.text = "int X { get; /* x */ private set; } = 1; " ∧
        f.node.node.Automated (some one) new := by
  intro one
  have hany :
      (Tree.ofText ⟨7⟩
        "class C { int x; int X { get /* x */ { return x; } private set => x = value; } }"
      ).nodes.any fun f =>
        f.node.kind == .propertyDeclaration &&
          (f.node.node.autoProperty? (some one)).any
            (·.text == "int X { get; /* x */ private set; } = 1; ") := by
    decide +kernel
  obtain ⟨f, hf, hkinds⟩ := List.any_eq_true.mp hany
  obtain ⟨hkind, htext⟩ := Bool.and_eq_true_iff.mp hkinds
  obtain ⟨new, hnew, hautomated⟩ :=
    Tree.exists_automated ⟨7⟩ _ (some one) f hf (beq_iff_eq.mp hkind)
  rw [hnew] at htext
  exact ⟨f, hf, beq_iff_eq.mp hkind, new, hnew, beq_iff_eq.mp htext, hautomated⟩

end AutoProperty
