import AutoProperty.Proofs.Syntax.Grammar

/-! # What productions make

Every production makes elements that conform, and that spell the tokens taken for them.
-/

namespace AutoProperty

theorem Row.cons {P : Kind → Prop} {used more : List Lexeme} {e : Element} {es : List Element}
    (h : Makes P used e) (h' : Row more es) : Row (used ++ more) (e :: es) :=
  h.2.append h'

theorem Kind.isType_of_isName {kind : Kind} (h : kind.isName) : kind.isType := by
  revert h
  cases kind <;> decide

namespace Production

variable {α β : Type}

/-- A token that was taken makes an element of a kind asked for. -/
theorem TakenAs.makes {P : Kind → Prop} {used : List Lexeme} {e : Element}
    (h : TakenAs P used (some e)) : Makes (fun kind => P kind ∧ kind.isToken) used e := by
  obtain ⟨l, kind, rfl, rfl, hp, hkind, htoken⟩ := h
  have htoken' : kind.isToken := by
    obtain rfl | ⟨_, rfl | rfl | rfl | rfl⟩ := hkind
    · exact htoken
    all_goals rfl
  exact ⟨⟨hp, htoken'⟩, .taken htoken' hkind⟩

/-- Goes on behind a step that may take a token. -/
theorem Reads.taking {P : Kind → Prop} {B : List Lexeme → β → Prop}
    {p : Production (Option Element)} {f : Option Element → Production β}
    (hp : Reads (TakenAs P) p)
    (hsome : ∀ used e, Makes P used e → Reads (fun more b => B (used ++ more) b) (f (some e)))
    (hnone : Reads B (f none)) : Reads B (p >>= f) :=
  hp.bind fun used taken? h => by
    cases taken? with
    | none =>
      cases h
      exact hnone
    | some e => exact hsome used e (h.makes.imp And.left)

theorem reads_expect {kind : Kind} (h : kind.canBeMissing) :
    Reads (Makes (· = kind)) (expect kind) :=
  (reads_take? kind).taking
    (fun used e he => .pure (by simpa using he))
    (.then_of_nil (.complainFound _) fun _ => .pure ⟨rfl, .missing h⟩)

/-- Skipped tokens make one node, or none if there is nothing to skip. -/
theorem reads_skip (complaint : Kind → Complaint) :
    Reads (MakesAll fun kinds => ∀ k ∈ kinds, k = .skippedTokens) (skip complaint) := by
  refine .then_of_nil (.complainFound _) fun _ => (reads_takeIf? _).bind fun used taken? h => ?_
  cases taken? with
  | none =>
    cases h
    exact .pure (.nil (by simp))
  | some e =>
    have he := h.makes
    refine .pure ⟨by simp, ?_⟩
    rw [List.append_nil]
    exact he.2.node rfl (by simpa [ChildrenFit] using he.1.2)

theorem Reads.progress {A : List Lexeme → α → Prop} {p : Production α} (hp : Reads A p) :
    Reads (fun used r => A used r.1) (progress p) :=
  hp

/-- Items in a row, each of kinds as `P` says. -/
theorem reads_itemsBefore {P : Kind → Prop} (stop : Kind → Bool) {item : Production (List Element)}
    (hitem : Reads (MakesAll fun kinds => ∀ k ∈ kinds, P k) item) :
    Reads (MakesAll fun kinds => ∀ k ∈ kinds, P k) (itemsBefore stop item) := by
  have hnone : MakesAll (fun kinds => ∀ k ∈ kinds, P k) [] [] := .nil (by simp)
  refine Reads.iterate (fun used items hitems ahead htokens => ?_) hnone
  split
  next => exact ⟨[], rfl, rfl⟩
  next =>
    obtain ⟨more, hmore, hnext⟩ := hitem ahead htokens
    refine ⟨more, hmore, ?_, hitems.2.append hnext.2⟩
    rw [List.map_append]
    exact List.forall_mem_append.mpr ⟨hitems.1, hnext.1⟩

/-- Items are read with single commas between them. -/
theorem reads_separated {kind : Kind} {item : Production Element}
    (hitem : Reads (Makes (· = kind)) item) :
    Reads (MakesAll (Separated kind)) (separated item) := by
  refine hitem.bind fun used first hfirst => ?_
  refine Reads.iterate (A := MakesAll (Separated kind)) (fun used items hitems => ?_)
    ⟨by simpa [hfirst.1] using Separated.one, hfirst.2⟩
  refine (reads_take? _).taking (fun more comma hcomma => ?_) (.pure rfl)
  refine hitem.bind fun last e he => .pure ?_
  refine ⟨?_, hitems.2.append (.cons hcomma (.cons he .nil))⟩
  simpa [hcomma.1, he.1] using hitems.1.snoc

/-! ## Names and types -/

theorem reads_simpleName : Reads (Makes (· = .identifierName)) simpleName :=
  (reads_expect rfl).bind fun _ _ h => .pure <|
    (Row.cons h .nil).makes rfl (by simp [ChildrenFit, h.1]) rfl

/-- A further part makes a qualified name of a name. -/
theorem reads_nameSuffix {used : List Lexeme} {qualifier : Element}
    (h : Makes (·.isName) used qualifier) :
    Reads (Continues (Makes (·.isName)) used) (nameSuffix qualifier) := by
  refine .then_of_nil .look fun ahead => ?_
  split
  next => exact .pure rfl
  next =>
    refine (reads_take? _).taking (fun _ dot hdot => ?_) (.pure rfl)
    refine (reads_simpleName).bind fun _ last hlast => .pure (.of ?_)
    exact (Row.cons h (.cons hdot (.cons hlast .nil))).makes rfl
      ⟨_, h.1, by simp [hdot.1, hlast.1]⟩ rfl

theorem reads_name : Reads (Makes (·.isName)) name :=
  (reads_simpleName).bind fun _ _ h =>
    Reads.iterate (fun _ _ => reads_nameSuffix) (h.imp fun hk => by rw [hk]; rfl)

/-- A further part makes another type of a type. -/
theorem reads_typeSuffix {used : List Lexeme} {inner : Element}
    (h : Makes (·.isType) used inner) :
    Reads (Continues (Makes (·.isType)) used) (typeSuffix inner) := by
  refine (reads_take? _).taking (fun _ question hquestion => .pure (.of ?_)) ?_
  · exact (Row.cons h (.cons hquestion .nil)).makes rfl ⟨_, h.1, by simp [hquestion.1]⟩ rfl
  refine .then_of_nil .look fun ahead => ?_
  split
  next => exact .pure rfl
  next =>
    refine (reads_take? _).taking (fun _ opening hopening => ?_) (.pure rfl)
    refine (reads_expect rfl).bind fun _ closing hclosing => .pure (.of ?_)
    exact (Row.cons h (.cons hopening (.cons hclosing .nil))).makes rfl
      ⟨_, h.1, by simp [hopening.1, hclosing.1]⟩ rfl

/-- A type is read for any tokens ahead. -/
theorem reads_type : Reads (Makes (·.isType)) type := by
  have hsuffixes : ∀ used base, Makes (·.isType) used base →
      Reads (fun more e => Makes (·.isType) (used ++ more) e) (iterate typeSuffix base) :=
    fun _ _ => Reads.iterate fun _ _ => reads_typeSuffix
  refine (reads_takeIf? _).taking (fun used keyword hkeyword => ?_) ?_
  · refine hsuffixes used _ ?_
    exact hkeyword.2.makes rfl ⟨_, hkeyword.1, rfl⟩ rfl
  · exact (reads_name.imp fun _ _ he => he.imp Kind.isType_of_isName).bind hsuffixes

/-! ## Expressions -/

theorem reads_missingExpression : Reads (Makes (·.isExpression)) missingExpression :=
  .then_of_nil (.complain _) fun _ => .pure <| (Row.missing rfl).makes rfl rfl rfl

theorem reads_tooDeep : Reads (Makes (·.isExpression)) tooDeep :=
  .then_of_nil (.complain _) fun _ => reads_missingExpression

section Expressions

variable {expression : Production Element} (hexpression : Reads (Makes (·.isExpression)) expression)
include hexpression

/-- Arguments are read for any tokens ahead, with single commas between them. -/
theorem reads_argumentList : Reads (Makes (· = .argumentList)) (argumentList expression) := by
  refine (reads_expect rfl).bind fun used opening hopening => .then_of_nil .lookKind fun kind => ?_
  extract_lets jp
  have hjp : ∀ more arguments, MakesAll (Listed .argument) more arguments →
      Reads (fun last e => Makes (· = .argumentList) (used ++ (more ++ last)) e)
        (jp arguments) := by
    intro more arguments harguments
    refine (reads_expect rfl).bind fun last closing hclosing => .pure ?_
    exact (Row.cons hopening (harguments.2.append (.cons hclosing .nil))).makes rfl
      ⟨_, harguments.1, by simp [hopening.1, hclosing.1]⟩ rfl
  split
  next => exact hjp [] [] (.nil (.inl rfl))
  next =>
    refine (reads_separated (hexpression.bind fun _ e he => .pure ?_)).bind fun more arguments h =>
      hjp more arguments ⟨.inr h.1, h.2⟩
    exact (Row.cons he .nil).makes rfl ⟨_, he.1, rfl⟩ rfl

/-- The creation of an object is read for any tokens ahead. -/
theorem reads_objectCreation {used : List Lexeme} {new : Element}
    (hnew : Makes (· = .newKeyword) used new) :
    Reads (fun more e => Makes (·.isExpression) (used ++ more) e)
      (objectCreation expression new) := by
  refine .then_of_nil .lookKind fun kind => ?_
  extract_lets jp
  have hjp : ∀ more types, MakesAll (fun kinds => kinds = [] ∨ ∃ t : Kind, t.isType ∧ kinds = [t])
      more types →
      Reads (fun last e => Makes (·.isExpression) (used ++ (more ++ last)) e) (jp types) := by
    intro more types htypes
    refine .then_of_nil .lookKind fun kind => ?_
    extract_lets jp
    have hjp : ∀ last arguments, MakesAll (fun kinds => kinds = [] ∨ kinds = [.argumentList])
        last arguments →
        Reads (fun end' e => Makes (·.isExpression) (used ++ (more ++ (last ++ end'))) e)
          (jp arguments) := by
      intro last arguments harguments
      refine .pure ?_
      rw [List.append_nil]
      exact (Row.cons hnew (htypes.2.append harguments.2)).makes rfl
        ⟨_, _, htypes.1, harguments.1, by simp [hnew.1]⟩ rfl
    split
    next =>
      exact (reads_argumentList hexpression).bind fun last list hlist =>
        hjp last [list] ⟨.inr (by simp [hlist.1]), hlist.2⟩
    next => exact .then_of_nil (.complain _) fun _ => hjp [] [] (.nil (.inl rfl))
  split
  next => exact (reads_type).bind fun more t ht => hjp more [t] ⟨.inr ⟨_, ht.1, rfl⟩, ht.2⟩
  next => exact .then_of_nil (.complain _) fun _ => hjp [] [] (.nil (.inl rfl))

/-- What `P` says of an element, if there is one; if not, nothing was taken. -/
def MakesOptional (P : Kind → Prop) (used : List Lexeme) : Option Element → Prop
  | some e => Makes P used e
  | none => used = []

omit hexpression in
theorem MakesOptional.of {P : Kind → Prop} {used : List Lexeme} {e : Element} (h : Makes P used e) :
    MakesOptional P used (some e) :=
  h

omit hexpression in
/-- A single token that is an expression of its own. -/
theorem fit_singleToken {kind wanted : Kind} (h : singleTokenExpression? kind = some wanted) :
    wanted.isExpression ∧ wanted.isNode ∧ ChildrenFit wanted [kind] := by
  unfold singleTokenExpression? at h
  split at h
  next hkind =>
    cases h
    exact ⟨rfl, rfl, by simpa [ChildrenFit] using hkind⟩
  split at h
  next hkind =>
    cases h
    exact ⟨rfl, rfl, kind, hkind, rfl⟩
  split at h
  next hkind =>
    cases h
    exact ⟨rfl, rfl, by simpa [ChildrenFit] using hkind⟩
  split at h
  next hkind =>
    cases h
    exact ⟨rfl, rfl, kind, hkind, rfl⟩
  next => exact absurd h (by simp)

/-- An operand is an expression, if one is ahead. -/
theorem reads_primary? : Reads (MakesOptional (·.isExpression)) (primary? expression) := by
  refine .lookKind_bind fun ahead => ?_
  split
  next wanted hsingle =>
    intro htokens
    cases ahead with
    | nil => exact absurd hsingle nofun
    | cons l rest =>
      obtain ⟨hexpr, hnode, hfit⟩ := fit_singleToken hsingle
      exact ⟨[l], rfl, hexpr, (Row.taken (htokens l List.mem_cons_self) (.inl rfl)).node hnode hfit⟩
  next =>
    refine Reads.taking (reads_take? _) (fun used new hnew => ?_) ?_ ahead
    · exact (reads_objectCreation hexpression hnew).bind fun more e he =>
        .pure (by simpa [MakesOptional] using he)
    refine (reads_take? _).taking (fun used opening hopening => ?_) (.pure rfl)
    refine hexpression.bind fun more inner hinner => ?_
    refine (reads_expect rfl).bind fun last closing hclosing => .pure (.of ?_)
    exact (Row.cons hopening (.cons hinner (.cons hclosing .nil))).makes rfl
      ⟨_, hinner.1, by simp [hopening.1, hclosing.1]⟩ rfl

/-- What follows an operand makes another expression of it. -/
theorem reads_postfixPart {used : List Lexeme} {inner : Element}
    (h : Makes (·.isExpression) used inner) :
    Reads (Continues (Makes (·.isExpression)) used) (postfixPart expression inner) := by
  refine (reads_take? _).taking (fun more dot hdot => ?_) ?_
  · refine (reads_simpleName).bind fun last name hname => .pure (.of ?_)
    exact (Row.cons h (.cons hdot (.cons hname .nil))).makes rfl
      ⟨_, h.1, by simp [hdot.1, hname.1]⟩ rfl
  refine .then_of_nil .lookKind fun kind => ?_
  split
  next =>
    refine (reads_argumentList hexpression).bind fun more arguments harguments => .pure (.of ?_)
    exact (Row.cons h (.cons harguments .nil)).makes rfl ⟨_, h.1, by simp [harguments.1]⟩ rfl
  next =>
    refine (reads_takeIf? _).taking (fun more step hstep => .pure (.of ?_)) (.pure rfl)
    exact (Row.cons h (.cons hstep .nil)).makes rfl ⟨_, _, h.1, hstep.1, rfl⟩ rfl

theorem reads_operand : Reads (Makes (·.isExpression)) (operand expression) := by
  refine (reads_primary? hexpression).bind fun used inner? h => ?_
  cases inner? with
  | none =>
    cases h
    exact reads_missingExpression
  | some inner => exact Reads.iterate (fun _ _ => reads_postfixPart hexpression) h

/-- Each level of operators makes expressions of expressions. -/
theorem reads_binary {levels : List (List Kind)}
    (hlevels : ∀ operators ∈ levels, operators ∈ binaryLevels) :
    Reads (Makes (·.isExpression)) (binary expression levels) := by
  induction levels with
  | nil => exact hexpression
  | cons operators stronger ih =>
    have ih := ih fun operators h => hlevels operators (List.mem_cons_of_mem _ h)
    refine ih.bind fun used first hfirst => Reads.iterate (fun used left hleft => ?_) hfirst
    refine (reads_takeIf? _).taking (fun more operator hoperator => ?_) (.pure rfl)
    refine ih.bind fun last right hright => .pure (.of ?_)
    have hoperator' : operator.kind ∈ binaryLevels.flatten :=
      List.mem_flatten.mpr ⟨operators, hlevels _ List.mem_cons_self, by simpa using hoperator.1⟩
    exact (Row.cons hleft (.cons hoperator (.cons hright .nil))).makes rfl
      ⟨_, _, _, hleft.1, hoperator', hright.1, rfl⟩ rfl

theorem reads_assignment {right : Production Element}
    (hright : Reads (Makes (·.isExpression)) right) :
    Reads (Makes (·.isExpression)) (assignment expression right) := by
  refine (reads_binary hexpression fun _ h => h).bind fun used left hleft => ?_
  refine (reads_takeIf? _).taking (fun more operator hoperator => ?_) (.pure (by simpa using hleft))
  refine hright.bind fun last value hvalue => .pure ?_
  exact (Row.cons hleft (.cons hoperator (.cons hvalue .nil))).makes rfl
    ⟨_, _, _, hleft.1, hoperator.1, hvalue.1, rfl⟩ rfl

theorem reads_prefixUnary : Reads (Makes (·.isExpression)) (prefixUnary expression) := by
  refine (reads_takeIf? _).taking (fun used operator hoperator => ?_) hexpression
  refine hexpression.bind fun more inner hinner => .pure ?_
  exact (Row.cons hoperator (.cons hinner .nil)).makes rfl ⟨_, _, hoperator.1, hinner.1, rfl⟩ rfl

theorem reads_unaryOr {prefixed : Production Element}
    (hprefixed : Reads (Makes (·.isExpression)) prefixed) :
    Reads (Makes (·.isExpression)) (unaryOr prefixed expression) := by
  refine .then_of_nil .lookKind fun kind => ?_
  split
  next => exact hprefixed
  next => exact reads_operand hexpression

end Expressions

theorem reads_expression_unary (budget : Nat) :
    Reads (Makes (·.isExpression)) (expression budget) ∧
      Reads (Makes (·.isExpression)) (unary budget) := by
  induction budget with
  | zero => exact ⟨reads_tooDeep, reads_unaryOr reads_tooDeep reads_tooDeep⟩
  | succ budget ih =>
    have hexpression := reads_assignment ih.2 ih.1
    exact ⟨hexpression, reads_unaryOr hexpression (reads_prefixUnary ih.2)⟩

theorem reads_expression (budget : Nat) : Reads (Makes (·.isExpression)) (expression budget) :=
  (reads_expression_unary budget).1

end Production

end AutoProperty
