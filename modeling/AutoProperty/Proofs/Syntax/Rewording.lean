import AutoProperty.Proofs.Syntax.MemberShapes
import AutoProperty.Proofs.Syntax.TextBlind

/-! # Members under a change of tokens

Two things in the grammar of members depend on the text of an identifier: `partial` in front of a
type, and the words of accessors. A change is settled in a tree if it leaves these words alone, and
also those that would be read as such words if only they had their text: tokens that were set aside,
and a bare name that stands for the type of a field.
-/

namespace AutoProperty

/-- The change leaves alone all tokens of the element whose text the grammar looks at. -/
inductive Element.Settled (f : Token → Token) : Element → Prop where
  | token {t : Token} : (t.kind ≠ .identifierToken → (f t).text = t.text) → Settled f (.token t)
  | node {kind : Kind} {children : List Element} :
      (kind = .skippedTokens → ∀ t, .token t ∈ children → (f t).text = t.text) →
      (kind = .variableDeclaration → ∀ t rest,
        children = .node .identifierName [.token t] :: rest → (f t).text = t.text) →
      (∀ e ∈ children, Settled f e) → Settled f (.node kind children)

abbrev AllSettled (f : Token → Token) (es : List Element) : Prop :=
  ∀ e ∈ es, e.Settled f

namespace Element.Settled

variable {f : Token → Token}

theorem child {kind : Kind} {children : List Element} (h : (Element.node kind children).Settled f) :
    AllSettled f children := by
  cases h with
  | node _ _ hchildren => exact hchildren

theorem text_eq {t : Token} (h : (Element.token t).Settled f) (hkind : t.kind ≠ .identifierToken) :
    (f t).text = t.text := by
  cases h with
  | token ht => exact ht hkind

end Element.Settled

namespace Production

variable {α β : Type} {f : Token → Token}

/-- As `Commutes`, where `Q` holds of what is made. -/
def CommutesIf (f : Token → Token) (Q : α → Prop) (m : α → α) (p p' : Production α) : Prop :=
  ∀ ahead ahead', Follows f ahead ahead' → Q (p ahead).value →
    (p' ahead').value = m (p ahead).value ∧ Follows f (p ahead).rest (p' ahead').rest ∧
      (p' ahead').problems.map Problem.complaint = (p ahead).problems.map Problem.complaint

theorem Commutes.commutesIf {m : α → α} {p p' : Production α} (h : Commutes f m p p')
    (Q : α → Prop) : CommutesIf f Q m p p' :=
  fun ahead ahead' hahead _ => h ahead ahead' hahead

namespace CommutesIf

/-- What holds of the outcome of both steps must imply what is asked of the first. -/
theorem bind {Q : α → Prop} {R : β → Prop} {m : α → α} {n : β → β} {p p' : Production α}
    {k k' : α → Production β} (hp : CommutesIf f Q m p p')
    (hq : ∀ a ahead, R (k a ahead).value → Q a)
    (hk : ∀ a, Q a → CommutesIf f R n (k a) (k' (m a))) :
    CommutesIf f R n (p >>= k) (p' >>= k') := by
  intro ahead ahead' hahead hr
  have hqa := hq _ _ hr
  obtain ⟨hvalue, hrest, hproblems⟩ := hp ahead ahead' hahead hqa
  obtain ⟨hvalue', hrest', hproblems'⟩ := hk (p ahead).value hqa _ _ hrest hr
  rw [← hvalue] at hvalue' hrest' hproblems'
  refine ⟨hvalue', hrest', ?_⟩
  show List.map _ (_ ++ _) = List.map _ (_ ++ _)
  rw [List.map_append, List.map_append, hproblems, hproblems']

/-- Goes on behind a step that always commutes. -/
theorem after {R : β → Prop} {m : α → α} {n : β → β} {p p' : Production α}
    {k k' : α → Production β} (hp : Commutes f m p p')
    (hk : ∀ a, CommutesIf f R n (k a) (k' (m a))) : CommutesIf f R n (p >>= k) (p' >>= k') :=
  bind (hp.commutesIf fun _ => True) (fun _ _ _ => trivial) fun a _ => hk a

/-- Goes on behind a step that may take a token. -/
theorem afterTaking {R : β → Prop} {n : β → β} {p p' : Production (Option Element)}
    {k k' : Option Element → Production β}
    (hp : Commutes f (Option.map (Element.map f)) p p')
    (hsome : ∀ e, CommutesIf f R n (k (some e)) (k' (some (e.map f))))
    (hnone : CommutesIf f R n (k none) (k' none)) : CommutesIf f R n (p >>= k) (p' >>= k') :=
  after hp fun taken? => by
    cases taken? with
    | none => exact hnone
    | some e => exact hsome e

/-- Goes on with what is ahead. -/
theorem look_bind {R : β → Prop} {n : β → β} {k k' : List Lexeme → Production β}
    (hk : ∀ ahead ahead', Follows f ahead ahead' → CommutesIf f R n (k ahead) (k' ahead')) :
    CommutesIf f R n (look >>= k) (look >>= k') :=
  fun ahead ahead' hahead => hk ahead ahead' hahead ahead ahead' hahead

theorem ite {R : α → Prop} {m : α → α} {c c' : Bool} {p p' q q' : Production α} (hc : c' = c)
    (hp : c → CommutesIf f R m p p') (hq : ¬c → CommutesIf f R m q q') :
    CommutesIf f R m (if c then p else q) (if c' then p' else q') := by
  subst hc
  split
  next h => exact hp h
  next h => exact hq h

end CommutesIf

/-- Items are only added. -/
theorem iterate_itemStep_value (stop : Kind → Bool) (item : Production (List Element))
    (items : List Element) (ahead : List Lexeme) :
    ∃ more, (iterate (itemStep stop item) items ahead).value = items ++ more := by
  induction hn : ahead.length using Nat.strongRecOn generalizing ahead items with
  | ind n ih =>
    cases hstop : ahead.isEmpty || stop (kindAt 0 ahead) with
    | true =>
      rw [iterate_itemStep_of_stop hstop]
      exact ⟨[], (List.append_nil _).symm⟩
    | false =>
      rw [iterate_itemStep_of_go hstop]
      split
      next hlt =>
        obtain ⟨more, hmore⟩ := ih _ (hn ▸ hlt) (items ++ (item ahead).value) _ rfl
        exact ⟨(item ahead).value ++ more, by rw [← List.append_assoc]; exact hmore⟩
      next => exact ⟨(item ahead).value, rfl⟩

/-- The items of a step are among those that are read in the end. -/
theorem mem_iterate_itemStep {stop : Kind → Bool} {item : Production (List Element)}
    {ahead : List Lexeme} (h : (ahead.isEmpty || stop (kindAt 0 ahead)) = false)
    (items : List Element) {e : Element} (he : e ∈ (item ahead).value) :
    e ∈ (iterate (itemStep stop item) items ahead).value := by
  rw [iterate_itemStep_of_go h]
  split
  next =>
    obtain ⟨more, hmore⟩ := iterate_itemStep_value stop item (items ++ (item ahead).value)
      (item ahead).rest
    show e ∈ (iterate (itemStep stop item) _ _).value
    rw [hmore]
    simp [he]
  next => exact List.mem_append_right _ he

/-- Items commute if each does where it is read. -/
theorem commutesIf_itemsBefore (hf : KeepsKinds f) (stop : Kind → Bool)
    {item item' : Production (List Element)}
    (hitem : ∀ ahead ahead' items, Follows f ahead ahead' →
      (ahead.isEmpty || stop (kindAt 0 ahead)) = false →
      AllSettled f (iterate (itemStep stop item) items ahead).value →
      (item' ahead').value = Element.mapAll f (item ahead).value ∧
        Follows f (item ahead).rest (item' ahead').rest ∧
        (item' ahead').problems.map Problem.complaint =
          (item ahead).problems.map Problem.complaint) :
    CommutesIf f (AllSettled f) (Element.mapAll f) (itemsBefore stop item)
      (itemsBefore stop item') := by
  rw [itemsBefore_eq, itemsBefore_eq]
  suffices h : ∀ items, CommutesIf f (AllSettled f) (Element.mapAll f)
      (iterate (itemStep stop item) items)
      (iterate (itemStep stop item') (Element.mapAll f items)) from
    h []
  intro items ahead
  induction hn : ahead.length using Nat.strongRecOn generalizing ahead items with
  | ind n ih =>
    intro ahead' hahead hsettled
    have hstop' : (ahead'.isEmpty || stop (kindAt 0 ahead')) =
        (ahead.isEmpty || stop (kindAt 0 ahead)) := by
      rw [hahead.isEmpty_eq, hahead.kindAt_eq hf]
    cases hstop : ahead.isEmpty || stop (kindAt 0 ahead) with
    | true =>
      rw [iterate_itemStep_of_stop hstop, iterate_itemStep_of_stop (hstop'.trans hstop)]
      exact ⟨rfl, hahead, rfl⟩
    | false =>
      obtain ⟨hvalue, hrest, hproblems⟩ := hitem ahead ahead' items hahead hstop hsettled
      rw [iterate_itemStep_of_go hstop] at hsettled ⊢
      rw [iterate_itemStep_of_go (hstop'.trans hstop), hrest.length_eq, hahead.length_eq]
      split
      next hlt =>
        rw [if_pos hlt] at hsettled
        obtain ⟨hvalue', hrest', hproblems'⟩ := ih _ (hn ▸ hlt) _ _ rfl _ hrest hsettled
        rw [Element.mapAll_append, ← hvalue] at hvalue' hrest' hproblems'
        refine ⟨hvalue', hrest', ?_⟩
        rw [List.map_append, List.map_append, hproblems, hproblems']
      next => exact ⟨by rw [Element.mapAll_append, hvalue], hrest, hproblems⟩

theorem CommutesIf.itemsBefore (hf : KeepsKinds f) (stop : Kind → Bool)
    {item item' : Production (List Element)}
    (hitem : CommutesIf f (AllSettled f) (Element.mapAll f) item item') :
    CommutesIf f (AllSettled f) (Element.mapAll f) (itemsBefore stop item)
      (itemsBefore stop item') :=
  commutesIf_itemsBefore hf stop fun ahead ahead' items hahead hgo hsettled =>
    hitem ahead ahead' hahead fun e he => hsettled e (mem_iterate_itemStep hgo items he)

section Members

variable (hf : KeepsKinds f)
include hf

/-! ## Accessors -/

theorem commutes_takeAll {choose : List Lexeme → Option Kind}
    (hchoose : ∀ ahead ahead', Follows f ahead ahead' → choose ahead' = choose ahead) :
    Commutes f (Element.mapAll f) (takeAll choose) (takeAll choose) := by
  refine .iterate (m := Element.mapAll f) (fun taken => ?_) []
  refine (Commutes.takeAs? hf hchoose).bind fun taken? => .pure ?_
  cases taken? <;> simp

theorem commutes_memberExpression : Commutes f (Element.map f) memberExpression memberExpression :=
  commutes_expression hf nestingLimit

theorem commutes_arrowBody? :
    Commutes f (Option.map (Element.mapAll f)) arrowBody? arrowBody? :=
  (Commutes.take? hf _).taking (fun arrow => (commutes_memberExpression hf).bind fun value =>
    (Commutes.expect hf _).bind fun semicolon => .pure (by simp)) (.pure rfl)

/-- The body of a member depends on the kinds of its tokens only. -/
theorem commutes_body : Commutes f (Element.mapAll f) body body := by
  refine (commutes_arrowBody? hf).bind fun parts? => ?_
  cases parts? with
  | some parts => exact .pure rfl
  | none =>
    refine (Commutes.lookKind hf).bind fun kind => .ite rfl (fun _ => ?_) fun _ => ?_
    · exact (commutes_block hf (commutes_statement hf nestingLimit)).bind fun b => .pure (by simp)
    · exact (Commutes.expect hf _).bind fun s => .pure (by simp)

/-- Behind the words that limit the use of an accessor, the same tokens are ahead. -/
theorem follows_dropWhile_accessibility {ahead ahead' : List Lexeme}
    (hahead : Follows f ahead ahead') :
    Follows f (ahead.dropWhile (·.kind.isAccessibility))
      (ahead'.dropWhile (·.kind.isAccessibility)) := by
  induction hahead with
  | nil => exact .nil
  | cons hl hrest ih =>
    rw [List.dropWhile_cons, List.dropWhile_cons, kind_eq_of_token_eq hf hl]
    split
    next => exact ih
    next => exact .cons hl hrest

end Members

/-- The word of an accessor is a child of it, as its keyword. -/
theorem accessor_value {ahead rest : List Lexeme} {word : Lexeme} {kind keyword : Kind}
    (h : accessorAhead? ahead = some (kind, keyword))
    (hword : ahead.dropWhile (·.kind.isAccessibility) = word :: rest) :
    ∃ modifiers body, (accessor ahead).value =
      [.node kind (modifiers ++ [.token { word.token with kind := keyword }] ++ body)] := by
  have hrest : (takeAll accessibilityKind? ahead).rest = word :: rest :=
    (takeAll_accessibility_rest ahead).trans hword
  have htake : takeAs? (fun _ => some keyword) (word :: rest) =
      ⟨some (.token { word.token with kind := keyword }), rest, []⟩ := rfl
  refine ⟨(takeAll accessibilityKind? ahead).value, (body rest).value, ?_⟩
  show (accessorFound (accessorAhead? ahead) ahead).value = _
  rw [h]
  simp only [accessorFound, Bind.bind, Pure.pure, hrest, htake, Option.toList_some]

/-- A word that starts no accessor is set aside in the end. -/
theorem mem_accessors_of_none {ahead rest : List Lexeme} {word : Lexeme}
    (h : accessorAhead? ahead = none)
    (hword : ahead.dropWhile (·.kind.isAccessibility) = word :: rest)
    (hkind : word.kind = .identifierToken) (items : List Element) :
    .node .skippedTokens [.token word.token] ∈
      (iterate (itemStep (· == .closeBraceToken) accessor) items ahead).value := by
  induction ahead generalizing items with
  | nil => exact absurd hword nofun
  | cons l ls ih =>
    have hskip : accessor (l :: ls) = skip .expectedAccessor (l :: ls) := by
      show accessorFound (accessorAhead? (l :: ls)) (l :: ls) = _
      rw [h]
      rfl
    have hrest : (accessor (l :: ls)).rest = ls := by
      rw [hskip]
      rfl
    cases haccess : l.kind.isAccessibility with
    | true =>
      have hdrop : (l :: ls).dropWhile (·.kind.isAccessibility) = ls.dropWhile
          (·.kind.isAccessibility) := by
        simp [haccess]
      have hgo : ((l :: ls).isEmpty || kindAt 0 (l :: ls) == .closeBraceToken) = false := by
        have : l.kind ≠ .closeBraceToken :=
          fun hclose => by simp [hclose, Kind.isAccessibility] at haccess
        simpa [kindAt] using this
      rw [iterate_itemStep_of_go hgo, hrest, if_pos (by simp)]
      refine ih ?_ (hdrop ▸ hword) _
      rwa [accessorAhead?, hdrop, ← accessorAhead?] at h
    | false =>
      have hl : l = word := by
        simpa [haccess] using congrArg List.head? hword
      subst hl
      refine mem_iterate_itemStep (by simp [kindAt, hkind]) items ?_
      rw [hskip]
      exact List.mem_singleton.mpr rfl

section Members

variable (hf : KeepsKinds f)
include hf

/-- Where the change is settled in the accessors that are read, the same accessor is ahead. -/
theorem accessorAhead?_eq {ahead ahead' : List Lexeme} {items : List Element}
    (hahead : Follows f ahead ahead')
    (hgo : (ahead.isEmpty || kindAt 0 ahead == .closeBraceToken) = false)
    (hsettled : AllSettled f
      (iterate (itemStep (· == .closeBraceToken) accessor) items ahead).value) :
    accessorAhead? ahead' = accessorAhead? ahead := by
  have hdrop := follows_dropWhile_accessibility hf hahead
  cases hword : ahead.dropWhile (·.kind.isAccessibility) with
  | nil =>
    rw [hword] at hdrop
    cases hword' : ahead'.dropWhile (·.kind.isAccessibility) with
    | nil => rw [accessorAhead?, accessorAhead?, hword, hword']
    | cons => rw [hword'] at hdrop; cases hdrop
  | cons word rest =>
    rw [hword] at hdrop
    cases hword' : ahead'.dropWhile (·.kind.isAccessibility) with
    | nil => rw [hword'] at hdrop; cases hdrop
    | cons word' rest' =>
      rw [hword'] at hdrop
      obtain _ | ⟨htoken, _⟩ := hdrop
      by_cases hkind : word.kind = .identifierToken
      · have htext : (f word.token).text = word.token.text := by
          cases hsome : accessorAhead? ahead with
          | none =>
            have hmem := hsettled _ (mem_accessors_of_none hsome hword hkind items)
            cases hmem with
            | node hskipped _ _ => exact hskipped rfl _ List.mem_cons_self
          | some pair =>
            obtain ⟨kind, keyword⟩ := pair
            obtain ⟨modifiers, parts, hvalue⟩ := accessor_value hsome hword
            have hmem : _ ∈ (accessor ahead).value := hvalue ▸ List.mem_cons_self
            have hnode := hsettled _ (mem_iterate_itemStep hgo items hmem)
            have hchild := hnode.child (.token { word.token with kind := keyword }) (by simp)
            have hne : keyword ≠ .identifierToken := by
              obtain ⟨_, _, hcontextual, _⟩ := accessorAhead?_some hsome
              rcases hcontextual with rfl | rfl | rfl | rfl <;> exact nofun
            have := hchild.text_eq hne
            rwa [hf.retag] at this
        rw [accessorAhead?, accessorAhead?, hword, hword']
        dsimp only
        rw [kind_eq_of_token_eq hf htoken, Lexeme.text, htoken, htext]
        rfl
      · rw [accessorAhead?, accessorAhead?, hword, hword']
        dsimp only
        rw [kind_eq_of_token_eq hf htoken]
        simp [hkind]

/-- An accessor that was found is read alike. -/
theorem commutes_accessorFound (found? : Option (Kind × Kind)) :
    Commutes f (Element.mapAll f) (accessorFound found?) (accessorFound found?) := by
  cases found? with
  | none => exact .skip hf _
  | some found =>
    refine (commutes_takeAll hf fun ahead ahead' hahead => ?_).bind fun modifiers => ?_
    · rw [accessibilityKind?, accessibilityKind?, hahead.kindAt_eq hf]
    refine (Commutes.takeAs? hf fun _ _ _ => rfl).bind fun keyword? => ?_
    refine (commutes_body hf).bind fun parts => .pure ?_
    cases keyword? <;> simp

/-- Accessors are read alike if the words that name them keep their texts. -/
theorem commutesIf_accessorList :
    CommutesIf f (Element.Settled f) (Element.map f) accessorList accessorList := by
  refine .after (.expect hf _) fun opening => ?_
  refine .bind (commutesIf_itemsBefore hf _ ?_) (fun accessors ahead h => ?_) fun accessors _ => ?_
  · intro ahead ahead' items hahead hgo hsettled
    have hfound := commutes_accessorFound hf (accessorAhead? ahead) ahead ahead' hahead
    show (accessorFound (accessorAhead? ahead') ahead').value = _ ∧
      Follows f _ (accessorFound (accessorAhead? ahead') ahead').rest ∧
      (accessorFound (accessorAhead? ahead') ahead').problems.map _ = _
    rw [accessorAhead?_eq hf hahead hgo hsettled]
    exact hfound
  · have hnode : (Element.node .accessorList
        (opening :: accessors ++ [(expect .closeBraceToken ahead).value])).Settled f := h
    exact fun e he => hnode.child e (by simp [he])
  · refine Commutes.commutesIf ?_ _
    exact (Commutes.expect hf _).bind fun closing => .pure (by simp)

/-- The body of a property is read alike if the words for accessors keep their texts. -/
theorem commutesIf_accessorBody :
    CommutesIf f (AllSettled f) (Element.mapAll f) accessorBody accessorBody := by
  refine .bind (commutesIf_accessorList hf) (fun accessors ahead h => h accessors ?_)
    fun accessors _ => ?_
  · simp only [Bind.bind]
    cases (take? .equalsToken ahead).value <;> exact List.mem_cons_self
  · refine Commutes.commutesIf ?_ _
    refine (Commutes.take? hf _).taking (fun equals => ?_) (.pure (by simp))
    exact (commutes_memberExpression hf).bind fun value =>
      (Commutes.expect hf _).bind fun semicolon => .pure (by simp)

/-! ## Declarations -/

/-- A parameter is read alike, whatever its name is. -/
theorem commutes_parameter : Commutes f (Element.map f) parameter parameter := by
  refine (Commutes.lookKind hf).bind fun kind => ?_
  extract_lets jp
  have hjp : ∀ types, Commutes f (Element.map f) (jp types) (jp (Element.mapAll f types)) :=
    fun types => (Commutes.expect hf _).bind fun name => .pure (by simp)
  refine .ite rfl (fun _ => ?_) fun _ => ?_
  · exact (commutes_type hf).bind fun type => hjp [type]
  · exact (Commutes.complain _).bind fun _ => hjp []

theorem commutes_parameterList : Commutes f (Element.map f) parameterList parameterList := by
  refine (Commutes.expect hf _).bind fun opening => (Commutes.lookKind hf).bind fun kind => ?_
  extract_lets jp jp'
  have hjp : ∀ parameters,
      Commutes f (Element.map f) (jp parameters) (jp' (Element.mapAll f parameters)) :=
    fun parameters => (Commutes.expect hf _).bind fun closing => .pure (by simp)
  exact .ite rfl (fun _ => hjp []) fun _ => (Commutes.separated hf (commutes_parameter hf)).bind hjp

theorem commutes_methodBody : Commutes f (Element.mapAll f) methodBody methodBody :=
  (commutes_parameterList hf).bind fun parameters => (commutes_body hf).bind fun parts =>
    .pure (by simp)

/-- What follows the name of a member decides how it is read. -/
theorem commutesIf_memberFollowedBy (follower : Kind) (modifiers : List Element) (type : Element) :
    CommutesIf f (Element.Settled f) (Element.map f) (memberFollowedBy follower modifiers type)
      (memberFollowedBy follower (Element.mapAll f modifiers) (type.map f)) := by
  unfold memberFollowedBy
  split
  next =>
    refine Commutes.commutesIf ?_ _
    exact (Commutes.expect hf _).bind fun name => (commutes_methodBody hf).bind fun parts =>
      .pure (by simp)
  next =>
    refine .after (.expect hf _) fun name => ?_
    refine .bind (commutesIf_accessorBody hf) (fun parts ahead h => ?_) fun parts _ => ?_
    · have hnode : (Element.node .propertyDeclaration (modifiers ++ [type, name] ++ parts)).Settled
          f :=
        h
      exact fun e he => hnode.child e (by simp [he])
    · exact (Commutes.pure (by simp)).commutesIf _
  next =>
    refine Commutes.commutesIf ?_ _
    refine (Commutes.expect hf _).bind fun name => (commutes_arrowBody? hf).bind fun parts? =>
      .pure ?_
    cases parts? <;> simp
  next =>
    refine Commutes.commutesIf ?_ _
    exact (commutes_variableDeclaration hf (commutes_memberExpression hf) type).bind
      fun declaration =>
      (Commutes.expect hf _).bind fun semicolon => .pure (by simp)

theorem commutesIf_typedMember (modifiers : List Element) (type : Element) :
    CommutesIf f (Element.Settled f) (Element.map f) (typedMember modifiers type)
      (typedMember (Element.mapAll f modifiers) (type.map f)) := by
  refine .look_bind fun ahead ahead' hahead => ?_
  have hfollower : followerAhead ahead' = followerAhead ahead := by
    rw [followerAhead, followerAhead, hahead.kindAt_eq hf, hahead.kindAt_eq hf]
  rw [hfollower]
  exact commutesIf_memberFollowedBy hf (followerAhead ahead) modifiers type

/-- A type is read alike if its members are. -/
theorem commutesIf_typeDeclaration {member : Production (List Element)}
    (hmember : CommutesIf f (AllSettled f) (Element.mapAll f) member member)
    (modifiers : List Element) (keyword : Element) :
    CommutesIf f (Element.Settled f) (Element.map f) (typeDeclaration member modifiers keyword)
      (typeDeclaration member (Element.mapAll f modifiers) (keyword.map f)) := by
  refine .after (.expect hf _) fun name => .after (.expect hf _) fun opening => ?_
  have hkind : typeDeclarationKind (keyword.map f) = typeDeclarationKind keyword := by
    rw [typeDeclarationKind, typeDeclarationKind, Element.kind_map hf]
  refine .bind (.itemsBefore hf _ hmember) (fun members ahead h => ?_) fun members _ => ?_
  · have hnode : (Element.node (typeDeclarationKind keyword)
        (modifiers ++ [keyword, name, opening] ++ members ++
          (expect .closeBraceToken ahead).value ::
          (take? .semicolonToken (expect .closeBraceToken ahead).rest).value.toList)).Settled f := h
    exact fun e he => hnode.child e (by simp [he])
  · refine Commutes.commutesIf ?_ _
    refine (Commutes.expect hf _).bind fun closing => (Commutes.take? hf _).bind fun semicolon? =>
      .pure ?_
    cases semicolon? <;> simp [hkind]

/-- A member behind its modifiers is read alike. -/
theorem commutesIf_modifiedMember {nested : Production (List Element)}
    (hnested : CommutesIf f (AllSettled f) (Element.mapAll f) nested nested)
    (modifiers : List Element) :
    CommutesIf f (AllSettled f) (Element.mapAll f) (modifiedMember nested modifiers)
      (modifiedMember nested (Element.mapAll f modifiers)) := by
  refine .afterTaking (.takeIf? hf _) (fun keyword => ?_) ?_
  · refine .bind (commutesIf_typeDeclaration hf hnested modifiers keyword)
      (fun e ahead h => h e List.mem_cons_self) fun e _ => ?_
    exact (Commutes.pure (by simp)).commutesIf _
  refine .look_bind fun ahead ahead' hahead => ?_
  refine .ite (by rw [hahead.kindAt_eq hf, hahead.kindAt_eq hf]) (fun _ => ?_) fun _ => ?_
  · refine Commutes.commutesIf ?_ _
    exact (Commutes.expect hf _).bind fun name => (commutes_methodBody hf).bind fun parts =>
      .pure (by simp)
  refine .ite (by rw [hahead.kindAt_eq hf]) (fun _ => ?_) fun _ => ?_
  · refine .after (commutes_type hf) fun type => ?_
    refine .bind (commutesIf_typedMember hf modifiers type)
      (fun e ahead h => h e List.mem_cons_self) fun e _ => ?_
    exact (Commutes.pure (by simp)).commutesIf _
  refine .ite (Element.isEmpty_mapAll f modifiers) (fun _ => ?_) fun _ => ?_
  · exact (Commutes.skip hf _).commutesIf _
  · refine Commutes.commutesIf ?_ _
    exact (Commutes.complain _).bind fun _ => .pure (by simp)

end Members

theorem pure_value (a : α) (ahead : List Lexeme) : ((pure a : Production α) ahead).value = a :=
  rfl

/-- The modifiers of a member are the first children of what is made of it. -/
theorem memberFollowedBy_value (follower : Kind) (modifiers : List Element) (type : Element)
    (ahead : List Lexeme) :
    ∃ kind children,
      (memberFollowedBy follower modifiers type ahead).value = .node kind
        (modifiers ++ children) := by
  unfold memberFollowedBy
  split <;> simp only [bind_value, pure_value, List.append_assoc] <;> exact ⟨_, _, rfl⟩

/-- Modifiers that were read stand in front of the node that they belong to. -/
theorem modifiedMember_value (nested : Production (List Element)) {modifiers : List Element}
    (hne : modifiers ≠ []) (ahead : List Lexeme) : ∃ kind children,
      (modifiedMember nested modifiers ahead).value = [.node kind (modifiers ++ children)] := by
  unfold modifiedMember
  rw [bind_value]
  generalize (takeIf? _ ahead).rest = rest
  cases (takeIf? _ ahead).value with
  | some keyword =>
    simp only [typeDeclaration, bind_value, pure_value, List.append_assoc]
    exact ⟨_, _, rfl⟩
  | none =>
    simp only [bind_value]
    split
    next =>
      simp only [bind_value, pure_value]
      exact ⟨_, _, rfl⟩
    split
    next =>
      simp only [bind_value, pure_value, typedMember]
      obtain ⟨kind, children, h⟩ := memberFollowedBy_value _ modifiers _ _
      exact ⟨kind, children, by rw [h]⟩
    split
    next hempty => exact absurd (List.isEmpty_iff.mp hempty) hne
    next => exact ⟨.skippedTokens, [], by simp [bind_value, pure_value]⟩

/-- A name is a type of its own if nothing behind it can continue a type. -/
theorem type_bareName {l : Lexeme} {rest : List Lexeme} (hl : l.kind = .identifierToken)
    (hdot : kindAt 0 rest ≠ .dotToken) (hquestion : kindAt 0 rest ≠ .questionToken)
    (hbracket : kindAt 0 rest ≠ .openBracketToken) :
    type (l :: rest) = ⟨.node .identifierName [.token l.token], rest, []⟩ := by
  have hpredefined : takeIf? Kind.isPredefinedType (l :: rest) = ⟨none, l :: rest, []⟩ :=
    takeIf?_of_not (by simp [kindAt, hl, Kind.isPredefinedType])
  have hdot : take? .dotToken rest = ⟨none, rest, []⟩ := takeIf?_of_not (by simpa using hdot)
  have hquestion : take? .questionToken rest = ⟨none, rest, []⟩ :=
    takeIf?_of_not (by simpa using hquestion)
  have hbracket : take? .openBracketToken rest = ⟨none, rest, []⟩ :=
    takeIf?_of_not (by simpa using hbracket)
  have hname (q : Element) : nameSuffix q rest = ⟨none, rest, []⟩ :=
    (bind_of rfl).trans (ite_of rfl (bind_of hdot))
  have htype (q : Element) : typeSuffix q rest = ⟨none, rest, []⟩ :=
    (bind_of hquestion).trans ((bind_of rfl).trans (ite_of rfl (bind_of hbracket)))
  have hbase : name (l :: rest) = ⟨.node .identifierName [.token l.token], rest, []⟩ := by
    refine (bind_of (bind_of (expect_of hl rest))).trans ?_
    rw [iterate_of_none (by rw [hname]), hname]
  refine (bind_of hpredefined).trans ((bind_of hbase).trans ?_)
  show iterate typeSuffix _ rest = _
  rw [iterate_of_none (by rw [htype]), htype]

/-- A name in front of a keyword that is neither a member nor a suffix is the type of a field. -/
theorem modifiedMember_bareType (nested : Production (List Element)) (modifiers : List Element)
    {l : Lexeme} {rest : List Lexeme} (hl : l.kind = .identifierToken)
    (hnext : kindAt 0 rest = .classKeyword ∨ kindAt 0 rest = .structKeyword ∨
      kindAt 0 rest = .voidKeyword) :
    ∃ declarators semicolon, (modifiedMember nested modifiers (l :: rest)).value =
      [.node .fieldDeclaration (modifiers ++
        [.node .variableDeclaration (.node .identifierName [.token l.token] :: declarators),
          semicolon])] := by
  have hhead : kindAt 0 (l :: rest) = .identifierToken := hl
  have hsecond : kindAt 1 (l :: rest) = kindAt 0 rest := rfl
  have htype : type (l :: rest) = ⟨.node .identifierName [.token l.token], rest, []⟩ := by
    refine type_bareName hl ?_ ?_ ?_ <;> rcases hnext with h | h | h <;> simp [h]
  have hfollower : followerAhead rest = .badToken := by
    rcases hnext with h | h | h <;> simp [followerAhead, h]
  have hkeyword : takeIf? (fun kind => kind == .classKeyword || kind == .structKeyword)
      (l :: rest) =
      ⟨none, l :: rest, []⟩ := takeIf?_of_not (by simp [hhead])
  unfold modifiedMember
  rw [bind_value, hkeyword]
  simp only [bind_value]
  rw [if_neg, if_pos]
  · simp only [bind_value, pure_value, htype, typedMember, look, hfollower, memberFollowedBy,
      variableDeclaration]
    exact ⟨_, _, rfl⟩
  · simp [look, hhead, startsType]
  · rcases hnext with h | h | h <;> simp [look, hsecond, h]

def modifierStep (taken : List Element) : Production (Option (List Element)) := do
  return (← takeAs? modifierKind?).map (taken ++ [·])

theorem modifierStep_of_none {ahead : List Lexeme} (h : modifierKind? ahead = none)
    (taken : List Element) : iterate modifierStep taken ahead = ⟨taken, ahead, []⟩ := by
  have hstep : modifierStep taken ahead = ⟨none, ahead, []⟩ := by
    refine bind_of (a := (none : Option Element)) ?_
    unfold takeAs?
    rw [h]
    cases ahead <;> rfl
  rw [iterate_of_none (by rw [hstep]), hstep]

/-- A modifier is taken and becomes one of the kind that its word has here. -/
theorem modifierStep_of_some {l : Lexeme} {rest : List Lexeme} {kind : Kind}
    (h : modifierKind? (l :: rest) = some kind) (taken : List Element) :
    iterate modifierStep taken (l :: rest) =
      iterate modifierStep (taken ++ [.token { l.token with kind }]) rest := by
  have hstep : modifierStep taken (l :: rest) =
      ⟨some (taken ++ [.token { l.token with kind }]), rest, []⟩ := by
    refine bind_of (a := some (Element.token { l.token with kind })) ?_
    unfold takeAs?
    rw [h]
  rw [iterate_of_some (by rw [hstep]) (by simp [hstep]), hstep]
  rfl

/-- Modifiers are only added. -/
theorem iterate_modifierStep_value (taken : List Element) (ahead : List Lexeme) :
    ∃ more, (iterate modifierStep taken ahead).value = taken ++ more := by
  induction ahead generalizing taken with
  | nil => exact ⟨[], by rw [modifierStep_of_none rfl, List.append_nil]⟩
  | cons l rest ih =>
    cases h : modifierKind? (l :: rest) with
    | none => exact ⟨[], by rw [modifierStep_of_none h, List.append_nil]⟩
    | some kind =>
      obtain ⟨more, hmore⟩ := ih (taken ++ [.token { l.token with kind }])
      exact ⟨Element.token { l.token with kind } ::
        more, by rw [modifierStep_of_some h, hmore]; simp⟩

/-- Whether a token is a modifier depends on its text: it is an identifier in front of a type. -/
def AsksText (l : Lexeme) (rest : List Lexeme) : Prop :=
  l.kind = .identifierToken ∧ (kindAt 0 rest = .classKeyword ∨ kindAt 0 rest = .structKeyword ∨
    kindAt 0 rest = .voidKeyword)

/-- A word that is not asked for its text is a modifier by its kind only. -/
theorem modifierKind?_of_not_asksText {l : Lexeme} {rest : List Lexeme} (h : ¬AsksText l rest) :
    modifierKind? (l :: rest) = if l.kind.isModifier then some l.kind else none := by
  have hnot : (l.kind == .identifierToken && (l :: rest).head?.map Lexeme.text == some "partial" &&
      (kindAt 0 rest == .classKeyword || kindAt 0 rest == .structKeyword ||
        kindAt 0 rest == .voidKeyword)) = false := by
    rw [Bool.eq_false_iff]
    intro htrue
    simp only [Bool.and_eq_true, Bool.or_eq_true, beq_iff_eq, or_assoc] at htrue
    exact h ⟨htrue.1.1, htrue.2⟩
  have heq : modifierKind? (l :: rest) = if l.kind.isModifier then some l.kind else
      if l.kind == .identifierToken && (l :: rest).head?.map Lexeme.text == some "partial" &&
        (kindAt 0 rest == .classKeyword || kindAt 0 rest == .structKeyword ||
          kindAt 0 rest == .voidKeyword) then some .partialKeyword else none := rfl
  rw [heq, hnot]
  rfl

section Members

variable (hf : KeepsKinds f)
include hf

/-- Where the change is settled in the member that is read, the same modifier is ahead. -/
theorem modifierKind?_eq (nested : Production (List Element)) {ahead ahead' : List Lexeme}
    {taken : List Element} (hahead : Follows f ahead ahead')
    (hsettled : AllSettled f (modifiedMember nested (iterate modifierStep taken ahead).value
      (iterate modifierStep taken ahead).rest).value) :
    modifierKind? ahead' = modifierKind? ahead := by
  cases hahead with
  | nil => rfl
  | @cons l l' rest rest' hl hrest =>
    have hfollows := Follows.cons hl hrest
    by_cases htext : (f l.token).text = l.text
    · have htext' : l'.text = l.text := by rw [Lexeme.text, hl, htext]
      unfold modifierKind?
      rw [hfollows.kindAt_eq hf, hfollows.kindAt_eq hf, List.head?_cons, List.head?_cons,
        Option.map_some, Option.map_some, htext']
    · by_cases hasked : AsksText l rest
      -- The text is asked for, so the token is settled, whether or not it became a modifier.
      · exfalso
        cases hsome : modifierKind? (l :: rest) with
        | none =>
          rw [modifierStep_of_none hsome] at hsettled
          obtain ⟨declarators, semicolon, hvalue⟩ :=
            modifiedMember_bareType nested taken hasked.1 hasked.2
          rw [hvalue] at hsettled
          have hfield := hsettled _ List.mem_cons_self
          have hdeclaration := hfield.child
            (.node .variableDeclaration (.node .identifierName [.token l.token] :: declarators))
            (by simp)
          cases hdeclaration with
          | node _ hbare _ => exact htext (hbare rfl _ _ rfl)
        | some kind =>
          have hne : kind ≠ .identifierToken := by
            rintro rfl
            exact absurd (keepsKind_modifierKind? _ _ hsome).1 nofun
          rw [modifierStep_of_some hsome] at hsettled
          obtain ⟨more, hmore⟩ := iterate_modifierStep_value
            (taken ++ [.token { l.token with kind }]) rest
          rw [hmore] at hsettled
          obtain ⟨kind', children, hvalue⟩ := modifiedMember_value nested
            (show taken ++ [.token { l.token with kind }] ++ more ≠ [] by simp)
            (iterate modifierStep (taken ++ [.token { l.token with kind }]) rest).rest
          rw [hvalue] at hsettled
          have hmember := hsettled _ List.mem_cons_self
          have hchild := hmember.child (.token { l.token with kind }) (by simp)
          have := hchild.text_eq hne
          rw [hf.retag] at this
          exact htext this
      · have hasked' : ¬AsksText l' rest' := by
          rwa [AsksText, kind_eq_of_token_eq hf hl, hrest.kindAt_eq hf]
        rw [modifierKind?_of_not_asksText hasked, modifierKind?_of_not_asksText hasked',
          kind_eq_of_token_eq hf hl]

/-- A member is read alike if no word that is asked for its text changes. -/
theorem commutesIf_memberOf {nested : Production (List Element)}
    (hnested : CommutesIf f (AllSettled f) (Element.mapAll f) nested nested) :
    CommutesIf f (AllSettled f) (Element.mapAll f) (memberOf nested) (memberOf nested) := by
  have hmodifiers : ∀ ahead ahead' taken, Follows f ahead ahead' →
      AllSettled f (modifiedMember nested (iterate modifierStep taken ahead).value
        (iterate modifierStep taken ahead).rest).value →
      (iterate modifierStep (Element.mapAll f taken) ahead').value =
        Element.mapAll f (iterate modifierStep taken ahead).value ∧
      Follows f (iterate modifierStep taken ahead).rest
        (iterate modifierStep (Element.mapAll f taken) ahead').rest ∧
      (iterate modifierStep (Element.mapAll f taken) ahead').problems = [] ∧
      (iterate modifierStep taken ahead).problems = [] := by
    intro ahead
    induction ahead with
    | nil =>
      intro ahead' taken hahead hsettled
      cases hahead
      rw [modifierStep_of_none rfl, modifierStep_of_none rfl]
      exact ⟨rfl, .nil, rfl, rfl⟩
    | cons l rest ih =>
      intro ahead' taken hahead hsettled
      have hsame := modifierKind?_eq hf nested hahead hsettled
      cases hkind : modifierKind? (l :: rest) with
      | none =>
        rw [modifierStep_of_none hkind, modifierStep_of_none (hsame.trans hkind)]
        exact ⟨rfl, hahead, rfl, rfl⟩
      | some kind =>
        obtain _ | ⟨hl, hrest⟩ := hahead
        rw [modifierStep_of_some hkind] at hsettled ⊢
        rw [modifierStep_of_some (hsame.trans hkind)]
        have := ih _ _ hrest hsettled
        rwa [Element.mapAll_append, Element.mapAll_cons, Element.mapAll_nil, Element.map_token,
          hf.retag, ← hl] at this
  intro ahead ahead' hahead hsettled
  obtain ⟨hvalue, hrest, hproblems', hproblems⟩ := hmodifiers ahead ahead' [] hahead hsettled
  obtain ⟨hvalue₂, hrest₂, hproblems₂⟩ :=
    commutesIf_modifiedMember hf hnested _ _ _ hrest hsettled
  have hmembers : ∀ es, memberOf es = iterate modifierStep [] >>= modifiedMember es := fun _ => rfl
  rw [hmembers]
  show (modifiedMember nested (iterate modifierStep [] ahead').value _).value = _ ∧
    Follows f _ (modifiedMember nested (iterate modifierStep [] ahead').value _).rest ∧
    ((iterate modifierStep [] ahead').problems ++
      (modifiedMember nested (iterate modifierStep [] ahead').value _).problems).map _ =
    ((iterate modifierStep [] ahead).problems ++ _).map _
  rw [Element.mapAll_nil] at hvalue hproblems' hrest₂ hproblems₂ hvalue₂
  rw [hvalue, hproblems', hproblems]
  exact ⟨hvalue₂, hrest₂, hproblems₂⟩

theorem commutesIf_member (budget : Nat) :
    CommutesIf f (AllSettled f) (Element.mapAll f) (member budget) (member budget) := by
  induction budget with
  | zero => exact (Commutes.skip hf _).commutesIf _
  | succ budget ih => exact commutesIf_memberOf hf ih

/-- A namespace is read alike if its members are. -/
theorem commutesIf_namespaceDeclaration {member : Production (List Element)}
    (hmember : CommutesIf f (AllSettled f) (Element.mapAll f) member member) (keyword : Element) :
    CommutesIf f (Element.Settled f) (Element.map f) (namespaceDeclaration member keyword)
      (namespaceDeclaration member (keyword.map f)) := by
  refine .after (commutes_name hf) fun name => .afterTaking (.take? hf _) (fun semicolon => ?_) ?_
  · refine .bind (.itemsBefore hf _ hmember) (fun members ahead h => ?_) fun members _ => ?_
    · have hnode : (Element.node .fileScopedNamespaceDeclaration
          ([keyword, name, semicolon] ++ members)).Settled f := h
      exact fun e he => hnode.child e (by simp [he])
    · exact (Commutes.pure (by simp)).commutesIf _
  · refine .after (.expect hf _) fun opening => ?_
    refine .bind (.itemsBefore hf _ hmember) (fun members ahead h => ?_) fun members _ => ?_
    · have hnode : (Element.node .namespaceDeclaration ([keyword, name, opening] ++ members ++
          [(expect .closeBraceToken ahead).value])).Settled f := h
      exact fun e he => hnode.child e (by simp [he])
    · refine Commutes.commutesIf ?_ _
      exact (Commutes.expect hf _).bind fun closing => .pure (by simp)

/-- Members of namespaces are read alike to any depth. -/
theorem commutesIf_namespaceMember (budget : Nat) :
    CommutesIf f (AllSettled f) (Element.mapAll f) (namespaceMember budget)
      (namespaceMember budget) := by
  induction budget with
  | zero => exact (Commutes.skip hf _).commutesIf _
  | succ budget ih =>
    refine .afterTaking (.take? hf _) (fun keyword => ?_) ?_
    · refine .bind (commutesIf_namespaceDeclaration hf ih keyword)
        (fun e ahead h => h e List.mem_cons_self) fun e _ => ?_
      exact (Commutes.pure (by simp)).commutesIf _
    refine .afterTaking (.take? hf _) (fun keyword => ?_) (commutesIf_member hf (budget + 1))
    refine Commutes.commutesIf ?_ _
    refine Commutes.bind (m := Element.map f) ?_ fun e => .pure (by simp)
    exact (commutes_name hf).bind fun name => (Commutes.expect hf _).bind fun semicolon =>
      .pure (by simp)

/-- All members of a text, under a change that is settled in them. -/
theorem commutesIf_allMembers :
    CommutesIf f (AllSettled f) (Element.mapAll f) allMembers allMembers := by
  refine .look_bind fun ahead ahead' hahead => ?_
  rw [hahead.length_eq]
  exact .itemsBefore hf _ (commutesIf_namespaceMember hf _)

end Members

end Production

end AutoProperty
