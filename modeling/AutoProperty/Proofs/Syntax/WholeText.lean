import AutoProperty.Proofs.Syntax.Leaves
import AutoProperty.Proofs.Syntax.MemberShapes
import AutoProperty.Proofs.Syntax.Scanned

/-! # The tree of a whole text

Wherever tokens are left, a member takes at least one of them, so the members of a text take all of
its tokens. The tree of a text conforms, and its tokens spell the text.
-/

namespace AutoProperty

namespace Production

variable {α β : Type}

/-- Takes tokens from the front, whatever it makes of them. -/
abbrev TakesFront (p : Production α) : Prop :=
  Reads (fun _ _ => True) p

theorem Reads.takesFront {A : List Lexeme → α → Prop} {p : Production α} (hp : Reads A p) :
    TakesFront p :=
  hp.imp fun _ _ _ => True.intro

/-- With `ahead` ahead, the production takes at least one token. -/
def AdvancesAt (ahead : List Lexeme) (p : Production α) : Prop :=
  ReadsAt ahead (fun used _ => used ≠ []) p

namespace AdvancesAt

theorem length_lt {ahead : List Lexeme} {p : Production α} (hp : AdvancesAt ahead p)
    (htokens : TokensAhead ahead) : (p ahead).rest.length < ahead.length := by
  obtain ⟨used, hused, hne⟩ := hp htokens
  have hlength := congrArg List.length hused
  have hpos := List.length_pos_iff.mpr hne
  rw [List.length_append] at hlength
  omega

/-- A production advances if its first step does. -/
theorem bind {A : List Lexeme → α → Prop} {ahead : List Lexeme} {p : Production α}
    {f : α → Production β} (hp : AdvancesAt ahead p) (ha : Reads A p)
    (hf : ∀ used a, A used a → TakesFront (f a)) : AdvancesAt ahead (p >>= f) := by
  intro htokens
  obtain ⟨used, hused, hne⟩ := hp htokens
  obtain ⟨used', _, hvalue⟩ := ha ahead htokens
  have hrest : TokensAhead (p ahead).rest := by
    rw [hused] at htokens
    exact htokens.of_append_right
  obtain ⟨more, hmore, _⟩ := hf used' _ hvalue _ hrest
  refine ⟨used ++ more, ?_, fun hnil => hne (List.append_eq_nil_iff.mp hnil).1⟩
  rw [List.append_assoc]
  exact hused.trans (congrArg (used ++ ·) hmore)

/-- A token was taken, or everything is still ahead. -/
theorem taking {P : Kind → Prop} {ahead : List Lexeme} {p : Production (Option Element)}
    {f : Option Element → Production β} (hp : Reads (TakenAs P) p)
    (hsome : ∀ used e, Makes P used e → TakesFront (f (some e)))
    (hnone : (p ahead).value = none → AdvancesAt ahead (f none)) : AdvancesAt ahead (p >>= f) := by
  intro htokens
  obtain ⟨used, hused, htaken⟩ := hp ahead htokens
  have hrest : TokensAhead (p ahead).rest := by
    rw [hused] at htokens
    exact htokens.of_append_right
  show ∃ used, ahead = used ++ (f (p ahead).value (p ahead).rest).rest ∧ used ≠ []
  cases hvalue : (p ahead).value with
  | none =>
    rw [hvalue] at htaken
    have hnil : used = [] := htaken
    rw [show (p ahead).rest = ahead by simpa [hnil] using hused.symm]
    exact hnone hvalue htokens
  | some e =>
    rw [hvalue] at htaken
    obtain ⟨more, hmore, _⟩ := hsome used e (htaken.makes.imp And.left) _ hrest
    obtain ⟨l, _, rfl, _⟩ := htaken
    exact ⟨l :: more, by rw [List.cons_append, ← hmore]; exact hused, List.cons_ne_nil _ _⟩

end AdvancesAt

theorem advancesAt_expect {ahead : List Lexeme} {kind : Kind} (hne : ahead ≠ [])
    (h : kindAt 0 ahead = kind) : AdvancesAt ahead (expect kind) := by
  cases ahead with
  | nil => exact absurd rfl hne
  | cons l rest =>
    refine fun _ => ⟨[l], ?_, List.cons_ne_nil _ _⟩
    rw [expect_of h]
    rfl

theorem advancesAt_skip {ahead : List Lexeme} (hne : ahead ≠ []) (complaint : Kind → Complaint) :
    AdvancesAt ahead (skip complaint) := by
  cases ahead with
  | nil => exact absurd rfl hne
  | cons l rest => exact fun _ => ⟨[l], rfl, List.cons_ne_nil _ _⟩

/-- Where no token was taken, the next one is of no kind asked for. -/
theorem not_of_takeIf?_eq_none {wanted : Kind → Bool} {ahead : List Lexeme} (hne : ahead ≠ [])
    (h : (takeIf? wanted ahead).value = none) : wanted (kindAt 0 ahead) = false := by
  cases ahead with
  | nil => exact absurd rfl hne
  | cons l rest =>
    cases hwanted : wanted (kindAt 0 (l :: rest)) with
    | false => rfl
    | true => simp [takeIf?, takeAs?, hwanted] at h

/-- A type is ahead, so reading one takes a token. -/
theorem advancesAt_type {ahead : List Lexeme} (hne : ahead ≠ [])
    (h : startsType (kindAt 0 ahead)) : AdvancesAt ahead type := by
  have hsuffixes : ∀ used base, Makes (·.isType) used base → TakesFront (iterate typeSuffix base) :=
    fun _ _ hbase => (Reads.iterate (fun _ _ => reads_typeSuffix) hbase).takesFront
  refine .taking (reads_takeIf? _) (fun used keyword hkeyword => ?_) fun hvalue => ?_
  · refine hsuffixes used _ ?_
    exact hkeyword.2.makes rfl ⟨_, hkeyword.1, rfl⟩ rfl
  · have hname : kindAt 0 ahead = .identifierToken := by
      simpa [startsType, not_of_takeIf?_eq_none hne hvalue] using h
    refine .bind ?_ reads_name fun used _ hbase =>
      hsuffixes used _ (hbase.imp Kind.isType_of_isName)
    refine .bind ?_ reads_simpleName fun used _ hbase =>
      (Reads.iterate (fun _ _ => reads_nameSuffix) (hbase.imp fun hk => by rw [hk]; rfl)).takesFront
    exact (advancesAt_expect hne hname).bind (reads_expect rfl) fun _ _ _ => .pure trivial

/-- A member takes something, if only to skip it. -/
theorem advancesAt_modifiedMember {nested : Production (List Element)}
    (hnested : Reads (MakesEach (·.isTypeMember)) nested) {ahead : List Lexeme} (hne : ahead ≠ []) :
    AdvancesAt ahead (modifiedMember nested []) := by
  have hnone : MakesEach (·.isModifier) [] [] := .nil (by simp)
  refine .taking (reads_takeIf? _) (fun used keyword hkeyword => ?_) fun _ => ?_
  · have hkeyword' := hkeyword.imp (Q := fun k => k = .classKeyword ∨ k = .structKeyword) (by simp)
    exact (reads_typeDeclaration hnested hnone hkeyword').bind fun _ _ _ => .pure trivial
  show AdvancesAt ahead (if _ then _ else _)
  split
  next hname =>
    simp only [Bool.and_eq_true, beq_iff_eq] at hname
    exact .bind (advancesAt_expect hne hname.1) (reads_expect rfl) fun _ _ _ =>
      (reads_methodBody).bind fun _ _ _ => .pure trivial
  split
  next htype =>
    exact .bind (advancesAt_type hne htype) reads_type fun _ _ h =>
      (reads_typedMember hnone h).bind fun _ _ _ => .pure trivial
  next => exact advancesAt_skip hne _

/-- The first of several tokens is taken if it is chosen. -/
theorem advancesAt_takeAll {choose : List Lexeme → Option Kind} {P : Kind → Prop}
    (h : KeepsKind choose P) {ahead : List Lexeme} {kind : Kind} (hne : ahead ≠ [])
    (hchoose : choose ahead = some kind) : AdvancesAt ahead (takeAll choose) := by
  cases ahead with
  | nil => exact absurd rfl hne
  | cons l rest =>
    intro htokens
    let step (taken : List Element) : Production (Option (List Element)) := do
      return (← takeAs? choose).map (taken ++ [·])
    have hstep : step [] (l :: rest) = ⟨some [.token { l.token with kind }], rest, []⟩ := by
      simp [step, Bind.bind, Pure.pure, takeAs?, hchoose]
    have hall : takeAll choose (l :: rest) = iterate step [] (l :: rest) := rfl
    rw [hall, iterate_of_some (by rw [hstep]) (by simp [hstep]), hstep]
    obtain ⟨hp, hkind⟩ := h _ _ hchoose
    have htaken : TakenAs P [l] (some (.token { l.token with kind })) :=
      ⟨l, kind, rfl, rfl, hp, hkind, htokens l List.mem_cons_self⟩
    have hothers := reads_takeMore h (htaken.makes.imp And.left).each
    obtain ⟨more, hmore, _⟩ := hothers rest (fun l' hl' => htokens l' (List.mem_cons_of_mem _ hl'))
    exact ⟨l :: more, by rw [List.cons_append, ← hmore], List.cons_ne_nil _ _⟩

/-- A member of a type takes something, if only to skip it. -/
theorem advancesAt_memberOf {nested : Production (List Element)}
    (hnested : Reads (MakesEach (·.isTypeMember)) nested) {ahead : List Lexeme} (hne : ahead ≠ []) :
    AdvancesAt ahead (memberOf nested) := by
  cases hmodifier : modifierKind? ahead with
  | none =>
    have hall : takeAll modifierKind? ahead = ⟨[], ahead, []⟩ := by
      let step (taken : List Element) : Production (Option (List Element)) := do
        return (← takeAs? modifierKind?).map (taken ++ [·])
      have hstep : step [] ahead = ⟨none, ahead, []⟩ := by
        simp [step, Bind.bind, Pure.pure, takeAs?, hmodifier]
      show iterate step [] ahead = _
      rw [iterate_of_none (by rw [hstep]), hstep]
    intro htokens
    show ∃ used, ahead = used ++ (modifiedMember nested (takeAll modifierKind? ahead).value
      (takeAll modifierKind? ahead).rest).rest ∧ used ≠ []
    rw [hall]
    exact advancesAt_modifiedMember hnested hne htokens
  | some kind =>
    exact .bind (advancesAt_takeAll keepsKind_modifierKind? hne hmodifier)
      (reads_takeAll keepsKind_modifierKind?) fun _ _ h =>
      (reads_modifiedMember hnested h).takesFront

theorem advancesAt_member {ahead : List Lexeme} (hne : ahead ≠ []) (budget : Nat) :
    AdvancesAt ahead (member budget) := by
  cases budget with
  | zero => exact advancesAt_skip hne _
  | succ budget => exact advancesAt_memberOf (reads_member budget) hne

/-- A member of a namespace takes something, if only to skip it. -/
theorem advancesAt_namespaceMember {ahead : List Lexeme} (hne : ahead ≠ []) (budget : Nat) :
    AdvancesAt ahead (namespaceMember budget) := by
  cases budget with
  | zero => exact advancesAt_skip hne _
  | succ budget =>
    refine .taking (reads_take? _) (fun used keyword hkeyword => ?_) fun _ => ?_
    · exact (reads_namespaceDeclaration (reads_namespaceMember budget) hkeyword).bind fun _ _ _ =>
        .pure trivial
    refine .taking (reads_take? _) (fun used keyword hkeyword => ?_) fun _ => ?_
    · exact (reads_usingDirective hkeyword).bind fun _ _ _ => .pure trivial
    · exact advancesAt_member hne (budget + 1)

/-- Items that each take a token are read to the end of the text. -/
theorem itemsBefore_rest {item : Production (List Element)}
    (hitem : ∀ ahead ≠ [], AdvancesAt ahead item) {ahead : List Lexeme}
    (htokens : TokensAhead ahead) : (itemsBefore (fun _ => false) item ahead).rest = [] := by
  rw [itemsBefore_eq]
  generalize ([] : List Element) = items
  induction hn : ahead.length using Nat.strongRecOn generalizing ahead items with
  | ind n ih =>
    cases ahead with
    | nil => rw [iterate_itemStep_of_stop rfl]
    | cons l rest =>
      have hlt := (hitem (l :: rest) (List.cons_ne_nil _ _)).length_lt htokens
      obtain ⟨used, hused, _⟩ := hitem (l :: rest) (List.cons_ne_nil _ _) htokens
      rw [iterate_itemStep_of_go rfl, if_pos hlt]
      rw [hused] at htokens
      exact ih _ (hn ▸ hlt) htokens.of_append_right _ rfl

/-- Members are read to the end of the text. -/
theorem allMembers_rest {ahead : List Lexeme} (htokens : TokensAhead ahead) :
    (allMembers ahead).rest = [] :=
  itemsBefore_rest (fun _ hne => advancesAt_namespaceMember hne _) htokens

/-- The members of a text conform, and their tokens spell all of it. -/
theorem makesEach_allMembers {ahead : List Lexeme} (htokens : TokensAhead ahead) :
    MakesEach (·.isNamespaceMember) ahead (allMembers ahead).value := by
  obtain ⟨used, hused, hmade⟩ := reads_allMembers ahead htokens
  rw [allMembers_rest htokens, List.append_nil] at hused
  rwa [← hused] at hmade

end Production

/-! ## The tree of a text -/

theorem token_placeTokens (o : Nat) (ts : List Token) :
    (placeTokens o ts).map Lexeme.token = ts := by
  induction ts generalizing o with
  | nil => rfl
  | cons t ts ih => simp [placeTokens, ih]

theorem tokensAhead_placeTokens {ts : List Token} (h : ∀ t ∈ ts, t.kind.isToken) (o : Nat) :
    TokensAhead (placeTokens o ts) := by
  intro l hl
  have hmem : l.token ∈ (placeTokens o ts).map Lexeme.token := List.mem_map_of_mem hl
  rw [token_placeTokens] at hmem
  exact h _ hmem

theorem tokensAhead_scan (text : String) : TokensAhead (placeTokens 0 (scan text).tokens) :=
  tokensAhead_placeTokens (fun _ ht => (Scanner.isScanned_of_mem_scanFrom ht).isToken) 0

/-- Missing tokens have no text. -/
theorem Spells.tokensText_eq {ts : List Token} {ls : List Lexeme} (h : Spells ts ls) :
    tokensText ts = tokensText (ls.map Lexeme.token) := by
  induction h with
  | nil => rfl
  | missing kind _ _ ih => simpa [Token.fullText, Token.missing, Token.bare, triviaText] using ih
  | taken ht _ ih =>
    obtain ⟨kind, rfl, _⟩ := ht
    simp [ih, Token.fullText]

/-- The tree of a text spells the text. -/
theorem text_parse (text : String) : (parse text).root.text = text := by
  have hspells := (Production.makesEach_allMembers (tokensAhead_scan text)).2.spells
  have htext := hspells.tokensText_eq
  rw [token_placeTokens] at htext
  have hall := tokensText_scan text
  show String.ofList (tokensText (Element.tokensOf (_ ++ [.token _]))) = text
  rw [Element.tokensOf_append, tokensText_append, htext]
  rw [ScannedText.all, tokensText_append] at hall
  rw [show Element.tokensOf [.token (scan text).final] = [(scan text).final] from rfl, hall]
  simp

/-- The tree of a text conforms. -/
theorem conforms_parse (text : String) : (parse text).root.element.Conforms := by
  obtain ⟨hkinds, hrow⟩ := Production.makesEach_allMembers (tokensAhead_scan text)
  have hfinal : (scan text).final.kind = .endOfFileToken :=
    (Scanner.unmarked_final true text.toList).2.2.1
  have hmembers : ChildrenFit .compilationUnit ((parse text).root.children.map Element.kind) :=
    ⟨_, hkinds, by simp [parse, hfinal]⟩
  refine .node rfl hmembers fun e he => ?_
  obtain he | he := List.mem_append.mp he
  · exact hrow.conforms e he
  · rw [List.mem_singleton.mp he]
    refine .token ?_
    rw [hfinal]
    rfl

end AutoProperty
