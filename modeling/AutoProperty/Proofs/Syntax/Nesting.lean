import AutoProperty.Proofs.Syntax.WholeText

/-! # Nesting of members

The budget for nested types and namespaces only makes the recursion well-founded. Each level of
nesting takes a token of its own, so with no fewer levels than tokens ahead the budget is never
used up, and what is read does not depend on it.
-/

namespace AutoProperty

namespace Production

variable {α β : Type}

/-- The productions do the same wherever at most `n` tokens are ahead. -/
def AgreeUpTo (n : Nat) (p q : Production α) : Prop :=
  ∀ ahead, TokensAhead ahead → ahead.length ≤ n → p ahead = q ahead

/-- What is left is no longer than what was ahead. -/
theorem TakesFront.length_rest_le {p : Production α} (hp : TakesFront p) {ahead : List Lexeme}
    (htokens : TokensAhead ahead) : (p ahead).rest.length ≤ ahead.length := by
  obtain ⟨used, hused, _⟩ := hp ahead htokens
  have hlength := congrArg List.length hused
  rw [List.length_append] at hlength
  omega

theorem TakesFront.tokensAhead_rest {p : Production α} (hp : TakesFront p) {ahead : List Lexeme}
    (htokens : TokensAhead ahead) : TokensAhead (p ahead).rest := by
  obtain ⟨used, hused, _⟩ := hp ahead htokens
  rw [hused] at htokens
  exact htokens.of_append_right

theorem takeIf?_nil (wanted : Kind → Bool) : takeIf? wanted [] = ⟨none, [], []⟩ := rfl

namespace AgreeUpTo

variable {n : Nat}

theorem refl (p : Production α) : AgreeUpTo n p p :=
  fun _ _ _ => rfl

/-- Followed by the same production. -/
theorem followed {p q : Production α} (h : AgreeUpTo n p q) (f : α → Production β) :
    AgreeUpTo n (p >>= f) (q >>= f) := by
  intro ahead htokens hlength
  show Parsed.mk _ _ _ = Parsed.mk _ _ _
  rw [h ahead htokens hlength]

/-- Behind the same production. -/
theorem behind {p : Production α} {f g : α → Production β} (hp : TakesFront p)
    (hf : ∀ a, AgreeUpTo n (f a) (g a)) : AgreeUpTo n (p >>= f) (p >>= g) := by
  intro ahead htokens hlength
  have hrest : f (p ahead).value (p ahead).rest = g (p ahead).value (p ahead).rest :=
    hf _ _ (hp.tokensAhead_rest htokens) (Nat.le_trans (hp.length_rest_le htokens) hlength)
  show Parsed.mk _ _ _ = Parsed.mk _ _ _
  rw [hrest]

/-- A token that is taken is one less ahead. -/
theorem taking {wanted : Kind → Bool} {f g : Option Element → Production β}
    (hsome : ∀ e, AgreeUpTo n (f (some e)) (g (some e)))
    (hnone : AgreeUpTo (n + 1) (f none) (g none)) :
    AgreeUpTo (n + 1) (takeIf? wanted >>= f) (takeIf? wanted >>= g) := by
  intro ahead htokens hlength
  cases ahead with
  | nil =>
    rw [bind_of (takeIf?_nil wanted), bind_of (takeIf?_nil wanted)]
    exact hnone [] htokens hlength
  | cons l rest =>
    cases hwanted : wanted l.kind with
    | false =>
      have htake := takeIf?_of_not (show wanted (kindAt 0 (l :: rest)) = false from hwanted)
      rw [bind_of htake, bind_of htake]
      exact hnone (l :: rest) htokens hlength
    | true =>
      rw [bind_of (takeIf?_of hwanted rest), bind_of (takeIf?_of hwanted rest)]
      refine hsome _ rest (fun l' hl' => htokens l' (List.mem_cons_of_mem l hl')) ?_
      exact Nat.le_of_succ_le_succ hlength

/-- Items are read alike if each of them is. -/
theorem itemsBefore {item item' : Production (List Element)} (stop : Kind → Bool)
    (hitem : TakesFront item) (h : AgreeUpTo n item item') :
    AgreeUpTo n (itemsBefore stop item) (itemsBefore stop item') := by
  intro ahead htokens hlength
  rw [itemsBefore_eq, itemsBefore_eq]
  generalize ([] : List Element) = items
  induction hm : ahead.length using Nat.strongRecOn generalizing ahead items with
  | ind m ih =>
    cases hstop : ahead.isEmpty || stop (kindAt 0 ahead) with
    | true => rw [iterate_itemStep_of_stop hstop, iterate_itemStep_of_stop hstop]
    | false =>
      rw [iterate_itemStep_of_go hstop, iterate_itemStep_of_go hstop, ← h ahead htokens hlength]
      split
      next hlt =>
        have hle : (item ahead).rest.length ≤ n := Nat.le_trans (Nat.le_of_lt hlt) hlength
        rw [ih _ (hm ▸ hlt) _ (hitem.tokensAhead_rest htokens) hle _ rfl]
      next => rfl

end AgreeUpTo

/-! ## Members -/

section Members

variable {n : Nat} {nested nested' : Production (List Element)} (hnested : TakesFront nested)
  (h : AgreeUpTo n nested nested')
include hnested h

theorem agree_typeDeclaration (modifiers : List Element) (keyword : Element) :
    AgreeUpTo n (typeDeclaration nested modifiers keyword)
      (typeDeclaration nested' modifiers keyword) := by
  refine .behind (reads_expect rfl).takesFront fun _ => ?_
  refine .behind (reads_expect rfl).takesFront fun _ => ?_
  exact .followed (.itemsBefore _ hnested h) _

/-- The keyword of a nested type is taken before its members are read. -/
theorem agree_modifiedMember (modifiers : List Element) :
    AgreeUpTo (n + 1) (modifiedMember nested modifiers) (modifiedMember nested' modifiers) :=
  .taking (fun keyword => .followed (agree_typeDeclaration hnested h modifiers keyword) _) (.refl _)

theorem agree_memberOf : AgreeUpTo (n + 1) (memberOf nested) (memberOf nested') :=
  .behind (reads_takeAll keepsKind_modifierKind?).takesFront fun modifiers =>
    agree_modifiedMember hnested h modifiers

/-- A namespace agrees up to the depth to which its members agree. -/
theorem agree_namespaceDeclaration (keyword : Element) :
    AgreeUpTo n (namespaceDeclaration nested keyword) (namespaceDeclaration nested' keyword) := by
  refine .behind reads_name.takesFront fun _ => ?_
  refine .behind (reads_take? _).takesFront fun semicolon? => ?_
  cases semicolon? with
  | some semicolon => exact .followed (.itemsBefore _ hnested h) _
  | none =>
    refine .behind (reads_expect rfl).takesFront fun _ => ?_
    exact .followed (.itemsBefore _ hnested h) _

end Members

/-- With nothing ahead there is no member, however many levels are left. -/
theorem member_nil (budget : Nat) : member budget [] = skip .expectedMember [] := by
  cases budget with
  | zero => rfl
  | succ budget =>
    have hmodifiers : takeAll modifierKind? [] = ⟨[], [], []⟩ := iterate_of_none rfl
    show memberOf (member budget) [] = _
    rw [memberOf, bind_of hmodifiers]
    rfl

theorem namespaceMember_nil (budget : Nat) :
    namespaceMember budget [] = skip .expectedMember [] := by
  cases budget with
  | zero => rfl
  | succ budget => exact member_nil (budget + 1)

/-- Levels beyond the number of tokens ahead change nothing about a member. -/
theorem agree_member {n budget budget' : Nat} (hle : n ≤ budget) (hle' : n ≤ budget') :
    AgreeUpTo n (member budget) (member budget') := by
  induction n generalizing budget budget' with
  | zero =>
    intro ahead _ hlength
    rw [List.length_eq_zero_iff.mp (Nat.le_zero.mp hlength), member_nil, member_nil]
  | succ n ih =>
    obtain ⟨budget, rfl⟩ := Nat.exists_eq_add_one_of_ne_zero (Nat.ne_zero_of_lt hle)
    obtain ⟨budget', rfl⟩ := Nat.exists_eq_add_one_of_ne_zero (Nat.ne_zero_of_lt hle')
    exact agree_memberOf (reads_member budget).takesFront
      (ih (Nat.le_of_succ_le_succ hle) (Nat.le_of_succ_le_succ hle'))

/-- Levels beyond the number of tokens ahead change nothing about a member of a namespace. -/
theorem agree_namespaceMember {n budget budget' : Nat} (hle : n ≤ budget) (hle' : n ≤ budget') :
    AgreeUpTo n (namespaceMember budget) (namespaceMember budget') := by
  induction n generalizing budget budget' with
  | zero =>
    intro ahead _ hlength
    rw [List.length_eq_zero_iff.mp (Nat.le_zero.mp hlength), namespaceMember_nil,
      namespaceMember_nil]
  | succ n ih =>
    obtain ⟨budget, rfl⟩ := Nat.exists_eq_add_one_of_ne_zero (Nat.ne_zero_of_lt hle)
    obtain ⟨budget', rfl⟩ := Nat.exists_eq_add_one_of_ne_zero (Nat.ne_zero_of_lt hle')
    have hinner := ih (Nat.le_of_succ_le_succ hle) (Nat.le_of_succ_le_succ hle')
    refine .taking (fun keyword => ?_) ?_
    · exact .followed
        (agree_namespaceDeclaration (reads_namespaceMember budget).takesFront hinner keyword) _
    · exact .behind (reads_take? _).takesFront fun using? => by
        cases using? with
        | some keyword => exact .refl _
        | none => exact agree_member hle hle'

/-- The members of a text are read alike with any number of levels that is no less than the
number of tokens. -/
theorem allMembers_eq {ahead : List Lexeme} (htokens : TokensAhead ahead) {budget : Nat}
    (hle : ahead.length ≤ budget) :
    itemsBefore (fun _ => false) (namespaceMember budget) ahead = allMembers ahead :=
  AgreeUpTo.itemsBefore _ (reads_namespaceMember budget).takesFront
    (agree_namespaceMember hle (Nat.le_refl _))
    ahead htokens (Nat.le_refl _)

end Production

end AutoProperty
