import AutoProperty.Proofs.Syntax.Nesting
import AutoProperty.Proofs.Syntax.Precedence

/-! # Climbing by strength

Binary operators can be read level by level, or by climbing: behind an operand, an operator that
is strong enough is taken, and what stands right of it is read with stronger ones only. Both
make the same of the same tokens. What carries this is that climbing stops only in front of an
operator that is too weak, so a weaker level finds nothing left to group that a stronger one
could have taken.
-/

namespace AutoProperty

theorem Kind.precedence?_bounds {kind : Kind} {p : Nat} (h : kind.precedence? = some p) :
    1 ≤ p ∧ p ≤ 6 := by
  unfold precedence? at h
  split at h <;> cases h <;> omega

/-- How strongly the operator binds, if it binds at least as strongly as `least`. -/
def Kind.strength? (least : Nat) (kind : Kind) : Option { p : Nat // least ≤ p ∧ p ≤ 6 } :=
  match h : kind.precedence? with
  | none => none
  | some p => if hle : least ≤ p then some ⟨p, hle, (precedence?_bounds h).2⟩ else none

namespace Production

variable {operand : Production Element} {least : Nat}

/-! ## Joining operands -/

/-- Takes the operator ahead if `right?` gives a way to read what stands right of it, and reads
that. -/
def joinStep (right? : Kind → Option (Production Element)) (left : Element) :
    Production (Option Element)
  | [] => ⟨none, [], []⟩
  | l :: rest =>
    match right? l.kind with
    | none => ⟨none, l :: rest, []⟩
    | some right =>
      let made := right rest
      ⟨some (.node .binaryExpression [left, .token l.token, made.value]), made.rest, made.problems⟩

/-- Operands with operators between them, those only that bind at least as strongly as `least`.
What stands right of an operator is read with stronger ones only, and what was read so far
becomes its left side. -/
def climb (operand : Production Element) (least : Nat) : Production Element :=
  operand >>= iterate
    (joinStep fun kind => (kind.strength? least).map fun p => climb operand (p.val + 1))
termination_by 7 - least
decreasing_by
  have := p.property
  omega

/-- What stands right of an operator that is at least as strong as `least`. -/
def climbing? (operand : Production Element) (least : Nat) (kind : Kind) :
    Option (Production Element) :=
  (kind.strength? least).map fun p => climb operand (p.val + 1)

theorem climb_eq_bind (operand : Production Element) (least : Nat) :
    climb operand least = operand >>= iterate (joinStep (climbing? operand least)) := by
  rw [climb]
  rfl

/-- An operator is taken if it binds at least as strongly as asked for. -/
theorem climbing?_eq_some {kind : Kind} {right : Production Element} :
    climbing? operand least kind = some right ↔
      ∃ p, kind.precedence? = some p ∧ least ≤ p ∧ right = climb operand (p + 1) := by
  unfold climbing? Kind.strength?
  split
  next hnone => simp [hnone]
  next p hp =>
    by_cases hle : least ≤ p
    · simp [hp, hle, eq_comm]
    · simp [hp, hle]

/-- No operator is taken if it binds less strongly than asked for. -/
theorem climbing?_eq_none {kind : Kind} :
    climbing? operand least kind = none ↔ ∀ p, kind.precedence? = some p → p < least := by
  unfold climbing? Kind.strength?
  split
  next hnone => simp [hnone]
  next p hp =>
    by_cases hle : least ≤ p
    · simp [hp, hle]
    · simp [hp, hle]
      omega

/-- The next token is none behind which `right?` could read. -/
def Stops (right? : Kind → Option (Production Element)) (ahead : List Lexeme) : Prop :=
  ∀ l ∈ ahead.head?, right? l.kind = none

section Joining

variable {right? : Kind → Option (Production Element)}

theorem stops_nil : Stops right? [] := by
  simp [Stops]

theorem stops_of_none {l : Lexeme} (h : right? l.kind = none) (rest : List Lexeme) :
    Stops right? (l :: rest) :=
  fun _ hm => Option.some.inj hm ▸ h

theorem iterate_joinStep_of_stops {ahead : List Lexeme} (h : Stops right? ahead) (left : Element) :
    iterate (joinStep right?) left ahead = ⟨left, ahead, []⟩ := by
  have hstep : joinStep right? left ahead = ⟨none, ahead, []⟩ := by
    cases ahead with
    | nil => rfl
    | cons l rest => rw [joinStep, h l rfl]
  rw [iterate_of_none (by rw [hstep]), hstep]

/-- One step joins the left operand with the right one and goes on. -/
theorem iterate_joinStep_of_some {l : Lexeme} {rest : List Lexeme} {right : Production Element}
    {left : Element} {made others : Parsed Element} (h : right? l.kind = some right)
    (hmade : right rest = made) (hle : made.rest.length ≤ rest.length)
    (hothers : iterate (joinStep right?)
      (.node .binaryExpression [left, .token l.token, made.value]) made.rest = others) :
    iterate (joinStep right?) left (l :: rest) =
      ⟨others.value, others.rest, made.problems ++ others.problems⟩ := by
  subst hmade hothers
  have hstep : joinStep right? left (l :: rest) =
      ⟨some (.node .binaryExpression [left, .token l.token, (right rest).value]), (right rest).rest,
        (right rest).problems⟩ := by
    rw [joinStep, h]
  have hlt : (right rest).rest.length < (l :: rest).length := Nat.lt_succ_of_le hle
  rw [iterate_of_some (by rw [hstep]) (by rwa [hstep]), hstep]

variable (hright : ∀ kind right, right? kind = some right → TakesFront right)
include hright

/-- Joining takes tokens off the front only. -/
theorem takesFront_iterate_joinStep (left : Element) :
    TakesFront (iterate (joinStep right?) left) := by
  refine @Reads.iterate Element (fun _ _ => True) (joinStep right?)
    (fun _ left _ ahead htokens => ?_) [] left trivial
  cases ahead with
  | nil => exact ⟨[], rfl, rfl⟩
  | cons l rest =>
    rw [joinStep]
    cases hsome : right? l.kind with
    | none => exact ⟨[], rfl, rfl⟩
    | some right =>
      have hrest : TokensAhead rest := fun m hm => htokens m (List.mem_cons_of_mem l hm)
      obtain ⟨used, hused, -⟩ := hright _ _ hsome rest hrest
      exact ⟨l :: used, congrArg (l :: ·) hused, trivial⟩

/-- Joining goes on until it has to stop. -/
theorem stops_iterate_joinStep (left : Element) {ahead : List Lexeme}
    (htokens : TokensAhead ahead) : Stops right? (iterate (joinStep right?) left ahead).rest := by
  induction hlength : ahead.length using Nat.strongRecOn generalizing ahead left with
  | ind length ih =>
    cases ahead with
    | nil =>
      rw [iterate_joinStep_of_stops stops_nil]
      exact stops_nil
    | cons l rest =>
      cases hsome : right? l.kind with
      | none =>
        rw [iterate_joinStep_of_stops (stops_of_none hsome rest)]
        exact stops_of_none hsome rest
      | some right =>
        have hrest : TokensAhead rest := fun m hm => htokens m (List.mem_cons_of_mem l hm)
        have htakes := hright _ _ hsome
        have hle := htakes.length_rest_le hrest
        rw [iterate_joinStep_of_some hsome rfl hle rfl]
        exact ih _ (hlength ▸ Nat.lt_succ_of_le hle) _ (htakes.tokensAhead_rest hrest) rfl

end Joining

/-- First joining the stronger operators and then the weaker ones is joining all of them, if
what stands right of a weaker one leaves no stronger one ahead. -/
theorem iterate_joinStep_iterate {strong? weak? all? : Kind → Option (Production Element)}
    (hstrong : ∀ kind right, strong? kind = some right → all? kind = some right ∧ TakesFront right)
    (hweak : ∀ kind right, strong? kind = none → weak? kind = some right →
      ∃ right', all? kind = some right' ∧ TakesFront right' ∧ ∀ ahead, TokensAhead ahead →
      right ahead = right' ahead ∧ Stops strong? (right' ahead).rest)
    (hnone : ∀ kind, strong? kind = none → weak? kind = none → all? kind = none) (left : Element)
    {ahead : List Lexeme} (htokens : TokensAhead ahead) :
    (iterate (joinStep strong?) left >>= iterate (joinStep weak?)) ahead = iterate (joinStep all?)
      left ahead := by
  induction hlength : ahead.length using Nat.strongRecOn generalizing ahead left with
  | ind length ih =>
    cases ahead with
    | nil =>
      rw [bind_of (iterate_joinStep_of_stops stops_nil left), iterate_joinStep_of_stops stops_nil,
        iterate_joinStep_of_stops stops_nil]
    | cons l rest =>
      have hrest : TokensAhead rest := fun m hm => htokens m (List.mem_cons_of_mem l hm)
      cases hs : strong? l.kind with
      | some right =>
        -- A stronger operator is joined first either way.
        obtain ⟨hall, htakes⟩ := hstrong _ _ hs
        have hle := htakes.length_rest_le hrest
        have hothers := ih _ (hlength ▸ Nat.lt_succ_of_le hle)
          (.node .binaryExpression [left, .token l.token, (right rest).value])
          (htakes.tokensAhead_rest hrest) rfl
        rw [iterate_joinStep_of_some hall rfl hle hothers.symm]
        show Parsed.mk _ _ _ = _
        rw [iterate_joinStep_of_some hs rfl hle rfl, List.append_assoc]
        rfl
      | none =>
        rw [bind_of (iterate_joinStep_of_stops (stops_of_none hs rest) left)]
        cases hw : weak? l.kind with
        | none =>
          rw [iterate_joinStep_of_stops (stops_of_none hw rest),
            iterate_joinStep_of_stops (stops_of_none (hnone _ hs hw) rest)]
        | some right =>
          -- Behind what stands right of a weaker operator the stronger ones are used up, so joining
          -- all of them goes on with weaker ones, too.
          obtain ⟨right', hall, htakes, hagree⟩ := hweak _ _ hs hw
          obtain ⟨heq, hstops⟩ := hagree rest hrest
          have hle := htakes.length_rest_le hrest
          have hothers := ih _ (hlength ▸ Nat.lt_succ_of_le hle)
            (.node .binaryExpression [left, .token l.token, (right' rest).value])
            (htakes.tokensAhead_rest hrest) rfl
          rw [bind_of (iterate_joinStep_of_stops hstops _)] at hothers
          rw [iterate_joinStep_of_some hall rfl hle hothers.symm,
            iterate_joinStep_of_some hw heq hle rfl]

/-! ## Climbing -/

/-- Climbing takes tokens off the front only. -/
theorem takesFront_climb (hoperand : TakesFront operand) (least : Nat) :
    TakesFront (climb operand least) := by
  induction hroom : 7 - least using Nat.strongRecOn generalizing least with
  | ind room ih =>
    rw [climb_eq_bind]
    refine hoperand.bind fun _ first _ => takesFront_iterate_joinStep (fun kind right hright => ?_)
      first
    obtain ⟨p, hp, hle, rfl⟩ := climbing?_eq_some.mp hright
    have hbounds := Kind.precedence?_bounds hp
    exact ih (7 - (p + 1)) (by omega) (p + 1) rfl

/-- Climbing leaves no operator ahead that it could have taken. -/
theorem stops_climb (hoperand : TakesFront operand) (least : Nat) {ahead : List Lexeme}
    (htokens : TokensAhead ahead) :
    Stops (climbing? operand least) (climb operand least ahead).rest := by
  rw [climb_eq_bind]
  refine stops_iterate_joinStep (fun kind right hright => ?_) _ (hoperand.tokensAhead_rest htokens)
  obtain ⟨p, -, -, rfl⟩ := climbing?_eq_some.mp hright
  exact takesFront_climb hoperand (p + 1)

/-- The operators of one level, with an operand of the stronger levels right of each. -/
def levelled? (operators : List Kind) (right : Production Element) (kind : Kind) :
    Option (Production Element) :=
  if operators.contains kind then some right else none

theorem levelled?_eq_some {operators : List Kind} {right right' : Production Element}
    {kind : Kind} :
    levelled? operators right kind = some right' ↔ kind ∈ operators ∧ right = right' := by
  simp [levelled?]

theorem levelled?_eq_none {operators : List Kind} {right : Production Element} {kind : Kind} :
    levelled? operators right kind = none ↔ kind ∉ operators := by
  simp [levelled?]

/-- A level of operators joins operands of the stronger levels, from the left. -/
theorem binary_cons (operand : Production Element) (operators : List Kind)
    (stronger : List (List Kind)) :
    binary operand (operators :: stronger) = binary operand stronger >>= iterate
      (joinStep (levelled? operators (binary operand stronger))) := by
  rw [binary]
  refine congrArg (binary operand stronger >>= ·)
    (funext fun first => congrArg (iterate · first) ?_)
  funext left ahead
  cases ahead with
  | nil => rfl
  | cons l rest =>
    cases hwanted : operators.contains l.kind with
    | true =>
      have hright : levelled? operators (binary operand stronger) l.kind =
          some (binary operand stronger) :=
        levelled?_eq_some.mpr ⟨by simpa using hwanted, rfl⟩
      rw [bind_of (takeIf?_of hwanted rest), joinStep, hright]
      exact congrArg (Parsed.mk _ _) (List.append_nil _)
    | false =>
      have hright : levelled? operators (binary operand stronger) l.kind = none :=
        levelled?_eq_none.mpr (by simpa using hwanted)
      have htake : takeIf? operators.contains (l :: rest) = _ := takeIf?_of_not hwanted
      rw [bind_of htake, joinStep, hright]
      rfl

/-- Reading operators level by level, the weakest first, is climbing from the weakest strength. -/
theorem binary_eq_climb (hoperand : TakesFront operand) {levels : List (List Kind)}
    (hlevels : Leveled least levels) (hall : least + levels.length = 7) {ahead : List Lexeme}
    (htokens : TokensAhead ahead) : binary operand levels ahead = climb operand least ahead := by
  induction levels generalizing least ahead with
  | nil =>
    have hnone : ∀ kind, climbing? operand least kind = none :=
      fun kind => climbing?_eq_none.mpr fun p hp => by
      have hbounds := Kind.precedence?_bounds hp
      rw [List.length_nil] at hall
      omega
    rw [climb_eq_bind]
    show operand ahead = Parsed.mk _ _ _
    rw [iterate_joinStep_of_stops fun l _ => hnone l.kind, List.append_nil]
  | cons operators stronger ih =>
    obtain ⟨hoperators, hstronger⟩ := hlevels
    rw [List.length_cons] at hall
    have hagree : ∀ behind, TokensAhead behind →
        binary operand stronger behind = climb operand (least + 1) behind :=
      fun behind hbehind => ih hstronger (by omega) hbehind
    have hjoin : ∀ left behind, TokensAhead behind →
        (iterate (joinStep (climbing? operand (least + 1))) left >>=
            iterate (joinStep (levelled? operators (binary operand stronger)))) behind =
          iterate (joinStep (climbing? operand least)) left behind := by
      intro left behind hbehind
      refine iterate_joinStep_iterate (fun kind right hright => ?_)
        (fun kind right hnone hright => ?_)
        (fun kind hnone hnot => ?_) left hbehind
      · obtain ⟨p, hp, hle, rfl⟩ := climbing?_eq_some.mp hright
        exact ⟨climbing?_eq_some.mpr ⟨p, hp, Nat.le_of_succ_le hle, rfl⟩,
          takesFront_climb hoperand (p + 1)⟩
      · obtain ⟨hmem, rfl⟩ := levelled?_eq_some.mp hright
        exact ⟨climb operand (least + 1),
          climbing?_eq_some.mpr ⟨least, (hoperators kind).mp hmem, Nat.le_refl _, rfl⟩,
          takesFront_climb hoperand (least + 1),
          fun ahead htokens => ⟨hagree ahead htokens, stops_climb hoperand (least + 1) htokens⟩⟩
      · refine climbing?_eq_none.mpr fun p hp => ?_
        have hle : p < least + 1 := climbing?_eq_none.mp hnone p hp
        have hne : p ≠ least :=
          fun heq => levelled?_eq_none.mp hnot ((hoperators kind).mpr (heq ▸ hp))
        omega
    rw [binary_cons, climb_eq_bind]
    show Parsed.mk _ _ _ = Parsed.mk _ _ _
    rw [hagree ahead htokens, climb_eq_bind, ← hjoin _ _ (hoperand.tokensAhead_rest htokens)]
    exact congrArg (Parsed.mk _ _) (List.append_assoc _ _ _)

/-- No operator is weaker than the weakest. -/
theorem climb_zero (operand : Production Element) : climb operand 0 = climb operand 1 := by
  have hsame : climbing? operand 0 = climbing? operand 1 := by
    funext kind
    refine Option.ext fun right => ?_
    rw [climbing?_eq_some, climbing?_eq_some]
    constructor
    · rintro ⟨p, hp, -, hright⟩
      exact ⟨p, hp, (Kind.precedence?_bounds hp).1, hright⟩
    · rintro ⟨p, hp, -, hright⟩
      exact ⟨p, hp, Nat.zero_le p, hright⟩
  rw [climb_eq_bind, climb_eq_bind, hsame]

/-- The operands of an expression are joined as by climbing, however deep the expression stands. -/
theorem binary_unary (budget : Nat) {ahead : List Lexeme} (htokens : TokensAhead ahead) :
    binary (unary budget) binaryLevels ahead = climb (unary budget) 0 ahead := by
  rw [climb_zero]
  exact binary_eq_climb (reads_expression_unary budget).2.takesFront leveled_binaryLevels rfl
    htokens

end Production

end AutoProperty
