import AutoProperty.Syntax.Parse

/-! # What productions take

A production takes tokens from the front of what is ahead and leaves the rest. `Reads` says so, and
ties what was taken to what was made of it. The tokens of an element spell the tokens taken: each of
them is there once and in order, and all others are missing ones.
-/

namespace AutoProperty

/-- The kinds that an identifier becomes where the grammar gives it a meaning of its own. -/
def Kind.isContextual (kind : Kind) : Prop :=
  kind = .getKeyword ∨ kind = .setKeyword ∨ kind = .initKeyword ∨ kind = .partialKeyword

/-- The token is the one ahead, perhaps as a contextual keyword. -/
def Token.IsTaken (t : Token) (l : Lexeme) : Prop :=
  ∃ kind : Kind, t = { l.token with kind } ∧
    (kind = l.kind ∨ l.kind = .identifierToken ∧ kind.isContextual)

/-- A token of the kind can be missing. The end of a text never is, and no production asks for a
point or an equals sign. -/
def Kind.canBeMissing (kind : Kind) : Bool :=
  kind.isToken && kind != .endOfFileToken && kind != .dotToken && kind != .equalsToken

theorem Kind.isToken_of_canBeMissing {kind : Kind} (h : kind.canBeMissing) : kind.isToken :=
  (Bool.and_eq_true_iff.mp (Bool.and_eq_true_iff.mp (Bool.and_eq_true_iff.mp h).1).1).1

/-- The tokens are those ahead, with missing ones in between. -/
inductive Spells : List Token → List Lexeme → Prop where
  | nil : Spells [] []
  | missing (kind : Kind) {ts : List Token} {ls : List Lexeme} :
      kind.canBeMissing → Spells ts ls → Spells (.missing kind :: ts) ls
  | taken {t : Token} {l : Lexeme} {ts : List Token} {ls : List Lexeme} :
      t.IsTaken l → Spells ts ls → Spells (t :: ts) (l :: ls)

namespace Spells

theorem append {ts us : List Token} {ls ms : List Lexeme} (h : Spells ts ls) (h' : Spells us ms) :
    Spells (ts ++ us) (ls ++ ms) := by
  induction h with
  | nil => exact h'
  | missing kind hk _ ih => exact .missing kind hk ih
  | taken ht _ ih => exact .taken ht ih

theorem single {t : Token} {l : Lexeme} (h : t.IsTaken l) : Spells [t] [l] :=
  .taken h .nil

/-- Each of the tokens is a missing one, or one that was ahead. -/
theorem of_mem {ts : List Token} {ls : List Lexeme} (h : Spells ts ls) {t : Token} (ht : t ∈ ts) :
    (∃ kind, kind.canBeMissing ∧ t = .missing kind) ∨ ∃ l ∈ ls, t.IsTaken l := by
  induction h with
  | nil => exact absurd ht List.not_mem_nil
  | missing kind hkind _ ih =>
    obtain rfl | ht := List.mem_cons.mp ht
    · exact .inl ⟨kind, hkind, rfl⟩
    · exact ih ht
  | taken htaken _ ih =>
    obtain rfl | ht := List.mem_cons.mp ht
    · exact .inr ⟨_, List.mem_cons_self, htaken⟩
    · obtain hmissing | ⟨l, hl, htaken⟩ := ih ht
      · exact .inl hmissing
      · exact .inr ⟨l, List.mem_cons_of_mem _ hl, htaken⟩

end Spells

def TokensAhead (ahead : List Lexeme) : Prop :=
  ∀ l ∈ ahead, l.kind.isToken

theorem TokensAhead.of_append_right {used rest : List Lexeme} (h : TokensAhead (used ++ rest)) :
    TokensAhead rest :=
  fun l hl => h l (List.mem_append_right used hl)

namespace Production

variable {α β : Type}

/-- From `ahead` the production takes tokens off the front, and `A` holds of those and of the
value. -/
def ReadsAt (ahead : List Lexeme) (A : List Lexeme → α → Prop) (p : Production α) : Prop :=
  TokensAhead ahead → ∃ used, ahead = used ++ (p ahead).rest ∧ A used (p ahead).value

/-- The production takes tokens from the front, and `A` holds of those and of the value. -/
def Reads (A : List Lexeme → α → Prop) (p : Production α) : Prop :=
  ∀ ahead, ReadsAt ahead A p

/-- What a production takes is followed by what the next one takes. -/
theorem ReadsAt.bind {ahead : List Lexeme} {A : List Lexeme → α → Prop} {B : List Lexeme → β → Prop}
    {p : Production α} {f : α → Production β}
    (hp : ReadsAt ahead A p) (hf : ∀ used, A used (p ahead).value →
      ReadsAt (p ahead).rest (fun more b => B (used ++ more) b) (f (p ahead).value)) :
    ReadsAt ahead B (p >>= f) := by
  intro htokens
  obtain ⟨used, hused, ha⟩ := hp htokens
  have hrest : TokensAhead (p ahead).rest := by
    rw [hused] at htokens
    exact htokens.of_append_right
  obtain ⟨more, hmore, hb⟩ := hf used ha hrest
  refine ⟨used ++ more, ?_, hb⟩
  rw [List.append_assoc]
  exact hused.trans (congrArg (used ++ ·) hmore)

namespace Reads

variable {A : List Lexeme → α → Prop} {B : List Lexeme → β → Prop}

theorem pure {a : α} (h : A [] a) : Reads A (Pure.pure a) :=
  fun _ _ => ⟨[], rfl, h⟩

theorem bind {p : Production α} {f : α → Production β} (hp : Reads A p)
    (hf : ∀ used a, A used a → Reads (fun more b => B (used ++ more) b) (f a)) :
    Reads B (p >>= f) :=
  fun ahead => (hp ahead).bind fun used ha => hf used _ ha _

theorem imp {A' : List Lexeme → α → Prop} {p : Production α} (hp : Reads A p)
    (h : ∀ used a, A used a → A' used a) : Reads A' p := by
  intro ahead htokens
  obtain ⟨used, hused, ha⟩ := hp ahead htokens
  exact ⟨used, hused, h used _ ha⟩

/-- Looking takes nothing. -/
theorem look : Reads (fun used _ => used = []) look :=
  fun _ _ => ⟨[], rfl, rfl⟩

theorem lookKind : Reads (fun used _ => used = []) lookKind :=
  fun _ _ => ⟨[], rfl, rfl⟩

/-- Complaining takes nothing. -/
theorem complain (c : Complaint) : Reads (fun used _ => used = []) (complain c) :=
  fun _ _ => ⟨[], rfl, rfl⟩

theorem complainFound (c : Kind → Complaint) : Reads (fun used _ => used = []) (complainFound c) :=
  fun _ _ => ⟨[], rfl, rfl⟩

/-- Goes on behind a step that takes nothing. -/
theorem then_of_nil {p : Production α} {f : α → Production β}
    (hp : Reads (fun used _ => used = []) p) (hf : ∀ a, Reads B (f a)) : Reads B (p >>= f) :=
  hp.bind fun used a hused => by
    subst hused
    exact hf a

/-- Goes on with what is ahead. -/
theorem look_bind {f : List Lexeme → Production β} (h : ∀ ahead, ReadsAt ahead B (f ahead)) :
    Reads B (Production.look >>= f) :=
  h

/-- Goes on with the kind of what is ahead. -/
theorem lookKind_bind {f : Kind → Production β}
    (h : ∀ ahead, ReadsAt ahead B (f (kindAt 0 ahead))) : Reads B (Production.lookKind >>= f) :=
  h

end Reads

def TakenAs (P : Kind → Prop) (used : List Lexeme) (taken? : Option Element) : Prop :=
  match taken? with
  | none => used = []
  | some e => ∃ (l : Lexeme) (kind : Kind), used = [l] ∧ e = .token { l.token with kind } ∧ P kind ∧
      (kind = l.kind ∨ l.kind = .identifierToken ∧ kind.isContextual) ∧ l.kind.isToken

/-- The choice of a kind for the next token keeps its kind or makes a contextual keyword of it. -/
def KeepsKind (choose : List Lexeme → Option Kind) (P : Kind → Prop) : Prop :=
  ∀ ahead kind, choose ahead = some kind → P kind ∧
    (kind = kindAt 0 ahead ∨ kindAt 0 ahead = .identifierToken ∧ kind.isContextual)

/-- One token is taken, and it gets a kind that was chosen for it. -/
theorem reads_takeAs? {choose : List Lexeme → Option Kind} {P : Kind → Prop}
    (h : KeepsKind choose P) : Reads (TakenAs P) (takeAs? choose) := by
  intro ahead htokens
  unfold takeAs?
  split
  next l rest kind hchoose =>
    obtain ⟨hp, hkind⟩ := h _ _ hchoose
    exact ⟨[l], rfl, l, kind, rfl, rfl, hp, by simpa [kindAt] using hkind,
      htokens l List.mem_cons_self⟩
  next => exact ⟨[], rfl, rfl⟩

theorem reads_takeIf? (wanted : Kind → Bool) :
    Reads (TakenAs fun kind => wanted kind = true) (takeIf? wanted) := by
  refine reads_takeAs? fun ahead kind h => ?_
  split at h
  next hw =>
    cases h
    exact ⟨hw, .inl rfl⟩
  next => exact absurd h nofun

theorem reads_take? (kind : Kind) : Reads (TakenAs (· = kind)) (take? kind) :=
  (reads_takeIf? (· == kind)).imp fun used taken? h => by
    cases taken? with
    | none => exact h
    | some e =>
      obtain ⟨l, kind', hused, he, hkind, hrest⟩ := h
      exact ⟨l, kind', hused, he, by simpa using hkind, hrest⟩

theorem bind_value (p : Production α) (k : α → Production β) (ahead : List Lexeme) :
    ((p >>= k) ahead).value = (k (p ahead).value (p ahead).rest).value :=
  rfl

/-- Goes on behind a step without complaints. -/
theorem bind_of {p : Production α} {k : α → Production β} {a : α} {ahead rest : List Lexeme}
    (h : p ahead = ⟨a, rest, []⟩) : (p >>= k) ahead = k a rest := by
  show Parsed.mk _ _ _ = _
  rw [h]
  rfl

theorem ite_of {c : Prop} [Decidable c] {p q : Production α} {ahead : List Lexeme} {r : Parsed α}
    (hp : p ahead = r) (hq : q ahead = r) : (if c then p else q : Production α) ahead = r := by
  split
  next => exact hp
  next => exact hq

/-- Nothing is taken that is not asked for. -/
theorem takeIf?_of_not {wanted : Kind → Bool} {ahead : List Lexeme}
    (h : wanted (kindAt 0 ahead) = false) : takeIf? wanted ahead = ⟨none, ahead, []⟩ := by
  unfold takeIf? takeAs?
  dsimp only
  rw [h]
  cases ahead <;> rfl

theorem takeIf?_of {wanted : Kind → Bool} {l : Lexeme} (h : wanted l.kind = true)
    (rest : List Lexeme) : takeIf? wanted (l :: rest) = ⟨some (.token l.token), rest, []⟩ := by
  unfold takeIf? takeAs?
  dsimp only
  rw [show wanted (kindAt 0 (l :: rest)) = true from h]
  rfl

theorem expect_of {kind : Kind} {l : Lexeme} (h : l.kind = kind) (rest : List Lexeme) :
    expect kind (l :: rest) = ⟨.token l.token, rest, []⟩ := by
  exact bind_of (takeIf?_of (by simpa using h) rest)

theorem iterate_of_none {step : α → Production (Option α)} {a : α} {ahead : List Lexeme}
    (h : (step a ahead).value = none) :
    iterate step a ahead = ⟨a, (step a ahead).rest, (step a ahead).problems⟩ := by
  rw [iterate, h]

theorem iterate_of_some {step : α → Production (Option α)} {a next : α} {ahead : List Lexeme}
    (h : (step a ahead).value = some next) (hlt : (step a ahead).rest.length < ahead.length) :
    iterate step a ahead =
      let others := iterate step next (step a ahead).rest
      ⟨others.value, others.rest, (step a ahead).problems ++ others.problems⟩ := by
  rw [iterate, h]
  exact if_pos hlt

def itemStep (stop : Kind → Bool) (item : Production (List Element)) (items : List Element) :
    Production (Option (List Element)) := fun ahead =>
  if ahead.isEmpty || stop (kindAt 0 ahead) then
    ⟨none, ahead, []⟩
  else
    let next := item ahead
    ⟨some (items ++ next.value), next.rest, next.problems⟩

theorem itemsBefore_eq (stop : Kind → Bool) (item : Production (List Element)) :
    itemsBefore stop item = iterate (itemStep stop item) [] :=
  rfl

theorem iterate_itemStep_of_stop {stop : Kind → Bool} {item : Production (List Element)}
    {ahead : List Lexeme} (h : (ahead.isEmpty || stop (kindAt 0 ahead)) = true)
    (items : List Element) : iterate (itemStep stop item) items ahead = ⟨items, ahead, []⟩ := by
  have hstep : itemStep stop item items ahead = ⟨none, ahead, []⟩ := if_pos h
  rw [iterate_of_none (by rw [hstep]), hstep]

/-- Where an item takes something, reading goes on behind it. -/
theorem iterate_itemStep_of_go {stop : Kind → Bool} {item : Production (List Element)}
    {ahead : List Lexeme} (h : (ahead.isEmpty || stop (kindAt 0 ahead)) = false)
    (items : List Element) :
    iterate (itemStep stop item) items ahead =
      if (item ahead).rest.length < ahead.length then
        let others := iterate (itemStep stop item) (items ++ (item ahead).value) (item ahead).rest
        ⟨others.value, others.rest, (item ahead).problems ++ others.problems⟩
      else
        ⟨items ++ (item ahead).value, (item ahead).rest, (item ahead).problems⟩ := by
  have hstep : itemStep stop item items ahead =
      ⟨some (items ++ (item ahead).value), (item ahead).rest, (item ahead).problems⟩ :=
    if_neg (by simp [h])
  rw [iterate, hstep]

/-- Another step was made behind the tokens `used`, or none and no token was taken. -/
def Continues (A : List Lexeme → α → Prop) (used more : List Lexeme) : Option α → Prop
  | some a => A (used ++ more) a
  | none => more = []

theorem Continues.of {A : List Lexeme → α → Prop} {used more : List Lexeme} {a : α}
    (h : A (used ++ more) a) : Continues A used more (some a) :=
  h

/-- A repeated step keeps what holds of the value so far and of the tokens taken for it. -/
theorem Reads.iterate {A : List Lexeme → α → Prop} {step : α → Production (Option α)}
    (hstep : ∀ used a, A used a → Reads (Continues A used) (step a))
    {used : List Lexeme} {a : α} (ha : A used a) :
    Reads (fun more a => A (used ++ more) a) (iterate step a) := by
  intro ahead
  induction hn : ahead.length using Nat.strongRecOn generalizing ahead a used with
  | ind n ih =>
    intro htokens
    obtain ⟨more, hmore, hvalue⟩ := hstep used a ha ahead htokens
    rw [Production.iterate]
    generalize step a ahead = first at hmore hvalue ⊢
    obtain ⟨value, rest, problems⟩ := first
    dsimp only at hmore hvalue ⊢
    cases value with
    | none =>
      have hnone : more = [] := hvalue
      exact ⟨[], by simpa [hnone] using hmore, by simpa using ha⟩
    | some next =>
      dsimp only
      split
      next hlt =>
        rw [hmore] at htokens
        obtain ⟨others, hothers, hlast⟩ := ih _ (by omega) hvalue rest rfl htokens.of_append_right
        refine ⟨more ++ others, ?_, by simpa using hlast⟩
        rw [List.append_assoc]
        exact hmore.trans (congrArg (more ++ ·) hothers)
      next => exact ⟨more, hmore, hvalue⟩

end Production

end AutoProperty
