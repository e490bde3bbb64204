import AutoProperty.Proofs.Syntax.Precedence

/-! # What productions report

A production looks for its problems from the front on, and each is found at the token that is
next just then. Wherever it stands a missing token in, or sets tokens aside, it has reported a
problem of its own. So the problems pay for the defects of what was made. `Reports` says so; it
goes through the productions as `Reads` does, with the number of problems in place of the tokens
taken.
-/

namespace AutoProperty

/-! ## Defects -/

namespace Element

mutual

/-- The number of missing tokens and of places where tokens are set aside. -/
def defects : Element → Nat
  | token t => if t.isMissing then 1 else 0
  | node kind children => (if kind = .skippedTokens then 1 else 0) + defectsOf children

def defectsOf : List Element → Nat
  | [] => 0
  | e :: es => e.defects + defectsOf es

end

theorem defectsOf_append (as bs : List Element) :
    defectsOf (as ++ bs) = defectsOf as + defectsOf bs := by
  induction as with
  | nil => simp [defectsOf]
  | cons a as ih => simp [defectsOf, ih, Nat.add_assoc]

/-- So many problems pay for the defects of the element, and its operators are grouped by their
strength. -/
structure PaidBy (n : Nat) (e : Element) : Prop where
  defects : e.defects ≤ n
  grouped : e.IsGrouped

/-- So many problems pay for the defects of all the elements, and the operators in them are
grouped. -/
structure AllPaidBy (n : Nat) (es : List Element) : Prop where
  defects : defectsOf es ≤ n
  grouped : ∀ e ∈ es, e.IsGrouped

namespace PaidBy

variable {n m : Nat} {e : Element}

theorem taken {t : Token} (h : t.text ≠ "") : PaidBy 0 (.token t) where
  defects := by simp [Element.defects, Token.isMissing, h]
  grouped := .token t

/-- One problem pays for a missing token. -/
theorem missing (kind : Kind) : PaidBy 1 (.token (.missing kind)) where
  defects := by
    rw [Element.defects]
    split <;> omega
  grouped := .token _

theorem mono (h : PaidBy n e) (hle : n ≤ m) : PaidBy m e :=
  ⟨Nat.le_trans h.defects hle, h.grouped⟩

theorem all (h : PaidBy n e) : AllPaidBy n [e] where
  defects := h.defects
  grouped := List.forall_mem_singleton.mpr h.grouped

end PaidBy

namespace AllPaidBy

variable {n m : Nat} {es fs : List Element}

theorem nil : AllPaidBy n [] :=
  ⟨Nat.zero_le n, nofun⟩

theorem append (h : AllPaidBy n es) (h' : AllPaidBy m fs) : AllPaidBy (n + m) (es ++ fs) where
  defects := by
    rw [defectsOf_append]
    exact Nat.add_le_add h.defects h'.defects
  grouped := List.forall_mem_append.mpr ⟨h.grouped, h'.grouped⟩

theorem mono (h : AllPaidBy n es) (hle : n ≤ m) : AllPaidBy m es :=
  ⟨Nat.le_trans h.defects hle, h.grouped⟩

/-- What pays for the children pays for the node. -/
theorem node {kind : Kind} (h : AllPaidBy n es) (hgrouped : Grouped kind es)
    (hkind : kind ≠ .skippedTokens) : PaidBy n (.node kind es) where
  defects := by
    rw [Element.defects, if_neg hkind, Nat.zero_add]
    exact h.defects
  grouped := .node hgrouped h.grouped

theorem plain {kind : Kind} (h : AllPaidBy n es) (hkind : kind.isPlain) :
    PaidBy n (.node kind es) :=
  h.node (.of_isPlain hkind es) fun heq => by simp [Kind.isPlain, heq] at hkind

/-- One problem more pays for setting tokens aside. -/
theorem skipped (h : AllPaidBy n es) : PaidBy (1 + n) (.node .skippedTokens es) where
  defects := Nat.add_le_add_left h.defects 1
  grouped := .node trivial h.grouped

end AllPaidBy

namespace PaidBy

variable {n m : Nat} {e : Element} {es : List Element}

theorem cons (h : PaidBy n e) (h' : AllPaidBy m es) : AllPaidBy (n + m) (e :: es) :=
  h.all.append h'

/-- Nothing is to pay for a token that was taken. -/
theorem free (h : PaidBy 0 e) (h' : AllPaidBy m es) : AllPaidBy m (e :: es) := by
  rw [← Nat.zero_add m]
  exact h.cons h'

end PaidBy

end Element

/-! ## Where problems are found -/

/-- Going on from what is ahead at first to what is ahead at last, the problems are found one
after the other, each at the token ahead just then. -/
inductive FoundAlong : List Lexeme → List Problem → List Lexeme → Prop where
  | done (ahead : List Lexeme) : FoundAlong ahead [] ahead
  | passed (l : Lexeme) {rest last : List Lexeme} {problems : List Problem} :
      FoundAlong rest problems last → FoundAlong (l :: rest) problems last
  | found (complaint : Complaint) {ahead last : List Lexeme} {problems : List Problem} :
      FoundAlong ahead problems last → FoundAlong ahead (⟨ahead.head?, complaint⟩ :: problems) last

namespace FoundAlong

variable {ahead rest last : List Lexeme} {problems others : List Problem}

theorem append (h : FoundAlong ahead problems rest) (h' : FoundAlong rest others last) :
    FoundAlong ahead (problems ++ others) last := by
  induction h with
  | done => exact h'
  | passed l _ ih => exact .passed l (ih h')
  | found complaint _ ih => exact .found complaint (ih h')

theorem suffix (h : FoundAlong ahead problems rest) : rest <:+ ahead := by
  induction h with
  | done ahead => exact List.suffix_refl ahead
  | passed l _ ih => exact ih.trans (List.suffix_cons l _)
  | found _ _ ih => exact ih

end FoundAlong

/-! ## Productions -/

namespace Production

variable {α β : Type}

/-- From `ahead` the production finds its problems along the way, and `A` holds of their number
and of the value. -/
def ReportsAt (ahead : List Lexeme) (A : Nat → α → Prop) (p : Production α) : Prop :=
  (∀ l ∈ ahead, l.text ≠ "") →
    FoundAlong ahead (p ahead).problems (p ahead).rest ∧ A (p ahead).problems.length (p ahead).value

/-- The production finds its problems along the way, and `A` holds of their number and of the
value. -/
def Reports (A : Nat → α → Prop) (p : Production α) : Prop :=
  ∀ ahead, ReportsAt ahead A p

namespace Reports

variable {A : Nat → α → Prop} {B : Nat → β → Prop} {p : Production α} {f : α → Production β}

theorem pure {a : α} (h : A 0 a) : Reports A (Pure.pure a) :=
  fun ahead _ => ⟨.done ahead, h⟩

/-- What a production reports is followed by what the next one reports. -/
theorem bind (hp : Reports A p) (hf : ∀ n a, A n a → Reports (fun m b => B (n + m) b) (f a)) :
    Reports B (p >>= f) := by
  intro ahead htext
  obtain ⟨hfound, ha⟩ := hp ahead htext
  have htext' : ∀ l ∈ (p ahead).rest, l.text ≠ "" := fun l hl => htext l (hfound.suffix.subset hl)
  obtain ⟨hfound', hb⟩ := hf _ _ ha (p ahead).rest htext'
  refine ⟨hfound.append hfound', ?_⟩
  rw [← List.length_append] at hb
  exact hb

theorem imp {A' : Nat → α → Prop} (hp : Reports A p) (h : ∀ n a, A n a → A' n a) : Reports A' p :=
  fun ahead htext => ⟨(hp ahead htext).1, h _ _ (hp ahead htext).2⟩

/-- Nothing was reported before. -/
theorem of_zero_add (hp : Reports (fun n a => A (0 + n) a) p) : Reports A p :=
  hp.imp fun n a ha => by rwa [Nat.zero_add] at ha

/-- An element on its own. -/
theorem all {p : Production Element} (hp : Reports Element.PaidBy p) :
    Reports Element.AllPaidBy (do return [← p]) :=
  hp.bind fun _ _ h => .pure h.all

theorem complain (c : Complaint) : Reports (fun n _ => n = 1) (complain c) :=
  fun ahead _ => ⟨.found c (.done ahead), rfl⟩

theorem complainFound (c : Kind → Complaint) : Reports (fun n _ => n = 1) (complainFound c) :=
  fun ahead _ => ⟨.found (c (kindAt 0 ahead)) (.done ahead), rfl⟩

/-- Goes on behind a step that complains once. -/
theorem then_of_one (hp : Reports (fun n _ => n = 1) p)
    (hf : ∀ a, Reports (fun m b => B (1 + m) b) (f a)) : Reports B (p >>= f) :=
  hp.bind fun n a hn => by
    subst hn
    exact hf a

/-- Goes on with what is ahead. -/
theorem look_bind {f : List Lexeme → Production β} (h : ∀ ahead, Reports B (f ahead)) :
    Reports B (Production.look >>= f) :=
  fun ahead => h ahead ahead

/-- Goes on with the kind of what is ahead. -/
theorem lookKind_bind {f : Kind → Production β} (h : ∀ kind, Reports B (f kind)) :
    Reports B (Production.lookKind >>= f) :=
  fun ahead => h (kindAt 0 ahead) ahead

theorem progress (hp : Reports A p) : Reports (fun n r => A n r.1) (progress p) :=
  hp

end Reports

/-- If there is an element, it is a token with text, of a kind as `P` says. Nothing was reported. -/
def TakenFree (P : Kind → Prop) (n : Nat) (taken? : Option Element) : Prop :=
  n = 0 ∧ ∀ e ∈ taken?, ∃ t : Token, e = .token t ∧ P t.kind ∧ t.text ≠ ""

/-- A token that is there owes nothing. -/
theorem reports_takeAs? {choose : List Lexeme → Option Kind} {P : Kind → Prop}
    (h : ∀ ahead kind, choose ahead = some kind → P kind) :
    Reports (TakenFree P) (takeAs? choose) := by
  intro ahead htext
  unfold takeAs?
  split
  next l rest kind hchoose =>
    refine ⟨.passed l (.done rest), rfl, fun e he => ⟨{ l.token with kind }, ?_, h _ _ hchoose, ?_⟩⟩
    · exact (Option.some.inj he).symm
    · exact htext l List.mem_cons_self
  next => exact ⟨.done _, rfl, nofun⟩

theorem reports_takeIf? (wanted : Kind → Bool) :
    Reports (TakenFree fun kind => wanted kind = true) (takeIf? wanted) := by
  refine reports_takeAs? fun ahead kind h => ?_
  split at h
  next hwanted => exact Option.some.inj h ▸ hwanted
  next => exact absurd h nofun

theorem reports_take? (kind : Kind) : Reports (TakenFree (· = kind)) (take? kind) := by
  refine (reports_takeIf? (· == kind)).imp fun n taken? h => ⟨h.1, fun e he => ?_⟩
  obtain ⟨t, rfl, hkind, htext⟩ := h.2 e he
  exact ⟨t, rfl, beq_iff_eq.mp hkind, htext⟩

/-- Goes on behind a step that may take a token. -/
theorem Reports.taking {P : Kind → Prop} {B : Nat → β → Prop} {p : Production (Option Element)}
    {f : Option Element → Production β} (hp : Reports (TakenFree P) p)
    (hsome : ∀ e, P e.kind → e.PaidBy 0 → Reports B (f (some e))) (hnone : Reports B (f none)) :
    Reports B (p >>= f) := by
  refine hp.bind fun n taken? h => ?_
  obtain ⟨rfl, htaken⟩ := h
  simp only [Nat.zero_add]
  cases taken? with
  | none => exact hnone
  | some e =>
    obtain ⟨t, rfl, hkind, htext⟩ := htaken e rfl
    exact hsome _ hkind (.taken htext)

theorem reports_expect (kind : Kind) : Reports Element.PaidBy (expect kind) :=
  (reports_take? kind).taking (fun _ _ he => .pure he)
    (.then_of_one (.complainFound _) fun _ => .pure (.missing kind))

/-- The complaint pays for the token set aside. -/
theorem reports_skip (complaint : Kind → Complaint) :
    Reports Element.AllPaidBy (skip complaint) := by
  refine .then_of_one (.complainFound _) fun _ =>
    (reports_takeIf? _).taking (fun _ _ he => .pure ?_) (.pure .nil)
  exact he.all.skipped.all

/-- Another step was made, or none and nothing was reported. -/
def GoesOn (A : Nat → α → Prop) (n m : Nat) : Option α → Prop
  | some a => A (n + m) a
  | none => m = 0

theorem GoesOn.of {A : Nat → α → Prop} {n m : Nat} {a : α} (h : A (n + m) a) :
    GoesOn A n m (some a) :=
  h

/-- A repeated step keeps what holds of the value so far and of the number of problems. -/
theorem Reports.iterate {A : Nat → α → Prop} {step : α → Production (Option α)}
    (hstep : ∀ n a, A n a → Reports (GoesOn A n) (step a)) {n : Nat} {a : α} (ha : A n a) :
    Reports (fun m a => A (n + m) a) (iterate step a) := by
  intro ahead
  induction hlength : ahead.length using Nat.strongRecOn generalizing ahead a n with
  | ind length ih =>
    intro htext
    obtain ⟨hfound, hvalue⟩ := hstep n a ha ahead htext
    rw [Production.iterate]
    generalize step a ahead = first at hfound hvalue ⊢
    obtain ⟨value, rest, problems⟩ := first
    dsimp only at hfound hvalue ⊢
    cases value with
    | none =>
      have hnone : problems.length = 0 := hvalue
      exact ⟨hfound, by simpa [hnone] using ha⟩
    | some next =>
      dsimp only
      split
      next hlt =>
        have htext' : ∀ l ∈ rest, l.text ≠ "" := fun l hl => htext l (hfound.suffix.subset hl)
        obtain ⟨hothers, hlast⟩ := ih _ (by omega) hvalue rest rfl htext'
        refine ⟨hfound.append hothers, ?_⟩
        rwa [List.length_append, ← Nat.add_assoc]
      next => exact ⟨hfound, hvalue⟩

theorem reports_itemsBefore (stop : Kind → Bool) {item : Production (List Element)}
    (hitem : Reports Element.AllPaidBy item) :
    Reports Element.AllPaidBy (itemsBefore stop item) := by
  refine .of_zero_add
    (Reports.iterate (A := Element.AllPaidBy) (fun n items hitems ahead htext => ?_) .nil)
  split
  next => exact ⟨.done ahead, rfl⟩
  next =>
    obtain ⟨hfound, hnext⟩ := hitem ahead htext
    exact ⟨hfound, hitems.append hnext⟩

theorem reports_separated {item : Production Element} (hitem : Reports Element.PaidBy item) :
    Reports Element.AllPaidBy (separated item) := by
  refine hitem.bind fun n first hfirst => Reports.iterate (A := Element.AllPaidBy)
    (fun n items hitems => ?_) hfirst.all
  refine (reports_take? _).taking (fun comma _ hcomma => ?_) (.pure rfl)
  refine hitem.bind fun m last hlast => .pure (.of ?_)
  exact hitems.append (hcomma.free hlast.all)

end Production

end AutoProperty
