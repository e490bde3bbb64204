import AutoProperty.Proofs.Syntax.Grammar

/-! # Reading tokens with other texts

Most productions look at the kinds of tokens only. If every token ahead is changed in a way that
keeps its kind, such a production makes the same of them as before, changed in the same way.
-/

namespace AutoProperty

/-- A change of tokens that no production notices by their kinds. -/
structure KeepsKinds (f : Token → Token) : Prop where
  retag : ∀ (t : Token) (kind : Kind), f { t with kind } = { f t with kind }
  missing : ∀ kind : Kind, f (.missing kind) = .missing kind

theorem KeepsKinds.kind {f : Token → Token} (h : KeepsKinds f) (t : Token) :
    (f t).kind = t.kind := by
  have := congrArg Token.kind (h.retag t t.kind)
  exact this

namespace Element

mutual

def map (f : Token → Token) : Element → Element
  | token t => token (f t)
  | node kind children => node kind (mapAll f children)

def mapAll (f : Token → Token) : List Element → List Element
  | [] => []
  | e :: es => e.map f :: mapAll f es

end

theorem mapAll_eq_map (f : Token → Token) (es : List Element) : mapAll f es = es.map (map f) := by
  induction es with
  | nil => rfl
  | cons e es ih => rw [mapAll, ih, List.map_cons]

@[simp]
theorem mapAll_nil (f : Token → Token) : mapAll f [] = [] := by
  rw [mapAll]

@[simp]
theorem mapAll_cons (f : Token → Token) (e : Element) (es : List Element) :
    mapAll f (e :: es) = e.map f :: mapAll f es := by
  rw [mapAll]

@[simp]
theorem mapAll_append (f : Token → Token) (as bs : List Element) :
    mapAll f (as ++ bs) = mapAll f as ++ mapAll f bs := by
  simp only [mapAll_eq_map, List.map_append]

@[simp]
theorem map_token (f : Token → Token) (t : Token) : (token t).map f = token (f t) := by
  rw [map]

@[simp]
theorem map_node (f : Token → Token) (kind : Kind) (children : List Element) :
    (node kind children).map f = node kind (mapAll f children) := by
  rw [map]

theorem kind_map {f : Token → Token} (hf : KeepsKinds f) (e : Element) :
    (e.map f).kind = e.kind := by
  cases e with
  | token t => simp [hf.kind]
  | node => simp

theorem isEmpty_mapAll (f : Token → Token) (es : List Element) :
    (mapAll f es).isEmpty = es.isEmpty := by
  cases es <;> simp

end Element

/-- The second tokens are the first ones, changed. -/
inductive Follows (f : Token → Token) : List Lexeme → List Lexeme → Prop where
  | nil : Follows f [] []
  | cons {l l' : Lexeme} {ls ls' : List Lexeme} : l'.token = f l.token → Follows f ls ls' →
      Follows f (l :: ls) (l' :: ls')

namespace Follows

variable {f : Token → Token} {ls ls' : List Lexeme}

theorem length_eq (h : Follows f ls ls') : ls'.length = ls.length := by
  induction h with
  | nil => rfl
  | cons _ _ ih => simp [ih]

theorem isEmpty_eq (h : Follows f ls ls') : ls'.isEmpty = ls.isEmpty := by
  cases h <;> rfl

theorem kindAt_eq (hf : KeepsKinds f) (h : Follows f ls ls') (n : Nat) :
    Production.kindAt n ls' = Production.kindAt n ls := by
  induction h generalizing n with
  | nil => rfl
  | cons hl _ ih =>
    cases n with
    | zero => simp [Production.kindAt, Lexeme.kind, hl, hf.kind]
    | succ n => simpa [Production.kindAt] using ih n

end Follows

namespace Production

variable {α β : Type} {f : Token → Token}

/-- From tokens and from the same tokens changed, the productions make the same up to the change,
take as many tokens and complain about the same. `m` changes what is made. -/
def Commutes (f : Token → Token) (m : α → α) (p p' : Production α) : Prop :=
  ∀ ahead ahead', Follows f ahead ahead' →
    (p' ahead').value = m (p ahead).value ∧ Follows f (p ahead).rest (p' ahead').rest ∧
      (p' ahead').problems.map Problem.complaint = (p ahead).problems.map Problem.complaint

namespace Commutes

theorem pure {m : α → α} {a a' : α} (h : a' = m a) : Commutes f m (Pure.pure a) (Pure.pure a') :=
  fun _ _ hahead => ⟨h, hahead, rfl⟩

/-- Productions that commute one after another commute together. -/
theorem bind {m : α → α} {n : β → β} {p p' : Production α} {k k' : α → Production β}
    (hp : Commutes f m p p') (hk : ∀ a, Commutes f n (k a) (k' (m a))) :
    Commutes f n (p >>= k) (p' >>= k') := by
  intro ahead ahead' hahead
  obtain ⟨hvalue, hrest, hproblems⟩ := hp ahead ahead' hahead
  obtain ⟨hvalue', hrest', hproblems'⟩ := hk (p ahead).value _ _ hrest
  rw [← hvalue] at hvalue' hrest' hproblems'
  refine ⟨hvalue', hrest', ?_⟩
  show List.map _ (_ ++ _) = List.map _ (_ ++ _)
  rw [List.map_append, List.map_append, hproblems, hproblems']

theorem lookKind (hf : KeepsKinds f) : Commutes f id lookKind lookKind :=
  fun _ _ hahead => ⟨hahead.kindAt_eq hf 0, hahead, rfl⟩

/-- Goes on with what is ahead. -/
theorem look_bind {n : β → β} {k k' : List Lexeme → Production β}
    (hk : ∀ ahead ahead', Follows f ahead ahead' → Commutes f n (k ahead) (k' ahead')) :
    Commutes f n (Production.look >>= k) (Production.look >>= k') :=
  fun ahead ahead' hahead => hk ahead ahead' hahead ahead ahead' hahead

theorem complain (c : Complaint) : Commutes f id (complain c) (complain c) :=
  fun _ _ hahead => ⟨rfl, hahead, rfl⟩

theorem complainFound (hf : KeepsKinds f) (c : Kind → Complaint) :
    Commutes f id (complainFound c) (complainFound c) :=
  fun _ _ hahead =>
    ⟨rfl, hahead, by simp [Production.complainFound, Production.complain, hahead.kindAt_eq hf]⟩

theorem ite {m : α → α} {c c' : Bool} {p p' q q' : Production α} (hc : c' = c)
    (hp : c → Commutes f m p p') (hq : ¬c → Commutes f m q q') :
    Commutes f m (if c then p else q) (if c' then p' else q') := by
  subst hc
  split
  next h => exact hp h
  next h => exact hq h

/-- Changing tokens before or after one is taken makes no difference. -/
theorem takeAs? (hf : KeepsKinds f) {choose choose' : List Lexeme → Option Kind}
    (hchoose : ∀ ahead ahead', Follows f ahead ahead' → choose' ahead' = choose ahead) :
    Commutes f (Option.map (Element.map f)) (takeAs? choose) (takeAs? choose') := by
  intro ahead ahead' hahead
  have heq := hchoose ahead ahead' hahead
  cases hahead with
  | nil => exact ⟨rfl, .nil, rfl⟩
  | @cons l l' ls ls' hl hrest =>
    cases hkind : choose (l :: ls) with
    | none =>
      simp only [Production.takeAs?, heq, hkind]
      exact ⟨rfl, .cons hl hrest, trivial⟩
    | some kind =>
      simp only [Production.takeAs?, heq, hkind]
      refine ⟨?_, hrest, trivial⟩
      rw [Option.map_some, Element.map_token, hf.retag, hl]

theorem takeIf? (hf : KeepsKinds f) (wanted : Kind → Bool) :
    Commutes f (Option.map (Element.map f)) (takeIf? wanted) (takeIf? wanted) :=
  takeAs? hf fun _ _ hahead => by rw [hahead.kindAt_eq hf]

theorem take? (hf : KeepsKinds f) (kind : Kind) :
    Commutes f (Option.map (Element.map f)) (take? kind) (take? kind) :=
  takeIf? hf _

/-- Goes on behind a step that may take a token. -/
theorem taking {n : β → β} {p p' : Production (Option Element)}
    {k k' : Option Element → Production β} (hp : Commutes f (Option.map (Element.map f)) p p')
    (hsome : ∀ e, Commutes f n (k (some e)) (k' (some (e.map f))))
    (hnone : Commutes f n (k none) (k' none)) : Commutes f n (p >>= k) (p' >>= k') :=
  hp.bind fun taken? => by
    cases taken? with
    | none => exact hnone
    | some e => exact hsome e

theorem expect (hf : KeepsKinds f) (kind : Kind) :
    Commutes f (Element.map f) (expect kind) (expect kind) :=
  (take? hf kind).taking (fun _ => .pure rfl) <| (complainFound hf _).bind fun _ => .pure <| by
    rw [Element.map_token, hf.missing]

theorem skip (hf : KeepsKinds f) (c : Kind → Complaint) :
    Commutes f (Element.mapAll f) (skip c) (skip c) :=
  (complainFound hf c).bind fun _ => (takeIf? hf _).taking (fun _ => .pure (by simp))
    (.pure (by simp))

theorem progress {m : α → α} {p p' : Production α} (hp : Commutes f m p p') :
    Commutes f (Prod.map m id) (progress p) (progress p') := by
  intro ahead ahead' hahead
  obtain ⟨hvalue, hrest, hproblems⟩ := hp ahead ahead' hahead
  refine ⟨?_, hrest, hproblems⟩
  simp [Production.progress, hvalue, hrest.length_eq, hahead.length_eq]

/-- A step that commutes may be repeated. -/
theorem iterate {m : α → α} {step step' : α → Production (Option α)}
    (hstep : ∀ a, Commutes f (Option.map m) (step a) (step' (m a))) (a : α) :
    Commutes f m (iterate step a) (iterate step' (m a)) := by
  intro ahead
  induction hn : ahead.length using Nat.strongRecOn generalizing ahead a with
  | ind n ih =>
    intro ahead' hahead
    obtain ⟨hvalue, hrest, hproblems⟩ := hstep a ahead ahead' hahead
    have hlength := hahead.length_eq
    rw [Production.iterate, Production.iterate]
    generalize step a ahead = first at hvalue hrest hproblems ⊢
    generalize step' (m a) ahead' = first' at hvalue hrest hproblems ⊢
    obtain ⟨value, rest, problems⟩ := first
    obtain ⟨value', rest', problems'⟩ := first'
    dsimp only at hvalue hrest hproblems ⊢
    subst hvalue
    cases value with
    | none => exact ⟨rfl, hrest, hproblems⟩
    | some next =>
      dsimp only [Option.map_some]
      rw [hrest.length_eq, hlength]
      split
      next hlt =>
        obtain ⟨hvalue, hrest, hproblems'⟩ := ih _ (by omega) next rest rfl rest' hrest
        refine ⟨hvalue, hrest, ?_⟩
        rw [List.map_append, List.map_append, hproblems, hproblems']
      next => exact ⟨rfl, hrest, hproblems⟩

/-- Items that commute are read alike, as only the kinds of tokens stop them. -/
theorem itemsBefore (hf : KeepsKinds f) (stop : Kind → Bool)
    {item item' : Production (List Element)} (hitem : Commutes f (Element.mapAll f) item item') :
    Commutes f (Element.mapAll f) (itemsBefore stop item) (itemsBefore stop item') := by
  refine iterate (m := Element.mapAll f) (fun items ahead ahead' hahead => ?_) []
  rw [hahead.isEmpty_eq, hahead.kindAt_eq hf]
  split
  next => exact ⟨rfl, hahead, rfl⟩
  next =>
    obtain ⟨hvalue, hrest, hproblems⟩ := hitem ahead ahead' hahead
    exact ⟨by simp [hvalue], hrest, hproblems⟩

theorem separated (hf : KeepsKinds f) {item item' : Production Element}
    (hitem : Commutes f (Element.map f) item item') :
    Commutes f (Element.mapAll f) (separated item) (separated item') :=
  hitem.bind fun first => by
    refine iterate (m := Element.mapAll f) (fun items => ?_) [first]
    exact (take? hf _).taking (fun comma => hitem.bind fun e => .pure (by simp)) (.pure rfl)

end Commutes

end Production

end AutoProperty
