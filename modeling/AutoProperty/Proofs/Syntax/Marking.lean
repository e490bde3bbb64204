import AutoProperty.Proofs.Syntax.Alike
import AutoProperty.Proofs.Syntax.Respelling
import AutoProperty.Proofs.Syntax.Rewording
import AutoProperty.Proofs.Syntax.WholeText
import AutoProperty.Syntax.Elastic

/-! # Marked tokens

To follow single tokens of a text through parsing, they are given a mark that has no text. The
tree of the marked tokens yields both trees: the one of the text when the marks are taken away,
and the one of the respelled text when each marked token gets its new text instead.
-/

namespace AutoProperty

namespace Token

def mark (t : Token) : Token :=
  t.prepend [.elastic]

def plain (t : Token) : Token :=
  { t with leading := t.leading.filter (!·.isElastic) }

/-- The token without marks, and with `name` for its text if it had one. -/
def reworded (name : String) (t : Token) : Token :=
  if t.leading.any Trivia.isElastic then { t.plain with text := name } else t.plain

theorem plain_of_unmarked {t : Token} (h : Unmarked t.leading) : t.plain = t := by
  have hfilter : t.leading.filter (!·.isElastic) = t.leading :=
    List.filter_eq_self.mpr fun piece hpiece => by rw [h piece hpiece]; rfl
  rw [plain, hfilter]

theorem plain_mark (t : Token) : t.mark.plain = t.plain := rfl

theorem unmarked_plain (t : Token) : Unmarked t.plain.leading := fun piece hpiece => by
  have := (List.mem_filter.mp hpiece).2
  simpa using this

theorem reworded_mark (name : String) (t : Token) :
    t.mark.reworded name = { t.plain with text := name } := by
  rw [reworded, if_pos (by simp [mark, prepend, Trivia.elastic, Trivia.isElastic]), plain_mark]

theorem reworded_of_unmarked {t : Token} (name : String) (h : Unmarked t.leading) :
    t.reworded name = t := by
  have hany : ¬t.leading.any Trivia.isElastic := by
    simp only [List.any_eq_true, not_exists, not_and]
    exact fun piece hpiece => by simp [h piece hpiece]
  rw [reworded, if_neg hany, plain_of_unmarked h]

theorem keepsKinds_plain : KeepsKinds plain :=
  ⟨fun _ _ => rfl, fun _ => rfl⟩

theorem keepsKinds_reworded (name : String) : KeepsKinds (reworded name) where
  retag t kind := by
    simp only [reworded, plain]
    split <;> rfl
  missing _ := rfl

end Token

namespace PlacedToken

def marked (spans : List Span) (leaf : PlacedToken) : Token :=
  if spans.contains leaf.span then leaf.token.mark else leaf.token

variable {spans : List Span} {leaf : PlacedToken}

theorem plain_marked (h : Unmarked leaf.token.leading) :
    (leaf.marked spans).plain = leaf.token := by
  rw [marked]
  split
  next => rw [Token.plain_mark, Token.plain_of_unmarked h]
  next => exact Token.plain_of_unmarked h

theorem reworded_marked (name : String) (h : Unmarked leaf.token.leading) :
    (leaf.marked spans).reworded name = leaf.respelled spans name := by
  rw [marked, respelled]
  split
  next => rw [Token.reworded_mark, Token.plain_of_unmarked h]
  next => exact Token.reworded_of_unmarked name h

theorem kind_marked (spans : List Span) (leaf : PlacedToken) :
    (leaf.marked spans).kind = leaf.token.kind := by
  rw [marked]
  split <;> rfl

/-- Neither the number nor the kind of a token decides about its mark. -/
theorem marked_retag (spans : List Span) (i j o : Nat) (t : Token) (kind : Kind) :
    (PlacedToken.mk i o { t with kind }).marked spans =
      { (PlacedToken.mk j o t).marked spans with kind } := by
  have hspan : (PlacedToken.mk i o { t with kind }).span = (PlacedToken.mk j o t).span := rfl
  rw [marked, marked, hspan]
  split <;> rfl

end PlacedToken

/-! ## Marks and places -/

theorem Follows.placeTokens (f : Token → Token) (o o' : Nat) (ts : List Token) :
    Follows f (placeTokens o ts) (placeTokens o' (ts.map f)) := by
  induction ts generalizing o o' with
  | nil => exact .nil
  | cons t ts ih => exact .cons rfl (ih _ _)

/-- Changing the tokens of a text changes what its elements spell. -/
theorem Spells.map {f : Token → Token} (hf : KeepsKinds f) {ts : List Token} {ls ls' : List Lexeme}
    (h : Spells ts ls) (hls : Follows f ls ls') : Spells (ts.map f) ls' := by
  induction h generalizing ls' with
  | nil =>
    cases hls
    exact .nil
  | missing kind hkind _ ih =>
    rw [List.map_cons, hf.missing]
    exact .missing kind hkind (ih hls)
  | taken ht _ ih =>
    cases hls with
    | cons hl hls =>
      obtain ⟨kind, rfl, hkind⟩ := ht
      refine .taken ⟨kind, ?_, ?_⟩ (ih hls)
      · rw [hf.retag, hl]
      · simpa [Lexeme.kind, hl, hf.kind] using hkind

def NoneEmpty (spans : List Span) : Prop :=
  ∀ span ∈ spans, span.start < span.stop

/-- The tokens made of marked ones have their marks where the spans are. -/
theorem Spells.marked {spans : List Span} (hspans : NoneEmpty spans) {o j : Nat}
    {us ts : List Token} {ls : List Lexeme} (h : Spells ts ls) (hus : ∀ t ∈ us, Unmarked t.leading)
    (hls : ls.map Lexeme.token = (leavesFrom j o us).map (·.marked spans)) (i : Nat) :
    ts = (leavesFrom i o (ts.map Token.plain)).map (·.marked spans) := by
  induction h generalizing i j o us with
  | nil => rfl
  | @missing kind ts ls _ _ ih =>
    have hmarked : (PlacedToken.mk i o (.missing kind)).marked spans = .missing kind := by
      rw [PlacedToken.marked, if_neg]
      intro hmem
      have := hspans _ (List.contains_iff_mem.mp hmem)
      simp [PlacedToken.span, Span.ofLength, Token.textLength, Token.missing, Token.bare] at this
    rw [List.map_cons, Token.keepsKinds_plain.missing, leavesFrom, List.map_cons, hmarked]
    have hlength : o + (Token.missing kind).fullLength = o := by
      simp [Token.fullLength, Token.fullText, Token.missing, Token.bare, triviaText]
    rw [hlength, ← ih hus hls (i + 1)]
  | @taken t l ts ls ht _ ih =>
    cases us with
    | nil => cases hls
    | cons u us =>
      obtain ⟨hl, hls⟩ := List.cons.inj hls
      obtain ⟨kind, rfl, _⟩ := ht
      have hu := hus u List.mem_cons_self
      have hplain : Token.plain { l.token with kind } = { u with kind } := by
        rw [Token.keepsKinds_plain.retag, hl, PlacedToken.plain_marked hu]
      have hhead : (PlacedToken.mk i o { u with kind }).marked spans = { l.token with kind } := by
        rw [hl]
        exact PlacedToken.marked_retag spans i j o u kind
      rw [List.map_cons, hplain, leavesFrom, List.map_cons, hhead]
      exact congrArg (_ :: ·) (ih (fun t ht => hus t (List.mem_cons_of_mem u ht)) hls (i + 1))

/-! ## Twins -/

/-- The same token again, with `name` for its text if it stands at one of the spans. -/
def PlacedToken.Twin (spans : List Span) (name : String) (leaf leaf' : PlacedToken) : Prop :=
  leaf'.index = leaf.index ∧ leaf'.token = leaf.respelled spans name

/-- The same elements again, where the tokens at the spans have `name` for their text. -/
abbrev Placed.Twin (spans : List Span) (name : String) : Placed → Placed → Prop :=
  Placed.Alike (PlacedToken.Twin spans name) Eq

abbrev Placed.Twins (spans : List Span) (name : String) : List Placed → List Placed → Prop :=
  Placed.Alikes (PlacedToken.Twin spans name) Eq

namespace Element

variable {spans : List Span}

/-- The element's marks are where the spans are, if it is placed without them at the cursor. -/
def MarkedAt (spans : List Span) (c : Cursor) (ts : List Token) : Prop :=
  ts = (leavesFrom c.token c.offset (ts.map Token.plain)).map (·.marked spans)

/-- Marks in two lists side by side are marks in each of them. -/
theorem MarkedAt.append {c c' : Cursor} {ts us : List Token} (h : MarkedAt spans c (ts ++ us))
    (htoken : c'.token = c.token + ts.length)
    (hoffset : c'.offset = c.offset + byteLength (tokensText (ts.map Token.plain))) :
    MarkedAt spans c ts ∧ MarkedAt spans c' us := by
  rw [MarkedAt, List.map_append, leavesFrom_append, List.map_append] at h
  have hlength : ts.length = ((leavesFrom c.token c.offset (ts.map Token.plain)).map
      (·.marked spans)).length := by simp [length_leavesFrom]
  obtain ⟨hleft, hright⟩ := List.append_inj h hlength
  refine ⟨hleft, ?_⟩
  rw [MarkedAt, htoken, hoffset]
  rw [List.length_map] at hright
  exact hright

mutual

theorem tokens_map (f : Token → Token) (e : Element) : (e.map f).tokens = e.tokens.map f := by
  cases e with
  | token t => simp [tokens]
  | node kind children => simpa [tokens] using tokensOf_mapAll f children

theorem tokensOf_mapAll (f : Token → Token) (es : List Element) :
    tokensOf (mapAll f es) = (tokensOf es).map f := by
  cases es with
  | nil => simp [tokensOf]
  | cons e es => simp [tokensOf, tokens_map f e, tokensOf_mapAll f es]

end

mutual

/-- Placed without marks and placed respelled, a marked element yields twins. -/
theorem twin_place (name : String) {c c' : Cursor} (hnode : c'.node = c.node)
    (htoken : c'.token = c.token) (e : Element) (h : MarkedAt spans c e.tokens) :
    Placed.Twin spans name ((e.map Token.plain).place c).1
      ((e.map (Token.reworded name)).place c').1 ∧ ((e.map (Token.reworded name)).place c').2.node =
        ((e.map Token.plain).place c).2.node ∧ ((e.map (Token.reworded name)).place c').2.token =
          ((e.map Token.plain).place c).2.token := by
  cases e with
  | token t =>
    refine ⟨?_, hnode, congrArg (· + 1) htoken⟩
    rw [map_token, map_token]
    refine .token ⟨htoken, ?_⟩
    have hmarked : t = (PlacedToken.mk c.token c.offset t.plain).marked spans := by
      simpa [MarkedAt, tokens, leavesFrom] using h
    show t.reworded name = _
    rw [← PlacedToken.reworded_marked name (Token.unmarked_plain t), ← hmarked]
  | node kind children =>
    obtain ⟨htwins, hnode', htoken'⟩ := @twins_placeAll name { c with node := c.node + 1 }
      { c' with node := c'.node + 1 } (congrArg (· + 1) hnode) htoken children h
    rw [map_node, map_node]
    exact ⟨.node hnode.symm rfl htwins, hnode', htoken'⟩

/-- Placing elements with and without new texts gives twins. -/
theorem twins_placeAll (name : String) {c c' : Cursor} (hnode : c'.node = c.node)
    (htoken : c'.token = c.token) (es : List Element) (h : MarkedAt spans c (tokensOf es)) :
    Placed.Twins spans name (placeAll c (mapAll Token.plain es)).1
        (placeAll c' (mapAll (Token.reworded name) es)).1 ∧
      (placeAll c' (mapAll (Token.reworded name) es)).2.node =
        (placeAll c (mapAll Token.plain es)).2.node ∧
      (placeAll c' (mapAll (Token.reworded name) es)).2.token =
        (placeAll c (mapAll Token.plain es)).2.token := by
  cases es with
  | nil =>
    rw [mapAll_nil, mapAll_nil]
    exact ⟨.nil, hnode, htoken⟩
  | cons e es =>
    obtain ⟨_, htokens, hoffset⟩ := tokens_place c (e.map Token.plain)
    rw [tokens_map] at htokens hoffset
    rw [List.length_map] at htokens
    obtain ⟨hfirst, hothers⟩ := MarkedAt.append h htokens hoffset
    obtain ⟨htwin, hnode', htoken'⟩ := twin_place name hnode htoken e hfirst
    obtain ⟨htwins, hnode'', htoken''⟩ := twins_placeAll name hnode' htoken' es hothers
    rw [mapAll_cons, mapAll_cons]
    exact ⟨.cons htwin htwins, hnode'', htoken''⟩

end

end Element

end AutoProperty
