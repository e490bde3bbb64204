import AutoProperty.Syntax.Scanner
import AutoProperty.Syntax.Identifier

/-! # Scanned tokens

What is true of every token that is cut out of a text. Its kind is one for tokens, it has text
of its own, an identifier among them is a word that can be given to a symbol, and its trivia
bears no marks.
-/

namespace AutoProperty

def Unmarked (trivia : List Trivia) : Prop :=
  ∀ t ∈ trivia, t.isElastic = false

/-- The token could have been cut out of some text. -/
structure Token.IsScanned (t : Token) : Prop where
  core : ∃ c rest,
    (t.kind, t.text.toList) = ((Scanner.splitToken c rest).1, (Scanner.splitToken c rest).2.1)
  leading : Unmarked t.leading
  trailing : Unmarked t.trailing

/-- A word as the scanner takes one, and not a reserved one. -/
structure IsWord (name : List Char) : Prop where
  head : ∃ c cs, name = c :: cs ∧ Scanner.isWordStart c ∧ cs.all Scanner.isWordPart
  free : Kind.ofReservedWord? (String.ofList name) = none

theorem IsWord.ne_empty {name : String} (h : IsWord name.toList) : name ≠ "" := by
  rintro rfl
  obtain ⟨c, cs, hname, _⟩ := h.head
  cases hname

/-- A word has only characters of words. -/
theorem IsWord.notMem {name : List Char} (h : IsWord name) {c : Char}
    (hc : Scanner.isWordPart c = false) : c ∉ name := by
  obtain ⟨first, others, rfl, hstart, hall⟩ := h.head
  intro hmem
  have hpart : Scanner.isWordPart c := by
    obtain rfl | hmem := List.mem_cons.mp hmem
    · obtain hstart | hstart := Bool.or_eq_true_iff.mp hstart
      · simp [Scanner.isWordPart, Char.isAlphanum, hstart]
      · simp [Scanner.isWordPart, hstart]
    · exact List.all_eq_true.mp hall c hmem
  exact Bool.false_ne_true (hc.symm.trans hpart)

theorem CodeRanges.contains_of_mem {ranges : CodeRanges} {c : Char} {range : Nat × Nat}
    (h : range ∈ ranges) (hfirst : range.1 ≤ c.toNat) (hlast : c.toNat ≤ range.2) :
    ranges.contains c :=
  List.any_eq_true.mpr ⟨range, h, by simp [hfirst, hlast]⟩

/-- Letters of the scanner are letters. -/
theorem isAlphabetic_of_isAlpha {c : Char} (h : c.isAlpha) : isAlphabetic c := by
  have hupper : (0x41, 0x5A) ∈ letterCodes := List.mem_cons_self
  have hlower : (0x61, 0x7A) ∈ letterCodes := List.mem_cons_of_mem _ List.mem_cons_self
  suffices hletter : letterCodes.contains c by simp [isAlphabetic, isLetter, hletter]
  delta Char.isAlpha Char.isUpper Char.isLower at h
  simp only [Bool.or_eq_true, Bool.and_eq_true, decide_eq_true_eq] at h
  obtain ⟨hfirst, hlast⟩ | ⟨hfirst, hlast⟩ := h
  · exact CodeRanges.contains_of_mem hupper hfirst hlast
  · exact CodeRanges.contains_of_mem hlower hfirst hlast

theorem isNumeric_of_isDigit {c : Char} (h : c.isDigit) : isNumeric c := by
  have hdigit : (0x30, 0x39) ∈ decimalDigitCodes := List.mem_cons_self
  simp only [Char.isDigit, Bool.and_eq_true, decide_eq_true_eq] at h
  have := CodeRanges.contains_of_mem hdigit h.1 h.2
  simp [isNumeric, isDecimalDigit, this]

/-- What the scanner takes for a name can be given to a symbol. -/
theorem IsWord.isIdentifier {name : String} (h : IsWord name.toList) : isIdentifier name := by
  obtain ⟨⟨c, cs, hname, hstart, hparts⟩, hfree⟩ := h
  rw [String.ofList_toList] at hfree
  have hstart' {c : Char} (h : Scanner.isWordStart c) : isIdentifierStart c := by
    obtain h | h := Bool.or_eq_true_iff.mp h
    · simp [isIdentifierStart, isAlphabetic_of_isAlpha h]
    · simp [isIdentifierStart, h]
  have hpart {c : Char} (h : Scanner.isWordPart c) : isIdentifierPart c := by
    simp only [Scanner.isWordPart, Char.isAlphanum, Bool.or_eq_true] at h
    obtain (h | h) | h := h
    · simp [isIdentifierPart, isIdentifierStart, isAlphabetic_of_isAlpha h]
    · simp [isIdentifierPart, isNumeric_of_isDigit h]
    · simp [isIdentifierPart, isIdentifierStart, h]
  rw [AutoProperty.isIdentifier, hname]
  have hall : cs.all isIdentifierPart :=
    List.all_eq_true.mpr fun c hc => hpart (List.all_eq_true.mp hparts c hc)
  simp [hstart' hstart, hall, hfree]

namespace Scanner

theorem splitTrivia?_isElastic {directives : Bool} {cs text rest : List Char} {kind : TriviaKind}
    (h : splitTrivia? directives cs = some (kind, text, rest)) : kind ≠ .elastic := by
  rintro rfl
  revert h
  fun_cases splitTrivia? directives cs <;> simp

/-- Where directives are not allowed, none is taken. -/
theorem isDirective_splitTrivia? {cs text rest : List Char} {kind : TriviaKind} {shown : String}
    (h : splitTrivia? false cs = some (kind, text, rest)) :
    (Trivia.mk kind shown).isDirective = false := by
  have hkind : ∀ directive, kind ≠ .directive directive := by
    rintro directive rfl
    revert h
    fun_cases splitTrivia? false cs with
    | case5 _ _ _ _ _ _ hallowed => simp at hallowed
    | _ => simp
  unfold Trivia.isDirective
  split
  next directive heq => exact absurd heq (hkind directive)
  next => rfl

/-- The scanner marks no trivia as elastic. -/
theorem splitRun_unmarked (run : Run) (cs : List Char) : Unmarked (splitRun run cs).1 := by
  fun_induction splitRun run cs with
  | case1 => exact fun t ht => absurd ht List.not_mem_nil
  | case2 run cs kind text rest h piece _ =>
    intro t ht
    rw [List.mem_singleton.mp ht]
    simpa [Trivia.isElastic, piece] using splitTrivia?_isElastic h
  | case3 run cs kind text rest h piece next _ _ more rest' hsplit ih =>
    rw [hsplit] at ih
    intro t ht
    obtain rfl | ht := List.mem_cons.mp ht
    · simpa [Trivia.isElastic, piece] using splitTrivia?_isElastic h
    · exact ih t ht

/-- No directive stands behind a token on its line. -/
theorem isDirective_splitRun_trailing (cs : List Char) :
    ∀ t ∈ (splitRun .trailing cs).1, t.isDirective = false := by
  generalize hrun : Run.trailing = run
  fun_induction splitRun run cs with
  | case1 => exact fun t ht => absurd ht List.not_mem_nil
  | case2 run cs kind text rest h piece _ =>
    intro t ht
    rw [List.mem_singleton.mp ht]
    exact isDirective_splitTrivia? (hrun ▸ h)
  | case3 run cs kind text rest h piece next hnext _ more rest' hsplit ih =>
    subst hrun
    have htrailing : Run.trailing = next := by
      change (if kind == .endOfLine then none else some Run.trailing) = some next at hnext
      split at hnext
      next => cases hnext
      next => exact Option.some.inj hnext
    rw [hsplit] at ih
    intro t ht
    obtain rfl | ht := List.mem_cons.mp ht
    · exact isDirective_splitTrivia? h
    · exact ih htrailing t ht

theorem isToken_ofReservedWord? {word : String} {kind : Kind}
    (h : Kind.ofReservedWord? word = some kind) : kind.isToken ∧ kind ≠ .identifierToken := by
  have hall : ∀ kind ∈ Kind.reserved, kind.isToken ∧ kind ≠ .identifierToken := by decide
  exact hall kind (List.mem_of_find?_eq_some h)

theorem isToken_pairKind? {c d : Char} {kind : Kind} (h : pairKind? c d = some kind) :
    kind.isToken ∧ kind ≠ .identifierToken := by
  unfold pairKind? at h
  split at h <;> cases h <;> decide

theorem isToken_singleKind (c : Char) :
    (singleKind c).isToken ∧ singleKind c ≠ .identifierToken := by
  unfold singleKind
  split <;> decide

theorem isToken_splitPunctuation (c : Char) (rest : List Char) :
    (splitPunctuation c rest).1.isToken ∧ (splitPunctuation c rest).1 ≠ .identifierToken := by
  fun_cases splitPunctuation c rest with
  | case1 => exact isToken_singleKind c
  | case2 d rest kind h => exact isToken_pairKind? h
  | case3 => exact isToken_singleKind c

/-- The kind of a token that was cut off is one for tokens. -/
theorem isToken_splitToken (c : Char) (rest : List Char) : (splitToken c rest).1.isToken := by
  unfold splitToken
  split
  next =>
    show ((Kind.ofReservedWord? _).getD .identifierToken).isToken
    cases h : Kind.ofReservedWord? _ with
    | none => rfl
    | some kind => exact (isToken_ofReservedWord? h).1
  split
  next => rfl
  split
  next => rfl
  split
  next => rfl
  next => exact (isToken_splitPunctuation c rest).1

/-- An identifier is a word that is not reserved. -/
theorem isWord_splitToken {c : Char} {rest : List Char}
    (h : (splitToken c rest).1 = .identifierToken) : IsWord (splitToken c rest).2.1 := by
  unfold splitToken at h ⊢
  split at h
  next hstart =>
    rw [if_pos hstart]
    refine ⟨⟨c, _, rfl, hstart, ?_⟩, ?_⟩
    · exact List.all_takeWhile
    · change (Kind.ofReservedWord? _).getD .identifierToken = _ at h
      show Kind.ofReservedWord? _ = none
      cases hword : Kind.ofReservedWord? _ with
      | none => rfl
      | some kind =>
        rw [hword] at h
        exact absurd h (isToken_ofReservedWord? hword).2
  next =>
    split at h
    next => exact absurd h nofun
    split at h
    next => exact absurd h nofun
    split at h
    next => exact absurd h nofun
    next => exact absurd h (isToken_splitPunctuation c rest).2

/-- Punctuation never ends the text. -/
theorem splitPunctuation_ne_end (c : Char) (cs : List Char) :
    (splitPunctuation c cs).1 ≠ .endOfFileToken := by
  have hsingle : singleKind c ≠ .endOfFileToken := by
    unfold singleKind
    split <;> decide
  fun_cases splitPunctuation c cs with
  | case1 => exact hsingle
  | case2 d rest kind hkind =>
    rintro rfl
    unfold pairKind? at hkind
    split at hkind <;> cases hkind
  | case3 => exact hsingle

/-- Only the end of the text has the kind for it. -/
theorem splitToken_ne_end (c : Char) (cs : List Char) : (splitToken c cs).1 ≠ .endOfFileToken := by
  have hreserved : ∀ kind ∈ Kind.reserved, kind ≠ .endOfFileToken := by decide
  unfold splitToken
  split
  next =>
    show (Kind.ofReservedWord? _).getD .identifierToken ≠ _
    cases hword : Kind.ofReservedWord? _ with
    | none => decide
    | some kind => exact hreserved kind (List.mem_of_find?_eq_some hword)
  split
  next => exact nofun
  split
  next => exact nofun
  split
  next => exact nofun
  next => exact splitPunctuation_ne_end c cs

theorem eq_of_singleKind {c : Char} (h : singleKind c = .dotToken) : c = '.' := by
  unfold singleKind at h
  split at h <;> first | rfl | cases h

/-- A token for a point is a point. -/
theorem text_splitPunctuation {c : Char} {rest : List Char}
    (h : (splitPunctuation c rest).1 = .dotToken) : (splitPunctuation c rest).2.1 = ['.'] := by
  revert h
  fun_cases splitPunctuation c rest with
  | case1 => exact fun h => congrArg ([·]) (eq_of_singleKind h)
  | case2 d rest kind hpair =>
    rintro rfl
    unfold pairKind? at hpair
    split at hpair <;> cases hpair
  | case3 => exact fun h => congrArg ([·]) (eq_of_singleKind h)

/-- A point is nothing but a point. -/
theorem text_splitToken {c : Char} {rest : List Char} (h : (splitToken c rest).1 = .dotToken) :
    (splitToken c rest).2.1 = ['.'] := by
  have hreserved : ∀ kind ∈ Kind.reserved, kind ≠ .dotToken := by decide
  revert h
  unfold splitToken
  split
  next =>
    intro h
    change (Kind.ofReservedWord? _).getD .identifierToken = _ at h
    cases hword : Kind.ofReservedWord? _ with
    | none =>
      rw [hword] at h
      cases h
    | some kind =>
      rw [hword] at h
      exact absurd h (hreserved kind (List.mem_of_find?_eq_some hword))
  split
  next => nofun
  split
  next => nofun
  split
  next => nofun
  next => exact text_splitPunctuation

/-- A piece of trivia has text. -/
theorem splitRun_ne_empty (run : Run) (cs : List Char) :
    ∀ piece ∈ (splitRun run cs).1, piece.text ≠ "" := by
  have hne {piece : List Char} (h : piece ≠ []) : String.ofList piece ≠ "" := by
    intro hempty
    apply h
    rw [← String.toList_ofList (l := piece), hempty, String.toList_empty]
  fun_induction splitRun run cs with
  | case1 => exact fun piece h => absurd h List.not_mem_nil
  | case2 run cs kind text rest h piece _ =>
    intro p hp
    rw [List.mem_singleton.mp hp]
    exact hne (splitTrivia?_append h).2
  | case3 run cs kind text rest h piece next _ _ more rest' hsplit ih =>
    rw [hsplit] at ih
    intro p hp
    rcases List.mem_cons.mp hp with rfl | hp
    · exact hne (splitTrivia?_append h).2
    · exact ih p hp

/-- Every piece of trivia has a text. -/
theorem trivia_ne_empty {blank : Bool} {cs : List Char} {t : Token}
    (h : t ∈ (scanFrom blank cs).all) : ∀ piece ∈ t.leading ++ t.trailing, piece.text ≠ "" := by
  fun_induction scanFrom blank cs with
  | case1 blank cs leading hrun =>
    have hleading := splitRun_ne_empty (.leading blank) cs
    rw [hrun] at hleading
    rw [List.mem_singleton.mp h, List.append_nil]
    exact hleading
  | case2 blank cs leading c rest hrun core behind token others ih =>
    rcases List.mem_cons.mp h with rfl | h
    · have hleading := splitRun_ne_empty (.leading blank) cs
      rw [hrun] at hleading
      intro piece hpiece
      rcases List.mem_append.mp hpiece with hpiece | hpiece
      · exact hleading piece hpiece
      · exact splitRun_ne_empty .trailing _ piece hpiece
    · exact ih h

/-- All tokens of a text are scanned ones. -/
theorem isScanned_of_mem_scanFrom {blank : Bool} {cs : List Char} {t : Token}
    (h : t ∈ (scanFrom blank cs).tokens) : t.IsScanned := by
  fun_induction scanFrom blank cs with
  | case1 => exact absurd h List.not_mem_nil
  | case2 blank cs leading c rest hrun core behind token others ih =>
    obtain rfl | h := List.mem_cons.mp h
    · refine ⟨⟨c, rest, by simp [token, core]⟩, ?_, splitRun_unmarked _ _⟩
      have := splitRun_unmarked (.leading blank) cs
      rwa [hrun] at this
    · exact ih h

/-- Behind the tokens of a text stand no directives. -/
theorem isDirective_of_mem_trailing {blank : Bool} {cs : List Char} {t : Token}
    (h : t ∈ (scanFrom blank cs).tokens) : ∀ piece ∈ t.trailing, piece.isDirective = false := by
  fun_induction scanFrom blank cs with
  | case1 => exact absurd h List.not_mem_nil
  | case2 blank cs leading c rest hrun core behind token others ih =>
    obtain rfl | h := List.mem_cons.mp h
    · exact isDirective_splitRun_trailing _
    · exact ih h

theorem unmarked_final (blank : Bool) (cs : List Char) :
    Unmarked (scanFrom blank cs).final.leading ∧ (scanFrom blank cs).final.trailing = [] ∧
      (scanFrom blank cs).final.kind = .endOfFileToken ∧ (scanFrom blank cs).final.text = "" := by
  fun_induction scanFrom blank cs with
  | case1 blank cs leading hrun =>
    refine ⟨?_, rfl, rfl, rfl⟩
    have := splitRun_unmarked (.leading blank) cs
    rwa [hrun] at this
  | case2 blank cs leading c rest hrun core behind token others ih => exact ih

end Scanner

namespace Token.IsScanned

variable {t : Token}

theorem isToken (h : t.IsScanned) : t.kind.isToken := by
  obtain ⟨c, rest, heq⟩ := h.core
  rw [(Prod.mk.inj heq).1]
  exact Scanner.isToken_splitToken c rest

theorem ne_nil (h : t.IsScanned) : t.text.toList ≠ [] := by
  obtain ⟨c, rest, heq⟩ := h.core
  rw [(Prod.mk.inj heq).2]
  exact Scanner.splitToken_ne_nil c rest

/-- An identifier is a word. -/
theorem isWord (h : t.IsScanned) (hkind : t.kind = .identifierToken) : IsWord t.text.toList := by
  obtain ⟨c, rest, heq⟩ := h.core
  obtain ⟨hcore, htext⟩ := Prod.mk.inj heq
  rw [htext]
  exact Scanner.isWord_splitToken (hcore.symm.trans hkind)

theorem text_eq_point (h : t.IsScanned) (hkind : t.kind = .dotToken) : t.text = "." := by
  obtain ⟨c, rest, heq⟩ := h.core
  obtain ⟨hcore, htext⟩ := Prod.mk.inj heq
  rw [← String.toList_inj, htext]
  exact Scanner.text_splitToken (hcore.symm.trans hkind)

end Token.IsScanned

end AutoProperty
