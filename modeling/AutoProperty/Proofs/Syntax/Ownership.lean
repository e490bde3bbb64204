import Mathlib.Data.List.Chain
import Mathlib.Data.List.Induction
import AutoProperty.Proofs.Syntax.ByteScanning

/-! # Who owns trivia

A line break ends what a token owns behind it. If none does, the token ends in a character that
can be seen, so what follows on its line is no directive, and the next token has nothing in
front of it. Directives stand on lines that are blank so far.
-/

namespace AutoProperty

namespace Scanner

/-- Nothing more stands on the line. -/
def AtLineEnd (cs : List Char) : Prop :=
  cs = [] ∨ ∃ c rest, cs = c :: rest ∧ isLineBreak c

/-! ## Where tokens end -/

/-- A literal ends in its quote, or the line or the text ends first. -/
theorem splitLiteral_ends {close : Char} (hclose : IsVisible close) (cs : List Char) :
    EndsVisible (splitLiteral close cs).1 ∨ AtLineEnd (splitLiteral close cs).2 := by
  fun_induction splitLiteral close cs with
  | case1 => exact .inr (.inl rfl)
  | case2 => exact .inr (.inl rfl)
  | case3 c rest text rest' hsplit ih =>
    rw [hsplit] at ih
    exact ih.imp_left fun h => h.append ['\\', c]
  | case4 c rest _ _ hbreak => exact .inr (.inr ⟨c, rest, rfl, hbreak⟩)
  | case5 c rest _ _ _ hquote =>
    obtain rfl : c = close := by simpa using hquote
    exact .inl ⟨[], c, rfl, hclose⟩
  | case6 c rest _ _ _ _ text rest' hsplit ih =>
    rw [hsplit] at ih
    exact ih.imp_left fun h => h.append [c]

/-- A number takes in no blanks. -/
theorem isVisible_splitNumber (cs : List Char) : ∀ c ∈ (splitNumber cs).1, IsVisible c := by
  have hdigits {text : List Char} (h : text.all isDigitPart) {c : Char} (hc : c ∈ text) :
      IsVisible c :=
    isVisible_of (p := isDigitPart) (by decide) (List.all_eq_true.mp h c hc)
  obtain ⟨whole, fraction, suffix, htext, hparts⟩ := numberParts cs
  intro c hc
  rw [htext, List.append_assoc] at hc
  rcases List.mem_append.mp hc with hc | hc
  · exact hdigits hparts.whole hc
  rcases List.mem_append.mp hc with hc | hc
  · have hform := splitFraction_form (fraction ++ (suffix ++ (splitNumber cs).2))
    rw [hparts.fraction] at hform
    rcases hform with rfl | ⟨d, digits, rfl, hd, hall⟩
    · exact absurd hc List.not_mem_nil
    · simp only [List.mem_cons] at hc
      rcases hc with rfl | rfl | hc
      · exact ⟨by decide, by decide⟩
      · exact isVisible_of (p := Char.isDigit) (by decide) hd
      · exact hdigits hall hc
  · exact isVisible_of (p := isNumberSuffix) (by decide) (List.all_eq_true.mp hparts.suffix c hc)

theorem isVisible_pairKind? {c d : Char} {kind : Kind} (h : pairKind? c d = some kind) :
    IsVisible d := by
  unfold pairKind? at h
  split at h <;> first | exact ⟨by decide, by decide⟩ | cases h

theorem splitPunctuation_ends {c : Char} (hc : IsVisible c) (cs : List Char) :
    EndsVisible (splitPunctuation c cs).2.1 := by
  fun_cases splitPunctuation c cs with
  | case1 => exact ⟨[], c, rfl, hc⟩
  | case2 d rest kind hpair => exact ⟨[c], d, rfl, isVisible_pairKind? hpair⟩
  | case3 => exact ⟨[], c, rfl, hc⟩

/-- A token ends in a character that can be seen, unless it is a literal without an end. -/
theorem splitToken_ends {c : Char} (hc : IsVisible c) (cs : List Char) :
    EndsVisible (splitToken c cs).2.1 ∨ AtLineEnd (splitToken c cs).2.2 := by
  have hquoted {close : Char} (hclose : IsVisible close) :
      EndsVisible (c :: (splitLiteral close cs).1) ∨ AtLineEnd (splitLiteral close cs).2 :=
    (splitLiteral_ends hclose cs).imp_left fun h => h.append [c]
  unfold splitToken
  split
  next hword => exact .inl (endsVisible_word hword List.all_takeWhile)
  split
  next hdigit =>
    refine .inl (.of_all ?_ (isVisible_splitNumber (c :: cs)))
    simp [splitNumber, splitWhile, isDigitPart, hdigit]
  split
  next => exact hquoted ⟨by decide, by decide⟩
  split
  next => exact hquoted ⟨by decide, by decide⟩
  next => exact .inl (splitPunctuation_ends hc cs)

/-! ## Where runs of trivia end -/

/-- What is no trivia does not begin with a blank or a line break. -/
theorem isVisible_of_splitTrivia?_none {directives : Bool} {c : Char} {cs : List Char}
    (h : splitTrivia? directives (c :: cs) = none) : IsVisible c := by
  generalize htext : c :: cs = text at h
  revert h
  fun_cases splitTrivia? directives text with
  | case6 _ _ _ _ hblank hbreak =>
    obtain ⟨rfl, rfl⟩ := List.cons.inj htext
    exact fun _ => ⟨by simpa using hbreak, by simpa using hblank⟩
  | case7 => cases htext
  | _ => rintro ⟨⟩

/-- Only a directive depends on whether directives may be taken. -/
theorem splitTrivia?_none {directives : Bool} {cs : List Char} (h : splitTrivia? false cs = none)
    (hdirectives : directives = true → cs = []) : splitTrivia? directives cs = none := by
  cases directives with
  | false => exact h
  | true =>
    rw [hdirectives rfl]
    rfl

theorem splitCommentEnd_ends (cs : List Char) :
    EndsVisible (splitCommentEnd cs).1 ∨ (splitCommentEnd cs).2 = [] := by
  fun_induction splitCommentEnd cs with
  | case1 => exact .inl ⟨['*'], '/', rfl, by decide, by decide⟩
  | case2 c rest _ text rest' hsplit ih =>
    rw [hsplit] at ih
    exact ih.imp_left fun h => h.append [c]
  | case3 => exact .inr rfl

/-- A line that can be seen something on stays so while it goes on. -/
theorem blankAfter_of_no_break {cs : List Char} (h : ∀ c ∈ cs, isLineBreak c = false) :
    blankAfter false cs = false := by
  induction cs with
  | nil => rfl
  | cons c cs ih =>
    obtain ⟨hc, hcs⟩ := List.forall_mem_cons.mp h
    show blankAfter (isLineBreak c || (false && isLineBlank c)) cs = false
    rw [hc]
    exact ih hcs

/-- Behind a token, trivia other than a line break leaves no blank line, unless it takes the
whole text. -/
theorem splitTrivia?_ends {cs text rest : List Char} {kind : TriviaKind}
    (h : splitTrivia? false cs = some (kind, text, rest)) :
    kind = .endOfLine ∨ blankAfter false text = false ∨ rest = [] := by
  revert h
  fun_cases splitTrivia? false cs with
  | case1 cs line r hs =>
    rintro ⟨⟩
    refine .inr (.inl (blankAfter_of_no_break fun c hc => ?_))
    simp only [List.mem_cons] at hc
    rcases hc with rfl | rfl | hc
    · decide
    · decide
    · have hall : ((splitLine cs).1).all (!isLineBreak ·) := List.all_takeWhile
      rw [hs] at hall
      simpa using List.all_eq_true.mp hall c hc
  | case2 cs text r hs =>
    rintro ⟨⟩
    have hend := splitCommentEnd_ends cs
    rw [hs] at hend
    exact .inr (hend.imp_left fun h => (h.append ['/', '*']).blankAfter false)
  | case3 c cs _ _ hc blanks r hs =>
    rintro ⟨⟩
    refine .inr (.inl (blankAfter_of_no_break fun d hd => ?_))
    have hall : ((splitWhile isLineBlank cs).1).all isLineBlank := List.all_takeWhile
    rw [hs] at hall
    have hblank : isLineBlank d := by
      rcases List.mem_cons.mp hd with rfl | hd
      · exact hc
      · exact List.all_eq_true.mp hall d hd
    obtain rfl | rfl : d = ' ' ∨ d = '\t' := by simpa [isLineBlank] using hblank
    · decide
    · decide
  | case4 =>
    rintro ⟨⟩
    exact .inl rfl
  | case5 _ _ _ _ _ _ hallowed => simp at hallowed
  | case6 => rintro ⟨⟩
  | case7 => rintro ⟨⟩

end Scanner

/-- The last piece of trivia is a line break. -/
def BreaksLine (trivia : List Trivia) : Prop :=
  ∃ piece, trivia.getLast? = some piece ∧ piece.isEndOfLine

theorem BreaksLine.cons {trivia : List Trivia} (h : BreaksLine trivia) (t : Trivia) :
    BreaksLine (t :: trivia) := by
  obtain ⟨piece, hlast, hpiece⟩ := h
  exact ⟨piece, by rw [List.getLast?_cons, hlast]; rfl, hpiece⟩

namespace Scanner

theorem splitRun_nil (run : Run) : splitRun run [] = ([], []) :=
  splitRun_of_none rfl

/-- Trivia behind a token ends with a line break, or goes as far as there is any. -/
theorem splitRun_trailing_ends (cs : List Char) :
    BreaksLine (splitRun .trailing cs).1 ∨ splitTrivia? false (splitRun .trailing cs).2 = none ∧
      (blankAfter false (triviaText (splitRun .trailing cs).1) = false ∨
        (splitRun .trailing cs).2 = []) := by
  generalize hrun : Run.trailing = run
  fun_induction splitRun run cs with
  | case1 run cs hnone =>
    subst hrun
    exact .inr ⟨hnone, .inl rfl⟩
  | case2 run cs kind text rest hsplit piece hnext =>
    subst hrun
    have hkind : (kind == .endOfLine) = true := by
      change (if kind == .endOfLine then none else some Run.trailing) = none at hnext
      by_contra hnot
      rw [if_neg hnot] at hnext
      cases hnext
    exact .inl ⟨piece, rfl, hkind⟩
  | case3 run cs kind text rest hsplit piece next hnext _ more rest' hmore ih =>
    subst hrun
    change (if kind == .endOfLine then none else some Run.trailing) = some next at hnext
    split at hnext
    next => cases hnext
    next hkind =>
      have hnext : Run.trailing = next := Option.some.inj hnext
      have hrest := ih hnext
      rw [hmore] at hrest
      rcases hrest with hline | ⟨hnone, hblank⟩
      · exact .inl (hline.cons piece)
      refine .inr ⟨hnone, ?_⟩
      rcases splitTrivia?_ends hsplit with rfl | hpiece | rfl
      · exact absurd rfl hkind
      · refine hblank.imp_left fun h => ?_
        show blankAfter false ((String.ofList text).toList ++ triviaText more) = false
        rw [String.toList_ofList, blankAfter_append, hpiece]
        exact h
      · rw [splitRun_nil] at hmore
        exact .inr (Prod.mk.inj hmore).2.symm

/-- Behind a token only the last piece of trivia is a line break. -/
theorem isEndOfLine_splitRun_trailing (cs : List Char) :
    ∀ piece ∈ (splitRun .trailing cs).1.dropLast, piece.isEndOfLine = false := by
  generalize hrun : Run.trailing = run
  fun_induction splitRun run cs with
  | case1 => exact fun _ h => absurd h List.not_mem_nil
  | case2 => exact fun _ h => absurd h List.not_mem_nil
  | case3 run cs kind text rest hsplit piece next hnext _ more rest' hmore ih =>
    subst hrun
    change (if kind == .endOfLine then none else some Run.trailing) = some next at hnext
    split at hnext
    next => cases hnext
    next hkind =>
      have hothers := ih (Option.some.inj hnext)
      rw [hmore] at hothers
      intro t ht
      cases more with
      | nil => exact absurd ht List.not_mem_nil
      | cons second others =>
        rcases List.mem_cons.mp ht with rfl | ht
        · exact Bool.eq_false_iff.mpr hkind
        · exact hothers t ht

/-- Trivia in front of a token goes as far as there is any. -/
theorem splitRun_leading_stops (blank : Bool) (cs : List Char) :
    ∃ directives, splitTrivia? directives (splitRun (.leading blank) cs).2 = none := by
  generalize hrun : Run.leading blank = run
  fun_induction splitRun run cs generalizing blank with
  | case1 run cs hnone => exact ⟨_, hnone⟩
  | case2 run cs kind text rest hsplit piece hnext =>
    subst hrun
    cases hnext
  | case3 run cs kind text rest hsplit piece next hnext _ more rest' hmore ih =>
    subst hrun
    have hrest := ih _ (Option.some.inj hnext)
    rwa [hmore] at hrest

/-- A line break right behind a token is all that the token owns. -/
theorem breaksLine_of_isLineBreak {c : Char} (h : isLineBreak c) (cs : List Char) :
    BreaksLine (splitRun .trailing (c :: cs)).1 := by
  have hne : c ≠ '/' := by
    rintro rfl
    cases h
  have hblank : ¬isLineBlank c = true := by
    obtain rfl | rfl : c = '\n' ∨ c = '\r' := by simpa [isLineBreak] using h
    · decide
    · decide
  have hsplit : splitTrivia? Run.trailing.allowsDirective (c :: cs) =
      some (.endOfLine, (splitLineBreak (c :: cs)).1, (splitLineBreak (c :: cs)).2) := by
    rw [splitTrivia?_of_ne_slash _ _ hne, if_neg hblank, if_pos h]
  rw [splitRun_of_some hsplit]
  exact ⟨_, rfl, rfl⟩

/-- Unless a line break ends what a token owns, no trivia stands in front of what follows. -/
theorem splitRun_behind {core cs : List Char} (hcore : EndsVisible core ∨ AtLineEnd cs)
    (hline : ¬BreaksLine (splitRun .trailing cs).1) (blank : Bool) :
    (splitRun (.leading (blankAfter blank (core ++ triviaText (splitRun .trailing cs).1)))
      (splitRun .trailing cs).2).1 = [] := by
  obtain ⟨hnone, hblank⟩ := (splitRun_trailing_ends cs).resolve_left hline
  have hend : blankAfter blank (core ++ triviaText (splitRun .trailing cs).1) = true →
      (splitRun .trailing cs).2 = [] := by
    intro htrue
    -- At the end of a line no token would own anything but the line break, which is ruled out.
    rcases hcore with hvisible | rfl | ⟨c, rest, rfl, hbreak⟩
    · rw [blankAfter_append, hvisible.blankAfter] at htrue
      exact hblank.resolve_left fun hfalse => Bool.false_ne_true (hfalse.symm.trans htrue)
    · rw [splitRun_nil]
    · exact absurd (breaksLine_of_isLineBreak hbreak rest) hline
  have hstop := splitTrivia?_none hnone hend
  exact congrArg Prod.fst (@splitRun_of_none (.leading _) _ hstop)

/-! ## Lines of directives -/

/-- Nothing but blanks stands behind the last line break of the text. -/
def EndsBlank (cs : List Char) : Prop :=
  ∃ front line, cs = front ++ line ∧ (front = [] ∨ ∃ c, front.getLast? = some c ∧ isLineBreak c) ∧
    ∀ c ∈ line, isLineBlank c

/-- A text is blank up to its end if the line is blank there. -/
theorem endsBlank_of_blankAfter {cs : List Char} (h : blankAfter true cs) : EndsBlank cs := by
  induction cs using List.reverseRecOn with
  | nil => exact ⟨[], [], rfl, .inl rfl, fun _ h => absurd h List.not_mem_nil⟩
  | append_singleton cs c ih =>
    have hlast : isLineBreak c || (blankAfter true cs && isLineBlank c) :=
      (blankAfter_append true cs [c]).symm.trans h
    rcases Bool.or_eq_true_iff.mp hlast with hbreak | hblank
    · exact ⟨cs ++ [c], [], (List.append_nil _).symm, .inr ⟨c, by simp, hbreak⟩,
        fun _ h => absurd h List.not_mem_nil⟩
    · obtain ⟨hcs, hc⟩ := Bool.and_eq_true_iff.mp hblank
      obtain ⟨front, line, rfl, hfront, hline⟩ := ih hcs
      refine ⟨front, line ++ [c], List.append_assoc .., hfront, fun d hd => ?_⟩
      rcases List.mem_append.mp hd with hd | hd
      · exact hline d hd
      · rwa [List.mem_singleton.mp hd]

/-- A directive begins with a number sign, and is taken only where it may be. -/
theorem splitTrivia?_directive {directives : Bool} {cs text rest : List Char} {kind : TriviaKind}
    (h : splitTrivia? directives cs = some (kind, text, rest))
    (hkind : (Trivia.mk kind (String.ofList text)).isDirective) :
    directives = true ∧ text.head? = some '#' := by
  revert h
  fun_cases splitTrivia? directives cs with
  | case5 c cs _ _ _ _ hallowed =>
    obtain ⟨hsharp, hdirectives⟩ := Bool.and_eq_true_iff.mp hallowed
    obtain rfl : c = '#' := by simpa using hsharp
    intro h
    obtain ⟨_, rfl, _⟩ := by simpa using h
    exact ⟨hdirectives, rfl⟩
  | case6 => rintro ⟨⟩
  | case7 => rintro ⟨⟩
  | _ =>
    intro h
    cases h
    cases hkind

/-- The directives of a run begin with a number sign, on lines that are blank so far. -/
theorem splitRun_directives (before cs : List Char) {front behind : List Trivia} {d : Trivia}
    (h : (splitRun (.leading (blankAfter true before)) cs).1 = front ++ d :: behind)
    (hd : d.isDirective) :
    d.text.toList.head? = some '#' ∧ EndsBlank (before ++ triviaText front) := by
  generalize hrun : Run.leading (blankAfter true before) = run at h
  fun_induction splitRun run cs generalizing before front with
  | case1 => exact absurd h.symm (List.append_ne_nil_of_right_ne_nil _ (List.cons_ne_nil _ _))
  | case2 run cs kind text rest hsplit piece hnext =>
    subst hrun
    cases hnext
  | case3 run cs kind text rest hsplit piece next hnext _ more rest' hmore ih =>
    subst hrun
    have hnext : Run.leading (blankAfter true (before ++ text)) = next := by
      rw [blankAfter_append]
      exact Option.some.inj hnext
    cases front with
    | nil =>
      obtain ⟨rfl, _⟩ := List.cons.inj h
      obtain ⟨hblank, hhead⟩ := splitTrivia?_directive hsplit hd
      refine ⟨by rw [String.toList_ofList]; exact hhead, ?_⟩
      rw [triviaText, List.flatMap_nil, List.append_nil]
      exact endsBlank_of_blankAfter hblank
    | cons first front =>
      obtain ⟨rfl, hfront⟩ := List.cons.inj h
      have hothers := @ih (before ++ text) front hnext (by rw [hmore]; exact hfront)
      rwa [List.append_assoc, show text ++ triviaText front = triviaText (piece :: front) by
        rw [triviaText, triviaText, List.flatMap_cons, String.toList_ofList]] at hothers

end Scanner

/-! ## All tokens -/

/-- Trivia belongs to tokens by lines. A token owns what follows it up to the line break, which
is not one of the lines of directives. All else stands in front of the next token, so only where
a line begins. -/
structure OwnsByLines (tokens : List Token) : Prop where
  unmarked : ∀ t ∈ tokens, Unmarked (t.leading ++ t.trailing)
  final : ∀ t ∈ tokens, t.kind = .endOfFileToken → t.trailing = []
  lineBreak : ∀ t ∈ tokens, ∀ piece ∈ t.trailing.dropLast, piece.isEndOfLine = false
  trailing : ∀ t ∈ tokens, ∀ piece ∈ t.trailing, piece.isDirective = false
  leading : tokens.IsChain fun t next => next.leading ≠ [] → BreaksLine t.trailing
  directives :
    ∀ (before : List Token) (t : Token) (after : List Token) (front : List Trivia) (d : Trivia)
    (behind : List Trivia), tokens = before ++ t :: after → t.leading = front ++ d :: behind →
    d.isDirective →
      d.text.toList.head? = some '#' ∧ Scanner.EndsBlank (tokensText before ++ triviaText front)

namespace Scanner

variable {blank : Bool} {cs : List Char} {t : Token}

/-- The leading trivia of the first token is all that stands in front of it. -/
theorem leading_head?_scanFrom (h : (scanFrom blank cs).all.head? = some t) :
    t.leading = (splitRun (.leading blank) cs).1 := by
  revert h
  fun_cases scanFrom blank cs with
  | case1 leading hrun =>
    rintro ⟨⟩
    rw [hrun]
  | case2 leading c rest hrun core behind token =>
    intro h
    obtain rfl : token = t := Option.some.inj h
    rw [hrun]

theorem isEndOfLine_of_mem_trailing (h : t ∈ (scanFrom blank cs).tokens) :
    ∀ piece ∈ t.trailing.dropLast, piece.isEndOfLine = false := by
  fun_induction scanFrom blank cs with
  | case1 => exact absurd h List.not_mem_nil
  | case2 blank cs leading c rest hrun core behind token others ih =>
    rcases List.mem_cons.mp h with rfl | h
    · exact isEndOfLine_splitRun_trailing _
    · exact ih h

/-- Between two tokens, trivia belongs to the second one only if a line break ends that of the
first. -/
theorem isChain_scanFrom (blank : Bool) (cs : List Char) :
    (scanFrom blank cs).all.IsChain fun t next => next.leading ≠ [] → BreaksLine t.trailing := by
  fun_induction scanFrom blank cs with
  | case1 => exact .singleton _
  | case2 blank cs leading c rest hrun core behind token others ih =>
    refine List.isChain_cons.mpr ⟨fun next hnext hleading => ?_, ih⟩
    have hvisible : IsVisible c := by
      obtain ⟨directives, hnone⟩ := splitRun_leading_stops blank cs
      rw [hrun] at hnone
      exact isVisible_of_splitTrivia?_none hnone
    by_contra hline
    -- The line goes on behind the token and is not blank, so all trivia there is the token's.
    apply hleading
    have hfull : blankAfter blank token.fullText =
        blankAfter (blankAfter blank (triviaText leading)) (core.2.1 ++ triviaText behind.1) := by
      rw [← blankAfter_append, Token.fullText, String.toList_ofList, List.append_assoc]
    rw [leading_head?_scanFrom hnext, hfull]
    exact splitRun_behind (splitToken_ends hvisible rest) hline _

/-- What was said of the directives of a run holds of those of all tokens. -/
theorem directives_scanFrom (above cs : List Char) {before after : List Token}
    {front behind : List Trivia} {d : Trivia}
    (h : (scanFrom (blankAfter true above) cs).all = before ++ t :: after)
    (hleading : t.leading = front ++ d :: behind) (hd : d.isDirective) :
    d.text.toList.head? = some '#' ∧
      EndsBlank (above ++ (tokensText before ++ triviaText front)) := by
  -- Of the text above only one thing is known to the scanner: whether its last line is blank.
  induction before generalizing above cs with
  | nil =>
    have hfirst := leading_head?_scanFrom (congrArg List.head? h)
    exact splitRun_directives above cs (hfirst.symm.trans hleading) hd
  | cons first before ih =>
    revert h
    generalize hblank : blankAfter true above = blank
    fun_cases scanFrom blank cs with
    | case1 =>
      exact fun h =>
        absurd (List.cons.inj h).2.symm
          (List.append_ne_nil_of_right_ne_nil _ (List.cons_ne_nil _ _))
    | case2 leading c rest hrun core trailing token others =>
      intro h
      obtain ⟨rfl, hothers⟩ := List.cons.inj h
      have hnext := ih (above ++ token.fullText) trailing.2 (by rwa [blankAfter_append, hblank])
      rwa [List.append_assoc, ← List.append_assoc token.fullText] at hnext

end Scanner

/-- Every trivia of a text belongs to the token that the rules of lines give it to. -/
theorem ownsByLines_scan (text : String) : OwnsByLines (scan text).all := by
  obtain ⟨_, _, hnone⟩ := (isLossless_scan text).final
  have hsplit {t : Token} (ht : t ∈ (scan text).all) : t ∈ (scan text).tokens ∨
      t = (scan text).final :=
    (List.mem_append.mp ht).imp_right List.mem_singleton.mp
  constructor
  case unmarked =>
    intro t ht piece hpiece
    rcases hsplit ht with ht | rfl
    · have hscanned := Scanner.isScanned_of_mem_scanFrom ht
      exact (List.mem_append.mp hpiece).elim (hscanned.leading piece) (hscanned.trailing piece)
    · rw [hnone, List.append_nil] at hpiece
      exact (Scanner.unmarked_final true text.toList).1 piece hpiece
  case final =>
    intro t ht hkind
    rcases hsplit ht with ht | rfl
    · exact absurd hkind ((isLossless_scan text).tokens t ht).1
    · exact hnone
  case lineBreak =>
    intro t ht piece hpiece
    rcases hsplit ht with ht | rfl
    · exact Scanner.isEndOfLine_of_mem_trailing ht piece hpiece
    · rw [hnone] at hpiece
      exact absurd hpiece List.not_mem_nil
  case trailing =>
    intro t ht piece hpiece
    rcases hsplit ht with ht | rfl
    · exact Scanner.isDirective_of_mem_trailing ht piece hpiece
    · rw [hnone] at hpiece
      exact absurd hpiece List.not_mem_nil
  case leading => exact Scanner.isChain_scanFrom true text.toList
  case directives =>
    intro before t after front d behind hall hleading hd
    exact Scanner.directives_scanFrom [] text.toList hall hleading hd

/-- Going over the bytes of any text, the scanner finds tokens that own trivia by lines. -/
theorem ByteScanner.scan_owned (text : String) :
    ByteScanner.scan? text = some (scan text).all ∧ OwnsByLines (scan text).all :=
  ⟨ByteScanner.scan?_eq text, ownsByLines_scan text⟩

end AutoProperty
