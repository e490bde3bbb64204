import AutoProperty.Proofs.Syntax.Leaves
import AutoProperty.Proofs.Syntax.WholeText
import Mathlib.Data.List.TakeWhile

/-! # Written trivia

What the text of a piece of trivia is, given its kind. The scanner cuts blanks, single line
breaks and whole lines with directives, so the trivia of scanned tokens and of parsed trees
fits.
-/

namespace AutoProperty

/-- The text of a piece of trivia is as its kind says, if `rest` follows it: a directive takes
its line break along, unless it is the last thing there is. -/
def Trivia.Fits (t : Trivia) (rest : List Char) : Prop :=
  match t.kind with
  | .whitespace => ∀ c ∈ t.text.toList, Scanner.isLineBlank c
  | .endOfLine => t.text.toList = ['\n'] ∨ t.text.toList = ['\r'] ∨ t.text.toList = ['\r', '\n']
  | .directive _ => (∃ c ∈ t.text.toList.getLast?, isLineBreak c) ∨ rest = []
  | .elastic => t.text = ""
  | .singleLineComment | .multiLineComment => True

/-- Each piece of the trivia fits, if `rest` follows the last one. -/
def TriviaFits : List Trivia → List Char → Prop
  | [], _ => True
  | t :: ts, rest => t.Fits (triviaText ts ++ rest) ∧ TriviaFits ts rest

/-- The trivia of the tokens is as the scanner makes it, and missing tokens have none. -/
def TokensFit : List Token → Prop
  | [] => True
  | t :: ts => (TriviaFits t.leading (t.text.toList ++ triviaText t.trailing ++ tokensText ts) ∧
      TriviaFits t.trailing (tokensText ts) ∧ (t.isMissing → t.leading = [] ∧ t.trailing = [])) ∧
      TokensFit ts

theorem triviaText_append (ts us : List Trivia) :
    triviaText (ts ++ us) = triviaText ts ++ triviaText us :=
  List.flatMap_append

theorem triviaText_cons (t : Trivia) (ts : List Trivia) :
    triviaText (t :: ts) = t.text.toList ++ triviaText ts :=
  List.flatMap_cons

theorem triviaText_nil : triviaText [] = [] := rfl

instance (t : Trivia) (rest : List Char) : Decidable (t.Fits rest) :=
  match t with
  | ⟨.whitespace, text⟩ => List.decidableBAll _ text.toList
  | ⟨.endOfLine, text⟩ =>
    inferInstanceAs
      (Decidable (text.toList = ['\n'] ∨ text.toList = ['\r'] ∨ text.toList = ['\r', '\n']))
  | ⟨.directive _, text⟩ =>
    have : Decidable (∃ c ∈ text.toList.getLast?, isLineBreak c) :=
      decidable_of_iff (text.toList.getLast?.any isLineBreak = true) (Option.any_eq_true ..)
    inferInstanceAs (Decidable (_ ∨ rest = []))
  | ⟨.elastic, text⟩ => inferInstanceAs (Decidable (text = ""))
  | ⟨.singleLineComment, _⟩ | ⟨.multiLineComment, _⟩ => isTrue trivial

instance TriviaFits.decide :
    (ts : List Trivia) → (rest : List Char) → Decidable (TriviaFits ts rest)
  | [], _ => isTrue trivial
  | _ :: ts, rest =>
    have := TriviaFits.decide ts rest
    inferInstanceAs (Decidable (_ ∧ _))

instance TokensFit.decide : (ts : List Token) → Decidable (TokensFit ts)
  | [] => isTrue trivial
  | _ :: ts =>
    have := TokensFit.decide ts
    inferInstanceAs (Decidable ((_ ∧ _ ∧ (_ → _)) ∧ _))

theorem TriviaFits.of_mem {ts : List Trivia} {rest : List Char} (h : TriviaFits ts rest)
    {t : Trivia} (ht : t ∈ ts) : ∃ rest, t.Fits rest := by
  induction ts with
  | nil => simp at ht
  | cons u ts ih =>
    rcases List.mem_cons.mp ht with rfl | ht
    · exact ⟨_, h.1⟩
    · exact ih h.2 ht

/-- Marks have no text. -/
theorem TriviaFits.triviaText_filter {ts : List Trivia} {rest : List Char}
    (h : TriviaFits ts rest) : triviaText (ts.filter (!·.isElastic)) = triviaText ts := by
  induction ts with
  | nil => rfl
  | cons t ts ih =>
    obtain ⟨ht, hts⟩ := h
    cases hmark : t.isElastic with
    | true =>
      rw [Trivia.Fits, beq_iff_eq.mp hmark] at ht
      rw [List.filter_cons_of_neg (by simp [hmark]), ih hts, triviaText_cons, ht]
      rfl
    | false =>
      rw [List.filter_cons_of_pos (by simp [hmark]), triviaText_cons, triviaText_cons, ih hts]

/-- The text of a line break ends in one. -/
theorem Trivia.Fits.endsLine {t : Trivia} {rest : List Char} (h : t.Fits rest)
    (hkind : t.kind = .endOfLine) : ∃ c ∈ t.text.toList.getLast?, isLineBreak c := by
  rw [Trivia.Fits, hkind] at h
  rcases h with h | h | h <;> rw [h] <;> exact ⟨_, rfl, rfl⟩

/-! ## Scanned trivia -/

namespace Scanner

/-- A line break is a line feed, a carriage return, or both in this order. -/
theorem splitLineBreak_eq {c : Char} (cs : List Char) (h : isLineBreak c) :
    (splitLineBreak (c :: cs)).1 = ['\n'] ∨ (splitLineBreak (c :: cs)).1 = ['\r'] ∨
      (splitLineBreak (c :: cs)).1 = ['\r', '\n'] := by
  have hc : c = '\n' ∨ c = '\r' := by simpa [isLineBreak] using h
  unfold splitLineBreak
  split
  next => exact .inr (.inr rfl)
  next heq =>
    cases heq
    rw [if_pos h]
    rcases hc with rfl | rfl
    · exact .inl rfl
    · exact .inr (.inl rfl)
  next heq => cases heq

/-- A line that is cut off ends in its line break, unless nothing follows it. -/
theorem splitLine_ends (cs : List Char) :
    (∃ c ∈ (splitLineBreak (splitLine cs).2).1.getLast?, isLineBreak c) ∨
      (splitLineBreak (splitLine cs).2).2 = [] := by
  cases hrest : (splitLine cs).2 with
  | nil => exact .inr rfl
  | cons c rest =>
    have hbreak : isLineBreak c := by
      have hhead := List.head?_dropWhile_not (!isLineBreak ·) cs
      rw [show cs.dropWhile _ = c :: rest from hrest] at hhead
      simpa using hhead
    left
    rcases splitLineBreak_eq rest hbreak with h | h | h <;> rw [h] <;> exact ⟨_, rfl, rfl⟩

/-- Trivia that is cut off fits. -/
theorem fits_splitTrivia? {directives : Bool} {cs text rest : List Char} {kind : TriviaKind}
    (h : splitTrivia? directives cs = some (kind, text, rest)) :
    Trivia.Fits ⟨kind, String.ofList text⟩ rest := by
  revert h
  fun_cases splitTrivia? directives cs with
  | case1 cs t r hs =>
    rintro ⟨⟩
    exact trivial
  | case2 cs t r hs =>
    rintro ⟨⟩
    exact trivial
  | case3 c cs _ _ hc t r hs =>
    rintro ⟨⟩
    intro d hd
    rw [String.toList_ofList] at hd
    rcases List.mem_cons.mp hd with rfl | hd
    · exact hc
    · have hd : d ∈ cs.takeWhile isLineBlank := by
        rwa [show cs.takeWhile isLineBlank = t from congrArg Prod.fst hs]
      exact List.mem_takeWhile_imp hd
  | case4 c cs _ _ _ hc t r hs =>
    rintro ⟨⟩
    have hbreak := splitLineBreak_eq cs hc
    rw [hs] at hbreak
    rw [Trivia.Fits, String.toList_ofList]
    exact hbreak
  | case5 c cs _ _ _ _ hc line r hs lineBreak r' hs' all =>
    intro h
    simp only [Option.some.injEq, Prod.mk.injEq] at h
    obtain ⟨rfl, rfl, rfl⟩ := h
    have hends := splitLine_ends cs
    rw [hs, hs'] at hends
    rw [Trivia.Fits, String.toList_ofList]
    rcases hends with ⟨d, hd, hbreak⟩ | hrest
    · refine .inl ⟨d, ?_, hbreak⟩
      rw [List.getLast?_append, Option.mem_def.mp hd]
      rfl
    · exact .inr hrest
  | case6 => simp
  | case7 => simp

/-- The pieces of a run have the form that their kinds promise. -/
theorem fits_splitRun (run : Run) (cs : List Char) :
    TriviaFits (splitRun run cs).1 (splitRun run cs).2 := by
  fun_induction splitRun run cs with
  | case1 => exact trivial
  | case2 run cs kind text rest h piece _ =>
    exact ⟨fits_splitTrivia? h, trivial⟩
  | case3 run cs kind text rest h piece next _ _ more rest' hsplit ih =>
    have happend := splitRun_append next rest
    rw [hsplit] at ih happend
    refine ⟨?_, ih⟩
    rw [happend]
    exact fits_splitTrivia? h

/-- The trivia of scanned tokens has the form that its kinds promise. -/
theorem fits_scanFrom (blank : Bool) (cs : List Char) : TokensFit (scanFrom blank cs).all := by
  fun_induction scanFrom blank cs with
  | case1 blank cs leading h =>
    have hfits := fits_splitRun (.leading blank) cs
    rw [h] at hfits
    refine ⟨⟨hfits, trivial, fun hmissing => ?_⟩, trivial⟩
    simp [Token.isMissing] at hmissing
  | case2 blank cs leading c rest h core behind token others ih =>
    have hfits := fits_splitRun (.leading blank) cs
    have hbehind := splitRun_append .trailing core.2.2
    have hcore := splitToken_append c rest
    have hothers : tokensText others.all = behind.2 := tokensText_scanFrom _ _
    rw [h] at hfits
    have hleading : token.text.toList ++ triviaText token.trailing ++ tokensText others.all = c ::
        rest := by
      rw [hothers, ← hcore, List.append_assoc, hbehind]
      simp only [token, String.toList_ofList, core]
    show TokensFit (token :: others.all)
    refine ⟨⟨?_, ?_, fun hmissing => ?_⟩, ih⟩
    · rw [hleading]
      exact hfits
    · rw [hothers]
      exact fits_splitRun .trailing core.2.2
    · have hempty : token.text = "" := by simpa using (Bool.and_eq_true_iff.mp hmissing).1
      have htext : core.2.1 = [] := by simpa [token] using hempty
      exact absurd htext (splitToken_ne_nil c rest)

end Scanner

/-- Missing tokens between the others change nothing. -/
theorem Spells.tokensFit {ts : List Token} {ls : List Lexeme} (h : Spells ts ls)
    {after : List Token} (hfits : TokensFit (ls.map Lexeme.token ++ after)) :
    TokensFit (ts ++ after) := by
  induction h with
  | nil => exact hfits
  | missing kind _ _ ih => exact ⟨⟨trivial, trivial, fun _ => ⟨rfl, rfl⟩⟩, ih hfits⟩
  | taken ht hrest ih =>
    obtain ⟨kind, rfl, hkind⟩ := ht
    obtain ⟨⟨hleading, htrailing, hmissing⟩, hfits⟩ := hfits
    have htext :=
      (tokensText_append ..).trans (congrArg (· ++ tokensText after) hrest.tokensText_eq)
    rw [← tokensText_append] at htext
    rw [List.append_eq, ← htext] at hleading htrailing
    refine ⟨⟨hleading, htrailing, fun hempty => hmissing ?_⟩, ih hfits⟩
    -- An identifier is no more missing as a contextual keyword.
    obtain ⟨htext, hend⟩ := Bool.and_eq_true_iff.mp hempty
    rcases hkind with rfl | ⟨hkind, -⟩
    · exact hempty
    · exact Bool.and_eq_true_iff.mpr ⟨htext, by rw [show Token.kind _ = _ from hkind]; rfl⟩

/-- The trivia in the tree of a text fits. -/
theorem tokensFit_parse (text : String) : TokensFit (parse text).root.tokens := by
  have hspells := (Production.makesEach_allMembers (tokensAhead_scan text)).2.spells
  have hroot : (parse text).root.tokens = Element.tokensOf _ ++ [(scan text).final] :=
    Element.tokensOf_append _ _
  rw [hroot]
  apply hspells.tokensFit
  rw [token_placeTokens]
  exact Scanner.fits_scanFrom true text.toList

end AutoProperty
