import AutoProperty.Proofs.Syntax.Commuting
import AutoProperty.Proofs.Syntax.WrittenTrivia
import AutoProperty.Syntax.Edit
import AutoProperty.Syntax.Elastic
import Mathlib.Data.List.Flatten
import Mathlib.Data.List.Forall2
import Mathlib.Data.List.Induction

/-! # Blank lines

Tidying takes blank lines out where edits have left marks, and nothing else: each line that goes
away holds blanks only and lies within the trivia in front of one token. So all other lines of
the text stay what they are, and blank lines that are left in front of a marked token stand
apart.
-/

namespace AutoProperty

/-! ## The lines of a text that count -/

/-- The lines of a text that hold more than blanks. Between a carriage return and a line feed
there is an empty line here, which does not count either. -/
def filledLines (text : List Char) : List (List Char) :=
  (text.splitOnP isLineBreak).filter (·.any (!Scanner.isLineBlank ·))

/-- What follows the text begins a line. -/
def EndsLine (text : List Char) : Prop :=
  ∀ c ∈ text.getLast?, isLineBreak c

theorem endsLine_nil : EndsLine [] := nofun

theorem endsLine_append {before text : List Char} (h : ∃ c ∈ text.getLast?, isLineBreak c) :
    EndsLine (before ++ text) := by
  obtain ⟨c, hc, hbreak⟩ := h
  intro d hd
  rw [List.getLast?_append, Option.mem_def.mp hc, Option.some_or] at hd
  cases hd
  exact hbreak

theorem isLineBreak_of_isLineBlank {c : Char} (h : Scanner.isLineBlank c) :
    isLineBreak c = false := by
  rw [Scanner.isLineBlank, Bool.or_eq_true, beq_iff_eq, beq_iff_eq] at h
  rcases h with rfl | rfl <;> rfl

theorem filledLines_blanks {text : List Char} (h : ∀ c ∈ text, Scanner.isLineBlank c) :
    filledLines text = [] := by
  rw [filledLines, List.splitOnP_eq_singleton fun c hc => isLineBreak_of_isLineBlank (h c hc),
    List.filter_cons_of_neg (by simpa using h), List.filter_nil]

theorem filledLines_nil : filledLines [] = [] :=
  filledLines_blanks nofun

theorem filledLines_append_cons {c : Char} (hc : isLineBreak c) (before after : List Char) :
    filledLines (before ++ c :: after) = filledLines before ++ filledLines after := by
  rw [filledLines, List.splitOnP_append_cons before after hc, List.filter_append]
  rfl

/-- Lines stay apart where one ends. -/
theorem filledLines_append {before : List Char} (h : EndsLine before) (after : List Char) :
    filledLines (before ++ after) = filledLines before ++ filledLines after := by
  rcases List.eq_nil_or_concat' before with rfl | ⟨before, c, rfl⟩
  · rw [filledLines_nil]
    rfl
  · have hc : isLineBreak c := h c (by simp)
    rw [List.append_assoc, List.singleton_append, filledLines_append_cons hc,
      filledLines_append_cons hc, filledLines_nil, List.append_nil]

/-- A blank line between two others does not count. -/
theorem filledLines_blank_line {before blanks lineBreak : List Char} (hbefore : EndsLine before)
    (hblanks : ∀ c ∈ blanks, Scanner.isLineBlank c)
    (hbreak : lineBreak = ['\n'] ∨ lineBreak = ['\r'] ∨ lineBreak = ['\r', '\n'])
    (after : List Char) :
    filledLines (before ++ (blanks ++ lineBreak ++ after)) = filledLines (before ++ after) := by
  rw [filledLines_append hbefore, filledLines_append hbefore, List.append_assoc]
  have hfeed : isLineBreak '\n' := rfl
  have hreturn : isLineBreak '\r' := rfl
  apply congrArg
  rcases hbreak with rfl | rfl | rfl
  · rw [List.singleton_append, filledLines_append_cons hfeed, filledLines_blanks hblanks,
      List.nil_append]
  · rw [List.singleton_append, filledLines_append_cons hreturn, filledLines_blanks hblanks,
      List.nil_append]
  · rw [List.cons_append, List.singleton_append, filledLines_append_cons hreturn,
      filledLines_blanks hblanks, List.nil_append]
    exact filledLines_append_cons hfeed [] after

/-! ## What is left of the trivia in front of a token -/

def AllBlank (line : List Trivia) : Prop :=
  ∀ t ∈ line, t.kind = .whitespace

theorem AllBlank.concat {line : List Trivia} (h : AllBlank line) {t : Trivia}
    (ht : t.kind = .whitespace) : AllBlank (line ++ [t]) := by
  intro u hu
  rcases List.mem_append.mp hu with hu | hu
  · exact h u hu
  · rw [List.mem_singleton.mp hu]
    exact ht

theorem allBlank_nil : AllBlank [] := nofun

def Trivia.isRemark (t : Trivia) : Bool :=
  t.isComment || t.isDirective

/-- Nothing is added to the trivia or moved in it, and no mark is left. -/
theorem collapseLeading_sublist (suppress : Bool) (state : LineState) (ts : List Trivia) :
    (collapseLeading suppress state ts).Sublist (state.line ++ ts.filter (!·.isElastic)) := by
  fun_induction collapseLeading suppress state ts with
  | case1 state => simp
  | case2 state t ts hkind ih =>
    rwa [List.filter_cons_of_neg (by simp [Trivia.isElastic, hkind])]
  | case3 state t ts hkind ih =>
    rw [List.filter_cons_of_pos (by simp [Trivia.isElastic, hkind])]
    rwa [List.append_assoc] at ih
  | case4 state t ts hkind blankLines dropped ih =>
    rw [List.filter_cons_of_pos (by simp [Trivia.isElastic, hkind]),
      List.append_cons _ _ (List.filter ..)]
    apply List.Sublist.append _ ih
    split
    · exact List.nil_sublist _
    · exact List.Sublist.refl _
  | case5 state t ts kind hkind ih =>
    rw [List.filter_cons_of_pos (by simp [Trivia.isElastic, hkind])]
    exact (List.Sublist.refl _).append (ih.cons_cons t)
  | case6 state t ts hkind ih | case7 state t ts hkind ih =>
    rw [List.filter_cons_of_pos (by simp [Trivia.isElastic, hkind])]
    exact (List.Sublist.refl _).append (ih.cons_cons t)

/-- Comments and directives stay. -/
theorem filter_isRemark_collapseLeading (suppress : Bool) (state : LineState) (ts : List Trivia)
    (hline : AllBlank state.line) :
    (collapseLeading suppress state ts).filter Trivia.isRemark = ts.filter Trivia.isRemark := by
  have hnone {line : List Trivia} (h : AllBlank line) : line.filter Trivia.isRemark = [] := by
    rw [List.filter_eq_nil_iff]
    intro t ht
    simp [Trivia.isRemark, Trivia.isComment, Trivia.isDirective, h t ht]
  fun_induction collapseLeading suppress state ts with
  | case1 state => exact hnone hline
  | case2 state t ts hkind ih =>
    rw [ih hline,
      List.filter_cons_of_neg
        (by simp [Trivia.isRemark, Trivia.isComment, Trivia.isDirective, hkind])]
  | case3 state t ts hkind ih =>
    rw [ih (hline.concat hkind),
      List.filter_cons_of_neg
        (by simp [Trivia.isRemark, Trivia.isComment, Trivia.isDirective, hkind])]
  | case4 state t ts hkind blankLines dropped ih =>
    have ht : t.isRemark = false := by
      simp [Trivia.isRemark, Trivia.isComment, Trivia.isDirective, hkind]
    rw [List.filter_append, ih allBlank_nil, List.filter_cons_of_neg (by simp [ht])]
    split
    · rfl
    · rw [List.filter_append, hnone hline, List.filter_cons_of_neg (by simp [ht])]
      rfl
  | case5 state t ts kind hkind ih | case6 state t ts hkind ih | case7 state t ts hkind ih =>
    have ht : t.isRemark := by simp [Trivia.isRemark, Trivia.isComment, Trivia.isDirective, hkind]
    rw [List.filter_append, hnone hline, List.filter_cons_of_pos ht, ih allBlank_nil,
      List.filter_cons_of_pos ht]
    rfl

/-- What is taken out is blank lines, so the others stay as they are. -/
theorem filledLines_collapseLeading (suppress : Bool) (state : LineState) {ts : List Trivia}
    {after : List Char} (hline : ∀ c ∈ triviaText state.line, Scanner.isLineBlank c)
    (hfits : TriviaFits ts after) (before : List Char)
    (hstart : state.atLineStart → EndsLine before) :
    filledLines (before ++ (triviaText (collapseLeading suppress state ts) ++ after)) = filledLines
      (before ++ (triviaText state.line ++ (triviaText ts ++ after))) := by
  have hempty : ∀ c ∈ triviaText [], Scanner.isLineBlank c := List.forall_mem_nil _
  revert before
  fun_induction collapseLeading suppress state ts with
  | case1 state => exact fun _ _ => rfl
  | case2 state t ts hkind ih =>
    intro before hstart
    obtain ⟨ht, hfits⟩ := hfits
    rw [Trivia.Fits, hkind] at ht
    rw [ih hline hfits before hstart, triviaText_cons, ht]
    rfl
  | case3 state t ts hkind ih =>
    intro before hstart
    obtain ⟨ht, hfits⟩ := hfits
    rw [Trivia.Fits, hkind] at ht
    rw [ih _ hfits before hstart]
    · simp only [triviaText_append, triviaText_cons, triviaText_nil, List.append_nil,
        List.append_assoc]
    · intro c hc
      rw [triviaText_append, triviaText_cons, triviaText_nil, List.append_nil] at hc
      rcases List.mem_append.mp hc with hc | hc
      · exact hline c hc
      · exact ht c hc
  | case4 state t ts hkind blankLines dropped ih =>
    intro before hstart
    obtain ⟨hfit, hfits⟩ := hfits
    have ht := hfit
    rw [Trivia.Fits, hkind] at ht
    cases hdropped : dropped with
    | true =>
      -- The line began in front of the blanks, so it holds nothing else.
      have hbefore := hstart (Bool.and_eq_true_iff.mp hdropped).1
      rw [if_pos rfl, List.nil_append, ih hempty hfits before fun _ => hbefore, triviaText_cons]
      rw [← filledLines_blank_line hbefore hline ht]
      simp only [triviaText_nil, List.nil_append, List.append_assoc]
    | false =>
      have hnext := ih hempty hfits (before ++ triviaText state.line ++ t.text.toList) fun _ =>
        endsLine_append (hfit.endsLine hkind)
      simpa only [triviaText_append, triviaText_cons, triviaText_nil, List.append_nil,
        List.nil_append, List.append_assoc, Bool.false_eq_true, if_false] using hnext
  | case5 state t ts kind hkind ih =>
    intro before hstart
    obtain ⟨ht, hfits⟩ := hfits
    rw [Trivia.Fits, hkind] at ht
    rcases ht with hends | hlast
    · have hnext := ih hempty hfits (before ++ triviaText state.line ++ t.text.toList) fun _ =>
        endsLine_append hends
      simpa only [triviaText_append, triviaText_cons, triviaText_nil, List.append_nil,
        List.nil_append, List.append_assoc] using hnext
    · -- The directive is the last thing of the text.
      obtain ⟨hts, rfl⟩ := List.append_eq_nil_iff.mp hlast
      have hsublist :=
        (collapseLeading_sublist suppress ⟨[], true, 0⟩ ts).trans
          ((List.Sublist.refl _).append List.filter_sublist)
      have hmade : triviaText (collapseLeading suppress ⟨[], true, 0⟩ ts) = [] := by
        have htext := hsublist.flatMap fun t : Trivia => t.text.toList
        rw [List.nil_append, show ts.flatMap _ = [] from hts] at htext
        exact List.sublist_nil.mp htext
      rw [triviaText_append, triviaText_cons, triviaText_cons, hmade, hts]
      simp only [List.append_nil]
  | case6 state t ts hkind ih | case7 state t ts hkind ih =>
    intro before hstart
    have hnext := ih hempty hfits.2 (before ++ triviaText state.line ++ t.text.toList) fun hstart =>
      absurd hstart Bool.false_ne_true
    simpa only [triviaText_append, triviaText_cons, triviaText_nil, List.append_nil,
      List.nil_append, List.append_assoc] using hnext

/-! ## Blank lines in trivia -/

def Trivia.endsLine (t : Trivia) : Bool :=
  t.isEndOfLine || t.isDirective

/-- Blanks and the line break behind them. -/
inductive IsBlankLine : List Trivia → Prop where
  | lineBreak {t : Trivia} : t.kind = .endOfLine → IsBlankLine [t]
  | blank {t : Trivia} {line : List Trivia} : t.kind = .whitespace → IsBlankLine line →
    IsBlankLine (t :: line)

def BeginsBlank (ts : List Trivia) : Prop :=
  ∃ line rest, ts = line ++ rest ∧ IsBlankLine line

def BeginsApart (ts : List Trivia) : Prop :=
  ∀ line rest, ts = line ++ rest → IsBlankLine line → ¬BeginsBlank rest

/-- From each place at which a line begins the trivia has the property. Whether one begins in
front of all trivia is given by `start`. -/
def EachLine (p : List Trivia → Prop) (start : Bool) (ts : List Trivia) : Prop :=
  ∀ before rest, ts = before ++ rest → before.getLast?.elim start Trivia.endsLine = true → p rest

section Lines

variable {p : List Trivia → Prop} {start : Bool} {t : Trivia} {ts line : List Trivia}

theorem eachLine_nil : EachLine p start [] ↔ (start → p []) := by
  constructor
  · exact fun h => h [] [] rfl
  · intro h before rest heq hends
    obtain ⟨rfl, rfl⟩ := List.append_eq_nil_iff.mp heq.symm
    exact h hends

/-- Behind a piece that ends a line, the next line begins. -/
theorem eachLine_cons :
    EachLine p start (t :: ts) ↔ (start → p (t :: ts)) ∧ EachLine p t.endsLine ts := by
  have hlast (before : List Trivia) :
      (t :: before).getLast?.elim start Trivia.endsLine = before.getLast?.elim t.endsLine
        Trivia.endsLine := by
    rw [List.getLast?_cons]
    cases before.getLast? <;> rfl
  constructor
  · intro h
    refine ⟨h [] _ rfl, fun before rest heq hends => h (t :: before) rest (congrArg _ heq) ?_⟩
    rwa [hlast]
  · rintro ⟨hfirst, hothers⟩ before rest heq hends
    cases before with
    | nil =>
      rw [← show t :: ts = rest from heq]
      exact hfirst hends
    | cons u before =>
      obtain ⟨rfl, rfl⟩ := List.cons.inj heq
      exact hothers before rest rfl (hlast before ▸ hends)

/-- No line begins behind a blank. -/
theorem eachLine_blanks (hline : AllBlank line) : EachLine p start line ↔ (start → p line) := by
  induction line generalizing start with
  | nil => exact eachLine_nil
  | cons t line ih =>
    obtain ⟨ht, hline⟩ := List.forall_mem_cons.mp hline
    have hends : t.endsLine = false := by
      simp [Trivia.endsLine, Trivia.isEndOfLine, Trivia.isDirective, ht]
    rw [eachLine_cons, hends, ih hline]
    simp

/-- Blanks at the start of a line belong to that line. -/
theorem eachLine_append (hline : AllBlank line) :
    EachLine p start (line ++ t :: ts) ↔
      (start → p (line ++ t :: ts)) ∧ EachLine p t.endsLine ts := by
  induction line generalizing start with
  | nil => exact eachLine_cons
  | cons u line ih =>
    obtain ⟨hu, hline⟩ := List.forall_mem_cons.mp hline
    have hends : u.endsLine = false := by
      simp [Trivia.endsLine, Trivia.isEndOfLine, Trivia.isDirective, hu]
    rw [List.cons_append, eachLine_cons, hends, ih hline]
    simp

/-- A blank line is the blanks up to the first line break and that. -/
theorem IsBlankLine.eq_of_append {first rest : List Trivia} (h : IsBlankLine first)
    (hline : AllBlank line) (ht : t.kind ≠ .whitespace) (heq : line ++ t :: ts = first ++ rest) :
    t.kind = .endOfLine ∧ ts = rest := by
  induction h generalizing line with
  | lineBreak hu =>
    cases line with
    | nil =>
      obtain ⟨rfl, rfl⟩ := List.cons.inj heq
      exact ⟨hu, rfl⟩
    | cons w line =>
      obtain ⟨rfl, -⟩ := List.cons.inj heq
      cases hu.symm.trans (hline _ List.mem_cons_self)
  | blank hu _ ih =>
    cases line with
    | nil =>
      obtain ⟨rfl, -⟩ := List.cons.inj heq
      exact absurd hu ht
    | cons w line =>
      obtain ⟨-, heq⟩ := List.cons.inj heq
      exact ih (List.forall_mem_cons.mp hline).2 heq

theorem not_beginsBlank_of_allBlank (hline : AllBlank line) : ¬BeginsBlank line := by
  rintro ⟨first, rest, rfl, hfirst⟩
  induction hfirst with
  | lineBreak ht => cases ht.symm.trans (hline _ List.mem_cons_self)
  | blank _ _ ih => exact ih (List.forall_mem_cons.mp hline).2

theorem not_beginsBlank_append (hline : AllBlank line) (ht : t.kind ≠ .whitespace)
    (ht' : t.kind ≠ .endOfLine) : ¬BeginsBlank (line ++ t :: ts) := by
  rintro ⟨first, rest, heq, hfirst⟩
  exact ht' (hfirst.eq_of_append hline ht heq).1

theorem beginsApart_of_not (h : ¬BeginsBlank ts) : BeginsApart ts :=
  fun line rest heq hline => absurd ⟨line, rest, heq, hline⟩ h

/-- A line with a comment or a directive is not blank. -/
theorem eachLine_remark (hline : AllBlank line) (ht : t.kind ≠ .whitespace)
    (ht' : t.kind ≠ .endOfLine) {suppress ends : Bool} (hends : t.endsLine = ends)
    (hapart : EachLine BeginsApart ends ts) (hnone : suppress → EachLine (¬BeginsBlank ·) ends ts) :
    EachLine BeginsApart start (line ++ t :: ts) ∧
      (suppress → EachLine (¬BeginsBlank ·) start (line ++ t :: ts)) ∧
      ¬BeginsBlank (line ++ t :: ts) := by
  have hfirst : ¬BeginsBlank (line ++ t :: ts) := not_beginsBlank_append hline ht ht'
  rw [eachLine_append hline, eachLine_append hline, hends]
  exact ⟨⟨fun _ => beginsApart_of_not hfirst, hapart⟩,
    fun hsuppress => ⟨fun _ => hfirst, hnone hsuppress⟩, hfirst⟩

/-- Of the blank lines in a row the first is left, if any may be. -/
theorem eachLine_collapseLeading (suppress : Bool) (state : LineState) (ts : List Trivia)
    (hline : AllBlank state.line) :
    EachLine BeginsApart state.atLineStart (collapseLeading suppress state ts) ∧
      (suppress → EachLine (¬BeginsBlank ·) state.atLineStart (collapseLeading suppress state ts)) ∧
      (state.atLineStart → suppress ∨ 0 < state.blankLines →
        ¬BeginsBlank (collapseLeading suppress state ts)) := by
  fun_induction collapseLeading suppress state ts with
  | case1 state =>
    have hnone := not_beginsBlank_of_allBlank hline
    rw [eachLine_blanks hline, eachLine_blanks hline]
    exact ⟨fun _ => beginsApart_of_not hnone, fun _ _ => hnone, fun _ _ => hnone⟩
  | case2 state t ts hkind ih => exact ih hline
  | case3 state t ts hkind ih => exact ih (hline.concat hkind)
  | case4 state t ts hkind blankLines dropped ih =>
    obtain ⟨hapart, hnone, hfirst⟩ := ih allBlank_nil
    have hends : t.endsLine = true := by simp [Trivia.endsLine, Trivia.isEndOfLine, hkind]
    cases hdropped : dropped with
    | true =>
      obtain ⟨hstart, -⟩ := Bool.and_eq_true_iff.mp hdropped
      have hcount : 0 < blankLines := by simp [blankLines, hstart]
      rw [if_pos rfl, List.nil_append, hstart]
      exact ⟨hapart, hnone, fun _ _ => hfirst rfl (.inr hcount)⟩
    | false =>
      -- A blank line that is left is the first one, and blank lines may be left.
      have hleft (hstart : state.atLineStart) : suppress = false ∧ state.blankLines = 0 ∧
          0 < blankLines := by
        have hcount : blankLines = state.blankLines + 1 := if_pos hstart
        have hkept : suppress = false ∧ ¬blankLines > 1 := by simpa [dropped, hstart] using hdropped
        exact ⟨hkept.1, by omega, by omega⟩
      rw [if_neg Bool.false_ne_true, List.append_assoc, List.singleton_append,
        eachLine_append hline, eachLine_append hline, hends]
      refine ⟨⟨fun hstart line rest heq hblank => ?_, hapart⟩,
        fun hsuppress => ⟨fun hstart => ?_, hnone hsuppress⟩, fun hstart hno => ?_⟩
      · rw [← (hblank.eq_of_append hline (by rw [hkind]; decide) heq).2]
        exact hfirst rfl (.inr (hleft hstart).2.2)
      · cases (hleft hstart).1.symm.trans hsuppress
      · obtain ⟨hsuppress, hcount, -⟩ := hleft hstart
        rw [hsuppress, hcount] at hno
        simp at hno
  | case5 state t ts kind hkind ih =>
    obtain ⟨hapart, hnone, -⟩ := ih allBlank_nil
    have hends : t.endsLine = true := by
      simp [Trivia.endsLine, Trivia.isEndOfLine, Trivia.isDirective, hkind]
    obtain ⟨hapart, hnone, hfirst⟩ :=
      eachLine_remark hline (by simp [hkind]) (by simp [hkind]) hends hapart hnone
    exact ⟨hapart, hnone, fun _ _ => hfirst⟩
  | case6 state t ts hkind ih | case7 state t ts hkind ih =>
    obtain ⟨hapart, hnone, -⟩ := ih allBlank_nil
    have hends : t.endsLine = false := by
      simp [Trivia.endsLine, Trivia.isEndOfLine, Trivia.isDirective, hkind]
    obtain ⟨hapart, hnone, hfirst⟩ :=
      eachLine_remark hline (by simp [hkind]) (by simp [hkind]) hends hapart hnone
    exact ⟨hapart, hnone, fun _ _ => hfirst⟩

end Lines

/-! ## One token after another -/

def lastPresent? (previous? : Option Token) (ts : List Token) : Option Token :=
  (ts.filter (!·.isMissing)).getLast?.or previous?

theorem lastPresent?_append (previous? : Option Token) (ts us : List Token) :
    lastPresent? previous? (ts ++ us) = lastPresent? (lastPresent? previous? ts) us := by
  rw [lastPresent?, lastPresent?, lastPresent?, List.filter_append, List.getLast?_append,
    Option.or_assoc]

def Token.collapseAll (previous? : Option Token) : List Token → List Token
  | [] => []
  | t :: ts =>
    t.collapse previous? :: collapseAll (lastPresent? previous? [t.collapse previous?]) ts

theorem Token.collapseAll_append (previous? : Option Token) (ts us : List Token) :
    Token.collapseAll previous? (ts ++ us) = Token.collapseAll previous? ts ++ Token.collapseAll
      (lastPresent? previous? (Token.collapseAll previous? ts)) us := by
  induction ts generalizing previous? with
  | nil => rfl
  | cons t ts ih =>
    rw [List.cons_append, collapseAll, collapseAll, ih, ← lastPresent?_append]
    rfl

/-- Each token is tidied behind the last one that is not missing. -/
theorem Token.getElem?_collapseAll (previous? : Option Token) (ts : List Token) (i : Nat) :
    (Token.collapseAll previous? ts)[i]? = ts[i]?.map
      (·.collapse (lastPresent? previous? ((Token.collapseAll previous? ts).take i))) := by
  induction ts generalizing previous? i with
  | nil => rfl
  | cons t ts ih =>
    cases i with
    | zero => rfl
    | succ i =>
      rw [collapseAll, List.getElem?_cons_succ, List.getElem?_cons_succ, ih, List.take_succ_cons,
        ← lastPresent?_append]
      rfl

namespace Element

mutual

theorem collapse_eq (previous? : Option Token) (e : Element) :
    (e.collapse previous?).1.tokens = Token.collapseAll previous? e.tokens ∧
      (e.collapse previous?).2 = lastPresent? previous? (Token.collapseAll previous? e.tokens) := by
  cases e with
  | token t =>
    refine ⟨rfl, ?_⟩
    rw [collapse, tokens, Token.collapseAll, Token.collapseAll, lastPresent?]
    cases hmissing : (t.collapse previous?).isMissing <;> simp [hmissing]
  | node kind children => exact collapseAll_eq previous? children

/-- Tidying elements is tidying their tokens, each behind the last one present. -/
theorem collapseAll_eq (previous? : Option Token) (es : List Element) :
    tokensOf (collapseAll previous? es).1 = Token.collapseAll previous? (tokensOf es) ∧
      (collapseAll previous? es).2 = lastPresent? previous?
        (Token.collapseAll previous? (tokensOf es)) := by
  cases es with
  | nil => exact ⟨rfl, rfl⟩
  | cons e es =>
    obtain ⟨htokens, hlast⟩ := collapse_eq previous? e
    obtain ⟨hothers, hlast'⟩ := collapseAll_eq (e.collapse previous?).2 es
    rw [tokensOf, Token.collapseAll_append, lastPresent?_append, ← hlast, ← hlast', ← htokens,
      ← hothers]
    exact ⟨rfl, rfl⟩

end

end Element

/-- The tokens of a tidied tree are those of the tree, tidied. -/
theorem Node.tokens_collapseElastic (n : Node) :
    n.collapseElastic.tokens = Token.collapseAll none n.tokens :=
  (Element.collapseAll_eq none n.children).1

def Token.core (t : Token) : Token :=
  .bare t.kind t.text

theorem Token.core_collapse (previous? : Option Token) (t : Token) :
    (t.collapse previous?).core = t.core := by
  rw [collapse]
  split <;> rfl

namespace Element

mutual

theorem core_collapse (previous? : Option Token) (e : Element) :
    (e.collapse previous?).1.map Token.core = e.map Token.core := by
  cases e with
  | token t =>
    rw [collapse, map_token, map_token, Token.core_collapse]
  | node kind children =>
    rw [map_node, ← core_collapseAll previous? children, ← map_node]
    rfl

theorem core_collapseAll (previous? : Option Token) (es : List Element) :
    mapAll Token.core (collapseAll previous? es).1 = mapAll Token.core es := by
  cases es with
  | nil => rfl
  | cons e es =>
    rw [collapseAll, mapAll_cons, mapAll_cons, core_collapse previous? e, core_collapseAll _ es]

end

end Element

/-- What tidying does to a token: it takes the marks out, and in front of a marked token also
blanks and line breaks. -/
structure Token.Tidied (t t' : Token) : Prop where
  core : t'.core = t.core
  unmarked : t.isMarked = false → t' = t
  leading : t'.leading.Sublist (t.leading.filter (!·.isElastic))
  remarks : t'.leading.filter Trivia.isRemark = t.leading.filter Trivia.isRemark
  trailing : t'.trailing = t.trailing.filter (!·.isElastic)

/-- What follows the token begins a line, as does what follows no token. Directives stand only
in front of tokens, so it takes a line break behind one. -/
def beginsLine (previous? : Option Token) : Bool :=
  previous?.all fun t => t.trailing.getLast?.any Trivia.isEndOfLine

def besideBrace (previous? : Option Token) (t : Token) : Bool :=
  previous?.any (·.kind == .openBraceToken) || t.kind == .closeBraceToken

/-- The blank lines in front of a token behind `previous?` stand apart, and beside a brace there
are none. -/
structure Token.Spaced (previous? : Option Token) (t : Token) : Prop where
  apart : EachLine BeginsApart (beginsLine previous?) t.leading
  none : (∃ p ∈ previous?, p.kind = .openBraceToken) ∨ t.kind = .closeBraceToken →
    EachLine (¬BeginsBlank ·) (beginsLine previous?) t.leading

namespace Token

variable {previous? : Option Token} {t : Token}

theorem collapse_of_marked (h : t.isMarked) : t.collapse previous? =
    { t with
      leading := collapseLeading (besideBrace previous? t) ⟨[], beginsLine previous?, 0⟩ t.leading
      trailing := t.trailing.filter (!·.isElastic) } :=
  if_pos h

theorem collapse_of_unmarked (h : t.isMarked = false) : t.collapse previous? = t :=
  if_neg (by simp [h])

theorem isMissing_collapse (previous? : Option Token) (t : Token) :
    (t.collapse previous?).isMissing = t.isMissing := by
  rw [collapse]
  split <;> rfl

/-- Tidying keeps the text of a token and its remarks. -/
theorem tidied_collapse (previous? : Option Token) (t : Token) :
    t.Tidied (t.collapse previous?) := by
  cases hmarked : t.isMarked with
  | true =>
    rw [collapse_of_marked hmarked]
    constructor
    · rfl
    · exact fun h => Bool.noConfusion (hmarked.symm.trans h)
    · exact collapseLeading_sublist _ _ _
    · exact filter_isRemark_collapseLeading _ _ _ allBlank_nil
    · rfl
  | false =>
    obtain ⟨hleading, htrailing⟩ := Bool.or_eq_false_iff.mp hmarked
    have hall {ts : List Trivia} (h : ts.any Trivia.isElastic = false) : ts.filter (!·.isElastic) =
        ts := by
      rw [List.filter_eq_self]
      simpa using h
    rw [collapse_of_unmarked hmarked]
    exact ⟨rfl, fun _ => rfl, (hall hleading).symm ▸ List.Sublist.refl _, rfl,
      (hall htrailing).symm⟩

theorem spaced_collapse (h : t.isMarked) : (t.collapse previous?).Spaced previous? := by
  obtain ⟨hapart, hnone, -⟩ :=
    eachLine_collapseLeading (besideBrace previous? t) ⟨[], beginsLine previous?, 0⟩ t.leading
      allBlank_nil
  rw [collapse_of_marked h]
  refine ⟨hapart, fun hbrace => hnone ?_⟩
  rw [besideBrace, Bool.or_eq_true, Option.any_eq_true]
  simpa using hbrace

end Token

/-! ## The text of the tokens -/

/-- Behind a token whose trivia ends in a line break a line begins. -/
theorem endsLine_of_beginsLine {t : Token} (hfits : ∀ piece ∈ t.trailing, ∃ rest, piece.Fits rest)
    (hbegins : beginsLine (some t)) (before : List Char) : EndsLine (before ++ t.fullText) := by
  obtain ⟨e, he, hkind⟩ :=
    (Option.any_eq_true ..).mp (show t.trailing.getLast?.any Trivia.isEndOfLine from hbegins)
  obtain ⟨_, hfit⟩ := hfits e (List.mem_of_getLast? he)
  obtain ⟨init, htrailing⟩ := List.getLast?_eq_some_iff.mp he
  rw [Token.fullText, htrailing, triviaText_append, triviaText_cons, triviaText_nil,
    List.append_nil, ← List.append_assoc, ← List.append_assoc]
  exact endsLine_append (hfit.endsLine (beq_iff_eq.mp hkind))

namespace Token

variable {previous? : Option Token} {t : Token} {rest : List Char}

/-- Tidying one token leaves the lines that count. -/
theorem filledLines_collapse
    (hleading : TriviaFits t.leading (t.text.toList ++ triviaText t.trailing ++ rest))
    (htrailing : TriviaFits t.trailing rest) (before : List Char)
    (hstart : beginsLine previous? → EndsLine before) :
    filledLines (before ++ ((t.collapse previous?).fullText ++ rest)) = filledLines
      (before ++ (t.fullText ++ rest)) := by
  cases hmarked : t.isMarked with
  | false => rw [collapse_of_unmarked hmarked]
  | true =>
    have hlines :=
      filledLines_collapseLeading (besideBrace previous? t) ⟨[], beginsLine previous?, 0⟩
        nofun hleading before hstart
    rw [collapse_of_marked hmarked, fullText, fullText]
    dsimp only
    rw [htrailing.triviaText_filter]
    simpa only [triviaText_nil, List.nil_append, List.append_assoc] using hlines

end Token

/-- The lines of a text that count are those of the tidied text. -/
theorem filledLines_collapseAll {previous? : Option Token} {ts : List Token} (hfits : TokensFit ts)
    (before : List Char) (hstart : beginsLine previous? → EndsLine before) :
    filledLines (before ++ tokensText (Token.collapseAll previous? ts)) = filledLines
      (before ++ tokensText ts) := by
  induction ts generalizing previous? before with
  | nil => rfl
  | cons t ts ih =>
    obtain ⟨⟨hleading, htrailing, hmissing⟩, hfits⟩ := hfits
    rw [Token.collapseAll, tokensText_cons, tokensText_cons,
      ← Token.filledLines_collapse hleading htrailing before hstart]
    rw [← List.append_assoc, ← List.append_assoc]
    apply ih hfits
    intro hbegins
    cases hpresent : t.isMissing with
    | true =>
      -- A missing token takes up no place, so it is as if it were not there.
      obtain ⟨hnone, hnone'⟩ := hmissing hpresent
      have hunmarked : t.isMarked = false := by simp [Token.isMarked, hnone, hnone']
      have hempty : t.text = "" := by simpa using (Bool.and_eq_true_iff.mp hpresent).1
      have htext : t.fullText = [] := by
        simp [Token.fullText, hnone, hnone', hempty, triviaText_nil]
      rw [Token.collapse_of_unmarked hunmarked] at hbegins ⊢
      rw [htext, List.append_nil]
      apply hstart
      simpa [lastPresent?, hpresent] using hbegins
    | false =>
      rw [← t.isMissing_collapse previous?] at hpresent
      apply endsLine_of_beginsLine
      · intro piece hpiece
        rw [(Token.tidied_collapse previous? t).trailing] at hpiece
        exact htrailing.of_mem (List.mem_filter.mp hpiece).1
      · simpa [lastPresent?, hpresent] using hbegins

theorem Token.forall₂_collapseAll (previous? : Option Token) (ts : List Token) :
    List.Forall₂ Token.Tidied ts (Token.collapseAll previous? ts) := by
  induction ts generalizing previous? with
  | nil => exact .nil
  | cons t ts ih => exact .cons (tidied_collapse previous? t) (ih _)

theorem Token.Tidied.isElastic {t t' : Token} (h : t.Tidied t') :
    ∀ piece ∈ t'.leading ++ t'.trailing, piece.isElastic = false := by
  intro piece hpiece
  have hmem : piece ∈ t.leading.filter (!·.isElastic) ∨
      piece ∈ t.trailing.filter (!·.isElastic) := by
    rw [← h.trailing]
    exact (List.mem_append.mp hpiece).imp_left fun hleading => h.leading.subset hleading
  rcases hmem with hmem | hmem <;> simpa using (List.mem_filter.mp hmem).2

/-- A tidied tree has no marks, and is the same tree but for the trivia in front of tokens that
had one: there blank lines have gone, so that no two of them follow each other and none is left
beside a brace. -/
theorem Node.collapseElastic_tidies (n : Node) (h : TokensFit n.tokens) :
    (∀ t ∈ n.collapseElastic.tokens, ∀ piece ∈ t.leading ++ t.trailing, piece.isElastic = false) ∧
      n.collapseElastic.element.map Token.core = n.element.map Token.core ∧
      List.Forall₂ Token.Tidied n.tokens n.collapseElastic.tokens ∧
      filledLines n.collapseElastic.text.toList = filledLines n.text.toList ∧
      ∀ (i : Nat) (t t' : Token), n.tokens[i]? = some t → n.collapseElastic.tokens[i]? = some t' →
      t.isMarked →
      t'.Spaced ((n.collapseElastic.tokens.take i).filter (!·.isMissing)).getLast? := by
  have htokens := n.tokens_collapseElastic
  have htidied : List.Forall₂ Token.Tidied n.tokens n.collapseElastic.tokens :=
    htokens ▸ Token.forall₂_collapseAll none _
  refine ⟨?_, ?_, htidied, ?_, fun i t t' ht ht' hmarked => ?_⟩
  · exact ((List.forall₂_and_left _ _).mp
      (htidied.flip.imp fun _ _ h => ⟨Token.Tidied.isElastic h, h⟩)).1
  · rw [element, element, Element.map_node, Element.map_node]
    exact congrArg _ (Element.core_collapseAll none n.children)
  · rw [text, text, String.toList_ofList, String.toList_ofList, htokens]
    exact filledLines_collapseAll h [] fun _ => endsLine_nil
  · rw [htokens, Token.getElem?_collapseAll, ht, Option.map_some, ← htokens, lastPresent?,
      Option.or_none] at ht'
    cases ht'
    exact Token.spaced_collapse hmarked

/-- Where two fields have gone, no blank line is left behind the opening brace, and one of two
between the fields that are left. -/
theorem Node.collapseElastic_tidies_use :
    ∃ root : Node, TokensFit root.tokens ∧
      root.text = "class C \x7b\n\n int b;\n\n\n int d;\n\x7d" ∧
      root.collapseElastic.text = "class C \x7b\n int b;\n\n int d;\n\x7d" ∧
      filledLines root.collapseElastic.text.toList = filledLines root.text.toList ∧
      List.Forall₂ Token.Tidied root.tokens root.collapseElastic.tokens := by
  have hedited :
      ((EditBatch.apply
        ⟨⟨7⟩, [.remove ⟨⟨7⟩, 2⟩ { marker := true }, .remove ⟨⟨7⟩, 10⟩ { marker := true }]⟩
      (Tree.ofText ⟨7⟩
        "class C \x7b\n int a;\n\n int b;\n\n int c;\n\n\n int d;\n\x7d")).toOption).any fun root =>
      decide (TokensFit root.tokens) && root.text == "class C \x7b\n\n int b;\n\n\n int d;\n\x7d" &&
        root.collapseElastic.text == "class C \x7b\n int b;\n\n int d;\n\x7d" := by decide +kernel
  obtain ⟨root, -, hroot⟩ := (Option.any_eq_true ..).mp hedited
  obtain ⟨hroot, htext'⟩ := Bool.and_eq_true_iff.mp hroot
  obtain ⟨hfits, htext⟩ := Bool.and_eq_true_iff.mp hroot
  have hfits := of_decide_eq_true hfits
  obtain ⟨_, _, htidied, hlines, _⟩ := collapseElastic_tidies root hfits
  exact ⟨root, hfits, beq_iff_eq.mp htext, beq_iff_eq.mp htext', hlines, htidied⟩

end AutoProperty
