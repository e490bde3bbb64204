import AutoProperty.Proofs.Syntax.ByteLoops
import AutoProperty.Proofs.Syntax.Leaves
import AutoProperty.Proofs.Syntax.Rescan
import Mathlib.Data.List.Induction

/-! # Scanning loses nothing

The scanner goes over bytes and cuts by offsets. Every offset it comes to lies between two
characters, so each cut succeeds, and what it cuts out are the tokens and the trivia that are
split off character by character. Each round takes at least one character, so the rounds end.
-/

namespace AutoProperty

namespace ByteScanner

open Scanner

/-! ## Pieces of trivia -/

theorem lineLength_comment (cs : List Char) :
    lineLength (utf8 ('/' :: '/' :: cs)) = byteLength ('/' :: '/' :: (splitLine cs).1) :=
  lineLength_utf8 ('/' :: '/' :: cs)

theorem commentLength (cs : List Char) :
    2 + commentEndLength ((utf8 ('/' :: '*' :: cs)).drop 2) = byteLength
      ('/' :: '*' :: (splitCommentEnd cs).1) := by
  have hrest : (utf8 ('/' :: '*' :: cs)).drop (byteLength ['/', '*']) = utf8 cs := drop_utf8 rfl
  have htwo : byteLength ['/', '*'] = 2 := rfl
  rw [htwo] at hrest
  rw [hrest, commentEndLength_utf8, ← htwo, ← byteLength_append]
  rfl

theorem lengthWhile_blank {c : Char} (hc : isLineBlank c = true) (cs : List Char) :
    lengthWhile isLineBlank (utf8 (c :: cs)) = byteLength (c :: (splitWhile isLineBlank cs).1) := by
  rw [lengthWhile_utf8 blind_isLineBlank, splitWhile, List.takeWhile_cons, if_pos hc, splitWhile]

theorem directiveLength (cs : List Char) :
    lineLength (utf8 ('#' :: cs)) + lineBreakLength
      ((utf8 ('#' :: cs)).drop (lineLength (utf8 ('#' :: cs)))) = byteLength
      ('#' :: (splitLine cs).1 ++ (splitLineBreak (splitLine cs).2).1) := by
  have hline : lineLength (utf8 ('#' :: cs)) = byteLength ('#' :: (splitLine cs).1) :=
    lineLength_utf8 ('#' :: cs)
  have happend : '#' :: (splitLine cs).1 ++ (splitLine cs).2 = '#' :: cs :=
    congrArg _ (splitLine_append cs)
  rw [hline, drop_utf8 happend, lineBreakLength_utf8, byteLength_append]

section

variable {text : String} {before cs : List Char}

theorem ahead_eq (h : text.toList = before ++ cs) : ahead text (byteLength before) = utf8 cs :=
  drop_utf8 h.symm

/-- What is cut out between characters is the text that stands there. -/
theorem cut?_eq {piece rest : List Char} (h : text.toList = before ++ cs)
    (hcs : piece ++ rest = cs) :
    cut? text (byteLength before) (byteLength before + byteLength piece) =
      some (String.ofList piece) := by
  rw [cut?, Span.slice?, h, ← hcs, ← List.append_assoc, cutBytes?_append]
  rfl

theorem piece?_eq {piece rest : List Char} (h : text.toList = before ++ cs)
    (hcs : piece ++ rest = cs) (kind : String → TriviaKind) :
    piece? text (byteLength before) kind (byteLength piece) =
      some (some (⟨kind (String.ofList piece), String.ofList piece⟩,
        byteLength (before ++ piece))) := by
  rw [piece?, cut?_eq h hcs, byteLength_append]
  rfl

/-- Looking back over the bytes tells whether the line holds only blanks so far. -/
theorem all_reverse_utf8 (cs : List Char) :
    (((utf8 cs).reverse.takeWhile fun b => !isLineBreak (toChar b)).all fun b => isLineBlank
      (toChar b)) = blankAfter true cs := by
  induction cs using List.reverseRecOn with
  | nil => rfl
  | append_singleton cs c ih =>
    have hlast : blankAfter true (cs ++ [c]) =
        (isLineBreak c || (blankAfter true cs && isLineBlank c)) :=
      blankAfter_append true cs [c]
    rw [utf8_append, List.reverse_append, utf8_cons, utf8_nil, List.append_nil, hlast]
    by_cases hc : IsAscii c
    · obtain ⟨b, hbytes, hb⟩ := utf8EncodeChar_ascii hc
      rw [hbytes, List.reverse_singleton, List.singleton_append, List.takeWhile_cons, hb]
      cases isLineBreak c with
      | true => rfl
      | false =>
        rw [Bool.not_false, if_pos rfl, List.all_cons, hb, ih, Bool.false_or, Bool.and_comm]
    · have hbytes (b : UInt8) (hmem : b ∈ (String.utf8EncodeChar c).reverse) :
          ¬ IsAscii (toChar b) :=
        not_isAscii_of_mem hc b (List.mem_reverse.mp hmem)
      obtain ⟨b, hmem⟩ :=
        List.exists_mem_of_ne_nil _
          (List.reverse_ne_nil_iff.mpr (String.utf8EncodeChar_ne_nil (c := c)))
      rw [List.takeWhile_append_of_pos fun b hb => congrArg (! ·)
        (blind_isLineBreak _ (hbytes b hb)), List.all_append,
        List.all_eq_false.mpr ⟨b, hmem, Bool.eq_false_iff.mp (blind_isLineBlank _ (hbytes b hmem))⟩,
        blind_isLineBreak c hc, blind_isLineBlank c hc, Bool.and_false]
      rfl

theorem atLineStart?_eq (h : text.toList = before ++ cs) :
    atLineStart? text (byteLength before) = some (blankAfter true before) := by
  have hcut : cut? text 0 (byteLength before) = some (String.ofList before) := by
    have hcut := cut?_eq (show text.toList = [] ++ (before ++ cs) from h) rfl
    rwa [byteLength_nil, Nat.zero_add] at hcut
  rw [atLineStart?, hcut, ← all_reverse_utf8]
  show some _ = some _
  rw [String.toList_ofList]

/-- What a run of trivia may take at a place. -/
def runAt (trailing : Bool) (before : List Char) : Run :=
  if trailing then .trailing else .leading (blankAfter true before)

theorem allowsDirective_runAt (trailing : Bool) (before : List Char) :
    (runAt trailing before).allowsDirective = (!trailing && blankAfter true before) := by
  cases trailing <;> rfl

/-- The same trivia is found over the bytes. -/
theorem trivia?_eq (h : text.toList = before ++ cs) (trailing : Bool) :
    trivia? text trailing (byteLength before) =
      some ((splitTrivia? (runAt trailing before).allowsDirective cs).map fun found =>
        (⟨found.1, String.ofList found.2.1⟩, byteLength (before ++ found.2.1))) := by
  simp only [trivia?, ahead_eq h]
  rw [allowsDirective_runAt]
  generalize hallowed : (!trailing && blankAfter true before) = directives
  fun_cases splitTrivia? directives cs with
  | case1 cs t r hs =>
    have hopens :=
      (opens_utf8 (show IsAscii '/' by decide) (show IsAscii '/' by decide) _).mpr ⟨cs, rfl⟩
    have happend : '/' :: '/' :: t ++ r = '/' :: '/' :: cs := by
      rw [List.cons_append, List.cons_append, ← splitLine_append cs, hs]
    rw [starts_cons blind_isLineBlank, if_neg (show ¬ isLineBlank '/' = true by decide),
      starts_cons blind_isLineBreak, if_neg (show ¬ isLineBreak '/' = true by decide),
      if_pos hopens, lineLength_comment, hs]
    exact piece?_eq h happend _
  | case2 cs t r hs =>
    have hline : ¬ opens '/' '/' (utf8 ('/' :: '*' :: cs)) = true := by
      rw [opens_utf8 (by decide) (by decide)]
      simp
    have hopens :=
      (opens_utf8 (show IsAscii '/' by decide) (show IsAscii '*' by decide) _).mpr ⟨cs, rfl⟩
    have happend : '/' :: '*' :: t ++ r = '/' :: '*' :: cs := by
      rw [List.cons_append, List.cons_append, ← splitCommentEnd_append cs, hs]
    rw [starts_cons blind_isLineBlank, if_neg (show ¬ isLineBlank '/' = true by decide),
      starts_cons blind_isLineBreak, if_neg (show ¬ isLineBreak '/' = true by decide), if_neg hline,
      if_pos hopens, commentLength, hs]
    exact piece?_eq h happend _
  | case3 c cs _ _ hc t r hs =>
    have happend : c :: t ++ r = c :: cs := by
      rw [List.cons_append, ← splitWhile_append isLineBlank cs, hs]
    rw [starts_cons blind_isLineBlank, if_pos hc, lengthWhile_blank hc, hs]
    exact piece?_eq h happend _
  | case4 c cs _ _ hnot hc t r hs =>
    have happend := splitLineBreak_append (c :: cs)
    rw [hs] at happend
    rw [starts_cons blind_isLineBlank, if_neg hnot, starts_cons blind_isLineBreak, if_pos hc,
      lineBreakLength_utf8, hs]
    exact piece?_eq h happend _
  | case5 c cs _ _ hnot hnot' hc line r hs lineBreak r' hs' all =>
    obtain ⟨hsharp, hdirectives⟩ := Bool.and_eq_true_iff.mp hc
    obtain rfl : c = '#' := by simpa using hsharp
    obtain ⟨htrailing, hstart⟩ := Bool.and_eq_true_iff.mp (hallowed.trans hdirectives)
    have hslash (rest : List Char) : '#' = '/' → cs = '/' :: rest → False :=
      fun h _ => absurd h (by decide)
    have hstar (rest : List Char) : '#' = '/' → cs = '*' :: rest → False :=
      fun h _ => absurd h (by decide)
    have happend : '#' :: line ++ lineBreak ++ r' = '#' :: cs := by
      have hrest := splitLineBreak_append r
      rw [hs'] at hrest
      rw [List.append_assoc, hrest, List.cons_append, ← splitLine_append cs, hs]
    have hlength := directiveLength cs
    rw [hs, hs'] at hlength
    rw [starts_cons blind_isLineBlank, if_neg hnot, starts_cons blind_isLineBreak, if_neg hnot',
      not_opens_utf8 (by decide) (by decide) hslash, not_opens_utf8 (by decide) (by decide) hstar,
      starts_cons (blind_beq (by decide)), htrailing, atLineStart?_eq h, hstart, hlength]
    exact piece?_eq h happend _
  | case6 c cs hline hcomment hnot hnot' hsharp =>
    rw [starts_cons blind_isLineBlank, if_neg hnot, starts_cons blind_isLineBreak, if_neg hnot',
      not_opens_utf8 (by decide) (by decide) hline, not_opens_utf8 (by decide) (by decide) hcomment,
      starts_cons (blind_beq (by decide))]
    -- A number sign starts a directive in front of a token only, and only if the line is blank so
    -- far.
    cases hc : c == '#' && !trailing with
    | false => rfl
    | true =>
      obtain ⟨hsharp', htrailing⟩ := Bool.and_eq_true_iff.mp hc
      have hstart : blankAfter true before = false := by
        rw [htrailing, Bool.true_and] at hallowed
        rw [hallowed]
        simpa [hsharp'] using hsharp
      rw [atLineStart?_eq h, hstart]
      rfl
  | case7 => rfl

/-- A run goes on behind a piece as it would begin there. -/
theorem next?_runAt (trailing : Bool) (before piece : List Char) (kind : TriviaKind) :
    (runAt trailing before).next? kind piece =
      if trailing && kind == .endOfLine then none else some (runAt trailing (before ++ piece)) := by
  cases trailing with
  | false => exact congrArg (some ∘ Run.leading) (blankAfter_append true before piece).symm
  | true => rfl

/-- The same run of trivia is found over the bytes, in no more rounds than there are characters. -/
theorem run?_eq {rounds : Nat} (h : text.toList = before ++ cs) (trailing : Bool)
    (hrounds : cs.length < rounds) :
    run? text trailing rounds (byteLength before) = some ((splitRun (runAt trailing before) cs).1,
      byteLength (before ++ triviaText (splitRun (runAt trailing before) cs).1)) := by
  induction rounds generalizing before cs with
  | zero => exact absurd hrounds (Nat.not_lt_zero _)
  | succ rounds ih =>
    rw [run?, trivia?_eq h]
    cases hsplit : splitTrivia? (runAt trailing before).allowsDirective cs with
    | none =>
      rw [splitRun_of_none hsplit]
      simp [triviaText]
    | some found =>
      obtain ⟨kind, piece, rest⟩ := found
      have happend := (splitTrivia?_append hsplit).1
      have hrest : text.toList = before ++ piece ++ rest := by rw [List.append_assoc, happend, h]
      have hlength := splitTrivia?_length hsplit
      have hmore := ih hrest (by omega)
      rw [splitRun_of_some hsplit, next?_runAt]
      cases htrailing : trailing && kind == .endOfLine with
      | true =>
        simp only [Option.map_some, Option.bind_eq_bind, Option.bind_some, htrailing, if_true]
        simp [triviaText]
      | false =>
        simp only [Option.map_some, Option.bind_eq_bind, Option.bind_some, htrailing, hmore,
          Bool.false_eq_true, if_false]
        simp [triviaText]

/-! ## Tokens -/

theorem blind_singleKind : Blind singleKind .badToken := by
  intro c hc
  unfold singleKind
  split <;> first | rfl | exact absurd (by decide) hc

theorem blind_pairKind? (c : Char) : Blind (pairKind? c) none := by
  intro d hd
  unfold pairKind?
  split <;> first | rfl | exact absurd (by decide) hd

theorem blind_pairKind?_left (d : Char) : Blind (pairKind? · d) none := by
  intro c hc
  show pairKind? c d = none
  unfold pairKind?
  split <;> first | rfl | exact absurd (by decide) hc

theorem width?_eq {c : Char} (h : text.toList = before ++ c :: cs) :
    width? text (byteLength before) = some c.utf8Size := by
  have hcut := cut?_eq h (List.append_nil _)
  rw [← byteLength_append, ← h] at hcut
  rw [width?, hcut]
  show some _ = some _
  rw [String.toList_ofList]
  rfl

/-- Punctuation found by its bytes is punctuation found by its characters. -/
theorem punctuation?_eq {c : Char} (h : text.toList = before ++ c :: cs) {b : UInt8}
    {bs : List UInt8} (hbytes : String.utf8EncodeChar c = b :: bs) :
    punctuation? text (byteLength before) (toChar b) ((bs ++ utf8 cs).head?.map toChar) =
      some ((splitPunctuation c cs).1, byteLength (splitPunctuation c cs).2.1) := by
  -- Whether two characters belong together can be told from their first bytes.
  have hpair : (((bs ++ utf8 cs).head?.map toChar).bind (pairKind? (toChar b))) = cs.head?.bind
      (pairKind? c) := by
    by_cases hc : IsAscii c
    · obtain ⟨hchar, rfl⟩ := cons_ascii hc hbytes
      rw [hchar, List.nil_append]
      cases cs with
      | nil => rfl
      | cons d ds =>
        obtain ⟨first, others, hd⟩ := exists_first d
        rw [utf8_cons, hd]
        exact (blind_pairKind? c).first hd
    · have hb : ¬ IsAscii (toChar b) := not_isAscii_of_mem hc b (hbytes ▸ List.mem_cons_self)
      have hnone {x : Char} (hx : ¬ IsAscii x) (d? : Option Char) : d?.bind (pairKind? x) =
          none := by
        cases d? with
        | none => rfl
        | some d => exact blind_pairKind?_left d x hx
      rw [hnone hb, hnone hc]
  have hsingle : singleKind (toChar b) = singleKind c := blind_singleKind.first hbytes
  have hone :
      (if singleKind c = .badToken then
        (do return (.badToken, ← width? text (byteLength before)) : Option (Kind × Nat))
      else some (singleKind c, 1)) = some (singleKind c, byteLength [c]) := by
    split
    next hbad =>
      rw [width?_eq h, hbad]
      rfl
    next hgood =>
      have hc : IsAscii c := by
        by_contra hc
        exact hgood (blind_singleKind c hc)
      rw [byteLength_cons, utf8Size_ascii hc]
      rfl
  unfold punctuation?
  rw [hpair, hsingle]
  fun_cases splitPunctuation c cs with
  | case1 => exact hone
  | case2 d rest kind hkind =>
    have hc : IsAscii c := by
      by_contra hc
      cases (blind_pairKind?_left d c hc).symm.trans hkind
    have hd : IsAscii d := by
      by_contra hd
      cases (blind_pairKind? c d hd).symm.trans hkind
    rw [List.head?_cons, Option.bind_some, hkind, byteLength_cons, byteLength_cons,
      utf8Size_ascii hc, utf8Size_ascii hd]
    rfl
  | case3 d rest hkind =>
    rw [List.head?_cons, Option.bind_some, hkind]
    exact hone

/-- The token at a byte offset is the one at the same character. -/
theorem tokenLength?_eq {c : Char} (h : text.toList = before ++ c :: cs) {b : UInt8}
    {bs : List UInt8} (hbytes : String.utf8EncodeChar c = b :: bs) :
    tokenLength? text (byteLength before) b (bs ++ utf8 cs) =
      some ((splitToken c cs).1, byteLength (splitToken c cs).2.1) := by
  have hall : b :: (bs ++ utf8 cs) = utf8 (c :: cs) := by rw [utf8_cons, hbytes, List.cons_append]
  -- Behind a quote, which is a single byte, the bytes of the others begin.
  have hquote {quote : Char} (hascii : IsAscii quote) (hc : (c == quote) = true) :
      1 + literalLength quote (bs ++ utf8 cs) = byteLength (c :: (splitLiteral quote cs).1) := by
    obtain rfl : c = quote := beq_iff_eq.mp hc
    rw [(cons_ascii hascii hbytes).2, List.nil_append, literalLength_utf8 hascii, byteLength_cons,
      utf8Size_ascii hascii]
  have hdouble : (toChar b == '"') = (c == '"') := (blind_beq (by decide)).first hbytes
  have hsingle : (toChar b == '\'') = (c == '\'') := (blind_beq (by decide)).first hbytes
  unfold tokenLength? splitToken
  rw [hall, blind_isWordStart.first hbytes, blind_isDigit.first hbytes, hdouble, hsingle]
  split
  next hword =>
    have hlength : lengthWhile isWordPart (utf8 (c :: cs)) = byteLength
        (c :: (splitWhile isWordPart cs).1) := by
      rw [lengthWhile_utf8 blind_isWordPart, splitWhile, List.takeWhile_cons,
        if_pos (isWordPart_of_isWordStart hword), splitWhile]
    have happend : c :: (splitWhile isWordPart cs).1 ++ (splitWhile isWordPart cs).2 = c :: cs :=
      congrArg _ (splitWhile_append isWordPart cs)
    have hcut := cut?_eq h happend
    rw [hlength]
    dsimp only
    rw [hcut]
    rfl
  split
  next =>
    rw [numberLength_utf8]
    rfl
  split
  next hc =>
    rw [hquote (by decide) hc]
    rfl
  split
  next hc =>
    rw [hquote (by decide) hc]
    rfl
  next => exact punctuation?_eq h hbytes

/-- The same token is found over the bytes. -/
theorem token?_eq {c : Char} (h : text.toList = before ++ c :: cs) :
    token? text (byteLength before) =
      some ((splitToken c cs).1, String.ofList (splitToken c cs).2.1,
        byteLength (before ++ (splitToken c cs).2.1)) := by
  obtain ⟨b, bs, hbytes⟩ := exists_first c
  have hahead : ahead text (byteLength before) = b :: (bs ++ utf8 cs) := by
    rw [ahead_eq h, utf8_cons, hbytes, List.cons_append]
  rw [token?, hahead]
  show (tokenLength? text (byteLength before) b (bs ++ utf8 cs)).bind _ = _
  rw [tokenLength?_eq h hbytes, Option.bind_some]
  dsimp only
  rw [cut?_eq h (splitToken_append c cs), byteLength_append]
  rfl

theorem token?_end (h : text.toList = before) :
    token? text (byteLength before) = some (.endOfFileToken, "", byteLength before) := by
  rw [token?, ahead_eq (h.trans (List.append_nil _).symm)]
  rfl

theorem scanFrom?_end {rounds offset start stop : Nat} {leading : List Trivia} {shown : String}
    (hlead : run? text false (rounds + 1) offset = some (leading, start))
    (hcore : token? text start = some (.endOfFileToken, shown, stop)) :
    scanFrom? text (rounds + 1) offset = some [⟨.endOfFileToken, shown, leading, []⟩] := by
  simp [scanFrom?, hlead, hcore]

theorem scanFrom?_token {rounds offset start stop behind : Nat} {leading trailing : List Trivia}
    {kind : Kind} {shown : String}
    (hlead : run? text false (rounds + 1) offset = some (leading, start))
    (hcore : token? text start = some (kind, shown, stop)) (hne : kind ≠ .endOfFileToken)
    (htrail : run? text true (rounds + 1) stop = some (trailing, behind)) :
    scanFrom? text (rounds + 1) offset = (scanFrom? text rounds behind).map
      (⟨kind, shown, leading, trailing⟩ :: ·) := by
  simp only [scanFrom?, hlead, hcore, htrail, Option.bind_eq_bind, Option.bind_some, if_neg hne]
  cases scanFrom? text rounds behind <;> rfl

/-- The same tokens are found over the bytes, in no more rounds than there are characters and
one. -/
theorem scanFrom?_eq {rounds : Nat} (h : text.toList = before ++ cs)
    (hrounds : cs.length < rounds) :
    scanFrom? text rounds (byteLength before) =
      some (scanFrom (blankAfter true before) cs).all := by
  induction rounds generalizing before cs with
  | zero => exact absurd hrounds (Nat.not_lt_zero _)
  | succ rounds ih =>
    have hleading := run?_eq h false hrounds
    have happend := splitRun_append (runAt false before) cs
    have hshorter := splitRun_length (runAt false before) cs
    rcases hlead : splitRun (runAt false before) cs with ⟨leading, rest⟩
    rw [hlead] at hleading happend hshorter
    cases rest with
    | nil =>
      have hend : text.toList = before ++ triviaText leading := by
        rw [h, ← happend, List.append_nil]
      rw [scanFrom?_end hleading (token?_end hend), scanFrom_of_nil hlead]
      rfl
    | cons c rest =>
      have hat : text.toList = before ++ triviaText leading ++ c :: rest := by
        rw [h, ← happend, List.append_assoc]
      have htoken := token?_eq hat
      have hne := splitToken_ne_end c rest
      have happend' := splitToken_append c rest
      have hshorter' := splitToken_length c rest
      rcases hcore : splitToken c rest with ⟨kind, core, behind⟩
      rw [hcore] at htoken hne happend' hshorter'
      have hbehind : text.toList = before ++ triviaText leading ++ core ++ behind := by
        rw [hat, ← happend', List.append_assoc _ core]
      have htrailing :=
        run?_eq hbehind true (show behind.length < rounds + 1 by simp only at *; omega)
      have happend'' := splitRun_append .trailing behind
      have hshorter'' := splitRun_length .trailing behind
      rcases htrail : splitRun .trailing behind with ⟨trailing, others⟩
      rw [show runAt true _ = .trailing from rfl, htrail] at htrailing
      rw [htrail] at happend'' hshorter''
      let token : Token := ⟨kind, String.ofList core, leading, trailing⟩
      have hfull : before ++ triviaText leading ++ core ++ triviaText trailing = before ++
          token.fullText := by
        rw [Token.fullText, String.toList_ofList]
        simp only [token, List.append_assoc]
      have hlast : text.toList = before ++ token.fullText ++ others := by
        rw [hbehind, ← happend'', ← hfull, List.append_assoc _ (triviaText trailing)]
      -- What is left behind the token is shorter, so the rounds that are left suffice for it.
      have hothers := ih hlast (by simp only at *; omega)
      rw [scanFrom?_token hleading htoken hne htrailing, scanFrom_of_cons hlead hcore htrail, hfull,
        hothers, blankAfter_append]
      rfl

end

/-- Going over the bytes, the scanner never cuts a character and comes to an end, and finds the
tokens of the text. -/
theorem scan?_eq (text : String) : scan? text = some (scan text).all :=
  scanFrom?_eq (List.nil_append _).symm (Nat.lt_succ_of_le (length_le_byteLength text.toList))

end ByteScanner

/-- The tokens of a text: nothing of it is lost, and only the last token stands for the end of
the text. -/
structure ScannedText.IsLossless (s : ScannedText) (text : String) : Prop where
  final : s.final.kind = .endOfFileToken ∧ s.final.text = "" ∧ s.final.trailing = []
  tokens : ∀ t ∈ s.tokens, t.kind ≠ .endOfFileToken ∧ t.text ≠ ""
  trivia : ∀ t ∈ s.all, ∀ piece ∈ t.leading ++ t.trailing, piece.text ≠ ""
  spelled : tokensText s.all = text.toList

/-- The scanner over bytes cuts at characters only, and loses nothing. -/
theorem isLossless_scan (text : String) : (scan text).IsLossless text where
  final := by
    obtain ⟨-, htrailing, hkind, htext⟩ := Scanner.unmarked_final true text.toList
    exact ⟨hkind, htext, htrailing⟩
  tokens t ht := by
    have hscanned : t.IsScanned := Scanner.isScanned_of_mem_scanFrom ht
    obtain ⟨c, rest, hcore⟩ := hscanned.core
    refine ⟨?_, fun hempty => hscanned.ne_nil (by rw [hempty, String.toList_empty])⟩
    rw [(Prod.mk.inj hcore).1]
    exact Scanner.splitToken_ne_end c rest
  trivia _ ht := Scanner.trivia_ne_empty ht
  spelled := tokensText_scan text

/-- Going over the bytes of any text, the scanner comes to an end without ever cutting a
character, and what it has found by then is the text in tokens. -/
theorem ByteScanner.scan_lossless (text : String) :
    ByteScanner.scan? text = some (scan text).all ∧ (scan text).IsLossless text :=
  ⟨ByteScanner.scan?_eq text, isLossless_scan text⟩

end AutoProperty
