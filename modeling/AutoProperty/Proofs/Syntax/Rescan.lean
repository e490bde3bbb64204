import AutoProperty.Proofs.Syntax.Scanned
import Mathlib.Data.List.Forall2

/-! # Scanning a changed text

Scanning looks ahead only a little: what is split off from a text stays the same if the text
behind it begins with another word. So if the identifiers of a text are replaced by other words,
each token is found again. The one exception is a word right behind a number, which may become a
part of it.
-/

namespace AutoProperty

namespace Scanner

/-- The texts agree, or they do so up to a place where a word begins in both. -/
inductive Akin : List Char → List Char → Prop where
  | nil : Akin [] []
  | same (c : Char) {cs cs' : List Char} : Akin cs cs' → Akin (c :: cs) (c :: cs')
  | word {c c' : Char} (cs cs' : List Char) : isWordStart c → isWordStart c' →
      Akin (c :: cs) (c' :: cs')

namespace Akin

variable {cs cs' : List Char}

theorem refl (cs : List Char) : Akin cs cs := by
  induction cs with
  | nil => exact .nil
  | cons c cs ih => exact .same c ih

theorem append_left (h : Akin cs cs') (front : List Char) : Akin (front ++ cs) (front ++ cs') := by
  induction front with
  | nil => exact h
  | cons c front ih => exact .same c ih

theorem eq_nil (h : Akin [] cs') : cs' = [] := by
  cases h
  rfl

/-- A test on the first character comes out the same if it does not tell words apart. -/
theorem all_head? (h : Akin cs cs') {p : Char → Bool}
    (hp : ∀ c c', isWordStart c → isWordStart c' → p c = p c') :
    cs'.head?.all p = cs.head?.all p := by
  cases h with
  | nil => rfl
  | same => rfl
  | word _ _ hc hc' => simp [hp _ _ hc hc']

/-- The first character is the same unless it starts a word. -/
theorem head_eq {c : Char} (h : Akin (c :: cs) cs') (hc : isWordStart c = false) :
    ∃ rest, cs' = c :: rest ∧ Akin cs rest := by
  cases h with
  | same _ h => exact ⟨_, rfl, h⟩
  | word _ _ hword _ => simp [hword] at hc

end Akin

/-! ## Single splits -/

/-- A run of characters ends where the test fails. -/
theorem splitWhile_of {p : Char → Bool} {text rest : List Char} (htext : text.all p)
    (hrest : rest.head?.all fun c => !p c) : splitWhile p (text ++ rest) = (text, rest) := by
  have hall : ∀ c ∈ text, p c := List.all_eq_true.mp htext
  rw [splitWhile, List.takeWhile_append_of_pos hall, List.dropWhile_append_of_pos hall]
  cases rest with
  | nil => simp
  | cons c rest =>
    have hc : p c = false := by simpa using hrest
    simp [hc]

/-- Behind a run of characters the test fails, or the text ends. -/
theorem splitWhile_head? (p : Char → Bool) (cs : List Char) :
    (splitWhile p cs).2.head?.all fun c => !p c := by
  show (cs.dropWhile p).head?.all _
  induction cs with
  | nil => rfl
  | cons c cs ih =>
    rw [List.dropWhile_cons]
    split
    next => exact ih
    next hc => simp [hc]

variable {rest' : List Char}

theorem splitWhile_again {p : Char → Bool} {cs : List Char}
    (hp : ∀ c c', isWordStart c → isWordStart c' → p c = p c')
    (h : Akin (splitWhile p cs).2 rest') :
    splitWhile p ((splitWhile p cs).1 ++ rest') = ((splitWhile p cs).1, rest') := by
  refine splitWhile_of List.all_takeWhile ?_
  rw [h.all_head? fun c c' hc hc' => by rw [hp c c' hc hc']]
  exact splitWhile_head? p cs

theorem ne_of_isWordStart {c d : Char} (hc : isWordStart c) (hd : isWordStart d = false) :
    c ≠ d := by
  rintro rfl
  simp [hc] at hd

theorem isLineBreak_of_isWordStart {c : Char} (h : isWordStart c) : isLineBreak c = false := by
  simp [isLineBreak, ne_of_isWordStart h (d := '\n') rfl, ne_of_isWordStart h (d := '\r') rfl]

theorem isLineBlank_of_isWordStart {c : Char} (h : isWordStart c) : isLineBlank c = false := by
  simp [isLineBlank, ne_of_isWordStart h (d := ' ') rfl, ne_of_isWordStart h (d := '\t') rfl]

/-- No word begins with a digit. -/
theorem isDigit_of_isWordStart {c : Char} (h : isWordStart c) : c.isDigit = false := by
  delta isWordStart Char.isAlpha Char.isUpper Char.isLower at h
  simp only [Bool.or_eq_true, beq_iff_eq, decide_eq_true_eq, Bool.and_eq_true] at h
  simp only [Char.isDigit, Bool.and_eq_false_iff, decide_eq_false_iff_not]
  obtain (⟨h, _⟩ | ⟨h, _⟩) | rfl := h
  · exact .inr fun h' => absurd (Nat.le_trans h h') (by decide)
  · exact .inr fun h' => absurd (Nat.le_trans h h') (by decide)
  · decide

theorem isWordPart_of_isWordStart {c : Char} (h : isWordStart c) : isWordPart c := by
  simp only [isWordStart, Bool.or_eq_true] at h
  obtain h | h := h
  · simp [isWordPart, Char.isAlphanum, h]
  · simp [isWordPart, h]

theorem splitLine_again {cs : List Char} (h : Akin (splitLine cs).2 rest') :
    splitLine ((splitLine cs).1 ++ rest') = ((splitLine cs).1, rest') :=
  splitWhile_again (fun c c' hc hc' => by
    rw [isLineBreak_of_isWordStart hc, isLineBreak_of_isWordStart hc']) h

/-- A line break is found again in front of another text of the same beginning. -/
theorem splitLineBreak_again {cs : List Char} (h : Akin (splitLineBreak cs).2 rest') :
    splitLineBreak ((splitLineBreak cs).1 ++ rest') = ((splitLineBreak cs).1, rest') := by
  revert h
  fun_cases splitLineBreak cs with
  | case1 rest => exact fun _ => rfl
  | case2 c rest hpair hc =>
    intro h
    unfold splitLineBreak
    cases h with
    | nil => simp [hc]
    | @same d cs cs' h =>
      have hne : c = '\r' → d ≠ '\n' := fun hcr hd => hpair cs hcr (by rw [hd])
      simp only [List.singleton_append]
      split
      next heq => simp_all
      next heq =>
        obtain ⟨rfl, rfl⟩ := List.cons.inj heq
        simp [hc]
      next heq => cases heq
    | @word d d' cs cs' hd hd' =>
      have hne := ne_of_isWordStart hd' (d := '\n') rfl
      simp only [List.singleton_append]
      split
      next heq => simp_all
      next heq =>
        obtain ⟨rfl, rfl⟩ := List.cons.inj heq
        simp [hc]
      next heq => cases heq
  | case3 c rest hpair hc =>
    intro h
    have hhead : rest'.head?.all fun c => !isLineBreak c := by
      rw [h.all_head? fun c c' hc hc' => by
        rw [isLineBreak_of_isWordStart hc, isLineBreak_of_isWordStart hc']]
      simpa using hc
    rw [List.nil_append]
    fun_cases splitLineBreak rest' with
    | case1 => simp [isLineBreak] at hhead
    | case2 d rest _ hd => simp [hd] at hhead
    | case3 => rfl
    | case4 => rfl
  | case4 =>
    intro h
    rw [h.eq_nil]
    rfl

theorem splitCommentEnd_eq_nil {cs : List Char} (h : (splitCommentEnd cs).1 = []) : cs = [] := by
  revert h
  fun_cases splitCommentEnd cs <;> simp_all

/-- The end of a comment is found again in front of another text of the same beginning. -/
theorem splitCommentEnd_again {cs : List Char} (h : Akin (splitCommentEnd cs).2 rest') :
    splitCommentEnd ((splitCommentEnd cs).1 ++ rest') = ((splitCommentEnd cs).1, rest') := by
  fun_induction splitCommentEnd cs with
  | case1 rest => rfl
  | case2 c rest hpair text rest₂ hsplit ih =>
    rw [hsplit] at ih
    have hstart := splitCommentEnd_append rest
    rw [hsplit] at hstart
    have hne : ∀ tail, c = '*' → text ++ rest' ≠ '/' :: tail := by
      intro tail hc heq
      cases text with
      | nil =>
        obtain rfl := splitCommentEnd_eq_nil (congrArg Prod.fst hsplit)
        obtain rfl : rest₂ = [] := by simpa using hstart
        rw [h.eq_nil] at heq
        simp at heq
      | cons d text =>
        obtain ⟨rfl, _⟩ := List.cons.inj heq
        exact hpair _ hc hstart.symm
    rw [List.cons_append, splitCommentEnd.eq_2 _ _ hne]
    simp only [ih h]
  | case3 =>
    rw [h.eq_nil]
    rfl

/-- Behind anything but a slash, the first character alone decides which trivia begins. -/
theorem splitTrivia?_of_ne_slash {c : Char} (directives : Bool) (cs : List Char) (h : c ≠ '/') :
    splitTrivia? directives (c :: cs) =
      if isLineBlank c then
        some (.whitespace, c :: (splitWhile isLineBlank cs).1, (splitWhile isLineBlank cs).2)
      else if isLineBreak c then
        some (.endOfLine, (splitLineBreak (c :: cs)).1, (splitLineBreak (c :: cs)).2)
      else if c == '#' && directives then
        some (.directive (.classify (String.ofList
            (c :: (splitLine cs).1 ++ (splitLineBreak (splitLine cs).2).1))),
          c :: (splitLine cs).1 ++ (splitLineBreak (splitLine cs).2).1,
          (splitLineBreak (splitLine cs).2).2)
      else
        none :=
  splitTrivia?.eq_3 _ _ _ (fun _ hc => absurd hc h) fun _ hc => absurd hc h

/-- Trivia cannot start a word. -/
theorem splitTrivia?_of_isWordStart {c : Char} {cs : List Char} (directives : Bool)
    (h : isWordStart c) : splitTrivia? directives (c :: cs) = none := by
  have hhash := ne_of_isWordStart h (d := '#') rfl
  rw [splitTrivia?_of_ne_slash directives cs (ne_of_isWordStart h rfl)]
  simp [isLineBlank_of_isWordStart h, isLineBreak_of_isWordStart h, hhash]

/-- A piece of trivia is found again in front of another text of the same beginning. -/
theorem splitTrivia?_again {directives : Bool} {cs text rest : List Char} {kind : TriviaKind}
    (hsplit : splitTrivia? directives cs = some (kind, text, rest)) (h : Akin rest rest') :
    splitTrivia? directives (text ++ rest') = some (kind, text, rest') := by
  revert hsplit
  fun_cases splitTrivia? directives cs with
  | case1 cs t r hs =>
    rintro ⟨⟩
    have := @splitLine_again rest' cs (by rwa [hs])
    rw [hs] at this
    simp [splitTrivia?, this]
  | case2 cs t r hs =>
    rintro ⟨⟩
    have := @splitCommentEnd_again rest' cs (by rwa [hs])
    rw [hs] at this
    simp [splitTrivia?, this]
  | case3 c cs _ _ hc t r hs =>
    rintro ⟨⟩
    have hslash : c ≠ '/' := by
      rintro rfl
      simp [isLineBlank] at hc
    have := @splitWhile_again rest' isLineBlank cs (fun c c' hc hc' => by
      rw [isLineBlank_of_isWordStart hc, isLineBlank_of_isWordStart hc']) (by rwa [hs])
    rw [hs] at this
    rw [List.cons_append, splitTrivia?_of_ne_slash _ _ hslash, if_pos hc, this]
  | case4 c cs _ _ hblank hc t r hs =>
    rintro ⟨⟩
    have hslash : c ≠ '/' := by
      rintro rfl
      simp [isLineBreak] at hc
    have hagain := @splitLineBreak_again rest' (c :: cs) (by rwa [hs])
    obtain ⟨tail, ht⟩ : ∃ tail, text = c :: tail := by
      have happend := splitLineBreak_append (c :: cs)
      have hne := splitLineBreak_ne_nil cs hc
      rw [hs] at happend hne
      obtain ⟨d, tail, rfl⟩ := List.exists_cons_of_ne_nil hne
      exact ⟨tail, by rw [(List.cons.inj happend).1]⟩
    rw [hs, ht, List.cons_append] at hagain
    rw [ht, List.cons_append, splitTrivia?_of_ne_slash _ _ hslash, if_neg hblank, if_pos hc, hagain]
  | case5 c cs _ _ hblank hbreak hc line r hs lineBreak r' hs' all =>
    intro heq
    obtain ⟨rfl, rfl, rfl⟩ : _ ∧ all = text ∧ r' = rest := by simpa using heq
    have hslash : c ≠ '/' := by
      rintro rfl
      simp at hc
    have hagain' := @splitLineBreak_again rest' r (by rwa [hs'])
    have happend := splitLineBreak_append r
    rw [hs'] at hagain' happend
    have hakin : Akin (splitLine cs).2 (lineBreak ++ rest') := by
      rw [hs, ← happend]
      exact h.append_left lineBreak
    have hagain := splitLine_again hakin
    rw [hs] at hagain
    have htext : all ++ rest' = c :: (line ++ (lineBreak ++ rest')) := by simp [all]
    rw [htext, splitTrivia?_of_ne_slash _ _ hslash, if_neg hblank, if_neg hbreak, if_pos hc, hagain,
      hagain']
  | case6 => exact nofun
  | case7 => exact nofun

/-- Where no trivia starts, none does with a word respelled. -/
theorem splitTrivia?_none_again {directives : Bool} {cs : List Char}
    (hnone : splitTrivia? directives cs = none) (h : Akin cs rest') :
    splitTrivia? directives rest' = none := by
  cases h with
  | nil => rfl
  | word _ _ _ hc' => exact splitTrivia?_of_isWordStart directives hc'
  | @same c cs cs' h =>
    by_cases hslash : c = '/'
    · subst hslash
      have hsecond : ∀ d, d = '/' ∨ d = '*' → ∀ tail, cs' ≠ d :: tail := by
        rintro d hd tail rfl
        cases h with
        | same _ h => rcases hd with rfl | rfl <;> simp [splitTrivia?] at hnone
        | word _ _ _ hword => rcases hd with rfl | rfl <;> simp [isWordStart] at hword
      rw [splitTrivia?.eq_3 _ _ _ (fun _ _ => hsecond _ (.inl rfl) _) fun _ _ =>
        hsecond _ (.inr rfl) _]
      simp [isLineBlank, isLineBreak]
    · rw [splitTrivia?_of_ne_slash _ _ hslash] at hnone ⊢
      split at hnone
      next => simp at hnone
      next hblank =>
        split at hnone
        next => simp at hnone
        next hbreak =>
          split at hnone
          next => simp at hnone
          next hhash => rw [if_neg hblank, if_neg hbreak, if_neg hhash]

/-! ## Numbers -/

theorem isDigitPart_of_isNumberSuffix {c : Char} (h : isNumberSuffix c) :
    isDigitPart c = false := by
  have hall : "fFdDmMlLuU".toList.all fun c => !isDigitPart c := by decide
  simpa using List.all_eq_true.mp hall c (List.contains_iff_mem.mp h)

theorem ne_point_of_isNumberSuffix {c : Char} (h : isNumberSuffix c) : c ≠ '.' := by
  have hall : "fFdDmMlLuU".toList.all (· != '.') := by decide
  simpa using List.all_eq_true.mp hall c (List.contains_iff_mem.mp h)

/-- What a number consists of: digits, a fraction and a suffix, each as long as it can be. -/
structure NumberParts (whole fraction suffix rest : List Char) : Prop where
  whole : whole.all isDigitPart
  wholeEnd : (fraction ++ suffix ++ rest).head?.all fun c => !isDigitPart c
  fraction : splitFraction (fraction ++ (suffix ++ rest)) = (fraction, suffix ++ rest)
  suffix : suffix.all isNumberSuffix
  suffixEnd : rest.head?.all fun c => !isNumberSuffix c

/-- The parts of a number are found again when they are put together. -/
theorem NumberParts.split {whole fraction suffix rest : List Char}
    (h : NumberParts whole fraction suffix rest) :
    splitNumber (whole ++ fraction ++ suffix ++ rest) = (whole ++ fraction ++ suffix, rest) := by
  have hwhole : splitWhile isDigitPart (whole ++ (fraction ++ (suffix ++ rest))) =
      (whole, fraction ++ (suffix ++ rest)) := by
    refine splitWhile_of h.whole ?_
    rw [← List.append_assoc]
    exact h.wholeEnd
  have hsuffix : splitWhile isNumberSuffix (suffix ++ rest) = (suffix, rest) :=
    splitWhile_of h.suffix h.suffixEnd
  simp only [splitNumber, List.append_assoc, hwhole, h.fraction, hsuffix]

/-- A number is made of digits, perhaps a fraction, and perhaps a suffix. -/
theorem numberParts (cs : List Char) : ∃ whole fraction suffix : List Char,
    (splitNumber cs).1 = whole ++ fraction ++ suffix ∧
      NumberParts whole fraction suffix (splitNumber cs).2 := by
  obtain ⟨whole, rest₁, hwhole⟩ : ∃ a b, splitWhile isDigitPart cs = (a, b) := ⟨_, _, rfl⟩
  obtain ⟨fraction, rest₂, hfraction⟩ : ∃ a b, splitFraction rest₁ = (a, b) := ⟨_, _, rfl⟩
  obtain ⟨suffix, rest, hsuffix⟩ : ∃ a b, splitWhile isNumberSuffix rest₂ = (a, b) := ⟨_, _, rfl⟩
  have hnumber : splitNumber cs = (whole ++ fraction ++ suffix, rest) := by
    simp only [splitNumber, hwhole, hfraction, hsuffix]
  have happend₁ : fraction ++ rest₂ = rest₁ := by simpa [hfraction] using splitFraction_append rest₁
  have happend₂ : suffix ++ rest = rest₂ := by
    simpa [hsuffix] using splitWhile_append isNumberSuffix rest₂
  have hend₁ : rest₁.head?.all fun c => !isDigitPart c := by
    simpa [hwhole] using splitWhile_head? isDigitPart cs
  have hend₂ : rest.head?.all fun c => !isNumberSuffix c := by
    simpa [hsuffix] using splitWhile_head? isNumberSuffix rest₂
  rw [hnumber]
  refine ⟨whole, fraction, suffix, rfl, ?_, ?_, ?_, ?_, hend₂⟩
  · rw [show whole = (splitWhile isDigitPart cs).1 by rw [hwhole]]
    exact List.all_takeWhile
  · rwa [List.append_assoc, happend₂, happend₁]
  · rw [happend₂, happend₁, hfraction]
  · rw [show suffix = (splitWhile isNumberSuffix rest₂).1 by rw [hsuffix]]
    exact List.all_takeWhile

/-- A fraction is a point, a digit and more digits. -/
theorem splitFraction_of_digit {d : Char} {cs : List Char} (hd : d.isDigit) :
    splitFraction ('.' :: d :: cs) =
      ('.' :: d :: (splitWhile isDigitPart cs).1, (splitWhile isDigitPart cs).2) := by
  simp [splitFraction, hd]

/-- The fraction of a number is found again if the same character follows. -/
theorem splitFraction_again {cs : List Char} (h : Akin (splitFraction cs).2 rest')
    (hhead : rest'.head? = (splitFraction cs).2.head?) :
    splitFraction ((splitFraction cs).1 ++ rest') = ((splitFraction cs).1, rest') := by
  revert h hhead
  fun_cases splitFraction cs with
  | case1 d rest hd digits rest₂ hsplit =>
    intro h hhead
    have hdigits : splitWhile isDigitPart (digits ++ rest') = (digits, rest') := by
      have hall : (splitWhile isDigitPart rest).1.all isDigitPart := List.all_takeWhile
      have hend := splitWhile_head? isDigitPart rest
      rw [hsplit] at hall hend
      exact splitWhile_of hall (by rw [hhead]; exact hend)
    rw [List.cons_append, List.cons_append, splitFraction_of_digit hd, hdigits]
  | case2 d rest hd =>
    intro h _
    obtain ⟨tail, rfl, htail⟩ := h.head_eq rfl
    have hfirst := htail.all_head? (p := Char.isDigit) fun c c' hc hc' => by
      rw [isDigit_of_isWordStart hc, isDigit_of_isWordStart hc']
    cases tail with
    | nil => rfl
    | cons d' tail =>
      have hd' : d'.isDigit = false := by
        rw [show d'.isDigit = d.isDigit from hfirst]
        simpa using hd
      simp [splitFraction, hd']
  | case3 cs hcs =>
    intro h hhead
    have hnone : ∀ d tail, rest' ≠ '.' :: d :: tail := by
      rintro d tail rfl
      cases cs with
      | nil => simp at hhead
      | cons c cs =>
        obtain rfl : '.' = c := by simpa using hhead
        obtain ⟨_, heq, h⟩ := h.head_eq rfl
        obtain rfl := (List.cons.inj heq).2
        cases h with
        | same _ h => exact hcs _ _ rfl
        | word _ _ _ _ => exact hcs _ _ rfl
    rw [List.nil_append, splitFraction.eq_2 _ hnone]

/-- With the same character behind it, a number ends at the same place. -/
theorem splitNumber_again {cs : List Char} (h : Akin (splitNumber cs).2 rest')
    (hhead : rest'.head? = (splitNumber cs).2.head?) :
    splitNumber ((splitNumber cs).1 ++ rest') = ((splitNumber cs).1, rest') := by
  obtain ⟨whole, fraction, suffix, htext, hparts⟩ := numberParts cs
  generalize (splitNumber cs).2 = rest at h hhead hparts
  rw [htext]
  have heads : ∀ front : List Char, (front ++ rest').head? = (front ++ rest).head? := by
    intro front
    rw [List.head?_append, List.head?_append, hhead]
  refine NumberParts.split ⟨hparts.whole, ?_, ?_, hparts.suffix, ?_⟩
  · rw [heads]
    exact hparts.wholeEnd
  · have hold := @splitFraction_again (suffix ++ rest') (fraction ++ (suffix ++ rest))
      (by rw [hparts.fraction]; exact h.append_left suffix)
      (by rw [hparts.fraction, heads])
    rwa [hparts.fraction] at hold
  · rw [hhead]
    exact hparts.suffixEnd

/-- A fraction is a point with digits behind it, or nothing. -/
theorem splitFraction_form (cs : List Char) : (splitFraction cs).1 = [] ∨
    ∃ d digits, (splitFraction cs).1 = '.' :: d :: digits ∧ d.isDigit ∧ digits.all isDigitPart := by
  fun_cases splitFraction cs with
  | case1 d rest hd digits rest₂ hsplit =>
    have hall : (splitWhile isDigitPart rest).1.all isDigitPart := List.all_takeWhile
    rw [hsplit] at hall
    exact .inr ⟨d, digits, rfl, hd, hall⟩
  | case2 => exact .inl rfl
  | case3 => exact .inl rfl

theorem fst_splitWhile_append {p : Char → Bool} {text : List Char} (h : text.all p)
    (rest : List Char) : (splitWhile p (text ++ rest)).1 = text ++ (splitWhile p rest).1 :=
  List.takeWhile_append_of_pos (List.all_eq_true.mp h)

theorem head?_suffix {c : Char} {suffix : List Char} (h : (c :: suffix).all isNumberSuffix)
    (rest : List Char) : ((c :: suffix) ++ rest).head?.all fun c => !isDigitPart c := by
  have hc : isNumberSuffix c := List.all_eq_true.mp h c List.mem_cons_self
  simp [isDigitPart_of_isNumberSuffix hc]

/-- Whatever follows, a number is not cut shorter. -/
theorem prefix_splitNumber (cs rest' : List Char) :
    (splitNumber cs).1 <+: (splitNumber ((splitNumber cs).1 ++ rest')).1 := by
  obtain ⟨whole, fraction, suffix, htext, hparts⟩ := numberParts cs
  have hform := splitFraction_form (fraction ++ (suffix ++ (splitNumber cs).2))
  rw [hparts.fraction] at hform
  rw [htext]
  have hsuffix := fst_splitWhile_append hparts.suffix rest'
  obtain rfl | ⟨d, digits, rfl, hd, hdigits⟩ := hform
  · cases suffix with
    | nil =>
      have hwhole := fst_splitWhile_append hparts.whole rest'
      simp [splitNumber, hwhole]
    | cons c suffix =>
      have hwhole : splitWhile isDigitPart (whole ++ (c :: suffix ++ rest')) =
          (whole, c :: suffix ++ rest') :=
          splitWhile_of hparts.whole (head?_suffix hparts.suffix rest')
      have hpoint : c ≠ '.' :=
        ne_point_of_isNumberSuffix (List.all_eq_true.mp hparts.suffix c List.mem_cons_self)
      have hfraction : splitFraction (c :: suffix ++ rest') = ([], c :: suffix ++ rest') :=
        splitFraction.eq_2 _ fun _ _ heq => hpoint (List.cons.inj heq).1
      rw [List.append_nil, List.append_assoc]
      simp only [splitNumber, hwhole, hfraction, hsuffix]
      simp
  · have hwhole : splitWhile isDigitPart (whole ++ ('.' :: d :: (digits ++ (suffix ++ rest')))) =
        (whole, '.' :: d :: (digits ++ (suffix ++ rest'))) := splitWhile_of hparts.whole rfl
    rw [show whole ++ '.' :: d :: digits ++ suffix ++ rest' =
      whole ++ ('.' :: d :: (digits ++ (suffix ++ rest'))) by simp]
    cases suffix with
    | nil =>
      have hmore := fst_splitWhile_append hdigits rest'
      rw [List.nil_append] at hwhole ⊢
      simp only [splitNumber, hwhole, splitFraction_of_digit hd, hmore]
      simp
    | cons c suffix =>
      have hmore : splitWhile isDigitPart (digits ++ (c :: suffix ++ rest')) =
          (digits, c :: suffix ++ rest') := splitWhile_of hdigits (head?_suffix hparts.suffix rest')
      simp only [splitNumber, hwhole, splitFraction_of_digit hd, hmore, hsuffix]
      simp

/-- A number is found again, or it takes in what begins another word behind it. -/
theorem splitNumber_again_or {cs : List Char} (h : Akin (splitNumber cs).2 rest') :
    splitNumber ((splitNumber cs).1 ++ rest') = ((splitNumber cs).1, rest') ∨
      (rest'.head? ≠ (splitNumber cs).2.head? ∧ ∃ more,
        more ≠ [] ∧ (splitNumber ((splitNumber cs).1 ++ rest')).1 = (splitNumber cs).1 ++
          more) := by
  by_cases hhead : rest'.head? = (splitNumber cs).2.head?
  · exact .inl (splitNumber_again h hhead)
  · obtain ⟨more, hmore⟩ := prefix_splitNumber cs rest'
    cases more with
    | nil =>
      have happend := splitNumber_append ((splitNumber cs).1 ++ rest')
      rw [← hmore, List.append_nil] at happend
      refine .inl (Prod.ext ?_ ?_)
      · rw [← hmore, List.append_nil]
      · exact List.append_cancel_left happend
    | cons c more => exact .inr ⟨hhead, c :: more, List.cons_ne_nil _ _, hmore.symm⟩

/-! ## Literals, punctuation and words -/

/-- Behind anything but a backslash, the first character alone decides. -/
theorem splitLiteral_of_ne_backslash {close c : Char} (cs : List Char) (h : c ≠ '\\') :
    splitLiteral close (c :: cs) =
      if isLineBreak c then ([], c :: cs)
      else if c == close then ([c], cs)
      else (c :: (splitLiteral close cs).1, (splitLiteral close cs).2) :=
  splitLiteral.eq_4 close c cs (fun hc _ => h hc) fun _ _ hc _ => h hc

/-- A literal is found again in front of another text of the same beginning. -/
theorem splitLiteral_again {close : Char} {cs : List Char}
    (h : Akin (splitLiteral close cs).2 rest') :
    splitLiteral close ((splitLiteral close cs).1 ++ rest') =
      ((splitLiteral close cs).1, rest') := by
  fun_induction splitLiteral close cs with
  | case1 =>
    rw [h.eq_nil]
    rfl
  | case2 =>
    rw [h.eq_nil]
    rfl
  | case3 c rest text rest₂ hsplit ih =>
    rw [hsplit] at ih
    simp only [List.cons_append, splitLiteral, ih h]
  | case4 c rest hsingle hpair hc =>
    have hword : isWordStart c = false := Bool.eq_false_iff.mpr fun hword => by
      rw [isLineBreak_of_isWordStart hword] at hc
      exact Bool.false_ne_true hc
    obtain ⟨tail, rfl, _⟩ := h.head_eq hword
    have hslash : c ≠ '\\' := by
      rintro rfl
      simp [isLineBreak] at hc
    rw [List.nil_append, splitLiteral_of_ne_backslash _ hslash, if_pos hc]
  | case5 c rest hsingle hpair hc hclosed =>
    have hslash : c ≠ '\\' := by
      rintro rfl
      cases rest with
      | nil => exact hsingle rfl rfl
      | cons d rest => exact hpair d rest rfl rfl
    rw [List.singleton_append, splitLiteral_of_ne_backslash _ hslash, if_neg hc, if_pos hclosed]
  | case6 c rest hsingle hpair hc hclosed text rest₂ hsplit ih =>
    have hslash : c ≠ '\\' := by
      rintro rfl
      cases rest with
      | nil => exact hsingle rfl rfl
      | cons d rest => exact hpair d rest rfl rfl
    rw [hsplit] at ih
    rw [List.cons_append, splitLiteral_of_ne_backslash _ hslash, if_neg hc, if_neg hclosed, ih h]

theorem pairKind?_of_isWordStart {c d : Char} (h : isWordStart d) : pairKind? c d = none := by
  unfold pairKind?
  split <;> first | rfl | exact absurd h (by decide)

/-- Punctuation is found again in front of another text of the same beginning. -/
theorem splitPunctuation_again {c : Char} {cs : List Char}
    (h : Akin (splitPunctuation c cs).2.2 rest') :
    ∃ tail, (splitPunctuation c cs).2.1 = c :: tail ∧ splitPunctuation c (tail ++ rest') =
      ((splitPunctuation c cs).1, (splitPunctuation c cs).2.1, rest') := by
  revert h
  fun_cases splitPunctuation c cs with
  | case1 =>
    intro h
    rw [h.eq_nil]
    exact ⟨[], rfl, rfl⟩
  | case2 d rest kind hpair => exact fun h => ⟨[d], rfl, by simp [splitPunctuation, hpair]⟩
  | case3 d rest hpair =>
    intro h
    refine ⟨[], rfl, ?_⟩
    cases h with
    | same => simp [splitPunctuation, hpair]
    | word _ _ _ hd => simp [splitPunctuation, pairKind?_of_isWordStart hd]

theorem splitWord_again {cs : List Char} (h : Akin (splitWhile isWordPart cs).2 rest') :
    splitWhile isWordPart ((splitWhile isWordPart cs).1 ++ rest') =
      ((splitWhile isWordPart cs).1, rest') :=
  splitWhile_again (fun c c' hc hc' => by
    rw [isWordPart_of_isWordStart hc, isWordPart_of_isWordStart hc']) h

/-- A token other than a number is found again. -/
theorem splitToken_again {c : Char} {cs : List Char}
    (hnumber : (splitToken c cs).1 ≠ .numericLiteralToken) (h : Akin (splitToken c cs).2.2 rest') :
    ∃ tail, (splitToken c cs).2.1 = c :: tail ∧
      splitToken c (tail ++ rest') = ((splitToken c cs).1, (splitToken c cs).2.1, rest') := by
  unfold splitToken at hnumber h ⊢
  split at hnumber
  next hword =>
    rw [if_pos hword] at h ⊢
    exact ⟨_, rfl, by simp only [if_pos hword, splitWord_again h]⟩
  next hword =>
    rw [if_neg hword] at h ⊢
    split at hnumber
    next => exact absurd rfl hnumber
    next hdigit =>
      rw [if_neg hdigit] at h ⊢
      split at hnumber
      next hquote =>
        rw [if_pos hquote] at h ⊢
        exact ⟨_,
          rfl, by simp only [if_neg hword, if_neg hdigit, if_pos hquote, splitLiteral_again h]⟩
      next hquote =>
        rw [if_neg hquote] at h ⊢
        split at hnumber
        next hmark =>
          rw [if_pos hmark] at h ⊢
          exact ⟨_, rfl, by
            simp only [if_neg hword, if_neg hdigit, if_neg hquote, if_pos hmark,
              splitLiteral_again h]⟩
        next hmark =>
          rw [if_neg hmark] at h ⊢
          obtain ⟨tail, htail, hagain⟩ := splitPunctuation_again h
          exact ⟨tail, htail, by
            simp only [if_neg hword, if_neg hdigit, if_neg hquote, if_neg hmark, hagain]⟩

/-- A number starts with a digit. -/
theorem splitToken_of_isDigit {c : Char} (cs : List Char) (h : c.isDigit) :
    splitToken c cs = (.numericLiteralToken, splitNumber (c :: cs)) := by
  have hword : ¬isWordStart c := fun hword => by simp [isDigit_of_isWordStart hword] at h
  simp only [splitToken, if_neg hword, if_pos h]

/-- A number begins with a digit. -/
theorem isDigit_of_splitToken {c : Char} {cs : List Char}
    (h : (splitToken c cs).1 = .numericLiteralToken) : c.isDigit := by
  have hreserved (word : String) :
      (Kind.ofReservedWord? word).getD .identifierToken ≠ .numericLiteralToken := by
    cases hword : Kind.ofReservedWord? word with
    | none => exact nofun
    | some kind =>
      have hall : ∀ kind ∈ Kind.reserved, kind ≠ .numericLiteralToken := by decide
      exact hall kind (List.mem_of_find?_eq_some hword)
  have hsingle (c : Char) : singleKind c ≠ .numericLiteralToken := by
    unfold singleKind
    split <;> decide
  have hpair {c d : Char} {kind : Kind} (h : pairKind? c d = some kind) :
      kind ≠ .numericLiteralToken := by
    unfold pairKind? at h
    split at h <;> cases h <;> decide
  unfold splitToken at h
  split at h
  next => exact absurd h (hreserved _)
  split at h
  next hdigit => exact hdigit
  split at h
  next => exact absurd h nofun
  split at h
  next => exact absurd h nofun
  next =>
    revert h
    fun_cases splitPunctuation c cs with
    | case1 => exact fun h => absurd h (hsingle c)
    | case2 d rest kind hkind => exact fun h => absurd h (hpair hkind)
    | case3 => exact fun h => absurd h (hsingle c)

/-- An identifier begins as words do. -/
theorem isWordStart_of_splitToken {c : Char} {cs : List Char}
    (h : (splitToken c cs).1 = .identifierToken) : isWordStart c := by
  unfold splitToken at h
  split at h
  next hword => exact hword
  split at h
  next => exact absurd h nofun
  split at h
  next => exact absurd h nofun
  split at h
  next => exact absurd h nofun
  next => exact absurd h (isToken_splitPunctuation c cs).2

/-- Another word in the place of an identifier is found there. -/
theorem splitToken_of_isWord {c : Char} {cs name : List Char}
    (hkind : (splitToken c cs).1 = .identifierToken) (hname : IsWord name)
    (h : Akin (splitToken c cs).2.2 rest') :
    ∃ d tail,
      name = d :: tail ∧ splitToken d (tail ++ rest') = (.identifierToken, name, rest') := by
  obtain ⟨⟨d, tail, rfl, hd, htail⟩, hfree⟩ := hname
  refine ⟨d, tail, rfl, ?_⟩
  have hend : rest'.head?.all fun c => !isWordPart c := by
    rw [h.all_head? fun c c' hc hc' => by
      rw [isWordPart_of_isWordStart hc, isWordPart_of_isWordStart hc']]
    simp only [splitToken, if_pos (isWordStart_of_splitToken hkind)]
    exact splitWhile_head? isWordPart cs
  simp only [splitToken, if_pos hd, splitWhile_of htail hend, hfree, Option.getD_none]

/-! ## Runs of trivia -/

theorem splitRun_of_none {run : Run} {cs : List Char}
    (h : splitTrivia? run.allowsDirective cs = none) : splitRun run cs = ([], cs) := by
  rw [splitRun]
  split
  next => rfl
  next kind text rest hsome => rw [h] at hsome; cases hsome

/-- A run takes a piece of trivia and goes on as the piece says. -/
theorem splitRun_of_some {run : Run} {cs text rest : List Char} {kind : TriviaKind}
    (h : splitTrivia? run.allowsDirective cs = some (kind, text, rest)) :
    splitRun run cs =
      match run.next? kind text with
      | none => ([⟨kind, String.ofList text⟩], rest)
      | some next =>
        (⟨kind, String.ofList text⟩ :: (splitRun next rest).1, (splitRun next rest).2) := by
  rw [splitRun]
  split
  next hnone => rw [h] at hnone; cases hnone
  next kind' text' rest' hsome =>
    rw [h] at hsome
    obtain ⟨rfl, rfl, rfl⟩ : kind = kind' ∧ text = text' ∧ rest = rest' := by simpa using hsome
    split <;> simp_all

/-- A run of trivia is found again in front of another text of the same beginning. -/
theorem splitRun_again {run : Run} {cs : List Char} (h : Akin (splitRun run cs).2 rest') :
    splitRun run (triviaText (splitRun run cs).1 ++ rest') = ((splitRun run cs).1, rest') := by
  fun_induction splitRun run cs generalizing rest' with
  | case1 run cs hnone =>
    simp only [triviaText, List.flatMap_nil, List.nil_append]
    exact splitRun_of_none (splitTrivia?_none_again hnone h)
  | case2 run cs kind text rest hsplit piece =>
    rename_i hnext
    have htext : triviaText [piece] ++ rest' = text ++ rest' := by simp [triviaText, piece]
    rw [htext, splitRun_of_some (splitTrivia?_again hsplit h), hnext]
  | case3 run cs kind text rest hsplit piece next _ _ more rest₂ =>
    rename_i hnext _ hmore ih
    rw [hmore] at ih
    have happend : triviaText more ++ rest₂ = rest := by
      simpa [hmore] using splitRun_append next rest
    have hakin : Akin rest (triviaText more ++ rest') := by
      rw [← happend]
      exact h.append_left _
    have htext : triviaText (piece :: more) ++ rest' = text ++ (triviaText more ++ rest') := by
      simp [triviaText, piece]
    rw [htext, splitRun_of_some (splitTrivia?_again hsplit hakin), hnext]
    simp only [ih h]
    rfl

end Scanner

/-! ## Whole texts -/

/-- The token, or one that is a word like it with another word in its place. -/
inductive Token.Respelled : Token → Token → Prop where
  | same (t : Token) : Respelled t t
  | word {t : Token} {name : String} : t.kind = .identifierToken → IsWord t.text.toList →
      IsWord name.toList → Respelled t { t with text := name }

theorem IsWord.exists_cons {name : List Char} (h : IsWord name) :
    ∃ c cs, name = c :: cs ∧ Scanner.isWordStart c := by
  obtain ⟨c, cs, rfl, hc, _⟩ := h.head
  exact ⟨c, cs, rfl, hc⟩

namespace Scanner

theorem Akin.of_isWord {a b : List Char} (ha : IsWord a) (hb : IsWord b) (cs cs' : List Char) :
    Akin (a ++ cs) (b ++ cs') := by
  obtain ⟨c, a, rfl, hc⟩ := ha.exists_cons
  obtain ⟨d, b, rfl, hd⟩ := hb.exists_cons
  exact .word _ _ hc hd

theorem Akin.respelled {t t' : Token} (h : t.Respelled t') {cs cs' : List Char}
    (hcs : Akin cs cs') :
    Akin (t.text.toList ++ (triviaText t.trailing ++ cs))
      (t'.text.toList ++ (triviaText t'.trailing ++ cs')) := by
  cases h with
  | same => exact (hcs.append_left _).append_left _
  | word _ hword hname => exact .of_isWord hword hname _ _

theorem Respelled.leading_eq {t t' : Token} (h : t.Respelled t') : t'.leading = t.leading := by
  cases h <;> rfl

theorem Respelled.trailing_eq {t t' : Token} (h : t.Respelled t') : t'.trailing = t.trailing := by
  cases h <;> rfl

theorem fullText_append (t : Token) (cs : List Char) : t.fullText ++ cs =
    triviaText t.leading ++ (t.text.toList ++ (triviaText t.trailing ++ cs)) := by
  simp [Token.fullText]

/-- Texts of respelled tokens differ only in words. -/
theorem Akin.tokensText {ts ts' : List Token} (h : List.Forall₂ Token.Respelled ts ts')
    (cs : List Char) : Akin (tokensText ts ++ cs) (tokensText ts' ++ cs) := by
  induction h with
  | nil => exact .refl _
  | @cons t t' ts ts' ht _ ih =>
    simp only [AutoProperty.tokensText, List.flatMap_cons, List.append_assoc]
    rw [fullText_append, fullText_append, Respelled.leading_eq ht]
    exact (Akin.respelled ht ih).append_left _

/-- The texts begin differently only if the first token is another one and begins with its text. -/
theorem head?_tokensText {ts ts' : List Token} (h : List.Forall₂ Token.Respelled ts ts')
    (htexts : ∀ t ∈ ts, t.text.toList ≠ []) {cs : List Char}
    (hne : (tokensText ts' ++ cs).head? ≠ (tokensText ts ++ cs).head?) :
    ∃ u us u' us', ts = u :: us ∧ ts' = u' :: us' ∧ u ≠ u' ∧ triviaText u'.leading = [] := by
  have heads {a : List Char} (ha : a ≠ []) (b b' : List Char) : (a ++ b).head? =
      (a ++ b').head? := by
    obtain ⟨c, a, rfl⟩ := List.exists_cons_of_ne_nil ha
    rfl
  cases h with
  | nil => exact absurd rfl hne
  | @cons t t' ts ts' ht hts =>
    refine ⟨t, ts, t', ts', rfl, rfl, ?_, ?_⟩
    · rintro rfl
      refine hne ?_
      simp only [AutoProperty.tokensText, List.flatMap_cons, List.append_assoc]
      refine heads (fun hnil => ?_) _ _
      simp [Token.fullText, htexts t] at hnil
    · by_contra hleading
      refine hne ?_
      simp only [AutoProperty.tokensText, List.flatMap_cons, List.append_assoc]
      rw [fullText_append, fullText_append, ← Respelled.leading_eq ht]
      exact heads hleading _ _

theorem blankAfter_append (blank : Bool) (cs cs' : List Char) :
    blankAfter blank (cs ++ cs') = blankAfter (blankAfter blank cs) cs' :=
  List.foldl_append

/-- The character is neither a blank nor a line break. -/
def IsVisible (c : Char) : Prop :=
  isLineBreak c = false ∧ isLineBlank c = false

theorem isVisible_of {p : Char → Bool} (hp : [' ', '\t', '\n', '\r'].all fun c => !p c) {c : Char}
    (h : p c) : IsVisible c := by
  have hne : ∀ d ∈ [' ', '\t', '\n', '\r'], c ≠ d := by
    rintro d hd rfl
    have := List.all_eq_true.mp hp c hd
    rw [h] at this
    cases this
  simp [IsVisible, isLineBreak, isLineBlank, hne]

/-- The text ends in a character that can be seen. -/
def EndsVisible (cs : List Char) : Prop :=
  ∃ front c, cs = front ++ [c] ∧ IsVisible c

namespace EndsVisible

variable {cs : List Char}

theorem of_all (hne : cs ≠ []) (h : ∀ c ∈ cs, IsVisible c) : EndsVisible cs :=
  ⟨cs.dropLast, cs.getLast hne, (List.dropLast_concat_getLast hne).symm, h _ (List.getLast_mem hne)⟩

theorem append (h : EndsVisible cs) (front : List Char) : EndsVisible (front ++ cs) := by
  obtain ⟨front', c, rfl, hc⟩ := h
  exact ⟨front ++ front', c, (List.append_assoc ..).symm, hc⟩

theorem blankAfter (h : EndsVisible cs) (blank : Bool) : Scanner.blankAfter blank cs = false := by
  obtain ⟨front, c, rfl, hbreak, hblank⟩ := h
  rw [blankAfter_append]
  show (isLineBreak c || (_ && isLineBlank c)) = false
  rw [hbreak, hblank, Bool.and_false, Bool.or_false]

end EndsVisible

theorem endsVisible_word {c : Char} {cs : List Char} (hc : isWordStart c)
    (hcs : cs.all isWordPart) : EndsVisible (c :: cs) := by
  refine .of_all (List.cons_ne_nil _ _) fun d hd => isVisible_of (p := isWordPart) (by decide) ?_
  rcases List.mem_cons.mp hd with rfl | hd
  · exact isWordPart_of_isWordStart hc
  · exact List.all_eq_true.mp hcs d hd

/-- A line that a word was added to is not blank. -/
theorem blankAfter_word {name : List Char} (h : IsWord name) (blank : Bool) :
    blankAfter blank name = false := by
  obtain ⟨c, cs, rfl, hc, hcs⟩ := h.head
  exact (endsVisible_word hc hcs).blankAfter blank

theorem blankAfter_respelled {t t' : Token} (h : t.Respelled t') (blank : Bool) :
    blankAfter blank t'.fullText = blankAfter blank t.fullText := by
  cases h with
  | same => rfl
  | word _ hword hname =>
    simp only [Token.fullText, blankAfter_append, blankAfter_word hword, blankAfter_word hname]

/-- A text of nothing but trivia holds only the token that ends it. -/
theorem scanFrom_of_nil {blank : Bool} {cs : List Char} {leading : List Trivia}
    (h : splitRun (.leading blank) cs = (leading, [])) :
    scanFrom blank cs = ⟨[], ⟨.endOfFileToken, "", leading, []⟩⟩ := by
  rw [scanFrom]
  split
  next h' =>
    rw [h] at h'
    rw [(Prod.mk.inj h').1]
  next h' =>
    rw [h] at h'
    cases (Prod.mk.inj h').2

/-- The first token is followed by the tokens of what is left. -/
theorem scanFrom_of_cons {blank : Bool} {cs rest rest₁ rest₂ text : List Char} {c : Char}
    {kind : Kind}
    {leading trailing : List Trivia} (hlead : splitRun (.leading blank) cs = (leading, c :: rest))
    (hcore : splitToken c rest = (kind, text, rest₁))
    (htrail : splitRun .trailing rest₁ = (trailing, rest₂)) :
    scanFrom blank cs =
      let token : Token := ⟨kind, String.ofList text, leading, trailing⟩
      let others := scanFrom (blankAfter blank token.fullText) rest₂
      ⟨token :: others.tokens, others.final⟩ := by
  rw [scanFrom]
  split
  next h' =>
    rw [hlead] at h'
    cases (Prod.mk.inj h').2
  next leading' c' rest' h' =>
    rw [hlead] at h'
    obtain ⟨rfl, heq⟩ := Prod.mk.inj h'
    obtain ⟨rfl, rfl⟩ := List.cons.inj heq
    simp only [hcore, htrail]

/-- A number that takes in what begins the word behind it: among `ts'`, which are the tokens
`ts` respelled, the number is followed at once by another word, and the tokens `found` agree
with `ts'` only up to the number, which is longer there. -/
inductive Absorbed : List Token → List Token → List Token → Prop where
  | here {t u u' t₂ : Token} {ts ts' found : List Token} {more : List Char} : u ≠ u' →
      triviaText t.trailing = [] → triviaText u'.leading = [] → t₂.leading = t.leading → more ≠ [] →
      t₂.text.toList = t.text.toList ++ more →
      Absorbed (t :: u :: ts) (t :: u' :: ts') (t₂ :: found)
  | later {t t' : Token} {ts ts' found : List Token} :
      Absorbed ts ts' found → Absorbed (t :: ts) (t' :: ts') (t' :: found)

/-- A token is the first one of a text if each part of it is found where it stands. -/
theorem scanFrom_of_token {blank : Bool} {t : Token} {cs : List Char}
    (hlead : splitRun (.leading blank) (t.fullText ++ cs) =
      (t.leading, t.text.toList ++ (triviaText t.trailing ++ cs)))
    (hcore : ∃ c tail, t.text.toList = c :: tail ∧
      splitToken c (tail ++ (triviaText t.trailing ++ cs)) =
        (t.kind, t.text.toList, triviaText t.trailing ++ cs))
    (htrail : splitRun .trailing (triviaText t.trailing ++ cs) = (t.trailing, cs)) :
    scanFrom blank (t.fullText ++ cs) =
      let others := scanFrom (blankAfter blank t.fullText) cs
      ⟨t :: others.tokens, others.final⟩ := by
  obtain ⟨c, tail, htext, hcore⟩ := hcore
  rw [htext, List.cons_append] at hlead
  rw [scanFrom_of_cons hlead hcore htrail]
  simp

/-- Behind a number, either the number is found again, or it has become longer. -/
theorem splitToken_number {c : Char} {cs : List Char}
    (hnumber : (splitToken c cs).1 = .numericLiteralToken) (h : Akin (splitToken c cs).2.2 rest') :
    ∃ tail, (splitToken c cs).2.1 = c :: tail ∧
      (splitToken c (tail ++ rest') = ((splitToken c cs).1, (splitToken c cs).2.1, rest') ∨
        rest'.head? ≠ (splitToken c cs).2.2.head? ∧ ∃ more, more ≠ [] ∧
          (splitToken c (tail ++ rest')).2.1 = (splitToken c cs).2.1 ++ more) := by
  have hdigit := isDigit_of_splitToken hnumber
  have hne := splitToken_ne_nil c cs
  have happend := splitToken_append c cs
  rw [splitToken_of_isDigit cs hdigit] at h hne happend ⊢
  obtain ⟨d, tail, htext⟩ := List.exists_cons_of_ne_nil hne
  change (splitNumber (c :: cs)).1 = d :: tail at htext
  change (splitNumber (c :: cs)).1 ++ _ = _ at happend
  rw [htext] at happend
  obtain rfl := (List.cons.inj happend).1
  refine ⟨tail, htext, ?_⟩
  have hagain := splitNumber_again_or h
  rw [htext] at hagain
  rw [splitToken_of_isDigit _ hdigit]
  obtain hagain | ⟨hhead, more, hmore, hlonger⟩ := hagain
  · exact .inl (by rw [← List.cons_append, hagain, htext])
  · exact .inr ⟨hhead, more, hmore, hlonger.trans (by rw [htext])⟩

section FirstToken

variable {blank : Bool} {c : Char} {cs rest text rest₁ rest₂ cs' : List Char} {kind : Kind}
  {leading trailing : List Trivia} {t' : Token}

/-- The trivia around the first token is found again around the token respelled. -/
theorem splitRun_respelled (hlead : splitRun (.leading blank) cs = (leading, c :: rest))
    (hcore : splitToken c rest = (kind, text, rest₁))
    (htrail : splitRun .trailing rest₁ = (trailing, rest₂))
    (ht : (Token.mk kind (String.ofList text) leading trailing).Respelled t')
    (h : Akin rest₂ cs') :
    splitRun (.leading blank) (t'.fullText ++ cs') =
        (t'.leading, t'.text.toList ++ (triviaText t'.trailing ++ cs')) ∧
      splitRun .trailing (triviaText t'.trailing ++ cs') = (t'.trailing, cs') := by
  have hbehind : triviaText trailing ++ rest₂ = rest₁ := by
    simpa [htrail] using splitRun_append .trailing rest₁
  have htext : text ++ rest₁ = c :: rest := by
    simpa [hcore] using splitToken_append c rest
  have hleading : t'.leading = leading := Respelled.leading_eq ht
  have htrailing : t'.trailing = trailing := Respelled.trailing_eq ht
  constructor
  · have hakin : Akin (splitRun (.leading blank) cs).2
        (t'.text.toList ++ (triviaText t'.trailing ++ cs')) := by
      rw [hlead, ← htext, ← hbehind]
      simpa using Akin.respelled ht h
    rw [fullText_append, hleading]
    simpa [hlead] using splitRun_again hakin
  · rw [htrailing]
    have hakin : Akin (splitRun .trailing rest₁).2 cs' := by rwa [htrail]
    simpa [htrail] using splitRun_again hakin

/-- The text of the first token is found again when it is respelled, unless it is that of a number
that takes in what follows now. -/
theorem splitToken_respelled (hcore : splitToken c rest = (kind, text, rest₁))
    (ht : (Token.mk kind (String.ofList text) leading trailing).Respelled t')
    (h : Akin rest₁ rest₂) :
    (∃ d tail, t'.text.toList = d :: tail ∧
      splitToken d (tail ++ rest₂) = (t'.kind, t'.text.toList, rest₂)) ∨
      t' = ⟨kind, String.ofList text, leading, trailing⟩ ∧ rest₂.head? ≠ rest₁.head? ∧ ∃ tail more,
      text = c :: tail ∧ more ≠ [] ∧ (splitToken c (tail ++ rest₂)).2.1 = text ++ more := by
  have hakin : Akin (splitToken c rest).2.2 rest₂ := by rwa [hcore]
  cases ht with
  | word hkind _ hname =>
    have hidentifier : (splitToken c rest).1 = .identifierToken := by rwa [hcore]
    obtain ⟨d, tail, htail, hagain⟩ := splitToken_of_isWord hidentifier hname hakin
    have hkind : kind = .identifierToken := hkind
    exact .inl ⟨d, tail, htail, by simpa [hkind] using hagain⟩
  | same =>
    by_cases hnumber : kind = .numericLiteralToken
    · have hfound := splitToken_number (by rwa [hcore]) hakin
      rw [hcore] at hfound
      obtain ⟨tail, htail, hagain | ⟨hhead, more, hmore, hlonger⟩⟩ := hfound
      · exact .inl ⟨c, tail, by simpa using htail, by simpa using hagain⟩
      · exact .inr ⟨rfl, hhead, tail, more, htail, hmore, hlonger⟩
    · have hfound := splitToken_again (by rwa [hcore]) hakin
      rw [hcore] at hfound
      obtain ⟨tail, htail, hagain⟩ := hfound
      exact .inl ⟨c, tail, by simpa using htail, by simpa using hagain⟩

/-- A first token that is found again leaves the tokens behind it to decide. -/
theorem found_or_absorbed_cons {t : Token} {ts ts' : List Token} {final : Token}
    (hlead : splitRun (.leading blank) (t'.fullText ++ cs') =
      (t'.leading, t'.text.toList ++ (triviaText t'.trailing ++ cs')))
    (hcore : ∃ d tail, t'.text.toList = d :: tail ∧
      splitToken d (tail ++ (triviaText t'.trailing ++ cs')) =
        (t'.kind, t'.text.toList, triviaText t'.trailing ++ cs'))
    (htrail : splitRun .trailing (triviaText t'.trailing ++ cs') = (t'.trailing, cs'))
    (hothers : scanFrom (blankAfter blank t'.fullText) cs' = ⟨ts', final⟩ ∨
      Absorbed ts ts' (scanFrom (blankAfter blank t'.fullText) cs').tokens) :
    scanFrom blank (t'.fullText ++ cs') = ⟨t' :: ts', final⟩ ∨
      Absorbed (t :: ts) (t' :: ts') (scanFrom blank (t'.fullText ++ cs')).tokens := by
  rw [scanFrom_of_token hlead hcore htrail]
  obtain hsame | habsorbed := hothers
  · exact .inl (by rw [hsame])
  · exact .inr (.later habsorbed)

/-- A number that has become longer takes in what begins the token behind it. -/
theorem absorbed_here {u u' : Token} {us us' : List Token} {tail more : List Char}
    (hlead : splitRun (.leading blank) (t'.fullText ++ cs') =
      (t'.leading, t'.text.toList ++ (triviaText t'.trailing ++ cs')))
    (htail : t'.text.toList = c :: tail) (hmore : more ≠ [])
    (hlonger : (splitToken c (tail ++ (triviaText t'.trailing ++ cs'))).2.1 = t'.text.toList ++
      more) (hnothing : triviaText t'.trailing = []) (hne : u ≠ u')
    (hu : triviaText u'.leading = []) :
    Absorbed (t' :: u :: us) (t' :: u' :: us') (scanFrom blank (t'.fullText ++ cs')).tokens := by
  obtain ⟨kind, text, rest, hcore⟩ : ∃ kind text rest,
      splitToken c (tail ++ (triviaText t'.trailing ++ cs')) = (kind, text, rest) := ⟨_, _, _, rfl⟩
  rw [htail, List.cons_append] at hlead
  rw [hcore] at hlonger
  rw [scanFrom_of_cons hlead hcore rfl]
  exact .here hne hnothing hu rfl hmore (by simpa using hlonger)

end FirstToken

/-- The tokens of a text with respelled words are found again, up to a number that takes in the
beginning of such a word. -/
theorem scanFrom_respelled {blank : Bool} {cs : List Char} {ts' : List Token}
    (h : List.Forall₂ Token.Respelled (scanFrom blank cs).tokens ts') :
    let found := scanFrom blank (tokensText ts' ++ (scanFrom blank cs).final.fullText)
    found = ⟨ts', (scanFrom blank cs).final⟩ ∨
      Absorbed (scanFrom blank cs).tokens ts' found.tokens := by
  fun_induction scanFrom blank cs generalizing ts' with
  | case1 blank cs leading hrun =>
    cases h with
    | nil =>
      have happend := splitRun_append (.leading blank) cs
      rw [hrun, List.append_nil] at happend
      refine .inl ?_
      have htext : tokensText [] ++ (Token.mk .endOfFileToken "" leading []).fullText = cs := by
        simpa [tokensText, Token.fullText, triviaText] using happend
      rw [htext]
      exact scanFrom_of_nil hrun
  | case2 blank cs leading c rest hrun core behind token others =>
    rename_i ih
    cases h with
    | @cons _ t' _ ts' ht hts =>
      obtain ⟨cs', hcs'⟩ : ∃ x, x = tokensText ts' ++ others.final.fullText := ⟨_, rfl⟩
      have htext : tokensText (t' :: ts') ++ others.final.fullText = t'.fullText ++ cs' := by
        simp [tokensText, hcs']
      have hrest : tokensText others.tokens ++ others.final.fullText = behind.2 := by
        simpa [ScannedText.all, tokensText] using
          tokensText_scanFrom (blankAfter blank token.fullText) behind.2
      have hothers : scanFrom (blankAfter blank t'.fullText) cs' = ⟨ts', others.final⟩ ∨
          Absorbed others.tokens ts' (scanFrom (blankAfter blank t'.fullText) cs').tokens := by
        rw [blankAfter_respelled ht, hcs']
        exact ih hts
      have hakin : Akin behind.2 cs' := by
        rw [← hrest, hcs']
        exact .tokensText hts _
      have hbehind : triviaText behind.1 ++ behind.2 = core.2.2 :=
        splitRun_append .trailing core.2.2
      have hakin' : Akin core.2.2 (triviaText t'.trailing ++ cs') := by
        rw [← hbehind, show t'.trailing = behind.1 from Respelled.trailing_eq ht]
        exact hakin.append_left _
      have hcore : splitToken c rest = (core.1, core.2.1, core.2.2) := rfl
      have hcut : splitRun .trailing core.2.2 = (behind.1, behind.2) := rfl
      obtain ⟨hlead, htrail⟩ := splitRun_respelled hrun hcore hcut ht hakin
      show scanFrom blank (tokensText (t' :: ts') ++ others.final.fullText) =
        ⟨t' :: ts', others.final⟩ ∨
        Absorbed (token :: others.tokens) (t' :: ts')
          (scanFrom blank (tokensText (t' :: ts') ++ others.final.fullText)).tokens
      rw [htext]
      obtain hfound | ⟨rfl, hhead, tail, more, htail, hmore, hlonger⟩ :=
        splitToken_respelled hcore ht hakin'
      · exact found_or_absorbed_cons hlead hfound htrail hothers
      -- the number is longer only if the word behind it has another beginning, with nothing between
      have hnothing : triviaText behind.1 = [] := by
        by_contra hne
        refine hhead ?_
        obtain ⟨d, more, hd⟩ := List.exists_cons_of_ne_nil hne
        show (triviaText behind.1 ++ cs').head? = core.2.2.head?
        rw [← hbehind, hd]
        rfl
      have hhead' : (tokensText ts' ++ others.final.fullText).head? ≠
          (tokensText others.tokens ++ others.final.fullText).head? := by
        rw [hrest, ← hcs']
        rw [← hbehind] at hhead
        change (triviaText behind.1 ++ cs').head? ≠ (triviaText behind.1 ++ behind.2).head? at hhead
        rwa [hnothing, List.nil_append, List.nil_append] at hhead
      obtain ⟨u, us, u', us', hus, rfl, hne, hu⟩ :=
        head?_tokensText hts (fun t ht => (isScanned_of_mem_scanFrom ht).ne_nil) hhead'
      rw [hus]
      have htoken : token.text.toList = core.2.1 := String.toList_ofList
      have hlonger : (splitToken c (tail ++ (triviaText token.trailing ++ cs'))).2.1 =
          token.text.toList ++ more := by
        rw [htoken]
        exact hlonger
      exact .inr (absorbed_here hlead (htoken.trans htail) hmore hlonger hnothing hne hu)

end Scanner

end AutoProperty
