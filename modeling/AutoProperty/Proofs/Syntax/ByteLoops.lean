import AutoProperty.Syntax.ByteScanner
import Mathlib.Tactic.ByContra

/-! # Loops over bytes

What means something to the scanner is a character of ASCII, and is a single byte. No byte of a
longer character means anything, so a loop over bytes that has entered one leaves it at its end,
and gets just as far as a loop over characters.
-/

namespace AutoProperty

/-! ## Bytes and characters -/

@[simp]
theorem utf8_nil : utf8 [] = [] := rfl

theorem utf8_cons (c : Char) (cs : List Char) :
    utf8 (c :: cs) = String.utf8EncodeChar c ++ utf8 cs :=
  rfl

theorem utf8_append (as bs : List Char) : utf8 (as ++ bs) = utf8 as ++ utf8 bs :=
  List.flatMap_append

theorem length_utf8 (cs : List Char) : (utf8 cs).length = byteLength cs := by
  induction cs with
  | nil => rfl
  | cons c cs ih =>
    rw [utf8_cons, List.length_append, String.length_utf8EncodeChar, ih, byteLength_cons]

theorem drop_utf8 {cs as bs : List Char} (h : as ++ bs = cs) :
    (utf8 cs).drop (byteLength as) = utf8 bs := by
  rw [← h, utf8_append, ← length_utf8, List.drop_left]

theorem length_le_byteLength (cs : List Char) : cs.length ≤ byteLength cs := by
  induction cs with
  | nil => exact Nat.le_refl _
  | cons c cs ih =>
    have := c.utf8Size_pos
    rw [List.length_cons, byteLength_cons]
    omega

namespace ByteScanner

open Scanner

theorem toNat_toChar (b : UInt8) : (toChar b).toNat = b.toNat := by
  have hvalid : b.toNat.isValidChar := .inl (Nat.lt_of_lt_of_le b.toNat_lt (by decide))
  rw [toChar, Char.ofNat, dif_pos hvalid]
  rfl

def IsAscii (c : Char) : Prop :=
  c.toNat < 128

instance (c : Char) : Decidable (IsAscii c) :=
  inferInstanceAs (Decidable (c.toNat < 128))

/-- A character of ASCII is one byte, which stands for it. -/
theorem utf8EncodeChar_ascii {c : Char} (h : IsAscii c) :
    ∃ b, String.utf8EncodeChar c = [b] ∧ toChar b = c := by
  have hle : c.val.toNat ≤ 127 := Nat.le_of_lt_succ h
  refine ⟨UInt8.ofNat c.val.toNat, if_pos hle, ?_⟩
  apply Char.ext
  apply UInt32.toNat.inj
  show (toChar _).toNat = c.toNat
  rw [toNat_toChar, UInt8.toNat_ofNat']
  exact Nat.mod_eq_of_lt (Nat.lt_of_le_of_lt hle (by decide))

/-- The bytes of any other character stand for none of ASCII. -/
theorem not_isAscii_of_mem {c : Char} (h : ¬ IsAscii c) :
    ∀ b ∈ String.utf8EncodeChar c, ¬ IsAscii (toChar b) := by
  have hlt : ¬ c.val.toNat ≤ 127 := fun hle => h (Nat.lt_succ_of_le hle)
  intro b hb
  rw [IsAscii, toNat_toChar]
  simp only [String.utf8EncodeChar, if_neg hlt] at hb
  split at hb
  · simp only [List.mem_cons, List.not_mem_nil, or_false] at hb
    obtain rfl | rfl := hb <;> simp <;> omega
  split at hb
  · simp only [List.mem_cons, List.not_mem_nil, or_false] at hb
    obtain rfl | rfl | rfl := hb <;> simp <;> omega
  · simp only [List.mem_cons, List.not_mem_nil, or_false] at hb
    obtain rfl | rfl | rfl | rfl := hb <;> simp <;> omega

/-- A character of ASCII has no bytes but the one that stands for it. -/
theorem cons_ascii {c : Char} (hc : IsAscii c) {b : UInt8} {bs : List UInt8}
    (hbytes : String.utf8EncodeChar c = b :: bs) : toChar b = c ∧ bs = [] := by
  obtain ⟨b', hb, hchar⟩ := utf8EncodeChar_ascii hc
  rw [hbytes] at hb
  obtain ⟨rfl, rfl⟩ := List.cons.inj hb
  exact ⟨hchar, rfl⟩

/-- The function does not tell apart characters that are not of ASCII. -/
def Blind {α : Type} (f : Char → α) (answer : α) : Prop :=
  ∀ c, ¬ IsAscii c → f c = answer

theorem beq_ascii {c d : Char} (hc : ¬ IsAscii c) (hd : IsAscii d) : (c == d) = false := by
  rw [beq_eq_false_iff_ne]
  rintro rfl
  exact hc hd

theorem blind_isLineBlank : Blind isLineBlank false := by
  intro c hc
  simp [isLineBlank, beq_ascii hc (show IsAscii ' ' by decide),
    beq_ascii hc (show IsAscii '\t' by decide)]

theorem blind_isLineBreak : Blind isLineBreak false := by
  intro c hc
  have := beq_ascii hc (show IsAscii '\r' by decide)
  have := beq_ascii hc (show IsAscii '\n' by decide)
  simp_all [isLineBreak]

theorem blind_isDigit : Blind Char.isDigit false := by
  intro c hc
  rw [IsAscii] at hc
  simp [Char.isDigit, UInt32.le_iff_toNat_le]
  omega

theorem blind_isAlpha : Blind Char.isAlpha false := by
  intro c hc
  rw [IsAscii] at hc
  delta Char.isAlpha Char.isUpper Char.isLower
  simp [UInt32.le_iff_toNat_le]
  omega

theorem blind_isWordStart : Blind isWordStart false := by
  intro c hc
  simp [isWordStart, blind_isAlpha c hc, beq_ascii hc (show IsAscii '_' by decide)]

theorem blind_isDigitPart : Blind isDigitPart false := by
  intro c hc
  simp [isDigitPart, blind_isDigit c hc, beq_ascii hc (show IsAscii '_' by decide)]

theorem blind_isWordPart : Blind isWordPart false := by
  intro c hc
  simp [isWordPart, Char.isAlphanum, blind_isAlpha c hc, blind_isDigit c hc,
    beq_ascii hc (show IsAscii '_' by decide)]

theorem blind_isNumberSuffix : Blind isNumberSuffix false := by
  intro c hc
  have hall : "fFdDmMlLuU".toList.all fun d => decide (IsAscii d) := by decide
  rw [← Bool.not_eq_true]
  exact fun h => hc (by simpa using List.all_eq_true.mp hall c (List.contains_iff_mem.mp h))

theorem blind_beq {d : Char} (h : IsAscii d) : Blind (· == d) false :=
  fun _ hc => beq_ascii hc h

namespace Blind

variable {α : Type} {f : Char → α} {answer : α}

theorem not {p : Char → Bool} {answer : Bool} (h : Blind p answer) : Blind (! p ·) (!answer) :=
  fun c hc => congrArg (! ·) (h c hc)

/-- The first byte of a character means what the character means. -/
theorem first (h : Blind f answer) {c : Char} {b : UInt8} {bs : List UInt8}
    (hbytes : String.utf8EncodeChar c = b :: bs) : f (toChar b) = f c := by
  by_cases hc : IsAscii c
  · rw [(cons_ascii hc hbytes).1]
  · have hb : ¬ IsAscii (toChar b) := not_isAscii_of_mem hc b (hbytes ▸ List.mem_cons_self)
    rw [h c hc, h _ hb]

/-- What means something is a character of ASCII. -/
theorem isAscii {p : Char → Bool} (h : Blind p false) {c : Char} (hc : p c = true) : IsAscii c := by
  by_contra hnot
  exact Bool.false_ne_true ((h c hnot).symm.trans hc)

end Blind

theorem exists_first (c : Char) : ∃ b bs, String.utf8EncodeChar c = b :: bs :=
  List.exists_cons_of_ne_nil String.utf8EncodeChar_ne_nil

/-- A character of ASCII in front of a text is the byte in front of its bytes. -/
theorem utf8_cons_ascii {c : Char} (h : IsAscii c) (cs : List Char) :
    ∃ b, utf8 (c :: cs) = b :: utf8 cs ∧ toChar b = c := by
  obtain ⟨b, hbytes, hb⟩ := utf8EncodeChar_ascii h
  exact ⟨b, by rw [utf8_cons, hbytes, List.singleton_append], hb⟩

theorem utf8Size_ascii {c : Char} (h : IsAscii c) : c.utf8Size = 1 := by
  obtain ⟨b, hbytes, -⟩ := utf8EncodeChar_ascii h
  rw [← String.length_utf8EncodeChar, hbytes, List.length_singleton]

theorem starts_utf8 {p : Char → Bool} {answer : Bool} (hp : Blind p answer) (cs : List Char) :
    starts p (utf8 cs) = cs.head?.any p := by
  cases cs with
  | nil => rfl
  | cons c cs =>
    obtain ⟨b, bs, hbytes⟩ := exists_first c
    rw [utf8_cons, hbytes]
    exact hp.first hbytes

theorem starts_cons {p : Char → Bool} {answer : Bool} (hp : Blind p answer) (c : Char)
    (cs : List Char) : starts p (utf8 (c :: cs)) = p c :=
  starts_utf8 hp (c :: cs)

/-- Two characters of ASCII are two bytes. -/
theorem opens_utf8 {c d : Char} (hc : IsAscii c) (hd : IsAscii d) (cs : List Char) :
    opens c d (utf8 cs) = true ↔ ∃ rest, cs = c :: d :: rest := by
  cases cs with
  | nil => simp [opens, starts]
  | cons x cs =>
    rw [opens, starts_utf8 (blind_beq hc), Bool.and_eq_true]
    constructor
    · rintro ⟨hx, hnext⟩
      obtain rfl : x = c := by simpa using hx
      -- The first character is a single byte, so behind it the second one begins.
      obtain ⟨b, hbytes, -⟩ := utf8_cons_ascii hc cs
      rw [hbytes, List.tail_cons, starts_utf8 (blind_beq hd)] at hnext
      obtain ⟨y, hy, hyd⟩ := (Option.any_eq_true _ _).mp hnext
      obtain rfl : y = d := beq_iff_eq.mp hyd
      obtain ⟨rest, rfl⟩ := List.head?_eq_some_iff.mp hy
      exact ⟨rest, rfl⟩
    · rintro ⟨rest, h⟩
      obtain ⟨rfl, rfl⟩ := List.cons.inj h
      obtain ⟨b, hbytes, -⟩ := utf8_cons_ascii hc (d :: rest)
      rw [hbytes, List.tail_cons, starts_utf8 (blind_beq hd)]
      simp

theorem not_opens_utf8 {c d x : Char} {cs : List Char} (hc : IsAscii c) (hd : IsAscii d)
    (h : ∀ rest, x = c → cs = d :: rest → False) : opens c d (utf8 (x :: cs)) = false := by
  rw [← Bool.not_eq_true, opens_utf8 hc hd]
  rintro ⟨rest, heq⟩
  exact h rest (List.cons.inj heq).1 (List.cons.inj heq).2

/-! ## Loops -/

/-- A loop over bytes passes just the characters that a loop over characters does. -/
theorem lengthWhile_utf8 {p : Char → Bool} {answer : Bool} (hp : Blind p answer) (cs : List Char) :
    lengthWhile p (utf8 cs) = byteLength (splitWhile p cs).1 := by
  unfold lengthWhile splitWhile
  induction cs with
  | nil => rfl
  | cons c cs ih =>
    rw [utf8_cons]
    by_cases hc : IsAscii c
    · obtain ⟨b, hbytes, hb⟩ := utf8EncodeChar_ascii hc
      have hsize : c.utf8Size = 1 := by
        rw [← String.length_utf8EncodeChar, hbytes, List.length_singleton]
      rw [hbytes, List.singleton_append, List.takeWhile_cons, List.takeWhile_cons, hb]
      split
      · rw [List.length_cons, ih, byteLength_cons, hsize, Nat.add_comm]
      · rfl
    · have hall : ∀ b ∈ String.utf8EncodeChar c, p (toChar b) = answer :=
        fun b hb => hp _ (not_isAscii_of_mem hc b hb)
      rw [List.takeWhile_cons, hp c hc]
      cases answer with
      | true =>
        rw [List.takeWhile_append_of_pos hall, List.length_append, ih, if_pos rfl, byteLength_cons,
          String.length_utf8EncodeChar]
      | false =>
        obtain ⟨b, bs, hbytes⟩ := List.exists_cons_of_ne_nil (String.utf8EncodeChar_ne_nil (c := c))
        rw [hbytes, List.cons_append, List.takeWhile_cons, hall b (hbytes ▸ List.mem_cons_self)]
        rfl

theorem lineLength_utf8 (cs : List Char) : lineLength (utf8 cs) = byteLength (splitLine cs).1 :=
  lengthWhile_utf8 blind_isLineBreak.not cs

/-- On bytes, a line break is as long as on characters. -/
theorem lineBreakLength_utf8 (cs : List Char) :
    lineBreakLength (utf8 cs) = byteLength (splitLineBreak cs).1 := by
  unfold lineBreakLength
  rw [starts_utf8 blind_isLineBreak]
  fun_cases splitLineBreak cs with
  | case1 rest => rfl
  | case2 c rest hpair hbreak =>
    have hc : IsAscii c := blind_isLineBreak.isAscii hbreak
    have hfirst : (c :: rest).head?.any isLineBreak = true := hbreak
    rw [not_opens_utf8 (by decide) (by decide) hpair, hfirst, byteLength_cons, utf8Size_ascii hc]
    rfl
  | case3 c rest hpair hbreak =>
    have hfirst : (c :: rest).head?.any isLineBreak = false := Bool.eq_false_iff.mpr hbreak
    rw [not_opens_utf8 (by decide) (by decide) hpair, hfirst]
    rfl
  | case4 => rfl

/-- No byte behind the first one of a character can end a comment. -/
theorem commentEndLength_append {bytes : List UInt8} (h : ∀ b ∈ bytes, ¬ IsAscii (toChar b))
    (rest : List UInt8) :
    commentEndLength (bytes ++ rest) = bytes.length + commentEndLength rest := by
  induction bytes with
  | nil => exact (Nat.zero_add _).symm
  | cons b bytes ih =>
    have hb : starts (· == '*') (b :: (bytes ++ rest)) = false :=
      beq_ascii (h b List.mem_cons_self) (by decide)
    rw [List.cons_append, commentEndLength, opens, hb,
      ih fun b hb => h b (List.mem_cons_of_mem _ hb), List.length_cons]
    simp only [Bool.false_and, Bool.false_eq_true, if_false]
    omega

/-- Behind the opening of a comment its end is found at the same place, whatever stands inside. -/
theorem commentEndLength_utf8 (cs : List Char) :
    commentEndLength (utf8 cs) = byteLength (splitCommentEnd cs).1 := by
  fun_induction splitCommentEnd cs with
  | case1 rest => rfl
  | case2 c rest hend text others hsplit ih =>
    rw [hsplit] at ih
    have hinside : opens '*' '/' (utf8 (c :: rest)) = false :=
      not_opens_utf8 (by decide) (by decide) hend
    by_cases hc : IsAscii c
    · obtain ⟨b, hbytes, -⟩ := utf8_cons_ascii hc rest
      rw [hbytes] at hinside ⊢
      rw [commentEndLength, hinside, ih, byteLength_cons, utf8Size_ascii hc]
      rfl
    · rw [utf8_cons, commentEndLength_append (not_isAscii_of_mem hc), ih,
        String.length_utf8EncodeChar, byteLength_cons]
  | case3 => rfl

/-- No byte behind the first one of a character can end a literal. -/
theorem literalLength_append {close : Char} (hclose : IsAscii close) {bytes : List UInt8}
    (h : ∀ b ∈ bytes, ¬ IsAscii (toChar b)) (rest : List UInt8) :
    literalLength close (bytes ++ rest) = bytes.length + literalLength close rest := by
  induction bytes with
  | nil => exact (Nat.zero_add _).symm
  | cons b bytes ih =>
    have hb := h b List.mem_cons_self
    rw [List.cons_append, literalLength, beq_ascii hb (show IsAscii '\\' by decide),
      blind_isLineBreak _ hb, beq_ascii hb hclose, ih fun b hb => h b (List.mem_cons_of_mem _ hb),
      List.length_cons]
    simp only [Bool.false_eq_true, if_false]
    omega

/-- A backslash in front of a longer character takes its first byte only, but the others mean
nothing, either. -/
theorem literalLength_utf8 {close : Char} (hclose : IsAscii close) (cs : List Char) :
    literalLength close (utf8 cs) = byteLength (splitLiteral close cs).1 := by
  obtain ⟨slash, hslash, hchar⟩ := utf8EncodeChar_ascii (show IsAscii '\\' by decide)
  have hbackslash (cs : List Char) : utf8 ('\\' :: cs) = slash :: utf8 cs := by
    rw [utf8_cons, hslash, List.singleton_append]
  -- The two patterns with a backslash leave no character behind it.
  have hne {c : Char} {rest : List Char} (hone : c = '\\' → rest = [] → False)
      (htwo : ∀ d others, c = '\\' → rest = d :: others → False) : (c == '\\') = false := by
    rw [beq_eq_false_iff_ne]
    rintro rfl
    cases rest with
    | nil => exact hone rfl rfl
    | cons d others => exact htwo d others rfl rfl
  fun_induction splitLiteral close cs with
  | case1 => rw [utf8_nil, literalLength, byteLength_nil]
  | case2 =>
    rw [hbackslash, literalLength, hchar, utf8_nil, List.tail_nil, literalLength]
    rfl
  | case3 c rest text others hsplit ih =>
    rw [hsplit] at ih
    obtain ⟨b, bs, hbytes⟩ := exists_first c
    have hothers : ∀ b ∈ bs, ¬ IsAscii (toChar b) := by
      by_cases hc : IsAscii c
      · rw [(cons_ascii hc hbytes).2]
        exact nofun
      · exact fun b hb => not_isAscii_of_mem hc b (hbytes ▸ List.mem_cons_of_mem _ hb)
    have hsize : c.utf8Size = 1 + bs.length := by
      rw [← String.length_utf8EncodeChar, hbytes, List.length_cons, Nat.add_comm]
    rw [hbackslash, utf8_cons, hbytes, List.cons_append, literalLength, hchar, List.tail_cons,
      literalLength_append hclose hothers, ih, byteLength_cons, byteLength_cons, hsize,
      utf8Size_ascii (by decide)]
    simp only [beq_self_eq_true, if_true, List.length_cons]
    omega
  | case4 c rest hone htwo hbreak =>
    obtain ⟨b, hbytes, hb⟩ := utf8_cons_ascii (blind_isLineBreak.isAscii hbreak) rest
    rw [hbytes, literalLength, hb, hne hone htwo, hbreak]
    rfl
  | case5 c rest hone htwo hbreak hend =>
    obtain rfl : c = close := by simpa using hend
    obtain ⟨b, hbytes, hb⟩ := utf8_cons_ascii hclose rest
    rw [hbytes, literalLength, hb, hne hone htwo, Bool.eq_false_iff.mpr hbreak, hend,
      byteLength_cons, utf8Size_ascii hclose]
    rfl
  | case6 c rest hone htwo hbreak hend text others hsplit ih =>
    rw [hsplit] at ih
    by_cases hc : IsAscii c
    · obtain ⟨b, hbytes, hb⟩ := utf8_cons_ascii hc rest
      rw [hbytes, literalLength, hb, hne hone htwo, Bool.eq_false_iff.mpr hbreak,
        Bool.eq_false_iff.mpr hend, ih, byteLength_cons, utf8Size_ascii hc]
      rfl
    · rw [utf8_cons, literalLength_append hclose (not_isAscii_of_mem hc), ih,
        String.length_utf8EncodeChar, byteLength_cons]

/-! ## Numbers -/

/-- On bytes, the fraction of a number is as long as on characters. -/
theorem fractionLength_utf8 (cs : List Char) :
    fractionLength (utf8 cs) = byteLength (splitFraction cs).1 := by
  unfold fractionLength
  rw [starts_utf8 (blind_beq (by decide))]
  fun_cases splitFraction cs with
  | case1 d rest hd digits others hsplit =>
    obtain ⟨b, hbytes, -⟩ := utf8_cons_ascii (show IsAscii '.' by decide) (d :: rest)
    have hlength := lengthWhile_utf8 blind_isDigitPart (d :: rest)
    have hpart : isDigitPart d = true := by rw [isDigitPart, hd, Bool.true_or]
    rw [splitWhile, List.takeWhile_cons, if_pos hpart] at hlength
    rw [hbytes, List.tail_cons, starts_utf8 blind_isDigit, hlength, ← (Prod.mk.inj hsplit).1]
    simp [hd, utf8Size_ascii (show IsAscii '.' by decide)]
  | case2 d rest hd =>
    obtain ⟨b, hbytes, -⟩ := utf8_cons_ascii (show IsAscii '.' by decide) (d :: rest)
    rw [hbytes, List.tail_cons, starts_utf8 blind_isDigit]
    simp [hd]
  | case3 cs hnot =>
    cases cs with
    | nil => rfl
    | cons c cs =>
      by_cases hc : c = '.'
      · subst hc
        cases cs with
        | nil => rfl
        | cons d rest => exact absurd rfl (hnot d rest)
      · simp [hc]

theorem numberLength_utf8 (cs : List Char) :
    numberLength (utf8 cs) = byteLength (splitNumber cs).1 := by
  have hwhole := drop_utf8 (splitWhile_append isDigitPart cs)
  have hfraction := drop_utf8 (splitFraction_append (splitWhile isDigitPart cs).2)
  simp only [numberLength, splitNumber]
  rw [lengthWhile_utf8 blind_isDigitPart, hwhole, fractionLength_utf8, ← List.drop_drop, hwhole,
    hfraction, lengthWhile_utf8 blind_isNumberSuffix, byteLength_append, byteLength_append]

end ByteScanner

end AutoProperty
