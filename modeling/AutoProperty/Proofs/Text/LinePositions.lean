import Mathlib.Logic.Basic
import AutoProperty.Text.Lines

/-! # Offsets and positions

The lines of a text are told by number without a look at offsets: the first one begins with the
text, and each other one behind what ends the line in front of it. The table of offsets knows
where they begin. So the position of an offset is the number of its line and of the characters
in front of it on the line, and leads back to the offset.
-/

namespace AutoProperty

/-- A line of a text, with what ends it and the text on both sides. -/
structure Line where
  before : List Char
  content : List Char
  ending : List Char
  after : List Char

namespace Line

/-- What ends a line: a line feed, a carriage return, both together, or the end of the text. -/
inductive Ends : List Char → List Char → Prop where
  | feed {after : List Char} : Ends ['\n'] after
  | pair {after : List Char} : Ends ['\r', '\n'] after
  | return {after : List Char} : after.head? ≠ some '\n' → Ends ['\r'] after
  | text : Ends [] []

theorem Ends.eq_nil {after : List Char} (h : Ends [] after) : after = [] := by
  cases h
  rfl

theorem Ends.takeWhile_eq {ending after : List Char} (h : Ends ending after) :
    ending.takeWhile (!isLineBreak ·) = [] := by
  cases h <;> rfl

/-- The line is the first one of a text. -/
structure Opens (l : Line) (cs : List Char) : Prop where
  spelled : cs = l.content ++ (l.ending ++ l.after)
  plain : ∀ c ∈ l.content, isLineBreak c = false
  ends : Ends l.ending l.after

/-- The offset at which the line begins. -/
def start (l : Line) : Nat :=
  byteLength l.before

/-- The offset in front of a character of the line. A character that the line does not have
stands for its end. -/
def offset (l : Line) (character : Nat) : Nat :=
  l.start + byteLength (l.content.take character)

/-- The offset at which the content of the line ends. -/
def stop (l : Line) : Nat :=
  l.start + byteLength l.content

/-- The text in front of the next line. -/
def through (l : Line) : List Char :=
  l.before ++ l.content ++ l.ending

theorem offset_le_stop (l : Line) (character : Nat) : l.offset character ≤ l.stop := by
  have h := congrArg byteLength (List.take_append_drop character l.content)
  rw [byteLength_append] at h
  rw [offset, stop]
  omega

theorem offset_mono (l : Line) {i j : Nat} (h : i ≤ j) : l.offset i ≤ l.offset j := by
  have hle := offset_le_stop { l with content := l.content.take j } i
  rwa [offset, List.take_take, Nat.min_eq_left h] at hle

theorem offset_eq_stop {l : Line} {character : Nat} (h : l.content.length ≤ character) :
    l.offset character = l.stop := by
  rw [offset, stop, List.take_of_length_le h]

/-- Every place in a text lies on a line. -/
theorem exists_opens (before cs : List Char) : ∃ l : Line, l.before = before ∧ l.Opens cs := by
  suffices h : ∃ content ending after, cs = content ++ (ending ++ after) ∧
    (∀ c ∈ content, isLineBreak c = false) ∧
      Ends ending after by
    obtain ⟨content, ending, after, hspelled, hplain, hends⟩ := h
    exact ⟨⟨before, content, ending, after⟩, rfl, hspelled, hplain, hends⟩
  induction cs with
  | nil => exact ⟨[], [], [], rfl, fun _ h => absurd h List.not_mem_nil, .text⟩
  | cons c cs ih =>
    have hempty : ∀ c ∈ ([] : List Char), isLineBreak c = false :=
      fun _ h => absurd h List.not_mem_nil
    cases hbreak : isLineBreak c with
    | false =>
      obtain ⟨content, ending, after, rfl, hplain, hends⟩ := ih
      exact ⟨c :: content, ending, after, rfl, List.forall_mem_cons.mpr ⟨hbreak, hplain⟩, hends⟩
    | true =>
      obtain rfl | rfl : c = '\n' ∨ c = '\r' := by simpa [isLineBreak] using hbreak
      · exact ⟨[], ['\n'], cs, rfl, hempty, .feed⟩
      · by_cases hfeed : cs.head? = some '\n'
        · obtain ⟨rest, rfl⟩ := List.head?_eq_some_iff.mp hfeed
          exact ⟨[], ['\r', '\n'], rest, rfl, hempty, .pair⟩
        · exact ⟨[], ['\r'], cs, rfl, hempty, .return hfeed⟩

end Line

/-- The line has a number in a text. -/
inductive IsLine (text : List Char) : Nat → Line → Prop where
  | first {l : Line} : l.before = [] → l.Opens text → IsLine text 0 l
  | next {n : Nat} {l next : Line} : IsLine text n l → l.ending ≠ [] → next.before = l.through →
      next.Opens l.after → IsLine text (n + 1) next

namespace IsLine

variable {text : List Char} {n : Nat} {l : Line}

theorem opens (h : IsLine text n l) : l.Opens (l.content ++ (l.ending ++ l.after)) := by
  cases h with
  | first _ hopens => exact ⟨rfl, hopens.plain, hopens.ends⟩
  | next _ _ _ hopens => exact ⟨rfl, hopens.plain, hopens.ends⟩

theorem spelled (h : IsLine text n l) :
    text = l.before ++ (l.content ++ (l.ending ++ l.after)) := by
  induction h with
  | first hbefore hopens => rw [hbefore, ← hopens.spelled, List.nil_append]
  | @next n l next _ _ hbefore hopens ih =>
    rw [hbefore, ← hopens.spelled, Line.through, ih]
    simp only [List.append_assoc]

end IsLine

/-! ## The table of offsets -/

/-- Later lines begin behind the offset. -/
theorem lt_of_mem_laterLineStarts {offset start : Nat} {cs : List Char}
    (h : start ∈ laterLineStarts offset cs) : offset < start := by
  fun_induction laterLineStarts offset cs with
  | case1 => cases h
  | case2 offset rest ih =>
    rcases List.mem_cons.mp h with rfl | h
    · omega
    · have := ih h
      omega
  | case3 offset c rest _ hbreak ih =>
    rcases List.mem_cons.mp h with rfl | h
    · omega
    · have := ih h
      omega
  | case4 offset c rest _ _ ih =>
    have := ih h
    omega

/-- No line begins within text without line breaks. -/
theorem laterLineStarts_plain {content : List Char} (h : ∀ c ∈ content, isLineBreak c = false)
    (offset : Nat) (rest : List Char) :
    laterLineStarts offset (content ++ rest) = laterLineStarts (offset + byteLength content)
      rest := by
  induction content generalizing offset with
  | nil => rfl
  | cons c content ih =>
    obtain ⟨hc, hothers⟩ := List.forall_mem_cons.mp h
    have hne : c ≠ '\r' := by
      rintro rfl
      cases hc
    rw [List.cons_append, laterLineStarts]
    · rw [if_neg (by simp [hc]), ih hothers, byteLength_cons, Nat.add_assoc]
    · exact fun _ hr _ => hne hr

/-- A line begins right behind each line break. -/
theorem laterLineStarts_ending {ending after : List Char} (h : Line.Ends ending after)
    (hne : ending ≠ []) (offset : Nat) :
    laterLineStarts offset (ending ++ after) = (offset + byteLength ending) :: laterLineStarts
      (offset + byteLength ending) after := by
  have hfeed : '\n'.utf8Size = 1 := by decide
  have hreturn : '\r'.utf8Size = 1 := by decide
  cases h with
  | feed => simp [laterLineStarts, isLineBreak, hfeed]
  | pair => simp [laterLineStarts, hfeed, hreturn]
  | «return» hnot =>
    rw [List.singleton_append, laterLineStarts]
    · simp [isLineBreak, hreturn]
    · rintro rest _ rfl
      exact hnot rfl
  | text => exact absurd rfl hne

namespace IsLine

variable {text : List Char} {n : Nat} {l : Line}

theorem byteLength_through (l : Line) : byteLength l.through = l.stop + byteLength l.ending := by
  rw [Line.through, byteLength_append, byteLength_append, Line.stop, Line.start]

/-- Behind the last line no other one begins. -/
theorem laterLineStarts_last (h : IsLine text n l) (hlast : l.ending = []) :
    laterLineStarts l.start (l.content ++ (l.ending ++ l.after)) = [] := by
  have hafter := (hlast ▸ h.opens.ends).eq_nil
  rw [hlast, hafter]
  exact laterLineStarts_plain h.opens.plain _ _

/-- The next line begins behind what ends this one. -/
theorem laterLineStarts_next (h : IsLine text n l) (hne : l.ending ≠ []) :
    laterLineStarts l.start (l.content ++ (l.ending ++ l.after)) =
      byteLength l.through :: laterLineStarts (byteLength l.through) l.after := by
  rw [laterLineStarts_plain h.opens.plain, laterLineStarts_ending h.opens.ends hne,
    byteLength_through, Line.stop]

/-- From its number on, the table has the start of the line and those behind it. -/
theorem drop_starts (h : IsLine text n l) :
    (0 :: laterLineStarts 0 text).drop n = l.start :: laterLineStarts l.start
      (l.content ++ (l.ending ++ l.after)) := by
  induction h with
  | first hbefore hopens =>
    rw [← hopens.spelled, Line.start, hbefore, List.drop_zero, byteLength_nil]
  | @next n l next hline hne hbefore hopens ih =>
    rw [← List.tail_drop, ih, List.tail_cons, hline.laterLineStarts_next hne, ← hopens.spelled,
      Line.start, hbefore]

theorem start?_eq (h : IsLine text n l) : (0 :: laterLineStarts 0 text)[n]? = some l.start := by
  rw [← List.head?_drop, h.drop_starts, List.head?_cons]

theorem drop_succ_starts (h : IsLine text n l) :
    (0 :: laterLineStarts 0 text).drop (n + 1) = laterLineStarts l.start
      (l.content ++ (l.ending ++ l.after)) := by
  rw [← List.tail_drop, h.drop_starts, List.tail_cons]

/-- Up to its number, no line begins behind it. -/
theorem le_start (h : IsLine text n l) {start : Nat}
    (hmem : start ∈ (0 :: laterLineStarts 0 text).take (n + 1)) : start ≤ l.start := by
  induction h generalizing start with
  | first =>
    obtain rfl : start = 0 := by simpa using hmem
    exact Nat.zero_le _
  | @next n l next hline hne hbefore hopens ih =>
    have hstart : l.start ≤ next.start := by
      rw [show next.start = byteLength next.before from rfl, hbefore, byteLength_through, Line.stop]
      omega
    rw [List.take_add_one, start?_eq (.next hline hne hbefore hopens)] at hmem
    rcases List.mem_append.mp hmem with hmem | hmem
    · exact Nat.le_trans (ih hmem) hstart
    · exact Nat.le_of_eq (List.mem_singleton.mp hmem)

/-- Behind its number, each line begins behind the content of the line. -/
theorem lt_later (h : IsLine text n l) {start : Nat}
    (hmem : start ∈ (0 :: laterLineStarts 0 text).drop (n + 1)) : l.stop < start := by
  rw [h.drop_succ_starts, laterLineStarts_plain h.opens.plain] at hmem
  exact lt_of_mem_laterLineStarts hmem

end IsLine

namespace Lines

variable {text : String} {n : Nat} {l : Line}

/-- A place on a line is found on that line. -/
theorem lineAt_offset (h : IsLine text.toList n l) (character : Nat) :
    (Lines.ofText text).lineAt (l.offset character) = n := by
  have hstart : l.start ≤ l.offset character := Nat.le_add_right ..
  have hstop := l.offset_le_stop character
  -- Up to the number of the line all starts count, and behind it none does.
  have hfront : ((0 :: laterLineStarts 0 text.toList).take (n + 1)).countP
      (· ≤ l.offset character) = n + 1 := by
    have hlength : ((0 :: laterLineStarts 0 text.toList).take (n + 1)).length = n + 1 := by
      have hlt := (List.getElem?_eq_some_iff.mp h.start?_eq).1
      rw [List.length_take]
      omega
    rw [List.countP_eq_length.mpr, hlength]
    intro start hmem
    have := h.le_start hmem
    rw [decide_eq_true_eq]
    omega
  have hbehind : ((0 :: laterLineStarts 0 text.toList).drop (n + 1)).countP
      (· ≤ l.offset character) = 0 := by
    rw [List.countP_eq_zero]
    intro start hmem
    have := h.lt_later hmem
    rw [decide_eq_true_eq]
    omega
  rw [lineAt, ofText, ← List.take_append_drop (n + 1) (0 :: laterLineStarts 0 text.toList),
    List.countP_append, hfront, hbehind]
  rfl

/-- In front of a character of a line is the position with the numbers of both. -/
theorem positionAt_offset (h : IsLine text.toList n l) {character : Nat}
    (hle : character ≤ l.content.length) :
    (Lines.ofText text).positionAt (l.offset character) = ⟨n, character⟩ := by
  have hcut :=
    cutBytes?_append l.before (l.content.take character)
      (l.content.drop character ++ (l.ending ++ l.after))
  have htext : l.before ++ l.content.take character ++
      (l.content.drop character ++ (l.ending ++ l.after)) = text.toList := by
    rw [h.spelled, List.append_assoc, ← List.append_assoc (List.take _ _), List.take_append_drop]
  have hbound : l.offset character ≤ byteLength text.toList := by
    rw [← htext, byteLength_append, byteLength_append]
    exact Nat.le_add_right ..
  have hstart : (Lines.ofText text).start? n = some l.start := h.start?_eq
  have hstop : l.start ≤ l.offset character := Nat.le_add_right ..
  rw [htext] at hcut
  rw [positionAt]
  simp only [lineAt_offset h, hstart, Option.getD_some]
  rw [show (Lines.ofText text).text = text.toList from rfl, Nat.min_eq_left hbound,
    Nat.min_eq_left hstop, Line.offset, Line.start, hcut, Option.getD_some, List.length_take,
    Nat.min_eq_left hle]

/-- What the table has for a line is its content and what ends it. -/
theorem content_eq (h : IsLine text.toList n l) :
    (Lines.ofText text).content n = l.content ++ l.ending := by
  have hstart : (Lines.ofText text).start? n = some l.start := h.start?_eq
  have hstop : ((Lines.ofText text).start? (n + 1)).getD (byteLength text.toList) =
      l.start + byteLength (l.content ++ l.ending) := by
    have hnext : (Lines.ofText text).start? (n + 1) =
        (laterLineStarts l.start (l.content ++ (l.ending ++ l.after))).head? := by
      rw [← h.drop_succ_starts, List.head?_drop]
      rfl
    rw [hnext]
    by_cases hending : l.ending = []
    · have hafter := (hending ▸ h.opens.ends).eq_nil
      rw [h.laterLineStarts_last hending, h.spelled, hending, hafter]
      simp [Line.start]
    · rw [h.laterLineStarts_next hending, List.head?_cons, Option.getD_some,
        IsLine.byteLength_through, byteLength_append, Line.stop, Nat.add_assoc]
  have hcut := cutBytes?_append l.before (l.content ++ l.ending) l.after
  have htext : l.before ++ (l.content ++ l.ending) ++ l.after = text.toList := by
    rw [h.spelled]
    simp only [List.append_assoc]
  rw [htext] at hcut
  simp only [Lines.content, hstart, Option.getD_some]
  rw [show (Lines.ofText text).text = text.toList from rfl, hstop, Line.start, hcut,
    Option.getD_some]

theorem offset?_eq (h : IsLine text.toList n l) (character : Nat) :
    (Lines.ofText text).offset? ⟨n, character⟩ = some (l.offset character) := by
  have hstart : (Lines.ofText text).start? n = some l.start := h.start?_eq
  have hplain : (l.content ++ l.ending).takeWhile (!isLineBreak ·) = l.content := by
    have hcontent : ∀ c ∈ l.content, (!isLineBreak c) = true :=
      fun c hc => by rw [h.opens.plain c hc]; rfl
    rw [List.takeWhile_append_of_pos hcontent, h.opens.ends.takeWhile_eq, List.append_nil]
  simp only [Lines.offset?, hstart, Option.map_some, content_eq h, hplain]
  rfl

end Lines

/-! ## Places in a text -/

/-- The offset lies between characters of the text, and not within a line break of two
characters. -/
def IsPlace (text : List Char) (offset : Nat) : Prop :=
  ∃ before after, text = before ++ after ∧ offset = byteLength before ∧
    ¬(before.getLast? = some '\r' ∧ after.head? = some '\n')

/-- A line break of two characters is the only one that can be parted. -/
theorem Line.Ends.parted {ending after front behind : List Char} (h : Ends ending after)
    (hparted : ending = front ++ behind) (hfront : front ≠ []) (hbehind : behind ≠ []) :
    front = ['\r'] ∧ behind = ['\n'] := by
  obtain ⟨c, front, rfl⟩ := List.exists_cons_of_ne_nil hfront
  obtain ⟨d, behind, rfl⟩ := List.exists_cons_of_ne_nil hbehind
  cases h with
  | pair =>
    cases front with
    | nil =>
      cases hparted
      exact ⟨rfl, rfl⟩
    | cons _ front => cases front <;> cases hparted
  | feed | «return» _ => cases front <;> cases hparted
  | text => cases hparted

/-- A place behind the start of a line is in front of a character or at the end of this line or
a later one. -/
theorem IsLine.exists_offset {text front behind : List Char} {n : Nat} {l : Line}
    (h : IsLine text n l) (hsplit : l.content ++ (l.ending ++ l.after) = front ++ behind)
    (hbreak : ¬(front.getLast? = some '\r' ∧ behind.head? = some '\n')) :
    ∃ m l' character, IsLine text m l' ∧ character ≤ l'.content.length ∧
      l.start + byteLength front = l'.offset character := by
  rcases List.append_eq_append_iff.mp hsplit with ⟨further, rfl, hfurther⟩ | ⟨_, hcontent, _⟩
  case inr =>
    refine ⟨n, l, front.length, h, ?_, ?_⟩
    · rw [hcontent, List.length_append]
      exact Nat.le_add_right ..
    · rw [Line.offset, hcontent, List.take_left]
  by_cases hnone : further = []
  · refine ⟨n, l, l.content.length, h, Nat.le_refl _, ?_⟩
    rw [hnone, List.append_nil, Line.offset, List.take_length]
  -- The place is behind the whole line break, as it does not part one.
  obtain ⟨rest, rfl, hafter⟩ : ∃ rest, further = l.ending ++ rest ∧ l.after = rest ++ behind := by
    rcases List.append_eq_append_iff.mp hfurther with ⟨rest, hrest, hafter⟩
      | ⟨rest, hending, hbehind⟩
    · exact ⟨rest, hrest, hafter⟩
    · by_cases hrest : rest = []
      · subst hrest
        exact ⟨[], by rw [hending]; simp, by rw [hbehind]; rfl⟩
      · obtain ⟨rfl, rfl⟩ := h.opens.ends.parted hending hnone hrest
        exact absurd ⟨by simp, by simp [hbehind]⟩ hbreak
  have hne : l.ending ≠ [] := by
    intro hending
    have hnil := (hending ▸ h.opens.ends).eq_nil
    obtain ⟨rfl, _⟩ := List.append_eq_nil_iff.mp (hafter.symm.trans hnil)
    exact hnone (by rw [hending]; rfl)
  have hshorter : rest.length < (l.content ++ (l.ending ++ rest)).length := by
    have := List.length_pos_iff.mpr hne
    simp only [List.length_append]
    omega
  obtain ⟨next, hbefore, hopens⟩ := Line.exists_opens l.through l.after
  have hbreak' : ¬(rest.getLast? = some '\r' ∧ behind.head? = some '\n') := by
    rintro ⟨hlast, hhead⟩
    refine hbreak ⟨?_, hhead⟩
    rw [List.getLast?_append, List.getLast?_append, hlast]
    rfl
  obtain ⟨m, l', character, hline, hle, hoffset⟩ :=
    (IsLine.next h hne hbefore hopens).exists_offset (hopens.spelled.symm.trans hafter) hbreak'
  refine ⟨m, l', character, hline, hle, ?_⟩
  rw [← hoffset, byteLength_append, byteLength_append,
    show next.start = byteLength next.before from rfl, hbefore, byteLength_through, Line.stop]
  omega
termination_by front.length

/-- Each place is one on a line. -/
theorem IsPlace.exists_offset {text : List Char} {offset : Nat} (h : IsPlace text offset) :
    ∃ n l character, IsLine text n l ∧ character ≤ l.content.length ∧
      offset = l.offset character := by
  obtain ⟨before, after, htext, rfl, hbreak⟩ := h
  obtain ⟨l, hbefore, hopens⟩ := Line.exists_opens [] text
  obtain ⟨n, l', character, hline, hle, hoffset⟩ :=
    (IsLine.first hbefore hopens).exists_offset (hopens.spelled.symm.trans htext) hbreak
  rw [Line.start, hbefore, byteLength_nil, Nat.zero_add] at hoffset
  exact ⟨n, l', character, hline, hle, hoffset⟩

/-- No line begins within a line break of two characters. -/
theorem IsLine.not_parted {text : List Char} {n : Nat} {l : Line} (h : IsLine text n l) :
    ¬(l.before.getLast? = some '\r' ∧ (l.content ++ (l.ending ++ l.after)).head? = some '\n') := by
  cases h with
  | first hbefore _ =>
    rintro ⟨hlast, _⟩
    rw [hbefore] at hlast
    cases hlast
  | @next n l' _ hline hne hbefore hopens =>
    rintro ⟨hlast, hhead⟩
    rw [← hopens.spelled] at hhead
    rw [hbefore, Line.through, List.getLast?_append] at hlast
    have hends := hline.opens.ends
    generalize l'.ending = ending at hends hne hlast
    generalize l'.after = after at hends hhead
    cases hends with
    | feed | pair => simp at hlast
    | «return» hnot => exact hnot hhead
    | text => exact hne rfl

/-- Every place on a line is a place in the text. -/
theorem IsLine.isPlace_offset {text : List Char} {n : Nat} {l : Line} (h : IsLine text n l)
    (character : Nat) : IsPlace text (l.offset character) := by
  refine ⟨l.before ++ l.content.take character, l.content.drop character ++ (l.ending ++ l.after),
    ?_, ?_, ?_⟩
  · rw [h.spelled, List.append_assoc, ← List.append_assoc (List.take _ _), List.take_append_drop]
  · rw [byteLength_append, Line.offset, Line.start]
  rintro ⟨hlast, hhead⟩
  by_cases hnone : l.content.take character = []
  · have hrest : l.content.drop character = l.content := by
      rw [← List.nil_append (l.content.drop character), ← hnone, List.take_append_drop]
    rw [hnone, List.append_nil] at hlast
    rw [hrest] at hhead
    exact h.not_parted ⟨hlast, hhead⟩
  · rw [List.getLast?_append, List.getLast?_eq_some_getLast hnone, Option.some_or] at hlast
    have hmem : '\r' ∈ l.content.take character := Option.some.inj hlast ▸ List.getLast_mem hnone
    have hplain := h.opens.plain '\r' (List.mem_of_mem_take hmem)
    cases hplain

/-- Positions are in order by line, then by character. -/
def Position.Precedes (p q : Position) : Prop :=
  p.line < q.line ∨ p.line = q.line ∧ p.character < q.character

namespace Lines

variable (text : String)

/-- Each line that the table counts is one of the text. -/
theorem exists_line {n : Nat} (h : n < (Lines.ofText text).count) :
    ∃ l, IsLine text.toList n l := by
  induction n with
  | zero =>
    obtain ⟨l, hbefore, hopens⟩ := Line.exists_opens [] text.toList
    exact ⟨l, .first hbefore hopens⟩
  | succ n ih =>
    obtain ⟨l, hline⟩ := ih (Nat.lt_of_succ_lt h)
    have hne : l.ending ≠ [] := by
      intro hlast
      have hdrop := hline.drop_succ_starts
      rw [hline.laterLineStarts_last hlast, List.drop_eq_nil_iff] at hdrop
      exact Nat.not_lt.mpr hdrop h
    obtain ⟨next, hbefore, hopens⟩ := Line.exists_opens l.through l.after
    exact ⟨next, .next hline hne hbefore hopens⟩

theorem lineAt_mono (lines : Lines) {a b : Nat} (h : a ≤ b) : lines.lineAt a ≤ lines.lineAt b := by
  have hcount : lines.starts.countP (· ≤ a) ≤ lines.starts.countP (· ≤ b) :=
    List.countP_mono_left fun start _ hstart => by
      rw [decide_eq_true_eq] at hstart ⊢
      exact Nat.le_trans hstart h
  exact Nat.sub_le_sub_right hcount 1

theorem offset?_positionAt {a : Nat} (h : IsPlace text.toList a) :
    (Lines.ofText text).offset? ((Lines.ofText text).positionAt a) = some a := by
  obtain ⟨n, l, character, hline, hle, rfl⟩ := h.exists_offset
  rw [positionAt_offset hline hle, offset?_eq hline]

/-- Places keep their order as positions. -/
theorem precedes_positionAt {a b : Nat} (ha : IsPlace text.toList a) (hb : IsPlace text.toList b)
    (hlt : a < b) :
    ((Lines.ofText text).positionAt a).Precedes ((Lines.ofText text).positionAt b) := by
  have hmono := (Lines.ofText text).lineAt_mono (Nat.le_of_lt hlt)
  obtain ⟨n, l, i, hline, hi, rfl⟩ := ha.exists_offset
  obtain ⟨m, l', j, hline', hj, rfl⟩ := hb.exists_offset
  rw [lineAt_offset hline, lineAt_offset hline'] at hmono
  rw [positionAt_offset hline hi, positionAt_offset hline' hj]
  rcases Nat.lt_or_eq_of_le hmono with hmn | rfl
  · exact .inl hmn
  · refine .inr ⟨rfl, Nat.lt_of_not_le fun hji => ?_⟩
    -- Both offsets are on one line, so the one with no more characters in front of it is no larger.
    have hsame : l'.offset i = l.offset i :=
      Option.some.inj ((offset?_eq hline' i).symm.trans (offset?_eq hline i))
    have hle : l'.offset j ≤ l'.offset i := l'.offset_mono hji
    omega

/-- A position leads to a place on its line: to the one in front of its character, or to the end
of the content if there is no such character. -/
structure LeadsTo (p : Position) (l : Line) (offset : Nat) : Prop where
  line : IsLine text.toList p.line l
  place : IsPlace text.toList offset
  offset_eq : offset = l.offset p.character
  start_le : l.start ≤ offset
  le_stop : offset ≤ l.stop
  clamped : l.content.length ≤ p.character → offset = l.stop

theorem exists_leadsTo {p : Position} (h : p.line < (Lines.ofText text).count) :
    ∃ l offset, (Lines.ofText text).offset? p = some offset ∧ LeadsTo text p l offset := by
  obtain ⟨l, hline⟩ := exists_line text h
  refine ⟨l, l.offset p.character, offset?_eq hline p.character, ?_⟩
  exact ⟨hline, hline.isPlace_offset p.character, rfl, Nat.le_add_right ..,
    l.offset_le_stop p.character, Line.offset_eq_stop⟩

/-- Positions of places in a text are in the order of the places and lead back to them, and each
position whose line exists leads to a place on it. -/
theorem positions (text : String) :
    (∀ a b, IsPlace text.toList a → IsPlace text.toList b → a < b →
      ((Lines.ofText text).positionAt a).Precedes ((Lines.ofText text).positionAt b)) ∧
      (∀ a, IsPlace text.toList a →
        (Lines.ofText text).offset? ((Lines.ofText text).positionAt a) = some a) ∧ ∀ p : Position,
        p.line < (Lines.ofText text).count →
        ∃ l offset, (Lines.ofText text).offset? p = some offset ∧ LeadsTo text p l offset :=
  ⟨fun _ _ => precedes_positionAt text, fun _ => offset?_positionAt text,
    fun _ => exists_leadsTo text⟩

/-- A line break of two characters lies between a character of two bytes and one on the next
line. -/
theorem positions_use :
    let lines := Lines.ofText "é\r\nb"
    IsPlace "é\r\nb".toList 2 ∧ IsPlace "é\r\nb".toList 4 ∧ lines.positionAt 2 = ⟨0, 1⟩ ∧
      lines.positionAt 4 = ⟨1, 0⟩ ∧ (lines.positionAt 2).Precedes (lines.positionAt 4) ∧
      lines.offset? (lines.positionAt 4) = some 4 ∧ 1 < lines.count ∧
      ∃ l offset, lines.offset? ⟨1, 7⟩ = some offset ∧ LeadsTo "é\r\nb" ⟨1, 7⟩ l offset := by
  intro lines
  obtain ⟨hprecedes, hback, hleads⟩ := positions "é\r\nb"
  have hfirst : IsPlace "é\r\nb".toList 2 := ⟨['é'], ['\r', '\n', 'b'], by decide⟩
  have hsecond : IsPlace "é\r\nb".toList 4 := ⟨['é', '\r', '\n'], ['b'], by decide⟩
  have hcount : 1 < lines.count := by decide
  exact ⟨hfirst,
    hsecond, by decide, by
      decide, hprecedes 2 4 hfirst hsecond (by decide), hback 4 hsecond, hcount,
    hleads ⟨1, 7⟩ hcount⟩

end Lines

end AutoProperty
