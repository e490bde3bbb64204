import Mathlib.Data.Option.Basic
import AutoProperty.Proofs.Syntax.Leaves
import AutoProperty.Text.Replace

/-! # Replacing the texts of tokens

Replacing the places of some tokens in the text of a tree changes the texts of those tokens and
nothing else, and the places it reports are those of the same tokens in the new text.
-/

namespace AutoProperty

/-- A span behind the cursor is left alone. -/
theorem replaceSpansFrom_skip {cursor : Nat} {span : Span} (name : List Char) (written : Nat)
    (rest : List Char) (spans : List Span) (h : span.start < cursor) :
    replaceSpansFrom name cursor written rest (span :: spans) =
      let others := replaceSpansFrom name cursor written rest spans
      (others.1, none :: others.2) := by
  have hguard : ¬(cursor ≤ span.start && span.start ≤ span.stop) := by simp; omega
  have hnone : (guard (cursor ≤ span.start && span.start ≤ span.stop) : Option Unit) = none :=
    if_neg hguard
  rw [replaceSpansFrom, hnone]
  rfl

/-- A span ahead is replaced. -/
theorem replaceSpansFrom_take {cursor : Nat} {before inside : List Char} (span : Span)
    (name : List Char) (written : Nat) (rest : List Char) (spans : List Span)
    (hstart : span.start = cursor + byteLength before)
    (hstop : span.stop = span.start + byteLength inside) :
    replaceSpansFrom name cursor written (before ++ (inside ++ rest)) (span :: spans) =
      let placed := Span.ofLength (written + byteLength before) (byteLength name)
      let others := replaceSpansFrom name span.stop placed.stop rest spans
      (before ++ name ++ others.1, some placed :: others.2) := by
  have hguard : (cursor ≤ span.start && span.start ≤ span.stop) := by simp; omega
  have hsome : (guard (cursor ≤ span.start && span.start ≤ span.stop) : Option Unit) = some () :=
    if_pos hguard
  have hbefore : splitBytes? (span.start - cursor) (before ++ (inside ++ rest)) =
      some (before, inside ++ rest) := by
    rw [show span.start - cursor = byteLength before by omega]
    exact splitBytes?_append _ _
  have hinside : splitBytes? (span.stop - span.start) (inside ++ rest) = some (inside, rest) := by
    rw [show span.stop - span.start = byteLength inside by omega]
    exact splitBytes?_append _ _
  rw [replaceSpansFrom, hsome]
  simp [hbefore, hinside]

/-- The token, with `name` for its text if it stands at one of the spans. -/
def PlacedToken.respelled (spans : List Span) (name : String) (leaf : PlacedToken) : Token :=
  if spans.contains leaf.span then { leaf.token with text := name } else leaf.token

def OnLeaves (cursor : Nat) (leaves : List PlacedToken) (spans : List Span) : Prop :=
  ∀ span ∈ spans, span.start < cursor ∨ ∃ leaf ∈ leaves, leaf.text ≠ "" ∧ leaf.span = span

/-- Leaves that do not stand at the spans keep their texts. -/
theorem map_respelled_of_notMem {leaves : List PlacedToken} {spans : List Span} (name : String)
    (h : ∀ leaf ∈ leaves, leaf.span ∉ spans) :
    leaves.map (·.respelled spans name) = leaves.map (·.token) := by
  refine List.map_congr_left fun leaf hleaf => ?_
  rw [PlacedToken.respelled, if_neg (by simpa using h leaf hleaf)]

theorem map_respelled_cons {leaves : List PlacedToken} {span : Span} (spans : List Span)
    (name : String) (h : ∀ leaf ∈ leaves, leaf.span ≠ span) :
    leaves.map (·.respelled (span :: spans) name) = leaves.map (·.respelled spans name) := by
  refine List.map_congr_left fun leaf hleaf => ?_
  simp [PlacedToken.respelled, h leaf hleaf]

/-- A leaf parts the tokens in those before it and those behind it. -/
theorem exists_split_of_mem {i o : Nat} {ts : List Token} {leaf : PlacedToken}
    (h : leaf ∈ leavesFrom i o ts) : ∃ pre post, ts = pre ++ leaf.token :: post ∧
      leaf.index = i + pre.length ∧ leaf.start = o + byteLength (tokensText pre) := by
  obtain ⟨n, hn⟩ := List.getElem?_of_mem h
  rw [getElem?_leavesFrom] at hn
  obtain ⟨t, ht, rfl⟩ := Option.map_eq_some_iff.mp hn
  obtain ⟨hlt, rfl⟩ := List.getElem?_eq_some_iff.mp ht
  refine ⟨ts.take n, ts.drop (n + 1), ?_, ?_, rfl⟩
  · simp
  · simp [List.length_take, Nat.min_eq_left (Nat.le_of_lt hlt)]

theorem getElem?_leavesFrom_at (i o : Nat) (pre : List Token) (t : Token) (post : List Token) :
    (leavesFrom i o (pre ++ t :: post))[pre.length]? =
      some ⟨i + pre.length, o + byteLength (tokensText pre), t⟩ := by
  simp [getElem?_leavesFrom]

theorem getElem?_leavesFrom_behind (i o : Nat) (pre : List Token) (t : Token) (post : List Token)
    (n : Nat) :
    (leavesFrom i o (pre ++ t :: post))[pre.length + 1 + n]? =
      (leavesFrom (i + pre.length + 1) (o + byteLength (tokensText pre) + t.fullLength)
        post)[n]? := by
  rw [leavesFrom_append, List.getElem?_append_right (by rw [length_leavesFrom]; omega),
    length_leavesFrom, show pre.length + 1 + n - pre.length = n + 1 by omega]
  rfl

/-- What replacing spans gives: the text of the respelled tokens, and for each span that was
replaced the place of its token in the new text. -/
structure Replaces (i cursor : Nat) (ts new : List Token) (o o' : Nat) (gap tail : List Char)
    (spans : List Span) (outcome : List Char × List (Option Span)) : Prop where
  text : outcome.1 = gap ++ tokensText new ++ tail
  length : outcome.2.length = spans.length
  moved : ∀ span place, (span, some place) ∈ spans.zip outcome.2 → ∃ n : Nat,
    ((leavesFrom i o ts)[n]?).map PlacedToken.span = some span ∧
      ((leavesFrom i o' new)[n]?).map PlacedToken.span = some place
  found : ∀ span ∈ spans, span.start < cursor ∨ ∃ place, (span, some place) ∈ spans.zip outcome.2

/-- A span behind the cursor has no part in what is replaced. -/
theorem Replaces.skip {i cursor : Nat} {ts new : List Token} {o o' : Nat} {gap tail : List Char}
    {spans : List Span} {outcome : List Char × List (Option Span)}
    (h : Replaces i cursor ts new o o' gap tail spans outcome) {span : Span}
    (hbefore : span.start < cursor) :
    Replaces i cursor ts new o o' gap tail (span :: spans) (outcome.1, none :: outcome.2) := by
  refine ⟨h.text, congrArg (· + 1) h.length, fun s place hs => ?_, fun s hs => ?_⟩
  · exact h.moved s place (by simpa using hs)
  · obtain rfl | hs := List.mem_cons.mp hs
    · exact .inl hbefore
    · exact (h.found s hs).imp_right fun hplace => hplace.imp fun _ hplace =>
        List.mem_cons_of_mem _ hplace

section Leaf

variable {i o cursor : Nat} {pre post : List Token} {leaf : PlacedToken} {spans : List Span}
  (hleaves : leavesFrom i o (pre ++ leaf.token :: post) = leavesFrom i o pre ++ leaf :: leavesFrom
    (leaf.index + 1) leaf.full.stop post)
  (hspans : OnLeaves cursor (leavesFrom i o (pre ++ leaf.token :: post)) (leaf.span :: spans))
  (hfirst : ∀ span ∈ spans, leaf.span.start ≤ span.start) (hcursor : cursor ≤ leaf.span.start)
  (htext : leaf.text ≠ "")

include htext in
/-- The leaves behind a leaf start behind it. -/
theorem PlacedToken.start_lt_of_behind {l : PlacedToken}
    (hl : l ∈ leavesFrom (leaf.index + 1) leaf.full.stop post) :
    leaf.span.start < l.span.start := by
  have hpos := PlacedToken.textLength_pos htext
  have hleaf := leaf.span_le
  have hstart := (mem_leavesFrom hl).2.2.1
  have hspan := l.span_le
  omega

include hleaves hspans hfirst hcursor htext

/-- The leaves before the first span do not stand at the spans. -/
theorem OnLeaves.notMem_of_before {l : PlacedToken} (hl : l ∈ leavesFrom i o pre) :
    l.span ∉ leaf.span :: spans := by
  intro hmem
  have hle : leaf.span.start ≤ l.span.start := by
    obtain heq | hmem := List.mem_cons.mp hmem
    · exact Nat.le_of_eq (congrArg Span.start heq).symm
    · exact hfirst _ hmem
  have hpos := PlacedToken.textLength_pos htext
  have hleaf := leaf.span_le
  have hlength := l.span_le
  have hstop := stop_le_start hleaves l hl
  obtain hlt | ⟨l', _, hl', heq⟩ := hspans _ hmem
  · omega
  · have hpos := PlacedToken.textLength_pos hl'
    have hspan := l'.span_le
    rw [heq] at hspan
    omega

/-- The spans that follow the first one stand at it or at the leaves behind it. -/
theorem OnLeaves.eq_or_behind {span : Span} (hspan : span ∈ spans) :
    span = leaf.span ∨ ∃ l ∈ leavesFrom (leaf.index + 1) leaf.full.stop post,
      l.text ≠ "" ∧ l.span = span := by
  obtain hlt | ⟨l, hl, hne, rfl⟩ := hspans span (List.mem_cons_of_mem _ hspan)
  · have hle := hfirst span hspan
    omega
  rw [hleaves] at hl
  obtain hl | hl := List.mem_append.mp hl
  · exact absurd (List.mem_cons_of_mem _ hspan)
      (hspans.notMem_of_before hleaves hfirst hcursor htext hl)
  obtain rfl | hl := List.mem_cons.mp hl
  · exact .inl rfl
  · exact .inr ⟨l, hl, hne, rfl⟩

theorem OnLeaves.behind :
    OnLeaves leaf.span.stop (leavesFrom (leaf.index + 1) leaf.full.stop post) spans := by
  intro span hspan
  obtain rfl | hbehind := hspans.eq_or_behind hleaves hfirst hcursor htext hspan
  · have hpos := PlacedToken.textLength_pos htext
    have hleaf := leaf.span_le
    exact .inl (by omega)
  · exact .inr hbehind

/-- The leaf at the first span gets the new text, and those behind it have theirs to come. -/
theorem OnLeaves.map_respelled (name : String) :
    (leavesFrom i o (pre ++ leaf.token :: post)).map (·.respelled (leaf.span :: spans) name) =
      pre ++ { leaf.token with text := name } ::
        (leavesFrom (leaf.index + 1) leaf.full.stop post).map (·.respelled spans name) := by
  have hne (l : PlacedToken) (hl : l ∈ leavesFrom (leaf.index + 1) leaf.full.stop post) : l.span ≠
      leaf.span :=
    fun heq => absurd (PlacedToken.start_lt_of_behind htext hl) (by rw [heq]; exact Nat.lt_irrefl _)
  rw [hleaves, List.map_append, List.map_cons,
    map_respelled_of_notMem name fun _ hl => hspans.notMem_of_before hleaves hfirst hcursor htext
      hl, map_token_leavesFrom, map_respelled_cons spans name hne]
  simp [PlacedToken.respelled]

/-- The first span stands at a leaf, which gets the new text, and the spans behind it at leaves that
follow. -/
theorem Replaces.take {name : String} {written : Nat} {gap tail : List Char} {new : List Token}
    {outcome : List Char × List (Option Span)} {t : Token} (ht : t = leaf.token)
    (hindex : leaf.index = i + pre.length) (hstart : leaf.start = o + byteLength (tokensText pre))
    (hrest : Replaces (leaf.index + 1) leaf.span.stop post new leaf.full.stop
      ((Span.ofLength (written + byteLength (gap ++ tokensText pre ++ triviaText t.leading))
        (byteLength name.toList)).stop + byteLength (triviaText t.trailing))
      (triviaText t.trailing) tail spans outcome) :
    Replaces i cursor (pre ++ t :: post) (pre ++ { t with text := name } :: new) o
      (written + byteLength gap) gap tail (leaf.span :: spans)
      (gap ++ tokensText pre ++ triviaText t.leading ++ name.toList ++ outcome.1,
        some (Span.ofLength (written + byteLength (gap ++ tokensText pre ++ triviaText t.leading))
          (byteLength name.toList)) :: outcome.2) := by
  refine ⟨?_, congrArg (· + 1) hrest.length, fun span place h => ?_, fun span h => ?_⟩
  · simp [hrest.text, Token.fullText]
  · obtain h | h := List.mem_cons.mp h
    · obtain ⟨rfl, hplace⟩ := Prod.mk.inj h
      obtain rfl := Option.some.inj hplace
      refine ⟨pre.length, ?_, ?_⟩
      · rw [getElem?_leavesFrom_at, ← hstart, ht]
        rfl
      · rw [getElem?_leavesFrom_at]
        simp [PlacedToken.span, Token.leadingLength, Token.textLength, Nat.add_assoc]
    · obtain ⟨n, hn, hn'⟩ := hrest.moved span place h
      refine ⟨pre.length + 1 + n, ?_, ?_⟩
      · rw [getElem?_leavesFrom_behind, ← hindex, ← hstart, ht]
        exact hn
      · rw [getElem?_leavesFrom_behind, ← hindex, ← hn']
        congr 3
        simp [Span.ofLength, Token.fullLength, Token.fullText, Nat.add_assoc]
  · obtain rfl | h := List.mem_cons.mp h
    · exact .inr ⟨_, List.mem_cons_self⟩
    obtain rfl | ⟨l, hl, _, rfl⟩ := hspans.eq_or_behind hleaves hfirst hcursor htext h
    · exact .inr ⟨_, List.mem_cons_self⟩
    obtain hlt | ⟨place, hplace⟩ := hrest.found l.span h
    · have hstart := (mem_leavesFrom hl).2.2.1
      have hspan := l.span_le
      have hleaf := leaf.span_le
      omega
    · exact .inr ⟨place, List.mem_cons_of_mem _ hplace⟩

end Leaf

/-- Replacing spans at leaves respells the tokens there. The induction is on the spans that are
left. -/
theorem replaceSpansFrom_leaves (name : String) {i cursor o : Nat} (written : Nat) {ts : List Token}
    {gap : List Char} (tail : List Char) {spans : List Span} (hcursor : cursor + byteLength gap = o)
    (hsorted : spans.Pairwise fun a b => a.start ≤ b.start)
    (hspans : OnLeaves cursor (leavesFrom i o ts) spans) :
    Replaces i cursor ts ((leavesFrom i o ts).map (·.respelled spans name)) o
      (written + byteLength gap) gap tail spans
      (replaceSpansFrom name.toList cursor written (gap ++ tokensText ts ++ tail) spans) := by
  induction spans generalizing i cursor written o ts gap with
  | nil =>
    refine ⟨?_, rfl, fun _ _ h => absurd h List.not_mem_nil, nofun⟩
    rw [map_respelled_of_notMem name fun _ _ => List.not_mem_nil, map_token_leavesFrom]
    rfl
  | cons span spans ih =>
    obtain ⟨hfirst, hothers⟩ := List.pairwise_cons.mp hsorted
    by_cases hbefore : span.start < cursor
    · have hne : ∀ leaf ∈ leavesFrom i o ts, leaf.span ≠ span := by
        rintro leaf hleaf rfl
        have := (mem_leavesFrom hleaf).2.2.1
        have := leaf.span_le.1
        omega
      rw [replaceSpansFrom_skip _ _ _ _ hbefore, map_respelled_cons spans name hne]
      exact (ih written hcursor hothers fun s hs => hspans s (List.mem_cons_of_mem span hs)).skip
        hbefore
    · obtain ⟨leaf, hleaf, htext, rfl⟩ := (hspans _ List.mem_cons_self).resolve_left hbefore
      obtain ⟨pre, post, rfl, hindex, hstart⟩ := exists_split_of_mem hleaf
      have hleaves : leavesFrom i o (pre ++ leaf.token :: post) = leavesFrom i o pre ++
          leaf :: leavesFrom (leaf.index + 1) leaf.full.stop post := by
        rw [leavesFrom_append, leavesFrom, ← hstart, ← hindex]
        rfl
      have hahead : cursor ≤ leaf.span.start := Nat.le_of_not_lt hbefore
      have hbehind := hspans.behind hleaves hfirst hahead htext
      have hnew := hspans.map_respelled hleaves hfirst hahead htext name
      obtain ⟨t, ht⟩ : ∃ t, t = leaf.token := ⟨_, rfl⟩
      have htextOf : gap ++ tokensText (pre ++ t :: post) ++ tail =
          (gap ++ tokensText pre ++ triviaText t.leading) ++
            (t.text.toList ++ (triviaText t.trailing ++ tokensText post ++ tail)) := by
        simp [Token.fullText]
      obtain ⟨hspanStart, hspanStop, _⟩ := leaf.span_le
      have hgap : byteLength (gap ++ tokensText pre ++ triviaText t.leading) =
          leaf.span.start - cursor := by
        have : leaf.span.start = leaf.start + byteLength (triviaText t.leading) := by rw [ht]; rfl
        simp only [byteLength_append]
        omega
      have htrailing : leaf.span.stop + byteLength (triviaText t.trailing) = leaf.full.stop := by
        simp [ht, PlacedToken.span, PlacedToken.full, Span.ofLength, Token.fullLength,
          Token.fullText, Token.leadingLength, Token.textLength]
        omega
      have hrest := ih (Span.ofLength
        (written + byteLength (gap ++ tokensText pre ++ triviaText t.leading))
        (byteLength name.toList)).stop htrailing hothers hbehind
      rw [← ht, htextOf, replaceSpansFrom_take leaf.span name.toList written _ spans (by omega)
        (by rw [ht]; exact hspanStop)]
      rw [ht, hnew, ← ht]
      dsimp only
      exact hrest.take hleaves hspans hfirst hahead htext ht hindex hstart

end AutoProperty
