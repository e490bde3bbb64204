import AutoProperty.Proofs.Syntax.Layouts
import AutoProperty.Proofs.Syntax.ParsedTrees

/-! # Tokens at offsets

Each offset in a text lies in one token of its tree, trivia included. Missing tokens take no
room and end where a neighbour ends, but no token ends before the one in front of it. So the
tokens that end at an offset or before it come first, and a search that halves what is left
finds the same token as one that goes through all of them.
-/

namespace AutoProperty

/-! ## Searching by halves -/

/-- The number of entries for which `before` holds, if these come first among those below `high`
and are at least `low`. What is left is halved until nothing is. -/
def partitionPoint (before : Nat → Bool) (low high : Nat) : Nat :=
  if low < high then
    let middle := low + (high - low) / 2
    if before middle then
      partitionPoint before (middle + 1) high
    else
      partitionPoint before low middle
  else
    low
termination_by high - low

/-- The binary search finds the point up to which the test holds. -/
theorem partitionPoint_eq {before : Nat → Bool} {low high point : Nat} (hlow : low ≤ point)
    (hhigh : point ≤ high) (hbefore : ∀ i < point, before i = true)
    (hbehind : ∀ i, point ≤ i → i < high → before i = false) :
    partitionPoint before low high = point := by
  fun_induction partitionPoint before low high with
  | case1 low high hlt middle hmiddle ih =>
    have hpoint : middle < point := by
      refine Nat.lt_of_not_le fun hle => ?_
      have hfalse := hbehind middle hle (by omega)
      exact Bool.false_ne_true (hfalse.symm.trans hmiddle)
    exact ih hpoint hhigh hbehind
  | case2 low high hlt middle hmiddle ih =>
    have hpoint : point ≤ middle := Nat.le_of_not_lt fun hlt => hmiddle (hbefore middle hlt)
    exact ih hlow hpoint fun i hi hlt => hbehind i hi (by omega)
  | case3 low high hge => omega

/-! ## Tokens side by side -/

/-- Spans side by side leave no offset out. -/
theorem Tiles.exists_contains {start stop offset : Nat} {spans : List Span}
    (h : Tiles start stop spans) (hstart : start ≤ offset) (hstop : offset < stop) :
    ∃ s ∈ spans, s.contains offset := by
  induction spans generalizing start with
  | nil =>
    have hend : start = stop := h
    omega
  | cons s rest ih =>
    obtain ⟨rfl, _, hrest⟩ := h
    by_cases hoffset : offset < s.stop
    · exact ⟨s, List.mem_cons_self, by simp [Span.contains, hstart, hoffset]⟩
    · obtain ⟨s', hs', hcontains⟩ := ih hrest (by omega)
      exact ⟨s', List.mem_cons_of_mem _ hs', hcontains⟩

/-- Spans that lie side by side stay between the ends of the row. -/
theorem Tiles.bounds {start stop : Nat} {spans : List Span} (h : Tiles start stop spans) :
    start ≤ stop ∧ ∀ s ∈ spans, start ≤ s.start ∧ s.stop ≤ stop := by
  induction spans generalizing start with
  | nil => exact ⟨Nat.le_of_eq h, nofun⟩
  | cons s rest ih =>
    obtain ⟨rfl, hs, hrest⟩ := h
    obtain ⟨hle, hall⟩ := ih hrest
    refine ⟨Nat.le_trans hs hle, List.forall_mem_cons.mpr ⟨⟨Nat.le_refl _, hle⟩, fun s' hs' => ?_⟩⟩
    exact ⟨Nat.le_trans hs (hall s' hs').1, (hall s' hs').2⟩

theorem Span.contains_iff {s : Span} {offset : Nat} :
    s.contains offset = true ↔ s.start ≤ offset ∧ offset < s.stop := by
  simp [contains]

namespace Tree

variable {t : Tree} {f g : TokenFocus} {offset : Nat}

/-- A token ends where the next one begins. -/
theorem pairwise_tokens (t : Tree) :
    t.tokens.Pairwise fun f g => f.leaf.full.stop ≤ g.leaf.full.start := by
  have hleaves := pairwise_leavesFrom 0 0 t.root.tokens
  rw [← leaves_eq] at hleaves
  exact List.pairwise_map.mp hleaves

theorem start_le_stop (f : TokenFocus) : f.leaf.full.start ≤ f.leaf.full.stop :=
  Nat.le_add_right _ _

theorem stop_le_length (hf : f ∈ t.tokens) : f.leaf.full.stop ≤ byteLength t.text.toList := by
  have hstop := (mem_leavesFrom (leaf_mem hf)).2.2.2.1
  rwa [Nat.zero_add, ← String.toList_ofList (l := tokensText t.root.tokens)] at hstop

theorem exists_token_contains (h : offset < byteLength t.text.toList) :
    ∃ f ∈ t.tokens, f.leaf.full.contains offset := by
  have htiles := tiles_leavesFrom 0 0 t.root.tokens
  rw [← leaves_eq, List.map_map, Nat.zero_add,
    ← String.toList_ofList (l := tokensText t.root.tokens)] at htiles
  obtain ⟨s, hs, hcontains⟩ := htiles.exists_contains (Nat.zero_le offset) h
  obtain ⟨f, hf, rfl⟩ := List.mem_map.mp hs
  exact ⟨f, hf, hcontains⟩

/-- No offset lies in two tokens. -/
theorem eq_of_contains (hf : f ∈ t.tokens) (hg : g ∈ t.tokens) (hfo : f.leaf.full.contains offset)
    (hgo : g.leaf.full.contains offset) : f = g := by
  rw [Span.contains_iff] at hfo hgo
  obtain ⟨n, hn, rfl⟩ := List.getElem_of_mem hf
  obtain ⟨m, hm, rfl⟩ := List.getElem_of_mem hg
  have hpairs := List.pairwise_iff_getElem.mp t.pairwise_tokens
  obtain hlt | rfl | hlt := Nat.lt_trichotomy n m
  · have := hpairs n m hn hm hlt
    omega
  · rfl
  · have := hpairs m n hm hn hlt
    omega

/-- The token around an offset is the one that is found there. -/
theorem tokenAt?_of_contains (hf : f ∈ t.tokens) (h : f.leaf.full.contains offset) :
    t.tokenAt? offset = some f := by
  obtain ⟨before, after, hsplit⟩ := List.append_of_mem hf
  have hpairs := t.pairwise_tokens
  rw [hsplit] at hpairs
  rw [Span.contains_iff] at h
  have hfind : t.tokens.find? (fun g => offset < g.leaf.full.stop) = some f := by
    refine List.find?_eq_some_iff_append.mpr
      ⟨by simpa using h.2, before, after, hsplit, fun g hg => ?_⟩
    have := (List.pairwise_append.mp hpairs).2.2 g hg f List.mem_cons_self
    simp
    omega
  simp [tokenAt?, hfind]

/-- Behind the text only the last token is left. -/
theorem tokenAt?_of_length_le (h : byteLength t.text.toList ≤ offset) :
    t.tokenAt? offset = t.tokens.getLast? := by
  have hnone : t.tokens.find? (fun g => offset < g.leaf.full.stop) = none := by
    refine List.find?_eq_none.mpr fun g hg => ?_
    have := stop_le_length hg
    simp
    omega
  simp [tokenAt?, hnone]

/-! ## Halving finds the same token -/

/-- The token around an offset, looked for by halves: the first one that ends behind the offset,
or else the last one. -/
def searchToken? (t : Tree) (offset : Nat) : Option TokenFocus :=
  let endsBefore (i : Nat) : Bool := t.tokens[i]?.any (·.leaf.full.stop ≤ offset)
  t.tokens[min (partitionPoint endsBefore 0 t.tokens.length) (t.tokens.length - 1)]?

/-- The binary search finds the same token as walking along the tokens does. -/
theorem searchToken?_eq (t : Tree) (offset : Nat) : t.searchToken? offset = t.tokenAt? offset := by
  let point := t.tokens.findIdx fun g => offset < g.leaf.full.stop
  have hpairs := List.pairwise_iff_getElem.mp t.pairwise_tokens
  have hpoint : partitionPoint (fun i => t.tokens[i]?.any (·.leaf.full.stop ≤ offset)) 0
      t.tokens.length = point := by
    refine partitionPoint_eq (Nat.zero_le _) List.findIdx_le_length (fun i hi => ?_) fun i hi hlt =>
      ?_
    · have hlt : i < t.tokens.length := Nat.lt_of_lt_of_le hi List.findIdx_le_length
      have hnot := List.not_of_lt_findIdx hi
      simpa [List.getElem?_eq_getElem hlt] using hnot
    · -- The token at the point ends behind the offset, and no later one ends before it.
      have hpointlt : point < t.tokens.length := Nat.lt_of_le_of_lt hi hlt
      have hends : offset < t.tokens[point].leaf.full.stop := by
        simpa using List.findIdx_getElem (p :=
          fun g : TokenFocus => decide (offset < g.leaf.full.stop)) (w := hpointlt)
      have hle : t.tokens[point].leaf.full.stop ≤ t.tokens[i].leaf.full.stop := by
        obtain hlt' | rfl := Nat.lt_or_eq_of_le hi
        · exact Nat.le_trans (hpairs point i hpointlt hlt hlt') (start_le_stop _)
        · exact Nat.le_refl _
      simp [List.getElem?_eq_getElem hlt]
      omega
  show t.tokens[min (partitionPoint _ 0 t.tokens.length) (t.tokens.length - 1)]? = _
  rw [hpoint]
  by_cases hlt : point < t.tokens.length
  · have hfind : t.tokens.find? (fun g => offset < g.leaf.full.stop) = some t.tokens[point] :=
      List.find?_eq_getElem?_findIdx.trans (List.getElem?_eq_getElem hlt)
    rw [Nat.min_eq_left (by omega), List.getElem?_eq_getElem hlt]
    simp [tokenAt?, hfind]
  · have hend : point = t.tokens.length :=
      Nat.le_antisymm List.findIdx_le_length (Nat.le_of_not_lt hlt)
    have hnone : t.tokens.find? (fun g => offset < g.leaf.full.stop) = none :=
      List.find?_eq_getElem?_findIdx.trans (List.getElem?_eq_none (Nat.le_of_eq hend.symm))
    rw [Nat.min_eq_right (by omega), ← List.getLast?_eq_getElem?]
    simp [tokenAt?, hnone]

/-! ## Texts -/

theorem kind_final (text : String) : (scan text).final.kind = .endOfFileToken :=
  (Scanner.unmarked_final true text.toList).2.2.1

theorem text_final (text : String) : (scan text).final.text = "" :=
  (Scanner.unmarked_final true text.toList).2.2.2

theorem isMissing_final (text : String) : (scan text).final.isMissing = false := by
  simp [Token.isMissing, kind_final text]

theorem fullLength_missing (kind : Kind) : (Token.missing kind).fullLength = 0 := rfl

/-- A token that takes room is not missing. -/
theorem isMissing_eq_false_of_contains {id : TreeId} {text : String}
    (hf : f ∈ (ofText id text).tokens) (h : f.leaf.full.contains offset) :
    f.leaf.token.isMissing = false := by
  obtain ⟨kind, _, hmissing⟩ | ⟨scanned, hscanned, hkept⟩ | hfinal :=
    mem_tokens_parse (mem_leavesFrom (leaf_mem hf)).2.2.2.2
  · have hempty : f.leaf.full.stop = f.leaf.full.start + 0 := by
      rw [← fullLength_missing kind, ← hmissing]
      rfl
    rw [Span.contains_iff] at h
    omega
  · have hne := (Scanner.isScanned_of_mem_scanFrom hscanned).ne_nil
    refine Token.isMissing_eq_false (ne_of_eq_of_ne hkept.text fun hempty => hne ?_)
    rw [hempty]
    rfl
  · rw [hfinal]
    exact isMissing_final text

/-- The last token is the end of the text. It stands right below the root. -/
theorem exists_last_token (id : TreeId) (text : String) :
    ∃ before leaf, (ofText id text).tokens = before ++ [⟨leaf, [(ofText id text).top]⟩] ∧
      leaf.token = (scan text).final := by
  obtain ⟨members, hmembers⟩ : ∃ members,
    (ofText id text).root.children = members ++ [.token (scan text).final] :=
    ⟨_, rfl⟩
  rw [tokens_eq]
  show ∃ before leaf, Placed.tokenFociOf [(ofText id text).top] (ofText id text).top.children = _ ∧
    _
  rw [top_children, hmembers, Element.placeAll_append, Placed.tokenFociOf_append]
  exact ⟨_, _, rfl, rfl⟩

/-- At each offset in a text there is one token, trivia included, and from the end of the text
on it is the token for the end. It is never a missing one, and a search by halves finds the
same. -/
theorem tokenAt?_ofText (id : TreeId) (text : String) (offset : Nat) :
    let t := ofText id text
    ∃ f ∈ t.tokens, t.tokenAt? offset = some f ∧ t.searchToken? offset = some f ∧
    f.leaf.token.isMissing = false ∧
      (offset < byteLength text.toList →
        f.leaf.full.contains offset ∧ ∀ g ∈ t.tokens, g.leaf.full.contains offset → g = f) ∧
      (byteLength text.toList ≤ offset →
        f.leaf.kind = .endOfFileToken ∧ t.tokens.getLast? = some f) := by
  intro t
  have htext : t.text = text := text_parse text
  obtain hlt | hle := Nat.lt_or_ge offset (byteLength text.toList)
  · have hlength : offset < byteLength t.text.toList := by rwa [htext]
    obtain ⟨f, hf, hcontains⟩ := exists_token_contains hlength
    have hat := tokenAt?_of_contains hf hcontains
    refine ⟨f, hf, hat, (searchToken?_eq t offset).trans hat,
      isMissing_eq_false_of_contains hf hcontains,
      fun _ => ⟨hcontains, fun g hg hgo => eq_of_contains hg hf hgo hcontains⟩, fun hle => ?_⟩
    omega
  · obtain ⟨before, leaf, htokens, hfinal⟩ := exists_last_token id text
    have hlast : t.tokens.getLast? = some ⟨leaf, [t.top]⟩ := by
      rw [htokens]
      exact List.getLast?_concat
    have hlength : byteLength t.text.toList ≤ offset := by rwa [htext]
    have hat := (tokenAt?_of_length_le hlength).trans hlast
    refine ⟨_, List.mem_of_getLast? hlast, hat, (searchToken?_eq t offset).trans hat, ?_,
      fun hlt => ?_, fun _ => ⟨?_, hlast⟩⟩
    · show leaf.token.isMissing = false
      rw [hfinal, isMissing_final]
    · omega
    · show leaf.token.kind = _
      rw [hfinal, kind_final]

/-- A field without name and semicolon has two missing tokens where its closing brace begins,
and the brace is found there. -/
theorem tokenAt?_ofText_use :
    let t := ofText ⟨7⟩ "class C { int }"
    t.tokens.countP (fun f => f.leaf.token.isMissing && f.leaf.full.start == 14) = 2 ∧
      14 < byteLength "class C { int }".toList ∧
      ∃ f, t.tokenAt? 14 = some f ∧ f.leaf.kind = .closeBraceToken ∧
      f.leaf.token.isMissing = false ∧
        f.leaf.full.contains 14 = true := by
  intro t
  have hlt : 14 < byteLength "class C { int }".toList := by decide +kernel
  obtain ⟨f, _, hat, _, hpresent, hinside, _⟩ := tokenAt?_ofText ⟨7⟩ "class C { int }" 14
  have hkind : (t.tokenAt? 14).map (·.leaf.kind) = some .closeBraceToken := by decide +kernel
  rw [hat] at hkind
  exact ⟨by decide +kernel, hlt, f, hat, Option.some.inj hkind, hpresent, (hinside hlt).1⟩

end Tree

end AutoProperty
