import Mathlib.Data.List.TakeWhile
import AutoProperty.Proofs.Symbol.Bound
import AutoProperty.Proofs.Syntax.ParsedTrees

/-! # What written types are called

The type that a written name means goes by what follows the last point in the name, and that is
the last identifier of the written type. So where a type is bound, it has the text of the token
for its name.
-/

namespace AutoProperty

/-! ## Last parts -/

theorem simpleTypeName_append (before after : List Char) :
    simpleTypeName (before ++ '.' :: after) = simpleTypeName after := by
  have hstop : (('.' : Char) :: before.reverse).takeWhile (· != '.') = [] := rfl
  rw [simpleTypeName, simpleTypeName, List.reverse_append, List.reverse_cons, List.append_assoc,
    List.singleton_append, List.takeWhile_append, hstop, List.append_nil]
  split
  next hall => rw [(List.takeWhile_prefix _).eq_of_length hall]
  next => rfl

/-- A name without points is a simple name. -/
theorem simpleTypeName_of_notMem {name : String} (h : '.' ∉ name.toList) :
    simpleTypeName name.toList = name := by
  have hall : name.toList.reverse.takeWhile (· != '.') = name.toList.reverse := by
    rw [List.takeWhile_eq_self_iff]
    intro c hc
    rw [bne_iff_ne]
    rintro rfl
    exact h (List.mem_reverse.mp hc)
  rw [simpleTypeName, hall, List.reverse_reverse, String.ofList_toList]

/-- What a key ends in has the last part of the key. -/
theorem Key.EndsIn.simpleTypeName_eq {key : Key} {name : String} (h : key.EndsIn name) :
    simpleTypeName key.path.toList = simpleTypeName name.toList := by
  obtain h | ⟨before, h⟩ := h
  · rw [h]
  · rw [h, String.toList_append, String.toList_append, show ".".toList = ['.'] from rfl,
      List.append_assoc]
    exact simpleTypeName_append before.toList name.toList

theorem IsWord.simpleTypeName_eq {name : String} (h : IsWord name.toList) :
    simpleTypeName name.toList = name :=
  simpleTypeName_of_notMem (h.notMem rfl)

/-- A written type without the question marks at its end. -/
def unmarked (text : String) : List Char :=
  (text.toList.reverse.dropWhile (· == '?')).reverse

/-- Only a question mark at the end is taken off a type's name. -/
theorem unmarked_eq {text : String} (h : ∀ c ∈ text.toList.getLast?, c ≠ '?') :
    unmarked text = text.toList := by
  rw [unmarked]
  cases hreverse : text.toList.reverse with
  | nil => rw [List.reverse_eq_nil_iff.mp hreverse]; rfl
  | cons c cs =>
    have hlast : c ∈ text.toList.getLast? := by
      rw [← List.head?_reverse, hreverse]
      rfl
    rw [List.dropWhile_cons_of_neg (by simpa using h c hlast), ← hreverse, List.reverse_reverse]

/-- A word has no question marks at its end. -/
theorem IsWord.unmarked_eq {name : String} (h : IsWord name.toList) :
    unmarked name = name.toList := by
  refine AutoProperty.unmarked_eq fun c hc => ?_
  rintro rfl
  exact h.notMem rfl (List.mem_of_getLast? hc)

/-- The text of a name ends in its last identifier, and only a point can be in front of that. -/
theorem PlacedNode.exists_lastPart {tree : Tree} {above : List PlacedNode} {n : PlacedNode}
    (hwords : tree.HasWords) (h : Placed.Sited tree above [n.placed]) (hname : n.kind.isName) :
    ∃ (before : List Char) (last : PlacedToken), n.compactText.toList = before ++ last.text.toList ∧
      (before = [] ∨ ∃ front, before = front ++ ['.']) ∧
      (last.text ≠ "" → IsWord last.text.toList ∧ n.lastIdentifier? = some last) := by
  obtain ⟨info, children⟩ := n
  have hlast {before : List PlacedToken} {a : PlacedToken}
      (htokens : Placed.tokensOf children = before ++ [a])
      (hkind : a.kind = .identifierToken) (htext : a.text ≠ "") :
      PlacedNode.lastIdentifier? ⟨info, children⟩ = some a := by
    have hkeeps : [a].filter (fun t => t.kind == .identifierToken && !t.text.isEmpty) = [a] :=
      List.filter_cons_of_pos (by simp [hkind, htext])
    rw [lastIdentifier?, identifiers, tokens, htokens, List.filter_append, hkeeps]
    exact List.getLast?_concat
  cases hkind : info.kind <;> simp only [kind, hkind, Kind.isName, Bool.false_eq_true] at hname
  case identifierName =>
    obtain ⟨a, rfl, ha⟩ := h.exists_name hkind
    refine ⟨[], a, ?_, .inl rfl, fun htext => ⟨?_, hlast (List.nil_append _).symm ha htext⟩⟩
    · simp [compactText, tokens, Placed.tokensOf, Placed.tokens]
    · exact hwords.word _ h.children.tokenFocus_mem ha htext
  case qualifiedName =>
    have hfit := h.fit
    rw [hkind] at hfit
    obtain ⟨q, _, hfit⟩ := hfit
    obtain ⟨qualifier, _, rfl, _, hfit⟩ := exists_of_map_kind hfit
    obtain ⟨p, _, rfl, hp, hfit⟩ := exists_of_map_kind hfit
    obtain ⟨r, _, rfl, hr, hnil⟩ := exists_of_map_kind hfit
    obtain rfl := List.map_eq_nil_iff.mp hnil
    obtain ⟨dot, rfl⟩ := h.children.tail.head.exists_token (by rw [hp]; rfl)
    obtain ⟨⟨nameInfo, nameChildren⟩, rfl⟩ :=
      h.children.tail.tail.head.exists_node (by rw [hr]; rfl)
    obtain ⟨a, rfl, ha⟩ := h.children.tail.tail.head.exists_name hr
    have hdot : dot.text = "." := hwords.point _ h.children.tail.head.tokenFocus_mem hp
    refine ⟨(String.join (qualifier.tokens.map (·.text))).toList ++ ['.'], a, ?_, .inr ⟨_, rfl⟩,
      fun htext => ⟨?_, ?_⟩⟩
    · simp [compactText, tokens, Placed.tokensOf, Placed.tokens, PlacedNode.placed, hdot]
    · exact hwords.word _ h.children.tail.tail.head.children.tokenFocus_mem ha htext
    · refine hlast (?_ : _ = (qualifier.tokens ++ [dot]) ++ [a]) ha htext
      simp [Placed.tokensOf, Placed.tokens, PlacedNode.placed]

/-! ## Names in a table -/

namespace SymbolTable

variable {documents : List (DocumentId × Tree)} {t : SymbolTable} {id : SymbolId}
  {data : SymbolData}

section Words

variable (hwords : ∀ d ∈ documents, d.2.HasWords)
include hwords

theorem Sound.isWord_name (h : Sound documents t) (hdata : t.data? id = some data)
    (hkind : ¬data.kind.isSingle) : IsWord data.name.toList := by
  obtain ⟨_, _, htext, tree, htree, f, hf, hidentifier, heq, _⟩ :=
    (h.titled id data hdata hkind).written
  rw [← heq] at htext ⊢
  exact (hwords _ htree).word f hf hidentifier htext

/-- The name of a namespace or a type is the last part of its key. -/
theorem Sound.name_eq (h : Sound documents t) (hdata : t.data? id = some data)
    (hkind : ¬data.kind.isSingle) : data.name = simpleTypeName data.key.path.toList := by
  rw [(h.titled id data hdata hkind).ends.simpleTypeName_eq,
    (h.isWord_name hwords hdata hkind).simpleTypeName_eq]

/-- All declarations of a namespace or a type write its name. -/
theorem Sound.writes (h : Sound documents t) (hdata : t.data? id = some data)
    (hkind : ¬data.kind.isSingle) {d : Declaration} (hd : d ∈ data.declarations) :
    d.Writes documents data.name := by
  obtain ⟨text, hends, hwrites⟩ := (h.titled id data hdata hkind).declarations d hd
  have hword : IsWord text.toList := by
    obtain ⟨htext, tree, htree, f, hf, hidentifier, rfl, _⟩ := hwrites
    exact (hwords _ htree).word f hf hidentifier htext
  rwa [h.name_eq hwords hdata hkind, hends.simpleTypeName_eq, hword.simpleTypeName_eq]

/-- A written type means a type that goes by its last part. -/
theorem Sound.name_of_resolveType? (h : Sound documents t) {text : String} {from? : Option SymbolId}
    (hresolve : t.resolveType? text from? = some id) :
    ∃ data, t.data? id = some data ∧ data.kind = .namedType ∧
      data.name = simpleTypeName (unmarked text) := by
  have hfound {key : Key} (hkind : key.kind = .namedType)
      (hends : key.EndsIn (String.ofList (unmarked text)))
      (hfind : t.find? key = some id) : ∃ data, t.data? id = some data ∧ data.kind = .namedType ∧
        data.name = simpleTypeName (unmarked text) := by
    obtain ⟨data, hdata, rfl⟩ := find?_some hfind
    have hkind' : data.kind = .namedType := (h.kinds id data hdata).symm.trans hkind
    refine ⟨data, hdata, hkind', ?_⟩
    rw [h.name_eq hwords hdata (fun h => h.2 hkind'), hends.simpleTypeName_eq, String.toList_ofList]
  rw [resolveType?] at hresolve
  dsimp only at hresolve
  split at hresolve
  next => cases hresolve
  next =>
    simp only [Option.orElse_eq_orElse, Option.orElse_eq_or, Option.or_eq_some_iff] at hresolve
    obtain hwithin | ⟨_, hglobal | ⟨_, hnamed⟩⟩ := hresolve
    · obtain ⟨scope, _, hfind⟩ := List.exists_of_findSome?_eq_some hwithin
      exact hfound (t.kind_childKey ..) (t.endsIn_childKey ..) hfind
    · exact hfound rfl (.inl rfl) hglobal
    · split at hnamed
      next heq =>
        cases hnamed
        exact mem_typesNamed.mp (heq ▸ List.mem_singleton_self id)
      next => cases hnamed

/-- Where the name in a written type means a type, that is one with the text of the token. -/
theorem Sound.name_of_written (h : Sound documents t) {tree : Tree} (htree : tree.HasWords)
    {above : List PlacedNode} {n : PlacedNode} (hsited : Placed.Sited tree above [n.placed])
    (hname : n.kind.isName) {token : PlacedToken} (htoken : n.lastIdentifier? = some token)
    {from? : Option SymbolId} (hresolve : t.resolveType? n.compactText from? = some id) :
    ∃ data, t.data? id = some data ∧ data.name = token.text := by
  obtain ⟨data, hdata, hkind, heq⟩ := h.name_of_resolveType? hwords hresolve
  obtain ⟨before, last, htext, hbefore, hlast⟩ := PlacedNode.exists_lastPart htree hsited hname
  refine ⟨data, hdata, ?_⟩
  have hword := h.isWord_name hwords hdata (fun h => h.2 hkind)
  by_cases hmissing : last.text = ""
  · -- Nothing goes by a name that ends in a point.
    refine absurd ?_ hword.ne_empty
    rw [hmissing, String.toList_empty, List.append_nil] at htext
    have hunmarked : unmarked n.compactText = before := by
      rw [unmarked_eq, htext]
      rw [htext]
      obtain rfl | ⟨front, rfl⟩ := hbefore
      · nofun
      · simp
    rw [heq, hunmarked]
    obtain rfl | ⟨front, rfl⟩ := hbefore
    · rfl
    · exact simpleTypeName_append front []
  · obtain ⟨hword, hlast⟩ := hlast hmissing
    obtain rfl : last = token := Option.some.inj (hlast.symm.trans htoken)
    have hunmarked : unmarked n.compactText = before ++ last.text.toList := by
      rw [unmarked_eq, htext]
      rw [htext]
      intro c hc
      rw [List.getLast?_append_of_ne_nil _ (by simpa using hmissing)] at hc
      rintro rfl
      exact hword.notMem rfl (List.mem_of_getLast? hc)
    rw [heq, hunmarked]
    obtain rfl | ⟨front, rfl⟩ := hbefore
    · exact hword.simpleTypeName_eq
    · rw [List.append_assoc, List.singleton_append, simpleTypeName_append, hword.simpleTypeName_eq]

end Words

end SymbolTable

end AutoProperty
