import AutoProperty.Proofs.Syntax.Foci
import AutoProperty.Symbol.Bind

/-! # What binding records

Binding a part of a tree records names and declares locals at the tokens of that part only, and
only at tokens that are present. So what was recorded for other tokens stays, and parts that lie
side by side do not get into each other's way.
-/

namespace AutoProperty

/-- From the first table to the second, names were only recorded at tokens of the document that
are among `names`. -/
def SymbolTable.Records (document : DocumentId) (names : PlacedToken → Prop) (t u : SymbolTable) :
    Prop :=
  ∃ new, u.bindings = new ++ t.bindings ∧
    ∀ e ∈ new, ∃ leaf, names leaf ∧ leaf.text ≠ "" ∧ e.1 = ⟨document, leaf.index⟩

/-- From the first table to the second, only locals were added, with declarations at tokens of
the document that are among `names`. -/
def SymbolTable.Appends (document : DocumentId) (names : PlacedToken → Prop) (t u : SymbolTable) :
    Prop :=
  ∃ new, u.symbols = t.symbols ++ new ∧ ∀ data ∈ new, data.kind = .localVariable ∧
    ∀ d ∈ data.declarations, d.place.document = document ∧ ∃ leaf, names leaf ∧ leaf.text ≠ "" ∧
    leaf.span = d.nameSpan

/-- All tokens of the elements are among `names`. -/
def Within (names : PlacedToken → Prop) (ps : List Placed) : Prop :=
  ∀ t ∈ Placed.tokensOf ps, names t

/-- The tokens with numbers from `first` on and below `limit`. -/
def Between (first limit : Nat) (t : PlacedToken) : Prop :=
  first ≤ t.index ∧ t.index < limit

namespace SymbolTable

variable {document : DocumentId} {names : PlacedToken → Prop} {t u v : SymbolTable}

theorem Records.of_eq (h : u.bindings = t.bindings) : Records document names t u :=
  ⟨[], h, nofun⟩

theorem Records.refl (t : SymbolTable) : Records document names t t :=
  of_eq rfl

theorem Records.trans (h : Records document names t u) (h' : Records document names u v) :
    Records document names t v := by
  obtain ⟨new, heq, hnew⟩ := h
  obtain ⟨new', heq', hnew'⟩ := h'
  refine ⟨new' ++ new, by rw [heq', heq, List.append_assoc], fun e he => ?_⟩
  obtain he | he := List.mem_append.mp he
  · exact hnew' e he
  · exact hnew e he

theorem Records.imp {names' : PlacedToken → Prop} (h : Records document names t u)
    (hnames : ∀ leaf, names leaf → names' leaf) : Records document names' t u := by
  obtain ⟨new, heq, hnew⟩ := h
  refine ⟨new, heq, fun e he => ?_⟩
  obtain ⟨leaf, hleaf, hrest⟩ := hnew e he
  exact ⟨leaf, hnames leaf hleaf, hrest⟩

theorem Appends.of_eq (h : u.symbols = t.symbols) : Appends document names t u :=
  ⟨[], by rw [h, List.append_nil], nofun⟩

theorem Appends.symbols_initial (h : Appends document names t u) : t.symbols <+: u.symbols := by
  obtain ⟨new, heq, _⟩ := h
  rw [heq]
  exact List.prefix_append _ _

theorem Appends.trans (h : Appends document names t u) (h' : Appends document names u v) :
    Appends document names t v := by
  obtain ⟨new, heq, hnew⟩ := h
  obtain ⟨new', heq', hnew'⟩ := h'
  refine ⟨new ++ new', by rw [heq', heq, List.append_assoc], fun data hdata => ?_⟩
  obtain hdata | hdata := List.mem_append.mp hdata
  · exact hnew data hdata
  · exact hnew' data hdata

/-- Recording leaves names apart from those that were recorded. -/
theorem Records.bound_eq (h : t.Records document names u) {index : Nat}
    (hother : ∀ leaf, names leaf → leaf.index ≠ index) :
    u.bound ⟨document, index⟩ = t.bound ⟨document, index⟩ := by
  rcases h with ⟨new, heq, hnew⟩
  have hnone : new.lookup ⟨document, index⟩ = none := by
    refine List.lookup_eq_none_iff.mpr fun e he => ?_
    rcases hnew e he with ⟨leaf, hleaf, _, hplace⟩
    rw [hplace, bne_iff_ne]
    intro hsame
    exact hother leaf hleaf (Place.mk.inj hsame).2.symm
  rw [bound, bound, heq, List.lookup_append, hnone, Option.none_or]

end SymbolTable

namespace Placed

theorem tokens_subset {p : Placed} {ps : List Placed} (h : p ∈ ps) : p.tokens ⊆ tokensOf ps := by
  obtain ⟨before, after, rfl⟩ := List.append_of_mem h
  rw [tokensOf_append]
  exact fun t ht => List.mem_append_right _ (List.mem_append_left _ ht)

theorem tokensOf_tail_subset (ps : List Placed) : tokensOf ps.tail ⊆ tokensOf ps := by
  cases ps with
  | nil => exact fun _ h => h
  | cons => exact fun _ h => List.mem_append_right _ h

end Placed

namespace PlacedNode

variable {n child : PlacedNode} {leaf : PlacedToken}

theorem childTokens_subset : n.childTokens ⊆ n.tokens := fun _ h =>
  Placed.tokens_subset (mem_childTokens.mp h) List.mem_cons_self

theorem childNode_tokens_subset (h : child ∈ n.childNodes) : child.tokens ⊆ n.tokens := fun _ ht =>
  Placed.tokens_subset (mem_childNodes.mp h) ht

theorem name?_mem (h : n.name? = some leaf) : leaf ∈ n.childTokens ∧ leaf.kind = .identifierToken ∧
    leaf.text ≠ "" := by
  obtain ⟨hfound, htext⟩ := Option.filter_eq_some_iff.mp h
  refine ⟨List.mem_of_find?_eq_some hfound, by simpa using List.find?_some hfound, ?_⟩
  simpa [String.isEmpty_iff] using htext

theorem lastIdentifier?_mem (h : n.lastIdentifier? = some leaf) : leaf ∈ n.tokens ∧
    leaf.kind = .identifierToken ∧ leaf.text ≠ "" := by
  obtain ⟨hmem, hidentifier⟩ := List.mem_filter.mp (List.mem_of_getLast? h)
  simp only [Bool.and_eq_true, beq_iff_eq, Bool.not_eq_true', String.isEmpty_eq_false_iff]
    at hidentifier
  exact ⟨hmem, hidentifier.1, hidentifier.2⟩

end PlacedNode

/-- The name of a node stands among the tokens of the tree. -/
theorem Tree.nameFocus_mem {t : Tree} {f : Focus} (hf : f ∈ t.nodes) {a : PlacedToken}
    (ha : f.node.name? = some a) : ⟨a, f.node :: f.above⟩ ∈ t.tokens := by
  rw [tokens_eq]
  rw [nodes_eq] at hf
  exact Placed.tokenFoci_of_mem_foci _ hf (PlacedNode.tokenFocus_mem (PlacedNode.name?_mem ha).1)

namespace Within

theorem weaken {first limit first' limit' : Nat} {ps : List Placed}
    (h : Within (Between first limit) ps) (hfirst : first' ≤ first) (hlimit : limit ≤ limit') :
    Within (Between first' limit') ps :=
  fun t ht =>
  ⟨Nat.le_trans hfirst (h t ht).1, Nat.lt_of_lt_of_le (h t ht).2 hlimit⟩

variable {names : PlacedToken → Prop} {p : Placed} {ps : List Placed} {info : NodeInfo}

theorem head (h : Within names (p :: ps)) : Within names [p] := fun t ht =>
  h t (List.mem_append_left _ (by simpa [Placed.tokensOf] using ht))

theorem tail (h : Within names (p :: ps)) : Within names ps := fun t ht =>
  h t (List.mem_append_right _ ht)

theorem children (h : Within names [.node info ps]) : Within names ps := fun t ht =>
  h t (by simpa [Placed.tokensOf, Placed.tokens] using ht)

theorem node {n : PlacedNode} (h : Within names n.children) : Within names [n.placed] :=
  fun t ht => h t (by simpa [Placed.tokensOf, Placed.tokens, PlacedNode.placed] using ht)

end Within

namespace Binding

/-- The binding records names only at tokens of the document that are among `names`, and loses
no symbol. -/
def Records (document : DocumentId) (names : PlacedToken → Prop) (b : Binding) : Prop :=
  ∀ s : BodyState, s.table.Records document names (b s).2.table ∧
    s.table.symbols <+: (b s).2.table.symbols

/-- The binding records names and declares locals only at tokens of the document that are among
`names`. -/
def StaysWithin (document : DocumentId) (names : PlacedToken → Prop) (b : Binding) : Prop :=
  ∀ s : BodyState, s.table.Records document names (b s).2.table ∧
    s.table.Appends document names (b s).2.table

variable {ctx : BodyContext} {document : DocumentId} {names : PlacedToken → Prop}

namespace Records

theorem seq {b c : Binding} (hb : Records document names b) (hc : Records document names c) :
    Records document names (b >>= fun _ => c) :=
  fun s => ⟨(hb s).1.trans (hc (b s).2).1, (hb s).2.trans (hc (b s).2).2⟩

theorem get {k : BodyState → Binding} (h : ∀ s, Records document names (k s)) :
    Records document names (get >>= k) :=
  fun s => h s s

theorem forM {α : Type} {b : α → Binding} {xs : List α}
    (h : ∀ x ∈ xs, Records document names (b x)) : Records document names (xs.forM b) := by
  induction xs with
  | nil => exact fun _ => ⟨.refl _, List.prefix_rfl⟩
  | cons x xs ih =>
    exact (h x List.mem_cons_self).seq (ih fun y hy => h y (List.mem_cons_of_mem x hy))

end Records

theorem records_declareLocal (type : LocalType) (n : PlacedNode) :
    Records document names (declareLocal ctx type n) := by
  rw [declareLocal]
  split
  next => exact fun _ => ⟨.refl _, List.prefix_rfl⟩
  next => exact fun _ => ⟨.of_eq rfl, List.prefix_append _ _⟩

namespace StaysWithin

theorem records {b : Binding} (h : StaysWithin document names b) : Records document names b :=
  fun s => ⟨(h s).1, (h s).2.symbols_initial⟩

theorem nothing : StaysWithin document names (pure ()) :=
  fun _ => ⟨.refl _, .of_eq rfl⟩

theorem modify {f : BodyState → BodyState} (h : ∀ s, (f s).table = s.table) :
    StaysWithin document names (modify f) :=
  fun s =>
    ⟨.of_eq (congrArg SymbolTable.bindings (h s)), .of_eq (congrArg SymbolTable.symbols (h s))⟩

theorem seq {b c : Binding} (hb : StaysWithin document names b)
    (hc : StaysWithin document names c) : StaysWithin document names (b >>= fun _ => c) :=
  fun s => ⟨(hb s).1.trans (hc (b s).2).1, (hb s).2.trans (hc (b s).2).2⟩

theorem get {k : BodyState → Binding} (h : ∀ s, StaysWithin document names (k s)) :
    StaysWithin document names (get >>= k) :=
  fun s => h s s

theorem forM {α : Type} {b : α → Binding} {xs : List α}
    (h : ∀ x ∈ xs, StaysWithin document names (b x)) : StaysWithin document names (xs.forM b) := by
  induction xs with
  | nil => exact nothing
  | cons x xs ih =>
    exact (h x List.mem_cons_self).seq (ih fun y hy => h y (List.mem_cons_of_mem x hy))

theorem inFrame {b : Binding} (h : StaysWithin document names b) :
    StaysWithin document names (inFrame b) :=
  seq (modify fun _ => rfl) (seq h (modify fun _ => rfl))

/-- A name is recorded at its token, if it is present. -/
theorem record {token : PlacedToken} (candidates : List SymbolId) (h : names token)
    (htext : token.text ≠ "") : StaysWithin ctx.document names (record ctx token candidates) := by
  intro s
  have htable : (Binding.record ctx token candidates s).2.table =
      s.table.bind ⟨ctx.document, token.index⟩ candidates := rfl
  rw [SymbolTable.bind] at htable
  split at htable
  next => exact ⟨.of_eq (by rw [htable]), .of_eq (by rw [htable])⟩
  next =>
    refine ⟨⟨[_], by rw [htable]; rfl, fun e he => ⟨token, h, htext, ?_⟩⟩, .of_eq (by rw [htable])⟩
    rw [List.mem_singleton.mp he]

end StaysWithin

mutual

/-- The name in a written type is a part of it. -/
theorem namedType?_tokens (p : Placed) {n : PlacedNode} (h : namedType? p = some n) :
    n.tokens ⊆ p.tokens := by
  cases p with
  | token => cases h
  | node info children =>
    rw [namedType?] at h
    split at h
    next => exact firstNamedType?_tokens children h
    next => exact firstNamedType?_tokens children h
    next =>
      cases h
      exact fun _ ht => ht
    next =>
      cases h
      exact fun _ ht => ht
    next => cases h

/-- The first type named among elements is a part of them. -/
theorem firstNamedType?_tokens (ps : List Placed) {n : PlacedNode}
    (h : firstNamedType? ps = some n) : n.tokens ⊆ Placed.tokensOf ps := by
  cases ps with
  | nil => cases h
  | cons p ps =>
    cases p with
    | token => exact fun t ht => List.mem_append_right _ (firstNamedType?_tokens ps h ht)
    | node info children =>
      exact fun t ht => List.mem_append_left _ (namedType?_tokens (.node info children) h ht)

end

/-- A written type is bound within itself. -/
theorem staysWithin_type {n : PlacedNode} (h : Within names n.children) :
    StaysWithin ctx.document names (type ctx n) := by
  rw [type]
  split
  next => exact .nothing
  next name hname =>
    split
    next => exact .nothing
    next token htoken =>
      exact .get fun s =>
        .record _ (h token (namedType?_tokens _ hname (PlacedNode.lastIdentifier?_mem htoken).1))
          (PlacedNode.lastIdentifier?_mem htoken).2.2

theorem staysWithin_simpleName {n : PlacedNode} (h : Within names n.children)
    (arity? : Option Nat) : StaysWithin ctx.document names (simpleName ctx n arity?) := by
  rw [simpleName]
  split
  next => exact .nothing
  next token htoken =>
    obtain ⟨hmem, _, htext⟩ := PlacedNode.name?_mem htoken
    exact .get fun s => .record _ (h token (PlacedNode.childTokens_subset hmem)) htext

/-- A member name is bound at the last of the nodes. -/
theorem staysWithin_memberName {n : PlacedNode} (arity? : Option Nat)
    (h : ∀ receiver members, n.childNodes = receiver :: members →
      ∀ member ∈ members, Within names member.children) :
    StaysWithin ctx.document names (memberName ctx n arity?) := by
  rw [memberName]
  split
  next => exact .nothing
  next => exact .nothing
  next receiver members _ hchildren =>
    split
    next => exact .nothing
    next token htoken =>
      obtain ⟨member, hmember, hname⟩ := Option.bind_eq_some_iff.mp htoken
      obtain ⟨hmem, _, htext⟩ := PlacedNode.name?_mem hname
      exact .get fun s =>
        .record _ (h receiver members hchildren member (List.mem_of_getLast? hmember) token
          (PlacedNode.childTokens_subset hmem)) htext

/-- A local is declared at a token of its declarator. -/
theorem staysWithin_declareLocal {n : PlacedNode} (h : Within names n.children) (type : LocalType) :
    StaysWithin ctx.document names (declareLocal ctx type n) := by
  rw [declareLocal]
  split
  next => exact .nothing
  next name hname =>
    obtain ⟨hmem, _, htext⟩ := PlacedNode.name?_mem hname
    refine fun s =>
      ⟨.of_eq rfl, [_], rfl, List.forall_mem_singleton.mpr ⟨rfl, List.forall_mem_singleton.mpr ?_⟩⟩
    exact ⟨rfl, name, h name (PlacedNode.childTokens_subset hmem), htext, rfl⟩

mutual

/-- An element binds nothing outside of itself. -/
theorem staysWithin_element (ctx : BodyContext) (arity? : Option Nat) (p : Placed)
    (h : Within names [p]) : StaysWithin ctx.document names (element ctx arity? p) := by
  cases p with
  | token => exact .nothing
  | node info children =>
    have hchildren := h.children
    rw [element]
    dsimp only
    split
    next => exact .inFrame (staysWithin_elements ctx false children hchildren)
    next => exact staysWithin_localDeclaration ctx children hchildren
    next => exact staysWithin_simpleName hchildren arity?
    next =>
      refine .seq (staysWithin_first ctx none _ children hchildren)
        (staysWithin_memberName arity? ?_)
      intro receiver names hnodes member hmember t ht
      have hnode : member ∈ (PlacedNode.mk info children).childNodes := by
        rw [hnodes]
        exact List.mem_cons_of_mem _ hmember
      exact hchildren t (PlacedNode.childNode_tokens_subset hnode ht)
    next =>
      have harguments := staysWithin_first ctx none (· == .argumentList) children hchildren
      split
      next => exact .seq (staysWithin_first ctx _ _ children hchildren) harguments
      next => exact harguments
    next => exact staysWithin_elements ctx true children hchildren
    next => exact staysWithin_elements ctx false children hchildren

/-- Elements bind nothing outside of themselves. -/
theorem staysWithin_elements (ctx : BodyContext) (types : Bool) (ps : List Placed)
    (h : Within names ps) : StaysWithin ctx.document names (elements ctx types ps) := by
  cases ps with
  | nil => exact .nothing
  | cons p rest =>
    cases p with
    | token => exact staysWithin_elements ctx types rest h.tail
    | node info children =>
      have hrest := staysWithin_elements ctx types rest h.tail
      rw [elements]
      split
      next => exact .seq (staysWithin_type h.head.children) hrest
      next => exact .seq (staysWithin_element ctx none (.node info children) h.head) hrest

/-- The first node of a kind binds nothing outside of itself. -/
theorem staysWithin_first (ctx : BodyContext) (arity? : Option Nat) (wanted : Kind → Bool)
    (ps : List Placed) (h : Within names ps) :
    StaysWithin ctx.document names (Binding.first ctx arity? wanted ps) := by
  cases ps with
  | nil => exact .nothing
  | cons p rest =>
    cases p with
    | token => exact staysWithin_first ctx arity? wanted rest h.tail
    | node info children =>
      rw [Binding.first]
      split
      next => exact staysWithin_element ctx arity? (.node info children) h.head
      next => exact staysWithin_first ctx arity? wanted rest h.tail

/-- A declaration of locals binds nothing outside of itself. -/
theorem staysWithin_localDeclaration (ctx : BodyContext) (ps : List Placed) (h : Within names ps) :
    StaysWithin ctx.document names (localDeclaration ctx ps) := by
  cases ps with
  | nil => exact .nothing
  | cons p rest =>
    cases p with
    | token => exact staysWithin_localDeclaration ctx rest h.tail
    | node info children =>
      rw [localDeclaration]
      split
      next =>
        have hdeclarators := fun s : BodyState =>
          staysWithin_declarators ctx (localType ctx s.table ⟨info, children⟩) children
            h.head.children
        dsimp only
        split
        next written hwritten =>
          have hmem : written ∈ (PlacedNode.mk info children).childNodes :=
            List.mem_of_find?_eq_some hwritten
          refine .seq (staysWithin_type fun t ht => ?_) (.get hdeclarators)
          exact h.head.children t (PlacedNode.childNode_tokens_subset hmem ht)
        next => exact .get hdeclarators
      next => exact staysWithin_localDeclaration ctx rest h.tail

/-- Declarators bind nothing outside of themselves. -/
theorem staysWithin_declarators (ctx : BodyContext) (type : LocalType) (ps : List Placed)
    (h : Within names ps) : StaysWithin ctx.document names (declarators ctx type ps) := by
  cases ps with
  | nil => exact .nothing
  | cons p rest =>
    cases p with
    | token => exact staysWithin_declarators ctx type rest h.tail
    | node info children =>
      have hrest := staysWithin_declarators ctx type rest h.tail
      rw [declarators]
      split
      next =>
        exact .seq (staysWithin_first ctx none _ children h.head.children)
          (.seq (staysWithin_declareLocal h.head.children type) hrest)
      next => exact hrest

end

/-! ## Members -/

theorem StaysWithin.forNodes {b : PlacedNode → Binding} {n : PlacedNode}
    (hn : Within names n.children)
    (h : ∀ part, Within names part.children → StaysWithin document names (b part)) :
    StaysWithin document names (n.childNodes.forM b) :=
  .forM fun part hpart => h part fun t ht => hn t (PlacedNode.childNode_tokens_subset hpart ht)

theorem staysWithin_node {n : PlacedNode} (h : Within names n.children) :
    StaysWithin ctx.document names (Binding.node ctx n) :=
  staysWithin_element ctx none n.placed h.node

theorem within_child? {n c : PlacedNode} {kind : Kind} (h : Within names n.children)
    (hc : n.child? kind = some c) : Within names c.children := fun t ht =>
  h t (PlacedNode.childNode_tokens_subset (PlacedNode.child?_some hc).1 ht)

theorem within_type? {n c : PlacedNode} (h : Within names n.children) (hc : n.type? = some c) :
    Within names c.children := fun t ht =>
  h t (PlacedNode.childNode_tokens_subset (List.mem_of_find?_eq_some hc) ht)

/-- A field declaration binds nothing outside of itself. -/
theorem staysWithin_fields {n : PlacedNode} (h : Within names n.children) :
    StaysWithin ctx.document names (fields ctx n) := by
  refine .forNodes h fun part hpart => ?_
  split
  next => exact staysWithin_type hpart
  next =>
    split
    next value hvalue => exact staysWithin_node (within_child? hpart hvalue)
    next => exact .nothing

theorem staysWithin_parameterTypes {n : PlacedNode} (h : Within names n.children) :
    StaysWithin ctx.document names (parameterTypes ctx n) := by
  refine .forNodes h fun parameter hparameter => ?_
  split
  next written hwritten => exact staysWithin_type (within_type? hparameter hwritten)
  next => exact .nothing

theorem staysWithin_accessor {n : PlacedNode} (h : Within names n.children) :
    StaysWithin ctx.document names (accessor ctx n) := by
  refine .inFrame (.forNodes h fun part hpart => ?_)
  exact @staysWithin_node { ctx with implicitValue := _ } names part hpart

/-- A member binds nothing outside of itself. -/
theorem staysWithin_memberParts {n : PlacedNode} (h : Within names n.children) :
    StaysWithin ctx.document names (memberParts ctx n) := by
  refine .forNodes h fun part hpart => ?_
  split
  next => exact staysWithin_type hpart
  next =>
    split
    next => exact staysWithin_fields hpart
    next => exact staysWithin_parameterTypes hpart
    next => exact .forNodes hpart fun _ haccessor => staysWithin_accessor haccessor
    next => exact staysWithin_node hpart

end Binding

end AutoProperty
