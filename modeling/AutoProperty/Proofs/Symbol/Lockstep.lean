import AutoProperty.Proofs.Symbol.Bodies
import AutoProperty.Proofs.Symbol.Recording

/-! # Binding two bodies in lockstep

What has to be shown of single names, locals and frames to relate the binding of a body to the
binding of one that is alike. The traversal in between is the same for all such relations.

A relation may hold only as long as the bindings are on the way to some outcome: names once
bound stay bound, so what is true at the end was true when the name was bound.
-/

namespace AutoProperty

theorem Placed.Numbered.within {first : Nat} {ps : List Placed} (h : Placed.Numbered first ps) :
    Within (Between first (first + Placed.tokenCount ps)) ps :=
  fun _ => h.index_mem

def Paired (leaf : PlacedToken → PlacedToken → Prop) (names : PlacedToken → Prop)
    (a : PlacedToken) : Prop :=
  ∃ a', leaf a a' ∧ names a'

theorem Placed.Alikes.within {leaf : PlacedToken → PlacedToken → Prop} {node : Nat → Nat → Prop}
    {names : PlacedToken → Prop} {ps ps' : List Placed} (h : Placed.Alikes leaf node ps ps')
    (hwithin : Within names ps') : Within (Paired leaf names) ps := by
  intro a ha
  obtain ⟨a', ha', hleaf⟩ := exists_of_forall₂ h.tokensOf ha
  exact ⟨a', hleaf, hwithin a' ha'⟩

/-- Between the earlier and the later tables, names were bound only at tokens from `k` to `l`,
and at those related to them. -/
structure SymbolTable.Passes (leaf : PlacedToken → PlacedToken → Prop)
    (document document' : DocumentId) (k l : Nat) (t t' u u' : SymbolTable) : Prop where
  records : t.Records document (Paired leaf (Between k l)) u
  symbols : t.symbols <+: u.symbols
  records' : t'.Records document' (Between k l) u'
  symbols' : t'.symbols <+: u'.symbols

theorem SymbolTable.Passes.of_eq {leaf : PlacedToken → PlacedToken → Prop}
    {document document' : DocumentId} {k l : Nat} {t t' u u' : SymbolTable}
    (h : u.bindings = t.bindings) (hsymbols : t.symbols <+: u.symbols)
    (h' : u'.bindings = t'.bindings) (hsymbols' : t'.symbols <+: u'.symbols) :
    Passes leaf document document' k l t t' u u' :=
  ⟨.of_eq h, hsymbols, .of_eq h', hsymbols'⟩

abbrev BodyContext.assigning (ctx : BodyContext) (assigns : Bool) : BodyContext :=
  { ctx with implicitValue := assigns }

open SymbolTable

namespace Binding

/-- The second binding binds names only at tokens from `k` to `l`, and the first one at those
related to them. -/
def Passing (leaf : PlacedToken → PlacedToken → Prop) (ctx ctx' : BodyContext) (k l : Nat)
    (b b' : Binding) : Prop :=
  Records ctx.document (Paired leaf (Between k l)) b ∧ Records ctx'.document (Between k l) b'

theorem Passing.passes {leaf : PlacedToken → PlacedToken → Prop} {ctx ctx' : BodyContext}
    {k l : Nat} {b b' : Binding} (h : Passing leaf ctx ctx' k l b b') (s s' : BodyState) :
    Passes leaf ctx.document ctx'.document k l s.table s'.table (b s).2.table (b' s').2.table :=
  ⟨(h.1 s).1, (h.1 s).2, (h.2 s').1, (h.2 s').2⟩

/-- From related states, the bindings lead to related states, if they lead where they should. -/
def Steps (leads sim : Nat → BodyState → BodyState → Prop) (k l : Nat)
    (b b' : Binding) : Prop :=
  ∀ s s', sim k s s' → leads l (b s).2 (b' s').2 → sim l (b s).2 (b' s').2

/-- The bindings have come from related states at the declarators to the end of their values,
and declared locals only behind the names. -/
def BindsValue (sim : Nat → BodyState → BodyState → Prop) (document document' : DocumentId)
    (first : Nat) (n n' : PlacedNode) (s s' : BodyState) : Prop :=
  ∃ s₀ s₀', sim first s₀ s₀' ∧ s₀.table.Appends document (· ∈ Placed.tokensOf n.children.tail)
    s.table ∧
    s₀'.table.Appends document' (· ∈ Placed.tokensOf n'.children.tail) s'.table

theorem BindsValue.imp {sim sim' : Nat → BodyState → BodyState → Prop}
    {document document' : DocumentId} {first : Nat} {n n' : PlacedNode} {s s' : BodyState}
    (hsim : ∀ k s s', sim k s s' → sim' k s s')
    (h : BindsValue sim document document' first n n' s s') :
    BindsValue sim' document document' first n n' s s' := by
  obtain ⟨s₀, s₀', hbefore, happends⟩ := h
  exact ⟨s₀, s₀', hsim first s₀ s₀' hbefore, happends⟩

/-- What relates the binding of alike bodies. The number says that all tokens of the second body
below it have been passed. -/
structure Lockstep (leaf : PlacedToken → PlacedToken → Prop) (node : Nat → Nat → Prop) (tree : Tree)
    (ctx ctx' : BodyContext) (typed : LocalType → LocalType → Prop)
    (leads sim : Nat → BodyState → BodyState → Prop) : Prop where
  keeps : KeepsTokens leaf
  earlier {k l : Nat} {s s' u u' : BodyState} : Passes leaf ctx.document ctx'.document k l s.table
    s'.table u.table u'.table →
    k ≤ l → leads l u u' → leads k s s'
  skip {k l : Nat} {s s' : BodyState} : sim k s s' → k ≤ l → sim l s s'
  enter {k : Nat} {s s' : BodyState} : sim k s s' →
    sim k { s with scopes := [] :: s.scopes } { s' with scopes := [] :: s'.scopes }
  leave {k : Nat} {s s' : BodyState} : sim k s s' →
    sim k { s with scopes := s.scopes.tail } { s' with scopes := s'.scopes.tail }
  type {n n' : PlacedNode} {above : List PlacedNode} {first : Nat} : Placed.Sited tree above
    [n.placed] →
    n.Alike leaf node n' → Placed.Numbered first [n'.placed] → n.kind.isType →
    (∀ f ∈ n.placed.tokenFoci above, ¬f.IsRenamable) →
    Steps leads sim first (first + Placed.tokenCount [n'.placed]) (type ctx n) (type ctx' n')
  name {info info' : NodeInfo} {a a' : PlacedToken} {above : List PlacedNode}
    {arity? : Option Nat} :
    Placed.Sited tree above [.node info [.token a]] → leaf a a' →
    (TokenFocus.mk a (⟨info, [.token a]⟩ :: above)).isExpressionName →
    Steps leads sim a'.index (a'.index + 1) (simpleName ctx ⟨info, [.token a]⟩ arity?)
      (simpleName ctx' ⟨info', [.token a']⟩ arity?)
  memberName {info info' nameInfo nameInfo' : NodeInfo} {receiver receiver' : PlacedNode}
      {dot dot' a a' : PlacedToken} {above : List PlacedNode} {arity? : Option Nat} :
    Placed.Sited tree above [.node info [receiver.placed, .token dot, .node nameInfo [.token a]]] →
    receiver.Alike leaf node receiver' → leaf a a' →
    (TokenFocus.mk a (⟨nameInfo, [.token a]⟩ ::
      ⟨info, [receiver.placed, .token dot, .node nameInfo [.token a]]⟩ :: above)).isExpressionName →
    Steps leads sim a'.index (a'.index + 1)
      (memberName ctx ⟨info, [receiver.placed, .token dot, .node nameInfo [.token a]]⟩ arity?)
      (memberName ctx' ⟨info', [receiver'.placed, .token dot', .node nameInfo' [.token a']]⟩ arity?)
  localType {n n' : PlacedNode} {above : List PlacedNode} {k : Nat} {s s' : BodyState} :
    Placed.Sited tree above [n.placed] → n.Alike leaf node n' → n.kind = .variableDeclaration →
    sim k s s' →
    typed (Binding.localType ctx s.table n) (Binding.localType ctx' s'.table n')
  declareLocal {declaration statement n n' : PlacedNode} {above : List PlacedNode} {first : Nat}
      {type type' : LocalType} {s s' : BodyState} :
    Placed.Sited tree (declaration :: statement :: above) [n.placed] →
    statement.kind = .localDeclarationStatement →
    n.Alike leaf node n' → Placed.Numbered first [n'.placed] → n.kind = .variableDeclarator →
    typed type type' →
    BindsValue sim ctx.document ctx'.document first n n' s s' →
    sim (first + Placed.tokenCount [n'.placed]) s s' →
    leads (first + Placed.tokenCount [n'.placed]) (declareLocal ctx type n s).2
      (declareLocal ctx' type' n' s').2 →
    sim (first + Placed.tokenCount [n'.placed]) (declareLocal ctx type n s).2
      (declareLocal ctx' type' n' s').2

/-! ## What the parts of a body bind -/

variable {ctx ctx' : BodyContext}

theorem first_node {wanted : Kind → Bool} (arity? : Option Nat) (n : PlacedNode)
    (rest : List Placed) (h : wanted n.kind) :
    first ctx arity? wanted (n.placed :: rest) = element ctx arity? n.placed := by
  rw [PlacedNode.placed, first]
  exact if_pos h

theorem first_other {wanted : Kind → Bool} (arity? : Option Nat) (n : PlacedNode)
    (rest : List Placed) (h : ¬wanted n.kind) :
    first ctx arity? wanted (n.placed :: rest) = first ctx arity? wanted rest := by
  rw [PlacedNode.placed, first]
  exact if_neg h

/-- Most nodes bind all their children. -/
theorem element_other {info : NodeInfo} {children : List Placed} (arity? : Option Nat)
    (hblock : info.kind ≠ .block) (hlocal : info.kind ≠ .localDeclarationStatement)
    (hname : info.kind ≠ .identifierName) (haccess : info.kind ≠ .memberAccessExpression)
    (hcall : info.kind ≠ .invocationExpression) (hnew : info.kind ≠ .objectCreationExpression) :
    element ctx arity? (.node info children) = elements ctx false children := by
  rw [element]
  dsimp only
  split
  next h => exact absurd h hblock
  next h => exact absurd h hlocal
  next h => exact absurd h hname
  next h => exact absurd h haccess
  next h => exact absurd h hcall
  next h => exact absurd h hnew
  next => rfl

theorem element_block {info : NodeInfo} {children : List Placed} (arity? : Option Nat)
    (h : info.kind = .block) :
    element ctx arity? (.node info children) = inFrame (elements ctx false children) := by
  rw [element]
  dsimp only
  rw [h]

theorem element_localDeclaration {info : NodeInfo} {children : List Placed} (arity? : Option Nat)
    (h : info.kind = .localDeclarationStatement) :
    element ctx arity? (.node info children) = localDeclaration ctx children := by
  rw [element]
  dsimp only
  rw [h]

theorem element_identifierName {info : NodeInfo} {children : List Placed} (arity? : Option Nat)
    (h : info.kind = .identifierName) :
    element ctx arity? (.node info children) = simpleName ctx ⟨info, children⟩ arity? := by
  rw [element]
  dsimp only
  rw [h]

theorem element_objectCreation {info : NodeInfo} {children : List Placed} (arity? : Option Nat)
    (h : info.kind = .objectCreationExpression) :
    element ctx arity? (.node info children) = elements ctx true children := by
  rw [element]
  dsimp only
  rw [h]

/-- A member access binds the receiver, then the name. -/
theorem element_memberAccess {info : NodeInfo} {receiver : PlacedNode} {rest : List Placed}
    (arity? : Option Nat) (h : info.kind = .memberAccessExpression) :
    element ctx arity? (.node info (receiver.placed :: rest)) =
      (element ctx none receiver.placed >>= fun _ =>
        memberName ctx ⟨info, receiver.placed :: rest⟩ arity?) := by
  rw [element]
  dsimp only
  rw [h]
  show (first ctx none (fun _ => true) (receiver.placed :: rest) >>= _) = _
  rw [first_node none receiver rest rfl]

/-- A call binds what is called, then the arguments. -/
theorem element_invocation {info : NodeInfo} {called arguments : PlacedNode} (arity? : Option Nat)
    (h : info.kind = .invocationExpression) (hcalled : called.kind ≠ .argumentList)
    (harguments : arguments.kind = .argumentList) :
    element ctx arity? (.node info [called.placed, arguments.placed]) =
      (element ctx (some (arguments.childrenOf .argument).length) called.placed >>= fun _ =>
        element ctx none arguments.placed) := by
  have hchildren : (PlacedNode.mk info [called.placed, arguments.placed]).childNodes =
      [called, arguments] := rfl
  have hcount : argumentCount ⟨info, [called.placed, arguments.placed]⟩ =
      (arguments.childrenOf .argument).length := by
    rw [argumentCount, PlacedNode.child?, hchildren,
      List.find?_cons_of_neg (by simpa using hcalled),
      List.find?_cons_of_pos (by simpa using harguments)]
    rfl
  rw [element]
  dsimp only
  rw [h]
  simp only [hchildren, List.head?_cons, Option.all_some, bne_iff_ne, ne_eq, hcalled,
    not_false_eq_true, if_true, hcount]
  rw [first_node _ called _ rfl, first_other none called _ (by simpa using hcalled),
    first_node none arguments _ (by simpa using harguments)]

/-- A declaration of locals binds the type, then the declarators in turn. -/
theorem localDeclaration_eq {info writtenInfo : NodeInfo}
    {writtenChildren declarators rest : List Placed} (h : info.kind = .variableDeclaration)
    (hwritten : writtenInfo.kind.isType) :
    localDeclaration ctx (.node info (.node writtenInfo writtenChildren :: declarators) :: rest) =
      (type ctx ⟨writtenInfo, writtenChildren⟩ >>= fun _ => get >>= fun s => Binding.declarators ctx
        (localType ctx s.table ⟨info, .node writtenInfo writtenChildren :: declarators⟩)
        declarators) := by
  have htype : (PlacedNode.mk info (.node writtenInfo writtenChildren :: declarators)).type? =
      some ⟨writtenInfo, writtenChildren⟩ :=
    List.find?_cons_of_pos hwritten
  have hnot : (writtenInfo.kind == Kind.variableDeclarator) = false := by
    rw [beq_eq_false_iff_ne]
    intro heq
    simp [heq, Kind.isType] at hwritten
  rw [localDeclaration, if_pos (by simpa using h)]
  dsimp only
  rw [htype]
  simp only [Binding.declarators, hnot]
  rfl

/-! ## What single steps do -/

theorem name?_single {info : NodeInfo} {a : PlacedToken} (hkind : a.kind = .identifierToken) :
    (PlacedNode.mk info [.token a]).name? = if a.text = "" then none else some a := by
  have hfound : (PlacedNode.mk info [.token a]).identifier? = some a := by
    simp [PlacedNode.identifier?, PlacedNode.childToken?, PlacedNode.childTokens, Placed.token?,
      hkind]
  rw [PlacedNode.name?, hfound, present?]
  split
  next htext => simp [htext]
  next htext => simpa [String.isEmpty_iff] using htext

/-- A simple name is bound to what it refers to, unless it is missing. -/
theorem simpleName_run (ctx : BodyContext) {info : NodeInfo} {a : PlacedToken} (arity? : Option Nat)
    (s : BodyState) (hkind : a.kind = .identifierToken) :
    (simpleName ctx ⟨info, [.token a]⟩ arity? s).2 =
      if a.text = "" then s else
        { s with table := s.table.bind ⟨ctx.document,
          a.index⟩ (lookupSimple ctx s a.text arity?) } := by
  rw [simpleName, name?_single hkind]
  split <;> rfl

def accessed (ctx : BodyContext) (t : SymbolTable) (receiver : PlacedNode) (name : String)
    (arity? : Option Nat) : List SymbolId :=
  match t.typeOf? ctx.document ctx.type? SymbolTable.receiverDepth receiver with
  | some type => t.lookupMember type name arity?
  | none => []

/-- The name behind a point is bound to what it refers to, unless it is missing. -/
theorem memberName_run (ctx : BodyContext) {info nameInfo : NodeInfo} {receiver : PlacedNode}
    {dot a : PlacedToken} (arity? : Option Nat) (s : BodyState)
    (hkind : a.kind = .identifierToken) :
    (memberName ctx ⟨info, [receiver.placed, .token dot, .node nameInfo [.token a]]⟩ arity? s).2 =
      if a.text = "" then s else
        { s with table := s.table.bind ⟨ctx.document,
          a.index⟩ (accessed ctx s.table receiver a.text arity?) } := by
  have hnodes :
      (PlacedNode.mk info [receiver.placed, .token dot, .node nameInfo [.token a]]).childNodes =
      [receiver, ⟨nameInfo, [.token a]⟩] := rfl
  have hname : ([⟨nameInfo, [.token a]⟩] : List PlacedNode).getLast?.bind PlacedNode.name? =
      if a.text = "" then none else some a := name?_single hkind
  rw [memberName]
  simp only [hnodes, hname]
  split <;> rfl

def typeName? (n : PlacedNode) : Option (PlacedNode × PlacedToken) :=
  (namedType? n.placed).bind fun name => name.lastIdentifier?.map (name, ·)

theorem typeName?_mem {n name : PlacedNode} {token : PlacedToken}
    (h : typeName? n = some (name, token)) :
    token ∈ n.placed.tokens ∧ token.kind = .identifierToken ∧ token.text ≠ "" := by
  obtain ⟨_, hname, hlast⟩ := Option.bind_eq_some_iff.mp h
  obtain ⟨_, htoken, heq⟩ := Option.map_eq_some_iff.mp hlast
  obtain ⟨rfl, rfl⟩ := Prod.mk.inj heq
  obtain ⟨hmem, hkind, htext⟩ := PlacedNode.lastIdentifier?_mem htoken
  exact ⟨namedType?_tokens _ hname hmem, hkind, htext⟩

/-- A written type is bound at the last identifier of the name in it, or not at all. -/
theorem type_run (ctx : BodyContext) (n : PlacedNode) (s : BodyState) :
    (type ctx n s).2 = match typeName? n with
      | some (name, token) =>
        { s with
          table := s.table.bind ⟨ctx.document, token.index⟩
            (s.table.resolveType? name.compactText ctx.type?).toList }
      | none => s := by
  rw [type, typeName?]
  cases namedType? n.placed with
  | none => rfl
  | some name =>
    dsimp only [Option.bind_some]
    cases name.lastIdentifier? <;> rfl

def localData (ctx : BodyContext) (type : LocalType) (n : PlacedNode) (name : PlacedToken)
    (s : BodyState) : SymbolData :=
  { kind := .localVariable, name := name.text, container? := ctx.member? <|> ctx.type?,
    typeName? := localTypeName? ctx s.table n type, arity := 0,
    key := s.table.childKey (ctx.member? <|> ctx.type?) .localVariable
      (name.text ++ "#" ++ toString (s.locals.count name.text)),
    declarations := [SymbolTable.declaration ctx.document n name] }

/-- A local is put into the table at its declarator, if that has a name. -/
theorem declareLocal_run (ctx : BodyContext) (type : LocalType) (n : PlacedNode) (s : BodyState) :
    (declareLocal ctx type n s).2 = match n.name? with
      | some name =>
        let added := s.table.add (localData ctx type n name s)
        { table := added.2.declare ⟨ctx.document, n.index⟩ added.1
          scopes := s.scopes.insert name.text added.1
          locals := name.text :: s.locals }
      | none => s := by
  rw [declareLocal]
  cases n.name? <;> rfl

/-! ## Steps side by side -/

variable {leaf : PlacedToken → PlacedToken → Prop} {node : Nat → Nat → Prop} {tree : Tree}
  {typed : LocalType → LocalType → Prop}
  {leads sim : Nat → BodyState → BodyState → Prop} {k l m : Nat}
  {b b' c c' : Binding}

namespace Steps

variable (L : Lockstep leaf node tree ctx ctx' typed leads sim)
include L

theorem nothing (hkl : k ≤ l) : Steps leads sim k l (pure ()) (pure ()) :=
  fun _ _ hsim _ => L.skip hsim hkl

theorem seq (hb : Steps leads sim k m b b') (hc : Steps leads sim m l c c')
    (hpassing : Passing leaf ctx ctx' m l c c') (hml : m ≤ l) :
    Steps leads sim k l (b >>= fun _ => c) (b' >>= fun _ => c') :=
  fun s s' hsim hleads => hc _ _ (hb s s' hsim (L.earlier (hpassing.passes _ _) hml hleads)) hleads

theorem weaken {i j : Nat} (h : Steps leads sim k l b b') (hk : i ≤ k) (hl : l ≤ j) :
    Steps leads sim i j b b' :=
  fun s s' hsim hleads =>
    L.skip
      (h s s' (L.skip hsim hk)
        (L.earlier (.of_eq rfl List.prefix_rfl rfl List.prefix_rfl) hl hleads)) hl

theorem inFrame (h : Steps leads sim k l b b') : Steps leads sim k l (inFrame b) (inFrame b') :=
  fun s s' hsim hleads => by
    have hpasses : Passes leaf ctx.document ctx'.document l l
        (b { s with scopes := [] :: s.scopes }).2.table
        (b' { s' with scopes := [] :: s'.scopes }).2.table (Binding.inFrame b s).2.table
        (Binding.inFrame b' s').2.table :=
      .of_eq rfl List.prefix_rfl rfl List.prefix_rfl
    exact L.leave (h _ _ (L.enter hsim) (L.earlier hpasses (Nat.le_refl l) hleads))

/-- A declarator binds its value, then declares the local. -/
theorem declarator {declaration statement : PlacedNode} {above : List PlacedNode}
    {info info' : NodeInfo} {name name' : PlacedToken} {value value' : List Placed}
    {type type' : LocalType} (htyped : typed type type')
    (hstatement : statement.kind = .localDeclarationStatement)
    (h : Placed.Sited tree (declaration :: statement :: above) [.node info (.token name :: value)])
    (ha : (PlacedNode.mk info (.token name :: value)).Alike leaf node
      ⟨info', .token name' :: value'⟩)
    (hn : Placed.Numbered k [.node info' (.token name' :: value')])
    (hkind : info.kind = .variableDeclarator)
    (hvalue : Steps leads sim (k + Placed.tokenCount [.token name'])
      (k + Placed.tokenCount [.token name'] + Placed.tokenCount value')
      (first ctx none (· == .equalsValueClause) value)
      (first ctx' none (· == .equalsValueClause) value')) :
    Steps leads sim k (k + Placed.tokenCount [.node info' (.token name' :: value')])
      (first ctx none (· == .equalsValueClause) (.token name :: value) >>= fun _ => declareLocal ctx
        type ⟨info, .token name :: value⟩)
        (first ctx' none (· == .equalsValueClause) (.token name' :: value') >>= fun _ =>
          declareLocal ctx' type' ⟨info', .token name' :: value'⟩) := by
  intro s s' hsim hleads
  have hwithin := staysWithin_first ctx none (· == .equalsValueClause) value (fun _ ha => ha)
  have hwithin' := staysWithin_first ctx' none (· == .equalsValueClause) value' (fun _ ha => ha)
  have hend : k + Placed.tokenCount [.token name'] + Placed.tokenCount value' =
      k + Placed.tokenCount [.node info' (.token name' :: value')] := by
    rw [Nat.add_assoc, ← Placed.tokenCount_cons, Placed.tokenCount_node]
  rw [hend] at hvalue
  rw [Binding.first, Binding.first] at *
  have hpassing (k : Nat) : Passing leaf ctx ctx' k k
      (Binding.declareLocal ctx type ⟨info, .token name :: value⟩)
      (Binding.declareLocal ctx' type' ⟨info', .token name' :: value'⟩) :=
    ⟨records_declareLocal type _, records_declareLocal type' _⟩
  have hleads' := L.earlier ((hpassing _).passes _ _) (Nat.le_refl _) hleads
  exact L.declareLocal h hstatement ha hn hkind htyped ⟨s, s', hsim, (hwithin s).2, (hwithin' s').2⟩
    (hvalue s s' (L.skip hsim (Nat.le_add_right ..)) hleads') hleads

/-- A name is bound at its only token. -/
theorem identifierName {parent : PlacedNode} {above : List PlacedNode} {info info' : NodeInfo}
    {children children' : List Placed} (arity? : Option Nat) (hkind : info.kind = .identifierName)
    (hkind' : info'.kind = info.kind)
    (h : Placed.Sited tree (parent :: above) [.node info children])
    (hcontext : isExpressionContext parent.kind)
    (ha : Placed.Alikes leaf node children children') (hn : Placed.Numbered k children') :
    Steps leads sim k (k + Placed.tokenCount children') (element ctx arity? (.node info children))
      (element ctx' arity? (.node info' children')) := by
  rw [element_identifierName arity? hkind, element_identifierName arity? (hkind'.trans hkind)]
  obtain ⟨a, rfl, hidentifier⟩ := h.exists_name hkind
  obtain ⟨_, _, rfl, htoken, hnil⟩ := ha.exists_cons
  obtain ⟨a', rfl, hleaf⟩ := htoken.exists_token
  obtain rfl := hnil.eq_nil
  rw [Placed.tokenCount_token, ← hn.index_token]
  exact L.name h hleaf (isExpressionName_of hidentifier hkind hcontext)

/-- A member access binds names in the receiver, then the name behind the point. -/
theorem memberAccess {above : List PlacedNode} {info info' nameInfo nameInfo' : NodeInfo}
    {receiver receiver' : PlacedNode} {dot dot' a a' : PlacedToken} (arity? : Option Nat)
    (hkind : info.kind = .memberAccessExpression) (hkind' : info'.kind = info.kind)
    (h : Placed.Sited tree above
      [.node info [receiver.placed, .token dot, .node nameInfo [.token a]]])
    (hname : nameInfo.kind = .identifierName) (hidentifier : a.kind = .identifierToken)
    (hreceiver : receiver.Alike leaf node receiver') (hleaf : leaf a a')
    (hn : Placed.Numbered k [receiver'.placed, .token dot', .node nameInfo' [.token a']])
    (hsteps : Steps leads sim k (k + Placed.tokenCount [receiver'.placed])
      (element ctx none receiver.placed) (element ctx' none receiver'.placed)) :
    Steps leads sim k
      (k + Placed.tokenCount [receiver'.placed, .token dot', .node nameInfo' [.token a']])
      (element ctx arity? (.node info [receiver.placed, .token dot, .node nameInfo [.token a]]))
      (element ctx' arity?
        (.node info' [receiver'.placed, .token dot', .node nameInfo' [.token a']])) := by
  have hcontext : isExpressionContext info.kind := by rw [hkind]; rfl
  have hindex : a'.index = k + Placed.tokenCount [receiver'.placed] + 1 := by
    simpa using hn.tail.tail.head.children.index_token
  have hnameSteps := @L.memberName info info' nameInfo nameInfo' receiver receiver' dot dot' a a' _
    arity? h hreceiver hleaf (isExpressionName_of hidentifier hname hcontext)
  rw [element_memberAccess arity? hkind, element_memberAccess arity? (hkind'.trans hkind)]
  rw [Placed.tokenCount_cons, ← Nat.add_assoc]
  have hlast := hnameSteps.weaken L (i := k + Placed.tokenCount [receiver'.placed])
    (j := k + Placed.tokenCount [receiver'.placed] +
      Placed.tokenCount [.token dot', .node nameInfo' [.token a']]) (by omega) (by simp [hindex])
  refine hsteps.seq L hlast ?_ (Nat.le_add_right ..)
  -- behind the receiver, both sides bind nothing but the name
  have hnames : Placed.Alikes leaf node [.token a] [.token a'] := .cons (.token hleaf) .nil
  have hbetween : Within (Between (k + Placed.tokenCount [receiver'.placed])
      (k + Placed.tokenCount [receiver'.placed] +
        Placed.tokenCount [.token dot', .node nameInfo' [.token a']])) [.token a'] :=
    hn.tail.tail.head.children.within.weaken (by omega) (by simp [Nat.add_assoc])
  have hpaired := hnames.within hbetween
  refine ⟨(staysWithin_memberName arity? fun _ names hnodes member hmember => ?_).records,
    (staysWithin_memberName arity? fun _ names hnodes member hmember => ?_).records⟩
  · obtain rfl : names = [⟨nameInfo, [.token a]⟩] := (List.cons.inj hnodes).2.symm
    rw [List.mem_singleton.mp hmember]
    exact hpaired
  · obtain rfl : names = [⟨nameInfo', [.token a']⟩] := (List.cons.inj hnodes).2.symm
    rw [List.mem_singleton.mp hmember]
    exact hbetween

/-- A call binds names in what is called, then those in the arguments. -/
theorem invocation {info info' : NodeInfo} {called called' arguments arguments' : PlacedNode}
    (arity? : Option Nat) (hkind : info.kind = .invocationExpression)
    (hkind' : info'.kind = info.kind) (hcalled : called.kind.isExpression)
    (harguments : arguments.kind = .argumentList) (hcalledAlike : called.Alike leaf node called')
    (hargumentsAlike : arguments.Alike leaf node arguments')
    (hn : Placed.Numbered k [called'.placed, arguments'.placed])
    (hcalledSteps : Steps leads sim k (k + Placed.tokenCount [called'.placed])
      (element ctx (some (arguments.childrenOf .argument).length) called.placed)
      (element ctx' (some (arguments.childrenOf .argument).length) called'.placed))
    (hargumentsSteps : Steps leads sim (k + Placed.tokenCount [called'.placed])
      (k + Placed.tokenCount [called'.placed] + Placed.tokenCount [arguments'.placed])
      (element ctx none arguments.placed) (element ctx' none arguments'.placed)) :
    Steps leads sim k (k + Placed.tokenCount [called'.placed, arguments'.placed])
      (element ctx arity? (.node info [called.placed, arguments.placed]))
      (element ctx' arity? (.node info' [called'.placed, arguments'.placed])) := by
  have hnot : called.kind ≠ .argumentList := by
    intro heq
    rw [heq] at hcalled
    exact Bool.false_ne_true hcalled
  rw [element_invocation arity? hkind hnot harguments,
    element_invocation arity? (hkind'.trans hkind)
    (hcalledAlike.kind ▸ hnot) (hargumentsAlike.kind.trans harguments)]
  rw [← (hargumentsAlike.childrenOf .argument).length_eq, Placed.tokenCount_cons, ← Nat.add_assoc]
  refine hcalledSteps.seq L hargumentsSteps ?_ (Nat.le_add_right ..)
  have hwithin := hn.tail.head.within
  have halike : Placed.Alikes leaf node [arguments.placed] [arguments'.placed] :=
    .cons hargumentsAlike .nil
  exact ⟨(staysWithin_element ctx none arguments.placed (halike.within hwithin)).records,
    (staysWithin_element ctx' none arguments'.placed hwithin).records⟩

end Steps

/-! ## The traversal -/

variable {above : List PlacedNode} {parent : PlacedNode}

mutual

/-- Elements that are alike bind in lockstep. The cases are those of the binder. -/
theorem steps_element (L : Lockstep leaf node tree ctx ctx' typed leads sim)
    {above : List PlacedNode} {parent : PlacedNode} {k : Nat} (arity? : Option Nat) (p p' : Placed)
    (h : Placed.Sited tree (parent :: above) [p]) (ha : Placed.Alike leaf node p p')
    (hn : Placed.Numbered k [p']) (hfit : FitsBody parent.kind p.kind) :
    Steps leads sim k (k + Placed.tokenCount [p']) (element ctx arity? p)
      (element ctx' arity? p') := by
  match p with
  | .token _ =>
    obtain ⟨_, rfl, _⟩ := ha.exists_token
    exact .nothing L (Nat.le_add_right ..)
  | .node info children =>
    obtain ⟨⟨info', children'⟩, rfl, halike⟩ :=
      PlacedNode.Alike.exists_placed (n := ⟨info, children⟩) ha
    have hkind : info'.kind = info.kind := halike.kind
    have ha := halike.children
    obtain htoken | ⟨hbody, hname⟩ := hfit
    · obtain ⟨leaf, hleaf⟩ := h.exists_token htoken
      cases hleaf
    have hin := h.children
    have hfit := h.fit
    have hn := hn.children
    rw [PlacedNode.placed, Placed.tokenCount_node]
    by_cases hblock : info.kind = .block
    · rw [element_block arity? hblock, element_block arity? (hkind.trans hblock)]
      have hparts := fitsBody hfit hbody (by simp [hblock]) (by simp [hblock])
      exact .inFrame L (steps_elements L false children children' hin ha hn
        fun p hp => .inr ⟨by simp, hparts _ (List.mem_map_of_mem hp)⟩)
    by_cases hlocal : info.kind = .localDeclarationStatement
    · rw [element_localDeclaration arity? hlocal,
        element_localDeclaration arity? (hkind.trans hlocal)]
      exact steps_localDeclaration L h hlocal children' ha hn
    by_cases hidentifier : info.kind = .identifierName
    · exact .identifierName L arity? hidentifier hkind h (hname hidentifier) ha hn
    by_cases haccess : info.kind = .memberAccessExpression
    · obtain ⟨receiver, dot, nameInfo, a, hshape, hreceiver, hnameKind, hidentifierToken⟩ :=
        h.exists_memberAccess haccess
      rw [hshape] at h hin ha ⊢
      obtain ⟨receiver', dot', nameInfo', a', rfl, hreceiverAlike, hleaf⟩ :=
        PlacedNode.Alike.exists_memberAccess ha
      have hcontext : isExpressionContext info.kind := by rw [haccess]; rfl
      have hsteps := steps_element L none receiver.placed receiver'.placed hin.head hreceiverAlike
        hn.head (.expression hreceiver hcontext)
      exact .memberAccess L arity? haccess hkind h hnameKind hidentifierToken hreceiverAlike hleaf
        hn
        hsteps
    by_cases hcall : info.kind = .invocationExpression
    · obtain ⟨called, arguments, hshape, hcalled, harguments⟩ := h.exists_invocation hcall
      rw [hshape] at hin ha ⊢
      obtain ⟨called', _, rfl, hcalledAlike, hrest⟩ := PlacedNode.Alike.exists_cons ha
      obtain ⟨arguments', _, rfl, hargumentsAlike, hnil⟩ := PlacedNode.Alike.exists_cons hrest
      obtain rfl := hnil.eq_nil
      have hcontext : isExpressionContext info.kind := by rw [hcall]; rfl
      have hcalledSteps :=
        steps_element L (some (arguments.childrenOf .argument).length) called.placed
          called'.placed hin.head hcalledAlike hn.head (.expression hcalled hcontext)
      have hargumentsSteps := steps_element L none arguments.placed arguments'.placed hin.tail.head
        hargumentsAlike hn.tail.head (.argumentList harguments)
      exact .invocation L arity? hcall hkind hcalled harguments hcalledAlike hargumentsAlike hn
        hcalledSteps hargumentsSteps
    by_cases hnew : info.kind = .objectCreationExpression
    · rw [element_objectCreation arity? hnew, element_objectCreation arity? (hkind.trans hnew)]
      have hcontext : ¬isExpressionContext info.kind := by
        rw [hnew]
        exact Bool.false_ne_true
      have hparts := fitsCreation (hnew ▸ hfit)
      rw [← hnew] at hparts
      refine steps_elements L true children children' hin ha hn fun p hp => ?_
      obtain htype | ⟨htype, hpart⟩ := hparts _ (List.mem_map_of_mem hp)
      · exact .inl ⟨rfl, htype, hcontext⟩
      · exact .inr ⟨by simpa using htype, hpart⟩
    · rw [element_other arity? hblock hlocal hidentifier haccess hcall hnew,
        element_other arity? (hkind ▸ hblock) (hkind ▸ hlocal) (hkind ▸ hidentifier)
          (hkind ▸ haccess)
          (hkind ▸ hcall) (hkind ▸ hnew)]
      have hparts := fitsBody hfit hbody hnew hlocal
      exact steps_elements L false children children' hin ha hn
        fun p hp => .inr ⟨by simp, hparts _ (List.mem_map_of_mem hp)⟩
termination_by sizeOf p
decreasing_by
  all_goals simp only [*, Placed.node.sizeOf_spec, List.cons.sizeOf_spec, PlacedNode.placed]
  all_goals omega

/-- Lists of elements that are alike bind in lockstep, one element after another. -/
theorem steps_elements (L : Lockstep leaf node tree ctx ctx' typed leads sim)
    {above : List PlacedNode} {parent : PlacedNode} {k : Nat} (types : Bool) (ps ps' : List Placed)
    (h : Placed.Sited tree (parent :: above) ps) (ha : Placed.Alikes leaf node ps ps')
    (hn : Placed.Numbered k ps')
    (hfit : ∀ p ∈ ps, types ∧ p.kind.isType ∧ ¬isExpressionContext parent.kind ∨
      ¬(types ∧ p.kind.isType) ∧ FitsBody parent.kind p.kind) :
    Steps leads sim k (k + Placed.tokenCount ps') (elements ctx types ps)
      (elements ctx' types ps') := by
  match ps with
  | [] =>
    obtain rfl := ha.eq_nil
    exact .nothing L (Nat.le_refl _)
  | .token a :: rest =>
    obtain ⟨_, rest', rfl, htoken, hrest⟩ := ha.exists_cons
    obtain ⟨a', rfl, _⟩ := htoken.exists_token
    rw [elements, elements]
    have hsteps := steps_elements L types rest rest' h.tail hrest hn.tail
      (fun p hp => hfit p (List.mem_cons_of_mem _ hp))
    rw [Placed.tokenCount_cons, ← Nat.add_assoc]
    exact hsteps.weaken L (Nat.le_add_right ..) (Nat.le_refl _)
  | .node info children :: rest =>
    obtain ⟨⟨info', children'⟩, rest', rfl, halike, hrest⟩ :=
      PlacedNode.Alike.exists_cons (n := ⟨info, children⟩) ha
    have hkind : info'.kind = info.kind := halike.kind
    have hsteps := steps_elements L types rest rest' h.tail hrest hn.tail
      (fun p hp => hfit p (List.mem_cons_of_mem _ hp))
    have hpassing : Passing leaf ctx ctx' (k + Placed.tokenCount [.node info' children'])
        (k + Placed.tokenCount [.node info' children'] + Placed.tokenCount rest')
        (elements ctx types rest)
        (elements ctx' types rest') :=
      ⟨(staysWithin_elements ctx types rest (hrest.within hn.tail.within)).records,
        (staysWithin_elements ctx' types rest' hn.tail.within).records⟩
    rw [Placed.tokenCount_cons, ← Nat.add_assoc, elements, PlacedNode.placed, elements, hkind]
    obtain ⟨htypes, htype, hcontext⟩ | ⟨hnot, hfit⟩ := hfit _ List.mem_cons_self
    · have hkindType : info.kind.isType := htype
      rw [if_pos (by simp [htypes, hkindType]), if_pos (by simp [htypes, hkindType])]
      have htypeSteps :=
        L.type h.head halike hn.head htype (not_isRenamable_of_isType h.head htype hcontext)
      exact htypeSteps.seq L hsteps hpassing (Nat.le_add_right ..)
    · have hnot : ¬(types && info.kind.isType) = true := by rwa [Bool.and_eq_true]
      rw [if_neg hnot, if_neg hnot]
      have helement := steps_element L none _ _ h.head halike hn.head hfit
      exact helement.seq L hsteps hpassing (Nat.le_add_right ..)
termination_by sizeOf ps
decreasing_by
  all_goals simp only [*, Placed.node.sizeOf_spec, Placed.token.sizeOf_spec, List.cons.sizeOf_spec]
  all_goals omega

/-- Declarations of locals bind the type first, which the declarators then share. -/
theorem steps_localDeclaration (L : Lockstep leaf node tree ctx ctx' typed leads sim)
    {above : List PlacedNode} {k : Nat} {info : NodeInfo} {ps : List Placed}
    (h : Placed.Sited tree above [.node info ps]) (hkind : info.kind = .localDeclarationStatement)
    (ps' : List Placed) (ha : Placed.Alikes leaf node ps ps') (hn : Placed.Numbered k ps') :
    Steps leads sim k (k + Placed.tokenCount ps') (localDeclaration ctx ps)
      (localDeclaration ctx' ps') := by
  obtain ⟨⟨declarationInfo, children⟩, semicolon, hshape, hdeclaration⟩ :=
    h.exists_localDeclaration hkind
  have hin := h.children
  rw [hshape] at hin ha ⊢
  obtain ⟨⟨declarationInfo', children'⟩, _, rfl, hdeclarationAlike, hsemicolon⟩ :=
    PlacedNode.Alike.exists_cons ha
  obtain ⟨⟨writtenInfo, writtenChildren⟩, declarators, hchildren, hwritten, _⟩ :=
    hin.head.exists_variableDeclaration hdeclaration
  change children = _ at hchildren
  rw [hchildren] at hin hdeclarationAlike ⊢
  obtain ⟨⟨writtenInfo', writtenChildren'⟩, declarators', hdeclarators', hwrittenAlike, hrest⟩ :=
    PlacedNode.Alike.exists_cons hdeclarationAlike.children
  obtain rfl : children' = _ := hdeclarators'
  have hin' := hin.head.children
  have hn' := hn.head.children
  have hcontext : ¬isExpressionContext declarationInfo.kind := by
    rw [show declarationInfo.kind = .variableDeclaration from hdeclaration]
    exact Bool.false_ne_true
  have htype := L.type hin'.head hwrittenAlike hn'.head hwritten
    (not_isRenamable_of_isType hin'.head hwritten hcontext)
  have hdeclarators {type type' : LocalType} (htyped : typed type type') :=
    steps_declarators L htyped (show (PlacedNode.mk info _).kind = _ from hkind) declarators
      declarators' hin'.tail
      hrest hn'.tail
  let declaration : PlacedNode :=
    ⟨declarationInfo, .node writtenInfo writtenChildren :: declarators⟩
  let declaration' : PlacedNode :=
    ⟨declarationInfo', .node writtenInfo' writtenChildren' :: declarators'⟩
  have hothers : Steps leads sim (k + Placed.tokenCount [.node writtenInfo' writtenChildren'])
      (k + Placed.tokenCount [.node writtenInfo' writtenChildren'] + Placed.tokenCount declarators')
      (get >>= fun s => Binding.declarators ctx (localType ctx s.table declaration) declarators)
      (get >>= fun s => Binding.declarators ctx' (localType ctx' s.table declaration')
        declarators') := by
    intro s s' hsim hleads
    have htyped : typed (localType ctx s.table declaration)
        (localType ctx' s'.table declaration') :=
      L.localType hin.head hdeclarationAlike hdeclaration hsim
    exact hdeclarators htyped s s' hsim hleads
  have hkind' : declarationInfo'.kind = .variableDeclaration :=
    hdeclarationAlike.kind.trans hdeclaration
  have hwritten' : writtenInfo'.kind.isType := by
    rw [show writtenInfo'.kind = writtenInfo.kind from hwrittenAlike.kind]
    exact hwritten
  have hsteps := Steps.seq L htype hothers
    ⟨.get fun s =>
      (staysWithin_declarators ctx _ declarators (hrest.within hn'.tail.within)).records,
      .get fun s => (staysWithin_declarators ctx' _ declarators' hn'.tail.within).records⟩
        (Nat.le_add_right ..)
  show Steps leads sim k _
    (localDeclaration ctx (.node declarationInfo (.node writtenInfo _ :: declarators) :: _))
    (localDeclaration ctx' (.node declarationInfo' (.node writtenInfo' _ :: declarators') :: _))
  rw [localDeclaration_eq hdeclaration hwritten, localDeclaration_eq hkind' hwritten']
  refine hsteps.weaken L (Nat.le_refl k) ?_
  show _ ≤ k + Placed.tokenCount
    (.node declarationInfo' (.node writtenInfo' writtenChildren' :: declarators') :: _)
  rw [Nat.add_assoc, ← Placed.tokenCount_cons, Placed.tokenCount_cons (.node declarationInfo' _),
    Placed.tokenCount_node declarationInfo']
  exact Nat.add_le_add_left (Nat.le_add_right _ _) k
termination_by sizeOf ps
decreasing_by
  all_goals simp only [*, Placed.node.sizeOf_spec, Placed.token.sizeOf_spec, List.cons.sizeOf_spec,
    PlacedNode.placed]
  all_goals omega

/-- Declarators bind in lockstep, each of them behind its initial value. -/
theorem steps_declarators (L : Lockstep leaf node tree ctx ctx' typed leads sim)
    {above : List PlacedNode} {declaration statement : PlacedNode} {k : Nat}
    {type type' : LocalType} (htyped : typed type type')
    (hstatement : statement.kind = .localDeclarationStatement) (ps ps' : List Placed)
    (h : Placed.Sited tree (declaration :: statement :: above) ps)
    (ha : Placed.Alikes leaf node ps ps') (hn : Placed.Numbered k ps') :
    Steps leads sim k (k + Placed.tokenCount ps') (declarators ctx type ps)
      (declarators ctx' type' ps') := by
  match ps with
  | [] =>
    obtain rfl := ha.eq_nil
    exact .nothing L (Nat.le_refl _)
  | .token a :: rest =>
    obtain ⟨_, rest', rfl, htoken, hrest⟩ := ha.exists_cons
    obtain ⟨a', rfl, _⟩ := htoken.exists_token
    have hsteps := steps_declarators L htyped hstatement rest rest' h.tail hrest hn.tail
    rw [declarators, declarators, Placed.tokenCount_cons, ← Nat.add_assoc]
    exact hsteps.weaken L (Nat.le_add_right ..) (Nat.le_refl _)
  | .node info children :: rest =>
    obtain ⟨⟨info', children'⟩, rest', rfl, halike, hrest⟩ :=
      PlacedNode.Alike.exists_cons (n := ⟨info, children⟩) ha
    have hkind : info'.kind = info.kind := halike.kind
    have hsteps := steps_declarators L htyped hstatement rest rest' h.tail hrest hn.tail
    have hpassing : Passing leaf ctx ctx' (k + Placed.tokenCount [.node info' children'])
        (k + Placed.tokenCount [.node info' children'] + Placed.tokenCount rest')
        (Binding.declarators ctx type rest)
        (Binding.declarators ctx' type' rest') :=
      ⟨(staysWithin_declarators ctx type rest (hrest.within hn.tail.within)).records,
        (staysWithin_declarators ctx' type' rest' hn.tail.within).records⟩
    rw [declarators, PlacedNode.placed, declarators, hkind, Placed.tokenCount_cons, ← Nat.add_assoc]
    split
    next hdeclarator =>
      have hdeclarator : info.kind = .variableDeclarator := eq_of_beq hdeclarator
      obtain ⟨name, value, hchildren, _⟩ := h.head.exists_declarator hdeclarator
      rw [hchildren] at h halike ⊢
      obtain ⟨_, value', hchildren', hname, hvalueAlike⟩ := halike.children.exists_cons
      obtain ⟨name', rfl, _⟩ := hname.exists_token
      obtain rfl : children' = _ := hchildren'
      have hvalue :=
        steps_first L none (· == .equalsValueClause) value value' h.head.children.tail hvalueAlike
          hn.head.children.tail (fun p hp hwanted => by
            rw [eq_of_beq hwanted]
            exact .inr ⟨rfl, nofun⟩)
      have hdeclarator :=
        Steps.declarator L htyped hstatement h.head halike hn.head hdeclarator hvalue
      have hboth := hdeclarator.seq L hsteps hpassing (Nat.le_add_right ..)
      exact hboth
    next => exact hsteps.weaken L (Nat.le_add_right ..) (Nat.le_refl _)
termination_by sizeOf ps
decreasing_by
  all_goals simp only [*, Placed.node.sizeOf_spec, Placed.token.sizeOf_spec, List.cons.sizeOf_spec]
  all_goals omega

/-- Both bindings take the first node of the kind wanted. -/
theorem steps_first (L : Lockstep leaf node tree ctx ctx' typed leads sim) {above : List PlacedNode}
    {parent : PlacedNode} {k : Nat} (arity? : Option Nat) (wanted : Kind → Bool)
    (ps ps' : List Placed) (h : Placed.Sited tree (parent :: above) ps)
    (ha : Placed.Alikes leaf node ps ps') (hn : Placed.Numbered k ps')
    (hfit : ∀ p ∈ ps, wanted p.kind → FitsBody parent.kind p.kind) :
    Steps leads sim k (k + Placed.tokenCount ps') (Binding.first ctx arity? wanted ps)
      (Binding.first ctx' arity? wanted ps') := by
  match ps with
  | [] =>
    obtain rfl := ha.eq_nil
    exact .nothing L (Nat.le_refl _)
  | .token a :: rest =>
    obtain ⟨_, rest', rfl, htoken, hrest⟩ := ha.exists_cons
    obtain ⟨a', rfl, _⟩ := htoken.exists_token
    have hsteps := steps_first L arity? wanted rest rest' h.tail hrest hn.tail
      (fun p hp => hfit p (List.mem_cons_of_mem _ hp))
    rw [Binding.first, Binding.first, Placed.tokenCount_cons, ← Nat.add_assoc]
    exact hsteps.weaken L (Nat.le_add_right ..) (Nat.le_refl _)
  | .node info children :: rest =>
    obtain ⟨⟨info', children'⟩, rest', rfl, halike, hrest⟩ :=
      PlacedNode.Alike.exists_cons (n := ⟨info, children⟩) ha
    have hkind : info'.kind = info.kind := halike.kind
    rw [Binding.first, PlacedNode.placed, Binding.first, hkind, Placed.tokenCount_cons,
      ← Nat.add_assoc]
    split
    next hwanted =>
      have hsteps := steps_element L arity? _ _ h.head halike hn.head
        (hfit _ List.mem_cons_self hwanted)
      exact hsteps.weaken L (Nat.le_refl _) (Nat.le_add_right ..)
    next =>
      have hsteps := steps_first L arity? wanted rest rest' h.tail hrest hn.tail
        (fun p hp => hfit p (List.mem_cons_of_mem _ hp))
      exact hsteps.weaken L (Nat.le_add_right ..) (Nat.le_refl _)
termination_by sizeOf ps
decreasing_by
  all_goals simp only [*, Placed.node.sizeOf_spec, Placed.token.sizeOf_spec, List.cons.sizeOf_spec]
  all_goals omega

end

/-! ## Members -/

/-- What holds for each of some parts holds for all of them in a row. -/
theorem Steps.forEach (L : Lockstep leaf node tree ctx ctx' typed leads sim)
    {f f' : PlacedNode → Binding} {ps ps' : List Placed} (h : Placed.Sited tree above ps)
    (ha : Placed.Alikes leaf node ps ps') (hn : Placed.Numbered k ps')
    (hf : ∀ part part' first, part.placed ∈ ps → part.Alike leaf node part' →
      Placed.Numbered first [part'.placed] →
      Steps leads sim first (first + Placed.tokenCount [part'.placed]) (f part) (f' part'))
    (hwithin : ∀ part names, Within names part.children → StaysWithin ctx.document names (f part))
    (hwithin' : ∀ part' names, Within names part'.children →
      StaysWithin ctx'.document names (f' part')) :
    Steps leads sim k (k + Placed.tokenCount ps') ((ps.filterMap Placed.node?).forM f)
      ((ps'.filterMap Placed.node?).forM f') := by
  induction ps generalizing ps' k with
  | nil =>
    obtain rfl := ha.eq_nil
    exact .nothing L (Nat.le_refl _)
  | cons p ps ih =>
    obtain ⟨p', ps', rfl, hp, hps⟩ := ha.exists_cons
    have hrest := ih h.tail hps hn.tail fun part part' first hpart =>
      hf part part' first (List.mem_cons_of_mem p hpart)
    rw [Placed.tokenCount_cons, ← Nat.add_assoc]
    cases p with
    | token a =>
      obtain ⟨a', rfl, _⟩ := hp.exists_token
      exact hrest.weaken L (Nat.le_add_right ..) (Nat.le_refl _)
    | node info children =>
      obtain ⟨part', rfl, halike⟩ := PlacedNode.Alike.exists_placed (n := ⟨info, children⟩) hp
      have hpart := hf ⟨info, children⟩ part' k List.mem_cons_self halike hn.head
      refine hpart.seq L hrest ⟨?_, ?_⟩ (Nat.le_add_right ..)
      · refine .forM fun later hlater =>
          (hwithin later _ fun t ht => hps.within hn.tail.within t ?_).records
        exact Placed.tokens_subset (PlacedNode.mem_filterMap_node?.mp hlater) ht
      · refine .forM fun later hlater => (hwithin' later _ fun t ht => hn.tail.within t ?_).records
        exact Placed.tokens_subset (PlacedNode.mem_filterMap_node?.mp hlater) ht

/-- The nodes among the children are bound one after another. -/
theorem Steps.forNodes (L : Lockstep leaf node tree ctx ctx' typed leads sim)
    {f f' : PlacedNode → Binding} {n n' : PlacedNode} (h : Placed.Sited tree above [n.placed])
    (ha : n.Alike leaf node n') (hn : Placed.Numbered k [n'.placed])
    (hf : ∀ part part' first, part.placed ∈ n.children →
      Placed.Sited tree (n :: above) [part.placed] → part.Alike leaf node part' →
      Placed.Numbered first [part'.placed] →
      Steps leads sim first (first + Placed.tokenCount [part'.placed]) (f part) (f' part'))
    (hwithin : ∀ part names, Within names part.children → StaysWithin ctx.document names (f part))
    (hwithin' : ∀ part' names, Within names part'.children →
      StaysWithin ctx'.document names (f' part')) :
    Steps leads sim k (k + Placed.tokenCount [n'.placed]) (n.childNodes.forM f)
      (n'.childNodes.forM f') := by
  have hin : Placed.Sited tree (n :: above) n.children := h.children
  have hsteps := Steps.forEach L hin ha.children hn.children
    (fun part part' first hpart => hf part part' first hpart (hin.mem hpart)) hwithin hwithin'
  rw [PlacedNode.placed, Placed.tokenCount_node]
  exact hsteps

theorem steps_node (L : Lockstep leaf node tree ctx ctx' typed leads sim) {n n' : PlacedNode}
    (h : Placed.Sited tree (parent :: above) [n.placed]) (ha : n.Alike leaf node n')
    (hn : Placed.Numbered k [n'.placed]) (hroot : n.kind.isBodyRoot) :
    Steps leads sim k (k + Placed.tokenCount [n'.placed]) (Binding.node ctx n)
      (Binding.node ctx' n') :=
  steps_element L none n.placed n'.placed h ha hn (.root hroot)

theorem steps_type (L : Lockstep leaf node tree ctx ctx' typed leads sim) {n n' : PlacedNode}
    (h : Placed.Sited tree (parent :: above) [n.placed]) (ha : n.Alike leaf node n')
    (hn : Placed.Numbered k [n'.placed]) (htype : n.kind.isType)
    (hcontext : ¬isExpressionContext parent.kind) :
    Steps leads sim k (k + Placed.tokenCount [n'.placed]) (type ctx n) (type ctx' n') :=
  L.type h ha hn htype (not_isRenamable_of_isType h htype hcontext)

/-- What is bound in a child is bound in the node. -/
theorem Steps.inside (L : Lockstep leaf node tree ctx ctx' typed leads sim)
    {n n' child child' : PlacedNode} (h : Placed.Sited tree above [n.placed])
    (hn : Placed.Numbered k [n'.placed]) (hchild : child ∈ n.childNodes)
    (hchild' : child' ∈ n'.childNodes)
    (hsteps : ∀ first, Placed.Sited tree (n :: above) [child.placed] →
      Placed.Numbered first [child'.placed] →
      Steps leads sim first (first + Placed.tokenCount [child'.placed]) b b') :
    Steps leads sim k (k + Placed.tokenCount [n'.placed]) b b' := by
  have hnumbered : Placed.Numbered k n'.children := hn.children
  have hsited : Placed.Sited tree (n :: above) n.children := h.children
  obtain ⟨first, hfirst, hlimit, hnumber⟩ := hnumbered.mem (PlacedNode.mem_childNodes.mp hchild')
  refine (hsteps first (hsited.mem (PlacedNode.mem_childNodes.mp hchild)) hnumber).weaken L hfirst
    ?_
  rwa [← Placed.tokenCount_node n'.info n'.children] at hlimit

/-- A part of a field declaration binds only names that are in it. -/
theorem staysWithin_fieldPart (ctx : BodyContext) (part : PlacedNode) (names : PlacedToken → Prop)
    (hpart : Within names part.children) :
    StaysWithin ctx.document names (if part.kind.isType then type ctx part else
      match part.child? .equalsValueClause with
      | some value => Binding.node ctx value
      | none => pure ()) := by
  split
  next => exact staysWithin_type hpart
  next =>
    split
    next value hvalue => exact staysWithin_node (within_child? hpart hvalue)
    next => exact .nothing

/-- The parts of field declarations bind in lockstep. -/
theorem steps_fieldPart (L : Lockstep leaf node tree ctx ctx' typed leads sim) {n n' : PlacedNode}
    (h : Placed.Sited tree (parent :: above) [n.placed]) (ha : n.Alike leaf node n')
    (hn : Placed.Numbered k [n'.placed])
    (hcontext : ¬isExpressionContext parent.kind) :
    Steps leads sim k (k + Placed.tokenCount [n'.placed])
      (if n.kind.isType then type ctx n else
        match n.child? .equalsValueClause with
        | some value => Binding.node ctx value
        | none => pure ())
      (if n'.kind.isType then type ctx' n' else
        match n'.child? .equalsValueClause with
        | some value => Binding.node ctx' value
        | none => pure ()) := by
  rw [ha.kind]
  split
  next htype => exact steps_type L h ha hn htype hcontext
  next =>
    obtain ⟨hnone, hnone'⟩ | ⟨value, value', hvalue, hvalue', hvalueAlike⟩ :=
      rel_cases (ha.child? .equalsValueClause)
    · rw [hnone, hnone']
      exact .nothing L (Nat.le_add_right ..)
    · rw [hvalue, hvalue']
      obtain ⟨hmem, hvalueKind⟩ := PlacedNode.child?_some hvalue
      refine .inside L h hn hmem (PlacedNode.child?_some hvalue').1 fun _ hsited hnumber => ?_
      exact steps_node L hsited hvalueAlike hnumber (by rw [hvalueKind]; rfl)

theorem steps_fields (L : Lockstep leaf node tree ctx ctx' typed leads sim) {n n' : PlacedNode}
    (h : Placed.Sited tree above [n.placed]) (ha : n.Alike leaf node n')
    (hn : Placed.Numbered k [n'.placed]) (hkind : n.kind = .variableDeclaration) :
    Steps leads sim k (k + Placed.tokenCount [n'.placed]) (fields ctx n) (fields ctx' n') :=
  .forNodes L h ha hn
    (fun _ _ _ _ hsited halike hnumber => steps_fieldPart L hsited halike hnumber
      (by rw [hkind]; exact Bool.false_ne_true))
    (staysWithin_fieldPart ctx) (staysWithin_fieldPart ctx')

/-- The types of parameters bind in lockstep. -/
theorem steps_parameterTypes (L : Lockstep leaf node tree ctx ctx' typed leads sim)
    {n n' : PlacedNode} (h : Placed.Sited tree above [n.placed]) (ha : n.Alike leaf node n')
    (hn : Placed.Numbered k [n'.placed]) (hkind : n.kind = .parameterList) :
    Steps leads sim k (k + Placed.tokenCount [n'.placed]) (parameterTypes ctx n)
      (parameterTypes ctx' n') := by
  have hwithin (ctx : BodyContext) (part : PlacedNode) (names : PlacedToken → Prop)
      (hpart : Within names part.children) :
      StaysWithin ctx.document names (match part.type? with
        | some written => type ctx written
        | none => pure ()) := by
    split
    next written hwritten => exact staysWithin_type (within_type? hpart hwritten)
    next => exact .nothing
  refine .forNodes L h ha hn (fun part part' first hpart hsited halike hnumber => ?_) (hwithin ctx)
    (hwithin ctx')
  have hpartKind := h.kind_of_mem_parameterList hkind hpart
  obtain ⟨hnone, hnone'⟩ | ⟨written, written', hwritten, hwritten', hwrittenAlike⟩ :=
    rel_cases halike.type?
  · rw [hnone, hnone']
    exact .nothing L (Nat.le_add_right ..)
  · rw [hwritten, hwritten']
    refine .inside L hsited hnumber (List.mem_of_find?_eq_some hwritten)
      (List.mem_of_find?_eq_some hwritten') fun _ hsited hnumber => ?_
    refine steps_type L hsited hwrittenAlike hnumber (by simpa using List.find?_some hwritten) ?_
    rw [hpartKind]
    exact Bool.false_ne_true

/-- Accessors bind in lockstep. Only those that assign have a value to assign. -/
theorem steps_accessor
    (L : ∀ b, Lockstep leaf node tree (ctx.assigning b) (ctx'.assigning b) typed leads sim)
    {n n' : PlacedNode} (h : Placed.Sited tree above [n.placed]) (ha : n.Alike leaf node n')
    (hn : Placed.Numbered k [n'.placed]) (hkind : n.kind.isAccessor ∨ n.kind = .skippedTokens) :
    Steps leads sim k (k + Placed.tokenCount [n'.placed]) (accessor (ctx.assigning false) n)
      (accessor (ctx'.assigning false) n') := by
  have L := L (n.kind == .setAccessorDeclaration || n.kind == .initAccessorDeclaration)
  rw [accessor, accessor, ha.kind]
  refine .inFrame L (.forNodes L h ha hn (fun part part' first hpart hsited halike hnumber => ?_)
    (fun _ _ hpart => staysWithin_node hpart) fun _ _ hpart => staysWithin_node hpart)
  refine steps_node L hsited halike hnumber ?_
  have hroot := isBodyRoot_of_accessor h.fit hkind part.kind (List.mem_map_of_mem hpart)
  exact hroot.resolve_left hsited.not_isToken

/-- A part of a member binds only names that are in it. -/
theorem staysWithin_memberPart (ctx : BodyContext) (part : PlacedNode) (names : PlacedToken → Prop)
    (hpart : Within names part.children) : StaysWithin ctx.document names
    (if part.kind.isType then type ctx part else
      match part.kind with
      | .variableDeclaration => fields ctx part
      | .parameterList => parameterTypes ctx part
      | .accessorList => part.childNodes.forM (accessor ctx)
      | _ => Binding.node ctx part) := by
  split
  next => exact staysWithin_type hpart
  next =>
    split
    next => exact staysWithin_fields hpart
    next => exact staysWithin_parameterTypes hpart
    next => exact .forNodes hpart fun _ haccessor => staysWithin_accessor haccessor
    next => exact staysWithin_node hpart

/-- The types, initial values and bodies of alike members are bound in lockstep. -/
theorem steps_memberParts
    (L : ∀ b, Lockstep leaf node tree (ctx.assigning b) (ctx'.assigning b) typed leads sim)
    {n n' : PlacedNode} (h : Placed.Sited tree above [n.placed]) (ha : n.Alike leaf node n')
    (hn : Placed.Numbered k [n'.placed]) (hkind : n.kind.hasParts) :
    Steps leads sim k (k + Placed.tokenCount [n'.placed]) (memberParts (ctx.assigning false) n)
      (memberParts (ctx'.assigning false) n') := by
  refine .forNodes (L false) h ha hn (fun part part' first hpart hsited halike hnumber => ?_)
    (staysWithin_memberPart (ctx.assigning false)) (staysWithin_memberPart (ctx'.assigning false))
  rw [halike.kind]
  split
  next htype =>
    refine steps_type (L false) hsited halike hnumber htype ?_
    cases hn : n.kind <;> simp [hn, Kind.hasParts] at hkind <;> exact Bool.false_ne_true
  next hnot =>
    split
    next hpartKind => exact steps_fields (L false) hsited halike hnumber hpartKind
    next hpartKind => exact steps_parameterTypes (L false) hsited halike hnumber hpartKind
    next hpartKind =>
      refine .forNodes (L false) hsited halike hnumber ?_
        (fun _ _ haccessor => staysWithin_accessor haccessor)
        fun _ _ haccessor => staysWithin_accessor haccessor
      intro accessor accessor' first haccessor hsited' halike hnumber
      refine steps_accessor L hsited' halike hnumber ?_
      have hfit : ChildrenFit part.kind (part.children.map Placed.kind) := hsited.fit
      rw [hpartKind] at hfit
      exact (isAccessor_or hfit accessor.kind (List.mem_map_of_mem haccessor)).resolve_left
        hsited'.not_isToken
    next hfields hparameters haccessors =>
      refine steps_node (L false) hsited halike hnumber ?_
      have hpartKind := isPart h.fit hkind part.kind (List.mem_map_of_mem hpart)
      refine isBodyRoot_of_isPart hpartKind hsited.not_isToken hnot ?_
      exact ⟨hfields, hparameters, haccessors⟩

end Binding

end AutoProperty
