import AutoProperty.Proofs.Symbol.Declared
import AutoProperty.Symbol.Compilation

/-! # Where names stand

Whatever the trees of a project look like, every declaration in its table is at a name that is
present in its document, and so is every place where a name was bound.
-/

namespace AutoProperty

/-! ## Members -/

namespace Placed

mutual

/-- The members in an element that only scopes stand around. -/
def members : Placed → List PlacedNode
  | .token _ => []
  | .node info children =>
    if info.kind.hasParts then [⟨info, children⟩] else if info.kind.isScope then membersOf children
      else []

def membersOf : List Placed → List PlacedNode
  | [] => []
  | p :: rest => p.members ++ membersOf rest

end

mutual

/-- Members are nodes that have only scopes around them. -/
theorem exists_focus_of_mem_members {above : List PlacedNode} (habove : AreScopes above)
    {n : PlacedNode} (p : Placed) (h : n ∈ p.members) :
    n.kind.hasParts ∧ ∃ scopes, ⟨n, scopes⟩ ∈ p.foci above ∧ AreScopes scopes := by
  cases p with
  | token t => exact absurd h List.not_mem_nil
  | node info children =>
    rw [members] at h
    split at h
    next hparts =>
      obtain rfl := List.mem_singleton.mp h
      exact ⟨hparts, above, List.mem_cons_self, habove⟩
    next =>
      split at h
      next hscope =>
        obtain ⟨hparts, scopes, hmem, hscopes⟩ :=
          exists_focus_of_mem_membersOf (habove.cons (n := ⟨info, children⟩) hscope) children h
        exact ⟨hparts, scopes, List.mem_cons_of_mem _ hmem, hscopes⟩
      next => exact absurd h List.not_mem_nil

/-- What is listed as a member stands in scopes only. -/
theorem exists_focus_of_mem_membersOf {above : List PlacedNode} (habove : AreScopes above)
    {n : PlacedNode} (ps : List Placed) (h : n ∈ membersOf ps) :
    n.kind.hasParts ∧ ∃ scopes, ⟨n, scopes⟩ ∈ fociOf above ps ∧ AreScopes scopes := by
  cases ps with
  | nil => exact absurd h List.not_mem_nil
  | cons p ps =>
    obtain h | h := List.mem_append.mp h
    · obtain ⟨hparts, scopes, hmem, hscopes⟩ := exists_focus_of_mem_members habove p h
      exact ⟨hparts, scopes, List.mem_append_left _ hmem, hscopes⟩
    · obtain ⟨hparts, scopes, hmem, hscopes⟩ := exists_focus_of_mem_membersOf habove ps h
      exact ⟨hparts, scopes, List.mem_append_right _ hmem, hscopes⟩

end

end Placed

namespace Within

variable {names : PlacedToken → Prop} {n : PlacedNode}

mutual

/-- A member of an element takes all its tokens from it. -/
theorem members_placed (p : Placed) (h : Within names [p]) (hn : n ∈ p.members) :
    Within names n.children := by
  cases p with
  | token t => exact absurd hn List.not_mem_nil
  | node info children =>
    rw [Placed.members] at hn
    split at hn
    next =>
      obtain rfl := List.mem_singleton.mp hn
      exact h.children
    next =>
      split at hn
      next => exact members children h.children hn
      next => exact absurd hn List.not_mem_nil

theorem members (ps : List Placed) (h : Within names ps) (hn : n ∈ Placed.membersOf ps) :
    Within names n.children := by
  cases ps with
  | nil => exact absurd hn List.not_mem_nil
  | cons p ps =>
    obtain hn | hn := List.mem_append.mp hn
    · exact members_placed p h.head hn
    · exact members ps h.tail hn

end

end Within

namespace SymbolTable

variable {document : DocumentId} {names : PlacedToken → Prop}

/-! ## The second pass -/

/-- Neither a member nor something that holds members is left alone. -/
theorem bindElement_other (t : SymbolTable) (type? : Option SymbolId) {n : PlacedNode}
    (hscope : ¬n.kind.isScope) (hparts : ¬n.kind.hasParts) :
    t.bindElement document type? n.placed = t := by
  rw [PlacedNode.placed, bindElement]
  split
  next h => simp [PlacedNode.kind, h, Kind.isScope] at hscope
  next h => simp [PlacedNode.kind, h, Kind.isScope] at hscope
  next h => simp [PlacedNode.kind, h, Kind.isScope] at hscope
  next h => simp [PlacedNode.kind, h, Kind.isScope] at hscope
  next h => simp [PlacedNode.kind, h, Kind.hasParts] at hparts
  next h => simp [PlacedNode.kind, h, Kind.hasParts] at hparts
  next h => simp [PlacedNode.kind, h, Kind.hasParts] at hparts
  next h => simp [PlacedNode.kind, h, Kind.hasParts] at hparts
  next => rfl

/-- What is around the members of a scope. -/
def innerType? (t : SymbolTable) (document : DocumentId) (type? : Option SymbolId)
    (n : PlacedNode) : Option SymbolId :=
  if n.kind = .classDeclaration ∨ n.kind = .structDeclaration then t.declared? ⟨document, n.index⟩
    else type?

/-- In a scope the members are bound. -/
theorem bindElement_scope (t : SymbolTable) (type? : Option SymbolId) {n : PlacedNode}
    (h : n.kind.isScope) :
    t.bindElement document type? n.placed = t.bindAll document (t.innerType? document type? n)
      n.children := by
  obtain ⟨⟨index, kind, full, extent?⟩, children⟩ := n
  cases kind <;> first | exact absurd h Bool.false_ne_true | rfl

def memberContext (t : SymbolTable) (document : DocumentId) (type? : Option SymbolId)
    (n : PlacedNode) : BodyContext where
  document
  type?
  member? := if n.kind = .fieldDeclaration then none else t.declared? ⟨document, n.index⟩

/-- The names in scope where the body of a member begins. -/
def memberScopes (t : SymbolTable) (document : DocumentId) (n : PlacedNode) : Scopes :=
  match n.kind with
  | .methodDeclaration | .constructorDeclaration => [t.parameterFrame document n]
  | _ => []

theorem bindElement_member (t : SymbolTable) (type? : Option SymbolId) {n : PlacedNode}
    (h : n.kind.hasParts) :
    t.bindElement document type? n.placed = t.bindMember (t.memberContext document type? n)
      (t.memberScopes document n) n := by
  obtain ⟨⟨index, kind, full, extent?⟩, children⟩ := n
  cases kind <;> first | exact absurd h Bool.false_ne_true | rfl

theorem staysWithin_bindMember (t : SymbolTable) (ctx : BodyContext) (frames : Scopes)
    {n : PlacedNode} (h : Within names n.children) :
    t.Records ctx.document names (t.bindMember ctx frames n) ∧
      t.Appends ctx.document names (t.bindMember ctx frames n) :=
  Binding.staysWithin_memberParts h { table := t, scopes := frames }

mutual

/-- Binding an element binds names in the members of it only. -/
theorem staysWithin_bindElement (t : SymbolTable) (document : DocumentId) (type? : Option SymbolId)
    (p : Placed) (h : ∀ n ∈ p.members, Within names n.children) :
    t.Records document names (t.bindElement document type? p) ∧
      t.Appends document names (t.bindElement document type? p) := by
  match p with
  | .token _ => exact ⟨.refl t, .of_eq rfl⟩
  | .node info children =>
    let n : PlacedNode := ⟨info, children⟩
    rw [Placed.members] at h
    rw [show Placed.node info children = n.placed from rfl]
    by_cases hparts : info.kind.hasParts
    · rw [bindElement_member t type? (n := n) hparts]
      rw [if_pos hparts] at h
      exact staysWithin_bindMember t _ _ (h n (List.mem_singleton_self n))
    by_cases hscope : info.kind.isScope
    · rw [bindElement_scope t type? (n := n) hscope]
      rw [if_neg hparts, if_pos hscope] at h
      exact staysWithin_bindAll t document _ children h
    · rw [bindElement_other t type? (n := n) hscope hparts]
      exact ⟨.refl t, .of_eq rfl⟩

/-- Binding elements binds names in the members of them only. -/
theorem staysWithin_bindAll (t : SymbolTable) (document : DocumentId) (type? : Option SymbolId)
    (ps : List Placed) (h : ∀ n ∈ Placed.membersOf ps, Within names n.children) :
    t.Records document names (t.bindAll document type? ps) ∧
      t.Appends document names (t.bindAll document type? ps) := by
  match ps with
  | [] =>
    rw [bindAll]
    exact ⟨.refl t, .of_eq rfl⟩
  | p :: rest =>
    obtain ⟨hfirst, hrest⟩ := List.forall_mem_append.mp h
    obtain ⟨hrecords, happends⟩ := staysWithin_bindElement t document type? p hfirst
    obtain ⟨hrecords', happends'⟩ :=
      staysWithin_bindAll (t.bindElement document type? p) document type? rest hrest
    rw [bindAll]
    exact ⟨hrecords.trans hrecords', happends.trans happends'⟩

end

/-! ## Both passes -/

/-- Declarations and bindings are at names that are present in their documents. -/
structure Present (documents : List (DocumentId × Tree)) (t : SymbolTable) : Prop where
  named : ∀ data ∈ t.symbols, ∀ d ∈ data.declarations, d.IsNamed documents data.kind
  bound : ∀ e ∈ t.bindings, ∃ tree, (e.1.document, tree) ∈ documents ∧
    ∃ f ∈ tree.tokens, f.leaf.text ≠ "" ∧ f.leaf.index = e.1.index ∧ f.InMember

variable {documents : List (DocumentId × Tree)} {t : SymbolTable}

/-- Binding a document of the project binds names that are present in it. -/
theorem Present.bindDocument (h : Present documents t) {tree : Tree}
    (hdocument : (document, tree) ∈ documents) :
    Present documents (t.bindDocument document tree) := by
  have hwithin : ∀ n ∈ Placed.membersOf tree.top.children,
      Within (fun leaf => ∃ f ∈ tree.tokens, f.leaf = leaf ∧ f.InMember) n.children := by
    intro n hn leaf hleaf
    obtain ⟨hparts, scopes, hmem, hscopes⟩ :=
      Placed.exists_focus_of_mem_membersOf (.root tree.top) _ hn
    obtain ⟨f, hf, hleaf, inner, habove⟩ :=
      Tree.exists_tokenFocus (tree.fociOf_subset_nodes hmem) hleaf
    exact ⟨f, hf, hleaf, inner, n, scopes, habove, hparts, hscopes⟩
  obtain ⟨⟨new, hbindings, hnew⟩, more, hsymbols, hmore⟩ :=
    staysWithin_bindAll t document none tree.top.children hwithin
  constructor
  · intro data hdata d hd
    rw [SymbolTable.bindDocument, hsymbols] at hdata
    obtain hdata | hdata := List.mem_append.mp hdata
    · exact h.named data hdata d hd
    · obtain ⟨hkind, hdeclarations⟩ := hmore data hdata
      obtain ⟨hplace, _, ⟨f, hf, rfl, _⟩, htext, hspan⟩ := hdeclarations d hd
      refine ⟨tree, hplace ▸ hdocument, f, hf, htext, hspan, absurd ?_⟩
      rw [hkind]
      exact SymbolKind.isSingle_localVariable
  · intro e he
    rw [SymbolTable.bindDocument, hbindings] at he
    obtain he | he := List.mem_append.mp he
    · obtain ⟨_, ⟨f, hf, rfl, hmember⟩, htext, hplace⟩ := hnew e he
      rw [hplace]
      exact ⟨tree, hdocument, f, hf, htext, rfl, hmember⟩
    · exact h.bound e he

def declareDocuments (documents : List (DocumentId × Tree)) : SymbolTable :=
  documents.foldl (fun t d => t.declareDocument d.1 d.2) .empty

theorem extends_declareDocuments (documents : List (DocumentId × Tree)) :
    Extends documents (documents.flatMap fun d => placesOf d.1 (Placed.nodesOf d.2.top.children))
      .empty (declareDocuments documents) :=
  extends_foldl _ (fun _ _ hd _ hu => extends_declareDocument hd hu) (.empty documents)

theorem data?_empty (id : SymbolId) : empty.data? id = none :=
  List.getElem?_nil

theorem isNoted_declareDocuments (documents : List (DocumentId × Tree)) :
    (declareDocuments documents).IsNoted :=
  (extends_declareDocuments documents).noted fun id data hdata =>
    absurd hdata (by simp [data?_empty])

theorem isLayered_declareDocuments (documents : List (DocumentId × Tree)) :
    (declareDocuments documents).IsLayered :=
  (extends_declareDocuments documents).layered fun id data hdata =>
    absurd hdata (by simp [data?_empty])

theorem hasNoLocals_declareDocuments (documents : List (DocumentId × Tree)) :
    (declareDocuments documents).HasNoLocals :=
  (extends_declareDocuments documents).noLocals fun id data hdata =>
    absurd hdata (by simp [data?_empty])

theorem bindings_declareDocuments (documents : List (DocumentId × Tree)) :
    (declareDocuments documents).bindings = [] :=
  (extends_declareDocuments documents).bindings

theorem build_eq (documents : List (DocumentId × Tree)) : build documents =
    documents.foldl (fun t d => t.bindDocument d.1 d.2) (declareDocuments documents) := rfl

/-- Declarations and bindings of a project are at names that are present. -/
theorem present_build (documents : List (DocumentId × Tree)) :
    Present documents (build documents) := by
  have hdeclared := extends_declareDocuments documents
  have hstart : Present documents (declareDocuments documents) := by
    constructor
    · intro data hdata
      obtain ⟨i, hi⟩ := List.getElem?_of_mem hdata
      exact (hdeclared.sound.named ⟨i⟩ data hi).2
    · rw [hdeclared.bindings]
      nofun
  rw [build_eq]
  refine List.foldlRecOn documents _ hstart fun t ht d hd => ht.bindDocument hd

/-- Only locals come behind the symbols of the first pass. -/
theorem symbols_build (documents : List (DocumentId × Tree)) :
    ∃ locals, (build documents).symbols = (declareDocuments documents).symbols ++ locals ∧
      ∀ data ∈ locals, data.kind = .localVariable := by
  rw [build_eq]
  refine List.foldlRecOn documents _
    (motive := fun t : SymbolTable => ∃ locals,
      t.symbols = (declareDocuments documents).symbols ++ locals ∧
      ∀ data ∈ locals, data.kind = .localVariable)
    ⟨[], (List.append_nil _).symm, nofun⟩ fun t ht d _ => ?_
  obtain ⟨locals, hlocals, hkinds⟩ := ht
  obtain ⟨_, more, hmore, hmoreKinds⟩ :=
    @staysWithin_bindAll (fun _ => True) t d.1 none d.2.top.children fun _ _ _ _ => trivial
  refine ⟨locals ++ more, ?_,
    List.forall_mem_append.mpr ⟨hkinds, fun data hdata => (hmoreKinds data hdata).1⟩⟩
  rw [bindDocument, hmore, hlocals, List.append_assoc]

/-- All symbols but the locals are those of the first pass. -/
theorem data?_build_iff {documents : List (DocumentId × Tree)} {id : SymbolId} {data : SymbolData}
    (hkind : data.kind ≠ .localVariable) :
    (build documents).data? id = some data ↔ (declareDocuments documents).data? id = some data := by
  obtain ⟨locals, hsymbols, hlocals⟩ := symbols_build documents
  rw [data?, data?, hsymbols, List.getElem?_append]
  split
  next => exact .rfl
  next hlength =>
    rw [List.getElem?_eq_none (Nat.le_of_not_lt hlength)]
    exact ⟨fun h => absurd (hlocals data (List.mem_of_getElem? h)) hkind,
      fun h => absurd h.symm (Option.some_ne_none data)⟩

end SymbolTable

end AutoProperty
