import AutoProperty.Proofs.Symbol.BindingOrder
import AutoProperty.Proofs.Symbol.Locals

/-! # Lexical scoping

Which locals and parameters are in sight from a name, and that the binding of a body finds the
nearest of them. The frames are those of the blocks around the name; in each of them are the
locals whose declarators have been passed.
-/

namespace AutoProperty

/-! ## What is in sight -/

namespace PlacedNode

def isNamed (n : PlacedNode) (name : String) : Bool :=
  n.name?.any (·.text == name)

def endsBefore (n : PlacedNode) (index : Nat) : Bool :=
  n.tokens.all (·.index < index)

/-- The locals of a block; no other node has any of its own. -/
def scope (n : PlacedNode) : List PlacedNode :=
  if n.kind = .block then Placed.localsOf n.children else []

def latest (locals : List PlacedNode) (index : Nat) : List PlacedNode :=
  (locals.filter (·.endsBefore index)).reverse

/-- The locals of nodes that stand in each other which end before the number, the nearest first. -/
def inSight (above : List PlacedNode) (index : Nat) : List PlacedNode :=
  above.flatMap fun n => latest n.scope index

variable {n : PlacedNode} {index : Nat} {name : String}

theorem isNamed_iff : n.isNamed name ↔ ∃ token, n.name? = some token ∧ token.text = name := by
  simp [isNamed, Option.any_eq_true]

/-- A name is not empty. -/
theorem not_isNamed_empty : ¬n.isNamed "" := by
  intro h
  rcases isNamed_iff.mp h with ⟨token, htoken, htext⟩
  exact (name?_mem htoken).2.2 htext

theorem scope_of_ne (h : n.kind ≠ .block) : n.scope = [] :=
  if_neg h

theorem inSight_append (inner outer : List PlacedNode) (index : Nat) :
    inSight (inner ++ outer) index = inSight inner index ++ inSight outer index :=
  List.flatMap_append

theorem inSight_eq_nil {above : List PlacedNode} (h : ∀ n ∈ above, n.kind ≠ .block) :
    inSight above index = [] := by
  refine List.flatMap_eq_nil_iff.mpr fun n hn => ?_
  rw [scope_of_ne (h n hn)]
  rfl

theorem latest_append (locals later : List PlacedNode) (index : Nat) :
    latest (locals ++ later) index = latest later index ++ latest locals index := by
  simp [latest]

theorem latest_of_before {locals : List PlacedNode}
    (h : ∀ n ∈ locals, ∀ leaf ∈ n.tokens, leaf.index < index) :
    latest locals index = locals.reverse := by
  rw [latest, List.filter_eq_self.mpr fun n hn => ?_]
  simpa [endsBefore] using h n hn

theorem latest_of_behind {locals : List PlacedNode}
    (h : ∀ n ∈ locals, ∃ leaf ∈ n.tokens, index ≤ leaf.index) : latest locals index = [] := by
  rw [latest, List.reverse_eq_nil_iff, List.filter_eq_nil_iff]
  intro n hn hends
  rcases h n hn with ⟨leaf, hleaf, hindex⟩
  have hlt : leaf.index < index := by simpa using List.all_eq_true.mp hends leaf hleaf
  omega

theorem mem_latest {locals : List PlacedNode} :
    n ∈ latest locals index ↔ n ∈ locals ∧ ∀ leaf ∈ n.tokens, leaf.index < index := by
  simp [latest, endsBefore]

end PlacedNode

/-- The token is an expression of its own, not the name behind a point. -/
structure TokenFocus.IsSimpleName (f : TokenFocus) : Prop where
  isExpressionName : f.isExpressionName
  notMember : ∀ name access above, f.above = name :: access :: above →
    access.kind = .memberAccessExpression →
    access.childNodes.getLast? ≠ some name

namespace SymbolTable

variable {t u : SymbolTable} {document : DocumentId} {place : Place} {id : SymbolId}

def DeclaresAt (t : SymbolTable) (place : Place) (id : SymbolId) : Prop :=
  ∃ data, t.data? id = some data ∧ data.kind.isSingle ∧ ∃ d ∈ data.declarations, d.place = place

/-- The symbol is neither a local nor a parameter. That of a type can be told by its key. -/
def IsOutside (t : SymbolTable) (id : SymbolId) : Prop :=
  ∃ data, t.data? id = some data ∧
    (data.key.kind = .namedType ∨ data.kind ≠ .localVariable ∧ data.kind ≠ .parameter)

/-- The symbols are the nearest of the nodes with the name, or none that could be in sight. -/
def Means (t : SymbolTable) (document : DocumentId) (sight : List PlacedNode) (name : String)
    (ids : List SymbolId) : Prop :=
  match sight.find? (·.isNamed name) with
  | some n => ∃ id, ids = [id] ∧ t.DeclaresAt ⟨document, n.index⟩ id
  | none => ∀ id ∈ ids, t.IsOutside id

def HasFrames (t : SymbolTable) (document : DocumentId) (frames : List (List PlacedNode))
    (scopes : Scopes) : Prop :=
  List.Forall₂ (List.Forall₂ fun n e => (∃ token, n.name? = some token ∧ e.1 = token.text) ∧
    t.DeclaresAt ⟨document, n.index⟩ e.2) frames scopes

/-- No name in the elements has been bound. -/
def Unbound (t : SymbolTable) (document : DocumentId) (ps : List Placed) : Prop :=
  ∀ leaf ∈ Placed.tokensOf ps, t.bound ⟨document, leaf.index⟩ = []

section Growing

variable (hinitial : t.symbols <+: u.symbols)
include hinitial

theorem DeclaresAt.grows (h : t.DeclaresAt place id) : u.DeclaresAt place id := by
  rcases h with ⟨data, hdata, hplace⟩
  exact ⟨data, data?_of_initial hinitial hdata, hplace⟩

theorem IsOutside.grows (h : t.IsOutside id) : u.IsOutside id := by
  rcases h with ⟨data, hdata, hkind⟩
  exact ⟨data, data?_of_initial hinitial hdata, hkind⟩

theorem Means.grows {sight : List PlacedNode} {name : String} {ids : List SymbolId}
    (h : t.Means document sight name ids) : u.Means document sight name ids := by
  rw [Means] at h ⊢
  split at h
  next n hfound =>
    rcases h with ⟨id, hids, hid⟩
    exact ⟨id, hids, hid.grows hinitial⟩
  next hfound => exact fun id hid => (h id hid).grows hinitial

theorem HasFrames.grows {frames : List (List PlacedNode)} {scopes : Scopes}
    (h : t.HasFrames document frames scopes) : u.HasFrames document frames scopes :=
  List.Forall₂.imp (fun _ _ => List.Forall₂.imp fun _ _ he => ⟨he.1, he.2.grows hinitial⟩) h

end Growing

/-- A lookup in a frame finds the first of its nodes with the name. -/
theorem rel_lookup_frame {frame : List PlacedNode} {entries : List (String × SymbolId)}
    (name : String)
    (h : List.Forall₂ (fun n e => (∃ token, n.name? = some token ∧ e.1 = token.text) ∧
      t.DeclaresAt ⟨document, n.index⟩ e.2) frame entries) :
    Option.Rel (fun n id => t.DeclaresAt ⟨document, n.index⟩ id) (frame.find? (·.isNamed name))
      (entries.lookup name) := by
  induction h with
  | nil => exact .none
  | @cons n e frame entries he _ ih =>
    rcases e with ⟨key, id⟩
    rcases he with ⟨⟨token, htoken, rfl⟩, hid⟩
    have hnamed : n.isNamed name = (name == token.text) := by
      rw [PlacedNode.isNamed, htoken, Option.any_some]
      exact Bool.beq_comm
    rw [List.find?_cons, List.lookup_cons, hnamed]
    cases name == token.text with
    | true => exact .some hid
    | false => exact ih

/-- The nearest node with a name is what the name means among those in scope. -/
theorem HasFrames.find? {frames : List (List PlacedNode)} {scopes : Scopes}
    (h : t.HasFrames document frames scopes) (name : String) :
    Option.Rel (fun n id => t.DeclaresAt ⟨document, n.index⟩ id)
      (frames.flatten.find? (·.isNamed name)) (scopes.find? name) := by
  induction h with
  | nil => exact .none
  | @cons frame entries frames scopes hframe _ ih =>
    have hfind : Scopes.find? (entries :: scopes) name = (entries.lookup name).or
        (Scopes.find? scopes name) := by
      rw [Scopes.find?, List.findSome?_cons]
      cases entries.lookup name <;> rfl
    rw [List.flatten_cons, List.find?_append, hfind]
    exact rel_or (rel_lookup_frame name hframe) ih

theorem HasFrames.tail {frames : List (List PlacedNode)} {scopes : Scopes}
    (h : t.HasFrames document frames scopes) : t.HasFrames document frames.tail scopes.tail := by
  cases h with
  | nil => exact .nil
  | cons _ houter => exact houter

/-- A name is put in front of the innermost frame. -/
theorem HasFrames.insert {frame : List PlacedNode} {outer : List (List PlacedNode)}
    {scopes : Scopes} {n : PlacedNode} {token : PlacedToken}
    (h : t.HasFrames document (frame :: outer) scopes) (hname : n.name? = some token)
    (hid : t.DeclaresAt ⟨document, n.index⟩ id) :
    t.HasFrames document ((n :: frame) :: outer) (scopes.insert token.text id) := by
  cases h with
  | cons hframe houter => exact .cons (.cons ⟨⟨token, hname, rfl⟩, hid⟩ hframe) houter

/-- A symbol that is added under its declaration is declared there. -/
theorem declaresAt_add (t : SymbolTable) (data : SymbolData) (hkind : data.kind.isSingle)
    {d : Declaration} (hd : d ∈ data.declarations) :
    (t.add data).2.DeclaresAt d.place (t.add data).1 := by
  refine ⟨{ data with key := t.freshKey data.key }, ?_, hkind, d, hd, rfl⟩
  rw [data?_add, if_pos rfl]

/-- The members of a type are neither locals nor parameters. -/
theorem isOutside_of_mem_lookupMember {type : SymbolId} {name : String} {arity? : Option Nat}
    (h : id ∈ t.lookupMember type name arity?) : t.IsOutside id := by
  have hmember : id ∈ t.members type := by
    cases arity? with
    | none => exact List.mem_of_mem_filter h
    | some arity =>
      rw [lookupMember] at h
      split at h
      next => exact List.mem_of_mem_filter h
      next => exact List.mem_of_mem_filter (List.mem_of_mem_filter h)
  rcases mem_members.mp hmember with ⟨_, _, data, hdata, _, hlisted⟩
  refine ⟨data, hdata, .inr ?_⟩
  rcases SymbolData.isListed_iff.mp hlisted with hkind | hkind
  · constructor <;> intro heq <;> exact absurd hkind (by rw [heq]; decide)
  · simp [hkind]

/-- Neither are types. -/
theorem isOutside_of_resolveType? {text : String} {from? : Option SymbolId}
    (h : t.resolveType? text from? = some id) : t.IsOutside id := by
  rcases exists_data_of_resolveType? h with ⟨data, hdata, hkind⟩
  exact ⟨data, hdata, hkind.imp_right fun hkind => by simp [hkind]⟩

end SymbolTable

/-- A simple name means the nearest local or parameter with the name. -/
theorem means_lookupSimple {ctx : BodyContext} {s : BodyState} {frames : List (List PlacedNode)}
    (name : String) (arity? : Option Nat) (h : s.table.HasFrames ctx.document frames s.scopes) :
    s.table.Means ctx.document frames.flatten name (lookupSimple ctx s name arity?) := by
  rw [SymbolTable.Means, lookupSimple]
  rcases rel_cases (h.find? name) with ⟨hnone, hnone'⟩ | ⟨n, id, hn, hid, hdeclares⟩
  swap
  · rw [hn, hid]
    exact ⟨id, rfl, hdeclares⟩
  rw [hnone, hnone']
  dsimp only
  intro id hmem
  split at hmem
  next => exact absurd hmem List.not_mem_nil
  next =>
    split at hmem
    next candidates hfound =>
      rcases List.mem_map.mp (List.mem_of_find?_eq_some hfound) with ⟨type, _, rfl⟩
      exact SymbolTable.isOutside_of_mem_lookupMember hmem
    next => exact SymbolTable.isOutside_of_resolveType? (Option.mem_toList.mp hmem)

end AutoProperty
