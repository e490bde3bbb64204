import Mathlib.Data.List.Induction
import AutoProperty.Proofs.Symbol.BindingOrder

/-! # Projects in another order

The documents of a project are bound one after another. Two orders are compared document by
document: what has been bound in front of it differs, but each document is bound as it is in the
other order.
-/

namespace AutoProperty

namespace SymbolTable

variable {documents documents' : List (DocumentId × Tree)} {t t' u : SymbolTable}

/-! ## What binding leaves alone -/

/-- A table on the way to another one. -/
structure IsBehind (t u : SymbolTable) : Prop where
  symbols : t.symbols <+: u.symbols
  bindings : t.bindings <:+ u.bindings

theorem IsBehind.trans {v : SymbolTable} (h : t.IsBehind u) (h' : u.IsBehind v) : t.IsBehind v :=
  ⟨h.symbols.trans h'.symbols, h.bindings.trans h'.bindings⟩

theorem Records.isBehind {document : DocumentId} {names : PlacedToken → Prop}
    (h : t.Records document names u) (hsymbols : t.symbols <+: u.symbols) : t.IsBehind u := by
  obtain ⟨new, heq, _⟩ := h
  exact ⟨hsymbols, heq ▸ List.suffix_append new _⟩

def bindDocuments (t : SymbolTable) (documents : List (DocumentId × Tree)) : SymbolTable :=
  documents.foldl (fun t d => t.bindDocument d.1 d.2) t

theorem bindDocuments_append (t : SymbolTable) (before after : List (DocumentId × Tree)) :
    t.bindDocuments (before ++ after) = (t.bindDocuments before).bindDocuments after :=
  List.foldl_append

/-- What binding the documents does to a table: it adds locals of the documents, and binds names
in them. -/
structure Continues (documents : List (DocumentId × Tree)) (t u : SymbolTable) : Prop where
  symbols : ∃ new, u.symbols = t.symbols ++ new ∧ ∀ data ∈ new, data.kind = .localVariable ∧
    ∀ d ∈ data.declarations, ∃ e ∈ documents, d.place.document = e.1
  bindings : ∃ new, u.bindings = new ++ t.bindings ∧ ∀ b ∈ new, ∃ e ∈ documents, b.1.document = e.1

/-- Binding documents adds locals and binds names, and only in those documents. -/
theorem continues_bindDocuments (t : SymbolTable) (documents : List (DocumentId × Tree)) :
    Continues documents t (t.bindDocuments documents) := by
  induction documents generalizing t with
  | nil =>
    exact ⟨⟨[], (List.append_nil _).symm, List.forall_mem_nil _⟩, [], rfl, List.forall_mem_nil _⟩
  | cons d documents ih =>
    obtain ⟨⟨bound, hbound, hplaces⟩, new, hsymbols, hnew⟩ :=
      @staysWithin_bindAll (fun _ => True) t d.1 none d.2.top.children fun _ _ _ _ => trivial
    obtain ⟨⟨new', hsymbols', hnew'⟩, bound', hbound', hplaces'⟩ := ih (t.bindDocument d.1 d.2)
    constructor
    · refine ⟨new ++ new', ?_,
        List.forall_mem_append.mpr ⟨fun data hdata => ?_, fun data hdata => ?_⟩⟩
      · show ((t.bindDocument d.1 d.2).bindDocuments documents).symbols = _
        rw [hsymbols', bindDocument, hsymbols, List.append_assoc]
      · obtain ⟨hkind, hdeclarations⟩ := hnew data hdata
        exact ⟨hkind, fun e he => ⟨d, List.mem_cons_self, (hdeclarations e he).1⟩⟩
      · obtain ⟨hkind, hdeclarations⟩ := hnew' data hdata
        refine ⟨hkind, fun e he => ?_⟩
        obtain ⟨d', hd', heq⟩ := hdeclarations e he
        exact ⟨d', List.mem_cons_of_mem _ hd', heq⟩
    · refine ⟨bound' ++ bound, ?_, List.forall_mem_append.mpr ⟨fun b hb => ?_, fun b hb => ?_⟩⟩
      · show ((t.bindDocument d.1 d.2).bindDocuments documents).bindings = _
        rw [hbound', bindDocument, hbound, List.append_assoc]
      · obtain ⟨d', hd', heq⟩ := hplaces' b hb
        exact ⟨d', List.mem_cons_of_mem _ hd', heq⟩
      · obtain ⟨_, _, _, heq⟩ := hplaces b hb
        exact ⟨d, List.mem_cons_self, congrArg Place.document heq⟩

theorem Continues.isBehind (h : Continues documents t u) : t.IsBehind u := by
  obtain ⟨⟨new, hsymbols, _⟩, bound, hbindings, _⟩ := h
  exact ⟨hsymbols ▸ List.prefix_append _ _, hbindings ▸ List.suffix_append _ _⟩

/-- Names in other documents are left alone. -/
theorem Continues.bound_eq (h : Continues documents t u) {place : Place}
    (hother : ∀ d ∈ documents, place.document ≠ d.1) : u.bound place = t.bound place := by
  obtain ⟨new, heq, hnew⟩ := h.bindings
  have hnone : new.lookup place = none := by
    refine List.lookup_eq_none_iff.mpr fun b hb => ?_
    obtain ⟨d, hd, hdocument⟩ := hnew b hb
    rw [bne_iff_ne]
    rintro rfl
    exact hother d hd hdocument
  rw [bound, bound, heq, List.lookup_append, hnone, Option.none_or]

def KeepsDeclared (documents : List (DocumentId × Tree)) (t u : SymbolTable) : Prop :=
  ∀ d ∈ documents, ∀ f ∈ d.2.nodes, f.node.kind ≠ .variableDeclarator →
    u.declared? ⟨d.1, f.node.index⟩ = t.declared? ⟨d.1, f.node.index⟩

theorem KeepsDeclared.of_eq {v : SymbolTable} (h : KeepsDeclared documents t u)
    (heq : v.declared = u.declared) : KeepsDeclared documents t v := by
  intro d hd f hf hkind
  rw [declared?, heq]
  exact h d hd f hf hkind

/-- A declarator that declares a local changes nothing for nodes of other kinds. -/
theorem KeepsDeclared.declare {v : SymbolTable} (h : KeepsDeclared documents t u)
    (hnodup : (documents.map (·.1)).Nodup) {document : DocumentId} {tree : Tree}
    (hdocument : (document, tree) ∈ documents) {f : Focus} (hf : f ∈ tree.nodes)
    (hkind : f.node.kind = .variableDeclarator) {id : SymbolId}
    (heq : v.declared = (⟨document, f.node.index⟩, id) :: u.declared) :
    KeepsDeclared documents t v := by
  intro d hd g hg hother
  have hne : (⟨d.1, g.node.index⟩ : Place) ≠ ⟨document, f.node.index⟩ := by
    intro hplace
    obtain ⟨rfl, hindex⟩ := Place.mk.inj hplace
    obtain rfl : d.2 = tree :=
      Option.some.inj ((lookup_of_mem hnodup hd).symm.trans (lookup_of_mem hnodup hdocument))
    obtain rfl := Tree.focus_eq hg hf hindex
    exact hother hkind
  rw [declared?, heq, List.lookup_cons, beq_eq_false_iff_ne.mpr hne]
  exact h d hd g hg hother

end SymbolTable

namespace Binding

open SymbolTable

variable {documents : List (DocumentId × Tree)} {tree : Tree} {ctx ctx' : BodyContext}

/-- Bodies declare at declarators only. -/
theorem lockstep_keepsDeclared (hnodup : (documents.map (·.1)).Nodup)
    (hdocument : (ctx.document, tree) ∈ documents) (hctx : ctx'.document = ctx.document)
    (t t' : SymbolTable) :
    Lockstep Eq Eq tree ctx ctx' (fun _ _ => True) (fun _ _ _ => True)
      (fun _ s s' => KeepsDeclared documents t s.table ∧ KeepsDeclared documents t' s'.table) where
  keeps := keepsTokens_eq
  earlier _ _ _ := trivial
  skip h _ := h
  enter h := h
  leave h := h
  type {n n' _ _} _ _ _ _ _ := by
    intro s s' h _
    have hbind (ctx : BodyContext) (n : PlacedNode) (s : BodyState) :
        (type ctx n s).2.table.declared = s.table.declared := by
      rw [type_run]
      split
      next => exact declared_bind _ _ _
      next => rfl
    exact ⟨h.1.of_eq (hbind ctx n s), h.2.of_eq (hbind ctx' n' s')⟩
  name {info info' a a' _ arity?} _ ha hname := by
    obtain rfl := ha
    intro s s' h _
    have hbind (ctx : BodyContext) (info : NodeInfo) (s : BodyState) :
        (simpleName ctx ⟨info, [.token a]⟩ arity? s).2.table.declared = s.table.declared := by
      rw [simpleName_run ctx arity? s (TokenFocus.IsRenamable.kind_eq (.inl hname))]
      split
      next => rfl
      next => exact declared_bind _ _ _
    exact ⟨h.1.of_eq (hbind ctx info s), h.2.of_eq (hbind ctx' info' s')⟩
  memberName {info info' nameInfo nameInfo' receiver receiver' dot dot' a a' _ arity?} _ _ ha
    hname := by
    obtain rfl := ha
    intro s s' h _
    have hbind (ctx : BodyContext) (info nameInfo : NodeInfo) (receiver : PlacedNode)
        (dot : PlacedToken) (s : BodyState) :
        (memberName ctx ⟨info, [receiver.placed, .token dot, .node nameInfo [.token a]]⟩ arity?
          s).2.table.declared =
          s.table.declared := by
      rw [memberName_run ctx arity? s (TokenFocus.IsRenamable.kind_eq (.inl hname))]
      split
      next => rfl
      next => exact declared_bind _ _ _
    exact ⟨h.1.of_eq (hbind ctx info nameInfo receiver dot s),
      h.2.of_eq (hbind ctx' info' nameInfo' receiver' dot' s')⟩
  localType _ _ _ _ := trivial
  declareLocal {_ _ n n' _ _ type type' s s'} hsited _ halike _ hkind _ _ := by
    intro h _
    have hindex : n'.index = n.index := halike.index.symm
    have hdeclared (ctx : BodyContext) (hctx : (ctx.document, tree) ∈ documents) (type : LocalType)
        (m : PlacedNode)
        (hindex : m.index = n.index) (s : BodyState) (t : SymbolTable)
        (h : KeepsDeclared documents t s.table) :
        KeepsDeclared documents t (declareLocal ctx type m s).2.table := by
      rw [declareLocal_run]
      split
      next =>
        dsimp only
        rw [hindex]
        exact h.declare hnodup hctx hsited.focus_mem hkind rfl
      next => exact h
    exact ⟨hdeclared ctx hdocument type n rfl s t h.1,
      hdeclared ctx' (hctx ▸ hdocument) type' n' hindex s' t' h.2⟩

end Binding

namespace SymbolTable

variable {documents documents' : List (DocumentId × Tree)} {t t' : SymbolTable}
  {document : DocumentId} {tree : Tree}

/-- Binding members changes nothing at nodes that are no declarators. -/
theorem lockstep_keepsDeclared (hnodup : (documents.map (·.1)).Nodup)
    (hdocument : (document, tree) ∈ documents) (u : SymbolTable) :
    Lockstep Eq Eq tree document (fun _ _ => True) (fun _ _ _ => True)
      (fun _ t _ => KeepsDeclared documents u t) where
  keeps := keepsTokens_eq
  earlier _ _ _ := trivial
  skip h _ := h
  declared _ _ _ _ := trivial
  member {n n' above first type? type?'} _ hsited halike hnumbered hparts := by
    intro t t' h _
    dsimp only
    rw [bindElement_member t type? hparts]
    let ctx := t.memberContext document type? n
    let s : BodyState := { table := t, scopes := t.memberScopes document n }
    have K (b : Bool) :=
      @Binding.lockstep_keepsDeclared documents tree (ctx.assigning b) (ctx.assigning b) hnodup
        hdocument rfl u u
    exact (Binding.steps_memberParts K hsited halike hnumbered hparts s s ⟨h, h⟩ trivial).1

/-- The second pass declares at declarators only. -/
theorem KeepsDeclared.bindDocuments {rest : List (DocumentId × Tree)} {u : SymbolTable}
    (h : KeepsDeclared documents u t) (hnodup : (documents.map (·.1)).Nodup)
    (hconforms : ∀ d ∈ documents, d.2.root.element.Conforms) (hrest : rest ⊆ documents) :
    KeepsDeclared documents u (t.bindDocuments rest) :=
  List.foldlRecOn rest _ h fun t ht d hd =>
    @steps_bindAll _ _ _ _ _ _ _ (lockstep_keepsDeclared hnodup (hrest hd) u) _ 0 none none trivial
      _ _
      (d.2.sited (hconforms d (hrest hd))) (.refl (fun _ => rfl) (fun _ => rfl) _) d.2.numbered t t
      ht trivial

/-! ## Two orders -/

/-- The same documents in another order. No key is numbered, and no path names both a type and a
namespace. -/
structure Reorders (documents documents' : List (DocumentId × Tree)) : Prop where
  perm : documents.Perm documents'
  conforms : ∀ d ∈ documents', d.2.root.element.Conforms
  words : ∀ d ∈ documents', d.2.HasWords
  nodup : (documents'.map (·.1)).Nodup
  unnumbered : (build documents').IsUnnumbered
  apart : (build documents').PathsApart

theorem Reorders.nodup_left (h : Reorders documents documents') : (documents.map (·.1)).Nodup :=
  (h.perm.map _).nodup_iff.mpr h.nodup

theorem Reorders.conforms_left (h : Reorders documents documents') :
    ∀ d ∈ documents, d.2.root.element.Conforms :=
  fun d hd => h.conforms d (h.perm.subset hd)

theorem Reorders.words_left (h : Reorders documents documents') : ∀ d ∈ documents, d.2.HasWords :=
  fun d hd => h.words d (h.perm.subset hd)

theorem Coherent.isKeyed {count : Nat} (h : Coherent documents count t) : t.IsKeyed :=
  ⟨h.keys, h.kinds, h.layered⟩

theorem Coherent.bindsOnce {count : Nat} (h : Coherent documents count t) : t.BindsOnce := by
  intro place ids hmem
  obtain ⟨_, _, _, _, _, _, hnodup, _⟩ := h.names place ids hmem
  exact hnodup

namespace Reorders

variable (h : Reorders documents documents')
include h

theorem coherent :
    Coherent documents' (declareDocuments documents').symbols.length (build documents') :=
  coherent_build h.conforms h.words h.nodup

/-- Every symbol has its image in the table of the other order. -/
theorem mirrors_build : Mirrors (declareDocuments documents) (build documents') := by
  have hdeclared := extends_declareDocuments documents
  have hkeyed : (declareDocuments documents).IsKeyed :=
    ⟨hdeclared.sound.keys, hdeclared.sound.kinds, isLayered_declareDocuments documents⟩
  exact (mirrors_declareDocuments h.perm h.unnumbered h.words h.apart).after hkeyed
    h.coherent.isKeyed (prefix_build documents')
    (fun j data hdata hkind => (data?_build_iff hkind).mp hdata)
    (hasNoLocals_declareDocuments documents)

end Reorders

/-- What holds of the table in one order at any time, as seen from the end of the other order:
every symbol is there, too. -/
structure Follows (documents documents' : List (DocumentId × Tree)) (t : SymbolTable) : Prop where
  mirrors : Mirrors t (build documents')
  known : ∀ i data, t.data? i = some data → ∃ j, SameKey t (build documents') i j
  since : (declareDocuments documents).symbols <+: t.symbols

/-- What holds of the tables in both orders while the same document is bound. -/
structure Agree (documents documents' : List (DocumentId × Tree)) (document : DocumentId)
    (t t' : SymbolTable) : Prop extends Follows documents documents' t where
  since' : (declareDocuments documents').symbols <+: t'.symbols
  behind : t'.IsBehind (build documents')
  names : SameNames t t' document

theorem Follows.start (h : Reorders documents documents') :
    Follows documents documents' (declareDocuments documents) where
  mirrors := h.mirrors_build
  known i data hdata :=
  h.mirrors_build.forth i data hdata (hasNoLocals_declareDocuments documents i data hdata)
  since := List.prefix_rfl

/-- Only the symbols of a table count for what follows. -/
theorem Follows.of_symbols (h : Follows documents documents' t) (heq : u.symbols = t.symbols) :
    Follows documents documents' u := by
  have hgrows : Grows t u := .of_initial (heq ▸ List.prefix_rfl)
  have hdata {i : SymbolId} {data : SymbolData} (hdata : u.data? i = some data) : t.data? i =
      some data := by
    rwa [data?, ← heq]
  refine ⟨⟨fun i data hi hkind => ?_, fun j data hj hkind => ?_,
    fun i j data data' hi hj hkey => ?_⟩, fun i data hi => ?_, heq ▸ h.since⟩
  · obtain ⟨j, hij⟩ := h.mirrors.forth i data (hdata hi) hkind
    exact ⟨j, hij.grows hgrows (.refl _)⟩
  · obtain ⟨i, hij⟩ := h.mirrors.back j data hj hkind
    exact ⟨i, hij.grows hgrows (.refl _)⟩
  · exact (h.mirrors.twin i j data data' (hdata hi) hj hkey).grows hgrows (.refl _)
  · obtain ⟨j, hij⟩ := h.known i data (hdata hi)
    exact ⟨j, hij.grows hgrows (.refl _)⟩

theorem key_add_of_free {data : SymbolData} (h : ¬t.hasKey data.key) :
    (t.add data).2.data? (t.add data).1 = some data := by
  rw [data?_add, if_pos rfl, freshKey, if_neg h]

section Locals

variable {data data' : SymbolData} {j : SymbolId} (h : Follows documents documents' t)
  (hj : (build documents').data? j = some data') (hsame : data'.key = data.key)
include h hj hsame

/-- A local has its key for itself until it is declared: a symbol with the key would have been
declared at the same place. -/
theorem Follows.not_hasKey (ht : t.IsKeyed) (hnoted : t.IsNoted) {d : Declaration}
    (hkind : data'.key.kind = .localVariable) (hdeclarations : data'.declarations = [d])
    (hfresh : d.place ∉ t.declared.map (·.1)) : ¬t.hasKey data.key := by
  intro htaken
  obtain ⟨old, hmem, hold⟩ := List.mem_map.mp (hasKey_iff.mp htaken)
  obtain ⟨i, hi⟩ := List.getElem?_of_mem hmem
  have hkindOld : old.kind = .localVariable := by
    rw [← ht.kinds ⟨i⟩ old hi, hold, ← hsame, hkind]
  have htwin := h.mirrors.twin ⟨i⟩ j old data' hi hj (hsame.trans hold.symm)
  have hdeclared := htwin.declarations (hkindOld ▸ SymbolKind.isSingle_localVariable)
  rw [hdeclarations] at hdeclared
  have hmem := hnoted ⟨i⟩ old hi (by rw [hkindOld]; nofun) d (hdeclared ▸ List.mem_singleton_self d)
  exact hfresh (List.mem_map_of_mem hmem)

/-- A local that is declared in the other order, too, may be added under its key. -/
theorem Follows.add (hr : Reorders documents documents') (hkind : data.kind = .localVariable)
    (hfree : ¬t.hasKey data.key) (htwin : Twin (t.add data).2 (build documents') data data') :
    Follows documents documents' (t.add data).2 := by
  have hnew := key_add_of_free hfree
  have hgrows := Grows.add t data
  have hold {i : SymbolId} {old : SymbolData} (hi : (t.add data).2.data? i = some old) :
      i = (t.add data).1 ∧ old = data ∨ t.data? i = some old := by
    by_cases heq : i = (t.add data).1
    · rw [heq, hnew] at hi
      exact .inl ⟨heq, (Option.some.inj hi).symm⟩
    · rw [data?_add, if_neg heq] at hi
      exact .inr hi
  refine ⟨⟨fun i old hi hother => ?_, fun j old hj hother => ?_,
    fun i j old old' hi hj' hkeys => ?_⟩, fun i old hi => ?_,
    h.since.trans (List.prefix_append _ _)⟩
  · obtain ⟨_, rfl⟩ | hi := hold hi
    · exact absurd hkind hother
    · obtain ⟨j, hij⟩ := h.mirrors.forth i old hi hother
      exact ⟨j, hij.grows hgrows (.refl _)⟩
  · obtain ⟨i, hij⟩ := h.mirrors.back j old hj hother
    exact ⟨i, hij.grows hgrows (.refl _)⟩
  · obtain ⟨_, rfl⟩ | hi := hold hi
    · obtain rfl := hr.coherent.keys.eq_of_keyed ⟨old', hj', hkeys⟩ ⟨data', hj, hsame⟩
      obtain rfl := Option.some.inj (hj.symm.trans hj')
      exact htwin
    · exact (h.mirrors.twin i j old old' hi hj' hkeys).grows hgrows (.refl _)
  · obtain ⟨rfl, _⟩ | hi := hold hi
    · exact ⟨j, data.key, ⟨data, hnew, rfl⟩, data', hj, hsame⟩
    · obtain ⟨j, hij⟩ := h.known i old hi
      exact ⟨j, hij.grows hgrows (.refl _)⟩

end Locals

namespace Agree

variable (h : Agree documents documents' document t t')
include h

/-- A name that is bound to images is bound alike. -/
theorem bind {index : Nat} {ids ids' : List SymbolId} (hids : Matched (SameKey t t') ids ids')
    (hbehind : (t'.bind ⟨document, index⟩ ids').IsBehind (build documents')) :
    Agree documents documents' document (t.bind ⟨document, index⟩ ids)
      (t'.bind ⟨document, index⟩ ids') where
  toFollows := h.toFollows.of_symbols (symbols_bind ..)
  since' := by
    rw [symbols_bind]
    exact h.since'
  behind := hbehind
  names := h.names.bind hids

variable (hr : Reorders documents documents')
include hr

theorem isKeyed : t'.IsKeyed :=
  hr.coherent.isKeyed.before h.behind.symbols

theorem bindsOnce : t'.BindsOnce :=
  fun place ids hmem => hr.coherent.bindsOnce place ids (h.behind.bindings.subset hmem)

/-- Looking names up comes to the same in both tables. -/
theorem mirrored (ht : t.IsKeyed) : Mirrors t t' :=
  h.mirrors.before ht hr.coherent.isKeyed h.behind.symbols fun _ _ hdata hkind =>
    data?_of_initial h.since' ((data?_build_iff hkind).mp hdata)

/-- A local that is declared in both tables goes by the same key, and that is not taken. -/
theorem introduce (ht : t.IsKeyed) (hnoted : t.IsNoted) {data data' : SymbolData} {d : Declaration}
    (hkind : data.kind = .localVariable) (hkind' : data'.kind = .localVariable)
    (htwin : Twin t t' data data') (hdeclarations : data'.declarations = [d])
    (hfresh : d.place ∉ t.declared.map (·.1)) {label : String} (hlabel : data'.IsLabel label)
    (hkey : data.key = t.childKey data.container? .localVariable label)
    (hkey' : data'.key = t'.childKey data'.container? .localVariable label)
    (hbehind : ((t'.add data').2.declare d.place (t'.add data').1).IsBehind (build documents')) :
    Agree documents documents' document ((t.add data).2.declare d.place (t.add data).1)
      ((t'.add data').2.declare d.place (t'.add data').1) ∧
      SameKey ((t.add data).2.declare d.place (t.add data).1)
        ((t'.add data').2.declare d.place (t'.add data').1) (t.add data).1 (t'.add data').1 := by
  obtain ⟨outer?, hcontainer, hcontainer'⟩ := exists_hasKey? htwin.container
  rw [hcontainer.childKey_eq] at hkey
  rw [hcontainer'.childKey_eq] at hkey'
  have hsame : data'.key = data.key := hkey'.trans hkey.symm
  have hend : Grows (t'.add data').2 (build documents') := .of_initial hbehind.symbols
  -- The key is free at the end of the other order, where no key has been numbered.
  have hfree' : ¬t'.hasKey data'.key :=
    hr.unnumbered.not_hasKey hend hlabel hcontainer' (by rw [hkey', hkind'])
  have hdata' : (build documents').data? (t'.add data').1 = some data' :=
    data?_of_initial hbehind.symbols (key_add_of_free hfree')
  have hfree : ¬t.hasKey data.key :=
    h.toFollows.not_hasKey hdata' hsame ht hnoted (by rw [hkey', Key.kind_within]) hdeclarations
      hfresh
  have hgrows : Grows t' (t'.add data').2 := .add _ _
  have hfollows :=
    h.toFollows.add hdata' hsame hr hkind hfree (htwin.grows (.add _ _) (hgrows.trans hend))
  refine ⟨⟨hfollows.of_symbols rfl, h.since'.trans (List.prefix_append _ _), hbehind, ?_⟩, ?_⟩
  · exact h.names.grows ((Grows.add _ _).trans (.declare _ _ _)) (hgrows.trans (.declare _ _ _)) rfl
      rfl
  · exact ⟨data.key, ⟨data, key_add_of_free hfree, rfl⟩, data', key_add_of_free hfree', hsame⟩

end Agree

end SymbolTable

namespace Binding

open SymbolTable

variable {documents documents' : List (DocumentId × Tree)} {tree : Tree} {ctx ctx' : BodyContext}

/-- What holds while the names of a body are bound in both orders. -/
structure Agree (documents documents' : List (DocumentId × Tree)) (document : DocumentId)
    (tree : Tree) (k : Nat) (s s' : BodyState) : Prop where
  coherent : Coherent documents (declareDocuments documents).symbols.length document tree k s
  tables : SymbolTable.Agree documents documents' document s.table s'.table
  scopes : SameScopes s.table s'.table s.scopes s'.scopes
  locals : s'.locals = s.locals

theorem Agree.sameContext {document : DocumentId} {k : Nat} {s s' : BodyState}
    (h : Agree documents documents' document tree k s s')
    (hctx : SameContext (declareDocuments documents) (declareDocuments documents') ctx ctx') :
    SameContext s.table s'.table ctx ctx' :=
  hctx.grows (.of_initial h.tables.since) (.of_initial h.tables.since')

theorem Agree.mirrored {document : DocumentId} {k : Nat} {s s' : BodyState}
    (h : Agree documents documents' document tree k s s') (hr : Reorders documents documents') :
    Mirrors s.table s'.table :=
  h.tables.mirrored hr h.coherent.table.isKeyed

/-- A name bound to images keeps both orders in agreement. -/
theorem Agree.bind {document : DocumentId} {k l : Nat} {s s' : BodyState}
    (h : Agree documents documents' document tree k s s') {index : Nat} {ids ids' : List SymbolId}
    (hcoherent : Coherent documents (declareDocuments documents).symbols.length document tree l
      { s with table := s.table.bind ⟨document, index⟩ ids })
    (hids : Matched (SameKey s.table s'.table) ids ids')
    (hbehind : (s'.table.bind ⟨document, index⟩ ids').IsBehind (build documents')) :
    Agree documents documents' document tree l
      { s with table := s.table.bind ⟨document, index⟩ ids }
      { s' with table := s'.table.bind ⟨document, index⟩ ids' } where
  coherent := hcoherent
  tables := h.tables.bind hids hbehind
  scopes := h.scopes.grows (.bind _ _ _) (.bind _ _ _)
  locals := h.locals

section Lockstep

variable (hr : Reorders documents documents') (hdocument : (ctx.document, tree) ∈ documents)
  (hctx : SameContext (declareDocuments documents) (declareDocuments documents') ctx ctx')
include hr hdocument hctx

/-- A written type is bound to images in both orders. -/
theorem agree_type {n n' : PlacedNode} {above : List PlacedNode} {first : Nat}
    (hsited : Placed.Sited tree above [n.placed]) (halike : n.Alike Eq Eq n')
    (hnumbered : Placed.Numbered first [n'.placed]) (htype : n.kind.isType)
    (hrename : ∀ f ∈ n.placed.tokenFoci above, ¬f.IsRenamable) :
    Steps (fun _ _ s' => s'.table.IsBehind (build documents'))
      (fun k s s' => Agree documents documents' ctx.document tree k s s') first
      (first + Placed.tokenCount [n'.placed]) (type ctx n) (type ctx' n') := by
  intro s s' h hbehind
  have hcoherent : Coherent documents _ ctx.document tree _ (type ctx n s).2 :=
    coherent_type hdocument hr.words_left hsited halike hnumbered htype hrename h.coherent
  rw [type_run] at hbehind hcoherent ⊢
  rw [type_run]
  obtain ⟨hnone, hnone'⟩ | ⟨⟨name, token⟩, ⟨name', _⟩, hsome, hsome', htext, rfl⟩ :=
    rel_cases (rel_typeName? halike)
  · rw [hnone] at hcoherent ⊢
    rw [hnone']
    exact ⟨hcoherent, h.tables, h.scopes, h.locals⟩
  · rw [hsome] at hcoherent ⊢
    rw [hsome'] at hbehind ⊢
    dsimp only at htext hbehind ⊢
    rw [hctx.document, htext] at hbehind ⊢
    have hresolved := (h.mirrored hr).resolveType? h.coherent.table.isKeyed (h.tables.isKeyed hr)
      name.compactText (h.sameContext hctx).type?
    exact h.bind hcoherent (.toList hresolved) hbehind

/-- A simple name is bound to images in both orders. -/
theorem agree_simpleName {info info' : NodeInfo} {a : PlacedToken} {above : List PlacedNode}
    {arity? : Option Nat} (hsited : Placed.Sited tree above [.node info [.token a]])
    (hname : (TokenFocus.mk a (⟨info, [.token a]⟩ :: above)).isExpressionName) :
    Steps (fun _ _ s' => s'.table.IsBehind (build documents'))
      (fun k s s' => Agree documents documents' ctx.document tree k s s') a.index (a.index + 1)
      (simpleName ctx ⟨info, [.token a]⟩ arity?) (simpleName ctx' ⟨info', [.token a]⟩ arity?) := by
  intro s s' h hbehind
  have hcoherent : Coherent documents _ ctx.document tree (a.index + 1)
      (simpleName ctx ⟨info, [.token a]⟩ arity? s).2 :=
    coherent_simpleName hdocument hr.words_left hsited hname h.coherent
  have hkind := TokenFocus.IsRenamable.kind_eq (.inl hname)
  rw [simpleName_run ctx' arity? s' hkind, hctx.document] at hbehind ⊢
  rw [simpleName_run ctx arity? s hkind] at hcoherent ⊢
  split
  next htext =>
    rw [if_pos htext] at hcoherent
    exact ⟨hcoherent, h.tables, h.scopes, h.locals⟩
  next htext =>
    rw [if_neg htext] at hcoherent hbehind
    have hmeant :=
      matched_lookupSimple (h.mirrored hr) h.coherent.table.isKeyed (h.tables.isKeyed hr)
        (h.sameContext hctx) h.scopes a.text arity?
    exact h.bind hcoherent hmeant hbehind

/-- The name behind a point is bound to images in both orders. -/
theorem agree_memberName {info info' nameInfo nameInfo' : NodeInfo}
    {receiver receiver' : PlacedNode} {dot dot' a : PlacedToken} {above : List PlacedNode}
    {arity? : Option Nat}
    (hsited : Placed.Sited tree above
      [.node info [receiver.placed, .token dot, .node nameInfo [.token a]]])
    (hreceiver : receiver.Alike Eq Eq receiver')
    (hname :
      (TokenFocus.mk a
        (⟨nameInfo, [.token a]⟩ ::
          ⟨info, [receiver.placed, .token dot, .node nameInfo [.token a]]⟩ ::
          above)).isExpressionName) :
    Steps (fun _ _ s' => s'.table.IsBehind (build documents'))
      (fun k s s' => Agree documents documents' ctx.document tree k s s') a.index (a.index + 1)
      (memberName ctx ⟨info, [receiver.placed, .token dot, .node nameInfo [.token a]]⟩ arity?)
      (memberName ctx' ⟨info', [receiver'.placed, .token dot', .node nameInfo' [.token a]]⟩
        arity?) := by
  intro s s' h hbehind
  have hcoherent : Coherent documents _ ctx.document tree (a.index + 1)
      (memberName ctx ⟨info, [receiver.placed, .token dot, .node nameInfo [.token a]]⟩ arity?
        s).2 :=
    coherent_memberName hdocument hsited hname h.coherent
  have hkind := TokenFocus.IsRenamable.kind_eq (.inl hname)
  rw [memberName_run ctx' arity? s' hkind, hctx.document] at hbehind ⊢
  rw [memberName_run ctx arity? s hkind] at hcoherent ⊢
  split
  next htext =>
    rw [if_pos htext] at hcoherent
    exact ⟨hcoherent, h.tables, h.scopes, h.locals⟩
  next htext =>
    rw [if_neg htext] at hcoherent hbehind
    have hmeant := matched_accessed (h.mirrored hr) h.coherent.table.isKeyed (h.tables.isKeyed hr)
      (h.sameContext hctx) h.tables.names h.coherent.table.bindsOnce (h.tables.bindsOnce hr)
      hreceiver
      a.text arity?
    exact h.bind hcoherent hmeant hbehind

/-- Locals are images of each other in both orders. -/
theorem agree_declareLocal
    (houter : ∀ outer ∈ ctx.member? <|> ctx.type?,
      outer.index < (declareDocuments documents).symbols.length)
    {declaration statement n n' : PlacedNode} {above : List PlacedNode} {first : Nat}
    (type : LocalType) {s s' : BodyState}
    (hsited : Placed.Sited tree (declaration :: statement :: above) [n.placed])
    (hstatement : statement.kind = .localDeclarationStatement) (halike : n.Alike Eq Eq n')
    (hnumbered : Placed.Numbered first [n'.placed]) (hkind : n.kind = .variableDeclarator)
    (hvalue : BindsValue (fun k s s' => Agree documents documents' ctx.document tree k s s')
      ctx.document ctx'.document first n n' s s')
    (h : Agree documents documents' ctx.document tree (first + Placed.tokenCount [n'.placed]) s s')
    (hbehind : (declareLocal ctx' type n' s').2.table.IsBehind (build documents')) :
    Agree documents documents' ctx.document tree (first + Placed.tokenCount [n'.placed])
      (declareLocal ctx type n s).2 (declareLocal ctx' type n' s').2 := by
  have hnodup := hr.nodup_left
  rw [hctx.document] at hvalue
  have hvalue := hvalue.imp fun _ _ _ hsim => hsim.coherent
  have hcoherent : Coherent documents _ ctx.document tree _ (declareLocal ctx type n s).2 :=
    coherent_declareLocal hdocument hnodup houter type hsited hstatement halike hnumbered hkind
      hvalue h.coherent
  rw [declareLocal_run] at hbehind hcoherent ⊢
  rw [declareLocal_run]
  obtain ⟨hnone, hnone'⟩ | ⟨name, _, hname, hname', rfl⟩ := rel_cases (halike.name? keepsTokens_eq)
  · rw [hnone] at hcoherent ⊢
    rw [hnone']
    exact ⟨hcoherent, h.tables, h.scopes, h.locals⟩
  · rw [hname] at hcoherent ⊢
    rw [hname'] at hbehind ⊢
    dsimp only at hbehind hcoherent ⊢
    have hindex : n'.index = n.index := halike.index.symm
    rw [hctx.document, hindex] at hbehind ⊢
    have hfresh :=
      Coherent.notMem_declared hnodup hdocument hsited hstatement halike hnumbered hkind
        hvalue h.coherent.table hname
    have hdeclared : (localData ctx' type n' name s').declarations =
        [SymbolTable.declaration ctx.document n name] := by
      rw [localData, SymbolTable.declaration, hctx.document, hindex]
      rfl
    have htypeName :=
      localTypeName?_eq (h.mirrored hr) h.coherent.table.isKeyed (h.tables.isKeyed hr)
        (h.sameContext hctx) h.tables.names h.coherent.table.bindsOnce (h.tables.bindsOnce hr)
        halike type
    have htwin : Twin s.table s'.table (localData ctx type n name s)
        (localData ctx' type n' name s') :=
      ⟨rfl, htypeName, rfl, (h.sameContext hctx).container?, fun _ => hdeclared⟩
    obtain ⟨htables, hnew⟩ :=
      h.tables.introduce hr h.coherent.table.isKeyed h.coherent.table.noted rfl
        rfl htwin hdeclared hfresh ⟨s'.locals.count name.text, rfl⟩ (by rw [h.locals]; rfl) rfl
        hbehind
    refine ⟨hcoherent, htables, ?_, congrArg (name.text :: ·) h.locals⟩
    exact (h.scopes.grows ((Grows.add _ _).trans (.declare _ _ _))
      ((Grows.add _ _).trans (.declare _ _ _))).insert name.text hnew

/-- A body is bound in both orders alike. -/
theorem lockstep_agree
    (houter : ∀ outer ∈ ctx.member? <|> ctx.type?,
      outer.index < (declareDocuments documents).symbols.length) :
    Lockstep Eq Eq tree ctx ctx' Eq (fun _ _ s' => s'.table.IsBehind (build documents'))
      (fun k s s' => Agree documents documents' ctx.document tree k s s') := by
  have L := lockstep_coherent hdocument hr.words_left hr.nodup_left houter
  constructor
  case keeps => exact keepsTokens_eq
  case earlier =>
    exact fun hpasses _ hbehind => (hpasses.records'.isBehind hpasses.symbols').trans hbehind
  case skip =>
    exact fun {_ _ _ s'} h hkl => ⟨@(L).skip _ _ _ s' h.coherent hkl, h.tables, h.scopes, h.locals⟩
  case enter =>
    exact fun {_ _ s'} h => ⟨@(L).enter _ _ s' h.coherent, h.tables, .cons .nil h.scopes, h.locals⟩
  case leave =>
    exact fun {_ _ s'} h => ⟨@(L).leave _ _ s' h.coherent, h.tables, h.scopes.tail, h.locals⟩
  case type => exact agree_type hr hdocument hctx
  case name =>
    intro info info' a a' above arity? hsited ha hname
    obtain rfl := ha
    exact agree_simpleName hr hdocument hctx hsited hname
  case memberName =>
    intro info info' nameInfo nameInfo' receiver receiver' dot dot' a a' above arity? hsited
      hreceiver
      ha hname
    obtain rfl := ha
    exact agree_memberName hr hdocument hctx hsited hreceiver hname
  case localType =>
    exact fun _ halike _ h => (localType_eq (h.sameContext hctx) h.tables.names halike).symm
  case declareLocal =>
    intro declaration statement n n' above first type type' s s' hsited hstatement halike hnumbered
      hkind htyped hvalue h hbehind
    obtain rfl := htyped
    exact agree_declareLocal hr hdocument hctx houter type hsited hstatement halike hnumbered hkind
      hvalue h hbehind

end Lockstep

end Binding

/-! ## Documents -/

/-- The functions need to agree on the members of the list only. -/
theorem rel_filterMap_of_mem {α β γ δ : Type} {r : α → β → Prop} {r' : γ → δ → Prop}
    {f : α → Option γ} {g : β → Option δ} {as : List α} {bs : List β} (h : List.Forall₂ r as bs)
    (hfg : ∀ a ∈ as, ∀ b, r a b → Option.Rel r' (f a) (g b)) :
    List.Forall₂ r' (as.filterMap f) (bs.filterMap g) := by
  have hmem : List.Forall₂ (fun a b => a ∈ as ∧ r a b) as bs :=
    (List.forall₂_and_left as bs).mpr ⟨fun _ ha => ha, h⟩
  exact List.rel_filterMap (fun a b hab => hfg a hab.1 b hab.2) hmem

namespace SymbolTable

variable {documents documents' : List (DocumentId × Tree)} {t t' : SymbolTable}
  {document : DocumentId} {tree : Tree}

/-- The names of parameters mean images, if parameters that are alike declare images of one
name. -/
theorem sameScopes_parameterFrame_of {leaf : PlacedToken → PlacedToken → Prop}
    {node : Nat → Nat → Prop} {n n' : PlacedNode} {above : List PlacedNode}
    (hsited : Placed.Sited tree above [n.placed]) (ha : n.Alike leaf node n')
    (himages : ∀ (p p' : PlacedNode) (above : List PlacedNode),
      Placed.Sited tree above [p.placed] → p.kind = .parameter → p.Alike leaf node p' →
      Option.Rel (fun i j => SameKey t t' i j ∧ ∃ data data', t.data? i = some data ∧
          t'.data? j = some data' ∧ data'.name = data.name)
        (t.declared? ⟨document, p.index⟩) (t'.declared? ⟨document, p'.index⟩)) :
    SameScopes t t' [t.parameterFrame document n] [t'.parameterFrame document n'] := by
  refine .cons
    (List.rel_reverse
      (rel_filterMap_of_mem (r := PlacedNode.Alike leaf node) ?_ fun p hp p' hpp' => ?_)) .nil
  · obtain ⟨hnone, hnone'⟩ | ⟨list, list', hlist, hlist', hlists⟩ :=
      rel_cases (ha.child? .parameterList)
    · rw [hnone, hnone']
      exact .nil
    · rw [hlist, hlist']
      exact hlists.childNodes
  cases hlist : n.child? .parameterList with
  | none =>
    rw [hlist] at hp
    exact absurd hp List.not_mem_nil
  | some list =>
    rw [hlist] at hp
    have hp : p.placed ∈ list.children := PlacedNode.mem_childNodes.mp hp
    obtain ⟨hmem, hkind⟩ := PlacedNode.child?_some hlist
    have hlistSited : Placed.Sited tree (n :: above) [list.placed] :=
      hsited.children.mem (PlacedNode.mem_childNodes.mp hmem)
    refine rel_bind (fun i j hij => ?_) (himages p p' _ (hlistSited.children.mem hp)
      (hlistSited.kind_of_mem_parameterList hkind hp) hpp')
    obtain ⟨hsame, data, data', hdata, hdata', hname⟩ := hij
    rw [hdata, hdata']
    exact .some ⟨hname, hsame⟩

/-- What holds while the members of a document are bound in both orders. -/
structure AgreeOn (documents documents' : List (DocumentId × Tree)) (document : DocumentId)
    (tree : Tree) (k : Nat) (t t' : SymbolTable) :
    Prop extends Agree documents documents' document t t' where
  coherent : Coherent documents (declareDocuments documents).symbols.length t
  passed : PassedLocals document tree k t
  kept : KeepsDeclared documents (declareDocuments documents) t
  kept' : KeepsDeclared documents (declareDocuments documents') t'

namespace AgreeOn

variable {k : Nat} (h : AgreeOn documents documents' document tree k t t')
  (hr : Reorders documents documents') (hdocument : (document, tree) ∈ documents)
include h hr hdocument

/-- Nodes declare images in both orders. -/
theorem rel_declared? {f : Focus} (hf : f ∈ tree.nodes)
    (hkind : f.node.kind ≠ .variableDeclarator) :
    Option.Rel (SameKey (declareDocuments documents) (declareDocuments documents'))
      (t.declared? ⟨document, f.node.index⟩) (t'.declared? ⟨document, f.node.index⟩) := by
  rw [h.kept _ hdocument f hf hkind, h.kept' _ hdocument f hf hkind]
  exact rel_declared?_declareDocuments hr.perm hr.unnumbered hr.nodup _

/-- The parameters of a method are images in both orders. -/
theorem sameScopes_parameterFrame {n n' : PlacedNode} {above : List PlacedNode}
    (hsited : Placed.Sited tree above [n.placed]) (halike : n.Alike Eq Eq n') :
    SameScopes t t' [t.parameterFrame document n] [t'.parameterFrame document n'] := by
  refine sameScopes_parameterFrame_of hsited halike fun p p' above' hsited hkind hpp' => ?_
  have hindex : p'.index = p.index := hpp'.index.symm
  have hnot : p.kind ≠ .variableDeclarator := by
    rw [hkind]
    nofun
  rw [hindex]
  have hrel :=
    rel_sameKey_grows (h.rel_declared? hr hdocument hsited.focus_mem hnot) (.of_initial h.since)
      (.of_initial h.since')
  refine rel_imp (fun i j hij => ?_) hrel
  obtain ⟨data, data', hdata, hdata', _, _, htwin⟩ :=
    (h.mirrored hr h.coherent.isKeyed).exists_data h.coherent.isKeyed (h.isKeyed hr) hij
  exact ⟨hij, data, data', hdata, hdata', htwin.name⟩

omit hdocument in
/-- The names in scope at the start of a member are images in both orders. -/
theorem sameScopes_memberScopes (hdocument : (document, tree) ∈ documents) {n n' : PlacedNode}
    {above : List PlacedNode} (hsited : Placed.Sited tree above [n.placed])
    (halike : n.Alike Eq Eq n') :
    SameScopes t t' (t.memberScopes document n) (t'.memberScopes document n') := by
  rw [memberScopes, memberScopes, halike.kind]
  split
  next => exact h.sameScopes_parameterFrame hr hdocument hsited halike
  next => exact h.sameScopes_parameterFrame hr hdocument hsited halike
  next => exact .nil

/-- A member stands at the same place in both orders. -/
theorem sameContext_memberContext {type? type?' : Option SymbolId}
    (htype : Option.Rel (SameKey (declareDocuments documents) (declareDocuments documents')) type?
      type?') {n n' : PlacedNode} {above : List PlacedNode}
    (hsited : Placed.Sited tree above [n.placed]) (halike : n.Alike Eq Eq n')
    (hkind : n.kind ≠ .variableDeclarator) :
    SameContext (declareDocuments documents) (declareDocuments documents')
      (t.memberContext document type? n) (t'.memberContext document type?' n') := by
  refine ⟨rfl, rfl, htype, ?_⟩
  have hindex : n'.index = n.index := halike.index.symm
  rw [memberContext, memberContext, halike.kind, hindex]
  dsimp only
  split
  next => exact .none
  next => exact h.rel_declared? hr hdocument hsited.focus_mem hkind

end AgreeOn

/-- A document is bound in both orders alike. -/
theorem lockstep_agree (hr : Reorders documents documents')
    (hdocument : (document, tree) ∈ documents) :
    Lockstep Eq Eq tree document
      (Option.Rel (SameKey (declareDocuments documents) (declareDocuments documents')))
      (fun _ _ t' => t'.IsBehind (build documents'))
      (fun k t t' => AgreeOn documents documents' document tree k t t') where
  keeps := keepsTokens_eq
  earlier hpasses _ hbehind := (hpasses.records'.isBehind hpasses.symbols').trans hbehind
  skip h hkl := ⟨h.toAgree, h.coherent, h.passed.weaken hkl, h.kept, h.kept'⟩
  declared {n n' above k t t'} hsited halike hkind h := by
    have hindex : n'.index = n.index := halike.index.symm
    rw [hindex]
    refine h.rel_declared? hr hdocument hsited.focus_mem ?_
    rintro hdeclarator
    obtain hkind | hkind := hkind <;> cases hkind.symm.trans hdeclarator
  member {n n' above first type? type?'} hown hsited halike hnumbered hparts := by
    intro t t' h hbehind
    have hparts' : n'.kind.hasParts := halike.kind ▸ hparts
    dsimp only at hbehind ⊢
    rw [bindElement_member t' type?' hparts'] at hbehind ⊢
    rw [bindElement_member t type? hparts]
    let ctx := t.memberContext document type? n
    let ctx' := t'.memberContext document type?' n'
    let s : BodyState := { table := t, scopes := t.memberScopes document n }
    let s' : BodyState := { table := t', scopes := t'.memberScopes document n' }
    have hnot : n.kind ≠ .variableDeclarator := by
      rintro heq
      rw [heq] at hparts
      exact Bool.false_ne_true hparts
    have hctx := h.sameContext_memberContext hr hdocument hown hsited halike hnot
    have houter : ∀ outer ∈ ctx.member? <|> ctx.type?,
        outer.index < (declareDocuments documents).symbols.length := by
      intro outer houter
      obtain ⟨hnone, _⟩ | ⟨i, j, hi, _, _, ⟨_, hdata, _⟩, _⟩ := rel_cases hctx.container?
      · rw [hnone] at houter
        cases houter
      · obtain rfl := Option.some.inj (houter.symm.trans hi)
        exact (List.getElem?_eq_some_iff.mp hdata).1
    have hstart : Binding.Agree documents documents' document tree first s s' :=
      ⟨⟨h.coherent, h.passed, t.namesScopes_memberScopes document n⟩, h.toAgree,
        h.sameScopes_memberScopes hr hdocument hsited halike, rfl⟩
    have L (b : Bool) : Binding.Lockstep Eq Eq tree (ctx.assigning b) (ctx'.assigning b) Eq
        (fun _ _ s' => s'.table.IsBehind (build documents'))
        (fun k s s' => Binding.Agree documents documents' document tree k s s') :=
      Binding.lockstep_agree hr hdocument ⟨rfl, rfl, hctx.type?, hctx.member?⟩ houter
    have K (b : Bool) :=
      @Binding.lockstep_keepsDeclared documents tree (ctx.assigning b) (ctx'.assigning b)
        hr.nodup_left hdocument rfl (declareDocuments documents) (declareDocuments documents')
    have hend := Binding.steps_memberParts L hsited halike hnumbered hparts s s' hstart hbehind
    obtain ⟨hkept, hkept'⟩ :=
      Binding.steps_memberParts K hsited halike hnumbered hparts s s' ⟨h.kept, h.kept'⟩ trivial
    exact ⟨hend.tables, hend.coherent.table, hend.coherent.passed, hkept, hkept'⟩

/-! ## Whole projects -/

/-- No name in a document is bound before the document is. -/
theorem bound_bindDocuments_of_other {rest : List (DocumentId × Tree)}
    (hother : ∀ d ∈ rest, document ≠ d.1) (index : Nat) :
    ((declareDocuments documents).bindDocuments rest).bound ⟨document, index⟩ = [] := by
  rw [(continues_bindDocuments _ rest).bound_eq hother, bound, bindings_declareDocuments]
  rfl

/-- The documents in front of one in a list, and those behind it, are others. -/
theorem forall_ne_of_nodup {before after : List (DocumentId × Tree)}
    (h : ((before ++ (document, tree) :: after).map (·.1)).Nodup) :
    (∀ d ∈ before, document ≠ d.1) ∧ ∀ d ∈ after, document ≠ d.1 := by
  rw [List.map_append, List.map_cons, List.nodup_append, List.nodup_cons] at h
  obtain ⟨_, ⟨hafter, _⟩, hdisjoint⟩ := h
  refine ⟨fun d hd heq => ?_, fun d hd heq => hafter ?_⟩
  · exact hdisjoint d.1 (List.mem_map_of_mem hd) document List.mem_cons_self heq.symm
  · exact List.mem_map.mpr ⟨d, hd, heq.symm⟩

theorem build_split {before after : List (DocumentId × Tree)}
    (hdocuments : documents = before ++ (document, tree) :: after) :
    Continues after (((declareDocuments documents).bindDocuments before).bindDocument document tree)
      (build documents) := by
  have hsplit : build documents =
      (((declareDocuments documents).bindDocuments before).bindDocument document tree).bindDocuments
        after :=
    (congrArg (declareDocuments documents).bindDocuments hdocuments).trans (bindDocuments_append ..)
  rw [hsplit]
  exact continues_bindDocuments _ after

namespace Reorders

variable (hr : Reorders documents documents')
include hr

/-- Where a document stands in the two orders does not matter for what is bound in it. -/
theorem agreeOn_bindDocument {before after before' after' : List (DocumentId × Tree)}
    (hdocuments : documents = before ++ (document, tree) :: after)
    (hdocuments' : documents' = before' ++ (document, tree) :: after')
    (hfollows : Follows documents documents' ((declareDocuments documents).bindDocuments before))
    (hcoherent : Coherent documents (declareDocuments documents).symbols.length
      ((declareDocuments documents).bindDocuments before)) :
    ∃ k,
      AgreeOn documents documents' document tree k
        (((declareDocuments documents).bindDocuments before).bindDocument document tree)
        (((declareDocuments documents').bindDocuments before').bindDocument document tree) := by
  have hmem : (document, tree) ∈ documents :=
    hdocuments ▸ List.mem_append_right _ List.mem_cons_self
  have hconforms := hr.conforms _ (hr.perm.subset hmem)
  obtain ⟨hbefore, _⟩ := forall_ne_of_nodup (hdocuments ▸ hr.nodup_left)
  obtain ⟨hbefore', _⟩ := forall_ne_of_nodup (hdocuments' ▸ hr.nodup)
  have hbehind := (build_split hdocuments').isBehind
  have hstep :=
    continues_bindDocuments ((declareDocuments documents').bindDocuments before') [(document, tree)]
  have hstart : AgreeOn documents documents' document tree 0
      ((declareDocuments documents).bindDocuments before)
      ((declareDocuments documents').bindDocuments before') := by
    refine ⟨⟨hfollows, (continues_bindDocuments _ before').isBehind.symbols,
      hstep.isBehind.trans hbehind, fun index => ?_⟩, hcoherent, ?_, ?_, ?_⟩
    · rw [bound_bindDocuments_of_other hbefore, bound_bindDocuments_of_other hbefore']
      exact .nil
    · intro data hdata hkind d hd hdocument
      obtain ⟨new, hsymbols, hnew⟩ :=
        (continues_bindDocuments (declareDocuments documents) before).symbols
      rw [hsymbols] at hdata
      obtain hdata | hdata := List.mem_append.mp hdata
      · obtain ⟨i, hi⟩ := List.getElem?_of_mem hdata
        exact absurd hkind (hasNoLocals_declareDocuments documents ⟨i⟩ data hi)
      · obtain ⟨e, he, heq⟩ := (hnew data hdata).2 d hd
        exact absurd (hdocument.symm.trans heq) (hbefore e he)
    · refine KeepsDeclared.bindDocuments (fun _ _ _ _ _ => rfl) hr.nodup_left hr.conforms_left ?_
      rw [hdocuments]
      exact List.subset_append_left _ _
    · refine KeepsDeclared.bindDocuments (fun _ _ _ _ _ => rfl) hr.nodup_left hr.conforms_left ?_
      refine fun d hd => hr.perm.symm.subset ?_
      rw [hdocuments']
      exact List.mem_append_left _ hd
  have hsteps :=
    @steps_bindAll _ _ _ _ _ _ _ (lockstep_agree hr hmem) _ 0 none none .none _ _
      (tree.sited hconforms)
    (.refl (fun _ => rfl) (fun _ => rfl) _) tree.numbered
  exact ⟨_, hsteps _ _ hstart hbehind⟩

/-- Whatever documents have been bound, every symbol is known at the end of the other order. -/
theorem follows_bindDocuments (before : List (DocumentId × Tree)) {after : List (DocumentId × Tree)}
    (hdocuments : documents = before ++ after) :
    Follows documents documents' ((declareDocuments documents).bindDocuments before) ∧
      Coherent documents (declareDocuments documents).symbols.length
        ((declareDocuments documents).bindDocuments before) := by
  induction before using List.reverseRecOn generalizing after with
  | nil => exact ⟨.start hr, coherent_declareDocuments hr.nodup_left⟩
  | append_singleton before d ih =>
    rw [List.append_assoc, List.singleton_append] at hdocuments
    obtain ⟨hfollows, hcoherent⟩ := ih hdocuments
    have hmem : d ∈ documents := hdocuments ▸ List.mem_append_right _ List.mem_cons_self
    obtain ⟨before', after', hdocuments'⟩ := List.append_of_mem (hr.perm.subset hmem)
    obtain ⟨_, hagree⟩ := hr.agreeOn_bindDocument hdocuments hdocuments' hfollows hcoherent
    rw [bindDocuments_append]
    exact ⟨hagree.toFollows, hagree.coherent⟩

theorem follows_build : Follows documents documents' (build documents) ∧
    Coherent documents (declareDocuments documents).symbols.length (build documents) :=
  hr.follows_bindDocuments documents (List.append_nil documents).symm

/-- A symbol of one order has an image in the other one. -/
theorem exists_image {i : SymbolId} {data : SymbolData}
    (hi : (build documents).data? i = some data) :
    ∃ j data', (build documents').data? j = some data' ∧ data'.key = data.key ∧
      data'.kind = data.kind ∧ Twin (build documents) (build documents') data data' := by
  obtain ⟨hfollows, hcoherent⟩ := hr.follows_build
  obtain ⟨j, hij⟩ := hfollows.known i data hi
  obtain ⟨data₂, data', hi', hj, himage⟩ :=
    hfollows.mirrors.exists_data hcoherent.isKeyed hr.coherent.isKeyed hij
  obtain rfl := Option.some.inj (hi.symm.trans hi')
  exact ⟨j, data', hj, himage⟩

/-- At the end of both orders every name is bound to images. -/
theorem matched_bound (place : Place) :
    Matched (SameKey (build documents) (build documents')) ((build documents).bound place)
      ((build documents').bound place) := by
  obtain ⟨document, index⟩ := place
  by_cases hknown : document ∈ documents.map (·.1)
  · obtain ⟨⟨_, tree⟩, hmem, rfl⟩ := List.mem_map.mp hknown
    obtain ⟨before, after, hdocuments⟩ := List.append_of_mem hmem
    obtain ⟨before', after', hdocuments'⟩ := List.append_of_mem (hr.perm.subset hmem)
    obtain ⟨hfollows, hcoherent⟩ := hr.follows_bindDocuments before hdocuments
    obtain ⟨_, hagree⟩ := hr.agreeOn_bindDocument hdocuments hdocuments' hfollows hcoherent
    have hend := build_split hdocuments
    have hend' := build_split hdocuments'
    rw [hend.bound_eq (forall_ne_of_nodup (hdocuments ▸ hr.nodup_left)).2,
      hend'.bound_eq (forall_ne_of_nodup (hdocuments' ▸ hr.nodup)).2]
    exact (hagree.names index).imp fun _ _ hij => hij.grows (.of_initial hend.isBehind.symbols)
      (.of_initial hend'.isBehind.symbols)
  · have hother (d : DocumentId × Tree) (hd : d ∈ documents) : document ≠ d.1 :=
      fun heq => hknown (List.mem_map.mpr ⟨d, hd, heq.symm⟩)
    have hnone : (build documents).bound ⟨document, index⟩ = [] :=
      bound_bindDocuments_of_other hother index
    have hnone' : (build documents').bound ⟨document, index⟩ = [] :=
      bound_bindDocuments_of_other (fun d hd => hother d (hr.perm.symm.subset hd)) index
    rw [hnone, hnone']
    exact .nil

/-- No key is numbered in the other order either. -/
theorem symm : Reorders documents' documents := by
  refine ⟨hr.perm.symm, hr.conforms_left, hr.words_left, hr.nodup_left,
    fun i data hi => ?_, fun i i' outer space hi hi' hkind hkind' => ?_⟩
  · obtain ⟨j, data', hj, hkey, hkind, htwin⟩ := hr.exists_image hi
    obtain ⟨label, hlabel, hasked⟩ := hr.unnumbered j data' hj
    obtain ⟨outer?, hcontainer, hcontainer'⟩ := exists_hasKey? htwin.container
    refine ⟨label, ?_, ?_⟩
    · simp only [SymbolData.IsLabel, SymbolData.label, hkind, htwin.name, htwin.arity] at hlabel
      exact hlabel
    · rw [hcontainer.childKey_eq, ← hkey, hasked, hcontainer'.childKey_eq, hkind]
  · obtain ⟨j, outer', hj, hkey, hsame, _⟩ := hr.exists_image hi
    obtain ⟨j', space', hj', hkey', hsame', _⟩ := hr.exists_image hi'
    rw [← hkey, ← hkey']
    exact hr.apart j j' outer' space' hj hj' (hsame.trans hkind) (hsame'.trans hkind')

end Reorders

end SymbolTable

end AutoProperty
