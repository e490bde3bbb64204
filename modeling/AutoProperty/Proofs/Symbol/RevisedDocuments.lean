import AutoProperty.Proofs.Symbol.Reordering
import AutoProperty.Proofs.Symbol.RevisedBodies

/-! # Binding a revised project as a whole

The second passes over both versions of a project go side by side: members that are kept are
bound alike, and what is taken out or put in between does not matter.
-/

namespace AutoProperty

namespace SymbolTable

variable {R : Revisions} {r : Revision} {t u : SymbolTable} {above : List PlacedNode}
  {n n' : PlacedNode} {k : Nat} {type? type?' : Option SymbolId}

/-- Nodes that are still there declare images. -/
theorem Versions.rel_declared? (h : Versions R t u) (hR : R.Sound) (hr : r ∈ R.revisions)
    {f : Focus} (hf : f ∈ r.tree.nodes) (hkind : f.node.kind ≠ .variableDeclarator) {i' : Nat}
    (hi' : r.node f.node.index i') :
    Option.Rel (SameKey (declareDocuments R.before) (declareDocuments R.after))
      (t.declared? ⟨r.document, f.node.index⟩) (u.declared? ⟨r.document, i'⟩) := by
  obtain ⟨hdeclared, hdeclared'⟩ := h.kept r hr f hf hkind i' hi'
  rw [hdeclared, hdeclared']
  exact (redeclares_declareDocuments hR.toSpares).noted r hr f hf hkind i' hi'

section

variable (hR : R.Sound) (hr : r ∈ R.revisions)
include hR hr

/-- The parameters of a method are images. -/
theorem Versions.sameScopes_memberScopes (h : Versions R t u)
    (hsited : Placed.Sited r.tree above [n.placed]) (ha : n.Alike r.leaf r.node n') :
    SameScopes t u (t.memberScopes r.document n) (u.memberScopes r.document n') := by
  have hframe : SameScopes t u [t.parameterFrame r.document n]
      [u.parameterFrame r.document n'] := by
    refine sameScopes_parameterFrame_of hsited ha fun p p' above' hsited hkind hpp' => ?_
    have hnot : p.kind ≠ .variableDeclarator := by
      rw [hkind]
      decide
    have hrel :=
      rel_sameKey_grows (h.rel_declared? hR hr hsited.focus_mem hnot hpp'.index)
        (.of_initial h.since) (.of_initial h.since')
    refine rel_imp (fun i j hij => ?_) hrel
    obtain ⟨data, data', hdata, hdata', _, _, hresembles⟩ :=
      h.images.exists_data h.keyed h.keyed' hij
    exact ⟨hij, data, data', hdata, hdata', hresembles.name⟩
  rw [memberScopes, memberScopes, ha.kind]
  split
  next => exact hframe
  next => exact hframe
  next => exact .nil

/-- A member stands at the same place in both versions. -/
theorem Versions.sameContext_memberContext (h : Versions R t u)
    (htype : Option.Rel (SameKey (declareDocuments R.before) (declareDocuments R.after)) type?
      type?') (hsited : Placed.Sited r.tree above [n.placed]) (hindex : r.node n.index n'.index)
    (hkind' : n'.kind = n.kind) (hparts : n.kind.hasParts) :
    SameContext (declareDocuments R.before) (declareDocuments R.after)
      (t.memberContext r.document type? n) (u.memberContext r.document type?' n') := by
  refine ⟨rfl, rfl, htype, ?_⟩
  rw [memberContext, memberContext, hkind']
  dsimp only
  split
  next => exact .none
  next =>
    refine h.rel_declared? hR hr hsited.focus_mem (fun heq => ?_) hindex
    rw [show n.kind = _ from heq] at hparts
    exact Bool.false_ne_true hparts

/-- A member that is kept is bound alike in both versions. -/
theorem steps_keptMember
    (htype : Option.Rel (SameKey (declareDocuments R.before) (declareDocuments R.after)) type?
      type?') (hown : type? = (declareDocuments R.before).typeAround? r.document above)
    (hsited : Placed.Sited r.tree above [n.placed]) (hkept : r.change.kept n.placed)
    (ha : n.Alike r.leaf r.node n') (hn : Placed.Numbered k [n'.placed])
    (hparts : n.kind.hasParts) :
    Steps (LeadsTo R r (build R.before).symbols) (fun _ => Versions R) k
      (k + Placed.tokenCount [n'.placed]) (·.bindElement r.document type? n.placed)
      (·.bindElement r.document type?' n'.placed) := by
  have hF := hR.fits hr
  intro t u h hleads
  have hparts' : n'.kind.hasParts := ha.kind ▸ hparts
  dsimp only at hleads ⊢
  rw [bindElement_member t type? hparts, bindElement_member u type?' hparts'] at *
  let s : BodyState := { table := t, scopes := t.memberScopes r.document n }
  let s' : BodyState := { table := u, scopes := u.memberScopes r.document n' }
  have hctx := h.sameContext_memberContext hR hr htype hsited ha.index ha.kind hparts
  by_cases hfield : n.kind = .fieldDeclaration
  · have hframes : s.scopes.length = 0 ∧ s'.scopes.length = 0 := by
      simp only [s, s', memberScopes, ha.kind, hfield, List.length_nil, and_self]
    have hnone := hsited.undeclaring_field hfield
    have hsteps :=
      Binding.steps_bare_of_addsNothing
        (Binding.traces_memberParts fun b => Binding.addsNothing_traces hnone _)
      fun start =>
      Binding.steps_memberParts (fun b => Binding.lockstep_start hR hr rfl hctx b start) hsited ha
        hn hparts
    exact (hsteps s s' ⟨h, hframes.1, hframes.2⟩ hleads).versions
  · have hlocals : ∀ outer?,
        (declareDocuments R.before).HasKey? ((t.memberContext r.document type? n).member? <|> type?)
          outer? →
        KeepsLocals R.gone outer? := by
      intro outer? houter
      have hmember : (t.memberContext r.document type? n).member? =
          (declareDocuments R.before).declared? ⟨r.document, n.index⟩ := by
        rw [memberContext, if_neg hfield]
        refine (h.kept r hr _ hsited.focus_mem (fun heq => ?_) _ ha.index).1
        rw [show n.kind = _ from heq] at hparts
        exact Bool.false_ne_true hparts
      rw [hmember, hown] at houter
      exact hF.bodies hsited.focus_mem hparts hfield hkept ha.index outer? houter
    have L (b : Bool) :=
      @Binding.lockstep_agrees R r ((t.memberContext r.document type? n).assigning b)
        ((u.memberContext r.document type?' n').assigning b) hR hr rfl
        ⟨rfl, rfl, hctx.type?, hctx.member?⟩
        (declareDocuments R.before).symbols (build R.before).symbols True (.inr ⟨trivial, hlocals⟩)
    exact (Binding.steps_memberParts L hsited ha hn hparts s s'
      ⟨h, h.since, h.sameScopes_memberScopes hR hr hsited ha, fun _ => rfl⟩
      hleads).versions

/-- A member of which something is taken out, or in which something is put. -/
theorem steps_openedMember
    (htype : Option.Rel (SameKey (declareDocuments R.before) (declareDocuments R.after)) type?
      type?') (hsited : Placed.Sited r.tree above [n.placed]) (hopened : r.change.opened n)
    (hindex : r.node n.index n'.index) (hkind' : n'.kind = n.kind)
    (hreshaped : Placed.Reshaped r.leaf r.node r.change n n.children n'.children)
    (hn : Placed.Numbered k [n'.placed]) (hparts : n.kind.hasParts) :
    Steps (LeadsTo R r (build R.before).symbols) (fun _ => Versions R) k
      (k + Placed.tokenCount [n'.placed]) (·.bindElement r.document type? n.placed)
      (·.bindElement r.document type?' n'.placed) := by
  have hF := hR.fits hr
  have hkind : n.kind = .fieldDeclaration ∨ n.kind = .propertyDeclaration := by
    have hmodest := hF.modest.opened hopened
    cases hn : n.kind <;> rw [hn] at hparts hmodest <;>
      first
        | exact absurd hparts Bool.false_ne_true | exact absurd hmodest (by decide) | exact .inl rfl
        | exact .inr rfl
  intro t u h hleads
  have hparts' : n'.kind.hasParts := hkind' ▸ hparts
  dsimp only at hleads ⊢
  rw [bindElement_member t type? hparts, bindElement_member u type?' hparts'] at *
  let s : BodyState := { table := t, scopes := t.memberScopes r.document n }
  let s' : BodyState := { table := u, scopes := u.memberScopes r.document n' }
  have hctx := h.sameContext_memberContext hR hr htype hsited hindex hkind' hparts
  have hstart : Binding.Bare R 0 s s' := by
    refine ⟨h, ?_, ?_⟩
    · obtain hkind | hkind := hkind <;> simp only [s, memberScopes, hkind, List.length_nil]
    · obtain hkind | hkind := hkind <;> simp only [s', memberScopes, hkind', hkind, List.length_nil]
  obtain hkind | hkind := hkind
  · exact (Binding.steps_openedField hR hr rfl hctx hsited hkind hreshaped hn s s' hstart
      hleads).versions
  · have hloses : Binding.LosesLocals R (t.memberContext r.document type? n) := by
      obtain ⟨id, key, hgone, hid, hkeyed⟩ := hF.bare hsited.focus_mem hopened hkind hindex
      refine ⟨id, key, ?_, hkeyed, hgone⟩
      rw [memberContext, if_neg (by rw [hkind]; decide)]
      exact (h.kept r hr _ hsited.focus_mem (by rw [hkind]; decide) _ hindex).1.trans hid
    exact (Binding.steps_openedProperty hR hr rfl hctx hloses hsited hkind hreshaped hn s s' hstart
      hleads).versions

/-- Binding what was taken out of a scope does not matter. -/
theorem Versions.bindDropped (h : Versions R t u) (hsited : Placed.Sited r.tree above [n.placed])
    (hdropped : r.change.dropped n.placed) :
    Versions R (t.bindElement r.document type? n.placed) u := by
  have hkind := ((hR.fits hr).modest.dropped hdropped).2
  by_cases hfield : n.kind = .fieldDeclaration
  · have hparts : n.kind.hasParts := by rw [hfield]; rfl
    rw [bindElement_member t type? hparts]
    have hadds :=
      Binding.traces_memberParts fun b =>
        @Binding.addsBefore_traces R r ((t.memberContext r.document type? n).assigning b)
      above hR hr rfl _ hdropped hsited (.inr (hsited.undeclaring_field hfield))
    exact (hadds { table := t, scopes := t.memberScopes r.document n }).1 u h
  · have hnode : ¬n.kind.isScope ∧ ¬n.kind.hasParts := by
      rw [show n.placed.kind = n.kind from rfl] at hkind
      cases hn : n.kind <;> rw [hn] at hkind hfield <;> first
        | exact absurd hkind (by decide) | exact absurd rfl hfield | decide
    rw [bindElement_other t type? hnode.1 hnode.2]
    exact h

omit hR hr in
/-- What was put into a scope binds nothing. -/
theorem bindElement_added (hF : r.Follows) {m : PlacedNode} {p' : Placed}
    (hadded : r.change.added m p') : u.bindElement r.document type?' p' = u := by
  have hkind := (hF.modest.added hadded).2
  cases p' with
  | token => rfl
  | node info children =>
    have hnode : ¬info.kind.isScope ∧ ¬info.kind.hasParts := by
      rw [show (Placed.node info children).kind = info.kind from rfl] at hkind
      cases hn : info.kind <;> rw [hn] at hkind <;> first | exact absurd hkind (by decide) | decide
    exact bindElement_other u type?' (n := ⟨info, children⟩) hnode.1 hnode.2

/-- What comes later is bound at tokens that are not below the number. -/
theorem LeadsTo.before_bindAll {m : PlacedNode} {ps ps' : List Placed}
    (h : Placed.Reshaped r.leaf r.node r.change m ps ps') (hn : Placed.Numbered k ps') {j : Nat}
    (hkj : k ≤ j)
    (hleads : LeadsTo R r (build R.before).symbols j (t.bindAll r.document type? ps)
      (u.bindAll r.document type?' ps')) : LeadsTo R r (build R.before).symbols k t u := by
  have hwithin : Within (r.StaysBehind k) ps := (hR.fits hr).staysBehind (.refl r.change) h hn
  have hwithin' : Within (fun b => k ≤ b.index) ps' := fun b hb => (hn.index_mem hb).1
  obtain ⟨hrecords, happends⟩ :=
    staysWithin_bindAll t r.document type? ps fun _ => hwithin.members ps
  obtain ⟨hrecords', _⟩ := staysWithin_bindAll u r.document type?' ps' fun _ => hwithin'.members ps'
  exact hleads.before hkj hrecords happends.symbols_initial hrecords'

/-- The type that members of a scope are bound in is the one around them, in both versions. -/
theorem Versions.rel_innerType? (h : Versions R t u)
    (htype : Option.Rel (SameKey (declareDocuments R.before) (declareDocuments R.after)) type?
      type?') (hown : type? = (declareDocuments R.before).typeAround? r.document above)
    (hsited : Placed.Sited r.tree above [n.placed]) (hindex : r.node n.index n'.index)
    (hkind' : n'.kind = n.kind) :
    Option.Rel (SameKey (declareDocuments R.before) (declareDocuments R.after))
      (t.innerType? r.document type? n) (u.innerType? r.document type?' n') ∧
      t.innerType? r.document type? n = (declareDocuments R.before).typeAround? r.document
        (n :: above) := by
  rw [innerType?, innerType?, hkind', typeAround?, List.find?_cons]
  by_cases hkind : n.kind = .classDeclaration ∨ n.kind = .structDeclaration
  · have hne : n.kind ≠ .variableDeclarator := by
      obtain hkind | hkind := hkind <;> rw [hkind] <;> decide
    rw [if_pos hkind, if_pos hkind,
      show (n.kind == .classDeclaration || n.kind == .structDeclaration) = true by
        simpa using hkind]
    exact ⟨h.rel_declared? hR hr hsited.focus_mem hne hindex,
      (h.kept r hr _ hsited.focus_mem hne _ hindex).1⟩
  · rw [if_neg hkind, if_neg hkind,
      show (n.kind == .classDeclaration || n.kind == .structDeclaration) = false by
        simpa using hkind]
    exact ⟨htype, hown⟩

/-- The elements of a scope are bound in both versions. -/
theorem steps_bindRevised {m : PlacedNode} {ps ps' : List Placed}
    (h : Placed.Reshaped r.leaf r.node r.change m ps ps')
    (htype : Option.Rel (SameKey (declareDocuments R.before) (declareDocuments R.after)) type?
      type?') (hown : type? = (declareDocuments R.before).typeAround? r.document above)
    (hsited : Placed.Sited r.tree above ps) (hn : Placed.Numbered k ps') :
    Steps (LeadsTo R r (build R.before).symbols) (fun _ => Versions R) k (k + Placed.tokenCount ps')
      (·.bindAll r.document type? ps) (·.bindAll r.document type?' ps') := by
  have hF := hR.fits hr
  induction h generalizing above k type? type?' with
  | nil => exact fun _ _ h _ => h
  | @keep _ p p' ps ps' hkept halike hrest ih =>
    intro t u h hleads
    dsimp only at hleads ⊢
    rw [bindAll, bindAll] at *
    rw [Placed.tokenCount_cons, ← Nat.add_assoc] at hleads
    refine ih htype hown hsited.tail hn.tail _ _ ?_ hleads
    cases p with
    | token =>
      obtain ⟨a', rfl, _⟩ := halike.exists_token
      exact h
    | node info children =>
      obtain ⟨n', rfl, hnode⟩ := PlacedNode.Alike.exists_placed (n := ⟨info, children⟩) halike
      by_cases hparts : info.kind.hasParts
      · exact steps_keptMember (n := ⟨info, children⟩) hR hr htype hown hsited.head hkept hnode
          hn.head hparts t u h
          (hleads.before_bindAll hR hr hrest hn.tail (Nat.le_add_right ..))
      · have hscope : ¬info.kind.isScope := (hF.kept hkept).1
        have hkind' : n'.kind = info.kind := hnode.kind
        rw [show Placed.node info children = (PlacedNode.mk info children).placed from rfl,
          bindElement_other t type? (n := ⟨info, children⟩) hscope hparts,
          bindElement_other u type?' (hkind' ▸ hscope) (hkind' ▸ hparts)]
        exact h
  | @inside _ n n' ps ps' hopened hindex hkind' hchildren hrest ihchildren ih =>
    intro t u h hleads
    dsimp only at hleads ⊢
    rw [bindAll, bindAll] at *
    rw [Placed.tokenCount_cons, ← Nat.add_assoc] at hleads
    refine ih htype hown hsited.tail hn.tail _ _ ?_ hleads
    have hleads := hleads.before_bindAll hR hr hrest hn.tail (Nat.le_add_right ..)
    by_cases hparts : n.kind.hasParts
    · exact steps_openedMember hR hr htype hsited.head hopened hindex hkind' hchildren hn.head
        hparts t u h hleads
    by_cases hscope : n.kind.isScope
    · rw [bindElement_scope t type? hscope, bindElement_scope u type?' (hkind' ▸ hscope)] at *
      rw [PlacedNode.placed, Placed.tokenCount_node] at hleads
      obtain ⟨htype, hown⟩ := h.rel_innerType? hR hr htype hown hsited.head hindex hkind'
      exact ihchildren htype hown hsited.head.children hn.head.children t u h hleads
    · rw [bindElement_other t type? hscope hparts,
        bindElement_other u type?' (hkind' ▸ hscope) (hkind' ▸ hparts)]
      exact h
  | @drop _ p ps ps' hdropped _ ih =>
    intro t u h hleads
    dsimp only at hleads ⊢
    rw [bindAll] at *
    refine ih htype hown hsited.tail hn _ _ ?_ hleads
    cases p with
    | token => exact h
    | node info children => exact h.bindDropped (n := ⟨info, children⟩) hR hr hsited.head hdropped
  | @add _ p' ps ps' hadded _ ih =>
    intro t u h hleads
    dsimp only at hleads ⊢
    rw [show u.bindAll r.document type?' (p' :: ps') = (u.bindElement r.document type?' p').bindAll
      r.document type?' ps' from by rw [bindAll], bindElement_added hF.toFollows hadded] at hleads ⊢
    rw [Placed.tokenCount_cons, ← Nat.add_assoc] at hleads
    exact ih htype hown hsited hn.tail _ _ h hleads

end

/-! ## Whole projects -/

/-- Nothing is bound yet. -/
theorem versions_declareDocuments (hR : R.Sound) :
    Versions R (declareDocuments R.before) (declareDocuments R.after) := by
  have h := redeclares_declareDocuments hR.toSpares
  have hnone (documents : List (DocumentId × Tree)) (place : Place) :
      (declareDocuments documents).bound place = [] := by
    rw [bound, bindings_declareDocuments]
    rfl
  have honce (documents : List (DocumentId × Tree)) : (declareDocuments documents).BindsOnce := by
    rw [BindsOnce, bindings_declareDocuments]
    exact fun _ _ hmem => absurd hmem List.not_mem_nil
  refine ⟨List.prefix_rfl, List.prefix_rfl, h.images, h.keyed, h.keyed', h.clear', honce _, honce _,
    fun _ _ _ _ _ _ _ => ⟨rfl, rfl⟩, fun _ _ _ _ _ _ => ?_,
    fun _ _ _ _ _ _ => .inl ⟨hnone _ _, hnone _ _⟩⟩
  rw [hnone, hnone]
  exact .nil

/-- The tables of both versions go together. -/
theorem versions_build (hR : R.Sound) : Versions R (build R.before) (build R.after) := by
  suffices hall : ∀ done rest, R.revisions = done ++ rest →
      Versions R
        ((declareDocuments R.before).bindDocuments (done.map fun r => (r.document, r.tree)))
        ((declareDocuments R.after).bindDocuments (done.map fun r => (r.document, r.tree'))) from
    hall R.revisions [] (List.append_nil _).symm
  intro done
  induction done using List.reverseRecOn with
  | nil => exact fun _ _ => versions_declareDocuments hR
  | append_singleton done r ih =>
    intro rest hrevisions
    have hsplit : R.revisions = done ++ r :: rest := by
      rw [hrevisions, List.append_assoc, List.singleton_append]
    have hr : r ∈ R.revisions := hsplit ▸ List.mem_append_right _ List.mem_cons_self
    have hF := hR.fits hr
    have hend : Continues (rest.map fun r => (r.document, r.tree)) _ (build R.before) :=
      build_split (by rw [Revisions.before, hsplit, List.map_append, List.map_cons])
    have hend' : Continues (rest.map fun r => (r.document, r.tree')) _ (build R.after) :=
      build_split (by rw [Revisions.after, hsplit, List.map_append, List.map_cons])
    have hother : ∀ s ∈ rest, r.document ≠ s.document := by
      have hnodup := hsplit ▸ hR.nodup
      rw [List.map_append, List.map_cons, List.nodup_append, List.nodup_cons] at hnodup
      exact fun s hs heq => hnodup.2.1.1 (heq ▸ List.mem_map_of_mem hs)
    have hnone : none = (declareDocuments R.before).typeAround? r.document [r.tree.top] := by
      rw [typeAround?, List.find?_singleton,
        show r.tree.top.kind = .compilationUnit from (congrArg PlacedNode.kind r.tree.top_eq).trans
          hF.unit]
      rfl
    have hsteps :=
      steps_bindRevised hR hr hF.reshaped .none hnone (r.tree.sited hF.conforms) r.tree'.numbered _
        _ (ih _ hsplit)
    rw [List.map_append, List.map_append, bindDocuments_append, bindDocuments_append]
    refine hsteps ⟨hend.isBehind.symbols, hend.isBehind.symbols, fun a a' _ _ => ?_,
      fun a a' _ _ => ?_⟩
    · exact (hend.bound_eq (by simpa using hother)).symm
    · exact (hend'.bound_eq (by simpa using hother)).symm

end SymbolTable

/-- The revisions lead from one version of a project to the other one. -/
structure Revisions.Leads (R : Revisions) (documents documents' : List (DocumentId × Tree)) :
    Prop where
  before : R.before = documents
  after : R.after = documents'
  sound : R.Sound

namespace Revisions.Leads

variable {R : Revisions} {documents documents' : List (DocumentId × Tree)}
  (h : R.Leads documents documents')
include h

theorem mem {r : Revision} (hr : r ∈ R.revisions) :
    (r.document, r.tree) ∈ documents ∧ (r.document, r.tree') ∈ documents' :=
  ⟨h.before ▸ List.mem_map_of_mem (f := fun r : Revision => (r.document, r.tree)) hr,
    h.after ▸ List.mem_map_of_mem (f := fun r : Revision => (r.document, r.tree')) hr⟩

theorem versions : SymbolTable.Versions R (.build documents) (.build documents') := by
  have hversions := SymbolTable.versions_build h.sound
  rwa [h.before, h.after] at hversions

end Revisions.Leads

end AutoProperty
