import AutoProperty.Proofs.Symbol.Rebinding

/-! # Binding members that were revised

Where bodies or declarators were taken out, the first version binds names at tokens that are not
there any more, and declares locals that are gone. Where values or accessors were put in, the
second version binds names at tokens that are new. Neither matters for what is kept.
-/

namespace AutoProperty

open SymbolTable

namespace SymbolTable

variable {R : Revisions} {r : Revision} {t u : SymbolTable}

namespace Versions

/-- A name that was taken out is bound in the first version. -/
theorem bindLeft (h : Versions R t u) {place : Place} {ids : List SymbolId} (hids : ids.Nodup)
    (hother : ∀ s ∈ R.revisions, ∀ a a', s.leaf a a' → (⟨s.document, a.index⟩ : Place) ≠ place) :
    Versions R (t.bind place ids) u := by
  have hsymbols := symbols_bind t place ids
  refine ⟨h.since.trans (hsymbols ▸ List.prefix_rfl), h.since',
    h.images.grows (.bind _ _ _) (.refl u) (.of_symbols hsymbols) (.of_symbols rfl),
    h.keyed.of_symbols hsymbols, h.keyed', h.clear', h.once.bind _ hids, h.once',
    fun s hs f hf hkind i' hi' => ?_, fun s hs a a' ha hkept => ?_, fun s hs a a' ha hreplaced =>
    ?_⟩
  · rw [declared?_bind]
    exact h.kept s hs f hf hkind i' hi'
  · rw [bound_bind_of_ne t ids (hother s hs a a' ha)]
    exact (h.same s hs a a' ha hkept).imp fun _ _ hij => hij.grows (.bind _ _ _) (.refl u)
  · rw [bound_bind_of_ne t ids (hother s hs a a' ha)]
    exact h.exchanged s hs a a' ha hreplaced

/-- A name that was put in is bound in the second version. -/
theorem bindRight (h : Versions R t u) {place : Place} {ids : List SymbolId} (hids : ids.Nodup)
    (hother : ∀ s ∈ R.revisions, ∀ a a', s.leaf a a' → (⟨s.document, a'.index⟩ : Place) ≠ place) :
    Versions R t (u.bind place ids) := by
  have hsymbols := symbols_bind u place ids
  refine ⟨h.since, h.since'.trans (hsymbols ▸ List.prefix_rfl),
    h.images.grows (.refl t) (.bind _ _ _) (.of_symbols rfl) (.of_symbols hsymbols),
    h.keyed, h.keyed'.of_symbols hsymbols, h.clear'.addsNone (.of_symbols hsymbols), h.once,
    h.once'.bind _ hids, fun s hs f hf hkind i' hi' => ?_, fun s hs a a' ha hkept => ?_,
    fun s hs a a' ha hreplaced => ?_⟩
  · rw [declared?_bind]
    exact h.kept s hs f hf hkind i' hi'
  · rw [bound_bind_of_ne u ids (hother s hs a a' ha)]
    exact (h.same s hs a a' ha hkept).imp fun _ _ hij => hij.grows (.refl t) (.bind _ _ _)
  · rw [bound_bind_of_ne u ids (hother s hs a a' ha)]
    exact h.exchanged s hs a a' ha hreplaced

/-- A local that was taken out is declared in the first version. -/
theorem introduceLeft (h : Versions R t u) (hR : R.Sound) (hr : r ∈ R.revisions) {f : Focus}
    (hf : f ∈ r.tree.nodes) (hkind : f.node.kind = .variableDeclarator) {data : SymbolData}
    (hgone : ∀ number, IsNumber number → R.gone { data.key with path := data.key.path ++ number })
    (hkinds : data.key.kind = data.kind)
    (houter : ∀ outer ∈ data.container?, outer.index < t.symbols.length) :
    Versions R ((t.add data).2.declare ⟨r.document, f.node.index⟩ (t.add data).1) u := by
  have hgrows : Grows t ((t.add data).2.declare ⟨r.document, f.node.index⟩ (t.add data).1) :=
    (Grows.add t data).trans (.declare _ _ _)
  have himages : Images R.gone ((t.add data).2.declare ⟨r.document, f.node.index⟩ (t.add data).1)
      u := by
    refine h.images.grows_gone h.clear' hgrows fun i data' hdata' => ?_
    have hdata' : (t.add data).2.data? i = some data' := hdata'
    rw [data?_add] at hdata'
    split at hdata'
    next =>
      obtain ⟨number, hnumber, hkey⟩ := t.exists_number data.key
      obtain rfl := Option.some.inj hdata'
      exact .inr (hkey ▸ hgone number hnumber)
    next => exact .inl hdata'
  refine ⟨h.since.trans (List.prefix_append _ _), h.since', himages,
    (h.keyed.add hkinds houter).of_symbols rfl, h.keyed', h.clear', h.once, h.once',
    fun s hs g hg hother j' hj' => ?_, fun s hs b b' hb hordinary => ?_, h.exchanged⟩
  · have hne : (⟨s.document, g.node.index⟩ : Place) ≠ ⟨r.document, f.node.index⟩ := by
      intro heq
      obtain ⟨hdocument, hindex⟩ := Place.mk.inj heq
      obtain rfl : s = r := List.inj_on_of_nodup_map hR.nodup hs hr hdocument
      exact hother (Tree.focus_eq hg hf hindex ▸ hkind)
    rw [declared?_declare_of_ne _ _ hne]
    exact h.kept s hs g hg hother j' hj'
  · exact (h.same s hs b b' hb hordinary).imp fun _ _ hij => hij.grows hgrows (.refl u)

end Versions

end SymbolTable

namespace Binding

variable {R : Revisions} {r : Revision} {ctx ctx' : BodyContext} {above : List PlacedNode}

/-! ## What is taken out or put in -/

def LosesLocals (R : Revisions) (ctx : BodyContext) : Prop :=
  ∃ id key, ctx.member? = some id ∧ (declareDocuments R.before).Keyed id key ∧
    ∀ label : String, '.' ∉ label.toList → R.gone (Key.within (some key) .localVariable label)

/-- What goes with the first state goes with the second one, and there are as many frames. -/
def AddsBefore (R : Revisions) (s s₂ : BodyState) : Prop :=
  (∀ u, Versions R s.table u → Versions R s₂.table u) ∧ s₂.scopes.length = s.scopes.length

/-- What the first state goes with, the second one goes with, and there are as many frames. -/
def AddsAfter (R : Revisions) (s s₂ : BodyState) : Prop :=
  (∀ t, Versions R t s.table → Versions R t s₂.table) ∧ s₂.scopes.length = s.scopes.length

section

variable (hR : R.Sound) (hr : r ∈ R.revisions) (hdocument : ctx.document = r.document)
include hR hr hdocument

/-- Binding what was taken out does not matter, if it declares no locals, or all that it can
declare are gone. -/
theorem addsBefore_traces {p : Placed} (hp : r.change.dropped p)
    (hsited : Placed.Sited r.tree above [p])
    (hlocals : LosesLocals R ctx ∨ Placed.Undeclaring [p]) : Traces ctx [p] (AddsBefore R) where
  refl _ := ⟨fun _ => id, rfl⟩
  trans h h' := ⟨fun u hu => h'.1 u (h.1 u hu), h'.2.trans h.2⟩
  frame h := ⟨h.1, by rw [List.length_tail, h.2, List.length_cons, Nat.add_sub_cancel]⟩
  record {a ids} s ha hids := by
    refine ⟨fun u hu => hu.bindLeft hids.nodup fun s hs b b' hb hplace => ?_, rfl⟩
    obtain ⟨hsame, hindex⟩ := Place.mk.inj hplace
    obtain rfl : s = r := List.inj_on_of_nodup_map hR.nodup hs hr (hsame.trans hdocument)
    exact (hR.fits hr).dropped hp a (by simpa [Placed.tokensOf] using ha) b b' hb hindex
  declareLocal {n} type s hn hkind hdeclares := by
    rw [declareLocal_run]
    split
    swap
    next => exact ⟨fun _ => id, rfl⟩
    next name hname =>
      dsimp only
      obtain ⟨id, key, hmember, hkeyed, hgone⟩ := hlocals.resolve_right hdeclares
      have hfocus : ∃ f ∈ r.tree.nodes, f.node = n := by
        rw [Placed.nodesOf, Placed.nodesOf, List.append_nil, ← Placed.node_foci above p] at hn
        obtain ⟨f, hf, rfl⟩ := List.mem_map.mp hn
        exact ⟨f, hsited.nodes (by simpa [Placed.fociOf] using hf), rfl⟩
      obtain ⟨f, hf, rfl⟩ := hfocus
      have hname : '.' ∉ name.text.toList := by
        obtain ⟨_, hidentifier, htext⟩ := PlacedNode.name?_mem hname
        exact ((hR.fits hr).words.word _ (Tree.nameFocus_mem hf hname) hidentifier htext).notMem
          (by decide)
      refine ⟨fun u hu => ?_, by cases s.scopes <;> rfl⟩
      have houter : s.table.HasKey? (ctx.member? <|> ctx.type?) (some key) := by
        rw [hmember]
        exact .some (hkeyed.grows (.of_initial hu.since))
      have hkey : (localData ctx type f.node name s).key =
          Key.within (some key) .localVariable
            (name.text ++ "#" ++ toString (s.locals.count name.text)) := houter.childKey_eq ..
      rw [hdocument]
      refine hu.introduceLeft hR hr hf hkind (fun number hnumber => ?_) (kind_childKey ..) houter.lt
      rw [hkey, ← Key.within_append]
      refine hgone _ ?_
      obtain rfl | ⟨m, rfl⟩ := hnumber
      · simpa [hname] using notMem_toString rfl _
      · simpa [hname] using And.intro (notMem_toString rfl _) (notMem_toString rfl m)

/-- Binding what was put in does not matter, if it declares no locals. -/
theorem addsAfter_traces {m : PlacedNode} {p : Placed} (hp : r.change.added m p)
    (hnone : Placed.Undeclaring [p]) : Traces ctx [p] (AddsAfter R) where
  refl _ := ⟨fun _ => id, rfl⟩
  trans h h' := ⟨fun t ht => h'.1 t (h.1 t ht), h'.2.trans h.2⟩
  frame h := ⟨h.1, by rw [List.length_tail, h.2, List.length_cons, Nat.add_sub_cancel]⟩
  record {a ids} s ha hids := by
    refine ⟨fun t ht => ht.bindRight hids.nodup fun s hs b b' hb hplace => ?_, rfl⟩
    obtain ⟨hsame, hindex⟩ := Place.mk.inj hplace
    obtain rfl : s = r := List.inj_on_of_nodup_map hR.nodup hs hr (hsame.trans hdocument)
    exact (hR.fits hr).added hp a (by simpa [Placed.tokensOf] using ha) b b' hb hindex
  declareLocal _ _ _ _ hdeclares := absurd hnone hdeclares

end

/-! ## What is around it -/

/-- What holds of the states between the parts of a member. The frames do not matter there. -/
structure Bare (R : Revisions) (depth : Nat) (s s' : BodyState) : Prop where
  versions : Versions R s.table s'.table
  frames : s.scopes.length = depth
  frames' : s'.scopes.length = depth

/-- The states are on the way to the tables of the two versions. -/
def Nears (R : Revisions) (r : Revision) (k : Nat) (s s' : BodyState) : Prop :=
  LeadsTo R r (build R.before).symbols k s.table s'.table

theorem Nears.before {k l : Nat} {s s' s₂ s₂' : BodyState} (h : Nears R r l s₂ s₂') (hkl : k ≤ l)
    (hrecords : s.table.Records r.document (r.StaysBehind k) s₂.table)
    (hsymbols : s.table.symbols <+: s₂.table.symbols)
    (hrecords' : s'.table.Records r.document (fun b => k ≤ b.index) s₂'.table) : Nears R r k s s' :=
  LeadsTo.before h hkl hrecords hsymbols hrecords'

section

variable {k l depth : Nat} {b b' : Binding}

/-- Where neither version opens a frame, what adds no symbols is bound alike. -/
theorem steps_bare_of_addsNothing (hb : AddsNothing b)
    (hsteps : ∀ start : List SymbolData,
      Steps (fun k s s' => LeadsTo R r start k s.table s'.table)
        (fun _ s s' => Agrees R start False s s') k l b b') :
    Steps (Nears R r) (fun _ => Bare R 0) k l b b' := by
  intro s s' h hleads
  have hscopes : SameScopes s.table s'.table s.scopes s'.scopes := by
    rw [List.length_eq_zero_iff.mp h.frames, List.length_eq_zero_iff.mp h.frames']
    exact .nil
  obtain ⟨hsymbols, hframes⟩ := hb s
  have hend := hsteps s.table.symbols s s' ⟨h.versions, List.prefix_rfl, hscopes, False.elim⟩
    ⟨hleads.last, hsymbols ▸ List.prefix_rfl, hleads.final, hleads.final'⟩
  have hframes := hframes.trans h.frames
  exact ⟨hend.versions, hframes, hend.scopes.length_eq.symm.trans hframes⟩

/-- A frame of its own does not matter between the parts of a member. -/
theorem steps_bare_inFrame (h : Steps (Nears R r) (fun _ => Bare R (depth + 1)) k l b b') :
    Steps (Nears R r) (fun _ => Bare R depth) k l (inFrame b) (inFrame b') := by
  intro s s' hbare hleads
  have hend := h { s with scopes := [] :: s.scopes } { s' with scopes := [] :: s'.scopes }
    ⟨hbare.versions, congrArg (· + 1) hbare.frames, congrArg (· + 1) hbare.frames'⟩ hleads
  refine ⟨hend.versions, ?_, ?_⟩
  · show List.length (List.tail _) = depth
    rw [List.length_tail, hend.frames, Nat.add_sub_cancel]
  · show List.length (List.tail _) = depth
    rw [List.length_tail, hend.frames', Nat.add_sub_cancel]

/-- What comes later is bound at tokens that are not below the number. -/
theorem Nears.before_forM (hF : r.Follows) (hdocument : ctx.document = r.document)
    (hdocument' : ctx'.document = r.document) {c : Reshaping} (hwithin : c.Within r.change)
    {m : PlacedNode} {ps ps' : List Placed} (h : Placed.Reshaped r.leaf r.node c m ps ps')
    (hn : Placed.Numbered k ps') {f f' : PlacedNode → Binding}
    (hstays : ∀ n names, Within names n.children → StaysWithin ctx.document names (f n))
    (hstays' : ∀ n names, Within names n.children → StaysWithin ctx'.document names (f' n))
    {j : Nat} (hkj : k ≤ j) {s s' : BodyState}
    (hleads : Nears R r j (((ps.filterMap Placed.node?).forM f) s).2
      (((ps'.filterMap Placed.node?).forM f') s').2) : Nears R r k s s' := by
  have hrecords : Records ctx.document (r.StaysBehind k) ((ps.filterMap Placed.node?).forM f) :=
    .forM fun n hmem => (hstays n _ fun a ha => hF.staysBehind hwithin h hn a
      (Placed.tokens_subset (PlacedNode.mem_filterMap_node?.mp hmem) ha)).records
  have hrecords' : Records ctx'.document (fun b => k ≤ b.index)
      ((ps'.filterMap Placed.node?).forM f') :=
    .forM fun n hmem => (hstays' n _ fun a ha => (hn.index_mem
      (Placed.tokens_subset (PlacedNode.mem_filterMap_node?.mp hmem) ha)).1).records
  rw [hdocument] at hrecords
  rw [hdocument'] at hrecords'
  exact hleads.before hkj (hrecords s).1 (hrecords s).2 (hrecords' s').1

/-- The parts that are kept are bound alike, whatever is taken out and put in between. -/
theorem steps_bare_forM (hR : R.Sound) (hr : r ∈ R.revisions)
    (hdocument : ctx.document = r.document) (hdocument' : ctx'.document = r.document)
    {c : Reshaping} (hwithin : c.Within r.change) {m : PlacedNode} {ps ps' : List Placed}
    (h : Placed.Reshaped r.leaf r.node c m ps ps') (hsited : Placed.Sited r.tree above ps)
    (hn : Placed.Numbered k ps')
    (hlocals : ∀ p ∈ ps, c.dropped p → LosesLocals R ctx ∨ Placed.Undeclaring [p])
    {f f' : PlacedNode → Binding}
    (hf : ∀ n rel, (∀ b, Traces (ctx.assigning b) [n.placed] rel) → Leads rel (f n))
    (hf' : ∀ n rel, (∀ b, Traces (ctx'.assigning b) [n.placed] rel) → Leads rel (f' n))
    (hstays : ∀ n names, Within names n.children → StaysWithin ctx.document names (f n))
    (hstays' : ∀ n names, Within names n.children → StaysWithin ctx'.document names (f' n))
    (hkeep : ∀ n n' first, n.placed ∈ ps → c.kept n.placed → Placed.Sited r.tree above [n.placed] →
      n.Alike r.leaf r.node n' → Placed.Numbered first [n'.placed] →
      Steps (Nears R r) (fun _ => Bare R depth) first (first + Placed.tokenCount [n'.placed]) (f n)
        (f' n'))
    (hinside : ∀ n n' : PlacedNode, ∀ first, n.placed ∈ ps → c.opened n →
      Placed.Sited r.tree above [n.placed] → n'.kind = n.kind →
      Placed.Reshaped r.leaf r.node c n n.children n'.children → Placed.Numbered first [n'.placed] →
      Steps (Nears R r) (fun _ => Bare R depth) first (first + Placed.tokenCount [n'.placed]) (f n)
        (f' n')) :
    Steps (Nears R r) (fun _ => Bare R depth) k (k + Placed.tokenCount ps')
      ((ps.filterMap Placed.node?).forM f) ((ps'.filterMap Placed.node?).forM f') := by
  have hF := hR.fits hr
  induction h generalizing k with
  | nil => exact fun _ _ hbare _ => hbare
  | @keep _ p p' ps ps' hkept halike hrest ih =>
    intro s s' hbare hleads
    rw [Placed.tokenCount_cons, ← Nat.add_assoc] at hleads
    have ih := ih hsited.tail hn.tail (fun q hq => hlocals q (List.mem_cons_of_mem p hq))
      (fun n n' first hmem => hkeep n n' first (List.mem_cons_of_mem p hmem))
      fun n n' first hmem => hinside n n' first (List.mem_cons_of_mem p hmem)
    cases p with
    | token =>
      obtain ⟨a', rfl, _⟩ := halike.exists_token
      exact ih s s' hbare hleads
    | node info children =>
      obtain ⟨n', rfl, halike⟩ := PlacedNode.Alike.exists_placed (n := ⟨info, children⟩) halike
      have hfirst :=
        hkeep ⟨info, children⟩ n' k List.mem_cons_self hkept hsited.head halike hn.head s s' hbare
          (hleads.before_forM hF.toFollows hdocument hdocument' hwithin hrest hn.tail hstays hstays'
            (Nat.le_add_right ..))
      exact ih _ _ hfirst hleads
  | @inside _ n n' ps ps' hopened _ hkind hchildren hrest _ ih =>
    intro s s' hbare hleads
    rw [Placed.tokenCount_cons, ← Nat.add_assoc] at hleads
    have hfirst :=
      hinside n n' k List.mem_cons_self hopened hsited.head hkind hchildren hn.head s s' hbare
        (hleads.before_forM hF.toFollows hdocument hdocument' hwithin hrest hn.tail hstays hstays'
          (Nat.le_add_right ..))
    exact ih hsited.tail hn.tail (fun q hq => hlocals q (List.mem_cons_of_mem _ hq))
      (fun n n' first hmem => hkeep n n' first (List.mem_cons_of_mem _ hmem))
      (fun n n' first hmem => hinside n n' first (List.mem_cons_of_mem _ hmem)) _ _ hfirst hleads
  | @drop _ p ps ps' hdropped _ ih =>
    intro s s' hbare hleads
    have ih := ih hsited.tail hn (fun q hq => hlocals q (List.mem_cons_of_mem p hq))
      (fun n n' first hmem => hkeep n n' first (List.mem_cons_of_mem p hmem))
      fun n n' first hmem => hinside n n' first (List.mem_cons_of_mem p hmem)
    cases p with
    | token => exact ih s s' hbare hleads
    | node info children =>
      have hadds :=
        hf ⟨info, children⟩ (AddsBefore R) fun b => @addsBefore_traces R r (ctx.assigning b) above
          hR hr hdocument _
        (hwithin.dropped hdropped) hsited.head (hlocals _ List.mem_cons_self hdropped)
      obtain ⟨hversions, hframes⟩ := hadds s
      exact ih _ s' ⟨hversions _ hbare.versions, hframes.trans hbare.frames, hbare.frames'⟩ hleads
  | @add _ p' ps ps' hadded _ ih =>
    intro s s' hbare hleads
    rw [Placed.tokenCount_cons, ← Nat.add_assoc] at hleads
    have ih := ih hsited hn.tail hlocals hkeep hinside
    have hskip {s s'} (hbare : Bare R depth s s') := ih s s' hbare
    cases p' with
    | token => exact hskip hbare hleads
    | node info children =>
      have hadds :=
        hf' ⟨info, children⟩ (AddsAfter R) fun b => @addsAfter_traces R r (ctx'.assigning b) hR hr
          hdocument' _ _
        (hwithin.added hadded) (hF.undeclaring (hwithin.added hadded))
      obtain ⟨hversions, hframes⟩ := hadds s'
      exact hskip ⟨hversions _ hbare.versions, hbare.frames, hframes.trans hbare.frames'⟩ hleads

end

/-! ## Members that are opened -/

section

variable (hR : R.Sound) (hr : r ∈ R.revisions) (hdocument : ctx.document = r.document)
  (hctx : SameContext (declareDocuments R.before) (declareDocuments R.after) ctx ctx')
  {parent n n' : PlacedNode} {k : Nat}
include hR hr hdocument hctx

/-- Where no symbols may be added, bodies are bound alike. -/
theorem lockstep_start (assigns : Bool) (start : List SymbolData) :
    Lockstep r.leaf r.node r.tree (ctx.assigning assigns) (ctx'.assigning assigns) Eq
      (fun k s s' => LeadsTo R r start k s.table s'.table)
      (fun _ s s' => Agrees R start False s s') :=
  @lockstep_agrees R r (ctx.assigning assigns) (ctx'.assigning assigns) hR hr hdocument
    ⟨hctx.document, rfl, hctx.type?, hctx.member?⟩
    start start False (.inl (Nat.le_refl _))

theorem steps_bare_type (h : Placed.Sited r.tree (parent :: above) [n.placed])
    (ha : n.Alike r.leaf r.node n') (hn : Placed.Numbered k [n'.placed]) (htype : n.kind.isType)
    (hcontext : ¬isExpressionContext parent.kind) :
    Steps (Nears R r) (fun _ => Bare R 0) k (k + Placed.tokenCount [n'.placed])
      (type (ctx.assigning false) n) (type (ctx'.assigning false) n') :=
  steps_bare_of_addsNothing
    (addsNothing_traces (h.undeclaring (.inr (isValuePart_of_isType htype))) _).type
    fun start => steps_type (lockstep_start hR hr hdocument hctx false start) h ha hn htype hcontext

theorem steps_bare_value (h : Placed.Sited r.tree (parent :: above) [n.placed])
    (ha : n.Alike r.leaf r.node n') (hn : Placed.Numbered k [n'.placed])
    (hkind : n.kind = .equalsValueClause) :
    Steps (Nears R r) (fun _ => Bare R 0) k (k + Placed.tokenCount [n'.placed])
      (node (ctx.assigning false) n) (node (ctx'.assigning false) n') := by
  have hvalue : n.placed.kind.isValuePart := by
    rw [show n.placed.kind = _ from hkind]
    rfl
  exact steps_bare_of_addsNothing (traces_node (addsNothing_traces (h.undeclaring (.inr hvalue)) _))
    fun start => steps_node (lockstep_start hR hr hdocument hctx false start) h ha hn
      (by rw [hkind]; rfl)

omit hctx in
/-- An accessor whose body is taken out. -/
theorem steps_openedAccessor (hdocument' : ctx'.document = r.document) (hloses : LosesLocals R ctx)
    (h : Placed.Sited r.tree above [n.placed]) (hkind : n.kind.isAccessor)
    (hkind' : n'.kind = n.kind)
    (hreshaped : Placed.Reshaped r.leaf r.node r.change n n.children n'.children)
    (hn : Placed.Numbered k [n'.placed]) :
    Steps (Nears R r) (fun _ => Bare R 0) k (k + Placed.tokenCount [n'.placed])
      (accessor (ctx.assigning false) n) (accessor (ctx'.assigning false) n') := by
  have hF := hR.fits hr
  have hparts (m : PlacedNode) (hm : m.placed ∈ n.children)
      (hsited : Placed.Sited r.tree (n :: above) [m.placed]) :
      m.kind = .block ∨ m.kind = .arrowExpressionClause :=
    (isBody_of_accessor h.fit hkind m.kind (List.mem_map_of_mem hm)).resolve_left hsited.not_isToken
  rw [accessor, accessor, hkind']
  dsimp only
  refine steps_bare_inFrame ?_
  rw [PlacedNode.placed, Placed.tokenCount_node]
  refine @steps_bare_forM R r (ctx.assigning _) (ctx'.assigning _) _ k 1 hR hr hdocument hdocument'
    _ (.refl r.change) _ _ _ hreshaped
    h.children hn.children (fun _ _ _ => .inl hloses) _ _ (fun m _ hm => traces_node (hm _))
    (fun m _ hm => traces_node (hm _))
    (fun m _ hm => staysWithin_node hm) (fun m _ hm => staysWithin_node hm) ?_ ?_
  · intro m m' first hmem hkept hsited
    have hkept := hF.kept hkept
    obtain hkind | hkind := hparts m hmem hsited
    · exact absurd hkind hkept.2.1
    · exact absurd hkind hkept.2.2.1
  · intro m m' first hmem hopened hsited
    have hopened := hF.modest.opened hopened
    obtain hkind | hkind :=
      hparts m hmem hsited <;> rw [hkind] at hopened <;> exact absurd hopened (by decide)


/-- The accessors of a property, whose bodies are taken out. -/
theorem steps_openedAccessors (hloses : LosesLocals R ctx)
    (h : Placed.Sited r.tree above [n.placed]) (hkind : n.kind = .accessorList)
    (hreshaped : Placed.Reshaped r.leaf r.node r.change n n.children n'.children)
    (hn : Placed.Numbered k [n'.placed]) :
    Steps (Nears R r) (fun _ => Bare R 0) k (k + Placed.tokenCount [n'.placed])
      (n.childNodes.forM (accessor (ctx.assigning false)))
      (n'.childNodes.forM (accessor (ctx'.assigning false))) := by
  have hF := hR.fits hr
  have hdocument' : ctx'.document = r.document := hctx.document.trans hdocument
  have hfit : ChildrenFit n.kind (n.children.map Placed.kind) := h.fit
  rw [hkind] at hfit
  have hparts (m : PlacedNode) (hm : m.placed ∈ n.children)
      (hsited : Placed.Sited r.tree (n :: above) [m.placed]) :
      m.kind.isAccessor ∨ m.kind = .skippedTokens :=
    (isAccessor_or hfit m.kind (List.mem_map_of_mem hm)).resolve_left hsited.not_isToken
  rw [PlacedNode.placed, Placed.tokenCount_node]
  refine steps_bare_forM hR hr hdocument hdocument' (.refl r.change) hreshaped h.children
    hn.children (fun _ _ _ => .inl hloses)
    (fun m _ hm => traces_accessor hm) (fun m _ hm => traces_accessor hm)
    (fun m _ hm => staysWithin_accessor hm)
    (fun m _ hm => staysWithin_accessor hm) ?_ ?_
  · intro m m' first hmem hkept hsited halike hn
    obtain haccessor | hskipped := hparts m hmem hsited
    · exact absurd haccessor (hF.kept hkept).2.2.2.2
    -- There is nothing to bind in tokens that could not be read.
    have hfit : ChildrenFit m.kind (m.children.map Placed.kind) := hsited.fit
    rw [hskipped] at hfit
    have hnone : m.childNodes = [] := List.eq_nil_iff_forall_not_mem.mpr fun q hq => by
      have hmem := PlacedNode.mem_childNodes.mp hq
      exact (hsited.children.mem hmem).not_isToken (hfit.2 _ (List.mem_map_of_mem hmem))
    have hnone' : m'.childNodes = [] :=
      List.length_eq_zero_iff.mp (halike.childNodes.length_eq ▸ hnone ▸ rfl)
    rw [accessor, accessor, hnone, hnone']
    exact steps_bare_inFrame fun _ _ h _ => h
  · intro m m' first hmem hopened hsited hkind' hreshaped hn
    refine steps_openedAccessor hR hr hdocument hdocument' hloses hsited
      ((hparts m hmem hsited).resolve_right fun hskipped => ?_) hkind'
      hreshaped hn
    have hopened := hF.modest.opened hopened
    rw [hskipped] at hopened
    exact absurd hopened (by decide)

/-- A property whose bodies are taken out. -/
theorem steps_openedProperty (hloses : LosesLocals R ctx) (h : Placed.Sited r.tree above [n.placed])
    (hkind : n.kind = .propertyDeclaration)
    (hreshaped : Placed.Reshaped r.leaf r.node r.change n n.children n'.children)
    (hn : Placed.Numbered k [n'.placed]) :
    Steps (Nears R r) (fun _ => Bare R 0) k (k + Placed.tokenCount [n'.placed])
      (memberParts (ctx.assigning false) n) (memberParts (ctx'.assigning false) n') := by
  have hF := hR.fits hr
  have hdocument' : ctx'.document = r.document := hctx.document.trans hdocument
  have hparts (m : PlacedNode) (hm : m.placed ∈ n.children)
      (hsited : Placed.Sited r.tree (n :: above) [m.placed]) :
      m.kind.isType ∨ m.kind = .accessorList ∨ m.kind = .equalsValueClause ∨
      m.kind = .arrowExpressionClause := by
    have hfit : ChildrenFit n.kind (n.children.map Placed.kind) := h.fit
    rw [hkind] at hfit
    exact (isPropertyPart_or hfit m.kind (List.mem_map_of_mem hm)).resolve_left hsited.not_isToken
  rw [PlacedNode.placed, Placed.tokenCount_node]
  refine steps_bare_forM hR hr hdocument hdocument' (.refl r.change) hreshaped h.children
    hn.children (fun _ _ _ => .inl hloses)
    (fun m _ hm => traces_memberPart hm) (fun m _ hm => traces_memberPart hm)
    (staysWithin_memberPart (ctx.assigning false))
    (staysWithin_memberPart (ctx'.assigning false)) ?_ ?_
  · intro m m' first hmem hkept hsited halike hn
    have hkept := hF.kept hkept
    rw [halike.kind]
    obtain htype | hlist | hvalue | harrow := hparts m hmem hsited
    · rw [if_pos htype, if_pos htype]
      exact steps_bare_type hR hr hdocument hctx hsited halike hn htype
        (by rw [hkind]; exact Bool.false_ne_true)
    · exact absurd hlist hkept.2.2.2.1
    · rw [hvalue]
      exact steps_bare_value hR hr hdocument hctx hsited halike hn hvalue
    · exact absurd harrow hkept.2.2.1
  · intro m m' first hmem hopened hsited hkind' hreshaped hn
    have hopened := hF.modest.opened hopened
    rw [hkind']
    obtain htype | hlist | hvalue | harrow := hparts m hmem hsited
    · cases hm : m.kind <;> rw [hm] at htype hopened <;> first
        | exact absurd htype Bool.false_ne_true | exact absurd hopened (by decide)
    · rw [hlist]
      exact steps_openedAccessors hR hr hdocument hctx hloses hsited hlist hreshaped hn
    · rw [hvalue] at hopened
      exact absurd hopened (by decide)
    · rw [harrow] at hopened
      exact absurd hopened (by decide)

/-- Fields some of which are taken out. -/
theorem steps_openedFields (h : Placed.Sited r.tree above [n.placed])
    (hkind : n.kind = .variableDeclaration) (hnone : Placed.Undeclaring [n.placed])
    (hreshaped : Placed.Reshaped r.leaf r.node r.change n n.children n'.children)
    (hn : Placed.Numbered k [n'.placed]) :
    Steps (Nears R r) (fun _ => Bare R 0) k (k + Placed.tokenCount [n'.placed])
      (fields (ctx.assigning false) n) (fields (ctx'.assigning false) n') := by
  have hF := hR.fits hr
  have hdocument' : ctx'.document = r.document := hctx.document.trans hdocument
  rw [PlacedNode.placed, Placed.tokenCount_node]
  refine steps_bare_forM hR hr hdocument hdocument' (.refl r.change) hreshaped h.children
    hn.children
    (fun p hp _ => .inr (hnone.child hp)) (fun m _ hm => traces_fieldPart (hm false))
    (fun m _ hm => traces_fieldPart (hm false))
    (staysWithin_fieldPart (ctx.assigning false)) (staysWithin_fieldPart (ctx'.assigning false)) ?_
    ?_
  · intro m m' first hmem _ hsited halike hn
    exact steps_bare_of_addsNothing (traces_fieldPart (addsNothing_traces (hnone.child hmem) _))
      fun start => steps_fieldPart (lockstep_start hR hr hdocument hctx false start) hsited halike
      hn (by rw [hkind]; exact Bool.false_ne_true)
  · intro m m' first hmem hopened hsited
    have hfit : ChildrenFit n.kind (n.children.map Placed.kind) := h.fit
    rw [hkind] at hfit
    have hopened := hF.modest.opened hopened
    obtain ⟨type, declarators, htype, hdeclarators, hkinds⟩ := hfit
    have hmem : m.kind ∈ type :: declarators := hkinds ▸ List.mem_map_of_mem (f := Placed.kind) hmem
    obtain heq | hmem := List.mem_cons.mp hmem
    · rw [heq] at hopened
      cases type <;> first
        | exact absurd htype Bool.false_ne_true | exact absurd hopened (by decide)
    · obtain heq | heq :=
        mem_of_separated hdeclarators hmem <;>
          rw [heq] at hopened <;> exact absurd hopened (by decide)

/-- A declaration of fields some of which are taken out. -/
theorem steps_openedField (h : Placed.Sited r.tree above [n.placed])
    (hkind : n.kind = .fieldDeclaration)
    (hreshaped : Placed.Reshaped r.leaf r.node r.change n n.children n'.children)
    (hn : Placed.Numbered k [n'.placed]) :
    Steps (Nears R r) (fun _ => Bare R 0) k (k + Placed.tokenCount [n'.placed])
      (memberParts (ctx.assigning false) n) (memberParts (ctx'.assigning false) n') := by
  have hF := hR.fits hr
  have hdocument' : ctx'.document = r.document := hctx.document.trans hdocument
  have hnone := h.undeclaring_field hkind
  have hparts (m : PlacedNode) (hm : m.placed ∈ n.children)
      (hsited : Placed.Sited r.tree (n :: above) [m.placed]) :
      m.kind = .variableDeclaration := by
    have hfit : ChildrenFit n.kind (n.children.map Placed.kind) := h.fit
    rw [hkind] at hfit
    obtain ⟨modifiers, hmodifiers, hkinds⟩ := hfit
    have hmem : m.kind ∈ modifiers ++ [.variableDeclaration, .semicolonToken] :=
      hkinds ▸ List.mem_map_of_mem (f := Placed.kind) hm
    have htoken := hsited.not_isToken
    obtain hmem | hmem := List.mem_append.mp hmem
    · exact absurd (Kind.isToken_of_isModifier (hmodifiers _ hmem)) htoken
    · simp only [List.mem_cons, List.not_mem_nil, or_false] at hmem
      exact hmem.resolve_right fun heq => htoken (by rw [heq]; rfl)
  rw [PlacedNode.placed, Placed.tokenCount_node]
  refine steps_bare_forM hR hr hdocument hdocument' (.refl r.change) hreshaped h.children
    hn.children
    (fun p hp _ => .inr (hnone.child hp)) (fun m _ hm => traces_memberPart hm)
    (fun m _ hm => traces_memberPart hm)
    (staysWithin_memberPart (ctx.assigning false)) (staysWithin_memberPart (ctx'.assigning false))
    ?_ ?_
  · intro m m' first hmem _ hsited halike hn
    have hpart := hparts m hmem hsited
    rw [halike.kind, hpart]
    exact steps_bare_of_addsNothing (traces_fields (addsNothing_traces (hnone.child hmem) _))
      fun start => steps_fields (lockstep_start hR hr hdocument hctx false start) hsited halike hn
      hpart
  · intro m m' first hmem _ hsited hkind' hreshaped hn
    have hpart := hparts m hmem hsited
    rw [hkind', hpart]
    exact steps_openedFields hR hr hdocument hctx hsited hpart (hnone.child hmem) hreshaped hn

end

end Binding

end AutoProperty
