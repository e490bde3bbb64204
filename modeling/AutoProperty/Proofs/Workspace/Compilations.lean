import AutoProperty.Proofs.Symbol.Coherence
import AutoProperty.Proofs.Workspace.Twins

/-! # Compilations are coherent

However the passes over a project fill its table, the parts of a compilation agree: symbols,
keys, containers, members, declaring nodes and bound names all lead to one another.
-/

namespace AutoProperty

/-! ## Written keys -/

theorem SymbolKind.ofLetter?_letter (kind : SymbolKind) : ofLetter? kind.letter = some kind := by
  cases kind <;> rfl

/-- A written key is read back. -/
theorem Key.parse_display {key : Key} (h : key.path ≠ "") : parse key.display = .ok key := by
  obtain ⟨kind, path⟩ := key
  cases hpath : path.toList with
  | nil => exact absurd (String.toList_eq_nil_iff.mp hpath) h
  | cons c cs =>
    obtain rfl : String.ofList (c :: cs) = path := by rw [← hpath, String.ofList_toList]
    rw [parse, display, String.toList_ofList, hpath]
    simp [SymbolKind.ofLetter?_letter]

theorem AllParsed.hasWords {documents : List (DocumentId × Tree)} (h : AllParsed documents) :
    ∀ d ∈ documents, d.2.HasWords := by
  intro d hd
  obtain ⟨text, htext⟩ := h d hd
  exact Tree.hasWords htext

/-! ## Chains of containers -/

namespace SymbolTable

variable {t : SymbolTable}

/-- Containers come before what they contain, so a walk outwards ends at a symbol without one. -/
theorem IsLayered.exists_outermost (h : t.IsLayered) :
    ∀ (steps : Nat) (id : SymbolId), id.index < steps → id.index < t.symbols.length →
      ∃ last data, (t.outwardFrom steps (some id)).getLast? = some last ∧ t.data? last = some data ∧
      data.container? = none := by
  intro steps
  induction steps with
  | zero => exact fun _ h _ => absurd h (Nat.not_lt_zero _)
  | succ steps ih =>
    intro id hsteps hlt
    have hdata : t.data? id = some t.symbols[id.index] := List.getElem?_eq_getElem hlt
    rw [outwardFrom, hdata]
    dsimp only
    cases hcontainer : t.symbols[id.index].container? with
    | none =>
      refine ⟨id, _, ?_, hdata, hcontainer⟩
      cases steps <;> rfl
    | some outer =>
      have hbefore := h id _ hdata outer hcontainer
      obtain ⟨last, data, hlast, hfound⟩ := ih outer (by omega) (by omega)
      refine ⟨last, data, ?_, hfound⟩
      rw [List.getLast?_cons, hlast]
      rfl

end SymbolTable

namespace Compilation

variable {c : Compilation} {s : Symbol}

/-! ## Symbols -/

theorem mem_symbols : s ∈ c.symbols ↔ s.compilation = c.id ∧ c.table.data? s.id = some s.data := by
  rw [symbols, List.mem_map]
  constructor
  · rintro ⟨⟨data, i⟩, hmem, rfl⟩
    exact ⟨rfl, List.mk_mem_zipIdx_iff_getElem?.mp hmem⟩
  · rintro ⟨hid, hdata⟩
    exact ⟨(s.data, s.id.index), List.mk_mem_zipIdx_iff_getElem?.mpr hdata, by rw [← hid]⟩

theorem symbol?_of_mem (h : s ∈ c.symbols) : c.symbol? s.id = some s := by
  obtain ⟨hid, hdata⟩ := mem_symbols.mp h
  rw [symbol?, hdata, ← hid]
  rfl

theorem mem_symbols_of_symbolByKey? {key : Key} (h : c.symbolByKey? key = some s) :
    s ∈ c.symbols := by
  obtain ⟨_, _, hsymbol⟩ := Option.bind_eq_some_iff.mp h
  obtain ⟨_, hdata, rfl⟩ := Option.map_eq_some_iff.mp hsymbol
  exact mem_symbols.mpr ⟨rfl, hdata⟩

/-- The members of a type are what it contains, if containers come first. -/
theorem mem_members (hlayered : c.table.IsLayered) {type : Symbol} (htype : type ∈ c.symbols)
    (hkind : type.kind = .namedType) :
    s ∈ c.members type ↔
      s ∈ c.symbols ∧ s.data.container? = some type.id ∧
      (s.kind.isMember ∨ s.kind = .namedType) := by
  obtain ⟨hid, hdata⟩ := mem_symbols.mp htype
  have hisType : c.table.isType type.id := by
    simp [SymbolTable.isType, SymbolTable.kind?, hdata, show type.data.kind = _ from hkind]
  rw [members, if_pos hid, List.mem_filterMap]
  constructor
  · rintro ⟨id, hmember, hsymbol⟩
    obtain ⟨_, _, data, hdata, hcontainer, hlisted⟩ := SymbolTable.mem_members.mp hmember
    obtain ⟨_, hdata', rfl⟩ := Option.map_eq_some_iff.mp hsymbol
    obtain rfl := Option.some.inj (hdata.symm.trans hdata')
    exact ⟨mem_symbols.mpr ⟨rfl, hdata⟩, hcontainer, SymbolData.isListed_iff.mp hlisted⟩
  · rintro ⟨hs, hcontainer, hlisted⟩
    have hdata := (mem_symbols.mp hs).2
    refine ⟨s.id, SymbolTable.mem_members.mpr ⟨hisType, ?_, s.data, hdata, hcontainer, ?_⟩,
      symbol?_of_mem hs⟩
    · exact hlayered s.id s.data hdata type.id hcontainer
    · exact SymbolData.isListed_iff.mpr hlisted

/-- Members are listed in the order of their declaration. -/
theorem pairwise_members (c : Compilation) (type : Symbol) :
    (c.members type).Pairwise fun a b => a.id.index < b.id.index := by
  rw [members]
  split
  swap
  · exact List.Pairwise.nil
  refine (c.table.pairwise_members type.id).filterMap _ fun a b hlt s hs s' hs' => ?_
  obtain ⟨_, _, rfl⟩ := Option.map_eq_some_iff.mp hs
  obtain ⟨_, _, rfl⟩ := Option.map_eq_some_iff.mp hs'
  exact hlt

/-- The table of keys has each symbol under its key, and nothing else. -/
theorem find?_eq_some_iff (hkeys : c.table.KeysNodup) {key : Key} {id : SymbolId} :
    c.table.find? key = some id ↔ ∃ s ∈ c.symbols, s.key = key ∧ s.id = id := by
  constructor
  · intro hfind
    obtain ⟨data, hdata, hkey⟩ := SymbolTable.find?_some hfind
    exact ⟨⟨c.id, id, data⟩, mem_symbols.mpr ⟨rfl, hdata⟩, hkey, rfl⟩
  · rintro ⟨s, hs, rfl, rfl⟩
    exact hkeys.find? (mem_symbols.mp hs).2

/-- The table of simple names has just the types that have the name. -/
theorem mem_typesNamed {name : String} {id : SymbolId} : id ∈ c.table.typesNamed name ↔
    ∃ s ∈ c.symbols, s.id = id ∧ s.kind = .namedType ∧ s.name = name := by
  rw [SymbolTable.mem_typesNamed]
  constructor
  · rintro ⟨data, hdata, hkind, hname⟩
    exact ⟨⟨c.id, id, data⟩, mem_symbols.mpr ⟨rfl, hdata⟩, rfl, hkind, hname⟩
  · rintro ⟨s, hs, rfl, hkind, hname⟩
    exact ⟨s.data, (mem_symbols.mp hs).2, hkind, hname⟩

/-- The parts of a compilation agree. -/
structure IsCoherent (c : Compilation) : Prop where
  /-- Different symbols have different keys. -/
  keys : ∀ a ∈ c.symbols, ∀ b ∈ c.symbols, a.key = b.key → a = b
  /-- A written key leads back to the symbol. -/
  found : ∀ s ∈ c.symbols, ∃ key, Key.parse s.key.display = .ok key ∧ c.symbolByKey? key = some s
  /-- The table of keys leads to the symbol with a key. -/
  keyTable : ∀ key id, c.table.find? key = some id ↔ ∃ s ∈ c.symbols, s.key = key ∧ s.id = id
  /-- The table of simple names lists the types with a name, in the order of all symbols. -/
  typeTable : ∀ name, (c.table.typesNamed name).Pairwise (fun a b => a.index < b.index) ∧
    ∀ id, id ∈ c.table.typesNamed name ↔
      ∃ s ∈ c.symbols, s.id = id ∧ s.kind = .namedType ∧ s.name = name
  /-- What contains a symbol comes before it. -/
  containers : ∀ s ∈ c.symbols, ∀ outer ∈ s.data.container?, outer.index < s.id.index ∧
    ∃ o ∈ c.symbols, o.id = outer
  /-- A walk outwards ends. -/
  chains : ∀ s ∈ c.symbols, ∃ last ∈ c.symbols,
    (c.table.outward (some s.id)).getLast? = some last.id ∧
    last.data.container? = none
  /-- The table of members lists what a type contains, in the order of all symbols. -/
  members : ∀ type ∈ c.symbols, type.kind = .namedType →
    (c.members type).Pairwise (fun a b => a.id.index < b.id.index) ∧ ∀ s, s ∈ c.members type ↔
      s ∈ c.symbols ∧ s.data.container? = some type.id ∧ (s.kind.isMember ∨ s.kind = .namedType)
  /-- The nodes that declare a symbol, other than a namespace, are known to declare it. -/
  declared : ∀ s ∈ c.symbols, s.kind ≠ .nameSpace → ∀ d ∈ s.data.declarations, ∃ tree,
    c.tree? d.place.document = some tree ∧ ∃ f ∈ tree.nodes, f.node.index = d.place.index ∧
      c.declared? d.place.document (tree.nodeId f.node) = some s
  /-- A name is bound to different symbols, at least one, that all go by it. -/
  bound : ∀ place ids, (place, ids) ∈ c.table.bindings → ids ≠ [] ∧ ids.Nodup ∧ ∃ tree,
    c.tree? place.document = some tree ∧ ∃ f ∈ tree.tokens, f.leaf.index = place.index ∧
      ∀ id ∈ ids, ∃ s ∈ c.symbols, s.id = id ∧ s.name = f.leaf.text

/-- The table of a compilation of parsed documents is coherent. -/
theorem IsBuilt.exists_coherent (h : c.IsBuilt) (hparsed : AllParsed c.documents) :
    ∃ count, SymbolTable.Coherent c.documents count c.table :=
  ⟨_, h.table ▸ SymbolTable.coherent_build hparsed.conforms hparsed.hasWords h.nodup⟩

/-- All parts of such a compilation agree. -/
theorem IsBuilt.isCoherent (h : c.IsBuilt) (hparsed : AllParsed c.documents) : c.IsCoherent := by
  obtain ⟨_, hcoherent⟩ := h.exists_coherent hparsed
  have hexists {id : SymbolId} (hlt : id.index < c.table.symbols.length) : ∃ s ∈ c.symbols,
      s.id = id :=
    ⟨⟨c.id, id, c.table.symbols[id.index]⟩, mem_symbols.mpr ⟨rfl, List.getElem?_eq_getElem hlt⟩,
      rfl⟩
  constructor
  case keys =>
    intro a ha b hb heq
    have hfind : some a.id = some b.id := by
      rw [← hcoherent.keys.find? (mem_symbols.mp ha).2,
        ← hcoherent.keys.find? (mem_symbols.mp hb).2]
      exact congrArg _ heq
    have hsymbol := symbol?_of_mem ha
    rw [Option.some.inj hfind, symbol?_of_mem hb] at hsymbol
    exact (Option.some.inj hsymbol).symm
  case found =>
    intro s hs
    obtain ⟨_, hdata⟩ := mem_symbols.mp hs
    refine ⟨s.key, Key.parse_display (hcoherent.paths s.id s.data hdata), ?_⟩
    rw [symbolByKey?, Symbol.key, hcoherent.keys.find? hdata]
    exact symbol?_of_mem hs
  case keyTable => exact fun _ _ => find?_eq_some_iff hcoherent.keys
  case typeTable => exact fun name => ⟨c.table.pairwise_typesNamed name, fun _ => mem_typesNamed⟩
  case containers =>
    intro s hs outer houter
    obtain ⟨_, hdata⟩ := mem_symbols.mp hs
    have hlt := hcoherent.layered s.id s.data hdata outer houter
    exact ⟨hlt, hexists (Nat.lt_trans hlt (List.getElem?_eq_some_iff.mp hdata).1)⟩
  case chains =>
    intro s hs
    obtain ⟨_, hdata⟩ := mem_symbols.mp hs
    have hlt := (List.getElem?_eq_some_iff.mp hdata).1
    obtain ⟨last, data, hlast, hdata', hcontainer⟩ :=
      hcoherent.layered.exists_outermost _ s.id hlt hlt
    exact ⟨⟨c.id, last, data⟩, mem_symbols.mpr ⟨rfl, hdata'⟩, hlast, hcontainer⟩
  case members =>
    exact fun type htype hkind =>
      ⟨c.pairwise_members type, fun s => mem_members hcoherent.layered htype hkind⟩
  case declared =>
    intro s hs hkind d hd
    obtain ⟨_, hdata⟩ := mem_symbols.mp hs
    have hnoted := hcoherent.noted s.id s.data hdata hkind d hd
    obtain ⟨tree, hdocument, f, hf, hindex⟩ := hcoherent.exists_node hnoted
    refine ⟨tree, h.tree? hdocument, f, hf, hindex, ?_⟩
    have hlookup : c.table.declared? d.place = some s.id := lookup_of_mem hcoherent.once hnoted
    have hplace : (⟨d.place.document, f.node.index⟩ : Place) = d.place := by rw [hindex]
    rw [declared?, h.tree? hdocument]
    simp [Tree.nodeId, declaredAt?, hplace, hlookup, symbol?_of_mem hs]
  case bound =>
    intro place ids hmem
    obtain ⟨hne, tree, hdocument, f, hf, hindex, hnodup, hnames⟩ := hcoherent.names place ids hmem
    refine ⟨hne, hnodup, tree, h.tree? hdocument, f, hf, hindex, fun id hid => ?_⟩
    obtain ⟨data, hdata, hname⟩ := hnames id hid
    exact ⟨⟨c.id, id, data⟩, mem_symbols.mpr ⟨rfl, hdata⟩, rfl, hname⟩

/-- A type in two parts, in different documents. -/
def twoParts : List (DocumentId × Tree) :=
  [(⟨0⟩, .ofText ⟨0⟩ "class C { int a; }"),
    (⟨1⟩, .ofText ⟨1⟩ "class C { int M(int p) { int x = a; return x; } }")]

theorem isBuilt_twoParts : (build ⟨0⟩ ⟨0⟩ twoParts).IsBuilt :=
  ⟨rfl, by decide⟩

theorem allParsed_twoParts : AllParsed twoParts := by
  intro d hd
  obtain rfl | hd := List.mem_cons.mp hd
  · exact ⟨_, rfl⟩
  · obtain rfl := List.mem_singleton.mp hd
    exact ⟨_, rfl⟩

/-- The tables of the type in two parts: it has a member from each of them, and in the body of
the method the field and the local are bound. -/
theorem IsBuilt.isCoherent_use : let c := build ⟨0⟩ ⟨0⟩ twoParts
    c.IsCoherent ∧
      c.symbols.map (·.key.display) = ["T:C", "F:C.a", "M:C.M(1)", "A:C.M(1).p", "L:C.M(1).x#0"] ∧
      c.table.members ⟨0⟩ = [⟨1⟩, ⟨2⟩] ∧ c.table.typesNamed "C" = [⟨0⟩] ∧
      c.table.bindings = [(⟨⟨1⟩, 16⟩, [⟨4⟩]), (⟨⟨1⟩, 13⟩, [⟨1⟩])] :=
  ⟨IsBuilt.isCoherent isBuilt_twoParts allParsed_twoParts, by decide +kernel, by decide +kernel,
    by decide +kernel, by decide +kernel⟩

end Compilation

end AutoProperty
