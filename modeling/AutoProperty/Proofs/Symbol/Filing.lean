import AutoProperty.Proofs.Symbol.Coherence
import AutoProperty.Proofs.Symbol.Images

/-! # Where members are filed

The key of a member is made of the path of its type, a point, a label and perhaps a number. The
parts can be told from each other, so a path leads back to the type and to the name of the
member.
-/

namespace AutoProperty

/-- Two ways to part a list are the same one if the parts behind do not hold what parts them. -/
theorem append_cons_inj {α : Type} {xs xs' ys ys' : List α} {c d : α}
    (h : xs ++ c :: ys = xs' ++ d :: ys') (hc : c ∉ ys') (hd : d ∉ ys) :
    xs = xs' ∧ c = d ∧ ys = ys' := by
  obtain ⟨between, rfl, hrest⟩ | ⟨between, rfl, hrest⟩ := List.append_eq_append_iff.mp h
  · cases between with
    | nil =>
      obtain ⟨rfl, rfl⟩ := List.cons.inj hrest
      exact ⟨(List.append_nil xs).symm, rfl, rfl⟩
    | cons _ between =>
      obtain ⟨_, rfl⟩ := List.cons.inj hrest
      exact absurd (List.mem_append_right _ List.mem_cons_self) hd
  · cases between with
    | nil =>
      obtain ⟨rfl, rfl⟩ := List.cons.inj hrest
      exact ⟨List.append_nil xs', rfl, rfl⟩
    | cons _ between =>
      obtain ⟨_, rfl⟩ := List.cons.inj hrest
      exact absurd (List.mem_append_right _ List.mem_cons_self) hc

/-! ## Locals -/

namespace Key

def isLocalOf (key owner : Key) : Bool :=
  key.kind == .localVariable && (splitPath key.path.toList).1 == owner.path.toList ++ ['.']

/-- A path is split at its last point. -/
theorem splitPath_of_notMem {last : List Char} (h : '.' ∉ last) (before : List Char) :
    (splitPath last).1 = [] ∧ (splitPath (before ++ '.' :: last)).1 = before ++ ['.'] := by
  have hlast : ∀ c ∈ last.reverse, (c != '.') = true :=
    fun c hc => bne_iff_ne.mpr (ne_of_mem_of_not_mem (List.mem_reverse.mp hc) h)
  constructor
  · rw [splitPath, show last.reverse.dropWhile (· != '.') = [] from List.dropWhile_eq_nil_iff.mpr
      hlast]
    rfl
  · have hreverse : (before ++ '.' :: last).reverse = last.reverse ++ '.' :: before.reverse := by
      simp
    rw [splitPath, hreverse, List.dropWhile_append_of_pos hlast,
      List.dropWhile_cons_of_neg (by decide)]
    simp

/-- A local belongs to what has the path that its key begins with. -/
theorem isLocalOf_within {outer? : Option Key} (houter : ∀ outer ∈ outer?, outer.path ≠ "")
    {label : String} (hlabel : '.' ∉ label.toList) (owner : Key) :
    (within outer? .localVariable label).isLocalOf owner ↔
      ∃ outer ∈ outer?, outer.path = owner.path := by
  rw [isLocalOf, kind_within, beq_self_eq_true, Bool.true_and, beq_iff_eq]
  cases outer? with
  | none =>
    have hsplit := (splitPath_of_notMem hlabel []).1
    simp [within, hsplit]
  | some outer =>
    have hpath : outer.path.isEmpty = false := by simpa [String.isEmpty_iff] using houter outer rfl
    have hsplit := (splitPath_of_notMem hlabel outer.path.toList).2
    have hlist : (within (some outer) .localVariable label).path.toList = outer.path.toList ++
        '.' :: label.toList := by
      simp [within, child, hpath]
    rw [hlist, hsplit, List.append_left_inj, String.toList_inj]
    simp

end Key

namespace SymbolTable

/-- Numbers hold nothing but digits behind their sign. -/
theorem IsNumber.notMem {number : String} (h : IsNumber number) {c : Char} (hsign : c ≠ '#')
    (hdigit : c.isDigit = false) : c ∉ number.toList := by
  obtain rfl | ⟨n, rfl⟩ := h
  · exact List.not_mem_nil
  · simpa [hsign] using notMem_toString hdigit n

/-- A name can be told from the number behind it. -/
theorem IsNumber.eq_of_append {number number' name name' : String} (h : IsNumber number)
    (h' : IsNumber number') (hname : IsWord name.toList) (hname' : IsWord name'.toList)
    (heq : name.toList ++ number.toList = name'.toList ++ number'.toList) : name = name' := by
  have hsign {name : String} (hname : IsWord name.toList) : '#' ∉ name.toList :=
    hname.notMem (by decide)
  obtain rfl | ⟨n, rfl⟩ := h <;> obtain rfl | ⟨n', rfl⟩ := h'
  · simpa [String.toList_inj] using heq
  · refine absurd ?_ (hsign hname)
    rw [show name.toList = _ from (List.append_nil _).symm.trans heq]
    simp
  · refine absurd ?_ (hsign hname')
    rw [show name'.toList = _ from (List.append_nil _).symm.trans heq.symm]
    simp
  · have hsplit (name : String) (n : Nat) : name.toList ++ ("#" ++ toString n).toList =
        name.toList ++ '#' :: (toString n).toList := by simp
    rw [hsplit, hsplit] at heq
    exact String.toList_inj.mp
      (append_cons_inj heq (notMem_toString rfl _) (notMem_toString rfl _)).1

/-- A path leads back to the type and to the name. -/
theorem IsKeyed.eq_of_paths {t : SymbolTable} (h : t.IsKeyed) {type type' : SymbolId}
    {outer outer' : SymbolData} (houter : t.data? type = some outer)
    (houter' : t.data? type' = some outer') (hkind : outer.kind = .namedType)
    (hkind' : outer'.kind = .namedType) {name name' number number' : String}
    (hname : IsWord name.toList) (hname' : IsWord name'.toList) (hnumber : IsNumber number)
    (hnumber' : IsNumber number')
    (heq : outer.key.path ++ "." ++ name ++ number = outer'.key.path ++ "." ++ name' ++ number') :
    type = type' ∧ name = name' := by
  have hlist (path name number : String) : (path ++ "." ++ name ++ number).toList = path.toList ++
      '.' :: (name.toList ++ number.toList) := by
    simp
  have hpoint {name number : String} (hname : IsWord name.toList) (hnumber : IsNumber number) :
      '.' ∉ name.toList ++ number.toList :=
    List.mem_append.not.mpr (not_or.mpr ⟨hname.notMem (by decide), hnumber.notMem (by decide) rfl⟩)
  have heq := congrArg String.toList heq
  rw [hlist, hlist] at heq
  obtain ⟨hpath, _, hrest⟩ := append_cons_inj heq (hpoint hname' hnumber') (hpoint hname hnumber)
  refine ⟨?_, hnumber.eq_of_append hnumber' hname hname' hrest⟩
  have hkey : outer.key = outer'.key := Key.eq_of_parts
    ((h.kinds _ _ houter).trans (hkind.trans ((h.kinds _ _ houter').trans hkind').symm))
    (String.toList_inj.mp hpath)
  exact h.keys.eq_of_keyed ⟨outer, houter, rfl⟩ ⟨outer', houter', hkey.symm⟩

/-- A field that may ask for the key of another one is of the same type and has the same name. -/
theorem IsKeyed.eq_of_asks {t : SymbolTable} (h : t.IsKeyed) {data data' : SymbolData}
    (hfiled : t.IsFiled data) (hfiled' : t.IsFiled data') (hkind' : data'.kind = .field)
    (hname : IsWord data.name.toList) (hname' : IsWord data'.name.toList)
    (hpaths : ∀ id outer, t.data? id = some outer → outer.key.path ≠ "") {outer? : Option Key}
    (houter : t.HasKey? data.container? outer?) {number : String} (hnumber : IsNumber number)
    (heq : Key.within outer? .field (data.name ++ number) = data'.key) :
    data.container? = data'.container? ∧ data.name = data'.name := by
  obtain ⟨type, outer, _, hcontainer, hdata, hkind, _, _⟩ := hfiled
  obtain ⟨type', outer', number', hcontainer', hdata', hkindOuter', hnumber', hpath'⟩ := hfiled'
  rw [SymbolData.label, hkind'] at hpath'
  rw [hcontainer] at houter
  obtain ⟨key, rfl, hkeyed⟩ : ∃ key, outer? = some key ∧ t.Keyed type key := by
    cases houter with
    | some hkeyed => exact ⟨_, rfl, hkeyed⟩
  obtain rfl : key = outer.key := hkeyed.eq ⟨outer, hdata, rfl⟩
  have hpath : outer.key.path ++ "." ++ data.name ++ number = outer'.key.path ++ "." ++
      data'.name ++ number' := by
    rw [← hpath', ← heq, Key.within, Key.child,
      if_neg (by simpa [String.isEmpty_iff] using hpaths _ _ hdata)]
    simp only [String.append_assoc]
  obtain ⟨rfl, hsame⟩ :=
    h.eq_of_paths hdata hdata' hkind hkindOuter' hname hname' hnumber hnumber' hpath
  exact ⟨hcontainer.trans hcontainer'.symm, hsame⟩

/-- Methods never have the path of what is named by a word. -/
theorem IsFiled.path_ne {t : SymbolTable} {data data' : SymbolData} (h : t.IsFiled data)
    (h' : t.IsFiled data') (hmethod : data.kind = .method) (hkind : data'.kind = .property)
    (hname : IsWord data'.name.toList) : data.key.path ≠ data'.key.path := by
  obtain ⟨_, outer, number, _, _, _, hnumber, hpath⟩ := h
  obtain ⟨_, outer', number', _, _, _, hnumber', hpath'⟩ := h'
  intro heq
  rw [hpath, hpath', SymbolData.label, SymbolData.label, hmethod, hkind] at heq
  have heq := congrArg String.toList heq
  -- What the last bracket opens cannot begin with the last point.
  have hsplit : (outer.key.path ++ "." ++ data.name).toList ++ '(' ::
      ((toString data.arity).toList ++ ')' :: number.toList) =
      outer'.key.path.toList ++ '.' :: (data'.name.toList ++ number'.toList) := by
    simpa using heq
  refine absurd (append_cons_inj hsplit ?_ ?_).2.1 (by decide)
  · exact List.mem_append.not.mpr
      (not_or.mpr ⟨hname.notMem (by decide), hnumber'.notMem (by decide) rfl⟩)
  · simpa using And.intro (notMem_toString rfl data.arity) (hnumber.notMem (by decide) rfl)

/-! ## What is declared -/

section Documents

variable {documents : List (DocumentId × Tree)} {id : SymbolId} {data : SymbolData}

theorem hasFiledMembers_declareDocuments (documents : List (DocumentId × Tree)) :
    (declareDocuments documents).HasFiledMembers :=
  (extends_declareDocuments documents).filed fun _ _ h => by cases h

/-- Fields and properties are named by words. -/
theorem Sound.isWord_memberName {t : SymbolTable} (h : Sound documents t)
    (hwords : ∀ d ∈ documents, d.2.HasWords) (hdata : t.data? id = some data)
    (hkind : data.kind = .field ∨ data.kind = .property) : IsWord data.name.toList := by
  have hsingle : data.kind.isSingle := by
    obtain hkind | hkind := hkind <;> rw [hkind]
    · exact SymbolKind.isSingle_field
    · exact SymbolKind.isSingle_property
  obtain ⟨_, _, tree, hdocument, f, hf, _, hdeclares, name, hname, _, htext⟩ :=
    h.single id data hdata hsingle
  obtain ⟨_, hidentifier, hpresent⟩ := PlacedNode.name?_mem hname
  have hnode : f.node.kind ≠ .constructorDeclaration := by
    intro heq
    obtain hkind | hkind := hkind <;> rw [hkind] at hdeclares
    · exact absurd (heq.symm.trans hdeclares.1) (by decide)
    · exact absurd (heq.symm.trans hdeclares.1) (by decide)
  rw [htext.resolve_right fun hconstructor => hnode hconstructor.1]
  exact (hwords _ hdocument).word _ (Tree.nameFocus_mem hf hname) hidentifier hpresent

/-- The place of a declaration is that of the symbol. -/
theorem declared?_of_mem (hnodup : (documents.map (·.1)).Nodup)
    (hdata : (declareDocuments documents).data? id = some data) (hkind : data.kind ≠ .nameSpace)
    {d : Declaration} (hd : d ∈ data.declarations) :
    (declareDocuments documents).declared? d.place = some id :=
  lookup_of_mem (nodup_declared hnodup)
    (isNoted_declareDocuments documents id data hdata hkind d hd)

end Documents

end SymbolTable

end AutoProperty
