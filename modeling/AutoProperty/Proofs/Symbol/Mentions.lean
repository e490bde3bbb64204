import AutoProperty.Proofs.Symbol.Names
import AutoProperty.Symbol.References

/-! # Where references lie

The references of a symbol come in order, and each of them lies at a name that is present in its
document.
-/

namespace AutoProperty

/-! ## Lists without repetitions -/

section Repetitions

variable {α : Type} [BEq α] [LawfulBEq α]

/-- In a list in order, equal entries stand side by side. -/
def IsOrdered (as : List α) : Prop :=
  ∃ r : α → α → Prop, as.Pairwise r ∧ ∀ a ∈ as, ∀ b ∈ as, r a b → r b a → a = b

omit [BEq α] [LawfulBEq α] in
theorem IsOrdered.tail {a : α} {as : List α} (h : IsOrdered (a :: as)) : IsOrdered as := by
  obtain ⟨r, hpairs, hsame⟩ := h
  exact ⟨r, hpairs.tail,
    fun x hx y hy => hsame x (List.mem_cons_of_mem a hx) y (List.mem_cons_of_mem a hy)⟩

/-- The loop drops repetitions that stand side by side, which are all of them in a list in order. -/
theorem eraseRepsBy_loop (a : α) (as acc : List α) : ∃ rest,
    List.eraseRepsBy.loop (fun x y => x == y) a as acc = acc.reverse ++ rest ∧
      rest.Sublist (a :: as) ∧ (∀ x ∈ a :: as, x ∈ rest) ∧ (IsOrdered (a :: as) → rest.Nodup) := by
  induction as generalizing a acc with
  | nil =>
    exact ⟨[a], by
        simp [List.eraseRepsBy.loop], .refl _, fun x hx => hx, fun _ => List.nodup_singleton a⟩
  | cons b as ih =>
    rw [List.eraseRepsBy.loop]
    cases hab : a == b with
    | true =>
      obtain rfl := eq_of_beq hab
      obtain ⟨rest, heq, hsublist, hmem, hnodup⟩ := ih a acc
      refine ⟨rest, heq, hsublist.trans (List.sublist_cons_self a (a :: as)), fun x hx => hmem x ?_,
        fun h => hnodup h.tail⟩
      obtain rfl | hx := List.mem_cons.mp hx
      · exact List.mem_cons_self
      · exact hx
    | false =>
      obtain ⟨rest, heq, hsublist, hmem, hnodup⟩ := ih b (a :: acc)
      refine ⟨a ::
        rest, by
          simp [heq], hsublist.cons_cons a, fun x hx => ?_,
            fun h => List.nodup_cons.mpr ⟨fun hrest => ?_, hnodup h.tail⟩⟩
      · obtain rfl | hx := List.mem_cons.mp hx
        · exact List.mem_cons_self
        · exact List.mem_cons_of_mem _ (hmem x hx)
      · -- What comes again behind another entry would be equal to that one.
        obtain ⟨r, hpairs, hsame⟩ := h
        obtain ⟨hfirst, hrests⟩ := List.pairwise_cons.mp hpairs
        obtain rfl | ha := List.mem_cons.mp (hsublist.mem hrest)
        · simp at hab
        · have heq :=
            hsame a List.mem_cons_self b (List.mem_cons_of_mem a List.mem_cons_self)
              (hfirst b List.mem_cons_self)
            ((List.pairwise_cons.mp hrests).1 a ha)
          simp [heq] at hab

theorem eraseReps_sublist (as : List α) : as.eraseReps.Sublist as := by
  cases as with
  | nil => exact .refl _
  | cons a as =>
    obtain ⟨rest, heq, hsublist, _⟩ := eraseRepsBy_loop a as []
    rwa [List.eraseReps, List.eraseRepsBy, heq]

/-- Dropping repetitions loses no entry. -/
theorem mem_eraseReps {a : α} {as : List α} : a ∈ as.eraseReps ↔ a ∈ as := by
  refine ⟨(eraseReps_sublist as).mem, fun h => ?_⟩
  cases as with
  | nil => exact h
  | cons b as =>
    obtain ⟨rest, heq, _, hmem, _⟩ := eraseRepsBy_loop b as []
    rw [List.eraseReps, List.eraseRepsBy, heq]
    exact hmem a h

theorem nodup_eraseReps {as : List α} (h : IsOrdered as) : as.eraseReps.Nodup := by
  cases as with
  | nil => exact List.nodup_nil
  | cons a as =>
    obtain ⟨rest, heq, _, _, hnodup⟩ := eraseRepsBy_loop a as []
    rw [List.eraseReps, List.eraseRepsBy, heq]
    exact hnodup h

/-- The distinct elements of a list are distinct. -/
theorem nodup_eraseDups (as : List α) : as.eraseDups.Nodup := by
  match as with
  | [] => exact List.nodup_nil
  | a :: as =>
    rw [List.eraseDups_cons]
    refine List.nodup_cons.mpr ⟨fun hmem => ?_, nodup_eraseDups (as.filter fun b => !b == a)⟩
    have := (List.mem_filter.mp (List.mem_eraseDups.mp hmem)).2
    simp at this
termination_by as.length
decreasing_by
  have := List.length_filter_le (fun b => !b == a) as
  simp only [List.length_cons]
  omega

end Repetitions

theorem lookup_of_mem {α β : Type} [BEq α] [LawfulBEq α] {entries : List (α × β)}
    (h : (entries.map (·.1)).Nodup) {key : α} {value : β} (hmem : (key, value) ∈ entries) :
    entries.lookup key = some value := by
  obtain ⟨before, after, rfl⟩ := List.append_of_mem hmem
  rw [List.lookup_eq_some_iff]
  refine ⟨before, after, rfl, fun e he => ?_⟩
  rw [List.map_append, List.map_cons, List.nodup_append] at h
  have hne := h.2.2 e.1 (List.mem_map_of_mem he) key List.mem_cons_self
  simpa [bne_iff_ne] using fun heq => hne heq.symm

namespace Compilation

variable {c : Compilation} {s : Symbol} {r : Reference}

/-! ## Order -/

/-- References are in order by document, then by the start of their span. -/
theorem precedes_iff (c : Compilation) (a b : Reference) : c.precedes a b ↔
    c.documentOrder a.document < c.documentOrder b.document ∨
      c.documentOrder a.document = c.documentOrder b.document ∧ a.span.start ≤ b.span.start := by
  rw [precedes]
  split
  next h => simp [Nat.compare_eq_lt.mp h]
  next h => simp [Nat.compare_eq_eq.mp h]
  next h =>
    have := Nat.compare_eq_gt.mp h
    simp only [Bool.false_eq_true, false_iff]
    omega

/-- Inserting a reference loses none and makes none up. -/
theorem insertInOrder_perm (c : Compilation) (r : Reference) (references : List Reference) :
    (c.insertInOrder r references).Perm (r :: references) := by
  induction references with
  | nil => exact .refl _
  | cons other others ih =>
    rw [insertInOrder]
    split
    next => exact .refl _
    next => exact (ih.cons other).trans (.swap r other others)

theorem inOrder_perm (c : Compilation) (references : List Reference) :
    (c.inOrder references).Perm references := by
  induction references with
  | nil => exact .refl _
  | cons r references ih => exact (c.insertInOrder_perm r _).trans (ih.cons r)

theorem mem_inOrder {references : List Reference} : r ∈ c.inOrder references ↔ r ∈ references :=
  (c.inOrder_perm references).mem_iff

/-- Inserting keeps references in order. -/
theorem pairwise_insertInOrder {references : List Reference} (r : Reference)
    (h : references.Pairwise fun a b => c.precedes a b) :
    (c.insertInOrder r references).Pairwise fun a b => c.precedes a b := by
  induction references with
  | nil => exact List.pairwise_singleton _ _
  | cons other others ih =>
    obtain ⟨hother, hothers⟩ := List.pairwise_cons.mp h
    rw [insertInOrder]
    split
    next hfirst =>
      refine .cons (List.forall_mem_cons.mpr ⟨hfirst, fun b hb => ?_⟩) h
      have hbehind := hother b hb
      rw [precedes_iff] at hfirst hbehind ⊢
      omega
    next hbehind =>
      have hother' : c.precedes other r := by
        rw [precedes_iff] at hbehind ⊢
        omega
      refine .cons (fun b hb => ?_) (ih hothers)
      obtain rfl | hb := List.mem_cons.mp ((c.insertInOrder_perm r others).mem_iff.mp hb)
      · exact hother'
      · exact hother b hb

theorem pairwise_inOrder (c : Compilation) (references : List Reference) :
    (c.inOrder references).Pairwise fun a b => c.precedes a b := by
  induction references with
  | nil => exact .nil
  | cons r references ih => exact pairwise_insertInOrder r ih

/-- Within a document, the references come in the order of the text. -/
theorem references_sorted (c : Compilation) (s : Symbol) (document : DocumentId) :
    ((c.references s).filter (·.document == document)).Pairwise fun a b =>
      a.span.start ≤ b.span.start := by
  rw [references]
  split
  next => exact .nil
  next s _ =>
    rw [arrange]
    refine List.Pairwise.imp_of_mem (fun {a b} ha hb hab => ?_)
      ((List.Pairwise.sublist (eraseReps_sublist _) (c.pairwise_inOrder _)).filter _)
    have hdocument : a.document = b.document := by
      rw [eq_of_beq (List.mem_filter.mp ha).2, eq_of_beq (List.mem_filter.mp hb).2]
    rw [precedes_iff, hdocument] at hab
    omega

/-! ## Places -/

def Mentions (c : Compilation) (s : Symbol) (document : DocumentId) (f : TokenFocus) : Prop :=
  c.table.single? ⟨document, f.leaf.index⟩ = some s.id

/-- A place that mentions something is one where a name was bound. -/
theorem exists_binding_of_single? {t : SymbolTable} {place : Place} {id : SymbolId}
    (h : t.single? place = some id) : (place, [id]) ∈ t.bindings := by
  rw [SymbolTable.single?, SymbolTable.bound] at h
  split at h
  next id' hbound =>
    cases h
    cases hlookup : t.bindings.lookup place with
    | none => simp [hlookup] at hbound
    | some ids =>
      obtain ⟨before, after, heq, _⟩ := List.lookup_eq_some_iff.mp hlookup
      rw [hlookup, Option.getD_some] at hbound
      rw [heq, ← hbound]
      exact List.mem_append_right _ List.mem_cons_self
  next => cases h

/-- The table of bindings leads to all tokens that mention a symbol. -/
theorem mem_mentions : r ∈ c.mentions s.id ↔ ∃ document tree, c.tree? document = some tree ∧
    ∃ f ∈ tree.tokens, c.Mentions s document f ∧ r = ⟨document, f.leaf.span, false⟩ := by
  rw [mentions, List.mem_filterMap]
  constructor
  · rintro ⟨place, _, hmention⟩
    split at hmention
    next hsingle =>
      obtain ⟨tree, htree, hmention⟩ := Option.bind_eq_some_iff.mp hmention
      obtain ⟨f, hf, heq⟩ := Option.bind_eq_some_iff.mp hmention
      have hplace : (⟨place.document, f.leaf.index⟩ : Place) = place := by
        rw [Tree.index_of_getElem? hf]
      refine ⟨_, tree, htree, f, List.mem_of_getElem? hf, ?_, (Option.some.inj heq).symm⟩
      rw [Mentions, hplace]
      exact eq_of_beq hsingle
    next => cases hmention
  · rintro ⟨document, tree, htree, f, hf, hmention, rfl⟩
    obtain ⟨n, hn⟩ := List.getElem?_of_mem hf
    have hindex := Tree.index_of_getElem? hn
    refine ⟨⟨document, f.leaf.index⟩, ?_, ?_⟩
    · rw [SymbolTable.boundPlaces, List.mem_eraseDups]
      exact List.mem_map.mpr ⟨_, exists_binding_of_single? hmention, rfl⟩
    · rw [if_pos (beq_iff_eq.mpr hmention), htree, hindex]
      simp [hn]

theorem mem_arrange {mentions : List Reference} : r ∈ c.arrange s mentions ↔
    (∃ d ∈ s.data.declarations, r = ⟨d.place.document, d.nameSpan, true⟩) ∨ r ∈ mentions := by
  simp only [arrange, mem_eraseReps, mem_inOrder, List.mem_append, List.mem_map, eq_comm (a := r)]

theorem mem_references (h : c.resolve? s = some s) : r ∈ c.references s ↔
    (∃ d ∈ s.data.declarations, r = ⟨d.place.document, d.nameSpan, true⟩) ∨
      ∃ document tree, c.tree? document = some tree ∧ ∃ f ∈ tree.tokens, c.Mentions s document f ∧
        r = ⟨document, f.leaf.span, false⟩ := by
  rw [references, h]
  exact mem_arrange.trans (or_congr_right mem_mentions)

/-- The compilation of a project whose documents are all different. -/
structure IsBuilt (c : Compilation) : Prop where
  table : c.table = .build c.documents
  nodup : (c.documents.map (·.1)).Nodup

theorem IsBuilt.tree? (h : c.IsBuilt) {document : DocumentId} {tree : Tree}
    (hdocument : (document, tree) ∈ c.documents) : c.tree? document = some tree :=
  lookup_of_mem h.nodup hdocument

theorem mem_documents_of_tree? {document : DocumentId} {tree : Tree}
    (h : c.tree? document = some tree) : (document, tree) ∈ c.documents := by
  obtain ⟨before, after, heq, _⟩ := List.lookup_eq_some_iff.mp h
  rw [heq]
  exact List.mem_append_right _ List.mem_cons_self

theorem IsBuilt.mem_references (h : c.IsBuilt) (hresolve : c.resolve? s = some s) :
    r ∈ c.references s ↔ (∃ d ∈ s.data.declarations, r = ⟨d.place.document, d.nameSpan, true⟩) ∨
      ∃ document tree, (document, tree) ∈ c.documents ∧ ∃ f ∈ tree.tokens, c.Mentions s document f ∧
        r = ⟨document, f.leaf.span, false⟩ := by
  have htree {document : DocumentId} {tree : Tree} :
      c.tree? document = some tree ↔ (document, tree) ∈ c.documents :=
    ⟨mem_documents_of_tree?, h.tree?⟩
  simp only [Compilation.mem_references hresolve, htree]

/-- Every reference of a symbol is a name that is present. -/
theorem IsBuilt.exists_name (h : c.IsBuilt) (hs : c.symbol? s.id = some s)
    (hr : r ∈ c.references s) :
    ∃ tree, c.tree? r.document = some tree ∧ ∃ f ∈ tree.tokens,
      f.leaf.text ≠ "" ∧ f.leaf.span = r.span := by
  obtain ⟨data, hdata, heq⟩ := Option.map_eq_some_iff.mp hs
  have hpresent := SymbolTable.present_build c.documents
  rw [← h.table] at hpresent
  have hresolve : c.resolve? s = some s := if_pos (by rw [← heq])
  obtain ⟨d, hd, rfl⟩ | ⟨document, tree, hdocument, f, hf, hmention, rfl⟩ :=
    (h.mem_references hresolve).mp hr
  · have hmem : s.data ∈ c.table.symbols := by
      rw [← heq]
      exact List.mem_of_getElem? hdata
    obtain ⟨tree, hdocument, f, hf, htext, hspan, _⟩ := hpresent.named s.data hmem d hd
    exact ⟨tree, h.tree? hdocument, f, hf, htext, hspan⟩
  · obtain ⟨tree', hdocument', g, hg, htext, hindex, _⟩ :=
      hpresent.bound _ (exists_binding_of_single? hmention)
    obtain rfl : tree' = tree :=
      Option.some.inj ((h.tree? hdocument').symm.trans (h.tree? hdocument))
    obtain rfl := Tree.eq_of_index hg hf hindex
    exact ⟨tree', h.tree? hdocument, g, hg, htext, rfl⟩

end Compilation

end AutoProperty
