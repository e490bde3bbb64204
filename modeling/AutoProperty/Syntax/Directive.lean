import AutoProperty.Syntax.Trivia

/-! # Balanced directives

Directives come in groups: `#if` with its branches up to `#endif`, and `#region` up to `#endregion`.
Within a run of trivia a directive is unbalanced if the other end of its group lies outside.
-/

namespace AutoProperty

/-- The groups that are open while a run of trivia is read, and the directives that close or
continue a group from outside. Each directive is given by its place in the run. -/
structure OpenDirectives where
  conditionals : List (List Nat)
  regions : List Nat
  stray : List Nat

namespace OpenDirectives

def none : OpenDirectives := ⟨[], [], []⟩

/-- Reads the directive at place `i`. -/
def read (o : OpenDirectives) (i : Nat) : DirectiveKind → OpenDirectives
  | .ifBegin => { o with conditionals := [i] :: o.conditionals }
  | .elifBranch | .elseBranch =>
    match o.conditionals with
    | group :: outer => { o with conditionals := (group ++ [i]) :: outer }
    | [] => { o with stray := o.stray ++ [i] }
  | .ifEnd =>
    match o.conditionals with
    | _ :: outer => { o with conditionals := outer }
    | [] => { o with stray := o.stray ++ [i] }
  | .regionBegin => { o with regions := i :: o.regions }
  | .regionEnd =>
    match o.regions with
    | _ :: outer => { o with regions := outer }
    | [] => { o with stray := o.stray ++ [i] }
  | .other => o

/-- Reads a run of trivia whose first piece has place `i`. -/
def readAll (o : OpenDirectives) (i : Nat) : List Trivia → OpenDirectives
  | [] => o
  | t :: ts =>
    match t.kind with
    | .directive kind => (o.read i kind).readAll (i + 1) ts
    | _ => o.readAll (i + 1) ts

def places (o : OpenDirectives) : List Nat :=
  o.stray ++ o.conditionals.flatten ++ o.regions

end OpenDirectives

/-- The places of the unbalanced directives in a run of trivia, in increasing order. -/
def unbalancedDirectives (trivia : List Trivia) : List Nat :=
  let open' := (OpenDirectives.none.readAll 0 trivia).places
  (List.range trivia.length).filter open'.contains

end AutoProperty
