/-! # Byte offsets into text

Text is measured in bytes of UTF-8. A cut is possible only between characters, so cutting at a byte
offset may fail: inside a character, or past the end of the text.
-/

namespace AutoProperty

def byteLength (cs : List Char) : Nat :=
  cs.foldr (fun c length => c.utf8Size + length) 0

/-- Splits the text after `n` bytes, if that is a place between two characters. -/
def splitBytes? : Nat → List Char → Option (List Char × List Char)
  | 0, cs => some ([], cs)
  | _ + 1, [] => none
  | n + 1, c :: cs =>
    if c.utf8Size ≤ n + 1 then
      (splitBytes? (n + 1 - c.utf8Size) cs).map fun (before, after) => (c :: before, after)
    else
      none

/-- The text from byte `start` up to byte `stop`. -/
def cutBytes? (start stop : Nat) (cs : List Char) : Option (List Char) := do
  guard (start ≤ stop)
  let (_, rest) ← splitBytes? start cs
  let (inside, _) ← splitBytes? (stop - start) rest
  return inside

@[simp]
theorem byteLength_nil : byteLength [] = 0 := rfl

@[simp]
theorem byteLength_cons (c : Char) (cs : List Char) :
    byteLength (c :: cs) = c.utf8Size + byteLength cs := rfl

@[simp]
theorem byteLength_append (as bs : List Char) :
    byteLength (as ++ bs) = byteLength as + byteLength bs := by
  induction as with
  | nil => simp
  | cons c as ih => simp [ih, Nat.add_assoc]

/-! ## Cuts -/

/-- A text is split into exactly the bytes asked for and the rest. -/
theorem splitBytes?_some {n : Nat} {cs as bs : List Char} (h : splitBytes? n cs = some (as, bs)) :
    cs = as ++ bs ∧ byteLength as = n := by
  induction cs generalizing n as with
  | nil =>
    cases n with
    | zero =>
      cases h
      exact ⟨rfl, rfl⟩
    | succ n => cases h
  | cons c cs ih =>
    cases n with
    | zero =>
      cases h
      exact ⟨rfl, rfl⟩
    | succ n =>
      rw [splitBytes?] at h
      split at h
      next hsize =>
        obtain ⟨⟨before, after⟩, hrest, heq⟩ := Option.map_eq_some_iff.mp h
        obtain ⟨rfl, rfl⟩ := Prod.mk.inj heq
        obtain ⟨rfl, hlength⟩ := ih hrest
        exact ⟨rfl, by rw [byteLength_cons]; omega⟩
      next => cases h

theorem splitBytes?_append (as bs : List Char) :
    splitBytes? (byteLength as) (as ++ bs) = some (as, bs) := by
  induction as with
  | nil => cases bs <;> rfl
  | cons c as ih =>
    obtain ⟨n, hn⟩ :=
      Nat.exists_eq_succ_of_ne_zero
        (Nat.ne_of_gt (Nat.lt_of_lt_of_le c.utf8Size_pos (Nat.le_add_right _ (byteLength as))))
    rw [byteLength_cons, List.cons_append, hn, splitBytes?, if_pos (by omega),
      show n + 1 - c.utf8Size = byteLength as by omega, ih]
    rfl

/-- What stands between two parts of a text is cut out of it. -/
theorem cutBytes?_append (as bs cs : List Char) :
    cutBytes? (byteLength as) (byteLength as + byteLength bs) (as ++ bs ++ cs) = some bs := by
  have hordered : (guard (byteLength as ≤ byteLength as + byteLength bs) : Option Unit) = some () :=
    if_pos (Nat.le_add_right ..)
  rw [cutBytes?, hordered, List.append_assoc, splitBytes?_append, Nat.add_sub_cancel_left]
  simp [splitBytes?_append]

/-- A cut takes what stands between two parts of the text. -/
theorem cutBytes?_eq_some_iff {start stop : Nat} {cs inside : List Char} :
    cutBytes? start stop cs = some inside ↔ ∃ before after, cs = before ++ inside ++ after ∧
      start = byteLength before ∧ stop = byteLength before + byteLength inside := by
  constructor
  · intro h
    obtain ⟨_, hguard, h⟩ := Option.bind_eq_some_iff.mp h
    obtain ⟨⟨before, rest⟩, hbefore, h⟩ := Option.bind_eq_some_iff.mp h
    obtain ⟨⟨inside', after⟩, hinside, heq⟩ := Option.bind_eq_some_iff.mp h
    obtain rfl : inside' = inside := Option.some.inj heq
    obtain ⟨rfl, hstart⟩ := splitBytes?_some hbefore
    obtain ⟨rfl, hstop⟩ := splitBytes?_some hinside
    have horder : start ≤ stop := by
      by_cases h : start ≤ stop
      · exact h
      · cases (if_neg h : (guard (start ≤ stop) : Option Unit) = none).symm.trans hguard
    exact ⟨before, after, (List.append_assoc ..).symm, hstart.symm, by omega⟩
  · rintro ⟨before, after, rfl, rfl, rfl⟩
    exact cutBytes?_append before inside after

end AutoProperty
