import PegStream.Text.Quoted

/-!
# Classes of characters

A `CharClass` accepts some characters and rejects the others. Classes combine by union and by
complement; `~~~` removes an outer complement instead of adding a second one.
-/

namespace PegStream

/-- A set of characters. -/
inductive CharClass where
  | any
  | single (c : Char)
  /-- The characters from `lo` to `hi`, both included. -/
  | range (lo hi : Char)
  /-- The listed characters, in ascending order. -/
  | members (cs : List Char)
  | complement (inner : CharClass)
  | union (left right : CharClass)
  | satisfying (accepts : Char → Bool)

namespace CharClass

def contains : CharClass → Char → Bool
  | any, _ => true
  | single c', c => c' == c
  | range lo hi, c => lo ≤ c && c ≤ hi
  | members cs, c => cs.contains c
  | complement inner, c => !inner.contains c
  | union left right, c => left.contains c || right.contains c
  | satisfying accepts, c => accepts c

/-- Inserts a character into an ascending list, unless it is there. -/
def insertAscending (c : Char) : List Char → List Char
  | [] => [c]
  | d :: ds =>
    if c < d then c :: d :: ds
    else if c = d then d :: ds
    else d :: insertAscending c ds

/-- The class of the characters of a text. -/
def ofString (s : String) : CharClass :=
  .members (s.toList.foldl (fun cs c => insertAscending c cs) [])

/-- The class of all other characters. -/
def negate : CharClass → CharClass
  | complement inner => inner
  | other => complement other

instance : Complement CharClass := ⟨negate⟩

instance : Union CharClass := ⟨union⟩

theorem mem_insertAscending (c d : Char) (ds : List Char) :
    d ∈ insertAscending c ds ↔ d = c ∨ d ∈ ds := by
  induction ds with
  | nil => rw [insertAscending, List.mem_cons]
  | cons e es ih =>
    rw [insertAscending]
    split
    · rw [List.mem_cons]
    · split
      · rename_i same
        rw [List.mem_cons, same]
        exact ⟨Or.inr, fun h => h.elim Or.inl id⟩
      · rw [List.mem_cons, ih, List.mem_cons]
        exact or_left_comm

/-- The class of a text accepts the characters that occur in it. -/
theorem contains_ofString (s : String) (c : Char) :
    (ofString s).contains c = s.toList.contains c := by
  have mem (cs acc : List Char) :
      c ∈ cs.foldl (fun acc d => insertAscending d acc) acc ↔ c ∈ cs ∨ c ∈ acc := by
    induction cs generalizing acc with
    | nil => exact (or_iff_right List.not_mem_nil).symm
    | cons d ds ih =>
      rw [List.foldl_cons, ih, mem_insertAscending, List.mem_cons, or_assoc]
      exact or_left_comm
  rw [ofString, contains, Bool.eq_iff_iff, List.contains_iff_mem, List.contains_iff_mem, mem]
  exact or_iff_left (List.not_mem_nil (a := c))

/-- The complement accepts what the class rejects. -/
theorem contains_compl (s : CharClass) (c : Char) : (~~~s).contains c = !s.contains c := by
  change (negate s).contains c = _
  unfold negate
  split
  · rw [contains, Bool.not_not]
  · rw [contains]

/-- The written form of a class. -/
def render : CharClass → String
  | any => "Any"
  | single c => "Single(" ++ Text.quoteChar c ++ ")"
  | range lo hi => "Range(" ++ Text.quoteChar lo ++ ", " ++ Text.quoteChar hi ++ ")"
  | members cs => "\x7b" ++ String.intercalate ", " (cs.map Text.quoteChar) ++ "\x7d"
  | complement inner => "Not(" ++ inner.render ++ ")"
  | union left right => "Or(" ++ left.render ++ ", " ++ right.render ++ ")"
  | satisfying _ => "Predicate(..)"

end CharClass

end PegStream
