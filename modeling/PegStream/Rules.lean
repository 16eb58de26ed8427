import PegStream.Pattern.Size
import PegStream.Text.Quoted

/-!
# Rules

A rule is declared first and defined later, so its definition may refer to itself. A `RuleBook`
holds the rules that exist; rules are told apart by identity, not by name, and a rule is defined at
most once.

Before a match starts, `RuleBook.collect` finds every rule that a pattern can reach, through all
children and through the definitions of the rules reached, and reports the first one that is missing
or has no definition. The search is depth first from left to right and ends on recursive grammars,
because a definition is entered only the first time its rule is met.
-/

namespace PegStream

/-! ## Rule books -/

/-- A declared rule and its definition, once it has one. -/
structure RuleCell where
  id : Nat
  name : String
  definition : Option Pattern

namespace RuleCell

def isDefined (cell : RuleCell) : Bool := cell.definition.isSome

/-- The written form of a rule: its name and whether it is defined. -/
def render (cell : RuleCell) : String :=
  "Rule \x7b name: " ++ Text.quoteString cell.name ++ ", defined: " ++ toString cell.isDefined ++
    " \x7d"

end RuleCell

/-- The rules that exist. -/
structure RuleBook where
  cells : List RuleCell := []
  /-- The identity of the next rule to be declared. -/
  next : Nat := 0

namespace RuleBook

def empty : RuleBook := {}

/-- Declares a rule without a definition. -/
def declare (book : RuleBook) (name : String) : RuleRef × RuleBook :=
  (⟨book.next, name⟩,
    { cells := book.cells ++ [⟨book.next, name, none⟩], next := book.next + 1 })

/-- The rule of an identity. -/
def find? (book : RuleBook) (id : Nat) : Option RuleCell :=
  book.cells.find? (·.id == id)

/-- Gives a rule its definition; a second one is refused. -/
def define (book : RuleBook) (ref : RuleRef) (definition : Pattern) : Except Error RuleBook :=
  match book.find? ref.id with
  | none => .error (.unboundRule ref.name)
  | some cell =>
    if cell.isDefined then .error (.ruleAlreadyBound cell.name)
    else .ok { book with
      cells := book.cells.map fun c =>
        if c.id = ref.id then { c with definition := some definition } else c }

/-- The rules whose identity is kept. -/
def restrict (book : RuleBook) (keep : Nat → Bool) : RuleBook :=
  { book with cells := book.cells.filter fun c => keep c.id }

/-- The definition that a match enters at a reference. -/
def resolve (book : RuleBook) (ref : RuleRef) : Except Fault Pattern :=
  match book.find? ref.id with
  | none => .error (.droppedRule ref.name)
  | some cell =>
    match cell.definition with
    | none => .error (.undefinedRule ref.name)
    | some definition => .ok definition

/-! ## Reachable rules -/

/-- The number of rules not yet met. -/
def unseen (book : RuleBook) (seen : List Nat) : Nat :=
  book.cells.countP fun c => !seen.contains c.id

/-- A stricter condition that rejects a member counts fewer of them. -/
theorem countP_lt_countP {α : Type} {p q : α → Bool} (imp : ∀ x, q x = true → p x = true)
    {l : List α} {x : α} (mem : x ∈ l) (hp : p x = true) (hq : ¬ q x = true) :
    l.countP q < l.countP p := by
  induction l with
  | nil => cases mem
  | cons y ys ih =>
    have le : ys.countP q ≤ ys.countP p := List.countP_mono_left fun z _ => imp z
    rw [List.countP_cons, List.countP_cons]
    rcases List.mem_cons.1 mem with rfl | mem
    · rw [if_neg hq, if_pos hp]
      omega
    · have lt := ih mem
      by_cases hy : q y = true
      · rw [if_pos hy, if_pos (imp y hy)]
        omega
      · rw [if_neg hy]
        omega

/-- Meeting a rule for the first time leaves fewer to be met. -/
theorem unseen_append_lt (book : RuleBook) (seen : List Nat) {id : Nat} {cell : RuleCell}
    (found : book.find? id = some cell) (new : ¬ seen.contains id) :
    book.unseen (seen ++ [id]) < book.unseen seen := by
  have same : cell.id = id := by
    have := List.find?_some found
    exact beq_iff_eq.1 this
  refine countP_lt_countP (fun c => ?_) (List.mem_of_find?_eq_some found) ?_ ?_
  · simp only [Bool.not_eq_true', List.contains_eq_mem, decide_eq_false_iff_not, List.mem_append]
    exact fun h h' => h (Or.inl h')
  · rw [same, Bool.not_eq_true', Bool.eq_false_iff]
    exact new
  · rw [same, Bool.not_eq_true, Bool.not_eq_false', List.contains_eq_mem, decide_eq_true_iff]
    exact List.mem_append.2 (Or.inr (List.mem_singleton.2 rfl))

/-- Adds to `seen` the rules reachable from the patterns `pending`, in the order in which a search
from left to right meets them. -/
def visit (book : RuleBook) (pending : List Pattern) (seen : List Nat) :
    Except Error (List Nat) :=
  match pending with
  | [] => .ok seen
  | .rule ref :: rest =>
    match _ : book.find? ref.id with
    | none => .error (.unboundRule ref.name)
    | some cell =>
      if _ : seen.contains ref.id then book.visit rest seen
      else match cell.definition with
        | none => .error (.unboundRule cell.name)
        | some definition => book.visit (definition :: rest) (seen ++ [ref.id])
  | p :: rest => book.visit (p.children ++ rest) seen
termination_by (book.unseen seen, Pattern.sizes pending)
decreasing_by
  · exact Prod.Lex.right _ (by simp [Pattern.sizes, Pattern.size])
  · exact Prod.Lex.left _ _ (book.unseen_append_lt seen ‹_› ‹_›)
  · exact Prod.Lex.right _ (by rw [Pattern.sizes_append, Pattern.sizes, Pattern.size_eq p]; omega)

/-- The identities of all rules reachable from a pattern, or the first rule that is missing or
undefined. -/
def collect (book : RuleBook) (root : Pattern) : Except Error (List Nat) :=
  book.visit [root] []

end RuleBook

end PegStream
