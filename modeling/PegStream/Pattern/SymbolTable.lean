import PegStream.Value.Printer
import PegStream.Error

/-!
# Symbol tables

A table from keys to values, kept as a tree that shares the common beginnings of its keys. The nodes
stand in one array in the order in which insertions made them, the root first, and refer to their
children by index. A key that is entered twice keeps its last value; the empty key is refused.
-/

namespace PegStream

namespace SymbolTable

/-- A node of the tree: its children by their first character, ascending, and the value of the key
that ends here. -/
structure Node where
  children : List (Char × Nat) := []
  value : Option Value := none
  deriving Inhabited

end SymbolTable

/-- Keys and their values. -/
structure SymbolTable where
  nodes : Array SymbolTable.Node

namespace SymbolTable

/-- The index of the root. -/
def root : Nat := 0

/-- A table with no keys. -/
def empty : SymbolTable := ⟨#[{}]⟩

/-- The child of a node under the character `c`. -/
def child? (t : SymbolTable) (node : Nat) (c : Char) : Option Nat :=
  t.nodes[node]?.bind (·.children.lookup c)

/-- The value of the key that ends at a node. -/
def value? (t : SymbolTable) (node : Nat) : Option Value :=
  t.nodes[node]?.bind (·.value)

/-- Whether no key goes on below a node. -/
def isLeaf (t : SymbolTable) (node : Nat) : Bool :=
  (t.nodes[node]?.map (·.children.isEmpty)).getD true

/-- Inserts a child into an ascending list of children. -/
def insertChild (c : Char) (index : Nat) : List (Char × Nat) → List (Char × Nat)
  | [] => [(c, index)]
  | (d, i) :: rest =>
    if c < d then (c, index) :: (d, i) :: rest else (d, i) :: insertChild c index rest

/-- The child of `node` under `c`, made if there is none. -/
def extend (t : SymbolTable) (node : Nat) (c : Char) : SymbolTable × Nat :=
  match t.child? node c with
  | some next => (t, next)
  | none =>
    let next := t.nodes.size
    let nodes := t.nodes.modify node fun n => { n with children := insertChild c next n.children }
    (⟨nodes.push {}⟩, next)

/-- The node at the end of a key below `node`, made if there is none. -/
def reach (t : SymbolTable) (node : Nat) : List Char → SymbolTable × Nat
  | [] => (t, node)
  | c :: cs =>
    let (t, next) := t.extend node c
    t.reach next cs

/-- Enters a key; an earlier value of the same key is replaced. -/
def insert (t : SymbolTable) (key : String) (value : Value) : Except Error SymbolTable :=
  if key.isEmpty then .error .emptySymbol
  else
    let (t, node) := t.reach root key.toList
    .ok ⟨t.nodes.modify node fun n => { n with value := some value }⟩

/-- The table of a list of entries, entered in order. -/
def ofList (entries : List (String × Value)) : Except Error SymbolTable :=
  entries.foldlM (fun t entry => t.insert entry.1 entry.2) empty

/-- The node reached from `node` along a word. -/
def walk? (t : SymbolTable) (node : Nat) : List Char → Option Nat
  | [] => some node
  | c :: cs => (t.child? node c).bind fun next => t.walk? next cs

/-- The number of keys. -/
def size (t : SymbolTable) : Nat :=
  t.nodes.toList.countP (·.value.isSome)

def isEmpty (t : SymbolTable) : Bool :=
  t.size == 0

/-! ## Written form -/

/-- The written form of a node. -/
def Node.render (n : Node) : String :=
  let children := n.children.map fun (c, i) => Text.quoteChar c ++ ": " ++ toString i
  let value := match n.value with
    | some v => "Some(" ++ v.render ++ ")"
    | none => "None"
  "TrieNode \x7b children: \x7b" ++ String.intercalate ", " children ++ "\x7d, value: " ++ value ++
    " \x7d"

/-- The written form of a table: its nodes in the order in which they were made. -/
def render (t : SymbolTable) : String :=
  let nodes := t.nodes.toList.map Node.render
  "SymbolTable \x7b nodes: [" ++ String.intercalate ", " nodes ++ "] \x7d"

end SymbolTable

end PegStream
