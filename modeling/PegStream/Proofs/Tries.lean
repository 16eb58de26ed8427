import Mathlib.Data.Char
import Mathlib.Data.Finset.Card
import PegStream.Proofs.Symbols

/-!
# The tree of a symbol table

The nodes of a symbol table stand in one array and refer to their children by index. Whatever keys
are entered and in whatever order, the array is a tree below its first node: every other node is
listed by one parent, which stands before it, under one character (`SymbolTable.IsTrie`). A key is
entered by a walk that makes the nodes it misses, and during the walk only its last node can be
without both a child and a value (`ValuedBut`); the value that ends the walk fills this gap. So a
walk can stop with a value wherever it cannot go on.

* `SymbolTable.grown_extend`, `SymbolTable.grown_reach`: one step of the walk, and the whole walk;
* `SymbolTable.insert_grown`: entering a key, and how it changes the number of keys;
* `SymbolTable.ofList_trie`: the table of any list of entries.
-/

namespace PegStream.SymbolTable

variable {t t' : SymbolTable} {i j node : Nat} {c : Char} {n : Node} {v : Value}
  {children : List (Char × Nat)}

/-! ## Children in order -/

/-- The characters of the children ascend, so none stands there twice. -/
def Ascending (children : List (Char × Nat)) : Prop := children.Pairwise (·.1 < ·.1)

theorem mem_insertChild {e : Char × Nat} :
    e ∈ insertChild c j children ↔ e = (c, j) ∨ e ∈ children := by
  induction children with
  | nil => simp [insertChild]
  | cons d rest ih =>
    obtain ⟨d, k⟩ := d
    rw [insertChild]
    split
    · simp
    · simp only [List.mem_cons, ih]
      tauto

theorem Ascending.insertChild (h : Ascending children) (hc : children.lookup c = none) :
    Ascending (insertChild c j children) := by
  induction children with
  | nil => simp [Ascending, SymbolTable.insertChild]
  | cons e rest ih =>
    obtain ⟨d, k⟩ := e
    obtain ⟨hd, hrest⟩ := List.pairwise_cons.1 h
    rw [lookup_cons_eq_ite] at hc
    have hne : c ≠ d := fun he => by simp [he] at hc
    rw [if_neg hne] at hc
    rw [SymbolTable.insertChild]
    split
    · rename_i hlt
      refine List.pairwise_cons.2 ⟨fun e he => ?_, h⟩
      rcases List.mem_cons.1 he with rfl | he
      · exact hlt
      · exact hlt.trans (hd e he)
    · rename_i hle
      refine List.pairwise_cons.2 ⟨fun e he => ?_, ih hrest hc⟩
      rcases mem_insertChild.1 he with rfl | he
      · exact lt_of_le_of_ne (not_lt.1 hle) hne.symm
      · exact hd e he

theorem Ascending.lookup_eq_some_iff (h : Ascending children) :
    children.lookup c = some j ↔ (c, j) ∈ children := by
  induction children with
  | nil => simp
  | cons e rest ih =>
    obtain ⟨d, k⟩ := e
    obtain ⟨hd, hrest⟩ := List.pairwise_cons.1 h
    rw [lookup_cons_eq_ite, List.mem_cons, Prod.mk.injEq]
    by_cases hcd : c = d
    · have hno : (c, j) ∉ rest := fun hmem => (hd _ hmem).ne hcd.symm
      simp [hcd, hcd ▸ hno, eq_comm]
    · simp [hcd, ih hrest]

/-! ## Tries -/

/-- The node `i` lists the node `j` among its children, under the character `c`. -/
def Edge (t : SymbolTable) (i : Nat) (c : Char) (j : Nat) : Prop :=
  ∃ n, t.nodes[i]? = some n ∧ (c, j) ∈ n.children

/-- The nodes form a tree below the root, in which every leaf carries a value. -/
structure IsTrie (t : SymbolTable) : Prop where
  root_lt : root < t.nodes.size
  /-- A child is a node, and comes after its parent. -/
  range {i j : Nat} {c : Char} : t.Edge i c j → i < j ∧ j < t.nodes.size
  /-- Every node but the root has one parent, under one character. -/
  parent {j : Nat} : j < t.nodes.size → j ≠ root → ∃! e : Nat × Char, t.Edge e.1 e.2 j
  /-- No parent lists two children under one character. -/
  ascending {i : Nat} {n : Node} : t.nodes[i]? = some n → Ascending n.children
  /-- Steps follow the edges. -/
  child?_iff {i j : Nat} {c : Char} : t.child? i c = some j ↔ t.Edge i c j
  /-- Where no key goes on, one ends. -/
  leaf {j : Nat} : j < t.nodes.size → j ≠ root → t.isLeaf j = true → ∃ v, t.value? j = some v

/-- A tree in which children ascend and every node but the root is a child. -/
structure Grown (t : SymbolTable) : Prop extends IsTree t where
  ascending {i : Nat} {n : Node} : t.nodes[i]? = some n → Ascending n.children
  linked {j : Nat} : j < t.nodes.size → j ≠ root → ∃ i c, t.child? i c = some j

/-- Every node but the root and `node` has a child or a value. -/
def ValuedBut (t : SymbolTable) (node : Nat) : Prop :=
  ∀ j < t.nodes.size, j ≠ root → j = node ∨ (∃ c k, t.child? j c = some k) ∨
    ∃ v, t.value? j = some v

theorem Grown.child?_iff (h : t.Grown) : t.child? i c = some j ↔ t.Edge i c j := by
  unfold child? Edge
  rw [Option.bind_eq_some_iff]
  constructor
  · rintro ⟨n, hn, hc⟩
    exact ⟨n, hn, (h.ascending hn).lookup_eq_some_iff.1 hc⟩
  · rintro ⟨n, hn, hc⟩
    exact ⟨n, hn, (h.ascending hn).lookup_eq_some_iff.2 hc⟩

/-- A leaf has no child. -/
theorem child?_of_isLeaf (h : t.isLeaf j = true) (c : Char) : t.child? j c = none := by
  unfold isLeaf at h
  unfold child?
  cases hn : t.nodes[j]? with
  | none => rfl
  | some n =>
    have hnil : n.children = [] := by simpa [hn] using h
    simp [hnil]

theorem Grown.isTrie (h : t.Grown) (hvalued : t.ValuedBut root) : t.IsTrie where
  root_lt := h.root_lt
  range he := h.child_range (h.child?_iff.2 he)
  parent {j} hj hroot := by
    obtain ⟨i, c, hchild⟩ := h.linked hj hroot
    refine ⟨(i, c), h.child?_iff.1 hchild, fun e he => ?_⟩
    obtain ⟨hi, hc⟩ := h.child_inj (h.child?_iff.2 he) hchild
    exact Prod.ext hi hc
  ascending := h.ascending
  child?_iff := h.child?_iff
  leaf {j} hj hroot hleaf := by
    rcases hvalued j hj hroot with he | ⟨c, k, hchild⟩ | hvalue
    · exact absurd he hroot
    · rw [child?_of_isLeaf hleaf c] at hchild
      exact absurd hchild nofun
    · exact hvalue

theorem grown_empty : empty.Grown where
  toIsTree := isTree_empty
  ascending {i n} h := by
    cases i with
    | zero =>
      cases h
      exact .nil
    | succ i => simp [empty] at h
  linked {j} hj hroot := absurd (Nat.lt_one_iff.1 hj) hroot

/-! ## Entering a key -/

/-- One step down, to a child that is there or is made. -/
theorem grown_extend (ht : t.Grown) (hn : node < t.nodes.size) (c : Char) :
    (t.extend node c).1.Grown ∧
      (t.ValuedBut node → (t.extend node c).1.ValuedBut (t.extend node c).2) := by
  obtain ⟨htree, hext, hstep⟩ := extend_spec ht.toIsTree hn c
  cases hc : t.child? node c with
  | some next =>
    have he : t.extend node c = (t, next) := by rw [extend, hc]
    rw [he]
    refine ⟨ht, fun hvalued j hj hroot => ?_⟩
    rcases hvalued j hj hroot with rfl | hrest
    · exact .inr (.inl ⟨c, next, hc⟩)
    · exact .inr hrest
  | none =>
    have hlast : (t.extend node c).2 = t.nodes.size := by rw [extend_of_none hc]
    have hsize : (t.extend node c).1.nodes.size = t.nodes.size + 1 := by
      rw [extend_of_none hc, Array.size_push, Array.size_modify]
    rw [hlast] at hstep ⊢
    refine ⟨⟨htree, fun {i n} h => ?_, fun {j} hj hroot => ?_⟩, fun hvalued j hj hroot => ?_⟩
    · rw [extend_of_none hc, Array.getElem?_push, Array.size_modify, Array.getElem?_modify] at h
      by_cases hi : i = t.nodes.size
      · rw [if_pos hi] at h
        cases h
        exact .nil
      · rw [if_neg hi] at h
        by_cases hin : node = i
        · subst hin
          have hlookup : t.nodes[node].children.lookup c = none := by simpa [child?, hn] using hc
          rw [if_pos rfl, Array.getElem?_eq_getElem hn] at h
          cases h
          exact (ht.ascending (Array.getElem?_eq_getElem hn)).insertChild hlookup
        · rw [if_neg hin] at h
          exact ht.ascending h
    · by_cases hj' : j = t.nodes.size
      · exact ⟨node, c, hj' ▸ hstep⟩
      · obtain ⟨i, d, hchild⟩ := ht.linked (by omega) hroot
        exact ⟨i, d, hext.child hchild⟩
    · by_cases hj' : j = t.nodes.size
      · exact .inl hj'
      · rcases hvalued j (by omega) hroot with rfl | ⟨d, k, hchild⟩ | ⟨v, hv⟩
        · exact .inr (.inl ⟨c, _, hstep⟩)
        · exact .inr (.inl ⟨d, k, hext.child hchild⟩)
        · exact .inr (.inr ⟨v, (hext.value j).trans hv⟩)

/-- The way down a whole word. -/
theorem grown_reach (ht : t.Grown) (hn : node < t.nodes.size) (hvalued : t.ValuedBut node)
    (w : List Char) :
    (t.reach node w).1.Grown ∧ (t.reach node w).1.ValuedBut (t.reach node w).2 := by
  induction w generalizing t node with
  | nil => exact ⟨ht, hvalued⟩
  | cons c cs ih =>
    obtain ⟨ht₁, hvalued₁⟩ := grown_extend ht hn c
    obtain ⟨-, -, hstep⟩ := extend_spec ht.toIsTree hn c
    exact ih ht₁ (ht₁.child_range hstep).2 (hvalued₁ hvalued)

theorem grown_setValue (ht : t.Grown) (node : Nat) (v : Value) : (t.setValue node v).Grown where
  toIsTree := isTree_setValue ht.toIsTree node v
  ascending {i n} h := by
    rw [setValue, Array.getElem?_modify] at h
    split at h
    · obtain ⟨n₀, hn₀, rfl⟩ := Option.map_eq_some_iff.1 h
      have hold : Ascending n₀.children := ht.ascending hn₀
      exact hold
    · exact ht.ascending h
  linked {j} hj hroot := by
    have hsize : (t.setValue node v).nodes.size = t.nodes.size := Array.size_modify
    rw [child?_setValue]
    exact ht.linked (hsize ▸ hj) hroot

/-- A value at the end of the walk fills the only gap. -/
theorem valuedBut_setValue (hn : node < t.nodes.size) (h : t.ValuedBut node) (v : Value) :
    (t.setValue node v).ValuedBut root := by
  have hsize : (t.setValue node v).nodes.size = t.nodes.size := Array.size_modify
  intro j hj hroot
  rw [child?_setValue, value?_setValue hn]
  rcases h j (hsize ▸ hj) hroot with rfl | hchild | ⟨u, hu⟩
  · exact .inr (.inr ⟨v, if_pos rfl⟩)
  · exact .inr (.inl hchild)
  · by_cases hj' : j = node
    · exact .inr (.inr ⟨v, if_pos hj'⟩)
    · exact .inr (.inr ⟨u, by rw [if_neg hj', hu]⟩)

/-! ## The number of keys -/

/-- The nodes at which a key ends. -/
def keyNodes (t : SymbolTable) : Finset Nat :=
  (Finset.range t.nodes.size).filter fun j => (t.value? j).isSome

theorem mem_keyNodes : j ∈ t.keyNodes ↔ (t.value? j).isSome = true := by
  rw [keyNodes, Finset.mem_filter, Finset.mem_range, and_iff_right_iff_imp]
  intro h
  by_contra hj
  rw [value?, Array.getElem?_eq_none (not_lt.1 hj)] at h
  exact Bool.false_ne_true h

theorem countP_eq_card (l : List Node) : l.countP (·.value.isSome) =
    ((Finset.range l.length).filter fun j => (l[j]?.bind (·.value)).isSome).card := by
  induction l using List.reverseRecOn with
  | nil => rfl
  | append_singleton l n ih =>
    have hold : (Finset.range l.length).filter
          (fun j => ((l ++ [n])[j]?.bind (·.value)).isSome) =
        (Finset.range l.length).filter fun j => (l[j]?.bind (·.value)).isSome := by
      refine Finset.filter_congr fun j hj => ?_
      rw [List.getElem?_append_left (Finset.mem_range.1 hj)]
    rw [List.countP_append, List.length_append, List.length_singleton, Finset.range_add_one,
      Finset.filter_insert, hold, ih]
    cases hv : n.value with
    | none => simp [hv]
    | some v => simp [hv]

theorem size_eq_card (t : SymbolTable) : t.size = t.keyNodes.card := by
  rw [size, countP_eq_card, Array.length_toList]
  refine congrArg Finset.card (Finset.filter_congr fun j _ => ?_)
  rw [Array.getElem?_toList, value?]

theorem Extends.keyNodes_eq (h : t.Extends t') : t'.keyNodes = t.keyNodes := by
  ext j
  rw [mem_keyNodes, mem_keyNodes, h.value]

theorem keyNodes_setValue (hn : node < t.nodes.size) (v : Value) :
    (t.setValue node v).keyNodes = Insert.insert node t.keyNodes := by
  ext j
  rw [Finset.mem_insert, mem_keyNodes, mem_keyNodes, value?_setValue hn]
  by_cases hj : j = node
  · simp [hj]
  · simp [hj]

/-- Entering a key leaves a trie, which has one key more unless the key was there before. -/
theorem insert_grown (ht : t.Grown) (hvalued : t.ValuedBut root) {key : String} (hkey : key ≠ "")
    (v : Value) : ∃ t', t.insert key v = .ok t' ∧ t'.Grown ∧ t'.ValuedBut root ∧
      (∀ w, t'.entry? w = if w = key.toList then some v else t.entry? w) ∧
      t'.size = t.size + if (t.entry? key.toList).isSome then 0 else 1 := by
  obtain ⟨t', hinsert, -, hentry⟩ := insert_spec ht.toIsTree hkey v
  refine ⟨t', hinsert, ?_⟩
  obtain ⟨htree, hext, hwalk⟩ := reach_spec ht.toIsTree ht.root_lt key.toList
  obtain ⟨hgrown, hbut⟩ := grown_reach ht ht.root_lt hvalued key.toList
  have hnode := htree.lt_of_walk? htree.root_lt hwalk
  have ht' : t' = (t.reach root key.toList).1.setValue (t.reach root key.toList).2 v := by
    have hempty : key.isEmpty = false := by simpa using hkey
    rw [insert, hempty] at hinsert
    exact (Except.ok.inj hinsert).symm
  have hold : t.entry? key.toList = t.value? (t.reach root key.toList).2 := by
    rw [← hext.entry? htree, entry?, below?, hwalk, Option.bind_some, hext.value]
  subst ht'
  refine ⟨grown_setValue hgrown _ v, valuedBut_setValue hnode hbut v, hentry, ?_⟩
  rw [size_eq_card, size_eq_card, keyNodes_setValue hnode, hext.keyNodes_eq, hold]
  split
  · rename_i hmem
    rw [Finset.insert_eq_of_mem (mem_keyNodes.2 hmem), Nat.add_zero]
  · rename_i hmem
    rw [Finset.card_insert_of_notMem (mt mem_keyNodes.1 hmem)]

/-! ## Tables of entries -/

theorem isSome_lookup_reverse_iff {entries : List (String × Value)} {key : String} :
    (entries.reverse.lookup key).isSome = true ↔ key ∈ entries.map Prod.fst := by
  constructor
  · intro h
    obtain ⟨v, hv⟩ := Option.isSome_iff_exists.1 h
    exact List.mem_map.2 ⟨(key, v), mem_of_lookup_reverse hv, rfl⟩
  · intro h
    obtain ⟨e, he, rfl⟩ := List.mem_map.1 h
    exact Option.isSome_iff_ne_none.2 (lookup_reverse_ne_none he)

/-- The last entry of a key. -/
theorem lookup_reverse_eq_some_iff {entries : List (String × Value)} {key : String} :
    entries.reverse.lookup key = some v ↔
      ∃ before after, entries = before ++ (key, v) :: after ∧ ∀ e ∈ after, e.1 ≠ key := by
  rw [List.lookup_eq_some_iff]
  constructor
  · rintro ⟨after, before, hsplit, hafter⟩
    refine ⟨before.reverse, after.reverse, ?_, fun e he hkey => ?_⟩
    · rw [← List.reverse_reverse entries, hsplit]
      simp
    · have hne := hafter e (List.mem_reverse.1 he)
      simp [hkey] at hne
  · rintro ⟨before, after, rfl, hafter⟩
    refine ⟨after.reverse, before.reverse, by simp, fun e he => ?_⟩
    have hne := hafter e (List.mem_reverse.1 he)
    simpa using Ne.symm hne

theorem grown_ofList {entries : List (String × Value)} (hkeys : ∀ e ∈ entries, e.1 ≠ "") :
    ∃ t, ofList entries = .ok t ∧ t.Grown ∧ t.ValuedBut root ∧
      (∀ key : String, t.entry? key.toList = entries.reverse.lookup key) ∧
      t.size = (entries.map Prod.fst).toFinset.card := by
  induction entries using List.reverseRecOn with
  | nil =>
    refine ⟨empty, rfl, grown_empty, fun j hj hroot => ?_, fun key => ?_, rfl⟩
    · exact absurd (Nat.lt_one_iff.1 hj) hroot
    · cases key.toList <;> rfl
  | append_singleton entries e ih =>
    obtain ⟨t, hof, ht, hvalued, hentry, hsize⟩ :=
      ih fun e he => hkeys e (List.mem_append_left _ he)
    obtain ⟨t', hinsert, ht', hvalued', hentry', hsize'⟩ :=
      insert_grown ht hvalued (hkeys e (by simp)) e.2
    refine ⟨t', ?_, ht', hvalued', fun key => ?_, ?_⟩
    · rw [ofList] at hof ⊢
      rw [List.foldlM_append, hof]
      exact (bind_pure _).trans hinsert
    · rw [hentry', hentry, List.reverse_append]
      simp only [List.reverse_singleton, List.singleton_append, String.toList_inj]
      exact (lookup_cons_eq_ite key e.1 e.2 _).symm
    · have hmap : ((entries ++ [e]).map Prod.fst).toFinset =
          Insert.insert e.1 (entries.map Prod.fst).toFinset := by
        rw [List.map_append, List.map_singleton, List.toFinset_append, Finset.union_comm]
        rfl
      rw [hsize', hsize, hentry, hmap]
      by_cases hin : e.1 ∈ entries.map Prod.fst
      · rw [if_pos (isSome_lookup_reverse_iff.2 hin), Nat.add_zero,
          Finset.insert_eq_of_mem (List.mem_toFinset.2 hin)]
      · rw [if_neg (mt isSome_lookup_reverse_iff.1 hin),
          Finset.card_insert_of_notMem (mt List.mem_toFinset.1 hin)]

/-- An empty key anywhere is refused. -/
theorem ofList_of_empty {entries : List (String × Value)} (h : ∃ e ∈ entries, e.1 = "") :
    ofList entries = .error .emptySymbol := by
  induction entries using List.reverseRecOn with
  | nil =>
    obtain ⟨e, he, -⟩ := h
    exact absurd he List.not_mem_nil
  | append_singleton entries e ih =>
    by_cases hbefore : ∃ e ∈ entries, e.1 = ""
    · have herror := ih hbefore
      rw [ofList] at herror ⊢
      rw [List.foldlM_append, herror]
      rfl
    · have hlast : e.1 = "" := by
        obtain ⟨e', he', hempty⟩ := h
        rcases List.mem_append.1 he' with he' | he'
        · exact absurd ⟨e', he', hempty⟩ hbefore
        · exact List.mem_singleton.1 he' ▸ hempty
      push Not at hbefore
      obtain ⟨t, hof, -⟩ := grown_ofList hbefore
      rw [ofList] at hof ⊢
      rw [List.foldlM_append, hof]
      show (t.insert e.1 e.2 >>= fun t => .ok t) = _
      rw [insert, hlast]
      rfl

/-- A list of entries is refused exactly if one of its keys is empty. Otherwise its table is a tree
that leads along a word to a value exactly if the last entry of that word has this value, whose
leaves carry values, and whose size is the number of different keys. -/
theorem ofList_trie (entries : List (String × Value)) :
    (ofList entries = .error .emptySymbol ↔ ∃ e ∈ entries, e.1 = "") ∧
    ((∀ e ∈ entries, e.1 ≠ "") → ∃ t, ofList entries = .ok t ∧ t.IsTrie ∧
      (∀ (key : String) (v : Value),
        (∃ node, t.walk? root key.toList = some node ∧ t.value? node = some v) ↔
          ∃ before after, entries = before ++ (key, v) :: after ∧ ∀ e ∈ after, e.1 ≠ key) ∧
      t.size = (entries.map Prod.fst).toFinset.card) := by
  refine ⟨⟨fun h => ?_, ofList_of_empty⟩, fun hkeys => ?_⟩
  · by_contra hkeys
    push Not at hkeys
    obtain ⟨t, hof, -⟩ := grown_ofList hkeys
    cases h.symm.trans hof
  · obtain ⟨t, hof, ht, hvalued, hentry, hsize⟩ := grown_ofList hkeys
    refine ⟨t, hof, ht.isTrie hvalued, fun key v => ?_, hsize⟩
    rw [← lookup_reverse_eq_some_iff, ← hentry, entry?, below?, Option.bind_eq_some_iff]

/-- Of five entries two have the same key, and one key begins two others. -/
theorem ofList_trie_comparisons : ∃ t, ofList comparisons = .ok t ∧ t.IsTrie ∧ t.size = 4 ∧
    ∃ node, t.walk? root "<".toList = some node ∧ t.value? node = some (.int 4) := by
  obtain ⟨t, hof, ht, hwalk, hsize⟩ := (ofList_trie comparisons).2 (by decide)
  refine ⟨t, hof, ht, hsize.trans (by decide), (hwalk "<" (.int 4)).2 ?_⟩
  exact ⟨comparisons.take 3, [("=", .int 5)], rfl, by decide⟩

end PegStream.SymbolTable
