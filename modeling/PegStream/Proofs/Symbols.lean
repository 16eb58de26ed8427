import Mathlib.Data.List.Basic
import Mathlib.Data.List.Induction
import Mathlib.Data.Nat.Basic
import Mathlib.Order.Basic
import PegStream.Proofs.Outcomes

/-!
# The longest key

The nodes of a symbol table form a tree: a child comes after its parent, and no two ways lead to one
node. So the word that leads to a node can be told from the node, and entering a key changes what
the table says of that key and of no other. A table made from a list of entries says of each word
what the last entry of that key says (`SymbolTable.entry?_ofList`).

A walk down the table goes on past the keys that end on its way. What it comes to is the longest of
them (`SymbolTable.longestBelow_eq_some`), and so a symbol table reads the longest of its keys that
a text begins with, in one piece or in chunks (`parsePrefix_symbols`).
-/

namespace PegStream

theorem lookup_cons_eq_ite {α β : Type} [DecidableEq α] (a b : α) (v : β) (l : List (α × β)) :
    ((b, v) :: l).lookup a = if a = b then some v else l.lookup a := by
  rw [List.lookup_cons]
  by_cases h : a = b
  · simp [h]
  · rw [beq_false_of_ne h, if_neg h]

namespace SymbolTable

variable {t t' : SymbolTable} {i j node : Nat} {c : Char} {w u text : List Char} {v : Value}

/-! ## The children of a node -/

theorem lookup_insertChild {children : List (Char × Nat)} (h : children.lookup c = none) (d : Char) :
    (insertChild c j children).lookup d = if d = c then some j else children.lookup d := by
  induction children with
  | nil => exact lookup_cons_eq_ite d c j []
  | cons child rest ih =>
    obtain ⟨e, k⟩ := child
    rw [lookup_cons_eq_ite] at h
    have hce : c ≠ e := fun he => by simp [he] at h
    rw [if_neg hce] at h
    rw [insertChild]
    split
    · exact lookup_cons_eq_ite d c j _
    · rw [lookup_cons_eq_ite, lookup_cons_eq_ite, ih h]
      by_cases hd : d = e
      · have hdc : d ≠ c := fun hdc => hce (hdc.symm.trans hd)
        rw [if_pos hd, if_neg hdc, if_pos hd]
      · rw [if_neg hd, if_neg hd]

/-! ## Trees -/

/-- The nodes form a tree: a child comes after its parent, and has one parent, under one
character. -/
structure IsTree (t : SymbolTable) : Prop where
  root_lt : root < t.nodes.size
  child_range {i j : Nat} {c : Char} : t.child? i c = some j → i < j ∧ j < t.nodes.size
  child_inj {i i' j : Nat} {c c' : Char} : t.child? i c = some j → t.child? i' c' = some j →
    i = i' ∧ c = c'

theorem isTree_empty : empty.IsTree where
  root_lt := by decide
  child_range {i j c} h := by
    cases i <;> simp [empty, child?] at h
  child_inj {i i' j c c'} h _ := by
    cases i <;> simp [empty, child?] at h

theorem walk?_append (t : SymbolTable) (node : Nat) (w u : List Char) :
    t.walk? node (w ++ u) = (t.walk? node w).bind fun next => t.walk? next u := by
  induction w generalizing node with
  | nil => rfl
  | cons c cs ih =>
    rw [List.cons_append, walk?, walk?, Option.bind_assoc]
    exact congrArg _ (funext ih)

theorem walk?_concat (t : SymbolTable) (node : Nat) (w : List Char) (c : Char) :
    t.walk? node (w ++ [c]) = (t.walk? node w).bind fun next => t.child? next c := by
  simp [walk?_append, walk?]

namespace IsTree

/-- A walk goes forward. -/
theorem le_of_walk? (ht : t.IsTree) (h : t.walk? i w = some j) : i ≤ j := by
  induction w generalizing i with
  | nil => exact (Option.some.inj h).le
  | cons c cs ih =>
    obtain ⟨next, hnext, h⟩ := Option.bind_eq_some_iff.1 h
    exact (ht.child_range hnext).1.le.trans (ih h)

theorem lt_of_walk? (ht : t.IsTree) (hi : i < t.nodes.size) (h : t.walk? i w = some j) :
    j < t.nodes.size := by
  induction w generalizing i with
  | nil => exact Option.some.inj h ▸ hi
  | cons c cs ih =>
    obtain ⟨next, hnext, h⟩ := Option.bind_eq_some_iff.1 h
    exact ih (ht.child_range hnext).2 h

/-- One word leads to a node. -/
theorem walk?_inj (ht : t.IsTree) (h : t.walk? root w = some j) (h' : t.walk? root u = some j) :
    w = u := by
  -- a node below another is not the root, so two walks to it have last steps, and these agree
  have hroot : ∀ {u c}, t.walk? root (u ++ [c]) ≠ some root := fun {u c} hu => by
    rw [walk?_concat] at hu
    obtain ⟨last, -, hu⟩ := Option.bind_eq_some_iff.1 hu
    exact Nat.not_lt_zero _ (ht.child_range hu).1
  induction w using List.reverseRecOn generalizing u j with
  | nil =>
    cases h
    rcases u.eq_nil_or_concat' with rfl | ⟨u, c, rfl⟩
    · rfl
    · exact absurd h' hroot
  | append_singleton w c ih =>
    rcases u.eq_nil_or_concat' with rfl | ⟨u, d, rfl⟩
    · cases h'
      exact absurd h hroot
    · rw [walk?_concat] at h h'
      obtain ⟨last, hw, hc⟩ := Option.bind_eq_some_iff.1 h
      obtain ⟨last', hu, hd⟩ := Option.bind_eq_some_iff.1 h'
      obtain ⟨rfl, rfl⟩ := ht.child_inj hc hd
      rw [ih hw hu]

end IsTree

/-! ## What a table says of a word -/

/-- The value at the end of a word below a node. -/
def below? (t : SymbolTable) (node : Nat) (w : List Char) : Option Value :=
  (t.walk? node w).bind t.value?

/-- The value of a word. -/
def entry? (t : SymbolTable) (w : List Char) : Option Value := t.below? root w

theorem below?_cons (t : SymbolTable) (node : Nat) (c : Char) (w : List Char) :
    t.below? node (c :: w) = (t.child? node c).bind fun next => t.below? next w := by
  rw [below?, walk?, Option.bind_assoc]
  rfl

/-- The table `t'` is `t` with some nodes more, which have no values yet. -/
structure Extends (t t' : SymbolTable) : Prop where
  size_le : t.nodes.size ≤ t'.nodes.size
  child {i j : Nat} {c : Char} : t.child? i c = some j → t'.child? i c = some j
  fresh {i j : Nat} {c : Char} : t'.child? i c = some j →
    t.child? i c = some j ∨ t.nodes.size ≤ j
  value (i : Nat) : t'.value? i = t.value? i

namespace Extends

theorem refl (t : SymbolTable) : t.Extends t := ⟨le_rfl, id, .inl, fun _ => rfl⟩

theorem trans {t'' : SymbolTable} (h : t.Extends t') (h' : t'.Extends t'') : t.Extends t'' where
  size_le := h.size_le.trans h'.size_le
  child hc := h'.child (h.child hc)
  fresh hc := (h'.fresh hc).elim h.fresh fun hj => .inr (h.size_le.trans hj)
  value i := (h'.value i).trans (h.value i)

theorem walk? (h : t.Extends t') (hw : t.walk? i w = some j) : t'.walk? i w = some j := by
  induction w generalizing i with
  | nil => exact hw
  | cons c cs ih =>
    obtain ⟨next, hnext, hw⟩ := Option.bind_eq_some_iff.1 hw
    exact Option.bind_eq_some_iff.2 ⟨next, h.child hnext, ih hw⟩

/-- A walk that was not possible before ends at a new node. -/
theorem walk?_fresh (h : t.Extends t') (ht : t'.IsTree) (hw : t'.walk? i w = some j) :
    t.walk? i w = some j ∨ t.nodes.size ≤ j := by
  induction w generalizing i with
  | nil => exact .inl hw
  | cons c cs ih =>
    obtain ⟨next, hnext, hw⟩ := Option.bind_eq_some_iff.1 hw
    rcases h.fresh hnext with hold | hnew
    · exact (ih hw).imp_left fun hw => Option.bind_eq_some_iff.2 ⟨next, hold, hw⟩
    · exact .inr (hnew.trans (ht.le_of_walk? hw))

theorem entry? (h : t.Extends t') (ht : t'.IsTree) (w : List Char) :
    t'.entry? w = t.entry? w := by
  have hvalue : t'.value? = t.value? := funext h.value
  rw [SymbolTable.entry?, SymbolTable.entry?, below?, below?, hvalue]
  cases hw : t'.walk? root w with
  | none =>
    cases hw' : t.walk? root w with
    | none => rfl
    | some j => cases hw.symm.trans (h.walk? hw')
  | some j =>
    rcases h.walk?_fresh ht hw with hold | hnew
    · rw [hold]
    · have hnone : t.value? j = none := by
        rw [value?, Array.getElem?_eq_none hnew]
        rfl
      have hold : (t.walk? root w).bind t.value? = none := by
        refine Option.bind_eq_none_iff.2 fun k hk => ?_
        cases hw.symm.trans (h.walk? hk)
        exact hnone
      rw [hold]
      exact hnone

end Extends

/-! ## Entering a key -/

/-- A child that is not there is made at the end. -/
theorem extend_of_none (hc : t.child? node c = none) : t.extend node c =
    (⟨(t.nodes.modify node fun n =>
      { n with children := insertChild c t.nodes.size n.children }).push {}⟩, t.nodes.size) := by
  rw [extend, hc]

theorem child?_extend (hn : node < t.nodes.size) (hc : t.child? node c = none) (i : Nat)
    (d : Char) : (t.extend node c).1.child? i d =
      if i = node ∧ d = c then some t.nodes.size else t.child? i d := by
  have hlookup : t.nodes[node].children.lookup c = none := by
    simpa [child?, hn] using hc
  rw [extend_of_none hc, child?, Array.getElem?_push, Array.size_modify, Array.getElem?_modify]
  by_cases hi : i = node
  · subst hi
    simp [hn.ne, hn, child?, lookup_insertChild hlookup]
  · by_cases hlast : i = t.nodes.size
    · simp [hlast, child?, hn.ne']
    · simp [hi, Ne.symm hi, hlast, child?]

theorem value?_extend (t : SymbolTable) (node : Nat) (c : Char) (i : Nat) :
    (t.extend node c).1.value? i = t.value? i := by
  cases hc : t.child? node c with
  | some next => rw [extend, hc]
  | none =>
    rw [extend_of_none hc, value?, Array.getElem?_push, Array.size_modify, Array.getElem?_modify]
    by_cases hlast : i = t.nodes.size
    · simp [hlast, value?]
    · rw [if_neg hlast]
      by_cases hi : node = i
      · rw [if_pos hi, value?]
        cases t.nodes[i]? <;> rfl
      · rw [if_neg hi, value?]

/-- The table after a step of `extend`, and the node that it comes to. -/
theorem extend_spec (ht : t.IsTree) (hn : node < t.nodes.size) (c : Char) :
    (t.extend node c).1.IsTree ∧ t.Extends (t.extend node c).1 ∧
      (t.extend node c).1.child? node c = some (t.extend node c).2 := by
  cases hc : t.child? node c with
  | some next =>
    have he : t.extend node c = (t, next) := by rw [extend, hc]
    rw [he]
    exact ⟨ht, .refl t, hc⟩
  | none =>
    have hchild := child?_extend hn hc
    have hvalue := t.value?_extend node c
    have hsize : (t.extend node c).1.nodes.size = t.nodes.size + 1 := by
      rw [extend_of_none hc, Array.size_push, Array.size_modify]
    have hfresh : ∀ {i d j}, (t.extend node c).1.child? i d = some j →
        t.child? i d = some j ∨ i = node ∧ d = c ∧ j = t.nodes.size := fun {i d j} h => by
      rw [hchild] at h
      split at h
      · next hnew => exact .inr ⟨hnew.1, hnew.2, (Option.some.inj h).symm⟩
      · exact .inl h
    refine ⟨⟨?_, fun h => ?_, fun h h' => ?_⟩, ⟨?_, fun h => ?_, fun h => ?_, hvalue⟩, ?_⟩
    · exact Nat.lt_of_lt_of_eq (Nat.lt_succ_of_lt ht.root_lt) hsize.symm
    · rw [hsize]
      rcases hfresh h with h | ⟨rfl, -, rfl⟩
      · have := ht.child_range h
        omega
      · omega
    · rcases hfresh h with hold | ⟨hi, hd, hj⟩ <;> rcases hfresh h' with hold' | ⟨hi', hd', hj'⟩
      · exact ht.child_inj hold hold'
      · exact absurd (ht.child_range hold).2 hj'.not_lt
      · exact absurd (ht.child_range hold').2 hj.not_lt
      · exact ⟨hi.trans hi'.symm, hd.trans hd'.symm⟩
    · omega
    · rw [hchild, if_neg, h]
      rintro ⟨rfl, rfl⟩
      cases hc.symm.trans h
    · exact (hfresh h).imp_right fun h => h.2.2.ge
    · rw [hchild, if_pos ⟨rfl, rfl⟩, extend_of_none hc]

theorem reach_spec (ht : t.IsTree) (hn : node < t.nodes.size) (w : List Char) :
    (t.reach node w).1.IsTree ∧ t.Extends (t.reach node w).1 ∧
      (t.reach node w).1.walk? node w = some (t.reach node w).2 := by
  induction w generalizing t node with
  | nil => exact ⟨ht, .refl t, rfl⟩
  | cons c cs ih =>
    obtain ⟨ht₁, hext, hchild⟩ := extend_spec ht hn c
    obtain ⟨ht₂, hext', hwalk⟩ := ih ht₁ (ht₁.child_range hchild).2
    exact ⟨ht₂, hext.trans hext', Option.bind_eq_some_iff.2 ⟨_, hext'.child hchild, hwalk⟩⟩

/-- The table with another value at a node. -/
def setValue (t : SymbolTable) (node : Nat) (v : Value) : SymbolTable :=
  ⟨t.nodes.modify node fun n => { n with value := some v }⟩

theorem child?_setValue (t : SymbolTable) (node : Nat) (v : Value) :
    (t.setValue node v).child? = t.child? := by
  funext i c
  rw [setValue, child?, child?, Array.getElem?_modify]
  split
  · cases t.nodes[i]? <;> rfl
  · rfl

theorem value?_setValue (hn : node < t.nodes.size) (v : Value) (i : Nat) :
    (t.setValue node v).value? i = if i = node then some v else t.value? i := by
  rw [setValue, value?, value?, Array.getElem?_modify]
  by_cases hi : i = node
  · simp [hi, hn]
  · rw [if_neg (Ne.symm hi), if_neg hi]

theorem walk?_setValue (t : SymbolTable) (node : Nat) (v : Value) :
    (t.setValue node v).walk? = t.walk? := by
  funext i w
  induction w generalizing i with
  | nil => rfl
  | cons c cs ih => rw [walk?, walk?, child?_setValue, funext ih]

theorem isTree_setValue (ht : t.IsTree) (node : Nat) (v : Value) : (t.setValue node v).IsTree := by
  have hsize : (t.setValue node v).nodes.size = t.nodes.size := Array.size_modify
  refine ⟨?_, fun h => ?_, fun h h' => ?_⟩
  · rw [hsize]
    exact ht.root_lt
  · rw [child?_setValue] at h
    rw [hsize]
    exact ht.child_range h
  · rw [child?_setValue] at h h'
    exact ht.child_inj h h'

/-- Entering a key changes what the table says of this key only. -/
theorem insert_spec (ht : t.IsTree) {key : String} (hkey : key ≠ "") (v : Value) :
    ∃ t', t.insert key v = .ok t' ∧ t'.IsTree ∧
      ∀ w, t'.entry? w = if w = key.toList then some v else t.entry? w := by
  obtain ⟨ht', hext, hwalk⟩ := reach_spec ht ht.root_lt key.toList
  have hinsert : t.insert key v =
      .ok ((t.reach root key.toList).1.setValue (t.reach root key.toList).2 v) := by
    have hempty : key.isEmpty = false := by simpa using hkey
    rw [insert, hempty]
    rfl
  generalize t.reach root key.toList = reached at *
  obtain ⟨t₁, node⟩ := reached
  refine ⟨_, hinsert, isTree_setValue ht' _ _, fun w => ?_⟩
  have hlt : node < t₁.nodes.size := ht'.lt_of_walk? ht'.root_lt hwalk
  rw [← hext.entry? ht', entry?, entry?, below?, below?, walk?_setValue]
  dsimp only
  cases hw : t₁.walk? root w with
  | none =>
    have hne : w ≠ key.toList := by
      rintro rfl
      cases hw.symm.trans hwalk
    rw [if_neg hne]
    rfl
  | some j =>
    rw [Option.bind_some, Option.bind_some, value?_setValue hlt]
    refine if_congr ⟨?_, ?_⟩ rfl rfl
    · rintro rfl
      exact ht'.walk?_inj hw hwalk
    · rintro rfl
      exact Option.some.inj (hw.symm.trans hwalk)

/-- A table of entries says of each word what the last entry of that key says. -/
theorem ofList_spec {entries : List (String × Value)} (hkeys : ∀ e ∈ entries, e.1 ≠ "") :
    ∃ t, ofList entries = .ok t ∧ t.IsTree ∧
      ∀ key : String, t.entry? key.toList = entries.reverse.lookup key := by
  induction entries using List.reverseRecOn with
  | nil =>
    refine ⟨empty, rfl, isTree_empty, fun key => ?_⟩
    cases key.toList <;> rfl
  | append_singleton entries e ih =>
    obtain ⟨t, hof, ht, hentry⟩ := ih fun e he => hkeys e (List.mem_append_left _ he)
    obtain ⟨t', hinsert, ht', hentry'⟩ := insert_spec ht (hkeys e (by simp)) e.2
    refine ⟨t', ?_, ht', fun key => ?_⟩
    · rw [ofList] at hof ⊢
      rw [List.foldlM_append, hof]
      exact (bind_pure _).trans hinsert
    · rw [hentry', hentry, List.reverse_append]
      simp only [List.reverse_singleton, List.singleton_append, String.toList_inj]
      exact (lookup_cons_eq_ite key e.1 e.2 _).symm

/-! ## The longest key -/

/-- Where there is no longest key, no word of the text is one. -/
theorem longestBelow_eq_none (h : t.longestBelow node text = none) (hu : u <+: text)
    (hne : u ≠ []) : t.below? node u = none := by
  induction text generalizing node u with
  | nil => exact absurd (List.prefix_nil.1 hu) hne
  | cons c cs ih =>
    obtain ⟨d, u, rfl⟩ := List.exists_cons_of_ne_nil hne
    obtain ⟨rfl, hus⟩ := List.cons_prefix_cons.1 hu
    rw [below?_cons, Option.bind_eq_none_iff]
    intro next hnext
    obtain ⟨hlonger, hvalue⟩ := Option.or_eq_none_iff.1 (Option.bind_eq_none_iff.1 h next hnext)
    by_cases hnil : u = []
    · subst hnil
      exact Option.map_eq_none_iff.1 hvalue
    · exact ih hlonger hus hnil

/-- The longest key is one, and no longer word of the text is. -/
theorem longestBelow_eq_some {rest : List Char} (h : t.longestBelow node text = some (v, rest)) :
    ∃ w, w ++ rest = text ∧ w ≠ [] ∧ t.below? node w = some v ∧
      ∀ u, u <+: text → w.length < u.length → t.below? node u = none := by
  induction text generalizing node with
  | nil => cases h
  | cons c cs ih =>
    obtain ⟨next, hnext, h⟩ := Option.bind_eq_some_iff.1 h
    have hstep : ∀ u, t.below? node (c :: u) = t.below? next u := fun u => by
      rw [below?_cons, hnext, Option.bind_some]
    rcases Option.or_eq_some_iff.1 h with h | ⟨hlonger, hvalue⟩
    · obtain ⟨w, rfl, -, hw, hmax⟩ := ih h
      refine ⟨c :: w, rfl, List.cons_ne_nil _ _, (hstep w).trans hw, fun u hu hlen => ?_⟩
      obtain ⟨d, u, rfl⟩ := List.exists_cons_of_length_pos (Nat.zero_lt_of_lt hlen)
      obtain ⟨rfl, hus⟩ := List.cons_prefix_cons.1 hu
      rw [hstep]
      exact hmax u hus (Nat.lt_of_succ_lt_succ hlen)
    · obtain ⟨v', hv', he⟩ := Option.map_eq_some_iff.1 hvalue
      cases he
      refine ⟨[c], rfl, List.cons_ne_nil _ _, (hstep []).trans hv', fun u hu hlen => ?_⟩
      obtain ⟨d, u, rfl⟩ := List.exists_cons_of_length_pos (Nat.zero_lt_of_lt hlen)
      obtain ⟨rfl, hus⟩ := List.cons_prefix_cons.1 hu
      rw [hstep]
      exact longestBelow_eq_none hlonger hus (List.ne_nil_of_length_pos (Nat.lt_of_succ_lt_succ hlen))

end SymbolTable

/-- The text is `key` and then `rest`, and no longer key of the entries is a beginning of it. -/
structure LongestKey (entries : List (String × Value)) (text key rest : String) : Prop where
  split : text = key ++ rest
  mem : ∃ v, (key, v) ∈ entries
  longest : ∀ e ∈ entries, e.1.toList <+: text.toList → e.1.length ≤ key.length

theorem LongestKey.starts {entries : List (String × Value)} {text key rest : String}
    (h : LongestKey entries text key rest) : key.toList <+: text.toList :=
  ⟨rest.toList, by rw [h.split, String.toList_append]⟩

/-- A text has one longest key. -/
theorem LongestKey.unique {entries : List (String × Value)} {text key rest key' rest' : String}
    (h : LongestKey entries text key rest) (h' : LongestKey entries text key' rest') :
    key = key' ∧ rest = rest' := by
  have hsplit : key.toList ++ rest.toList = key'.toList ++ rest'.toList := by
    rw [← String.toList_append, ← String.toList_append, ← h.split, h'.split]
  obtain ⟨v, hv⟩ := h.mem
  obtain ⟨v', hv'⟩ := h'.mem
  have hlen : key.toList.length = key'.toList.length := by
    rw [String.length_toList, String.length_toList]
    exact le_antisymm (h'.longest _ hv h.starts) (h.longest _ hv' h'.starts)
  obtain ⟨hkey, hrest⟩ := List.append_inj hsplit hlen
  exact ⟨String.toList_inj.1 hkey, String.toList_inj.1 hrest⟩

theorem lookup_reverse_ne_none {entries : List (String × Value)} {e : String × Value}
    (he : e ∈ entries) : entries.reverse.lookup e.1 ≠ none := fun h => by
  have hne := List.lookup_eq_none_iff.1 h e (List.mem_reverse.2 he)
  simp at hne

theorem mem_of_lookup_reverse {entries : List (String × Value)} {key : String} {v : Value}
    (h : entries.reverse.lookup key = some v) : (key, v) ∈ entries := by
  obtain ⟨before, after, he, -⟩ := List.lookup_eq_some_iff.1 h
  rw [← List.mem_reverse, he]
  simp

/-- A table of entries reads the longest key that a text begins with, or nothing where there is
none. -/
theorem SymbolTable.read_spec {entries : List (String × Value)} {t : SymbolTable}
    (hkeys : ∀ e ∈ entries, e.1 ≠ "")
    (hentry : ∀ key : String, t.entry? key.toList = entries.reverse.lookup key) (text : String) :
    (∃ key rest v, LongestKey entries text key rest ∧ entries.reverse.lookup key = some v ∧
      t.read text.toList = .matched v rest.toList) ∨
    (∀ e ∈ entries, ¬ e.1.toList <+: text.toList) ∧ t.read text.toList = .failed := by
  cases h : t.longestBelow root text.toList with
  | none =>
    refine .inr ⟨fun e he hstart => ?_, by rw [read, h]; rfl⟩
    have hnone := longestBelow_eq_none h hstart (by simpa using hkeys e he)
    exact lookup_reverse_ne_none he ((hentry e.1).symm.trans hnone)
  | some found =>
    obtain ⟨v, rest⟩ := found
    obtain ⟨w, hw, -, hvalue, hmax⟩ := longestBelow_eq_some h
    have hlookup : entries.reverse.lookup (String.ofList w) = some v := by
      rw [← hentry, String.toList_ofList]
      exact hvalue
    refine .inl ⟨String.ofList w, String.ofList rest, v, ⟨?_, ?_, fun e he hstart => ?_⟩, hlookup, ?_⟩
    · rw [← String.ofList_append, hw, String.ofList_toList]
    · exact ⟨v, mem_of_lookup_reverse hlookup⟩
    · by_contra hlen
      rw [not_le, String.length_ofList, ← String.length_toList] at hlen
      exact lookup_reverse_ne_none he ((hentry e.1).symm.trans (hmax _ hstart hlen))
    · rw [read, h, String.toList_ofList]
      rfl

/-- A text that begins with a key is answered with the value of its longest key, the last one that
was entered for it, and with what follows that key. A text that begins with none is no match. Fed in
chunks the text comes to the same, wherever it is cut. -/
theorem parsePrefix_symbols {entries : List (String × Value)} (hkeys : ∀ e ∈ entries, e.1 ≠ "") :
    ∃ p, Pattern.symbols entries = .ok p ∧ ∀ rules text, ∃ steps, ∀ fuel > steps,
      ((∃ e ∈ entries, e.1.toList <+: text.toList) → ∃ key rest v,
        LongestKey entries text key rest ∧ entries.reverse.lookup key = some v ∧
        (parsePrefix rules fuel p text).outcome = .ok (v, rest) ∧
        ∀ chunks, String.join chunks = text →
          Stream.Comes rules p fuel chunks (.matched v rest.toList)) ∧
      ((∀ e ∈ entries, ¬ e.1.toList <+: text.toList) →
        (parsePrefix rules fuel p text).outcome = .error (.error .noMatch) ∧
        ∀ chunks, String.join chunks = text → Stream.Comes rules p fuel chunks .failed) := by
  obtain ⟨t, hof, -, hentry⟩ := SymbolTable.ofList_spec hkeys
  refine ⟨.symbol t, by rw [Pattern.symbols, hof]; rfl, fun rules text => ?_⟩
  have hmatches : Matches rules (.symbol t) none text.toList (t.read text.toList) [] :=
    .token .none rfl
  obtain ⟨steps, hsteps⟩ := hmatches.answers (rules.collect_leaf rfl (by simp))
  refine ⟨steps, fun fuel hfuel => ?_⟩
  obtain ⟨hanswer, hcomes⟩ := hsteps fuel hfuel
  rcases SymbolTable.read_spec hkeys hentry text with ⟨key, rest, v, hlong, hv, hread⟩ |
      ⟨hno, hread⟩
  · rw [hread] at hanswer hcomes
    refine ⟨fun _ => ⟨key, rest, v, hlong, hv, ?_, hcomes⟩, fun hno => ?_⟩
    · rw [hanswer, Outcome.answer, String.ofList_toList]
    · obtain ⟨w, hmem⟩ := hlong.mem
      exact absurd hlong.starts (hno _ hmem)
  · rw [hread] at hanswer hcomes
    refine ⟨?_, fun _ => ⟨hanswer, hcomes⟩⟩
    rintro ⟨e, he, hstart⟩
    exact absurd hstart (hno e he)

/-- Entries in which one key goes on where another ends, and one is entered twice. -/
def comparisons : List (String × Value) :=
  [("<", .int 1), ("<<=>", .int 2), ("<<", .int 3), ("<", .int 4), ("=", .int 5)]

/-- The walk goes on to `<<=`, which is no key, over two chunks, and comes back to `<<`. -/
theorem parsePrefix_symbols_comparisons : ∃ p steps, Pattern.symbols comparisons = .ok p ∧
    ∀ fuel > steps, (parsePrefix .empty fuel p "<<=1").outcome = .ok (.int 3, "=1") ∧
      Stream.Comes .empty p fuel ["<", "<=", "1"] (.matched (.int 3) ['=', '1']) := by
  have hkeys : ∀ e ∈ comparisons, e.1 ≠ "" := by decide
  obtain ⟨p, hp, hall⟩ := parsePrefix_symbols hkeys
  obtain ⟨steps, hsteps⟩ := hall .empty "<<=1"
  refine ⟨p, steps, hp, fun fuel hfuel => ?_⟩
  obtain ⟨key, rest, v, hlong, hv, hanswer, hcomes⟩ :=
    (hsteps fuel hfuel).1 ⟨("<", .int 1), by simp [comparisons], by decide⟩
  have hshift : LongestKey comparisons "<<=1" "<<" "=1" :=
    ⟨by decide, ⟨.int 3, by simp [comparisons]⟩, by decide⟩
  obtain ⟨rfl, rfl⟩ := hlong.unique hshift
  have hthree : comparisons.reverse.lookup "<<" = some (.int 3) := rfl
  cases hthree.symm.trans hv
  exact ⟨hanswer, hcomes _ (by decide)⟩

end PegStream
