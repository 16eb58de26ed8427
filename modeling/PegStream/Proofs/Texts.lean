import Mathlib.Data.List.Forall2
import PegStream.Value.Target

/-!
# Texts of values

Lists and tuples only group what stands in them. All that a value says stands in its leaves
(`Value.leaves`), the parts that have no elements of their own: its text is put together from the
characters and strings among them, from left to right (`Value.spelling`), and a single integer
among them (`Value.HoldsInt`) leaves the value without a text, however deep it stands.

The text of a value is written into one buffer along the nesting of the value, and is given up where
an integer is met. This is the same as to write the leaves one after another
(`Value.appendText_eq_leaves`); what is left to show is about a flat list.

* `Value.mem_leaves_iff`: the leaves are what occurs in the value and has no elements;
* `Value.text?_eq`: which values have a text, and which one;
* `Target.read_text_exact`: what a text destination stores, and what it answers to other values.
-/

namespace PegStream

namespace Value

variable {v w : Value} {vs ws : List Value}

/-! ## Elements -/

/-- Induction along the elements of lists and tuples. The recursor of `Value` has a second motive,
for lists of values; a hypothesis about their members takes its place. -/
theorem elements_induction {motive : Value → Prop}
    (step : ∀ v, (∀ vs, v.elements? = some vs → ∀ u ∈ vs, motive u) → motive v) (v : Value) :
    motive v := by
  refine step v fun vs hvs u hu => ?_
  have hlt : sizeOf u < sizeOf v := by
    have hmem := List.sizeOf_lt_of_mem hu
    cases v <;> cases hvs
    · rw [list.sizeOf_spec]
      omega
    · rw [tuple.sizeOf_spec]
      omega
  exact elements_induction step u
termination_by sizeOf v

/-- The value `w` stands in a value at some depth, or is the value itself. -/
inductive Occurs (w : Value) : Value → Prop
  | self : Occurs w w
  | element {v u : Value} {vs : List Value} : v.elements? = some vs → u ∈ vs → Occurs w u →
    Occurs w v

/-! ## Leaves -/

mutual

/-- The parts of a value that have no elements of their own, from left to right. -/
def leaves : Value → List Value
  | .list vs => leavesAll vs
  | .tuple vs => leavesAll vs
  | v => [v]

/-- The leaves of `vs` from left to right. -/
def leavesAll : List Value → List Value
  | [] => []
  | v :: vs => leaves v ++ leavesAll vs

end

theorem leavesAll_eq_flatMap (vs : List Value) : leavesAll vs = vs.flatMap leaves := by
  induction vs with
  | nil => rw [leavesAll, List.flatMap_nil]
  | cons v vs ih => rw [leavesAll, ih, List.flatMap_cons]

theorem leaves_of_elements (h : v.elements? = some vs) : v.leaves = vs.flatMap leaves := by
  rw [← leavesAll_eq_flatMap]
  cases v <;> cases h <;> rw [leaves]

theorem leaves_of_no_elements (h : v.elements? = none) : v.leaves = [v] := by
  cases v <;> cases h <;> rfl

theorem occurs_of_mem_leaves (h : w ∈ v.leaves) : w.Occurs v ∧ w.elements? = none := by
  induction v using elements_induction with
  | step v ih =>
    cases hv : v.elements? with
    | none =>
      rw [leaves_of_no_elements hv, List.mem_singleton] at h
      subst h
      exact ⟨.self, hv⟩
    | some vs =>
      rw [leaves_of_elements hv, List.mem_flatMap] at h
      obtain ⟨u, hu, hw⟩ := h
      obtain ⟨hoccurs, hleaf⟩ := ih vs hv u hu hw
      exact ⟨.element hv hu hoccurs, hleaf⟩

/-- The leaves of a value are what occurs in it and has no elements. -/
theorem mem_leaves_iff : w ∈ v.leaves ↔ w.Occurs v ∧ w.elements? = none := by
  refine ⟨occurs_of_mem_leaves, ?_⟩
  rintro ⟨hoccurs, hleaf⟩
  induction hoccurs with
  | self =>
    rw [leaves_of_no_elements hleaf]
    exact List.mem_singleton_self w
  | element hv hu _ ih =>
    rw [leaves_of_elements hv]
    exact List.mem_flatMap_of_mem hu ih

/-- An integer stands in the value at some depth. -/
def HoldsInt (v : Value) : Prop := ∃ n, (int n).Occurs v

theorem holdsInt_iff_mem_leaves : v.HoldsInt ↔ ∃ n, int n ∈ v.leaves := by
  simp only [HoldsInt, mem_leaves_iff, elements?, and_true]

theorem holdsInt_iff_leaf : v.HoldsInt ↔ ∃ w ∈ v.leaves, w.kind = .int := by
  rw [holdsInt_iff_mem_leaves]
  constructor
  · rintro ⟨n, hn⟩
    exact ⟨int n, hn, rfl⟩
  · rintro ⟨w, hw, hkind⟩
    cases w <;> cases hkind
    exact ⟨_, hw⟩

instance (v : Value) : Decidable v.HoldsInt :=
  decidable_of_iff _ holdsInt_iff_leaf.symm

theorem holdsInt_of_elements (h : v.elements? = some vs) :
    v.HoldsInt ↔ ∃ u ∈ vs, u.HoldsInt := by
  simp only [holdsInt_iff_mem_leaves, leaves_of_elements h, List.mem_flatMap]
  constructor
  · rintro ⟨n, u, hu, hn⟩
    exact ⟨u, hu, n, hn⟩
  · rintro ⟨u, hu, n, hn⟩
    exact ⟨n, u, hu, hn⟩

/-! ## Texts -/

/-- The text that a character or a string stands for. -/
def ownText? : Value → Option String
  | char c => some (String.singleton c)
  | str s => some s
  | _ => none

/-- The characters and strings in a value, joined from left to right. -/
def spelling (v : Value) : String :=
  String.join (v.leaves.filterMap ownText?)

theorem spelling_of_elements (h : v.elements? = some vs) :
    v.spelling = String.join (vs.map spelling) := by
  rw [spelling, leaves_of_elements h, List.filterMap_flatMap, ← String.toList_inj]
  simp only [String.toList_join, List.flatMap_assoc, List.flatMap_map, spelling]

theorem appendText_of_elements (h : v.elements? = some vs) (out : String) :
    v.appendText out = appendTexts vs out := by
  cases v <;> cases h <;> rw [appendText]

theorem appendTexts_singleton (v : Value) (out : String) :
    appendTexts [v] out = v.appendText out := by
  simp [appendTexts]

theorem appendTexts_append (vs ws : List Value) (out : String) :
    appendTexts (vs ++ ws) out = (appendTexts vs out).bind (appendTexts ws) := by
  induction vs generalizing out with
  | nil => rw [List.nil_append, appendTexts, Option.bind_some]
  | cons v vs ih =>
    rw [List.cons_append, appendTexts, appendTexts, Option.bind_assoc]
    exact Option.bind_congr fun out _ => ih out

theorem appendTexts_flatMap_leaves
    (h : ∀ v ∈ vs, ∀ out, v.appendText out = appendTexts v.leaves out) (out : String) :
    appendTexts vs out = appendTexts (vs.flatMap leaves) out := by
  induction vs generalizing out with
  | nil => rfl
  | cons v vs ih =>
    rw [List.forall_mem_cons] at h
    rw [appendTexts, h.1, List.flatMap_cons, appendTexts_append]
    exact Option.bind_congr fun out _ => ih h.2 out

/-- A value is written as its leaves are, one after another. -/
theorem appendText_eq_leaves (v : Value) (out : String) :
    v.appendText out = appendTexts v.leaves out := by
  induction v using elements_induction generalizing out with
  | step v ih =>
    cases hv : v.elements? with
    | none => rw [leaves_of_no_elements hv, appendTexts_singleton]
    | some vs =>
      rw [appendText_of_elements hv, leaves_of_elements hv]
      exact appendTexts_flatMap_leaves (ih vs hv) out

/-- Leaves among which there is no integer are written to the end. -/
theorem appendTexts_of_no_int (hleaves : ∀ w ∈ ws, w.elements? = none)
    (hint : ∀ n, int n ∉ ws) (out : String) :
    appendTexts ws out = some (out ++ String.join (ws.filterMap ownText?)) := by
  -- The buffer stays general: what the first leaf writes is what the others are appended to.
  induction ws generalizing out with
  | nil => simp [appendTexts]
  | cons w ws ih =>
    rw [List.forall_mem_cons] at hleaves
    have hrest := ih hleaves.2 fun n hn => hint n (List.mem_cons_of_mem _ hn)
    cases w with
    | nil => simp [appendTexts, appendText, hrest, List.filterMap_cons, ownText?]
    | char c =>
      simp [appendTexts, appendText, hrest, ownText?, ← String.append_singleton,
        String.append_assoc]
    | int n => exact absurd List.mem_cons_self (hint n)
    | str s => simp [appendTexts, appendText, hrest, ownText?, String.append_assoc]
    | list | tuple => cases hleaves.1

/-- Whatever was written before an integer is given up. -/
theorem appendTexts_of_int {n : Int64} (h : int n ∈ ws) (out : String) :
    appendTexts ws out = none := by
  obtain ⟨before, after, rfl⟩ := List.append_of_mem h
  rw [appendTexts_append]
  -- The writing stops here at the latest: there may be another integer before this one.
  cases appendTexts before out with
  | none => rfl
  | some out => simp [appendTexts, appendText]

/-- The text of a value is its spelling, unless an integer stands in it. -/
theorem text?_eq (v : Value) : v.text? = if v.HoldsInt then none else some v.spelling := by
  rw [text?, appendText_eq_leaves]
  split_ifs with h
  · obtain ⟨n, hn⟩ := holdsInt_iff_mem_leaves.1 h
    exact appendTexts_of_int hn ""
  · have hleaves : ∀ w ∈ v.leaves, w.elements? = none := fun w hw => (mem_leaves_iff.1 hw).2
    have hint : ∀ n, int n ∉ v.leaves := fun n hn => h (holdsInt_iff_mem_leaves.2 ⟨n, hn⟩)
    rw [appendTexts_of_no_int hleaves hint, String.empty_append, spelling]

end Value

/-! ## Text destinations -/

namespace Target

variable {v : Value} {vs : List Value}

theorem readText_eq (v : Value) : readText v =
    if v.HoldsInt then .error (.shapeMismatch .text v.kind) else .ok v.spelling := by
  rw [readText, Value.text?_eq]
  split_ifs
  · rfl
  · rfl

theorem readText_eq_ok_iff {t : String} :
    readText v = .ok t ↔ ¬ v.HoldsInt ∧ v.spelling = t := by
  rw [readText_eq]
  split_ifs with h
  · simp [h]
  · simp [h]

theorem readText_eq_error_iff {e : Error} :
    readText v = .error e ↔ v.HoldsInt ∧ e = .shapeMismatch .text v.kind := by
  rw [readText_eq]
  split_ifs with h
  · simp [h, eq_comm]
  · simp [h]

theorem exists_readText_eq_ok_iff : (∃ t, readText v = .ok t) ↔ ¬ v.HoldsInt := by
  simp only [readText_eq_ok_iff, exists_and_left, exists_eq', and_true]

/-- Values that are stored one by one are stored as their spellings. -/
theorem forall₂_readText_iff {ts : List String} :
    List.Forall₂ (fun u t => readText u = .ok t) vs ts ↔
      (∀ u ∈ vs, ¬ u.HoldsInt) ∧ vs.map Value.spelling = ts := by
  simp only [readText_eq_ok_iff, List.forall₂_and_left]
  rw [← List.forall₂_map_left_iff (f := Value.spelling), List.forall₂_eq_eq_eq]

/-- A value is stored as a text exactly if no integer stands in it at any depth, and the text is
made of its characters and strings from left to right; the error for other values names the value
itself, not the part that did not fit. The text of a list or a tuple is made of the texts of its
elements, and there is one exactly if all of them have one. -/
theorem read_text_exact (v : Value) :
    (∀ t : String, read .text v = .ok t ↔ ¬ v.HoldsInt ∧ v.spelling = t) ∧
    (∀ e, read .text v = .error e ↔ v.HoldsInt ∧ e = .shapeMismatch .text v.kind) ∧
    Expectation.text.name = "String" ∧
    ∀ vs, v = .list vs ∨ v = .tuple vs →
      ((∃ t : String, read .text v = .ok t) ↔ ∀ u ∈ vs, ∃ t : String, read .text u = .ok t) ∧
      ∀ ts : List String,
        List.Forall₂ (fun (u : Value) (t : String) => read .text u = .ok t) vs ts →
          read .text v = .ok (String.join ts) := by
  refine ⟨fun _ => readText_eq_ok_iff, fun _ => readText_eq_error_iff, rfl, fun vs hvs => ?_⟩
  have helements : v.elements? = some vs := by
    rcases hvs with rfl | rfl
    · rfl
    · rfl
  have hholds : ¬ v.HoldsInt ↔ ∀ u ∈ vs, ¬ u.HoldsInt := by
    simp only [Value.holdsInt_of_elements helements, not_exists, not_and]
  refine ⟨?_, fun ts hts => ?_⟩
  · show (∃ t, readText v = .ok t) ↔ ∀ u ∈ vs, ∃ t, readText u = .ok t
    simp only [exists_readText_eq_ok_iff, hholds]
  · obtain ⟨hint, rfl⟩ := forall₂_readText_iff.1 hts
    exact readText_eq_ok_iff.2 ⟨hholds.2 hint, Value.spelling_of_elements helements⟩

end Target

namespace Value

/-- Texts at three depths, an absent value and an empty list among them. -/
def grouped : Value := .tuple [.str "ab", .list [.nil, .tuple [.char 'c']], .list []]

/-- An integer three levels deep, behind a character. -/
def numbered : Value := .list [.char 'a', .tuple [.list [.int 7]]]

end Value

theorem Target.read_text_exact_nested :
    read .text Value.grouped = .ok "abc" ∧
    read .text (.list [.grouped, .char '-', .grouped]) = .ok "abc-abc" ∧
    read .text Value.numbered = .error (.shapeMismatch .text .list) := by
  have hgrouped : read .text Value.grouped = .ok "abc" :=
    ((read_text_exact Value.grouped).1 "abc").2 ⟨by decide, by decide +kernel⟩
  obtain ⟨-, -, -, hparts⟩ := read_text_exact (.list [.grouped, .char '-', .grouped])
  obtain ⟨-, herror, -⟩ := read_text_exact Value.numbered
  refine ⟨hgrouped, ?_, (herror _).2 ⟨by decide, rfl⟩⟩
  exact (hparts _ (.inl rfl)).2 ["abc", "-", "abc"]
    (.cons hgrouped (.cons rfl (.cons hgrouped .nil)))

end PegStream
