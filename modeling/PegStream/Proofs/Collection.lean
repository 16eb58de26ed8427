import Mathlib.Data.List.Perm.Subperm
import PegStream.Proofs.Reachability

/-!
# The first rule without a definition

`RuleBook.collect` refuses a pattern from which a rule without a definition can be reached, and
names the first one. Which one is the first is said by the ways down from the pattern: a way is a
list of numbers, each of which takes a pattern out of a list, first the root, then one of the
children of a pattern or the definition of a rule (`RuleBook.Way`). From left to right and depth
first, ways are met in the order of these lists.

* `Pattern.mem_children_iff`: the children of a pattern are all that it is made of;
* `RuleBook.reaches_iff_way`: the ways lead to all patterns within reach, and nowhere else;
* `RuleBook.depthFirst_induction`: what a search does, by what it does below the first pattern and
  then with the others;
* `RuleBook.exists_first_of_visit`: a search that fails has met the first rule of all;
* `RuleBook.collect_exact`: what is collected, and what is reported.

A search sees only one side of a cycle: a rule that it has met already is not entered again. While
the rule is being searched through (`entered`), no way needs to go through it again; and once it is
done with, everything behind it that avoids the entered rules has been met (`RuleBook.Settled`).
-/

namespace PegStream

/-! ## Parts -/

/-- A pattern is directly made of another one, in one of the roles that there are. -/
inductive Pattern.PartOf (q : Pattern) : Pattern → Prop
  | part {ps : List Pattern} : q ∈ ps → PartOf q (.sequence ps)
  | branch {ps : List Pattern} : q ∈ ps → PartOf q (.alternative ps)
  | repeated (bounds : Bounds) : PartOf q (.repetition q bounds)
  | optional : PartOf q (.optional q)
  | negated : PartOf q (.not q)
  | discarded : PartOf q (.discard q)
  | mapped (f : Value → Value) : PartOf q (.map q f)
  | tapped (label : String) : PartOf q (.tap q label)
  | lexeme : PartOf q (.lexeme q)
  | element (separator : Pattern) : PartOf q (.list q separator)
  | separator (operand : Pattern) : PartOf q (.list operand q)
  | guarded (excluded : Pattern) : PartOf q (.except q excluded)
  | excluded (operand : Pattern) : PartOf q (.except operand q)
  | skippedIn (skipper : Pattern) : PartOf q (.skipping q skipper)
  | skipper (operand : Pattern) : PartOf q (.skipping operand q)

/-- The children of a pattern are all its parts: none of the roles is left out. -/
theorem Pattern.mem_children_iff {p q : Pattern} : q ∈ p.children ↔ q.PartOf p := by
  constructor
  · intro h
    cases p with
    | char | literal | endOfInput | pass | fail | int | symbol | rule => cases h
    | sequence => exact .part h
    | alternative => exact .branch h
    | repetition | optional | not | discard | map | tap | lexeme =>
      obtain rfl := List.mem_singleton.1 h
      constructor
    | list | except | skipping =>
      rcases List.mem_pair.1 h with rfl | rfl
      · constructor
      · constructor
  · intro h
    cases h with
    | part h | branch h => exact h
    | repeated | optional | negated | discarded | mapped | tapped | lexeme =>
      exact List.mem_singleton_self q
    | element | guarded | skippedIn => exact List.mem_pair.2 (.inl rfl)
    | separator | excluded | skipper => exact List.mem_pair.2 (.inr rfl)

namespace RuleBook

variable {book : RuleBook} {root p r : Pattern} {ps rest : List Pattern} {ref ref' : RuleRef}
  {d : Pattern} {entered seen held : List Nat} {path path' : List Nat} {i : Nat} {e : Error}

/-! ## Ways -/

/-- A way down to `r` from one of the patterns `ps`. Each number on it says which pattern of a list
is taken: one of `ps`, then one of the children of that, and so on; behind a rule comes its
definition. No way enters a rule that has been entered on it or is in `entered`. -/
inductive Way (book : RuleBook) : List Nat → List Pattern → List Nat → Pattern → Prop
  | here {entered : List Nat} {ps : List Pattern} {i : Nat} {p : Pattern} :
    ps[i]? = some p → Way book entered ps [i] p
  | child {entered : List Nat} {ps : List Pattern} {i : Nat} {p : Pattern} {path : List Nat}
    {r : Pattern} : ps[i]? = some p → Way book entered p.children path r →
    Way book entered ps (i :: path) r
  | definition {entered : List Nat} {ps : List Pattern} {i : Nat} {ref : RuleRef} {d : Pattern}
    {path : List Nat} {r : Pattern} : ps[i]? = some (.rule ref) → book.resolve ref = .ok d →
    ref.id ∉ entered → Way book (ref.id :: entered) [d] path r → Way book entered ps (i :: path) r

/-- The rule does not exist, or has no definition. -/
def Unbound (book : RuleBook) (ref : RuleRef) : Prop := ∀ d, book.resolve ref ≠ .ok d

/-- The name of a rule: the one that it was declared with, if it exists. -/
def nameOf (book : RuleBook) (ref : RuleRef) : String :=
  match book.find? ref.id with
  | none => ref.name
  | some cell => cell.name

/-- The way to the reference is the first one, from left to right, to a rule without a
definition. -/
structure First (book : RuleBook) (entered : List Nat) (ps : List Pattern) (path : List Nat)
    (ref : RuleRef) : Prop where
  way : book.Way entered ps path (.rule ref)
  unbound : book.Unbound ref
  first : ∀ path' ref', book.Way entered ps path' (.rule ref') → book.Unbound ref' → ¬ path' < path

theorem resolve_eq_ok_iff : book.resolve ref = .ok d ↔ book.Defined ref.id d :=
  ⟨defined_of_resolve, Defined.resolve⟩

theorem Defined.unique {id : Nat} {d d' : Pattern} (h : book.Defined id d)
    (h' : book.Defined id d') : d = d' := by
  obtain ⟨cell, hc, hd⟩ := h
  obtain ⟨cell', hc', hd'⟩ := h'
  cases hc.symm.trans hc'
  exact Option.some.inj (hd.symm.trans hd')

namespace Way

theorem exists_cons (h : book.Way entered ps path r) : ∃ i path', path = i :: path' := by
  cases h <;> exact ⟨_, _, rfl⟩

/-- There is no way down from a pattern without children. -/
theorem not_nil : ¬ book.Way entered [] path r := by
  intro h
  cases h with
  | here hp | child hp | definition hp => cases hp

/-- Where a way ends is determined by its numbers. -/
theorem unique {r' : Pattern} (h : book.Way entered ps path r) (h' : book.Way entered ps path r') :
    r = r' := by
  induction h with
  | here hp =>
    cases h' with
    | here hp' => exact Option.some.inj (hp.symm.trans hp')
    | child _ h' => exact nomatch h'
    | definition _ _ _ h' => exact nomatch h'
  | child hp h ih =>
    cases h' with
    | here => exact nomatch h
    | child hp' h' =>
      cases hp.symm.trans hp'
      exact ih h'
    | definition hp' =>
      cases hp.symm.trans hp'
      exact absurd h not_nil
  | definition hp hd _ h ih =>
    cases h' with
    | here => exact nomatch h
    | child hp' h' =>
      cases hp.symm.trans hp'
      exact absurd h' not_nil
    | definition hp' hd' _ h' =>
      cases hp.symm.trans hp'
      cases hd.symm.trans hd'
      exact ih h'

theorem reaches (h : book.Way entered ps path r) (hps : ∀ p ∈ ps, book.Reaches root p) :
    book.Reaches root r := by
  induction h with
  | here hp => exact hps _ (List.mem_of_getElem? hp)
  | child hp _ ih => exact ih fun q hq => (hps _ (List.mem_of_getElem? hp)).child hq
  | definition hp hd _ _ ih =>
    refine ih fun q hq => ?_
    rw [List.mem_singleton.1 hq]
    exact (hps _ (List.mem_of_getElem? hp)).definition hd

theorem to_child {q : Pattern} (h : book.Way entered ps path p) (hq : q ∈ p.children) :
    ∃ path', book.Way entered ps path' q := by
  induction h with
  | here hp =>
    obtain ⟨i, hi⟩ := List.mem_iff_getElem?.1 hq
    exact ⟨_, .child hp (.here hi)⟩
  | child hp _ ih =>
    obtain ⟨path', h'⟩ := ih hq
    exact ⟨_, .child hp h'⟩
  | definition hp hd hnew _ ih =>
    obtain ⟨path', h'⟩ := ih hq
    exact ⟨_, .definition hp hd hnew h'⟩

/-- Behind a rule at the end of a way comes its definition, on a shorter way if the rule has been
entered before. -/
theorem to_definition (h : book.Way entered ps path (.rule ref)) (hd : book.resolve ref = .ok d) :
    ref.id ∈ entered ∨ ∃ path', book.Way entered ps path' d := by
  generalize hr : Pattern.rule ref = r at h
  induction h with
  | @here entered ps i p hp =>
    subst hr
    by_cases hnew : ref.id ∈ entered
    · exact .inl hnew
    · exact .inr ⟨_, .definition hp hd hnew (.here (i := 0) rfl)⟩
  | child hp _ ih => exact (ih hr).imp_right fun ⟨path', h'⟩ => ⟨_, .child hp h'⟩
  | @definition entered ps i ref₁ d₁ path r hp hd₁ hnew _ ih =>
    rcases ih hr with hin | ⟨path', h'⟩
    · rcases List.mem_cons.1 hin with heq | hin
      · rw [resolve_eq_ok_iff, heq] at hd
        obtain rfl := hd.unique (resolve_eq_ok_iff.1 hd₁)
        exact .inr ⟨_, .definition hp hd₁ hnew (.here (i := 0) rfl)⟩
      · exact .inl hin
    · exact .inr ⟨_, .definition hp hd₁ hnew h'⟩

end Way

/-- The ways from a pattern lead to what is within reach of it. -/
theorem reaches_iff_way : book.Reaches root p ↔ ∃ path, book.Way [] [root] path p := by
  constructor
  · intro h
    induction h with
    | root => exact ⟨[0], .here rfl⟩
    | child _ hq ih =>
      obtain ⟨path, h⟩ := ih
      exact h.to_child hq
    | definition _ hd ih =>
      obtain ⟨path, h⟩ := ih
      exact (h.to_definition hd).resolve_left List.not_mem_nil
  · rintro ⟨path, h⟩
    refine h.reaches fun q hq => ?_
    rw [List.mem_singleton.1 hq]
    exact .root

/-! ## The first pattern and the others -/

/-- Of the patterns that a way comes from, only the one that it goes through matters. -/
theorem Way.from_same {qs : List Pattern} {j : Nat} (h : book.Way entered ps (i :: path) r)
    (hij : qs[j]? = ps[i]?) : book.Way entered qs (j :: path) r := by
  cases h with
  | here hp => exact .here (hij.trans hp)
  | child hp h => exact .child (hij.trans hp) h
  | definition hp hd hnew h => exact .definition (hij.trans hp) hd hnew h

theorem way_succ_iff :
    book.Way entered (p :: rest) ((i + 1) :: path) r ↔ book.Way entered rest (i :: path) r :=
  ⟨fun h => h.from_same rfl, fun h => h.from_same rfl⟩

/-- A way through a pattern that is no rule goes on to one of its children. -/
theorem way_other_iff (hp : ∀ ref, p ≠ .rule ref) :
    book.Way entered (p :: rest) (0 :: path) (.rule ref) ↔
      book.Way entered p.children path (.rule ref) := by
  constructor
  · intro h
    cases h with
    | here hq => exact absurd (Option.some.inj hq) (hp ref)
    | child hq h =>
      cases hq
      exact h
    | definition hq => exact absurd (Option.some.inj hq) (hp _)
  · exact .child rfl

/-- A way through a rule goes on to its definition. -/
theorem way_rule_iff (hd : book.resolve ref = .ok d) (hnew : ref.id ∉ entered)
    (hne : ref' ≠ ref) :
    book.Way entered (.rule ref :: rest) (0 :: path) (.rule ref') ↔
      book.Way (ref.id :: entered) [d] path (.rule ref') := by
  constructor
  · intro h
    cases h with
    | here hq =>
      cases hq
      exact absurd rfl hne
    | child hq h =>
      cases hq
      exact absurd h Way.not_nil
    | definition hq hd' _ h =>
      cases hq
      cases hd.symm.trans hd'
      exact h
  · exact .definition rfl hd hnew

namespace First

/-- A rule without a definition in front is the first. -/
theorem here (h : book.Unbound ref) : book.First entered (.rule ref :: rest) [0] ref where
  way := .here rfl
  unbound := h
  first path' ref' hway _ hlt := by
    obtain ⟨i, path', rfl⟩ := hway.exists_cons
    rcases List.cons_lt_cons_iff.1 hlt with hi | ⟨-, hpath⟩
    · exact Nat.not_lt_zero _ hi
    · exact List.not_lt_nil _ hpath

/-- The first one below the first pattern is the first of all. -/
theorem head {entered' : List Nat} {qs : List Pattern} (h : book.First entered' qs path ref)
    (hways : ∀ path' ref', book.Unbound ref' →
      (book.Way entered (p :: rest) (0 :: path') (.rule ref') ↔
        book.Way entered' qs path' (.rule ref'))) :
    book.First entered (p :: rest) (0 :: path) ref where
  way := (hways path ref h.unbound).2 h.way
  unbound := h.unbound
  first path' ref' hway hunbound hlt := by
    obtain ⟨i, path', rfl⟩ := hway.exists_cons
    rcases List.cons_lt_cons_iff.1 hlt with hi | ⟨rfl, hpath⟩
    · exact Nat.not_lt_zero _ hi
    · exact h.first path' ref' ((hways path' ref' hunbound).1 hway) hunbound hpath

/-- If there is none below the first pattern, the first one below the others is the first of
all. -/
theorem tail (h : book.First entered rest path ref)
    (hbound : ∀ path' ref', book.Way entered (p :: rest) (0 :: path') (.rule ref') →
      ¬ book.Unbound ref') : ∃ path', book.First entered (p :: rest) path' ref := by
  obtain ⟨i, path, rfl⟩ := h.way.exists_cons
  refine ⟨(i + 1) :: path, way_succ_iff.2 h.way, h.unbound, fun path' ref' hway hunbound hlt => ?_⟩
  obtain ⟨j, path', rfl⟩ := hway.exists_cons
  match j with
  | 0 => exact hbound path' ref' hway hunbound
  | j + 1 =>
    refine h.first _ ref' (way_succ_iff.1 hway) hunbound ?_
    exact List.cons_lt_cons_iff.2 ((List.cons_lt_cons_iff.1 hlt).imp Nat.lt_of_succ_lt_succ
      (And.imp_left Nat.succ.inj))

/-- There is one first way. -/
theorem unique (h : book.First entered ps path ref) (h' : book.First entered ps path' ref') :
    ref = ref' := by
  have hpath : path = path' := List.le_antisymm (List.not_lt.1 (h.first _ _ h'.way h'.unbound))
    (List.not_lt.1 (h'.first _ _ h.way h.unbound))
  subst hpath
  exact Pattern.rule.inj (h.way.unique h'.way)

end First

/-! ## What a search has met -/

/-- What has been met while the rules `entered` are being searched through: every other rule that
has been met is done with, and what its definition mentions has been met. -/
structure Settled (book : RuleBook) (entered seen : List Nat) : Prop where
  begun : ∀ id ∈ entered, id ∈ seen
  defined : ∀ id ∈ seen, ∃ d, book.Defined id d
  closed : ∀ id ∈ seen, id ∉ entered → ∀ d, book.Defined id d →
    ∀ ref, d.Mentions ref → ref.id ∈ seen

namespace Settled

theorem nil (book : RuleBook) : book.Settled [] [] := ⟨nofun, nofun, nofun⟩

theorem enter (h : book.Settled entered seen) {id : Nat} (hd : book.Defined id d) :
    book.Settled (id :: entered) (seen ++ [id]) where
  begun id' hid := by
    rcases List.mem_cons.1 hid with rfl | hid
    · simp
    · exact List.mem_append_left _ (h.begun id' hid)
  defined id' hid := by
    rcases List.mem_append.1 hid with hid | hid
    · exact h.defined id' hid
    · rw [List.mem_singleton.1 hid]
      exact ⟨d, hd⟩
  closed id' hid hnew d' hd' ref hm := by
    rw [List.mem_cons, not_or] at hnew
    rcases List.mem_append.1 hid with hid | hid
    · exact List.mem_append_left _ (h.closed id' hid hnew.2 d' hd' ref hm)
    · exact absurd (List.mem_singleton.1 hid) hnew.1

theorem found (h : book.Settled entered seen) (hf : book.Found ps seen held) :
    book.Settled entered held where
  begun id hid := hf.keeps id (h.begun id hid)
  defined id hid := by
    by_cases hseen : id ∈ seen
    · exact h.defined id hseen
    · obtain ⟨d, hd, -⟩ := hf.closed id hid hseen
      exact ⟨d, hd⟩
  closed id hid hnew d hd ref hm := by
    by_cases hseen : id ∈ seen
    · exact hf.keeps _ (h.closed id hseen hnew d hd ref hm)
    · obtain ⟨d', hd', hmentions⟩ := hf.closed id hid hseen
      rw [hd.unique hd'] at hm
      exact hmentions ref hm

/-- A way from patterns whose rules have been met leads to rules that have been met, since it does
not go through the rules that are being searched through. -/
theorem met (h : book.Settled entered seen) {entered' : List Nat}
    (hway : book.Way entered' ps path (.rule ref)) (hsub : ∀ id ∈ entered, id ∈ entered')
    (hps : ∀ p ∈ ps, ∀ ref, p.Mentions ref → ref.id ∈ seen) : ref.id ∈ seen := by
  generalize hr : Pattern.rule ref = r at hway
  induction hway with
  | here hp =>
    subst hr
    exact hps _ (List.mem_of_getElem? hp) ref (.rule ref)
  | child hp _ ih =>
    exact ih hsub (fun q hq ref' hm => hps _ (List.mem_of_getElem? hp) ref' (.child hq hm)) hr
  | @definition entered' ps i ref₁ d₁ path r hp hd hnew _ ih =>
    have hmet : ref₁.id ∈ seen := hps _ (List.mem_of_getElem? hp) ref₁ (.rule ref₁)
    refine ih (fun id hid => List.mem_cons_of_mem _ (hsub id hid)) (fun q hq ref' hm => ?_) hr
    rw [List.mem_singleton.1 hq] at hm
    exact h.closed _ hmet (fun hin => hnew (hsub _ hin)) d₁ (defined_of_resolve hd) ref' hm

/-- So no rule without a definition can be reached from them. -/
theorem not_unbound (h : book.Settled entered seen)
    (hps : ∀ ref, p.Mentions ref → ref.id ∈ seen)
    (hway : book.Way entered (p :: rest) (0 :: path) (.rule ref)) : ¬ book.Unbound ref := by
  intro hunbound
  have hway' : book.Way entered [p] (0 :: path) (.rule ref) := hway.from_same rfl
  have hmet := h.met hway' (fun _ hid => hid) fun q hq => by rwa [List.mem_singleton.1 hq]
  obtain ⟨d, hd⟩ := h.defined _ hmet
  exact hunbound d hd.resolve

end Settled

/-! ## The search -/

theorem unseen_le (book : RuleBook) (h : ∀ id ∈ seen, id ∈ held) :
    book.unseen held ≤ book.unseen seen := by
  refine List.countP_mono_left fun c _ => ?_
  simp only [Bool.not_eq_true', List.contains_eq_mem, decide_eq_false_iff_not]
  exact fun hheld hseen => hheld (h _ hseen)

/-- What holds of a search from some patterns if it holds of the one below the first pattern, which
is through its definition if it is a rule and through its children otherwise, and of the one from
the other patterns, with what the first pattern has added. -/
theorem depthFirst_induction (book : RuleBook) {motive : List Pattern → List Nat → Prop}
    (nil : ∀ seen, motive [] seen)
    (cons : ∀ p rest seen,
      (∀ ref d, p = .rule ref → ref.id ∉ seen → book.Defined ref.id d →
        motive [d] (seen ++ [ref.id])) →
      ((∀ ref, p ≠ .rule ref) → motive p.children seen) →
      (∀ seen', book.visit [p] seen = .ok seen' → motive rest seen') → motive (p :: rest) seen) :
    ∀ ps seen, motive ps seen
  | [], seen => nil seen
  | p :: rest, seen =>
    cons p rest seen
      (fun ref d _ _ _ => depthFirst_induction book nil cons [d] (seen ++ [ref.id]))
      (fun _ => depthFirst_induction book nil cons p.children seen)
      (fun seen' _ => depthFirst_induction book nil cons rest seen')
termination_by ps seen => (book.unseen seen, Pattern.sizes ps)
decreasing_by
  · obtain ⟨cell, hc, -⟩ := ‹book.Defined ref.id d›
    exact Prod.Lex.left _ _ (book.unseen_append_lt seen hc (by simpa using ‹ref.id ∉ seen›))
  · refine Prod.Lex.right _ ?_
    rw [Pattern.sizes, Pattern.size_eq p]
    omega
  · have hsizes : Pattern.sizes rest < Pattern.sizes (p :: rest) := by
      rw [Pattern.sizes, Pattern.size_eq p]
      omega
    rcases Nat.lt_or_eq_of_le (book.unseen_le (found_of_visit ‹_›).keeps) with hlt | heq
    · exact Prod.Lex.left _ _ hlt
    · rw [heq]
      exact Prod.Lex.right _ hsizes

/-- A search that fails at a rule has found it without a definition, or fails behind it. -/
theorem visit_rule_error (h : book.visit [.rule ref] seen = .error e) :
    book.Unbound ref ∧ e = .unboundRule (book.nameOf ref) ∨
      ∃ d, ref.id ∉ seen ∧ book.Defined ref.id d ∧
        book.visit [d] (seen ++ [ref.id]) = .error e := by
  rw [visit_rule] at h
  cases hc : book.find? ref.id with
  | none =>
    rw [hc] at h
    cases h
    refine .inl ⟨fun d hd => ?_, by rw [nameOf, hc]⟩
    rw [resolve, hc] at hd
    cases hd
  | some cell =>
    rw [hc] at h
    dsimp only at h
    split at h
    · rw [visit_nil] at h
      cases h
    · rename_i hnew
      cases hd : cell.definition with
      | none =>
        rw [hd] at h
        cases h
        refine .inl ⟨fun d hd' => ?_, by rw [nameOf, hc]⟩
        rw [resolve, hc] at hd'
        simp [hd] at hd'
      | some d =>
        rw [hd] at h
        exact .inr ⟨d, by simpa using hnew, ⟨cell, hc, hd⟩, h⟩

/-- A search that fails names the first rule without a definition, of all those that can be reached
without going through the rules that are being searched through. -/
theorem exists_first_of_visit (h : book.visit ps seen = .error e)
    (hs : book.Settled entered seen) :
    ∃ path ref, book.First entered ps path ref ∧ e = .unboundRule (book.nameOf ref) := by
  induction ps, seen using depthFirst_induction book generalizing entered with
  | nil seen =>
    rw [visit_nil] at h
    cases h
  | cons p rest seen below children others =>
    rw [← List.singleton_append, visit_append] at h
    cases hv : book.visit [p] seen with
    | ok seen' =>
      rw [hv] at h
      have hfound := found_of_visit hv
      have hs' := hs.found hfound
      obtain ⟨path, ref, hfirst, he⟩ := others seen' hv h hs'
      obtain ⟨path', hfirst'⟩ := hfirst.tail (p := p) fun path' ref' hway =>
        hs'.not_unbound (hfound.mentions p List.mem_cons_self) hway
      exact ⟨path', ref, hfirst', he⟩
    | error e' =>
      rw [hv] at h
      cases h
      by_cases hp : ∃ ref, p = .rule ref
      · obtain ⟨ref, rfl⟩ := hp
        rcases visit_rule_error hv with ⟨hunbound, he⟩ | ⟨d, hnew, hd, hv⟩
        · exact ⟨[0], ref, .here hunbound, he⟩
        · obtain ⟨path, ref', hfirst, he⟩ := below ref d rfl hnew hd hv (hs.enter hd)
          refine ⟨_, ref', hfirst.head fun path' ref' hunbound => way_rule_iff hd.resolve
            (fun hin => hnew (hs.begun _ hin)) ?_, he⟩
          rintro rfl
          exact hunbound d hd.resolve
      · replace hp : ∀ ref, p ≠ .rule ref := fun ref heq => hp ⟨ref, heq⟩
        rw [visit_other _ hp, List.append_nil] at hv
        obtain ⟨path, ref, hfirst, he⟩ := children hp hv hs
        exact ⟨_, ref, hfirst.head fun _ _ _ => way_other_iff hp, he⟩

/-- A search meets no rule twice. -/
theorem nodup_of_visit (h : book.visit ps seen = .ok held) (hs : seen.Nodup) : held.Nodup := by
  fun_induction visit book ps seen with
  | case1 seen =>
    cases h
    exact hs
  | case2 => cases h
  | case3 seen ref rest cell hc hin ih => exact ih h hs
  | case4 => cases h
  | case5 seen ref rest cell hc hnew d hd ih =>
    refine ih h (List.nodup_append.2 ⟨hs, by simp, fun a ha b hb => ?_⟩)
    rintro rfl
    rw [List.mem_singleton.1 hb] at ha
    exact hnew (by simpa using ha)
  | case6 seen p rest hp ih => exact ih h hs

/-- There are no more rules to be found than there are rules. -/
theorem length_le_of_collect (h : book.collect root = .ok held) :
    held.length ≤ book.cells.length := by
  have hsub : held ⊆ book.cells.map (·.id) := by
    intro id hid
    obtain ⟨d, ⟨cell, hc, -⟩, -⟩ := (collect_closed h).2 id hid
    have hcell : cell.id = id := by
      have hfound := List.find?_some hc
      exact beq_iff_eq.1 hfound
    exact List.mem_map.2 ⟨cell, List.mem_of_find?_eq_some hc, hcell⟩
  have hle := ((nodup_of_visit h List.nodup_nil).subperm hsub).length_le
  rwa [List.length_map] at hle

/-- What a search for the rules of a pattern comes to. It goes through if and only if every rule
within reach exists and has a definition, and then it has each rule within reach once, by its
identity. Otherwise it reports the name of the first rule of all that does not exist or has no
definition, in the order of a depth-first search from left to right. Within reach are the parts of a
pattern in all their roles and the definitions of rules, on ways that enter no rule twice. -/
theorem collect_exact (book : RuleBook) (root : Pattern) :
    ((∃ held, book.collect root = .ok held) ↔
      ∀ ref, book.Reaches root (.rule ref) → ∃ d, book.resolve ref = .ok d) ∧
    (∀ held, book.collect root = .ok held →
      held.Nodup ∧ held.length ≤ book.cells.length ∧
      ∀ id, id ∈ held ↔ book.ReachesRule root id) ∧
    (∀ p q : Pattern, q ∈ p.children ↔ q.PartOf p) ∧
    (∀ p, book.Reaches root p ↔ ∃ path, book.Way [] [root] path p) ∧
    ∀ e, book.collect root = .error e ↔
      ∃ path ref, book.First [] [root] path ref ∧ e = .unboundRule (book.nameOf ref) := by
  refine ⟨?_, fun held h => ?_, fun p q => Pattern.mem_children_iff, fun p => reaches_iff_way,
    fun e => ?_⟩
  · constructor
    · rintro ⟨held, h⟩ ref href
      exact href.resolves h
    · intro h
      refine collect_ok_iff.2 ⟨.child, fun {ref} href => ?_⟩
      obtain ⟨d, hd⟩ := h ref href
      exact ⟨d, hd, href.definition hd⟩
  · exact ⟨nodup_of_visit h List.nodup_nil, length_le_of_collect h,
      (gathered_of_collect h).mem_iff⟩
  · constructor
    · intro h
      exact exists_first_of_visit h (.nil book)
    · rintro ⟨path, ref, hfirst, rfl⟩
      cases h : book.collect root with
      | ok held =>
        obtain ⟨d, hd⟩ := (reaches_iff_way.2 ⟨path, hfirst.way⟩).resolves h
        exact absurd hd (hfirst.unbound d)
      | error e =>
        obtain ⟨path', ref', hfirst', rfl⟩ := exists_first_of_visit h (.nil book)
        rw [hfirst.unique hfirst']

namespace Twins

def first : RuleRef := ⟨0, "list"⟩
def second : RuleRef := ⟨1, "list"⟩
def comma : RuleRef := ⟨2, "comma"⟩
def gone : RuleRef := ⟨3, "gone"⟩

/-- Two rules of one name that refer to each other and to themselves, and one for the separator of
the second. -/
def rules (separator : Option Pattern) : RuleBook where
  cells := [⟨0, "list", some (.sequence [.rule second, .rule first])⟩,
    ⟨1, "list", some (.list (.rule first) (.rule comma))⟩, ⟨2, "comma", separator⟩]
  next := 4

theorem collect_eq : (rules (some (.literal ","))).collect (.rule first) = .ok [0, 1, 2] := by
  simp [collect, visit_rule, visit_other, visit_nil, Pattern.children, find?, rules, first, second,
    comma]

theorem collect_undefined : (rules none).collect (.sequence [.rule first, .rule gone]) =
    .error (.unboundRule "comma") := by
  simp [collect, visit_rule, visit_other, Pattern.children, find?, rules, first, second, comma,
    gone]

end Twins

/-- Both rules of the same name are found, once each. If the separator has no definition, it comes
before the rule that is gone. -/
theorem collect_exact_twins :
    (∀ id, id ∈ [0, 1, 2] ↔
      (Twins.rules (some (.literal ","))).ReachesRule (.rule Twins.first) id) ∧
    ∃ path ref, (Twins.rules none).First [] [.sequence [.rule Twins.first, .rule Twins.gone]] path
      ref ∧ (Twins.rules none).nameOf ref = "comma" := by
  refine ⟨((collect_exact _ _).2.1 _ Twins.collect_eq).2.2, ?_⟩
  obtain ⟨path, ref, hfirst, hname⟩ := ((collect_exact _ _).2.2.2.2 _).1 Twins.collect_undefined
  exact ⟨path, ref, hfirst, (Error.unboundRule.inj hname).symm⟩

end RuleBook

end PegStream
