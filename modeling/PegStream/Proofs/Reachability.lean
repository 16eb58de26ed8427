import PegStream.Rules

/-!
# The rules within reach

`RuleBook.collect` succeeds only if every rule that a match could ever enter has a definition: the
rules that it returns are closed under what their definitions mention.

* `RuleBook.visit_rule`, `RuleBook.visit_other`: how the search goes on;
* `RuleBook.collect_closed`: what it has found once it ends;
* `RuleBook.Reaches.resolves`: every reference within reach has a definition;
* `RuleBook.exists_within_reach`: what is within reach is finite;
* `RuleBook.gathered_of_collect`: the rules found are those within reach, and no others;
* `RuleBook.collect_ok_iff`: the search goes through if every rule within reach has a definition;
* `RuleBook.Gathered.extends`: they stay so while rules are declared and defined.
-/

namespace PegStream

/-- The pattern refers to a rule, anywhere inside. -/
inductive Pattern.Mentions : Pattern → RuleRef → Prop
  | rule (ref : RuleRef) : Mentions (.rule ref) ref
  | child {p q : Pattern} {ref : RuleRef} : q ∈ p.children → Mentions q ref → Mentions p ref

namespace RuleBook

variable {book : RuleBook} {p root : Pattern} {pending rest : List Pattern} {seen held : List Nat}

/-- The patterns that a pattern is made of, through the definitions of the rules it refers to. -/
inductive Reaches (book : RuleBook) (root : Pattern) : Pattern → Prop
  | root : Reaches book root root
  | child {p q : Pattern} : Reaches book root p → q ∈ p.children → Reaches book root q
  | definition {ref : RuleRef} {d : Pattern} : Reaches book root (.rule ref) →
    book.resolve ref = .ok d → Reaches book root d

/-! ## The search -/

theorem visit_nil (book : RuleBook) (seen : List Nat) : book.visit [] seen = .ok seen := by
  rw [visit]

theorem visit_rule (book : RuleBook) (ref : RuleRef) (rest : List Pattern) (seen : List Nat) :
    book.visit (.rule ref :: rest) seen = match book.find? ref.id with
      | none => .error (.unboundRule ref.name)
      | some cell =>
        if seen.contains ref.id then book.visit rest seen
        else match cell.definition with
          | none => .error (.unboundRule cell.name)
          | some d => book.visit (d :: rest) (seen ++ [ref.id]) := by
  rw [visit]
  cases book.find? ref.id with
  | none => rfl
  | some cell => rfl

theorem visit_other (book : RuleBook) {p : Pattern} (hp : ∀ ref, p ≠ .rule ref)
    (rest : List Pattern) (seen : List Nat) :
    book.visit (p :: rest) seen = book.visit (p.children ++ rest) seen := by
  rw [visit]
  exact hp

/-- The rule has a definition. -/
def Defined (book : RuleBook) (id : Nat) (d : Pattern) : Prop :=
  ∃ cell, book.find? id = some cell ∧ cell.definition = some d

theorem Defined.resolve {ref : RuleRef} {d : Pattern} (h : book.Defined ref.id d) :
    book.resolve ref = .ok d := by
  obtain ⟨cell, hc, hd⟩ := h
  rw [RuleBook.resolve, hc]
  simp only [hd]

theorem defined_of_resolve {ref : RuleRef} {d : Pattern} (h : book.resolve ref = .ok d) :
    book.Defined ref.id d := by
  unfold RuleBook.resolve at h
  split at h
  · cases h
  · rename_i cell hc
    split at h
    · cases h
    · rename_i hd
      cases h
      exact ⟨cell, hc, hd⟩

theorem mentions_rule {ref ref' : RuleRef} (h : Pattern.Mentions (.rule ref) ref') :
    ref' = ref := by
  cases h with
  | rule => rfl
  | child hq => exact nomatch hq

/-- What a search that goes through has found: the rules met before and those that the pending
patterns mention, and with every new rule those that its definition mentions. -/
structure Found (book : RuleBook) (pending : List Pattern) (seen held : List Nat) : Prop where
  keeps : ∀ id ∈ seen, id ∈ held
  mentions : ∀ p ∈ pending, ∀ ref, p.Mentions ref → ref.id ∈ held
  closed : ∀ id ∈ held, id ∉ seen →
    ∃ d, book.Defined id d ∧ ∀ ref, d.Mentions ref → ref.id ∈ held

theorem Found.met {ref : RuleRef} (h : Found book rest seen held) (hr : ref.id ∈ seen) :
    Found book (.rule ref :: rest) seen held := by
  refine ⟨h.keeps, fun p hp ref' hm => ?_, h.closed⟩
  rcases List.mem_cons.1 hp with rfl | hp
  · rw [mentions_rule hm]
    exact h.keeps _ hr
  · exact h.mentions p hp ref' hm

theorem Found.entered {ref : RuleRef} {d : Pattern} (hd : book.Defined ref.id d)
    (h : Found book (d :: rest) (seen ++ [ref.id]) held) :
    Found book (.rule ref :: rest) seen held := by
  have href : ref.id ∈ held := h.keeps _ (by simp)
  refine ⟨fun id hid => h.keeps id (List.mem_append_left _ hid), fun p hp ref' hm => ?_,
    fun id hid hnew => ?_⟩
  · rcases List.mem_cons.1 hp with rfl | hp
    · rw [mentions_rule hm]
      exact href
    · exact h.mentions p (List.mem_cons_of_mem d hp) ref' hm
  · by_cases hid' : id = ref.id
    · rw [hid']
      exact ⟨d, hd, h.mentions d List.mem_cons_self⟩
    · exact h.closed id hid (by simp [hnew, hid'])

theorem Found.opened (hp : ∀ ref, p ≠ .rule ref) (h : Found book (p.children ++ rest) seen held) :
    Found book (p :: rest) seen held := by
  refine ⟨h.keeps, fun q hq ref hm => ?_, h.closed⟩
  rcases List.mem_cons.1 hq with rfl | hq
  · cases hm with
    | rule => exact absurd rfl (hp ref)
    | child hc hm => exact h.mentions _ (List.mem_append_left _ hc) ref hm
  · exact h.mentions q (List.mem_append_right _ hq) ref hm

theorem found_of_visit (h : book.visit pending seen = .ok held) : Found book pending seen held := by
  fun_induction visit book pending seen with
  | case1 seen =>
    cases h
    exact ⟨fun _ hid => hid, (fun _ hp => nomatch hp), fun id hid hn => absurd hid hn⟩
  | case2 => cases h
  | case3 seen ref rest cell hc hs ih => exact (ih h).met (by simpa using hs)
  | case4 => cases h
  | case5 seen ref rest cell hc hs d hd ih => exact (ih h).entered ⟨cell, hc, hd⟩
  | case6 seen p rest hp ih => exact (ih h).opened hp

/-- The rules found are closed: each has a definition, and with it the rules that the definition
mentions are found. -/
theorem collect_closed (h : book.collect root = .ok held) :
    (∀ ref, root.Mentions ref → ref.id ∈ held) ∧
      ∀ id ∈ held, ∃ d, book.Defined id d ∧ ∀ ref, d.Mentions ref → ref.id ∈ held :=
  have hf := found_of_visit h
  ⟨hf.mentions root (by simp), fun id hid => hf.closed id hid (by simp)⟩

namespace Reaches

theorem mentions (hc : book.collect root = .ok held) (h : Reaches book root p) {ref : RuleRef}
    (hm : p.Mentions ref) : ref.id ∈ held := by
  obtain ⟨hroot, hheld⟩ := collect_closed hc
  induction h generalizing ref with
  | root => exact hroot ref hm
  | child _ hq ih => exact ih (.child hq hm)
  | definition _ hr ih =>
    obtain ⟨d, hd, hmd⟩ := hheld _ (ih (.rule _))
    rw [hd.resolve] at hr
    cases hr
    exact hmd ref hm

/-- A reference within reach of a pattern whose rules have been collected has a definition. -/
theorem resolves (hc : book.collect root = .ok held) {ref : RuleRef}
    (h : Reaches book root (.rule ref)) : ∃ d, book.resolve ref = .ok d := by
  obtain ⟨d, hd, -⟩ := (collect_closed hc).2 ref.id (h.mentions hc (.rule ref))
  exact ⟨d, hd.resolve⟩

end Reaches

/-! ## Finitely many patterns -/

/-- Some patterns, and the patterns that they are made of. -/
theorem exists_closed (ps : List Pattern) : ∃ all : List Pattern, (∀ p ∈ ps, p ∈ all) ∧
    ∀ p ∈ all, ∀ q ∈ p.children, q ∈ all := by
  induction hn : Pattern.sizes ps using Nat.strongRecOn generalizing ps with
  | ind n ih =>
    cases ps with
    | nil => exact ⟨[], fun _ h => h, fun _ h => nomatch h⟩
    | cons p ps =>
      have hlt : Pattern.sizes (p.children ++ ps) < n := by
        rw [← hn, Pattern.sizes_append, Pattern.sizes, Pattern.size_eq p]
        omega
      obtain ⟨all, hin, hclosed⟩ := ih _ hlt _ rfl
      refine ⟨p :: all, fun q hq => ?_, fun q hq r hr => List.mem_cons_of_mem p ?_⟩
      · rcases List.mem_cons.1 hq with rfl | hq
        · exact List.mem_cons_self
        · exact List.mem_cons_of_mem p (hin q (List.mem_append_right _ hq))
      · rcases List.mem_cons.1 hq with rfl | hq
        · exact hin r (List.mem_append_left _ hr)
        · exact hclosed q hq r hr

theorem mem_of_resolve {ref : RuleRef} {d : Pattern} (h : book.resolve ref = .ok d) :
    d ∈ book.cells.filterMap (·.definition) := by
  obtain ⟨cell, hc, hd⟩ := defined_of_resolve h
  exact List.mem_filterMap.2 ⟨cell, List.mem_of_find?_eq_some hc, hd⟩

/-- A pattern reaches only patterns from a finite list. -/
theorem exists_within_reach (book : RuleBook) (root : Pattern) :
    ∃ all : List Pattern, ∀ p, book.Reaches root p → p ∈ all := by
  obtain ⟨all, hin, hclosed⟩ := exists_closed (root :: book.cells.filterMap (·.definition))
  refine ⟨all, fun p h => ?_⟩
  induction h with
  | root => exact hin _ List.mem_cons_self
  | child _ hq ih => exact hclosed _ ih _ hq
  | definition _ hd _ => exact hin _ (List.mem_cons_of_mem root (mem_of_resolve hd))

/-! ## Exactly the rules within reach -/

/-- The rule is one that the pattern refers to, directly or through the definitions of others. -/
def ReachesRule (book : RuleBook) (root : Pattern) (id : Nat) : Prop :=
  ∃ ref : RuleRef, ref.id = id ∧ book.Reaches root (.rule ref)

/-- A search from patterns within reach finds rules within reach only. -/
theorem reached_of_visit (h : book.visit pending seen = .ok held)
    (hp : ∀ p ∈ pending, book.Reaches root p) (hs : ∀ id ∈ seen, book.ReachesRule root id) :
    ∀ id ∈ held, book.ReachesRule root id := by
  fun_induction visit book pending seen with
  | case1 seen =>
    cases h
    exact hs
  | case2 => cases h
  | case3 seen ref rest cell hc _ ih => exact ih h (List.forall_mem_cons.1 hp).2 hs
  | case4 => cases h
  | case5 seen ref rest cell hc _ d hd ih =>
    obtain ⟨href, hrest⟩ := List.forall_mem_cons.1 hp
    have hresolve : book.resolve ref = .ok d := Defined.resolve ⟨cell, hc, hd⟩
    refine ih h (List.forall_mem_cons.2 ⟨href.definition hresolve, hrest⟩) fun id hid => ?_
    rcases List.mem_append.1 hid with hid | hid
    · exact hs id hid
    · exact ⟨ref, (List.mem_singleton.1 hid).symm, href⟩
  | case6 seen p rest _ ih =>
    obtain ⟨hp, hrest⟩ := List.forall_mem_cons.1 hp
    refine ih h (fun q hq => ?_) hs
    rcases List.mem_append.1 hq with hq | hq
    · exact hp.child hq
    · exact hrest q hq

/-- The set holds the parts of its patterns, and the definitions of the rules in it. -/
structure Closed (book : RuleBook) (S : Pattern → Prop) : Prop where
  child {p q : Pattern} : S p → q ∈ p.children → S q
  definition {ref : RuleRef} : S (.rule ref) → ∃ d, book.resolve ref = .ok d ∧ S d

/-- The identities are those of the rules within reach of `root`, and all of these have
definitions. -/
structure Gathered (book : RuleBook) (root : Pattern) (held : List Nat) : Prop where
  closed : book.Closed (book.Reaches root)
  mem_iff : ∀ id, id ∈ held ↔ book.ReachesRule root id

theorem gathered_of_collect (h : book.collect root = .ok held) : book.Gathered root held where
  closed := ⟨.child, fun href => by
    obtain ⟨d, hd⟩ := href.resolves h
    exact ⟨d, hd, href.definition hd⟩⟩
  mem_iff id := by
    constructor
    · exact reached_of_visit h (by simp [Reaches.root]) (by simp) id
    · rintro ⟨ref, rfl, href⟩
      exact href.mentions h (.rule ref)

/-- A search within a closed set goes through. -/
theorem visit_of_closed {S : Pattern → Prop} (h : book.Closed S) (hp : ∀ p ∈ pending, S p) :
    ∃ held, book.visit pending seen = .ok held := by
  fun_induction visit book pending seen with
  | case1 seen => exact ⟨seen, rfl⟩
  | case2 seen ref rest hc =>
    obtain ⟨d, hd, -⟩ := h.definition (hp _ List.mem_cons_self)
    simp [resolve, hc] at hd
  | case3 seen ref rest cell hc hs ih => exact ih (List.forall_mem_cons.1 hp).2
  | case4 seen ref rest cell hc hs hn =>
    obtain ⟨d, hd, -⟩ := h.definition (hp _ List.mem_cons_self)
    simp [resolve, hc, hn] at hd
  | case5 seen ref rest cell hc hs d hd ih =>
    obtain ⟨href, hrest⟩ := List.forall_mem_cons.1 hp
    obtain ⟨d', hd', hS⟩ := h.definition href
    rw [Defined.resolve ⟨cell, hc, hd⟩] at hd'
    cases hd'
    exact ih (List.forall_mem_cons.2 ⟨hS, hrest⟩)
  | case6 seen p rest _ ih =>
    obtain ⟨hroot, hrest⟩ := List.forall_mem_cons.1 hp
    refine ih fun q hq => ?_
    rcases List.mem_append.1 hq with hq | hq
    · exact h.child hroot hq
    · exact hrest q hq

/-- A search that does not go through has met a rule without a definition. -/
theorem exists_name_of_visit {e : Error} (h : book.visit pending seen = .error e) :
    ∃ name, e = .unboundRule name := by
  fun_induction visit book pending seen with
  | case1 => cases h
  | case2 =>
    cases h
    exact ⟨_, rfl⟩
  | case3 _ _ _ _ _ _ ih => exact ih h
  | case4 =>
    cases h
    exact ⟨_, rfl⟩
  | case5 _ _ _ _ _ _ _ _ ih => exact ih h
  | case6 _ _ _ _ ih => exact ih h

/-- A search goes through some patterns, and then through the others with what it has found. -/
theorem visit_append (book : RuleBook) (ps qs : List Pattern) (seen : List Nat) :
    book.visit (ps ++ qs) seen = book.visit ps seen >>= fun seen => book.visit qs seen := by
  fun_induction visit book ps seen with
  | case1 => rfl
  | case2 seen ref rest hc =>
    rw [List.cons_append, visit_rule, hc]
    rfl
  | case3 seen ref rest cell hc hs ih =>
    rw [List.cons_append, visit_rule, hc]
    exact (if_pos hs).trans ih
  | case4 seen ref rest cell hc hs hn =>
    rw [List.cons_append, visit_rule, hc]
    dsimp only
    rw [if_neg hs, hn]
    rfl
  | case5 seen ref rest cell hc hs d hd ih =>
    rw [List.cons_append, visit_rule, hc]
    dsimp only
    rw [if_neg hs, hd]
    exact ih
  | case6 seen p rest hp ih =>
    rw [List.cons_append, visit_other _ hp, ← List.append_assoc]
    exact ih

theorem collect_skipping (book : RuleBook) (p skipper : Pattern) :
    book.collect (.skipping p skipper) =
      book.collect p >>= fun seen => book.visit [skipper] seen := by
  rw [collect, visit_other (p := .skipping p skipper) book nofun]
  exact book.visit_append [p] [skipper] []

/-- The rules of a pattern are collected if and only if all rules within reach have definitions. -/
theorem collect_ok_iff : (∃ held, book.collect root = .ok held) ↔ book.Closed (book.Reaches root) :=
  ⟨fun ⟨_, h⟩ => (gathered_of_collect h).closed,
    fun h => visit_of_closed h (by simp [Reaches.root])⟩

/-! ## Rule books that grow -/

variable {book' : RuleBook}

/-- Every rule of `book` is one of `book'`, with the same definition if it has one. -/
def Extends (book' book : RuleBook) : Prop :=
  ∀ id cell, book.find? id = some cell → ∃ cell', book'.find? id = some cell' ∧
    ∀ d, cell.definition = some d → cell'.definition = some d

theorem Extends.refl (book : RuleBook) : book.Extends book :=
  fun _ cell h => ⟨cell, h, fun _ hd => hd⟩

theorem Extends.resolve (h : book'.Extends book) {ref : RuleRef} {d : Pattern}
    (hr : book.resolve ref = .ok d) : book'.resolve ref = .ok d := by
  obtain ⟨cell, hc, hd⟩ := defined_of_resolve hr
  obtain ⟨cell', hc', hd'⟩ := h ref.id cell hc
  exact Defined.resolve ⟨cell', hc', hd' d hd⟩

theorem Closed.extends {S : Pattern → Prop} (h : book.Closed S) (he : book'.Extends book) :
    book'.Closed S where
  child := h.child
  definition href := by
    obtain ⟨d, hd, hS⟩ := h.definition href
    exact ⟨d, he.resolve hd, hS⟩

theorem Reaches.of_closed {S : Pattern → Prop} (h : book.Closed S) (hroot : S root)
    (hp : book.Reaches root p) : S p := by
  induction hp with
  | root => exact hroot
  | child _ hq ih => exact h.child ih hq
  | definition _ hd ih =>
    obtain ⟨d, hd', hS⟩ := h.definition ih
    rw [hd'] at hd
    cases hd
    exact hS

theorem Reaches.extends (he : book'.Extends book) (hp : book.Reaches root p) :
    book'.Reaches root p := by
  induction hp with
  | root => exact .root
  | child _ hq ih => exact ih.child hq
  | definition _ hd ih => exact ih.definition (he.resolve hd)

/-- Where every rule within reach has a definition, a longer book adds nothing within reach. -/
theorem reaches_extends_iff (h : book.Closed (book.Reaches root)) (he : book'.Extends book) :
    book'.Reaches root p ↔ book.Reaches root p :=
  ⟨fun hp => hp.of_closed (h.extends he) .root, fun hp => hp.extends he⟩

theorem Gathered.extends (h : book.Gathered root held) (he : book'.Extends book) :
    book'.Gathered root held := by
  have hiff {p : Pattern} : book'.Reaches root p ↔ book.Reaches root p :=
    reaches_extends_iff h.closed he
  refine ⟨⟨.child, fun href => ?_⟩, fun id => ?_⟩
  · obtain ⟨d, hd, hreach⟩ := h.closed.definition (hiff.1 href)
    exact ⟨d, he.resolve hd, hiff.2 hreach⟩
  · simp only [h.mem_iff, ReachesRule, hiff]

/-- A search that goes through finds the same rules in every book that has the same cells and
more. -/
theorem visit_of_find (hsub : ∀ id cell, book.find? id = some cell → book'.find? id = some cell)
    (h : book.visit pending seen = .ok held) : book'.visit pending seen = .ok held := by
  fun_induction visit book pending seen with
  | case1 seen => rw [visit_nil, h]
  | case2 => cases h
  | case3 seen ref rest cell hc hseen ih =>
    rw [visit_rule, hsub _ _ hc]
    exact (if_pos hseen).trans (ih h)
  | case4 => cases h
  | case5 seen ref rest cell hc hseen d hd ih =>
    rw [visit_rule, hsub _ _ hc]
    dsimp only
    rw [if_neg hseen, hd]
    exact ih h
  | case6 seen p rest hp ih =>
    rw [visit_other _ hp]
    exact ih h

end RuleBook

end PegStream
