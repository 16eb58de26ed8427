import PegStream.Proofs.Confinement
import PegStream.Session

/-!
# The lifetimes of rules

In a session rules are declared, defined and let go, and streams are started, fed and finished, in
any order. A rule is alive exactly while its handle is kept or a stream whose pattern reaches it is
not finished. A stream that has been started never misses a rule after that: it does what it would
do if no handle were ever let go.

* `Session.Step`, `Session.perform`, `Session.play`: what happens in a session, and the answers;
* `Session.Takes`: what a step can do;
* `Session.Records`: what a log tells of the session that it leads to;
* `Session.Alike`: two sessions that differ in the handles, which a stream cannot tell;
* `Session.rules_live_while_needed`: both statements, for every run of a session.
-/

namespace PegStream

open Machine

/-! ## Streams on other rule books -/

namespace Stream

variable {S : Pattern → Prop} {rules rules' : RuleBook} {st : Stream} {fuel : Nat}
  {chunk : String}

theorem ofVerdict_fault {v : Verdict} {f : Fault} (h : Status.ofVerdict v = .error (.fault f)) :
    v = .fault f := by
  cases v <;> cases h
  rfl

/-- Feeding a stream depends only on the definitions of the rules in a closed set that confines
it. -/
theorem feed_congr (hS : rules.Closed S)
    (hagree : ∀ ref, S (.rule ref) → rules'.resolve ref = rules.resolve ref)
    (h : Confined S st.machine) : st.feed rules' fuel chunk = st.feed rules fuel chunk := by
  unfold Stream.feed
  split
  · rfl
  · cases st.machine.source.push chunk with
    | error f => rfl
    | ok s =>
      have hm : Confined S { st.machine with source := s } := ⟨h.control, h.stack⟩
      change (Except.ok s >>= _) = (Except.ok s >>= _)
      simp only [bind, Except.bind, run_congr plain_chunked hS hagree hm]

theorem conclude_congr (hS : rules.Closed S)
    (hagree : ∀ ref, S (.rule ref) → rules'.resolve ref = rules.resolve ref)
    (h : Confined S st.machine) : st.conclude rules' fuel = st.conclude rules fuel := by
  have hm : Confined S { st.machine with source := st.machine.source.finish } :=
    ⟨h.control, h.stack⟩
  simp only [Stream.conclude, run_congr plain_chunked hS hagree hm]

theorem finish_congr (hS : rules.Closed S)
    (hagree : ∀ ref, S (.rule ref) → rules'.resolve ref = rules.resolve ref)
    (h : Confined S st.machine) : st.finish rules' fuel = st.finish rules fuel := by
  simp only [Stream.finish, conclude_congr hS hagree h]

theorem ofRules_of_push {source : Chunked} {f : Fault}
    (h : source.push chunk = .error f) : f.ofRules = false := by
  unfold Chunked.push at h
  split at h
  · cases h
    rfl
  · split at h <;> cases h

/-- What a stream holds is settled when it is started. -/
theorem held_of_feed {st' : Stream} (h : st.feed rules fuel chunk = .ok st') :
    st'.held = st.held := by
  by_cases hu : st.status = .undecided
  · cases hp : st.machine.source.push chunk with
    | error f =>
      rw [Stream.feed, hu, hp] at h
      cases h
    | ok s =>
      rw [feed_undecided hu hp rfl] at h
      cases hv : Status.ofVerdict ((st.machine.on s).run rules fuel).2 with
      | error e =>
        rw [hv] at h
        cases h
      | ok status =>
        rw [hv] at h
        cases h
        rfl
  · rw [feed_decided hu] at h
    cases h
    rfl

/-- A stream that has been fed is confined as before, and if it cannot be fed then not for want of
a rule. -/
theorem feed_confined (hS : rules.Closed S) (h : Confined S st.machine) (fuel : Nat)
    (chunk : String) :
    (∀ st', st.feed rules fuel chunk = .ok st' → Confined S st'.machine) ∧
      ∀ f, st.feed rules fuel chunk = .error (.fault f) → f.ofRules = false := by
  by_cases hu : st.status = .undecided
  · cases hp : st.machine.source.push chunk with
    | error g =>
      have hfeed : st.feed rules fuel chunk = .error (.fault g) := by
        rw [Stream.feed, hu, hp]
        rfl
      rw [hfeed]
      refine ⟨(fun _ hf => nomatch hf), fun f hf => ?_⟩
      cases hf
      exact ofRules_of_push hp
    | ok s =>
      have hm : Confined S (st.machine.on s) := ⟨h.control, h.stack⟩
      obtain ⟨hrun, hfault⟩ := hm.run plain_chunked hS fuel
      rw [feed_undecided hu hp rfl]
      cases hv : Status.ofVerdict ((st.machine.on s).run rules fuel).2 with
      | error e =>
        refine ⟨(fun _ hf => nomatch hf), fun f hf => ?_⟩
        cases hf
        exact hfault f (ofVerdict_fault hv)
      | ok status =>
        refine ⟨fun st' hf => ?_, fun f hf => nomatch hf⟩
        cases hf
        exact hrun
  · rw [feed_decided hu]
    refine ⟨fun st' hf => ?_, fun f hf => nomatch hf⟩
    cases hf
    exact h

theorem concluded_fault {v : Verdict} {f : Fault} (h : concluded v = .error (.fault f)) :
    v = .fault f ∨ f = .undecidedAtEnd := by
  cases v <;> cases h
  · exact .inr rfl
  · exact .inl rfl

/-- Finishing a confined stream misses no rule. -/
theorem finish_ofRules (hS : rules.Closed S) (h : Confined S st.machine) {f : Fault}
    (hf : (st.finish rules fuel).outcome = .error (.fault f)) : f.ofRules = false := by
  have hm : Confined S { st.machine with source := st.machine.source.finish } :=
    ⟨h.control, h.stack⟩
  rcases concluded_fault (v := (st.conclude rules fuel).2) hf with hv | rfl
  · unfold Stream.conclude at hv
    split at hv
    · exact (hm.run plain_chunked hS fuel).2 f hv
    · cases hv
    · cases hv
  · rfl

end Stream

/-! ## Rules of a session -/

namespace RuleBook

variable {book book' : RuleBook} {ref : RuleRef} {p : Pattern}

theorem id_of_find? {id : Nat} {cell : RuleCell} (h : book.find? id = some cell) :
    cell.id = id := by
  have := List.find?_some h
  exact beq_iff_eq.1 this

/-- The rules that are kept are found as before, and the others are not. -/
theorem find?_restrict (book : RuleBook) (keep : Nat → Bool) (id : Nat) :
    (book.restrict keep).find? id = if keep id then book.find? id else none := by
  unfold restrict find?
  rw [List.find?_filter]
  split
  · rename_i hk
    refine congrFun (congrArg List.find? (funext fun c => ?_)) book.cells
    by_cases hc : c.id = id
    · simp [hc, hk]
    · simp [hc]
  · rename_i hk
    refine List.find?_eq_none.2 fun c _ => ?_
    by_cases hc : c.id = id
    · simp [hc, hk]
    · simp [hc]

theorem find?_declare (book : RuleBook) (name : String) (id : Nat) :
    (book.declare name).2.find? id =
      (book.find? id).or (if book.next = id then some ⟨book.next, name, none⟩ else none) := by
  unfold declare find?
  rw [List.find?_append]
  congr 1
  by_cases h : book.next = id
  · simp [h]
  · simp [h]

theorem extends_restrict (book : RuleBook) (keep : Nat → Bool) :
    book.Extends (book.restrict keep) := by
  intro id cell h
  rw [find?_restrict] at h
  split at h
  · exact ⟨cell, h, fun _ hd => hd⟩
  · cases h

theorem extends_declare (book : RuleBook) (name : String) :
    (book.declare name).2.Extends book := by
  intro id cell h
  rw [find?_declare, h]
  exact ⟨cell, rfl, fun _ hd => hd⟩

theorem find?_define (h : book.define ref p = .ok book') (id : Nat) :
    book'.find? id = (book.find? id).map fun c =>
      if c.id = ref.id then { c with definition := some p } else c := by
  unfold define at h
  split at h
  · cases h
  · split at h
    · cases h
    · cases h
      unfold find?
      rw [List.find?_map]
      congr 2
      funext c
      simp only [Function.comp]
      split <;> rfl

/-- Only a rule without a definition is given one. -/
theorem extends_define (h : book.define ref p = .ok book') : book'.Extends book := by
  intro id cell hcell
  rw [find?_define h, hcell]
  refine ⟨_, rfl, fun d hd => ?_⟩
  by_cases hc : cell.id = ref.id
  · rw [define, ← hc, id_of_find? hcell, hcell] at h
    simp [RuleCell.isDefined, hd] at h
  · simpa [hc] using hd

end RuleBook

namespace Session

variable {s s' : Session} {n m : Nat} {p : Pattern} {st : Stream} {fuel : Nat}

theorem isAlive_iff {id : Nat} : s.isAlive id = true ↔
    id ∈ s.handles ∨ ∃ n st, (n, st) ∈ s.streams ∧ id ∈ st.held := by
  simp [isAlive]

theorem find?_rules {id : Nat} {cell : RuleCell} : s.rules.find? id = some cell ↔
    s.isAlive id = true ∧ s.declared.find? id = some cell := by
  rw [rules, RuleBook.find?_restrict]
  by_cases h : s.isAlive id = true
  · simp [h]
  · simp [h]

theorem extends_rules (s : Session) : s.declared.Extends s.rules :=
  s.declared.extends_restrict s.isAlive

/-- The definition of a living rule is the one it was given. -/
theorem resolve_rules {ref : RuleRef} (h : s.isAlive ref.id = true) :
    s.rules.resolve ref = s.declared.resolve ref := by
  unfold RuleBook.resolve
  rw [rules, RuleBook.find?_restrict, if_pos h]

/-! ## Streams of a session -/

theorem lookup_filter_ne {α : Type} (l : List (Nat × α)) (h : m ≠ n) :
    (l.filter (·.1 != n)).lookup m = l.lookup m := by
  induction l with
  | nil => rfl
  | cons x l ih =>
    obtain ⟨k, a⟩ := x
    by_cases hk : k = n
    · have hm : (m == k) = false := by simp [hk, h]
      rw [List.filter_cons_of_neg (by simp [hk]), ih, List.lookup_cons, hm]
    · rw [List.filter_cons_of_pos (by simp [hk]), List.lookup_cons, List.lookup_cons, ih]

@[simp] theorem stream?_remove_self (s : Session) (n : Nat) : (s.remove n).stream? n = none := by
  rw [remove, stream?, List.lookup_eq_none_iff]
  intro x hx
  rw [List.mem_filter] at hx
  exact bne_iff_ne.2 (bne_iff_ne.1 hx.2).symm

theorem stream?_remove (s : Session) (h : m ≠ n) : (s.remove n).stream? m = s.stream? m :=
  lookup_filter_ne s.streams h

@[simp] theorem stream?_put_self (s : Session) (n : Nat) (st : Stream) :
    (s.put n st).stream? n = some st :=
  List.lookup_cons_self

theorem stream?_put (s : Session) (st : Stream) (h : m ≠ n) :
    (s.put n st).stream? m = s.stream? m := by
  rw [← stream?_remove s h, put, stream?, stream?, List.lookup_cons, beq_false_of_ne h]

theorem mem_of_stream? (h : s.stream? n = some st) : (n, st) ∈ s.streams := by
  obtain ⟨before, after, heq, -⟩ := List.lookup_eq_some_iff.1 h
  rw [heq]
  simp

/-- A rule that a stream of the session holds is alive. -/
theorem isAlive_of_held {id : Nat} (h : s.stream? n = some st) (hid : id ∈ st.held) :
    s.isAlive id = true :=
  isAlive_iff.2 (.inr ⟨n, st, mem_of_stream? h, hid⟩)

theorem start_eq {held : List Nat} (h : s.rules.collect p = .ok held) (n : Nat) :
    s.start n p = .ok (s.put n ⟨.start p .empty, .undecided, held⟩) := by
  rw [Session.start, Stream.start, h]
  rfl

theorem exists_of_start (h : s.start n p = .ok s') : ∃ held, s.rules.collect p = .ok held ∧
    s' = s.put n ⟨.start p .empty, .undecided, held⟩ := by
  cases hc : s.rules.collect p with
  | error e =>
    rw [Session.start, Stream.start, hc] at h
    cases h
  | ok held =>
    rw [start_eq hc] at h
    cases h
    exact ⟨held, rfl, rfl⟩

/-! ## Steps and answers -/

/-- What happens in a session. -/
inductive Step where
  | declare (name : String)
  | define (ref : RuleRef) (definition : Pattern)
  | drop (ref : RuleRef)
  | dropAll
  | start (n : Nat) (p : Pattern)
  | feed (n : Nat) (chunk : String)
  | finish (n : Nat)
  /-- A stream is given up without an answer. -/
  | abandon (n : Nat)

/-- What a step gives back. -/
inductive Answer where
  | done
  | declared (ref : RuleRef)
  | refused (error : Error)
  /-- The stream as it stands after a chunk, if there is one. -/
  | fed (stream : Option Stream)
  | failed (failure : Failure)
  | finished (report : Report Value)
  /-- There is no stream to be finished. -/
  | absent

/-- Takes a step; one that is refused or fails leaves the session as it is. -/
def perform (fuel : Nat) (s : Session) : Step → Answer × Session
  | .declare name => (.declared (s.declare name).1, (s.declare name).2)
  | .define ref p =>
    match s.define ref p with
    | .ok s' => (.done, s')
    | .error e => (.refused e, s)
  | .drop ref => (.done, s.drop ref)
  | .dropAll => (.done, s.dropAll)
  | .start n p =>
    match s.start n p with
    | .ok s' => (.done, s')
    | .error e => (.refused e, s)
  | .feed n chunk =>
    match s.feed fuel n chunk with
    | .ok s' => (.fed (s'.stream? n), s')
    | .error failure => (.failed failure, s)
  | .finish n =>
    match s.finish fuel n with
    | some (report, s') => (.finished report, s')
    | none => (.absent, s)
  | .abandon n => (.done, s.remove n)

/-- A step together with its answer. -/
abbrev Entry := Step × Answer

/-- Takes some steps in order, and notes the answers. -/
def play (fuel : Nat) : List Step → Session → List Entry × Session
  | [], s => ([], s)
  | step :: steps, s =>
    let (answer, s) := s.perform fuel step
    let (log, s) := play fuel steps s
    ((step, answer) :: log, s)

/-- What a step can do: the answer, and the session after it. -/
inductive Takes (fuel : Nat) (s : Session) : Step → Answer → Session → Prop where
  | declare (name : String) :
      Takes fuel s (.declare name) (.declared ⟨s.declared.next, name⟩) (s.declare name).2
  | define {ref : RuleRef} {p : Pattern} {book : RuleBook}
      (h : s.declared.define ref p = .ok book) :
      Takes fuel s (.define ref p) .done { s with declared := book }
  | undefined {ref : RuleRef} {p : Pattern} {e : Error}
      (h : s.declared.define ref p = .error e) : Takes fuel s (.define ref p) (.refused e) s
  | drop (ref : RuleRef) : Takes fuel s (.drop ref) .done (s.drop ref)
  | dropAll : Takes fuel s .dropAll .done s.dropAll
  | start {n : Nat} {p : Pattern} {held : List Nat} (h : s.rules.collect p = .ok held) :
      Takes fuel s (.start n p) .done (s.put n ⟨.start p .empty, .undecided, held⟩)
  | unstarted {n : Nat} {p : Pattern} {e : Error} (h : s.rules.collect p = .error e) :
      Takes fuel s (.start n p) (.refused e) s
  | fed {n : Nat} {chunk : String} {st st' : Stream} (h : s.stream? n = some st)
      (hf : st.feed s.rules fuel chunk = .ok st') :
      Takes fuel s (.feed n chunk) (.fed (some st')) (s.put n st')
  | unfed {n : Nat} {chunk : String} {st : Stream} {failure : Failure}
      (h : s.stream? n = some st) (hf : st.feed s.rules fuel chunk = .error failure) :
      Takes fuel s (.feed n chunk) (.failed failure) s
  | idle {n : Nat} {chunk : String} (h : s.stream? n = none) :
      Takes fuel s (.feed n chunk) (.fed none) s
  | finish {n : Nat} {st : Stream} (h : s.stream? n = some st) :
      Takes fuel s (.finish n) (.finished (st.finish s.rules fuel)) (s.remove n)
  | absent {n : Nat} (h : s.stream? n = none) : Takes fuel s (.finish n) .absent s
  | abandon (n : Nat) : Takes fuel s (.abandon n) .done (s.remove n)

theorem takes_perform (fuel : Nat) (s : Session) (step : Step) :
    Takes fuel s step (s.perform fuel step).1 (s.perform fuel step).2 := by
  cases step with
  | declare name => exact .declare name
  | define ref p =>
    cases h : s.declared.define ref p with
    | ok book => simpa [perform, Session.define, h] using .define h
    | error e => simpa [perform, Session.define, h] using .undefined h
  | drop ref => exact .drop ref
  | dropAll => exact .dropAll
  | start n p =>
    cases h : s.rules.collect p with
    | ok held => simpa [perform, start_eq h] using .start h
    | error e => simpa [perform, Session.start, Stream.start, h] using .unstarted h
  | feed n chunk =>
    cases h : s.stream? n with
    | none => simpa [perform, Session.feed, h] using .idle h
    | some st =>
      cases hf : st.feed s.rules fuel chunk with
      | ok st' => simpa [perform, Session.feed, h, hf, Functor.map, Except.map] using .fed h hf
      | error failure => simpa [perform, Session.feed, h, hf] using .unfed h hf
  | finish n =>
    cases h : s.stream? n with
    | none => simpa [perform, Session.finish, h] using .absent h
    | some st => simpa [perform, Session.finish, h] using .finish h
  | abandon n => exact .abandon n

theorem play_cons (fuel : Nat) (step : Step) (steps : List Step) (s : Session) :
    play fuel (step :: steps) s =
      ((step, (s.perform fuel step).1) :: (play fuel steps (s.perform fuel step).2).1,
        (play fuel steps (s.perform fuel step).2).2) :=
  rfl

/-! ## What a step changes -/

variable {step : Step} {a : Answer}

theorem Takes.extends (h : Takes fuel s step a s') : s'.declared.Extends s.declared := by
  cases h with
  | declare name => exact s.declared.extends_declare name
  | define h => exact RuleBook.extends_define h
  | _ => exact .refl s.declared

/-- The step takes out a handle on the rule. -/
def Opens (id : Nat) (e : Entry) : Prop := ∃ ref : RuleRef, e.2 = .declared ref ∧ ref.id = id

/-- The step lets go of the handle on the rule. -/
def Drops (id : Nat) (e : Entry) : Prop :=
  e.1 = .dropAll ∨ ∃ ref : RuleRef, e.1 = .drop ref ∧ ref.id = id

theorem Takes.mem_handles (h : Takes fuel s step a s') (id : Nat) :
    id ∈ s'.handles ↔ Opens id (step, a) ∨ id ∈ s.handles ∧ ¬ Drops id (step, a) := by
  cases h with
  | declare name =>
    have hhandles : (s.declare name).2.handles = s.declared.next :: s.handles := rfl
    simp [Opens, Drops, hhandles, eq_comm]
  | drop ref => simp [Opens, Drops, Session.drop, ne_comm]
  | dropAll => simp [Opens, Drops, Session.dropAll]
  | _ => simp [Opens, Drops, put, remove]

theorem Takes.found_of_opens (h : Takes fuel s step a s') {id : Nat} (ho : Opens id (step, a)) :
    ∃ cell, s'.declared.find? id = some cell := by
  obtain ⟨ref, ha, hid⟩ := ho
  cases h with
  | declare name =>
    cases ha
    have hfind := s.declared.find?_declare name id
    rw [if_pos hid] at hfind
    cases hold : s.declared.find? id with
    | none => exact ⟨_, hfind.trans (by rw [hold, Option.none_or])⟩
    | some cell => exact ⟨cell, hfind.trans (by rw [hold, Option.some_or])⟩
  | _ => cases ha

/-- No two streams have the same number. -/
def Numbered (s : Session) : Prop := ∀ n st, (n, st) ∈ s.streams → s.stream? n = some st

theorem Numbered.remove (h : s.Numbered) (n : Nat) : (s.remove n).Numbered := by
  intro m st hm
  obtain ⟨hmem, hne⟩ := List.mem_filter.1 hm
  rw [stream?_remove s (bne_iff_ne.1 hne)]
  exact h m st hmem

theorem Numbered.put (h : s.Numbered) (n : Nat) (st : Stream) : (s.put n st).Numbered := by
  intro m st' hm
  rcases List.mem_cons.1 hm with heq | hmem
  · cases heq
    exact stream?_put_self s n st
  · have hne : m ≠ n := bne_iff_ne.1 (List.mem_filter.1 hmem).2
    rw [stream?_put s st hne, ← stream?_remove s hne]
    exact h.remove n m st' hmem

theorem Takes.numbered (h : Takes fuel s step a s') (hs : s.Numbered) : s'.Numbered := by
  cases h with
  | start | fed => exact hs.put _ _
  | finish | abandon => exact hs.remove _
  | _ => exact hs

/-- The rules that the stream of a number holds. -/
def held? (s : Session) (n : Nat) : Option (List Nat) := (s.stream? n).map (·.held)

theorem held?_put (s : Session) (n : Nat) (st : Stream) :
    (s.put n st).held? m = if m = n then some st.held else s.held? m := by
  unfold held?
  split
  · rename_i h
    rw [h, stream?_put_self]
    rfl
  · rename_i h
    rw [stream?_put s st h]

theorem held?_remove (s : Session) (n : Nat) :
    (s.remove n).held? m = if m = n then none else s.held? m := by
  unfold held?
  split
  · rename_i h
    rw [h, stream?_remove_self]
    rfl
  · rename_i h
    rw [stream?_remove s h]

/-- The step starts a stream of the pattern under the number. -/
def Starts (n : Nat) (p : Pattern) (e : Entry) : Prop := e = (.start n p, .done)

/-- The stream under the number does not outlive the step. -/
def Ends (n : Nat) (e : Entry) : Prop :=
  e.1 = .finish n ∨ e.1 = .abandon n ∨ ∃ p, Starts n p e

/-- A stream that does not end keeps what it holds. -/
theorem Takes.held?_of_lasts (h : Takes fuel s step a s') (hn : ¬ Ends n (step, a)) :
    s'.held? n = s.held? n := by
  cases h with
  | start => rw [held?_put, if_neg fun heq => hn (by simp [Ends, Starts, heq])]
  | fed hst hf =>
    rw [held?_put]
    split
    · rename_i heq
      rw [held?, heq, hst, Stream.held_of_feed hf]
      rfl
    · rfl
  | finish | abandon => rw [held?_remove, if_neg fun heq => hn (by simp [Ends, heq])]
  | _ => rfl

/-- A stream that ends leaves nothing, unless the step starts another one. -/
theorem Takes.held?_of_ends (h : Takes fuel s step a s') (hn : Ends n (step, a)) :
    (∃ p held, Starts n p (step, a) ∧ s.declared.Gathered p held ∧ s'.held? n = some held) ∨
      (∀ p, ¬ Starts n p (step, a)) ∧ s'.held? n = none := by
  cases h with
  | start hc =>
    obtain rfl : _ = n := by simpa [Ends, Starts] using hn
    have hg := (RuleBook.gathered_of_collect hc).extends s.extends_rules
    exact .inl ⟨_, _, rfl, hg, by rw [held?_put, if_pos rfl]⟩
  | finish hst | abandon =>
    obtain rfl : _ = n := by simpa [Ends, Starts] using hn
    exact .inr ⟨by simp [Starts], by simp [held?_remove]⟩
  | absent hst =>
    obtain rfl : _ = n := by simpa [Ends, Starts] using hn
    exact .inr ⟨by simp [Starts], by simp [held?, hst]⟩
  | _ => simp [Ends, Starts] at hn

/-! ## What a log tells -/

/-- There is an entry with `A` in the log, and none with `B` after it. -/
def Since (A B : Entry → Prop) (log : List Entry) : Prop :=
  ∃ before e after, log = before ++ e :: after ∧ A e ∧ ∀ e' ∈ after, ¬ B e'

theorem since_concat {A B : Entry → Prop} {log : List Entry} {e : Entry} :
    Since A B (log ++ [e]) ↔ A e ∨ Since A B log ∧ ¬ B e := by
  constructor
  · rintro ⟨before, x, after, heq, hx, hafter⟩
    rcases List.eq_nil_or_concat after with rfl | ⟨after, y, rfl⟩
    · obtain ⟨-, heq⟩ := List.append_inj' heq rfl
      cases heq
      exact .inl hx
    · rw [List.concat_eq_append, ← List.cons_append, ← List.append_assoc] at heq
      obtain ⟨hlog, hlast⟩ := List.append_inj' heq rfl
      cases hlast
      cases hlog
      exact .inr ⟨⟨before, x, after, rfl, hx, fun z hz => hafter z (by simp [hz])⟩,
        hafter _ (by simp)⟩
  · rintro (he | ⟨⟨before, x, after, rfl, hx, hafter⟩, he⟩)
    · exact ⟨log, e, [], rfl, he, by simp⟩
    · refine ⟨before, x, after ++ [e], by simp, hx, fun z hz => ?_⟩
      rcases List.mem_append.1 hz with hz | hz
      · exact hafter z hz
      · exact List.mem_singleton.1 hz ▸ he

/-- The log tells which handles are kept and which streams are not finished. -/
structure Records (log : List Entry) (s : Session) : Prop where
  handles : ∀ id, id ∈ s.handles ↔ Since (Opens id) (Drops id) log
  found : ∀ id ∈ s.handles, ∃ cell, s.declared.find? id = some cell
  numbered : s.Numbered
  started : ∀ n held, s.held? n = some held →
    ∃ p, Since (Starts n p) (Ends n) log ∧ s.declared.Gathered p held
  unfinished : ∀ n p, Since (Starts n p) (Ends n) log →
    ∃ held, s.held? n = some held ∧ s.declared.Gathered p held

theorem not_since_nil {A B : Entry → Prop} : ¬ Since A B [] := by
  rintro ⟨before, e, after, heq, -⟩
  simp at heq

theorem records_empty : Records [] .empty where
  handles id := by simp [empty, not_since_nil]
  found id h := nomatch h
  numbered n st h := nomatch h
  started n held h := nomatch h
  unfinished n p h := absurd h not_since_nil

theorem Records.concat {log : List Entry} (h : Records log s) (ht : Takes fuel s step a s') :
    Records (log ++ [(step, a)]) s' where
  handles id := by rw [ht.mem_handles, h.handles, since_concat]
  found id hid := by
    rcases (ht.mem_handles id).1 hid with ho | ⟨hid, -⟩
    · exact ht.found_of_opens ho
    · obtain ⟨cell, hcell⟩ := h.found id hid
      obtain ⟨cell', hcell', -⟩ := ht.extends id cell hcell
      exact ⟨cell', hcell'⟩
  numbered := ht.numbered h.numbered
  started n held hheld := by
    by_cases hn : Ends n (step, a)
    · rcases ht.held?_of_ends hn with ⟨p, held', hp, hg, heq⟩ | ⟨-, heq⟩
      · rw [heq] at hheld
        cases hheld
        exact ⟨p, since_concat.2 (.inl hp), hg.extends ht.extends⟩
      · rw [heq] at hheld
        cases hheld
    · rw [ht.held?_of_lasts hn] at hheld
      obtain ⟨p, hp, hg⟩ := h.started n held hheld
      exact ⟨p, since_concat.2 (.inr ⟨hp, hn⟩), hg.extends ht.extends⟩
  unfinished n p hp := by
    rcases since_concat.1 hp with hp | ⟨hp, hn⟩
    · have hn : Ends n (step, a) := .inr (.inr ⟨p, hp⟩)
      rcases ht.held?_of_ends hn with ⟨p', held, hp', hg, heq⟩ | ⟨hnot, -⟩
      · cases hp.symm.trans hp'
        exact ⟨held, heq, hg.extends ht.extends⟩
      · exact absurd hp (hnot p)
    · obtain ⟨held, hheld, hg⟩ := h.unfinished n p hp
      rw [ht.held?_of_lasts hn]
      exact ⟨held, hheld, hg.extends ht.extends⟩

theorem Records.play {log : List Entry} (h : Records log s) (fuel : Nat) (steps : List Step) :
    Records (log ++ (play fuel steps s).1) (play fuel steps s).2 := by
  induction steps generalizing log s with
  | nil => rwa [Session.play, List.append_nil]
  | cons step steps ih =>
    have hnext := ih (h.concat (takes_perform fuel s step))
    rwa [List.append_assoc] at hnext

theorem Records.stream_holds {log : List Entry} (h : Records log s) {id : Nat} :
    (∃ n st, (n, st) ∈ s.streams ∧ id ∈ st.held) ↔
      ∃ n p, Since (Starts n p) (Ends n) log ∧ s.declared.ReachesRule p id := by
  constructor
  · rintro ⟨n, st, hmem, hid⟩
    have hheld : s.held? n = some st.held := by rw [held?, h.numbered n st hmem, Option.map_some]
    obtain ⟨p, hp, hg⟩ := h.started n _ hheld
    exact ⟨n, p, hp, (hg.mem_iff id).1 hid⟩
  · rintro ⟨n, p, hp, hid⟩
    obtain ⟨held, hheld, hg⟩ := h.unfinished n p hp
    obtain ⟨st, hst, rfl⟩ := Option.map_eq_some_iff.1 hheld
    exact ⟨n, st, mem_of_stream? hst, (hg.mem_iff id).2 hid⟩

/-- A rule within reach of an unfinished stream has been declared. -/
theorem Records.found_of_reached {log : List Entry} (h : Records log s) {id : Nat} {n : Nat}
    {p : Pattern} (hp : Since (Starts n p) (Ends n) log) (hid : s.declared.ReachesRule p id) :
    ∃ cell, s.declared.find? id = some cell := by
  obtain ⟨held, -, hg⟩ := h.unfinished n p hp
  obtain ⟨ref, rfl, href⟩ := hid
  obtain ⟨d, hd, -⟩ := hg.closed.definition href
  obtain ⟨cell, hc, -⟩ := RuleBook.defined_of_resolve hd
  exact ⟨cell, hc⟩

/-- A rule is alive exactly while its handle is kept or a stream that reaches it is not
finished. -/
theorem Records.alive_iff {log : List Entry} (h : Records log s) (id : Nat) :
    (∃ cell, s.rules.find? id = some cell) ↔ Since (Opens id) (Drops id) log ∨
      ∃ n p, Since (Starts n p) (Ends n) log ∧ s.declared.ReachesRule p id := by
  rw [← h.handles, ← h.stream_holds, ← isAlive_iff]
  simp only [find?_rules, exists_and_left]
  refine ⟨And.left, fun halive => ⟨halive, ?_⟩⟩
  rw [isAlive_iff, h.stream_holds] at halive
  rcases halive with hid | ⟨n, p, hp, hid⟩
  · exact h.found id hid
  · exact h.found_of_reached hp hid

/-! ## Sessions that keep all handles -/

/-- The step does not let go of a handle. -/
def Step.keeps : Step → Bool
  | .drop _ | .dropAll => false
  | _ => true

/-- The step is about the stream of the number. -/
def Step.concerns (n : Nat) : Step → Bool
  | .feed m _ | .finish m | .abandon m => m == n
  | _ => false

/-- The answer tells of a rule that was needed and was not there, or had no definition. -/
def Answer.MissesRule : Answer → Prop
  | .failed failure => ∃ f, failure = .fault f ∧ f.ofRules = true
  | .finished report => ∃ f, report.outcome = .error (.fault f) ∧ f.ofRules = true
  | _ => False

/-- The handle of every rule is kept. -/
def Keeps (s : Session) : Prop := ∀ id cell, s.declared.find? id = some cell → id ∈ s.handles

/-- What is declared after a step does not depend on the handles or the streams. -/
theorem Takes.declared_congr {t t' : Session} {a' : Answer} (h : Takes fuel s step a s')
    (h' : Takes fuel t step a' t') (heq : t.declared = s.declared) : t'.declared = s'.declared := by
  cases h with
  | declare name =>
    cases h'
    change (t.declared.declare name).2 = (s.declared.declare name).2
    rw [heq]
  | define hd =>
    cases h' with
    | define hd' =>
      rw [heq, hd] at hd'
      cases hd'
      rfl
    | undefined hd' =>
      rw [heq, hd] at hd'
      cases hd'
  | undefined hd =>
    cases h' with
    | define hd' =>
      rw [heq, hd] at hd'
      cases hd'
    | undefined hd' => exact heq
  | _ =>
    cases h'
    all_goals exact heq

/-- A session goes on keeping all handles as long as none is let go. -/
theorem Takes.keeps (ht : Takes fuel s step a s') (h : s.Keeps) (hk : step.keeps = true) :
    s'.Keeps := by
  cases ht with
  | declare name =>
    intro id cell hcell
    have hfind := (s.declared.find?_declare name id).symm.trans hcell
    rcases Option.or_eq_some_iff.1 hfind with hold | ⟨-, hnew⟩
    · exact List.mem_cons_of_mem _ (h id cell hold)
    · split at hnew
      · rename_i hid
        exact hid ▸ List.mem_cons_self
      · cases hnew
  | define hd =>
    intro id cell hcell
    rw [RuleBook.find?_define hd] at hcell
    obtain ⟨old, hold, -⟩ := Option.map_eq_some_iff.1 hcell
    exact h id old hold
  | drop | dropAll => cases hk
  | _ => exact h

/-- What is declared does not depend on whether handles are let go, and all handles are kept if
none is. -/
theorem play_keeps {t : Session} (hdeclared : t.declared = s.declared) (ht : t.Keeps) (fuel : Nat)
    (steps : List Step) :
    (play fuel (steps.filter Step.keeps) t).2.declared = (play fuel steps s).2.declared ∧
      (play fuel (steps.filter Step.keeps) t).2.Keeps := by
  induction steps generalizing s t with
  | nil => exact ⟨hdeclared, ht⟩
  | cons step steps ih =>
    have hs := takes_perform fuel s step
    by_cases hk : step.keeps = true
    · have ht' := takes_perform fuel t step
      rw [List.filter_cons_of_pos hk]
      exact ih (hs.declared_congr ht' hdeclared) (ht'.keeps ht hk)
    · rw [List.filter_cons_of_neg hk]
      refine ih (hdeclared.trans ?_) ht
      cases step with
      | drop | dropAll => rfl
      | _ => exact absurd rfl hk

/-! ## Streams that have all their rules -/

/-- All that the match can ever enter is known, and the stream holds the rules in it. -/
def Sustained (book : RuleBook) (st : Stream) : Prop :=
  ∃ S, book.Closed S ∧ (∀ ref, S (.rule ref) → ref.id ∈ st.held) ∧ Confined S st.machine

theorem Sustained.extends {book book' : RuleBook} (h : Sustained book st)
    (he : book'.Extends book) : Sustained book' st := by
  obtain ⟨S, hS, hheld, hc⟩ := h
  exact ⟨S, hS.extends he, hheld, hc⟩

/-- The living rules are as good as all those declared, for a stream that holds what it needs. -/
theorem resolve_of_held {S : Pattern → Prop} (hst : s.stream? n = some st)
    (hheld : ∀ ref, S (.rule ref) → ref.id ∈ st.held) (ref : RuleRef) (href : S (.rule ref)) :
    s.rules.resolve ref = s.declared.resolve ref :=
  resolve_rules (isAlive_of_held hst (hheld ref href))

theorem Sustained.feed_rules (h : Sustained s.declared st) (hst : s.stream? n = some st)
    (fuel : Nat) (chunk : String) :
    st.feed s.rules fuel chunk = st.feed s.declared fuel chunk := by
  obtain ⟨S, hS, hheld, hc⟩ := h
  exact Stream.feed_congr hS (resolve_of_held hst hheld) hc

theorem Sustained.finish_rules (h : Sustained s.declared st) (hst : s.stream? n = some st)
    (fuel : Nat) : st.finish s.rules fuel = st.finish s.declared fuel := by
  obtain ⟨S, hS, hheld, hc⟩ := h
  exact Stream.finish_congr hS (resolve_of_held hst hheld) hc

theorem Sustained.feed_ok {book : RuleBook} {chunk : String} {st' : Stream}
    (h : Sustained book st) (hf : st.feed book fuel chunk = .ok st') : Sustained book st' := by
  obtain ⟨S, hS, hheld, hc⟩ := h
  refine ⟨S, hS, ?_, (Stream.feed_confined hS hc fuel chunk).1 st' hf⟩
  rw [Stream.held_of_feed hf]
  exact hheld

theorem Sustained.not_missesRule_failed {book : RuleBook} {chunk : String} {failure : Failure}
    (h : Sustained book st) (hf : st.feed book fuel chunk = .error failure) :
    ¬ (Answer.failed failure).MissesRule := by
  obtain ⟨S, hS, -, hc⟩ := h
  rintro ⟨f, rfl, hrules⟩
  have hother := (Stream.feed_confined hS hc fuel chunk).2 f hf
  exact Bool.false_ne_true (hother.symm.trans hrules)

theorem Sustained.not_missesRule_finished {book : RuleBook} (h : Sustained book st)
    (fuel : Nat) : ¬ (Answer.finished (st.finish book fuel)).MissesRule := by
  obtain ⟨S, hS, -, hc⟩ := h
  rintro ⟨f, hf, hrules⟩
  have hother := Stream.finish_ofRules hS hc hf
  exact Bool.false_ne_true (hother.symm.trans hrules)

/-- The stream of the number, if there is one, has all its rules. -/
def Sustains (n : Nat) (s : Session) : Prop :=
  ∀ st, s.stream? n = some st → Sustained s.declared st

/-- A stream that has just been started has all its rules. -/
theorem sustains_start {held : List Nat} (h : s.rules.collect p = .ok held) (n : Nat) :
    (s.put n ⟨.start p .empty, .undecided, held⟩).Sustains n := by
  intro st hst
  rw [stream?_put_self] at hst
  cases hst
  have hg := RuleBook.gathered_of_collect h
  refine ⟨s.rules.Reaches p, hg.closed.extends s.extends_rules, fun ref href => ?_, ?_⟩
  · exact (hg.mem_iff ref.id).2 ⟨ref, rfl, href⟩
  · exact ⟨⟨.root, fun q hq => nomatch hq⟩, fun frame hf => nomatch hf⟩

theorem Takes.stream?_of_other (h : Takes fuel s step a s') (hn : step.concerns n = false)
    (hs : ∀ q, step ≠ .start n q) : s'.stream? n = s.stream? n := by
  cases h with
  | @start _ p =>
    refine stream?_put s _ fun heq => hs p ?_
    rw [heq]
  | fed => exact stream?_put s _ (ne_of_beq_false hn).symm
  | finish | abandon => exact stream?_remove s (ne_of_beq_false hn).symm
  | _ => rfl

/-- Whatever happens in a session, a stream goes on having all its rules. -/
theorem Takes.sustains (h : Takes fuel s step a s') (hs : s.Sustains n)
    (hstart : ∀ q, step ≠ .start n q) : s'.Sustains n := by
  intro st hst
  by_cases hn : step.concerns n = true
  · cases h with
    | fed hold hf =>
      obtain rfl := beq_iff_eq.1 hn
      rw [stream?_put_self] at hst
      cases hst
      rw [(hs _ hold).feed_rules hold] at hf
      exact (hs _ hold).feed_ok hf
    | finish | abandon =>
      obtain rfl := beq_iff_eq.1 hn
      rw [stream?_remove_self] at hst
      cases hst
    | unfed | idle | absent => exact hs st hst
    | _ => cases hn
  · rw [Bool.not_eq_true] at hn
    rw [h.stream?_of_other hn hstart] at hst
    exact (hs st hst).extends h.extends

/-- A stream that has all its rules misses none. -/
theorem Takes.not_missesRule (h : Takes fuel s step a s') (hs : s.Sustains n)
    (hn : step.concerns n = true) : ¬ a.MissesRule := by
  cases h with
  | unfed hst hf =>
    obtain rfl := beq_iff_eq.1 hn
    rw [(hs _ hst).feed_rules hst] at hf
    exact (hs _ hst).not_missesRule_failed hf
  | finish hst =>
    obtain rfl := beq_iff_eq.1 hn
    rw [(hs _ hst).finish_rules hst]
    exact (hs _ hst).not_missesRule_finished fuel
  | fed | idle | absent | abandon => exact id
  | _ => cases hn

/-! ## Sessions that differ in the handles -/

/-- Two sessions with the same rules declared, and the same stream under a number. -/
structure Alike (n : Nat) (s t : Session) : Prop where
  declared : t.declared = s.declared
  stream : t.stream? n = s.stream? n

variable {t : Session}

theorem Alike.sustains (h : Alike n s t) (hs : s.Sustains n) : t.Sustains n := by
  intro st hst
  rw [h.declared]
  exact hs st (h.stream ▸ hst)

/-- A step about a stream does the same in both sessions. -/
theorem Alike.perform_concerned (h : Alike n s t) (hs : s.Sustains n)
    (hn : step.concerns n = true) (fuel : Nat) :
    (t.perform fuel step).1 = (s.perform fuel step).1 ∧
      (t.perform fuel step).2.stream? n = (s.perform fuel step).2.stream? n := by
  cases step with
  | feed m chunk =>
    obtain rfl := beq_iff_eq.1 hn
    cases hst : s.stream? m with
    | none =>
      have hst' : t.stream? m = none := h.stream.trans hst
      simp [perform, Session.feed, hst, hst']
    | some st =>
      have hst' : t.stream? m = some st := h.stream.trans hst
      have hfeed : st.feed t.rules fuel chunk = st.feed s.rules fuel chunk := by
        rw [(hs st hst).feed_rules hst, (h.sustains hs st hst').feed_rules hst', h.declared]
      cases hf : st.feed s.rules fuel chunk with
      | ok st' =>
        simp [perform, Session.feed, hst, hst', hfeed, hf, Functor.map, Except.map]
      | error failure =>
        simp [perform, Session.feed, hst, hst', hfeed, hf, Functor.map, Except.map]
  | finish m =>
    obtain rfl := beq_iff_eq.1 hn
    cases hst : s.stream? m with
    | none =>
      have hst' : t.stream? m = none := h.stream.trans hst
      simp [perform, Session.finish, hst, hst']
    | some st =>
      have hst' : t.stream? m = some st := h.stream.trans hst
      have hfinish : st.finish t.rules fuel = st.finish s.rules fuel := by
        rw [(hs st hst).finish_rules hst, (h.sustains hs st hst').finish_rules hst', h.declared]
      simp [perform, Session.finish, hst, hst', hfinish]
  | abandon m =>
    obtain rfl := beq_iff_eq.1 hn
    simp [perform]
  | _ => cases hn

theorem Alike.perform (h : Alike n s t) (hs : s.Sustains n) (hstart : ∀ q, step ≠ .start n q)
    (fuel : Nat) : Alike n (s.perform fuel step).2 (t.perform fuel step).2 := by
  have hss := takes_perform fuel s step
  have htt := takes_perform fuel t step
  refine ⟨hss.declared_congr htt h.declared, ?_⟩
  by_cases hn : step.concerns n = true
  · exact (h.perform_concerned hs hn fuel).2
  · rw [Bool.not_eq_true] at hn
    rw [hss.stream?_of_other hn hstart, htt.stream?_of_other hn hstart, h.stream]

theorem Alike.unperformed (h : Alike n s t) (hk : step.keeps = false) (fuel : Nat) :
    Alike n (s.perform fuel step).2 t := by
  cases step with
  | drop | dropAll => exact ⟨h.declared, h.stream⟩
  | _ => cases hk

/-- The entries about the stream of a number. -/
def about (n : Nat) (log : List Entry) : List Entry := log.filter (·.1.concerns n)

theorem about_cons (n : Nat) (e : Entry) (log : List Entry) :
    about n (e :: log) = if e.1.concerns n then e :: about n log else about n log :=
  List.filter_cons

theorem concerns_of_keeps (hk : step.keeps = false) : step.concerns n = false := by
  cases step with
  | drop | dropAll => rfl
  | _ => cases hk

/-- Letting go of handles changes nothing for a stream that has all its rules, however long the
session goes on. -/
theorem Alike.play (h : Alike n s t) (hs : s.Sustains n) {steps : List Step}
    (hstart : ∀ q, .start n q ∉ steps) (fuel : Nat) :
    Alike n (play fuel steps s).2 (play fuel (steps.filter Step.keeps) t).2 ∧
      about n (play fuel (steps.filter Step.keeps) t).1 = about n (play fuel steps s).1 := by
  induction steps generalizing s t with
  | nil => exact ⟨h, rfl⟩
  | cons step steps ih =>
    have hstep : ∀ q, step ≠ .start n q := fun q heq => hstart q (heq ▸ List.mem_cons_self)
    have hsteps : ∀ q, .start n q ∉ steps := fun q hq => hstart q (List.mem_cons_of_mem step hq)
    have hs' := (takes_perform fuel s step).sustains hs hstep
    cases hk : step.keeps with
    | true =>
      obtain ⟨halike, hlog⟩ := ih (h.perform hs hstep fuel) hs' hsteps
      rw [List.filter_cons_of_pos hk, play_cons, play_cons, about_cons, about_cons, hlog]
      refine ⟨halike, ?_⟩
      split
      · rename_i hn
        rw [(h.perform_concerned hs hn fuel).1]
      · rfl
    | false =>
      obtain ⟨halike, hlog⟩ := ih (h.unperformed hk fuel) hs' hsteps
      rw [List.filter_cons_of_neg (by simp [hk]), play_cons, about_cons,
        if_neg (by simp [concerns_of_keeps hk])]
      exact ⟨halike, hlog⟩

/-- A stream that has all its rules misses none of them, however long the session goes on. -/
theorem Sustains.play (hs : s.Sustains n) {steps : List Step} (hstart : ∀ q, .start n q ∉ steps)
    (fuel : Nat) : ∀ e ∈ about n (play fuel steps s).1, ¬ e.2.MissesRule := by
  induction steps generalizing s with
  | nil => exact fun e he => nomatch he
  | cons step steps ih =>
    have ht := takes_perform fuel s step
    have hstep : ∀ q, step ≠ .start n q := fun q heq => hstart q (heq ▸ List.mem_cons_self)
    have hlater := ih (ht.sustains hs hstep) fun q hq => hstart q (List.mem_cons_of_mem step hq)
    intro e he
    rw [play_cons, about_cons] at he
    split at he
    · rename_i hn
      rcases List.mem_cons.1 he with rfl | he
      · exact ht.not_missesRule hs hn
      · exact hlater e he
    · exact hlater e he

/-! ## Rules live while they are needed -/

/-- A pattern whose rules are alive has the same rules where all handles are kept. -/
theorem collect_of_keeps {held : List Nat} (hc : s.rules.collect p = .ok held)
    (hdeclared : t.declared = s.declared) (ht : t.Keeps) : t.rules.collect p = .ok held := by
  refine RuleBook.visit_of_find (fun id cell hcell => ?_) hc
  obtain ⟨-, hcell⟩ := find?_rules.1 hcell
  rw [← hdeclared] at hcell
  exact find?_rules.2 ⟨isAlive_iff.2 (.inl (ht id cell hcell)), hcell⟩

/-- Whatever is done in a session, a rule is alive exactly while its handle is kept or a stream
that reaches it is not finished. A stream that has been started misses no rule for the rest of the
session, and does what it does if the same steps are taken but no handle is ever let go. -/
theorem rules_live_while_needed (fuel : Nat) (before : List Step) :
    (∀ id, (∃ cell, (play fuel before .empty).2.rules.find? id = some cell) ↔
      Since (Opens id) (Drops id) (play fuel before .empty).1 ∨
        ∃ n p, Since (Starts n p) (Ends n) (play fuel before .empty).1 ∧
          (play fuel before .empty).2.declared.ReachesRule p id) ∧
    ∀ n p s, (play fuel before .empty).2.start n p = .ok s →
      ∃ t, (play fuel (before.filter Step.keeps) .empty).2.start n p = .ok t ∧
        ∀ after, (∀ q, .start n q ∉ after) →
          about n (play fuel after s).1 =
              about n (play fuel (after.filter Step.keeps) t).1 ∧
            (play fuel after s).2.stream? n =
              (play fuel (after.filter Step.keeps) t).2.stream? n ∧
            ∀ e ∈ about n (play fuel after s).1, ¬ e.2.MissesRule := by
  refine ⟨(records_empty.play fuel before).alive_iff, fun n p s hs => ?_⟩
  obtain ⟨held, hc, rfl⟩ := exists_of_start hs
  have hkeeps : Keeps .empty := fun id cell h => nomatch h
  obtain ⟨hdeclared, ht⟩ := play_keeps rfl hkeeps fuel before
  refine ⟨_, start_eq (collect_of_keeps hc hdeclared ht) n, fun after hafter => ?_⟩
  have halike : Alike n ((play fuel before .empty).2.put n ⟨.start p .empty, .undecided, held⟩)
      ((play fuel (before.filter Step.keeps) .empty).2.put n
        ⟨.start p .empty, .undecided, held⟩) :=
    ⟨hdeclared, by rw [stream?_put_self, stream?_put_self]⟩
  obtain ⟨hfinal, hlog⟩ := halike.play (sustains_start hc n) hafter fuel
  exact ⟨hlog.symm, hfinal.stream.symm, (sustains_start hc n).play hafter fuel⟩

theorem rules_live_while_needed_dropped :
    ∃ s t, (play 99 [.declare "nested", .define Nested.ref Nested.body] .empty).2.start 0
        (.rule Nested.ref) = .ok s ∧
      about 0 (play 99 [.drop Nested.ref, .feed 0 "(", .feed 0 "x)", .finish 0] s).1 =
        about 0 (play 99 [.feed 0 "(", .feed 0 "x)", .finish 0] t).1 ∧
      ∀ e ∈ about 0 (play 99 [.drop Nested.ref, .feed 0 "(", .feed 0 "x)", .finish 0] s).1,
        ¬ e.2.MissesRule := by
  have hc : (play 99 [.declare "nested", .define Nested.ref Nested.body] .empty).2.rules.collect
      (.rule Nested.ref) = .ok [0] := Nested.collect_eq
  have hs := start_eq hc 0
  obtain ⟨t, -, hafter⟩ := (rules_live_while_needed 99
    [.declare "nested", .define Nested.ref Nested.body]).2 0 (.rule Nested.ref) _ hs
  obtain ⟨hsame, -, hmiss⟩ :=
    hafter [.drop Nested.ref, .feed 0 "(", .feed 0 "x)", .finish 0] (by simp)
  exact ⟨_, t, hs, hsame, hmiss⟩

end Session

end PegStream
