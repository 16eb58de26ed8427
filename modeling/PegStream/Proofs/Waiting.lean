import PegStream.Proofs.Backtracking
import PegStream.Proofs.Retention
import PegStream.Proofs.Settling

/-!
# Repetitions that wait for text

A repetition that waits is in one of its rounds. It holds a checkpoint at the start of that round
and, if it needs any round at all, another one at its entry. The latter it keeps until it is over,
also when it has had as many rounds as it needs. So a stream of such a repetition lets go of
nothing, while that of a repetition that needs no round lets go of all that ends before the round in
progress.

* `Machine.Works.round`: what a repetition that waits holds;
* `Machine.retains_feedAll`: a stream that waits holds what ends behind its oldest checkpoint;
* `Machine.waiting_repetition_holds_entry`: both together.
-/

namespace PegStream

open Chunked (arrivals Retains)

theorem Tape.Opens.eq_mark {t t₁ : Tape} {cp : Checkpoint} (h : t.Opens cp t₁) (hv : t.Valid) :
    cp = t.mark.1 := by
  obtain ⟨grown, hg, -, rfl, -⟩ := h
  rw [Tape.mark, Tape.mark, hg.cursor, hg.saved]
  exact Tape.record_congr (hg.take hv (Nat.le_refl _)) _

namespace Machine

variable {σ : Type} {rules : RuleBook} {p : Pattern} {bounds : Bounds} {scope : Scope}
  {log : List Tap} {t : Tape} {n : Machine Tape} {fuel : Nat}

/-! ## What is held -/

/-- Only a token waits. -/
theorem scan_of_waiting [Source σ] {m : Machine σ} (h : m.step rules = .ok .waiting) :
    ∃ token, m.control = .scan token := by
  have hmoved : ∀ x : Except Fault (Machine σ), Step.moved <$> x ≠ .ok .waiting := by
    intro x hx
    cases x <;> cases hx
  obtain ⟨control, stack, s, log⟩ := m
  cases control with
  | scan token => exact ⟨token, rfl⟩
  | enter p scope => exact absurd h (hmoved _)
  | skip => cases h
  | matched | failed =>
    cases stack with
    | nil => cases h
    | cons => exact absurd h (hmoved _)

theorem step_of_waiting [Source σ] {m : Machine σ} (h : m.verdict? rules = some .waiting) :
    m.step rules = .ok .waiting := by
  unfold verdict? at h
  split at h <;> rename_i hs <;> cases h
  exact hs

/-- The checkpoint that a repetition holds from its entry on, if it needs a round. -/
def entryMark (bounds : Bounds) (mark : Checkpoint) : Option Checkpoint :=
  if bounds.min = 0 then none else some mark

theorem Entered.eq_entryMark {entry : Option Checkpoint} {t' : Tape}
    (h : Entered bounds t entry t') (hv : t.Valid) : entry = entryMark bounds t.mark.1 := by
  cases entry with
  | none => rw [entryMark, if_pos h.1]
  | some cp =>
    obtain ⟨hmin, t₀, hopen, -⟩ := h
    rw [entryMark, if_neg hmin, hopen.eq_mark hv]

/-- A repetition that waits is in a round. -/
theorem Works.round (hv : t.Valid) {token : Scan}
    (h : Works Tape.Grows [] ⟨.enter (.repetition p bounds) scope, [], t, log⟩ n)
    (hscan : n.control = .scan token) : ∃ above cp count collected inner,
      n.stack = above ++
        [.repetition p bounds scope (entryMark bounds t.mark.1) cp count collected] ∧
      n.source.records = inner ++ cp :: ((entryMark bounds t.mark.1).toList ++ t.records) := by
  cases h.repetition hv with
  | before => cases hscan
  | after hr =>
    -- A token is no outcome.
    have hd := hr.2
    rw [hscan] at hd
    exact hd.elim
  | within hw _ hworks =>
    obtain ⟨entry, cp, count, collected, t', rfl, hentered, -⟩ := hw
    obtain ⟨above, hstack, -⟩ := hworks.lower (List.nil_append _).symm
    obtain ⟨start, hg, hd⟩ := h.disciplined hv
    rw [hentered.eq_entryMark hv] at hstack
    refine ⟨above, cp, count, collected, n.control.marks ++ stackMarks above, hstack, ?_⟩
    rw [hd.records_eq, hg.records hv, hstack]
    simp [stackMarks, Frame.marks]

/-! ## Streams -/

/-- The innermost checkpoint of a tape is the innermost one of the input. -/
theorem marks_of_saved {s : Chunked} (hR : s.Represents t) {k : Nat} {ks : List Nat}
    (hs : t.saved = k :: ks) :
    s.marks = Tape.record t.text k ks.length :: Tape.recordsAbove t.text 0 ks := by
  rw [hR.marks, Tape.records, hs, Tape.recordsAbove, Nat.zero_add]

/-- Reading on keeps exactly the chunks that a later read can reach. -/
theorem follows_retaining (arrived : List Chunk) :
    Follows True fun (s : Chunked) t => s.Represents t ∧ Retains arrived s where
  peek h := Chunked.follows.peek h.1
  ended h := Chunked.follows.ended h.1
  waits ht h := Chunked.follows.waits ht h.1
  offset h := Chunked.follows.offset h.1
  advance h ht := by
    obtain ⟨s', hs', hR'⟩ := Chunked.follows.advance h.1 ht
    exact ⟨s', hs', hR', h.2.advance h.1 hR' hs'⟩
  mark h := by
    obtain ⟨s', hs', hR'⟩ := Chunked.follows.mark h.1
    obtain rfl : Prod.snd _ = s' := congrArg Prod.snd hs'
    exact ⟨_, hs', hR', h.2.mark⟩
  commit h ht := by
    obtain ⟨s', hs', hR'⟩ := Chunked.follows.commit h.1 ht
    obtain ⟨k, ks, hk, rfl, -⟩ := Tape.commit_ok ht
    refine ⟨s', hs', hR', h.2.commit (marks_of_saved h.1 hk) ?_ hs'⟩
    rw [h.1.cursor]
    exact Text.byteCount_take_le _ (h.1.valid.saved_le (by simp [hk]))
  rollback h ht := by
    obtain ⟨s', hs', hR'⟩ := Chunked.follows.rollback h.1 ht
    obtain ⟨k, ks, hk, rfl, -⟩ := Tape.rollback_ok ht
    exact ⟨s', hs', hR', h.2.rollback (marks_of_saved h.1 hk) hs'⟩

variable {st st' : Stream} {text : List Char}

theorem machine_of_feed {chunk : String} {s : Chunked} {m : Machine Chunked} {v : Verdict}
    (hu : st.status = .undecided) (hs : st.machine.source.push chunk = .ok s)
    (hr : (st.machine.on s).run rules fuel = (m, v)) (hf : st.feed rules fuel chunk = .ok st') :
    st'.machine = m := by
  rw [Stream.feed_undecided hu hs hr] at hf
  cases hv : Status.ofVerdict v with
  | error e =>
    rw [hv] at hf
    cases hf
  | ok status =>
    rw [hv] at hf
    cases hf
    rfl

theorem retains_feed {arrived : List Chunk} {chunk : String}
    (h : Stream.Stands rules p text st n) (hu : st.status = .undecided)
    (hr : Retains arrived st.machine.source) (hf : st.feed rules fuel chunk = .ok st') :
    Retains (arrived ++ arrivals st.machine.source.received [chunk]) st'.machine.source := by
  obtain ⟨s, k, hpush, hR, hm, hk⟩ := h.push hu chunk
  obtain ⟨t, ht, -⟩ := h.source
  have hretains := hr.push ht hpush
  obtain ⟨-, hsettled⟩ := ((disciplined_begin p _ false).moves hk).run rules fuel
  obtain ⟨s', hrun, -, hr'⟩ := (follows_retaining _).run ⟨hR, hretains⟩ rules fuel
    fun f hf => hsettled.fault hf
  rw [machine_of_feed hu hpush (hm ▸ hrun) hf]
  exact hr'

theorem feedAll_decided (hd : st.status ≠ .undecided) (chunks : List String) :
    Stream.feedAll rules fuel chunks st = .ok st := by
  induction chunks with
  | nil => rfl
  | cons chunk chunks ih =>
    rw [Stream.feedAll, Stream.feed_decided hd]
    exact ih

/-- A stream that waits holds exactly the chunks that a later read can reach. -/
theorem retains_feedAll {fed chunks : List String} (h : Stream.Stands rules p text st n)
    (hr : Retains (arrivals 0 fed) st.machine.source)
    (hf : Stream.feedAll rules fuel chunks st = .ok st') (hu : st'.status = .undecided) :
    Retains (arrivals 0 (fed ++ chunks)) st'.machine.source := by
  induction chunks generalizing text st n fed with
  | nil =>
    cases hf
    rw [List.append_nil]
    exact hr
  | cons chunk chunks ih =>
    by_cases hu₀ : st.status = .undecided
    · rw [Stream.feedAll] at hf
      cases hf₁ : st.feed rules fuel chunk with
      | error e =>
        rw [hf₁] at hf
        cases hf
      | ok st₁ =>
        rw [hf₁] at hf
        obtain ⟨n₁, h₁, -⟩ := h.feed hf₁
        have hr₁ := retains_feed h hu₀ hr hf₁
        have hmore := Chunked.arrivals_append 0 fed [chunk]
        rw [Nat.zero_add, ← hr.received] at hmore
        rw [← hmore] at hr₁
        have hall := ih h₁ hr₁ hf
        rw [List.append_assoc] at hall
        exact hall
    · rw [feedAll_decided hu₀] at hf
      cases hf
      exact absurd hu hu₀

theorem source_of_start {first : Stream} (h : Stream.start rules p = .ok first) :
    first.machine.source = .empty := by
  rw [Stream.start] at h
  cases hc : rules.collect p <;> rw [hc] at h <;> cases h
  rfl

theorem retains_empty : Retains (arrivals 0 []) .empty :=
  ⟨⟨⟨[], rfl, nofun⟩, rfl⟩, nofun⟩

theorem lt_stop_of_mem_arrivals {start : Nat} {texts : List String} :
    ∀ c ∈ arrivals start texts, start < c.stop := by
  induction texts generalizing start with
  | nil => simp [arrivals]
  | cons text texts ih =>
    intro c hc
    by_cases he : text.isEmpty = true
    · rw [arrivals, if_pos he] at hc
      exact ih c hc
    · rw [arrivals, if_neg he] at hc
      rcases List.mem_cons.1 hc with rfl | hc
      · exact Nat.lt_add_of_pos_right (Chunked.utf8ByteSize_pos he)
      · exact Nat.lt_of_le_of_lt (Nat.le_add_right _ _) (ih c hc)

/-- The oldest checkpoint of a repetition is the one at its entry, or else that of its round. -/
theorem floor_of_round {s : Chunked} {inner : List Checkpoint} {cp : Checkpoint}
    {entry : Option Checkpoint} (h : s.marks = inner ++ cp :: (entry.toList ++ [])) :
    s.floor = (entry.getD cp).index := by
  rw [Chunked.floor, h]
  cases entry <;> simp

/-- What a repetition that waits holds of the input that it was entered on. -/
theorem Works.round_chunked {base : List Frame} {s : Chunked} {m : Machine Chunked}
    (hR : s.Represents t)
    (h : Works Chunked.Grows base ⟨.enter (.repetition p bounds) scope, base, s, log⟩ m)
    (hwaits : m.step rules = .ok .waiting) : ∃ above cp count collected inner,
      m.stack = above ++
        .repetition p bounds scope (entryMark bounds s.mark.1) cp count collected :: base ∧
      m.source.marks = inner ++ cp :: ((entryMark bounds s.mark.1).toList ++ s.marks) := by
  obtain ⟨token, hscan⟩ := scan_of_waiting hwaits
  obtain ⟨above₀, hstack₀, hlow⟩ := h.lower (List.nil_append _).symm
  obtain ⟨n, hn, hRn, hw⟩ := hlow.on_tape Chunked.follows Chunked.Represents.grows hR hR.valid
  have hcontrol : n.control = .scan token := hscan ▸ congrArg Machine.control hn.symm
  obtain ⟨above, cp, count, collected, inner, hstack, hrecords⟩ := hw.round hR.valid hcontrol
  obtain ⟨s', hmark, -⟩ := Chunked.follows.mark hR
  have hcp : s.mark.1 = t.mark.1 := congrArg Prod.fst hmark
  rw [← hcp] at hstack hrecords
  refine ⟨above, cp, count, collected, inner, ?_, ?_⟩
  · have habove : above₀ = n.stack := congrArg Machine.stack hn
    rw [hstack₀, habove, hstack, List.append_assoc]
    rfl
  · rw [hRn.marks, hrecords, hR.marks]

/-- What a stream of a repetition holds while it is undecided. -/
theorem round_of_feedAll {chunks : List String} {first : Stream}
    (hstart : Stream.start rules (.repetition p bounds) = .ok first)
    (hf : Stream.feedAll rules fuel chunks first = .ok st) (hne : chunks ≠ [])
    (hu : st.status = .undecided) : ∃ above cp count collected,
      st.machine.stack = above ++
        [.repetition p bounds none (entryMark bounds Chunked.empty.mark.1) cp count collected] ∧
      st.machine.source.chunks = (arrivals 0 chunks).filter
        (((entryMark bounds Chunked.empty.mark.1).getD cp).index < ·.stop) := by
  have h₀ := Stream.stands_of_start hstart
  obtain ⟨n, h, hv⟩ := h₀.feedAll hf
  obtain ⟨k, hk⟩ := h.moves
  rw [hu] at hv
  obtain ⟨token, hscan⟩ := scan_of_waiting (step_of_waiting (hv (.inl hne)))
  obtain ⟨above, cp, count, collected, inner, hstack, hrecords⟩ :=
    (Works.refl.of_moves hk).round ⟨Nat.zero_le _, List.pairwise_singleton _ _⟩ hscan
  -- What a stream holds depends on its oldest checkpoint, and that is the entry or the round's own.
  have hretains := retains_feedAll h₀ (source_of_start hstart ▸ retains_empty) hf hu
  refine ⟨above, cp, count, collected, ?_, ?_⟩
  · rw [h.machine]
    exact hstack
  · rw [hretains.chunks_eq (Chunked.tiled_arrivals 0 _), floor_of_round (h.marks_eq.trans hrecords)]
    rfl

/-- What a repetition holds when it waits for more text, in whatever state its input was before and
whatever waits for it: a checkpoint at the start of the round in progress and, if it needs a round,
one at its entry, however many rounds it has had. So a stream of a repetition that needs a round
holds all chunks that have arrived, and one of a repetition that needs none holds those that end
behind the start of the round. -/
theorem waiting_repetition_holds_entry (p : Pattern) (bounds : Bounds) :
    (∀ (scope : Scope) (base : List Frame) (s : Chunked) (cps : List Checkpoint) (log : List Tap)
      (m : Machine Chunked) (rules : RuleBook), s.Reachable cps →
      Works Chunked.Grows base ⟨.enter (.repetition p bounds) scope, base, s, log⟩ m →
      m.step rules = .ok .waiting →
      ∃ above cp count collected inner, m.stack = above ++
        .repetition p bounds scope (entryMark bounds s.mark.1) cp count collected :: base ∧
        m.source.marks = inner ++ cp :: ((entryMark bounds s.mark.1).toList ++ cps)) ∧
    ∀ (rules : RuleBook) (fuel : Nat) (chunks : List String) (first st : Stream),
      Stream.start rules (.repetition p bounds) = .ok first →
      Stream.feedAll rules fuel chunks first = .ok st → chunks ≠ [] → st.status = .undecided →
      ∃ above cp count collected, st.machine.stack = above ++
          [.repetition p bounds none (entryMark bounds Chunked.empty.mark.1) cp count collected] ∧
        (bounds.min ≠ 0 → st.machine.source.chunks = arrivals 0 chunks ∧
          st.retainedBytes = (String.join chunks).utf8ByteSize) ∧
        (bounds.min = 0 →
          st.machine.source.chunks = (arrivals 0 chunks).filter (cp.index < ·.stop)) := by
  refine ⟨fun scope base s cps log m rules hs h hwaits => ?_,
    fun rules fuel chunks first st hstart hfeed hne hu => ?_⟩
  · obtain ⟨t, hR, rfl⟩ := hs.represents
    rw [← hR.marks]
    exact h.round_chunked hR hwaits
  · obtain ⟨above, cp, count, collected, hstack, hchunks⟩ := round_of_feedAll hstart hfeed hne hu
    refine ⟨above, cp, count, collected, hstack, fun hmin => ?_, fun hmin => ?_⟩
    · have hall : st.machine.source.chunks = arrivals 0 chunks := by
        rw [hchunks, entryMark, if_neg hmin]
        exact List.filter_eq_self.2 fun c hc => decide_eq_true (lt_stop_of_mem_arrivals c hc)
      refine ⟨hall, ?_⟩
      rw [← Chunked.bytes_arrivals 0, ← hall]
      rfl
    · rw [hchunks, entryMark, if_pos hmin]
      rfl

/-! ### Rows of letters -/

/-- A row of letters, which goes on as long as there are letters. -/
def row (min : Nat) : Pattern := .repetition (.exactly 'a') (.atLeast min)

/-- A stream of a row before anything has arrived. -/
def newRow (min : Nat) : Stream := ⟨.start (row min) .empty, .undecided, []⟩

/-- A stream of a row that needs a letter, after `k` letters in some chunks. -/
def rowAfter (min k : Nat) (chunks : List Chunk) : Stream where
  machine.control := .scan (.char (.single 'a'))
  machine.stack := [.repetition (.exactly 'a') (.atLeast min) none (some ⟨0, .start, 0⟩)
    ⟨k, ⟨1, k + 1, k⟩, 1⟩ k (.text (List.replicate k "a"))]
  machine.source.chunks := chunks
  machine.source.current := chunks.length
  machine.source.cursor := k
  machine.source.position := ⟨1, k + 1, k⟩
  machine.source.received := k
  machine.source.marks := [⟨k, ⟨1, k + 1, k⟩, 1⟩, ⟨0, .start, 0⟩]
  machine.log := []
  status := .undecided
  held := []

theorem start_row (min : Nat) : Stream.start .empty (row min) = .ok (newRow min) := by
  have hc : RuleBook.empty.collect (row min) = .ok [] := by
    simp [row, RuleBook.collect, RuleBook.visit_other, RuleBook.visit_nil, Pattern.children,
      Pattern.exactly]
  exact (Stream.stands_start hc).1

theorem feed_of_waiting {chunk : String} {s : Chunked} {m : Machine Chunked}
    (hu : st.status = .undecided) (hs : st.machine.source.push chunk = .ok s)
    (hr : (st.machine.on s).run rules fuel = (m, .waiting)) :
    st.feed rules fuel chunk = .ok ⟨m, .undecided, st.held⟩ :=
  Stream.feed_undecided hu hs hr

theorem feedAll_pair {first second : String} (st₁ : Stream) {st₂ : Stream}
    (h : st.feed rules fuel first = .ok st₁) (h' : st₁.feed rules fuel second = .ok st₂) :
    Stream.feedAll rules fuel [first, second] st = .ok st₂ := by
  rw [Stream.feedAll, h]
  change Stream.feedAll rules fuel [second] st₁ = _
  rw [Stream.feedAll, h']
  rfl

/-- A row that needs two letters holds all three that have arrived, and a row of other letters,
entered where a checkpoint is open, holds its own checkpoints above it. -/
theorem waiting_repetition_holds_entry_twice :
    Stream.feedAll .empty 12 ["aa", "a"] (newRow 2) = .ok (rowAfter 2 3 [⟨"aa", 0⟩, ⟨"a", 2⟩]) ∧
      (rowAfter 2 3 [⟨"aa", 0⟩, ⟨"a", 2⟩]).retainedBytes = 3 ∧
    ∃ m : Machine Chunked, m.step .empty = .ok .waiting ∧
      ∃ cp inner, m.source.marks = inner ++ [cp, ⟨1, ⟨1, 2, 1⟩, 1⟩, ⟨0, .start, 0⟩] := by
  have hfeed : Stream.feedAll .empty 12 ["aa", "a"] (newRow 2) =
      .ok (rowAfter 2 3 [⟨"aa", 0⟩, ⟨"a", 2⟩]) :=
    feedAll_pair (rowAfter 2 2 [⟨"aa", 0⟩])
      (feed_of_waiting rfl (rfl : Chunked.push "aa" _ = _) rfl)
      (feed_of_waiting rfl (rfl : Chunked.push "a" _ = _) rfl)
  obtain ⟨-, -, -, -, -, hheld, -⟩ := (waiting_repetition_holds_entry (.exactly 'a') (.atLeast 2)).2
    .empty 12 ["aa", "a"] _ _ (start_row 2) hfeed (by simp) rfl
  have hround : Works Chunked.Grows []
      ⟨.enter (.repetition (.exactly 'b') (.atLeast 1)) none, [], halfRead, []⟩ _ :=
    .of_moves .refl (.cons (rfl : step .empty _ = _) (.cons rfl (.cons rfl (.cons rfl (.one rfl)))))
  obtain ⟨-, cp, -, -, inner, -, hmarks⟩ :=
    (waiting_repetition_holds_entry (.exactly 'b') (.atLeast 1)).1 none [] _ _ _ _ .empty
      halfRead_reachable hround rfl
  exact ⟨hfeed, (hheld (by decide)).2, _, rfl, cp, inner, hmarks⟩

/-- A row that needs one letter and has had two waits for a third: it holds its entry, and with it
the chunks that end in front of the third round. -/
theorem waiting_repetition_holds_entry_letters : ∃ entry cp collected chunks st,
    Stream.start .empty (row 1) = .ok (newRow 1) ∧
      Stream.feedAll .empty 12 ["a", "a"] (newRow 1) = .ok st ∧ st.status = .undecided ∧
      st.machine.stack =
        [.repetition (.exactly 'a') (.atLeast 1) none (some entry) cp 2 collected] ∧
      st.machine.source.marks = [cp, entry] ∧ entry ≠ cp ∧
      st.machine.source.chunks = chunks ∧ chunks ≠ [] ∧ ∀ c ∈ chunks, c.stop ≤ cp.index := by
  have hfeed : Stream.feedAll .empty 12 ["a", "a"] (newRow 1) =
      .ok (rowAfter 1 2 [⟨"a", 0⟩, ⟨"a", 1⟩]) :=
    feedAll_pair (rowAfter 1 1 [⟨"a", 0⟩])
      (feed_of_waiting rfl (rfl : Chunked.push "a" _ = _) rfl)
      (feed_of_waiting rfl (rfl : Chunked.push "a" _ = _) rfl)
  exact ⟨⟨0, .start, 0⟩, ⟨2, ⟨1, 3, 2⟩, 1⟩, .text ["a", "a"], [⟨"a", 0⟩, ⟨"a", 1⟩], _, start_row 1,
    hfeed, rfl, rfl, rfl, by decide, rfl, by simp, by decide⟩

end Machine

end PegStream
