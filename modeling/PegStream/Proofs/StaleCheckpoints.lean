import PegStream.Proofs.Retention

/-!
# Checkpoints that are used after their time

A checkpoint is a plain value, and a reader can keep it and close it again later, or close it while
later ones are still open. An input knows a checkpoint by its depth alone. So it refuses one that is
not the innermost open one, unless a later one has been opened at the same depth: then it takes the
old one for the new one, and closes that.

A `Source.Ledger` keeps for an input what the input itself does not know: which checkpoints it has
given out, by number, and which of these are open.

* `Source.Ledger.Step`, `Source.Ledger.Reached`: readers that close whatever they were given;
* `Source.Ledger.Orderly`: the depth of an open checkpoint is its place among those that are open;
* `Chunked.Trimmed`: what is true of an input received in chunks however it is used, so that letting
  go of chunks never fails;
* `Source.stale_caught_unless_reused`: which checkpoints are refused, and what the others do.
-/

namespace PegStream

namespace Source

variable {σ : Type} [Source σ] {grows : σ → σ → Prop}

/-! ## Ledgers -/

/-- An input, the checkpoints that it has given out so far, and the numbers of those that are open,
the innermost first. -/
structure Ledger (σ : Type) where
  input : σ
  issued : List Checkpoint := []
  live : List Nat := []

namespace Ledger

variable {l l' : Ledger σ} {k : Nat} {cp : Checkpoint} {s : σ}

/-- The ledger of an input that has closed its innermost checkpoint. -/
def close (l : Ledger σ) (s : σ) : Ledger σ := { l with input := s, live := l.live.tail }

/-- A step of a reader that closes any checkpoint it was ever given, or of the one who adds text. It
has gone through; a step that fails changes nothing. -/
inductive Step (grows : σ → σ → Prop) (l : Ledger σ) : Ledger σ → Prop
  | grow {s : σ} : grows l.input s → Step grows l { l with input := s }
  | advance {s : σ} : Source.advance l.input = .ok s → Step grows l { l with input := s }
  | mark : Step grows l ⟨(Source.mark l.input).2, l.issued ++ [(Source.mark l.input).1],
      l.issued.length :: l.live⟩
  | commit {cp : Checkpoint} {s : σ} : cp ∈ l.issued → Source.commit cp l.input = .ok s →
    Step grows l (l.close s)
  | rollback {cp : Checkpoint} {s : σ} : cp ∈ l.issued → Source.rollback cp l.input = .ok s →
    Step grows l (l.close s)

/-- The ledgers that can come of an input. -/
inductive Reached (grows : σ → σ → Prop) (first : σ) : Ledger σ → Prop
  | fresh : Reached grows first { input := first }
  | step {l l' : Ledger σ} : Reached grows first l → Step grows l l' → Reached grows first l'

/-- The checkpoint was given out under the number `k`, and is not the innermost open one. -/
def Stale (l : Ledger σ) (k : Nat) (cp : Checkpoint) : Prop :=
  l.issued[k]? = some cp ∧ l.live.head? ≠ some k

/-- The innermost open checkpoint is a later one of the same depth. -/
def Reused (l : Ledger σ) (k : Nat) (cp : Checkpoint) : Prop :=
  ∃ k' cp', l.live.head? = some k' ∧ k < k' ∧ l.issued[k']? = some cp' ∧ cp'.depth = cp.depth

/-- The input does not close the checkpoint. -/
structure Refuses (l : Ledger σ) (cp : Checkpoint) (onCommit onRollback : Fault) : Prop where
  commit : Source.commit cp l.input = .error onCommit
  rollback : Source.rollback cp l.input = .error onRollback

/-- The input takes the checkpoint for the innermost open one: that one is closed, and a rollback
moves the cursor to the place of this one. -/
structure Closes (l : Ledger σ) (cp : Checkpoint) : Prop where
  commit : ∃ s, Source.commit cp l.input = .ok s ∧ Source.offset s = Source.offset l.input ∧
    Source.position s = Source.position l.input ∧ Source.openMarks s + 1 = Source.openMarks l.input
  rollback : ∃ s, Source.rollback cp l.input = .ok s ∧ Source.offset s = cp.index ∧
    Source.position s = cp.position ∧ Source.openMarks s + 1 = Source.openMarks l.input

/-! ## Depths -/

/-- As many checkpoints are open as the input says, the depth of each is its place among them, and
whatever was given out after it is deeper. -/
structure Orderly (l : Ledger σ) : Prop where
  count : Source.openMarks l.input = l.live.length
  place : ∀ i k, l.live[i]? = some k →
    ∃ cp, l.issued[k]? = some cp ∧ cp.depth + i + 1 = l.live.length
  deeper : ∀ k ∈ l.live, ∀ cp k' cp', l.issued[k]? = some cp → k < k' →
    l.issued[k']? = some cp' → cp.depth < cp'.depth

end Ledger

/-- How an input counts its open checkpoints: the number of those that are open is the depth of the
next one, and only the innermost one is closed. -/
structure Counts (σ : Type) [Source σ] (grows : σ → σ → Prop) : Prop where
  grow {s s' : σ} : grows s s' → Source.openMarks s' = Source.openMarks s
  advance {s s' : σ} : Source.advance s = .ok s' → Source.openMarks s' = Source.openMarks s
  depth (s : σ) : (Source.mark s).1.depth = Source.openMarks s
  mark (s : σ) : Source.openMarks (Source.mark s).2 = Source.openMarks s + 1
  commit {cp : Checkpoint} {s s' : σ} : Source.commit cp s = .ok s' →
    Source.openMarks s' + 1 = Source.openMarks s
  rollback {cp : Checkpoint} {s s' : σ} : Source.rollback cp s = .ok s' →
    Source.openMarks s' + 1 = Source.openMarks s

namespace Ledger.Orderly

variable {l l' : Ledger σ} {k : Nat} {cp : Checkpoint} {s : σ}

theorem input (h : l.Orderly) (hs : Source.openMarks s = Source.openMarks l.input) :
    Orderly { l with input := s } :=
  ⟨hs.trans h.count, h.place, h.deeper⟩

theorem mark (C : Counts σ grows) (h : l.Orderly) :
    Orderly ⟨(Source.mark l.input).2, l.issued ++ [(Source.mark l.input).1],
      l.issued.length :: l.live⟩ := by
  have hdepth : (Source.mark l.input).1.depth = l.live.length := (C.depth _).trans h.count
  have hold {k : Nat} {cp : Checkpoint} (hk : l.issued[k]? = some cp) :
      (l.issued ++ [(Source.mark l.input).1])[k]? = some cp := by
    rw [List.getElem?_append_left (List.getElem?_eq_some_iff.1 hk).1, hk]
  refine ⟨?_, fun i k hk => ?_, fun k hk cp k' cp' hcp hlt hcp' => ?_⟩
  · rw [C.mark, h.count]
    rfl
  · cases i with
    | zero =>
      cases hk
      exact ⟨_, List.getElem?_concat_length, by rw [hdepth]; rfl⟩
    | succ i =>
      obtain ⟨cp, hcp, hplace⟩ := h.place i k hk
      refine ⟨cp, hold hcp, ?_⟩
      rw [List.length_cons]
      omega
  · have hk' := (List.getElem?_eq_some_iff.1 hcp').1
    rw [List.length_append, List.length_singleton] at hk'
    rcases List.mem_cons.1 hk with rfl | hk
    · omega
    · obtain ⟨i, hi⟩ := List.mem_iff_getElem?.1 hk
      obtain ⟨cp₁, hcp₁, hplace⟩ := h.place i k hi
      cases (hold hcp₁).symm.trans hcp
      rcases Nat.lt_or_eq_of_le (Nat.le_of_lt_succ hk') with hk' | rfl
      · rw [List.getElem?_append_left hk'] at hcp'
        exact h.deeper k hk cp k' cp' hcp₁ hlt hcp'
      · cases List.getElem?_concat_length.symm.trans hcp'
        omega

theorem close (h : l.Orderly) (hs : Source.openMarks s + 1 = Source.openMarks l.input) :
    (l.close s).Orderly := by
  have hlength : l.live.tail.length + 1 = l.live.length := by
    have hcount := h.count
    rw [List.length_tail]
    omega
  refine ⟨?_, fun i k hk => ?_, fun k hk => h.deeper k (List.mem_of_mem_tail hk)⟩
  · have hcount := h.count
    show Source.openMarks s = l.live.tail.length
    omega
  · obtain ⟨cp, hcp, hplace⟩ := h.place (i + 1) k (List.getElem?_tail.symm.trans hk)
    refine ⟨cp, hcp, ?_⟩
    show cp.depth + i + 1 = l.live.tail.length
    omega

/-- Every step keeps the order. -/
theorem step (C : Counts σ grows) (h : l.Orderly) (hs : Step grows l l') : l'.Orderly := by
  cases hs with
  | grow hg => exact h.input (C.grow hg)
  | advance ha => exact h.input (C.advance ha)
  | mark => exact h.mark C
  | commit _ hc => exact h.close (C.commit hc)
  | rollback _ hr => exact h.close (C.rollback hr)

end Ledger.Orderly

theorem Ledger.Reached.orderly {l : Ledger σ} {first : σ} (C : Counts σ grows)
    (hfirst : Source.openMarks first = 0) (h : Reached grows first l) : l.Orderly := by
  induction h with
  | fresh => exact ⟨hfirst, nofun, nofun⟩
  | step _ hs ih => exact ih.step C hs

namespace Ledger.Orderly

variable {l : Ledger σ} {k : Nat} {cp : Checkpoint}

/-- The depth alone tells whether a stale checkpoint is taken for another one. -/
theorem reused_iff (h : l.Orderly) (hstale : l.Stale k cp) :
    l.Reused k cp ↔ cp.depth + 1 = Source.openMarks l.input := by
  rw [h.count]
  constructor
  · rintro ⟨k', cp', hhead, -, hcp', hdepth⟩
    obtain ⟨cp₁, hcp₁, hplace⟩ := h.place 0 k' (by rw [← List.head?_eq_getElem?, hhead])
    cases hcp'.symm.trans hcp₁
    omega
  · intro hdepth
    cases hlive : l.live with
    | nil =>
      rw [hlive] at hdepth
      cases hdepth
    | cons k' live =>
      have hhead : l.live[0]? = some k' := by rw [hlive]; rfl
      obtain ⟨cp', hcp', hplace⟩ := h.place 0 k' hhead
      have hne : k ≠ k' := by
        rintro rfl
        exact hstale.2 (by rw [hlive]; rfl)
      have hle : ¬ k' < k := fun hlt => by
        have hdeeper := h.deeper k' (List.mem_of_getElem? hhead) cp' k cp hcp' hlt hstale.1
        omega
      refine ⟨k', cp', by rw [hlive]; rfl, by omega, hcp', by omega⟩

/-- A checkpoint that is open, but not the innermost one, is not taken for another one. -/
theorem not_reused (h : l.Orderly) (hstale : l.Stale k cp) (hk : k ∈ l.live) :
    ¬ l.Reused k cp := by
  intro hreused
  have hdepth := (h.reused_iff hstale).1 hreused
  obtain ⟨i, hi⟩ := List.mem_iff_getElem?.1 hk
  obtain ⟨cp', hcp', hplace⟩ := h.place i k hi
  cases hstale.1.symm.trans hcp'
  have hi₀ : i = 0 := by
    rw [h.count] at hdepth
    omega
  subst hi₀
  exact hstale.2 (by rw [List.head?_eq_getElem?, hi])

/-- What becomes of a stale checkpoint, by what the input does with its depth. -/
theorem judged (h : l.Orderly) (hstale : l.Stale k cp) {onCommit onRollback : Fault}
    (hrefuses : cp.depth + 1 ≠ Source.openMarks l.input → l.Refuses cp onCommit onRollback)
    (hcloses : cp.depth + 1 = Source.openMarks l.input → l.Closes cp) :
    (k ∈ l.live → ¬ l.Reused k cp) ∧ (¬ l.Reused k cp → l.Refuses cp onCommit onRollback) ∧
      (l.Reused k cp → l.Closes cp) :=
  ⟨h.not_reused hstale, fun hn => hrefuses fun hd => hn ((h.reused_iff hstale).2 hd),
    fun hreused => hcloses ((h.reused_iff hstale).1 hreused)⟩

end Ledger.Orderly

end Source

/-! ## Complete texts -/

namespace Whole

open Source

theorem advance_marks {s s' : Whole} (h : s.advance = .ok s') : s'.marks = s.marks := by
  unfold Whole.advance at h
  cases hp : s.peek with
  | error f =>
    rw [hp] at h
    cases h
  | ok next =>
    rw [hp] at h
    cases next with
    | none => cases h
    | some c =>
      cases h
      rfl

theorem commit_eq {s : Whole} {cp : Checkpoint} (h : cp.depth + 1 = s.marks) :
    s.commit cp = .ok { s with marks := cp.depth } := by
  rw [Whole.commit, if_neg (fun hne => hne h)]

theorem rollback_eq {s : Whole} {cp : Checkpoint} (h : cp.depth + 1 = s.marks) :
    s.rollback cp =
      .ok { s with cursor := cp.index, position := cp.position, marks := cp.depth } := by
  rw [Whole.rollback, if_neg (by omega), if_neg (fun hne => hne h)]

theorem commit_refused {s : Whole} {cp : Checkpoint} (h : cp.depth + 1 ≠ s.marks) :
    s.commit cp = .error (cp.outOfOrder (.commitOutOfOrder .whole)) := by
  rw [Whole.commit, if_pos h]

theorem rollback_refused {s : Whole} {cp : Checkpoint} (h : cp.depth + 1 ≠ s.marks) :
    s.rollback cp =
      .error (if s.marks ≤ cp.depth then .rollbackClosed else .rollbackOutOfOrder .whole) := by
  rw [Whole.rollback, if_pos h]
  split <;> rfl

theorem depth_of_commit {s s' : Whole} {cp : Checkpoint} (h : s.commit cp = .ok s') :
    cp.depth + 1 = s.marks :=
  Decidable.byContradiction fun hd => by cases (commit_refused hd).symm.trans h

theorem depth_of_rollback {s s' : Whole} {cp : Checkpoint} (h : s.rollback cp = .ok s') :
    cp.depth + 1 = s.marks :=
  Decidable.byContradiction fun hd => by cases (rollback_refused hd).symm.trans h

theorem counts : Counts Whole fun _ _ => False where
  grow := False.elim
  advance := advance_marks
  depth s := rfl
  mark s := rfl
  commit h := by
    have hd := depth_of_commit h
    cases (commit_eq hd).symm.trans h
    exact hd
  rollback h := by
    have hd := depth_of_rollback h
    cases (rollback_eq hd).symm.trans h
    exact hd

end Whole

/-! ## Texts received in chunks -/

namespace Chunked

open Source

variable {s s' : Chunked} {cp : Checkpoint}

theorem release_ok (h : s.release = .ok s') : ∃ chunks current,
    dropPassed s.floor s.chunks s.current = .ok (chunks, current) ∧
      s' = { s with chunks, current } := by
  unfold Chunked.release at h
  cases hd : dropPassed s.floor s.chunks s.current with
  | error f =>
    rw [hd] at h
    cases h
  | ok r =>
    rw [hd] at h
    cases h
    exact ⟨r.1, r.2, rfl, rfl⟩

theorem release_marks (h : s.release = .ok s') : s'.marks = s.marks := by
  obtain ⟨chunks, current, -, rfl⟩ := release_ok h
  rfl

theorem advance_marks (h : s.advance = .ok s') : s'.marks = s.marks := by
  obtain ⟨next, -, -, hmarks, -, ⟨rfl, -⟩ | hr⟩ := advance_cases h
  · exact hmarks
  · rw [release_marks hr, hmarks]

theorem commit_eq (h : cp.depth + 1 = s.marks.length) :
    s.commit cp = release { s with marks := s.marks.tail } := by
  rw [Chunked.commit, if_neg (fun hne => hne h)]

theorem rollback_eq (h : cp.depth + 1 = s.marks.length) :
    s.rollback cp = release { s with
      marks := s.marks.tail
      cursor := cp.index
      position := cp.position
      current := s.locate cp.index } := by
  rw [Chunked.rollback, if_neg (fun hne => hne h)]

theorem commit_refused (h : cp.depth + 1 ≠ s.marks.length) :
    s.commit cp = .error (cp.outOfOrder (.commitOutOfOrder .chunked)) := by
  rw [Chunked.commit, if_pos h]

theorem rollback_refused (h : cp.depth + 1 ≠ s.marks.length) :
    s.rollback cp = .error (cp.outOfOrder (.rollbackOutOfOrder .chunked)) := by
  rw [Chunked.rollback, if_pos h]

theorem depth_of_commit (h : s.commit cp = .ok s') : cp.depth + 1 = s.marks.length :=
  Decidable.byContradiction fun hd => by cases (commit_refused hd).symm.trans h

theorem depth_of_rollback (h : s.rollback cp = .ok s') : cp.depth + 1 = s.marks.length :=
  Decidable.byContradiction fun hd => by cases (rollback_refused hd).symm.trans h

/-- Whatever is let go with the innermost checkpoint, one less is open. -/
theorem length_marks_of_release {next : Chunked} (hd : cp.depth + 1 = s.marks.length)
    (hm : next.marks = s.marks.tail) (h : next.release = .ok s') :
    s'.marks.length + 1 = s.marks.length := by
  rw [release_marks h, hm, List.length_tail]
  omega

theorem push_cases {text : String} (h : s.push text = .ok s') :
    s' = s ∨ ¬ text.isEmpty ∧ s' = { s with
      chunks := s.chunks ++ [⟨text, s.received⟩]
      received := s.received + text.utf8ByteSize } := by
  unfold Chunked.push at h
  split at h
  · cases h
  · split at h
    · cases h
      exact .inl rfl
    · rename_i he
      cases h
      exact .inr ⟨he, rfl⟩

theorem Grows.marks (h : Grows s s') : s'.marks = s.marks := by
  induction h with
  | refl => rfl
  | push _ hp ih =>
    rcases push_cases hp with rfl | ⟨-, rfl⟩
    · exact ih
    · exact ih
  | finish _ ih => exact ih

theorem counts : Counts Chunked Grows where
  grow h := congrArg List.length h.marks
  advance h := congrArg List.length (advance_marks h)
  depth s := rfl
  mark s := rfl
  commit h := by
    have hd := depth_of_commit h
    exact length_marks_of_release hd rfl ((commit_eq hd).symm.trans h)
  rollback h := by
    have hd := depth_of_rollback h
    exact length_marks_of_release hd rfl ((rollback_eq hd).symm.trans h)

/-! ## Chunks in a row -/

section

variable {start : Nat} {cs : List Chunk}

/-- Each chunk has its place between the first byte and the last. -/
theorem Tiled.bounds (h : Tiled start cs) :
    ∀ c ∈ cs, start ≤ c.start ∧ c.start < c.stop ∧ c.stop ≤ start + bytes cs := by
  induction cs generalizing start with
  | nil => exact nofun
  | cons d cs ih =>
    obtain ⟨hd, hne, hcs⟩ := h
    have hpos : 0 < d.text.utf8ByteSize := utf8ByteSize_pos fun he => hne (by
      rw [String.isEmpty_iff.1 he]
      rfl)
    have hstop : d.stop = start + d.text.utf8ByteSize := congrArg (· + _) hd
    intro c hc
    rw [bytes_cons]
    rcases List.mem_cons.1 hc with rfl | hc
    · omega
    · have hbounds := ih hcs c hc
      omega

/-- A chunk ends before every later one begins. -/
theorem Tiled.stop_le_start (h : Tiled start cs) {i j : Nat} {c d : Chunk} (hij : i < j)
    (hc : cs[i]? = some c) (hd : cs[j]? = some d) : c.stop ≤ d.start := by
  induction cs generalizing start i j with
  | nil => cases hc
  | cons b cs ih =>
    obtain ⟨-, -, hcs⟩ := h
    match i, j with
    | i, 0 => omega
    | 0, j + 1 =>
      cases hc
      exact (hcs.bounds d (List.mem_of_getElem? hd)).1
    | i + 1, j + 1 => exact ih hcs (Nat.lt_of_succ_lt_succ hij) hc hd

theorem Tiled.stop_lt_stop (h : Tiled start cs) {i j : Nat} {c d : Chunk} (hij : i < j)
    (hc : cs[i]? = some c) (hd : cs[j]? = some d) : c.stop < d.stop :=
  Nat.lt_of_le_of_lt (h.stop_le_start hij hc hd) (h.bounds d (List.mem_of_getElem? hd)).2.1

theorem Tiled.concat (h : Tiled start cs) {text : String} (ht : ¬ text.isEmpty) :
    Tiled start (cs ++ [⟨text, start + bytes cs⟩]) := by
  induction cs generalizing start with
  | nil =>
    exact ⟨rfl, fun hn => ht (String.isEmpty_iff.2 (String.toList_eq_nil_iff.1 hn)), trivial⟩
  | cons d cs ih =>
    obtain ⟨hd, hne, hcs⟩ := h
    have hstop : start + bytes (d :: cs) = d.stop + bytes cs := by
      rw [bytes_cons, Chunk.stop, hd, Nat.add_assoc]
    rw [hstop]
    exact ⟨hd, hne, ih hcs⟩

/-- Chunks can be dropped as long as they are in front of the current one. -/
theorem dropPassed_exists {floor current : Nat}
    (h : ∀ i c, cs[i]? = some c → c.stop ≤ floor → i < current) :
    ∃ gone cs', cs = gone ++ cs' ∧ gone.length ≤ current ∧
      dropPassed floor cs current = .ok (cs', current - gone.length) := by
  induction cs generalizing current with
  | nil => exact ⟨[], [], rfl, Nat.zero_le _, rfl⟩
  | cons c cs ih =>
    by_cases hc : floor < c.stop
    · refine ⟨[], c :: cs, rfl, Nat.zero_le _, ?_⟩
      unfold dropPassed
      rw [if_pos hc]
      rfl
    · have hpos : 0 < current := h 0 c rfl (Nat.le_of_not_lt hc)
      obtain ⟨n, rfl⟩ : ∃ n, current = n + 1 := ⟨current - 1, by omega⟩
      obtain ⟨gone, cs', hcs, hlength, hdrop⟩ := ih fun i d hd hstop =>
        Nat.lt_of_succ_lt_succ (h (i + 1) d hd hstop)
      refine ⟨c :: gone, cs', by rw [hcs]; rfl, Nat.succ_le_succ hlength, ?_⟩
      rw [dropPassed, if_neg hc, hdrop, List.length_cons, Nat.add_sub_add_right]

end

/-! ## Inputs used in any way -/

/-- The chunks follow one another up to what has been received, no cursor is beyond that, and the
chunks that end in front of the cursor are in front of the current one. -/
structure Placed (s : Chunked) : Prop where
  tiled : ∃ start, Tiled start s.chunks ∧ start + bytes s.chunks = s.received
  cursor_le : s.cursor ≤ s.received
  marks_le : ∀ cp ∈ s.marks, cp.index ≤ s.received
  passed : ∀ i c, s.chunks[i]? = some c → c.stop ≤ s.cursor → i < s.current

/-- The chunks in front of the floor have been let go. -/
structure Trimmed (s : Chunked) : Prop extends Placed s where
  first : ∀ c ∈ s.chunks.head?, s.floor < c.stop

namespace Placed

theorem floor_le (h : s.Placed) : s.floor ≤ s.received := by
  unfold Chunked.floor
  split
  · rename_i oldest hlast
    exact h.marks_le oldest (List.mem_of_getLast? hlast)
  · exact h.cursor_le

theorem stop_le (h : s.Placed) {c : Chunk} (hc : c ∈ s.chunks) : c.stop ≤ s.received := by
  obtain ⟨start, htiled, hreceived⟩ := h.tiled
  rw [← hreceived]
  exact (htiled.bounds c hc).2.2

/-- Letting go does not fail if the floor is the cursor, or still where it was. -/
theorem release (h : s.Placed)
    (hfloor : s.marks = [] ∨ ∀ c ∈ s.chunks.head?, s.floor < c.stop) :
    ∃ s', s.release = .ok s' ∧ s'.Trimmed ∧ s'.cursor = s.cursor ∧ s'.position = s.position ∧
      s'.received = s.received := by
  obtain ⟨start, htiled, hreceived⟩ := h.tiled
  have hpassed : ∀ i c, s.chunks[i]? = some c → c.stop ≤ s.floor → i < s.current := by
    rcases hfloor with hnone | hfirst
    · rw [floor_of_none hnone]
      exact h.passed
    · intro i c hc hstop
      obtain ⟨d, hd⟩ : ∃ d, s.chunks[0]? = some d := by
        have hlt := (List.getElem?_eq_some_iff.1 hc).1
        exact ⟨_, List.getElem?_eq_getElem (by omega)⟩
      have hlt := hfirst d (by rw [List.head?_eq_getElem?, hd]; rfl)
      rcases Nat.eq_zero_or_pos i with rfl | hi
      · cases hd.symm.trans hc
        omega
      · have hle := htiled.stop_lt_stop hi hd hc
        omega
  obtain ⟨gone, cs, hcs, hlength, hdrop⟩ := dropPassed_exists hpassed
  have hrelease : s.release = .ok { s with chunks := cs, current := s.current - gone.length } := by
    rw [Chunked.release, hdrop]
    rfl
  rw [hcs] at htiled hreceived
  refine ⟨_, hrelease, ⟨⟨⟨start + bytes gone, htiled.drop, ?_⟩, h.cursor_le, h.marks_le,
    fun i c hc hstop => ?_⟩, (dropPassed_ok hdrop).2⟩, rfl, rfl, rfl⟩
  · rw [← hreceived, bytes_append, Nat.add_assoc]
  · have hlt := h.passed (gone.length + i) c (by
      rw [hcs, List.getElem?_append_right (by omega), Nat.add_sub_cancel_left]
      exact hc) hstop
    show i < s.current - gone.length
    omega

end Placed

/-- A character that is read lies inside its text. -/
theorem charAt_le {text : String} {offset : Nat} {c : Char}
    (h : Text.charAt text offset = .ok (some c)) : offset + c.utf8Size ≤ text.utf8ByteSize := by
  by_cases hv : String.Pos.Raw.isValid text ⟨offset⟩ = true
  · rw [String.Pos.Raw.isValid_eq_true_iff, String.Pos.Raw.isValid_iff_exists_append] at hv
    obtain ⟨a, b, rfl, hoffset⟩ := hv
    have htext : a ++ b = String.ofList (a.toList ++ b.toList) := by
      rw [String.ofList_append, String.ofList_toList, String.ofList_toList]
    have hoff : offset = Text.byteCount a.toList := by
      rw [← Text.utf8ByteSize_eq]
      exact congrArg String.Pos.Raw.byteIdx hoffset
    rw [htext, hoff, Text.charAt_append] at h
    obtain ⟨ds, hds⟩ := List.head?_eq_some_iff.1 (Except.ok.inj h)
    rw [htext, Text.utf8ByteSize_ofList, Text.byteCount_append, hds, Text.byteCount_cons, hoff]
    omega
  · rw [Text.charAt, if_neg hv] at h
    split at h <;> cases h

/-- An advance reads a character inside the current chunk, and lets go of chunks at the end of
it. -/
theorem advance_within (h : s.advance = .ok s') : ∃ (chunk : Chunk) (next : Chunked),
    s.chunks[s.current]? = some chunk ∧ chunk.start ≤ s.cursor ∧ next.chunks = s.chunks ∧
    next.received = s.received ∧ next.marks = s.marks ∧
    (next.cursor < chunk.stop ∧ next.current = s.current ∧ s' = next ∨
      next.cursor = chunk.stop ∧ next.current = s.current + 1 ∧ next.release = .ok s') := by
  unfold Chunked.advance Chunked.peek at h
  cases hchunk : s.chunks[s.current]? with
  | none =>
    rw [hchunk] at h
    cases h
  | some chunk =>
    rw [hchunk] at h
    by_cases hstart : s.cursor < chunk.start
    · simp only [if_pos hstart] at h
      cases h
    · simp only [if_neg hstart] at h
      cases hc : Text.charAt chunk.text (s.cursor - chunk.start) with
      | error f =>
        rw [hc] at h
        cases h
      | ok next =>
        rw [hc] at h
        cases next with
        | none => cases h
        | some c =>
          have hle : s.cursor + c.utf8Size ≤ chunk.stop := by
            have hle := charAt_le hc
            rw [Chunk.stop]
            omega
          dsimp only [bind, Except.bind] at h
          let moved : Chunked :=
            { s with cursor := s.cursor + c.utf8Size, position := s.position.advance c }
          split at h
          · rename_i hend
            exact ⟨chunk, { moved with current := s.current + 1 }, rfl, Nat.le_of_not_lt hstart,
              rfl, rfl, rfl, .inr ⟨hend, rfl, h⟩⟩
          · rename_i hend
            cases h
            exact ⟨chunk, moved, rfl, Nat.le_of_not_lt hstart, rfl, rfl, rfl,
              .inl ⟨Nat.lt_of_le_of_ne hle hend, rfl, rfl⟩⟩

/-- The chunks that end at or before an offset come before the one that covers it. -/
theorem lt_locate {start offset i : Nat} {c : Chunk} (ht : Tiled start s.chunks)
    (hc : s.chunks[i]? = some c) (hstop : c.stop ≤ offset) : i < s.locate offset := by
  refine Nat.lt_of_not_le fun hi => ?_
  have hlt : s.locate offset < s.chunks.length :=
    Nat.lt_of_le_of_lt hi (List.getElem?_eq_some_iff.1 hc).1
  have hcovers : (s.chunks[s.locate offset]).covers offset = true := List.findIdx_getElem (w := hlt)
  rw [Chunk.covers, Bool.and_eq_true, decide_eq_true_iff, decide_eq_true_iff] at hcovers
  have hd := List.getElem?_eq_getElem hlt
  rcases Nat.lt_or_eq_of_le hi with hi | hi
  · have hlater := ht.stop_lt_stop hi hd hc
    omega
  · rw [← hi] at hc
    cases hd.symm.trans hc
    omega

namespace Trimmed

theorem push (h : s.Trimmed) {text : String} (hp : s.push text = .ok s') : s'.Trimmed := by
  rcases push_cases hp with rfl | ⟨htext, rfl⟩
  · exact h
  · obtain ⟨start, htiled, hreceived⟩ := h.tiled
    have hpos := utf8ByteSize_pos htext
    have hcursor := h.cursor_le
    refine ⟨⟨⟨start, hreceived ▸ htiled.concat htext, ?_⟩, Nat.le_add_right_of_le h.cursor_le,
      fun cp hcp => Nat.le_add_right_of_le (h.marks_le cp hcp), fun i c hc hstop => ?_⟩,
      fun c hc => ?_⟩
    · rw [bytes_append, ← Nat.add_assoc, hreceived]
      rfl
    · rcases Nat.lt_or_ge i s.chunks.length with hi | hi
      · rw [List.getElem?_append_left hi] at hc
        exact h.passed i c hc hstop
      · -- The new chunk ends behind everything that had been received, and so behind the cursor.
        rw [List.getElem?_append_right hi] at hc
        obtain rfl := List.mem_singleton.1 (List.mem_of_getElem? hc)
        have hlt : s.received < s.received + text.utf8ByteSize := Nat.lt_add_of_pos_right hpos
        exact absurd (Nat.le_trans hstop hcursor) (Nat.not_le.2 hlt)
    · rw [List.head?_append] at hc
      cases hhead : s.chunks.head? with
      | some d =>
        rw [hhead] at hc
        cases hc
        exact h.first c hhead
      | none =>
        rw [hhead] at hc
        cases hc
        exact Nat.lt_of_le_of_lt h.floor_le (Nat.lt_add_of_pos_right hpos)

theorem grows (h : s.Trimmed) (hg : Grows s s') : s'.Trimmed := by
  induction hg with
  | refl => exact h
  | push _ hp ih => exact ih.push hp
  | finish _ ih => exact ⟨⟨ih.tiled, ih.cursor_le, ih.marks_le, ih.passed⟩, ih.first⟩

theorem mark (h : s.Trimmed) : s.mark.2.Trimmed := by
  refine ⟨⟨h.tiled, h.cursor_le, fun cp hcp => ?_, h.passed⟩, ?_⟩
  · rcases List.mem_cons.1 hcp with rfl | hcp
    · exact h.cursor_le
    · exact h.marks_le cp hcp
  · rw [floor_mark]
    exact h.first

/-- With the cursor moved or inner checkpoints closed, the floor is the cursor or still where it
was. -/
theorem floor_kept (h : s.Trimmed) {next : Chunked} (hcs : next.chunks = s.chunks)
    (hm : next.marks <:+ s.marks) :
    next.marks = [] ∨ ∀ c ∈ next.chunks.head?, next.floor < c.stop := by
  cases hnext : next.marks.getLast? with
  | none => exact .inl (List.getLast?_eq_none_iff.1 hnext)
  | some oldest =>
    obtain ⟨inner, hinner⟩ := hm
    have hfloor : next.floor = s.floor := by
      unfold Chunked.floor
      rw [← hinner, List.getLast?_append, hnext]
      rfl
    rw [hcs, hfloor]
    exact .inr h.first

theorem advance (h : s.Trimmed) (ha : s.advance = .ok s') :
    s'.Trimmed ∧ s'.received = s.received := by
  obtain ⟨chunk, next, hchunk, hstart, hcs, hr, hm, hnext⟩ := advance_within ha
  obtain ⟨start, htiled, -⟩ := h.tiled
  have hreceived := h.stop_le (List.mem_of_getElem? hchunk)
  have hkept := h.floor_kept hcs (hm ▸ List.suffix_refl _)
  -- Of the chunks from the current one on, none ends in front of it.
  have hbefore {i : Nat} {d : Chunk} (hd : s.chunks[i]? = some d) (hlt : d.stop < chunk.stop) :
      i < s.current := by
    rcases Nat.lt_trichotomy i s.current with hi | rfl | hi
    · exact hi
    · cases hchunk.symm.trans hd
      exact absurd hlt (Nat.lt_irrefl _)
    · exact absurd hlt (Nat.lt_asymm (htiled.stop_lt_stop hi hchunk hd))
  have hplaced (hle : next.cursor ≤ chunk.stop)
      (hpassed : ∀ i c, s.chunks[i]? = some c → c.stop ≤ next.cursor → i < next.current) :
      next.Placed := by
    refine ⟨?_, ?_, ?_, ?_⟩
    · rw [hcs, hr]
      exact h.tiled
    · rw [hr]
      exact Nat.le_trans hle hreceived
    · rw [hm, hr]
      exact h.marks_le
    · rw [hcs]
      exact hpassed
  rcases hnext with ⟨hlt, hi, rfl⟩ | ⟨hend, hi, hrelease⟩
  · refine ⟨⟨hplaced (Nat.le_of_lt hlt) fun i d hd hstop => ?_, fun d hd => ?_⟩, hr⟩
    · rw [hi]
      exact hbefore hd (Nat.lt_of_le_of_lt hstop hlt)
    · rcases hkept with hnone | hfirst
      · -- Nothing is open, so the first chunk ends behind the cursor, and is the current one.
        have hlt' := h.first d (hcs ▸ hd)
        rw [floor_of_none (hm.symm.trans hnone)] at hlt'
        rw [floor_of_none hnone]
        rw [hcs, List.head?_eq_getElem?] at hd
        rcases Nat.eq_zero_or_pos s.current with hzero | hpos
        · rw [hzero] at hchunk
          cases hchunk.symm.trans hd
          exact hlt
        · have hle := htiled.stop_le_start hpos hd hchunk
          omega
      · exact hfirst d hd
  · have hpassed (i : Nat) (d : Chunk) (hd : s.chunks[i]? = some d) (hstop : d.stop ≤ next.cursor) :
        i < next.current := by
      rw [hi]
      rcases Nat.lt_or_eq_of_le (hend ▸ hstop) with hlt | heq
      · exact Nat.lt_succ_of_lt (hbefore hd hlt)
      · refine Nat.lt_succ_of_le (Nat.le_of_not_lt fun hi => ?_)
        exact absurd heq (Nat.ne_of_gt (htiled.stop_lt_stop hi hchunk hd))
    obtain ⟨s₁, hrelease₁, htrimmed, -, -, hreceived₁⟩ :=
      (hplaced (Nat.le_of_eq hend) hpassed).release hkept
    cases hrelease₁.symm.trans hrelease
    exact ⟨htrimmed, hreceived₁.trans hr⟩

/-- Closing the innermost checkpoint does not fail. -/
theorem commit (h : s.Trimmed) (hd : cp.depth + 1 = s.marks.length) : ∃ s', s.commit cp = .ok s' ∧
    s'.Trimmed ∧ s'.cursor = s.cursor ∧ s'.position = s.position ∧ s'.received = s.received := by
  rw [commit_eq hd]
  refine Placed.release ⟨h.tiled, h.cursor_le, fun cp hcp => ?_, h.passed⟩
    (h.floor_kept rfl (List.tail_suffix _))
  exact h.marks_le cp (List.mem_of_mem_tail hcp)

/-- Nor does going back, even to a place of which the chunks are gone. -/
theorem rollback (h : s.Trimmed) (hd : cp.depth + 1 = s.marks.length)
    (hle : cp.index ≤ s.received) : ∃ s', s.rollback cp = .ok s' ∧ s'.Trimmed ∧
      s'.cursor = cp.index ∧ s'.position = cp.position ∧ s'.received = s.received := by
  rw [rollback_eq hd]
  refine Placed.release ⟨h.tiled, hle, fun cp hcp => ?_, fun i c hc hstop => ?_⟩
    (h.floor_kept rfl (List.tail_suffix _))
  · exact h.marks_le cp (List.mem_of_mem_tail hcp)
  · obtain ⟨start, htiled, -⟩ := h.tiled
    exact lt_locate htiled hc hstop

end Trimmed

theorem trimmed_empty : empty.Trimmed := ⟨⟨⟨0, trivial, rfl⟩, Nat.le_refl 0, nofun, nofun⟩, nofun⟩

theorem Grows.received_le (h : Grows s s') : s.received ≤ s'.received := by
  induction h with
  | refl => exact Nat.le_refl _
  | push _ hp ih =>
    rcases push_cases hp with rfl | ⟨-, rfl⟩
    · exact ih
    · exact Nat.le_add_right_of_le ih
  | finish _ ih => exact ih

/-- What is true however an input is used: chunks are in their places, and no checkpoint that was
ever given out is beyond what has been received. -/
structure Usable (l : Ledger Chunked) : Prop where
  trimmed : l.input.Trimmed
  issued_le : ∀ cp ∈ l.issued, cp.index ≤ l.input.received

theorem Usable.step {l l' : Ledger Chunked} (h : Usable l) (hs : Ledger.Step Grows l l') :
    Usable l' := by
  cases hs with
  | grow hg =>
    exact ⟨h.trimmed.grows hg, fun cp hcp => Nat.le_trans (h.issued_le cp hcp) hg.received_le⟩
  | advance ha =>
    obtain ⟨htrimmed, hreceived⟩ := h.trimmed.advance ha
    exact ⟨htrimmed, fun cp hcp => hreceived ▸ h.issued_le cp hcp⟩
  | mark =>
    refine ⟨h.trimmed.mark, fun cp hcp => ?_⟩
    rcases List.mem_append.1 hcp with hcp | hcp
    · exact h.issued_le cp hcp
    · rw [List.mem_singleton.1 hcp]
      exact h.trimmed.cursor_le
  | commit _ hc =>
    obtain ⟨s', hs', htrimmed, -, -, hreceived⟩ := h.trimmed.commit (depth_of_commit hc)
    cases hs'.symm.trans hc
    exact ⟨htrimmed, fun cp hcp => hreceived ▸ h.issued_le cp hcp⟩
  | rollback hin hr =>
    obtain ⟨s', hs', htrimmed, -, -, hreceived⟩ :=
      h.trimmed.rollback (depth_of_rollback hr) (h.issued_le _ hin)
    cases hs'.symm.trans hr
    exact ⟨htrimmed, fun cp hcp => hreceived ▸ h.issued_le cp hcp⟩

theorem usable_of_reached {l : Ledger Chunked} (h : Ledger.Reached Grows empty l) : Usable l := by
  induction h with
  | fresh => exact ⟨trimmed_empty, nofun⟩
  | step _ hs ih => exact ih.step hs

end Chunked

/-! ## Stale checkpoints -/

namespace Source

/-- However an input has been used, closing a checkpoint that is not the innermost open one is
refused, and nothing changes, unless a later checkpoint has been opened at the same depth and is now
the innermost open one. Then the call goes through: it closes that other one, and a rollback moves
the cursor. A checkpoint that is still open, with later ones open inside it, is always refused. -/
theorem stale_caught_unless_reused (k : Nat) (cp : Checkpoint) :
    (∀ text (l : Ledger Whole), l.Reached (fun _ _ => False) (Whole.ofString text) →
      l.Stale k cp →
      (k ∈ l.live → ¬ l.Reused k cp) ∧
      (¬ l.Reused k cp → l.Refuses cp (cp.outOfOrder (.commitOutOfOrder .whole))
        (if l.live.length ≤ cp.depth then .rollbackClosed else .rollbackOutOfOrder .whole)) ∧
      (l.Reused k cp → l.Closes cp)) ∧
    ∀ l : Ledger Chunked, l.Reached Chunked.Grows Chunked.empty → l.Stale k cp →
      (k ∈ l.live → ¬ l.Reused k cp) ∧
      (¬ l.Reused k cp → l.Refuses cp (cp.outOfOrder (.commitOutOfOrder .chunked))
        (cp.outOfOrder (.rollbackOutOfOrder .chunked))) ∧
      (l.Reused k cp → l.Closes cp) := by
  refine ⟨fun text l hl hstale => ?_, fun l hl hstale => ?_⟩
  · have horderly := hl.orderly Whole.counts rfl
    refine horderly.judged hstale (fun hd => ⟨Whole.commit_refused hd, ?_⟩) fun hd =>
      ⟨⟨_, Whole.commit_eq hd, rfl, rfl, hd⟩, ⟨_, Whole.rollback_eq hd, rfl, rfl, hd⟩⟩
    rw [← horderly.count]
    exact Whole.rollback_refused hd
  · have horderly := hl.orderly Chunked.counts rfl
    have husable := Chunked.usable_of_reached hl
    refine horderly.judged hstale
      (fun hd => ⟨Chunked.commit_refused hd, Chunked.rollback_refused hd⟩) fun hd => ⟨?_, ?_⟩
    · obtain ⟨s, hs, -, hcursor, hposition, -⟩ := husable.trimmed.commit hd
      exact ⟨s, hs, hcursor, hposition, Chunked.counts.commit hs⟩
    · obtain ⟨s, hs, -, hcursor, hposition, -⟩ := husable.trimmed.rollback hd
        (husable.issued_le cp (List.mem_of_getElem? hstale.1))
      exact ⟨s, hs, hcursor, hposition, Chunked.counts.rollback hs⟩

namespace Ledger

/-- The checkpoint in front of a text. -/
def start : Checkpoint := ⟨0, .start, 0⟩

/-- The checkpoint in front has been committed. -/
def committed : Ledger Whole where
  input := .ofString "ab"
  issued := [start]

/-- After that a character was read, and another checkpoint is open behind it. -/
def reopened : Ledger Whole where
  input := { text := "ab", cursor := 1, position := ⟨1, 2, 1⟩, marks := 1 }
  issued := [start, ⟨1, ⟨1, 2, 1⟩, 0⟩]
  live := [1]

/-- Two checkpoints are open in front of a chunk. -/
def nested : Ledger Chunked where
  input := { chunks := [⟨"ab", 0⟩], received := 2, marks := [⟨0, .start, 1⟩, start] }
  issued := [start, ⟨0, .start, 1⟩]
  live := [1, 0]

theorem committed_reached : committed.Reached (fun _ _ => False) (Whole.ofString "ab") :=
  .step (.step .fresh .mark) (.commit (List.mem_singleton.2 rfl) rfl)

theorem reopened_reached : reopened.Reached (fun _ _ => False) (Whole.ofString "ab") :=
  .step (.step committed_reached (.advance rfl)) .mark

theorem nested_reached : nested.Reached Chunked.Grows Chunked.empty := by
  have hpush : Chunked.empty.push "ab" = .ok { chunks := [⟨"ab", 0⟩], received := 2 } := rfl
  exact .step (.step (.step .fresh (.grow (.push (.refl _) hpush))) .mark) .mark

end Ledger

open Ledger

/-- A second commit is refused while no other checkpoint has taken the place, and so is one of an
outer checkpoint. -/
theorem stale_caught_unless_reused_committed :
    committed.Refuses start (.commitOutOfOrder .whole) .rollbackClosed ∧
    nested.Refuses start (.commitOutOfOrder .chunked) (.rollbackOutOfOrder .chunked) := by
  obtain ⟨hwhole, hchunked⟩ := stale_caught_unless_reused 0 start
  refine ⟨(hwhole "ab" _ committed_reached ⟨rfl, nofun⟩).2.1 ?_, ?_⟩
  · rintro ⟨k', cp', hhead, -⟩
    cases hhead
  · have hstale := hchunked _ nested_reached ⟨rfl, by decide⟩
    exact hstale.2.1 (hstale.1 (by decide))

/-- The checkpoint in front has been closed, and yet it can be rolled back to: the cursor moves, and
the other checkpoint is closed. -/
theorem stale_rollback_goes_through :
    reopened.Reached (fun _ _ => False) (Whole.ofString "ab") ∧ reopened.Stale 0 start ∧
      0 ∉ reopened.live ∧ reopened.input.cursor = 1 ∧ reopened.input.marks = 1 ∧
      ∃ s, Source.rollback start reopened.input = .ok s ∧ s.cursor = 0 ∧ s.marks = 0 :=
  ⟨reopened_reached, ⟨rfl, by decide⟩, by decide, rfl, rfl, _, rfl, rfl, rfl⟩

end Source

end PegStream
