import PegStream.Proofs.Usage

/-!
# What an input received in chunks holds

An input lets go of chunks only when its cursor crosses the end of a chunk and when a checkpoint is
closed. This is often enough, and never too early: at any time the chunks held are exactly those
that end behind the oldest place in use.

* `Chunked.Holds`: no chunk has gone that a later read can reach;
* `Chunked.Retains`: nor is any other chunk still there;
* `Chunked.Holds.release`: letting go turns the first into the second;
* `Chunked.retains_act`: every permitted step keeps the second;
* `Chunked.replay_retains_exactly`: so does every run.
-/

namespace PegStream

namespace Chunked

open Source Growing

/-! ## Chunks that have arrived -/

/-- The chunks that some texts arrive as, from a given byte on: an empty text is no chunk. -/
def arrivals (start : Nat) : List String → List Chunk
  | [] => []
  | text :: texts =>
    if text.isEmpty then arrivals start texts
    else ⟨text, start⟩ :: arrivals (start + text.utf8ByteSize) texts

/-- The number of bytes of some chunks. -/
def bytes (cs : List Chunk) : Nat := cs.foldr (fun c n => c.text.utf8ByteSize + n) 0

@[simp] theorem bytes_nil : bytes [] = 0 := rfl

@[simp] theorem bytes_cons (c : Chunk) (cs : List Chunk) :
    bytes (c :: cs) = c.text.utf8ByteSize + bytes cs := rfl

theorem bytes_append (cs ds : List Chunk) : bytes (cs ++ ds) = bytes cs + bytes ds := by
  induction cs with
  | nil => simp
  | cons c cs ih => rw [List.cons_append, bytes_cons, bytes_cons, ih, Nat.add_assoc]

/-- A text that is a chunk has bytes. -/
theorem utf8ByteSize_pos {text : String} (h : ¬ text.isEmpty) : 0 < text.utf8ByteSize :=
  Nat.pos_of_ne_zero fun h0 => h (String.isEmpty_iff.2 (String.utf8ByteSize_eq_zero_iff.1 h0))

/-- What arrives in two goes arrives one after the other. -/
theorem arrivals_append (start : Nat) (texts more : List String) :
    arrivals start (texts ++ more) =
      arrivals start texts ++ arrivals (start + bytes (arrivals start texts)) more := by
  induction texts generalizing start with
  | nil => rfl
  | cons text texts ih =>
    by_cases he : text.isEmpty = true
    · simp only [List.cons_append, arrivals, if_pos he, ih]
    · simp only [List.cons_append, arrivals, if_neg he, ih, bytes_cons, Nat.add_assoc]

theorem bytes_arrivals (start : Nat) (texts : List String) :
    bytes (arrivals start texts) = (String.join texts).utf8ByteSize := by
  induction texts generalizing start with
  | nil => rfl
  | cons text texts ih =>
    by_cases he : text.isEmpty = true
    · have hn : text = "" := String.isEmpty_iff.1 he
      rw [arrivals, if_pos he, ih, String.join_cons, hn, String.empty_append]
    · rw [arrivals, if_neg he, bytes_cons, ih, String.join_cons, String.utf8ByteSize_append]

theorem tiled_arrivals (start : Nat) (texts : List String) :
    Tiled start (arrivals start texts) := by
  induction texts generalizing start with
  | nil => trivial
  | cons text texts ih =>
    by_cases he : text.isEmpty = true
    · rw [arrivals, if_pos he]
      exact ih start
    · rw [arrivals, if_neg he]
      refine ⟨rfl, fun hn => he ?_, ih _⟩
      exact String.isEmpty_iff.2 (String.toList_eq_nil_iff.1 hn)

/-- Chunks in a row end behind where they begin. -/
theorem Tiled.le_stop {start : Nat} {cs : List Chunk} (h : Tiled start cs) :
    ∀ c ∈ cs, start ≤ c.stop := by
  induction cs generalizing start with
  | nil => intro c hc; cases hc
  | cons d cs ih =>
    obtain ⟨hs, -, hcs⟩ := h
    have hd : start ≤ d.stop := by rw [← hs]; exact Nat.le_add_right _ _
    intro c hc
    rcases List.mem_cons.1 hc with rfl | hc
    · exact hd
    · exact Nat.le_trans hd (ih hcs c hc)

/-- Where the rest of some chunks in a row begins. -/
theorem Tiled.drop {start : Nat} {gone cs : List Chunk} (h : Tiled start (gone ++ cs)) :
    Tiled (start + bytes gone) cs := by
  induction gone generalizing start with
  | nil => exact h
  | cons g gone ih =>
    obtain ⟨hs, -, hcs⟩ := h
    have hd := ih hcs
    rwa [Chunk.stop, hs, Nat.add_assoc, ← bytes_cons] at hd

/-! ## Letting go -/

/-- What the chunks in front are that have been dropped, and what the first one is that has not. -/
theorem dropPassed_ok {floor current current' : Nat} {cs cs' : List Chunk}
    (h : dropPassed floor cs current = .ok (cs', current')) :
    (∃ gone, cs = gone ++ cs' ∧ ∀ c ∈ gone, c.stop ≤ floor) ∧ ∀ c ∈ cs'.head?, floor < c.stop := by
  induction cs generalizing current with
  | nil =>
    cases h
    exact ⟨⟨[], rfl, by simp⟩, by simp⟩
  | cons c cs ih =>
    unfold dropPassed at h
    by_cases hc : floor < c.stop
    · rw [if_pos hc] at h
      cases h
      exact ⟨⟨[], rfl, by simp⟩, by simpa using hc⟩
    · rw [if_neg hc] at h
      cases current with
      | zero => cases h
      | succ current =>
        obtain ⟨⟨gone, hcs, hgone⟩, hfirst⟩ := ih h
        refine ⟨⟨c :: gone, by rw [hcs]; rfl, fun d hd => ?_⟩, hfirst⟩
        rcases List.mem_cons.1 hd with rfl | hd
        · exact Nat.le_of_not_lt hc
        · exact hgone d hd

/-- Of the chunks that have arrived, those that are gone end where no read can reach them. -/
structure Holds (arrived : List Chunk) (s : Chunked) : Prop where
  gone : ∃ gone, arrived = gone ++ s.chunks ∧ ∀ c ∈ gone, c.stop ≤ s.floor
  received : s.received = bytes arrived

/-- Of the chunks that have arrived, those and only those are gone that no read can reach. -/
structure Retains (arrived : List Chunk) (s : Chunked) : Prop extends Holds arrived s where
  first : ∀ c ∈ s.chunks.head?, s.floor < c.stop

variable {s s' : Chunked} {t : Tape} {arrived : List Chunk}

/-- What has gone stays out of reach while the floor rises. -/
theorem Holds.of_le (h : Holds arrived s) (hc : s'.chunks = s.chunks)
    (hr : s'.received = s.received) (hf : s.floor ≤ s'.floor) : Holds arrived s' := by
  obtain ⟨gone, ha, hgone⟩ := h.gone
  refine ⟨⟨gone, by rw [hc]; exact ha, fun c hc => Nat.le_trans (hgone c hc) hf⟩, ?_⟩
  rw [hr, h.received]

theorem Holds.release (h : Holds arrived s) (hs : s.release = .ok s') : Retains arrived s' := by
  obtain ⟨gone, ha, hgone⟩ := h.gone
  unfold Chunked.release at hs
  cases hd : dropPassed s.floor s.chunks s.current with
  | error f => rw [hd] at hs; cases hs
  | ok r =>
    obtain ⟨cs, current⟩ := r
    rw [hd] at hs
    cases hs
    obtain ⟨⟨passed, hcs, hpassed⟩, hfirst⟩ := dropPassed_ok hd
    refine ⟨⟨⟨gone ++ passed, ?_, fun c hc => ?_⟩, h.received⟩, hfirst⟩
    · rw [ha, hcs, List.append_assoc]
    · rcases List.mem_append.1 hc with hc | hc
      · exact hgone c hc
      · exact hpassed c hc

/-- The chunks held are those of all that end behind the floor. -/
theorem Retains.chunks_eq (h : Retains arrived s) (ht : Tiled 0 arrived) :
    s.chunks = arrived.filter (s.floor < ·.stop) := by
  obtain ⟨gone, ha, hgone⟩ := h.gone
  have hdrop : gone.filter (s.floor < ·.stop) = [] := by
    refine List.filter_eq_nil_iff.2 fun c hc => ?_
    have hle := hgone c hc
    simpa using hle
  have hkeep : s.chunks.filter (s.floor < ·.stop) = s.chunks := by
    refine List.filter_eq_self.2 fun c hc => decide_eq_true ?_
    rw [ha] at ht
    have hrow := ht.drop
    have hfirst := h.first
    cases hcs : s.chunks with
    | nil => rw [hcs] at hc; cases hc
    | cons d cs =>
      rw [hcs] at hc hrow hfirst
      have hd : s.floor < d.stop := hfirst d rfl
      rcases List.mem_cons.1 hc with rfl | hc
      · exact hd
      · exact Nat.lt_of_lt_of_le hd (hrow.2.2.le_stop c hc)
  rw [ha, List.filter_append, hdrop, hkeep, List.nil_append]

/-- The bytes held are those from the first chunk held on. -/
theorem Retains.retainedBytes_eq (h : Retains arrived s) (ht : Tiled 0 arrived) :
    s.retainedBytes = (s.chunks.head?.map (s.received - ·.start)).getD 0 := by
  obtain ⟨gone, ha, -⟩ := h.gone
  have hr : s.received = bytes gone + s.retainedBytes := by
    rw [h.received, ha, bytes_append]
    rfl
  rw [ha] at ht
  have hrow := ht.drop
  cases hcs : s.chunks with
  | nil => rw [Chunked.retainedBytes, hcs]; rfl
  | cons c cs =>
    rw [hcs] at hrow
    have hstart : c.start = 0 + bytes gone := hrow.1
    show _ = s.received - c.start
    omega

/-! ## The first chunk and the cursor -/

/-- A chunk that has been passed ends at or before the cursor. -/
theorem Layout.stop_le {text : List Char} {r k : Nat} {c : Chunk} {before after : List Chunk}
    (h : Layout text r k (c :: before) after) : c.stop ≤ Tape.offsetAt text k := by
  have hp := h.passed
  rw [heldText_cons, List.length_append] at hp
  rw [stop_eq h.held h.tiled.1]
  exact Text.byteCount_take_le text (by omega)

/-- The chunk under the cursor ends behind it. -/
theorem Layout.lt_stop {text : List Char} {r k : Nat} {c : Chunk} {after : List Chunk}
    (h : Layout text r k [] (c :: after)) : Tape.offsetAt text k < c.stop := by
  have ha := h.ahead c rfl
  rw [stop_eq h.held h.tiled.1, Tape.offsetAt_lt_iff (length_of_cons h.held h.tiled.2.1)]
  exact ha

/-- The cursor is in the first chunk held if it has not passed its end. -/
theorem Represents.cursor_lt_stop_iff (h : s.Represents t) {c : Chunk}
    (hc : c ∈ s.chunks.head?) : s.cursor < c.stop ↔ s.current = 0 := by
  obtain ⟨r, before, after, -, hcs, hi, hlay⟩ := h.layout
  rw [hcs] at hc
  rw [h.cursor, hi]
  cases before with
  | nil =>
    cases after with
    | nil => cases hc
    | cons d after =>
      cases hc
      exact iff_of_true hlay.lt_stop rfl
  | cons d before =>
    cases hc
    exact iff_of_false (Nat.not_lt.2 hlay.stop_le) (Nat.succ_ne_zero _)

/-! ## Steps -/

theorem floor_of_open {cp : Checkpoint} {cps : List Checkpoint} (h : s.marks = cp :: cps) :
    s.floor = (cps.getLast?.getD cp).index := by
  unfold Chunked.floor
  rw [h, List.getLast?_cons]

theorem floor_of_none (h : s.marks = []) : s.floor = s.cursor := by
  unfold Chunked.floor
  rw [h]
  rfl

/-- The floor rises with the cursor. -/
theorem floor_le_of_cursor (hm : s'.marks = s.marks) (hc : s.cursor ≤ s'.cursor) :
    s.floor ≤ s'.floor := by
  cases hs : s.marks with
  | nil => rwa [floor_of_none hs, floor_of_none (hm.trans hs)]
  | cons cp cps => exact Nat.le_of_eq (by rw [floor_of_open hs, floor_of_open (hm.trans hs)])

/-- The floor does not fall when the innermost checkpoint is closed and the cursor is not in front
of it. -/
theorem floor_le_of_tail {cp : Checkpoint} {cps : List Checkpoint} (hs : s.marks = cp :: cps)
    (hm : s'.marks = cps) (hc : cp.index ≤ s'.cursor) : s.floor ≤ s'.floor := by
  rw [floor_of_open hs]
  cases cps with
  | nil => rwa [floor_of_none hm]
  | cons cp' cps => exact Nat.le_of_eq (by rw [floor_of_open hm, List.getLast?_cons]; rfl)

/-- A new checkpoint leaves the floor where it is. -/
theorem floor_mark (s : Chunked) : s.mark.2.floor = s.floor := by
  rw [floor_of_open rfl, Chunked.floor]
  cases s.marks.getLast? with
  | none => rfl
  | some oldest => rfl

theorem Represents.floor_le_received (h : s.Represents t) : s.floor ≤ s.received := by
  have hle := Text.byteCount_take_le t.text (Nat.le_trans h.valid.floor_le h.valid.inside)
  rw [List.take_length] at hle
  rw [h.floor, h.received]
  exact hle

/-- What an advance does: the cursor moves on inside its chunk, or it leaves the chunk and chunks
are let go. -/
theorem advance_cases (h : s.advance = .ok s') :
    ∃ next : Chunked, next.chunks = s.chunks ∧ next.received = s.received ∧
      next.marks = s.marks ∧ s.cursor ≤ next.cursor ∧
      (s' = next ∧ next.current = s.current ∨ next.release = .ok s') := by
  unfold Chunked.advance at h
  cases hp : s.peek with
  | error f => rw [hp] at h; cases h
  | ok ch =>
    rw [hp] at h
    simp only [bind, Except.bind] at h
    split at h
    · split at h
      · refine ⟨_, ?_, ?_, ?_, ?_, .inr h⟩
        · rfl
        · rfl
        · rfl
        · exact Nat.le_add_right _ _
      · cases h
        refine ⟨_, ?_, ?_, ?_, ?_, .inl ⟨rfl, ?_⟩⟩
        · rfl
        · rfl
        · rfl
        · exact Nat.le_add_right _ _
        · rfl
    · cases h

namespace Retains

theorem push {text : String} (h : Retains arrived s) (hR : s.Represents t)
    (hs : s.push text = .ok s') : Retains (arrived ++ arrivals s.received [text]) s' := by
  unfold Chunked.push at hs
  by_cases hf : s.finished = true
  · rw [if_pos hf] at hs
    cases hs
  rw [if_neg hf] at hs
  by_cases he : text.isEmpty = true
  · rw [if_pos he] at hs
    cases hs
    simpa only [arrivals, if_pos he, List.append_nil] using h
  rw [if_neg he] at hs
  cases hs
  obtain ⟨gone, ha, hgone⟩ := h.gone
  simp only [arrivals, if_neg he]
  refine ⟨⟨⟨gone, ?_, hgone⟩, ?_⟩, fun c hc => ?_⟩
  · rw [ha, List.append_assoc]
  · rw [bytes_append, ← h.received]
    rfl
  · cases hcs : s.chunks with
    | nil =>
      -- The new chunk is the first, and what has been received so far ends where it begins.
      rw [hcs] at hc
      cases hc
      have hpos := utf8ByteSize_pos he
      have hle : s.floor ≤ s.received := hR.floor_le_received
      show s.floor < s.received + text.utf8ByteSize
      omega
    | cons d cs =>
      rw [hcs] at hc
      exact h.first c (by rw [hcs]; exact hc)

theorem advance {t' : Tape} (h : Retains arrived s) (hR : s.Represents t) (hR' : s'.Represents t')
    (hs : s.advance = .ok s') : Retains arrived s' := by
  obtain ⟨next, hcs, hr, hm, hle, ⟨rfl, hi⟩ | hrel⟩ := advance_cases hs
  · refine ⟨h.toHolds.of_le hcs hr (floor_le_of_cursor hm hle), fun c hc => ?_⟩
    have hc₀ : c ∈ s.chunks.head? := hcs ▸ hc
    have hlt := h.first c hc₀
    cases hs : s.marks with
    | nil =>
      -- The cursor itself is the floor: it was in the first chunk and has not left it.
      rw [floor_of_none hs, hR.cursor_lt_stop_iff hc₀] at hlt
      rw [floor_of_none (hm.trans hs), hR'.cursor_lt_stop_iff hc, hi]
      exact hlt
    | cons cp cps =>
      rw [floor_of_open hs] at hlt
      rwa [floor_of_open (hm.trans hs)]
  · exact (h.toHolds.of_le hcs hr (floor_le_of_cursor hm hle)).release hrel

theorem mark (h : Retains arrived s) : Retains arrived s.mark.2 :=
  ⟨h.toHolds.of_le rfl rfl (Nat.le_of_eq s.floor_mark.symm),
    fun c hc => s.floor_mark ▸ h.first c hc⟩

/-- Closing the innermost checkpoint, with the cursor behind it or moved back to it. -/
theorem close {next : Chunked} {cp : Checkpoint} {cps : List Checkpoint} (h : Retains arrived s)
    (hs : s.marks = cp :: cps) (hcs : next.chunks = s.chunks) (hr : next.received = s.received)
    (hm : next.marks = s.marks.tail) (hle : cp.index ≤ next.cursor) (hrel : next.release = .ok s') :
    Retains arrived s' := by
  rw [hs] at hm
  exact (h.toHolds.of_le hcs hr (floor_le_of_tail hs hm hle)).release hrel

theorem commit {cp : Checkpoint} {cps : List Checkpoint} (h : Retains arrived s)
    (hm : s.marks = cp :: cps) (hle : cp.index ≤ s.cursor) (hs : s.commit cp = .ok s') :
    Retains arrived s' := by
  unfold Chunked.commit at hs
  split at hs
  · cases hs
  · refine h.close hm ?_ ?_ ?_ ?_ hs
    · rfl
    · rfl
    · rfl
    · exact hle

theorem rollback {cp : Checkpoint} {cps : List Checkpoint} (h : Retains arrived s)
    (hm : s.marks = cp :: cps) (hs : s.rollback cp = .ok s') : Retains arrived s' := by
  unfold Chunked.rollback at hs
  split at hs
  · cases hs
  · refine h.close hm ?_ ?_ ?_ ?_ hs
    · rfl
    · rfl
    · rfl
    · exact Nat.le_refl _

end Retains

/-! ## The oldest checkpoint -/

/-- The oldest of some saved cursors is the least. -/
theorem getLastD_le {a : Nat} {ks : List Nat} (h : (a :: ks).Pairwise (· ≥ ·)) :
    ∀ k ∈ a :: ks, ks.getLastD a ≤ k := by
  induction ks generalizing a with
  | nil =>
    intro k hk
    exact Nat.le_of_eq (List.mem_singleton.1 hk).symm
  | cons b ks ih =>
    obtain ⟨ha, hks⟩ := List.pairwise_cons.1 h
    intro k hk
    rw [List.getLastD_cons]
    rcases List.mem_cons.1 hk with rfl | hk
    · exact Nat.le_trans (ih hks b (by simp)) (ha b (by simp))
    · exact ih hks k hk

theorem index_of_mem_recordsAbove {text : List Char} {depth : Nat} {ks : List Nat} {cp : Checkpoint}
    (h : cp ∈ Tape.recordsAbove text depth ks) : ∃ k ∈ ks, cp.index = Tape.offsetAt text k := by
  induction ks with
  | nil => cases h
  | cons k ks ih =>
    rcases List.mem_cons.1 h with rfl | h
    · exact ⟨k, by simp, rfl⟩
    · obtain ⟨l, hl, hcp⟩ := ih h
      exact ⟨l, List.mem_cons_of_mem _ hl, hcp⟩

/-- No open checkpoint lies in front of the floor. -/
theorem Represents.floor_le_index (h : s.Represents t) {cp : Checkpoint} (hcp : cp ∈ s.marks) :
    s.floor ≤ cp.index := by
  rw [h.marks] at hcp
  obtain ⟨k, hk, hi⟩ := index_of_mem_recordsAbove hcp
  rw [h.floor, hi]
  exact Text.byteCount_take_le t.text (getLastD_le h.valid.nested k (List.mem_cons_of_mem _ hk))

/-! ## Runs -/

/-- The checkpoints that a reader has open are those of the input. -/
theorem marks_of_alike {c : Client Chunked} {d : Client Tape} (h : Alike Represents c d) :
    c.input.marks = c.opened := by
  rw [h.input.marks, h.records, h.opened]

/-- A permitted step keeps exactly the chunks that a later read can reach. -/
theorem retains_act {c c' : Client Chunked} {d d' : Client Tape} {a : Act} {reply : Reply}
    (h : Alike Represents c d) (h' : Alike Represents c' d') (hp : a.Permitted c)
    (ha : a.run c = .ok (reply, c')) (hr : Retains arrived c.input) :
    Retains (arrived ++ arrivals c.input.received a.text?.toList) c'.input := by
  have hkeep : arrived ++ arrivals c.input.received [] = arrived := List.append_nil _
  have hinnermost : ∀ cp, c.opened.head? = some cp → ∃ cps, c.input.marks = cp :: cps := by
    intro cp hcp
    rw [marks_of_alike h]
    exact List.head?_eq_some_iff.1 hcp
  cases a with
  | push text =>
    obtain ⟨s, hs, rfl⟩ := ok_of_map ha
    exact hr.push h.input hs
  | finish =>
    cases ha
    show Retains (arrived ++ arrivals _ []) c.input.finish
    rw [hkeep]
    exact ⟨⟨hr.gone, hr.received⟩, hr.first⟩
  | use u =>
    show Retains (arrived ++ arrivals _ []) c'.input
    rw [hkeep]
    cases u with
    | peek =>
      rw [Act.run, Use.run, peek_of_follows follows h.input] at ha
      cases ha
      exact hr
    | mark =>
      cases ha
      exact hr.mark
    | advance =>
      obtain ⟨s, hs, rfl⟩ := ok_of_map ha
      exact hr.advance h.input h'.input hs
    | commit cp =>
      obtain ⟨s, hs, rfl⟩ := ok_of_map ha
      obtain ⟨cps, hm⟩ := hinnermost cp hp
      obtain ⟨k, ks, hk, rfl, -⟩ := h.innermost hp
      have hle : k ≤ d.input.cursor := h.input.valid.saved_le (by simp [hk])
      refine hr.commit hm ?_ hs
      rw [h.input.cursor]
      exact Text.byteCount_take_le _ hle
    | rollback cp =>
      obtain ⟨s, hs, rfl⟩ := ok_of_map ha
      obtain ⟨cps, hm⟩ := hinnermost cp hp
      exact hr.rollback hm hs

/-- A run that keeps to the contract keeps exactly the chunks that a later read can reach. -/
theorem retains_replay {acts : List Act} {c : Client Chunked} {d : Client Tape}
    (h : Alike Represents c d) (hk : Keeps Act.run Act.Permitted acts c)
    (hr : Retains arrived c.input) :
    ∃ answers c' d', replay Act.run Act.view acts c = .ok (answers, c') ∧ Alike Represents c' d' ∧
      Retains (arrived ++ arrivals c.input.received (pushed acts)) c'.input := by
  induction acts generalizing c d arrived with
  | nil => exact ⟨[], c, d, rfl, h, by simpa [pushed, arrivals] using hr⟩
  | cons a acts ih =>
    obtain ⟨hp, hnext⟩ := hk
    obtain ⟨reply, c₁, d₁, hc, -, h₁⟩ := act_alike h hp
    obtain ⟨seen, hv, -⟩ := view_alike h₁
    have hr₁ := retains_act h h₁ hp hc hr
    obtain ⟨answers, c', d', hrun, h', hr'⟩ := ih h₁ (hnext reply c₁ hc) hr₁
    refine ⟨(reply, seen) :: answers, c', d', replay_cons_ok hc hv hrun, h', ?_⟩
    have hreceived : c₁.input.received =
        c.input.received + bytes (arrivals c.input.received a.text?.toList) := by
      rw [hr₁.received, bytes_append, hr.received]
    rwa [pushed_cons, arrivals_append, ← List.append_assoc, ← hreceived]

/-- The least offset that a later read can reach, as the reader knows it: that of its oldest open
checkpoint, or else where it is. -/
def oldestInUse (c : Client Chunked) : Nat :=
  (c.opened.getLast?.map (·.index)).getD c.input.cursor

/-- An input received in chunks holds what can still be read and nothing else. As long as its
contract is kept, the chunks held are exactly those of the texts added that end behind the oldest
place in use, in the order in which they came, and no open checkpoint leads to an earlier place. -/
theorem replay_retains_exactly (acts : List Act)
    (hk : Keeps Act.run Act.Permitted acts ⟨Chunked.empty, []⟩) : ∃ answers c,
      replay Act.run Act.view acts ⟨Chunked.empty, []⟩ = .ok (answers, c) ∧
      c.input.chunks = (arrivals 0 (pushed acts)).filter (oldestInUse c < ·.stop) ∧
      c.input.retainedBytes =
        (c.input.chunks.head?.map (c.input.received - ·.start)).getD 0 ∧
      c.input.received = (String.join (pushed acts)).utf8ByteSize ∧
      oldestInUse c ≤ c.input.cursor ∧ ∀ cp ∈ c.opened, oldestInUse c ≤ cp.index := by
  have hstart : Alike Represents ⟨Chunked.empty, []⟩ ⟨Tape.blank, []⟩ :=
    ⟨represents_empty, rfl, rfl⟩
  have hnone : Retains [] Chunked.empty := ⟨⟨⟨[], rfl, by simp⟩, rfl⟩, by simp [Chunked.empty]⟩
  obtain ⟨answers, c, d, hrun, h, hr⟩ := retains_replay hstart hk hnone
  have ht := tiled_arrivals 0 (pushed acts)
  have hfloor : oldestInUse c = c.input.floor := by
    rw [oldestInUse, Chunked.floor, marks_of_alike h]
    cases c.opened.getLast? <;> rfl
  refine ⟨answers, c, hrun, ?_, hr.retainedBytes_eq ht, ?_, ?_, fun cp hcp => ?_⟩
  · rw [hfloor]
    exact hr.chunks_eq ht
  · rw [hr.received]
    exact bytes_arrivals 0 _
  · rw [hfloor, h.input.floor, h.input.cursor]
    exact Text.byteCount_take_le _ h.input.valid.floor_le
  · rw [hfloor]
    exact h.input.floor_le_index (by rwa [marks_of_alike h])

/-- The cursor has left two chunks behind, and a checkpoint in the first of them holds both back. -/
def heldBack : List Act :=
  [.push "né", .use .advance, .use .mark, .use .advance, .push "", .push "e", .use .advance,
    .push "s"]

theorem replay_retains_exactly_heldBack : ∃ answers c,
    replay Act.run Act.view heldBack ⟨Chunked.empty, []⟩ = .ok (answers, c) ∧
      c.input.chunks = (arrivals 0 ["né", "", "e", "s"]).filter (oldestInUse c < ·.stop) ∧
      c.input.retainedBytes = (c.input.chunks.head?.map (c.input.received - ·.start)).getD 0 := by
  have hk : Keeps Act.run Act.Permitted heldBack ⟨Chunked.empty, []⟩ :=
    keeps_cons rfl rfl <| keeps_cons ⟨'n', rfl⟩ rfl <| keeps_cons trivial rfl <|
    keeps_cons ⟨'é', rfl⟩ rfl <| keeps_cons rfl rfl <| keeps_cons rfl rfl <|
    keeps_cons ⟨'e', rfl⟩ rfl <| keeps_cons rfl rfl trivial
  obtain ⟨answers, c, hrun, hchunks, hbytes, -⟩ := replay_retains_exactly heldBack hk
  exact ⟨answers, c, hrun, hchunks, hbytes⟩

end Chunked

end PegStream
