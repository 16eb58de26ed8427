import PegStream.Input.Source
import PegStream.Text.Slice

/-!
# Tapes

A `Tape` is the plainest input there is: the whole text received so far, a cursor in it and a stack
of saved cursors, all counted in characters. Nothing is ever released, and the only checkpoint that
can be closed is the very one that was opened last.

Both kinds of input are compared with tapes, and what a match does is worked out on tapes:

* `Tape.commit_cons`, `Tape.rollback_cons`: closing the innermost checkpoint;
* `Tape.Valid`: the saved cursors lie behind one another, and all inside the text;
* `Tape.offsetAt_lt_iff`: byte offsets are ordered as the cursors are;
* `Tape.floor`: the oldest place that a later read can reach.
-/

namespace PegStream

/-! ## Bytes of a beginning -/

namespace Text

theorem byteCount_take_le (cs : List Char) {i j : Nat} (h : i ≤ j) :
    byteCount (cs.take i) ≤ byteCount (cs.take j) := by
  obtain ⟨d, rfl⟩ := Nat.exists_eq_add_of_le h
  rw [List.take_add, byteCount_append]
  exact Nat.le_add_right _ _

theorem byteCount_take_lt {cs : List Char} {i j : Nat} (h : i < j) (hi : i < cs.length) :
    byteCount (cs.take i) < byteCount (cs.take j) := by
  have hc := (cs.get ⟨i, hi⟩).utf8Size_pos
  have hs : byteCount (cs.take (i + 1)) = byteCount (cs.take i) + (cs.get ⟨i, hi⟩).utf8Size := by
    rw [List.take_succ_eq_append_getElem hi, byteCount_append, byteCount_cons, byteCount_nil]
    rfl
  have hle := byteCount_take_le cs (show i + 1 ≤ j from h)
  omega

/-- Beginnings of a text are ordered by their bytes as by their characters. -/
theorem byteCount_take_lt_iff {cs : List Char} {i j : Nat} (hj : j ≤ cs.length) :
    byteCount (cs.take i) < byteCount (cs.take j) ↔ i < j := by
  constructor
  · intro h
    refine Nat.lt_of_not_le fun hn => ?_
    have := byteCount_take_le cs hn
    omega
  · intro h
    exact byteCount_take_lt h (by omega)

end Text

/-! ## The input -/

/-- A text that may still grow, with a cursor and the cursors saved. -/
structure Tape where
  text : List Char
  /-- How many characters stand before the cursor. -/
  cursor : Nat := 0
  /-- The saved cursors, the innermost first. -/
  saved : List Nat := []
  /-- Whether the text is complete. -/
  final : Bool

namespace Tape

/-- The number of bytes before a place in a text. -/
def offsetAt (text : List Char) (k : Nat) : Nat := Text.byteCount (text.take k)

/-- The line and column of a place in a text. -/
def positionAt (text : List Char) (k : Nat) : Position := Position.start.advanceAll (text.take k)

/-- The checkpoint that saves the place `k` on top of `depth` others. -/
def record (text : List Char) (k depth : Nat) : Checkpoint :=
  ⟨offsetAt text k, positionAt text k, depth⟩

/-- The checkpoints of some saved places, with `depth` others below. -/
def recordsAbove (text : List Char) (depth : Nat) : List Nat → List Checkpoint
  | [] => []
  | k :: ks => record text k (depth + ks.length) :: recordsAbove text depth ks

/-- The open checkpoints. -/
def records (t : Tape) : List Checkpoint := recordsAbove t.text 0 t.saved

/-- The text after the cursor. -/
def rest (t : Tape) : List Char := t.text.drop t.cursor

def advance (t : Tape) : Except Fault Tape :=
  if t.cursor < t.text.length then .ok { t with cursor := t.cursor + 1 }
  else .error (.advancePastEnd .chunked)

def mark (t : Tape) : Checkpoint × Tape :=
  (record t.text t.cursor t.saved.length, { t with saved := t.cursor :: t.saved })

def rollback (cp : Checkpoint) (t : Tape) : Except Fault Tape :=
  match t.saved with
  | [] => .error (.rollbackOutOfOrder .chunked)
  | k :: ks =>
    if cp = record t.text k ks.length then .ok { t with cursor := k, saved := ks }
    else .error (.rollbackOutOfOrder .chunked)

def commit (cp : Checkpoint) (t : Tape) : Except Fault Tape :=
  match t.saved with
  | [] => .error (.commitOutOfOrder .chunked)
  | k :: ks =>
    if cp = record t.text k ks.length then .ok { t with saved := ks }
    else .error (.commitOutOfOrder .chunked)

instance : Source Tape where
  peek t := .ok t.rest.head?
  advance := advance
  isFinal := final
  offset t := offsetAt t.text t.cursor
  position t := positionAt t.text t.cursor
  mark := mark
  rollback := rollback
  commit := commit
  openMarks t := t.saved.length

/-! ## What the operations give -/

@[simp] theorem peek_eq (t : Tape) : Source.peek t = .ok t.rest.head? := rfl
@[simp] theorem isFinal_eq (t : Tape) : Source.isFinal t = t.final := rfl
@[simp] theorem offset_eq (t : Tape) : Source.offset t = offsetAt t.text t.cursor := rfl
@[simp] theorem mark_eq (t : Tape) :
    Source.mark t =
      (record t.text t.cursor t.saved.length, { t with saved := t.cursor :: t.saved }) := rfl

theorem rest_eq_cons {t : Tape} {c : Char} (h : t.rest.head? = some c) :
    t.cursor < t.text.length ∧ t.rest = c :: t.text.drop (t.cursor + 1) := by
  have hl : t.cursor < t.text.length := by
    refine Nat.lt_of_not_le fun hn => ?_
    rw [rest, List.drop_eq_nil_of_le hn] at h
    cases h
  rw [rest, List.drop_eq_getElem_cons hl] at h ⊢
  cases h
  exact ⟨hl, rfl⟩

theorem advance_eq {t : Tape} {c : Char} (h : t.rest.head? = some c) :
    Source.advance t = .ok { t with cursor := t.cursor + 1 } :=
  if_pos (rest_eq_cons h).1

theorem commit_cons {t : Tape} {k : Nat} {ks : List Nat} (h : t.saved = k :: ks) :
    Source.commit (record t.text k ks.length) t = .ok { t with saved := ks } := by
  change t.commit _ = _
  simp only [commit, h, if_true]

theorem rollback_cons {t : Tape} {k : Nat} {ks : List Nat} (h : t.saved = k :: ks) :
    Source.rollback (record t.text k ks.length) t = .ok { t with cursor := k, saved := ks } := by
  change t.rollback _ = _
  simp only [rollback, h, if_true]

/-- A commit that goes through closes the innermost checkpoint. -/
theorem commit_ok {t t' : Tape} {cp : Checkpoint} (h : t.commit cp = .ok t') :
    ∃ k ks, t.saved = k :: ks ∧ cp = record t.text k ks.length ∧ t' = { t with saved := ks } := by
  unfold commit at h
  split at h
  · cases h
  · rename_i k ks hs
    split at h
    · rename_i hc
      cases h
      exact ⟨k, ks, hs, hc, rfl⟩
    · cases h

/-- A rollback that goes through closes the innermost checkpoint and returns to it. -/
theorem rollback_ok {t t' : Tape} {cp : Checkpoint} (h : t.rollback cp = .ok t') :
    ∃ k ks, t.saved = k :: ks ∧ cp = record t.text k ks.length ∧
      t' = { t with cursor := k, saved := ks } := by
  unfold rollback at h
  split at h
  · cases h
  · rename_i k ks hs
    split at h
    · rename_i hc
      cases h
      exact ⟨k, ks, hs, hc, rfl⟩
    · cases h

/-- An advance that goes through reads a character. -/
theorem advance_ok {t t' : Tape} (h : t.advance = .ok t') :
    ∃ c, t.rest.head? = some c ∧ t' = { t with cursor := t.cursor + 1 } := by
  unfold advance at h
  split at h
  · rename_i hl
    cases h
    rw [rest, List.head?_drop]
    exact ⟨_, List.getElem?_eq_getElem hl, rfl⟩
  · cases h

/-! ## Valid tapes -/

/-- The cursor is inside the text, and no saved cursor lies ahead of it or of an inner one. -/
structure Valid (t : Tape) : Prop where
  inside : t.cursor ≤ t.text.length
  nested : (t.cursor :: t.saved).Pairwise (· ≥ ·)

namespace Valid

variable {t t' : Tape} {cp : Checkpoint}

theorem saved_le (h : t.Valid) {k : Nat} (hk : k ∈ t.saved) : k ≤ t.cursor :=
  (List.pairwise_cons.1 h.nested).1 k hk

theorem advance (h : t.Valid) (ht : t.advance = .ok t') : t'.Valid := by
  obtain ⟨c, hr, rfl⟩ := advance_ok ht
  obtain ⟨hc, hs⟩ := List.pairwise_cons.1 h.nested
  exact ⟨(rest_eq_cons hr).1, List.pairwise_cons.2 ⟨fun k hk => Nat.le_succ_of_le (hc k hk), hs⟩⟩

theorem mark (h : t.Valid) : t.mark.2.Valid := by
  refine ⟨h.inside, List.pairwise_cons.2 ⟨fun k hk => ?_, h.nested⟩⟩
  rcases List.mem_cons.1 hk with rfl | hk
  · exact Nat.le_refl _
  · exact h.saved_le hk

theorem commit (h : t.Valid) (ht : t.commit cp = .ok t') : t'.Valid := by
  obtain ⟨k, ks, hs, -, rfl⟩ := commit_ok ht
  have hn := h.nested
  rw [hs] at hn
  exact ⟨h.inside, hn.sublist (List.Sublist.cons_cons _ (List.sublist_cons_self k ks))⟩

theorem rollback (h : t.Valid) (ht : t.rollback cp = .ok t') : t'.Valid := by
  obtain ⟨k, ks, hs, -, rfl⟩ := rollback_ok ht
  have hk := h.saved_le (k := k) (by simp [hs])
  have hn := h.nested
  rw [hs] at hn
  exact ⟨Nat.le_trans hk h.inside, (List.pairwise_cons.1 hn).2⟩

end Valid

/-! ## Offsets and checkpoints -/

theorem take_succ {cs : List Char} {k : Nat} {c : Char} (h : (cs.drop k).head? = some c) :
    cs.take (k + 1) = cs.take k ++ [c] := by
  rw [List.head?_drop] at h
  rw [List.take_add_one, h, Option.toList_some]

section Places

variable {text text' : List Char} {i j k : Nat} {ks : List Nat}

theorem offsetAt_succ {c : Char} (h : (text.drop k).head? = some c) :
    offsetAt text (k + 1) = offsetAt text k + c.utf8Size := by
  simp [offsetAt, take_succ h]

theorem positionAt_succ {c : Char} (h : (text.drop k).head? = some c) :
    positionAt text (k + 1) = (positionAt text k).advance c := by
  simp [positionAt, take_succ h, Position.advanceAll_append]

/-- Byte offsets are ordered as the places are. -/
theorem offsetAt_lt_iff (hj : j ≤ text.length) : offsetAt text i < offsetAt text j ↔ i < j :=
  Text.byteCount_take_lt_iff hj

theorem length_recordsAbove (text : List Char) (d : Nat) (ks : List Nat) :
    (recordsAbove text d ks).length = ks.length := by
  induction ks with
  | nil => rfl
  | cons k ks ih => rw [recordsAbove, List.length_cons, ih, List.length_cons]

theorem recordsAbove_append (text : List Char) (d : Nat) (ks ls : List Nat) :
    recordsAbove text d (ks ++ ls) =
      recordsAbove text (d + ls.length) ks ++ recordsAbove text d ls := by
  induction ks with
  | nil => rfl
  | cons k ks ih =>
    rw [List.cons_append, recordsAbove, recordsAbove, ih, List.cons_append, List.length_append]
    congr 2
    omega

/-- Text that comes later does not change a checkpoint. -/
theorem record_congr (h : text'.take k = text.take k) (d : Nat) :
    record text' k d = record text k d := by
  simp only [record, offsetAt, positionAt, h]

theorem recordsAbove_congr (h : ∀ k ∈ ks, text'.take k = text.take k) (d : Nat) :
    recordsAbove text' d ks = recordsAbove text d ks := by
  induction ks with
  | nil => rfl
  | cons k ks ih =>
    rw [recordsAbove, recordsAbove, record_congr (h k (by simp)),
      ih fun l hl => h l (List.mem_cons_of_mem _ hl)]

theorem getLast?_recordsAbove (text : List Char) (d : Nat) (ks : List Nat) :
    (recordsAbove text d ks).getLast? = ks.getLast?.map (record text · d) := by
  induction ks with
  | nil => rfl
  | cons k ks ih =>
    cases ks with
    | nil => rfl
    | cons l ls =>
      rw [recordsAbove, recordsAbove, List.getLast?_cons_cons, ← recordsAbove, ih,
        List.getLast?_cons_cons]

end Places

theorem records_eq_cons {t : Tape} {cp : Checkpoint} {cps : List Checkpoint}
    (h : t.records = cp :: cps) : ∃ k ks, t.saved = k :: ks ∧ record t.text k ks.length = cp ∧
      recordsAbove t.text 0 ks = cps := by
  unfold records at h
  cases hs : t.saved with
  | nil => rw [hs] at h; cases h
  | cons k ks =>
    rw [hs, recordsAbove, Nat.zero_add] at h
    obtain ⟨hcp, hcps⟩ := List.cons.inj h
    exact ⟨k, ks, rfl, hcp, hcps⟩

/-! ## Growing tapes -/

/-- A tape to which text, and in the end the end of the text, has been added. -/
structure Grows (t t' : Tape) : Prop where
  text : ∃ more, t'.text = t.text ++ more ∧ (t.final = true → more = [])
  cursor : t'.cursor = t.cursor
  saved : t'.saved = t.saved
  final : t.final = true → t'.final = true

namespace Grows

variable {t t₁ t' : Tape}

theorem refl (t : Tape) : t.Grows t :=
  ⟨⟨[], (List.append_nil _).symm, fun _ => rfl⟩, rfl, rfl, id⟩

theorem trans (h : t.Grows t₁) (h' : t₁.Grows t') : t.Grows t' := by
  obtain ⟨⟨u, hu, hn⟩, hc, hs, hf⟩ := h
  obtain ⟨⟨u', hu', hn'⟩, hc', hs', hf'⟩ := h'
  exact ⟨⟨u ++ u', by rw [hu', hu, List.append_assoc], fun h => by rw [hn h, hn' (hf h)]; rfl⟩,
    hc'.trans hc, hs'.trans hs, fun h => hf' (hf h)⟩

theorem push (h : t.Grows t₁) (hf : t₁.final = false) (more : List Char) :
    t.Grows { t₁ with text := t₁.text ++ more } := by
  obtain ⟨⟨u, hu, -⟩, hc, hs, hfin⟩ := h
  have hn : ¬ t.final = true := fun h => by rw [hfin h] at hf; cases hf
  exact ⟨⟨u ++ more, by rw [hu, List.append_assoc], fun h => absurd h hn⟩, hc, hs,
    fun h => absurd h hn⟩

theorem finish (h : t.Grows t₁) : t.Grows { t₁ with final := true } :=
  ⟨h.text, h.cursor, h.saved, fun _ => rfl⟩

/-- What stands before the cursor does not change. -/
theorem take (h : t.Grows t') (hv : t.Valid) {k : Nat} (hk : k ≤ t.cursor) :
    t'.text.take k = t.text.take k := by
  obtain ⟨more, hm, -⟩ := h.text
  rw [hm, List.take_append_of_le_length (Nat.le_trans hk hv.inside)]

theorem records (h : t.Grows t') (hv : t.Valid) : t'.records = t.records := by
  rw [Tape.records, Tape.records, h.saved]
  exact recordsAbove_congr (fun k hk => h.take hv (hv.saved_le hk)) 0

theorem valid (h : t.Grows t') (hv : t.Valid) : t'.Valid := by
  obtain ⟨more, hm, -⟩ := h.text
  refine ⟨?_, by rw [h.cursor, h.saved]; exact hv.nested⟩
  rw [h.cursor, hm, List.length_append]
  exact Nat.le_trans hv.inside (Nat.le_add_right _ _)

end Grows

/-! ## The oldest place in use -/

/-- The place of the oldest open checkpoint, or else of the cursor. -/
def floor (t : Tape) : Nat := t.saved.getLastD t.cursor

theorem Valid.floor_le {t : Tape} (h : t.Valid) : t.floor ≤ t.cursor := by
  have hm : t.floor ∈ t.cursor :: t.saved := List.getLastD_mem_cons
  rcases List.mem_cons.1 hm with he | hs
  · exact Nat.le_of_eq he
  · exact h.saved_le hs

theorem floor_of_saved {t : Tape} {k : Nat} {ks : List Nat} (hs : t.saved = k :: ks) :
    t.floor = ks.getLastD k := by
  rw [floor, hs, List.getLastD_cons]

/-- Reading on can only free text. -/
theorem floor_le_advance (t : Tape) : t.floor ≤ floor { t with cursor := t.cursor + 1 } := by
  cases hs : t.saved with
  | nil =>
    unfold floor
    rw [hs]
    exact Nat.le_succ _
  | cons k ks => exact Nat.le_of_eq (by rw [floor_of_saved hs, floor_of_saved rfl])

/-- Closing the innermost checkpoint can only free text. -/
theorem Valid.floor_le_commit {t : Tape} {k : Nat} {ks : List Nat} (h : t.Valid)
    (hs : t.saved = k :: ks) : t.floor ≤ floor { t with saved := ks } := by
  rw [floor_of_saved hs]
  cases ks with
  | nil => exact h.saved_le (by simp [hs])
  | cons l ls => exact Nat.le_of_eq (by rw [List.getLastD_cons, floor_of_saved rfl])

end Tape

end PegStream
