import PegStream.Input.Chunked
import PegStream.Input.Whole
import PegStream.Proofs.Follow

/-!
# Inputs and the tapes they stand for

A complete text is a tape that is final from the start. An input received in chunks is a tape of all
the text ever received, of which it may have let go of a beginning that no read can reach any more:
the chunks held are the text from some place on, and that place is not ahead of the oldest place in
use (`Tape.floor`).

* `Whole.follows`, `Chunked.follows`: both kinds of input follow their tapes exactly;
* `Chunked.Represents.grows`: how the tape of an input grows;
* `Whole.Reachable.represents`, `Chunked.Reachable.represents`: every state of an input that is used
  within its contract stands for a tape.
-/

namespace PegStream

/-! ## Complete texts -/

namespace Whole

/-- The input stands for the tape. -/
structure Represents (s : Whole) (t : Tape) : Prop where
  text : s.text = String.ofList t.text
  final : t.final = true
  cursor : s.cursor = Tape.offsetAt t.text t.cursor
  position : s.position = Tape.positionAt t.text t.cursor
  marks : s.marks = t.saved.length
  valid : t.Valid

variable {s : Whole} {t : Tape}

theorem represents_ofString (text : String) :
    (ofString text).Represents { text := text.toList, final := true } where
  text := String.ofList_toList.symm
  final := rfl
  cursor := rfl
  position := rfl
  marks := rfl
  valid := ⟨Nat.zero_le _, by simp⟩

theorem Represents.peek (h : s.Represents t) : s.peek = .ok t.rest.head? := by
  have hc := Text.charAt_append (t.text.take t.cursor) (t.text.drop t.cursor)
  rw [List.take_append_drop] at hc
  rw [Whole.peek, h.text, h.cursor]
  exact hc

/-- The text after the cursor. -/
theorem Represents.remaining (h : s.Represents t) : s.remaining = String.ofList t.rest := by
  have hd := Text.dropBytes_append (t.text.take t.cursor) (t.text.drop t.cursor)
  rw [List.take_append_drop] at hd
  rw [Whole.remaining, h.text, h.cursor]
  exact hd

theorem follows : Follows True Represents where
  peek h hc := by rw [← hc]; exact h.peek
  ended h hc _ := ⟨by rw [← hc]; exact h.peek, rfl⟩
  waits _ h _ hf := by rw [h.final] at hf; cases hf
  offset h := h.cursor
  advance := by
    intro s t t' h ht
    have hv := h.valid.advance ht
    obtain ⟨c, hc, rfl⟩ := Tape.advance_ok ht
    refine ⟨{ s with cursor := s.cursor + c.utf8Size, position := s.position.advance c }, ?_,
      h.text, h.final, ?_, ?_, h.marks, hv⟩
    · change s.advance = _
      rw [Whole.advance, h.peek, hc]
      rfl
    · exact (congrArg (· + c.utf8Size) h.cursor).trans (Tape.offsetAt_succ hc).symm
    · exact (congrArg (·.advance c) h.position).trans (Tape.positionAt_succ hc).symm
  mark := by
    intro s t h
    refine ⟨{ s with marks := s.marks + 1 }, ?_, h.text, h.final, h.cursor, h.position, ?_,
      h.valid.mark⟩
    · change s.mark = _
      rw [Whole.mark, h.cursor, h.position, h.marks]
      rfl
    · exact congrArg (· + 1) h.marks
  commit := by
    intro s t t' cp h ht
    have hv := h.valid.commit ht
    obtain ⟨k, ks, hs, rfl, rfl⟩ := Tape.commit_ok ht
    have hm : s.marks = ks.length + 1 := by rw [h.marks, hs, List.length_cons]
    refine ⟨{ s with marks := ks.length }, ?_, h.text, h.final, h.cursor, h.position, rfl, hv⟩
    change s.commit _ = _
    rw [Whole.commit, if_neg (by rw [hm]; exact fun hn => hn rfl)]
    rfl
  rollback := by
    intro s t t' cp h ht
    have hv := h.valid.rollback ht
    obtain ⟨k, ks, hs, rfl, rfl⟩ := Tape.rollback_ok ht
    have hm : s.marks = ks.length + 1 := by rw [h.marks, hs, List.length_cons]
    refine ⟨{ s with
      cursor := Tape.offsetAt t.text k
      position := Tape.positionAt t.text k
      marks := ks.length }, ?_, h.text, h.final, rfl, rfl, rfl, hv⟩
    change s.rollback _ = _
    rw [Whole.rollback, if_neg (by rw [hm]; exact Nat.not_succ_le_self _),
      if_neg (by rw [hm]; exact fun hn => hn rfl)]
    rfl

end Whole

/-! ## Chunks in a row -/

namespace Chunked

open Tape (offsetAt offsetAt_lt_iff)

/-- The text of some chunks. -/
def heldText (cs : List Chunk) : List Char := cs.flatMap (·.text.toList)

@[simp] theorem heldText_nil : heldText [] = [] := rfl

@[simp] theorem heldText_cons (c : Chunk) (cs : List Chunk) :
    heldText (c :: cs) = c.text.toList ++ heldText cs := rfl

@[simp] theorem heldText_append (cs ds : List Chunk) :
    heldText (cs ++ ds) = heldText cs ++ heldText ds := List.flatMap_append

/-- The chunks are not empty and follow one another from a given byte on. -/
def Tiled (start : Nat) : List Chunk → Prop
  | [] => True
  | c :: cs => c.start = start ∧ c.text.toList ≠ [] ∧ Tiled c.stop cs

/-- The chunks hold the text of the tape from the place `r` on; the place `k` is behind the chunks
`before` and, if any chunk is left, in the first one of `after`. -/
structure Layout (text : List Char) (r k : Nat) (before after : List Chunk) : Prop where
  held : text.drop r = heldText (before ++ after)
  tiled : Tiled (offsetAt text r) (before ++ after)
  passed : r + (heldText before).length ≤ k
  ahead : ∀ c ∈ after.head?, k < r + (heldText before).length + c.text.toList.length

variable {text : List Char} {r k : Nat} {c : Chunk} {cs before after : List Chunk}

theorem drop_of_cons (h : text.drop r = heldText (c :: cs)) :
    text.drop (r + c.text.toList.length) = heldText cs := by
  rw [← List.drop_drop, h, heldText_cons, List.drop_left]

theorem length_of_cons (h : text.drop r = heldText (c :: cs)) (hc : c.text.toList ≠ []) :
    r + c.text.toList.length ≤ text.length := by
  have hl := congrArg List.length h
  have hp := List.length_pos_iff.2 hc
  rw [List.length_drop, heldText_cons, List.length_append] at hl
  omega

/-- The end of a chunk, as an offset of the tape. -/
theorem stop_eq (h : text.drop r = heldText (c :: cs)) (hc : c.start = offsetAt text r) :
    c.stop = offsetAt text (r + c.text.toList.length) := by
  rw [Chunk.stop, hc, Text.utf8ByteSize_eq, offsetAt, offsetAt, List.take_add,
    Text.byteCount_append, h, heldText_cons, List.take_left]

/-- A chunk that arrives after the others follows them. -/
theorem tiled_concat {new : String} (ht : text.drop r = heldText cs)
    (hc : Tiled (offsetAt text r) cs) (hn : new.toList ≠ []) :
    Tiled (offsetAt text r) (cs ++ [⟨new, Text.byteCount text⟩]) := by
  induction cs generalizing r with
  | nil =>
    have hr : offsetAt text r = Text.byteCount text := by
      rw [offsetAt, List.take_of_length_le (List.drop_eq_nil_iff.1 ht)]
    exact ⟨hr.symm, hn, trivial⟩
  | cons c cs ih =>
    obtain ⟨hs, hne, hcs⟩ := hc
    rw [stop_eq ht hs] at hcs
    refine ⟨hs, hne, ?_⟩
    rw [stop_eq ht hs]
    exact ih (drop_of_cons ht) hcs

namespace Layout

/-- A layout without its first chunk, which has been passed. -/
theorem uncons (h : Layout text r k (c :: before) after) :
    Layout text (r + c.text.toList.length) k before after := by
  obtain ⟨ht, ⟨hs, -, hc⟩, hp, ha⟩ := h
  rw [stop_eq ht hs] at hc
  simp only [heldText_cons, List.length_append] at hp ha
  exact ⟨drop_of_cons ht, hc, by omega, fun d hd => by have := ha d hd; omega⟩

/-- A layout with one more chunk in front. -/
theorem cons (h : Layout text (r + c.text.toList.length) k before after)
    (ht : text.drop r = heldText (c :: (before ++ after))) (hs : c.start = offsetAt text r)
    (hc : c.text.toList ≠ []) : Layout text r k (c :: before) after := by
  obtain ⟨-, htiled, hp, ha⟩ := h
  rw [← stop_eq ht hs] at htiled
  refine ⟨ht, ⟨hs, hc, htiled⟩, ?_, fun d hd => ?_⟩
  · rw [heldText_cons, List.length_append]
    omega
  · have := ha d hd
    rw [heldText_cons, List.length_append]
    omega

/-- A layout without all chunks that have been passed. -/
theorem suffix (h : Layout text r k before after) :
    Layout text (r + (heldText before).length) k [] after := by
  induction before generalizing r with
  | nil => exact h
  | cons c before ih =>
    have := ih h.uncons
    rwa [heldText_cons, List.length_append, ← Nat.add_assoc]

/-- At the end of the chunks the text received is at its end. -/
theorem rest_nil (h : Layout text r k before []) : text.drop k = [] := by
  have hs := h.suffix
  have hl := congrArg List.length hs.held
  rw [List.length_drop, List.append_nil, heldText_nil, List.length_nil] at hl
  have := h.passed
  exact List.drop_eq_nil_of_le (by omega)

/-- The place `k` in the chunk that covers it: the beginning of the chunk up to `k`, and the rest,
which is where the text goes on. -/
theorem split (h : Layout text r k before (c :: after)) :
    ∃ a b, c.text.toList = a ++ b ∧ b ≠ [] ∧ k = r + (heldText before).length + a.length ∧
      offsetAt text k = c.start + Text.byteCount a ∧ text.drop k = b ++ heldText after := by
  obtain ⟨ht, ⟨hs, -, -⟩, hp, ha⟩ := h.suffix
  generalize r + (heldText before).length = q at *
  simp only [heldText_nil, List.length_nil, Nat.add_zero, List.nil_append] at ht hs hp ha
  obtain ⟨d, rfl⟩ := Nat.exists_eq_add_of_le hp
  have hd : d < c.text.toList.length := by have := ha c rfl; omega
  refine ⟨c.text.toList.take d, c.text.toList.drop d, (List.take_append_drop ..).symm, ?_, ?_, ?_,
    ?_⟩
  · exact fun hn => by have := List.drop_eq_nil_iff.1 hn; omega
  · rw [List.length_take]
    omega
  · rw [hs, offsetAt, offsetAt, List.take_add, Text.byteCount_append, ht, heldText_cons,
      List.take_append_of_le_length (by omega)]
  · rw [← List.drop_drop, ht, heldText_cons, List.drop_append_of_le_length (by omega)]

/-- The place after `k`, in the same chunk. -/
theorem within (h : Layout text r k before (c :: after))
    (hk : k + 1 < r + (heldText before).length + c.text.toList.length) :
    Layout text r (k + 1) before (c :: after) :=
  ⟨h.held, h.tiled, Nat.le_succ_of_le h.passed, fun d hd => by cases hd; exact hk⟩

/-- The place after `k`, at the end of its chunk. -/
theorem across (h : Layout text r k before (c :: after))
    (hk : k + 1 = r + (heldText before).length + c.text.toList.length) :
    Layout text r (k + 1) (before ++ [c]) after := by
  have hlen : (heldText (before ++ [c])).length =
      (heldText before).length + c.text.toList.length := by simp
  refine ⟨?_, ?_, by omega, fun d hd => ?_⟩
  · rw [h.held, List.append_assoc, List.singleton_append]
  · rw [List.append_assoc, List.singleton_append]
    exact h.tiled
  · obtain ⟨-, ⟨-, -, htiled⟩, -, -⟩ := h.suffix
    cases after with
    | nil => cases hd
    | cons e after =>
      cases hd
      have := List.length_pos_iff.2 htiled.2.1
      omega

/-- The layout after one more chunk has arrived. -/
theorem push {new : String} (h : Layout text r k before after) (hr : r ≤ text.length)
    (hk : k ≤ text.length) (hn : new.toList ≠ []) :
    Layout (text ++ new.toList) r k before (after ++ [⟨new, Text.byteCount text⟩]) := by
  refine ⟨?_, ?_, h.passed, fun d hd => ?_⟩
  · rw [List.drop_append_of_le_length hr, h.held, ← List.append_assoc,
      heldText_append (before ++ after), heldText_cons, heldText_nil, List.append_nil]
  · rw [offsetAt, List.take_append_of_le_length hr, ← List.append_assoc]
    exact tiled_concat h.held h.tiled hn
  · cases after with
    | nil =>
      have hl := congrArg List.length h.held
      have hp := List.length_pos_iff.2 hn
      rw [List.length_drop, List.append_nil] at hl
      cases hd
      change k < r + (heldText before).length + new.toList.length
      omega
    | cons c after => exact h.ahead d hd

/-- A place from the beginning of the chunks on, found by its offset. -/
theorem locate (ht : text.drop r = heldText cs) (hc : Tiled (offsetAt text r) cs) (hr : r ≤ k) :
    ∃ before after, cs = before ++ after ∧
      cs.findIdx (·.covers (offsetAt text k)) = before.length ∧ Layout text r k before after := by
  induction cs generalizing r with
  | nil => exact ⟨[], [], rfl, rfl, ht, hc, hr, by simp⟩
  | cons c cs ih =>
    obtain ⟨hs, hne, hcs⟩ := hc
    have hstop := stop_eq ht hs
    have hl := length_of_cons ht hne
    rcases Nat.lt_or_ge k (r + c.text.toList.length) with hlt | hge
    · have hcov : c.covers (offsetAt text k) = true := by
        have h₁ := Text.byteCount_take_le text hr
        have h₂ := (offsetAt_lt_iff (i := k) hl).2 hlt
        rw [Chunk.covers, hs, hstop, Bool.and_eq_true, decide_eq_true_iff, decide_eq_true_iff]
        exact ⟨h₁, h₂⟩
      refine ⟨[], c :: cs, rfl, ?_, ht, ⟨hs, hne, hcs⟩, hr, ?_⟩
      · rw [List.findIdx_cons, hcov]
        rfl
      · simpa using hlt
    · have hcov : c.covers (offsetAt text k) = false := by
        have := Text.byteCount_take_le text hge
        rw [Chunk.covers, hstop, Bool.and_eq_false_iff, decide_eq_false_iff_not,
          decide_eq_false_iff_not]
        exact .inr (Nat.not_lt.2 this)
      obtain ⟨before, after, rfl, hi, hlay⟩ := ih (drop_of_cons ht) (hstop ▸ hcs) hge
      refine ⟨c :: before, after, rfl, ?_, hlay.cons ht hs hne⟩
      rw [List.findIdx_cons, hcov, hi]
      rfl

/-- Letting go of chunks keeps the ones from the place `j` on. -/
theorem release {j : Nat} (h : Layout text r k before after) (hr : r ≤ j) (hj : j ≤ k) :
    ∃ r' before', r' ≤ j ∧
      dropPassed (offsetAt text j) (before ++ after) before.length =
        .ok (before' ++ after, before'.length) ∧ Layout text r' k before' after := by
  induction before generalizing r with
  | nil =>
    refine ⟨r, [], hr, ?_, h⟩
    cases after with
    | nil => rfl
    | cons c after =>
      have hlt : offsetAt text j < c.stop := by
        have := h.ahead c rfl
        rw [heldText_nil, List.length_nil, Nat.add_zero] at this
        rw [stop_eq h.held h.tiled.1, offsetAt_lt_iff (length_of_cons h.held h.tiled.2.1)]
        omega
      exact if_pos hlt
  | cons c before ih =>
    rw [List.cons_append, List.length_cons, dropPassed]
    split
    · exact ⟨r, c :: before, hr, rfl, h⟩
    · rename_i hn
      refine ih h.uncons ?_
      rw [stop_eq h.held h.tiled.1, offsetAt_lt_iff (length_of_cons h.held h.tiled.2.1)] at hn
      omega

end Layout

/-! ## Inputs received in chunks -/

/-- The input stands for the tape of all the text it has received. -/
structure Represents (s : Chunked) (t : Tape) : Prop where
  layout : ∃ r before after, r ≤ t.floor ∧ s.chunks = before ++ after ∧
    s.current = before.length ∧ Layout t.text r t.cursor before after
  cursor : s.cursor = offsetAt t.text t.cursor
  position : s.position = Tape.positionAt t.text t.cursor
  received : s.received = Text.byteCount t.text
  marks : s.marks = t.records
  finished : s.finished = t.final
  valid : t.Valid

theorem represents_empty : empty.Represents { text := [], final := false } where
  layout := ⟨0, [], [], Nat.le_refl 0, rfl, rfl, rfl, trivial, Nat.le_refl 0, by simp⟩
  cursor := rfl
  position := rfl
  received := rfl
  marks := rfl
  finished := rfl
  valid := ⟨Nat.le_refl 0, by simp⟩

namespace Represents

variable {s : Chunked} {t : Tape}

theorem floor (h : s.Represents t) : s.floor = offsetAt t.text t.floor := by
  rw [Chunked.floor, h.marks, Tape.records, Tape.getLast?_recordsAbove, Tape.floor,
    List.getLastD_eq_getLast?]
  cases t.saved.getLast? with
  | none => exact h.cursor
  | some k => rfl

theorem release (h : s.Represents t) : ∃ s', s.release = .ok s' ∧ s'.Represents t := by
  obtain ⟨r, before, after, hr, hc, hi, hlay⟩ := h.layout
  obtain ⟨r', before', hr', hd, hlay'⟩ := hlay.release hr h.valid.floor_le
  refine ⟨{ s with chunks := before' ++ after, current := before'.length }, ?_,
    ⟨r', before', after, hr', rfl, rfl, hlay'⟩, h.cursor, h.position, h.received, h.marks,
    h.finished, h.valid⟩
  rw [Chunked.release, h.floor, hc, hi, hd]
  rfl

theorem peek (h : s.Represents t) : s.peek = .ok t.rest.head? := by
  obtain ⟨r, before, after, -, hc, hi, hlay⟩ := h.layout
  have hget : s.chunks[s.current]? = after.head? := by
    rw [hc, hi, List.getElem?_append_right (Nat.le_refl _), Nat.sub_self, List.head?_eq_getElem?]
  rw [Chunked.peek, hget]
  cases after with
  | nil => rw [Tape.rest, hlay.rest_nil]; rfl
  | cons c after =>
    obtain ⟨a, b, hab, hb, -, ho, hd⟩ := hlay.split
    have htext : c.text = String.ofList (a ++ b) := by rw [← hab, String.ofList_toList]
    have hhead : t.rest.head? = b.head? := by
      rw [Tape.rest, hd, List.head?_append]
      cases b with
      | nil => exact absurd rfl hb
      | cons d b => rfl
    rw [List.head?_cons, h.cursor, ho, hhead]
    simp only [Nat.add_sub_cancel_left, htext]
    rw [if_neg (by omega)]
    exact Text.charAt_append a b

theorem advance {t' : Tape} (h : s.Represents t) (ht : t.advance = .ok t') :
    ∃ s', s.advance = .ok s' ∧ s'.Represents t' := by
  have hv := h.valid.advance ht
  obtain ⟨d, hd, rfl⟩ := Tape.advance_ok ht
  obtain ⟨r, before, after, hr, hc, hi, hlay⟩ := h.layout
  have hpos : (s.position.advance d) = Tape.positionAt t.text (t.cursor + 1) := by
    rw [h.position, Tape.positionAt_succ hd]
  have hcur : s.cursor + d.utf8Size = offsetAt t.text (t.cursor + 1) := by
    rw [h.cursor, Tape.offsetAt_succ hd]
  have hfloor := Nat.le_trans hr t.floor_le_advance
  cases after with
  | nil => rw [Tape.rest, hlay.rest_nil] at hd; cases hd
  | cons c after =>
    have hget : s.chunks[s.current]? = some c := by
      rw [hc, hi, List.getElem?_append_right (Nat.le_refl _), Nat.sub_self]
      rfl
    obtain ⟨a, b, hab, hb, hk, ho, hrest⟩ := hlay.split
    obtain ⟨b, rfl⟩ : ∃ b', b = d :: b' := by
      cases b with
      | nil => exact absurd rfl hb
      | cons e b => rw [Tape.rest, hrest] at hd; cases hd; exact ⟨b, rfl⟩
    have hstop : c.stop = s.cursor + d.utf8Size + Text.byteCount b := by
      rw [Chunk.stop, Text.utf8ByteSize_eq, hab, Text.byteCount_append, Text.byteCount_cons,
        h.cursor, ho]
      omega
    have hlen : c.text.toList.length = a.length + b.length + 1 := by
      rw [hab, List.length_append, List.length_cons, Nat.add_assoc]
    have hadv : s.advance = if s.cursor + d.utf8Size = c.stop then
        Chunked.release { s with
          cursor := s.cursor + d.utf8Size
          position := s.position.advance d
          current := s.current + 1 }
        else .ok { s with
          cursor := s.cursor + d.utf8Size
          position := s.position.advance d } := by
      rw [Chunked.advance, h.peek, hget, hd]
      rfl
    rw [hadv]
    cases b with
    | nil =>
      rw [if_pos (by rw [hstop]; rfl)]
      refine Represents.release ⟨⟨r, before ++ [c], after, hfloor, ?_, ?_, ?_⟩,
        hcur, hpos, h.received, h.marks, h.finished, hv⟩
      · rw [hc, List.append_assoc, List.singleton_append]
      · rw [List.length_append, hi]
        rfl
      · exact hlay.across (by rw [hlen, List.length_nil]; omega)
    | cons e b =>
      have he := e.utf8Size_pos
      rw [if_neg (by rw [hstop, Text.byteCount_cons]; omega)]
      exact ⟨_, rfl, ⟨r, before, c :: after, hfloor, hc, hi,
        hlay.within (by rw [hlen, List.length_cons]; omega)⟩, hcur, hpos, h.received, h.marks,
        h.finished, hv⟩

theorem mark (h : s.Represents t) :
    ∃ s', s.mark = (t.mark.1, s') ∧ s'.Represents t.mark.2 := by
  obtain ⟨r, before, after, hr, hc, hi, hlay⟩ := h.layout
  have hcp : (⟨s.cursor, s.position, s.marks.length⟩ : Checkpoint) = t.mark.1 := by
    rw [h.cursor, h.position, h.marks, Tape.records, Tape.length_recordsAbove]
    rfl
  have hfloor : Tape.floor t.mark.2 = t.floor := List.getLastD_cons
  refine ⟨{ s with marks := t.mark.1 :: s.marks }, ?_,
    ⟨r, before, after, hfloor ▸ hr, hc, hi, hlay⟩, h.cursor, h.position, h.received, ?_, h.finished,
    h.valid.mark⟩
  · rw [Chunked.mark, hcp]
  · change t.mark.1 :: s.marks = Tape.record t.text t.cursor (0 + t.saved.length) :: t.records
    rw [h.marks, Nat.zero_add]
    rfl

/-- The innermost open checkpoint is the one that the input expects to be closed next. -/
theorem depth (h : s.Represents t) {k : Nat} {ks : List Nat} (hs : t.saved = k :: ks) :
    (Tape.record t.text k ks.length).depth + 1 = s.marks.length := by
  rw [h.marks, Tape.records, Tape.length_recordsAbove, hs]
  rfl

theorem tail_marks (h : s.Represents t) {k : Nat} {ks : List Nat} (hs : t.saved = k :: ks) :
    s.marks.tail = Tape.recordsAbove t.text 0 ks := by
  rw [h.marks, Tape.records, hs]
  rfl

theorem commit {t' : Tape} {cp : Checkpoint} (h : s.Represents t) (ht : t.commit cp = .ok t') :
    ∃ s', s.commit cp = .ok s' ∧ s'.Represents t' := by
  have hv := h.valid.commit ht
  obtain ⟨k, ks, hs, rfl, rfl⟩ := Tape.commit_ok ht
  obtain ⟨r, before, after, hr, hc, hi, hlay⟩ := h.layout
  have hfloor := Nat.le_trans hr (h.valid.floor_le_commit hs)
  rw [Chunked.commit, if_neg (fun hn => hn (h.depth hs))]
  exact Represents.release ⟨⟨r, before, after, hfloor, hc, hi, hlay⟩, h.cursor,
    h.position, h.received, h.tail_marks hs, h.finished, hv⟩

theorem rollback {t' : Tape} {cp : Checkpoint} (h : s.Represents t)
    (ht : t.rollback cp = .ok t') : ∃ s', s.rollback cp = .ok s' ∧ s'.Represents t' := by
  have hv := h.valid.rollback ht
  obtain ⟨k, ks, hs, rfl, rfl⟩ := Tape.rollback_ok ht
  obtain ⟨r, before, after, hr, hc, -, hlay⟩ := h.layout
  have hfloor : Tape.floor { t with cursor := k, saved := ks } = t.floor :=
    (Tape.floor_of_saved hs).symm
  have hk : r ≤ k := Nat.le_trans (hfloor ▸ hr) hv.floor_le
  obtain ⟨before', after', hc', hi', hlay'⟩ := Layout.locate hlay.held hlay.tiled hk
  rw [Chunked.rollback, if_neg (fun hn => hn (h.depth hs))]
  refine Represents.release ⟨⟨r, before', after', hfloor ▸ hr, hc.trans hc', ?_, hlay'⟩, rfl, rfl,
    h.received, h.tail_marks hs, h.finished, hv⟩
  rw [← hi', ← hc]
  rfl

/-- A chunk adds its text to the tape. -/
theorem push (h : s.Represents t) (hf : t.final = false) (text : String) :
    ∃ s', s.push text = .ok s' ∧ s'.Represents { t with text := t.text ++ text.toList } := by
  rw [Chunked.push, if_neg (by rw [h.finished, hf]; exact Bool.false_ne_true)]
  have htake : ∀ k ≤ t.cursor, (t.text ++ text.toList).take k = t.text.take k := fun k hk =>
    List.take_append_of_le_length (Nat.le_trans hk h.valid.inside)
  split
  · rename_i he
    have hn : text.toList = [] := String.toList_eq_nil_iff.2 (String.isEmpty_iff.1 he)
    rw [hn, List.append_nil]
    exact ⟨s, rfl, h⟩
  · rename_i he
    have hn : text.toList ≠ [] := fun hn =>
      he (String.isEmpty_iff.2 (String.toList_eq_nil_iff.1 hn))
    obtain ⟨r, before, after, hr, hc, hi, hlay⟩ := h.layout
    have hrl := Nat.le_trans (Nat.le_trans hr h.valid.floor_le) h.valid.inside
    refine ⟨_, rfl, ⟨r, before, _, hr, ?_, hi, hlay.push hrl h.valid.inside hn⟩, ?_, ?_, ?_, ?_,
      h.finished, Nat.le_trans h.valid.inside ?_, h.valid.nested⟩
    · change s.chunks ++ [⟨text, s.received⟩] = _
      rw [hc, h.received, List.append_assoc]
    · change s.cursor = Text.byteCount ((t.text ++ text.toList).take t.cursor)
      rw [htake _ (Nat.le_refl _), h.cursor]
      rfl
    · change s.position = Position.start.advanceAll ((t.text ++ text.toList).take t.cursor)
      rw [htake _ (Nat.le_refl _), h.position]
      rfl
    · change s.received + text.utf8ByteSize = _
      rw [h.received, Text.byteCount_append, Text.utf8ByteSize_eq]
    · exact h.marks.trans
        (Tape.recordsAbove_congr (fun k hk => htake k (h.valid.saved_le hk)) 0).symm
    · rw [List.length_append]
      exact Nat.le_add_right _ _

/-- The end of the input is the end of the tape. -/
theorem finish (h : s.Represents t) : s.finish.Represents { t with final := true } :=
  ⟨h.layout, h.cursor, h.position, h.received, h.marks, rfl, ⟨h.valid.inside, h.valid.nested⟩⟩

end Represents

/-- What can be added to an input from outside: chunks, and its end. -/
inductive Grows : Chunked → Chunked → Prop
  | refl (s : Chunked) : Grows s s
  | push {s s₁ s' : Chunked} {text : String} : Grows s s₁ → s₁.push text = .ok s' → Grows s s'
  | finish {s s₁ : Chunked} : Grows s s₁ → Grows s s₁.finish

/-- An input that has grown stands for a tape that has. -/
theorem Represents.grows {s s' : Chunked} {t : Tape} (h : s.Represents t) (hg : Grows s s') :
    ∃ t', s'.Represents t' ∧ t.Grows t' := by
  induction hg with
  | refl => exact ⟨t, h, .refl t⟩
  | @push s₁ s' text _ hp ih =>
    obtain ⟨t₁, h₁, g₁⟩ := ih
    have hf : t₁.final = false := by
      rw [← h₁.finished]
      cases hb : s₁.finished with
      | false => rfl
      | true => rw [Chunked.push, if_pos hb] at hp; cases hp
    obtain ⟨s₂, hs₂, h₂⟩ := h₁.push hf text
    rw [hp] at hs₂
    cases hs₂
    exact ⟨_, h₂, g₁.push hf _⟩
  | finish _ ih =>
    obtain ⟨t₁, h₁, g₁⟩ := ih
    exact ⟨_, h₁.finish, g₁.finish⟩

theorem follows : Follows True Represents where
  peek h hc := by rw [← hc]; exact h.peek
  ended h hc hf := ⟨by rw [← hc]; exact h.peek, h.finished.trans hf⟩
  waits _ h hc hf := ⟨by rw [← hc]; exact h.peek, h.finished.trans hf⟩
  offset h := h.cursor
  advance h ht := h.advance ht
  mark h := h.mark
  commit h ht := h.commit ht
  rollback h ht := h.rollback ht

end Chunked

/-! ## Use within the contract -/

/-- The states that an input can be brought to by uses that keep to its contract: a character is
taken only where there is one, and only the innermost open checkpoint is closed. With each state
come the open checkpoints, the innermost first. An input begins in one of the states `fresh`, and
`grows` says what may be added to it from outside. -/
inductive Source.Reachable {σ : Type} [Source σ] (fresh : σ → Prop) (grows : σ → σ → Prop) :
    σ → List Checkpoint → Prop
  | fresh {s : σ} : fresh s → Reachable fresh grows s []
  | grow {s s' : σ} {cps : List Checkpoint} : Reachable fresh grows s cps → grows s s' →
    Reachable fresh grows s' cps
  | advance {s s' : σ} {cps : List Checkpoint} {c : Char} : Reachable fresh grows s cps →
    Source.peek s = .ok (some c) → Source.advance s = .ok s' → Reachable fresh grows s' cps
  | mark {s : σ} {cps : List Checkpoint} : Reachable fresh grows s cps →
    Reachable fresh grows (Source.mark s).2 ((Source.mark s).1 :: cps)
  | commit {s s' : σ} {cp : Checkpoint} {cps : List Checkpoint} :
    Reachable fresh grows s (cp :: cps) → Source.commit cp s = .ok s' →
    Reachable fresh grows s' cps
  | rollback {s s' : σ} {cp : Checkpoint} {cps : List Checkpoint} :
    Reachable fresh grows s (cp :: cps) → Source.rollback cp s = .ok s' →
    Reachable fresh grows s' cps

/-- An input that begins and grows as tapes do stands for a tape as long as its contract is kept. -/
theorem Source.Reachable.represents {σ : Type} [Source σ] {fresh : σ → Prop} {grows : σ → σ → Prop}
    {R : σ → Tape → Prop} (F : Follows True R)
    (hfresh : ∀ s, fresh s → ∃ t : Tape, R s t ∧ t.saved = [])
    (hgrows : ∀ s s' t, R s t → grows s s' → ∃ t', R s' t' ∧ t'.records = t.records) {s : σ}
    {cps : List Checkpoint} (h : Reachable fresh grows s cps) : ∃ t, R s t ∧ t.records = cps := by
  induction h with
  | fresh h =>
    obtain ⟨t, hR, hs⟩ := hfresh _ h
    exact ⟨t, hR, by rw [Tape.records, hs]; rfl⟩
  | grow _ hg ih =>
    obtain ⟨t, hR, rfl⟩ := ih
    exact hgrows _ _ t hR hg
  | advance _ hp ha ih =>
    obtain ⟨t, hR, rfl⟩ := ih
    cases hc : t.rest.head? with
    | some c =>
      obtain ⟨s₁, hs₁, h₁⟩ := F.advance hR (Tape.advance_eq hc)
      rw [ha] at hs₁
      cases hs₁
      exact ⟨_, h₁, rfl⟩
    | none =>
      cases hf : t.final with
      | true => rw [(F.ended hR hc hf).1] at hp; cases hp
      | false => rw [(F.waits trivial hR hc hf).1] at hp; cases hp
  | mark _ ih =>
    obtain ⟨t, hR, rfl⟩ := ih
    obtain ⟨s₁, hs₁, h₁⟩ := F.mark hR
    rw [hs₁]
    refine ⟨_, h₁, ?_⟩
    rw [Tape.records, Tape.mark, Tape.recordsAbove, Nat.zero_add]
    rfl
  | commit _ hc ih =>
    obtain ⟨t, hR, hr⟩ := ih
    obtain ⟨k, ks, hs, rfl, rfl⟩ := Tape.records_eq_cons hr
    obtain ⟨s₁, hs₁, h₁⟩ := F.commit hR (Tape.commit_cons hs)
    rw [hc] at hs₁
    cases hs₁
    exact ⟨_, h₁, rfl⟩
  | rollback _ hc ih =>
    obtain ⟨t, hR, hr⟩ := ih
    obtain ⟨k, ks, hs, rfl, rfl⟩ := Tape.records_eq_cons hr
    obtain ⟨s₁, hs₁, h₁⟩ := F.rollback hR (Tape.rollback_cons hs)
    rw [hc] at hs₁
    cases hs₁
    exact ⟨_, h₁, rfl⟩

/-- The states of a complete text in use, and the checkpoints then open. -/
def Whole.Reachable : Whole → List Checkpoint → Prop :=
  Source.Reachable (fun s => ∃ text, s = Whole.ofString text) fun _ _ => False

/-- The states of an input received in chunks in use, and the checkpoints then open. -/
def Chunked.Reachable : Chunked → List Checkpoint → Prop :=
  Source.Reachable (· = Chunked.empty) Chunked.Grows

theorem Whole.Reachable.represents {s : Whole} {cps : List Checkpoint} (h : s.Reachable cps) :
    ∃ t, s.Represents t ∧ t.records = cps :=
  Source.Reachable.represents Whole.follows
    (fun _ ⟨text, hs⟩ => hs ▸ ⟨_, Whole.represents_ofString text, rfl⟩)
    (fun _ _ _ _ hg => hg.elim) h

theorem Chunked.Reachable.represents {s : Chunked} {cps : List Checkpoint} (h : s.Reachable cps) :
    ∃ t, s.Represents t ∧ t.records = cps := by
  refine Source.Reachable.represents Chunked.follows (fun s (hs : s = Chunked.empty) => ?_)
    (fun s s' t hR hg => ?_) h
  · rw [hs]
    exact ⟨_, Chunked.represents_empty, rfl⟩
  obtain ⟨t', hR', hg'⟩ := hR.grows hg
  exact ⟨t', hR', hg'.records hR.valid⟩

end PegStream
