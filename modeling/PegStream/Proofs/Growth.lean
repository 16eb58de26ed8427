import PegStream.Proofs.Checkpoints

/-!
# Matches of a text that grows

A match that has only seen the beginning of a text does nothing that it would not do on the whole
text: it takes the same steps, until it is decided or has to wait. So a match that is given a text
piece by piece is always on the one way that the match of the whole text takes.

* `Tape.follows_grows`: a tape with more text answers as the tape does;
* `Machine.moves_grown`, `Machine.moves_of_grows`: the steps on the beginning of a text are steps on
  the text;
* `Machine.moves_le`, `Machine.decided_early`: a match of the beginning of a text is no longer than
  the match of the text, and if it is decided then as that match is.
-/

namespace PegStream

/-! ## Longer tapes -/

namespace Tape

variable {t t' : Tape}

/-- A tape that has grown shows the same text, and more after it. -/
theorem Grows.rest (h : t.Grows t') (hv : t.Valid) :
    ∃ more, t'.rest = t.rest ++ more ∧ (t.final = true → more = []) := by
  obtain ⟨more, hm, hn⟩ := h.text
  refine ⟨more, ?_, hn⟩
  rw [Tape.rest, hm, h.cursor, List.drop_append_of_le_length hv.inside]
  rfl

theorem Grows.record (h : t.Grows t') (hv : t.Valid) {k : Nat} (hk : k ≤ t.cursor) (d : Nat) :
    Tape.record t'.text k d = Tape.record t.text k d :=
  record_congr (h.take hv hk) d

/-- Wherever a tape has an answer, a tape that has grown from it has the same. -/
theorem follows_grows : Follows False fun (t' t : Tape) => t.Grows t' ∧ t.Valid where
  peek := fun ⟨h, hv⟩ hc => by
    obtain ⟨more, hm, -⟩ := h.rest hv
    rw [peek_eq, hm, List.head?_append, hc]
    rfl
  ended := fun ⟨h, hv⟩ hc hf => by
    obtain ⟨more, hm, hn⟩ := h.rest hv
    rw [peek_eq, hm, hn hf, List.append_nil, hc]
    exact ⟨rfl, h.final hf⟩
  waits := fun he => he.elim
  offset := fun ⟨h, hv⟩ => by
    rw [offset_eq, offsetAt, h.cursor, h.take hv (Nat.le_refl _)]
    rfl
  advance := fun {t' t t₁} ⟨h, hv⟩ ht => by
    have hv₁ := hv.advance ht
    obtain ⟨c, hc, rfl⟩ := advance_ok ht
    obtain ⟨more, hm, -⟩ := h.rest hv
    have hc' : t'.rest.head? = some c := by
      rw [hm, List.head?_append, hc]
      rfl
    exact ⟨_, advance_eq hc', ⟨h.text, congrArg (· + 1) h.cursor, h.saved, h.final⟩, hv₁⟩
  mark := fun {t' t} ⟨h, hv⟩ => by
    refine ⟨{ t' with saved := t'.cursor :: t'.saved }, ?_, ?_, hv.mark⟩
    · rw [mark_eq, h.cursor, h.saved, h.record hv (Nat.le_refl _)]
      rfl
    · refine ⟨h.text, h.cursor, ?_, h.final⟩
      rw [h.cursor, h.saved]
      rfl
  commit := fun {t' t t₁ cp} ⟨h, hv⟩ ht => by
    have hv₁ := hv.commit ht
    obtain ⟨k, ks, hs, rfl, rfl⟩ := commit_ok ht
    have hk : k ≤ t.cursor := hv.saved_le (by simp [hs])
    rw [← h.record hv hk]
    exact ⟨_, commit_cons (h.saved.trans hs), ⟨h.text, h.cursor, rfl, h.final⟩, hv₁⟩
  rollback := fun {t' t t₁ cp} ⟨h, hv⟩ ht => by
    have hv₁ := hv.rollback ht
    obtain ⟨k, ks, hs, rfl, rfl⟩ := rollback_ok ht
    have hk : k ≤ t.cursor := hv.saved_le (by simp [hs])
    rw [← h.record hv hk]
    exact ⟨_, rollback_cons (h.saved.trans hs), ⟨h.text, rfl, rfl, h.final⟩, hv₁⟩

end Tape

namespace Machine

variable {rules : RuleBook} {p : Pattern} {text more : List Char} {final : Bool} {k : Nat}
  {n : Machine Tape} {v : Verdict}

/-- A match of a text that is just beginning. -/
def begin (p : Pattern) (text : List Char) (final : Bool) : Machine Tape :=
  start p { text, final }

theorem disciplined_begin (p : Pattern) (text : List Char) (final : Bool) :
    Disciplined { text, final } (begin p text final) :=
  Tape.Holds.refl ⟨Nat.zero_le _, List.pairwise_singleton _ _⟩

/-- The same state of a match, with another text on its tape. -/
def withText (text : List Char) (final : Bool) (n : Machine Tape) : Machine Tape :=
  n.on { n.source with text, final }

/-- A state of a match of a text stands on a tape that can grow to any longer text. -/
theorem grows_withText (h : Moves rules k (begin p text false) n) (more : List Char)
    (final : Bool) : n.source.Grows (n.withText (text ++ more) final).source ∧ n.source.Valid := by
  have hd := (disciplined_begin p text false).moves h
  refine ⟨⟨⟨more, ?_, fun hf => ?_⟩, rfl, rfl, fun hf => ?_⟩, hd.valid⟩
  · rw [hd.text]
    rfl
  · rw [hd.final] at hf
    cases hf
  · rw [hd.final] at hf
    cases hf

/-- The steps of a match on a tape are steps on every tape that has grown from it. -/
theorem moves_grown {scope : Scope} {log : List Tap} {t t' : Tape} (hg : t.Grows t')
    (hv : t.Valid) (h : Moves rules k ⟨.enter p scope, [], t, log⟩ n) :
    Moves rules k ⟨.enter p scope, [], t', log⟩ (n.withText t'.text t'.final) ∧
      n.source.Grows (n.withText t'.text t'.final).source := by
  obtain ⟨u, hm, hu, -⟩ := Tape.follows_grows.moves (n := ⟨.enter p scope, [], t, log⟩) ⟨hg, hv⟩ h
  have hd : Disciplined t' (n.on u) :=
    Disciplined.moves (m := ⟨.enter p scope, [], t', log⟩) (Tape.Holds.refl (hg.valid hv)) hm
  have hsource : u = { n.source with text := t'.text, final := t'.final } := by
    obtain ⟨text, c, ks, f⟩ := u
    cases hd.text
    cases hd.final
    cases hu.cursor
    cases hu.saved
    rfl
  rw [hsource] at hm hu
  exact ⟨hm, hu⟩

/-- The steps of a match of the beginning of a text are steps of the match of the text. -/
theorem moves_of_grows (h : Moves rules k (begin p text false) n) (more : List Char)
    (final : Bool) :
    Moves rules k (begin p (text ++ more) final) (n.withText (text ++ more) final) := by
  have hrefl : Moves rules 0 (begin p text false) (begin p text false) := .refl _
  obtain ⟨hg, hv⟩ := grows_withText hrefl more final
  exact (moves_grown hg hv h).1

/-- A match of the beginning of a text ends there as it does on the text, unless it waits. -/
theorem verdict_of_grows (h : Moves rules k (begin p text false) n)
    (hv : n.verdict? rules = some v) (hne : v ≠ .waiting) (more : List Char) (final : Bool) :
    (n.withText (text ++ more) final).verdict? rules = some v := by
  have hd := (disciplined_begin p text false).moves h
  refine Tape.follows_grows.verdict (grows_withText h more final) hv (fun hw => (hne hw).elim) ?_
  rintro f rfl
  exact hd.settled hv

/-! ## The way to the end of a text -/

section

variable {K : Nat} {e : Machine Tape} {ve : Verdict}

/-- A match of the beginning of a text is on the way that the match of the text takes. -/
theorem moves_on (hm : Moves rules K (begin p (text ++ more) final) e)
    (he : e.verdict? rules = some ve) (h : Moves rules k (begin p text false) n) :
    ∃ i, i + k = K ∧ Moves rules i (n.withText (text ++ more) final) e :=
  hm.cut he (moves_of_grows h more final)

theorem moves_le (hm : Moves rules K (begin p (text ++ more) final) e)
    (he : e.verdict? rules = some ve) (h : Moves rules k (begin p text false) n) : k ≤ K := by
  obtain ⟨i, hi, -⟩ := moves_on hm he h
  omega

/-- A match that is decided by the beginning of a text is decided as by the text. -/
theorem decided_early (hm : Moves rules K (begin p (text ++ more) final) e)
    (he : e.verdict? rules = some ve) (h : Moves rules k (begin p text false) n)
    (hv : n.verdict? rules = some v) (hne : v ≠ .waiting) :
    n.withText (text ++ more) final = e ∧ v = ve := by
  have hv' := verdict_of_grows h hv hne more final
  have heq := (moves_of_grows h more final).settled_unique hv' hm he
  rw [heq, he] at hv'
  cases hv'
  exact ⟨heq, rfl⟩

end

end Machine

end PegStream
