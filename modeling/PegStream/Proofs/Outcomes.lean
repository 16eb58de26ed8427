import PegStream.Proofs.Streaming

/-!
# The answers that a derivation gives

A derivation says what every way to match a text comes to: the complete text is answered with its
outcome, and so is the text that is fed in chunks and then declared complete, whatever the chunks
(`Matches.answers`).
-/

namespace PegStream

open Machine

/-- A pattern without parts that is no rule refers to none. -/
theorem RuleBook.collect_leaf (rules : RuleBook) {p : Pattern} (hp : p.children = [])
    (hr : ∀ ref, p ≠ .rule ref) : rules.collect p = .ok [] := by
  rw [collect, visit_other rules hr, hp, List.append_nil, visit_nil]

/-- The value of an outcome, or that there is none. -/
def Outcome.result (out : Outcome Value) : Except Failure Value :=
  out.answer.map Prod.fst

theorem Outcome.concluded_verdict (out : Outcome Value) :
    Stream.concluded out.verdict = out.result := by
  cases out <;> rfl

/-- A stream that is fed `chunks` and finished ends with the outcome, and with a match its cursor
stands in front of the rest. -/
def Stream.Comes (rules : RuleBook) (p : Pattern) (fuel : Nat) (chunks : List String)
    (out : Outcome Value) : Prop :=
  ∃ first last, Stream.start rules p = .ok first ∧
    Stream.feedAll rules fuel chunks first = .ok last ∧
    (last.finish rules fuel).outcome = out.result ∧
    ∀ v rest, out = .matched v rest →
      (last.conclude rules fuel).1.source.cursor + Text.byteCount rest =
        (String.join chunks).utf8ByteSize

/-- A text with a derivation is answered by its outcome, at once and in chunks. -/
theorem Matches.answers {rules : RuleBook} {p : Pattern} {held : List Nat} {text : String}
    {out : Outcome Value} {taps : List Tap} (hc : rules.collect p = .ok held)
    (h : Matches rules p none text.toList out taps) :
    ∃ steps, ∀ fuel > steps, (parsePrefix rules fuel p text).outcome = out.answer ∧
      ∀ chunks, String.join chunks = text → Stream.Comes rules p fuel chunks out := by
  obtain ⟨K, e, hK, he⟩ := ends_of_matches h
  refine ⟨K, fun fuel hfuel => ⟨?_, fun chunks hjoin => ?_⟩⟩
  · rw [parsePrefix_of_ends hK he h.within hfuel, hc]
  · obtain ⟨hstart, h₀⟩ := Stream.stands_start hc
    have hKjoin : Moves rules K (begin p ([] ++ (String.join chunks).toList) true) e := by
      rw [hjoin]
      exact hK
    obtain ⟨status, hstatus⟩ := out.exists_status
    obtain ⟨last, hlast⟩ := h₀.exists_feedAll hKjoin (hstatus ▸ he.verdict) hfuel
    obtain ⟨n, hst, -⟩ := h₀.feedAll hlast
    rw [hjoin, List.nil_append] at hst
    obtain ⟨s, t, hend, hs, hg⟩ := hst.conclude hK he.verdict hfuel
    refine ⟨_, last, hstart, hlast, ?_, fun v rest ho => ?_⟩
    · rw [Stream.finish, hend]
      exact out.concluded_verdict
    · subst ho
      rw [hend, hjoin, Text.utf8ByteSize_eq]
      exact Stream.cursor_of_ends he hs hg h.within

end PegStream
