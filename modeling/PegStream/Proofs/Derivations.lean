import PegStream.Proofs.Reference

/-!
# What every derivation gives

Two facts about all matches, by induction on their derivations:

* `Matches.within`: what is left after a match is an end of the text in front of it;
* `Matches.fits`: the value of a match has the shape that the pattern foretells.
-/

namespace PegStream

/-! ## What is left -/

/-- What is left of a text after a match is an end of it. -/
def Outcome.Within {α : Type} (text : List Char) : Outcome α → Prop
  | .matched _ rest => rest <:+ text
  | .failed => True

namespace Outcome

variable {α β : Type} {text text' : List Char}

@[simp] theorem within_matched {a : α} {rest : List Char} :
    (matched a rest).Within text ↔ rest <:+ text := Iff.rfl

@[simp] theorem within_failed : (failed : Outcome α).Within text := trivial

@[simp] theorem within_map {f : α → β} {out : Outcome α} :
    (out.map f).Within text ↔ out.Within text := by
  cases out <;> rfl

theorem Within.of_suffix {out : Outcome α} (h : out.Within text) (ht : text <:+ text') :
    out.Within text' := by
  cases out with
  | matched a rest => exact List.IsSuffix.trans h ht
  | failed => trivial

end Outcome

theorem CharClass.read_within (accepted : CharClass) (text : List Char) :
    (accepted.read text).Within text := by
  unfold CharClass.read
  split
  · trivial
  · split
    · exact List.suffix_cons _ _
    · trivial

theorem readLiteral_within (expected text : List Char) :
    (readLiteral expected text).Within text := by
  fun_induction readLiteral expected text with
  | case1 text => exact List.suffix_refl text
  | case2 => trivial
  | case3 _ _ _ ih => exact ih.of_suffix (List.suffix_cons _ _)
  | case4 => trivial

theorem readEnd_within (text : List Char) : (readEnd text).Within text := by
  cases text with
  | nil => exact List.suffix_refl []
  | cons => trivial

theorem Numeral.outcome_within (format : IntFormat) (n : Numeral) (text : List Char) :
    (n.outcome format text).Within text := by
  unfold Numeral.outcome
  split
  · exact List.suffix_refl text
  · trivial

theorem Numeral.readDigits_within (format : IntFormat) (n : Numeral) (text : List Char) :
    (n.readDigits format text).Within text := by
  fun_induction Numeral.readDigits format n text with
  | case1 n => exact n.outcome_within format []
  | case2 n => exact n.outcome_within format _
  | case3 n => exact n.outcome_within format _
  | case4 => trivial
  | case5 _ _ _ _ _ _ _ _ ih => exact ih.of_suffix (List.suffix_cons _ _)

theorem IntFormat.read_within (format : IntFormat) (text : List Char) :
    (format.read text).Within text := by
  unfold IntFormat.read
  split
  · exact Numeral.readDigits_within format _ _
  · split
    · exact (Numeral.readDigits_within format _ _).of_suffix (List.suffix_cons _ _)
    · exact Numeral.readDigits_within format _ _

theorem SymbolTable.longestBelow_suffix {t : SymbolTable} {node : Nat} {text rest : List Char}
    {v : Value} (h : t.longestBelow node text = some (v, rest)) : rest <:+ text := by
  induction text generalizing node with
  | nil => cases h
  | cons c cs ih =>
    rw [longestBelow, Option.bind_eq_some_iff] at h
    obtain ⟨next, -, h⟩ := h
    rcases Option.or_eq_some_iff.1 h with h | ⟨-, h⟩
    · exact (ih h).trans (List.suffix_cons c cs)
    · obtain ⟨w, -, hw⟩ := Option.map_eq_some_iff.1 h
      cases hw
      exact List.suffix_cons c _

theorem SymbolTable.read_within (t : SymbolTable) (text : List Char) :
    (t.read text).Within text := by
  unfold SymbolTable.read
  cases h : t.longestBelow root text with
  | none => trivial
  | some found => exact longestBelow_suffix h

theorem Pattern.read?_within {p : Pattern} {text : List Char} {out : Outcome Value}
    (h : p.read? text = some out) : out.Within text := by
  unfold Pattern.read? at h
  split at h <;> cases h
  · exact CharClass.read_within _ text
  · exact readLiteral_within _ text
  · exact readEnd_within text
  · exact IntFormat.read_within _ text
  · exact SymbolTable.read_within _ text

section

variable {rules : RuleBook}

mutual

/-- What is left after a match is an end of the text in front of it. -/
theorem Matches.within {p : Pattern} {scope : Scope} {text : List Char} {out : Outcome Value}
    {taps : List Tap} : Matches rules p scope text out taps → out.Within text
  | .token hs hr => (Pattern.read?_within hr).of_suffix (Skips.within hs)
  | .pass | .optional_none _ | .list_none _ | .not_failed _ => List.suffix_refl text
  | .fail | .except_excluded _ | .not_matched _ | .tap_failed _ => trivial
  | .sequence h => Outcome.within_map.2 (MatchesAll.within h)
  | .alternative h => MatchesFirst.within h
  | .repetition h => Outcome.within_map.2 (Rounds.within h)
  | .list_some h hs => (Pairs.within hs).trans (Matches.within h)
  | .lexeme hs h => (Matches.within h).of_suffix (Skips.within hs)
  | .discard h | .map h => Outcome.within_map.2 (Matches.within h)
  | .tap_matched h => Outcome.within_matched.1 (Matches.within h)
  | .optional_some h | .except_operand _ h | .skipping h | .rule _ h => Matches.within h

theorem Skips.within {scope : Scope} {text text' : List Char} {taps : List Tap} :
    Skips rules scope text text' taps → text' <:+ text
  | .none | .failed _ | .idle _ => List.suffix_refl text
  | .more h _ hs => (Skips.within hs).trans (Matches.within h)

theorem MatchesAll.within {ps : List Pattern} {scope : Scope} {text : List Char}
    {out : Outcome (List Value)} {taps : List Tap} :
    MatchesAll rules ps scope text out taps → out.Within text
  | .nil => List.suffix_refl text
  | .failed _ => trivial
  | .cons h hs => Outcome.within_map.2 ((MatchesAll.within hs).of_suffix (Matches.within h))

theorem MatchesFirst.within {ps : List Pattern} {scope : Scope} {text : List Char}
    {out : Outcome Value} {taps : List Tap} :
    MatchesFirst rules ps scope text out taps → out.Within text
  | .nil => trivial
  | .matched h => Matches.within h
  | .failed _ hs => MatchesFirst.within hs

theorem Rounds.within {p : Pattern} {bounds : Bounds} {scope : Scope} {count : Nat}
    {text : List Char} {out : Outcome (List Value)} {taps : List Tap} :
    Rounds rules p bounds scope count text out taps → out.Within text
  | .full _ | .enough _ _ _ | .idle _ _ => List.suffix_refl text
  | .short _ _ _ => trivial
  | .round _ h _ hs => Outcome.within_map.2 ((Rounds.within hs).of_suffix (Matches.within h))

theorem Pairs.within {p q : Pattern} {scope : Scope} {text rest : List Char} {vs : List Value}
    {taps : List Tap} : Pairs rules p q scope text vs rest taps → rest <:+ text
  | .separator_failed _ | .element_failed _ _ | .idle _ _ => List.suffix_refl text
  | .pair h h' _ hs => (Pairs.within hs).trans ((Matches.within h').trans (Matches.within h))

end

end

/-! ## Shapes of values -/

/-- The value is of the kind that a shape foretells. -/
def Value.Fits (v : Value) : Shape → Prop
  | .silent => v = .nil
  | .text => v = .nil ∨ (∃ c, v = .char c) ∨ ∃ s, v = .str s
  | .other => True

namespace Value

variable {v : Value} {vs : List Value} {a b : Shape}

theorem nil_fits (shape : Shape) : Value.nil.Fits shape := by
  cases shape with
  | silent => rfl
  | text => exact .inl rfl
  | other => trivial

theorem Fits.orElse_left (h : v.Fits a) (b : Shape) : v.Fits (a.orElse b) := by
  cases a with
  | silent => rw [show v = .nil from h]; exact nil_fits _
  | text =>
    cases b with
    | silent | text => exact h
    | other => trivial
  | other => cases b <;> trivial

theorem Fits.orElse_right (h : v.Fits b) (a : Shape) : v.Fits (a.orElse b) := by
  cases b with
  | silent => rw [show v = .nil from h]; exact nil_fits _
  | text =>
    cases a with
    | silent | text => exact h
    | other => trivial
  | other => cases a <;> trivial

/-- A value that fits text has a text. -/
theorem Fits.text? (h : v.Fits .text) : ∃ piece, v.text? = some piece := by
  rcases h with rfl | ⟨c, rfl⟩ | ⟨s, rfl⟩
  · exact ⟨_, rfl⟩
  · exact ⟨_, rfl⟩
  · exact ⟨_, rfl⟩

/-- A sequence with nothing else to keep has the value of the part. -/
theorem Fits.ofParts_keep {p : Pattern} (h : v.Fits p.shape) : ofParts (p.keep v) = v := by
  unfold Pattern.keep Pattern.isSilent
  cases hs : p.shape with
  | silent =>
    rw [hs] at h
    exact h.symm
  | text | other => rfl

theorem gather_fits (vs : List Value) (shape : Shape) : (shape.gather vs).Fits shape := by
  cases shape with
  | silent => rfl
  | text => exact .inr (.inr ⟨_, rfl⟩)
  | other => trivial

end Value

/-- The values are what parts in a row, of the given shape together, can have kept. -/
def Shape.Allows (vs : List Value) : Shape → Prop
  | .silent => vs = []
  | .text => ∃ v : Value, vs = [v] ∧ v.Fits .text
  | .other => True

namespace Shape

variable {vs ws : List Value} {a b : Shape}

theorem allows_keep {p : Pattern} {v : Value} (h : v.Fits p.shape) : p.shape.Allows (p.keep v) := by
  unfold Pattern.keep Pattern.isSilent
  cases hs : p.shape with
  | silent => rfl
  | text => exact ⟨v, rfl, hs ▸ h⟩
  | other => trivial

theorem Allows.beside (h : a.Allows vs) (h' : b.Allows ws) : (a.beside b).Allows (vs ++ ws) := by
  cases a with
  | silent => rw [show vs = [] from h]; exact h'
  | text =>
    cases b with
    | silent => rw [show ws = [] from h', List.append_nil]; exact h
    | text | other => trivial
  | other => cases b <;> trivial

theorem Allows.ofParts (h : a.Allows vs) : (Value.ofParts vs).Fits a := by
  cases a with
  | silent => rw [show vs = [] from h]; rfl
  | text =>
    obtain ⟨v, rfl, hv⟩ := h
    exact hv
  | other => trivial

end Shape

/-- The value of a match is of the kind that a shape foretells. -/
def Outcome.Fits (shape : Shape) : Outcome Value → Prop
  | .matched v _ => v.Fits shape
  | .failed => True

/-- The values kept by a sequence are of the kind that a shape foretells. -/
def Outcome.Allowed (shape : Shape) : Outcome (List Value) → Prop
  | .matched vs _ => shape.Allows vs
  | .failed => True

namespace Outcome

theorem fits_map {α : Type} {f : α → Value} {shape : Shape} (h : ∀ a, (f a).Fits shape)
    (out : Outcome α) : (out.map f).Fits shape := by
  cases out with
  | matched a rest => exact h a
  | failed => trivial

theorem fits_other (out : Outcome Value) : out.Fits .other := by
  cases out <;> trivial

theorem Allowed.ofParts {shape : Shape} {out : Outcome (List Value)} (h : out.Allowed shape) :
    (out.map .ofParts).Fits shape := by
  cases out with
  | matched vs rest => exact Shape.Allows.ofParts h
  | failed => trivial

theorem Allowed.beside {a b : Shape} {vs : List Value} {out : Outcome (List Value)}
    (h : a.Allows vs) (h' : out.Allowed b) : (out.map (vs ++ ·)).Allowed (a.beside b) := by
  cases out with
  | matched ws rest => exact Shape.Allows.beside h h'
  | failed => trivial

theorem Fits.orElse_right {b : Shape} {out : Outcome Value} (h : out.Fits b) (a : Shape) :
    out.Fits (a.orElse b) := by
  cases out with
  | matched v rest => exact Value.Fits.orElse_right h a
  | failed => trivial

end Outcome

theorem readLiteral_fits (expected text : List Char) :
    (readLiteral expected text).Fits .silent := by
  fun_induction readLiteral expected text with
  | case1 => rfl
  | case2 => trivial
  | case3 _ _ _ ih => exact ih
  | case4 => trivial

theorem Pattern.read?_fits {p : Pattern} {text : List Char} {out : Outcome Value}
    (h : p.read? text = some out) : out.Fits p.shape := by
  unfold Pattern.read? at h
  split at h <;> cases h
  · unfold CharClass.read
    split
    · trivial
    · split
      · exact .inr (.inl ⟨_, rfl⟩)
      · trivial
  · exact readLiteral_fits _ text
  · cases text with
    | nil => rfl
    | cons => trivial
  · exact Outcome.fits_other _
  · exact Outcome.fits_other _

section

variable {rules : RuleBook}

mutual

/-- The value of a match is of the kind that the shape of its pattern foretells. -/
theorem Matches.fits {p : Pattern} {scope : Scope} {text : List Char} {out : Outcome Value}
    {taps : List Tap} : Matches rules p scope text out taps → out.Fits p.shape
  | .token _ hr => Pattern.read?_fits hr
  | .pass | .not_failed _ | .tap_matched _ => rfl
  | .fail | .except_excluded _ | .not_matched _ | .tap_failed _ => trivial
  | .sequence h => (MatchesAll.allowed h).ofParts
  | .alternative h => MatchesFirst.fits h
  | .repetition _ => Outcome.fits_map (fun _ => Value.gather_fits _ _) _
  | .optional_some h | .except_operand _ h | .lexeme _ h | .skipping h => by
    have hv := Matches.fits h
    exact hv
  | .optional_none _ => Value.nil_fits _
  | .list_none _ | .list_some _ _ => Value.gather_fits _ _
  | .discard _ => Outcome.fits_map (fun _ => Value.nil_fits _) _
  | .map _ | .rule _ _ => Outcome.fits_other _

theorem MatchesAll.allowed {ps : List Pattern} {scope : Scope} {text : List Char}
    {out : Outcome (List Value)} {taps : List Tap} :
    MatchesAll rules ps scope text out taps → out.Allowed (Pattern.sequenceShape ps)
  | .nil => rfl
  | .failed _ => trivial
  | .cons h hs => .beside (Shape.allows_keep (Matches.fits h)) (MatchesAll.allowed hs)

theorem MatchesFirst.fits {ps : List Pattern} {scope : Scope} {text : List Char}
    {out : Outcome Value} {taps : List Tap} :
    MatchesFirst rules ps scope text out taps → out.Fits (Pattern.alternativeShape ps)
  | .nil => trivial
  | .matched h => Value.Fits.orElse_left (Matches.fits h) _
  | .failed _ hs => (MatchesFirst.fits hs).orElse_right _

end

/-- What a sequence of one part makes of its outcome. -/
theorem Matches.map_keep {p : Pattern} {scope : Scope} {text : List Char} {out : Outcome Value}
    {taps : List Tap} (h : Matches rules p scope text out taps) :
    out.map (fun v => .ofParts (p.keep v)) = out := by
  have hfits := h.fits
  cases out with
  | failed => rfl
  | matched v rest => rw [Outcome.map_matched, Value.Fits.ofParts_keep hfits]

/-- A skipper of its own takes the place of the one in force. -/
theorem matches_skipping_iff {p skipper : Pattern} {scope : Scope} {text : List Char}
    {out : Outcome Value} {taps : List Tap} :
    Matches rules (.skipping p skipper) scope text out taps ↔
      Matches rules p (some skipper) text out taps := by
  constructor
  · intro h
    cases h with
    | token _ hr => cases hr
    | skipping h => exact h
  · exact .skipping

end

end PegStream
