import Mathlib.Data.Nat.Digits.Defs
import PegStream.Proofs.Outcomes

/-!
# Integers as they are written

An integer in a text is an optional sign and the longest run of digits after it, cut at the greatest
number of digits that the format takes (`Spelling.ofText`). It stands for the number that the digits
write in positional notation. A reader that gives up as soon as the number it has read passes the
limit of 64 bits loses nothing by it, since more digits never make a number smaller.

* `Numeral.readDigits_eq`, `IntFormat.read_eq`: the reader, with and without that shortcut;
* `Machine.Accumulates.moves`: the number read so far stays below the limit;
* `parsePrefix_intWith`: which texts are read as an integer, and as which.
-/

namespace PegStream

/-! ## Spellings -/

/-- The number that digits of a base write, the most significant one first. -/
def positional (base : Nat) (digits : List Char) : Nat :=
  Nat.ofDigits base (digits.map fun c => (digitOf base c).getD 0).reverse

/-- The longest run of digits of a base that a text begins with. -/
def digitRun (base : Nat) (text : List Char) : List Char :=
  text.takeWhile fun c => (digitOf base c).isSome

/-- What a list is cut to by a greatest length, which zero stands for the lack of. -/
def cutAt (max : Nat) (cs : List Char) : List Char :=
  if max = 0 then cs else cs.take max

/-- The sign that a text begins with, where one is looked for, and the text after it. -/
def takeSign (signed : Bool) (text : List Char) : Option Sign × List Char :=
  match signed, text with
  | true, '+' :: rest => (some .plus, rest)
  | true, '-' :: rest => (some .minus, rest)
  | _, text => (none, text)

/-- An integer at the beginning of a text: a sign, digits, and the text after them. -/
structure Spelling where
  sign : Option Sign
  digits : List Char
  rest : List Char
  deriving DecidableEq

namespace Spelling

/-- The sign and the digits that a text begins with. -/
def ofText (base max : Nat) (signed : Bool) (text : List Char) : Spelling :=
  let (sign, text) := takeSign signed text
  let digits := cutAt max (digitRun base text)
  ⟨sign, digits, text.drop digits.length⟩

/-- The number that is written. -/
def number (base : Nat) (s : Spelling) : Int :=
  match s.sign with
  | some .minus => -(positional base s.digits : Int)
  | _ => positional base s.digits

/-- There are enough digits, a sign is followed by one at least, and the number fits into 64 bits. -/
def Accepted (base min : Nat) (s : Spelling) : Prop :=
  min ≤ s.digits.length ∧ (s.sign.isSome = true → s.digits ≠ []) ∧
    IntKind.int64.Fits (s.number base)

instance (base min : Nat) (s : Spelling) : Decidable (s.Accepted base min) :=
  inferInstanceAs (Decidable (_ ∧ _ ∧ _))

end Spelling

/-! ## Positional notation -/

@[simp] theorem positional_nil (base : Nat) : positional base [] = 0 := rfl

theorem positional_cons {base d : Nat} {c : Char} (hc : digitOf base c = some d)
    (digits : List Char) :
    positional base (c :: digits) = d * base ^ digits.length + positional base digits := by
  rw [positional, List.map_cons, Nat.ofDigits_reverse_cons, hc, List.length_map, Option.getD_some,
    Nat.mul_comm, Nat.add_comm]
  rfl

theorem digitRun_cons_some {base d : Nat} {c : Char} (hc : digitOf base c = some d)
    (text : List Char) : digitRun base (c :: text) = c :: digitRun base text := by
  simp [digitRun, hc]

theorem digitRun_cons_none {base : Nat} {c : Char} (hc : digitOf base c = none)
    (text : List Char) : digitRun base (c :: text) = [] := by
  simp [digitRun, hc]

/-! ## Reading -/

theorem IntKind.fits_int64 {n : Int} : IntKind.int64.Fits n ↔ -2 ^ 63 ≤ n ∧ n < 2 ^ 63 := by
  show (-0x8000000000000000 ≤ n ∧ n ≤ 0x7FFFFFFFFFFFFFFF) ↔ _
  omega

namespace Numeral

/-- The spelling with more digits, however large the number gets. -/
def extend (base : Nat) (digits : List Char) (n : Numeral) : Numeral where
  sign := n.sign
  count := n.count + digits.length
  magnitude := n.magnitude * base ^ digits.length + positional base digits

@[simp] theorem extend_nil (base : Nat) (n : Numeral) : n.extend base [] = n := by
  simp [extend]

/-- A digit and more digits. -/
theorem extend_cons {base d : Nat} {c : Char} (hc : digitOf base c = some d) (digits : List Char)
    (n : Numeral) :
    n.extend base (c :: digits) =
      extend base digits { n with count := n.count + 1, magnitude := n.magnitude * base + d } := by
  have hcount : n.count + (digits.length + 1) = n.count + 1 + digits.length := by omega
  have hmagnitude : n.magnitude * base ^ (digits.length + 1) +
      (d * base ^ digits.length + positional base digits) =
        (n.magnitude * base + d) * base ^ digits.length + positional base digits := by
    ring
  simp only [extend, positional_cons hc, List.length_cons, hcount, hmagnitude]

theorem toInt_cases (n : Numeral) : n.toInt = n.magnitude ∨ n.toInt = -(n.magnitude : Int) := by
  unfold toInt
  split
  · exact .inr rfl
  · exact .inl rfl

/-- What has passed the limit is no number of 64 bits, with whatever sign. -/
theorem outcome_of_limit_lt {n : Numeral} (h : limit < n.magnitude) (format : IntFormat)
    (rest : List Char) : n.outcome format rest = .failed := by
  have hfits : ¬ IntKind.int64.Fits n.toInt := by
    rw [IntKind.fits_int64]
    unfold limit at h
    rcases n.toInt_cases with hn | hn <;> omega
  unfold outcome value?
  split <;> rename_i hv
  · simp [hfits] at hv
  · rfl

/-- Digits only add to the magnitude. -/
theorem magnitude_le_extend {base : Nat} (hb : 0 < base) (digits : List Char) (n : Numeral) :
    n.magnitude ≤ (n.extend base digits).magnitude := by
  have hpow : 0 < base ^ digits.length := Nat.pow_pos hb
  calc n.magnitude ≤ n.magnitude * base ^ digits.length := Nat.le_mul_of_pos_right _ hpow
    _ ≤ _ := Nat.le_add_right _ _

/-- The digits that the reader takes after those it has read. -/
def taken (format : IntFormat) (n : Numeral) (text : List Char) : List Char :=
  if format.digits.max = 0 then digitRun format.base text
  else (digitRun format.base text).take (format.digits.max - n.count)

/-- The reader takes all the digits it may and then looks at the number they write. -/
theorem readDigits_eq (format : IntFormat) (n : Numeral) (text : List Char)
    (hroom : format.digits.max = 0 ∨ n.count ≤ format.digits.max) :
    n.readDigits format text = (n.extend format.base (n.taken format text)).outcome format
      (text.drop (n.taken format text).length) := by
  have hbase : 0 < format.base := Nat.lt_of_lt_of_le Nat.zero_lt_two format.base_mem.1
  fun_induction readDigits format n text with
  | case1 n => simp [taken, digitRun]
  | case2 n c cs hfull =>
    have htaken : n.taken format (c :: cs) = [] := by
      simp only [Bounds.isFull, Bool.and_eq_true, bne_iff_ne, ne_eq, beq_iff_eq] at hfull
      simp [taken, hfull.1, hfull.2]
    simp [htaken]
  | case3 n c cs hfull hc =>
    have htaken : n.taken format (c :: cs) = [] := by simp [taken, digitRun_cons_none hc]
    simp [htaken]
  | case4 n c cs hfull d hc hpush =>
    -- The digit that passes the limit is taken, and no digits after it bring the number back.
    have hpast : limit < n.magnitude * format.base + d := by
      by_contra h
      simp [push?, h] at hpush
    have htaken : ∃ more, n.taken format (c :: cs) = c :: more := by
      unfold taken
      rw [digitRun_cons_some hc]
      split
      · exact ⟨_, rfl⟩
      · rename_i hmax
        have hlt : n.count < format.digits.max := by
          simp only [Bounds.isFull, Bool.and_eq_true, bne_iff_ne, ne_eq, beq_iff_eq] at hfull
          omega
        obtain ⟨k, hk⟩ : ∃ k, format.digits.max - n.count = k + 1 :=
          ⟨format.digits.max - n.count - 1, by omega⟩
        rw [hk, List.take_succ_cons]
        exact ⟨_, rfl⟩
    obtain ⟨more, hmore⟩ := htaken
    rw [hmore, extend_cons hc, outcome_of_limit_lt]
    refine Nat.lt_of_lt_of_le hpast ?_
    exact magnitude_le_extend hbase more ⟨n.sign, n.count + 1, n.magnitude * format.base + d⟩
  | case5 n c cs hfull d hc n' hpush ih =>
    have hn' : n' = { n with count := n.count + 1, magnitude := n.magnitude * format.base + d } := by
      unfold push? at hpush
      dsimp only at hpush
      split at hpush
      · cases hpush
      · exact (Option.some.inj hpush).symm
    have hlt : format.digits.max = 0 ∨ n.count < format.digits.max := by
      simp only [Bounds.isFull, Bool.and_eq_true, bne_iff_ne, ne_eq, beq_iff_eq] at hfull
      omega
    have htaken : n.taken format (c :: cs) = c :: n'.taken format cs := by
      unfold taken
      rw [digitRun_cons_some hc]
      split
      · rfl
      · have hk : format.digits.max - n.count = format.digits.max - n'.count + 1 := by
          rw [hn']
          dsimp only
          omega
        rw [hk, List.take_succ_cons]
    have hroom' : format.digits.max = 0 ∨ n'.count ≤ format.digits.max := by
      rw [hn']
      exact hlt
    rw [ih hroom', htaken, extend_cons hc, ← hn', List.length_cons, List.drop_succ_cons]

end Numeral

theorem Numeral.taken_zero {format : IntFormat} {n : Numeral} (h : n.count = 0)
    (text : List Char) :
    n.taken format text = cutAt format.digits.max (digitRun format.base text) := by
  simp [taken, cutAt, h]

/-- The reader looks for a sign first. -/
theorem IntFormat.read_takeSign (format : IntFormat) (text : List Char) :
    format.read text = Numeral.readDigits format { sign := (takeSign format.signed text).1 }
      (takeSign format.signed text).2 := by
  cases text with
  | nil =>
    cases hs : format.signed with
    | false => rfl
    | true => rfl
  | cons c cs =>
    rw [read]
    cases hs : format.signed with
    | false => rfl
    | true =>
      by_cases hplus : c = '+'
      · subst hplus
        rfl
      by_cases hminus : c = '-'
      · subst hminus
        rfl
      have hsign : takeSign true (c :: cs) = (none, c :: cs) := by
        unfold takeSign
        split <;> simp_all
      simp [hsign, Sign.ofChar?, hplus, hminus]

/-- The integer at the beginning of a text, read to its end. -/
theorem IntFormat.read_eq (format : IntFormat) (text : List Char) :
    format.read text =
      let s := Spelling.ofText format.base format.digits.max format.signed text
      (Numeral.extend format.base s.digits { sign := s.sign }).outcome format s.rest := by
  rw [read_takeSign, Numeral.readDigits_eq _ _ _ (.inr (Nat.zero_le _)), Numeral.taken_zero rfl]
  rfl

/-- A complete spelling has the value that it writes, if it is accepted. -/
theorem Numeral.value?_extend (format : IntFormat) (s : Spelling) :
    (extend format.base s.digits { sign := s.sign }).value? format =
      if s.Accepted format.base format.digits.min
      then some (Int64.ofInt (s.number format.base)) else none := by
  obtain ⟨sign, digits, rest⟩ := s
  have hnumber : (extend format.base digits { sign }).toInt =
      Spelling.number format.base ⟨sign, digits, rest⟩ := by
    cases sign with
    | none => simp [toInt, extend, Spelling.number]
    | some sign => cases sign <;> simp [toInt, extend, Spelling.number]
  have hcount : (extend format.base digits { sign }).count = digits.length := Nat.zero_add _
  have hsign : (extend format.base digits { sign }).sign = sign := rfl
  unfold value?
  rw [hnumber, hcount, hsign]
  by_cases h : Spelling.Accepted format.base format.digits.min ⟨sign, digits, rest⟩
  · have hmin : ¬ digits.length < format.digits.min := Nat.not_lt.2 h.1
    have hlone : ¬ (digits.length = 0 ∧ sign.isSome = true) := fun ⟨hlength, hs⟩ =>
      h.2.1 hs (List.length_eq_zero_iff.1 hlength)
    rw [if_pos h, if_neg hmin, if_neg hlone, if_pos h.2.2]
  · rw [if_neg h]
    split
    · rfl
    · split
      · rfl
      · rename_i hmin hlone
        rw [if_neg]
        intro hfits
        refine h ⟨Nat.not_lt.1 hmin, fun hs hnil => hlone ⟨?_, hs⟩, hfits⟩
        exact List.length_eq_zero_iff.2 hnil

/-- A text is read as the number that is written at its beginning, if that is accepted. -/
theorem IntFormat.read_spelling (format : IntFormat) {text : List Char} {s : Spelling}
    (hs : s = Spelling.ofText format.base format.digits.max format.signed text) :
    format.read text = if s.Accepted format.base format.digits.min
      then .matched (.int (Int64.ofInt (s.number format.base))) s.rest else .failed := by
  rw [read_eq]
  dsimp only
  rw [← hs, Numeral.outcome, Numeral.value?_extend]
  split <;> simp_all

/-! ## The number read so far -/

namespace Machine

variable {σ : Type} {rules : RuleBook} {format : IntFormat} {m m' : Machine σ} {k : Nat}

/-- A match of an integer on its own, with a number within the limit read so far. -/
structure Accumulates (format : IntFormat) (m : Machine σ) : Prop where
  stack : m.stack = []
  control : m.control = .enter (.int format) none ∨
    (∃ n : Numeral, m.control = .scan (.int format n) ∧ n.magnitude ≤ Numeral.limit) ∨
    (∃ v, m.control = .matched v) ∨ m.control = .failed

theorem accumulates_intOutcome (format : IntFormat) (n : Numeral) (hs : m.stack = []) :
    Accumulates format (m.goto (intOutcome format n)) := by
  refine ⟨hs, .inr (.inr ?_)⟩
  show (∃ v, intOutcome format n = .matched v) ∨ intOutcome format n = .failed
  unfold intOutcome
  split
  · exact .inl ⟨_, rfl⟩
  · exact .inr rfl

variable [Source σ]

theorem accumulates_take {n : Numeral} (hs : m.stack = []) (hn : n.magnitude ≤ Numeral.limit)
    (h : m.take (.scan (.int format n)) = .ok (.moved m')) : Accumulates format m' := by
  unfold take advance at h
  cases ha : Source.advance m.source with
  | error f =>
    rw [ha] at h
    cases h
  | ok s =>
    rw [ha] at h
    cases h
    exact ⟨hs, .inr (.inl ⟨n, rfl, hn⟩)⟩

theorem Numeral.magnitude_push? {base d : Nat} {n n' : Numeral} (h : n.push? base d = some n') :
    n'.magnitude ≤ Numeral.limit := by
  unfold Numeral.push? at h
  dsimp only at h
  split at h
  · cases h
  · cases h
    exact Nat.not_lt.1 ‹_›

/-- A step keeps the number within the limit. -/
theorem Accumulates.step (h : Accumulates format m) (hm : m.step rules = .ok (.moved m')) :
    Accumulates format m' := by
  obtain ⟨control, stack, s, log⟩ := m
  obtain ⟨rfl, hc⟩ := h
  rcases hc with rfl | ⟨n, rfl, hn⟩ | ⟨v, rfl⟩ | rfl
  · cases hm
    exact ⟨rfl, .inr (.inl ⟨{}, rfl, Nat.zero_le _⟩)⟩
  · change scanInt format n _ = _ at hm
    unfold scanInt at hm
    split at hm
    · cases hm
      exact accumulates_intOutcome format n rfl
    · cases ha : ahead ⟨.scan (.int format n), [], s, log⟩ with
      | error f =>
        rw [ha] at hm
        cases hm
      | ok a =>
        rw [ha] at hm
        cases a with
        | unknown => cases hm
        | ended =>
          cases hm
          exact accumulates_intOutcome format n rfl
        | char c =>
          simp only [bind, Except.bind] at hm
          split at hm
          · rename_i sign _
            exact accumulates_take (n := { n with sign := some sign }) rfl hn hm
          · split at hm
            · cases hm
              exact accumulates_intOutcome format n rfl
            · split at hm
              · cases hm
                exact ⟨rfl, .inr (.inr (.inr rfl))⟩
              · rename_i hpush
                exact accumulates_take rfl (Numeral.magnitude_push? hpush) hm
  · cases hm
  · cases hm

theorem Accumulates.moves (h : Accumulates format m) (hm : Moves rules k m m') :
    Accumulates format m' := by
  induction hm with
  | refl => exact h
  | cons hs _ ih => exact ih (h.step hs)

end Machine

/-! ## Answers -/

/-- An integer pattern has the format that it was built from. -/
theorem Pattern.intWith_eq_ok {base min max : Nat} {signed : Bool} {p : Pattern}
    (h : Pattern.intWith base min max signed = .ok p) :
    ∃ format : IntFormat, p = .int format ∧ format.base = base ∧ format.digits.min = min ∧
      format.digits.max = max ∧ format.signed = signed := by
  unfold intWith IntFormat.ofNats Bounds.ofNats? at h
  by_cases hb : 2 ≤ base ∧ base ≤ 36
  · by_cases hd : max = 0 ∨ min ≤ max
    · simp only [hb, hd, dif_pos, and_self] at h
      cases h
      exact ⟨⟨base, ⟨min, max, hd⟩, signed, hb⟩, rfl, rfl, rfl, rfl, rfl⟩
    · simp only [hb, hd, dif_pos, dif_neg, and_self, not_false_eq_true] at h
      cases h
  · simp only [hb, dif_neg, not_false_eq_true] at h
    cases h

theorem toInt_ofInt_of_fits {n : Int} (h : IntKind.int64.Fits n) : (Int64.ofInt n).toInt = n :=
  Int64.toInt_ofInt_of_le (IntKind.fits_int64.1 h).1 (IntKind.fits_int64.1 h).2

/-- The number without a sign or with a plus is not negative. -/
theorem Spelling.sign_of_number_neg {base : Nat} {s : Spelling} (h : s.number base < 0) :
    s.sign = some .minus := by
  unfold number at h
  split at h
  · assumption
  · omega

/-- The largest number of 128 bits, with a sign. -/
def maxAccumulator : Nat := 2 ^ 127 - 1

/-- A text is read as an integer if the spelling at its beginning is accepted: there are enough
digits, a sign is followed by one at least, and the number written, however many digits it has, fits
into 64 bits. The value is then exactly that number, and the rest is what follows the digits.
Otherwise there is no match. The lowest number of 64 bits is read with a minus sign only. On the
way, whatever the input, the number read so far can take any further digit without getting larger
than 128 bits. -/
theorem parsePrefix_intWith {base min max : Nat} {signed : Bool} {p : Pattern}
    (hp : Pattern.intWith base min max signed = .ok p) (rules : RuleBook) (text : String) :
    let s := Spelling.ofText base max signed text.toList
    (∃ steps, ∀ fuel > steps,
      (s.Accepted base min → ∃ v : Int64, v.toInt = s.number base ∧
        (parsePrefix rules fuel p text).outcome = .ok (.int v, String.ofList s.rest)) ∧
      (¬ s.Accepted base min →
        (parsePrefix rules fuel p text).outcome = .error (.error .noMatch)) ∧
      ∀ rest, (parsePrefix rules fuel p text).outcome = .ok (.int Int64.minValue, rest) →
        s.sign = some .minus) ∧
    ∀ (σ : Type) [Source σ] (source : σ) k (m : Machine σ) format (n : Numeral),
      Machine.Moves rules k (.start p source) m → m.control = .scan (.int format n) →
      ∀ d < base, n.magnitude * base + d ≤ maxAccumulator := by
  intro s
  obtain ⟨format, rfl, rfl, rfl, rfl, rfl⟩ := Pattern.intWith_eq_ok hp
  refine ⟨?_, fun σ _ source k m format' n hm hc d hd => ?_⟩
  · have hread := format.read_spelling (s := s) rfl
    have hmatches : Matches rules (.int format) none text.toList (format.read text.toList) [] :=
      .token .none rfl
    have hleaf : rules.collect (.int format) = .ok [] := rules.collect_leaf rfl (by simp)
    obtain ⟨steps, hsteps⟩ := hmatches.answers hleaf
    refine ⟨steps, fun fuel hfuel => ?_⟩
    rw [(hsteps fuel hfuel).1, hread]
    refine ⟨fun h => ?_, fun h => ?_, fun rest h => ?_⟩
    · rw [if_pos h]
      exact ⟨_, toInt_ofInt_of_fits h.2.2, rfl⟩
    · rw [if_neg h]
      rfl
    · by_cases hacc : s.Accepted format.base format.digits.min
      · rw [if_pos hacc] at h
        simp only [Outcome.answer, Except.ok.injEq, Prod.mk.injEq, Value.int.injEq] at h
        have hnumber := toInt_ofInt_of_fits hacc.2.2
        rw [h.1, Int64.toInt_minValue] at hnumber
        have hneg : s.number format.base < 0 := by omega
        exact Spelling.sign_of_number_neg hneg
      · rw [if_neg hacc] at h
        cases h
  · have hstart : Machine.Accumulates format (Machine.start (.int format) source) :=
      ⟨rfl, .inl rfl⟩
    have hbase := format.base_mem.2
    have hmagnitude : n.magnitude ≤ Numeral.limit := by
      rcases (hstart.moves hm).control with h | ⟨n', h, hn'⟩ | ⟨v, h⟩ | h
      · cases h.symm.trans hc
      · cases h.symm.trans hc
        exact hn'
      · cases h.symm.trans hc
      · cases h.symm.trans hc
    calc n.magnitude * format.base + d ≤ Numeral.limit * 36 + 36 :=
          Nat.add_le_add (Nat.mul_le_mul hmagnitude hbase) (by omega)
      _ ≤ maxAccumulator := by decide

/-- The lowest number of 64 bits, in base sixteen and with a letter after it. -/
theorem parsePrefix_intWith_lowest : ∃ p v steps, Pattern.intWith 16 1 0 true = .ok p ∧
    v.toInt = -2 ^ 63 ∧ ∀ fuel > steps,
      (parsePrefix .empty fuel p "-8000000000000000g").outcome = .ok (.int v, "g") := by
  have hp : Pattern.intWith 16 1 0 true = .ok (.int ⟨16, .atLeast 1, true, by decide⟩) := rfl
  have hs : Spelling.ofText 16 0 true "-8000000000000000g".toList =
      ⟨some .minus, "8000000000000000".toList, ['g']⟩ := by decide
  obtain ⟨⟨steps, hsteps⟩, -⟩ := parsePrefix_intWith hp .empty "-8000000000000000g"
  rw [hs] at hsteps
  obtain ⟨v, hv, -⟩ := (hsteps (steps + 1) (Nat.lt_succ_self _)).1 (by decide)
  refine ⟨_, v, steps, hp, hv, fun fuel hfuel => ?_⟩
  obtain ⟨w, hw, hanswer⟩ := (hsteps fuel hfuel).1 (by decide)
  rw [Int64.toInt_inj.1 (hv.trans hw.symm)]
  exact hanswer

end PegStream
