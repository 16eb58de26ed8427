/-!
# UTF-8

`Utf8.head` reads the first character off a list of bytes and tells bytes that can still become a
character from bytes that cannot. The bounds on the second byte leave out overlong encodings,
surrogates and numbers beyond the last code point. `Utf8.decode` reads as many characters as there
are, and `Decoder` does so for bytes that arrive in blocks cut anywhere.
-/

namespace PegStream.Utf8

/-! ## Single characters -/

/-- What a first byte announces: the number of bytes to follow, the bounds of the next one, and the
high bits of the character. -/
structure Lead where
  more : Nat
  low : UInt8
  high : UInt8
  bits : Nat

/-- The announcement of a first byte, if it can be one. -/
def lead? (b : UInt8) : Option Lead :=
  if b < 0x80 then some ⟨0, 0, 0, b.toNat⟩
  else if b < 0xC2 then none
  else if b < 0xE0 then some ⟨1, 0x80, 0xBF, b.toNat - 0xC0⟩
  else if b < 0xF0 then
    some ⟨2, if b = 0xE0 then 0xA0 else 0x80, if b = 0xED then 0x9F else 0xBF, b.toNat - 0xE0⟩
  else if b < 0xF5 then
    some ⟨3, if b = 0xF0 then 0x90 else 0x80, if b = 0xF4 then 0x8F else 0xBF, b.toNat - 0xF0⟩
  else none

/-- How a list of bytes begins. -/
inductive Head where
  | char (c : Char) (rest : List UInt8)
  /-- The bytes are the beginning of a character, cut short. -/
  | incomplete
  /-- No bytes to follow can make a character of this beginning. -/
  | invalid

/-- Reads the bytes that follow a first one. -/
def follow (bits : Nat) : (more : Nat) → (low high : UInt8) → List UInt8 → Head
  | 0, _, _, rest => .char (Char.ofNat bits) rest
  | _ + 1, _, _, [] => .incomplete
  | more + 1, low, high, b :: rest =>
    if low ≤ b ∧ b ≤ high then follow (bits * 64 + b.toNat % 64) more 0x80 0xBF rest else .invalid

/-- Reads the first character. -/
def head : List UInt8 → Head
  | [] => .incomplete
  | b :: rest =>
    match lead? b with
    | some l => follow l.bits l.more l.low l.high rest
    | none => .invalid

theorem follow_length_le {bits more : Nat} {low high : UInt8} {bytes rest : List UInt8} {c : Char}
    (h : follow bits more low high bytes = .char c rest) : rest.length ≤ bytes.length := by
  fun_induction follow with
  | case1 => cases h; exact Nat.le_refl _
  | case2 => cases h
  | case3 _ _ _ _ _ _ _ ih => exact Nat.le_succ_of_le (ih h)
  | case4 => cases h

theorem head_length_lt {bytes rest : List UInt8} {c : Char} (h : head bytes = .char c rest) :
    rest.length < bytes.length := by
  match bytes with
  | [] => cases h
  | b :: bytes =>
    simp only [head] at h
    split at h
    · exact Nat.lt_succ_of_le (follow_length_le h)
    · cases h

/-! ## Texts -/

/-- The characters at the beginning of some bytes, and the bytes after them. -/
structure Decoded where
  chars : List Char
  rest : List UInt8
  /-- Whether `rest` can still go on to a character; it does when it is empty. -/
  valid : Bool

/-- Reads as many characters as there are. -/
def decode (bytes : List UInt8) : Decoded :=
  match _ : head bytes with
  | .char c rest =>
    let d := decode rest
    { d with chars := c :: d.chars }
  | .incomplete => ⟨[], bytes, true⟩
  | .invalid => ⟨[], bytes, false⟩
termination_by bytes.length
decreasing_by exact head_length_lt ‹_›

/-- The text that all of some bytes encode. -/
def decode? (bytes : List UInt8) : Option String :=
  let d := decode bytes
  if d.rest.isEmpty then some (String.ofList d.chars) else none

/-! ## Bytes in blocks -/

/-- A decoder between two blocks. -/
structure Decoder where
  /-- The bytes of a character cut short by the end of the last block. -/
  pending : List UInt8 := []
  /-- The offset of the first pending byte among all bytes received. -/
  offset : Nat := 0

namespace Decoder

/-- Decodes one more block, or gives the offset of the first byte that belongs to no character. -/
def push (d : Decoder) (block : List UInt8) : Except Nat (String × Decoder) :=
  let bytes := d.pending ++ block
  let r := decode bytes
  let offset := d.offset + (bytes.length - r.rest.length)
  if r.valid then .ok (String.ofList r.chars, ⟨r.rest, offset⟩) else .error offset

/-- Ends the bytes, or gives the offset of a character cut short. -/
def finish (d : Decoder) : Except Nat Unit :=
  if d.pending.isEmpty then .ok () else .error d.offset

end Decoder

end PegStream.Utf8
