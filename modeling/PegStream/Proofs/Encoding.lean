import PegStream.Text.Slice
import PegStream.Text.Utf8

/-!
# Bytes and characters

Reading a character off some bytes gives back exactly what the encoding of characters puts there,
and nothing else is read as a character. So the text at the beginning of some bytes is the longest
one whose encoding they begin with, and a decoder that receives the bytes in blocks gives out this
text piece by piece, wherever the blocks are cut.

* `Utf8.head_encodeChar`, `Utf8.eq_encodeChar_of_head`: one character, read and encoded;
* `Utf8.LongestText`: the longest text at the beginning of some bytes;
* `Utf8.decode_append`: what is read does not change when more bytes follow;
* `Utf8.Carries`: a decoder between two blocks.
-/

namespace PegStream.Utf8

/-! ## Encoded characters -/

theorem toNat_ofNat {v : Nat} (h : v.isValidChar) : (Char.ofNat v).val.toNat = v := by
  rw [Char.ofNat, dif_pos h]
  change (UInt32.ofBitVec (BitVec.ofNatLT v _)).toNat = v
  simp

section

variable {v : Nat}

theorem encodeChar_one (h : v < 0x80) :
    String.utf8EncodeChar (Char.ofNat v) = [UInt8.ofNat v] := by
  have hv : (Char.ofNat v).val.toNat = v := toNat_ofNat (.inl (by omega))
  unfold String.utf8EncodeChar
  rw [hv, if_pos (by omega)]

theorem encodeChar_two (h : 0x80 ≤ v) (h' : v < 0x800) :
    String.utf8EncodeChar (Char.ofNat v) =
      [UInt8.ofNat (v / 64 + 0xC0), UInt8.ofNat (v % 64 + 0x80)] := by
  have hv : (Char.ofNat v).val.toNat = v := toNat_ofNat (.inl (by omega))
  unfold String.utf8EncodeChar
  rw [hv, if_neg (by omega), if_pos (by omega)]
  simp only [Nat.mod_eq_of_lt (show v / 64 < 32 by omega)]

theorem encodeChar_three (h : 0x800 ≤ v) (h' : v < 0x10000) (hv : v.isValidChar) :
    String.utf8EncodeChar (Char.ofNat v) =
      [UInt8.ofNat (v / 4096 + 0xE0), UInt8.ofNat (v / 64 % 64 + 0x80),
        UInt8.ofNat (v % 64 + 0x80)] := by
  unfold String.utf8EncodeChar
  rw [toNat_ofNat hv, if_neg (by omega), if_neg (by omega), if_pos (by omega)]
  simp only [Nat.mod_eq_of_lt (show v / 4096 < 16 by omega)]

theorem encodeChar_four (h : 0x10000 ≤ v) (h' : v < 0x110000) :
    String.utf8EncodeChar (Char.ofNat v) =
      [UInt8.ofNat (v / 262144 + 0xF0), UInt8.ofNat (v / 4096 % 64 + 0x80),
        UInt8.ofNat (v / 64 % 64 + 0x80), UInt8.ofNat (v % 64 + 0x80)] := by
  have hv : (Char.ofNat v).val.toNat = v := toNat_ofNat (.inr (by omega))
  unfold String.utf8EncodeChar
  rw [hv, if_neg (by omega), if_neg (by omega), if_neg (by omega)]
  simp only [Nat.mod_eq_of_lt (show v / 262144 < 8 by omega)]

end

/-! ## Characters read -/

/-- What a first byte announces, by its number. -/
theorem lead?_eq (b : UInt8) : lead? b =
    if b.toNat < 0x80 then some ⟨0, 0, 0, b.toNat⟩
    else if b.toNat < 0xC2 then none
    else if b.toNat < 0xE0 then some ⟨1, 0x80, 0xBF, b.toNat - 0xC0⟩
    else if b.toNat < 0xF0 then
      some ⟨2, if b.toNat = 0xE0 then 0xA0 else 0x80, if b.toNat = 0xED then 0x9F else 0xBF,
        b.toNat - 0xE0⟩
    else if b.toNat < 0xF5 then
      some ⟨3, if b.toNat = 0xF0 then 0x90 else 0x80, if b.toNat = 0xF4 then 0x8F else 0xBF,
        b.toNat - 0xF0⟩
    else none := by
  simp only [lead?, UInt8.lt_iff_toNat_lt, ← UInt8.toNat_inj]
  rfl

theorem toNat_byte {x : Nat} (h : x < 256) : (UInt8.ofNat x).toNat = x :=
  UInt8.toNat_ofNat_of_lt' h

theorem head_cons {b : UInt8} {l : Lead} (h : lead? b = some l) (rest : List UInt8) :
    head (b :: rest) = follow l.bits l.more l.low l.high rest := by
  rw [head, h]

/-- A byte that follows adds six bits, if it keeps the bounds. -/
theorem follow_byte {bits more x : Nat} {low high : UInt8} (hx : x < 64)
    (hl : low.toNat ≤ x + 0x80) (hh : x + 0x80 ≤ high.toNat) (rest : List UInt8) :
    follow bits (more + 1) low high (UInt8.ofNat (x + 0x80) :: rest) =
      follow (bits * 64 + x) more 0x80 0xBF rest := by
  have hb : (UInt8.ofNat (x + 0x80)).toNat = x + 0x80 := toNat_byte (by omega)
  have hbits : (x + 0x80) % 64 = x := by omega
  rw [follow, if_pos (by rw [UInt8.le_iff_toNat_le, UInt8.le_iff_toNat_le, hb]; exact ⟨hl, hh⟩),
    hb, hbits]

theorem follow_tail {bits more x : Nat} (hx : x < 64) (rest : List UInt8) :
    follow bits (more + 1) 0x80 0xBF (UInt8.ofNat (x + 0x80) :: rest) =
      follow (bits * 64 + x) more 0x80 0xBF rest := by
  refine follow_byte hx (Nat.le_add_left _ _) ?_ rest
  change x + 128 ≤ 191
  omega

section

variable {v : Nat} (rest : List UInt8)

theorem head_one (h : v < 0x80) :
    head (String.utf8EncodeChar (Char.ofNat v) ++ rest) = .char (Char.ofNat v) rest := by
  have hlead : lead? (UInt8.ofNat v) = some ⟨0, 0, 0, v⟩ := by
    rw [lead?_eq, toNat_byte (by omega), if_pos h]
  rw [encodeChar_one h]
  exact head_cons hlead rest

theorem head_two (h : 0x80 ≤ v) (h' : v < 0x800) :
    head (String.utf8EncodeChar (Char.ofNat v) ++ rest) = .char (Char.ofNat v) rest := by
  have hlead : lead? (UInt8.ofNat (v / 64 + 0xC0)) = some ⟨1, 0x80, 0xBF, v / 64⟩ := by
    rw [lead?_eq, toNat_byte (by omega), if_neg (by omega), if_neg (by omega), if_pos (by omega),
      Nat.add_sub_cancel]
  have hbits : v / 64 * 64 + v % 64 = v := by omega
  rw [encodeChar_two h h', List.cons_append, head_cons hlead, List.cons_append,
    follow_tail (by omega), hbits]
  rfl

theorem head_three (h : 0x800 ≤ v) (h' : v < 0x10000) (hv : v < 0xD800 ∨ 0xDFFF < v) :
    head (String.utf8EncodeChar (Char.ofNat v) ++ rest) = .char (Char.ofNat v) rest := by
  have hlead : lead? (UInt8.ofNat (v / 4096 + 0xE0)) =
      some ⟨2, if v / 4096 + 0xE0 = 0xE0 then 0xA0 else 0x80,
        if v / 4096 + 0xE0 = 0xED then 0x9F else 0xBF, v / 4096⟩ := by
    rw [lead?_eq, toNat_byte (by omega), if_neg (by omega), if_neg (by omega), if_neg (by omega),
      if_pos (by omega), Nat.add_sub_cancel]
  have hbits : (v / 4096 * 64 + v / 64 % 64) * 64 + v % 64 = v := by omega
  rw [encodeChar_three h h' (hv.imp_right fun hv => ⟨hv, by omega⟩), List.cons_append,
    head_cons hlead, List.cons_append, follow_byte (by omega), List.cons_append,
    follow_tail (by omega), hbits]
  · rfl
  -- The bounds leave out overlong encodings below, and surrogates above.
  · dsimp only
    split
    · change 160 ≤ _
      omega
    · exact Nat.le_add_left _ _
  · dsimp only
    split
    · change _ ≤ 159
      omega
    · change _ ≤ 191
      omega

theorem head_four (h : 0x10000 ≤ v) (h' : v < 0x110000) :
    head (String.utf8EncodeChar (Char.ofNat v) ++ rest) = .char (Char.ofNat v) rest := by
  have hlead : lead? (UInt8.ofNat (v / 262144 + 0xF0)) =
      some ⟨3, if v / 262144 + 0xF0 = 0xF0 then 0x90 else 0x80,
        if v / 262144 + 0xF0 = 0xF4 then 0x8F else 0xBF, v / 262144⟩ := by
    rw [lead?_eq, toNat_byte (by omega), if_neg (by omega), if_neg (by omega), if_neg (by omega),
      if_neg (by omega), if_pos (by omega), Nat.add_sub_cancel]
  have hbits : ((v / 262144 * 64 + v / 4096 % 64) * 64 + v / 64 % 64) * 64 + v % 64 = v := by
    omega
  rw [encodeChar_four h h', List.cons_append, head_cons hlead, List.cons_append,
    follow_byte (by omega), List.cons_append, follow_tail (by omega), List.cons_append,
    follow_tail (by omega), hbits]
  · rfl
  -- The bounds leave out overlong encodings below, and what is no code point above.
  · dsimp only
    split
    · change 144 ≤ _
      omega
    · exact Nat.le_add_left _ _
  · dsimp only
    split
    · change _ ≤ 143
      omega
    · change _ ≤ 191
      omega

end

/-- A character is read off its encoding. -/
theorem head_encodeChar (c : Char) (rest : List UInt8) :
    head (String.utf8EncodeChar c ++ rest) = .char c rest := by
  have hvalid : c.toNat < 0xD800 ∨ 0xDFFF < c.toNat ∧ c.toNat < 0x110000 := c.valid
  rw [← Char.ofNat_toNat c]
  generalize c.toNat = v at hvalid
  by_cases h₁ : v < 0x80
  · exact head_one rest h₁
  by_cases h₂ : v < 0x800
  · exact head_two rest (by omega) h₂
  by_cases h₃ : v < 0x10000
  · exact head_three rest (by omega) h₃ (by omega)
  · exact head_four rest (by omega) (by omega)

/-! ## Nothing else is read -/

theorem exists_of_follow {bits more : Nat} {low high : UInt8} {bytes rest : List UInt8} {c : Char}
    (h : follow bits (more + 1) low high bytes = .char c rest) :
    ∃ b tail, bytes = b :: tail ∧ low.toNat ≤ b.toNat ∧ b.toNat ≤ high.toNat ∧
      follow (bits * 64 + b.toNat % 64) more 0x80 0xBF tail = .char c rest := by
  cases bytes with
  | nil => cases h
  | cons b tail =>
    rw [follow] at h
    split at h
    · rename_i hb
      exact ⟨b, tail, rfl, UInt8.le_iff_toNat_le.1 hb.1, UInt8.le_iff_toNat_le.1 hb.2, h⟩
    · cases h

theorem byte_eq {b : UInt8} {x : Nat} (h : x = b.toNat) : UInt8.ofNat x = b := by
  rw [h, UInt8.ofNat_toNat]

theorem exists_of_tail {bits more : Nat} {bytes rest : List UInt8} {c : Char}
    (h : follow bits (more + 1) 0x80 0xBF bytes = .char c rest) :
    ∃ b tail, bytes = b :: tail ∧ 0x80 ≤ b.toNat ∧ b.toNat < 0xC0 ∧
      follow (bits * 64 + b.toNat % 64) more 0x80 0xBF tail = .char c rest := by
  obtain ⟨b, tail, hb, hl, hh, h⟩ := exists_of_follow h
  exact ⟨b, tail, hb, hl, Nat.lt_succ_of_le hh, h⟩

section

variable {b : UInt8} {bytes rest : List UInt8} {c : Char}

theorem eq_two (hl : 0xC2 ≤ b.toNat) (hh : b.toNat < 0xE0)
    (h : follow (b.toNat - 0xC0) 1 0x80 0xBF bytes = .char c rest) :
    b :: bytes = String.utf8EncodeChar c ++ rest := by
  obtain ⟨b₁, tail, rfl, hl₁, hh₁, h⟩ := exists_of_tail h
  cases h
  rw [encodeChar_two (by omega) (by omega), byte_eq (b := b) (by omega),
    byte_eq (b := b₁) (by omega)]
  rfl

theorem eq_three (hl : 0xE0 ≤ b.toNat) (hh : b.toNat < 0xF0)
    (h : follow (b.toNat - 0xE0) 2 (if b.toNat = 0xE0 then 0xA0 else 0x80)
      (if b.toNat = 0xED then 0x9F else 0xBF) bytes = .char c rest) :
    b :: bytes = String.utf8EncodeChar c ++ rest := by
  obtain ⟨b₁, tail, rfl, hl₁, hh₁, h⟩ := exists_of_follow h
  obtain ⟨b₂, tail, rfl, hl₂, hh₂, h⟩ := exists_of_tail h
  cases h
  have hlow : 0x80 ≤ b₁.toNat ∧ (b.toNat = 0xE0 → 0xA0 ≤ b₁.toNat) := by
    split at hl₁ <;> simp at hl₁ <;> omega
  have hhigh : b₁.toNat < 0xC0 ∧ (b.toNat = 0xED → b₁.toNat < 0xA0) := by
    split at hh₁ <;> simp at hh₁ <;> omega
  rw [encodeChar_three (by omega) (by omega), byte_eq (b := b) (by omega),
    byte_eq (b := b₁) (by omega), byte_eq (b := b₂) (by omega)]
  · rfl
  · change _ < 0xD800 ∨ 0xDFFF < _ ∧ _ < 0x110000
    omega

theorem eq_four (hl : 0xF0 ≤ b.toNat) (hh : b.toNat < 0xF5)
    (h : follow (b.toNat - 0xF0) 3 (if b.toNat = 0xF0 then 0x90 else 0x80)
      (if b.toNat = 0xF4 then 0x8F else 0xBF) bytes = .char c rest) :
    b :: bytes = String.utf8EncodeChar c ++ rest := by
  obtain ⟨b₁, tail, rfl, hl₁, hh₁, h⟩ := exists_of_follow h
  obtain ⟨b₂, tail, rfl, hl₂, hh₂, h⟩ := exists_of_tail h
  obtain ⟨b₃, tail, rfl, hl₃, hh₃, h⟩ := exists_of_tail h
  cases h
  have hlow : 0x80 ≤ b₁.toNat ∧ (b.toNat = 0xF0 → 0x90 ≤ b₁.toNat) := by
    split at hl₁ <;> simp at hl₁ <;> omega
  have hhigh : b₁.toNat < 0xC0 ∧ (b.toNat = 0xF4 → b₁.toNat < 0x90) := by
    split at hh₁ <;> simp at hh₁ <;> omega
  rw [encodeChar_four (by omega) (by omega), byte_eq (b := b) (by omega),
    byte_eq (b := b₁) (by omega), byte_eq (b := b₂) (by omega), byte_eq (b := b₃) (by omega)]
  rfl

/-- Bytes that are read as a character are its encoding. -/
theorem eq_encodeChar_of_head (h : head bytes = .char c rest) :
    bytes = String.utf8EncodeChar c ++ rest := by
  cases bytes with
  | nil => cases h
  | cons b bytes =>
    rw [head, lead?_eq] at h
    by_cases h₁ : b.toNat < 0x80
    · rw [if_pos h₁] at h
      cases h
      rw [encodeChar_one h₁, byte_eq rfl]
      rfl
    by_cases h₂ : b.toNat < 0xC2
    · rw [if_neg h₁, if_pos h₂] at h
      cases h
    by_cases h₃ : b.toNat < 0xE0
    · rw [if_neg h₁, if_neg h₂, if_pos h₃] at h
      exact eq_two (by omega) h₃ h
    by_cases h₄ : b.toNat < 0xF0
    · rw [if_neg h₁, if_neg h₂, if_neg h₃, if_pos h₄] at h
      exact eq_three (by omega) h₄ h
    by_cases h₅ : b.toNat < 0xF5
    · rw [if_neg h₁, if_neg h₂, if_neg h₃, if_neg h₄, if_pos h₅] at h
      exact eq_four (by omega) h₅ h
    · rw [if_neg h₁, if_neg h₂, if_neg h₃, if_neg h₄, if_neg h₅] at h
      cases h

end

/-! ## More bytes -/

theorem follow_append {bits more : Nat} {low high : UInt8} {bytes : List UInt8}
    (h : follow bits more low high bytes = .invalid) (extra : List UInt8) :
    follow bits more low high (bytes ++ extra) = .invalid := by
  fun_induction follow bits more low high bytes with
  | case1 => cases h
  | case2 => cases h
  | case3 bits more low high b rest hb ih =>
    rw [List.cons_append, follow, if_pos hb]
    exact ih h
  | case4 bits more low high b rest hb => rw [List.cons_append, follow, if_neg hb]

/-- Bytes that can never become a character do not become one. -/
theorem head_invalid_append {bytes : List UInt8} (h : head bytes = .invalid)
    (extra : List UInt8) : head (bytes ++ extra) = .invalid := by
  cases bytes with
  | nil => cases h
  | cons b bytes =>
    rw [List.cons_append, head]
    rw [head] at h
    cases hl : lead? b with
    | none => rfl
    | some l =>
      rw [hl] at h
      exact follow_append h extra

/-! ## Texts -/

/-- The bytes that encode a text. -/
def encode (s : String) : List UInt8 := s.toUTF8.data.toList

/-- The bytes that encode some characters. -/
def encodeChars (cs : List Char) : List UInt8 := cs.flatMap String.utf8EncodeChar

theorem encode_ofList (cs : List Char) : encode (String.ofList cs) = encodeChars cs := by
  rw [encode, String.toUTF8_eq_toByteArray, String.toByteArray_ofList, List.utf8Encode,
    List.data_toByteArray]
  rfl

theorem encode_eq (s : String) : encode s = encodeChars s.toList := by
  rw [← encode_ofList, String.ofList_toList]

theorem encodeChars_append (cs ds : List Char) :
    encodeChars (cs ++ ds) = encodeChars cs ++ encodeChars ds :=
  List.flatMap_append

theorem length_encode (s : String) : (encode s).length = s.utf8ByteSize := rfl

theorem decode_of_char {bytes rest : List UInt8} {c : Char} (h : head bytes = .char c rest) :
    decode bytes = { decode rest with chars := c :: (decode rest).chars } := by
  rw [decode]
  split
  · rename_i h'
    cases h.symm.trans h'
    rfl
  · rename_i h'
    cases h.symm.trans h'
  · rename_i h'
    cases h.symm.trans h'

theorem decode_of_incomplete {bytes : List UInt8} (h : head bytes = .incomplete) :
    decode bytes = ⟨[], bytes, true⟩ := by
  rw [decode]
  split
  · rename_i h'
    cases h.symm.trans h'
  · rfl
  · rename_i h'
    cases h.symm.trans h'

theorem decode_of_invalid {bytes : List UInt8} (h : head bytes = .invalid) :
    decode bytes = ⟨[], bytes, false⟩ := by
  rw [decode]
  split
  · rename_i h'
    cases h.symm.trans h'
  · rename_i h'
    cases h.symm.trans h'
  · rfl

/-- The bytes are the encoding of the characters read, and the rest. -/
theorem encodeChars_decode (bytes : List UInt8) :
    encodeChars (decode bytes).chars ++ (decode bytes).rest = bytes := by
  induction hn : bytes.length using Nat.strongRecOn generalizing bytes with
  | ind n ih =>
    cases h : head bytes with
    | char c rest =>
      have hrest := ih rest.length (hn ▸ head_length_lt h) rest rfl
      rw [decode_of_char h, eq_encodeChar_of_head h]
      change encodeChars ([c] ++ (decode rest).chars) ++ (decode rest).rest = _
      rw [encodeChars_append, List.append_assoc, hrest]
      simp [encodeChars]
    | incomplete => rw [decode_of_incomplete h]; rfl
    | invalid => rw [decode_of_invalid h]; rfl

theorem decode_encodeChars (cs : List Char) (rest : List UInt8) :
    decode (encodeChars cs ++ rest) = { decode rest with chars := cs ++ (decode rest).chars } := by
  induction cs with
  | nil => rfl
  | cons c cs ih =>
    have hsplit : encodeChars (c :: cs) ++ rest =
        String.utf8EncodeChar c ++ (encodeChars cs ++ rest) := by simp [encodeChars]
    rw [hsplit, decode_of_char (head_encodeChar c _), ih]
    rfl

theorem decode_nil : decode [] = ⟨[], [], true⟩ := decode_of_incomplete rfl

theorem decode_encode (s : String) : decode (encode s) = ⟨s.toList, [], true⟩ := by
  have h := decode_encodeChars s.toList []
  rwa [List.append_nil, decode_nil, List.append_nil, ← encode_eq] at h

/-- Where reading stops, the bytes are cut short or are no character. -/
theorem head_rest (bytes : List UInt8) :
    head (decode bytes).rest = if (decode bytes).valid then .incomplete else .invalid := by
  induction hn : bytes.length using Nat.strongRecOn generalizing bytes with
  | ind n ih =>
    cases h : head bytes with
    | char c rest =>
      rw [decode_of_char h]
      exact ih rest.length (hn ▸ head_length_lt h) rest rfl
    | incomplete => rw [decode_of_incomplete h]; exact h
    | invalid => rw [decode_of_invalid h]; exact h

/-- Bytes to follow only add to what is read. -/
theorem decode_append (bytes more : List UInt8) : decode (bytes ++ more) =
    { decode ((decode bytes).rest ++ more) with
      chars := (decode bytes).chars ++ (decode ((decode bytes).rest ++ more)).chars } := by
  conv => lhs; rw [← encodeChars_decode bytes, List.append_assoc, decode_encodeChars]

/-- What is no text stays none. -/
theorem decode_append_of_invalid {bytes : List UInt8} (h : (decode bytes).valid = false)
    (more : List UInt8) :
    decode (bytes ++ more) = ⟨(decode bytes).chars, (decode bytes).rest ++ more, false⟩ := by
  have hhead := head_rest bytes
  rw [h] at hhead
  rw [decode_append, decode_of_invalid (head_invalid_append hhead more), List.append_nil]

/-- The text at the beginning of some bytes. -/
def text (bytes : List UInt8) : String := String.ofList (decode bytes).chars

theorem text_encode (s : String) : text (encode s) = s := by
  rw [text, decode_encode, String.ofList_toList]

/-- No longer text than `v` has an encoding that the bytes begin with. -/
structure LongestText (bytes : List UInt8) (v : String) : Prop where
  begins : encode v <+: bytes
  longest : ∀ w, encode w <+: bytes → w.utf8ByteSize ≤ v.utf8ByteSize

/-- A text whose encoding the bytes begin with is the beginning of what is read. -/
theorem chars_of_begins {bytes : List UInt8} {w : String} (h : encode w <+: bytes) :
    w.toList <+: (decode bytes).chars := by
  obtain ⟨more, rfl⟩ := h
  rw [encode_eq, decode_encodeChars]
  exact List.prefix_append _ _

theorem byteCount_mono {cs ds : List Char} (h : cs <+: ds) :
    Text.byteCount cs ≤ Text.byteCount ds := by
  obtain ⟨more, rfl⟩ := h
  rw [Text.byteCount_append]
  exact Nat.le_add_right _ _

/-- The longest text is the one that is read. -/
theorem longestText_iff {bytes : List UInt8} {v : String} :
    LongestText bytes v ↔ v = text bytes := by
  have hbegins : encode (text bytes) <+: bytes := by
    rw [text, encode_ofList]
    exact ⟨_, encodeChars_decode bytes⟩
  constructor
  · intro h
    obtain ⟨more, hmore⟩ := chars_of_begins h.begins
    have hle := h.longest _ hbegins
    rw [text, Text.utf8ByteSize_ofList, ← hmore, Text.byteCount_append, Text.utf8ByteSize_eq] at hle
    have hnil : more = [] := by
      cases more with
      | nil => rfl
      | cons c cs =>
        have hpos := c.utf8Size_pos
        rw [Text.byteCount_cons] at hle
        omega
    rw [text, ← hmore, hnil, List.append_nil, String.ofList_toList]
  · rintro rfl
    refine ⟨hbegins, fun w hw => ?_⟩
    rw [text, Text.utf8ByteSize_ofList, Text.utf8ByteSize_eq]
    exact byteCount_mono (chars_of_begins hw)

/-- Bytes are an encoding if nothing is left of them. -/
theorem rest_eq_nil_iff {bytes : List UInt8} :
    (decode bytes).rest = [] ↔ ∃ s, bytes = encode s := by
  constructor
  · intro h
    refine ⟨text bytes, ?_⟩
    conv => lhs; rw [← encodeChars_decode bytes, h, List.append_nil]
    rw [text, encode_ofList]
  · rintro ⟨s, rfl⟩
    rw [decode_encode]

theorem ne_encode {bytes : List UInt8} (h : (decode bytes).rest ≠ []) (s : String) :
    bytes ≠ encode s := fun hs => h (rest_eq_nil_iff.2 ⟨s, hs⟩)

/-- Bytes that begin an encoding are cut short at worst. -/
theorem valid_of_begins {bytes : List UInt8} {s : String} (h : bytes <+: encode s) :
    (decode bytes).valid = true := by
  obtain ⟨more, hmore⟩ := h
  cases hv : (decode bytes).valid with
  | true => rfl
  | false =>
    have hall := decode_append_of_invalid hv more
    rw [hmore, decode_encode] at hall
    exact absurd (congrArg Decoded.valid hall) (by simp)

/-! ## Decoders -/

/-- The decoder has received the bytes, which are a text so far, and keeps what is cut short. -/
structure Carries (received : List UInt8) (d : Decoder) : Prop where
  pending : d.pending = (decode received).rest
  offset : d.offset = (text received).utf8ByteSize
  valid : (decode received).valid = true

theorem carries_empty : Carries [] {} := by
  refine ⟨?_, ?_, ?_⟩
  · rw [decode_nil]
  · rw [text, decode_nil]
    rfl
  · rw [decode_nil]

theorem text_append (received block : List UInt8) : text (received ++ block) =
    text received ++ text ((decode received).rest ++ block) := by
  rw [text, decode_append, String.ofList_append]
  rfl

theorem length_eq (bytes : List UInt8) :
    bytes.length = (text bytes).utf8ByteSize + (decode bytes).rest.length := by
  conv => lhs; rw [← encodeChars_decode bytes, List.length_append, ← encode_ofList, length_encode]
  rfl

/-- One more block either goes on with the text, or shows at which byte the text ends. -/
theorem Carries.push {received : List UInt8} {d : Decoder} (h : Carries received d)
    (block : List UInt8) :
    (∃ piece d', d.push block = .ok (piece, d') ∧ Carries (received ++ block) d' ∧
      text (received ++ block) = text received ++ piece) ∨
    (decode (received ++ block)).valid = false ∧
      d.push block = .error (text (received ++ block)).utf8ByteSize := by
  have hall := decode_append received block
  have htext := text_append received block
  have hoffset : d.offset + ((d.pending ++ block).length -
      (decode (d.pending ++ block)).rest.length) = (text (received ++ block)).utf8ByteSize := by
    rw [htext, String.utf8ByteSize_append, h.offset, h.pending,
      length_eq ((decode received).rest ++ block), Nat.add_sub_cancel]
  unfold Decoder.push
  dsimp only
  rw [hoffset, h.pending]
  cases hv : (decode ((decode received).rest ++ block)).valid with
  | true =>
    refine .inl ⟨_, _, rfl, ⟨?_, rfl, ?_⟩, htext⟩
    · rw [hall]
    · rw [hall]
      exact hv
  | false => exact .inr ⟨by rw [hall]; exact hv, rfl⟩

/-- The bytes may end where no character is cut short. -/
theorem Carries.finish {received : List UInt8} {d : Decoder} (h : Carries received d) :
    d.finish = if (decode received).rest.isEmpty then .ok ()
      else .error (text received).utf8ByteSize := by
  rw [Decoder.finish, h.pending, h.offset]

end PegStream.Utf8
