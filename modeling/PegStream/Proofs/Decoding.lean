import PegStream.Proofs.Encoding

/-!
# Bytes in blocks

A decoder that receives some bytes in blocks says of them what a look at all the bytes at once would
say: it gives out the text that they encode, or finds where the longest text at their beginning
ends. Between two blocks it has given out all whole characters and keeps the beginning of one.

* `Utf8.exists_char_of_incomplete`: bytes that are cut short do go on to a character;
* `Utf8.Carries.pushAll`: what any number of blocks leads to;
* `Utf8.Decoder.blocks_decode_as_whole`: the decoder and the whole.
-/

namespace PegStream.Utf8

/-! ## Characters cut short -/

/-- The bytes that are to follow can be given: the lowest ones allowed. -/
theorem exists_follow (bits more : Nat) {low high : UInt8} (hb : low ≤ high) :
    ∃ missing c, missing ≠ [] ∧ follow bits (more + 1) low high missing = .char c [] := by
  induction more generalizing bits low high with
  | zero =>
    refine ⟨[low], Char.ofNat (bits * 64 + low.toNat % 64), by simp, ?_⟩
    rw [follow, if_pos ⟨UInt8.le_refl low, hb⟩, follow]
  | succ more ih =>
    have htail : (0x80 : UInt8) ≤ 0xBF := by decide
    obtain ⟨missing, c, -, hc⟩ := ih (bits * 64 + low.toNat % 64) htail
    refine ⟨low :: missing, c, by simp, ?_⟩
    rw [follow, if_pos ⟨UInt8.le_refl low, hb⟩]
    exact hc

/-- So can those that are missing at the end of some bytes. -/
theorem exists_follow_of_incomplete {bits more : Nat} {low high : UInt8} {bytes : List UInt8}
    (hb : low ≤ high) (h : follow bits more low high bytes = .incomplete) :
    ∃ missing c, missing ≠ [] ∧ follow bits more low high (bytes ++ missing) = .char c [] := by
  fun_induction follow bits more low high bytes with
  | case1 => cases h
  | case2 => exact exists_follow _ _ hb
  | case3 bits more low high b rest hbounds ih =>
    have htail : (0x80 : UInt8) ≤ 0xBF := by decide
    obtain ⟨missing, c, hne, hc⟩ := ih htail h
    refine ⟨missing, c, hne, ?_⟩
    rw [List.cons_append, follow, if_pos hbounds]
    exact hc
  | case4 => cases h

/-- The bounds that a first byte announces leave room for a next byte. -/
theorem low_le_high {b : UInt8} {l : Lead} (h : lead? b = some l) : l.low ≤ l.high := by
  have htail : (0x80 : UInt8) ≤ 0xBF := by decide
  unfold lead? at h
  split at h
  · cases h
    exact UInt8.le_refl 0
  split at h
  · cases h
  split at h
  · cases h
    exact htail
  split at h
  · cases h
    dsimp only
    split <;> split <;> first | decide | simp_all
  split at h
  · cases h
    dsimp only
    split <;> split <;> first | decide | simp_all
  · cases h

/-- Bytes that are cut short begin the encoding of a character, and are not all of it. -/
theorem exists_char_of_incomplete {bytes : List UInt8} (h : head bytes = .incomplete) :
    ∃ c missing, missing ≠ [] ∧ bytes ++ missing = String.utf8EncodeChar c := by
  cases bytes with
  | nil => exact ⟨'a', String.utf8EncodeChar 'a', by decide, rfl⟩
  | cons b bytes =>
    cases hl : lead? b with
    | none =>
      rw [head, hl] at h
      cases h
    | some l =>
      rw [head_cons hl] at h
      obtain ⟨missing, c, hne, hc⟩ := exists_follow_of_incomplete (low_le_high hl) h
      have hhead : head (b :: (bytes ++ missing)) = .char c [] := by
        rw [head_cons hl]
        exact hc
      have hbytes := eq_encodeChar_of_head hhead
      exact ⟨c, missing, hne, by simpa using hbytes⟩

theorem length_encodeChar_le (c : Char) : (String.utf8EncodeChar c).length ≤ 4 := by
  rw [String.length_utf8EncodeChar]
  exact c.utf8Size_le_four

/-! ## Blocks -/

namespace Decoder

/-- Decodes some blocks in order: the texts given out, and the decoder after them or the offset that
was reported. -/
def pushAll (d : Decoder) : List (List UInt8) → List String × Except Nat Decoder
  | [] => ([], .ok d)
  | block :: blocks =>
    match d.push block with
    | .error offset => ([], .error offset)
    | .ok (piece, d) =>
      let (pieces, result) := d.pushAll blocks
      (piece :: pieces, result)

/-- Decodes some blocks that are all there is. -/
def decodeAll (blocks : List (List UInt8)) : List String × Except Nat Unit :=
  let (pieces, result) := pushAll {} blocks
  (pieces, result >>= finish)

end Decoder

theorem text_append_of_invalid {bytes : List UInt8} (h : (decode bytes).valid = false)
    (more : List UInt8) : text (bytes ++ more) = text bytes := by
  rw [text, decode_append_of_invalid h]
  rfl

/-- Any number of blocks either go on with the text, or show at which byte the text ends. -/
theorem Carries.pushAll {received : List UInt8} {d : Decoder} (h : Carries received d)
    (blocks : List (List UInt8)) :
    (∃ pieces d', d.pushAll blocks = (pieces, .ok d') ∧
      Carries (received ++ blocks.flatten) d' ∧
      text (received ++ blocks.flatten) = text received ++ String.join pieces) ∨
    (decode (received ++ blocks.flatten)).valid = false ∧
      ∃ pieces more, d.pushAll blocks =
          (pieces, .error (text (received ++ blocks.flatten)).utf8ByteSize) ∧
        text (received ++ blocks.flatten) = text received ++ String.join pieces ++ more := by
  induction blocks generalizing received d with
  | nil =>
    refine .inl ⟨[], d, rfl, ?_, ?_⟩
    · simpa using h
    · simp
  | cons block blocks ih =>
    have hflatten : received ++ (block :: blocks).flatten =
        received ++ block ++ blocks.flatten := by simp
    rw [hflatten]
    rcases h.push block with ⟨piece, d₁, hpush, h₁, htext⟩ | ⟨hinvalid, hpush⟩
    · rcases ih h₁ with ⟨pieces, d', hall, h', htext'⟩ | ⟨hinvalid, pieces, more, hall, htext'⟩
      · refine .inl ⟨piece :: pieces, d', ?_, h', ?_⟩
        · simp only [Decoder.pushAll, hpush, hall]
        · rw [htext', htext, String.join_cons, String.append_assoc]
      · refine .inr ⟨hinvalid, piece :: pieces, more, ?_, ?_⟩
        · simp only [Decoder.pushAll, hpush, hall]
        · rw [htext', htext, String.join_cons, ← String.append_assoc]
    · -- The blocks that follow are never looked at, and would not make the text any longer.
      have htext : text (received ++ block ++ blocks.flatten) = text (received ++ block) :=
        text_append_of_invalid hinvalid _
      refine .inr ⟨?_, [], text ((decode received).rest ++ block), ?_, ?_⟩
      · rw [decode_append_of_invalid hinvalid]
      · simp only [Decoder.pushAll, hpush, htext]
      · rw [htext, text_append, String.join_nil, String.append_empty]

/-- The bytes are a proper beginning of the encoding of a character. -/
def Unfinished (bytes : List UInt8) : Prop :=
  ∃ c, bytes <+: String.utf8EncodeChar c ∧ bytes ≠ String.utf8EncodeChar c

/-- What a decoder keeps is the beginning of a character. -/
theorem Carries.unfinished {received : List UInt8} {d : Decoder} (h : Carries received d) :
    Unfinished d.pending ∧ d.pending.length ≤ 3 := by
  have hhead := head_rest received
  rw [h.valid, ← h.pending] at hhead
  obtain ⟨c, missing, hne, hc⟩ := exists_char_of_incomplete hhead
  have hpos : 0 < missing.length := List.length_pos_iff.2 hne
  have hlength := congrArg List.length hc
  rw [List.length_append] at hlength
  have hle := length_encodeChar_le c
  refine ⟨⟨c, ⟨missing, hc⟩, fun heq => ?_⟩, by omega⟩
  rw [heq] at hlength
  omega

/-- What a decoder gives out is a text when looked at by itself. -/
theorem Decoder.decode?_pushed {d d' : Decoder} {block : List UInt8} {piece : String}
    (h : d.push block = .ok (piece, d')) :
    decode? ((d.pending ++ block).take (d'.offset - d.offset)) = some piece := by
  unfold Decoder.push at h
  dsimp only at h
  split at h
  · cases h
    generalize d.pending ++ block = bytes
    have hlength := length_eq bytes
    have hencode : encodeChars (decode bytes).chars = encode (text bytes) :=
      (encode_ofList _).symm
    have htake : bytes.take (d.offset + (bytes.length - (decode bytes).rest.length) - d.offset) =
        encode (text bytes) := by
      rw [Nat.add_sub_cancel_left, ← hencode]
      conv => lhs; arg 2; rw [← encodeChars_decode bytes]
      refine List.take_left' ?_
      rw [hencode, length_encode]
      omega
    rw [htake, decode?, decode_encode]
    simp [text]
  · cases h

/-- Bytes that are received in blocks, cut anywhere, are decoded as they are at once. If they are
the encoding of a text, every block is decoded, the end is accepted and the pieces make up that
text. If not, a block or the end is refused, at the offset where the longest text at the beginning
of the bytes ends, and the pieces before make up a beginning of that text. While no block has been
refused, the pieces and what is pending are the bytes received, the offset counts the bytes of the
pieces, and what is pending is a proper beginning of a character and at most three bytes long; and
the bytes that a further block lets out are a text when they are validated once more. -/
theorem Decoder.blocks_decode_as_whole (blocks : List (List UInt8)) :
    (∀ s, blocks.flatten = encode s →
      ∃ pieces, decodeAll blocks = (pieces, .ok ()) ∧ String.join pieces = s) ∧
    ((∀ s, blocks.flatten ≠ encode s) → ∃ v, LongestText blocks.flatten v ∧
      ∃ pieces more, decodeAll blocks = (pieces, .error v.utf8ByteSize) ∧
        v = String.join pieces ++ more) ∧
    ∀ pieces d, pushAll {} blocks = (pieces, .ok d) →
      encode (String.join pieces) ++ d.pending = blocks.flatten ∧
      d.offset = (encode (String.join pieces)).length ∧
      Unfinished d.pending ∧ d.pending.length ≤ 3 ∧
      ∀ block piece d', d.push block = .ok (piece, d') →
        decode? ((d.pending ++ block).take (d'.offset - d.offset)) = some piece := by
  have hempty : text [] = "" := by rw [text, decode_nil, String.ofList_nil]
  have hall := carries_empty.pushAll blocks
  simp only [List.nil_append, hempty, String.empty_append] at hall
  refine ⟨fun s hs => ?_, fun hinvalid => ⟨_, longestText_iff.2 rfl, ?_⟩, fun pieces d hpush => ?_⟩
  · rcases hall with ⟨pieces, d, hpush, h, htext⟩ | ⟨hinvalid, -⟩
    · refine ⟨pieces, ?_, ?_⟩
      · have hfinish := h.finish
        rw [hs, decode_encode] at hfinish
        simp only [decodeAll, hpush]
        exact congrArg (Prod.mk pieces) hfinish
      · rw [← htext, hs, text_encode]
    · rw [hs, decode_encode] at hinvalid
      cases hinvalid
  · rcases hall with ⟨pieces, d, hpush, h, htext⟩ | ⟨-, pieces, more, hpush, htext⟩
    · have hrest : (decode blocks.flatten).rest ≠ [] := fun hnil => by
        obtain ⟨s, hs⟩ := rest_eq_nil_iff.1 hnil
        exact hinvalid s hs
      have hfinish := h.finish
      rw [if_neg (by simpa using hrest)] at hfinish
      refine ⟨pieces, "", ?_, by rw [String.append_empty, htext]⟩
      simp only [decodeAll, hpush]
      exact congrArg (Prod.mk pieces) hfinish
    · refine ⟨pieces, more, ?_, htext⟩
      simp only [decodeAll, hpush]
      rfl
  · rcases hall with ⟨pieces', d', hpush', h, htext⟩ | ⟨-, pieces', more, hpush', -⟩
    · rw [hpush] at hpush'
      cases hpush'
      obtain ⟨hunfinished, hlength⟩ := h.unfinished
      refine ⟨?_, ?_, hunfinished, hlength, fun block piece d' => decode?_pushed⟩
      · rw [← htext, text, encode_ofList, h.pending, encodeChars_decode]
      · rw [h.offset, htext, length_encode]
    · rw [hpush] at hpush'
      cases hpush'

theorem decode_split : decode [0x61, 0xE2, 0xFF] = ⟨['a'], [0xE2, 0xFF], false⟩ := by
  have hhead : head [0x61, 0xE2, 0xFF] = .char 'a' [0xE2, 0xFF] := rfl
  rw [decode_of_char hhead, decode_of_invalid rfl]

/-- A character of three bytes that arrives in three blocks, one of them empty; a letter, and a
character that is cut short and never comes; and the place between the two. -/
theorem Decoder.blocks_decode_as_whole_split :
    (∃ pieces, decodeAll [[0xE2], [], [0x82, 0xAC]] = (pieces, .ok ()) ∧
      String.join pieces = "€") ∧
    (LongestText [0x61, 0xE2, 0xFF] "a" ∧
      ∃ pieces more, decodeAll [[0x61, 0xE2], [0xFF]] = (pieces, .error 1) ∧
        "a" = String.join pieces ++ more) ∧
    ∃ pieces d, pushAll {} [[0x61, 0xE2]] = (pieces, .ok d) ∧
      encode (String.join pieces) ++ d.pending = [0x61, 0xE2] ∧ Unfinished d.pending := by
  have heuro : [[0xE2], [], [0x82, 0xAC]].flatten = encode "€" := by decide
  have htext : ∀ v, LongestText [0x61, 0xE2, 0xFF] v ↔ v = "a" := fun v => by
    rw [longestText_iff, text, decode_split]
  have hinvalid : ∀ s, [0x61, 0xE2, 0xFF] ≠ encode s := ne_encode (by simp [decode_split])
  have hvalid : (decode [0x61, 0xE2]).valid = true :=
    valid_of_begins (s := "a€") (by decide)
  obtain ⟨v, hv, hrefused⟩ := (blocks_decode_as_whole [[0x61, 0xE2], [0xFF]]).2.1 hinvalid
  obtain rfl := (htext v).1 hv
  refine ⟨(blocks_decode_as_whole _).1 _ heuro, ⟨hv, hrefused⟩, ?_⟩
  rcases carries_empty.pushAll [[0x61, 0xE2]] with ⟨pieces, d, hpush, -⟩ | ⟨hcut, -⟩
  · obtain ⟨hbytes, -, hunfinished, -⟩ := (blocks_decode_as_whole _).2.2 pieces d hpush
    exact ⟨pieces, d, hpush, hbytes, hunfinished⟩
  · exact absurd (hvalid.symm.trans hcut) (by simp)

end PegStream.Utf8
