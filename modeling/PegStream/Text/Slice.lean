import PegStream.Error

/-!
# Texts read at byte offsets

A cursor is a byte offset into a text. An offset beyond the end, or inside the encoding of a
character, is a fault: nothing can be read there. At the offset that follows a given beginning of
the text, these operations are what they should be on lists of characters:

* `charAt_append`: the next character is the first one of the rest;
* `dropBytes_append`, `takeBytes_append`: the text after and before the cursor.
-/

namespace PegStream.Text

/-- The character at a byte offset, or nothing at the end of the text. -/
def charAt (text : String) (offset : Nat) : Except Fault (Option Char) :=
  if String.Pos.Raw.isValid text ⟨offset⟩ then .ok (String.Pos.Raw.get? text ⟨offset⟩)
  else if text.utf8ByteSize < offset then .error (.outOfBounds offset text.utf8ByteSize)
  else .error (.splitsCharacter offset text)

/-- The text from a byte offset on. -/
def dropBytes (text : String) (offset : Nat) : String :=
  String.Pos.Raw.extract text ⟨offset⟩ text.rawEndPos

/-- The text before a byte offset. -/
def takeBytes (text : String) (offset : Nat) : String :=
  String.Pos.Raw.extract text 0 ⟨offset⟩

/-! ## Offsets after a beginning -/

/-- The number of bytes that some characters take. -/
def byteCount : List Char → Nat
  | [] => 0
  | c :: cs => c.utf8Size + byteCount cs

@[simp] theorem byteCount_nil : byteCount [] = 0 := rfl

@[simp] theorem byteCount_cons (c : Char) (cs : List Char) :
    byteCount (c :: cs) = c.utf8Size + byteCount cs := rfl

@[simp] theorem byteCount_append (cs ds : List Char) :
    byteCount (cs ++ ds) = byteCount cs + byteCount ds := by
  induction cs with
  | nil => rw [List.nil_append, byteCount_nil, Nat.zero_add]
  | cons c cs ih => rw [List.cons_append, byteCount_cons, byteCount_cons, ih, Nat.add_assoc]

theorem utf8ByteSize_ofList (cs : List Char) : (String.ofList cs).utf8ByteSize = byteCount cs := by
  induction cs with
  | nil => rfl
  | cons c cs ih =>
    have split : String.ofList (c :: cs) = String.ofList [c] ++ String.ofList cs := by
      rw [← String.ofList_append]; rfl
    have one : (String.ofList [c]).utf8ByteSize = c.utf8Size := by
      rw [← String.singleton_eq_ofList, String.utf8ByteSize_singleton]
    rw [split, String.utf8ByteSize_append, one, ih, byteCount_cons]

theorem utf8ByteSize_eq (s : String) : s.utf8ByteSize = byteCount s.toList := by
  rw [← utf8ByteSize_ofList, String.ofList_toList]

/-- The offset of a first character differs from every later one. -/
theorem offset_ne (c : Char) (cs : List Char) (i : Nat) :
    (⟨i⟩ : String.Pos.Raw) ≠ ⟨i + byteCount (c :: cs)⟩ := by
  intro h
  have pos := c.utf8Size_pos
  have : i = i + byteCount (c :: cs) := congrArg String.Pos.Raw.byteIdx h
  rw [byteCount_cons] at this
  omega

theorem add_byteCount_cons (c : Char) (cs : List Char) (i : Nat) :
    i + byteCount (c :: cs) = i + c.utf8Size + byteCount cs := by
  rw [byteCount_cons, Nat.add_assoc]

theorem utf8GetAux?_cons (c : Char) (cs : List Char) (i p : String.Pos.Raw) :
    String.Pos.Raw.utf8GetAux? (c :: cs) i p =
      if i = p then some c else String.Pos.Raw.utf8GetAux? cs (i + c) p := rfl

/-- Reading a list of characters after the beginning `cs`, when the first one is at byte `i`. -/
theorem utf8GetAux?_append (cs ds : List Char) (i : Nat) :
    String.Pos.Raw.utf8GetAux? (cs ++ ds) ⟨i⟩ ⟨i + byteCount cs⟩ = ds.head? := by
  induction cs generalizing i with
  | nil =>
    cases ds with
    | nil => rfl
    | cons d ds =>
      rw [List.nil_append, byteCount_nil, Nat.add_zero, utf8GetAux?_cons, if_pos rfl]
      rfl
  | cons c cs ih =>
    rw [List.cons_append, utf8GetAux?_cons, if_neg (offset_ne c cs i), add_byteCount_cons]
    exact ih _

/-- After a beginning of the text the next character is the first one of the rest. -/
theorem charAt_append (cs ds : List Char) :
    charAt (String.ofList (cs ++ ds)) (byteCount cs) = .ok ds.head? := by
  have valid : String.Pos.Raw.isValid (String.ofList (cs ++ ds)) ⟨byteCount cs⟩ = true := by
    rw [String.Pos.Raw.isValid_eq_true_iff, String.Pos.Raw.isValid_iff_exists_append]
    refine ⟨String.ofList cs, String.ofList ds, String.ofList_append, ?_⟩
    rw [← utf8ByteSize_ofList]; rfl
  have next : String.Pos.Raw.get? (String.ofList (cs ++ ds)) ⟨byteCount cs⟩ =
      String.Pos.Raw.utf8GetAux? (cs ++ ds) ⟨0⟩ ⟨0 + byteCount cs⟩ := by
    rw [Nat.zero_add]
    exact congrArg (String.Pos.Raw.utf8GetAux? · ⟨0⟩ ⟨byteCount cs⟩) String.toList_ofList
  rw [charAt, if_pos valid, next, utf8GetAux?_append]

theorem go₂_cons (c : Char) (cs : List Char) (i e : String.Pos.Raw) :
    String.Pos.Raw.extract.go₂ (c :: cs) i e =
      if i = e then [] else c :: String.Pos.Raw.extract.go₂ cs (i + c) e := rfl

/-- Cutting the end off a list of characters at the byte after `cs`. -/
theorem go₂_append (cs ds : List Char) (i : Nat) :
    String.Pos.Raw.extract.go₂ (cs ++ ds) ⟨i⟩ ⟨i + byteCount cs⟩ = cs := by
  induction cs generalizing i with
  | nil =>
    cases ds with
    | nil => rfl
    | cons d ds => rw [List.nil_append, byteCount_nil, Nat.add_zero, go₂_cons, if_pos rfl]
  | cons c cs ih =>
    rw [List.cons_append, go₂_cons, if_neg (offset_ne c cs i), add_byteCount_cons]
    exact congrArg (c :: ·) (ih _)

theorem go₁_cons (c : Char) (cs : List Char) (i b e : String.Pos.Raw) :
    String.Pos.Raw.extract.go₁ (c :: cs) i b e =
      if i = b then String.Pos.Raw.extract.go₂ (c :: cs) i e
      else String.Pos.Raw.extract.go₁ cs (i + c) b e := rfl

/-- Cutting a list of characters down to those from the byte after `cs` to the one after `ds`. -/
theorem go₁_append (cs ds : List Char) (i : Nat) :
    String.Pos.Raw.extract.go₁ (cs ++ ds) ⟨i⟩ ⟨i + byteCount cs⟩
      ⟨i + byteCount cs + byteCount ds⟩ = ds := by
  induction cs generalizing i with
  | nil =>
    cases ds with
    | nil => rfl
    | cons d ds =>
      rw [List.nil_append, byteCount_nil, Nat.add_zero, go₁_cons, if_pos rfl]
      have := go₂_append (d :: ds) [] i
      rwa [List.append_nil] at this
  | cons c cs ih =>
    rw [List.cons_append, go₁_cons, if_neg (offset_ne c cs i), add_byteCount_cons]
    exact ih _

theorem extract_ofList (cs : List Char) (b e : Nat) :
    String.Pos.Raw.extract (String.ofList cs) ⟨b⟩ ⟨e⟩ =
      if e ≤ b then "" else String.ofList (String.Pos.Raw.extract.go₁ cs ⟨0⟩ ⟨b⟩ ⟨e⟩) :=
  congrArg (fun l => if e ≤ b then "" else
    String.ofList (String.Pos.Raw.extract.go₁ l ⟨0⟩ ⟨b⟩ ⟨e⟩)) String.toList_ofList

/-- After a beginning of the text stands the rest. -/
theorem dropBytes_append (cs ds : List Char) :
    dropBytes (String.ofList (cs ++ ds)) (byteCount cs) = String.ofList ds := by
  have stop : (String.ofList (cs ++ ds)).rawEndPos = ⟨byteCount cs + byteCount ds⟩ := by
    rw [← byteCount_append, ← utf8ByteSize_ofList]
    rfl
  rw [dropBytes, stop, extract_ofList]
  split
  · rename_i h
    cases ds with
    | nil => rfl
    | cons d ds =>
      have pos := d.utf8Size_pos
      rw [byteCount_cons] at h
      omega
  · have := go₁_append cs ds 0
    rw [Nat.zero_add] at this
    exact congrArg String.ofList this

/-- Before the offset after a beginning of the text stands that beginning. -/
theorem takeBytes_append (cs ds : List Char) :
    takeBytes (String.ofList (cs ++ ds)) (byteCount cs) = String.ofList cs := by
  refine (extract_ofList (cs ++ ds) 0 (byteCount cs)).trans ?_
  cases cs with
  | nil => rfl
  | cons c cs =>
    have pos := c.utf8Size_pos
    have := go₂_append (c :: cs) ds 0
    rw [Nat.zero_add] at this
    rw [if_neg (by rw [byteCount_cons]; omega), List.cons_append, go₁_cons, if_pos rfl,
      ← List.cons_append, this]

end PegStream.Text
