import PegStream.Proofs.Inputs

/-!
# Inputs in use

A reader looks at the next character of an input, moves past it, and opens and closes checkpoints;
text is added in between. `Source.replay` takes such steps in order, and notes what each of them
gives back and what the input then tells of itself. As long as the contract of the input is kept, an
input received in chunks cannot be told apart from a tape that simply keeps all its text, and no
step on it ever fails:

* `Source.Use`, `Growing.Act`: the steps of a reader, and those of the one who adds text;
* `Source.Keeps`: the steps keep to the contract, which `Use.Permitted` and `Act.Permitted` state;
* `Source.replay_alike`: inputs that agree on every step agree on every run;
* `Chunked.replay_transparent`: the runs of an input received in chunks.
-/

namespace PegStream

namespace Source

/-! ## Steps and answers -/

/-- A step of a reader. -/
inductive Use where
  | peek
  | advance
  | mark
  | commit (cp : Checkpoint)
  | rollback (cp : Checkpoint)

/-- What a step gives back. -/
inductive Reply where
  | done
  | next (c : Option Char)
  | opened (cp : Checkpoint)

/-- What an input tells of itself. -/
structure Facts where
  next : Option Char
  isEmpty : Bool
  isFinal : Bool
  offset : Nat
  position : Position
  openMarks : Nat

/-- An input and the checkpoints that its reader has open, the innermost first. -/
structure Client (σ : Type) where
  input : σ
  opened : List Checkpoint := []

section

variable {σ : Type}

/-- A step that goes through has changed the input by an operation that goes through. -/
theorem ok_of_map {x : Except Fault σ} {f : σ → Client σ} {reply : Reply} {c' : Client σ}
    (h : (do return (Reply.done, f (← x))) = Except.ok (reply, c')) :
    ∃ s, x = .ok s ∧ c' = f s := by
  cases x with
  | error e => cases h
  | ok s => cases h; exact ⟨s, rfl, rfl⟩

variable [Source σ]

/-- What an input tells of itself, if looking at it does not fail. -/
def facts (s : σ) : Except Fault Facts := do
  let next ← Source.peek s
  return {
    next
    isEmpty := next.isNone
    isFinal := Source.isFinal s
    offset := Source.offset s
    position := Source.position s
    openMarks := Source.openMarks s }

namespace Use

def run (c : Client σ) : Use → Except Fault (Reply × Client σ)
  | peek => do return (.next (← Source.peek c.input), c)
  | advance => do return (.done, { c with input := ← Source.advance c.input })
  | mark =>
    let (cp, input) := Source.mark c.input
    .ok (.opened cp, ⟨input, cp :: c.opened⟩)
  | commit cp => do return (.done, ⟨← Source.commit cp c.input, c.opened.tail⟩)
  | rollback cp => do return (.done, ⟨← Source.rollback cp c.input, c.opened.tail⟩)

/-- A character is taken only where there is one, and only the innermost open checkpoint is
closed. -/
def Permitted (c : Client σ) : Use → Prop
  | peek | mark => True
  | advance => ∃ ch, Source.peek c.input = .ok (some ch)
  | commit cp | rollback cp => c.opened.head? = some cp

end Use

end

/-! ## Runs -/

section

variable {σ τ ε α : Type}

/-- Takes some steps in order, and notes what each gives back and what is then seen of the input. -/
def replay (step : Client σ → ε → Except Fault (Reply × Client σ)) (view : σ → Except Fault α) :
    List ε → Client σ → Except Fault (List (Reply × α) × Client σ)
  | [], c => .ok ([], c)
  | e :: es, c => do
    let (reply, c) ← step c e
    let seen ← view c.input
    let (answers, c) ← replay step view es c
    return ((reply, seen) :: answers, c)

/-- Every step is permitted at the time when it is taken. -/
def Keeps (step : Client σ → ε → Except Fault (Reply × Client σ))
    (permitted : Client σ → ε → Prop) : List ε → Client σ → Prop
  | [], _ => True
  | e :: es, c => permitted c e ∧
    ∀ reply c', step c e = .ok (reply, c') → Keeps step permitted es c'

variable {step : Client σ → ε → Except Fault (Reply × Client σ)} {view : σ → Except Fault α}
  {step' : Client τ → ε → Except Fault (Reply × Client τ)} {view' : τ → Except Fault α}
  {permitted : Client σ → ε → Prop} {S : Client σ → Client τ → Prop}

theorem keeps_cons {e : ε} {es : List ε} {c c₁ : Client σ} {reply : Reply} (hp : permitted c e)
    (hs : step c e = .ok (reply, c₁)) (h : Keeps step permitted es c₁) :
    Keeps step permitted (e :: es) c := by
  refine ⟨hp, fun reply' c' hs' => ?_⟩
  rw [hs] at hs'
  cases hs'
  exact h

/-- A run takes its first step, and then the others. -/
theorem replay_cons_ok {e : ε} {es : List ε} {c c₁ c' : Client σ} {reply : Reply} {seen : α}
    {answers : List (Reply × α)} (hs : step c e = .ok (reply, c₁)) (hv : view c₁.input = .ok seen)
    (hr : replay step view es c₁ = .ok (answers, c')) :
    replay step view (e :: es) c = .ok ((reply, seen) :: answers, c') := by
  simp only [replay, hs, hv, hr, bind, Except.bind]
  rfl

/-- Two inputs that agree on every step that is permitted agree on every run that keeps to what is
permitted, and no step of it fails. -/
theorem replay_alike
    (hstep : ∀ c d e, S c d → permitted c e →
      ∃ reply c' d', step c e = .ok (reply, c') ∧ step' d e = .ok (reply, d') ∧ S c' d')
    (hview : ∀ c d, S c d → ∃ seen, view c.input = .ok seen ∧ view' d.input = .ok seen)
    {es : List ε} {c : Client σ} {d : Client τ} (hk : Keeps step permitted es c) (h : S c d) :
    ∃ answers c' d', replay step view es c = .ok (answers, c') ∧
      replay step' view' es d = .ok (answers, d') ∧ S c' d' := by
  induction es generalizing c d with
  | nil => exact ⟨[], c, d, rfl, rfl, h⟩
  | cons e es ih =>
    obtain ⟨hp, hnext⟩ := hk
    obtain ⟨reply, c₁, d₁, hc, hd, h₁⟩ := hstep c d e h hp
    obtain ⟨seen, hv, hv'⟩ := hview c₁ d₁ h₁
    obtain ⟨answers, c', d', hr, hr', h'⟩ := ih (hnext reply c₁ hc) h₁
    exact ⟨(reply, seen) :: answers, c', d', replay_cons_ok hc hv hr, replay_cons_ok hd hv' hr', h'⟩

/-- What a run has done that went through its first step and the others. -/
theorem replay_cons {e : ε} {es : List ε} {c c' : Client σ} {answers : List (Reply × α)}
    (h : replay step view (e :: es) c = .ok (answers, c')) :
    ∃ reply c₁ answers', step c e = .ok (reply, c₁) ∧
      replay step view es c₁ = .ok (answers', c') := by
  rw [replay] at h
  cases hs : step c e with
  | error f => rw [hs] at h; cases h
  | ok r =>
    obtain ⟨reply, c₁⟩ := r
    cases hv : view c₁.input with
    | error f => simp [hs, hv, bind, Except.bind] at h
    | ok seen =>
      cases hr : replay step view es c₁ with
      | error f => simp [hs, hv, hr, bind, Except.bind] at h
      | ok r' =>
        obtain ⟨answers', c₂⟩ := r'
        simp only [hs, hv, hr, bind, Except.bind, pure, Except.pure, Except.ok.injEq,
          Prod.mk.injEq] at h
        exact ⟨reply, c₁, answers', rfl, by rw [← h.2, hr]⟩

end

/-! ## Readers of tapes -/

section

variable {σ : Type} {R : σ → Tape → Prop} {c : Client σ} {d : Client Tape}

/-- The input stands for the tape, and the checkpoints that the two readers have open are those of
the tape. -/
structure Alike (R : σ → Tape → Prop) (c : Client σ) (d : Client Tape) : Prop where
  input : R c.input d.input
  opened : c.opened = d.opened
  records : d.input.records = d.opened

/-- The innermost checkpoint of a reader is the innermost one of the tape. -/
theorem Alike.innermost {cp : Checkpoint} (h : Alike R c d) (hcp : c.opened.head? = some cp) :
    ∃ k ks, d.input.saved = k :: ks ∧ cp = Tape.record d.input.text k ks.length ∧
      Tape.recordsAbove d.input.text 0 ks = c.opened.tail := by
  obtain ⟨cps, ho⟩ := List.head?_eq_some_iff.1 hcp
  have hr : d.input.records = cp :: cps := by rw [h.records, ← h.opened, ho]
  obtain ⟨k, ks, hs, hk, hks⟩ := Tape.records_eq_cons hr
  exact ⟨k, ks, hs, hk.symm, by rw [hks, ho]; rfl⟩

/-- The readers after both have closed their innermost checkpoint. -/
theorem Alike.close {s' : σ} {t' : Tape} (h : Alike R c d) (h' : R s' t')
    (hr : t'.records = c.opened.tail) : Alike R ⟨s', c.opened.tail⟩ ⟨t', d.opened.tail⟩ :=
  ⟨h', by rw [h.opened], by rw [hr, h.opened]⟩

variable [Source σ] {u : Use}

theorem peek_of_follows (F : Follows True R) {s : σ} {t : Tape} (h : R s t) :
    Source.peek s = .ok t.rest.head? := by
  cases hc : t.rest.head? with
  | some ch => exact F.peek h hc
  | none =>
    cases hf : t.final with
    | true => exact (F.ended h hc hf).1
    | false => exact (F.waits trivial h hc hf).1

/-- What is permitted on the input is what is permitted on the tape. -/
theorem Alike.permitted_iff (F : Follows True R) (h : Alike R c d) :
    u.Permitted c ↔ u.Permitted d := by
  cases u with
  | peek | mark => exact Iff.rfl
  | advance => simp only [Use.Permitted, peek_of_follows F h.input, Tape.peek_eq]
  | commit cp | rollback cp => simp only [Use.Permitted, h.opened]

/-- A permitted step gives back the same on the input and on the tape. -/
theorem Alike.use (F : Follows True R) (h : Alike R c d) (hp : u.Permitted c) :
    ∃ reply c' d', u.run c = .ok (reply, c') ∧ u.run d = .ok (reply, d') ∧ Alike R c' d' := by
  cases u with
  | peek =>
    refine ⟨.next d.input.rest.head?, c, d, ?_, rfl, h⟩
    rw [Use.run, peek_of_follows F h.input]
    rfl
  | advance =>
    obtain ⟨ch, hch⟩ := hp
    have hhead : d.input.rest.head? = some ch := by
      rw [peek_of_follows F h.input] at hch
      exact Except.ok.inj hch
    have ht := Tape.advance_eq hhead
    obtain ⟨s', hs', h'⟩ := F.advance h.input ht
    refine ⟨.done, { c with input := s' }, { d with input := _ }, ?_, ?_, ⟨h', h.opened, h.records⟩⟩
    · rw [Use.run, hs']
      rfl
    · rw [Use.run, ht]
      rfl
  | mark =>
    obtain ⟨s', hs', h'⟩ := F.mark h.input
    refine ⟨.opened d.input.mark.1, ⟨s', d.input.mark.1 :: c.opened⟩,
      ⟨d.input.mark.2, d.input.mark.1 :: d.opened⟩, ?_, rfl, ⟨h', ?_, ?_⟩⟩
    · rw [Use.run, hs']
    · rw [h.opened]
    · show Tape.record _ _ (0 + d.input.saved.length) :: d.input.records = _
      rw [Nat.zero_add, h.records]
      rfl
  | commit cp =>
    obtain ⟨k, ks, hs, rfl, hks⟩ := h.innermost hp
    have ht := Tape.commit_cons hs
    obtain ⟨s', hs', h'⟩ := F.commit h.input ht
    refine ⟨.done, ⟨s', c.opened.tail⟩, ⟨_, d.opened.tail⟩, ?_, ?_, h.close h' hks⟩
    · rw [Use.run, hs']
      rfl
    · rw [Use.run, ht]
      rfl
  | rollback cp =>
    obtain ⟨k, ks, hs, rfl, hks⟩ := h.innermost hp
    have ht := Tape.rollback_cons hs
    obtain ⟨s', hs', h'⟩ := F.rollback h.input ht
    refine ⟨.done, ⟨s', c.opened.tail⟩, ⟨_, d.opened.tail⟩, ?_, ?_, h.close h' hks⟩
    · rw [Use.run, hs']
      rfl
    · rw [Use.run, ht]
      rfl

end

end Source

/-! ## Adding text -/

/-- An input that grows while it is read. -/
class Growing (σ : Type) extends Source σ where
  push : String → σ → Except Fault σ
  finish : σ → σ
  /-- The number of bytes received. -/
  received : σ → Nat

instance : Growing Chunked where
  push := Chunked.push
  finish := Chunked.finish
  received := Chunked.received

/-- A tape without text. -/
def Tape.blank : Tape := { text := [], final := false }

/-- A tape adds all text at its end. -/
instance : Growing Tape where
  push text t := .ok { t with text := t.text ++ text.toList }
  finish t := { t with final := true }
  received t := Text.byteCount t.text

namespace Growing

open Source

/-- A step on an input that grows. -/
inductive Act where
  | push (text : String)
  | finish
  | use (use : Use)

namespace Act

section

variable {σ : Type} [Growing σ]

def run (c : Client σ) : Act → Except Fault (Reply × Client σ)
  | push text => do return (.done, { c with input := ← Growing.push text c.input })
  | finish => .ok (.done, { c with input := Growing.finish c.input })
  | use u => u.run c

/-- No text is added after the end, and the reader keeps to its own part of the contract. -/
def Permitted (c : Client σ) : Act → Prop
  | push _ => Source.isFinal c.input = false
  | finish => True
  | use u => u.Permitted c

/-- What can be seen of an input that grows. -/
def view (s : σ) : Except Fault (Facts × Nat) := do return (← facts s, Growing.received s)

end

/-- The text that a step adds, if it adds any. -/
def text? : Act → Option String
  | push text => some text
  | _ => none

end Act

/-- The texts added by some steps, in order. -/
def pushed (acts : List Act) : List String := acts.filterMap Act.text?

theorem pushed_cons (a : Act) (acts : List Act) :
    pushed (a :: acts) = a.text?.toList ++ pushed acts := by
  cases a <;> rfl

end Growing

namespace Chunked

open Source Growing

theorem Represents.facts {s : Chunked} {t : Tape} (h : s.Represents t) :
    Source.facts s = Source.facts t := by
  have hmarks : s.marks.length = t.saved.length := by
    rw [h.marks, Tape.records, Tape.length_recordsAbove]
  change (s.peek >>= fun next => .ok (⟨next, next.isNone, s.finished, s.cursor, s.position,
    s.marks.length⟩ : Facts)) = _
  rw [h.peek, h.finished, h.cursor, h.position, hmarks]
  rfl

/-- A permitted step gives back the same on an input received in chunks and on its tape. -/
theorem act_alike {c : Client Chunked} {d : Client Tape} {a : Act} (h : Alike Represents c d)
    (hp : a.Permitted c) :
    ∃ reply c' d', a.run c = .ok (reply, c') ∧ a.run d = .ok (reply, d') ∧
      Alike Represents c' d' := by
  have hr := h.input
  cases a with
  | push text =>
    have hf : d.input.final = false := hr.finished.symm.trans hp
    have hg : d.input.Grows { d.input with text := d.input.text ++ text.toList } :=
      (Tape.Grows.refl d.input).push hf text.toList
    obtain ⟨s', hs', h'⟩ := hr.push hf text
    refine ⟨.done, { c with input := s' }, { d with input := _ }, ?_, rfl, ⟨h', h.opened, ?_⟩⟩
    · change (Chunked.push text c.input >>= _) = _
      rw [hs']
      rfl
    · exact (hg.records hr.valid).trans h.records
  | finish =>
    exact ⟨.done, { c with input := c.input.finish }, { d with input := _ }, rfl, rfl,
      ⟨hr.finish, h.opened, h.records⟩⟩
  | use u => exact h.use follows hp

theorem view_alike {c : Client Chunked} {d : Client Tape} (h : Alike Represents c d) :
    ∃ seen, Act.view c.input = .ok seen ∧ Act.view d.input = .ok seen := by
  have hr : Growing.received c.input = Growing.received d.input := h.input.received
  refine ⟨(⟨_, _, _, _, _, _⟩, Growing.received d.input), ?_, rfl⟩
  rw [Act.view, h.input.facts, hr]
  rfl

/-! ## The text of the tape -/

theorem text_use {d d' : Client Tape} {u : Use} {reply : Reply}
    (h : u.run d = .ok (reply, d')) : d'.input.text = d.input.text := by
  cases u with
  | peek => cases h; rfl
  | mark => cases h; rfl
  | advance =>
    obtain ⟨t, ht, rfl⟩ := ok_of_map h
    obtain ⟨ch, -, rfl⟩ := Tape.advance_ok ht
    rfl
  | commit cp =>
    obtain ⟨t, ht, rfl⟩ := ok_of_map h
    obtain ⟨k, ks, -, -, rfl⟩ := Tape.commit_ok ht
    rfl
  | rollback cp =>
    obtain ⟨t, ht, rfl⟩ := ok_of_map h
    obtain ⟨k, ks, -, -, rfl⟩ := Tape.rollback_ok ht
    rfl

/-- A tape keeps all the text that is added to it. -/
theorem text_replay {acts : List Act} {d d' : Client Tape} {answers : List (Reply × Facts × Nat)}
    (h : replay Act.run Act.view acts d = .ok (answers, d')) :
    d'.input.text = d.input.text ++ (String.join (pushed acts)).toList := by
  induction acts generalizing d answers with
  | nil =>
    cases h
    simp [pushed]
  | cons a acts ih =>
    obtain ⟨reply, d₁, answers', ha, hr⟩ := replay_cons h
    rw [ih hr, pushed_cons]
    cases a with
    | push text =>
      cases ha
      simp [Act.text?, String.join_cons]
    | finish => cases ha; rfl
    | use u => rw [text_use ha]; rfl

/-! ## All text first -/

/-- An input that has received some chunks and its end. -/
def ofChunks (chunks : List String) : Except Fault Chunked :=
  finish <$> chunks.foldlM (fun s text => s.push text) empty

theorem represents_pushes {s : Chunked} {t : Tape} (h : s.Represents t) (hf : t.final = false)
    (chunks : List String) :
    ∃ s', chunks.foldlM (fun s text => s.push text) s = .ok s' ∧
      s'.Represents { t with text := t.text ++ (String.join chunks).toList } := by
  induction chunks generalizing s t with
  | nil => exact ⟨s, rfl, by simpa using h⟩
  | cons text chunks ih =>
    obtain ⟨s₁, hs₁, h₁⟩ := h.push hf text
    obtain ⟨s', hs', h'⟩ := ih h₁ hf
    refine ⟨s', ?_, ?_⟩
    · rw [List.foldlM_cons, hs₁]
      exact hs'
    · rw [String.join_cons, String.toList_append, ← List.append_assoc]
      exact h'

theorem represents_ofChunks (chunks : List String) : ∃ s, ofChunks chunks = .ok s ∧
    s.Represents { text := (String.join chunks).toList, final := true } := by
  obtain ⟨s, hs, h⟩ := represents_pushes represents_empty rfl chunks
  refine ⟨s.finish, ?_, h.finish⟩
  rw [ofChunks, hs]
  rfl

end Chunked

theorem Whole.Represents.facts {s : Whole} {t : Tape} (h : s.Represents t) :
    Source.facts s = Source.facts t := by
  show (s.peek >>= fun next => .ok (⟨next, next.isNone, true, s.cursor, s.position, s.marks⟩ :
    Source.Facts)) = _
  rw [h.peek, h.cursor, h.position, h.marks]
  show _ = Except.ok (⟨_, _, t.final, _, _, _⟩ : Source.Facts)
  rw [h.final]
  rfl

namespace Chunked

open Source Growing

/-- Reading an input received in chunks gives the same answers as reading the text all at once, if
both stand for the same tape. -/
theorem reads_as_whole {s : Chunked} {w : Whole} {t : Tape} (hs : s.Represents t)
    (hw : w.Represents t) (ht : t.saved = []) {uses : List Use}
    (hk : Keeps Use.run Use.Permitted uses ⟨s, []⟩) :
    ∃ answers c d, replay Use.run Source.facts uses ⟨s, []⟩ = .ok (answers, c) ∧
      replay Use.run Source.facts uses ⟨w, []⟩ = .ok (answers, d) := by
  let Both (c : Client Chunked) (d : Client Whole) : Prop :=
    ∃ e, Alike Chunked.Represents c e ∧ Alike Whole.Represents d e
  have hrecords : t.records = [] := by rw [Tape.records, ht]; rfl
  have hstart : Both ⟨s, []⟩ ⟨w, []⟩ := ⟨⟨t, []⟩, ⟨hs, rfl, hrecords⟩, ⟨hw, rfl, hrecords⟩⟩
  have hstep : ∀ c d (u : Use), Both c d → u.Permitted c → ∃ reply c' d',
      u.run c = .ok (reply, c') ∧ u.run d = .ok (reply, d') ∧ Both c' d' := by
    rintro c d u ⟨e, hc, hd⟩ hp
    obtain ⟨reply, c', e', hc', he', hce⟩ := hc.use Chunked.follows hp
    have hp' : u.Permitted d :=
      (hd.permitted_iff Whole.follows).2 ((hc.permitted_iff Chunked.follows).1 hp)
    obtain ⟨reply', d', e'', hd', he'', hde⟩ := hd.use Whole.follows hp'
    rw [he'] at he''
    cases he''
    exact ⟨reply, c', d', hc', hd', e', hce, hde⟩
  have hview : ∀ c d, Both c d → ∃ seen, Source.facts c.input = .ok seen ∧
      Source.facts d.input = .ok seen := by
    rintro c d ⟨e, hc, hd⟩
    exact ⟨⟨_, _, _, _, _, _⟩, hc.input.facts, hd.input.facts⟩
  obtain ⟨answers, c, d, hc, hd, -⟩ := replay_alike hstep hview hk hstart
  exact ⟨answers, c, d, hc, hd⟩

/-- An input received in chunks is transparent. Whatever text is added to it and however it is read,
as long as its contract is kept no step on it fails, and every answer is that of a tape that keeps
all the text: its position is where the characters before the cursor lead. If all the text is added
first, the answers are those of the complete text. -/
theorem replay_transparent :
    (∀ acts : List Act, Keeps Act.run Act.Permitted acts ⟨Chunked.empty, []⟩ → ∃ answers c d,
      replay Act.run Act.view acts ⟨Chunked.empty, []⟩ = .ok (answers, c) ∧
      replay Act.run Act.view acts ⟨Tape.blank, []⟩ = .ok (answers, d) ∧
      d.input.text = (String.join (pushed acts)).toList ∧
      c.input.position = Position.start.advanceAll (d.input.text.take d.input.cursor) ∧
      c.input.cursor = Text.byteCount (d.input.text.take d.input.cursor)) ∧
    ∀ (chunks : List String) (uses : List Use), ∃ s, Chunked.ofChunks chunks = .ok s ∧
      (Keeps Use.run Use.Permitted uses ⟨s, []⟩ → ∃ answers c d,
        replay Use.run Source.facts uses ⟨s, []⟩ = .ok (answers, c) ∧
        replay Use.run Source.facts uses ⟨Whole.ofString (String.join chunks), []⟩ =
          .ok (answers, d)) := by
  refine ⟨fun acts hk => ?_, fun chunks uses => ?_⟩
  · have hstart : Alike Represents ⟨Chunked.empty, []⟩ ⟨Tape.blank, []⟩ :=
      ⟨represents_empty, rfl, rfl⟩
    have hstep : ∀ c d (a : Act), Alike Represents c d → a.Permitted c → ∃ reply c' d',
        a.run c = .ok (reply, c') ∧ a.run d = .ok (reply, d') ∧ Alike Represents c' d' :=
      fun _ _ _ h hp => act_alike h hp
    obtain ⟨answers, c, d, hc, hd, h⟩ := replay_alike hstep (fun _ _ h => view_alike h) hk hstart
    exact ⟨answers, c, d, hc, hd, text_replay hd, h.input.position, h.input.cursor⟩
  · obtain ⟨s, hs, hR⟩ := represents_ofChunks chunks
    exact ⟨s, hs, fun hk => reads_as_whole hR (Whole.represents_ofString _) rfl hk⟩

/-- A checkpoint in front of the first chunk is used to read again from there, after the second
chunk has arrived, and the third one goes on after a line break. -/
def readAgain : List Act :=
  [.push "é", .use .mark, .use .advance, .push "", .push "\n", .use .advance,
    .use (.rollback ⟨0, .start, 0⟩), .push "b", .use .advance, .use .advance, .finish, .use .peek]

theorem replay_transparent_readAgain : ∃ answers c d,
    replay Act.run Act.view readAgain ⟨Chunked.empty, []⟩ = .ok (answers, c) ∧
      replay Act.run Act.view readAgain ⟨Tape.blank, []⟩ = .ok (answers, d) ∧
      c.input.position = Position.start.advanceAll (d.input.text.take d.input.cursor) := by
  have hk : Keeps Act.run Act.Permitted readAgain ⟨Chunked.empty, []⟩ :=
    keeps_cons rfl rfl <| keeps_cons trivial rfl <| keeps_cons ⟨'é', rfl⟩ rfl <|
    keeps_cons rfl rfl <| keeps_cons rfl rfl <| keeps_cons ⟨'\n', rfl⟩ rfl <|
    keeps_cons rfl rfl <| keeps_cons rfl rfl <| keeps_cons ⟨'é', rfl⟩ rfl <|
    keeps_cons ⟨'\n', rfl⟩ rfl <| keeps_cons trivial rfl <| keeps_cons trivial rfl trivial
  obtain ⟨answers, c, d, hc, hd, -, hpos, -⟩ := replay_transparent.1 readAgain hk
  exact ⟨answers, c, d, hc, hd, hpos⟩

end Chunked

end PegStream
