import PegStream.Pipeline
import PegStream.Proofs.Encoding
import PegStream.Proofs.Settling

/-!
# Pipelines and what a reader delivers

A reader delivers its bytes in blocks cut anywhere, with interruptions, and a pipeline reads as
many of them as it takes to decide the match. Between two reads the decoder and the stream have got
all bytes so far, and what they come to is said by these bytes alone.

* `Script.Delivers`: the bytes that a script delivers before it ends;
* `Pipeline.pump_mono`: more fuel does not change the run of a pipeline that has ended;
* `Pipeline.Pending`, `Pipeline.Pending.pump_block`: a pipeline between two reads, and one read;
* `Pipeline.Pending.drain`: a pipeline reads a script to its end, unless the run is over before, and
  then it has read nothing that follows;
* `Pipeline.Fate`, `Pipeline.fate_runReader`: what a pipeline can come to over a reader that ends.
-/

namespace PegStream

open Machine

/-! ## Scripts -/

namespace Script

/-- The script delivers the bytes in blocks, with interruptions between them, and then ends. -/
inductive Delivers : Script → List UInt8 → Prop
  | nil : Delivers [] []
  | data {block bytes : List UInt8} {rest : Script} : block ≠ [] → Delivers rest bytes →
    Delivers (.data block :: rest) (block ++ bytes)
  | interrupted {bytes : List UInt8} {rest : Script} : Delivers rest bytes →
    Delivers (.interrupted :: rest) bytes

/-- Every block fits into a buffer of the capacity. -/
def Fits (capacity : Nat) (script : Script) : Prop :=
  ∀ block, .data block ∈ script → block.length ≤ capacity

/-- Where a script goes on after a read that is not its end. -/
structure Goes (capacity : Nat) (script rest : Script) : Prop where
  size : size rest < size script
  fits : script.Fits capacity → rest.Fits capacity ∧ script.length = rest.length + 1

/-- A read of a script that delivers bytes is an interruption or gives some of the bytes, and does
not depend on what follows the script. -/
theorem Delivers.read {script : Script} {bytes : List UInt8} {capacity : Nat}
    (h : script.Delivers bytes) (hne : script ≠ []) (hpos : 0 < capacity) :
    (∃ rest, Delivers rest bytes ∧ Goes capacity script rest ∧
      ∀ after, Script.read capacity (script ++ after) = (.interrupted, rest ++ after)) ∨
    ∃ block rest bytes', block ≠ [] ∧ bytes = block ++ bytes' ∧ Delivers rest bytes' ∧
      Goes capacity script rest ∧
      ∀ after, Script.read capacity (script ++ after) = (.bytes block, rest ++ after) := by
  cases h with
  | nil => exact absurd rfl hne
  | @interrupted _ rest hrest =>
    refine .inl ⟨rest, hrest, ⟨?_, fun hf => ⟨fun b hb => ?_, rfl⟩⟩, fun after => rfl⟩
    · simp [size]
    · exact hf b (List.mem_cons_of_mem _ hb)
  | @data block bytes rest hb hrest =>
    have htake : block.take capacity ≠ [] := by
      intro hnil
      rw [List.take_eq_nil_iff] at hnil
      rcases hnil with hnil | hnil
      · omega
      · exact hb hnil
    cases hdrop : block.drop capacity with
    | nil =>
      have hall : block.take capacity = block := by
        have := List.take_append_drop capacity block
        rwa [hdrop, List.append_nil] at this
      refine .inr ⟨block, rest, bytes, hb, rfl, hrest, ⟨?_, fun hf => ⟨fun b hb => ?_, rfl⟩⟩,
        fun after => ?_⟩
      · simp only [size]
        omega
      · exact hf b (List.mem_cons_of_mem _ hb)
      · rw [List.cons_append, Script.read, hall, hdrop]
    | cons b more =>
      refine .inr ⟨block.take capacity, .data (b :: more) :: rest, b :: more ++ bytes, htake, ?_,
        .data (List.cons_ne_nil b more) hrest, ⟨?_, fun hf => ?_⟩, fun after => ?_⟩
      · rw [← hdrop, ← List.append_assoc, List.take_append_drop]
      · have hlen := congrArg List.length hdrop
        rw [List.length_drop, List.length_cons] at hlen
        simp only [size, List.length_cons]
        omega
      · have hlen := congrArg List.length hdrop
        have hle := hf block List.mem_cons_self
        rw [List.length_drop, List.length_cons] at hlen
        omega
      · rw [List.cons_append, Script.read, hdrop]
        rfl

end Script

namespace Pipeline

/-! ## Reads -/

section

variable {p : Pipeline} {rules : RuleBook} {fuel : Nat} {st : Stream} {d : Utf8.Decoder}
  {pulls count : Nat} {script rest : Script}

theorem pump_interrupted (h : script.read p.capacity = (.interrupted, rest)) :
    p.pump rules fuel st d pulls count script = p.pump rules fuel st d (pulls + 1) count rest := by
  rw [pump]
  split <;> rename_i h' <;> cases h.symm.trans h'
  rfl

theorem pump_failed {message : String} (h : script.read p.capacity = (.failed message, rest)) :
    p.pump rules fuel st d pulls count script = abort (.read message) st (pulls + 1) count := by
  rw [pump]
  split <;> rename_i h' <;> cases h.symm.trans h'
  rfl

theorem pump_end (h : script.read p.capacity = (.bytes [], rest)) :
    p.pump rules fuel st d pulls count script =
    match d.finish with
    | .error offset => abort (.invalidUtf8 offset) st (pulls + 1) count
    | .ok () => complete rules fuel st (pulls + 1) count := by
  rw [pump]
  split <;> rename_i h' <;> cases h.symm.trans h'
  rfl

theorem pump_block {block : List UInt8} (h : script.read p.capacity = (.bytes block, rest))
    (hb : block ≠ []) : p.pump rules fuel st d pulls count script =
    match d.push block with
    | .error offset => abort (.invalidUtf8 offset) st (pulls + 1) (count + block.length)
    | .ok (piece, d') =>
      match st.feed rules fuel piece with
      | .error failure => abort (.parse failure) st (pulls + 1) (count + block.length)
      | .ok st' =>
        if st'.status.isDone then complete rules fuel st' (pulls + 1) (count + block.length)
        else p.pump rules fuel st' d' (pulls + 1) (count + block.length) rest := by
  rw [pump]
  split <;> rename_i h' <;> cases h.symm.trans h'
  · exact absurd rfl hb
  · rfl

end

section

variable {p : Pipeline} {rules : RuleBook} {fuel fuel' : Nat}

theorem complete_mono {st : Stream} {pulls count : Nat} (hle : fuel ≤ fuel')
    (h : (complete rules fuel st pulls count).outcome ≠ .error (.parse .outOfFuel)) :
    complete rules fuel' st pulls count = complete rules fuel st pulls count := by
  have houtcome : (complete rules fuel st pulls count).outcome =
      (st.finish rules fuel).outcome.mapError .parse := rfl
  unfold complete
  rw [Stream.finish_mono hle]
  intro ho
  rw [houtcome, ho] at h
  exact h rfl

variable {st : Stream} {d : Utf8.Decoder} {pulls count : Nat} {script rest : Script}

theorem pump_end_mono (hread : script.read p.capacity = (.bytes [], rest)) (hle : fuel ≤ fuel')
    (h : (p.pump rules fuel st d pulls count script).outcome ≠ .error (.parse .outOfFuel)) :
    p.pump rules fuel' st d pulls count script = p.pump rules fuel st d pulls count script := by
  rw [pump_end hread] at h
  rw [pump_end hread, pump_end hread]
  cases hd : d.finish with
  | error offset => rfl
  | ok =>
    rw [hd] at h
    exact complete_mono hle h

theorem pump_block_mono {block : List UInt8} (hb : block ≠ [])
    (hread : script.read p.capacity = (.bytes block, rest)) (hle : fuel ≤ fuel')
    (hrest : ∀ {st d pulls count},
      (p.pump rules fuel st d pulls count rest).outcome ≠ .error (.parse .outOfFuel) →
      p.pump rules fuel' st d pulls count rest = p.pump rules fuel st d pulls count rest)
    (h : (p.pump rules fuel st d pulls count script).outcome ≠ .error (.parse .outOfFuel)) :
    p.pump rules fuel' st d pulls count script = p.pump rules fuel st d pulls count script := by
  rw [pump_block hread hb] at h
  rw [pump_block hread hb, pump_block hread hb]
  cases hd : d.push block with
  | error offset => rfl
  | ok pushed =>
    obtain ⟨piece, d'⟩ := pushed
    rw [hd] at h
    dsimp only at h ⊢
    have hfeed : st.feed rules fuel' piece = st.feed rules fuel piece := by
      refine Stream.feed_mono hle fun hf => ?_
      rw [hf] at h
      exact h rfl
    rw [hfeed]
    cases hf : st.feed rules fuel piece with
    | error failure => rfl
    | ok st' =>
      rw [hf] at h
      dsimp only at h ⊢
      by_cases hdone : st'.status.isDone = true
      · rw [if_pos hdone] at h
        rw [if_pos hdone, if_pos hdone]
        exact complete_mono hle h
      · rw [if_neg hdone] at h
        rw [if_neg hdone, if_neg hdone]
        exact hrest h

/-- A run that has ended takes no more fuel. -/
theorem pump_mono (hle : fuel ≤ fuel')
    (h : (p.pump rules fuel st d pulls count script).outcome ≠ .error (.parse .outOfFuel)) :
    p.pump rules fuel' st d pulls count script = p.pump rules fuel st d pulls count script := by
  induction hn : script.size using Nat.strongRecOn generalizing script st d pulls count with
  | ind size ih =>
    cases hread : script.read p.capacity with
    | mk result rest =>
      have hsize (hmore : result ≠ .bytes []) : rest.size < size :=
        hn ▸ Script.size_read_lt p.capacity_pos hread hmore
      cases result with
      | interrupted =>
        rw [pump_interrupted hread] at h
        rw [pump_interrupted hread, pump_interrupted hread]
        exact ih _ (hsize (fun hf => nomatch hf)) h rfl
      | failed message => rw [pump_failed hread, pump_failed hread]
      | bytes block =>
        by_cases hb : block = []
        · subst hb
          exact pump_end_mono hread hle h
        · have hsize := hsize fun hf => hb (ReadResult.bytes.inj hf)
          exact pump_block_mono hb hread hle (fun h' => ih _ hsize h' rfl) h

/-- An answer of a pipeline does not change with more fuel. -/
theorem returns_runReader {script : Script} {r : Except Failure Value}
    (h : (p.runReader rules fuel script).outcome = r) (hr : r ≠ .error (.parse .outOfFuel)) :
    Returns (fun fuel => (p.runReader rules fuel script).outcome) r := by
  refine ⟨fuel, fun fuel' hfuel => ?_⟩
  subst h
  unfold runReader at hr ⊢
  dsimp only
  cases hs : Stream.start rules p.pattern with
  | error e => rfl
  | ok first =>
    rw [hs] at hr
    dsimp only at hr ⊢
    split
    · rfl
    · rename_i hp
      rw [if_neg hp] at hr
      rw [pump_mono (Nat.le_of_lt hfuel) hr]

end

/-! ## Runs over what a script delivers -/

/-- How a run over a reader can be over before the reader has come to its end. -/
inductive Halts (rules : RuleBook) (q : Pattern) (fuel : Nat) (bytes : List UInt8) :
    Except Failure Value → Prop
  /-- The text decides the match, whatever may follow. -/
  | decided {k : Nat} {status : Status} :
    SettlesIn rules q (Utf8.text bytes).toList false k status → status ≠ .undecided →
    Halts rules q fuel bytes (status.answer.mapError .parse)
  | invalid : (Utf8.decode bytes).valid = false →
    Halts rules q fuel bytes (.error (.invalidUtf8 (Utf8.text bytes).utf8ByteSize))
  /-- There is not enough fuel to match the text. -/
  | spent : (∀ more final k status,
      SettlesIn rules q ((Utf8.text bytes).toList ++ more) final k status → fuel ≤ k) →
    Halts rules q fuel bytes (.error (.parse .outOfFuel))

/-- A pipeline between two reads: the decoder and the stream have got all that was delivered, and
the match is not decided. -/
structure Pending (rules : RuleBook) (q : Pattern) (received : List UInt8) (d : Utf8.Decoder)
    (st : Stream) : Prop where
  carries : Utf8.Carries received d
  stands : ∃ n, st.Stands rules q (Utf8.text received).toList n
  waits : received ≠ [] → ∃ k, SettlesIn rules q (Utf8.text received).toList false k .undecided

variable {p : Pipeline} {rules : RuleBook} {fuel : Nat} {st : Stream} {d : Utf8.Decoder}
  {pulls count : Nat} {script : Script} {received bytes : List UInt8} {held : List Nat}
  {q : Pattern}

theorem isDone_of_ne {status : Status} (h : status ≠ .undecided) : status.isDone = true := by
  cases status with
  | undecided => exact absurd rfl h
  | matched | failed => rfl

theorem text_begins (received more : List UInt8) :
    (Utf8.text received).toList <+: (Utf8.text (received ++ more)).toList := by
  rw [Utf8.text_append, String.toList_append]
  exact List.prefix_append _ _

theorem Halts.append {outcome : Except Failure Value} (h : Halts rules q fuel bytes outcome)
    (more : List UInt8) : Halts rules q fuel (bytes ++ more) outcome := by
  obtain ⟨extra, hextra⟩ := text_begins bytes more
  cases h with
  | decided hs hne =>
    have hall := hs.append hne extra false
    rw [hextra] at hall
    exact .decided hall hne
  | invalid hv =>
    have hall := Utf8.decode_append_of_invalid hv more
    have htext : Utf8.text (bytes ++ more) = Utf8.text bytes := by
      rw [Utf8.text, Utf8.text, hall]
    rw [← htext]
    exact .invalid (by rw [hall])
  | spent hs =>
    refine .spent fun more' final k status hk => hs (extra ++ more') final k status ?_
    rwa [← List.append_assoc, hextra]

/-- A decided run ends with the decision. -/
theorem halts_complete {k : Nat} (h : SettlesIn rules q (Utf8.text bytes).toList false k st.status)
    (hs : st.status ≠ .undecided) (fuel pulls count : Nat) :
    Halts rules q fuel bytes (complete rules fuel st pulls count).outcome := by
  have houtcome : (complete rules fuel st pulls count).outcome = st.status.answer.mapError .parse :=
    congrArg (Except.mapError Failure.parse) (Stream.finish_decided hs rules fuel)
  rw [houtcome]
  exact .decided h hs

/-- A block goes through the decoder to the stream. Then the run is over, or the pipeline goes on
reading. -/
theorem Pending.pump_block (hc : rules.collect q = .ok held) (h : Pending rules q received d st)
    {block : List UInt8} (hb : block ≠ []) (fuel pulls count : Nat) :
    (∃ r : Run, Halts rules q fuel (received ++ block) r.outcome ∧ r.pulls = pulls + 1 ∧
      ∀ (p : Pipeline) script rest, Script.read p.capacity script = (.bytes block, rest) →
        p.pump rules fuel st d pulls count script = r) ∨
    ∃ d' st', Pending rules q (received ++ block) d' st' ∧
      ∀ (p : Pipeline) script rest, Script.read p.capacity script = (.bytes block, rest) →
        p.pump rules fuel st d pulls count script =
          p.pump rules fuel st' d' (pulls + 1) (count + block.length) rest := by
  obtain ⟨n, hst⟩ := h.stands
  rcases h.carries.push block with ⟨piece, d', hpush, hd', htext⟩ | ⟨hinvalid, hpush⟩
  · have hchars : (Utf8.text (received ++ block)).toList =
        (Utf8.text received).toList ++ piece.toList := by rw [htext, String.toList_append]
    cases hf : st.feed rules fuel piece with
    | error e =>
      obtain rfl := hst.feed_error hc hf
      refine .inl ⟨abort (.parse .outOfFuel) st (pulls + 1) (count + block.length), .spent ?_, rfl,
        fun p script rest hread => ?_⟩
      · intro more final k status hk
        refine Nat.le_of_not_lt fun hlt => ?_
        rw [hchars] at hk
        obtain ⟨st', hf'⟩ := hst.feed_ok hk hlt
        cases hf.symm.trans hf'
      · rw [Pipeline.pump_block hread hb, hpush]
        dsimp only
        rw [hf]
    | ok st' =>
      obtain ⟨k, hk⟩ := hst.settlesIn_feed hf
      obtain ⟨n', hst', -⟩ := hst.feed hf
      rw [← hchars] at hk hst'
      by_cases hu : st'.status = .undecided
      · refine .inr ⟨d', st', ⟨hd', ⟨n', hst'⟩, fun _ => ⟨k, hu ▸ hk⟩⟩,
          fun p script rest hread => ?_⟩
        rw [Pipeline.pump_block hread hb, hpush]
        dsimp only
        rw [hf]
        dsimp only
        rw [hu]
        rfl
      · refine .inl ⟨complete rules fuel st' (pulls + 1) (count + block.length),
          halts_complete hk hu _ _ _, rfl, fun p script rest hread => ?_⟩
        rw [Pipeline.pump_block hread hb, hpush]
        dsimp only
        rw [hf]
        dsimp only
        rw [if_pos (isDone_of_ne hu)]
  · refine .inl ⟨abort (.invalidUtf8 (Utf8.text (received ++ block)).utf8ByteSize) st (pulls + 1)
      (count + block.length), .invalid hinvalid, rfl, fun p script rest hread => ?_⟩
    rw [Pipeline.pump_block hread hb, hpush]

/-- A pipeline reads a script to its end, unless the run is over before. Either way it does not
depend on what follows the script, and a run that is over has not read it. -/
theorem Pending.drain (hc : rules.collect q = .ok held) (h : Pending rules q received d st)
    (hs : script.Delivers bytes) (p : Pipeline) (fuel pulls count : Nat) :
    (bytes ≠ [] ∧ ∃ r : Run, Halts rules q fuel (received ++ bytes) r.outcome ∧
      (script.Fits p.capacity → r.pulls ≤ pulls + script.length) ∧
      ∀ after, p.pump rules fuel st d pulls count (script ++ after) = r) ∨
    ∃ d' st' pulls' count', Pending rules q (received ++ bytes) d' st' ∧
      ∀ after, p.pump rules fuel st d pulls count (script ++ after) =
        p.pump rules fuel st' d' pulls' count' after := by
  induction hn : script.size using Nat.strongRecOn
    generalizing script received bytes d st pulls count with
  | ind size ih =>
    by_cases hne : script = []
    · subst hne
      cases hs
      rw [List.append_nil]
      exact .inr ⟨d, st, pulls, count, h, fun after => rfl⟩
    rcases hs.read hne p.capacity_pos with ⟨rest, hrest, hgoes, hread⟩ |
      ⟨block, rest, bytes', hb, rfl, hrest, hgoes, hread⟩
    · have hstep (after : Script) : p.pump rules fuel st d pulls count (script ++ after) =
          p.pump rules fuel st d (pulls + 1) count (rest ++ after) := pump_interrupted (hread after)
      simp only [hstep]
      rcases ih _ (hn ▸ hgoes.size) h hrest (pulls + 1) count rfl with
        ⟨hbytes, r, hr, hpulls, hrun⟩ | hrun
      · refine .inl ⟨hbytes, r, hr, fun hf => ?_, hrun⟩
        obtain ⟨hfits, hlen⟩ := hgoes.fits hf
        have := hpulls hfits
        omega
      · exact .inr hrun
    · have hbytes : block ++ bytes' ≠ [] := by simp [hb]
      rcases h.pump_block hc hb fuel pulls count with ⟨r, hr, hpulls, hrun⟩ | ⟨d', st', h', hrun⟩
      · refine .inl ⟨hbytes, r, ?_, fun hf => ?_, fun after => hrun p _ _ (hread after)⟩
        · rw [← List.append_assoc]
          exact hr.append bytes'
        · have := (hgoes.fits hf).2
          omega
      · simp only [fun after => hrun p _ _ (hread after)]
        rw [← List.append_assoc]
        rcases ih _ (hn ▸ hgoes.size) h' hrest (pulls + 1) (count + block.length) rfl with
          ⟨-, r, hr, hpulls, hrun⟩ | hrun
        · refine .inl ⟨hbytes, r, hr, fun hf => ?_, hrun⟩
          obtain ⟨hfits, hlen⟩ := hgoes.fits hf
          have := hpulls hfits
          omega
        · exact .inr hrun

/-! ## Complete texts -/

/-- The outcome is what the complete text comes to, unless there is not the fuel for that. -/
def Answered (rules : RuleBook) (q : Pattern) (text : List Char) (fuel : Nat)
    (outcome : Except Failure Value) : Prop :=
  (∃ k status, SettlesIn rules q text true k status ∧ outcome = status.answer.mapError .parse) ∨
    outcome = .error (.parse .outOfFuel) ∧
      ∀ k status, SettlesIn rules q text true k status → fuel ≤ k

theorem answered_finish (hc : rules.collect q = .ok held) {text : List Char} {n : Machine Tape}
    (h : st.Stands rules q text n) (fuel : Nat) :
    Answered rules q text fuel ((st.finish rules fuel).outcome.mapError .parse) := by
  rcases h.finish_cases hc fuel with ho | ⟨k, status, hs, ho⟩
  · rw [ho]
    refine .inr ⟨rfl, fun k status hk => Nat.le_of_not_lt fun hlt => ?_⟩
    have hanswer := (h.finish_eq hk hlt).symm.trans ho
    have hne := hk.ne_undecided
    cases status with
    | undecided => exact absurd rfl hne
    | matched | failed => cases hanswer
  · rw [ho]
    exact .inl ⟨k, status, hs, rfl⟩

theorem answered_decided {text : List Char} {n : Machine Tape} (h : st.Stands rules q text n)
    (hs : st.status ≠ .undecided) (more : List Char) (fuel : Nat) :
    Answered rules q (text ++ more) fuel ((st.finish rules fuel).outcome.mapError .parse) := by
  obtain ⟨k, hk⟩ := h.settlesIn hs
  rw [Stream.finish_decided hs]
  exact .inl ⟨k, st.status, hk.append hs more true, rfl⟩

/-- A stream that is fed a text in chunks comes to what the complete text comes to. -/
theorem answered_feedChunks (hc : rules.collect q = .ok held) {text : List Char}
    {n : Machine Tape} (h : st.Stands rules q text n) (chunks : List String) :
    Answered rules q (text ++ (String.join chunks).toList) fuel
      (feedChunks rules fuel st pulls count chunks).outcome := by
  induction chunks generalizing text st n pulls count with
  | nil =>
    rw [String.join_nil, String.toList_empty, List.append_nil]
    exact answered_finish hc h fuel
  | cons chunk chunks ih =>
    rw [String.join_cons, String.toList_append, ← List.append_assoc, feedChunks]
    cases hf : st.feed rules fuel chunk with
    | error e =>
      obtain rfl := h.feed_error hc hf
      refine .inr ⟨rfl, fun k status hk => Nat.le_of_not_lt fun hlt => ?_⟩
      obtain ⟨st', hf'⟩ := h.feed_ok hk hlt
      cases hf.symm.trans hf'
    | ok st' =>
      obtain ⟨n', h', -⟩ := h.feed hf
      dsimp only
      by_cases hu : st'.status = .undecided
      · rw [hu]
        exact ih h'
      · rw [if_pos (isDone_of_ne hu)]
        exact answered_decided h' hu _ fuel

/-! ## Readers that end -/

/-- What a pipeline can come to over a reader that delivers the bytes and then ends. -/
inductive Fate (rules : RuleBook) (q : Pattern) (fuel : Nat) (bytes : List UInt8) :
    Except Failure Value → Prop
  | halted {outcome : Except Failure Value} :
    Halts rules q fuel bytes outcome → Fate rules q fuel bytes outcome
  /-- All bytes are text, and the match was left to its end. -/
  | ended {outcome : Except Failure Value} : (Utf8.decode bytes).rest = [] →
    Answered rules q (Utf8.text bytes).toList fuel outcome → Fate rules q fuel bytes outcome
  /-- The bytes end inside a character, and the match waits for it. -/
  | cut {k : Nat} : (Utf8.decode bytes).rest ≠ [] →
    SettlesIn rules q (Utf8.text bytes).toList false k .undecided →
    Fate rules q fuel bytes (.error (.invalidUtf8 (Utf8.text bytes).utf8ByteSize))

theorem Pending.fate (hc : rules.collect q = .ok held) (h : Pending rules q bytes d st)
    (p : Pipeline) (fuel pulls count : Nat) :
    Fate rules q fuel bytes (p.pump rules fuel st d pulls count []).outcome := by
  obtain ⟨n, hst⟩ := h.stands
  rw [pump_end rfl, h.carries.finish]
  by_cases hrest : (Utf8.decode bytes).rest = []
  · rw [hrest]
    exact .ended hrest (answered_finish hc hst fuel)
  · have hbytes : bytes ≠ [] := by
      rintro rfl
      rw [Utf8.decode_nil] at hrest
      exact hrest rfl
    obtain ⟨k, hk⟩ := h.waits hbytes
    rw [if_neg (by simpa using hrest)]
    exact .cut hrest hk

theorem rest_ne_nil (h : (Utf8.decode bytes).valid = false) : (Utf8.decode bytes).rest ≠ [] := by
  intro hnil
  have hhead := Utf8.head_rest bytes
  rw [h, hnil] at hhead
  cases hhead

/-- Over a reader of a text, a pipeline comes to what the complete text comes to. -/
theorem Fate.answered {outcome : Except Failure Value} (h : Fate rules q fuel bytes outcome)
    (hrest : (Utf8.decode bytes).rest = []) :
    Answered rules q (Utf8.text bytes).toList fuel outcome := by
  cases h with
  | halted h =>
    cases h with
    | @decided k status hs hne =>
      have hall := hs.append hne [] true
      rw [List.append_nil] at hall
      exact .inl ⟨k, status, hall, rfl⟩
    | invalid hv => exact absurd hrest (rest_ne_nil hv)
    | spent hs =>
      refine .inr ⟨rfl, fun k status hk => hs [] true k status ?_⟩
      rwa [List.append_nil]
  | ended _ ha => exact ha
  | cut hne _ => exact absurd hrest hne

/-- Over a reader of what is no text, a pipeline runs out of fuel, finds the byte that is none, or
gives the answer that the text before it decides. -/
theorem Fate.cases {outcome : Except Failure Value} (h : Fate rules q fuel bytes outcome)
    (hrest : (Utf8.decode bytes).rest ≠ []) :
    (outcome = .error (.parse .outOfFuel) ∧
      ∀ k status, SettlesIn rules q (Utf8.text bytes).toList false k status → fuel ≤ k) ∨
    (outcome = .error (.invalidUtf8 (Utf8.text bytes).utf8ByteSize) ∧
      ((Utf8.decode bytes).valid = false ∨
        ∃ k, SettlesIn rules q (Utf8.text bytes).toList false k .undecided)) ∨
    ∃ k status, SettlesIn rules q (Utf8.text bytes).toList false k status ∧
      status ≠ .undecided ∧ outcome = status.answer.mapError .parse := by
  cases h with
  | halted h =>
    cases h with
    | @decided k status hs hne => exact .inr (.inr ⟨k, status, hs, hne, rfl⟩)
    | invalid hv => exact .inr (.inl ⟨rfl, .inl hv⟩)
    | spent hs =>
      refine .inl ⟨rfl, fun k status hk => hs [] false k status ?_⟩
      rwa [List.append_nil]
  | ended hnil _ => exact absurd hnil hrest
  | @cut k _ hs => exact .inr (.inl ⟨rfl, .inr ⟨k, hs⟩⟩)

theorem pending_start (hc : rules.collect q = .ok held) :
    Stream.start rules q = .ok ⟨.start q .empty, .undecided, held⟩ ∧
      Pending rules q [] {} ⟨.start q .empty, .undecided, held⟩ := by
  obtain ⟨hstart, hst⟩ := Stream.stands_start hc
  refine ⟨hstart, Utf8.carries_empty, ⟨begin q [] false, ?_⟩, fun h => absurd rfl h⟩
  rw [Utf8.text, Utf8.decode_nil]
  exact hst

/-- A pipeline whose pattern can be started, and whose buffer memory can hold, reads. -/
theorem runReader_eq (hc : rules.collect p.pattern = .ok held) (hp : p.capacity ≤ maxCapacity)
    (fuel : Nat) (script : Script) : p.runReader rules fuel script =
      p.pump rules fuel ⟨.start p.pattern .empty, .undecided, held⟩ {} 0 0 script := by
  rw [runReader, (pending_start hc).1]
  exact if_neg (Nat.not_lt.2 hp)

theorem fate_runReader (hc : rules.collect p.pattern = .ok held) (hp : p.capacity ≤ maxCapacity)
    (h : script.Delivers bytes) (fuel : Nat) :
    Fate rules p.pattern fuel bytes (p.runReader rules fuel script).outcome := by
  rw [runReader_eq hc hp]
  rcases (pending_start hc).2.drain hc h p fuel 0 0 with
    ⟨-, r, hr, -, hrun⟩ | ⟨d', st', pulls', count', h', hrun⟩
  · rw [← List.append_nil script, hrun]
    exact .halted hr
  · rw [← List.append_nil script, hrun]
    exact h'.fate hc p fuel pulls' count'

end Pipeline

end PegStream
