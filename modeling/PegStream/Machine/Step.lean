import PegStream.Machine.Scan

/-!
# Steps of a match

`Machine.step` does the next thing: it enters a pattern, reads a character of a token, or hands an
outcome to the frame that waits for it. Every frame closes its own checkpoint: it commits what
matched, and goes back where a failed attempt started. A sequence has no checkpoint of its own and
leaves the cursor where a part failed, since whoever can go on from a failure goes back itself.

Rounds that read nothing end their loop: a repetition stops after such a round, a list after such a
separator and element, and the skipping in front of a token after such a match.
-/

namespace PegStream.Machine

variable {σ : Type} [Source σ]

/-! ## Starting parts -/

/-- Goes on with the parts of a sequence that are still to come. -/
def nextPart (scope : Scope) (values : List Value) (rest : List Pattern) (m : Machine σ) :
    Machine σ :=
  match rest with
  | [] => m.goto (.matched (.ofParts values.reverse))
  | p :: rest => m.call (.sequence (!p.isSilent) rest scope values) p scope

/-- Goes on with the branches of an alternative that are still to come. -/
def nextBranch (scope : Scope) (rest : List Pattern) (m : Machine σ) : Machine σ :=
  match rest with
  | [] => m.goto .failed
  | p :: rest =>
    let (cp, m) := m.mark
    m.call (.alternative (!p.isSilent) rest scope cp) p scope

/-- Ends a repetition with what it has. -/
def endRounds (entry : Option Checkpoint) (collected : Collected) (m : Machine σ) :
    Except Fault (Machine σ) := do
  let m ← match entry with
    | some cp => m.commit cp
    | none => pure m
  return m.goto (.matched collected.finish)

/-- Starts one more round of a repetition, unless it has had its fill. -/
def nextRound (operand : Pattern) (bounds : Bounds) (scope : Scope) (entry : Option Checkpoint)
    (count : Nat) (collected : Collected) (m : Machine σ) : Except Fault (Machine σ) :=
  if bounds.isFull count then m.endRounds entry collected
  else
    let (cp, m) := m.mark
    .ok (m.call (.repetition operand bounds scope entry cp count collected) operand scope)

/-- Starts a repetition. One that needs a round keeps its entry, to go back there if it fails. -/
def startRounds (operand : Pattern) (bounds : Bounds) (scope : Scope) (m : Machine σ) :
    Except Fault (Machine σ) :=
  let collected := Collected.ofShape operand.shape
  if bounds.min = 0 then m.nextRound operand bounds scope none 0 collected
  else
    let (entry, m) := m.mark
    m.nextRound operand bounds scope (some entry) 0 collected

/-! ## Entering a pattern -/

/-- Enters a pattern. -/
def enter (rules : RuleBook) (p : Pattern) (scope : Scope) (m : Machine σ) :
    Except Fault (Machine σ) :=
  match p with
  | .char accepted => .ok (m.goto (.ofToken scope (.scan (.char accepted))))
  | .literal text => .ok (m.goto (.ofToken scope (.scan (.literal text.toList))))
  | .endOfInput => .ok (m.goto (.ofToken scope (.scan .endOfInput)))
  | .pass => .ok (m.goto (.matched .nil))
  | .fail => .ok (m.goto .failed)
  | .int format => .ok (m.goto (.ofToken scope (.scan (.int format {}))))
  | .symbol table =>
    .ok (m.goto (.ofToken scope (.scan (.symbol table SymbolTable.root none))))
  | .sequence parts => .ok (m.nextPart scope [] parts)
  | .alternative branches => .ok (m.nextBranch scope branches)
  | .repetition operand bounds => m.startRounds operand bounds scope
  | .optional operand =>
    let (cp, m) := m.mark
    .ok (m.call (.optional (!operand.isSilent) cp) operand scope)
  | .list operand separator =>
    let (cp, m) := m.mark
    let collected := Collected.ofShape operand.shape
    .ok (m.call (.listElement operand separator scope cp true collected) operand scope)
  | .except operand excluded =>
    let (cp, m) := m.mark
    .ok (m.call (.except operand scope cp) excluded scope)
  | .not operand =>
    let (cp, m) := m.mark
    .ok (m.call (.not cp) operand scope)
  | .discard operand => .ok (m.call .discard operand scope)
  | .map operand f => .ok (m.call (.map f) operand scope)
  | .tap operand label => .ok (m.call (.tap label) operand scope)
  | .lexeme operand => .ok (m.goto (.ofToken scope (.lexeme operand)))
  | .skipping operand skipper => .ok (m.goto (.enter operand (some skipper)))
  | .rule ref => return m.goto (.enter (← rules.resolve ref) scope)

/-- Starts a match of the skipper in front of a token. -/
def skip (skipper : Pattern) (next : Token) (m : Machine σ) : Machine σ :=
  let (cp, m) := m.mark
  m.call (.noise skipper next cp) skipper none

/-! ## Outcomes of parts -/

/-- Goes on after the part that a frame waited for has matched. -/
def resume (frame : Frame) (v : Value) (m : Machine σ) : Except Fault (Machine σ) := do
  match frame with
  | .noise skipper next cp =>
    let moved := m.hasPassed cp
    let m ← m.commit cp
    return m.goto (if moved then .skip skipper next else next.control)
  | .sequence keep rest scope values =>
    return m.nextPart scope (if keep then v :: values else values) rest
  | .alternative keep _ _ cp =>
    return (← m.commit cp).goto (.matched (if keep then v else .nil))
  | .repetition operand bounds scope entry cp count collected =>
    let collected ← collected.push v
    let moved := m.hasPassed cp
    let m ← m.commit cp
    if moved then m.nextRound operand bounds scope entry (count + 1) collected
    else m.endRounds entry collected
  | .listElement operand separator scope cp first collected =>
    let collected ← collected.push v
    let moved := m.hasPassed cp
    let m ← m.commit cp
    if first || moved then
      let (cp, m) := m.mark
      return m.call (.listSeparator operand separator scope cp collected) separator scope
    else return m.goto (.matched collected.finish)
  | .listSeparator operand separator scope cp collected =>
    return m.call (.listElement operand separator scope cp false collected) operand scope
  | .optional keep cp => return (← m.commit cp).goto (.matched (if keep then v else .nil))
  | .except _ _ cp | .not cp => return (← m.rollback cp).goto .failed
  | .discard => return m.goto (.matched .nil)
  | .map f => return m.goto (.matched (f v))
  | .tap label => return { m with control := .matched .nil, log := ⟨label, v⟩ :: m.log }

/-- Goes on after the part that a frame waited for has failed. -/
def recover (frame : Frame) (m : Machine σ) : Except Fault (Machine σ) := do
  match frame with
  | .noise _ next cp => return (← m.rollback cp).goto next.control
  | .alternative _ rest scope cp => return (← m.rollback cp).nextBranch scope rest
  | .repetition _ bounds _ entry cp count collected =>
    let m ← m.rollback cp
    if bounds.min ≤ count then m.endRounds entry collected
    else
      let m ← match entry with
        | some cp => m.rollback cp
        | none => pure m
      return m.goto .failed
  | .listElement _ _ _ cp _ collected | .listSeparator _ _ _ cp collected =>
    return (← m.rollback cp).goto (.matched collected.finish)
  | .optional _ cp | .not cp => return (← m.rollback cp).goto (.matched .nil)
  | .except operand scope cp => return (← m.rollback cp).goto (.enter operand scope)
  | .sequence _ _ _ _ | .discard | .map _ | .tap _ => return m.goto .failed

/-! ## Steps -/

/-- Does the next thing. -/
def step (rules : RuleBook) (m : Machine σ) : Except Fault (Step σ) :=
  match m.control, m.stack with
  | .enter p scope, _ => .moved <$> m.enter rules p scope
  | .skip skipper next, _ => .ok (.moved (m.skip skipper next))
  | .scan token, _ => m.scan token
  | .matched v, [] => .ok (.halted (some v))
  | .matched v, frame :: stack => .moved <$> resume frame v { m with stack }
  | .failed, [] => .ok (.halted none)
  | .failed, frame :: stack => .moved <$> recover frame { m with stack }

end PegStream.Machine
